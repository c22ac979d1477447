import Entailment.Proofs.Forward.Forest
import Mathlib.Data.List.Nodup

/-!
# The upkeep of the forest

Whatever tokens are stored, whatever becomes of them, and whatever triples are taken
away, a memory stays a forest: its listings hold the tokens that are there, each under its
own parent, triple, level and key, and nothing else.  Taking a triple away takes the
tokens that hold it, gives the complete ones among them, and leaves the others alone.
-/

namespace Entailment

/-! ## Lists that are not empty -/

namespace TokenIndex

variable {κ : Type} [BEq κ]

/-- Something is listed under every key of the index. -/
def Filled (index : TokenIndex κ) : Prop := ∀ k ids, index.get? k = some ids → ids.members ≠ []

variable [EquivBEq κ] {index : TokenIndex κ}

theorem Filled.add (h : index.Filled) (k : κ) (id : TokenId) : (index.add k id).Filled := by
  intro j ids hj
  rw [TokenIndex.add, OrderedMap.get?_alter] at hj
  split at hj
  · obtain rfl := Option.some.inj hj
    rw [OrderedSet.members_insert]
    split
    · rename_i hcontains
      obtain ⟨a, ha, _⟩ := OrderedSet.contains_iff.1 hcontains
      exact List.ne_nil_of_mem ha
    · simp
  · exact h j ids hj

theorem Filled.remove (h : index.Filled) (k : κ) (id : TokenId) : (index.remove k id).Filled := by
  intro j ids hj
  unfold TokenIndex.remove at hj
  split at hj
  · exact h j ids hj
  · rw [OrderedMap.get?_store] at hj
    split at hj
    · split at hj
      · cases hj
      · rename_i hfilled
        obtain rfl := Option.some.inj hj
        rwa [OrderedSet.isEmpty_iff] at hfilled
    · exact h j ids hj

end TokenIndex

namespace TokenMemory

/-! ## The memories there are -/

/-- What is asked of a token that is to be stored: its number is not taken, nothing extends
it yet, and it stands one level above its parent, if it has one. -/
structure Welcomes (m : TokenMemory) (id : TokenId) (token : Token) : Prop where
  fresh : m.token? id = none
  childless : token.children = []
  next : ∀ p, token.parent = some p →
    ∃ below, m.token? p = some below ∧ token.level = below.level + 1

/-- What comes from the empty memory by storing tokens, noting what became of them, and
taking triples away. -/
inductive Reachable : TokenMemory → Prop where
  | empty : Reachable .empty
  | insert {m m' : TokenMemory} {id : TokenId} {token : Token} :
      Reachable m → m.Welcomes id token → m.insert id token = some m' → Reachable m'
  | setFiring {m : TokenMemory} (id : TokenId) (firing : Firing) :
      Reachable m → Reachable (m.setFiring id firing)
  | removeHolding {m : TokenMemory} (t : Triple) :
      Reachable m → Reachable (m.removeHolding t).2

/-! ## What holds of them -/

/-- Every token is listed as what it is, and nothing else is listed. -/
structure IsForest (m : TokenMemory) : Prop where
  mem_children_iff : ∀ p id, id ∈ m.children p ↔
    ∃ token, m.token? id = some token ∧ token.parent = some p
  nodup_children : ∀ p, (m.children p).Nodup
  edge_iff : ∀ parent t id, m.edges.get? (parent, t) = some id ↔
    ∃ token, m.token? id = some token ∧ token.parent = parent ∧ (token.triple == t) = true
  mem_joining_iff : ∀ level key id, id ∈ m.joining level key ↔
    ∃ token, m.token? id = some token ∧ token.level = level ∧ (token.key == key) = true
  mem_byTriple_iff : ∀ t id, id ∈ m.byTriple.ids t ↔
    ∃ token, m.token? id = some token ∧ (token.triple == t) = true
  filled_byKey : m.byKey.Filled
  filled_byTriple : m.byTriple.Filled
  parent_below : ∀ id token p, m.token? id = some token → token.parent = some p →
    ∃ below, m.token? p = some below ∧ token.level = below.level + 1
  siblings_differ : ∀ id token id' token', m.token? id = some token →
    m.token? id' = some token' → token.parent = token'.parent →
    (token.triple == token'.triple) = true → id = id'
  triples_eq : ∀ id token, m.token? id = some token →
    m.triples id = (token.parent.elim [] m.triples) ++ [token.triple]
  triples_of_none : ∀ id, m.token? id = none → m.triples id = []

/-- A token is stored, and listed with its parent, unless a sibling has its triple. -/
structure TakesIn (m : TokenMemory) (id : TokenId) (token : Token) : Prop where
  refused_iff : m.insert id token = none ↔ ∃ j sibling, m.token? j = some sibling ∧
    sibling.parent = token.parent ∧ (sibling.triple == token.triple) = true
  token?_eq : ∀ m', m.insert id token = some m' → ∀ j, m'.token? j =
    if id = j then some token
    else (m.token? j).map fun other =>
      { other with
        children := if token.parent = some j then other.children ++ [id] else other.children }
  firings_eq : ∀ m', m.insert id token = some m' → m'.firings = m.firings

/-- Whether the triple is among those of a token. -/
def holds (m : TokenMemory) (t : Triple) (id : TokenId) : Bool := (m.triples id).any (· == t)

/-- The tokens that hold the triple are gone, with what became of them, and the complete
ones among them are given back; the others are what they were. -/
structure Sheds (m : TokenMemory) (t : Triple) (broken : List BrokenToken) (m' : TokenMemory) :
    Prop where
  token?_eq : ∀ id, m'.token? id =
    if m.holds t id then none
    else (m.token? id).map fun token =>
      { token with children := token.children.filter fun j => !m.holds t j }
  firings_eq : m'.firings.entries = m.firings.entries.filter fun e => !m.holds t e.1
  mem_broken_iff : ∀ b, b ∈ broken ↔
    m.holds t b.id = true ∧ m.firings.get? b.id = some b.firing ∧ b.triples = m.triples b.id
  nodup_broken : (broken.map BrokenToken.id).Nodup

/-! ## What every call keeps -/

variable {m m' : TokenMemory} {id j : TokenId} {token : Token} {t : Triple}

theorem token?_eq_node? (m : TokenMemory) (id : TokenId) :
    m.token? id = (m.node? id).map fun token => { token with children := m.children id } := by
  cases h : m.token? id with
  | none => simp [node?, h]
  | some token => simp [node?, children, h, Token.bare]

theorem node?_of_token? (h : m.token? id = some token) : m.node? id = some token.bare := by
  rw [node?, h]
  rfl

/-- What does not depend on the children of a token is said of it with them or without. -/
theorem exists_node?_iff {P : Token → Prop} (hP : ∀ token, P token.bare ↔ P token) :
    (∃ token, m.node? id = some token ∧ P token) ↔ ∃ token, m.token? id = some token ∧ P token := by
  simp only [node?, Option.map_eq_some_iff]
  constructor
  · rintro ⟨_, ⟨token, hid, rfl⟩, h⟩
    exact ⟨token, hid, (hP token).1 h⟩
  · rintro ⟨token, hid, h⟩
    exact ⟨token.bare, ⟨token, hid, rfl⟩, (hP token).2 h⟩

theorem children_eq (m : TokenMemory) (id : TokenId) :
    m.children id = (m.token? id).elim [] Token.children := by
  rw [children]
  cases m.token? id <;> rfl

theorem children_of_none (h : m.node? id = none) : m.children id = [] := by
  rw [node?, Option.map_eq_none_iff] at h
  rw [children, h]

theorem Indexed.mem_children (hm : m.Indexed) (h : id ∈ m.children j) :
    ∃ token, m.node? id = some token ∧ token.parent = some j := by
  cases hj : m.node? j with
  | none =>
      rw [children_of_none hj] at h
      cases h
  | some parent => exact (hm.children_iff j id (by rw [hj]; rfl)).1 h

/-- No list of an index is empty. -/
structure Filled (m : TokenMemory) : Prop where
  byKey : m.byKey.Filled
  byTriple : m.byTriple.Filled

/-- The listings agree with the tokens, each level with the one below, and no list is empty
or names a token twice. -/
structure Tended (m : TokenMemory) : Prop where
  indexed : m.Indexed
  layered : m.Layered
  nodup_children : ∀ p, (m.children p).Nodup
  filled : m.Filled

theorem tended_empty : empty.Tended where
  indexed := indexed_empty
  layered := layered_empty
  nodup_children _ := List.nodup_nil
  filled := ⟨fun _ _ h => (nomatch h), fun _ _ h => (nomatch h)⟩

theorem Tended.setFiring (hm : m.Tended) (id : TokenId) (firing : Firing) :
    (m.setFiring id firing).Tended where
  indexed := ⟨hm.indexed.children_iff, hm.indexed.edge_iff, hm.indexed.joining_iff,
    hm.indexed.listed_iff⟩
  layered := ⟨hm.layered.next⟩
  nodup_children := hm.nodup_children
  filled := ⟨hm.filled.byKey, hm.filled.byTriple⟩

/-! ### Insertion -/

theorem token?_adopt (m : TokenMemory) (parent : Option TokenId) (id j : TokenId) :
    (m.adopt parent id).token? j = (m.token? j).map fun other =>
      { other with
        children := if parent = some j then other.children ++ [id] else other.children } := by
  cases parent with
  | none => simp [adopt]
  | some p =>
      simp only [adopt, token?, OrderedMap.get?_modify, beq_iff_eq]
      by_cases hp : p = j
      · simp [hp]
      · simp [hp]

theorem token?_of_insert (h : m.insert id token = some m') (j : TokenId) : m'.token? j =
    if id = j then some token
    else (m.token? j).map fun other =>
      { other with
        children := if token.parent = some j then other.children ++ [id] else other.children } := by
  rw [← token?_adopt, token?, (of_insert h).2.1, OrderedMap.get?_insert]
  simp only [beq_iff_eq, token?]

theorem Welcomes.inserted (hm : m.Tended) (hw : m.Welcomes id token)
    (h : m.insert id token = some m') : m.Inserted id token m' := by
  refine hm.indexed.inserted hm.layered ?_ hw.childless (fun p hparent => ?_) h
  · rw [node?, hw.fresh]
    rfl
  · exact (exists_node?_iff fun _ => Iff.rfl).2 (hw.next p hparent)

theorem Welcomes.not_mem_children (hm : m.Tended) (hw : m.Welcomes id token) (j : TokenId) :
    id ∉ m.children j := by
  intro hid
  obtain ⟨found, hfound, _⟩ := hm.indexed.mem_children hid
  rw [node?, hw.fresh] at hfound
  cases hfound

theorem Tended.insert (hm : m.Tended) (hw : m.Welcomes id token)
    (h : m.insert id token = some m') : m'.Tended := by
  have hins := hw.inserted hm h
  obtain ⟨_, _, _, hkeys, htriples, _⟩ := of_insert h
  refine ⟨hins.indexed, hins.layered, fun p => ?_, ?_, ?_⟩
  · have hold := hm.nodup_children p
    have hnew := hw.not_mem_children hm p
    rw [children_eq] at hold hnew ⊢
    rw [token?_of_insert h p]
    by_cases hp : id = p
    · rw [if_pos hp, Option.elim_some, hw.childless]
      exact List.nodup_nil
    · rw [if_neg hp]
      cases hother : m.token? p with
      | none => exact List.nodup_nil
      | some other =>
          rw [hother, Option.elim_some] at hold hnew
          rw [Option.map_some, Option.elim_some]
          split
          · exact List.nodup_append_comm.2 (List.nodup_cons.2 ⟨hnew, hold⟩)
          · exact hold
  · rw [hkeys]
    exact hm.filled.byKey.add _ _
  · rw [htriples]
    exact hm.filled.byTriple.add _ _

/-! ### Removal -/

theorem holds_iff (hm : m.Layered) : m.holds t id = true ↔ m.Holds id t := by
  constructor
  · intro h
    cases hid : m.node? id with
    | none =>
        rw [holds, TokenMemory.triples_of_none hid] at h
        cases h
    | some token =>
        obtain ⟨ts, hts⟩ := hm.exists_spells hid
        exact ⟨ts, hts, by rwa [holds, hts.triples_eq] at h⟩
  · rintro ⟨ts, hts, hany⟩
    rwa [holds, hts.triples_eq]

theorem Tended.mem_holding_iff (hm : m.Tended) : id ∈ m.holding t ↔ m.holds t id = true :=
  (TokenMemory.mem_holding_iff hm.indexed hm.layered).trans (holds_iff hm.layered).symm

theorem Indexed.children_remove (hm : m.Indexed) (hne : id ≠ j) :
    (m.remove id).children j = (m.children j).filter (· != id) := by
  have hkept : id ∉ m.children j → (m.children j).filter (· != id) = m.children j := by
    intro hnot
    rw [List.filter_eq_self]
    intro x hx
    rw [bne_iff_ne]
    exact fun same => hnot (same ▸ hx)
  cases hid : m.token? id with
  | none =>
      rw [remove_of_none hid, hkept]
      intro hmem
      obtain ⟨found, hfound, _⟩ := hm.mem_children hmem
      rw [node?, hid] at hfound
      cases hfound
  | some token =>
      rw [TokenMemory.children_remove hid hne]
      split
      · rfl
      · rename_i hparent
        refine (hkept fun hmem => hparent ?_).symm
        obtain ⟨found, hfound, hfrom⟩ := hm.mem_children hmem
        rw [node?_of_token? hid] at hfound
        obtain rfl := Option.some.inj hfound
        exact hfrom

theorem Indexed.children_foldl_remove (hm : m.Indexed) {ids : List TokenId} (hj : j ∉ ids) :
    (ids.foldl TokenMemory.remove m).children j = (m.children j).filter (· ∉ ids) := by
  induction ids generalizing m with
  | nil => simp
  | cons id ids ih =>
      obtain ⟨hne, hrest⟩ := not_or.1 (mt List.mem_cons.2 hj)
      rw [List.foldl_cons, ih (hm.remove id) hrest, hm.children_remove (Ne.symm hne),
        List.filter_filter]
      refine List.filter_congr fun x _ => ?_
      by_cases hx : x = id
      · simp [hx]
      · simp [hx]

theorem Filled.remove (hm : m.Filled) (id : TokenId) : (m.remove id).Filled := by
  cases hid : m.token? id with
  | none =>
      rw [remove_of_none hid]
      exact hm
  | some token =>
      obtain ⟨_, hkeys, htriples⟩ := lists_remove hid
      refine ⟨?_, ?_⟩
      · rw [hkeys]
        exact hm.byKey.remove _ _
      · rw [htriples]
        exact hm.byTriple.remove _ _

theorem Filled.foldl_remove (hm : m.Filled) (ids : List TokenId) :
    (ids.foldl TokenMemory.remove m).Filled := by
  induction ids generalizing m with
  | nil => exact hm
  | cons id ids ih => exact ih (hm.remove id)

theorem Tended.token?_removeHolding (hm : m.Tended) (t : Triple) (id : TokenId) :
    (m.removeHolding t).2.token? id =
      if m.holds t id then none
      else (m.token? id).map fun token =>
        { token with children := token.children.filter fun j => !m.holds t j } := by
  have hgone : ∀ j, (decide (j ∉ m.holding t)) = !m.holds t j := by
    intro j
    rw [Bool.eq_iff_iff, decide_eq_true_iff, hm.mem_holding_iff, Bool.not_eq_true,
      Bool.not_eq_true']
  set erased : TokenMemory :=
    { m with firings := (m.holding t).foldl OrderedMap.erase m.firings } with herased
  have hindexed : erased.Indexed :=
    ⟨hm.indexed.children_iff, hm.indexed.edge_iff, hm.indexed.joining_iff, hm.indexed.listed_iff⟩
  change ((m.holding t).foldl TokenMemory.remove erased).token? id = _
  rw [token?_eq_node?, node?_foldl_remove]
  by_cases hid : id ∈ m.holding t
  · rw [if_pos hid, if_pos (hm.mem_holding_iff.1 hid)]
    rfl
  · rw [if_neg hid, if_neg fun h => hid (hm.mem_holding_iff.2 h),
      hindexed.children_foldl_remove hid, m.token?_eq_node? id, Option.map_map]
    simp only [hgone]
    rfl

theorem Tended.sheds (hm : m.Tended) (t : Triple) :
    m.Sheds t (m.removeHolding t).1 (m.removeHolding t).2 := by
  have hcleared := hm.indexed.cleared hm.layered t
  refine ⟨hm.token?_removeHolding t, ?_, fun b => ?_, hcleared.nodup_broken⟩
  · change ((m.holding t).foldl remove
      { m with firings := (m.holding t).foldl OrderedMap.erase m.firings }).firings.entries = _
    rw [firings_foldl_remove, OrderedMap.entries_foldl_erase]
    refine List.filter_congr fun e _ => congrArg Bool.not ?_
    rw [Bool.eq_iff_iff, ← hm.mem_holding_iff]
    simp
  · rw [hcleared.mem_broken, holds_iff hm.layered]

theorem Tended.removeHolding (hm : m.Tended) (t : Triple) : (m.removeHolding t).2.Tended := by
  have hcleared := hm.indexed.cleared hm.layered t
  refine ⟨hcleared.indexed, hcleared.layered, fun p => ?_, ?_⟩
  · have hold := hm.nodup_children p
    rw [children_eq] at hold ⊢
    rw [hm.token?_removeHolding t p]
    by_cases held : m.holds t p = true
    · rw [if_pos held]
      exact List.nodup_nil
    · rw [if_neg held]
      cases hp : m.token? p with
      | none => exact List.nodup_nil
      | some token =>
          rw [hp] at hold
          exact hold.filter _
  · have herased : Filled { m with firings := (m.holding t).foldl OrderedMap.erase m.firings } :=
      ⟨hm.filled.byKey, hm.filled.byTriple⟩
    exact herased.foldl_remove _

/-! ## The forest -/

theorem Tended.isForest (hm : m.Tended) : m.IsForest where
  mem_children_iff p id := by
    rw [← exists_node?_iff fun _ => Iff.rfl]
    refine ⟨hm.indexed.mem_children, ?_⟩
    rintro ⟨token, hid, hparent⟩
    obtain ⟨below, hbelow, _⟩ := hm.layered.next id token p hid hparent
    exact (hm.indexed.children_iff p id (by rw [hbelow]; rfl)).2 ⟨token, hid, hparent⟩
  nodup_children := hm.nodup_children
  edge_iff parent t id :=
    (hm.indexed.edge_iff parent t id).trans (exists_node?_iff fun _ => Iff.rfl)
  mem_joining_iff level key id :=
    (hm.indexed.joining_iff level key id).trans (exists_node?_iff fun _ => Iff.rfl)
  mem_byTriple_iff t id := (hm.indexed.listed_iff t id).trans (exists_node?_iff fun _ => Iff.rfl)
  filled_byKey := hm.filled.byKey
  filled_byTriple := hm.filled.byTriple
  parent_below id token p hid hparent :=
    (exists_node?_iff fun _ => Iff.rfl).1
      (hm.layered.next id token.bare p (node?_of_token? hid) hparent)
  siblings_differ id token id' token' hid hid' hparent hsame := by
    have hedge := (hm.indexed.edge_iff token'.parent token'.triple id).2
      ⟨token.bare, node?_of_token? hid, hparent, hsame⟩
    have hedge' := (hm.indexed.edge_iff token'.parent token'.triple id').2
      ⟨token'.bare, node?_of_token? hid', rfl, BEq.rfl⟩
    exact Option.some.inj (hedge.symm.trans hedge')
  triples_eq id token hid := by
    obtain ⟨ts, hts⟩ := hm.layered.exists_spells (node?_of_token? hid)
    rw [hts.triples_eq]
    obtain ⟨found, below, hfound, hbelow, rfl⟩ := hts.exists_token
    obtain rfl := Option.some.inj ((node?_of_token? hid).symm.trans hfound)
    change m.Spells token.parent below at hbelow
    cases hparent : token.parent with
    | none =>
        rw [hparent] at hbelow
        cases hbelow
        rfl
    | some p =>
        rw [hparent] at hbelow
        rw [Option.elim_some, hbelow.triples_eq]
        rfl
  triples_of_none id hid := TokenMemory.triples_of_none (by rw [node?, hid]; rfl)

theorem Tended.takesIn (hm : m.Tended) (id : TokenId) (token : Token) : m.TakesIn id token where
  refused_iff := by
    rw [insert_eq_none_iff]
    exact exists_congr fun j => hm.isForest.edge_iff token.parent token.triple j
  token?_eq _ h := token?_of_insert h
  firings_eq _ h := (of_insert h).2.2.2.2.2

theorem Reachable.tended (h : m.Reachable) : m.Tended := by
  induction h with
  | empty => exact tended_empty
  | insert _ hw h ih => exact ih.insert hw h
  | setFiring id firing _ ih => exact ih.setFiring id firing
  | removeHolding t _ ih => exact ih.removeHolding t

/-- Whatever was stored and taken away, a memory is a forest: its edges, levels, triples
and children list the tokens that are there, each under its own parent, triple, level and
key, and parents are there as long as what extends them.  A token is stored unless a
sibling has its triple, and a triple takes along the tokens that hold it, at any level,
and nothing else. -/
theorem forest_of_reachable (h : m.Reachable) :
    m.IsForest ∧ (∀ id token, m.TakesIn id token) ∧
      ∀ t, m.Sheds t (m.removeHolding t).1 (m.removeHolding t).2 :=
  ⟨h.tended.isForest, h.tended.takesIn, h.tended.sheds⟩

def marked (n : Nat) : Triple := ⟨.blank n, .any, .any⟩

def sprout (parent : Option TokenId) (level n : Nat) : Token where
  parent
  triple := marked n
  level
  bindings := .empty 0
  key := [.blank n]

/-- Stores a token if it can be stored. -/
def sow (m : TokenMemory) (id : TokenId) (token : Token) : TokenMemory := (m.insert id token).getD m

theorem Reachable.sow (h : m.Reachable) (hw : m.Welcomes id token) :
    (m.sow id token).Reachable := by
  rw [TokenMemory.sow]
  cases hm' : m.insert id token with
  | none => exact h
  | some m' => exact h.insert hw hm'

/-- Two complete tokens on one root, the longer with the triple of the root twice. -/
def grove : TokenMemory :=
  let root := empty.sow 0 (sprout none 0 1)
  let fork := (root.sow 1 (sprout (some 0) 1 2)).sow 2 (sprout (some 0) 1 1)
  ((fork.sow 3 (sprout (some 2) 2 2)).setFiring 1 .pending).setFiring 3 .blocked

theorem reachable_grove : grove.Reachable := by
  refine .setFiring _ _ (.setFiring _ _ (.sow (.sow (.sow (.sow .empty ?_) ?_) ?_) ?_))
  · exact ⟨rfl, rfl, fun p h => nomatch h⟩
  · refine ⟨rfl, rfl, fun p h => ?_⟩
    obtain rfl := Option.some.inj h
    exact ⟨_, rfl, rfl⟩
  · refine ⟨rfl, rfl, fun p h => ?_⟩
    obtain rfl := Option.some.inj h
    exact ⟨_, rfl, rfl⟩
  · refine ⟨rfl, rfl, fun p h => ?_⟩
    obtain rfl := Option.some.inj h
    exact ⟨_, rfl, rfl⟩

/-- With its second triple the grove loses both complete tokens, with its first one all. -/
theorem forest_of_reachable_grove :
    (grove.Reachable ∧ grove.IsForest ∧ (∀ id token, grove.TakesIn id token) ∧
      ∀ t, grove.Sheds t (grove.removeHolding t).1 (grove.removeHolding t).2) ∧
    grove.triples 3 = [marked 1, marked 1, marked 2] ∧
    (grove.removeHolding (marked 2)).1.map BrokenToken.id = [3, 1] ∧
    (grove.removeHolding (marked 1)).2.tokens.keys = [] :=
  ⟨⟨reachable_grove, forest_of_reachable reachable_grove⟩, rfl, rfl, rfl⟩

end TokenMemory

end Entailment
