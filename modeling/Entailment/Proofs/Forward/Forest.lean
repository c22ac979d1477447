import Entailment.Proofs.Collection.Lookup
import Entailment.Proofs.Collection.Reachability
import Entailment.Proofs.Term.Equality
import Mathlib.Data.List.Induction
import Mathlib.Data.List.Perm.Subperm

/-!
# The forest of tokens

A memory lists its tokens in four ways: by parent and triple, by level and key, by
triple, and as children of their parents.  The listings agree after every insertion
and removal, and the tokens that hold a triple are the ones that are removed with it.
-/

namespace Entailment

namespace Token

/-- The token apart from those that extend it. -/
def bare (token : Token) : Token := { token with children := [] }

end Token

namespace TokenMemory

def node? (m : TokenMemory) (id : TokenId) : Option Token := (m.token? id).map Token.bare

/-- The listings of a memory agree with its tokens. -/
structure Indexed (m : TokenMemory) : Prop where
  children_iff : ∀ p id, (m.node? p).isSome = true →
    (id ∈ m.children p ↔ ∃ token, m.node? id = some token ∧ token.parent = some p)
  edge_iff : ∀ parent t id, m.edges.get? (parent, t) = some id ↔
    ∃ token, m.node? id = some token ∧ token.parent = parent ∧ (token.triple == t) = true
  joining_iff : ∀ level key id, id ∈ m.joining level key ↔
    ∃ token, m.node? id = some token ∧ token.level = level ∧ (token.key == key) = true
  listed_iff : ∀ t id, id ∈ m.byTriple.ids t ↔
    ∃ token, m.node? id = some token ∧ (token.triple == t) = true

/-- Every token that has a parent stands one level above it. -/
structure Layered (m : TokenMemory) : Prop where
  next : ∀ id token p, m.node? id = some token → token.parent = some p →
    ∃ below, m.node? p = some below ∧ token.level = below.level + 1

/-- Every token stands on a parent one level below, or at the first level. -/
structure Rooted (m : TokenMemory) : Prop extends m.Layered where
  first : ∀ id token, m.node? id = some token → token.parent = none → token.level = 0

theorem node?_isSome_iff {m : TokenMemory} {id : TokenId} :
    (m.node? id).isSome = true ↔ id ∈ m.tokens.keys := by
  rw [node?, Option.isSome_map, token?, OrderedMap.mem_keys_iff]

theorem indexed_empty : empty.Indexed where
  children_iff p id h := by cases h
  edge_iff parent t id := ⟨(fun h => nomatch h), fun ⟨_, h, _⟩ => nomatch h⟩
  joining_iff level key id := ⟨(fun h => nomatch h), fun ⟨_, h, _⟩ => nomatch h⟩
  listed_iff t id := ⟨(fun h => nomatch h), fun ⟨_, h, _⟩ => nomatch h⟩

theorem layered_empty : empty.Layered where
  next id token p h := by cases h

theorem rooted_empty : empty.Rooted where
  toLayered := layered_empty
  first id token h := by cases h

/-! ## Changing the children of one token -/

theorem map_bare_modify {tokens : OrderedMap TokenId Token} {p : TokenId} (f : Token → Token)
    (hf : ∀ token, (f token).bare = token.bare) (id : TokenId) :
    ((tokens.modify p f).get? id).map Token.bare = (tokens.get? id).map Token.bare := by
  rw [OrderedMap.get?_modify]
  split
  · rw [Option.map_map]
    congr 1
    exact funext hf
  · rfl

theorem node?_adopt (m : TokenMemory) (parent : Option TokenId) (id j : TokenId) :
    (m.adopt parent id).node? j = m.node? j := by
  cases parent with
  | none => rfl
  | some p =>
      exact map_bare_modify (fun t => { t with children := t.children ++ [id] }) (fun _ => rfl) j

theorem node?_disown (m : TokenMemory) (parent : Option TokenId) (id j : TokenId) :
    (m.disown parent id).node? j = m.node? j := by
  cases parent with
  | none => rfl
  | some p =>
      exact map_bare_modify (fun t => { t with children := t.children.filter (· != id) })
        (fun _ => rfl) j

theorem mem_children_adopt {m : TokenMemory} {parent : Option TokenId} {id j x : TokenId} :
    x ∈ (m.adopt parent id).children j ↔
      x ∈ m.children j ∨ (parent = some j ∧ (m.node? j).isSome = true ∧ x = id) := by
  cases parent with
  | none => simp [adopt]
  | some p =>
      simp only [adopt, children, token?, OrderedMap.get?_modify, node?]
      by_cases hp : p = j
      · subst hp
        cases m.tokens.get? p <;> simp
      · simp [hp]

theorem children_disown (m : TokenMemory) (parent : Option TokenId) (id j : TokenId) :
    (m.disown parent id).children j =
      if parent = some j then (m.children j).filter (· != id) else m.children j := by
  cases parent with
  | none => rfl
  | some p =>
      simp only [disown, children, token?, OrderedMap.get?_modify, beq_iff_eq, Option.some.injEq]
      by_cases hp : p = j
      · subst hp
        cases m.tokens.get? p <;> simp
      · simp [hp]

/-! ## Insertion -/

theorem insert_eq_none_iff {m : TokenMemory} {id : TokenId} {token : Token} :
    m.insert id token = none ↔ ∃ j, m.edges.get? (token.parent, token.triple) = some j := by
  unfold insert
  simp only [OrderedMap.contains_eq_isSome_get?]
  cases m.edges.get? (token.parent, token.triple) <;> simp

/-- Where a stored token is put. -/
theorem of_insert {m m' : TokenMemory} {id : TokenId} {token : Token}
    (h : m.insert id token = some m') :
    m.edges.get? (token.parent, token.triple) = none ∧
      m'.tokens = (m.adopt token.parent id).tokens.insert id token ∧
      m'.edges = m.edges.insert (token.parent, token.triple) id ∧
      m'.byKey = m.byKey.add (token.level, token.key) id ∧
      m'.byTriple = m.byTriple.add token.triple id ∧ m'.firings = m.firings := by
  unfold insert at h
  simp only [OrderedMap.contains_eq_isSome_get?] at h
  split at h
  · cases h
  · rename_i hvacant
    refine ⟨by simpa using hvacant, ?_⟩
    cases h
    cases token.parent <;> exact ⟨rfl, rfl, rfl, rfl, rfl⟩

/-- A new token is listed in every way, and nothing else changes. -/
structure Inserted (m : TokenMemory) (id : TokenId) (token : Token) (m' : TokenMemory) :
    Prop where
  vacant : m.edges.get? (token.parent, token.triple) = none
  node?_eq : ∀ j, m'.node? j = if id = j then some token.bare else m.node? j
  firings_eq : m'.firings = m.firings
  indexed : m'.Indexed
  layered : m'.Layered

theorem Indexed.inserted {m m' : TokenMemory} (hm : m.Indexed) (hlayered : m.Layered)
    {id : TokenId} {token : Token} (hfresh : m.node? id = none) (hnone : token.children = [])
    (hnext : ∀ p, token.parent = some p →
      ∃ below, m.node? p = some below ∧ token.level = below.level + 1)
    (h : m.insert id token = some m') : m.Inserted id token m' := by
  obtain ⟨hvacant, htokens, hedges, hkeys, htriples, hfirings⟩ := of_insert h
  have hnode : ∀ j, m'.node? j = if id = j then some token.bare else m.node? j := by
    intro j
    rw [← m.node?_adopt token.parent id j]
    simp only [node?, token?, htokens, OrderedMap.get?_insert, beq_iff_eq]
    split <;> rfl
  have hold : ∀ j found, m.node? j = some found → m'.node? j = some found := by
    intro j found hj
    rw [hnode, if_neg]
    · exact hj
    · rintro rfl
      rw [hfresh] at hj
      cases hj
  have hsplit : ∀ j found, m'.node? j = some found ↔
      (id = j ∧ found = token.bare) ∨ m.node? j = some found := by
    intro j found
    rw [hnode]
    by_cases hj : id = j
    · subst hj
      rw [if_pos rfl, hfresh]
      simp [eq_comm]
    · simp [hj]
  refine ⟨hvacant, hnode, hfirings, ⟨?_, ?_, ?_, ?_⟩, ⟨?_⟩⟩
  · intro p x hp
    have hchildren : x ∈ m'.children p ↔
        id ≠ p ∧ x ∈ (m.adopt token.parent id).children p := by
      simp only [children, token?, htokens, OrderedMap.get?_insert, beq_iff_eq]
      by_cases hpid : id = p
      · simp [hpid, hnone]
      · simp [hpid]
    rw [hchildren, mem_children_adopt]
    by_cases hpid : id = p
    · subst hpid
      constructor
      · exact fun h => absurd rfl h.1
      · rintro ⟨found, hfound, hparent⟩
        rcases (hsplit x found).1 hfound with ⟨_, rfl⟩ | hfound
        · obtain ⟨below, hbelow, _⟩ := hnext id hparent
          rw [hfresh] at hbelow
          cases hbelow
        · obtain ⟨below, hbelow, _⟩ := hlayered.next x found id hfound hparent
          rw [hfresh] at hbelow
          cases hbelow
    · rw [hnode, if_neg hpid] at hp
      constructor
      · rintro ⟨_, hx | ⟨hparent, _, rfl⟩⟩
        · obtain ⟨found, hfound, hparent⟩ := (hm.children_iff p x hp).1 hx
          exact ⟨found, hold x found hfound, hparent⟩
        · exact ⟨token.bare, (hsplit _ _).2 (Or.inl ⟨rfl, rfl⟩), hparent⟩
      · rintro ⟨found, hfound, hparent⟩
        refine ⟨hpid, ?_⟩
        rcases (hsplit x found).1 hfound with ⟨rfl, rfl⟩ | hfound
        · exact Or.inr ⟨hparent, hp, rfl⟩
        · exact Or.inl ((hm.children_iff p x hp).2 ⟨found, hfound, hparent⟩)
  · intro parent t x
    simp only [hedges, OrderedMap.get?_insert, pair_beq, Bool.and_eq_true, beq_iff_eq]
    constructor
    · intro hx
      split at hx
      · rename_i hsame
        cases hx
        exact ⟨token.bare, (hsplit _ _).2 (Or.inl ⟨rfl, rfl⟩), hsame.1, hsame.2⟩
      · obtain ⟨found, hfound, hrest⟩ := (hm.edge_iff parent t x).1 hx
        exact ⟨found, hold x found hfound, hrest⟩
    · rintro ⟨found, hfound, hparent, htriple⟩
      rcases (hsplit x found).1 hfound with ⟨rfl, rfl⟩ | hfound
      · rw [if_pos ⟨hparent, htriple⟩]
      · have hedge := (hm.edge_iff parent t x).2 ⟨found, hfound, hparent, htriple⟩
        rw [if_neg]
        · exact hedge
        · rintro ⟨rfl, hsame⟩
          have hkey : ((token.parent, token.triple) == (token.parent, t)) = true := by
            rw [pair_beq, hsame, BEq.rfl]
            rfl
          rw [m.edges.get?_congr hkey, hedge] at hvacant
          cases hvacant
  · intro level key x
    rw [joining, hkeys]
    simp only [TokenIndex.mem_ids_add, pair_beq, Bool.and_eq_true, beq_iff_eq]
    have hbefore := hm.joining_iff level key x
    rw [joining] at hbefore
    rw [hbefore]
    constructor
    · rintro (⟨found, hfound, hrest⟩ | ⟨hsame, rfl⟩)
      · exact ⟨found, hold x found hfound, hrest⟩
      · exact ⟨token.bare, (hsplit _ _).2 (Or.inl ⟨rfl, rfl⟩), hsame⟩
    · rintro ⟨found, hfound, hrest⟩
      rcases (hsplit x found).1 hfound with ⟨rfl, rfl⟩ | hfound
      · exact Or.inr ⟨hrest, rfl⟩
      · exact Or.inl ⟨found, hfound, hrest⟩
  · intro t x
    rw [htriples, TokenIndex.mem_ids_add, hm.listed_iff]
    constructor
    · rintro (⟨found, hfound, hrest⟩ | ⟨hsame, rfl⟩)
      · exact ⟨found, hold x found hfound, hrest⟩
      · exact ⟨token.bare, (hsplit _ _).2 (Or.inl ⟨rfl, rfl⟩), hsame⟩
    · rintro ⟨found, hfound, hrest⟩
      rcases (hsplit x found).1 hfound with ⟨rfl, rfl⟩ | hfound
      · exact Or.inr ⟨hrest, rfl⟩
      · exact Or.inl ⟨found, hfound, hrest⟩
  · intro x found p hfound hparent
    rcases (hsplit x found).1 hfound with ⟨_, rfl⟩ | hfound
    · obtain ⟨below, hbelow, hlevel⟩ := hnext p hparent
      exact ⟨below, hold p below hbelow, hlevel⟩
    · obtain ⟨below, hbelow, hlevel⟩ := hlayered.next x found p hfound hparent
      exact ⟨below, hold p below hbelow, hlevel⟩

theorem Inserted.rooted {m m' : TokenMemory} {id : TokenId} {token : Token}
    (h : m.Inserted id token m') (hroot : m.Rooted)
    (hfirst : token.parent = none → token.level = 0) : m'.Rooted where
  toLayered := h.layered
  first j found hfound hparent := by
    rw [h.node?_eq] at hfound
    split at hfound
    · cases hfound
      exact hfirst hparent
    · exact hroot.first j found hfound hparent

/-! ## Removal of one token -/

theorem remove_of_none {m : TokenMemory} {id : TokenId} (h : m.token? id = none) :
    m.remove id = m := by
  rw [remove, h]

theorem node?_remove (m : TokenMemory) (id j : TokenId) :
    (m.remove id).node? j = if id = j then none else m.node? j := by
  cases h : m.token? id with
  | none =>
      rw [remove_of_none h]
      split
      · rename_i hj
        rw [← hj, node?, h]
        rfl
      · rfl
  | some token =>
      simp only [remove, h, node?_disown]
      simp only [node?, token?, OrderedMap.get?_erase, beq_iff_eq]
      split <;> rfl

theorem firings_remove (m : TokenMemory) (id : TokenId) : (m.remove id).firings = m.firings := by
  cases h : m.token? id with
  | none => rw [remove_of_none h]
  | some token =>
      simp only [remove, h]
      cases token.parent <;> rfl

theorem lists_remove {m : TokenMemory} {id : TokenId} {token : Token}
    (h : m.token? id = some token) :
    (m.remove id).edges = m.edges.erase (token.parent, token.triple) ∧
      (m.remove id).byKey = m.byKey.remove (token.level, token.key) id ∧
      (m.remove id).byTriple = m.byTriple.remove token.triple id := by
  simp only [remove, h]
  cases token.parent <;> exact ⟨rfl, rfl, rfl⟩

theorem children_remove {m : TokenMemory} {id : TokenId} {token : Token}
    (h : m.token? id = some token) {j : TokenId} (hne : id ≠ j) :
    (m.remove id).children j =
      if token.parent = some j then (m.children j).filter (· != id) else m.children j := by
  simp only [remove, h, children_disown]
  simp only [children, token?, OrderedMap.get?_erase, beq_iff_eq, if_neg hne]

theorem Indexed.remove {m : TokenMemory} (hm : m.Indexed) (id : TokenId) :
    (m.remove id).Indexed := by
  cases h : m.token? id with
  | none =>
      rw [remove_of_none h]
      exact hm
  | some token =>
      have hid : m.node? id = some token.bare := by rw [node?, h]; rfl
      have hsplit : ∀ j found, (m.remove id).node? j = some found ↔
          id ≠ j ∧ m.node? j = some found := by
        intro j found
        rw [node?_remove]
        by_cases hj : id = j
        · simp [hj]
        · simp [hj]
      obtain ⟨hedges, hkeys, htriples⟩ := lists_remove h
      refine ⟨?_, ?_, ?_, ?_⟩
      · intro p x hp
        have hpid : id ≠ p := by
          rintro rfl
          rw [node?_remove, if_pos rfl] at hp
          cases hp
        have hbefore := hm.children_iff p x (by rwa [node?_remove, if_neg hpid] at hp)
        have hchildren : x ∈ (m.remove id).children p ↔
            x ∈ m.children p ∧ ¬(token.parent = some p ∧ x = id) := by
          rw [children_remove h hpid]
          by_cases hparent : token.parent = some p
          · simp [hparent]
          · simp [hparent]
        rw [hchildren, hbefore]
        constructor
        · rintro ⟨⟨found, hfound, hparent⟩, hnot⟩
          refine ⟨found, (hsplit x found).2 ⟨?_, hfound⟩, hparent⟩
          rintro rfl
          rw [hid] at hfound
          obtain rfl := Option.some.inj hfound
          exact hnot ⟨hparent, rfl⟩
        · rintro ⟨found, hfound, hparent⟩
          obtain ⟨hne, hfound⟩ := (hsplit x found).1 hfound
          exact ⟨⟨found, hfound, hparent⟩, fun hsame => hne hsame.2.symm⟩
      · intro parent t x
        rw [hedges, OrderedMap.get?_erase, pair_beq]
        constructor
        · intro hx
          split at hx
          · cases hx
          · rename_i hdifferent
            obtain ⟨found, hfound, hparent, htriple⟩ := (hm.edge_iff parent t x).1 hx
            refine ⟨found, (hsplit x found).2 ⟨?_, hfound⟩, hparent, htriple⟩
            rintro rfl
            rw [hid] at hfound
            obtain rfl := Option.some.inj hfound
            apply hdifferent
            rw [Bool.and_eq_true, beq_iff_eq]
            exact ⟨hparent, htriple⟩
        · rintro ⟨found, hfound, hparent, htriple⟩
          obtain ⟨hne, hfound⟩ := (hsplit x found).1 hfound
          have hedge := (hm.edge_iff parent t x).2 ⟨found, hfound, hparent, htriple⟩
          rw [if_neg]
          · exact hedge
          · intro hsame
            rw [Bool.and_eq_true, beq_iff_eq] at hsame
            have hother := (hm.edge_iff parent t id).2 ⟨token.bare, hid, hsame.1, hsame.2⟩
            rw [hedge] at hother
            exact hne (Option.some.inj hother).symm
      · intro level key x
        have hbefore := hm.joining_iff level key x
        rw [joining] at hbefore ⊢
        rw [hkeys, TokenIndex.mem_ids_remove, hbefore, pair_beq, Bool.and_eq_true, beq_iff_eq]
        constructor
        · rintro ⟨⟨found, hfound, hrest⟩, hnot⟩
          refine ⟨found, (hsplit x found).2 ⟨?_, hfound⟩, hrest⟩
          rintro rfl
          rw [hid] at hfound
          obtain rfl := Option.some.inj hfound
          exact hnot ⟨hrest, rfl⟩
        · rintro ⟨found, hfound, hrest⟩
          obtain ⟨hne, hfound⟩ := (hsplit x found).1 hfound
          exact ⟨⟨found, hfound, hrest⟩, fun hsame => hne hsame.2.symm⟩
      · intro t x
        rw [htriples, TokenIndex.mem_ids_remove, hm.listed_iff]
        constructor
        · rintro ⟨⟨found, hfound, hrest⟩, hnot⟩
          refine ⟨found, (hsplit x found).2 ⟨?_, hfound⟩, hrest⟩
          rintro rfl
          rw [hid] at hfound
          obtain rfl := Option.some.inj hfound
          exact hnot ⟨hrest, rfl⟩
        · rintro ⟨found, hfound, hrest⟩
          obtain ⟨hne, hfound⟩ := (hsplit x found).1 hfound
          exact ⟨⟨found, hfound, hrest⟩, fun hsame => hne hsame.2.symm⟩

/-! ## What a token spells -/

/-- The triples from the root down to a token; no token spells nothing. -/
inductive Spells (m : TokenMemory) : Option TokenId → List Triple → Prop where
  | root : m.Spells none []
  | child {id : TokenId} {token : Token} {ts : List Triple} :
      m.node? id = some token → m.Spells token.parent ts →
      m.Spells (some id) (ts ++ [token.triple])

namespace Spells

variable {m m' : TokenMemory} {place : Option TokenId} {ts us : List Triple}

theorem unique (h : m.Spells place ts) (k : m.Spells place us) : ts = us := by
  induction h generalizing us with
  | root => cases k; rfl
  | @child id token ts hnode _ ih =>
      cases k with
      | child hnode' hbelow =>
          rw [hnode] at hnode'
          obtain rfl := Option.some.inj hnode'
          rw [ih hbelow]

/-- Places that spell equal triples are the same place. -/
theorem place_unique (hm : m.Indexed) {other : Option TokenId} (h : m.Spells place ts)
    (k : m.Spells other us) (hsame : ts.map Triple.folded = us.map Triple.folded) :
    place = other := by
  induction h generalizing other us with
  | root =>
      cases k with
      | root => rfl
      | child _ _ => simp at hsame
  | @child id token ts hnode _ ih =>
      cases k with
      | root => simp at hsame
      | @child id' token' us hnode' hbelow =>
          rw [List.map_append, List.map_append] at hsame
          obtain ⟨hfirst, hlast⟩ := List.append_inj' hsame rfl
          have hparent := ih hbelow hfirst
          have htriple : (token'.triple == token.triple) = true :=
            Triple.beq_iff_folded.2 (List.singleton_inj.1 hlast).symm
          have hown := (hm.edge_iff token.parent token.triple id).2 ⟨token, hnode, rfl, BEq.rfl⟩
          have hother := (hm.edge_iff token.parent token.triple id').2
            ⟨token', hnode', hparent.symm, htriple⟩
          exact hown.symm.trans hother

theorem mono (h : m.Spells place ts)
    (hkept : ∀ id token, m.node? id = some token → m'.node? id = some token) :
    m'.Spells place ts := by
  induction h with
  | root => exact .root
  | child hnode _ ih => exact .child (hkept _ _ hnode) ih

theorem exists_token {id : TokenId} (h : m.Spells (some id) ts) :
    ∃ token below, m.node? id = some token ∧ m.Spells token.parent below ∧
      ts = below ++ [token.triple] := by
  cases h with
  | child hnode hbelow => exact ⟨_, _, hnode, hbelow, rfl⟩

theorem length_eq (hm : m.Rooted) {id : TokenId} {token : Token} (h : m.Spells (some id) ts)
    (hid : m.node? id = some token) : ts.length = token.level + 1 := by
  induction ts using List.reverseRecOn generalizing id token with
  | nil =>
      obtain ⟨_, _, _, _, hts⟩ := h.exists_token
      simp at hts
  | append_singleton ts t ih =>
      obtain ⟨found, below, hfound, hbelow, hts⟩ := h.exists_token
      rw [hid] at hfound
      obtain rfl := Option.some.inj hfound
      obtain ⟨rfl, -⟩ := List.append_inj' hts rfl
      rw [List.length_append, List.length_singleton]
      cases hparent : token.parent with
      | none =>
          rw [hparent] at hbelow
          cases hbelow
          rw [hm.first id token hid hparent]
          rfl
      | some p =>
          rw [hparent] at hbelow
          obtain ⟨next, hnext, hlevel⟩ := hm.next id token p hid hparent
          rw [ih hbelow hnext, hlevel]

/-- The tokens from the root down to a place are different, as they spell more and more. -/
theorem exists_nodup (h : m.Spells place ts) : ∃ ids : List TokenId, ids.Nodup ∧
    ids.length = ts.length ∧
    ∀ id ∈ ids, id ∈ m.tokens.keys ∧ ∃ us, m.Spells (some id) us ∧ us.length ≤ ts.length := by
  induction h with
  | root => exact ⟨[], List.nodup_nil, rfl, fun _ h => nomatch h⟩
  | @child id token below hnode hbelow ih =>
      obtain ⟨ids, hnodup, hlength, hids⟩ := ih
      have hspells := Spells.child hnode hbelow
      have hfresh : id ∉ ids := by
        intro hmem
        obtain ⟨_, us, hus, hle⟩ := hids id hmem
        rw [hus.unique hspells, List.length_append, List.length_singleton] at hle
        omega
      refine ⟨id :: ids, List.nodup_cons.2 ⟨hfresh, hnodup⟩, ?_, fun j hj => ?_⟩
      · rw [List.length_cons, hlength, List.length_append, List.length_singleton]
      · rcases List.mem_cons.1 hj with rfl | hj
        · exact ⟨node?_isSome_iff.1 (by rw [hnode]; rfl), _, hspells, Nat.le_refl _⟩
        · obtain ⟨hkey, us, hus, hle⟩ := hids j hj
          refine ⟨hkey, us, hus, ?_⟩
          rw [List.length_append]
          omega

theorem length_le_size (h : m.Spells place ts) : ts.length ≤ m.size := by
  obtain ⟨ids, hnodup, hlength, hids⟩ := h.exists_nodup
  have hle := (hnodup.subperm fun id hid => (hids id hid).1).length_le
  rwa [hlength, OrderedMap.keys, List.length_map] at hle

theorem ascend_eq {id : TokenId} (h : m.Spells (some id) ts) {steps : Nat}
    (hsteps : ts.length ≤ steps) : m.ascend steps id = ts.reverse := by
  induction ts using List.reverseRecOn generalizing id steps with
  | nil =>
      obtain ⟨_, _, _, _, hts⟩ := h.exists_token
      simp at hts
  | append_singleton ts t ih =>
      obtain ⟨token, below, hid, hbelow, hts⟩ := h.exists_token
      obtain ⟨rfl, htriple⟩ := List.append_inj' hts rfl
      obtain rfl := List.singleton_inj.1 htriple
      rw [List.length_append, List.length_singleton] at hsteps
      obtain ⟨steps, rfl⟩ : ∃ n, steps = n + 1 := ⟨steps - 1, by omega⟩
      rw [node?, Option.map_eq_some_iff] at hid
      obtain ⟨stored, hstored, rfl⟩ := hid
      rw [List.reverse_append, List.reverse_singleton, List.singleton_append, ascend, hstored]
      simp only
      change m.Spells stored.parent ts at hbelow
      cases hparent : stored.parent with
      | none =>
          rw [hparent] at hbelow
          cases hbelow
          rfl
      | some p =>
          rw [hparent] at hbelow
          have hchain := ih hbelow (Nat.le_of_succ_le_succ hsteps)
          simp only [hchain]
          rfl

theorem triples_eq {id : TokenId} (h : m.Spells (some id) ts) : m.triples id = ts := by
  rw [triples, h.ascend_eq h.length_le_size, List.reverse_reverse]

end Spells

theorem Layered.exists_spells {m : TokenMemory} (hm : m.Layered) {id : TokenId} {token : Token}
    (hid : m.node? id = some token) : ∃ ts, m.Spells (some id) ts := by
  cases hparent : token.parent with
  | none => exact ⟨[] ++ [token.triple], .child hid (by rw [hparent]; exact .root)⟩
  | some p =>
      obtain ⟨below, hp, hlevel⟩ := hm.next id token p hid hparent
      obtain ⟨ts, hts⟩ := hm.exists_spells hp
      exact ⟨_, .child hid (hparent ▸ hts)⟩
termination_by token.level
decreasing_by omega

theorem triples_of_none {m : TokenMemory} {id : TokenId} (h : m.node? id = none) :
    m.triples id = [] := by
  have hnone : m.token? id = none := by
    rwa [node?, Option.map_eq_none_iff] at h
  rw [triples]
  cases m.size with
  | zero => rfl
  | succ steps => rw [ascend, hnone]; rfl

/-! ## Removal of all tokens that hold a triple -/

/-- The triple is spelled on the way to the token. -/
def Holds (m : TokenMemory) (id : TokenId) (t : Triple) : Prop :=
  ∃ ts, m.Spells (some id) ts ∧ ts.any (· == t) = true

theorem holding_eq (m : TokenMemory) (t : Triple) :
    m.holding t = descendFrom m.children m.tokens.keys (m.byTriple.ids t).reverse :=
  descend_eq

theorem mem_holding_iff {m : TokenMemory} (hm : m.Indexed) (hlayered : m.Layered) {t : Triple}
    {id : TokenId} : id ∈ m.holding t ↔ m.Holds id t := by
  rw [holding_eq]
  constructor
  · refine descendFrom_induction (P := fun id => m.Holds id t) ?_ ?_ id
    · intro j hj
      obtain ⟨token, htoken, hsame⟩ := (hm.listed_iff t j).1 (List.mem_reverse.1 hj)
      obtain ⟨ts, hts⟩ := hlayered.exists_spells htoken
      obtain ⟨found, below, hfound, _, rfl⟩ := hts.exists_token
      rw [htoken] at hfound
      obtain rfl := Option.some.inj hfound
      exact ⟨_, hts, by simp [hsame]⟩
    · rintro p hp ⟨ts, hts, hany⟩ j hj
      obtain ⟨token, htoken, hparent⟩ := (hm.children_iff p j (node?_isSome_iff.2 hp)).1 hj
      exact ⟨_, .child htoken (hparent ▸ hts), by simp [hany]⟩
  · have hspells : ∀ place ts, m.Spells place ts → ts.any (· == t) = true →
        ∀ j, place = some j →
          j ∈ descendFrom m.children m.tokens.keys (m.byTriple.ids t).reverse := by
      intro place ts h
      induction h with
      | root => intro h; cases h
      | @child j token ts hnode hbelow ih =>
          intro hany k hk
          obtain rfl := Option.some.inj hk
          have hdomain : j ∈ m.tokens.keys := node?_isSome_iff.1 (by rw [hnode]; rfl)
          rw [List.any_append, Bool.or_eq_true] at hany
          rcases hany with hany | hlast
          · cases hparent : token.parent with
            | none =>
                rw [hparent] at hbelow
                cases hbelow
                cases hany
            | some p =>
                have hp := ih hany p hparent
                have hpdomain := mem_domain_of_mem_descendFrom hp
                apply mem_descendFrom_of_next hp _ hdomain
                exact (hm.children_iff p j (node?_isSome_iff.2 hpdomain)).2 ⟨token, hnode, hparent⟩
          · apply mem_descendFrom_of_pending _ hdomain
            rw [List.mem_reverse]
            exact (hm.listed_iff t j).2 ⟨token, hnode, by simpa using hlast⟩
    rintro ⟨ts, hts, hany⟩
    exact hspells _ ts hts hany id rfl

theorem nodup_holding (m : TokenMemory) (t : Triple) : (m.holding t).Nodup := by
  rw [holding_eq]
  exact nodup_descendFrom m.tokens.nodup_keys

theorem node?_foldl_remove (ids : List TokenId) (m : TokenMemory) (j : TokenId) :
    (ids.foldl remove m).node? j = if j ∈ ids then none else m.node? j := by
  induction ids generalizing m with
  | nil => simp
  | cons id ids ih =>
      rw [List.foldl_cons, ih, node?_remove]
      by_cases hj : j ∈ ids
      · simp [hj]
      · by_cases hid : id = j
        · simp [hid]
        · simp [hj, hid, Ne.symm hid]

theorem firings_foldl_remove (ids : List TokenId) (m : TokenMemory) :
    (ids.foldl remove m).firings = m.firings := by
  induction ids generalizing m with
  | nil => rfl
  | cons id ids ih => rw [List.foldl_cons, ih, firings_remove]

theorem indexed_foldl_remove {m : TokenMemory} (hm : m.Indexed) (ids : List TokenId) :
    (ids.foldl remove m).Indexed := by
  induction ids generalizing m with
  | nil => exact hm
  | cons id ids ih => exact ih (hm.remove id)

/-- What is left when the tokens that hold a triple are gone. -/
structure Cleared (m : TokenMemory) (t : Triple) (broken : List BrokenToken)
    (m' : TokenMemory) : Prop where
  indexed : m'.Indexed
  layered : m'.Layered
  node?_iff : ∀ id token, m'.node? id = some token ↔ m.node? id = some token ∧ ¬ m.Holds id t
  firing_eq : ∀ id, ¬ m.Holds id t → m'.firings.get? id = m.firings.get? id
  firing_none : ∀ id, m.Holds id t → m'.firings.get? id = none
  mem_broken : ∀ b, b ∈ broken ↔
    m.Holds b.id t ∧ m.firings.get? b.id = some b.firing ∧ b.triples = m.triples b.id
  nodup_broken : (broken.map BrokenToken.id).Nodup

theorem Indexed.cleared {m : TokenMemory} (hm : m.Indexed) (hlayered : m.Layered) (t : Triple) :
    m.Cleared t (m.removeHolding t).1 (m.removeHolding t).2 := by
  set erased : TokenMemory :=
    { m with firings := (m.holding t).foldl OrderedMap.erase m.firings } with herased
  have hindexed : erased.Indexed :=
    ⟨hm.children_iff, hm.edge_iff, hm.joining_iff, hm.listed_iff⟩
  have hnode : ∀ id token, ((m.holding t).foldl TokenMemory.remove erased).node? id = some token ↔
      m.node? id = some token ∧ ¬ m.Holds id t := by
    intro id token
    rw [node?_foldl_remove]
    by_cases hid : id ∈ m.holding t
    · rw [if_pos hid]
      constructor
      · intro h
        cases h
      · exact fun h => absurd ((mem_holding_iff hm hlayered).1 hid) h.2
    · rw [if_neg hid]
      exact ⟨fun h => ⟨h, fun held => hid ((mem_holding_iff hm hlayered).2 held)⟩, And.left⟩
  have hfiring : ∀ id, ((m.holding t).foldl TokenMemory.remove erased).firings.get? id =
      if (m.holding t).any (· == id) then none else m.firings.get? id := by
    intro id
    rw [firings_foldl_remove]
    exact OrderedMap.get?_foldl_erase _ _ _
  have hany : ∀ id, (m.holding t).any (· == id) = true ↔ m.Holds id t := by
    intro id
    rw [← mem_holding_iff hm hlayered]
    simp
  refine ⟨indexed_foldl_remove hindexed _, ⟨?_⟩, hnode, ?_, ?_, ?_, ?_⟩
  · intro id token p hid hparent
    obtain ⟨hold, hkept⟩ := (hnode id token).1 hid
    obtain ⟨below, hbelow, hlevel⟩ := hlayered.next id token p hold hparent
    refine ⟨below, (hnode p below).2 ⟨hbelow, ?_⟩, hlevel⟩
    rintro ⟨ts, hts, held⟩
    exact hkept ⟨_, .child hold (hparent ▸ hts), by simp [held]⟩
  · intro id hid
    refine (hfiring id).trans (if_neg ?_)
    exact fun h => hid ((hany id).1 h)
  · intro id hid
    exact (hfiring id).trans (if_pos ((hany id).2 hid))
  · intro b
    change b ∈ (m.holding t).filterMap m.broken? ↔ _
    rw [List.mem_filterMap]
    constructor
    · rintro ⟨id, hid, hb⟩
      rw [broken?, Option.map_eq_some_iff] at hb
      obtain ⟨firing, hfired, rfl⟩ := hb
      exact ⟨(mem_holding_iff hm hlayered).1 hid, hfired, rfl⟩
    · rintro ⟨hid, hfired, htriples⟩
      refine ⟨b.id, (mem_holding_iff hm hlayered).2 hid, ?_⟩
      rw [broken?, hfired, Option.map_some, ← htriples]
  · change (((m.holding t).filterMap m.broken?).map BrokenToken.id).Nodup
    have hids : ((m.holding t).filterMap m.broken?).map BrokenToken.id =
        (m.holding t).filter fun id => (m.firings.get? id).isSome := by
      induction m.holding t with
      | nil => rfl
      | cons id ids ih =>
          rw [List.filterMap_cons, List.filter_cons]
          cases hfired : m.firings.get? id with
          | none => simpa [broken?, hfired] using ih
          | some firing => simpa [broken?, hfired] using ih
    rw [hids]
    exact (nodup_holding m t).filter _

theorem Cleared.rooted {m m' : TokenMemory} {t : Triple} {broken : List BrokenToken}
    (h : m.Cleared t broken m') (hroot : m.Rooted) : m'.Rooted where
  toLayered := h.layered
  first id token hid := hroot.first id token ((h.node?_iff id token).1 hid).1

/-- The tokens that are left spell what they spelled. -/
theorem Cleared.spells_iff {m m' : TokenMemory} {t : Triple} {broken : List BrokenToken}
    (h : m.Cleared t broken m') {id : TokenId} {ts : List Triple} :
    m'.Spells (some id) ts ↔ m.Spells (some id) ts ∧ ts.any (· == t) = false := by
  constructor
  · intro hts
    have hold := hts.mono fun j token hj => ((h.node?_iff j token).1 hj).1
    obtain ⟨token, _, hid, _, _⟩ := hts.exists_token
    refine ⟨hold, ?_⟩
    rw [Bool.eq_false_iff]
    exact fun held => ((h.node?_iff id token).1 hid).2 ⟨ts, hold, held⟩
  · have hspells : ∀ place us, m.Spells place us → us.any (· == t) = false →
        m'.Spells place us := by
      intro place us hus
      induction hus with
      | root => exact fun _ => .root
      | @child j token us hnode hbelow ih =>
          intro hfree
          have hfree' := hfree
          rw [List.any_append, Bool.or_eq_false_iff] at hfree'
          refine .child ((h.node?_iff j token).2 ⟨hnode, ?_⟩) (ih hfree'.1)
          rintro ⟨vs, hvs, held⟩
          rw [hvs.unique (.child hnode hbelow), hfree] at held
          cases held
    rintro ⟨hts, hfree⟩
    exact hspells _ ts hts hfree

end TokenMemory

end Entailment
