import Entailment.Forward.Matching
import Entailment.Proofs.Forward.Forest
import Entailment.Proofs.Forward.Matches
import Entailment.Proofs.Forward.Subscription

/-!
# The stock of tokens and firings

Every token of a rule stands for facts that match the first patterns of the rule, and
every firing belongs to facts that match all of them.  The stock stays so when a match
is stored, when a firing is noted, and when the tokens that hold a triple are removed.
-/

namespace Entailment

namespace Firing

/-- The firing draws the conclusion, and can be taken back. -/
def Concludes (firing : Firing) (t : Triple) : Prop :=
  ∃ conclusions hidden, firing = .fired conclusions hidden false ∧
    conclusions.any (· == t) = true

end Firing

namespace TokenMemory

variable {n : Network} {r : Nat} {bound : TokenId} {m m' : TokenMemory}

/-- The facts match all patterns of the rule. -/
def Completes (c : CompiledRule) (ts : List Triple) : Prop :=
  ts.length = c.levels ∧ ∃ b, c.Matches ts b

/-- What a memory holds for a rule of the network. -/
structure Stock (n : Network) (r : Nat) (bound : TokenId) (m : TokenMemory) : Prop where
  indexed : m.Indexed
  rooted : m.Rooted
  token_lt : ∀ id token, m.node? id = some token → id < bound
  firing_lt : ∀ id firing, m.firings.get? id = some firing → id < bound
  vacant : n.rule? r = none → ∀ id, m.node? id = none ∧ m.firings.get? id = none
  token : ∀ c, n.rule? r = some c → ∀ id token ts, m.node? id = some token →
    m.Spells (some id) ts → c.Matches ts token.bindings ∧
      token.key = c.joinKey (token.level + 1) token.bindings
  entered : ∀ c, n.rule? r = some c → ∀ id token, m.node? id = some token →
    ∀ p : Nat × Triple, c.patterns[0]? = some p → p.2.hasPlainPredicate = true
  firing : ∀ c, n.rule? r = some c → ∀ id firing, m.firings.get? id = some firing →
    Completes c (m.triples id)
  fired : ∀ c, n.rule? r = some c → ∀ id conclusions hidden committed,
    m.firings.get? id = some (.fired conclusions hidden committed) →
    Distinct conclusions ∧ committed = c.destructive

theorem Stock.weaken (h : m.Stock n r bound) {larger : TokenId} (hle : bound ≤ larger) :
    m.Stock n r larger :=
  { h with
    token_lt := fun id token hid => Nat.lt_of_lt_of_le (h.token_lt id token hid) hle
    firing_lt := fun id firing hid => Nat.lt_of_lt_of_le (h.firing_lt id firing hid) hle }

theorem stock_empty (n : Network) (r : Nat) (bound : TokenId) : empty.Stock n r bound where
  indexed := indexed_empty
  rooted := rooted_empty
  token_lt id token h := by cases h
  firing_lt id firing h := by cases h
  vacant _ id := ⟨rfl, rfl⟩
  token c _ id token ts h := by cases h
  entered c _ id token h := by cases h
  firing c _ id firing h := by cases h
  fired c _ id conclusions hidden committed h := by cases h

theorem Stock.rule_of_firing (h : m.Stock n r bound) {id : TokenId} {firing : Firing}
    (hid : m.firings.get? id = some firing) : ∃ c, n.rule? r = some c := by
  cases hc : n.rule? r with
  | some c => exact ⟨c, rfl⟩
  | none =>
      rw [(h.vacant hc id).2] at hid
      cases hid

theorem Spells.getElem?_level (hm : m.Rooted) {id : TokenId} {token : Token} {ts : List Triple}
    (hts : m.Spells (some id) ts) (hid : m.node? id = some token) :
    ts[token.level]? = some token.triple := by
  have hlength := hts.length_eq hm hid
  obtain ⟨found, below, hfound, _, rfl⟩ := hts.exists_token
  rw [hid] at hfound
  obtain rfl := Option.some.inj hfound
  rw [List.length_append, List.length_singleton] at hlength
  have hlevel : token.level = below.length := by omega
  rw [hlevel, List.getElem?_append_right (Nat.le_refl _), Nat.sub_self]
  rfl

/-- The triple of a token fits the pattern of its level. -/
theorem Stock.exists_fit (hm : m.Stock n r bound) {c : CompiledRule} (hc : n.rule? r = some c)
    {id : TokenId} {token : Token} (hid : m.node? id = some token) :
    ∃ p, c.patterns[token.level]? = some p ∧
      p.2.Fits token.bindings.assignment token.triple ∧ token.triple.isGround = true := by
  obtain ⟨ts, hts⟩ := hm.rooted.exists_spells hid
  obtain ⟨hmatches, _⟩ := hm.token c hc id token ts hid hts
  have hlast := hts.getElem?_level hm.rooted hid
  have hlevel : token.level < c.patterns.length :=
    Nat.lt_of_lt_of_le (List.getElem?_eq_some_iff.1 hlast).1 hmatches.length_le
  have hp : c.patterns[token.level]? = some c.patterns[token.level] :=
    List.getElem?_eq_getElem hlevel
  exact ⟨_, hp, hmatches.fits hp hlast, hmatches.isGround _ (List.mem_of_getElem? hlast)⟩

/-! ## Removal -/

theorem Cleared.triples_eq {t : Triple} {broken : List BrokenToken} (hm : m.Rooted)
    (h : m.Cleared t broken m') {id : TokenId} (hid : ¬ m.Holds id t) :
    m'.triples id = m.triples id := by
  cases hnode : m.node? id with
  | some token =>
      obtain ⟨ts, hts⟩ := hm.exists_spells hnode
      have hfree : ts.any (· == t) = false := by
        rw [Bool.eq_false_iff]
        exact fun held => hid ⟨ts, hts, held⟩
      rw [hts.triples_eq, (h.spells_iff.2 ⟨hts, hfree⟩).triples_eq]
  | none =>
      have hnode' : m'.node? id = none := by
        cases hnew : m'.node? id with
        | none => rfl
        | some token =>
            rw [((h.node?_iff id token).1 hnew).1] at hnode
            cases hnode
      rw [triples_of_none hnode, triples_of_none hnode']

theorem Cleared.triples_of_holds {t : Triple} {broken : List BrokenToken}
    (h : m.Cleared t broken m') {id : TokenId} (hid : m.Holds id t) : m'.triples id = [] := by
  apply triples_of_none
  cases hnew : m'.node? id with
  | none => rfl
  | some token => exact absurd hid ((h.node?_iff id token).1 hnew).2

theorem Cleared.not_holds_of_firing {t : Triple} {broken : List BrokenToken}
    (h : m.Cleared t broken m') {id : TokenId} {firing : Firing}
    (hid : m'.firings.get? id = some firing) :
    ¬ m.Holds id t ∧ m.firings.get? id = some firing := by
  have hnot : ¬ m.Holds id t := by
    intro held
    rw [h.firing_none id held] at hid
    cases hid
  exact ⟨hnot, by rw [← h.firing_eq id hnot, hid]⟩

theorem Stock.cleared_removeHolding (hm : m.Stock n r bound) (t : Triple) :
    m.Cleared t (m.removeHolding t).1 (m.removeHolding t).2 :=
  hm.indexed.cleared hm.rooted.toLayered t

theorem Stock.cleared {t : Triple} {broken : List BrokenToken} (hm : m.Stock n r bound)
    (h : m.Cleared t broken m') : m'.Stock n r bound where
  indexed := h.indexed
  rooted := h.rooted hm.rooted
  token_lt id token hid := hm.token_lt id token ((h.node?_iff id token).1 hid).1
  firing_lt id firing hid := hm.firing_lt id firing (h.not_holds_of_firing hid).2
  vacant hc id := by
    obtain ⟨hnode, hfiring⟩ := hm.vacant hc id
    constructor
    · cases hnew : m'.node? id with
      | none => rfl
      | some token =>
          rw [((h.node?_iff id token).1 hnew).1] at hnode
          cases hnode
    · cases hnew : m'.firings.get? id with
      | none => rfl
      | some firing =>
          rw [(h.not_holds_of_firing hnew).2] at hfiring
          cases hfiring
  token c hc id token ts hid hts :=
    hm.token c hc id token ts ((h.node?_iff id token).1 hid).1 (h.spells_iff.1 hts).1
  entered c hc id token hid := hm.entered c hc id token ((h.node?_iff id token).1 hid).1
  firing c hc id firing hid := by
    obtain ⟨hnot, hold⟩ := h.not_holds_of_firing hid
    rw [h.triples_eq hm.rooted hnot]
    exact hm.firing c hc id firing hold
  fired c hc id conclusions hidden committed hid :=
    hm.fired c hc id conclusions hidden committed (h.not_holds_of_firing hid).2

/-! ## Insertion -/

/-- The match continues a token of the memory by one more fact. -/
structure Continues (m : TokenMemory) (c : CompiledRule) (level : Nat) (p : PartialMatch) :
    Prop where
  spells : ∃ ts, m.Spells p.parent ts ∧ ts.length = level ∧ c.Matches (ts ++ [p.triple]) p.bindings
  entered : ∀ q : Nat × Triple, c.patterns[0]? = some q → q.2.hasPlainPredicate = true

theorem Inserted.spells {id : TokenId} {token : Token} (h : m.Inserted id token m')
    (hfresh : m.node? id = none) {place : Option TokenId} {ts : List Triple}
    (hts : m.Spells place ts) : m'.Spells place ts := by
  apply hts.mono
  intro j found hj
  rw [h.node?_eq, if_neg]
  · exact hj
  · rintro rfl
    rw [hfresh] at hj
    cases hj

theorem Inserted.triples_eq {id : TokenId} {token : Token} (hm : m.Rooted)
    (h : m.Inserted id token m') (hfresh : m.node? id = none) {j : TokenId} (hj : id ≠ j) :
    m'.triples j = m.triples j := by
  have hnode : m'.node? j = m.node? j := by rw [h.node?_eq, if_neg hj]
  cases hold : m.node? j with
  | some found =>
      obtain ⟨ts, hts⟩ := hm.exists_spells hold
      rw [hts.triples_eq, (h.spells hfresh hts).triples_eq]
  | none => rw [triples_of_none hold, triples_of_none (hnode.trans hold)]

/-- The token that is stored for a match. -/
def tokenOf (c : CompiledRule) (level : Nat) (p : PartialMatch) : Token :=
  { parent := p.parent
    triple := p.triple
    level
    bindings := p.bindings
    key := c.joinKey (level + 1) p.bindings }

theorem Stock.inserted (hm : m.Stock n r bound) {c : CompiledRule} (hc : n.rule? r = some c)
    {level : Nat} {p : PartialMatch} (hp : m.Continues c level p)
    (h : m.insert bound (tokenOf c level p) = some m') :
    m.Inserted bound (tokenOf c level p) m' ∧ m'.Stock n r (bound + 1) := by
  obtain ⟨below, hbelow, hlevel, hmatches⟩ := hp.spells
  have hfresh : m.node? bound = none := by
    cases hnode : m.node? bound with
    | none => rfl
    | some token => exact absurd (hm.token_lt bound token hnode) (Nat.lt_irrefl _)
  have hins : m.Inserted bound (tokenOf c level p) m' := by
    apply hm.indexed.inserted hm.rooted.toLayered hfresh rfl _ h
    intro q hparent
    change p.parent = some q at hparent
    rw [hparent] at hbelow
    obtain ⟨token, _, htoken, _, _⟩ := hbelow.exists_token
    refine ⟨token, htoken, ?_⟩
    rw [← hbelow.length_eq hm.rooted htoken]
    exact hlevel.symm
  have hrooted : m'.Rooted := by
    apply hins.rooted hm.rooted
    intro hparent
    change p.parent = none at hparent
    rw [hparent] at hbelow
    cases hbelow
    exact hlevel.symm
  have hnew : m'.Spells (some bound) (below ++ [p.triple]) := by
    have hnode : m'.node? bound = some (tokenOf c level p).bare := by
      rw [hins.node?_eq, if_pos rfl]
    exact .child hnode (hins.spells hfresh hbelow)
  have hold : ∀ id token, m'.node? id = some token →
      (id = bound ∧ token = (tokenOf c level p).bare) ∨ m.node? id = some token := by
    intro id token hid
    rw [hins.node?_eq] at hid
    split at hid
    · rename_i hsame
      exact Or.inl ⟨hsame.symm, (Option.some.inj hid).symm⟩
    · exact Or.inr hid
  refine ⟨hins, hins.indexed, hrooted, ?_, ?_, ?_, ?_, ?_, ?_, ?_⟩
  · intro id token hid
    rcases hold id token hid with ⟨rfl, _⟩ | hid
    · exact Nat.lt_succ_self _
    · exact Nat.lt_succ_of_lt (hm.token_lt id token hid)
  · intro id firing hid
    rw [hins.firings_eq] at hid
    exact Nat.lt_succ_of_lt (hm.firing_lt id firing hid)
  · intro hnone
    rw [hc] at hnone
    cases hnone
  · intro c' hc' id token ts hid hts
    rw [hc] at hc'
    obtain rfl := Option.some.inj hc'
    rcases hold id token hid with ⟨rfl, rfl⟩ | hid
    · rw [hts.unique hnew]
      exact ⟨hmatches, rfl⟩
    · obtain ⟨us, hus⟩ := hm.rooted.exists_spells hid
      rw [hts.unique (hins.spells hfresh hus)]
      exact hm.token c hc id token us hid hus
  · intro c' hc' id token hid
    rw [hc] at hc'
    obtain rfl := Option.some.inj hc'
    exact hp.entered
  · intro c' hc' id firing hid
    rw [hins.firings_eq] at hid
    have hne : bound ≠ id := Nat.ne_of_gt (hm.firing_lt id firing hid)
    rw [hins.triples_eq hm.rooted hfresh hne]
    exact hm.firing c' hc' id firing hid
  · intro c' hc' id conclusions hidden committed hid
    rw [hins.firings_eq] at hid
    exact hm.fired c' hc' id conclusions hidden committed hid

/-! ## Firings -/

theorem spells_congr (h : ∀ id, m'.node? id = m.node? id) {place : Option TokenId}
    {ts : List Triple} : m'.Spells place ts ↔ m.Spells place ts := by
  constructor
  · intro hts
    exact hts.mono fun id token hid => by rw [← h, hid]
  · intro hts
    exact hts.mono fun id token hid => by rw [h, hid]

theorem ascend_setFiring (m : TokenMemory) (id : TokenId) (firing : Firing) (steps : Nat)
    (j : TokenId) : (m.setFiring id firing).ascend steps j = m.ascend steps j := by
  induction steps generalizing j with
  | zero => rfl
  | succ steps ih =>
      have htoken : (m.setFiring id firing).token? j = m.token? j := rfl
      rw [ascend, ascend, htoken]
      cases m.token? j with
      | none => rfl
      | some token =>
          cases hparent : token.parent with
          | none => simp only [hparent]
          | some p => simp only [hparent, ih]

theorem triples_setFiring (m : TokenMemory) (id : TokenId) (firing : Firing) (j : TokenId) :
    (m.setFiring id firing).triples j = m.triples j :=
  congrArg List.reverse (m.ascend_setFiring id firing _ j)

theorem get?_firings_setFiring (m : TokenMemory) (id : TokenId) (firing : Firing) (j : TokenId) :
    (m.setFiring id firing).firings.get? j = if id = j then some firing else m.firings.get? j := by
  simp [setFiring, OrderedMap.get?_insert]

theorem Stock.setFiring (hm : m.Stock n r bound) {c : CompiledRule} (hc : n.rule? r = some c)
    {id : TokenId} {firing : Firing} (hlt : id < bound) (hcompletes : Completes c (m.triples id))
    (hfired : ∀ conclusions hidden committed, firing = .fired conclusions hidden committed →
      Distinct conclusions ∧ committed = c.destructive) :
    (m.setFiring id firing).Stock n r bound where
  indexed := ⟨hm.indexed.children_iff, hm.indexed.edge_iff, hm.indexed.joining_iff,
    hm.indexed.listed_iff⟩
  rooted := ⟨⟨hm.rooted.next⟩, hm.rooted.first⟩
  token_lt := hm.token_lt
  firing_lt j found hj := by
    rw [get?_firings_setFiring] at hj
    split at hj
    · rename_i hsame
      exact hsame ▸ hlt
    · exact hm.firing_lt j found hj
  vacant hnone := by
    rw [hc] at hnone
    cases hnone
  token c' hc' j token ts hj hts := by
    have hsame : ∀ k, (m.setFiring id firing).node? k = m.node? k := fun _ => rfl
    exact hm.token c' hc' j token ts hj ((spells_congr hsame).1 hts)
  entered := hm.entered
  firing c' hc' j found hj := by
    rw [get?_firings_setFiring] at hj
    rw [triples_setFiring]
    split at hj
    · rename_i hsame
      rw [hc] at hc'
      obtain rfl := Option.some.inj hc'
      exact hsame ▸ hcompletes
    · exact hm.firing c' hc' j found hj
  fired c' hc' j conclusions hidden committed hj := by
    rw [get?_firings_setFiring] at hj
    split at hj
    · rw [hc] at hc'
      obtain rfl := Option.some.inj hc'
      exact hfired conclusions hidden committed (Option.some.inj hj)
    · exact hm.fired c' hc' j conclusions hidden committed hj

end TokenMemory

/-! ## The memories of an engine -/

namespace Engine

variable {γ : Type} {e : Engine γ}

/-- Every rule has a memory, and every memory a proper stock. -/
def Stocked (e : Engine γ) : Prop :=
  e.memories.length = e.network.rules.length ∧
    ∀ r, (e.memory r).Stock e.network r e.nextToken

/-- The activation has drawn the conclusion, and can be taken back. -/
def Fires (e : Engine γ) (a : Activation) (t : Triple) : Prop :=
  ∃ firing, e.firing? a = some firing ∧ firing.Concludes t

theorem memory_setMemory (m : TokenMemory) {r : Nat} (hr : r < e.memories.length) (j : Nat) :
    (e.setMemory r m).memory j = if r = j then m else e.memory j := by
  rw [memory, setMemory, List.getElem?_set]
  by_cases hj : r = j
  · simp [hj ▸ hr, hj]
  · simp [hj, memory]

theorem memory_of_length_le {r : Nat} (hr : e.memories.length ≤ r) : e.memory r = .empty := by
  rw [memory, List.getElem?_eq_none hr]
  rfl

theorem Stocked.lt_length (he : e.Stocked) {r : Nat} {c : CompiledRule}
    (hc : e.network.rule? r = some c) : r < e.memories.length := by
  rw [he.1]
  exact (List.getElem?_eq_some_iff.1 hc).1

theorem Stocked.setMemory (he : e.Stocked) {r : Nat} {m : TokenMemory} {next : TokenId}
    (hr : r < e.memories.length) (hnext : e.nextToken ≤ next) (hm : m.Stock e.network r next) :
    Stocked { e.setMemory r m with nextToken := next } := by
  refine ⟨(List.length_set ..).trans he.1, ?_⟩
  intro j
  change ((e.setMemory r m).memory j).Stock e.network j next
  rw [memory_setMemory m hr]
  split
  · rename_i hsame
    exact hsame ▸ hm
  · exact (he.2 j).weaken hnext

theorem firing?_setMemory (m : TokenMemory) {r : Nat} (hr : r < e.memories.length)
    (a : Activation) : (e.setMemory r m).firing? a =
      if r = a.rule then m.firings.get? a.token else e.firing? a := by
  rw [firing?, memory_setMemory m hr]
  split <;> rfl

theorem matchedBy_setMemory (m : TokenMemory) {r : Nat} (hr : r < e.memories.length)
    (a : Activation) : (e.setMemory r m).matchedBy a =
      if r = a.rule then m.triples a.token else e.matchedBy a := by
  rw [matchedBy, memory_setMemory m hr]
  split <;> rfl

theorem firing?_setFiring {a : Activation} (ha : a.rule < e.memories.length) (firing : Firing)
    (b : Activation) : (e.setFiring a firing).firing? b =
      if a = b then some firing else e.firing? b := by
  rw [setFiring, firing?_setMemory _ ha, TokenMemory.get?_firings_setFiring]
  obtain ⟨ar, ak⟩ := a
  obtain ⟨br, bt⟩ := b
  by_cases hr : ar = br
  · subst hr
    by_cases ht : ak = bt
    · simp [ht]
    · simp [ht, firing?]
  · simp [hr]

theorem matchedBy_setFiring {a : Activation} (ha : a.rule < e.memories.length) (firing : Firing)
    (b : Activation) : (e.setFiring a firing).matchedBy b = e.matchedBy b := by
  rw [setFiring, matchedBy_setMemory _ ha]
  split
  · rename_i hr
    rw [TokenMemory.triples_setFiring, matchedBy, hr]
  · rfl

theorem node?_setFiring {a : Activation} (ha : a.rule < e.memories.length) (firing : Firing)
    (r : Nat) (id : TokenId) :
    ((e.setFiring a firing).memory r).node? id = (e.memory r).node? id := by
  rw [setFiring, memory_setMemory _ ha]
  split
  · rename_i hr
    rw [← hr]
    rfl
  · rfl

theorem Stocked.setFiring (he : e.Stocked) {a : Activation} {c : CompiledRule}
    (hc : e.network.rule? a.rule = some c) {firing : Firing} (hlt : a.token < e.nextToken)
    (hcompletes : TokenMemory.Completes c (e.matchedBy a))
    (hfired : ∀ conclusions hidden committed, firing = .fired conclusions hidden committed →
      Distinct conclusions ∧ committed = c.destructive) : (e.setFiring a firing).Stocked :=
  he.setMemory (he.lt_length hc) (Nat.le_refl _)
    ((he.2 a.rule).setFiring hc hlt hcompletes hfired)

theorem Stocked.rule_of_firing (he : e.Stocked) {a : Activation} {firing : Firing}
    (ha : e.firing? a = some firing) : ∃ c, e.network.rule? a.rule = some c ∧
      TokenMemory.Completes c (e.matchedBy a) := by
  obtain ⟨c, hc⟩ := (he.2 a.rule).rule_of_firing ha
  exact ⟨c, hc, (he.2 a.rule).firing c hc a.token firing ha⟩

end Engine

end Entailment
