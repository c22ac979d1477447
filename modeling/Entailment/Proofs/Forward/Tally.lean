import Entailment.Proofs.Forward.Endurance
import Mathlib.Algebra.Order.BigOperators.Group.List
import Mathlib.Algebra.Order.Group.Nat

/-!
# Tallies of firings

An engine keeps tallies of its firings: how many of them hide a predicate, how many there
were, and how many were taken back.  What a firing counts for is noted when it fires, and
again when it is taken back.  A firing that removes triples is committed and is never taken
back, not even when its token goes.  So a tally covers what the live firings count for, and
it is no more than that if committed firings count for nothing.  Every piece of work keeps
every tally, and so does every operation, done or failed.
-/

namespace Entailment

/-! ## Weights -/

theorem sum_map_set {α : Type} (f : α → Nat) {as : List α} {i : Nat} (hi : i < as.length)
    (a : α) : ((as.set i a).map f).sum + f as[i] = (as.map f).sum + f a := by
  induction as generalizing i with
  | nil => cases hi
  | cons b bs ih =>
      cases i with
      | zero =>
          simp only [List.set_cons_zero, List.map_cons, List.sum_cons, List.getElem_cons_zero]
          omega
      | succ i =>
          have hrest := ih (Nat.lt_of_succ_lt_succ hi)
          simp only [List.set_cons_succ, List.map_cons, List.sum_cons, List.getElem_cons_succ]
          omega

namespace TokenMemory

variable (weight : Firing → Nat)

/-- What the firings of a memory weigh. -/
def total (m : TokenMemory) : Nat := m.firings.weight weight

theorem total_setFiring (m : TokenMemory) (id : TokenId) (new : Firing) :
    (m.setFiring id new).total weight + ((m.firings.get? id).map weight).getD 0 =
      m.total weight + weight new := by
  cases h : m.firings.get? id with
  | none => exact OrderedMap.weight_insert_new _ _ h
  | some old => exact OrderedMap.weight_insert _ _ h

/-- The tokens that go take their weight along. -/
theorem total_removeHolding (m : TokenMemory) (t : Triple) :
    (m.removeHolding t).2.total weight +
      ((m.removeHolding t).1.map fun b => weight b.firing).sum = m.total weight := by
  have hbroken : ((m.removeHolding t).1.map fun b => weight b.firing) =
      ((m.holding t).filterMap m.firings.get?).map weight := by
    simp only [removeHolding, List.map_filterMap]
    apply List.filterMap_congr
    intro id _
    rw [broken?, Option.map_map]
    rfl
  rw [hbroken, total, removeHolding]
  simp only [firings_foldl_remove]
  exact OrderedMap.weight_foldl_erase _ (m.nodup_holding t) _

theorem firing_of_mem_removeHolding {m : TokenMemory} {t : Triple} {b : BrokenToken}
    (hb : b ∈ (m.removeHolding t).1) : m.firings.get? b.id = some b.firing := by
  obtain ⟨id, _, hbroken⟩ := List.mem_filterMap.1 hb
  obtain ⟨firing, hfiring, rfl⟩ := Option.map_eq_some_iff.1 hbroken
  exact hfiring

end TokenMemory

namespace Engine

variable {γ : Type} {e : Engine γ} (weight : Firing → Nat)

/-- What the live firings of an engine weigh. -/
def total (e : Engine γ) : Nat := (e.memories.map fun m => m.total weight).sum

theorem total_setMemory (m : TokenMemory) {r : Nat} (hr : r < e.memories.length) :
    (e.setMemory r m).total weight + (e.memory r).total weight =
      e.total weight + m.total weight := by
  have hmemory : e.memory r = e.memories[r] := by
    rw [memory, List.getElem?_eq_getElem hr]
    rfl
  rw [hmemory]
  exact sum_map_set (fun m : TokenMemory => m.total weight) hr m

theorem total_setFiring {a : Activation} (ha : a.rule < e.memories.length) (new : Firing) :
    (e.setFiring a new).total weight + ((e.firing? a).map weight).getD 0 =
      e.total weight + weight new := by
  have hengine := total_setMemory weight ((e.memory a.rule).setFiring a.token new) ha
  have hmemory := (e.memory a.rule).total_setFiring weight a.token new
  rw [firing?, setFiring]
  omega

theorem lt_length_of_firing {a : Activation} {firing : Firing} (ha : e.firing? a = some firing) :
    a.rule < e.memories.length := by
  by_contra hr
  rw [firing?, memory_of_length_le (Nat.le_of_not_lt hr)] at ha
  cases ha

/-- The engine weighs something exactly if some live firing does. -/
theorem total_pos_iff :
    0 < e.total weight ↔ ∃ a firing, e.firing? a = some firing ∧ 0 < weight firing := by
  rw [total, List.sum_pos_iff_exists_pos_nat]
  constructor
  · rintro ⟨_, hmap, hpos⟩
    obtain ⟨m, hm, rfl⟩ := List.mem_map.1 hmap
    obtain ⟨r, hr, rfl⟩ := List.getElem_of_mem hm
    rw [TokenMemory.total, OrderedMap.weight, List.sum_pos_iff_exists_pos_nat] at hpos
    obtain ⟨_, hmap, hpos⟩ := hpos
    obtain ⟨⟨id, firing⟩, hentry, rfl⟩ := List.mem_map.1 hmap
    refine ⟨⟨r, id⟩, firing, ?_, hpos⟩
    rw [firing?, memory, List.getElem?_eq_getElem hr]
    exact OrderedMap.mem_entries_iff.1 hentry
  · rintro ⟨a, firing, ha, hpos⟩
    have hr := lt_length_of_firing ha
    have hmemory : e.memory a.rule = e.memories[a.rule] := by
      rw [memory, List.getElem?_eq_getElem hr]
      rfl
    rw [firing?, hmemory] at ha
    refine ⟨_, List.mem_map.2 ⟨_, List.getElem_mem hr, rfl⟩, ?_⟩
    rw [TokenMemory.total, OrderedMap.weight, List.sum_pos_iff_exists_pos_nat]
    exact ⟨_, List.mem_map.2 ⟨_, OrderedMap.mem_entries_iff.2 ha, rfl⟩, hpos⟩

end Engine

/-! ## Counts -/

/-- Every predicate that is listed has a count. -/
def Counted (hidden : OrderedMap Node Nat) : Prop := ∀ p, hidden.get? p ≠ some 0

theorem Counted.hideOnce {hidden : OrderedMap Node Nat} (h : Counted hidden) (q : Node) :
    Counted (hideOnce hidden q) := by
  intro p
  unfold Entailment.hideOnce
  rw [OrderedMap.get?_alter]
  split
  · exact fun h => nomatch h
  · exact h p

theorem Counted.unhide {hidden : OrderedMap Node Nat} (h : Counted hidden) (q : Node) :
    Counted (unhide hidden q) := by
  intro p
  unfold Entailment.unhide
  cases hq : hidden.get? q with
  | none => exact h p
  | some n =>
      simp only
      split
      · rw [OrderedMap.get?_erase]
        split
        · exact fun h => nomatch h
        · exact h p
      · rename_i hn
        rw [OrderedMap.get?_insert]
        split
        · intro hzero
          have hzero := Option.some.inj hzero
          omega
        · exact h p

theorem Counted.foldl_hideOnce {hidden : OrderedMap Node Nat} (h : Counted hidden)
    (qs : List Node) : Counted (qs.foldl Entailment.hideOnce hidden) := by
  induction qs generalizing hidden with
  | nil => exact h
  | cons q qs ih => exact ih (h.hideOnce q)

theorem Counted.foldl_unhide {hidden : OrderedMap Node Nat} (h : Counted hidden)
    (qs : List Node) : Counted (qs.foldl Entailment.unhide hidden) := by
  induction qs generalizing hidden with
  | nil => exact h
  | cons q qs ih => exact ih (h.unhide q)

/-! ## Tallies -/

/-- What a firing counts for, what has been noted for all that fired, and what for all that
were taken back. -/
structure Tally where
  weight : Firing → Nat
  noted : (hidden : OrderedMap Node Nat) → (firings : Nat) → Nat
  returned : (retractions : Nat) → Nat
  weight_pending : weight .pending = 0
  weight_blocked : weight .blocked = 0
  noted_fired : ∀ conclusions hides committed hidden firings,
    noted (hides.foldl hideOnce hidden) (firings + 1) =
      noted hidden firings + weight (.fired conclusions hides committed)
  returned_retracted : ∀ conclusions hides hidden firings retractions,
    returned retractions + weight (.fired conclusions hides false) ≤ noted hidden firings →
    noted (hides.foldl unhide hidden) firings + returned retractions +
        weight (.fired conclusions hides false) =
      noted hidden firings + returned (retractions + 1)
  noted_none : noted .empty 0 = returned 0

namespace Tally

variable (T : Tally)

/-- What is noted when the firing is taken back. -/
def due : Firing → Nat
  | .fired conclusions hidden false => T.weight (.fired conclusions hidden false)
  | _ => 0

/-- Committed firings count for nothing. -/
def Spares (n : Network) : Prop :=
  ∀ c ∈ n.rules, c.destructive = true → ∀ ctx st conclusions st', st.effects = {} →
    c.evaluate n.registry ctx st = (some conclusions, st') →
    T.weight (.fired conclusions st'.effects.hidden true) = 0

variable {T}

theorem due_le (firing : Firing) : T.due firing ≤ T.weight firing := by
  cases firing with
  | pending => exact Nat.zero_le _
  | blocked => exact Nat.zero_le _
  | fired conclusions hidden committed =>
      cases committed with
      | true => exact Nat.zero_le _
      | false => exact Nat.le_refl _

/-- All that a firing counts for is due, unless it is committed. -/
theorem due_eq {firing : Firing}
    (h : ∀ conclusions hidden, firing = .fired conclusions hidden true → T.weight firing = 0) :
    T.due firing = T.weight firing := by
  cases firing with
  | pending => exact T.weight_pending.symm
  | blocked => exact T.weight_blocked.symm
  | fired conclusions hidden committed =>
      cases committed with
      | true => exact (h conclusions hidden rfl).symm
      | false => rfl

end Tally

namespace Engine

variable {γ : Type} {e e' : Engine γ} {T : Tally} {n : Network} {owed : Nat}

/-- The tally covers what the live firings count for, and what is still to be noted for
those that are being taken back.  It covers no more, if committed firings count for
nothing.  Nothing is kept in the table of what is hidden that does not count. -/
structure Tallied (T : Tally) (n : Network) (owed : Nat) (e : Engine γ) : Prop where
  network_eq : e.network = n
  length_eq : e.memories.length = n.rules.length
  fresh : ∀ a firing, e.firing? a = some firing → a.token < e.nextToken
  spared : T.Spares n → ∀ a conclusions hidden,
    e.firing? a = some (.fired conclusions hidden true) →
    T.weight (.fired conclusions hidden true) = 0
  counted : Counted e.hidden
  balance : ∃ lost, T.noted e.hidden e.stats.firings =
    T.returned e.stats.retractions + e.total T.weight + owed + lost ∧ (T.Spares n → lost = 0)

namespace Tallied

theorem ofTallies : Work.OfTallies (Tallied T n owed : Engine γ → Prop) := by
  intro e e' hnetwork hmemories hnext hhidden hfirings hretractions he
  have hmemory : ∀ r, e'.memory r = e.memory r := fun r => by rw [memory, memory, hmemories]
  have hfiring : ∀ a, e'.firing? a = e.firing? a := fun a => by rw [firing?, firing?, hmemory]
  refine ⟨hnetwork.trans he.network_eq, by rw [hmemories, he.length_eq], ?_, ?_, ?_, ?_⟩
  · intro a firing ha
    rw [hfiring] at ha
    rw [hnext]
    exact he.fresh a firing ha
  · intro hsure a conclusions hidden ha
    rw [hfiring] at ha
    exact he.spared hsure a conclusions hidden ha
  · rw [hhidden]
    exact he.counted
  · rw [hhidden, hfirings, hretractions, total, hmemories]
    exact he.balance

theorem ofCounts : Work.OfCounts (Tallied T n owed : Engine γ → Prop) := ofTallies.ofCounts

theorem ofCounts_firing (a : Activation) {firing : Firing} :
    Work.OfCounts fun e : Engine γ => e.Tallied T n owed ∧ e.firing? a = some firing := by
  intro e e' hbooks hfirings hretractions ⟨he, ha⟩
  have hmemories : e'.memories = e.memories := congrArg Books.memories hbooks
  refine ⟨ofCounts e e' hbooks hfirings hretractions he, ?_⟩
  rw [firing?, memory, hmemories]
  exact ha

theorem lt_length (he : e.Tallied T n owed) {r : Nat} {c : CompiledRule}
    (hc : e.network.rule? r = some c) : r < e.memories.length := by
  rw [he.length_eq, ← he.network_eq]
  exact (List.getElem?_eq_some_iff.1 hc).1

theorem rule_of_lt (he : e.Tallied T n owed) {r : Nat} (hr : r < e.memories.length) :
    ∃ c, e.network.rule? r = some c := by
  rw [he.length_eq, ← he.network_eq] at hr
  exact ⟨_, List.getElem?_eq_getElem hr⟩

/-- Numbers may be left out. -/
theorem later (he : e.Tallied T n owed) {next : TokenId} (hnext : e.nextToken ≤ next) :
    ({ e with nextToken := next } : Engine γ).Tallied T n owed :=
  { he with fresh := fun a firing ha => Nat.lt_of_lt_of_le (he.fresh a firing ha) hnext }

/-- A firing is replaced by one that has not fired, and what this takes off is owed. -/
theorem setFiring (he : e.Tallied T n owed) {a : Activation} (ha : a.rule < e.memories.length)
    (hfresh : a.token < e.nextToken) {new : Firing} {owed' : Nat}
    (howed : T.weight new + owed' = ((e.firing? a).map T.weight).getD 0 + owed)
    (hcommitted : ∀ conclusions hidden, new ≠ .fired conclusions hidden true) :
    (e.setFiring a new).Tallied T n owed' where
  network_eq := he.network_eq
  length_eq := (List.length_set ..).trans he.length_eq
  fresh b firing hb := by
    rw [firing?_setFiring ha] at hb
    split at hb
    · rename_i hab
      exact hab ▸ hfresh
    · exact he.fresh b firing hb
  spared hsure b conclusions hidden hb := by
    rw [firing?_setFiring ha] at hb
    split at hb
    · exact absurd (Option.some.inj hb) (hcommitted conclusions hidden)
    · exact he.spared hsure b conclusions hidden hb
  counted := he.counted
  balance := by
    obtain ⟨lost, hnoted, hlost⟩ := he.balance
    refine ⟨lost, ?_, hlost⟩
    have htotal := total_setFiring T.weight ha new
    change T.noted e.hidden e.stats.firings = T.returned e.stats.retractions + _ + owed' + lost
    omega

/-- An activation that counts for nothing goes on the agenda. -/
theorem schedule (he : e.Tallied T n owed) {a : Activation} (ha : a.rule < e.memories.length)
    (hfresh : a.token < e.nextToken) (hnone : ((e.firing? a).map T.weight).getD 0 = 0) :
    (e.schedule a).Tallied T n owed := by
  have hset : (e.setFiring a .pending).Tallied T n owed :=
    he.setFiring ha hfresh (by rw [hnone, T.weight_pending]) fun _ _ h => nomatch h
  exact ofCounts (e.setFiring a .pending) _ rfl rfl rfl hset

/-- What a firing that waited counts for is noted when it fires. -/
theorem fired (he : e.Tallied T n owed) {a : Activation} (ha : e.firing? a = some .pending)
    (hbooks : e'.books = e.books) (hfirings : e'.stats.firings = e.stats.firings + 1)
    (hretractions : e'.stats.retractions = e.stats.retractions) (conclusions : List Triple)
    {hidden : List Node} {destructive : Bool}
    (hspared : destructive = true → T.Spares n → T.weight (.fired conclusions hidden true) = 0) :
    (({ e' with hidden := hidden.foldl hideOnce e'.hidden } : Engine γ).setFiring a
      (.fired conclusions hidden destructive)).Tallied T n owed := by
  have hmemories : e'.memories = e.memories := congrArg Books.memories hbooks
  have hnext : e'.nextToken = e.nextToken := congrArg Books.nextToken hbooks
  have hhidden : e'.hidden = e.hidden := congrArg Books.hidden hbooks
  have hsame : ∀ b, e'.firing? b = e.firing? b := fun b => by
    rw [firing?, memory, hmemories]
    rfl
  set e₁ : Engine γ := { e' with hidden := hidden.foldl hideOnce e'.hidden } with he₁
  set new : Firing := .fired conclusions hidden destructive with hnew
  have hlt : a.rule < e₁.memories.length := lt_length_of_firing ((hsame a).trans ha)
  have hafter : ∀ b, (e₁.setFiring a new).firing? b = if a = b then some new else e.firing? b :=
    fun b => (firing?_setFiring hlt new b).trans (by rw [← hsame b]; rfl)
  refine ⟨(congrArg Books.network hbooks).trans he.network_eq, ?_, ?_, ?_, ?_, ?_⟩
  · exact (List.length_set ..).trans (hmemories ▸ he.length_eq)
  · intro b firing hb
    change b.token < e'.nextToken
    rw [hnext]
    rw [hafter] at hb
    split at hb
    · rename_i hab
      exact hab ▸ he.fresh a _ ha
    · exact he.fresh b firing hb
  · intro hsure b conclusions' hidden' hb
    rw [hafter] at hb
    split at hb
    · rw [hnew] at hb
      cases hb
      exact hspared rfl hsure
    · exact he.spared hsure b conclusions' hidden' hb
  · change Counted (hidden.foldl hideOnce e'.hidden)
    rw [hhidden]
    exact he.counted.foldl_hideOnce hidden
  · obtain ⟨lost, hnoted, hlost⟩ := he.balance
    refine ⟨lost, ?_, hlost⟩
    have htotal := total_setFiring T.weight hlt new
    have hold : ((e₁.firing? a).map T.weight).getD 0 = 0 := by
      rw [show e₁.firing? a = some .pending from (hsame a).trans ha]
      exact T.weight_pending
    have hequal : e₁.total T.weight = e.total T.weight := by
      change e'.total T.weight = _
      rw [total, hmemories, total]
    have hfired := T.noted_fired conclusions hidden destructive e.hidden e.stats.firings
    rw [← hnew] at hfired
    change T.noted (hidden.foldl hideOnce e'.hidden) e'.stats.firings =
      T.returned e'.stats.retractions + _ + owed + lost
    rw [hhidden, hfirings, hretractions]
    omega

/-- What a firing counts for is noted again when it is taken back. -/
theorem retracted {conclusions : List Triple} {hidden : List Node}
    (he : e.Tallied T n (T.weight (.fired conclusions hidden false) + owed))
    {hides : OrderedMap Node Nat} {stats : EngineStats}
    (hhides : hides = hidden.foldl unhide e.hidden) (hfirings : stats.firings = e.stats.firings)
    (hretractions : stats.retractions = e.stats.retractions + 1) :
    ({ e with hidden := hides, stats } : Engine γ).Tallied T n owed := by
  refine ⟨he.network_eq, he.length_eq, he.fresh, he.spared,
    hhides ▸ he.counted.foldl_unhide hidden, ?_⟩
  obtain ⟨lost, hnoted, hlost⟩ := he.balance
  refine ⟨lost, ?_, hlost⟩
  have hreturned := T.returned_retracted conclusions hidden e.hidden e.stats.firings
    e.stats.retractions (by omega)
  change T.noted hides stats.firings = T.returned stats.retractions + e.total T.weight + owed + lost
  rw [hhides, hfirings, hretractions]
  omega

/-- A memory may change as long as its firings stay. -/
theorem setMemory (he : e.Tallied T n owed) {r : Nat} (hr : r < e.memories.length)
    {m : TokenMemory} (hfirings : m.firings = (e.memory r).firings) :
    (e.setMemory r m).Tallied T n owed ∧ ∀ a, (e.setMemory r m).firing? a = e.firing? a := by
  have hfiring : ∀ a, (e.setMemory r m).firing? a = e.firing? a := by
    intro a
    rw [firing?_setMemory _ hr]
    split
    · rename_i hrule
      rw [hfirings, firing?, hrule]
    · rfl
  refine ⟨⟨he.network_eq, (List.length_set ..).trans he.length_eq,
    fun a firing ha => he.fresh a firing ((hfiring a).symm.trans ha),
    fun hsure a conclusions hidden ha =>
      he.spared hsure a conclusions hidden ((hfiring a).symm.trans ha), he.counted, ?_⟩, hfiring⟩
  obtain ⟨lost, hnoted, hlost⟩ := he.balance
  refine ⟨lost, ?_, hlost⟩
  have htotal := total_setMemory T.weight m hr
  have hsame : m.total T.weight = (e.memory r).total T.weight := by
    rw [TokenMemory.total, hfirings, TokenMemory.total]
  change T.noted e.hidden e.stats.firings = T.returned e.stats.retractions + _ + owed + lost
  omega

/-- When tokens go, what is due for their firings is owed.  Nothing is due for committed
ones. -/
theorem cleared (he : e.Tallied T n owed) {rule : Nat} (hlt : rule < e.memories.length)
    (t : Triple) : (e.setMemory rule ((e.memory rule).removeHolding t).2).Tallied T n
      ((((e.memory rule).removeHolding t).1.map fun b => T.due b.firing).sum + owed) := by
  set broken := ((e.memory rule).removeHolding t).1 with hbroken
  set e₁ := e.setMemory rule ((e.memory rule).removeHolding t).2 with he₁
  have hfirings : ∀ id, ((e.memory rule).removeHolding t).2.firings.get? id = none ∨
      ((e.memory rule).removeHolding t).2.firings.get? id = (e.memory rule).firings.get? id := by
    intro id
    simp only [TokenMemory.removeHolding, TokenMemory.firings_foldl_remove,
      OrderedMap.get?_foldl_erase]
    split
    · exact Or.inl rfl
    · exact Or.inr rfl
  have hfiring : ∀ a firing, e₁.firing? a = some firing → e.firing? a = some firing := by
    intro a firing ha
    rw [he₁, firing?_setMemory _ hlt] at ha
    split at ha
    · rename_i hr
      rcases hfirings a.token with hnone | hsame
      · rw [hnone] at ha
        cases ha
      · rw [hsame] at ha
        rw [firing?, ← hr]
        exact ha
    · exact ha
  refine ⟨he.network_eq, (List.length_set ..).trans he.length_eq,
    fun a firing ha => he.fresh a firing (hfiring a firing ha),
    fun hsure a conclusions hidden ha => he.spared hsure a conclusions hidden (hfiring a _ ha),
    he.counted, ?_⟩
  obtain ⟨lost, hnoted, hlost⟩ := he.balance
  have hengine := total_setMemory T.weight ((e.memory rule).removeHolding t).2 hlt
  have hmemory := (e.memory rule).total_removeHolding T.weight t
  rw [← he₁] at hengine
  rw [← hbroken] at hmemory
  have hle : (broken.map fun b => T.due b.firing).sum ≤
      (broken.map fun b => T.weight b.firing).sum :=
    List.sum_le_sum fun b _ => Tally.due_le b.firing
  refine ⟨lost + ((broken.map fun b => T.weight b.firing).sum -
    (broken.map fun b => T.due b.firing).sum), ?_, fun hsure => ?_⟩
  · change T.noted e.hidden e.stats.firings = T.returned e.stats.retractions + _ + _ + _
    omega
  · have hequal : (broken.map fun b => T.due b.firing) = broken.map fun b => T.weight b.firing := by
      apply List.map_congr_left
      intro b hb
      refine Tally.due_eq fun conclusions hidden hfired => ?_
      rw [hfired]
      exact he.spared hsure ⟨rule, b.id⟩ conclusions hidden
        ((TokenMemory.firing_of_mem_removeHolding hb).trans (congrArg some hfired))
    rw [hequal, Nat.sub_self, hlost hsure]

end Tallied

end Engine

/-! ## What work does to a tally -/

namespace Work

open Engine

variable {γ : Type} [Graph γ] {T : Tally} {n : Network} {owed : Nat}

/-- Taking a firing back notes what is due. -/
theorem leaves_retract {e : Engine γ} {a : Activation} {firing : Firing}
    (he : e.Tallied T n (T.due firing + owed)) (ha : a.rule < e.memories.length)
    (triples : List Triple) :
    (retract a triples firing).Leaves e fun _ e' => e'.Tallied T n owed := by
  obtain ⟨c, hc⟩ := he.rule_of_lt ha
  refine leaves_get_bind ?_
  have hnothing : T.due firing = 0 → e.Tallied T n owed := by
    intro hnone
    rw [hnone, Nat.zero_add] at he
    exact he
  cases firing with
  | pending => exact leaves_pure (hnothing rfl)
  | blocked => exact leaves_pure (hnothing rfl)
  | fired conclusions hidden committed =>
      cases committed with
      | true => exact leaves_pure (hnothing rfl)
      | false =>
          simp only [hc]
          exact leaves_modify_bind (leaves_modify_bind ((keeps_forM
            (Tallied.ofTallies.unsupport a c _) _).leaves (he.retracted rfl rfl rfl)))

/-- No memory changes when a firing is taken back. -/
theorem keeps_memories_retract (ms : List TokenMemory) (a : Activation) (triples : List Triple)
    (firing : Firing) :
    Keeps (fun e => e.memories = ms) (retract a triples firing : Work γ Unit) := by
  have hof : OfTokens (fun e : Engine γ => e.memories = ms) :=
    fun _ _ _ hmemories _ _ he => hmemories.trans he
  refine keeps_get_bind fun e he => ?_
  split
  · exact keeps_bind (hof.ofBooks.count _) fun _ =>
      keeps_bind (keeps_modify fun _ he => he) fun _ => keeps_forM (hof.ofTallies.unsupport a _ _) _
  · exact keeps_pure _

theorem leaves_retractTokens {e : Engine γ} (he : e.Tallied T n owed) {rule : Nat}
    (hlt : rule < e.memories.length) (t : Triple) :
    (retractTokens t rule).Leaves e fun _ e' => e'.Tallied T n owed := by
  refine leaves_get_bind (leaves_set_bind ?_)
  refine (leaves_forM (fun rest e' =>
    e'.Tallied T n ((rest.map fun b => T.due b.firing).sum + owed)) ?_ _
    (he.cleared hlt t)).mono ?_
  · intro b rest e₂ he₂
    refine leaves_retract ?_ (by rw [he₂.length_eq, ← he.length_eq]; exact hlt) b.triples
    simpa only [List.map_cons, List.sum_cons, Nat.add_assoc] using he₂
  · intro _ e' he'
    simpa using he'

/-- A rule that the network does not have has no tokens to lose. -/
theorem keeps_retractTokens_tallied (t : Triple) (rule : Nat) :
    Keeps (Tallied T n owed) (retractTokens t rule : Work γ Unit) := by
  refine keeps_of_leaves fun e he => ?_
  by_cases hlt : rule < e.memories.length
  · exact leaves_retractTokens he hlt t
  · have hle := Nat.le_of_not_lt hlt
    refine leaves_get_bind (leaves_set_bind ?_)
    rw [memory_of_length_le hle]
    refine leaves_pure (Tallied.ofTallies e _ rfl ?_ rfl rfl rfl rfl he)
    exact List.set_eq_of_length_le hle

/-! ## Matching -/

omit [Graph γ] in
theorem firings_of_insert {m m' : TokenMemory} {id : TokenId} {token : Token}
    (h : m.insert id token = some m') : m'.firings = m.firings := by
  unfold TokenMemory.insert at h
  simp only at h
  split at h
  · cases h
  · cases h
    cases token.parent <;> rfl

omit [Graph γ] in
/-- A token that is stored has no firing yet. -/
theorem leaves_store {e : Engine γ} (he : e.Tallied T n owed) {c : CompiledRule} {s : Subscriber}
    (hr : s.rule < e.memories.length) (m : PartialMatch) :
    (store c s m).Leaves e fun stored e' => e'.Tallied T n owed ∧
      ∀ id, stored = some id → id < e'.nextToken ∧ e'.firing? ⟨s.rule, id⟩ = none := by
  refine leaves_get_bind ?_
  simp only
  split
  · exact leaves_pure ⟨he, fun _ h => nomatch h⟩
  · rename_i memory hinsert
    obtain ⟨hset, hfiring⟩ := he.setMemory hr (firings_of_insert hinsert)
    refine leaves_set_bind (leaves_pure ⟨hset.later (Nat.le_succ _), ?_⟩)
    rintro _ ⟨⟩
    refine ⟨Nat.lt_succ_self _, ?_⟩
    change (e.setMemory s.rule memory).firing? ⟨s.rule, e.nextToken⟩ = none
    rw [hfiring]
    cases hnew : e.firing? ⟨s.rule, e.nextToken⟩ with
    | none => rfl
    | some firing => exact absurd (he.fresh _ _ hnew) (Nat.lt_irrefl _)

theorem keeps_grow_tallied (c : CompiledRule) {rule : Nat} (hr : rule < n.rules.length)
    (following : List Triple) (level : Nat) (found : List PartialMatch) :
    Keeps (Tallied T n owed) (grow c rule level following found : Work γ Unit) := by
  induction following generalizing level found with
  | nil =>
      refine keeps_forM (fun m => keeps_of_leaves fun e he => ?_) _
      refine (leaves_store he (by rw [he.length_eq]; exact hr) m).bind fun stored e' he' => ?_
      cases stored with
      | none => exact leaves_pure he'.1
      | some id =>
          obtain ⟨htallied, hnew⟩ := he'
          obtain ⟨hfresh, hnone⟩ := hnew id rfl
          refine leaves_modify (htallied.schedule ?_ hfresh (by rw [hnone]; rfl))
          rw [htallied.length_eq]
          exact hr
  | cons next following ih =>
      refine keeps_bind (keeps_mapM (fun m => keeps_of_leaves fun e he => ?_) _) fun _ => ih _ _
      refine (leaves_store he (by rw [he.length_eq]; exact hr) m).bind fun stored e' he' => ?_
      cases stored with
      | none => exact leaves_pure he'.1
      | some id =>
          exact (keeps_get_bind fun _ _ => keeps_bind (keeps_attempt _) fun _ =>
            keeps_pure _).leaves he'.1

theorem keeps_activate_tallied (t : Triple) (s : Subscriber) :
    Keeps (Tallied T n owed) (activate t s : Work γ Unit) := by
  refine keeps_get_bind fun e he => ?_
  split
  · exact keeps_pure _
  · rename_i c hc
    split
    · exact keeps_pure _
    · exact keeps_grow_tallied c (he.length_eq ▸ he.lt_length hc) _ _ _

theorem keeps_propagate_tallied (event : Event) :
    Keeps (Tallied T n owed) (propagate event : Work γ Unit) := by
  cases event with
  | added t =>
      refine keeps_bind (keeps_isVisible t) fun _ => keeps_ite ?_ (keeps_pure _)
      exact keeps_bind (Tallied.ofCounts.count (fun _ => rfl) fun _ => rfl) fun _ =>
        keeps_get_bind fun _ _ => keeps_forM (keeps_activate_tallied t) _
  | deleted t =>
      refine keeps_bind (keeps_isVisible t) fun _ => keeps_ite (keeps_pure _) ?_
      exact keeps_bind (Tallied.ofCounts.count (fun _ => rfl) fun _ => rfl) fun _ =>
        keeps_get_bind fun _ _ => keeps_forM (keeps_retractTokens_tallied t) _

/-! ## Firing -/

theorem leaves_settleFiring {e : Engine γ} (he : e.Tallied T n owed) {a : Activation}
    (ha : e.firing? a = some .pending) {c : CompiledRule} (matched : List (Option Triple))
    (conclusions : List Triple) {effects : Effects}
    (hspared : c.destructive = true → T.Spares n →
      T.weight (.fired conclusions effects.hidden true) = 0) :
    (settleFiring a c matched conclusions effects).Leaves e fun _ e' => e'.Tallied T n owed := by
  -- The report leaves the books alone, and the counts as they were raised before it.
  set e₁ : Engine γ := { e with stats := { e.stats with firings := e.stats.firings + 1 } } with he₁
  have hof : OfCounts fun e' : Engine γ => e'.books = e.books ∧
      e'.stats.firings = e.stats.firings + 1 ∧ e'.stats.retractions = e.stats.retractions :=
    fun _ _ hbooks hfirings hretractions h =>
      ⟨hbooks.trans h.1, hfirings.trans h.2.1, hretractions.trans h.2.2⟩
  have hreport := (hof.report c conclusions).leaves (e := e₁) ⟨rfl, rfl, rfl⟩
  refine leaves_modify_bind (hreport.bind fun _ e₂ he₂ => ?_)
  have hfired := he.fired ha he₂.1 he₂.2.1 he₂.2.2 conclusions hspared
  refine leaves_modify_bind (leaves_modify_bind ?_)
  refine Leaves.bind ((keeps_forM (fun t => keeps_bind (Tallied.ofTallies.credit a c matched t)
    fun _ => Tallied.ofCounts.assert t) _).leaves hfired) fun _ e₃ he₃ => ?_
  exact (keeps_bind (keeps_forM (Tallied.ofTallies.removeEverywhere true) _) fun _ =>
    keeps_forM (Tallied.ofTallies.removeEverywhere false) _).leaves he₃

theorem keeps_fire_tallied (a : Activation) :
    Keeps (Tallied T n owed) (fire a : Work γ Unit) := by
  refine keeps_of_leaves fun e he => leaves_get_bind ?_
  split
  · rename_i c ha hc
    refine ((keeps_attempt _).leaves he).bind fun bindings _ _ => ?_
    have hmem : c ∈ n.rules := List.mem_of_getElem? (he.network_eq ▸ hc)
    simp only
    cases hevaluate : c.evaluate e.network.registry
        (.ofView e.view c.label (c.matched (e.matchedBy a)) false)
        { bindings, world := e.world } with
    | mk answer st =>
        refine leaves_set_bind ?_
        have hworld : ({ e with world := st.world } : Engine γ).Tallied T n owed :=
          Tallied.ofCounts e _ rfl rfl rfl he
        cases answer with
        | none =>
            have hkept : Keeps
                (fun e' : Engine γ => e'.Tallied T n owed ∧ e'.firing? a = some .pending)
                (count fun s => { s with blocked := s.blocked + 1 }) :=
              (Tallied.ofCounts_firing a).count (fun _ => rfl) fun _ => rfl
            refine (hkept.leaves ⟨hworld, ha⟩).bind fun _ e₁ he₁ => ?_
            have hlt := lt_length_of_firing he₁.2
            refine leaves_modify (he₁.1.setFiring hlt (he₁.1.fresh a _ he₁.2) ?_
              fun _ _ h => nomatch h)
            rw [he₁.2, T.weight_blocked, Option.map_some, Option.getD_some, T.weight_pending]
        | some conclusions =>
            refine leaves_settleFiring hworld ha _ conclusions fun hdestructive hsure => ?_
            exact hsure c hmem hdestructive _ _ _ _ rfl (he.network_eq ▸ hevaluate)
  · exact leaves_pure he

/-! ## Asking again -/

/-- To ask an activation again concerns its own firing only. -/
theorem leaves_reconsider {e : Engine γ} (he : e.Tallied T n owed) (c : CompiledRule)
    {a : Activation} {firing : Firing} (ha : e.firing? a = some firing) {fired : Bool}
    (hrevisable : firing.revisable? = some fired) :
    (reconsider c a fired).Leaves e fun _ e' =>
      e'.Tallied T n owed ∧ ∀ b, a ≠ b → e'.firing? b = e.firing? b := by
  have hlt := lt_length_of_firing ha
  have hof : OfCounts fun e' : Engine γ => e'.Tallied T n owed ∧ e'.memories = e.memories :=
    fun e₁ e₂ hbooks hfirings hretractions he₁ =>
      ⟨Tallied.ofCounts e₁ e₂ hbooks hfirings hretractions he₁.1,
        (congrArg Books.memories hbooks).trans he₁.2⟩
  refine leaves_get_bind (((hof.stillHolds c _).leaves ⟨he, rfl⟩).bind fun held e₁ he₁ => ?_)
  have hlt₁ : a.rule < e₁.memories.length := by rw [he₁.2]; exact hlt
  have hfiring : ∀ b, e₁.firing? b = e.firing? b := fun b => by
    rw [firing?, memory, he₁.2]
    rfl
  have hfresh : a.token < e₁.nextToken := he₁.1.fresh a firing ((hfiring a).trans ha)
  have hothers : ∀ (new : Firing) b, a ≠ b → (e₁.setFiring a new).firing? b = e.firing? b := by
    intro new b hb
    rw [firing?_setFiring hlt₁, if_neg hb, hfiring]
  split
  · -- The activation had fired: it is blocked, and its firing is taken back.
    rename_i hcase
    rw [Bool.and_eq_true] at hcase
    refine leaves_modify_bind ?_
    rw [ha, Option.getD_some]
    have hblocked : (e₁.setFiring a .blocked).Tallied T n (T.due firing + owed) := by
      refine he₁.1.setFiring hlt₁ hfresh ?_ fun _ _ h => by cases h
      have hdue : T.due firing = T.weight firing := by
        refine Tally.due_eq fun conclusions hidden hfired => ?_
        rw [hfired] at hrevisable
        cases hrevisable
      rw [hfiring, ha, hdue, T.weight_blocked]
      exact Nat.zero_add _
    have hback := (leaves_retract hblocked ((List.length_set ..).symm ▸ hlt₁)
      (e.matchedBy a)).and ((keeps_memories_retract (e₁.setFiring a .blocked).memories a
        (e.matchedBy a) firing).leaves rfl)
    refine hback.bind fun _ e₂ he₂ => leaves_pure ⟨he₂.1, fun b hb => ?_⟩
    rw [firing?, memory, he₂.2]
    exact hothers .blocked b hb
  · split
    · -- The activation had been blocked: it goes on the agenda.
      rename_i hcase
      rw [Bool.and_eq_true, Bool.not_eq_true'] at hcase
      have hnone : T.weight firing = 0 := by
        rw [hcase.1] at hrevisable
        cases firing with
        | pending => exact T.weight_pending
        | blocked => exact T.weight_blocked
        | fired conclusions hidden committed => cases committed <;> cases hrevisable
      refine leaves_modify_bind (leaves_pure ⟨he₁.1.schedule hlt₁ hfresh ?_, fun b hb => ?_⟩)
      · rw [hfiring, ha]
        exact hnone
      · exact hothers .pending b hb
    · exact leaves_pure ⟨he₁.1, fun b _ => hfiring b⟩

theorem keeps_recheckRule_tallied (c : CompiledRule) (rule : Nat) :
    Keeps (Tallied T n owed) (recheckRule c rule : Work γ Bool) := by
  refine keeps_of_leaves fun e he => leaves_get_bind ?_
  -- What is still to be asked stands as it did when the list was made.
  refine (leaves_mapM (fun rest e' => e'.Tallied T n owed ∧
    rest.Pairwise (fun x y : TokenId × Bool => x.1 ≠ y.1) ∧
    ∀ x ∈ rest, ∃ firing, e'.firing? ⟨rule, x.1⟩ = some firing ∧
      firing.revisable? = some x.2) ?_ _ ⟨he, pairwise_revisable _, ?_⟩).bind
    fun _ e' he' => leaves_pure he'.1
  · rintro ⟨id, fired⟩ rest e₁ ⟨he₁, hpairwise, hrest⟩
    obtain ⟨firing, hfiring, hrevisable⟩ := hrest _ (List.mem_cons_self ..)
    obtain ⟨hne, hpairwise⟩ := List.pairwise_cons.1 hpairwise
    refine (leaves_reconsider he₁ c hfiring hrevisable).mono ?_
    rintro _ e₂ ⟨he₂, hothers⟩
    refine ⟨he₂, hpairwise, fun x hx => ?_⟩
    rw [hothers ⟨rule, x.1⟩ fun hsame => hne x hx (congrArg Activation.token hsame)]
    exact hrest x (List.mem_cons_of_mem _ hx)
  · exact fun x hx => mem_revisable_iff.1 hx

/-! ## Steps and requests -/

/-- A piece of work keeps the tally. -/
theorem keeps_step_tallied (rechecks : Nat) :
    Keeps (Tallied T n owed) (step rechecks : Work γ (Option Nat)) := by
  refine keeps_get_bind fun e he => ?_
  split
  · exact keeps_bind (keeps_set (Tallied.ofCounts e _ rfl rfl rfl he)) fun _ =>
      keeps_bind (keeps_propagate_tallied _) fun _ => keeps_pure _
  · exact keeps_bind (keeps_set (Tallied.ofCounts e _ rfl rfl rfl he)) fun _ =>
      keeps_bind (keeps_fire_tallied _) fun _ => keeps_pure _
  · exact keeps_bind (keeps_set (Tallied.ofCounts e _ rfl rfl rfl he)) fun _ =>
      keeps_bind (Tallied.ofCounts.checkSupport _) fun _ => keeps_pure _
  · exact keeps_ite (keeps_pure _) (keeps_bind (Tallied.ofCounts.count (fun _ => rfl)
      fun _ => rfl) fun _ => keeps_bind (keeps_get_bind fun _ _ =>
        keeps_bind (keeps_mapM (fun _ => keeps_recheckRule_tallied _ _) _) fun _ => keeps_pure _)
      fun _ => keeps_ite (keeps_pure _) (keeps_pure _))

omit [Graph γ] in
/-- An engine that has forgotten all has noted nothing. -/
theorem tallied_reset {e : Engine γ} (hnetwork : e.network = n) : e.reset.Tallied T n 0 := by
  have hfiring : ∀ a, e.reset.firing? a = none := by
    intro a
    rw [firing?, memory_reset]
    rfl
  refine ⟨hnetwork, ?_, ?_, ?_, fun _ h => ?_, 0, ?_, fun _ => rfl⟩
  · rw [← hnetwork]
    exact List.length_map _
  · intro a firing ha
    rw [hfiring] at ha
    cases ha
  · intro _ a conclusions hidden ha
    rw [hfiring] at ha
    cases ha
  · cases h
  · have hnone : ¬ 0 < e.reset.total T.weight := by
      rw [total_pos_iff]
      rintro ⟨a, firing, ha, _⟩
      rw [hfiring] at ha
      cases ha
    have hnoted := T.noted_none
    change T.noted .empty 0 = T.returned 0 + e.reset.total T.weight + 0 + 0
    omega

omit [Graph γ] in
/-- An activation with a number of its own goes on the agenda. -/
theorem keeps_scheduleOnce_tallied {rule : Nat} (hrule : rule < n.rules.length) :
    Keeps (Tallied T n owed) (scheduleOnce rule : Work γ Unit) := by
  refine keeps_modify fun e he => ?_
  have hlater := he.later (Nat.le_succ e.nextToken)
  refine hlater.schedule (a := ⟨rule, e.nextToken⟩) ?_ (Nat.lt_succ_self _) ?_
  · rw [hlater.length_eq]
    exact hrule
  · change ((e.firing? ⟨rule, e.nextToken⟩).map T.weight).getD 0 = 0
    cases hfiring : e.firing? ⟨rule, e.nextToken⟩ with
    | none => rfl
    | some firing => exact absurd (he.fresh _ firing hfiring) (Nat.lt_irrefl _)

theorem leaves_restart_tallied {e : Engine γ} (hnetwork : e.network = n) :
    Work.restart.Leaves e fun _ e' => e'.Tallied T n 0 := by
  have hreset : e.reset.Tallied T n 0 := tallied_reset hnetwork
  refine leaves_modify_bind (leaves_get_bind ?_)
  refine (leaves_attempt fun facts _ => hreset).bind fun facts _ _ => leaves_set_bind ?_
  have hqueued : ({ e.reset with events := facts.map .added } : Engine γ).Tallied T n 0 :=
    Tallied.ofCounts e.reset _ rfl rfl rfl hreset
  refine (leaves_forM (fun rest e' => e'.Tallied T n 0 ∧
    ∀ x ∈ rest, x.2 < n.rules.length) ?_ _ ⟨hqueued, ?_⟩).mono fun _ _ he' => he'.1
  · rintro ⟨c, rule⟩ rest e₁ ⟨he₁, hrest⟩
    have hrule : rule < n.rules.length := hrest _ (List.mem_cons_self ..)
    exact ((keeps_scheduleOnce_tallied hrule).leaves he₁).mono fun _ _ he₂ =>
      ⟨he₂, fun x hx => hrest x (List.mem_cons_of_mem _ hx)⟩
  · rintro ⟨c, rule⟩ hx
    have hmem := (List.mem_filter.1 hx).1
    rw [← hnetwork]
    exact (List.mem_zipIdx' hmem).1

/-- A request keeps the tally. -/
theorem keeps_request_tallied (o : Operation) :
    Keeps (Tallied T n 0) (o.request : Work γ Unit) := by
  have hof : OfCounts (Tallied T n 0 : Engine γ → Prop) := Tallied.ofCounts
  cases o with
  | recompute => exact keeps_of_leaves fun e he => leaves_restart_tallied he.network_eq
  | add t =>
      refine keeps_bind ?_ fun _ => keeps_pure _
      refine keeps_get_bind fun e he => keeps_bind (keeps_attempt _) fun _ => ?_
      refine keeps_bind (keeps_set (hof e _ rfl rfl rfl he)) fun _ => ?_
      exact keeps_ite (keeps_bind (hof.queue _) fun _ => keeps_pure _) (keeps_pure _)
  | delete t =>
      refine keeps_bind ?_ fun _ => keeps_pure _
      refine keeps_get_bind fun e he => keeps_bind (keeps_attempt _) fun _ => ?_
      refine keeps_bind (keeps_set (hof e _ rfl rfl rfl he)) fun _ => keeps_ite ?_ ?_
      · exact keeps_ite (keeps_bind (hof.suspect t) fun _ => keeps_pure _)
          (keeps_bind (hof.queue _) fun _ => keeps_pure _)
      · exact keeps_bind (hof.retractDeduction t) fun _ => keeps_ite
          (keeps_bind (keeps_modify fun e he => Tallied.ofTallies e _ rfl rfl rfl rfl rfl rfl he)
            fun _ => keeps_pure _) (keeps_pure _)
  | announce event => exact hof.queue event
  | close =>
      exact keeps_modify fun e he => hof e.reset _ rfl rfl rfl (tallied_reset he.network_eq)

end Work

/-! ## Histories -/

namespace Engine

variable {γ : Type} [Graph γ] {T : Tally} {n : Network} {sane : γ → Prop}
  {allowed : Operation → Prop} {e : Engine γ}

/-- Whatever has been done, every tally is kept, unless the engine has closed. -/
theorem Operated.tallied (he : Operated n sane allowed e) : e.Tallied T n 0 ∨ e.Silent :=
  he.keeps (fun base => Work.tallied_reset (e := Engine.start n base) rfl)
    (fun _ he => Work.tallied_reset he.network_eq)
    (fun e _ _ _ _ _ _ _ he => Tallied.ofTallies e _ rfl rfl rfl rfl rfl rfl he)
    Work.keeps_request_tallied Work.keeps_step_tallied

/-- What has been noted covers what the live firings count for and what has come back.  It
covers no more, if committed firings count for nothing. -/
theorem Operated.noted_eq (he : Operated n sane allowed e) (T : Tally) :
    ∃ lost, T.noted e.hidden e.stats.firings =
      T.returned e.stats.retractions + e.total T.weight + lost ∧ (T.Spares n → lost = 0) := by
  rcases he.tallied (T := T) with htallied | hsilent
  · exact htallied.balance
  · have hnone : ¬ 0 < e.total T.weight := by
      rw [total_pos_iff]
      rintro ⟨a, firing, ha, _⟩
      rw [hsilent.firing?_eq] at ha
      cases ha
    refine ⟨0, ?_, fun _ => rfl⟩
    rw [hsilent.hidden_eq, hsilent.firings_eq, hsilent.retractions_eq, Nat.eq_zero_of_not_pos hnone]
    exact T.noted_none

end Engine

end Entailment
