import Entailment.Proofs.Matching.Resolution
import Mathlib.Data.List.Nodup
import Mathlib.Data.List.Perm.Subperm

/-!
# Environments with aliases

Where a goal is unified with the head of a rule, slots become aliases of one another.
A chain of aliases ends in a slot that is unbound or holds a node, and since no slot
comes twice on it, following one link for each slot is enough.  An environment allows
the assignments that agree with what slots hold and give aliases equal nodes.  What a
slot holds is ground and not nested, so that it is the value of the slot.
-/

namespace Entailment

/-- A node that a slot can hold and that is the value of the slot then. -/
structure Node.Simple (n : Node) : Prop where
  ground : n.isGround = true
  flat : n.isNested = false

theorem Node.Simple.congr {m n : Node} (h : m.Simple) (hsame : (m == n) = true) : n.Simple :=
  ⟨isGround_congr hsame ▸ h.ground, isNested_congr hsame ▸ h.flat⟩

namespace Bindings

/-- The aliases of a slot lead over so many links to an end. -/
inductive Leads (b : Bindings) : Nat → Nat → SlotEnd → Prop where
  | unbound {i : Nat} : b.slot? i = some .unbound → Leads b 0 i (.unbound i)
  | ground {i : Nat} {n : Node} : b.slot? i = some (.ground n) → Leads b 0 i (.ground n)
  | link {links i j : Nat} {last : SlotEnd} :
      b.slot? i = some (.aliasOf j) → Leads b links j last → Leads b (links + 1) i last

namespace Leads

variable {b : Bindings} {links links' i : Nat} {last last' : SlotEnd}

theorem unique (h : b.Leads links i last) (k : b.Leads links' i last') :
    links = links' ∧ last = last' := by
  induction h generalizing links' last' with
  | unbound hi =>
      cases k with
      | unbound hi' => exact ⟨rfl, rfl⟩
      | ground hi' => rw [hi] at hi'; cases hi'
      | link hi' _ => rw [hi] at hi'; cases hi'
  | ground hi =>
      cases k with
      | unbound hi' => rw [hi] at hi'; cases hi'
      | ground hi' =>
          rw [hi] at hi'
          cases hi'
          exact ⟨rfl, rfl⟩
      | link hi' _ => rw [hi] at hi'; cases hi'
  | link hi _ ih =>
      cases k with
      | unbound hi' => rw [hi] at hi'; cases hi'
      | ground hi' => rw [hi] at hi'; cases hi'
      | link hi' hk =>
          rw [hi] at hi'
          cases hi'
          obtain ⟨rfl, rfl⟩ := ih hk
          exact ⟨rfl, rfl⟩

theorem lt_length (h : b.Leads links i last) : i < b.length := by
  cases h with
  | unbound hi | ground hi | link hi _ => exact lt_length_of_slot? hi

theorem slot?_of_unbound {j : Nat} (h : b.Leads links i (.unbound j)) :
    b.slot? j = some .unbound := by
  generalize hlast : SlotEnd.unbound j = last at h
  induction h with
  | unbound hi =>
      cases hlast
      exact hi
  | ground => cases hlast
  | link _ _ ih => exact ih hlast

theorem slot?_of_ground {n : Node} (h : b.Leads links i (.ground n)) :
    ∃ j, b.slot? j = some (.ground n) := by
  generalize hlast : SlotEnd.ground n = last at h
  induction h with
  | unbound => cases hlast
  | ground hi =>
      cases hlast
      exact ⟨_, hi⟩
  | link _ _ ih => exact ih hlast

/-- The slots of a chain are different, as each has its own distance from the end. -/
theorem exists_nodup (h : b.Leads links i last) :
    ∃ chain : List Nat, chain.length = links + 1 ∧ chain.Nodup ∧
      ∀ j ∈ chain, ∃ rest ≤ links, b.Leads rest j last := by
  induction h with
  | unbound hi => exact ⟨[_], rfl, List.nodup_singleton _, by simpa using .unbound hi⟩
  | ground hi => exact ⟨[_], rfl, List.nodup_singleton _, by simpa using .ground hi⟩
  | @link links i j last hi hj ih =>
      obtain ⟨chain, hlength, hnodup, hchain⟩ := ih
      refine ⟨i :: chain, by rw [List.length_cons, hlength], List.nodup_cons.2 ⟨?_, hnodup⟩, ?_⟩
      · intro hmem
        obtain ⟨rest, hrest, hleads⟩ := hchain i hmem
        have hsame := ((Leads.link hi hj).unique hleads).1
        omega
      · intro k hk
        rcases List.mem_cons.1 hk with rfl | hk
        · exact ⟨_, Nat.le_refl _, .link hi hj⟩
        · obtain ⟨rest, hrest, hleads⟩ := hchain k hk
          exact ⟨rest, Nat.le_succ_of_le hrest, hleads⟩

theorem links_lt_length (h : b.Leads links i last) : links < b.length := by
  obtain ⟨chain, hlength, hnodup, hchain⟩ := h.exists_nodup
  have hsubset : chain ⊆ List.range b.length := by
    intro j hj
    obtain ⟨rest, _, hleads⟩ := hchain j hj
    exact List.mem_range.2 hleads.lt_length
  have hle := (List.subperm_of_subset hnodup hsubset).length_le
  rw [hlength, List.length_range] at hle
  exact hle

theorem derefWithin_eq (h : b.Leads links i last) {fuel : Nat} (hfuel : links < fuel) :
    b.derefWithin fuel i = some last := by
  induction h generalizing fuel with
  | unbound hi =>
      obtain ⟨fuel, rfl⟩ := Nat.exists_eq_succ_of_ne_zero (Nat.ne_zero_of_lt hfuel)
      rw [derefWithin, hi]
  | ground hi =>
      obtain ⟨fuel, rfl⟩ := Nat.exists_eq_succ_of_ne_zero (Nat.ne_zero_of_lt hfuel)
      rw [derefWithin, hi]
  | link hi _ ih =>
      obtain ⟨fuel, rfl⟩ := Nat.exists_eq_succ_of_ne_zero (Nat.ne_zero_of_lt hfuel)
      rw [derefWithin, hi]
      exact ih (Nat.lt_of_succ_lt_succ hfuel)

theorem deref_eq (h : b.Leads links i last) : b.deref i = some last :=
  h.derefWithin_eq (Nat.lt_succ_of_lt h.links_lt_length)

end Leads

theorem deref_of_length_le {b : Bindings} {i : Nat} (hi : b.length ≤ i) : b.deref i = none := by
  have hnone : b.slot? i = none := List.getElem?_eq_none hi
  rw [deref, derefWithin, hnone]

/-- Every chain of aliases ends, and slots hold simple nodes. -/
structure Chained (b : Bindings) : Prop where
  simple : ∀ i n, b.slot? i = some (.ground n) → n.Simple
  ends : ∀ i, i < b.length → ∃ links last, b.Leads links i last

theorem chained_empty (size : Nat) : (empty size).Chained := by
  have hslot : ∀ i, i < size → (empty size).slot? i = some .unbound := by
    intro i hi
    rw [slot?, empty, List.getElem?_replicate, if_pos hi]
  refine ⟨fun i n hi => ?_, fun i hi => ?_⟩
  · have hlt := lt_length_of_slot? hi
    rw [length_empty] at hlt
    rw [hslot i hlt] at hi
    cases hi
  · rw [length_empty] at hi
    exact ⟨0, _, .unbound (hslot i hi)⟩

/-! ## Allowed assignments -/

/-- The assignment agrees with what the slot holds, or with the slot it is an alias of. -/
def Agrees (σ : Assignment) (i : Nat) : Slot → Prop
  | .unbound => True
  | .ground n => (σ i == n) = true
  | .aliasOf j => (σ i == σ j) = true

def Allows (b : Bindings) (σ : Assignment) : Prop :=
  ∀ i s, b.slot? i = some s → Agrees σ i s

/-- The node that an assignment gives for the end of a chain. -/
def endValue (σ : Assignment) : SlotEnd → Node
  | .ground n => n
  | .unbound j => σ j

theorem allows_empty (size : Nat) (σ : Assignment) : (empty size).Allows σ := by
  intro i s hi
  rw [slot?, empty, List.getElem?_replicate] at hi
  split at hi
  · cases hi
    exact trivial
  · cases hi

theorem Allows.leads {b : Bindings} {σ : Assignment} (h : b.Allows σ) {links i : Nat}
    {last : SlotEnd} (hi : b.Leads links i last) : (σ i == endValue σ last) = true := by
  induction hi with
  | unbound => exact BEq.rfl
  | ground hi => exact h _ _ hi
  | link hi _ ih => exact BEq.trans (h _ _ hi) ih

/-- An assignment that gives every slot the value at its end is allowed. -/
theorem Chained.allows_of_leads {b : Bindings} (hb : b.Chained) {σ : Assignment}
    (h : ∀ links i last, b.Leads links i last → (σ i == endValue σ last) = true) :
    b.Allows σ := by
  intro i s hi
  cases s with
  | unbound => exact trivial
  | ground n => exact h 0 i _ (.ground hi)
  | aliasOf j =>
      obtain ⟨links, last, hleads⟩ := hb.ends i (lt_length_of_slot? hi)
      cases hleads with
      | unbound hi' | ground hi' => rw [hi] at hi'; cases hi'
      | link hi' hj =>
          rw [hi] at hi'
          cases hi'
          exact BEq.trans (h _ i _ (.link hi hj)) (BEq.symm (h _ _ _ hj))

/-- The assignment that gives every slot the value at its end, and where that is unbound
the value that is asked for it. -/
def settle (b : Bindings) (τ : Assignment) : Assignment := fun i =>
  match b.deref i with
  | some last => endValue τ last
  | none => τ i

theorem settle_of_leads {b : Bindings} (τ : Assignment) {links i : Nat} {last : SlotEnd}
    (h : b.Leads links i last) : b.settle τ i = endValue τ last := by
  rw [settle, h.deref_eq]

theorem Chained.allows_settle {b : Bindings} (hb : b.Chained) (τ : Assignment) :
    b.Allows (b.settle τ) := by
  refine hb.allows_of_leads fun links i last hi => ?_
  rw [settle_of_leads τ hi]
  cases last with
  | ground n => exact BEq.rfl
  | unbound j =>
      rw [endValue, endValue, settle_of_leads τ (.unbound hi.slot?_of_unbound)]
      exact BEq.rfl

/-- What all allowed assignments give a variable is the value of its slot. -/
theorem Chained.leads_of_forced {b : Bindings} (hb : b.Chained) {i : Nat} (hi : i < b.length)
    {n : Node} (h : ∀ σ, b.Allows σ → (σ i == n) = true) :
    ∃ links m, b.Leads links i (.ground m) ∧ (m == n) = true := by
  obtain ⟨links, last, hleads⟩ := hb.ends i hi
  have hforced : ∀ τ : Assignment, (endValue τ last == n) = true := by
    intro τ
    rw [← settle_of_leads τ hleads]
    exact h _ (hb.allows_settle τ)
  cases last with
  | ground m => exact ⟨links, m, hleads, hforced fun _ => .any⟩
  | unbound j =>
      have hapart := BEq.trans (hforced fun _ => .uri "a") (BEq.symm (hforced fun _ => .uri "b"))
      change (Node.uri "a" == Node.uri "b") = true at hapart
      exact absurd hapart (by decide)

/-! ## Binding an end -/

section Setting

variable {b : Bindings} {target : Nat}

theorem slot?_set_of_lt (ht : target < b.length) (s : Slot) (i : Nat) :
    (b.set target s).slot? i = if target = i then some s else b.slot? i := by
  rw [slot?_set]
  by_cases hi : target = i
  · rw [if_pos hi, if_pos hi, if_pos ht]
  · rw [if_neg hi, if_neg hi]

theorem leads_set_of_ne (ht : b.slot? target = some .unbound) (s : Slot) {links i : Nat}
    {last : SlotEnd} (h : b.Leads links i last)
    (hlast : ∀ j, last = .unbound j → j ≠ target) : (b.set target s).Leads links i last := by
  have hlt := lt_length_of_slot? ht
  induction h with
  | @unbound i hi =>
      refine .unbound ?_
      rw [slot?_set_of_lt hlt, if_neg (Ne.symm (hlast i rfl))]
      exact hi
  | @ground i n hi =>
      refine .ground ?_
      rw [slot?_set_of_lt hlt, if_neg]
      · exact hi
      · rintro rfl
        rw [ht] at hi
        cases hi
  | @link links i j last hi _ ih =>
      refine .link ?_ (ih hlast)
      rw [slot?_set_of_lt hlt, if_neg]
      · exact hi
      · rintro rfl
        rw [ht] at hi
        cases hi

/-- Chains that ended in a slot go on to where the slot leads now. -/
theorem leads_set (ht : b.slot? target = some .unbound) {s : Slot} {links links' i : Nat}
    {last : SlotEnd} (hs : (b.set target s).Leads links' target last)
    (h : b.Leads links i (.unbound target)) : (b.set target s).Leads (links + links') i last := by
  have hlt := lt_length_of_slot? ht
  generalize hend : SlotEnd.unbound target = before at h
  induction h with
  | unbound =>
      cases hend
      rwa [Nat.zero_add]
  | ground => cases hend
  | @link links i j _ hi _ ih =>
      rw [Nat.add_right_comm]
      refine .link ?_ (ih hend)
      rw [slot?_set_of_lt hlt, if_neg]
      · exact hi
      · rintro rfl
        rw [ht] at hi
        cases hi

/-- An unbound slot may take a simple node or become an alias of another unbound slot. -/
theorem Chained.set (hb : b.Chained) (ht : b.slot? target = some .unbound) {s : Slot}
    {links : Nat} {last : SlotEnd} (hs : (b.set target s).Leads links target last)
    (hsimple : ∀ n, s = .ground n → n.Simple) :
    (b.set target s).Chained where
  simple i n hi := by
    rw [slot?_set_of_lt (lt_length_of_slot? ht)] at hi
    split at hi
    · exact hsimple n (Option.some.inj hi)
    · exact hb.simple i n hi
  ends i hi := by
    rw [length_set] at hi
    obtain ⟨links', last', hleads⟩ := hb.ends i hi
    by_cases hlast : last' = .unbound target
    · exact ⟨_, _, leads_set ht hs (hlast ▸ hleads)⟩
    · refine ⟨links', last', leads_set_of_ne ht s hleads ?_⟩
      rintro j rfl rfl
      exact hlast rfl

theorem allows_set_iff (ht : b.slot? target = some .unbound) (s : Slot) (σ : Assignment) :
    (b.set target s).Allows σ ↔ b.Allows σ ∧ Agrees σ target s := by
  have hlt := lt_length_of_slot? ht
  constructor
  · refine fun h => ⟨fun i s' hi => ?_, h target s (by rw [slot?_set_of_lt hlt, if_pos rfl])⟩
    by_cases hi' : target = i
    · subst hi'
      rw [ht] at hi
      cases hi
      exact trivial
    · exact h i s' (by rw [slot?_set_of_lt hlt, if_neg hi']; exact hi)
  · rintro ⟨h, htarget⟩ i s' hi
    rw [slot?_set_of_lt hlt] at hi
    split at hi
    · rename_i hi'
      cases hi
      exact hi' ▸ htarget
    · exact h i s' hi

end Setting

/-! ## Values -/

section Values

variable {b : Bindings}

theorem resolve_var (b : Bindings) (v : Var) : b.resolve (.var v) =
    match b.deref v.index with
    | some (.ground n) => b.resolveTerm n
    | _ => none := rfl

theorem Leads.resolve_ground {links : Nat} {v : Var} {n : Node} (hb : b.Chained)
    (h : b.Leads links v.index (.ground n)) : b.resolve (.var v) = some n := by
  obtain ⟨j, hj⟩ := h.slot?_of_ground
  obtain ⟨hground, hnested⟩ := hb.simple j n hj
  rw [resolve_var, h.deref_eq]
  exact (resolveTerm_of_ground hground).trans (if_neg (Bool.eq_false_iff.1 hnested))

theorem Leads.resolve_unbound {links : Nat} {v : Var} {j : Nat}
    (h : b.Leads links v.index (.unbound j)) : b.resolve (.var v) = none := by
  rw [resolve_var, h.deref_eq]

theorem resolve_of_length_le {v : Var} (h : b.length ≤ v.index) :
    b.resolve (.var v) = none := by
  rw [resolve_var, deref_of_length_le h]

/-- A variable that has a value has the one that all allowed assignments give it. -/
theorem Chained.resolve_eq_some_iff (hb : b.Chained) {v : Var} {n : Node} :
    b.resolve (.var v) = some n ↔ ∃ links, b.Leads links v.index (.ground n) := by
  constructor
  · intro h
    by_cases hv : v.index < b.length
    · obtain ⟨links, last, hleads⟩ := hb.ends v.index hv
      cases last with
      | ground m =>
          rw [hleads.resolve_ground hb] at h
          cases h
          exact ⟨links, hleads⟩
      | unbound j =>
          rw [hleads.resolve_unbound] at h
          cases h
    · rw [resolve_of_length_le (Nat.le_of_not_lt hv)] at h
      cases h
  · rintro ⟨links, hleads⟩
    exact hleads.resolve_ground hb

theorem Chained.resolve_of_allows (hb : b.Chained) {v : Var} {n : Node} {σ : Assignment}
    (hσ : b.Allows σ) (h : b.resolve (.var v) = some n) : (σ v.index == n) = true := by
  obtain ⟨links, hleads⟩ := hb.resolve_eq_some_iff.1 h
  exact hσ.leads hleads

end Values

end Bindings

end Entailment
