import Entailment.Proofs.Matching.Denotation

/-!
# What an environment determines

An environment determines the value of a variable if all the ground assignments that it
allows agree on it, and these are just the variables whose aliases end in a held node.
Two variables without a value have to be equal if and only if their aliases end in the
same slot.  There is always an assignment that is allowed, and where an end is unbound it
can be chosen freely.
-/

namespace Entailment

/-- The assignment gives every variable a ground node. -/
def Assignment.Ground (σ : Assignment) : Prop := ∀ i, (σ i).isGround = true

theorem Assignment.ground_const {n : Node} (hn : n.isGround = true) :
    Assignment.Ground fun _ => n := fun _ => hn

namespace Bindings

variable {b : Bindings}

/-! ## Assignments that an environment allows -/

theorem Chained.ground_settle (hb : b.Chained) {τ : Assignment} (hτ : τ.Ground) :
    (b.settle τ).Ground := by
  intro i
  by_cases hi : i < b.length
  · obtain ⟨links, last, hleads⟩ := hb.ends i hi
    rw [settle_of_leads τ hleads]
    cases last with
    | ground n =>
        obtain ⟨j, hj⟩ := hleads.slot?_of_ground
        exact (hb.simple j n hj).ground
    | unbound j => exact hτ j
  · have hnone : b.deref i = none := deref_of_length_le (Nat.le_of_not_lt hi)
    simp [settle, hnone, hτ i]

theorem Chained.exists_allows (hb : b.Chained) : ∃ σ : Assignment, σ.Ground ∧ b.Allows σ :=
  ⟨b.settle fun _ => .uri "", hb.ground_settle (Assignment.ground_const rfl), hb.allows_settle _⟩

/-- A variable that all the allowed assignments give one value ends in that value. -/
theorem Chained.end_of_forced (hb : b.Chained) {links i : Nat} {last : SlotEnd} {n : Node}
    (hleads : b.Leads links i last)
    (h : ∀ σ : Assignment, σ.Ground → b.Allows σ → (σ i == n) = true) :
    ∃ m, last = .ground m ∧ (m == n) = true := by
  have hforced : ∀ τ : Assignment, τ.Ground → (endValue τ last == n) = true := by
    intro τ hτ
    rw [← settle_of_leads τ hleads]
    exact h _ (hb.ground_settle hτ) (hb.allows_settle τ)
  cases last with
  | ground m => exact ⟨m, rfl, hforced _ (Assignment.ground_const (n := .uri "") rfl)⟩
  | unbound j =>
      have ha : (Node.uri "a" == n) = true := hforced _ (Assignment.ground_const rfl)
      have hb : (Node.uri "b" == n) = true := hforced _ (Assignment.ground_const rfl)
      have hapart : (Node.uri "a" == Node.uri "b") = true := BEq.trans ha (BEq.symm hb)
      exact absurd hapart (by decide)

/-- A variable has a value if and only if all the allowed assignments give it that value. -/
theorem Chained.resolve_iff_forced (hb : b.Chained) {v : Var} (hv : v.index < b.length)
    (n : Node) :
    (∃ m, b.resolve (.var v) = some m ∧ (m == n) = true) ↔
      ∀ σ : Assignment, σ.Ground → b.Allows σ → (σ v.index == n) = true := by
  constructor
  · rintro ⟨m, hm, hsame⟩ σ _ hσ
    exact BEq.trans (hb.resolve_of_allows hσ hm) hsame
  · intro h
    obtain ⟨links, last, hleads⟩ := hb.ends v.index hv
    obtain ⟨m, rfl, hsame⟩ := hb.end_of_forced hleads h
    exact ⟨m, hleads.resolve_ground hb, hsame⟩

/-- Two unbound variables end in one slot if and only if all the allowed assignments make
them equal. -/
theorem Chained.same_end_iff_forced (hb : b.Chained) {i j k l : Nat}
    (hi : b.deref i = some (.unbound k)) (hj : b.deref j = some (.unbound l)) :
    k = l ↔ ∀ σ : Assignment, σ.Ground → b.Allows σ → (σ i == σ j) = true := by
  obtain ⟨links, hleads⟩ := deref_eq_some_iff.1 hi
  obtain ⟨links', hleads'⟩ := deref_eq_some_iff.1 hj
  constructor
  · rintro rfl σ _ hσ
    exact BEq.trans (hσ.leads hleads) (BEq.symm (hσ.leads hleads'))
  · intro h
    by_contra hne
    -- The two ends are apart, so that an assignment may tell them from one another.
    have hτ : Assignment.Ground fun i => if i = k then .uri "a" else .uri "b" := by
      intro i
      by_cases hik : i = k <;> simp [hik, Node.isGround]
    have hapart := h _ (hb.ground_settle hτ) (hb.allows_settle _)
    rw [settle_of_leads _ hleads, settle_of_leads _ hleads'] at hapart
    simp only [endValue, if_pos, if_neg (Ne.symm hne)] at hapart
    exact absurd hapart (by decide)

/-! ## Alias links -/

/-- The slot is an alias of the other one. -/
def Links (b : Bindings) (i j : Nat) : Prop := b.slot? i = some (.aliasOf j)

theorem Chained.lt_length_of_links (hb : b.Chained) {i j : Nat} (h : b.Links i j) :
    j < b.length := by
  obtain ⟨links, last, hleads⟩ := hb.ends i (lt_length_of_slot? h)
  cases hleads with
  | unbound hi | ground hi => rw [h] at hi; cases hi
  | link hi hj =>
      rw [h] at hi
      cases hi
      exact hj.lt_length

theorem Leads.of_transGen {links i j : Nat} {last : SlotEnd}
    (h : Relation.TransGen b.Links i j) (hj : b.Leads links j last) :
    ∃ more, links < more ∧ b.Leads more i last := by
  induction h using Relation.TransGen.head_induction_on with
  | single hlink => exact ⟨links + 1, Nat.lt_succ_self links, .link hlink hj⟩
  | head hlink _ ih =>
      obtain ⟨more, hmore, hleads⟩ := ih
      exact ⟨more + 1, Nat.lt_succ_of_lt hmore, .link hlink hleads⟩

/-- No slot is an alias of itself, whether directly or through others. -/
theorem Chained.acyclic (hb : b.Chained) (i : Nat) : ¬ Relation.TransGen b.Links i i := by
  intro hcycle
  have hi : i < b.length := by
    obtain ⟨_, hlink, _⟩ := Relation.TransGen.head'_iff.1 hcycle
    exact lt_length_of_slot? hlink
  obtain ⟨links, last, hleads⟩ := hb.ends i hi
  obtain ⟨more, hmore, hleads'⟩ := Leads.of_transGen hcycle hleads
  have hsame : more = links := (hleads'.unique hleads).1
  omega

/-- The links that are followed to the end of a chain are fewer than the slots. -/
theorem Chained.exists_deref (hb : b.Chained) {i : Nat} (hi : i < b.length) :
    ∃ links last, links < b.length ∧ b.Leads links i last ∧ b.deref i = some last := by
  obtain ⟨links, last, hleads⟩ := hb.ends i hi
  exact ⟨links, last, hleads.links_lt_length, hleads, hleads.deref_eq⟩

end Bindings

end Entailment
