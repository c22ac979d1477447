import Entailment.Backward.Solver
import Entailment.Proofs.Matching.Unification

/-!
# Goals and heads

A goal and the head of a rule have variables of their own, and unifying them solves that
some fact is an instance of both.  The environment of the head that comes out allows
the assignments of the head that go with one of the goal.  A goal covers a fact that it
unifies with.
-/

namespace Entailment

namespace Node

variable {σ τ : Assignment} {m n : Node}

theorem under_congr (h : ∀ i ∈ n.indexes, (σ i == τ i) = true) :
    (n.under σ == n.under τ) = true := by
  cases n with
  | var v => exact h v.index (List.mem_singleton.2 rfl)
  | _ => exact BEq.rfl

theorem Meets.congr (h : m.Meets σ n)
    (hleft : ∀ i ∈ m.indexes, (σ i == τ i) = true)
    (hright : ∀ i ∈ n.indexes, (σ i == τ i) = true) : m.Meets τ n := by
  rw [meets_iff] at h ⊢
  refine h.imp_right (Or.imp_right fun hsame => ?_)
  exact BEq.trans (BEq.symm (under_congr hleft)) (BEq.trans hsame (under_congr hright))

theorem meets_of_fits {k : Node} (hm : m.Shallow) (hn : n.Shallow)
    (h : m.Fits σ k) (h' : n.Fits σ k) : m.Meets σ n := by
  rw [meets_iff]
  cases hany : m.isAny with
  | true => exact Or.inl rfl
  | false =>
      cases hany' : n.isAny with
      | true => exact Or.inr (Or.inl rfl)
      | false =>
          rw [fits_iff_under hm hany] at h
          rw [fits_iff_under hn hany'] at h'
          exact Or.inr (Or.inr (BEq.trans h (BEq.symm h')))

/-- What a head that is no wildcard stands for is what a goal that it meets stands for. -/
theorem Meets.fits {k : Node} (hm : m.Shallow) (hn : n.Shallow)
    (hany : m.isAny = false) (h : m.Meets σ n) (hfits : m.Fits σ k) : n.Fits σ k := by
  rw [fits_iff_under hm hany] at hfits
  cases hany' : n.isAny with
  | true =>
      cases n with
      | any => trivial
      | _ => cases hany'
  | false =>
      rw [meets_iff, hany, hany'] at h
      rw [fits_iff_under hn hany']
      have hsame := (h.resolve_left Bool.false_ne_true).resolve_left Bool.false_ne_true
      exact BEq.trans (BEq.symm hsame) hfits

/-! ## Shifted variables -/

theorem shift_of_ground (offset : Nat) (h : n.isGround = true) : n.shift offset = n :=
  subst_of_ground h _

theorem shallow_shift (offset : Nat) (hn : n.Shallow) : (n.shift offset).Shallow := by
  rcases hn.cases with rfl | ⟨v, rfl⟩ | ⟨hground, _⟩
  · trivial
  · trivial
  · rwa [shift_of_ground offset hground]

theorem fits_shift_iff (offset : Nat) (hn : n.Shallow) :
    (n.shift offset).Fits σ m ↔ n.Fits (fun i => σ (i + offset)) m := by
  rcases hn.cases with rfl | ⟨v, rfl⟩ | ⟨hground, _⟩
  · exact Iff.rfl
  · exact Iff.rfl
  · rw [shift_of_ground offset hground, fits_iff_beq hground, fits_iff_beq hground]

theorem mem_indexes_shift (offset : Nat) (hn : n.Shallow) {i : Nat} :
    i ∈ (n.shift offset).indexes ↔ ∃ j ∈ n.indexes, i = j + offset := by
  rcases hn.cases with rfl | ⟨v, rfl⟩ | ⟨hground, _⟩
  · exact ⟨(fun h => nomatch h), fun ⟨_, h, _⟩ => nomatch h⟩
  · change i ∈ [v.index + offset] ↔ ∃ j ∈ [v.index], i = j + offset
    simp
  · rw [shift_of_ground offset hground, indexes_of_ground hground]
    exact ⟨(fun h => nomatch h), fun ⟨_, h, _⟩ => nomatch h⟩

theorem lt_varBound {i : Nat} (h : i ∈ n.indexes) : i < n.varBound := by
  have hmax : ∀ (ns : List Nat) (start : Nat), start ≤ ns.foldl max start ∧
      ∀ k ∈ ns, k ≤ ns.foldl max start := by
    intro ns
    induction ns with
    | nil => exact fun start => ⟨Nat.le_refl _, fun _ hk => nomatch hk⟩
    | cons k ns ih =>
        intro start
        obtain ⟨hstart, hall⟩ := ih (max start k)
        refine ⟨Nat.le_trans (Nat.le_max_left _ _) hstart, fun j hj => ?_⟩
        rcases List.mem_cons.1 hj with rfl | hj
        · exact Nat.le_trans (Nat.le_max_right _ _) hstart
        · exact hall j hj
  obtain ⟨v, hv, rfl⟩ := List.mem_map.1 h
  exact (hmax (n.vars.map fun v => v.index + 1) 0).2 _ (List.mem_map.2 ⟨v, hv, rfl⟩)

end Node

namespace Triple

variable {σ τ : Assignment} {p q t : Triple}

theorem meets_of_fits (hp : p.Shallow) (hq : q.Shallow) (h : p.Fits σ t) (h' : q.Fits σ t) :
    p.Meets σ q := by
  obtain ⟨hs, hpred, ho⟩ := shallow_iff.1 hp
  obtain ⟨hs', hpred', ho'⟩ := shallow_iff.1 hq
  exact ⟨Node.meets_of_fits hs hs' h.subject h'.subject,
    Node.meets_of_fits hpred hpred' h.predicate h'.predicate,
    Node.meets_of_fits ho ho' h.object h'.object⟩

theorem Meets.fits (hp : p.Shallow) (hq : q.Shallow) (hany : ∀ n ∈ p.nodes, n.isAny = false)
    (h : p.Meets σ q) (hfits : p.Fits σ t) : q.Fits σ t := by
  obtain ⟨hs, hpred, ho⟩ := shallow_iff.1 hp
  obtain ⟨hs', hpred', ho'⟩ := shallow_iff.1 hq
  exact ⟨h.subject.fits hs hs' (hany _ (by simp [nodes])) hfits.subject,
    h.predicate.fits hpred hpred' (hany _ (by simp [nodes])) hfits.predicate,
    h.object.fits ho ho' (hany _ (by simp [nodes])) hfits.object⟩

theorem Meets.congr (h : p.Meets σ q)
    (hleft : ∀ i ∈ p.indexes, (σ i == τ i) = true)
    (hright : ∀ i ∈ q.indexes, (σ i == τ i) = true) : p.Meets τ q := by
  rw [indexes_eq] at hleft hright
  exact ⟨h.subject.congr (fun i hi => hleft i (by simp [hi]))
      (fun i hi => hright i (by simp [hi])),
    h.predicate.congr (fun i hi => hleft i (by simp [hi]))
      (fun i hi => hright i (by simp [hi])),
    h.object.congr (fun i hi => hleft i (by simp [hi]))
      (fun i hi => hright i (by simp [hi]))⟩

/-- The triple with its variables moved up. -/
abbrev shifted (offset : Nat) (t : Triple) : Triple := t.map (Node.shift offset)

theorem shallow_shifted (offset : Nat) (hp : p.Shallow) : (p.shifted offset).Shallow := by
  obtain ⟨hs, hpred, ho⟩ := shallow_iff.1 hp
  exact shallow_iff.2 ⟨Node.shallow_shift offset hs, Node.shallow_shift offset hpred,
    Node.shallow_shift offset ho⟩

theorem fits_shifted_iff (offset : Nat) (hp : p.Shallow) :
    (p.shifted offset).Fits σ t ↔ p.Fits (fun i => σ (i + offset)) t := by
  obtain ⟨hs, hpred, ho⟩ := shallow_iff.1 hp
  have hsubject := Node.fits_shift_iff (σ := σ) (m := t.subject) offset hs
  have hpredicate := Node.fits_shift_iff (σ := σ) (m := t.predicate) offset hpred
  have hobject := Node.fits_shift_iff (σ := σ) (m := t.object) offset ho
  exact ⟨fun h => ⟨hsubject.1 h.subject, hpredicate.1 h.predicate, hobject.1 h.object⟩,
    fun h => ⟨hsubject.2 h.subject, hpredicate.2 h.predicate, hobject.2 h.object⟩⟩

theorem mem_indexes_shifted (offset : Nat) (hp : p.Shallow) {i : Nat} :
    i ∈ (p.shifted offset).indexes ↔ ∃ j ∈ p.indexes, i = j + offset := by
  obtain ⟨hs, hpred, ho⟩ := shallow_iff.1 hp
  rw [indexes_eq, indexes_eq]
  simp only [List.mem_append, or_and_right, exists_or]
  exact or_congr (or_congr (Node.mem_indexes_shift offset hs) (Node.mem_indexes_shift offset hpred))
    (Node.mem_indexes_shift offset ho)

theorem lt_varBound {i : Nat} (h : i ∈ p.indexes) : i < p.varBound := by
  rw [indexes_eq, List.mem_append, List.mem_append] at h
  unfold varBound
  rcases h with (h | h) | h
  · exact Nat.lt_of_lt_of_le (Node.lt_varBound h) (Nat.le_max_left _ _)
  · exact Nat.lt_of_lt_of_le (Node.lt_varBound h)
      (Nat.le_trans (Nat.le_max_left _ _) (Nat.le_max_right _ _))
  · exact Nat.lt_of_lt_of_le (Node.lt_varBound h)
      (Nat.le_trans (Nat.le_max_right _ _) (Nat.le_max_right _ _))

/-- What a head stands for is an instance of a goal that it meets, and a common instance
makes them meet. -/
theorem exists_meets_iff {goal head : Triple} {headSize : Nat} (hgoal : goal.Shallow)
    (hhead : head.Shallow) (hany : ∀ n ∈ head.nodes, n.isAny = false)
    (hslots : ∀ i ∈ head.indexes, i < headSize) (hfits : head.Fits σ t) :
    (∃ c : Assignment, head.Meets c (goal.shifted headSize) ∧
      ∀ i < headSize, (σ i == c i) = true) ↔ ∃ τ, goal.Fits τ t := by
  constructor
  · rintro ⟨c, hmeets, hsame⟩
    have hhead' : head.Fits c t := hfits.congr (fun i hi => hsame i (hslots i hi)) BEq.rfl
    exact ⟨_, (fits_shifted_iff headSize hgoal).1
      (hmeets.fits hhead (shallow_shifted headSize hgoal) hany hhead')⟩
  · rintro ⟨τ, hτ⟩
    have hlow : ∀ i < headSize,
        (σ i == if i < headSize then σ i else τ (i - headSize)) = true := by
      intro i hi
      rw [if_pos hi]
      exact BEq.rfl
    refine ⟨fun i => if i < headSize then σ i else τ (i - headSize), ?_, hlow⟩
    refine meets_of_fits hhead (shallow_shifted headSize hgoal)
      (hfits.congr (fun i hi => hlow i (hslots i hi)) BEq.rfl) ?_
    rw [fits_shifted_iff headSize hgoal]
    refine hτ.congr (fun i _ => ?_) BEq.rfl
    rw [if_neg (Nat.not_lt_of_le (Nat.le_add_left headSize i)), Nat.add_sub_cancel]
    exact BEq.rfl

end Triple

namespace Unifier

variable {goal head : Triple} {headSize : Nat}

/-- What unification with a goal comes to. -/
theorem ofGoal_cases (hgoal : goal.Shallow) (hhead : head.Shallow)
    (hslots : ∀ i ∈ head.indexes, i < headSize) :
    (ofGoal goal head headSize = none ∧ ∀ c, ¬ head.Meets c (goal.shifted headSize)) ∨
      ∃ b : Bindings, ofGoal goal head headSize = some ⟨b, headSize⟩ ∧ b.Chained ∧
        b.length = headSize + goal.varBound ∧
        ∀ c, b.Allows c ↔ head.Meets c (goal.shifted headSize) := by
  have hsettles := Bindings.settles_unifyTriple
    (Bindings.chained_empty (headSize + goal.varBound)) hhead (Triple.shallow_shifted headSize hgoal)
  unfold ofGoal
  simp only
  split
  · rename_i b hresult
    rw [hresult] at hsettles
    refine Or.inr ⟨b, rfl, hsettles.chained, ?_, fun c => ?_⟩
    · exact hsettles.length_eq.trans (Bindings.length_empty _)
    · rw [hsettles.allows_iff rfl c, and_iff_right (Bindings.allows_empty _ c)]
  · rename_i b hresult
    rw [hresult] at hsettles
    refine Or.inl ⟨rfl, fun c => hsettles.refutes rfl ?_ c (Bindings.allows_empty _ c)⟩
    intro i hi
    rw [Bindings.length_empty]
    rcases List.mem_append.1 hi with hi | hi
    · exact Nat.lt_of_lt_of_le (hslots i hi) (Nat.le_add_right _ _)
    · obtain ⟨j, hj, rfl⟩ := (Triple.mem_indexes_shifted headSize hgoal).1 hi
      have := Triple.lt_varBound hj
      omega

/-! ## The head's part of the environment -/

section HeadBindings

variable {u : Unifier} {i : Nat}

theorem slot?_headBindings (u : Unifier) (i : Nat) :
    u.headBindings.slot? i = if i < u.headSize then some (u.headSlot i) else none := by
  unfold headBindings Bindings.slot?
  rw [List.getElem?_map]
  split
  · rename_i hi
    rw [List.getElem?_range hi]
    rfl
  · rename_i hi
    rw [List.getElem?_eq_none (by simpa using hi)]
    rfl

theorem length_headBindings (u : Unifier) : u.headBindings.length = u.headSize := by
  simp [headBindings, Bindings.length]

/-- The first slot whose aliases end at the given one. -/
structure IsFirst (u : Unifier) (last i : Nat) : Prop where
  ends : u.bindings.deref i = some (.unbound last)
  first : ∀ k < i, u.bindings.deref k ≠ some (.unbound last)

/-- What a slot's aliases are tested for. -/
theorem endsAt_iff (u : Unifier) (last k : Nat) : (match u.bindings.deref k with
    | some (.unbound slot) => slot == last
    | _ => false) = true ↔ u.bindings.deref k = some (.unbound last) := by
  split
  · rename_i slot hslot
    rw [hslot, Option.some.injEq, SlotEnd.unbound.injEq, beq_iff_eq]
  · rename_i hother
    exact ⟨fun h => absurd h Bool.false_ne_true, fun h => absurd h (hother last)⟩

theorem representative?_eq_some_iff {last j : Nat} :
    u.representative? last i = some j ↔ j < i ∧ u.IsFirst last j := by
  unfold representative?
  rw [List.find?_range_eq_some]
  simp only [List.mem_range, Bool.not_eq_true', ← Bool.not_eq_true]
  constructor
  · rintro ⟨hend, hlt, hfirst⟩
    exact ⟨hlt, (u.endsAt_iff last j).1 hend,
      fun k hk hend' => hfirst k hk ((u.endsAt_iff last k).2 hend')⟩
  · rintro ⟨hlt, hend, hfirst⟩
    exact ⟨(u.endsAt_iff last j).2 hend, hlt,
      fun k hk hend' => hfirst k hk ((u.endsAt_iff last k).1 hend')⟩

theorem isFirst_of_representative?_none {last : Nat}
    (hend : u.bindings.deref i = some (.unbound last)) (h : u.representative? last i = none) :
    u.IsFirst last i := by
  refine ⟨hend, fun k hk hend' => ?_⟩
  unfold representative? at h
  rw [List.find?_range_eq_none] at h
  have hnot := h k hk
  rw [hend'] at hnot
  simp at hnot

theorem IsFirst.representative?_eq_none {last : Nat} (h : u.IsFirst last i) :
    u.representative? last i = none := by
  cases hrep : u.representative? last i with
  | none => rfl
  | some j =>
      obtain ⟨hlt, hfirst⟩ := representative?_eq_some_iff.1 hrep
      exact absurd hfirst.ends (h.first j hlt)

theorem leads_headBindings_ground (hb : u.bindings.Chained) (hi : i < u.headSize) {links : Nat}
    {n : Node} (h : u.bindings.Leads links i (.ground n)) :
    u.headBindings.Leads 0 i (.ground n) := by
  have hvalue : u.bindings.value i = some n := h.resolve_ground (v := ⟨"", i⟩) hb
  refine .ground ?_
  rw [slot?_headBindings, if_pos hi, headSlot, h.deref_eq]
  simp only
  rw [hvalue]

theorem IsFirst.slot?_headBindings {last : Nat} (h : u.IsFirst last i) (hi : i < u.headSize) :
    u.headBindings.slot? i = some .unbound := by
  rw [Unifier.slot?_headBindings, if_pos hi, headSlot, h.ends]
  simp only
  rw [h.representative?_eq_none]

/-- An unbound slot of the head leads to the first one that ends where it does. -/
theorem leads_headBindings_unbound (hi : i < u.headSize) {last : Nat}
    (h : u.bindings.deref i = some (.unbound last)) :
    ∃ j ≤ i, u.IsFirst last j ∧ ∃ links, u.headBindings.Leads links i (.unbound j) := by
  cases hrep : u.representative? last i with
  | none =>
      have hfirst := isFirst_of_representative?_none h hrep
      exact ⟨i, Nat.le_refl i, hfirst, 0, .unbound (hfirst.slot?_headBindings hi)⟩
  | some j =>
      obtain ⟨hlt, hfirst⟩ := representative?_eq_some_iff.1 hrep
      refine ⟨j, Nat.le_of_lt hlt, hfirst, 1, .link ?_ (.unbound (hfirst.slot?_headBindings
        (Nat.lt_trans hlt hi)))⟩
      rw [slot?_headBindings, if_pos hi, headSlot, h]
      simp only
      rw [hrep]

theorem chained_headBindings (hb : u.bindings.Chained)
    (hlength : u.headSize ≤ u.bindings.length) : u.headBindings.Chained where
  simple i n hi := by
    rw [slot?_headBindings] at hi
    split at hi
    · rename_i hlt
      obtain ⟨links, last, hleads⟩ := hb.ends i (Nat.lt_of_lt_of_le hlt hlength)
      cases last with
      | ground m =>
          obtain ⟨j, hj⟩ := hleads.slot?_of_ground
          have hslot := leads_headBindings_ground hb hlt hleads
          cases hslot with
          | ground hm =>
              rw [slot?_headBindings, if_pos hlt, hi] at hm
              cases hm
              exact hb.simple j _ hj
      | unbound last =>
          obtain ⟨j, _, _, links', hleads'⟩ := leads_headBindings_unbound hlt hleads.deref_eq
          have hground : u.headBindings.Leads 0 i (.ground n) := by
            refine .ground ?_
            rw [slot?_headBindings, if_pos hlt, hi]
          cases (hleads'.unique hground).2
    · cases hi
  ends i hi := by
    rw [length_headBindings] at hi
    obtain ⟨links, last, hleads⟩ := hb.ends i (Nat.lt_of_lt_of_le hi hlength)
    cases last with
    | ground n => exact ⟨0, _, leads_headBindings_ground hb hi hleads⟩
    | unbound last =>
        obtain ⟨j, _, _, links', hleads'⟩ := leads_headBindings_unbound hi hleads.deref_eq
        exact ⟨links', _, hleads'⟩

/-- The assignment of all slots that one of the head leads to: an end that slots of the
head share gets the value of the first of them. -/
def extend (u : Unifier) (σ : Assignment) : Assignment :=
  u.bindings.settle fun last => σ ((u.representative? last u.headSize).getD last)

theorem extend_eq (hb : u.bindings.Chained) (hlength : u.headSize ≤ u.bindings.length)
    {σ : Assignment} (h : u.headBindings.Allows σ) (hi : i < u.headSize) :
    (σ i == u.extend σ i) = true := by
  obtain ⟨links, last, hleads⟩ := hb.ends i (Nat.lt_of_lt_of_le hi hlength)
  rw [extend, Bindings.settle_of_leads _ hleads]
  cases last with
  | ground n => exact h.leads (leads_headBindings_ground hb hi hleads)
  | unbound last =>
      obtain ⟨j, hj, hfirst, links', hleads'⟩ := leads_headBindings_unbound hi hleads.deref_eq
      have hrep := representative?_eq_some_iff.2 ⟨Nat.lt_of_le_of_lt hj hi, hfirst⟩
      change (σ i == σ ((u.representative? last u.headSize).getD last)) = true
      rw [hrep]
      exact h.leads hleads'

/-- The head's environment allows the head's part of what the whole one allows. -/
theorem allows_headBindings_iff (hb : u.bindings.Chained)
    (hlength : u.headSize ≤ u.bindings.length) (σ : Assignment) :
    u.headBindings.Allows σ ↔
      ∃ c, u.bindings.Allows c ∧ ∀ i < u.headSize, (σ i == c i) = true := by
  constructor
  · intro h
    exact ⟨u.extend σ, hb.allows_settle _, fun i hi => extend_eq hb hlength h hi⟩
  · rintro ⟨c, hc, hsame⟩
    refine (chained_headBindings hb hlength).allows_of_leads fun links i last hi => ?_
    have hlt : i < u.headSize := by
      rw [← length_headBindings]
      exact hi.lt_length
    obtain ⟨links', last', hleads⟩ := hb.ends i (Nat.lt_of_lt_of_le hlt hlength)
    cases last' with
    | ground n =>
        cases (hi.unique (leads_headBindings_ground hb hlt hleads)).2
        exact BEq.trans (hsame i hlt) (hc.leads hleads)
    | unbound last' =>
        obtain ⟨j, hj, hfirst, links'', hleads'⟩ := leads_headBindings_unbound hlt hleads.deref_eq
        cases (hi.unique hleads').2
        have hjlt := Nat.lt_of_le_of_lt hj hlt
        obtain ⟨k, last'', hleadsj⟩ := hb.ends j (Nat.lt_of_lt_of_le hjlt hlength)
        have hlast : last'' = .unbound last' :=
          Option.some.inj (hleadsj.deref_eq.symm.trans hfirst.ends)
        subst hlast
        exact BEq.trans (BEq.trans (hsame i hlt) (hc.leads hleads))
          (BEq.symm (BEq.trans (hsame j hjlt) (hc.leads hleadsj)))

end HeadBindings

end Unifier

namespace Bindings

variable {goal head : Triple} {headSize : Nat}

/-- What unification of a head with a goal comes to, for the head. -/
theorem unifyHead_cases (hgoal : goal.Shallow) (hhead : head.Shallow)
    (hslots : ∀ i ∈ head.indexes, i < headSize) :
    (unifyHead goal head headSize = none ∧ ∀ c, ¬ head.Meets c (goal.shifted headSize)) ∨
      ∃ b : Bindings, unifyHead goal head headSize = some b ∧ b.Chained ∧ b.length = headSize ∧
        ∀ σ, b.Allows σ ↔ ∃ c : Assignment, head.Meets c (goal.shifted headSize) ∧
          ∀ i < headSize, (σ i == c i) = true := by
  unfold unifyHead
  rcases Unifier.ofGoal_cases hgoal hhead hslots with ⟨hnone, hnot⟩ | ⟨b, hsome, hb, hlength, hallows⟩
  · exact Or.inl ⟨by rw [hnone]; rfl, hnot⟩
  · have hle : headSize ≤ b.length := by
      rw [hlength]
      exact Nat.le_add_right _ _
    refine Or.inr ⟨_, by rw [hsome]; rfl, Unifier.chained_headBindings (u := ⟨b, headSize⟩) hb hle,
      Unifier.length_headBindings _, fun σ => ?_⟩
    rw [Unifier.allows_headBindings_iff (u := ⟨b, headSize⟩) hb hle]
    simp only [hallows]

end Bindings

namespace Triple

theorem isAny_of_ground {t : Triple} (ht : t.isGround = true) : ∀ n ∈ t.nodes, n.isAny = false :=
  fun n hn => Node.isAny_of_ground (isGround_iff_nodes.1 ht n hn)

theorem fits_self {t : Triple} (ht : t.isGround = true) (σ : Assignment) : t.Fits σ t := by
  obtain ⟨hs, hp, ho⟩ := isGround_iff.1 ht
  exact ⟨(Node.fits_iff_beq hs).2 BEq.rfl, (Node.fits_iff_beq hp).2 BEq.rfl,
    (Node.fits_iff_beq ho).2 BEq.rfl⟩

/-- A goal covers its instances. -/
theorem covers_iff {goal t : Triple} (hgoal : goal.Shallow) (ht : t.Shallow)
    (hground : t.isGround = true) : goal.covers t = true ↔ ∃ σ, goal.Fits σ t := by
  have hslots : ∀ i ∈ t.indexes, i < 0 := by
    rw [indexes_of_ground hground]
    exact fun _ h => nomatch h
  have hshifted := shallow_shifted 0 hgoal
  have hmeets : ∀ c, t.Meets c (goal.shifted 0) ↔ goal.Fits c t := fun c =>
    ⟨fun h => (fits_shifted_iff 0 hgoal).1 (h.fits ht hshifted (isAny_of_ground hground)
      (fits_self hground c)),
    fun h => meets_of_fits ht hshifted (fits_self hground c) ((fits_shifted_iff 0 hgoal).2 h)⟩
  unfold covers
  rcases Unifier.ofGoal_cases hgoal ht hslots with ⟨hnone, hnot⟩ | ⟨b, hsome, hb, _, hallows⟩
  · rw [hnone]
    exact ⟨(fun h => nomatch h), fun ⟨σ, hσ⟩ => absurd ((hmeets σ).2 hσ) (hnot σ)⟩
  · rw [hsome]
    refine ⟨fun _ => ?_, fun _ => rfl⟩
    exact ⟨_, (hmeets _).1 ((hallows _).1 (hb.allows_settle fun _ => .any))⟩

end Triple

end Entailment
