import Entailment.Binding.Unifier
import Entailment.Proofs.Matching.Alias
import Entailment.Proofs.Matching.Shape
import Mathlib.Algebra.GroupWithZero.Nat
import Mathlib.Algebra.Order.BigOperators.Group.List
import Mathlib.Algebra.Order.Group.Nat

/-!
# Unification without open functors

Unifying two nodes in which no functor has variables solves that an assignment makes
them equal: the environment that comes out allows just the assignments that it allowed
before and that do so, and if none comes out there is no such assignment.  For goals and
heads this gives the most general answer, and for facts it is matching.
-/

namespace Entailment

namespace Node

/-- The node is a wildcard, a variable or simple. -/
def Shallow : Node → Prop
  | .functor f args => (Node.functor f args).Simple
  | _ => True

theorem shallow_of_flat {n : Node} (h : n.isFunctor = false) : n.Shallow := by
  cases n with
  | functor f args => cases h
  | _ => trivial

theorem Simple.shallow {n : Node} (h : n.Simple) : n.Shallow := by
  cases n with
  | functor f args => exact h
  | _ => trivial

theorem Shallow.cases {n : Node} (h : n.Shallow) :
    n = .any ∨ (∃ v, n = .var v) ∨ n.Simple := by
  cases n with
  | any => exact Or.inl rfl
  | var v => exact Or.inr (Or.inl ⟨v, rfl⟩)
  | functor f args => exact Or.inr (Or.inr h)
  | _ => exact Or.inr (Or.inr ⟨rfl, rfl⟩)

theorem Shallow.simple {n : Node} (h : n.Shallow) (hground : n.isGround = true) : n.Simple := by
  rcases h.cases with rfl | ⟨v, rfl⟩ | hsimple
  · cases hground
  · cases hground
  · exact hsimple

mutual
theorem subst_of_ground {n : Node} (h : n.isGround = true) (image : Var → Node) :
    n.subst image = n := by
  match n with
  | .var v => cases h
  | .functor f args => exact congrArg (Node.functor f) (substAll_of_ground h image)
  | .any => rfl
  | .uri u => rfl
  | .literal l => rfl
  | .blank k => rfl

theorem substAll_of_ground {ns : List Node} (h : allGround ns = true) (image : Var → Node) :
    substAll image ns = ns := by
  match ns with
  | [] => rfl
  | n :: rest =>
      rw [allGround, Bool.and_eq_true] at h
      rw [substAll, subst_of_ground h.1 image, substAll_of_ground h.2 image]
end

/-- What an assignment gives for a node in which no functor has variables. -/
def under (σ : Assignment) : Node → Node
  | .var v => σ v.index
  | n => n

theorem under_of_ground {n : Node} (h : n.isGround = true) (σ : Assignment) : n.under σ = n := by
  cases n with
  | var v => cases h
  | _ => rfl

/-- The assignment makes the nodes equal, a wildcard being equal to anything. -/
def Meets (σ : Assignment) : Node → Node → Prop
  | .any, _ => True
  | _, .any => True
  | m, n => (m.under σ == n.under σ) = true

theorem meets_any_right (σ : Assignment) (m : Node) : m.Meets σ .any := by
  cases m <;> exact trivial

theorem meets_iff {σ : Assignment} {m n : Node} : m.Meets σ n ↔
    m.isAny = true ∨ n.isAny = true ∨ (m.under σ == n.under σ) = true := by
  cases m with
  | any => exact ⟨fun _ => Or.inl rfl, fun _ => trivial⟩
  | _ =>
      cases n with
      | any => exact ⟨fun _ => Or.inr (Or.inl rfl), fun _ => trivial⟩
      | _ => exact ⟨fun h => Or.inr (Or.inr h),
          fun h => (h.resolve_left Bool.false_ne_true).resolve_left Bool.false_ne_true⟩

theorem fits_iff_under {σ : Assignment} {m n : Node} (hn : n.Shallow) (hany : n.isAny = false) :
    n.Fits σ m ↔ (n.under σ == m) = true := by
  rcases hn.cases with rfl | ⟨v, rfl⟩ | ⟨hground, _⟩
  · cases hany
  · exact Iff.rfl
  · rw [fits_iff_beq hground, under_of_ground hground]

theorem eq_any_of_isAny {n : Node} (h : n.isAny = true) : n = .any := by
  cases n with
  | any => rfl
  | _ => cases h

theorem isAny_of_ground {n : Node} (h : n.isGround = true) : n.isAny = false := by
  cases n with
  | any => cases h
  | _ => rfl

theorem meets_iff_fits {σ : Assignment} {p n : Node} (hp : p.Shallow)
    (hn : n.isGround = true) : p.Meets σ n ↔ p.Fits σ n := by
  rw [meets_iff, isAny_of_ground hn, under_of_ground hn]
  cases hany : p.isAny with
  | true =>
      cases p with
      | any => exact ⟨fun _ => trivial, fun _ => Or.inl rfl⟩
      | _ => cases hany
  | false =>
      rw [fits_iff_under hp hany]
      simp

theorem meets_var_iff (σ : Assignment) (v : Var) {n : Node} (hn : n.isGround = true) :
    (Node.var v).Meets σ n ↔ (σ v.index == n) = true :=
  meets_iff_fits trivial hn

end Node

namespace Triple

/-- A functor in it has neither variables nor functors in it. -/
def Shallow (t : Triple) : Prop := ∀ n ∈ t.nodes, n.Shallow

theorem shallow_iff {t : Triple} :
    t.Shallow ↔ t.subject.Shallow ∧ t.predicate.Shallow ∧ t.object.Shallow := by
  simp [Shallow, nodes]

structure Meets (σ : Assignment) (p q : Triple) : Prop where
  subject : p.subject.Meets σ q.subject
  predicate : p.predicate.Meets σ q.predicate
  object : p.object.Meets σ q.object

theorem indexes_of_ground {t : Triple} (h : t.isGround = true) : t.indexes = [] := by
  obtain ⟨hs, hp, ho⟩ := isGround_iff.1 h
  rw [indexes_eq, Node.indexes_of_ground hs, Node.indexes_of_ground hp, Node.indexes_of_ground ho]
  rfl

theorem meets_iff_fits {σ : Assignment} {p t : Triple} (hp : p.Shallow) (ht : t.isGround = true) :
    p.Meets σ t ↔ p.Fits σ t := by
  obtain ⟨hs, hp, ho⟩ := shallow_iff.1 hp
  obtain ⟨hs', hp', ho'⟩ := isGround_iff.1 ht
  have hsubject := Node.meets_iff_fits (σ := σ) hs hs'
  have hpredicate := Node.meets_iff_fits (σ := σ) hp hp'
  have hobject := Node.meets_iff_fits (σ := σ) ho ho'
  exact ⟨fun h => ⟨hsubject.1 h.subject, hpredicate.1 h.predicate, hobject.1 h.object⟩,
    fun h => ⟨hsubject.2 h.subject, hpredicate.2 h.predicate, hobject.2 h.object⟩⟩

end Triple

namespace Bindings

/-! ## Comparisons that settle a constraint -/

/-- What a comparison has to achieve that adds the constraint `C` on the variables
`vars` to the environment `b`, which may have aliases. -/
structure Settles (b : Bindings) (C : Assignment → Prop) (vars : List Nat)
    (result : Bool × Bindings) : Prop where
  chained : result.2.Chained
  length_eq : result.2.length = b.length
  allows_iff : result.1 = true → ∀ σ, result.2.Allows σ ↔ b.Allows σ ∧ C σ
  refutes : result.1 = false → (∀ i ∈ vars, i < b.length) → ∀ σ, b.Allows σ → ¬ C σ

namespace Settles

variable {b b' : Bindings} {C D : Assignment → Prop} {vars vars' : List Nat}

/-- A test that binds nothing. -/
theorem of_test (hb : b.Chained) {r : Bool} (hC : ∀ σ, b.Allows σ → (C σ ↔ r = true)) :
    b.Settles C vars (r, b) where
  chained := hb
  length_eq := rfl
  allows_iff hr σ := ⟨fun h => ⟨h, (hC σ h).2 hr⟩, And.left⟩
  refutes hr _ σ h hc := by
    change r = false at hr
    rw [(hC σ h).1 hc] at hr
    cases hr

/-- A failure where a variable has no slot. -/
theorem of_missing (hb : b.Chained) {i : Nat} (hi : i ∈ vars) (hmissing : b.length ≤ i) :
    b.Settles C vars (false, b) where
  chained := hb
  length_eq := rfl
  allows_iff h := by cases h
  refutes _ hvars := absurd (hvars i hi) (Nat.not_lt_of_le hmissing)

theorem congr {result : Bool × Bindings} (h : b.Settles C vars result)
    (hC : ∀ σ, b.Allows σ → (C σ ↔ D σ)) (hvars : vars ⊆ vars') :
    b.Settles D vars' result where
  chained := h.chained
  length_eq := h.length_eq
  allows_iff hr σ := (h.allows_iff hr σ).trans (and_congr_right fun ha => hC σ ha)
  refutes hr hi σ ha hd := h.refutes hr (fun i hmem => hi i (hvars hmem)) σ ha ((hC σ ha).2 hd)

/-- A comparison followed by another one settles both constraints. -/
theorem trans {result : Bool × Bindings} (h : b.Settles C vars (true, b'))
    (k : b'.Settles D vars' result) :
    b.Settles (fun σ => C σ ∧ D σ) (vars ++ vars') result where
  chained := k.chained
  length_eq := k.length_eq.trans h.length_eq
  allows_iff hr σ := by
    rw [k.allows_iff hr σ, h.allows_iff rfl σ, and_assoc]
  refutes hr hi σ ha := by
    rintro ⟨hc, hd⟩
    refine k.refutes hr ?_ σ ((h.allows_iff rfl σ).2 ⟨ha, hc⟩) hd
    intro i hmem
    rw [h.length_eq]
    exact hi i (List.mem_append_right _ hmem)

/-- A comparison that fails refutes every stronger constraint. -/
theorem of_first_failure (h : b.Settles C vars (false, b')) (vars' : List Nat) :
    b.Settles (fun σ => C σ ∧ D σ) (vars ++ vars') (false, b') where
  chained := h.chained
  length_eq := h.length_eq
  allows_iff hr := by cases hr
  refutes hr hi σ ha hcd :=
    h.refutes hr (fun i hmem => hi i (List.mem_append_left _ hmem)) σ ha hcd.1

end Settles

/-- Comparing a pair and then the rest settles the constraints of all. -/
theorem settles_compareAll_cons {compare : Comparison} {b : Bindings} {m n : Node}
    {rest : List (Node × Node)} {C D : Assignment → Prop} {vars vars' : List Nat}
    (hhead : b.Settles C vars (compare b m n))
    (htail : ∀ b' : Bindings, b'.Chained → b'.Settles D vars' (compareAll compare b' rest)) :
    b.Settles (fun σ => C σ ∧ D σ) (vars ++ vars') (compareAll compare b ((m, n) :: rest)) := by
  unfold compareAll
  cases hresult : compare b m n with
  | mk answer b' =>
      rw [hresult] at hhead
      cases answer with
      | true => exact hhead.trans (htail b' hhead.chained)
      | false => exact hhead.of_first_failure vars'

/-! ## Shallow nodes -/

section Slots

variable {b : Bindings} {compare : Comparison}

theorem settles_bindSlotBy_simple (hb : b.Chained) (i : Nat) {n : Node} (hn : n.Simple)
    (hcompare : ∀ m, m.isGround = true → compare b m n = (m == n, b)) :
    b.Settles (fun σ => (σ i == n) = true) [i] (bindSlotBy compare b i n) := by
  unfold bindSlotBy
  by_cases hi : i < b.length
  · obtain ⟨links, last, hleads⟩ := hb.ends i hi
    rw [hleads.deref_eq]
    cases last with
    | ground m =>
        obtain ⟨j, hj⟩ := hleads.slot?_of_ground
        simp only
        rw [hcompare m (hb.simple j m hj).1]
        refine .of_test hb fun σ hσ => ?_
        rw [BEq.congr_left (hσ.leads hleads)]
        rfl
    | unbound target =>
        have ht := hleads.slot?_of_unbound
        have hlt := lt_length_of_slot? ht
        have hbound : b.Settles (fun σ => (σ i == n) = true) [i] (true, b.set target (.ground n)) := by
          refine ⟨hb.set ht (.ground (by rw [slot?_set_of_lt hlt, if_pos rfl])) ?_,
            b.length_set target _, fun _ σ => ?_, fun h => nomatch h⟩
          · intro m hm
            cases hm
            exact hn
          · rw [allows_set_iff ht]
            refine and_congr_right fun hσ => ?_
            rw [BEq.congr_left (hσ.leads hleads)]
            rfl
        cases n with
        | var v => cases hn.ground
        | any => cases hn.ground
        | _ => exact hbound
  · rw [deref_of_length_le (Nat.le_of_not_lt hi)]
    exact .of_missing hb (List.mem_singleton.2 rfl) (Nat.le_of_not_lt hi)

theorem settles_bindSlotBy_var (hb : b.Chained) (i : Nat) (v : Var)
    (hcompare : ∀ j m, b.slot? j = some (.ground m) →
      b.Settles (fun σ => (σ v.index == m) = true) [v.index] (compare b m (.var v))) :
    b.Settles (fun σ => (σ i == σ v.index) = true) [i, v.index]
      (bindSlotBy compare b i (.var v)) := by
  unfold bindSlotBy
  by_cases hi : i < b.length
  · obtain ⟨links, last, hleads⟩ := hb.ends i hi
    rw [hleads.deref_eq]
    cases last with
    | ground m =>
        obtain ⟨j, hj⟩ := hleads.slot?_of_ground
        refine (hcompare j m hj).congr (fun σ hσ => ?_)
          (by simp)
        have hvalue : (σ i == m) = true := hσ.leads hleads
        rw [BEq.congr_left hvalue, BEq.comm]
    | unbound target =>
        have ht := hleads.slot?_of_unbound
        have hlt := lt_length_of_slot? ht
        simp only
        by_cases hv : v.index < b.length
        · obtain ⟨links', last', hleads'⟩ := hb.ends v.index hv
          rw [hleads'.deref_eq]
          cases last' with
          | ground n =>
              obtain ⟨j, hj⟩ := hleads'.slot?_of_ground
              refine ⟨hb.set ht (.ground (by rw [slot?_set_of_lt hlt, if_pos rfl])) ?_,
                b.length_set target _, fun _ σ => ?_, fun h => nomatch h⟩
              · intro m hm
                cases hm
                exact hb.simple j n hj
              · rw [allows_set_iff ht]
                refine and_congr_right fun hσ => ?_
                have hvalue : (σ v.index == n) = true := hσ.leads hleads'
                rw [BEq.congr_left (hσ.leads hleads), BEq.congr_right hvalue]
                rfl
          | unbound other =>
              have ho := hleads'.slot?_of_unbound
              simp only
              split
              · rename_i hsame
                subst hsame
                refine .of_test hb fun σ hσ => ?_
                rw [BEq.congr_left (hσ.leads hleads)]
                simpa using BEq.symm (hσ.leads hleads')
              · rename_i hapart
                have hother : (b.set target (.aliasOf other)).slot? other = some .unbound := by
                  rw [slot?_set_of_lt hlt, if_neg fun h => hapart h.symm]
                  exact ho
                refine ⟨hb.set ht (.link (by rw [slot?_set_of_lt hlt, if_pos rfl])
                  (.unbound hother)) (fun m hm => nomatch hm), b.length_set target _,
                  fun _ σ => ?_, fun h => nomatch h⟩
                rw [allows_set_iff ht]
                refine and_congr_right fun hσ => ?_
                rw [BEq.congr_left (hσ.leads hleads), BEq.congr_right (hσ.leads hleads')]
                rfl
        · rw [deref_of_length_le (Nat.le_of_not_lt hv)]
          exact .of_missing hb (by simp) (Nat.le_of_not_lt hv)
  · rw [deref_of_length_le (Nat.le_of_not_lt hi)]
    exact .of_missing hb (List.mem_cons_self ..) (Nat.le_of_not_lt hi)

end Slots

section Depth

variable {b : Bindings} {depth : Nat}

theorem unifyWithin_var_left (depth : Nat) (b : Bindings) (v : Var) {n : Node}
    (hn : n.isAny = false) :
    unifyWithin (depth + 1) b (.var v) n = bindSlotBy (unifyWithin depth) b v.index n := by
  cases n with
  | any => cases hn
  | _ => rfl

theorem unifyWithin_var_right (depth : Nat) (b : Bindings) (v : Var) {n : Node}
    (hn : n.isGround = true) :
    unifyWithin (depth + 1) b n (.var v) = bindSlotBy (unifyWithin depth) b v.index n := by
  cases n with
  | var w => cases hn
  | any => cases hn
  | _ => rfl

/-- Binding a variable to a ground node settles that it is the value of the variable. -/
theorem settles_bindSlotBy_unifyWithin (hb : b.Chained) (i : Nat) {n : Node}
    (hn : n.Simple) (hdepth : n.size ≤ depth) :
    b.Settles (fun σ => (σ i == n) = true) [i] (bindSlotBy (unifyWithin depth) b i n) :=
  settles_bindSlotBy_simple hb i hn fun m hm => unifyWithin_ground depth b m n hm hn.ground hdepth

theorem size_le_of_slot? {i : Nat} {m : Node} (h : b.slot? i = some (.ground m)) :
    m.size ≤ (b.slots.map Slot.size).sum :=
  List.single_le_sum (fun _ _ => Nat.zero_le _) _
    (List.mem_map.2 ⟨.ground m, List.mem_of_getElem? h, rfl⟩)

/-- Unifying shallow nodes settles that they are equal. -/
theorem settles_unifyWithin (hb : b.Chained) {m n : Node} (hm : m.Shallow) (hn : n.Shallow)
    (hdepth : (b.slots.map Slot.size).sum + m.size + n.size ≤ depth) :
    b.Settles (fun σ => m.Meets σ n) (m.indexes ++ n.indexes)
      (unifyWithin (depth + 2) b m n) := by
  have htrue : ∀ {vars : List Nat} {C : Assignment → Prop}, (∀ σ, C σ) →
      b.Settles C vars (true, b) := fun hC => .of_test hb fun σ _ => ⟨fun _ => rfl, fun _ => hC σ⟩
  rcases hm.cases with rfl | ⟨v, rfl⟩ | hsimple
  · have heq : unifyWithin (depth + 2) b .any n = (true, b) := by cases n <;> rfl
    rw [heq]
    exact htrue fun σ => trivial
  · rcases hn.cases with rfl | ⟨w, rfl⟩ | hsimple'
    · exact htrue fun σ => Node.meets_any_right σ _
    · rw [unifyWithin_var_left (depth + 1) b v rfl]
      refine settles_bindSlotBy_var hb v.index w fun j k hj => ?_
      have hk := hb.simple j k hj
      rw [unifyWithin_var_right depth b w hk.1]
      refine settles_bindSlotBy_unifyWithin hb w.index hk (Nat.le_trans ?_ hdepth)
      rw [Nat.add_assoc]
      exact Nat.le_add_right_of_le (size_le_of_slot? hj)
    · rw [unifyWithin_var_left (depth + 1) b v (Node.isAny_of_ground hsimple'.ground)]
      refine (settles_bindSlotBy_unifyWithin hb v.index hsimple' ?_).congr
        (fun σ _ => (Node.meets_var_iff σ v hsimple'.ground).symm) (by simp [Node.indexes, Node.vars])
      omega
  · rcases hn.cases with rfl | ⟨w, rfl⟩ | hsimple'
    · have heq : unifyWithin (depth + 2) b m .any = (true, b) := by cases m <;> rfl
      rw [heq]
      exact htrue fun σ => Node.meets_any_right σ m
    · rw [unifyWithin_var_right (depth + 1) b w hsimple.ground]
      refine (settles_bindSlotBy_unifyWithin hb w.index hsimple ?_).congr
        (fun σ _ => ?_) (by simp [Node.indexes, Node.vars])
      · omega
      · rw [Node.meets_iff, Node.isAny_of_ground hsimple.ground, Node.under_of_ground hsimple.ground, BEq.comm]
        simp [Node.under, Node.isAny]
    · rw [unifyWithin_ground (depth + 2) b m n hsimple.ground hsimple'.ground (by omega)]
      refine .of_test hb fun σ _ => ?_
      rw [Node.meets_iff_fits hm hsimple'.ground, Node.fits_iff_beq hsimple.ground]

theorem le_depthBound (b : Bindings) (m n : Node) :
    (b.slots.map Slot.size).sum + m.size + n.size + 2 ≤ b.depthBound m n := by
  have hm := m.size_pos
  have hn := n.size_pos
  unfold depthBound
  rw [← List.sum_eq_foldr]
  simp only
  generalize hsum : (b.slots.map Slot.size).sum + m.size + n.size = subterms
  have hsquare : 2 * subterms ≤ subterms * subterms :=
    Nat.mul_le_mul_right subterms (by omega)
  have hslots : subterms * subterms ≤ subterms * subterms * (b.length + 1) :=
    Nat.le_mul_of_pos_right _ (Nat.succ_pos _)
  omega

theorem settles_unify (hb : b.Chained) {m n : Node} (hm : m.Shallow) (hn : n.Shallow) :
    b.Settles (fun σ => m.Meets σ n) (m.indexes ++ n.indexes) (b.unify m n) := by
  obtain ⟨more, hdepth⟩ := Nat.exists_eq_add_of_le (b.le_depthBound m n)
  rw [unify, hdepth, Nat.add_right_comm]
  exact settles_unifyWithin hb hm hn (Nat.le_add_right _ _)

end Depth

/-- Unifying shallow triples settles that they are equal. -/
theorem settles_unifyTriple {b : Bindings} (hb : b.Chained) {p t : Triple} (hp : p.Shallow)
    (ht : t.Shallow) :
    b.Settles (fun σ => p.Meets σ t) (p.indexes ++ t.indexes) (b.unifyTriple p t) := by
  obtain ⟨hps, hpp, hpo⟩ := Triple.shallow_iff.1 hp
  obtain ⟨hts, htp, hto⟩ := Triple.shallow_iff.1 ht
  have hnil : ∀ b' : Bindings, b'.Chained →
      b'.Settles (fun _ => True) [] (compareAll unify b' []) := fun b' hb' =>
    .of_test hb' fun _ _ => ⟨fun _ => rfl, fun _ => trivial⟩
  have hall := settles_compareAll_cons (settles_unify hb hps hts) fun b₁ hb₁ =>
    settles_compareAll_cons (settles_unify hb₁ hpp htp) fun b₂ hb₂ =>
      settles_compareAll_cons (settles_unify hb₂ hpo hto) hnil
  refine hall.congr (fun σ _ => ?_) ?_
  · exact ⟨fun h => ⟨h.1, h.2.1, h.2.2.1⟩, fun h => ⟨h.subject, h.predicate, h.object, trivial⟩⟩
  · rw [Triple.indexes_eq, Triple.indexes_eq]
    intro i
    simp only [List.mem_append, List.not_mem_nil, or_false]
    tauto

/-! ## Matching facts -/

/-- The environment `b'` allows what `b` allows and the constraint demands. -/
structure Narrows (b : Bindings) (C : Assignment → Prop) (b' : Bindings) : Prop where
  chained : b'.Chained
  length_eq : b'.length = b.length
  allows_iff : ∀ σ, b'.Allows σ ↔ b.Allows σ ∧ C σ

section Facts

variable {b b' : Bindings} {p t : Triple}

theorem Chained.narrows_of_matching? (hb : b.Chained) (hp : p.Shallow) (ht : t.Shallow)
    (hground : t.isGround = true) (h : b.matching? p t = some b') :
    b.Narrows (fun σ => p.Fits σ t) b' := by
  have hsettles := settles_unifyTriple hb hp ht
  unfold matching? at h
  split at h
  · rename_i result hresult
    cases h
    rw [hresult] at hsettles
    refine ⟨hsettles.chained, hsettles.length_eq, fun σ => ?_⟩
    rw [hsettles.allows_iff rfl σ, Triple.meets_iff_fits hp hground]
  · cases h

theorem Chained.exists_matching? (hb : b.Chained) (hp : p.Shallow) (ht : t.Shallow)
    (hground : t.isGround = true) (hvars : ∀ i ∈ p.indexes, i < b.length) {σ : Assignment}
    (hσ : b.Allows σ) (hfits : p.Fits σ t) : ∃ b', b.matching? p t = some b' := by
  have hsettles := settles_unifyTriple hb hp ht
  unfold matching?
  split
  · exact ⟨_, rfl⟩
  · rename_i result hresult
    rw [hresult] at hsettles
    refine absurd ((Triple.meets_iff_fits hp hground).2 hfits) (hsettles.refutes rfl ?_ σ hσ)
    intro i hi
    rw [List.mem_append, Triple.indexes_of_ground hground] at hi
    exact hvars i (hi.resolve_right List.not_mem_nil)

/-! ## Partial instances -/

theorem Chained.fits_partialNode_iff (hb : b.Chained) {σ : Assignment} (hσ : b.Allows σ)
    {n m : Node} (hn : n.Shallow) : (b.partialNode n).Fits σ m ↔ n.Fits σ m := by
  rcases hn.cases with rfl | ⟨v, rfl⟩ | ⟨hground, _⟩
  · exact Iff.rfl
  · change (b.valueOrSelf v).Fits σ m ↔ _
    unfold valueOrSelf
    cases hvalue : b.resolve (.var v) with
    | none => exact Iff.rfl
    | some k =>
        obtain ⟨links, hleads⟩ := hb.resolve_eq_some_iff.1 hvalue
        obtain ⟨j, hj⟩ := hleads.slot?_of_ground
        rw [Option.getD_some, Node.fits_iff_beq (hb.simple j k hj).1]
        exact (BEq.congr_left (hb.resolve_of_allows hσ hvalue)).symm ▸ Iff.rfl
  · rw [partialNode, Node.subst_of_ground hground]

theorem Chained.shallow_partialNode (hb : b.Chained) {n : Node} (hn : n.Shallow) :
    (b.partialNode n).Shallow := by
  rcases hn.cases with rfl | ⟨v, rfl⟩ | ⟨hground, _⟩
  · trivial
  · change (b.valueOrSelf v).Shallow
    unfold valueOrSelf
    cases hvalue : b.resolve (.var v) with
    | none => trivial
    | some k =>
        obtain ⟨links, hleads⟩ := hb.resolve_eq_some_iff.1 hvalue
        obtain ⟨j, hj⟩ := hleads.slot?_of_ground
        exact (hb.simple j k hj).shallow
  · rw [partialNode, Node.subst_of_ground hground]
    exact hn

/-- Replacing the variables that have a value keeps what fits. -/
theorem Chained.fits_partialInstantiate_iff (hb : b.Chained) {σ : Assignment} (hσ : b.Allows σ)
    (hp : p.Shallow) : (b.partialInstantiate p).Fits σ t ↔ p.Fits σ t := by
  obtain ⟨hs, hpred, ho⟩ := Triple.shallow_iff.1 hp
  have hsubject := hb.fits_partialNode_iff hσ (m := t.subject) hs
  have hpredicate := hb.fits_partialNode_iff hσ (m := t.predicate) hpred
  have hobject := hb.fits_partialNode_iff hσ (m := t.object) ho
  exact ⟨fun h => ⟨hsubject.1 h.subject, hpredicate.1 h.predicate, hobject.1 h.object⟩,
    fun h => ⟨hsubject.2 h.subject, hpredicate.2 h.predicate, hobject.2 h.object⟩⟩

theorem Chained.shallow_partialInstantiate (hb : b.Chained) (hp : p.Shallow) :
    (b.partialInstantiate p).Shallow := by
  obtain ⟨hs, hpred, ho⟩ := Triple.shallow_iff.1 hp
  exact Triple.shallow_iff.2 ⟨hb.shallow_partialNode hs, hb.shallow_partialNode hpred,
    hb.shallow_partialNode ho⟩

/-- All assignments that are allowed agree on the variable. -/
def Forces (b : Bindings) (i : Nat) : Prop :=
  i < b.length ∧ ∃ n, ∀ σ, b.Allows σ → (σ i == n) = true

theorem Chained.exists_resolve (hb : b.Chained) {v : Var} (h : b.Forces v.index) :
    ∃ n, b.resolve (.var v) = some n ∧ n.Simple := by
  obtain ⟨n, hforced⟩ := h.2
  obtain ⟨links, m, hleads, _⟩ := hb.leads_of_forced h.1 hforced
  obtain ⟨j, hj⟩ := hleads.slot?_of_ground
  exact ⟨m, hleads.resolve_ground hb, hb.simple j m hj⟩

theorem Chained.isGround_partialNode (hb : b.Chained) {n : Node} (hn : n.Shallow)
    (hany : n.isAny = false) (h : ∀ i ∈ n.indexes, b.Forces i) :
    (b.partialNode n).isGround = true := by
  rcases hn.cases with rfl | ⟨v, rfl⟩ | ⟨hground, _⟩
  · cases hany
  · obtain ⟨m, hm, hsimple⟩ := hb.exists_resolve (h v.index (List.mem_singleton.2 rfl))
    change (b.valueOrSelf v).isGround = true
    rw [valueOrSelf, hm]
    exact hsimple.ground
  · rwa [partialNode, Node.subst_of_ground hground]

/-- A pattern whose variables all have values becomes a fact. -/
theorem Chained.isGround_partialInstantiate (hb : b.Chained) {p : Triple} (hp : p.Shallow)
    (hany : ∀ n ∈ p.nodes, n.isAny = false) (h : ∀ i ∈ p.indexes, b.Forces i) :
    (b.partialInstantiate p).isGround = true := by
  rw [Triple.indexes_eq] at h
  have hnode : ∀ n ∈ p.nodes, (∀ i ∈ n.indexes, b.Forces i) →
      (b.partialNode n).isGround = true := fun n hn hforced =>
    hb.isGround_partialNode (hp n hn) (hany n hn) hforced
  exact Triple.isGround_iff.2
    ⟨hnode p.subject (by simp [Triple.nodes]) fun i hi => h i (by simp [hi]),
      hnode p.predicate (by simp [Triple.nodes]) fun i hi => h i (by simp [hi]),
      hnode p.object (by simp [Triple.nodes]) fun i hi => h i (by simp [hi])⟩

end Facts

end Bindings

end Entailment
