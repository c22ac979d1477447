import Entailment.Binding.Bindings
import Entailment.Proofs.Matching.Fit

/-!
# Matching patterns with facts

A fact is ground, so an environment that matches patterns with facts only ever holds
ground nodes and no alias.  On such environments a comparison solves the constraint
that the fact fits the pattern: it fails only if no assignment that the environment
admits meets the constraint, and otherwise admits exactly those that do.
-/

namespace Entailment

namespace Node

theorem size_pos (n : Node) : 0 < n.size := by
  cases n with
  | functor f args => rw [size]; omega
  | _ => exact Nat.one_pos

theorem size_le_sizeAll {n : Node} {ns : List Node} (h : n ∈ ns) : n.size ≤ sizeAll ns := by
  induction ns with
  | nil => cases h
  | cons m ns ih =>
      rw [sizeAll]
      rcases List.mem_cons.1 h with rfl | h
      · omega
      · have hrest := ih h
        omega

mutual
theorem vars_of_ground {n : Node} (h : n.isGround = true) : n.vars = [] := by
  cases n with
  | var v => cases h
  | functor f args => exact varsAll_of_ground h
  | _ => rfl

theorem varsAll_of_ground {ns : List Node} (h : allGround ns = true) : varsAll ns = [] := by
  match ns with
  | [] => rfl
  | n :: ns =>
      rw [allGround, Bool.and_eq_true] at h
      rw [varsAll, vars_of_ground h.1, varsAll_of_ground h.2, List.append_nil]
end

theorem indexes_of_ground {n : Node} (h : n.isGround = true) : n.indexes = [] := by
  rw [indexes, vars_of_ground h, List.map_nil]

theorem allGround_iff {ns : List Node} :
    allGround ns = true ↔ ∀ n ∈ ns, n.isGround = true := by
  rw [allGround_eq_all, List.all_eq_true]

end Node

namespace Triple

theorem isGround_iff {t : Triple} : t.isGround = true ↔
    t.subject.isGround = true ∧ t.predicate.isGround = true ∧ t.object.isGround = true := by
  rw [isGround, Bool.and_eq_true, Bool.and_eq_true, and_assoc]

theorem isGround_iff_nodes {t : Triple} :
    t.isGround = true ↔ ∀ n ∈ t.nodes, n.isGround = true := by
  rw [isGround_iff]
  simp [nodes]

end Triple

namespace Bindings

/-- The node that a slot holds. -/
def held? (b : Bindings) (i : Nat) : Option Node :=
  match b.slot? i with
  | some (.ground n) => some n
  | _ => none

/-- Every slot is unbound or holds a ground node. -/
def Ground (b : Bindings) : Prop :=
  ∀ i s, b.slot? i = some s → s = .unbound ∨ ∃ n, s = .ground n ∧ n.isGround = true

/-- The assignment agrees with what the slots hold. -/
def Admits (b : Bindings) (σ : Assignment) : Prop :=
  ∀ i n, b.held? i = some n → (σ i == n) = true

/-- The assignment that the slots themselves give. -/
def assignment (b : Bindings) : Assignment := fun i => (b.held? i).getD .any

theorem admits_assignment (b : Bindings) : b.Admits b.assignment := by
  intro i n h
  rw [assignment, h]
  exact BEq.rfl

/-! ## Slots of ground environments -/

theorem ground_empty (size : Nat) : (empty size).Ground := by
  intro i s h
  rw [slot?, empty, List.getElem?_replicate] at h
  split at h
  · exact Or.inl (Option.some.inj h).symm
  · cases h

theorem held?_empty (size i : Nat) : (empty size).held? i = none := by
  rw [held?, slot?, empty, List.getElem?_replicate]
  split <;> rename_i h
  · split at h <;> cases h
  · rfl

theorem length_empty (size : Nat) : (empty size).length = size := List.length_replicate

theorem slot?_set (b : Bindings) (i j : Nat) (s : Slot) :
    (b.set i s).slot? j = if i = j then (if i < b.length then some s else none) else b.slot? j := by
  rw [slot?, set, List.getElem?_set]
  rfl

theorem length_set (b : Bindings) (i : Nat) (s : Slot) : (b.set i s).length = b.length :=
  List.length_set

theorem lt_length_of_slot? {b : Bindings} {i : Nat} {s : Slot} (h : b.slot? i = some s) :
    i < b.length := by
  rw [slot?, List.getElem?_eq_some_iff] at h
  exact h.1

theorem slot?_isSome_of_lt {b : Bindings} {i : Nat} (h : i < b.length) :
    ∃ s, b.slot? i = some s :=
  ⟨b.slots[i], List.getElem?_eq_getElem h⟩

theorem slot?_of_held? {b : Bindings} {i : Nat} {n : Node} (h : b.held? i = some n) :
    b.slot? i = some (.ground n) := by
  unfold held? at h
  split at h
  · rename_i m hm
    rw [hm, Option.some.inj h]
  · cases h

theorem lt_length_of_held? {b : Bindings} {i : Nat} {n : Node} (h : b.held? i = some n) :
    i < b.length :=
  lt_length_of_slot? (slot?_of_held? h)

theorem held?_set_ground {b : Bindings} {i : Nat} (hi : i < b.length) (n : Node) (j : Nat) :
    (b.set i (.ground n)).held? j = if i = j then some n else b.held? j := by
  rw [held?, slot?_set, held?]
  by_cases same : i = j
  · rw [if_pos same, if_pos hi, if_pos same]
  · rw [if_neg same, if_neg same]

theorem Ground.isGround {b : Bindings} (hb : b.Ground) {i : Nat} {n : Node}
    (h : b.held? i = some n) : n.isGround = true := by
  rcases hb i _ (slot?_of_held? h) with hs | ⟨m, hm, hground⟩
  · cases hs
  · cases hm
    exact hground

theorem Ground.set {b : Bindings} (hb : b.Ground) {n : Node} (hn : n.isGround = true) (i : Nat) :
    (b.set i (.ground n)).Ground := by
  intro j s h
  rw [slot?_set] at h
  split at h
  · split at h
    · exact Or.inr ⟨n, (Option.some.inj h).symm, hn⟩
    · cases h
  · exact hb j s h

/-- A ground environment has no aliases to follow. -/
theorem Ground.deref_eq {b : Bindings} (hb : b.Ground) (i : Nat) :
    b.deref i =
      match b.held? i with
      | some n => some (.ground n)
      | none => if i < b.length then some (.unbound i) else none := by
  unfold deref derefWithin held?
  cases h : b.slot? i with
  | none =>
      have hi : ¬ i < b.length := by
        intro hlt
        obtain ⟨s, hs⟩ := slot?_isSome_of_lt hlt
        rw [hs] at h
        cases h
      simp [hi]
  | some s =>
      have hi := lt_length_of_slot? h
      rcases hb i s h with rfl | ⟨n, rfl, _⟩
      · simp [hi]
      · rfl

/-! ## Comparisons that solve a constraint -/

/-- What a comparison has to achieve that adds the constraint `C` on the variables
`vars` to the environment `b`. -/
structure Solves (b : Bindings) (C : Assignment → Prop) (vars : List Nat)
    (result : Bool × Bindings) : Prop where
  ground : result.2.Ground
  length_eq : result.2.length = b.length
  keeps : ∀ i n, b.held? i = some n → result.2.held? i = some n
  frame : ∀ i, i ∉ vars → result.2.held? i = b.held? i
  covers : result.1 = true → ∀ i ∈ vars, ∃ n, result.2.held? i = some n
  admits_iff : result.1 = true → ∀ σ, result.2.Admits σ ↔ b.Admits σ ∧ C σ
  refutes : result.1 = false → (∀ i ∈ vars, i < b.length) → ∀ σ, b.Admits σ → ¬ C σ

namespace Solves

variable {b b' : Bindings} {C D : Assignment → Prop} {vars vars' : List Nat}

/-- A test that binds nothing. -/
theorem of_test (hb : b.Ground) {r : Bool} (hcovers : ∀ i ∈ vars, ∃ n, b.held? i = some n)
    (hC : ∀ σ, b.Admits σ → (C σ ↔ r = true)) : b.Solves C vars (r, b) where
  ground := hb
  length_eq := rfl
  keeps _ _ h := h
  frame _ _ := rfl
  covers _ := hcovers
  admits_iff hr σ := ⟨fun h => ⟨h, (hC σ h).2 hr⟩, And.left⟩
  refutes hr _ σ h hc := by
    change r = false at hr
    rw [(hC σ h).1 hc] at hr
    cases hr

/-- A failure where the constraint cannot be met. -/
theorem of_failure (hb : b.Ground)
    (hC : (∀ i ∈ vars, i < b.length) → ∀ σ, b.Admits σ → ¬ C σ) :
    b.Solves C vars (false, b) where
  ground := hb
  length_eq := rfl
  keeps _ _ h := h
  frame _ _ := rfl
  covers h := by cases h
  admits_iff h := by cases h
  refutes _ := hC

theorem congr {result : Bool × Bindings} (h : b.Solves C vars result)
    (hC : ∀ σ, C σ ↔ D σ) (hvars : ∀ i, i ∈ vars ↔ i ∈ vars') : b.Solves D vars' result where
  ground := h.ground
  length_eq := h.length_eq
  keeps := h.keeps
  frame i hi := h.frame i fun hmem => hi ((hvars i).1 hmem)
  covers hr i hi := h.covers hr i ((hvars i).2 hi)
  admits_iff hr σ := (h.admits_iff hr σ).trans (and_congr_right fun _ => hC σ)
  refutes hr hi σ ha hd := h.refutes hr (fun i hmem => hi i ((hvars i).1 hmem)) σ ha ((hC σ).2 hd)

/-- A comparison followed by another one solves both constraints. -/
theorem trans {result : Bool × Bindings} (h : b.Solves C vars (true, b'))
    (k : b'.Solves D vars' result) :
    b.Solves (fun σ => C σ ∧ D σ) (vars ++ vars') result where
  ground := k.ground
  length_eq := k.length_eq.trans h.length_eq
  keeps i n hi := k.keeps i n (h.keeps i n hi)
  frame i hi := by
    rw [List.mem_append, not_or] at hi
    rw [k.frame i hi.2, h.frame i hi.1]
  covers hr i hi := by
    rcases List.mem_append.1 hi with hi | hi
    · obtain ⟨n, hn⟩ := h.covers rfl i hi
      exact ⟨n, k.keeps i n hn⟩
    · exact k.covers hr i hi
  admits_iff hr σ := by
    rw [k.admits_iff hr σ, h.admits_iff rfl σ, and_assoc]
  refutes hr hi σ ha := by
    rintro ⟨hc, hd⟩
    refine k.refutes hr ?_ σ ((h.admits_iff rfl σ).2 ⟨ha, hc⟩) hd
    intro i hmem
    rw [h.length_eq]
    exact hi i (List.mem_append_right _ hmem)

/-- A comparison that fails refutes every stronger constraint. -/
theorem of_first_failure (h : b.Solves C vars (false, b')) (vars' : List Nat) :
    b.Solves (fun σ => C σ ∧ D σ) (vars ++ vars') (false, b') where
  ground := h.ground
  length_eq := h.length_eq
  keeps := h.keeps
  frame i hi := h.frame i fun hmem => hi (List.mem_append_left _ hmem)
  covers hr := by cases hr
  admits_iff hr := by cases hr
  refutes hr hi σ ha hcd :=
    h.refutes hr (fun i hmem => hi i (List.mem_append_left _ hmem)) σ ha hcd.1

end Solves

/-- Comparing pairs one after another solves the constraints of all of them. -/
theorem solves_compareAll {compare : Comparison} (fits : Node → Node → Assignment → Prop)
    {pairs : List (Node × Node)}
    (hcompare : ∀ b : Bindings, b.Ground → ∀ pair ∈ pairs,
      b.Solves (fits pair.1 pair.2) pair.1.indexes (compare b pair.1 pair.2))
    {b : Bindings} (hb : b.Ground) :
    b.Solves (fun σ => ∀ pair ∈ pairs, fits pair.1 pair.2 σ)
      (pairs.flatMap fun pair => pair.1.indexes) (compareAll compare b pairs) := by
  induction pairs generalizing b with
  | nil =>
      apply Solves.of_test hb
      · simp
      · simp
  | cons pair pairs ih =>
      have hhead := hcompare b hb pair (List.mem_cons_self ..)
      have hsplit : ∀ σ, (fits pair.1 pair.2 σ ∧ ∀ q ∈ pairs, fits q.1 q.2 σ) ↔
          ∀ q ∈ pair :: pairs, fits q.1 q.2 σ := by
        intro σ
        rw [List.forall_mem_cons]
      obtain ⟨p, n⟩ := pair
      unfold compareAll
      cases hresult : compare b p n with
      | mk answer b' =>
          rw [hresult] at hhead
          cases answer with
          | true =>
              have hrest := ih (fun c hc q hq => hcompare c hc q (List.mem_cons_of_mem _ hq))
                hhead.ground
              exact (hhead.trans hrest).congr hsplit fun i => by simp
          | false =>
              refine (hhead.of_first_failure (pairs.flatMap fun pair => pair.1.indexes)).congr
                hsplit fun i => ?_
              simp

/-! ## Unification with ground nodes -/

theorem compareAll_ground {compare : Comparison} {ps ns : List Node}
    (hcompare : ∀ b, ∀ p ∈ ps, ∀ n ∈ ns, compare b p n = (p == n, b))
    (hlength : ps.length = ns.length) (b : Bindings) :
    compareAll compare b (ps.zip ns) = (ps == ns, b) := by
  induction ps generalizing ns with
  | nil =>
      cases ns with
      | nil => rfl
      | cons n ns => cases hlength
  | cons p ps ih =>
      cases ns with
      | nil => cases hlength
      | cons n ns =>
          have hrest := ih
            (fun b q hq m hm => hcompare b q (List.mem_cons_of_mem _ hq) m (List.mem_cons_of_mem _ hm))
            (Nat.succ.inj hlength)
          rw [List.zip_cons_cons, compareAll,
            hcompare b p (List.mem_cons_self ..) n (List.mem_cons_self ..), list_beq_cons]
          cases p == n with
          | true => simpa using hrest
          | false => rfl

/-- Ground nodes unify when they are equal, and nothing is bound. -/
theorem unifyWithin_ground (depth : Nat) (b : Bindings) (m n : Node) (hm : m.isGround = true)
    (hn : n.isGround = true) (hdepth : n.size ≤ depth) :
    unifyWithin depth b m n = (m == n, b) := by
  induction depth generalizing b m n with
  | zero =>
      have hpos := n.size_pos
      omega
  | succ depth ih =>
      cases m with
      | var v => cases hm
      | any => cases hm
      | functor f ps =>
          cases n with
          | var v => cases hn
          | any => cases hn
          | functor g ns =>
              rw [unifyWithin, Node.functor_beq]
              split
              · rename_i hsame
                rw [beq_iff_eq.2 hsame.1, Bool.true_and]
                apply compareAll_ground _ hsame.2
                intro b p hp n hn'
                apply ih b p n (Node.allGround_iff.1 hm p hp) (Node.allGround_iff.1 hn n hn')
                have hsize := Node.size_le_sizeAll hn'
                rw [Node.size] at hdepth
                omega
              · rename_i hdifferent
                have hfalse : (f == g && ps == ns) = false := by
                  rw [Bool.eq_false_iff]
                  intro hsame
                  rw [Bool.and_eq_true, beq_iff_eq] at hsame
                  exact hdifferent ⟨hsame.1, length_eq_of_list_beq hsame.2⟩
                rw [hfalse]
          | _ => rfl
      | _ =>
          cases n with
          | var v => cases hn
          | any => cases hn
          | _ => rfl

theorem solves_bindSlotBy {compare : Comparison} {b : Bindings} (hb : b.Ground) (i : Nat)
    {n : Node} (hn : n.isGround = true)
    (hcompare : ∀ m, m.isGround = true → compare b m n = (m == n, b)) :
    b.Solves (fun σ => (σ i == n) = true) [i] (bindSlotBy compare b i n) := by
  unfold bindSlotBy
  rw [hb.deref_eq]
  cases hheld : b.held? i with
  | some m =>
      simp only
      rw [hcompare m (hb.isGround hheld)]
      apply Solves.of_test hb
      · intro j hj
        rw [List.mem_singleton.1 hj]
        exact ⟨m, hheld⟩
      · intro σ hσ
        rw [BEq.congr_left (hσ i m hheld)]
  | none =>
      simp only
      by_cases hi : i < b.length
      · rw [if_pos hi]
        have hbound : b.Solves (fun σ => (σ i == n) = true) [i] (true, b.set i (.ground n)) := by
          refine ⟨hb.set hn i, b.length_set i _, ?_, ?_, ?_, ?_, ?_⟩
          · intro j m hj
            rw [held?_set_ground hi, if_neg, hj]
            rintro rfl
            rw [hheld] at hj
            cases hj
          · intro j hj
            rw [held?_set_ground hi, if_neg]
            rintro rfl
            exact hj (List.mem_singleton.2 rfl)
          · intro _ j hj
            rw [List.mem_singleton.1 hj]
            exact ⟨n, by rw [held?_set_ground hi, if_pos rfl]⟩
          · intro _ σ
            constructor
            · intro hσ
              refine ⟨?_, hσ i n (by rw [held?_set_ground hi, if_pos rfl])⟩
              intro j m hj
              apply hσ j m
              rw [held?_set_ground hi, if_neg, hj]
              rintro rfl
              rw [hheld] at hj
              cases hj
            · rintro ⟨hσ, hin⟩ j m hj
              rw [held?_set_ground hi] at hj
              split at hj
              · rename_i same
                rw [← same, ← Option.some.inj hj]
                exact hin
              · exact hσ j m hj
          · intro h
            cases h
        cases n with
        | var v => cases hn
        | any => cases hn
        | _ => exact hbound
      · rw [if_neg hi]
        apply Solves.of_failure hb
        intro hvars
        exact absurd (hvars i (List.mem_singleton.2 rfl)) hi

theorem fits_zip_iff {σ : Assignment} {ps ns : List Node} (hlength : ps.length = ns.length) :
    (∀ pair ∈ ps.zip ns, pair.1.Fits σ pair.2) ↔ Node.AllFit σ ps ns := by
  induction ps generalizing ns with
  | nil =>
      cases ns with
      | nil => exact ⟨fun _ => trivial, fun _ _ h => nomatch h⟩
      | cons n ns => cases hlength
  | cons p ps ih =>
      cases ns with
      | nil => cases hlength
      | cons n ns =>
          rw [List.zip_cons_cons, List.forall_mem_cons, Node.AllFit, ih (Nat.succ.inj hlength)]

theorem mem_indexes_zip_iff {ps ns : List Node} (hlength : ps.length = ns.length) (i : Nat) :
    (i ∈ (ps.zip ns).flatMap fun pair => pair.1.indexes) ↔ i ∈ Node.indexesAll ps := by
  induction ps generalizing ns with
  | nil => simp [Node.indexesAll, Node.varsAll]
  | cons p ps ih =>
      cases ns with
      | nil => cases hlength
      | cons n ns =>
          rw [List.zip_cons_cons, List.flatMap_cons, Node.indexesAll_cons, List.mem_append,
            List.mem_append, ih (Nat.succ.inj hlength)]

/-- Unifying a pattern with a ground node solves that the node fits the pattern. -/
theorem solves_unifyWithin (depth : Nat) {b : Bindings} (hb : b.Ground) (p : Node) {n : Node}
    (hn : n.isGround = true) (hdepth : n.size < depth) :
    b.Solves (fun σ => p.Fits σ n) p.indexes (unifyWithin depth b p n) := by
  induction depth generalizing b p n with
  | zero => cases hdepth
  | succ depth ih =>
      have hbelow : n.size ≤ depth := Nat.lt_succ_iff.1 hdepth
      have hatom : ∀ q : Node, q.isGround = true →
          b.Solves (fun σ => q.Fits σ n) q.indexes (q == n, b) := by
        intro q hq
        apply Solves.of_test hb
        · intro i hi
          rw [Node.indexes_of_ground hq] at hi
          cases hi
        · intro σ _
          exact Node.fits_iff_beq hq
      cases p with
      | any =>
          have heq : unifyWithin (depth + 1) b .any n = (true, b) := by cases n <;> rfl
          rw [heq]
          apply Solves.of_test hb
          · intro i hi
            cases hi
          · intro σ _
            exact ⟨fun _ => rfl, fun _ => trivial⟩
      | var v =>
          have heq : unifyWithin (depth + 1) b (.var v) n =
              bindSlotBy (unifyWithin depth) b v.index n := by
            cases n with
            | any => cases hn
            | _ => rfl
          rw [heq]
          apply solves_bindSlotBy hb v.index hn
          intro m hm
          exact unifyWithin_ground depth b m n hm hn hbelow
      | functor f ps =>
          cases n with
          | var v => cases hn
          | any => cases hn
          | functor g ns =>
              rw [unifyWithin]
              split
              · rename_i hsame
                have hall := solves_compareAll (fun p n σ => p.Fits σ n)
                  (fun (c : Bindings) hc pair (hpair : pair ∈ ps.zip ns) => by
                    obtain ⟨_, hmem⟩ := List.of_mem_zip hpair
                    apply ih hc pair.1 (Node.allGround_iff.1 hn _ hmem)
                    have hsize := Node.size_le_sizeAll hmem
                    rw [Node.size] at hbelow
                    omega) hb
                apply hall.congr
                · intro σ
                  rw [fits_zip_iff hsame.2]
                  exact ⟨fun h => ⟨hsame.1, h⟩, And.right⟩
                · exact mem_indexes_zip_iff hsame.2
              · rename_i hdifferent
                apply Solves.of_failure hb
                intro _ σ _ hfits
                exact hdifferent ⟨hfits.1, hfits.2.length_eq⟩
          | _ =>
              apply Solves.of_failure hb
              intro _ σ _ hfits
              cases hfits
      | _ =>
          cases n with
          | var v => cases hn
          | any => cases hn
          | _ => exact hatom _ rfl

theorem size_lt_depthBound (b : Bindings) (m n : Node) : n.size < b.depthBound m n := by
  unfold depthBound
  simp only
  have hpos := m.size_pos
  generalize hsubterms : (b.slots.map Slot.size).foldr (· + ·) 0 + m.size + n.size = subterms
  have hsub : n.size ≤ subterms := by omega
  have hsquare : subterms ≤ subterms * subterms * (b.length + 1) := by
    apply Nat.le_trans (Nat.le_mul_self _)
    exact Nat.le_mul_of_pos_right _ (Nat.succ_pos _)
  omega

theorem solves_unify {b : Bindings} (hb : b.Ground) (p : Node) {n : Node}
    (hn : n.isGround = true) :
    b.Solves (fun σ => p.Fits σ n) p.indexes (b.unify p n) :=
  solves_unifyWithin _ hb p hn (b.size_lt_depthBound p n)

theorem solves_unifyTriple {b : Bindings} (hb : b.Ground) (p : Triple) {t : Triple}
    (ht : t.isGround = true) :
    b.Solves (fun σ => p.Fits σ t) p.indexes (b.unifyTriple p t) := by
  rw [Triple.isGround, Bool.and_eq_true, Bool.and_eq_true] at ht
  have hall := solves_compareAll (fun p n σ => p.Fits σ n)
    (fun (c : Bindings) hc pair (hpair : pair ∈ p.nodes.zip t.nodes) => by
      apply solves_unify hc
      obtain ⟨_, hmem⟩ := List.of_mem_zip hpair
      simp only [Triple.nodes, List.mem_cons, List.not_mem_nil, or_false] at hmem
      rcases hmem with same | same | same
      · rw [same]; exact ht.1.1
      · rw [same]; exact ht.1.2
      · rw [same]; exact ht.2) hb
  apply hall.congr
  · intro σ
    simp only [Triple.nodes, List.zip_cons_cons, List.zip_nil_left, List.forall_mem_cons,
      List.not_mem_nil, false_implies, implies_true, and_true]
    exact ⟨fun h => ⟨h.1, h.2.1, h.2.2⟩, fun h => ⟨h.subject, h.predicate, h.object⟩⟩
  · intro i
    rw [Triple.indexes_eq]
    simp [Triple.nodes]

/-! ## Matching -/

/-- What is known of an environment that has matched a pattern with a fact. -/
structure Matched (b : Bindings) (p t : Triple) (b' : Bindings) : Prop where
  ground : b'.Ground
  length_eq : b'.length = b.length
  keeps : ∀ i n, b.held? i = some n → b'.held? i = some n
  frame : ∀ i, i ∉ p.indexes → b'.held? i = b.held? i
  covers : ∀ i ∈ p.indexes, ∃ n, b'.held? i = some n
  admits_iff : ∀ σ, b'.Admits σ ↔ b.Admits σ ∧ p.Fits σ t

theorem Ground.matched {b b' : Bindings} (hb : b.Ground) {p t : Triple}
    (ht : t.isGround = true) (h : b.matching? p t = some b') : b.Matched p t b' := by
  have hsolves := solves_unifyTriple hb p ht
  unfold matching? at h
  cases hresult : b.unifyTriple p t with
  | mk answer b'' =>
      rw [hresult] at h hsolves
      cases answer with
      | false => cases h
      | true =>
          cases h
          exact ⟨hsolves.ground, hsolves.length_eq, hsolves.keeps, hsolves.frame,
            hsolves.covers rfl, hsolves.admits_iff rfl⟩

/-- A pattern is matched with every fact that fits it under an admitted assignment. -/
theorem Ground.exists_matching? {b : Bindings} (hb : b.Ground) {p t : Triple}
    (ht : t.isGround = true) (hvars : ∀ i ∈ p.indexes, i < b.length) {σ : Assignment}
    (hσ : b.Admits σ) (hfits : p.Fits σ t) : ∃ b', b.matching? p t = some b' := by
  have hsolves := solves_unifyTriple hb p ht
  unfold matching?
  cases hresult : b.unifyTriple p t with
  | mk answer b' =>
      rw [hresult] at hsolves
      cases answer with
      | true => exact ⟨b', rfl⟩
      | false => exact absurd hfits (hsolves.refutes rfl hvars σ hσ)

theorem Matched.fits {b b' : Bindings} {p t : Triple} (h : b.Matched p t b') :
    p.Fits b'.assignment t :=
  ((h.admits_iff _).1 b'.admits_assignment).2

end Bindings

end Entailment
