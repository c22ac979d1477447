import Entailment.Builtin.Basic
import Entailment.Proofs.Matching.Resolution
import Entailment.Proofs.Matching.Shape

/-!
# Like environments

Equal facts need not be written alike, so the environments that matching them leaves
agree only up to the equality of nodes.  What variables resolve to agrees as well, and
binding equal nodes to equal values succeeds in both or in neither.
-/

namespace Entailment

namespace Bindings

/-- The environments hold equal nodes in the same slots. -/
structure Alike (b c : Bindings) : Prop where
  ground : b.Ground
  other : c.Ground
  length_eq : b.length = c.length
  held : ∀ i, (b.held? i == c.held? i) = true

variable {b c : Bindings}

namespace Alike

theorem refl (hb : b.Ground) : b.Alike b := ⟨hb, hb, rfl, fun _ => BEq.rfl⟩

theorem symm (h : b.Alike c) : c.Alike b :=
  ⟨h.other, h.ground, h.length_eq.symm, fun i => BEq.symm (h.held i)⟩

theorem exists_held (h : b.Alike c) {i : Nat} {n : Node} (hn : b.held? i = some n) :
    ∃ m, c.held? i = some m ∧ (n == m) = true := by
  have hsame := h.held i
  rw [hn] at hsame
  cases hm : c.held? i with
  | none =>
      rw [hm] at hsame
      cases hsame
  | some m =>
      rw [hm] at hsame
      exact ⟨m, rfl, hsame⟩

theorem admits (h : b.Alike c) {σ : Assignment} (hσ : b.Admits σ) : c.Admits σ := by
  intro i m hm
  obtain ⟨n, hn, hsame⟩ := h.symm.exists_held hm
  exact BEq.trans (hσ i n hn) (BEq.symm hsame)

end Alike

/-! ## Binding -/

/-- Solving equal constraints on like environments succeeds in both or in neither, and
leaves like environments. -/
theorem Solves.alike {C D : Assignment → Prop} {vars : List Nat}
    {result result' : Bool × Bindings} (hlike : b.Alike c) (h : b.Solves C vars result)
    (k : c.Solves D vars result') (hCD : ∀ σ, C σ ↔ D σ) :
    result.1 = result'.1 ∧ (result.1 = true → result.2.Alike result'.2) := by
  -- A solution of one is admitted by the other, so neither can refuse what the other takes.
  have hone : ∀ {b c : Bindings} {C D : Assignment → Prop} {result result' : Bool × Bindings},
      b.Alike c → b.Solves C vars result → c.Solves D vars result' → (∀ σ, C σ → D σ) →
      result.1 = true → result'.1 = true := by
    intro b c C D result result' hlike h k hCD hdone
    by_contra hfailed
    obtain ⟨hadmits, hC⟩ := (h.admits_iff hdone _).1 result.2.admits_assignment
    refine k.refutes (Bool.eq_false_iff.2 hfailed) ?_ _ (hlike.admits hadmits) (hCD _ hC)
    intro i hi
    obtain ⟨n, hn⟩ := h.covers hdone i hi
    rw [← hlike.length_eq, ← h.length_eq]
    exact lt_length_of_held? hn
  have hanswer : result.1 = result'.1 := by
    rw [Bool.eq_iff_iff]
    exact ⟨hone hlike h k fun σ => (hCD σ).1, hone hlike.symm k h fun σ => (hCD σ).2⟩
  refine ⟨hanswer, fun hdone => ?_⟩
  have hdone' : result'.1 = true := hanswer ▸ hdone
  refine ⟨h.ground, k.ground, ?_, fun i => ?_⟩
  · rw [h.length_eq, k.length_eq, hlike.length_eq]
  · by_cases hi : i ∈ vars
    · obtain ⟨n, hn⟩ := h.covers hdone i hi
      obtain ⟨m, hm⟩ := k.covers hdone' i hi
      have hadmits := (k.admits_iff hdone' _).1 result'.2.admits_assignment
      have hboth := (h.admits_iff hdone _).2
        ⟨hlike.symm.admits hadmits.1, (hCD _).2 hadmits.2⟩ i n hn
      rw [assignment, hm, Option.getD_some] at hboth
      rw [hn, hm]
      exact BEq.symm hboth
    · rw [h.frame i hi, k.frame i hi]
      exact hlike.held i

/-! ## Resolving -/

theorem option_beq_iff {α : Type} [BEq α] {x y : Option α} : (x == y) = true ↔
    (x = none ∧ y = none) ∨ ∃ a b, x = some a ∧ y = some b ∧ (a == b) = true := by
  cases x with
  | none =>
      cases y with
      | none => exact ⟨fun _ => Or.inl ⟨rfl, rfl⟩, fun _ => rfl⟩
      | some b => exact ⟨(fun h => nomatch h), fun h => by simp at h⟩
  | some a =>
      cases y with
      | none => exact ⟨(fun h => nomatch h), fun h => by simp at h⟩
      | some b =>
          constructor
          · exact fun h => Or.inr ⟨a, b, rfl, rfl, h⟩
          · rintro (⟨h, _⟩ | ⟨a', b', ha, hb, h⟩)
            · cases h
            · cases ha
              cases hb
              exact h

theorem Alike.resolve_var (h : b.Alike c) (v : Var) :
    (b.resolve (.var v) == c.resolve (.var v)) = true := by
  rw [h.ground.resolve_var, h.other.resolve_var]
  rcases option_beq_iff.1 (h.held v.index) with ⟨hn, hm⟩ | ⟨n, m, hn, hm, hsame⟩
  · rw [hn, hm]
    rfl
  · rw [hn, hm, Option.bind_some, Option.bind_some, Node.isNested_congr hsame]
    split
    · rfl
    · exact hsame

theorem Ground.resolveArg_var (hb : b.Ground) (v : Var) :
    b.resolveArg (.var v) =
      (b.held? v.index).bind fun n => if n.isFunctor = true then none else some n := by
  rw [resolveArg, hb.deref_eq]
  cases hheld : b.held? v.index with
  | some n => rfl
  | none =>
      simp only
      split
      · rename_i h
        split at h
        · cases h
        · cases h
      · rfl

theorem Alike.resolveArg (h : b.Alike c) (n : Node) :
    (b.resolveArg n == c.resolveArg n) = true := by
  cases n with
  | var v =>
      rw [h.ground.resolveArg_var, h.other.resolveArg_var]
      rcases option_beq_iff.1 (h.held v.index) with ⟨hn, hm⟩ | ⟨n, m, hn, hm, hsame⟩
      · rw [hn, hm]
        rfl
      · rw [hn, hm, Option.bind_some, Option.bind_some, Node.isFunctor_congr hsame]
        split
        · rfl
        · exact hsame
  | _ => exact BEq.rfl

theorem Alike.resolveArgs (h : b.Alike c) (ns : List Node) :
    (ns.mapM b.resolveArg == ns.mapM c.resolveArg) = true := by
  induction ns with
  | nil => exact BEq.rfl
  | cons n ns ih =>
      rw [List.mapM_cons, List.mapM_cons]
      rcases option_beq_iff.1 (h.resolveArg n) with ⟨hn, hm⟩ | ⟨x, y, hn, hm, hsame⟩
      · rw [hn, hm]
        rfl
      · rw [hn, hm]
        rcases option_beq_iff.1 ih with ⟨hns, hms⟩ | ⟨xs, ys, hns, hms, hall⟩
        · rw [hns, hms]
          rfl
        · rw [hns, hms]
          change (x :: xs == y :: ys) = true
          rw [list_beq_cons, hsame, hall]
          rfl

theorem Alike.resolve (h : b.Alike c) (n : Node) : (b.resolve n == c.resolve n) = true := by
  cases n with
  | var v => exact h.resolve_var v
  | functor f args =>
      change ((args.mapM b.resolveArg).map (Node.functor f) ==
        (args.mapM c.resolveArg).map (Node.functor f)) = true
      rcases option_beq_iff.1 (h.resolveArgs args) with ⟨hn, hm⟩ | ⟨xs, ys, hn, hm, hall⟩
      · rw [hn, hm]
        rfl
      · rw [hn, hm]
        change (Node.functor f xs == Node.functor f ys) = true
        rw [Node.functor_beq, hall, beq_self_eq_true]
        rfl
  | _ => exact BEq.rfl

end Bindings

theorem Call.resolvedArgs_congr (call : Call) {b c : Bindings} (h : b.Alike c) :
    (call.resolvedArgs b == call.resolvedArgs c) = true := by
  unfold resolvedArgs
  induction call.args with
  | nil => rfl
  | cons n ns ih =>
      rw [List.map_cons, List.map_cons, list_beq_cons, ih, Bool.and_true]
      rcases Bindings.option_beq_iff.1 (h.resolve n) with ⟨hn, hm⟩ | ⟨x, y, hn, hm, hsame⟩
      · rw [hn, hm]
        exact BEq.rfl
      · rw [hn, hm]
        exact hsame

end Entailment
