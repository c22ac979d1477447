import Entailment.Proofs.Builtin.Independence
import Entailment.Proofs.Term.Hashing

/-!
# Answers that stay

A builtin is taken to be monotonic when its answer never changes while triples are added,
so that nothing it has refused is asked again.  All standard builtins that say so of
themselves, and neither read the clock, nor draw fresh blank nodes, nor walk along a list
in the graph, are as good as their word: wherever equal arguments are asked, the answer is
the same.
-/

namespace Entailment

/-! ## Ground arguments -/

namespace Node

variable {ms ns : List Node}

theorem all_isGround_congr (h : (ms == ns) = true) : ms.all isGround = ns.all isGround := by
  rw [← sameAll_eq_beq, sameAll_iff_foldedAll] at h
  rw [← allGround_eq_all, ← allGround_eq_all, ← allGround_foldedAll ms, h, allGround_foldedAll]

end Node

/-! ## Builtins that bind several values, or act -/

namespace Builtin

open CallState

variable {like : CallContext → CallContext → Prop} {st st' : CallState}

/-- Equal targets are to be bound to the same ground value. -/
def SameBinding (a b : Node × Node) : Prop :=
  (a.1 == b.1) = true ∧ a.2 = b.2 ∧ a.2.isGround = true

theorem forall₂_zip {targets targets' values : List Node}
    (htargets : List.Forall₂ (fun m n => (m == n) = true) targets targets')
    (hvalues : ∀ n ∈ values, n.isGround = true) :
    List.Forall₂ SameBinding (targets.zip values) (targets'.zip values) := by
  induction htargets generalizing values with
  | nil => exact .nil
  | cons hfirst _ ih =>
      cases values with
      | nil => exact .nil
      | cons value values =>
          exact .cons ⟨hfirst, rfl, hvalues value List.mem_cons_self⟩
            (ih fun n hn => hvalues n (List.mem_cons_of_mem _ hn))

/-- Equal targets bound to the same ground values in order agree. -/
theorem agree_bindEach {pairs pairs' : List (Node × Node)}
    (h : List.Forall₂ SameBinding pairs pairs')
    (hlike : st.bindings.Alike st'.bindings) :
    Agree (bindEach pairs st) (bindEach pairs' st') ∧
      (bindEach pairs st).2.effects.removed = st.effects.removed := by
  induction h generalizing st st' with
  | nil => exact ⟨agree_test hlike rfl, rfl⟩
  | @cons a b pairs pairs' hfirst hrest ih =>
      obtain ⟨htarget, hvalue, hground⟩ := hfirst
      have hagree := agree_bind hlike htarget (beq_of_eq hvalue) hground
      have hremoved : (st.bind a.1 a.2).2.effects.removed = st.effects.removed :=
        removed_bind a.1 a.2
      unfold bindEach
      generalize st.bind a.1 a.2 = result at hagree hremoved ⊢
      generalize st'.bind b.1 b.2 = result' at hagree ⊢
      obtain ⟨answer, st₁⟩ := result
      obtain ⟨answer', st₁'⟩ := result'
      obtain ⟨hanswer, hbindings⟩ := hagree
      obtain rfl : answer = answer' := hanswer
      cases answer with
      | false => exact ⟨agree_false, hremoved⟩
      | true =>
          obtain ⟨hagree, hsame⟩ := ih (hbindings rfl)
          exact ⟨hagree, hsame.trans hremoved⟩

theorem respects_regexMatch : Procedure.Respects regexMatch.body like := by
  intro ctx ctx' args args' st st' _ hargs hlike
  have hall := list_beq_iff_forall₂.1 hargs
  match args, args', hall with
  | [], [], _ => exact ⟨agree_false, rfl⟩
  | [_], [_], _ => exact ⟨agree_false, rfl⟩
  | text :: pattern :: targets, text' :: pattern' :: targets', .cons htext (.cons hpattern hrest) =>
      simp only [regexMatch]
      rw [Node.lexical?_congr htext, Node.lexical?_congr hpattern, hrest.length_eq]
      split
      · split
        · exact agree_bindEach (forall₂_zip hrest fun n hn => by
            obtain ⟨i, _, rfl⟩ := List.mem_map.1 hn
            rfl) hlike
        · exact ⟨agree_false, rfl⟩
      · exact ⟨agree_false, rfl⟩

theorem respects_makeSkolem : Procedure.Respects makeSkolem.body like := by
  intro ctx ctx' args args' st st' _ hargs hlike
  have hall := list_beq_iff_forall₂.1 hargs
  match args, args', hall with
  | [], [], _ => exact ⟨agree_false, rfl⟩
  | target :: values, target' :: values', .cons htarget hvalues =>
      simp only [makeSkolem]
      have hsame := list_beq_iff_forall₂.2 hvalues
      rw [Node.skolem_congr hsame, Node.all_isGround_congr hsame]
      split
      · exact ⟨agree_bind hlike htarget BEq.rfl rfl, removed_bind _ _⟩
      · exact ⟨agree_false, rfl⟩

/-- A procedure whose answer depends on equal arguments alone, and that leaves bindings
and what is to be removed as they are. -/
theorem respects_of_answer {procedure : Procedure}
    (hanswer : ∀ ctx ctx' args args' st st', (args == args') = true →
      (procedure ctx args st).1 = (procedure ctx' args' st').1)
    (hstate : ∀ ctx args st, (procedure ctx args st).2.bindings = st.bindings ∧
      (procedure ctx args st).2.effects.removed = st.effects.removed) :
    procedure.Respects like := by
  intro ctx ctx' args args' st st' _ hargs hlike
  refine ⟨⟨hanswer _ _ _ _ _ _ hargs, fun _ => ?_⟩, (hstate ctx args st).2⟩
  rw [(hstate ctx args st).1, (hstate ctx' args' st').1]
  exact hlike

theorem respects_hidePredicate : Procedure.Respects hidePredicate.body like := by
  refine respects_of_answer ?_ ?_
  · intro ctx ctx' args args' st st' hargs
    have hall := list_beq_iff_forall₂.1 hargs
    cases hall with
    | nil => rfl
    | @cons _ predicate' _ _ hpredicate _ =>
        simp only [hidePredicate]
        rw [Node.isGround_congr hpredicate]
        cases predicate'.isGround <;> rfl
  · intro ctx args st
    cases args with
    | nil => exact ⟨rfl, rfl⟩
    | cons predicate _ =>
        simp only [hidePredicate, hide, effect]
        cases predicate.isGround <;> cases ctx.speculative <;> cases ctx.keepsEffects <;>
          exact ⟨rfl, rfl⟩

theorem respects_printLine : Procedure.Respects printLine.body like := by
  refine respects_of_answer (fun _ _ _ _ _ _ _ => rfl) fun ctx args st => ?_
  simp only [printLine]
  cases ctx.speculative <;> exact ⟨rfl, rfl⟩

/-! ## The standard builtins -/

/-- The names of the builtins whose answer can change although they do not say so, or
which draw fresh blank nodes. -/
def unsteady : List String :=
  ["now", "makeTemp", "listContains", "listNotContains", "listLength", "listEntry"]

/-- A standard builtin that says that its answer never changes respects likeness wherever
it is asked, unless it is unsteady. -/
theorem respects_of_monotonic (like : CallContext → CallContext → Prop) {b : Builtin}
    (hb : b ∈ standard) (hmonotonic : b.monotonic = true) (hname : b.name ∉ unsteady) :
    b.body.Respects like := by
  simp only [standard, List.mem_append] at hb
  rcases hb with ((((hb | hb) | hb) | hb) | hb) | hb
  · exact (impartial_comparisons b hb).1.respects
  · exact (impartial_arithmetics b hb).1.respects
  · exact (impartial_kindTests b hb).1.respects
  · simp only [texts, List.mem_cons, List.not_mem_nil, or_false] at hb
    rcases hb with rfl | rfl | rfl | rfl
    · exact respects_concatenation _ fun _ => rfl
    · exact respects_concatenation _ fun _ => rfl
    · exact respects_regexMatch
    · exact respects_textLength
  · simp only [chains, List.mem_cons, List.not_mem_nil, or_false] at hb
    rcases hb with rfl | rfl | rfl | rfl
    all_goals exact absurd (by decide) hname
  · simp only [actions, List.mem_cons, List.not_mem_nil, or_false] at hb
    rcases hb with rfl | rfl | rfl | rfl | rfl | rfl | rfl | rfl
    · cases hmonotonic
    · cases hmonotonic
    · cases hmonotonic
    · exact respects_hidePredicate
    · exact respects_printLine
    · exact absurd (by decide) hname
    · exact respects_makeSkolem
    · exact absurd (by decide) hname

theorem fair_of_monotonic {b : Builtin} (hb : b ∈ standard) (hmonotonic : b.monotonic = true)
    (hname : b.name ∉ unsteady) : b.Fair where
  keeps := keeps_body_of_mem_standard b hb
  alike := respects_of_monotonic _ hb hmonotonic hname
  anywhere _ := respects_of_monotonic _ hb hmonotonic hname

end Builtin

end Entailment
