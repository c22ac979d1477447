import Entailment.Term.Triple

/-!
# Equal terms

Terms are equal when their folded forms are.  What the engine asks of a node or a
triple besides its equality, being ground, a functor or nested, has the same answer
for equal ones.
-/

namespace Entailment

namespace Node

theorem beq_eq_same (m n : Node) : (m == n) = m.same n := rfl

theorem beq_iff_folded {m n : Node} : (m == n) = true ↔ m.folded = n.folded :=
  same_iff_folded m n

theorem sameAll_eq_beq (as bs : List Node) : sameAll as bs = (as == bs) := by
  induction as generalizing bs with
  | nil => cases bs <;> rfl
  | cons a as ih =>
    cases bs with
    | nil => rfl
    | cons b bs =>
      rw [sameAll, ih]
      rfl

theorem functor_beq (f g : String) (as bs : List Node) :
    (Node.functor f as == Node.functor g bs) = (f == g && as == bs) := by
  rw [beq_eq_same, same, sameAll_eq_beq]

mutual
theorem isGround_folded (n : Node) : n.folded.isGround = n.isGround := by
  cases n with
  | functor f args => simp [folded, isGround, allGround_foldedAll args]
  | _ => rfl

theorem allGround_foldedAll (as : List Node) : allGround (foldedAll as) = allGround as := by
  match as with
  | [] => rfl
  | a :: as => simp [foldedAll, allGround, isGround_folded a, allGround_foldedAll as]
end

theorem isGround_congr {m n : Node} (h : (m == n) = true) : m.isGround = n.isGround := by
  rw [← isGround_folded m, beq_iff_folded.1 h, isGround_folded]

theorem isFunctor_folded (n : Node) : n.folded.isFunctor = n.isFunctor := by
  cases n <;> rfl

theorem isFunctor_congr {m n : Node} (h : (m == n) = true) : m.isFunctor = n.isFunctor := by
  rw [← isFunctor_folded m, beq_iff_folded.1 h, isFunctor_folded]

theorem any_isFunctor_foldedAll (as : List Node) :
    (foldedAll as).any isFunctor = as.any isFunctor := by
  induction as with
  | nil => rfl
  | cons a as ih => rw [foldedAll, List.any_cons, List.any_cons, ih, isFunctor_folded]

theorem isNested_folded (n : Node) : n.folded.isNested = n.isNested := by
  cases n with
  | functor f args => exact any_isFunctor_foldedAll args
  | _ => rfl

theorem isNested_congr {m n : Node} (h : (m == n) = true) : m.isNested = n.isNested := by
  rw [← isNested_folded m, beq_iff_folded.1 h, isNested_folded]

end Node

namespace Triple

def folded (t : Triple) : Triple := t.map Node.folded

theorem beq_iff_folded {t u : Triple} : (t == u) = true ↔ t.folded = u.folded := by
  rw [beq_iff, Node.beq_iff_folded, Node.beq_iff_folded, Node.beq_iff_folded]
  simp [folded, map]

theorem isGround_congr {t u : Triple} (h : (t == u) = true) : t.isGround = u.isGround := by
  obtain ⟨hs, hp, ho⟩ := beq_iff.1 h
  rw [isGround, isGround, Node.isGround_congr hs, Node.isGround_congr hp,
    Node.isGround_congr ho]

theorem beq_mk (s p o s' p' o' : Node) :
    ((⟨s, p, o⟩ : Triple) == ⟨s', p', o'⟩) = (s == s' && p == p' && o == o') := rfl

end Triple

theorem list_beq_iff_map_folded {ts us : List Triple} :
    (ts == us) = true ↔ ts.map Triple.folded = us.map Triple.folded := by
  induction ts generalizing us with
  | nil => cases us <;> simp
  | cons t ts ih =>
      cases us with
      | nil => simp
      | cons u us =>
          rw [List.map_cons, List.map_cons, List.cons.injEq, ← Triple.beq_iff_folded, ← ih]
          exact Bool.and_eq_true_iff

end Entailment
