import Entailment.Graph.Basic
import Entailment.Proofs.Matching.Ground

/-!
# Resolving in ground environments

In an environment that holds ground nodes alone a variable resolves to the node in its
slot, unless that is a functor inside a functor.  Replacing the variables of a pattern
by what they resolve to keeps what fits it, so that a search for the partly completed
pattern finds every fact that the environment can match with it.
-/

namespace Entailment

theorem forall₂_of_mapM {α β : Type} {f : α → Option β} {as : List α} {bs : List β}
    (h : as.mapM f = some bs) : List.Forall₂ (fun a b => f a = some b) as bs := by
  induction as generalizing bs with
  | nil =>
      cases h
      exact .nil
  | cons a as ih =>
      rw [List.mapM_cons] at h
      obtain ⟨b, hb, h⟩ := Option.bind_eq_some_iff.1 h
      obtain ⟨rest, hrest, h⟩ := Option.bind_eq_some_iff.1 h
      cases h
      exact .cons hb (ih hrest)

namespace Bindings

variable {b : Bindings}

theorem resolveArg_of_ground {n : Node} (h : n.isGround = true) :
    b.resolveArg n = if n.isFunctor = true then none else some n := by
  cases n with
  | var v => cases h
  | any => cases h
  | functor f args => rfl
  | _ => rfl

theorem mapM_resolveArg_of_ground {ns : List Node} (h : Node.allGround ns = true) :
    ns.mapM b.resolveArg = if ns.any Node.isFunctor = true then none else some ns := by
  induction ns with
  | nil => rfl
  | cons n ns ih =>
      rw [Node.allGround, Bool.and_eq_true] at h
      rw [List.mapM_cons, resolveArg_of_ground h.1, ih h.2, List.any_cons]
      cases n.isFunctor with
      | true => rfl
      | false =>
          cases ns.any Node.isFunctor with
          | true => rfl
          | false => rfl

theorem resolveTerm_of_ground {n : Node} (h : n.isGround = true) :
    b.resolveTerm n = if n.isNested = true then none else some n := by
  cases n with
  | var v => cases h
  | any => cases h
  | functor f args =>
      rw [resolveTerm, mapM_resolveArg_of_ground h]
      change Option.map _ (if args.any Node.isFunctor = true then none else some args) =
        if args.any Node.isFunctor = true then none else some (Node.functor f args)
      cases args.any Node.isFunctor <;> rfl
  | _ => rfl

/-! ## Values are flat -/

theorem isFunctor_of_resolveArg {m n : Node} (h : b.resolveArg m = some n) :
    n.isFunctor = false := by
  cases m with
  | var v =>
      rw [resolveArg] at h
      split at h
      · split at h
        · cases h
        · rename_i hfunctor
          cases h
          exact Bool.eq_false_iff.2 hfunctor
      · cases h
  | any => cases h
  | functor f args => cases h
  | _ =>
      cases h
      rfl

theorem any_isFunctor_of_resolveArgs {ms ns : List Node} (h : ms.mapM b.resolveArg = some ns) :
    ns.any Node.isFunctor = false := by
  refine List.any_eq_false.2 fun n hn => Bool.eq_false_iff.1 ?_
  obtain ⟨m, _, hm⟩ := exists_mem_of_forall₂ (forall₂_of_mapM h) hn
  exact isFunctor_of_resolveArg hm

theorem isNested_of_resolveTerm {m n : Node} (h : b.resolveTerm m = some n) :
    n.isNested = false := by
  cases m with
  | var v => cases h
  | any => cases h
  | functor f args =>
      obtain ⟨ns, hns, rfl⟩ := Option.map_eq_some_iff.1 h
      exact any_isFunctor_of_resolveArgs hns
  | _ =>
      cases h
      rfl

theorem isNested_of_resolve {m n : Node} (h : b.resolve m = some n) : n.isNested = false := by
  unfold resolve at h
  split at h
  · split at h
    · exact isNested_of_resolveTerm h
    · cases h
  · exact isNested_of_resolveTerm h

/-- What is no functor is resolved to from nothing else. -/
theorem isFunctor_of_resolveTerm {m n : Node} (h : b.resolveTerm m = some n) :
    n.isFunctor = m.isFunctor := by
  cases m with
  | var v => cases h
  | any => cases h
  | functor f args =>
      obtain ⟨ns, _, rfl⟩ := Option.map_eq_some_iff.1 h
      rfl
  | _ =>
      cases h
      rfl

/-! ## Environments without aliases -/

/-- A variable resolves to what its slot holds, unless that is nested. -/
theorem Ground.resolve_var (hb : b.Ground) (v : Var) :
    b.resolve (.var v) = (b.held? v.index).bind fun n => if n.isNested = true then none else some n := by
  rw [resolve, hb.deref_eq]
  cases hheld : b.held? v.index with
  | some n => exact resolveTerm_of_ground (hb.isGround hheld)
  | none =>
      simp only
      split
      · rename_i h
        split at h
        · cases h
        · cases h
      · rfl

theorem Ground.value_eq (hb : b.Ground) (i : Nat) :
    b.value i = (b.held? i).bind fun n => if n.isNested = true then none else some n :=
  hb.resolve_var ⟨"", i⟩

variable {σ : Assignment}

/-- Replacing a variable by its value keeps what fits. -/
theorem Ground.fits_valueOrSelf (hb : b.Ground) (hσ : b.Admits σ) {v : Var} {n : Node}
    (h : (Node.var v).Fits σ n) : (b.valueOrSelf v).Fits σ n := by
  rw [valueOrSelf, hb.resolve_var]
  cases hheld : b.held? v.index with
  | none => exact h
  | some m =>
      have hm := hb.isGround hheld
      rw [Option.bind_some]
      split
      · exact h
      · rw [Option.getD_some, Node.fits_iff_beq hm]
        exact BEq.trans (BEq.symm (hσ v.index m hheld)) h

mutual
theorem Ground.fits_partialNode (hb : b.Ground) (hσ : b.Admits σ) {p n : Node}
    (h : p.Fits σ n) : (p.subst b.valueOrSelf).Fits σ n := by
  cases p with
  | var v => exact hb.fits_valueOrSelf hσ h
  | functor f ps =>
      cases n with
      | functor g ns => exact ⟨h.1, Ground.allFit_subst hb hσ h.2⟩
      | _ => cases h
  | _ => exact h

theorem Ground.allFit_subst (hb : b.Ground) (hσ : b.Admits σ) {ps ns : List Node}
    (h : Node.AllFit σ ps ns) : Node.AllFit σ (Node.substAll b.valueOrSelf ps) ns := by
  match ps, ns with
  | [], [] => trivial
  | p :: ps, n :: ns =>
      exact ⟨Ground.fits_partialNode hb hσ h.1, Ground.allFit_subst hb hσ h.2⟩
  | [], _ :: _ => cases h
  | _ :: _, [] => cases h
end

theorem allows_fixing {p n : Node} (h : p.Fits σ n) :
    TriplePattern.allows (TriplePattern.fixing p) n = true := by
  unfold TriplePattern.fixing
  split
  · rename_i hground
    exact (Node.fits_iff_beq hground).1 h
  · rfl

/-- The partly completed pattern accepts every fact that can be matched. -/
theorem Ground.accepts_partialInstantiate (hb : b.Ground) (hσ : b.Admits σ) {p t : Triple}
    (h : p.Fits σ t) : (TriplePattern.ofTriple (b.partialInstantiate p)).accepts t = true := by
  rw [TriplePattern.accepts, Bool.and_eq_true, Bool.and_eq_true]
  refine ⟨⟨?_, ?_⟩, ?_⟩
  · exact allows_fixing (hb.fits_partialNode hσ h.subject)
  · exact allows_fixing (hb.fits_partialNode hσ h.predicate)
  · exact allows_fixing (hb.fits_partialNode hσ h.object)

theorem Matched.lt_length {b' : Bindings} {p t : Triple} (h : b.Matched p t b') :
    ∀ i ∈ p.indexes, i < b.length := by
  intro i hi
  obtain ⟨n, hn⟩ := h.covers i hi
  rw [← h.length_eq]
  exact lt_length_of_held? hn

/-- Equal facts are matched alike. -/
theorem Ground.exists_matching?_congr (hb : b.Ground) {b' : Bindings} {p t u : Triple}
    (ht : t.isGround = true) (hsame : (t == u) = true) (h : b.matching? p t = some b') :
    ∃ b'', b.matching? p u = some b'' := by
  have hmatched := hb.matched ht h
  obtain ⟨hadmits, hfits⟩ := (hmatched.admits_iff _).1 b'.admits_assignment
  have hu : u.isGround = true := by rw [← Triple.isGround_congr hsame]; exact ht
  exact hb.exists_matching? hu hmatched.lt_length hadmits (hfits.congr (fun _ _ => BEq.rfl) hsame)

end Bindings

end Entailment
