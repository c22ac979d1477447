import Entailment.Proofs.Forward.ProofSearch

/-!
# The check of support is exact

A suspect is looked up through its supporters.  Over a memory graph the search says yes
exactly for what rests on the base and on committed conclusions, so that the check of a
suspect withdraws exactly what does not.
-/

namespace Entailment

/-- The search does not fail, it remembers only what is good, and its answer meets the
postcondition. -/
def Answers (search : StateT (List Triple) (Except Failure) Bool) (good : Triple → Prop)
    (post : Bool → Prop) : Prop :=
  ∀ known : List Triple, (∀ t ∈ known, good t) →
    ∃ answer known', search known = .ok (answer, known') ∧ (∀ t ∈ known', good t) ∧ post answer

namespace Engine

/-- The triple rests on the base and on committed conclusions. -/
def Given (e : Engine MemoryGraph) (t : Triple) : Prop :=
  e.base.contains t = true ∨ e.committed.contains t = true

/-- A deduction is held up by an activation that has matched the triples. -/
def Draws (e : Engine MemoryGraph) (ts : List Triple) (t : Triple) : Prop :=
  e.deductions.contains t = true ∧ e.Props ts t

def Grounded (e : Engine MemoryGraph) : Triple → Prop := Rests e.Given e.Draws

/-- The same without passing through the path. -/
def GroundedOff (e : Engine MemoryGraph) (path : List Triple) : Triple → Prop :=
  Rests e.Given fun ts t => e.Draws ts t ∧ path.any (· == t) = false

variable {e : Engine MemoryGraph}

theorem Draws.congr {ts : List Triple} {t u : Triple} (h : e.Draws ts t)
    (hsame : (t == u) = true) : e.Draws ts u :=
  Infers.congr h hsame

theorem Given.congr {t u : Triple} (h : e.Given t) (hsame : (t == u) = true) : e.Given u := by
  unfold Given at h ⊢
  rwa [← e.base.contains_congr hsame, ← e.committed.contains_congr hsame]

theorem Grounded.congr {t u : Triple} (h : e.Grounded t) (hsame : (t == u) = true) :
    e.Grounded u := by
  cases h with
  | given hgiven => exact .given (hgiven.congr hsame)
  | step hstep hparts => exact .step (hstep.congr hsame) hparts

theorem groundedOff_nil {t : Triple} : e.GroundedOff [] t ↔ e.Grounded t := by
  constructor
  · intro h
    exact h.transfer (fun _ => .given) fun ts t hstep => Or.inr ⟨ts, hstep.1, fun m hm => hm⟩
  · intro h
    exact h.transfer (fun _ => .given) fun ts t hstep =>
      Or.inr ⟨ts, ⟨hstep, rfl⟩, fun m hm => hm⟩

theorem evident_iff {t : Triple} : e.Evident t ↔ e.Given t := by
  change (Except.ok (e.base.contains t) : Except GraphError Bool) = .ok true ∨ _ ↔ _
  rw [Except.ok.injEq]
  rfl

theorem proven_iff {t : Triple} : e.Proven t ↔ e.Grounded t :=
  ⟨fun h => h.transfer (fun _ hgiven => .given (evident_iff.1 hgiven))
      fun ts _ hstep => Or.inr ⟨ts, hstep, fun _ hm => hm⟩,
    fun h => h.transfer (fun _ hgiven => .given (evident_iff.2 hgiven))
      fun ts _ hstep => Or.inr ⟨ts, hstep, fun _ hm => hm⟩⟩

theorem GroundedOff.provenOff {path : List Triple} {t : Triple} (h : e.GroundedOff path t) :
    e.ProvenOff path t :=
  h.transfer (fun _ hgiven => .given (evident_iff.2 hgiven))
    fun ts _ hstep => Or.inr ⟨ts, hstep, fun _ hm => hm⟩

/-- A memory graph refuses no question, and does not tell equal triples apart. -/
theorem answers_groundedWithin (hsound : e.deductions.Sound) (depth : Nat) {path : List Triple}
    (hdistinct : Distinct path) (hpath : ∀ t ∈ path, e.deductions.contains t = true)
    (hdepth : e.deductions.size < depth + path.length) (t : Triple) :
    Answers (e.groundedWithin depth path t) e.Grounded fun answer =>
      if answer = true then e.Grounded t else ¬ e.GroundedOff path t := by
  intro known hknown
  have hlearn : ∀ u, e.Inferred u → e.Grounded u :=
    fun u hu => proven_iff.1 (hu.proven BEq.rfl)
  have hgood : ∀ u t, e.Grounded u → (u == t) = true → e.Proven t :=
    fun u t hu hsame => proven_iff.2 (hu.congr hsame)
  have hsearch := resolves_searchWithin hsound hlearn hgood true true depth path t known hknown
  rw [searchWithin_true_true] at hsearch
  rcases hsearch with ⟨_, _, _, _, hrefused, _⟩ | ⟨answer, known', hrun, hknown', hpost⟩
  · cases hrefused
  · refine ⟨answer, known', hrun, hknown', ?_⟩
    cases answer with
    | true => exact proven_iff.1 hpost
    | false => exact fun hoff => hpost ⟨hdistinct, hpath, hdepth⟩ hoff.provenOff

/-- The check of support says yes exactly for what is grounded. -/
theorem exists_isGrounded (hsound : e.deductions.Sound) (t : Triple) :
    ∃ answer, e.isGrounded t = .ok answer ∧ (answer = true ↔ e.Grounded t) := by
  have hsearch := answers_groundedWithin hsound (e.deductions.size + 1)
    (List.Pairwise.nil : Distinct []) (fun u hu => nomatch hu) (by simp) t
  obtain ⟨answer, known, hrun, _, hpost⟩ := hsearch [] fun u hu => nomatch hu
  refine ⟨answer, ?_, ?_⟩
  · rw [isGrounded, StateT.run', hrun]
    rfl
  · cases answer with
    | true => exact ⟨fun _ => hpost, fun _ => rfl⟩
    | false =>
        constructor
        · intro h
          cases h
        · exact fun h => absurd (groundedOff_nil.2 h) hpost

end Engine

namespace Engine

variable {e e' : Engine MemoryGraph} {gone : Nat → Triple → Prop}

theorem Accounted.congr {t u : Triple} (h : e.Accounted t) (hsame : (t == u) = true) :
    e.Accounted u := by
  cases h with
  | given hexcused => exact .given (hexcused.congr hsame)
  | step hstep hparts =>
      obtain ⟨a, ha, hmatched⟩ := hstep
      refine .step ⟨a, ?_, hmatched⟩ hparts
      rw [← e.supporters_congr hsame]
      exact ha

theorem Grounded.accounted {t : Triple} (h : e.Grounded t) : e.Accounted t := by
  refine Rests.transfer ?_ ?_ h
  · rintro u (hbase | hcommitted)
    · exact .given (Or.inl hbase)
    · exact .given (Or.inr (Or.inl hcommitted))
  · exact fun ts u hstep => Or.inr ⟨ts, hstep.2, fun m hm => hm⟩

/-- A suspect that is accounted for otherwise need not be one. -/
theorem Consistent.acquit (h : e.Consistent gone) {t : Triple} {suspects : OrderedSet Triple}
    (hpop : e.suspects.pop? = some (t, suspects))
    (ht : Accounted { e with suspects } t) : Consistent { e with suspects } gone where
  wired := h.wired
  plain := h.plain
  base := h.base
  deductions := h.deductions
  stocked := h.stocked
  covered := h.covered
  accounted u := by
    refine (h.accounted u).transfer ?_ fun ts v hstep => Or.inr ⟨ts, hstep, fun m hm => hm⟩
    rintro v (hbase | hcommitted | hsuspect | habsent)
    · exact .given (Or.inl hbase)
    · exact .given (Or.inr (Or.inl hcommitted))
    · rw [OrderedSet.contains_of_pop? hpop, Bool.or_eq_true] at hsuspect
      rcases hsuspect with hrest | hsame
      · exact .given (Or.inr (Or.inr (Or.inl hrest)))
      · exact ht.congr hsame
    · exact .given (Or.inr (Or.inr (Or.inr habsent)))

/-- What the check of a suspect comes to: it stays, or it is withdrawn for want of a
proof. -/
def Reviewed (e e' : Engine MemoryGraph) (t : Triple) : Prop :=
  (e' = { e with stats := e'.stats } ∧
    (e.Grounded t ∨ e.deductions.contains t = false)) ∨
  (e' = { e.withdrawn t with stats := e'.stats } ∧ e.deductions.contains t = true ∧
    e.base.contains t = false ∧ ¬ e.Grounded t)

/-- The last suspect has been checked, and all the others are still to be. -/
theorem Reviewed.consistent (h : e.Consistent gone) {t : Triple} {suspects : OrderedSet Triple}
    (hpop : e.suspects.pop? = some (t, suspects))
    (hreviewed : Reviewed { e with suspects } e' t) : e'.Consistent gone := by
  rcases hreviewed with ⟨hframe, hcause⟩ | ⟨hframe, _⟩
  · have hacquit : Consistent { e with suspects } gone := by
      apply h.acquit hpop
      rcases hcause with hgrounded | habsent
      · exact hgrounded.accounted
      · exact .given (Or.inr (Or.inr (Or.inr habsent)))
    apply hacquit.of_agree
    rw [hframe]
  · have hwithdrawn := (h.recedes (recedes_withdrawn h.deductions t)).acquit
      (e := e.withdrawn t) hpop (.given (Or.inr (Or.inr (Or.inr (by
        change (e.deductions.minus t).contains t = false
        rw [h.deductions.contains_minus, BEq.rfl]
        simp)))))
    apply hwithdrawn.of_agree
    rw [hframe]
    rfl

theorem Reviewed.backed (hbacked : e.Backed) {t : Triple} (hreviewed : e.Reviewed e' t) :
    e'.Backed := by
  rcases hreviewed with ⟨hframe, _⟩ | ⟨hframe, _⟩
  · rw [hframe]
    exact hbacked
  · rw [hframe]
    exact hbacked

end Engine

namespace Work

theorem ends_checkSupport {e : Engine MemoryGraph} (hsound : e.deductions.Sound) (t : Triple) :
    (checkSupport t).Ends e fun _ e' => e.Reviewed e' t := by
  unfold checkSupport
  rw [ends_bind, ends_get]
  by_cases hcommitted : e.committed.contains t = true
  · rw [if_pos hcommitted]
    exact Or.inl ⟨rfl, Or.inl (.given (Or.inr hcommitted))⟩
  · rw [if_neg hcommitted]
    rw [ends_bind, ends_inBase]
    by_cases hbase : e.base.contains t = true
    · rw [if_pos hbase]
      exact Or.inl ⟨rfl, Or.inl (.given (Or.inl hbase))⟩
    · rw [if_neg hbase]
      rw [ends_bind, ends_get]
      by_cases hdeduced : e.deductions.contains t = true
      · simp only [hdeduced, Bool.not_true, Bool.false_eq_true, if_false, ends_bind, ends_count,
          ends_get]
        obtain ⟨answer, hanswer, hiff⟩ := Engine.exists_isGrounded
          (e := { e with stats := { e.stats with supportChecks := e.stats.supportChecks + 1 } })
          hsound t
        rw [hanswer, ends_attempt]
        cases answer with
        | true =>
            simp only [if_true, ends_pure]
            exact Or.inl ⟨rfl, Or.inl (hiff.1 rfl)⟩
        | false =>
            simp only [Bool.false_eq_true, if_false, ends_bind, ends_count]
            refine (ends_withdraw (e := { e with stats := { e.stats with
              supportChecks := e.stats.supportChecks + 1
              unfounded := e.stats.unfounded + 1 } }) hsound t).mono ?_
            rintro _ _ rfl
            refine Or.inr ⟨rfl, hdeduced, Bool.eq_false_iff.2 hbase, fun hgrounded => ?_⟩
            cases hiff.2 hgrounded
      · rw [Bool.not_eq_true] at hdeduced
        simp only [hdeduced, Bool.not_false, if_true, ends_pure]
        exact Or.inl ⟨rfl, Or.inr hdeduced⟩

end Work

end Entailment
