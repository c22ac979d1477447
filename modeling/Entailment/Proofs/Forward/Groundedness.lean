import Entailment.Proofs.Forward.Foundation

/-!
# The check of support in every state

Wherever the supporters have their complete tokens in memory, the check of support ends,
over any base, and says yes exactly for the triples that have a proof: whatever is known
to be proven to begin with, and with or without a path to keep off and a memory of what
was found.  Between two pieces of work the supporters have their tokens.
-/

namespace Entailment

namespace Engine

variable {γ : Type} {e : Engine γ}

/-- The activation has a complete token, which spells the triples.  The token of a rule
without patterns spells nothing and is not stored. -/
def Completed (e : Engine γ) (a : Activation) (ts : List Triple) : Prop :=
  (∃ c, e.network.rule? a.rule = some c ∧ ts.length = c.levels) ∧
    ((e.memory a.rule).Spells (some a.token) ts ∨
      ts = [] ∧ (e.memory a.rule).node? a.token = none)

/-- Whatever holds up a triple has a complete token in memory. -/
def Supported (e : Engine γ) : Prop :=
  ∀ t, ∀ a ∈ e.supporters t, ∃ ts, e.Completed a ts

theorem Completed.matchedBy_eq {a : Activation} {ts : List Triple} (h : e.Completed a ts) :
    e.matchedBy a = ts := by
  obtain ⟨_, hspells | ⟨rfl, hnone⟩⟩ := h
  · exact hspells.triples_eq
  · exact TokenMemory.triples_of_none hnone

/-- What is in order between two pieces of work has its tokens. -/
theorem Orderly.supported {e : Engine MemoryGraph} (h : e.Orderly) : e.Supported := by
  intro t a ha
  obtain ⟨firing, hfiring, _⟩ := (h.backed t a).1 ha
  obtain ⟨c, hc, hlength, _⟩ := h.stocked.rule_of_firing hfiring
  refine ⟨e.matchedBy a, ⟨c, hc, hlength⟩, ?_⟩
  cases hnode : (e.memory a.rule).node? a.token with
  | none => exact Or.inr ⟨TokenMemory.triples_of_none hnode, rfl⟩
  | some token =>
    obtain ⟨ts, hts⟩ := (h.stocked.2 a.rule).rooted.exists_spells hnode
    rw [matchedBy, hts.triples_eq]
    exact Or.inl hts

variable [Graph γ]

/-- The triple has a finite proof. -/
inductive Provable (e : Engine γ) : Triple → Prop where
  | base {t : Triple} : Graph.contains e.base t = .ok true → Provable e t
  | committed {t : Triple} : e.committed.contains t = true → Provable e t
  | fired {t : Triple} {a : Activation} {ts : List Triple} :
      e.deductions.contains t = true → a ∈ e.supporters t → e.Completed a ts →
      (∀ m ∈ ts, Provable e m) → Provable e t

theorem Supported.proven_iff_provable (h : e.Supported) {t : Triple} :
    e.Proven t ↔ e.Provable t := by
  constructor
  · intro hproven
    induction hproven with
    | given hgiven => exact hgiven.elim .base .committed
    | step hinfers _ ih =>
      obtain ⟨hdeduced, a, ha, rfl⟩ := hinfers
      obtain ⟨ts, hts⟩ := h _ a ha
      rw [hts.matchedBy_eq] at ih
      exact .fired hdeduced ha hts ih
  · intro hprovable
    induction hprovable with
    | base hbase => exact .given (Or.inl hbase)
    | committed hcommitted => exact .given (Or.inr hcommitted)
    | fired hdeduced ha hts _ ih => exact .step ⟨hdeduced, _, ha, hts.matchedBy_eq⟩ ih

/-- The answer tells whether the triple has a proof; there is none only if the base has
refused an access. -/
def Decides (e : Engine γ) (t : Triple) (result : Except Failure Bool) : Prop :=
  (∃ answer, result = .ok answer ∧ (answer = true ↔ e.Provable t)) ∨
    ∃ cause, result = .error cause ∧ e.Refused cause

theorem decides_searchWithin (hsound : e.deductions.Sound) (hsupported : e.Supported)
    (t : Triple) {depth : Nat} (hdepth : e.deductions.size < depth) {known : List Triple}
    (hknown : ∀ u ∈ known, e.Inferred u) (cut remember : Bool) :
    e.Decides t ((e.searchWithin cut remember depth [] t).run' known) := by
  have hsearch := resolves_searchWithin hsound (fun _ hu => hu)
    (fun _ _ hu hsame => hu.proven hsame) cut remember depth [] t known hknown
  rcases hsearch with ⟨cause, hrun, hrefused⟩ | ⟨answer, known', hrun, _, hpost⟩
  · refine Or.inr ⟨cause, ?_, hrefused⟩
    rw [StateT.run', hrun]
    rfl
  · refine Or.inl ⟨answer, ?_, ?_⟩
    · rw [StateT.run', hrun]
      rfl
    · rw [← hsupported.proven_iff_provable]
      cases answer with
      | true => exact iff_of_true rfl hpost
      | false =>
        exact iff_of_false Bool.false_ne_true
          fun hproven => hpost (ample_nil hdepth) (provenOff_nil.2 hproven)

theorem Decides.eq_ok {t : Triple} {result : Except Failure Bool} (h : e.Decides t result)
    (hanswers : ∀ u, ∃ held, Graph.contains e.base u = .ok held) {answer : Bool}
    (hanswer : answer = true ↔ e.Provable t) : result = .ok answer := by
  rcases h with ⟨found, rfl, hfound⟩ | ⟨cause, _, u, error, hrefused, _⟩
  · rw [Bool.eq_iff_iff.2 (hfound.trans hanswer.symm)]
  · obtain ⟨held, hheld⟩ := hanswers u
    rw [hrefused] at hheld
    cases hheld

/-- The check of support ends with the right answer, unless the base refuses an access.  It
is the same search at every larger depth, and the answer is also that of the searches which
know some proofs already, do not keep off their path, or do not remember what they found. -/
theorem isGrounded_exact (hsound : e.deductions.Sound) (hsupported : e.Supported)
    (t : Triple) :
    e.Decides t (e.isGrounded t) ∧
    (∀ depth, e.deductions.size < depth →
      e.groundedWithin depth [] t = e.groundedWithin (e.deductions.size + 1) [] t) ∧
    (∀ depth known cut remember, e.deductions.size < depth → (∀ u ∈ known, e.Inferred u) →
      e.Decides t ((e.searchWithin cut remember depth [] t).run' known)) ∧
    ((∀ u, ∃ held, Graph.contains e.base u = .ok held) →
      ∃ answer, e.isGrounded t = .ok answer ∧ (answer = true ↔ e.Provable t) ∧
        ∀ depth known cut remember, e.deductions.size < depth → (∀ u ∈ known, e.Inferred u) →
          (e.searchWithin cut remember depth [] t).run' known = .ok answer) := by
  have hdecides : e.Decides t (e.isGrounded t) := by
    rw [isGrounded, ← searchWithin_true_true]
    exact decides_searchWithin hsound hsupported t (Nat.lt_succ_self _) (List.forall_mem_nil _) ..
  refine ⟨hdecides, fun depth hdepth => ?_, fun depth known cut remember hdepth hknown =>
    decides_searchWithin hsound hsupported t hdepth hknown cut remember, fun hanswers => ?_⟩
  · rw [groundedWithin_eq_of_le hsound (ample_nil (Nat.lt_succ_self _)) hdepth]
  · classical
    have hanswer := decide_eq_true_iff (p := e.Provable t)
    exact ⟨_, hdecides.eq_ok hanswers hanswer, hanswer,
      fun depth known cut remember hdepth hknown =>
        (decides_searchWithin hsound hsupported t hdepth hknown cut remember).eq_ok hanswers
          hanswer⟩

/-! ## Two links that conclude each other -/

theorem orderly_mirror : mirror.Orderly := by
  obtain ⟨hwired, _, _⟩ := Network.compile_eq_ok compile_mirroring
  have hplain : mirrorNetwork.Plain := by
    apply Network.plain_of_all
    decide +kernel
  have htame : mirrorNetwork.Tame := by
    refine Network.tame_of_standard compile_mirroring fun rule hrule call hcall => ?_
    obtain rfl := List.mem_singleton.1 hrule
    cases List.mem_singleton.1 hcall
  have hsteady := (reached_mirror.resting hwired hplain htame).steady
  exact hsteady.consistent.orderly hsteady.backed

/-- The base is emptied behind the engine's back. -/
def unlinked : Engine MemoryGraph := { mirror with base := MemoryGraph.empty }

/-- Over the base the backlink has a proof.  Over an empty one it has none, although each
link still holds up the other. -/
theorem isGrounded_exact_mirror :
    mirror.deductions.Sound ∧ mirror.Supported ∧ mirror.Provable backlink ∧
      ¬ unlinked.Provable backlink := by
  have hsound := orderly_mirror.deductions
  have hsupported := orderly_mirror.supported
  refine ⟨hsound, hsupported, ?_, ?_⟩
  · obtain ⟨_, _, _, hanswers⟩ := isGrounded_exact hsound hsupported backlink
    obtain ⟨answer, hrun, hanswer, _⟩ := hanswers fun u => ⟨_, rfl⟩
    have htrue : (mirror.isGrounded backlink).toOption = some true := by decide +kernel
    rw [hrun] at htrue
    exact hanswer.1 (Option.some.inj htrue)
  · obtain ⟨_, _, _, hanswers⟩ := isGrounded_exact (e := unlinked) hsound hsupported backlink
    obtain ⟨answer, hrun, hanswer, _⟩ := hanswers fun u => ⟨_, rfl⟩
    have hfalse : (unlinked.isGrounded backlink).toOption = some false := by decide +kernel
    rw [hrun] at hfalse
    rw [← hanswer, Option.some.inj hfalse]
    exact Bool.false_ne_true

end Engine

end Entailment
