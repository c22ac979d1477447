import Entailment.Proofs.Rule.Instance
import Mathlib.Order.Bounds.Defs

/-!
# What follows from rules

A rule applies under an assignment when the triples of its body are there and its calls
pass.  The consequences of stored triples are all triples that have a proof of some
height.  They are the least set that holds the stored triples and is closed under the
rules.
-/

namespace Entailment

/-- The call asks a test, and its arguments pass it. -/
def Call.Passes (c : Call) (registry : Registry) (b : Bindings) : Prop :=
  ∃ name arity test, registry.get? c.name = some (.ofTest name arity test) ∧
    test (c.resolvedArgs b) = true

section Tests

variable {c : Call} {registry : Registry} {name : String} {arity : Nat} {test : List Node → Bool}

/-- Asking a test changes nothing. -/
theorem Call.holds_of_test (hget : registry.get? c.name = some (.ofTest name arity test))
    (ctx : CallContext) (st : CallState) :
    c.holds registry ctx st = (test (c.resolvedArgs st.bindings), st) := by
  unfold holds
  rw [hget]
  rfl

theorem Call.passes_iff (hget : registry.get? c.name = some (.ofTest name arity test))
    (b : Bindings) : c.Passes registry b ↔ test (c.resolvedArgs b) = true := by
  refine ⟨?_, fun h => ⟨name, arity, test, hget, h⟩⟩
  rintro ⟨name', arity', test', hget', hpasses⟩
  -- What a test answers can be read off from running it anywhere.
  have hone := c.holds_of_test hget ⟨fun _ => [], fun _ => false, [], "", false, false⟩ { bindings := b }
  have hother := c.holds_of_test hget' ⟨fun _ => [], fun _ => false, [], "", false, false⟩ { bindings := b }
  rw [hone] at hother
  exact (congrArg Prod.fst hother).trans hpasses

/-- The call is to a test. -/
def Call.IsTest (c : Call) (registry : Registry) : Prop :=
  ∃ name arity test, registry.get? c.name = some (.ofTest name arity test)

/-- Asking tests one after the other changes nothing, and asks whether all of them pass. -/
theorem allHold_tests {calls : List Call} (h : ∀ c ∈ calls, c.IsTest registry) (ctx : CallContext)
    (st : CallState) :
    (allHold (fun call st => call.holds registry ctx st) calls st).2 = st ∧
      ((allHold (fun call st => call.holds registry ctx st) calls st).1 = true ↔
        ∀ c ∈ calls, c.Passes registry st.bindings) := by
  induction calls with
  | nil => exact ⟨rfl, fun _ _ hc => absurd hc List.not_mem_nil, fun _ => rfl⟩
  | cons c calls ih =>
      obtain ⟨name, arity, test, hget⟩ := h c List.mem_cons_self
      obtain ⟨hstate, hanswer⟩ := ih fun d hd => h d (List.mem_cons_of_mem _ hd)
      rw [List.forall_mem_cons, Call.passes_iff hget, allHold, Call.holds_of_test hget]
      cases htest : test (c.resolvedArgs st.bindings) with
      | false => exact ⟨rfl, fun h => absurd h Bool.false_ne_true, fun h => absurd h.1 Bool.false_ne_true⟩
      | true => exact ⟨hstate, hanswer.trans (and_iff_right rfl).symm⟩

end Tests

/-- Where all calls are to tests, they hold when all of them pass. -/
theorem Rule.callsHold_iff_passes {r : Rule} {registry : Registry}
    (h : ∀ c, Clause.call c ∈ r.body → c.IsTest registry) (v : View MemoryGraph) (b : Bindings) :
    r.CallsHold registry v b ↔ ∀ c, Clause.call c ∈ r.body → c.Passes registry b := by
  have hcalls : ∀ c ∈ r.calls.map Prod.snd, c.IsTest registry :=
    fun c hc => h c (Rule.mem_calls_iff.1 hc)
  have htests := (allHold_tests hcalls (.ofView v r.label [] false) { bindings := b }).2
  refine htests.trans ?_
  exact forall_congr' fun c => by rw [Rule.mem_calls_iff]

/-- The instance of the rule has its body in the set, and its calls pass. -/
structure Rule.Applies (r : Rule) (registry : Registry) (S : Set Triple) (σ : Assignment) :
    Prop where
  patterns : ∀ p, Clause.pattern p ∈ r.body → ∃ t ∈ S, p.Fits σ t
  calls : ∀ c, Clause.call c ∈ r.body → c.Passes registry (r.environment σ)

theorem Rule.Applies.mono {r : Rule} {registry : Registry} {S S' : Set Triple} {σ : Assignment}
    (h : r.Applies registry S σ) (hsub : S ⊆ S') : r.Applies registry S' σ where
  patterns p hp := by
    obtain ⟨t, ht, hfits⟩ := h.patterns p hp
    exact ⟨t, hsub ht, hfits⟩
  calls := h.calls

/-- What a rule concludes from a set of triples. -/
def Rule.conclusions (r : Rule) (registry : Registry) (S : Set Triple) : Set Triple :=
  {t | ∃ σ, r.Applies registry S σ ∧ ∃ h, Clause.pattern h ∈ r.head ∧ h.Fits σ t}

theorem Rule.conclusions_mono {r : Rule} {registry : Registry} {S S' : Set Triple} (h : S ⊆ S') :
    r.conclusions registry S ⊆ r.conclusions registry S' :=
  fun _ ⟨σ, happlies, hhead⟩ => ⟨σ, happlies.mono h, hhead⟩

/-- The set holds the stored triples and whatever the rules conclude from it. -/
structure Model (rules : List Rule) (registry : Registry) (stored S : Set Triple) : Prop where
  stored_subset : stored ⊆ S
  closed : ∀ r ∈ rules, ∀ σ, r.Applies registry S σ →
    ∀ h, Clause.pattern h ∈ r.head → ∀ t, h.Fits σ t → t ∈ S

section Heights

variable (rules : List Rule) (registry : Registry) (stored : Set Triple)

/-- The triples that have a proof of at most the given height. -/
def derivable : Nat → Set Triple
  | 0 => stored
  | height + 1 => {t | t ∈ stored ∨ ∃ r ∈ rules, t ∈ r.conclusions registry (derivable height)}

def consequences : Set Triple := {t | ∃ height, t ∈ derivable rules registry stored height}

variable {rules registry stored}

theorem derivable_succ (height : Nat) :
    derivable rules registry stored height ⊆ derivable rules registry stored (height + 1) := by
  induction height with
  | zero => exact fun t ht => Or.inl ht
  | succ height ih =>
      rintro t (ht | ⟨r, hr, ht⟩)
      · exact Or.inl ht
      · exact Or.inr ⟨r, hr, Rule.conclusions_mono ih ht⟩

theorem derivable_mono {height height' : Nat} (h : height ≤ height') :
    derivable rules registry stored height ⊆ derivable rules registry stored height' := by
  induction h with
  | refl => exact fun _ ht => ht
  | step _ ih => exact fun _ ht => derivable_succ _ (ih ht)

/-- The triples of a body have proofs of one height. -/
theorem exists_height {σ : Assignment} {ps : List Triple}
    (h : ∀ p ∈ ps, ∃ t ∈ consequences rules registry stored, p.Fits σ t) :
    ∃ height, ∀ p ∈ ps, ∃ t ∈ derivable rules registry stored height, p.Fits σ t := by
  induction ps with
  | nil => exact ⟨0, fun _ hp => nomatch hp⟩
  | cons p ps ih =>
      obtain ⟨height, hrest⟩ := ih fun q hq => h q (List.mem_cons_of_mem _ hq)
      obtain ⟨t, ⟨height', ht⟩, hfits⟩ := h p List.mem_cons_self
      refine ⟨max height height', fun q hq => ?_⟩
      rcases List.mem_cons.1 hq with rfl | hq
      · exact ⟨t, derivable_mono (Nat.le_max_right _ _) ht, hfits⟩
      · obtain ⟨u, hu, hfits'⟩ := hrest q hq
        exact ⟨u, derivable_mono (Nat.le_max_left _ _) hu, hfits'⟩

theorem model_consequences :
    Model rules registry stored (consequences rules registry stored) where
  stored_subset t ht := ⟨0, ht⟩
  closed r hr σ happlies h hh t hfits := by
    have hbody : ∀ p ∈ r.body.filterMap Clause.pattern?,
        ∃ t ∈ consequences rules registry stored, p.Fits σ t :=
      fun p hp => happlies.patterns p (Rule.mem_filterMap_pattern?_iff.1 hp)
    obtain ⟨height, hpatterns⟩ := exists_height hbody
    refine ⟨height + 1, Or.inr ⟨r, hr, σ, ⟨fun p hp => ?_, happlies.calls⟩, h, hh, hfits⟩⟩
    exact hpatterns p (Rule.mem_filterMap_pattern?_iff.2 hp)

theorem derivable_subset {S : Set Triple} (hS : Model rules registry stored S) (height : Nat) :
    derivable rules registry stored height ⊆ S := by
  induction height with
  | zero => exact hS.stored_subset
  | succ height ih =>
      rintro t (ht | ⟨r, hr, σ, happlies, h, hh, hfits⟩)
      · exact hS.stored_subset ht
      · exact hS.closed r hr σ (happlies.mono ih) h hh t hfits

theorem isLeast_consequences :
    IsLeast {S | Model rules registry stored S} (consequences rules registry stored) :=
  ⟨model_consequences, fun _ hS _ ⟨height, ht⟩ => derivable_subset hS height ht⟩

/-- Without rules nothing more follows. -/
theorem consequences_nil : consequences [] registry stored = stored := by
  ext t
  refine ⟨fun ⟨height, ht⟩ => ?_, fun ht => ⟨0, ht⟩⟩
  cases height with
  | zero => exact ht
  | succ height => exact ht.resolve_right fun ⟨_, hr, _⟩ => nomatch hr

/-- Equal triples follow together. -/
theorem derivable_congr (hstored : ∀ t u, (t == u) = true → t ∈ stored → u ∈ stored)
    {height : Nat} {t u : Triple} (hsame : (t == u) = true)
    (h : t ∈ derivable rules registry stored height) :
    u ∈ derivable rules registry stored height := by
  cases height with
  | zero => exact hstored t u hsame h
  | succ height =>
      rcases h with ht | ⟨r, hr, σ, happlies, p, hp, hfits⟩
      · exact Or.inl (hstored t u hsame ht)
      · exact Or.inr ⟨r, hr, σ, happlies, p, hp, hfits.congr (fun _ _ => BEq.rfl) hsame⟩

end Heights

end Entailment
