import Entailment.Forward.Run
import Entailment.Proofs.Builtin.Binding
import Entailment.Proofs.Builtin.Locality
import Entailment.Proofs.Forward.Matches
import Entailment.Proofs.Forward.Work

/-!
# Asking again where nothing has changed

When an activation fires, the calls of its body are run; when it is asked again, those of
unsafe builtins are not, and count as holding.  So asking again tells whether the other
calls hold by themselves.  If no call uses a variable that an unsafe one before it has
bound, this is what firing has found, unless an unsafe call has refused there: a firing
is not taken back while the same can be seen, and an activation that another call has
blocked does not come to wait again.
-/

namespace Entailment

namespace Call

/-- The builtin of the call may not run where nothing is decided yet. -/
def isUnsafe (registry : Registry) (c : Call) : Bool :=
  match registry.get? c.name with
  | some b => !b.safe
  | none => false

/-- The variables of the arguments. -/
def indexes (c : Call) : List Nat := Node.indexesAll c.args

end Call

/-- Whatever it is called with, the procedure changes no value, and what it binds are
ground nodes. -/
def Procedure.Extends (procedure : Procedure) : Prop :=
  ∀ (ctx : CallContext) (args : List Node) (st : CallState), ctx.Sound → st.bindings.Ground →
    st.bindings.Grows (procedure ctx args st).2.bindings

theorem Procedure.Keeps.extends {procedure : Procedure} (h : procedure.Keeps) :
    procedure.Extends :=
  fun ctx args st hctx hground => (h ctx args st hctx hground).bindings

/-- The builtin of the call is local if it is safe, and extends the bindings otherwise. -/
structure Call.Repeatable (registry : Registry) (c : Call) : Prop where
  safe : ∀ b, registry.get? c.name = some b → b.safe = true → b.body.Local
  other : ∀ b, registry.get? c.name = some b → b.safe = false → b.body.Extends

/-! ## Single calls -/

namespace Call

variable {registry : Registry} {c : Call} {ctx ctx' : CallContext} {st st' : CallState}
  {is : List Nat}

theorem resolvedArgs_eq {b b' : Bindings} (h : b.Shares b' is) (hc : c.indexes ⊆ is) :
    c.resolvedArgs b = c.resolvedArgs b' := by
  unfold resolvedArgs
  apply List.map_congr_left
  intro a ha
  rw [h.resolve (Node.indexes_subset hc ha)]

/-- Resolving arguments leaves no variables but theirs. -/
theorem indexesAll_resolvedArgs {b : Bindings} (hb : b.Ground) :
    Node.indexesAll (c.resolvedArgs b) ⊆ c.indexes := by
  intro i hi
  obtain ⟨n, hn, hi⟩ := Node.mem_indexesAll.1 hi
  obtain ⟨a, ha, rfl⟩ := List.mem_map.1 hn
  cases hvalue : b.resolve a with
  | none =>
      rw [hvalue] at hi
      exact Node.mem_indexesAll.2 ⟨a, ha, hi⟩
  | some m =>
      have hm : m.isGround = true := hb.solid.isGround_of_resolve hvalue
      rw [hvalue, Option.getD_some, Node.indexes_of_ground hm] at hi
      cases hi

/-- A safe call gives the same answer wherever its variables hold the same. -/
theorem twin_holds (hc : c.Repeatable registry) (hsafe : c.isUnsafe registry = false)
    (hview : ctx.SameView ctx') (hctx : ctx.Sound) (hindexes : c.indexes ⊆ is)
    (h : st.bindings.Shares st'.bindings is) :
    CallState.Twin is (c.holds registry ctx st) (c.holdsSpeculatively registry ctx' st') := by
  cases hb : registry.get? c.name with
  | none => simpa [holds, holdsSpeculatively, hb, CallState.Twin] using h
  | some b =>
      have hbsafe : b.safe = true := by simpa [isUnsafe, hb] using hsafe
      simp only [holdsSpeculatively, hb, hbsafe, if_true, holds]
      rw [← resolvedArgs_eq h hindexes]
      have hargs : Node.indexesAll (c.resolvedArgs st.bindings) ⊆ is :=
        List.Subset.trans (indexesAll_resolvedArgs h.ground) hindexes
      exact hc.safe b hb hbsafe ctx ctx' _ st st' is hview hctx hargs h

theorem isUnsafe_iff :
    c.isUnsafe registry = true ↔ ∃ b, registry.get? c.name = some b ∧ b.safe = false := by
  unfold isUnsafe
  cases registry.get? c.name with
  | none => simp
  | some b => simp

/-- An unsafe call counts as holding where it is not run. -/
theorem holdsSpeculatively_of_isUnsafe (hskips : c.isUnsafe registry = true) :
    c.holdsSpeculatively registry ctx st = (true, st) := by
  obtain ⟨b, hb, hsafe⟩ := isUnsafe_iff.1 hskips
  simp [holdsSpeculatively, hb, hsafe]

theorem holds_eq_body {b : Builtin} (hb : registry.get? c.name = some b) :
    c.holds registry ctx st = b.body ctx (c.resolvedArgs st.bindings) st := by
  simp [holds, hb]

theorem grows_of_isUnsafe (hc : c.Repeatable registry) (hskips : c.isUnsafe registry = true)
    (hctx : ctx.Sound) (hground : st.bindings.Ground) :
    st.bindings.Grows (c.holds registry ctx st).2.bindings := by
  obtain ⟨b, hb, hsafe⟩ := isUnsafe_iff.1 hskips
  rw [holds_eq_body hb]
  exact hc.other b hb hsafe ctx _ st hctx hground

theorem ground_holds (hc : c.Repeatable registry) (hctx : ctx.Sound)
    (hground : st.bindings.Ground) : (c.holds registry ctx st).2.bindings.Ground := by
  cases hskips : c.isUnsafe registry with
  | true => exact (c.grows_of_isUnsafe hc hskips hctx hground).ground
  | false =>
      exact (c.twin_holds hc hskips ⟨rfl, rfl, rfl, rfl⟩ hctx (List.Subset.refl _)
        (.refl hground _)).2.ground

/-- The builtin of the call, if it is unsafe, binds no variables but those of the call. -/
def Confined (registry : Registry) (c : Call) : Prop :=
  ∀ b, registry.get? c.name = some b → b.safe = false → b.body.Confined

theorem held?_holds (hc : c.Confined registry) (hskips : c.isUnsafe registry = true)
    (hground : st.bindings.Ground) {i : Nat} (hi : i ∉ c.indexes) :
    (c.holds registry ctx st).2.bindings.held? i = st.bindings.held? i := by
  obtain ⟨b, hb, hsafe⟩ := isUnsafe_iff.1 hskips
  rw [holds_eq_body hb]
  exact hc b hb hsafe ctx _ st i hground fun hmem => hi (indexesAll_resolvedArgs hground hmem)

theorem confined_standard (c : Call) : c.Confined Registry.standard :=
  fun b hb => Builtin.confined_of_mem_standard b (Registry.mem_standard hb)

/-- Of the standard builtins only the clock keeps a call from being repeatable. -/
theorem repeatable_standard
    (hname : ∀ b, Registry.standard.get? c.name = some b → b.name ≠ "now") :
    c.Repeatable Registry.standard where
  safe b hb hsafe := by
    have hfresh : ∀ b ∈ Builtin.standard, b.name = "makeTemp" → b.safe = false := by
      decide +kernel
    refine Builtin.local_of_mem_standard b (Registry.mem_standard hb) ?_
    simp only [List.mem_cons, List.not_mem_nil, or_false]
    rintro (hnow | htemp)
    · exact hname b hb hnow
    · rw [hfresh b (Registry.mem_standard hb) htemp] at hsafe
      cases hsafe
  other b hb _ := (Builtin.keeps_body_of_mem_standard b (Registry.mem_standard hb)).extends

end Call

/-! ## The calls of a body -/

/-- The first call that does not hold, if there is one. -/
def refusing? (ask : Call → CallState → Bool × CallState) : List Call → CallState → Option Call
  | [], _ => none
  | c :: rest, st =>
    match ask c st with
    | (true, st) => refusing? ask rest st
    | (false, _) => some c

theorem allHold_iff_refusing? (ask : Call → CallState → Bool × CallState) (calls : List Call)
    (st : CallState) : (allHold ask calls st).1 = true ↔ refusing? ask calls st = none := by
  induction calls generalizing st with
  | nil => simp [allHold, refusing?]
  | cons c calls ih =>
      unfold allHold refusing?
      cases hanswer : ask c st with
      | mk answer st₁ =>
          cases answer with
          | true => exact ih st₁
          | false => simp

section Bodies

variable {registry : Registry} {ctx ctx' : CallContext} {st st' : CallState} {calls : List Call}

/-- The calls are run, up to the first that does not hold. -/
abbrev runAll (registry : Registry) (ctx : CallContext) (calls : List Call) (st : CallState) :
    Bool × CallState :=
  allHold (fun c st => c.holds registry ctx st) calls st

/-- The calls are asked without running the unsafe ones, up to the first that does not hold. -/
abbrev askAll (registry : Registry) (ctx : CallContext) (calls : List Call) (st : CallState) :
    Bool × CallState :=
  allHold (fun c st => c.holdsSpeculatively registry ctx st) calls st

/-- The calls that are run wherever they are asked. -/
def safeCalls (registry : Registry) (calls : List Call) : List Call :=
  calls.filter fun c => !c.isUnsafe registry

/-- No call but unsafe ones uses a variable that an unsafe call before it has bound. -/
def Undisturbed (registry : Registry) (ctx : CallContext) : List Call → CallState → Prop
  | [], _ => True
  | c :: rest, st =>
    let result := c.holds registry ctx st
    (c.isUnsafe registry = true → ∀ later ∈ safeCalls registry rest, ∀ i ∈ later.indexes,
      result.2.bindings.held? i = st.bindings.held? i) ∧
    (result.1 = true → Undisturbed registry ctx rest result.2)

/-- The variables of the safe calls. -/
def safeIndexes (registry : Registry) (calls : List Call) : List Nat :=
  (safeCalls registry calls).flatMap Call.indexes

theorem askAll_safeCalls (registry : Registry) (ctx : CallContext) (calls : List Call)
    (st : CallState) :
    askAll registry ctx (safeCalls registry calls) st = askAll registry ctx calls st := by
  induction calls generalizing st with
  | nil => rfl
  | cons c calls ih =>
      cases hskips : c.isUnsafe registry with
      | true =>
          have hskip : c.holdsSpeculatively registry ctx st = (true, st) :=
            c.holdsSpeculatively_of_isUnsafe hskips
          simp only [safeCalls, askAll, hskips, List.filter_cons, Bool.not_true,
            Bool.false_eq_true, if_false, allHold, hskip] at ih ⊢
          exact ih st
      | false =>
          simp only [safeCalls, askAll, hskips, List.filter_cons, Bool.not_false, if_true,
            allHold] at ih ⊢
          cases c.holdsSpeculatively registry ctx st with
          | mk answer st₁ =>
              cases answer with
              | true => exact ih st₁
              | false => rfl

/-- What running the calls has found is what asking them finds, unless an unsafe call has
refused. -/
theorem askAll_of_runAll (hcalls : ∀ c ∈ calls, c.Repeatable registry)
    (hview : ctx.SameView ctx') (hctx : ctx.Sound) (hapart : Undisturbed registry ctx calls st)
    (h : st.bindings.Shares st'.bindings (safeIndexes registry calls)) :
    match refusing? (fun c st => c.holds registry ctx st) calls st with
    | none => (askAll registry ctx' calls st').1 = true
    | some c => c.isUnsafe registry = false → (askAll registry ctx' calls st').1 = false := by
  induction calls generalizing st st' with
  | nil => rfl
  | cons c calls ih =>
      have hfirst : c.Repeatable registry := hcalls c (by simp)
      have hrest : ∀ d ∈ calls, d.Repeatable registry := fun d hd => hcalls d (by simp [hd])
      obtain ⟨hquiet, hlater⟩ := hapart
      have hsubset : safeIndexes registry calls ⊆ safeIndexes registry (c :: calls) := by
        intro i hi
        simp only [safeIndexes, safeCalls, List.mem_flatMap, List.mem_filter] at hi ⊢
        obtain ⟨d, ⟨hd, hsafe⟩, hi⟩ := hi
        exact ⟨d, ⟨by simp [hd], hsafe⟩, hi⟩
      unfold refusing? askAll allHold
      cases hskips : c.isUnsafe registry with
      | true =>
          have hgrows := c.grows_of_isUnsafe hfirst hskips hctx h.ground
          have hkept := hquiet hskips
          rw [c.holdsSpeculatively_of_isUnsafe hskips]
          cases hresult : c.holds registry ctx st with
          | mk answer st₁ =>
              rw [hresult] at hgrows hkept hlater
              cases answer with
              | false => simp [hskips]
              | true =>
                  refine ih hrest (hlater rfl) ⟨hgrows.ground, h.other, ?_, fun i hi => ?_⟩
                  · rw [hgrows.length_eq, h.length_eq]
                  · obtain ⟨d, hd, hi'⟩ := List.mem_flatMap.1 hi
                    rw [hkept d hd i hi', h.held i (hsubset hi)]
      | false =>
          have hindexes : c.indexes ⊆ safeIndexes registry (c :: calls) := by
            intro i hi
            simp only [safeIndexes, safeCalls, List.mem_flatMap, List.mem_filter]
            exact ⟨c, ⟨by simp, by simp [hskips]⟩, hi⟩
          obtain ⟨hanswer, hshares⟩ := c.twin_holds hfirst hskips hview hctx hindexes h
          cases hresult : c.holds registry ctx st with
          | mk answer st₁ =>
              cases hresult' : c.holdsSpeculatively registry ctx' st' with
              | mk answer' st₁' =>
                  rw [hresult] at hlater hanswer hshares
                  rw [hresult'] at hanswer hshares
                  obtain rfl : answer = answer' := hanswer
                  cases answer with
                  | false => simp
                  | true => exact ih hrest (hlater rfl) (hshares.mono hsubset)

theorem isUnsafe_of_mem_safeCalls {c : Call} (h : c ∈ safeCalls registry calls) :
    c ∈ calls ∧ c.isUnsafe registry = false := by
  simpa [safeCalls] using h

/-- Where no call is unsafe, none is disturbed. -/
theorem undisturbed_of_safe (hsafe : ∀ c ∈ calls, c.isUnsafe registry = false) (st : CallState) :
    Undisturbed registry ctx calls st := by
  induction calls generalizing st with
  | nil => trivial
  | cons c calls ih =>
      have hfirst : c.isUnsafe registry = false := hsafe c (by simp)
      refine ⟨fun hskips => ?_, fun _ => ih (fun d hd => hsafe d (by simp [hd])) _⟩
      rw [hfirst] at hskips
      cases hskips

/-- No safe call uses a variable of an unsafe one before it. -/
def Apart (registry : Registry) (calls : List Call) : Prop :=
  calls.Pairwise fun c d => c.isUnsafe registry = true → d.isUnsafe registry = false →
    ∀ i ∈ d.indexes, i ∉ c.indexes

instance (registry : Registry) (calls : List Call) : Decidable (Apart registry calls) :=
  inferInstanceAs (Decidable (calls.Pairwise _))

theorem undisturbed_of_apart (hcalls : ∀ c ∈ calls, c.Repeatable registry)
    (hconfined : ∀ c ∈ calls, c.Confined registry) (hctx : ctx.Sound)
    (hground : st.bindings.Ground) (hapart : Apart registry calls) :
    Undisturbed registry ctx calls st := by
  induction calls generalizing st with
  | nil => trivial
  | cons c calls ih =>
      have hfirst : c.Repeatable registry := hcalls c (by simp)
      obtain ⟨hdisjoint, hlater⟩ := List.pairwise_cons.1 hapart
      refine ⟨fun hskips d hd i hi => ?_, fun _ => ?_⟩
      · obtain ⟨hmem, hsafe⟩ := isUnsafe_of_mem_safeCalls hd
        exact c.held?_holds (hconfined c (by simp)) hskips hground
          (hdisjoint d hmem hskips hsafe i hi)
      · exact ih (fun d hd => hcalls d (by simp [hd])) (fun d hd => hconfined d (by simp [hd]))
          (c.ground_holds hfirst hctx hground) hlater

theorem mem_of_refusing? {ask : Call → CallState → Bool × CallState} {c : Call}
    (h : refusing? ask calls st = some c) : c ∈ calls := by
  induction calls generalizing st with
  | nil => cases h
  | cons d calls ih =>
      unfold refusing? at h
      cases hanswer : ask d st with
      | mk answer st₁ =>
          rw [hanswer] at h
          cases answer with
          | true => simp [ih h]
          | false =>
              cases h
              simp

/-- Asking the calls tells whether the safe ones hold by themselves. -/
theorem askAll_iff_runAll_safeCalls (hcalls : ∀ c ∈ calls, c.Repeatable registry)
    (hview : ctx.SameView ctx') (hctx : ctx.Sound)
    (h : st.bindings.Shares st'.bindings (safeIndexes registry calls)) :
    (askAll registry ctx' calls st').1 = true ↔
      (runAll registry ctx (safeCalls registry calls) st).1 = true := by
  have hsafe : ∀ c ∈ safeCalls registry calls, c.isUnsafe registry = false := fun c hc =>
    (isUnsafe_of_mem_safeCalls hc).2
  have hrepeatable : ∀ c ∈ safeCalls registry calls, c.Repeatable registry := fun c hc =>
    hcalls c (isUnsafe_of_mem_safeCalls hc).1
  have hshares : st.bindings.Shares st'.bindings
      (safeIndexes registry (safeCalls registry calls)) := by
    simpa [safeIndexes, safeCalls] using h
  have hfound := askAll_of_runAll hrepeatable hview hctx (undisturbed_of_safe hsafe st) hshares
  have hruns := allHold_iff_refusing? (fun c st => c.holds registry ctx st)
    (safeCalls registry calls) st
  rw [askAll_safeCalls] at hfound
  rw [hruns]
  cases hrefusing : refusing? (fun c st => c.holds registry ctx st)
      (safeCalls registry calls) st with
  | none =>
      rw [hrefusing] at hfound
      exact ⟨fun _ => rfl, fun _ => hfound⟩
  | some c =>
      rw [hrefusing] at hfound
      have hrefused := hfound (hsafe c (mem_of_refusing? hrefusing))
      rw [hrefused]
      simp

end Bodies

/-! ## Activations -/

section Activations

variable {γ : Type} [Graph γ]

/-- The view shows ground triples only. -/
def View.ShowsFacts (v : View γ) : Prop :=
  ∀ p found, v.find p = .ok found → ∀ t ∈ found, t.isGround = true

namespace CallContext

theorem sound_ofView {v : View γ} (hv : v.ShowsFacts) (label : String)
    (matched : List (Option Triple)) (speculative : Bool) :
    (ofView v label matched speculative).Sound := by
  intro p t ht
  simp only [ofView] at ht
  cases hfound : v.find p with
  | ok found =>
      rw [hfound] at ht
      exact hv p found hfound t ht
  | error cause =>
      rw [hfound] at ht
      cases ht

/-- Asking without effect, the same is seen. -/
theorem sameView_ofView (v : View γ) (label : String) (matched : List (Option Triple)) :
    (ofView v label matched false).SameView (ofView v label matched true) :=
  ⟨rfl, rfl, rfl, rfl⟩

end CallContext

namespace CompiledRule

/-- What the calls of the rule see when it is evaluated for a token. -/
def context (c : CompiledRule) (v : View γ) (token : List Triple) (speculative : Bool) :
    CallContext :=
  .ofView v c.label (c.matched token) speculative

/-- The bindings of a token before any call is asked. -/
def unasked (b : Bindings) (w : World) : CallState := { bindings := b, world := w }

/-- Whether the calls of the body are found to hold when they are asked again. -/
def asksAgain (c : CompiledRule) (registry : Registry) (v : View γ) (token : List Triple)
    (b : Bindings) (w : World) : Bool :=
  (askAll registry (c.context v token true) c.calls (unasked b w)).1

/-- The call that blocks the activation when it is to fire. -/
def blocking? (c : CompiledRule) (registry : Registry) (v : View γ) (token : List Triple)
    (b : Bindings) (w : World) : Option Call :=
  refusing? (fun call st => call.holds registry (c.context v token false) st) c.calls
    (unasked b w)

/-- No call uses a variable that an unsafe one before it has bound when the activation is
to fire. -/
def IsUndisturbed (c : CompiledRule) (registry : Registry) (v : View γ) (token : List Triple)
    (b : Bindings) (w : World) : Prop :=
  Undisturbed registry (c.context v token false) c.calls (unasked b w)

theorem isSome_evaluate_iff (c : CompiledRule) (registry : Registry) (v : View γ)
    (token : List Triple) (b : Bindings) (w : World) :
    (c.evaluate registry (c.context v token false) (unasked b w)).1.isSome = true ↔
      c.blocking? registry v token b w = none := by
  have hruns := allHold_iff_refusing?
    (fun call st => call.holds registry (c.context v token false) st) c.calls (unasked b w)
  rw [blocking?, ← hruns]
  unfold evaluate
  cases allHold (fun call st => call.holds registry (c.context v token false) st) c.calls
      (unasked b w) with
  | mk held st => cases held <;> simp

end CompiledRule

/-- In the engine the activation stands for the token, and its calls see what the view shows. -/
structure Engine.Shows (e : Engine γ) (registry : Registry) (v : View γ) (token : List Triple)
    (a : Activation) : Prop where
  registry_eq : e.network.registry = registry
  matched_eq : e.matchedBy a = token
  find_eq : e.view.find = v.find
  contains_eq : e.view.contains = v.contains

namespace CompiledRule

variable {c : CompiledRule} {registry : Registry} {v : View γ} {token : List Triple}
  {b : Bindings}

/-- How asking again goes with firing. -/
structure Concordant (c : CompiledRule) (registry : Registry) (v : View γ) (token : List Triple)
    (b : Bindings) : Prop where
  /-- Asking again tells whether the calls that are not unsafe hold by themselves. -/
  safe_iff : ∀ w w' : World, c.asksAgain registry v token b w = true ↔
    (runAll registry (c.context v token false) (safeCalls registry c.calls) (unasked b w')).1 = true
  /-- What can fire is found to hold, -/
  holds : ∀ w w' : World, c.IsUndisturbed registry v token b w →
    (c.evaluate registry (c.context v token false) (unasked b w)).1.isSome = true →
    c.asksAgain registry v token b w' = true
  /-- and what is blocked by a call that is not unsafe is not. -/
  refuses : ∀ (w w' : World) (call : Call), c.IsUndisturbed registry v token b w →
    c.blocking? registry v token b w = some call → call.isUnsafe registry = false →
    c.asksAgain registry v token b w' = false
  /-- So no firing is taken back, -/
  keeps : ∀ (w : World) (e : Engine γ) (a : Activation), c.IsUndisturbed registry v token b w →
    (c.evaluate registry (c.context v token false) (unasked b w)).1.isSome = true →
    e.Shows registry v token a → (Work.reconsider c a true).Ends e fun changed e' =>
      changed = false ∧ e' = { e with world := e'.world }
  /-- and nothing that such a call has blocked is put on the agenda. -/
  rests : ∀ (w : World) (e : Engine γ) (a : Activation) (call : Call),
    c.IsUndisturbed registry v token b w → c.blocking? registry v token b w = some call →
    call.isUnsafe registry = false → e.Shows registry v token a →
    (Work.reconsider c a false).Ends e fun changed e' =>
      changed = false ∧ e' = { e with world := e'.world }

/-- Where asking again finds what was found before, nothing is changed but the world. -/
theorem ends_reconsider_same (hbindings : c.bindings token = .ok b) {e : Engine γ}
    {a : Activation} (hshows : e.Shows registry v token a) {fired : Bool}
    (hsame : c.asksAgain registry v token b e.world = fired) :
    (Work.reconsider c a fired).Ends e fun changed e' =>
      changed = false ∧ e' = { e with world := e'.world } := by
  have hcontext : CallContext.ofView e.view c.label (c.matched token) true =
      c.context v token true := by
    simp only [context, CallContext.ofView, hshows.find_eq, hshows.contains_eq]
  unfold Work.reconsider Work.stillHolds
  simp only [Work.ends_bind, Work.ends_get, hshows.matched_eq, hbindings, Work.ends_attempt,
    hcontext, hshows.registry_eq, Work.ends_set, Work.ends_pure]
  unfold asksAgain askAll unasked at hsame
  rw [hsame]
  cases fired with
  | true => exact ⟨rfl, rfl⟩
  | false => exact ⟨rfl, rfl⟩

section Repeatable

variable (hcalls : ∀ call ∈ c.calls, call.Repeatable registry) (hview : v.ShowsFacts)
  (hground : b.Ground)
include hcalls hview hground

theorem asksAgain_iff_safeCalls (w w' : World) : c.asksAgain registry v token b w = true ↔
    (runAll registry (c.context v token false) (safeCalls registry c.calls)
      (unasked b w')).1 = true :=
  askAll_iff_runAll_safeCalls hcalls (CallContext.sameView_ofView v _ _)
    (CallContext.sound_ofView hview _ _ _) (.refl hground _)

theorem asksAgain_of_blocking? (token : List Triple) (w w' : World)
    (hapart : c.IsUndisturbed registry v token b w) :
    match c.blocking? registry v token b w with
    | none => c.asksAgain registry v token b w' = true
    | some call => call.isUnsafe registry = false → c.asksAgain registry v token b w' = false :=
  askAll_of_runAll hcalls (CallContext.sameView_ofView v _ _)
    (CallContext.sound_ofView hview _ _ _) hapart (.refl hground _)

end Repeatable

/-- If the safe builtins that a rule calls are local, asking an activation again tells
whether the calls that are not unsafe hold by themselves.  Where no call uses what an
unsafe one before it has bound, no firing is taken back while the same is seen, and what
a call that is not unsafe has blocked does not come to wait again. -/
theorem concordant_of_repeatable (hcalls : ∀ call ∈ c.calls, call.Repeatable registry)
    (hview : v.ShowsFacts) (htoken : c.Matches token b) (hcomplete : token.length = c.levels) :
    c.Concordant registry v token b := by
  have hbindings : c.bindings token = .ok b := htoken.bindings_eq hcomplete
  have hfound := asksAgain_of_blocking? hcalls hview htoken.ground token
  have hholds : ∀ w w' : World, c.IsUndisturbed registry v token b w →
      (c.evaluate registry (c.context v token false) (unasked b w)).1.isSome = true →
      c.asksAgain registry v token b w' = true := by
    intro w w' hapart hfires
    have hanswer := hfound w w' hapart
    rw [(c.isSome_evaluate_iff registry v token b w).1 hfires] at hanswer
    exact hanswer
  have hrefuses : ∀ (w w' : World) (call : Call), c.IsUndisturbed registry v token b w →
      c.blocking? registry v token b w = some call → call.isUnsafe registry = false →
      c.asksAgain registry v token b w' = false := by
    intro w w' call hapart hblocking hsafe
    have hanswer := hfound w w' hapart
    rw [hblocking] at hanswer
    exact hanswer hsafe
  constructor
  · exact asksAgain_iff_safeCalls hcalls hview htoken.ground
  · exact hholds
  · exact hrefuses
  · intro w e a hapart hfires hshows
    exact ends_reconsider_same hbindings hshows (hholds w e.world hapart hfires)
  · intro w e a call hapart hblocking hsafe hshows
    exact ends_reconsider_same hbindings hshows (hrefuses w e.world call hapart hblocking hsafe)

end CompiledRule

end Activations

theorem View.Sound.showsFacts {v : View MemoryGraph} (hv : v.Sound) : v.ShowsFacts := by
  intro p found hfound t ht
  obtain rfl : v.visible p = found := Except.ok.inj ((v.find_eq p).symm.trans hfound)
  exact hv.isGround (hv.mem_visible ht).1

namespace CompiledRule

/-- A node is made for every link between two nodes of which the second leads nowhere. -/
def ending : Rule :=
  .make none [.pattern ⟨.var ⟨"x", 0⟩, .uri "p", .var ⟨"y", 1⟩⟩,
      .call ⟨"notEqual", [.var ⟨"x", 0⟩, .var ⟨"y", 1⟩]⟩, .call ⟨"makeTemp", [.var ⟨"t", 2⟩]⟩,
      .call ⟨"noValue", [.var ⟨"y", 1⟩, .uri "p"]⟩]
    [.pattern ⟨.var ⟨"t", 2⟩, .uri "r", .var ⟨"y", 1⟩⟩] .forward

/-- As a clause of a body `remove` refuses. -/
def withdrawing : Rule :=
  .make none [.pattern ⟨.var ⟨"x", 0⟩, .uri "p", .var ⟨"y", 1⟩⟩,
      .call ⟨"remove", [.integer 0]⟩]
    [.pattern ⟨.var ⟨"x", 0⟩, .uri "q", .var ⟨"y", 1⟩⟩] .forward

def lonelyLink : Triple := ⟨.uri "a", .uri "p", .uri "b"⟩

def lonely : View MemoryGraph := ⟨MemoryGraph.empty.plus lonelyLink, .empty⟩

theorem lonely_showsFacts : lonely.ShowsFacts := by
  have hlink : lonelyLink.isGround = true := rfl
  exact View.Sound.showsFacts ⟨MemoryGraph.sound_empty.plus hlink, MemoryGraph.sound_empty⟩

/-- What the link binds, for a rule with so many variables. -/
def lonelyBindings (numVars : Nat) : Bindings :=
  ((Bindings.empty numVars).matching? ⟨.var ⟨"x", 0⟩, .uri "p", .var ⟨"y", 1⟩⟩
    lonelyLink).getD default

theorem concordant_ending :
    let c := ofRule Registry.standard ending
    let ctx := c.context lonely [lonelyLink] false
    c.Concordant Registry.standard lonely [lonelyLink] (lonelyBindings 3) ∧
      c.IsUndisturbed Registry.standard lonely [lonelyLink] (lonelyBindings 3) {} ∧
      (c.evaluate Registry.standard ctx (unasked (lonelyBindings 3) {})).1.isSome = true := by
  intro c ctx
  have hcalls : ∀ call ∈ c.calls, call.Repeatable Registry.standard := by
    intro call hcall
    refine Call.repeatable_standard fun b hb => ?_
    have hnames : ∀ call ∈ c.calls,
        (Registry.standard.get? call.name).all (fun b => decide (b.name ≠ "now")) = true := by
      decide +kernel
    have hname := hnames call hcall
    rw [hb] at hname
    exact of_decide_eq_true hname
  have htoken : c.Matches [lonelyLink] (lonelyBindings 3) := .next .none rfl rfl rfl
  refine ⟨concordant_of_repeatable hcalls lonely_showsFacts htoken rfl, ?_, by decide +kernel⟩
  exact undisturbed_of_apart hcalls (fun call _ => call.confined_standard)
    (CallContext.sound_ofView lonely_showsFacts _ _ _) htoken.ground (by decide +kernel)

/-- An unsafe call may refuse where asking again passes over it. -/
theorem not_asksAgain_iff_withdrawing :
    let c := ofRule Registry.standard withdrawing
    let ctx := c.context lonely [lonelyLink] false
    (∀ call ∈ c.calls, ∀ b, Registry.standard.get? call.name = some b → b.body.Local) ∧
      lonely.ShowsFacts ∧ c.Matches [lonelyLink] (lonelyBindings 2) ∧ c.levels = 1 ∧
      ¬ (c.asksAgain Registry.standard lonely [lonelyLink] (lonelyBindings 2) {} = true ↔
        (c.evaluate Registry.standard ctx (unasked (lonelyBindings 2) {})).1.isSome = true) := by
  intro c ctx
  refine ⟨?_, lonely_showsFacts, .next .none rfl rfl rfl, rfl, by decide +kernel⟩
  intro call hcall b hb
  have hnames : ∀ call ∈ c.calls, (Registry.standard.get? call.name).all
      (fun b => decide (b.name ∉ ["now", "makeTemp"])) = true := by
    decide +kernel
  have hname := hnames call hcall
  rw [hb] at hname
  exact Builtin.local_of_mem_standard b (Registry.mem_standard hb) (of_decide_eq_true hname)

end CompiledRule

end Entailment
