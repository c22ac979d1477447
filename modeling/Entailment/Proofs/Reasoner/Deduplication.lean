import Entailment.Proofs.Backward.Exactness
import Entailment.Proofs.Forward.Maintenance
import Entailment.Proofs.Reasoner.Agreement
import Entailment.Proofs.Rule.Variants

/-!
# Leaving out rules that are there already

A rule set refuses a rule if it holds a similar one, which need not be a variant.  Where
the variables of similar rules recur at the same places, it refuses variants alone, and
a reasoner for what it has collected stores and answers what one for all rules does.
-/

namespace Entailment

namespace Rule

/-- Rules that are similar have variables that recur at the same places. -/
def RecurAlike (q r : Rule) : Prop :=
  q.similar r = true → recurrences q.vars = recurrences r.vars

theorem discreet_of_callsOnly {r : Rule} (h : r.CallsOnly Registry.standard fun name =>
    name ∈ Builtin.graphFree ∨ name = Builtin.noValue.name) : r.Discreet Registry.standard where
  fair call hcall b hb := Builtin.fair_of_mem_standard (Registry.mem_standard hb) (h call hcall b hb)
  nameless call hcall b hb :=
    Builtin.ignoresNames_of_mem_standard (Registry.mem_standard hb) (h call hcall b hb)

theorem CallsOnly.mono {r : Rule} {registry : Registry} {allowed allowed' : String → Prop}
    (h : r.CallsOnly registry allowed) (hallowed : ∀ name, allowed name → allowed' name) :
    r.CallsOnly registry allowed' :=
  fun call hcall b hb => hallowed b.name (h call hcall b hb)

end Rule

/-! ## Storing and answering -/

section

variable {rules kept : List Rule}

theorem Thins.subset_closed (h : Thins rules kept) {registry : Registry} {base : MemoryGraph}
    {v : View MemoryGraph} {S : Set Triple} (hS : Closed rules registry base v S) :
    Closed kept registry base v S :=
  fun q hq => hS q (h.subset q hq)

/-- Whatever has been done to two engines over equal bases, the one that runs all rules
and the one that runs those kept have the same deductions. -/
theorem Engine.deductions_of_thins (h : Thins rules kept)
    (hrules : ∀ r ∈ rules, r.Elementary ∧ r.CallsOnly Registry.standard (· ∈ Builtin.graphFree))
    {n n' : Network} (hn : Network.compile rules Registry.standard = .ok n)
    (hn' : Network.compile kept Registry.standard = .ok n') {e e' : Engine MemoryGraph}
    (he : Maintained n e) (he' : Maintained n' e') (hbase : e.base = e'.base) (t : Triple) :
    e.deductions.contains t = e'.deductions.contains t := by
  have hleast : ∀ {rules : List Rule} {n : Network} {e : Engine MemoryGraph},
      (∀ r ∈ rules, r.Elementary ∧ r.CallsOnly Registry.standard (· ∈ Builtin.graphFree)) →
      Network.compile rules Registry.standard = .ok n → Maintained n e →
      Settling n e ∧ ∀ v, IsLeast {S : Set Triple | Closed rules Registry.standard e.base v S}
        {t | e.deductions.contains t = true} := by
    intro rules n e hrules hn he
    have helementary := Network.elementary_of_standard hn (fun r hr => (hrules r hr).1)
      fun r hr call hcall b hb => Or.inl ((hrules r hr).2 call hcall b hb)
    have hsettling := he.settling (Network.compile_eq_ok hn).1 helementary
      (Network.tame_of_elementary hn fun r hr => (hrules r hr).1)
    exact ⟨hsettling, fun v => hsettling.isLeast hn helementary
      (Or.inl (Network.isMonotonic_of_standard hn helementary fun r hr => (hrules r hr).2))⟩
  obtain ⟨hsettling, hall⟩ := hleast hrules hn he
  obtain ⟨hsettling', hkept⟩ := hleast (fun q hq => hrules q (h.subset q hq)) hn' he'
  have hconsistent := hsettling'.steady.consistent
  have hmade : ∀ r ∈ rules, r.Made := fun r hr =>
    let ⟨name, body, head, hr⟩ := (hrules r hr).1.made
    ⟨name, body, head, _, hr⟩
  have hiff : Closed rules Registry.standard e'.base e'.view {t | e'.deductions.contains t = true} ↔
      Closed kept Registry.standard e'.base e'.view {t | e'.deductions.contains t = true} :=
    h.closed_iff hmade
    (fun r hr => Rule.discreet_of_callsOnly ((hrules r hr).2.mono fun _ => Or.inl))
    ⟨hconsistent.base, hconsistent.deductions⟩
    fun t ht => ht.elim (hconsistent.base.isGround t) (hconsistent.deductions.isGround t)
  rw [Bool.eq_iff_iff]
  constructor
  · exact fun ht => (hall e'.view).2 (hbase ▸ hiff.2 (hkept e'.view).1) ht
  · exact fun ht => (hkept e'.view).2 (hbase ▸ h.subset_closed (hall e'.view).1) ht

/-- A solver for all rules and one for those kept find the same answers in a view. -/
theorem Solver.answers_of_thins (h : Thins rules kept) (hrules : ∀ r ∈ rules, r.Definite)
    {registry : Registry} {maxDepth : Nat} {s s' : Solver}
    (hs : ofRules rules registry maxDepth = .ok s) (hs' : ofRules kept registry maxDepth = .ok s')
    {view : View MemoryGraph} (hview : view.Sound)
    (hflat : ∀ t, view.sees t = true → t.Flat) {goal : Triple} (hgoal : goal.Flat)
    {world world' : World} {answers answers' : List Triple}
    (hanswers : (s.solve view goal world).1 = .ok answers)
    (hanswers' : (s'.solve view goal world').1 = .ok answers') (t : Triple) :
    answers.any (· == t) = answers'.any (· == t) := by
  have hatomic : ∀ t ∈ view.stored {t | view.base.contains t = true}, t.isGround = true ∧ t.Flat := by
    intro t ht
    have hsees : view.sees t = true := by
      rw [View.sees, Bool.or_eq_true]
      exact ht
    exact ⟨hview.isGround hsees, hflat t hsees⟩
  have hsuits := suits_of_definite hs hrules hview.base.holds hview.deductions hatomic
  have hsuits' := suits_of_definite hs' (fun q hq => hrules q (h.subset q hq)) hview.base.holds
    hview.deductions hatomic
  obtain ⟨hmap, hregistry, _⟩ := ofRules_eq_ok hs
  obtain ⟨hmap', hregistry', _⟩ := ofRules_eq_ok hs'
  have hmade : ∀ r ∈ rules, r.Made := by
    intro r hr
    obtain ⟨name, body, head, hr⟩ := (hrules r hr).made
    exact ⟨name, body, head, _, hr⟩
  have hcalls : ∀ r ∈ rules, ∀ c, Clause.call c ∉ r.body := by
    intro r hr c hc
    obtain ⟨_, hpattern, _⟩ := (hrules r hr).body _ hc
    cases hpattern
  have hsame : s.follows (view.stored {t | view.base.contains t = true}) =
      s'.follows (view.stored {t | view.base.contains t = true}) := by
    rw [follows, follows, hmap, hmap', hregistry, hregistry']
    exact h.consequences_eq hmade hcalls
  rw [Bool.eq_iff_iff, (hsuits.answers_of_solve hgoal.shallow hanswers).2,
    (hsuits'.answers_of_solve hgoal.shallow hanswers').2, hsame]

end

namespace Reasoner

/-- The reasoners store the same over equal bases, and find the same answers in a view. -/
structure Agrees (r r' : Reasoner) : Prop where
  stores : ∀ e e' : Engine MemoryGraph, Engine.Maintained r.network e →
    Engine.Maintained r'.network e' → e.base = e'.base →
    ∀ t, e.deductions.contains t = e'.deductions.contains t
  answers : ∀ view : View MemoryGraph, view.Sound → (∀ t, view.sees t = true → t.Flat) →
    ∀ goal : Triple, goal.Flat → ∀ (world world' : World) (answers answers' : List Triple),
    (r.solver.solve view goal world).1 = .ok answers →
    (r'.solver.solve view goal world').1 = .ok answers' →
    ∀ t, answers.any (· == t) = answers'.any (· == t)

/-- What runs forward and what is asked backward is thinned like the whole. -/
theorem thins_assign {rules kept : RuleSet} (h : Thins rules.rules kept.rules)
    (hmade : ∀ r ∈ rules.rules, r.Made) {mode : Mode} {forward backward forward' backward' : List Rule}
    (hrules : assign rules mode = .ok (forward, backward))
    (hkept : assign kept mode = .ok (forward', backward')) :
    Thins forward forward' ∧ Thins backward backward' := by
  have hnil : Thins [] [] := ⟨fun _ h => (nomatch h), fun _ h => nomatch h⟩
  cases mode with
  | forward =>
      obtain ⟨rfl, rfl⟩ := assign_forward hrules
      obtain ⟨rfl, rfl⟩ := assign_forward hkept
      exact ⟨h, hnil⟩
  | backward =>
      cases hrules
      cases hkept
      refine ⟨hnil, h.map fun q hq r hr hvariant => ?_⟩
      obtain ⟨f, hf⟩ := hvariant
      have hbackward : q.isBackward = r.isBackward := congrArg (· == Direction.backward) hf.direction
      simp only [hbackward]
      split
      · exact ⟨f, hf⟩
      · exact Rule.IsVariant.withDirection ⟨f, hf⟩ (hmade q hq) (hmade r hr) _
  | hybrid =>
      cases hrules
      cases hkept
      exact ⟨h.filter _, h.filter _⟩

theorem agrees_of_thins {rules kept : RuleSet} (h : Thins rules.rules kept.rules)
    (hmade : ∀ r ∈ rules.rules, r.Made) {config : Config} {forward backward : List Rule}
    (hassign : assign rules config.mode = .ok (forward, backward))
    (hforward : ∀ r ∈ forward,
      r.Elementary ∧ r.CallsOnly Registry.standard (· ∈ Builtin.graphFree))
    (hbackward : ∀ r ∈ backward, r.Definite) {full thin : Reasoner}
    (hfull : make rules Registry.standard config = .ok full)
    (hthin : make kept Registry.standard config = .ok thin) : full.Agrees thin := by
  obtain ⟨_, _, hassigned, hn, hs⟩ := make_eq_ok hfull
  rw [hassign] at hassigned
  cases hassigned
  obtain ⟨_, _, hassigned', hn', hs'⟩ := make_eq_ok hthin
  obtain ⟨hstores, hasks⟩ := thins_assign h hmade hassign hassigned'
  refine ⟨fun e e' he he' hbase => ?_, fun view hview hflat goal hgoal world world' as as' has has' => ?_⟩
  · exact Engine.deductions_of_thins hstores hforward hn hn' he he' hbase
  · exact Solver.answers_of_thins hasks hbackward hs hs' hview hflat hgoal has has'

end Reasoner

namespace RuleSet

open Reasoner

/-- Where variables recur alike in similar rules, a rule set refuses a rule exactly if it
holds a variant of it, and so does a reasoner; what a collection leaves out makes no
difference to what is closed under the rules, nor to what a reasoner stores and answers. -/
theorem refuses_variants {s : RuleSet} {r : Rule} (hr : ∀ q ∈ s.rules, q.RecurAlike r)
    {name : String} {rules : List Rule} (hmade : ∀ q ∈ rules, q.Made)
    (hrules : ∀ q ∈ rules, ∀ r ∈ rules, q.RecurAlike r) :
    ((s.add r).1 = false ↔ ∃ q ∈ s.rules, q.IsVariant r) ∧
    (∀ reasoner reasoner' : Reasoner, reasoner.rules = s →
      reasoner.addRule r = .ok (false, reasoner') → ∃ q ∈ s.rules, q.IsVariant r) ∧
    (∀ (base : MemoryGraph) (v : View MemoryGraph) (S : Set Triple), v.Sound →
      (∀ t, base.contains t = true ∨ t ∈ S → t.isGround = true) →
      (∀ r ∈ rules, r.CallsOnly Registry.standard fun name =>
        name ∈ Builtin.graphFree ∨ name = Builtin.noValue.name) →
      (Closed rules Registry.standard base v S ↔
        Closed (ofRules name rules).rules Registry.standard base v S)) ∧
    ∀ (config : Config) (forward backward : List Rule) (full collected : Reasoner),
      assign ⟨name, rules⟩ config.mode = .ok (forward, backward) →
      (∀ r ∈ forward, r.Elementary ∧ r.CallsOnly Registry.standard (· ∈ Builtin.graphFree)) →
      (∀ r ∈ backward, r.Definite) →
      make ⟨name, rules⟩ Registry.standard config = .ok full →
      make (ofRules name rules) Registry.standard config = .ok collected →
      full.Agrees collected := by
  have hthins := thins_ofRules name hrules
  have hadd := add_eq_false_iff_variant hr
  refine ⟨hadd, ?_, ?_, ?_⟩
  · rintro reasoner reasoner' rfl hrefused
    refine hadd.1 ?_
    unfold addRule at hrefused
    cases hresult : reasoner.rules.add r with
    | mk added rules' =>
        cases added with
        | false => rfl
        | true =>
            rw [hresult] at hrefused
            obtain ⟨_, _, hcompiled⟩ := exists_of_bind_eq_ok hrefused
            cases hcompiled
  · intro base v S hv hground hcalls
    exact hthins.closed_iff hmade (fun r hr => Rule.discreet_of_callsOnly (hcalls r hr)) hv hground
  · intro config forward backward full collected hassign hforward hbackward hfull hcollected
    exact @agrees_of_thins ⟨name, rules⟩ _ hthins hmade _ _ _ hassign hforward hbackward _ _ hfull
      hcollected

/-- The crossing rule with other variables. -/
def recrossing : Rule :=
  .make none
    [.pattern ⟨.var ⟨"u", 0⟩, .uri "p", .var ⟨"v", 1⟩⟩,
      .call ⟨"notEqual", [.var ⟨"u", 0⟩, .var ⟨"v", 1⟩]⟩]
    [.pattern ⟨.var ⟨"v", 1⟩, .uri "p", .var ⟨"u", 0⟩⟩] .forward

def crossings : List Rule := [Engine.crossing, recrossing]

/-- The reasoner that runs the rules forward. -/
def runner (rules : RuleSet) : Reasoner :=
  (make rules Registry.standard .forward).toOption.getD default

theorem refuses_variants_crossing :
    (RuleSet.add ⟨"", [Engine.crossing]⟩ recrossing).1 = false ∧
      (∃ q ∈ [Engine.crossing], q.IsVariant recrossing) ∧
      (runner ⟨"", crossings⟩).network.rules.length = 2 ∧
      (runner (ofRules "" crossings)).network.rules.length = 1 ∧
      (runner ⟨"", crossings⟩).Agrees (runner (ofRules "" crossings)) := by
  have helementary : recrossing.Elementary :=
    { made := ⟨_, _, _, rfl⟩
      plain := fun p hp => by
        rcases List.mem_cons.1 hp with heq | hp
        · cases heq
          rfl
        · cases List.mem_singleton.1 hp
      head := fun c hc => by
        obtain rfl := List.mem_singleton.1 hc
        exact ⟨_, rfl, by decide +kernel⟩ }
  have hforward : ∀ r ∈ crossings,
      r.Elementary ∧ r.CallsOnly Registry.standard (· ∈ Builtin.graphFree) := by
    intro r hr
    rcases List.mem_cons.1 hr with rfl | hr
    · exact ⟨Engine.elementary_crossing, Engine.callsOnly_crossing⟩
    · rw [List.mem_singleton.1 hr]
      refine ⟨helementary, fun call hcall b hb => ?_⟩
      rcases List.mem_cons.1 hcall with heq | hcall
      · cases heq
      · cases List.mem_singleton.1 hcall
        exact Engine.callsOnly_crossing ⟨"notEqual", [.var ⟨"x", 0⟩, .var ⟨"y", 1⟩]⟩
          (List.mem_cons_of_mem _ (List.mem_singleton.2 rfl)) b hb
  have hmade : ∀ q ∈ crossings, q.Made := fun q hq =>
    let ⟨name, body, head, hmake⟩ := (hforward q hq).1.made
    ⟨name, body, head, _, hmake⟩
  obtain ⟨hadd, _, _, hagrees⟩ := @refuses_variants ⟨"", [Engine.crossing]⟩ recrossing
    (by unfold Rule.RecurAlike; decide +kernel) "" _ hmade
    (by unfold Rule.RecurAlike; decide +kernel)
  have hrefused : (RuleSet.add ⟨"", [Engine.crossing]⟩ recrossing).1 = false := by decide +kernel
  refine ⟨hrefused, hadd.1 hrefused, by decide +kernel, by decide +kernel, ?_⟩
  exact hagrees .forward crossings [] _ _ rfl hforward (fun _ h => nomatch h)
    (ok_getD_of_isSome (by decide +kernel)) (ok_getD_of_isSome (by decide +kernel))

/-! ## A rule that is refused without a variant -/

/-- The head has the variables of the copying rule in the other order. -/
def swapping : Rule :=
  .make none [.pattern ⟨.var ⟨"x", 0⟩, .uri "p", .var ⟨"y", 1⟩⟩]
    [.pattern ⟨.var ⟨"y", 1⟩, .uri "q", .var ⟨"x", 0⟩⟩] .forward

/-- A similar rule is refused though it is no variant, and conclusions are lost. -/
theorem not_refuses_variants_swapping :
    (RuleSet.add ⟨"", [copying]⟩ swapping).1 = false ∧ ¬ (∃ q ∈ [copying], q.IsVariant swapping) ∧
      (((runner ⟨"", [copying]⟩).addRule swapping).toOption.map Prod.fst = some false) ∧
      (findsBy [copying, swapping] (copiesTo none) .backward).map List.length = some 2 ∧
      (findsBy (ofRules "" [copying, swapping]).rules (copiesTo none) .backward).map List.length =
        some 1 := by
  refine ⟨by decide +kernel, ?_, by decide +kernel, by decide +kernel, by decide +kernel⟩
  rintro ⟨q, hq, hvariant⟩
  obtain rfl := List.mem_singleton.1 hq
  have hrecur : recurrences copying.vars ≠ recurrences swapping.vars := by decide +kernel
  exact hrecur (Rule.isVariant_iff.1 hvariant).2

end RuleSet

end Entailment
