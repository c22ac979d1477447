import Entailment.Proofs.Builtin.Steadiness
import Entailment.Proofs.Forward.Exactness
import Entailment.Proofs.Forward.Maintenance

/-!
# The order of additions

An activation that a monotonic network has blocked is not asked again when triples are
added, which is right as long as the answers of its calls stay what they are.  Then the
deductions are the least set that is closed under the rules over the base, whatever the
calls look at, so it makes no difference which triples the base held from the beginning
and in which order the others were added.
-/

namespace Entailment

/-! ## Operations one after the other -/

namespace Outcome

variable {σ α β : Type} {s : σ} {b : β}

theorem map_eq_done_iff {outcome : Outcome σ α} {f : α → β} :
    outcome.map f = .done b s ↔ ∃ a, outcome = .done a s ∧ f a = b := by
  cases outcome <;> simp [map, and_comm]

/-- Goes on from the state that is left, if the work is done. -/
def andThen (outcome : Outcome σ α) (next : σ → Outcome σ β) : Outcome σ β :=
  match outcome with
  | .done _ s => next s
  | .failed cause s => .failed cause s
  | .unfinished => .unfinished

theorem andThen_eq_done_iff {outcome : Outcome σ α} {next : σ → Outcome σ β} :
    outcome.andThen next = .done b s ↔
      ∃ a s₁, outcome = .done a s₁ ∧ next s₁ = .done b s := by
  cases outcome <;> simp [andThen]

end Outcome

namespace Engine

section Loading

variable {γ : Type} [Graph γ]

/-- Adds one more triple, if what came before is done. -/
def addNext (budget : Nat) (outcome : Outcome (Engine γ) Unit) (t : Triple) :
    Outcome (Engine γ) Unit :=
  outcome.andThen fun e => (e.add budget t).map fun _ => ()

/-- Computes the conclusions from nothing, and then adds the triples one by one. -/
def load (budget : Nat) (ts : List Triple) (e : Engine γ) : Outcome (Engine γ) Unit :=
  ts.foldl (addNext budget) (e.recompute budget)

end Loading

variable {e e' : Engine MemoryGraph} {n : Network} {α β : Type}

/-- What is done with a budget is done in the same way with more. -/
def Lasting (operation : Nat → Outcome (Engine MemoryGraph) α) : Prop :=
  ∀ (budget more : Nat) (a : α) (e' : Engine MemoryGraph), operation budget = .done a e' →
    budget ≤ more → operation more = .done a e'

theorem lasting_run (rechecks : Nat) (e : Engine MemoryGraph) :
    Lasting fun budget => run budget rechecks e := by
  intro budget more a e' hdone hle
  induction budget generalizing more rechecks e with
  | zero => cases hdone
  | succ budget ih =>
      obtain ⟨more, rfl⟩ := Nat.exists_eq_add_of_le' hle
      rw [← Nat.add_assoc]
      simp only [run] at hdone ⊢
      cases hstep : Work.step rechecks e with
      | ok answer e₁ =>
          rw [hstep] at hdone
          cases answer with
          | none => exact hdone
          | some rechecks => exact ih rechecks e₁ _ hdone (Nat.le_add_left budget more)
      | error cause e₁ =>
          rw [hstep] at hdone
          cases hdone

theorem Lasting.map {operation : Nat → Outcome (Engine MemoryGraph) α} (h : Lasting operation)
    (f : α → β) : Lasting fun budget => (operation budget).map f := by
  intro budget more b e' hdone hle
  obtain ⟨a, hwork, rfl⟩ := Outcome.map_eq_done_iff.1 hdone
  exact Outcome.map_eq_done_iff.2 ⟨a, h _ _ _ _ hwork hle, rfl⟩

theorem Lasting.andThen {operation : Nat → Outcome (Engine MemoryGraph) α}
    {next : Nat → Engine MemoryGraph → Outcome (Engine MemoryGraph) β} (h : Lasting operation)
    (hnext : ∀ e, Lasting fun budget => next budget e) :
    Lasting fun budget => (operation budget).andThen (next budget) := by
  intro budget more b e' hdone hle
  obtain ⟨a, e₁, hwork, hrest⟩ := Outcome.andThen_eq_done_iff.1 hdone
  exact Outcome.andThen_eq_done_iff.2
    ⟨a, e₁, h _ _ _ _ hwork hle, hnext e₁ _ _ _ _ hrest hle⟩

theorem lasting_operate (request : Work MemoryGraph α) (e : Engine MemoryGraph) :
    Lasting fun budget => e.operate budget request := by
  intro budget more a e' hdone hle
  simp only [operate] at hdone ⊢
  cases hclosed : e.isClosed with
  | true =>
      rw [hclosed] at hdone
      cases hdone
  | false =>
      rw [hclosed] at hdone
      cases hrequest : request e with
      | ok answer e₁ =>
          rw [hrequest] at hdone
          exact (lasting_run 0 e₁).map (fun _ => answer) _ _ _ _ hdone hle
      | error cause e₁ =>
          rw [hrequest] at hdone
          cases hdone

theorem Lasting.addNext {start : Nat → Outcome (Engine MemoryGraph) Unit} (h : Lasting start)
    (t : Triple) : Lasting fun budget => addNext budget (start budget) t :=
  h.andThen fun e => (lasting_operate (Work.addToBase t) e).map fun _ => ()

theorem lasting_load (ts : List Triple) (e : Engine MemoryGraph) :
    Lasting fun budget => e.load budget ts := by
  have hfold : ∀ start : Nat → Outcome (Engine MemoryGraph) Unit, Lasting start →
      Lasting fun budget => ts.foldl (Engine.addNext budget) (start budget) := by
    induction ts with
    | nil => exact fun _ hstart => hstart
    | cons t ts ih => exact fun start hstart => ih _ (hstart.addNext t)
  exact hfold _ (lasting_operate Work.restart e)

section Completion

variable {operation : Nat → Outcome (Engine MemoryGraph) α}
  {post : Engine MemoryGraph → Prop}

/-- What is done with any budget is as described. -/
theorem Completes.of_done (h : Completes operation post) (hlasting : Lasting operation)
    {budget : Nat} {a : α} (hdone : operation budget = .done a e') : post e' := by
  obtain ⟨needed, hneeded⟩ := h
  obtain ⟨b, e₁, hdone₁, hpost⟩ := hneeded (max budget needed) (Nat.le_max_right _ _)
  rw [hlasting _ _ _ _ hdone (Nat.le_max_left _ _)] at hdone₁
  cases hdone₁
  exact hpost

theorem Completes.andThen {next : Nat → Engine MemoryGraph → Outcome (Engine MemoryGraph) β}
    {post' : Engine MemoryGraph → Prop} (h : Completes operation post) (hlasting : Lasting operation)
    (hnext : ∀ e, post e → Completes (fun budget => next budget e) post') :
    Completes (fun budget => (operation budget).andThen (next budget)) post' := by
  obtain ⟨needed, hneeded⟩ := h
  obtain ⟨a, e₁, hdone, hpost⟩ := hneeded needed (Nat.le_refl _)
  obtain ⟨more, hmore⟩ := hnext e₁ hpost
  refine ⟨max needed more, fun budget hbudget => ?_⟩
  obtain ⟨b, e₂, hrest, hpost'⟩ := hmore budget (Nat.le_trans (Nat.le_max_right _ _) hbudget)
  have hfirst := hlasting _ _ _ _ hdone (Nat.le_trans (Nat.le_max_left _ _) hbudget)
  exact ⟨b, e₂, Outcome.andThen_eq_done_iff.2 ⟨a, e₁, hfirst, hrest⟩, hpost'⟩

theorem Completes.map (h : Completes operation post) (f : α → β) :
    Completes (fun budget => (operation budget).map f) post := by
  obtain ⟨needed, hneeded⟩ := h
  refine ⟨needed, fun budget hbudget => ?_⟩
  obtain ⟨a, e₁, hdone, hpost⟩ := hneeded budget hbudget
  exact ⟨f a, e₁, Outcome.map_eq_done_iff.2 ⟨a, hdone, rfl⟩, hpost⟩

end Completion

end Engine

/-! ## Monotonic networks -/

theorem Network.elementary_of_monotonic {rules : List Rule} {n : Network}
    (hn : compile rules Registry.standard = .ok n) (hmonotonic : n.isMonotonic = true)
    (helementary : ∀ rule ∈ rules, rule.Elementary)
    (hcalls : ∀ rule ∈ rules, rule.CallsOnly Registry.standard (· ∉ Builtin.unsteady)) :
    n.Elementary where
  rule r c hc := by
    have hkind := isMonotonic_rule hmonotonic hc
    obtain ⟨rule, hrule, rfl⟩ := exists_rule_of_rule? hn hc
    refine ⟨helementary rule hrule, fun call hcall b hb => ?_⟩
    rw [(compile_eq_ok hn).2.1] at hb
    refine Builtin.fair_of_monotonic (Registry.mem_standard hb) ?_ (hcalls rule hrule call hcall b hb)
    have hsame := List.any_eq_false.1 hkind call (Rule.mem_calls_iff.2 hcall)
    simpa [CompiledRule.isNonMonotonic, hb] using hsame
  safe r c hc hkind := by
    rw [isMonotonic_rule hmonotonic hc] at hkind
    cases hkind

/-- A closed set depends on what the base contains, and on nothing else of it. -/
theorem Closed.congr_base {rules : List Rule} {registry : Registry} {base base' : MemoryGraph}
    {v : View MemoryGraph} {S : Set Triple} (hbase : ∀ t, base.contains t = base'.contains t) :
    Closed rules registry base v S ↔ Closed rules registry base' v S := by
  simp only [Closed, hbase]

namespace Engine

variable {e e' : Engine MemoryGraph} {n : Network}

/-- The engine has settled over a base that holds the triples. -/
def SettledOver (n : Network) (ts : List Triple) (e : Engine MemoryGraph) : Prop :=
  Settling n e ∧ ∀ t, e.base.contains t = ts.any (· == t)

/-- Adding triples to a settled engine settles it over all of them. -/
theorem completes_additions (helementary : n.Elementary) (hmonotonic : n.isMonotonic = true)
    {given added : List Triple}
    (hadded : ∀ t ∈ added, t.isGround = true ∧ t.MadeOf fun m => m.isNested = false)
    {start : Nat → Outcome (Engine MemoryGraph) Unit} (hlasting : Lasting start)
    (hstart : Completes start (SettledOver n given)) :
    Completes (fun budget => added.foldl (addNext budget) (start budget))
      (SettledOver n (given ++ added)) := by
  induction added generalizing given start with
  | nil => simpa using hstart
  | cons t added ih =>
      have hone : ∀ e, SettledOver n given e →
          Completes (fun budget => (e.add budget t).map fun _ => ())
            (SettledOver n (given ++ [t])) := by
        rintro e ⟨hsettling, hbase⟩
        obtain ⟨hground, hflat⟩ := hadded t List.mem_cons_self
        refine Completes.map ((hsettling.completes_add helementary hground hflat).mono ?_) _
        rintro e' ⟨hbase', hsettling'⟩
        refine ⟨hsettling' hmonotonic, fun u => ?_⟩
        rw [hbase', hsettling.steady.consistent.base.contains_plus hground, hbase, List.any_append,
          List.any_cons, List.any_nil, Bool.or_false]
      rw [← List.singleton_append, ← List.append_assoc]
      exact ih (fun u hu => hadded u (List.mem_cons_of_mem _ hu)) (hlasting.addNext t)
        (hstart.andThen hlasting hone)

/-- Loading triples onto a base settles the engine over all of them. -/
theorem completes_load (hwired : n.Wired) (htame : n.Tame) (helementary : n.Elementary)
    (hmonotonic : n.isMonotonic = true) (hnetwork : e.network = n) (hopen : e.isClosed = false)
    (hreachable : e.base.Reachable) {given added : List Triple}
    (hbase : ∀ t, e.base.contains t = given.any (· == t))
    (hgiven : ∀ t ∈ given, t.MadeOf fun m => m.isNested = false)
    (hadded : ∀ t ∈ added, t.isGround = true ∧ t.MadeOf fun m => m.isNested = false) :
    Completes (fun budget => e.load budget added) (SettledOver n (given ++ added)) := by
  have hflat : ∀ t, e.base.contains t = true → t.MadeOf fun m => m.isNested = false := by
    intro t ht
    rw [hbase, List.any_eq_true] at ht
    obtain ⟨u, hu, hsame⟩ := ht
    exact vocabulary_not_nested.madeOf_congr hsame (hgiven u hu)
  refine completes_additions helementary hmonotonic hadded (lasting_operate Work.restart e) ?_
  refine (completes_recompute hwired helementary htame hnetwork hreachable.sound hflat
    hopen).mono fun e' ⟨hsame, hsettling⟩ => ?_
  exact ⟨hsettling hmonotonic, fun t => by rw [hsame, hbase]⟩

variable {rules : List Rule}

/-- What the rules conclude from triples: whatever belongs to all closed sets over a base
that holds them.  The calls are asked in an empty view. -/
def conclusionsFrom (rules : List Rule) (ts : List Triple) : Set Triple :=
  {t | ∀ S : Set Triple, (∀ base : MemoryGraph, (∀ u, base.contains u = ts.any (· == u)) →
    Closed rules Registry.standard base ⟨.empty, .empty⟩ S) → t ∈ S}

theorem SettledOver.deductions_eq {ts : List Triple} (h : SettledOver n ts e)
    (hn : Network.compile rules Registry.standard = .ok n) (helementary : n.Elementary)
    (hmonotonic : n.isMonotonic = true) :
    {t | e.deductions.contains t = true} = conclusionsFrom rules ts := by
  obtain ⟨hsettling, hbase⟩ := h
  have hleast := hsettling.isLeast hn helementary (v := ⟨.empty, .empty⟩) (Or.inl hmonotonic)
  ext t
  constructor
  · exact fun ht S hS => hleast.2 (hS e.base hbase) ht
  · intro ht
    refine ht _ fun base hsame => ?_
    exact (Closed.congr_base fun u => (hbase u).trans (hsame u).symm).1 hleast.1

/-- Where nothing unsteady is called, the calls hold in every view or in none. -/
theorem callsHold_anywhere_of_monotonic (hn : Network.compile rules Registry.standard = .ok n)
    (hmonotonic : n.isMonotonic = true) (helementary : n.Elementary) {rule : Rule}
    (hrule : rule ∈ rules) (v v' : View MemoryGraph) {b : Bindings} (hb : b.Ground) :
    rule.CallsHold Registry.standard v b ↔ rule.CallsHold Registry.standard v' b := by
  obtain ⟨hwired, hregistry, hrules⟩ := Network.compile_eq_ok hn
  rw [← hregistry] at hrules ⊢
  obtain ⟨r, hc⟩ := exists_rule? (e := start n MemoryGraph.empty) hrules hrule
  exact helementary.callsHold_anywhere hwired hc (Network.isMonotonic_rule hmonotonic hc) hb v v'

/-- On a monotonic network the order of additions does not matter. -/
theorem deductions_of_load (hn : Network.compile rules Registry.standard = .ok n)
    (hmonotonic : n.isMonotonic = true) (hrules : ∀ rule ∈ rules, rule.Elementary)
    (hcalls : ∀ rule ∈ rules, rule.CallsOnly Registry.standard (· ∉ Builtin.unsteady))
    {ts : List Triple}
    (hts : ∀ t ∈ ts, t.isGround = true ∧ t.MadeOf fun m => m.isNested = false) :
    (∀ rule ∈ rules, ∀ (v v' : View MemoryGraph) (b : Bindings), b.Ground →
      (rule.CallsHold Registry.standard v b ↔ rule.CallsHold Registry.standard v' b)) ∧
    ∀ (e : Engine MemoryGraph) (given added : List Triple),
      e.network = n → e.isClosed = false → e.base.Reachable →
      (∀ t, e.base.contains t = given.any (· == t)) → (∀ t, t ∈ given ++ added ↔ t ∈ ts) →
      (∃ needed, ∀ budget, needed ≤ budget → ∃ e', e.load budget added = .done () e') ∧
      ∀ budget e', e.load budget added = .done () e' →
        {t | e'.deductions.contains t = true} = conclusionsFrom rules ts := by
  have hwired := (Network.compile_eq_ok hn).1
  have htame := Network.tame_of_elementary hn hrules
  have helementary := Network.elementary_of_monotonic hn hmonotonic hrules hcalls
  refine ⟨?_, ?_⟩
  · exact fun rule hrule v v' b hb =>
      callsHold_anywhere_of_monotonic hn hmonotonic helementary hrule v v' hb
  · intro e given added hnetwork hopen hreachable hbase hsame
    have hparts : ∀ t, t ∈ given ∨ t ∈ added → t ∈ ts :=
      fun t ht => (hsame t).1 (List.mem_append.2 ht)
    have hcompletes := completes_load hwired htame helementary hmonotonic hnetwork hopen
      hreachable hbase (fun t ht => (hts t (hparts t (Or.inl ht))).2)
      fun t ht => hts t (hparts t (Or.inr ht))
    constructor
    · obtain ⟨needed, hneeded⟩ := hcompletes
      refine ⟨needed, fun budget hbudget => ?_⟩
      obtain ⟨_, e', hdone, _⟩ := hneeded budget hbudget
      exact ⟨e', hdone⟩
    · intro budget e' hdone
      obtain ⟨hsettling, hbase'⟩ := hcompletes.of_done (lasting_load added e) hdone
      refine SettledOver.deductions_eq ⟨hsettling, fun t => ?_⟩ hn helementary hmonotonic
      rw [hbase', Bool.eq_iff_iff, List.any_eq_true, List.any_eq_true]
      exact exists_congr fun u => and_congr_left' (hsame u)

/-- What is passed on by something to something else reaches that from its giver. -/
def relaying : Rule :=
  .make none
    [.pattern ⟨.var ⟨"x", 0⟩, .uri "p", .var ⟨"y", 1⟩⟩,
      .pattern ⟨.var ⟨"y", 1⟩, .uri "r", .var ⟨"z", 2⟩⟩,
      .call ⟨"notEqual", [.var ⟨"x", 0⟩, .var ⟨"z", 2⟩]⟩]
    [.pattern ⟨.var ⟨"x", 0⟩, .uri "s", .var ⟨"z", 2⟩⟩] .forward

def relayNetwork : Network :=
  ((Network.compile [relaying] Registry.standard).toOption).getD default

def relay : Triple := ⟨.uri "b", .uri "r", .uri "c"⟩

def relayed : Triple := ⟨.uri "a", .uri "s", .uri "c"⟩

/-- What becomes of a base when the conclusions are computed and triples added. -/
def loaded (n : Network) (base : MemoryGraph) (added : List Triple) : Engine MemoryGraph :=
  ((start n base).load 40 added).state?.getD (start n base)

theorem compile_relaying : Network.compile [relaying] Registry.standard = .ok relayNetwork :=
  ok_getD_of_isSome (by decide +kernel)

theorem elementary_relaying : relaying.Elementary :=
  Rule.elementary_of_heads ⟨_, _, _, rfl⟩ (by decide +kernel) (by decide +kernel)

theorem callsOnly_relaying : relaying.CallsOnly Registry.standard (· ∉ Builtin.unsteady) :=
  Rule.callsOnly_of_all (by decide +kernel)

theorem load_eq_done {n : Network} {base : MemoryGraph} {added : List Triple}
    (h : ((start n base).load 40 added).isDone = true) :
    (start n base).load 40 added = .done () (loaded n base added) :=
  (Outcome.eq_done_of_isDone h (start n base)).choose_spec

theorem deductions_of_load_relaying :
    (loaded relayNetwork .empty [link, relay]).deductions.contains relayed = true ∧
    (∀ t, (loaded relayNetwork .empty [link, relay]).deductions.contains t =
      (loaded relayNetwork .empty [relay, link]).deductions.contains t) ∧
    ∀ t, (loaded relayNetwork .empty [link, relay]).deductions.contains t =
      (loaded relayNetwork (MemoryGraph.empty.plus link) [relay]).deductions.contains t := by
  have hrules : ∀ rule ∈ [relaying],
      rule.Elementary ∧ rule.CallsOnly Registry.standard (· ∉ Builtin.unsteady) := by
    intro rule hrule
    obtain rfl := List.mem_singleton.1 hrule
    exact ⟨elementary_relaying, callsOnly_relaying⟩
  have hts : ∀ t ∈ [link, relay], t.isGround = true ∧ t.MadeOf fun m => m.isNested = false := by
    unfold Triple.MadeOf
    decide +kernel
  have hload := (deductions_of_load compile_relaying (by decide +kernel)
    (fun rule hrule => (hrules rule hrule).1) (fun rule hrule => (hrules rule hrule).2) hts).2
  have hnone : ∀ t, MemoryGraph.empty.contains t = List.any [] (· == t) :=
    MemoryGraph.contains_empty
  have hone : ∀ t, (MemoryGraph.empty.plus link).contains t = [link].any (· == t) :=
    fun t => by rw [MemoryGraph.sound_empty.contains_plus rfl, hnone, List.any_nil,
      List.any_cons, List.any_nil, Bool.false_or, Bool.or_false]
  have hreachable : (MemoryGraph.empty.plus link).Reachable := MemoryGraph.Reachable.empty.add
    (MemoryGraph.sound_empty.add_eq (t := link) rfl)
  have hforth := (hload (start relayNetwork MemoryGraph.empty) [] [link, relay] rfl rfl .empty
    hnone fun t => Iff.rfl).2 40 _ (load_eq_done (by decide +kernel))
  have hback := (hload (start relayNetwork MemoryGraph.empty) [] [relay, link] rfl rfl .empty
    hnone fun t => by simp [or_comm]).2 40 _ (load_eq_done (by decide +kernel))
  have hstored := (hload (start relayNetwork (MemoryGraph.empty.plus link)) [link] [relay] rfl rfl
    hreachable hone fun t => Iff.rfl).2 40 _ (load_eq_done (by decide +kernel))
  exact ⟨by decide +kernel,
    fun t => Bool.eq_iff_iff.2 (Set.ext_iff.1 (hforth.trans hback.symm) t),
    fun t => Bool.eq_iff_iff.2 (Set.ext_iff.1 (hforth.trans hstored.symm) t)⟩

example : (loaded relayNetwork .empty [relay]).deductions.size = 0 := by decide +kernel

/-! ## A list that is complete too late -/

/-- The call walks along a list that the pattern only mentions. -/
def listing : Rule :=
  .make none
    [.pattern ⟨.var ⟨"x", 0⟩, .uri "p", .var ⟨"l", 1⟩⟩,
      .call ⟨"listContains", [.var ⟨"l", 1⟩, .uri "a"]⟩]
    [.pattern ⟨.var ⟨"x", 0⟩, .uri "q", .uri "yes"⟩] .forward

def listNetwork : Network :=
  ((Network.compile [listing] Registry.standard).toOption).getD default

/-- A list with one element. -/
def oneCell : List Triple :=
  [⟨.uri "l", .uri Vocabulary.first, .uri "a"⟩,
    ⟨.uri "l", .uri Vocabulary.rest, .uri Vocabulary.nil⟩]

def owning : Triple := ⟨.uri "x", .uri "p", .uri "l"⟩

def listed : Triple := ⟨.uri "x", .uri "q", .uri "yes"⟩

/-- The network counts as monotonic, but what was blocked before the list was there stays
blocked. -/
theorem not_deductions_of_load_listing :
    Network.compile [listing] Registry.standard = .ok listNetwork ∧
      listNetwork.isMonotonic = true ∧ listing.Elementary ∧
    (∃ early, (start listNetwork MemoryGraph.empty).load 40 (owning :: oneCell) = .done () early ∧
      early.deductions.contains listed = false) ∧
    ∃ late, (start listNetwork MemoryGraph.empty).load 40 (oneCell ++ [owning]) = .done () late ∧
      late.deductions.contains listed = true := by
  refine ⟨ok_getD_of_isSome (by decide +kernel), by decide +kernel,
    Rule.elementary_of_heads ⟨_, _, _, rfl⟩ (by decide +kernel) (by decide +kernel), ?_, ?_⟩
  · exact ⟨_, load_eq_done (by decide +kernel), by decide +kernel⟩
  · exact ⟨_, load_eq_done (by decide +kernel), by decide +kernel⟩

end Engine

end Entailment
