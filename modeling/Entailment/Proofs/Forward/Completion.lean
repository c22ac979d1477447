import Entailment.Proofs.Forward.Continuance
import Entailment.Proofs.Forward.Order

/-!
# Operations come to an end

Over facts without a functor inside a functor, an engine with modest rules finishes every
operation, however its rules depend on themselves or negate each other, whatever has been
added, deleted, announced or recomputed before, whether what was announced is so or not,
and even if others have changed the base without notice.  How often it may ask again does
not matter.  If no call of the rules stops the run, none of the operations does.
-/

namespace Entailment

/-- No fact of the graph has a functor inside a functor: functors do not nest, and where a
fact would have one that does, each instance of a head would get a blank node of its own. -/
def MemoryGraph.Flat (g : MemoryGraph) : Prop :=
  ∀ t, g.contains t = true → t.MadeOf fun m => m.isNested = false

/-- The operation is not to close the engine, and adds no functor inside a functor. -/
structure Operation.Ordinary (o : Operation) : Prop where
  ne_close : o ≠ .close
  flat : ∀ t, o = .add t → t.MadeOf fun m => m.isNested = false

namespace Engine

variable {e e' : Engine MemoryGraph} {n : Network} {o : Operation}

/-- An able engine that waits for operations. -/
structure Awaiting (n : Network) (e : Engine MemoryGraph) : Prop where
  able : Able (fun m => m.isNested = false) n e.maxRechecks e
  quiet : e.Quiet
  isOpen : e.isClosed = false

theorem awaiting_start (hwired : n.Wired) {base : MemoryGraph} (hbase : base.Reachable)
    (hflat : base.Flat) : (start n base).Awaiting n where
  able := by
    refine ⟨sturdy_start hwired hbase.sound, rfl, fun t ht => hflat t ?_, fun r id token hid => ?_⟩
    · change (base.contains t || MemoryGraph.empty.contains t) = true at ht
      rwa [MemoryGraph.contains_empty, Bool.or_false] at ht
    · rw [show (start n base).memory r = .empty from Work.memory_reset (start n base) r] at hid
      cases hid
  quiet := ⟨rfl, rfl, rfl⟩
  isOpen := rfl

namespace Awaiting

theorem of_agree (h : e.Awaiting n)
    (hagree : e' = { e with
      derivations := e'.derivations
      logging := e'.logging
      traceFirings := e'.traceFirings
      maxRechecks := e'.maxRechecks
      world := e'.world }) : e'.Awaiting n := by
  rw [hagree]
  exact ⟨⟨h.able.sturdy.of_agree rfl, rfl, h.able.seen, h.able.held⟩,
    ⟨h.quiet.events, h.quiet.agenda, h.quiet.suspects⟩, h.isOpen⟩

/-- Others may put any other facts into the base. -/
theorem rebased (h : e.Awaiting n) {base : MemoryGraph} (hbase : base.Reachable)
    (hflat : base.Flat) : Awaiting n { e with base } where
  able := by
    refine ⟨h.able.sturdy.shift rfl hbase.sound h.able.sturdy.orderly.deductions, rfl,
      fun t ht => ?_, h.able.held⟩
    change (base.contains t || e.deductions.contains t) = true at ht
    rw [Bool.or_eq_true] at ht
    rcases ht with ht | ht
    · exact hflat t ht
    · exact h.able.seen t (show (e.base.contains t || e.deductions.contains t) = true by
        rw [ht, Bool.or_true])
  quiet := ⟨h.quiet.events, h.quiet.agenda, h.quiet.suspects⟩
  isOpen := h.isOpen

/-- With whatever budget, an operation is refused, has not come to an end, or leaves an
engine that waits. -/
theorem operate (h : e.Awaiting n) (hn : n.Modest) (ho : o.Ordinary) (budget : Nat) :
    (∃ t, o = .add t ∧ t.isGround = false ∧
      o.perform budget e = .failed (.graph (.invalidTriple t)) e) ∨
    o.perform budget e = .unfinished ∨ ∃ e', o.perform budget e = .done () e' ∧ e'.Awaiting n := by
  rw [Operation.perform_eq ho.ne_close]
  rcases h.able.request hn.spoken_flat.vocabulary h.quiet.events ho.ne_close ho.flat with
    ⟨t, hadd, ht, hrefused⟩ | hgranted
  · exact Or.inl ⟨t, hadd, ht, operate_of_error h.isOpen hrefused⟩
  right
  obtain ⟨_, e₁, hrequest, hable, _⟩ := hgranted.exists_ok
  rw [operate_of_ok h.isOpen hrequest]
  rcases hable.run hn hn.spoken_flat budget 0 with hrun | ⟨e', hrun, hable', hquiet, hidle⟩
  · rw [hrun]
    exact Or.inl rfl
  · rw [hrun]
    refine Or.inr ⟨e', rfl, hable'.maxRechecks_eq.symm ▸ hable', hquiet, ?_⟩
    rw [isClosed, hidle]
    rfl

end Awaiting

/-- Between ordinary operations an engine waits. -/
theorem Operated.awaiting
    (h : Operated n (fun base => base.Reachable ∧ base.Flat) Operation.Ordinary e)
    (hwired : n.Wired) (hn : n.Modest) : e.Awaiting n := by
  induction h with
  | start hbase => exact awaiting_start hwired hbase.1 hbase.2
  | performed _ ho hleaves ih =>
      rcases ih.operate hn ho _ with ⟨_, _, _, hout⟩ | hout | ⟨_, hout, hawaiting⟩ <;>
        rw [hout] at hleaves
      · exact Option.some.inj hleaves ▸ ih
      · cases hleaves
      · exact Option.some.inj hleaves ▸ hawaiting
  | rebased _ hbase ih => exact ih.rebased hbase.1 hbase.2
  | logging _ ih => exact ih.of_agree rfl
  | settings _ ih => exact ih.of_agree rfl

/-- Every operation is refused at once or comes to an end, and the run goes on if no call
stops it. -/
theorem completes_of_operated {rules : List Rule} {registry : Registry}
    (hn : Network.compile rules registry = .ok n) (hhead : ∀ rule ∈ rules, rule.Contained)
    (hcalls : ∀ rule ∈ rules, ∀ call, Clause.call call ∈ rule.body → ∀ b,
      registry.get? call.name = some b → b.Inquires)
    (h : Operated n (fun base => base.Reachable ∧ base.Flat) Operation.Ordinary e)
    (ho : o.Ordinary) :
    (∃ t, o = .add t ∧ t.isGround = false ∧
      ∀ budget, o.perform budget e = .failed (.graph (.invalidTriple t)) e) ∨
    ∃ needed e', e'.Quiet ∧ e'.state = .idle ∧
      (∀ budget, needed ≤ budget → o.perform budget e = .done () e') ∧
      ((∀ rule ∈ rules, rule.Calm registry) → e'.world.isStopped = e.world.isStopped) := by
  have hmodest := Network.modest_of_compile hn hhead hcalls
  have hawaiting := h.awaiting (Network.compile_eq_ok hn).1 hmodest
  rcases hawaiting.able.request hmodest.spoken_flat.vocabulary hawaiting.quiet.events
      ho.ne_close ho.flat with ⟨t, hadd, ht, hrefused⟩ | hgranted
  · refine Or.inl ⟨t, hadd, ht, fun _ => ?_⟩
    rw [Operation.perform_eq ho.ne_close, operate_of_error hawaiting.isOpen hrefused]
  right
  obtain ⟨_, e₁, hrequest, hable, hone⟩ := hgranted.exists_ok
  have hhalts : Halts 0 e₁ := hable.halts hmodest hone
  obtain ⟨needed, hneeded⟩ := hhalts
  obtain ⟨_, e', hdone, _⟩ := hneeded needed (Nat.le_refl _)
  have hperformed : o.perform needed e = .done () e' := by
    rw [Operation.perform_eq ho.ne_close, operate_of_ok hawaiting.isOpen hrequest, hdone]
    rfl
  rcases hable.run hmodest hmodest.spoken_flat needed 0 with hrun | ⟨e₂, hrun, _, hquiet, hidle⟩ <;>
    rw [hdone] at hrun <;> cases hrun
  refine ⟨needed, e', hquiet, hidle, fun budget hle => ?_, fun hcalm => ?_⟩
  · rw [Operation.perform_eq ho.ne_close] at hperformed ⊢
    exact lasting_operate o.request e _ _ _ _ hperformed hle
  · have hnetwork : e.network.Calm := by
      rw [hawaiting.able.sturdy.network_eq]
      exact Network.calm_of_compile hn hhead hcalm
    have hleft : (o.perform needed e).state? = some e' := by
      rw [hperformed]
      rfl
    have hopen : e'.isClosed = false := by
      rw [isClosed, hidle]
      rfl
    exact isStopped_of_perform hnetwork hleft hopen

/-- A link gets a link back if there is none, which is to say that it gets one if it does
not get one. -/
def answering : Rule :=
  .make none
    [.pattern ⟨.var ⟨"x", 0⟩, .uri "p", .var ⟨"y", 1⟩⟩,
      .call ⟨"noValue", [.var ⟨"y", 1⟩, .uri "p", .var ⟨"x", 0⟩]⟩]
    [.pattern ⟨.var ⟨"y", 1⟩, .uri "p", .var ⟨"x", 0⟩⟩] .forward

def restlessNetwork : Network :=
  ((Network.compile [answering] Registry.standard).toOption).getD default

/-- The engine that may ask again three times, after a link was added. -/
def restless : Engine MemoryGraph :=
  let e := { start restlessNetwork MemoryGraph.empty with maxRechecks := 3 }
  ((Operation.add link).perform 40 e).state?.getD e

theorem compile_restless :
    Network.compile [answering] Registry.standard = .ok restlessNetwork :=
  ok_getD_of_isSome (by decide +kernel)

theorem operated_restless : Operated restlessNetwork (fun base => base.Reachable ∧ base.Flat)
    Operation.Ordinary restless := by
  have hstart : MemoryGraph.empty.Flat := by
    intro t ht
    rw [MemoryGraph.contains_empty] at ht
    cases ht
  have hlink : (Operation.add link).Ordinary := by
    refine ⟨nofun, fun t ht => ?_⟩
    cases ht
    show ∀ m ∈ link.nodes, m.isNested = false
    decide +kernel
  have hadded : ((Operation.add link).perform 40
      { start restlessNetwork MemoryGraph.empty with maxRechecks := 3 }).state? = some restless :=
    Outcome.state?_eq_getD (by decide +kernel) _
  exact .performed (.settings (.start ⟨.empty, hstart⟩)) hlink hadded

/-- Asking again settles nothing. -/
theorem completes_restless : restless.stats.rechecks = restless.maxRechecks ∧
    ∃ needed e', e'.Quiet ∧ e'.state = .idle ∧
      (∀ budget, needed ≤ budget →
        (Operation.delete link).perform budget restless = .done () e') ∧
      e'.world.isStopped = restless.world.isStopped := by
  have hhead : ∀ rule ∈ [answering], rule.Contained := by
    intro rule hrule
    obtain rfl := List.mem_singleton.1 hrule
    exact (Rule.elementary_of_heads ⟨_, _, _, rfl⟩ (by decide +kernel) (by decide +kernel)).contained
  have hcalm : ∀ rule ∈ [answering], rule.Calm Registry.standard := by
    intro rule hrule
    obtain rfl := List.mem_singleton.1 hrule
    exact Rule.calm_of_standard (by decide +kernel)
  refine ⟨by decide +kernel, ?_⟩
  rcases completes_of_operated (o := .delete link) compile_restless hhead
    (fun _ _ _ _ b hb => Builtin.inquires_of_mem_standard b (Registry.mem_standard hb))
    operated_restless ⟨nofun, nofun⟩ with
    ⟨t, ht, _, _⟩ | ⟨needed, e', hquiet, hidle, hdone, hstopped⟩
  · cases ht
  · exact ⟨needed, e', hquiet, hidle, hdone, hstopped hcalm⟩

/-- A rule that divides what it finds by minus one. -/
def dividing : Rule :=
  .make none
    [.pattern ⟨.var ⟨"x", 0⟩, .uri "p", .var ⟨"y", 1⟩⟩,
      .call ⟨"quotient", [.var ⟨"y", 1⟩, .integer (-1), .var ⟨"z", 2⟩]⟩]
    [.pattern ⟨.var ⟨"x", 0⟩, .uri "q", .uri "ok"⟩] .forward

def dividingNetwork : Network :=
  ((Network.compile [dividing] Registry.standard).toOption).getD default

/-- The engine whose base has the smallest integer. -/
def undivided : Engine MemoryGraph :=
  start dividingNetwork (MemoryGraph.empty.plus ⟨.uri "a", .uri "p", .integer Int64.minValue⟩)

/-- The smallest integer has no quotient by minus one.  To initialize the engine stops the run,
as does telling it of the fact. -/
theorem not_completes_dividing :
    Network.compile [dividing] Registry.standard = .ok dividingNetwork ∧
      undivided.world.isStopped = false ∧
      ∀ o ∈ [Operation.recompute, .announce (.added ⟨.uri "a", .uri "p", .integer Int64.minValue⟩)],
        ((o.perform 20 undivided).state?.map fun e => e.world.isStopped) = some true :=
  ⟨ok_getD_of_isSome (by decide +kernel), by decide +kernel, by decide +kernel⟩

end Engine

end Entailment
