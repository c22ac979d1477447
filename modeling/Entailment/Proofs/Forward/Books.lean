import Entailment.Proofs.Forward.Work

/-!
# The books of an engine

What an engine notes of its firings are its books: the tokens with their firings, who
supports what, what is committed, how it was derived, and what is hidden.  Most work
changes the view or what waits, and leaves the books alone.  So a property that depends
on the books only has to be followed through the few operations that write them.  To look
for matches writes tokens only.
-/

namespace Entailment

/-- What an engine notes of its firings. -/
structure Books where
  network : Network
  memories : List TokenMemory
  nextToken : TokenId
  support : OrderedMap Triple (OrderedSet Activation)
  committed : OrderedSet Triple
  derivations : DerivationLog
  hidden : OrderedMap Node Nat
  logging : Bool

def Engine.books {γ : Type} (e : Engine γ) : Books where
  network := e.network
  memories := e.memories
  nextToken := e.nextToken
  support := e.support
  committed := e.committed
  derivations := e.derivations
  hidden := e.hidden
  logging := e.logging

namespace Work

variable {γ α β : Type} {P : Engine γ → Prop}

/-! ## Work that leaves the books alone -/

/-- The property depends on the books only. -/
def OfBooks (P : Engine γ → Prop) : Prop := ∀ e e', e'.books = e.books → P e → P e'

/-- The property depends on the books, and on how many firings there were and how many of
them were taken back. -/
def OfCounts (P : Engine γ → Prop) : Prop :=
  ∀ e e', e'.books = e.books → e'.stats.firings = e.stats.firings →
    e'.stats.retractions = e.stats.retractions → P e → P e'

theorem OfBooks.ofCounts (hP : OfBooks P) : OfCounts P := fun e e' hbooks _ _ => hP e e' hbooks

theorem OfBooks.count (hP : OfBooks P) (change : EngineStats → EngineStats) :
    Keeps P (count change : Work γ Unit) :=
  keeps_modify fun e => hP e _ rfl

theorem OfCounts.count (hP : OfCounts P) {change : EngineStats → EngineStats}
    (hfirings : ∀ s, (change s).firings = s.firings)
    (hretractions : ∀ s, (change s).retractions = s.retractions) :
    Keeps P (count change : Work γ Unit) :=
  keeps_modify fun e => hP e _ rfl (hfirings _) (hretractions _)

theorem OfCounts.queue (hP : OfCounts P) (event : Event) :
    Keeps P (modify fun e => e.queue event : Work γ PUnit) :=
  keeps_modify fun e => hP e _ rfl rfl rfl

theorem OfCounts.suspect (hP : OfCounts P) (t : Triple) : Keeps P (suspect t : Work γ Unit) :=
  keeps_modify fun e => hP e _ rfl rfl rfl

theorem OfCounts.report (hP : OfCounts P) (c : CompiledRule) (conclusions : List Triple) :
    Keeps P (report c conclusions : Work γ Unit) := by
  refine keeps_modify fun e he => ?_
  split
  · exact hP e _ rfl rfl rfl he
  · exact he

theorem OfCounts.retractDeduction (hP : OfCounts P) (t : Triple) :
    Keeps P (retractDeduction t : Work γ Bool) :=
  keeps_get_bind fun e he => keeps_bind (keeps_attempt _) fun _ =>
    keeps_bind (keeps_set (hP e _ rfl rfl rfl he)) fun _ => keeps_pure _

variable [Graph γ]

theorem keeps_inBase (t : Triple) : Keeps P (inBase t : Work γ Bool) :=
  keeps_get_bind fun _ _ => keeps_attempt _

theorem keeps_isVisible (t : Triple) : Keeps P (isVisible t : Work γ Bool) :=
  keeps_get_bind fun _ _ => keeps_attempt _

theorem OfCounts.withdraw (hP : OfCounts P) (t : Triple) : Keeps P (withdraw t : Work γ Unit) :=
  keeps_bind (hP.retractDeduction t) fun _ =>
    keeps_ite (keeps_bind (keeps_inBase t) fun _ => keeps_ite (keeps_pure _) (hP.queue _))
      (keeps_pure _)

theorem OfCounts.checkSupport (hP : OfCounts P) (t : Triple) :
    Keeps P (checkSupport t : Work γ Unit) := by
  refine keeps_get_bind fun _ _ => keeps_ite (keeps_pure _) ?_
  refine keeps_bind (keeps_inBase t) fun _ => keeps_ite (keeps_pure _) ?_
  refine keeps_get_bind fun _ _ => keeps_ite (keeps_pure _) ?_
  refine keeps_bind (hP.count (fun _ => rfl) fun _ => rfl) fun _ => keeps_get_bind fun _ _ => ?_
  refine keeps_bind (keeps_attempt _) fun _ => keeps_ite (keeps_pure _) ?_
  exact keeps_bind (hP.count (fun _ => rfl) fun _ => rfl) fun _ => hP.withdraw t

theorem OfCounts.assert (hP : OfCounts P) (t : Triple) : Keeps P (assert t : Work γ Unit) :=
  keeps_get_bind fun e he => keeps_bind (keeps_attempt _) fun _ =>
    keeps_bind (keeps_set (hP e _ rfl rfl rfl he)) fun _ =>
      keeps_ite (keeps_bind (keeps_inBase t) fun _ => keeps_ite (keeps_pure _) (hP.queue _))
        (keeps_pure _)

theorem OfCounts.stillHolds (hP : OfCounts P) (c : CompiledRule) (triples : List Triple) :
    Keeps P (stillHolds c triples : Work γ Bool) :=
  keeps_get_bind fun e he => keeps_bind (keeps_attempt _) fun _ =>
    keeps_bind (keeps_set (hP e _ rfl rfl rfl he)) fun _ => keeps_pure _

/-! ## Work that leaves tokens and hiding alone -/

/-- The property depends on the tokens with their firings, and on what is hidden. -/
def OfTokens (P : Engine γ → Prop) : Prop :=
  ∀ e e', e'.network = e.network → e'.memories = e.memories → e'.nextToken = e.nextToken →
    e'.hidden = e.hidden → P e → P e'

/-- The same, and on how many firings there were and how many of them were taken back. -/
def OfTallies (P : Engine γ → Prop) : Prop :=
  ∀ e e', e'.network = e.network → e'.memories = e.memories → e'.nextToken = e.nextToken →
    e'.hidden = e.hidden → e'.stats.firings = e.stats.firings →
    e'.stats.retractions = e.stats.retractions → P e → P e'

omit [Graph γ] in
theorem OfTokens.ofBooks (hP : OfTokens P) : OfBooks P := fun e e' h =>
  hP e e' (congrArg Books.network h) (congrArg Books.memories h) (congrArg Books.nextToken h)
    (congrArg Books.hidden h)

omit [Graph γ] in
theorem OfTokens.ofTallies (hP : OfTokens P) : OfTallies P :=
  fun e e' hnetwork hmemories hnext hhidden _ _ => hP e e' hnetwork hmemories hnext hhidden

omit [Graph γ] in
theorem OfTallies.ofCounts (hP : OfTallies P) : OfCounts P := fun e e' h =>
  hP e e' (congrArg Books.network h) (congrArg Books.memories h) (congrArg Books.nextToken h)
    (congrArg Books.hidden h)

omit [Graph γ] in
theorem OfTallies.credit (hP : OfTallies P) (a : Activation) (c : CompiledRule)
    (matched : List (Option Triple)) (t : Triple) :
    Keeps P (credit a c matched t : Work γ Unit) := by
  refine keeps_modify fun e he => ?_
  simp only
  split <;> split <;> exact hP e _ rfl rfl rfl rfl rfl rfl he

theorem OfTallies.unsupport (hP : OfTallies P) (a : Activation) (c : CompiledRule)
    (matched : List (Option Triple)) (t : Triple) :
    Keeps P (unsupport a c matched t : Work γ Unit) := by
  have hbeside : BesideSupport P := fun e _ _ _ => hP e _ rfl rfl rfl rfl rfl rfl
  exact hbeside.unsupport (hP.ofCounts.withdraw t) a c matched

theorem OfTallies.removeEverywhere (hP : OfTallies P) (announced : Bool) (t : Triple) :
    Keeps P (removeEverywhere announced t : Work γ Unit) :=
  keeps_get_bind fun e he => keeps_bind (keeps_attempt _) fun _ =>
    keeps_bind (keeps_set (hP e _ rfl rfl rfl rfl rfl rfl he)) fun _ =>
      keeps_bind (hP.ofCounts.retractDeduction t) fun _ =>
        keeps_bind (keeps_modify fun e => hP e _ rfl rfl rfl rfl rfl rfl) fun _ =>
          keeps_ite (hP.ofCounts.queue _) (keeps_pure _)

/-! ## Work that changes tokens only -/

/-- The property does not depend on the tokens with their firings, nor on the agenda. -/
def BesideTokens (P : Engine γ → Prop) : Prop :=
  ∀ (e : Engine γ) memories nextToken agenda, P e → P { e with memories, nextToken, agenda }

omit [Graph γ] in
theorem BesideTokens.store (hP : BesideTokens P) (c : CompiledRule) (s : Subscriber)
    (m : PartialMatch) : Keeps P (store c s m : Work γ (Option TokenId)) := by
  refine keeps_get_bind fun e he => ?_
  simp only
  split
  · exact keeps_pure _
  · exact keeps_bind (keeps_set (hP e _ _ _ he)) fun _ => keeps_pure _

omit [Graph γ] in
theorem BesideTokens.complete (hP : BesideTokens P) (c : CompiledRule) (s : Subscriber)
    (m : PartialMatch) : Keeps P (complete c s m : Work γ Unit) := by
  refine keeps_bind (hP.store c s m) fun stored => ?_
  cases stored with
  | none => exact keeps_pure _
  | some id => exact keeps_modify fun e => hP e _ _ _

theorem BesideTokens.extend (hP : BesideTokens P) (c : CompiledRule) (s : Subscriber)
    (next : Triple) (m : PartialMatch) :
    Keeps P (extend c s next m : Work γ (List PartialMatch)) := by
  refine keeps_bind (hP.store c s m) fun stored => ?_
  cases stored with
  | none => exact keeps_pure _
  | some id => exact keeps_get_bind fun _ _ => keeps_bind (keeps_attempt _) fun _ => keeps_pure _

theorem BesideTokens.grow (hP : BesideTokens P) (c : CompiledRule) (rule : Nat)
    (following : List Triple) (level : Nat) (found : List PartialMatch) :
    Keeps P (grow c rule level following found : Work γ Unit) := by
  induction following generalizing level found with
  | nil => exact keeps_forM (hP.complete c _) _
  | cons next following ih =>
      exact keeps_bind (keeps_mapM (hP.extend c _ next) _) fun _ => ih _ _

/-- To join a triple stores tokens, and does nothing else. -/
theorem BesideTokens.activate (hP : BesideTokens P) (t : Triple) (s : Subscriber) :
    Keeps P (activate t s : Work γ Unit) := by
  refine keeps_get_bind fun e _ => ?_
  split
  · exact keeps_pure _
  · split
    · exact keeps_pure _
    · exact hP.grow _ _ _ _ _

end Work

end Entailment
