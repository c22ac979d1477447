import Entailment.Proofs.Builtin.Keeping

/-!
# What calls rely on

The answer of a builtin, and what it binds, are mostly settled by what the call can see:
its context, its arguments and the bindings.  Among the standard builtins only the clock
and fresh blank nodes come from elsewhere.  Only the division of integers can stop the run.
-/

namespace Entailment

/-- An integer division has overflowed, which stops the run. -/
def World.isStopped (w : World) : Bool := w.journal.overflowed

/-- The procedure answers and binds, and stops the run or not, as its context, its
arguments and the bindings tell. -/
def Procedure.Determinate (procedure : Procedure) : Prop :=
  ∀ (ctx : CallContext) (args : List Node) (st st' : CallState), st'.bindings = st.bindings →
    st'.world.isStopped = st.world.isStopped →
    (procedure ctx args st').1 = (procedure ctx args st).1 ∧
      (procedure ctx args st').2.bindings = (procedure ctx args st).2.bindings ∧
      (procedure ctx args st').2.world.isStopped = (procedure ctx args st).2.world.isStopped

/-- The procedure does not stop the run. -/
def Procedure.Calm (procedure : Procedure) : Prop :=
  ∀ (ctx : CallContext) (args : List Node) (st : CallState),
    (procedure ctx args st).2.world.isStopped = st.world.isStopped

namespace CallState

/-- From the two states the results are the same as far as a rule can see, and the run
goes on. -/
structure Concur (st st' : CallState) (result result' : Bool × CallState) : Prop where
  answer : result'.1 = result.1
  bindings : result'.2.bindings = result.2.bindings
  goesOn : result.2.world.isStopped = st.world.isStopped
  goesOn' : result'.2.world.isStopped = st'.world.isStopped

variable {st st' : CallState}

theorem concur_test (h : st'.bindings = st.bindings) (answer : Bool) :
    st.Concur st' (answer, st) (answer, st') := ⟨rfl, h, rfl, rfl⟩

theorem concur_bind (h : st'.bindings = st.bindings) (target value : Node) :
    st.Concur st' (st.bind target value) (st'.bind target value) := by
  refine ⟨?_, ?_, rfl, rfl⟩ <;> rw [bind, bind, h]

theorem concur_bindNumber (h : st'.bindings = st.bindings) (target : Node) (value : Numeric) :
    st.Concur st' (st.bindNumber target value) (st'.bindNumber target value) := by
  unfold bindNumber
  split
  · exact concur_test h _
  · exact concur_bind h _ _

theorem concur_bindNumber? (h : st'.bindings = st.bindings) (target : Node)
    (value : Option Numeric) :
    st.Concur st' (st.bindNumber? target value) (st'.bindNumber? target value) := by
  cases value with
  | some n => exact concur_bindNumber h target n
  | none => exact concur_test h false

theorem concur_bindEach {pairs : List (Node × Node)} (h : st'.bindings = st.bindings) :
    st.Concur st' (Builtin.bindEach pairs st) (Builtin.bindEach pairs st') := by
  induction pairs generalizing st st' with
  | nil => exact concur_test h true
  | cons pair pairs ih =>
      have hbind := concur_bind h pair.1 pair.2
      unfold Builtin.bindEach
      generalize st.bind pair.1 pair.2 = result at hbind ⊢
      generalize st'.bind pair.1 pair.2 = result' at hbind ⊢
      obtain ⟨answer, mid⟩ := result
      obtain ⟨answer', mid'⟩ := result'
      obtain ⟨hanswer, hbindings, hgoes, hgoes'⟩ := hbind
      obtain rfl : answer' = answer := hanswer
      cases answer' with
      | false => exact ⟨rfl, hbindings, hgoes, hgoes'⟩
      | true =>
          obtain ⟨hanswer, hrest, hon, hon'⟩ := ih hbindings
          exact ⟨hanswer, hrest, hon.trans hgoes, hon'.trans hgoes'⟩

end CallState

/-- Where the bindings are the same, the procedure does the same, and the run goes on. -/
def Procedure.Reliable (procedure : Procedure) : Prop :=
  ∀ (ctx : CallContext) (args : List Node) (st st' : CallState), st'.bindings = st.bindings →
    st.Concur st' (procedure ctx args st) (procedure ctx args st')

namespace Procedure.Reliable

variable {procedure : Procedure}

theorem calm (h : procedure.Reliable) : procedure.Calm :=
  fun ctx args st => (h ctx args st st rfl).goesOn

theorem determinate (h : procedure.Reliable) : procedure.Determinate := by
  intro ctx args st st' hbindings hstopped
  obtain ⟨hanswer, hbound, hgoes, hgoes'⟩ := h ctx args st st' hbindings
  exact ⟨hanswer, hbound, by rw [hgoes, hgoes', hstopped]⟩

end Procedure.Reliable

namespace Builtin

open CallState

variable {st st' : CallState}

/-! ## The standard builtins -/

theorem reliable_ofTest (name : String) (arity : Nat) (test : List Node → Bool) :
    Procedure.Reliable (ofTest name arity test).body :=
  fun _ _ _ _ h => concur_test h _

/-- Where the integers do not overflow, an operation does the same in the same bindings. -/
theorem arithmetic_cases {name : String} {whole : Int64 → Int64 → WholeResult}
    {real : Double → Double → Option Double} (ctx : CallContext) (args : List Node)
    (h : st'.bindings = st.bindings) :
    st.Concur st' ((arithmetic name whole real).body ctx args st)
        ((arithmetic name whole real).body ctx args st') ∨
      (∃ i j, whole i j = .overflow) ∧
        (arithmetic name whole real).body ctx args st = (false, st.overflow) ∧
        (arithmetic name whole real).body ctx args st' = (false, st'.overflow) := by
  simp only [arithmetic]
  split
  · split
    · split
      · split
        · exact .inl (concur_bindNumber h _ _)
        · exact .inl (concur_bindNumber? h _ _)
        · exact .inr ⟨⟨_, _, ‹_›⟩, rfl, rfl⟩
      · exact .inl (concur_bindNumber? h _ _)
    · exact .inl (concur_test h _)
  · exact .inl (concur_test h _)

theorem reliable_arithmetic {name : String} {whole : Int64 → Int64 → WholeResult}
    {real : Double → Double → Option Double} (hwhole : ∀ i j, whole i j ≠ .overflow) :
    Procedure.Reliable (arithmetic name whole real).body :=
  fun ctx args _ _ h => (arithmetic_cases ctx args h).resolve_right
    fun ⟨⟨i, j, hover⟩, _⟩ => hwhole i j hover

theorem determinate_arithmetic (name : String) (whole : Int64 → Int64 → WholeResult)
    (real : Double → Double → Option Double) :
    Procedure.Determinate (arithmetic name whole real).body := by
  intro ctx args st st' hbindings hstopped
  rcases arithmetic_cases ctx args hbindings with ⟨hanswer, hbound, hgoes, hgoes'⟩ | ⟨_, hst, hst'⟩
  · exact ⟨hanswer, hbound, by rw [hgoes, hgoes', hstopped]⟩
  · rw [hst, hst']
    exact ⟨rfl, hbindings, rfl⟩

theorem WholeResult.ofInt_ne_overflow (n : Int) : WholeResult.ofInt n ≠ .overflow := by
  unfold WholeResult.ofInt
  split <;> nofun

theorem reliable_successor : Procedure.Reliable successor.body := by
  intro ctx args st st' h
  simp only [successor]
  split
  · split
    · exact concur_bindNumber? h _ _
    · exact concur_bindNumber h _ _
    · exact concur_test h _
  · exact concur_test h _

theorem reliable_extremum (name : String) (takesFirst : Ordering → Bool) :
    Procedure.Reliable (extremum name takesFirst).body := by
  intro ctx args st st' h
  simp only [extremum]
  split
  · split
    · split
      · exact concur_bind h _ _
      · exact concur_test h _
    · exact concur_test h _
  · exact concur_test h _

theorem reliable_concatenation (name : String) (make : String → Node) :
    Procedure.Reliable (concatenation name make).body := by
  intro ctx args st st' h
  simp only [concatenation]
  split
  · exact concur_test h _
  · split
    · exact concur_bind h _ _
    · exact concur_test h _

theorem reliable_regexMatch : Procedure.Reliable regexMatch.body := by
  intro ctx args st st' h
  simp only [regexMatch]
  split
  · split
    · split
      · exact concur_bindEach h
      · exact concur_test h _
    · exact concur_test h _
  · exact concur_test h _

theorem reliable_textLength : Procedure.Reliable textLength.body := by
  intro ctx args st st' h
  simp only [textLength]
  split
  · split
    · exact concur_bind h _ _
    · exact concur_test h _
  · exact concur_test h _

theorem reliable_membership (name : String) (expected : Bool) :
    Procedure.Reliable (membership name expected).body := by
  intro ctx args st st' h
  simp only [membership]
  split
  · exact concur_test h _
  · exact concur_test h _

theorem reliable_chainLength : Procedure.Reliable chainLength.body := by
  intro ctx args st st' h
  simp only [chainLength]
  split
  · split
    · exact concur_bind h _ _
    · exact concur_test h _
  · exact concur_test h _

theorem reliable_chainEntry : Procedure.Reliable chainEntry.body := by
  intro ctx args st st' h
  simp only [chainEntry]
  split
  · split
    · exact concur_bind h _ _
    · exact concur_test h _
  · exact concur_test h _

theorem reliable_noValue : Procedure.Reliable noValue.body := by
  intro ctx args st st' h
  simp only [noValue]
  split
  · exact concur_test h _
  · exact concur_test h _

theorem reliable_hidePredicate : Procedure.Reliable hidePredicate.body := by
  intro ctx args st st' h
  simp only [hidePredicate]
  split
  · split
    · simp only [hide, effect]
      cases ctx.speculative <;> cases ctx.keepsEffects <;> exact ⟨rfl, h, rfl, rfl⟩
    · exact concur_test h _
  · exact concur_test h _

theorem reliable_printLine : Procedure.Reliable printLine.body := by
  intro ctx args st st' h
  simp only [printLine]
  cases ctx.speculative <;> exact ⟨rfl, h, rfl, rfl⟩

theorem reliable_makeSkolem : Procedure.Reliable makeSkolem.body := by
  intro ctx args st st' h
  simp only [makeSkolem]
  split
  · split
    · exact concur_bind h _ _
    · exact concur_test h _
  · exact concur_test h _

def quotient : Builtin := arithmetic "quotient" WholeResult.quotient Double.divided?

/-- All standard builtins but three are reliable. -/
theorem reliable_or_eq_of_mem_standard {b : Builtin} (hb : b ∈ standard) :
    Procedure.Reliable b.body ∨ b = quotient ∨ b = makeTemp ∨ b = now := by
  simp only [standard, List.mem_append] at hb
  rcases hb with ((((hb | hb) | hb) | hb) | hb) | hb
  · refine .inl ?_
    simp only [comparisons, List.mem_cons, List.not_mem_nil, or_false] at hb
    rcases hb with rfl | rfl | rfl | rfl | rfl | rfl <;> exact reliable_ofTest _ _ _
  · simp only [arithmetics, List.mem_cons, List.not_mem_nil, or_false] at hb
    rcases hb with rfl | rfl | rfl | rfl | rfl | rfl | rfl
    · exact .inl (reliable_arithmetic fun _ _ => WholeResult.ofInt_ne_overflow _)
    · exact .inl (reliable_arithmetic fun _ _ => WholeResult.ofInt_ne_overflow _)
    · exact .inl (reliable_arithmetic fun _ _ => WholeResult.ofInt_ne_overflow _)
    · exact .inr (.inl rfl)
    · exact .inl (reliable_extremum _ _)
    · exact .inl (reliable_extremum _ _)
    · exact .inl reliable_successor
  · refine .inl ?_
    simp only [kindTests, List.mem_cons, List.not_mem_nil, or_false] at hb
    rcases hb with rfl | rfl | rfl | rfl | rfl | rfl | rfl | rfl | rfl <;>
      exact reliable_ofTest _ _ _
  · refine .inl ?_
    simp only [texts, List.mem_cons, List.not_mem_nil, or_false] at hb
    rcases hb with rfl | rfl | rfl | rfl
    · exact reliable_concatenation _ _
    · exact reliable_concatenation _ _
    · exact reliable_regexMatch
    · exact reliable_textLength
  · refine .inl ?_
    simp only [chains, List.mem_cons, List.not_mem_nil, or_false] at hb
    rcases hb with rfl | rfl | rfl | rfl
    · exact reliable_membership _ _
    · exact reliable_membership _ _
    · exact reliable_chainLength
    · exact reliable_chainEntry
  · simp only [actions, List.mem_cons, List.not_mem_nil, or_false] at hb
    rcases hb with rfl | rfl | rfl | rfl | rfl | rfl | rfl | rfl
    · exact .inl reliable_noValue
    · exact .inl fun _ _ _ _ h => concur_test h false
    · exact .inl fun _ _ _ _ h => concur_test h false
    · exact .inl reliable_hidePredicate
    · exact .inl reliable_printLine
    · exact .inr (.inr (.inl rfl))
    · exact .inl reliable_makeSkolem
    · exact .inr (.inr (.inr rfl))

/-- What a safe standard builtin answers and binds is settled by what the call can see,
unless it reads the clock. -/
theorem determinate_of_mem_standard {b : Builtin} (hb : b ∈ standard) (hsafe : b.safe = true)
    (hnow : b.name ≠ "now") : Procedure.Determinate b.body := by
  rcases reliable_or_eq_of_mem_standard hb with h | rfl | rfl | rfl
  · exact h.determinate
  · exact determinate_arithmetic _ _ _
  · cases hsafe
  · exact absurd rfl hnow

/-- No standard builtin but the quotient stops the run. -/
theorem calm_of_mem_standard {b : Builtin} (hb : b ∈ standard) (hname : b.name ≠ "quotient") :
    Procedure.Calm b.body := by
  rcases reliable_or_eq_of_mem_standard hb with h | rfl | rfl | rfl
  · exact h.calm
  · exact absurd rfl hname
  · intro ctx args st
    cases args <;> rfl
  · intro ctx args st
    cases args <;> rfl

end Builtin

end Entailment
