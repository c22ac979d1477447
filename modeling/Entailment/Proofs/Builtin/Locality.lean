import Entailment.Proofs.Builtin.Keeping
import Entailment.Proofs.Matching.Likeness

/-!
# What a builtin reads of an environment

A builtin is local if it reads no more of the bindings than the slots of the variables in
its arguments.  Where two environments hold the same in these and in any other slots, it
gives the same answer in both, and they hold the same in all of them afterwards.  What has
been written, the effects that were asked for and whether the call is speculative make no
difference.  The standard builtins are local, but for the one that reads the clock and the
one that makes fresh blank nodes.
-/

namespace Entailment

/-! ## Environments that share slots -/

namespace Bindings

/-- The environments have no aliases, and hold the same in the given slots. -/
structure Shares (b b' : Bindings) (is : List Nat) : Prop where
  ground : b.Ground
  other : b'.Ground
  length_eq : b.length = b'.length
  held : ∀ i ∈ is, b.held? i = b'.held? i

variable {b b' : Bindings} {is js : List Nat}

theorem Shares.refl (hb : b.Ground) (is : List Nat) : b.Shares b is := ⟨hb, hb, rfl, fun _ _ => rfl⟩

theorem Shares.mono (h : b.Shares b' is) (hsubset : js ⊆ is) : b.Shares b' js :=
  ⟨h.ground, h.other, h.length_eq, fun i hi => h.held i (hsubset hi)⟩

theorem Shares.resolveArg (h : b.Shares b' is) {n : Node} (hn : n.indexes ⊆ is) :
    b.resolveArg n = b'.resolveArg n := by
  cases n with
  | var v =>
      have hheld : b.held? v.index = b'.held? v.index :=
        h.held v.index (hn (by simp [Node.indexes, Node.vars]))
      rw [h.ground.resolveArg_var, h.other.resolveArg_var, hheld]
  | _ => rfl

theorem Shares.resolveArgs (h : b.Shares b' is) {ns : List Node} (hns : Node.indexesAll ns ⊆ is) :
    ns.mapM b.resolveArg = ns.mapM b'.resolveArg := by
  induction ns with
  | nil => rfl
  | cons n ns ih =>
      rw [Node.indexesAll_cons, List.append_subset] at hns
      rw [List.mapM_cons, List.mapM_cons, h.resolveArg hns.1, ih hns.2]

/-- A node resolves to the same if its variables hold the same. -/
theorem Shares.resolve (h : b.Shares b' is) {n : Node} (hn : n.indexes ⊆ is) :
    b.resolve n = b'.resolve n := by
  cases n with
  | var v =>
      have hheld : b.held? v.index = b'.held? v.index :=
        h.held v.index (hn (by simp [Node.indexes, Node.vars]))
      rw [h.ground.resolve_var, h.other.resolve_var, hheld]
  | functor f args =>
      have hargs : args.mapM b.resolveArg = args.mapM b'.resolveArg := h.resolveArgs hn
      simp only [Bindings.resolve, resolveTerm, hargs]
  | _ => rfl

/-- The answers are the same, and what the environments share they share still. -/
def Twin (is : List Nat) (result result' : Bool × Bindings) : Prop :=
  result.1 = result'.1 ∧ result.2.Shares result'.2 is

theorem Shares.set (h : b.Shares b' is) {n : Node} (hn : n.isGround = true) {i : Nat}
    (hi : i < b.length) : (b.set i (.ground n)).Shares (b'.set i (.ground n)) is where
  ground := h.ground.set hn i
  other := h.other.set hn i
  length_eq := by rw [length_set, length_set, h.length_eq]
  held j hj := by
    rw [held?_set_ground hi, held?_set_ground (h.length_eq ▸ hi), h.held j hj]

/-- A slot that is bound to a ground node is compared with it, or filled. -/
theorem Shares.twin_bindSlotBy (h : b.Shares b' is) {compare compare' : Comparison} {i : Nat}
    (hi : i ∈ is) {n : Node} (hn : n.isGround = true)
    (hcompare : ∀ k, k.isGround = true → compare b k n = (k == n, b))
    (hcompare' : ∀ k, k.isGround = true → compare' b' k n = (k == n, b')) :
    Twin is (bindSlotBy compare b i n) (bindSlotBy compare' b' i n) := by
  have hheld : b.held? i = b'.held? i := h.held i hi
  have hderef := h.ground.deref_eq i
  have hderef' := h.other.deref_eq i
  rw [← hheld, ← h.length_eq] at hderef'
  unfold bindSlotBy
  rw [hderef, hderef']
  cases hvalue : b.held? i with
  | some k =>
      have hk := h.ground.isGround hvalue
      simp only
      rw [hcompare k hk, hcompare' k hk]
      exact ⟨rfl, h⟩
  | none =>
      by_cases hlt : i < b.length
      · simp only [if_pos hlt]
        cases n with
        | var v => cases hn
        | any => cases hn
        | _ => exact ⟨rfl, h.set hn hlt⟩
      · simp only [if_neg hlt]
        exact ⟨rfl, h⟩

theorem Shares.twin_compareAll {compare compare' : Comparison} {pairs : List (Node × Node)}
    (hpairs : ∀ pair ∈ pairs, ∀ b b' : Bindings, b.Shares b' is →
      Twin is (compare b pair.1 pair.2) (compare' b' pair.1 pair.2)) (h : b.Shares b' is) :
    Twin is (compareAll compare b pairs) (compareAll compare' b' pairs) := by
  induction pairs generalizing b b' with
  | nil => exact ⟨rfl, h⟩
  | cons pair pairs ih =>
      obtain ⟨m, n⟩ := pair
      obtain ⟨hanswer, hshares⟩ := hpairs (m, n) (by simp) b b' h
      unfold compareAll
      generalize compare b m n = result at hanswer hshares ⊢
      generalize compare' b' m n = result' at hanswer hshares ⊢
      obtain ⟨answer, b₁⟩ := result
      obtain ⟨answer', b₁'⟩ := result'
      obtain rfl : answer = answer' := hanswer
      cases answer with
      | true => exact ih (fun p hp => hpairs p (by simp [hp])) hshares
      | false => exact ⟨rfl, hshares⟩

/-- Unification with a ground node reads and binds the slots of the pattern's variables,
whatever the depth is that it may go to, if that is enough. -/
theorem Shares.twin_unifyWithin (depth depth' : Nat) {m n : Node} (hm : m.indexes ⊆ is)
    (hn : n.isGround = true) (hdepth : n.size < depth) (hdepth' : n.size < depth')
    (h : b.Shares b' is) : Twin is (unifyWithin depth b m n) (unifyWithin depth' b' m n) := by
  induction depth generalizing depth' b b' m n with
  | zero => omega
  | succ depth ih =>
      obtain ⟨depth', rfl⟩ : ∃ k, depth' = k + 1 := ⟨depth' - 1, by omega⟩
      have hwhole : ∀ m : Node, m.isGround = true →
          Twin is (unifyWithin (depth + 1) b m n) (unifyWithin (depth' + 1) b' m n) := by
        intro m hground
        rw [unifyWithin_ground _ b m n hground hn (by omega),
          unifyWithin_ground _ b' m n hground hn (by omega)]
        exact ⟨rfl, h⟩
      cases m with
      | var v =>
          have hv : v.index ∈ is := hm (by simp [Node.indexes, Node.vars])
          have htwin := h.twin_bindSlotBy hv hn
            (fun k hk => unifyWithin_ground depth b k n hk hn (by omega))
            (fun k hk => unifyWithin_ground depth' b' k n hk hn (by omega))
          cases n with
          | any => cases hn
          | _ => exact htwin
      | any => exact ⟨rfl, h⟩
      | functor f ps =>
          cases n with
          | var v => cases hn
          | any => cases hn
          | functor g ns =>
              simp only [unifyWithin]
              split
              · refine h.twin_compareAll ?_
                rintro ⟨p, k⟩ hmem c c' hc
                obtain ⟨hp, hk⟩ := List.of_mem_zip hmem
                have hindexes : p.indexes ⊆ is := Node.indexes_subset hm hp
                have hsize : k.size ≤ Node.sizeAll ns := Node.size_le_sizeAll hk
                rw [Node.size] at hdepth hdepth'
                have hless : k.size < depth := by omega
                have hless' : k.size < depth' := by omega
                exact ih depth' hindexes (Node.allGround_iff.1 hn k hk) hless hless' hc
              · exact ⟨rfl, h⟩
          | _ => exact ⟨rfl, h⟩
      | _ => exact hwhole _ rfl

theorem Shares.twin_bind (h : b.Shares b' is) {target value : Node} (htarget : target.indexes ⊆ is)
    (hvalue : value.isGround = true) : Twin is (b.bind target value) (b'.bind target value) := by
  have hunify : Twin is (b.unify target value) (b'.unify target value) :=
    h.twin_unifyWithin _ _ htarget hvalue (b.size_lt_depthBound target value)
      (b'.size_lt_depthBound target value)
  cases target with
  | var v =>
      have hv : v.index ∈ is := htarget (by simp [Node.indexes, Node.vars])
      have hexact : ∀ (c : Bindings) (k : Node), k.isGround = true →
          c.unify k value = (k == value, c) := fun c k hk =>
        unifyWithin_ground _ c k value hk hvalue (Nat.le_of_lt (c.size_lt_depthBound k value))
      exact h.twin_bindSlotBy hv hvalue (hexact b) (hexact b')
  | _ => exact hunify

end Bindings

/-! ## Local procedures -/

/-- The same can be seen, whether the call is speculative or not. -/
structure CallContext.SameView (ctx ctx' : CallContext) : Prop where
  find_eq : ctx.find = ctx'.find
  contains_eq : ctx.contains = ctx'.contains
  matched_eq : ctx.matched = ctx'.matched
  label_eq : ctx.label = ctx'.label

/-- The answers are the same, and what the bindings share they share still. -/
def CallState.Twin (is : List Nat) (result result' : Bool × CallState) : Prop :=
  result.1 = result'.1 ∧ result.2.bindings.Shares result'.2.bindings is

/-- Called with the same arguments, where the same can be seen and the same is held for the
variables of the arguments and in any other slots, the procedure gives the same answer, and
leaves the same in all of these slots. -/
def Procedure.Local (procedure : Procedure) : Prop :=
  ∀ (ctx ctx' : CallContext) (args : List Node) (st st' : CallState) (is : List Nat),
    ctx.SameView ctx' → ctx.Sound → Node.indexesAll args ⊆ is →
    st.bindings.Shares st'.bindings is →
    CallState.Twin is (procedure ctx args st) (procedure ctx' args st')

namespace CallState

variable {st st' : CallState} {is : List Nat} {target value : Node}

theorem twin_bind (h : st.bindings.Shares st'.bindings is) (htarget : target.indexes ⊆ is)
    (hvalue : value.isGround = true) : Twin is (st.bind target value) (st'.bind target value) :=
  h.twin_bind htarget hvalue

theorem twin_bindNumber (h : st.bindings.Shares st'.bindings is) (htarget : target.indexes ⊆ is)
    (value : Numeric) : Twin is (st.bindNumber target value) (st'.bindNumber target value) := by
  unfold bindNumber
  cases Numeric.ofNode target with
  | some existing => exact ⟨rfl, h⟩
  | none => exact twin_bind h htarget value.isGround_toNode

theorem twin_bindNumber? (h : st.bindings.Shares st'.bindings is) (htarget : target.indexes ⊆ is)
    (value : Option Numeric) :
    Twin is (st.bindNumber? target value) (st'.bindNumber? target value) := by
  cases value with
  | none => exact ⟨rfl, h⟩
  | some value => exact twin_bindNumber h htarget value

end CallState

namespace Chain

variable {ctx ctx' : CallContext}

theorem follow_congr (h : ctx.find = ctx'.find) (steps : Nat) (seen : List Node) (cell : Node) :
    follow ctx steps seen cell = follow ctx' steps seen cell := by
  induction steps generalizing seen cell with
  | zero => rfl
  | succ steps ih => simp only [follow, valueOf, h, ih]

theorem elements_congr (h : ctx.find = ctx'.find) (list : Node) :
    elements ctx list = elements ctx' list := by
  simp only [elements, stepBound, h, follow_congr h]

end Chain

namespace Builtin

open CallState

theorem local_ofTest (name : String) (arity : Nat) (test : List Node → Bool) :
    (ofTest name arity test).body.Local :=
  fun _ _ _ _ _ _ _ _ _ h => ⟨rfl, h⟩

theorem local_arithmetic (name : String) (whole : Int64 → Int64 → WholeResult)
    (real : Double → Double → Option Double) : (arithmetic name whole real).body.Local := by
  intro ctx ctx' args st st' is _ _ hargs h
  match args with
  | [a, b, target] =>
      have htarget : target.indexes ⊆ is := Node.indexes_subset hargs (by simp)
      simp only [arithmetic]
      split
      · split
        · split
          · exact twin_bindNumber h htarget _
          · exact twin_bindNumber? h htarget _
          · exact ⟨rfl, h⟩
        · exact twin_bindNumber? h htarget _
      · exact ⟨rfl, h⟩
  | [] | [_] | [_, _] | _ :: _ :: _ :: _ :: _ => exact ⟨rfl, h⟩

theorem local_successor : successor.body.Local := by
  intro ctx ctx' args st st' is _ _ hargs h
  match args with
  | [a, target] =>
      have htarget : target.indexes ⊆ is := Node.indexes_subset hargs (by simp)
      simp only [successor]
      split
      · exact twin_bindNumber? h htarget _
      · exact twin_bindNumber h htarget _
      · exact ⟨rfl, h⟩
  | [] | [_] | _ :: _ :: _ :: _ => exact ⟨rfl, h⟩

theorem local_extremum (name : String) (takesFirst : Ordering → Bool) :
    (extremum name takesFirst).body.Local := by
  intro ctx ctx' args st st' is _ _ hargs h
  match args with
  | [a, b, target] =>
      have htarget : target.indexes ⊆ is := Node.indexes_subset hargs (by simp)
      simp only [extremum]
      cases hx : Numeric.ofNode a with
      | none => exact ⟨rfl, h⟩
      | some x =>
          cases hy : Numeric.ofNode b with
          | none => exact ⟨rfl, h⟩
          | some y =>
              simp only
              split
              · refine twin_bind h htarget ?_
                split
                · exact Numeric.isGround_of_ofNode hx
                · exact Numeric.isGround_of_ofNode hy
              · exact ⟨rfl, h⟩
  | [] | [_] | [_, _] | _ :: _ :: _ :: _ :: _ => exact ⟨rfl, h⟩

/-! ## Texts -/

theorem local_concatenation (name : String) {make : String → Node}
    (hmake : ∀ s, (make s).isGround = true) : (concatenation name make).body.Local := by
  intro ctx ctx' args st st' is _ _ hargs h
  simp only [concatenation]
  cases hlast : args.getLast? with
  | none => exact ⟨rfl, h⟩
  | some target =>
      have htarget : target.indexes ⊆ is :=
        Node.indexes_subset hargs (List.mem_of_getLast? hlast)
      simp only
      split
      · exact twin_bind h htarget (hmake _)
      · exact ⟨rfl, h⟩

theorem twin_bindEach {is : List Nat} {st st' : CallState} {pairs : List (Node × Node)}
    (hpairs : ∀ pair ∈ pairs, pair.1.indexes ⊆ is ∧ pair.2.isGround = true)
    (h : st.bindings.Shares st'.bindings is) : Twin is (bindEach pairs st) (bindEach pairs st') := by
  induction pairs generalizing st st' with
  | nil => exact ⟨rfl, h⟩
  | cons pair pairs ih =>
      obtain ⟨hindexes, hground⟩ := hpairs pair (by simp)
      obtain ⟨hanswer, hshares⟩ := twin_bind h hindexes hground
      unfold bindEach
      generalize st.bind pair.1 pair.2 = result at hanswer hshares ⊢
      generalize st'.bind pair.1 pair.2 = result' at hanswer hshares ⊢
      obtain ⟨answer, st₁⟩ := result
      obtain ⟨answer', st₁'⟩ := result'
      obtain rfl : answer = answer' := hanswer
      cases answer with
      | true => exact ih (fun p hp => hpairs p (by simp [hp])) hshares
      | false => exact ⟨rfl, hshares⟩

theorem local_regexMatch : regexMatch.body.Local := by
  intro ctx ctx' args st st' is _ _ hargs h
  match args with
  | text :: pattern :: targets =>
      simp only [regexMatch]
      split
      · split
        · refine twin_bindEach ?_ h
          rintro ⟨target, value⟩ hmem
          obtain ⟨htarget, hvalue⟩ := List.of_mem_zip hmem
          have hindexes : target.indexes ⊆ is := Node.indexes_subset hargs (by simp [htarget])
          obtain ⟨i, _, rfl⟩ := List.mem_map.1 hvalue
          exact ⟨hindexes, rfl⟩
        · exact ⟨rfl, h⟩
      · exact ⟨rfl, h⟩
  | [] | [_] => exact ⟨rfl, h⟩

theorem local_textLength : textLength.body.Local := by
  intro ctx ctx' args st st' is _ _ hargs h
  match args with
  | [text, target] =>
      have htarget : target.indexes ⊆ is := Node.indexes_subset hargs (by simp)
      simp only [textLength]
      split
      · exact twin_bind h htarget rfl
      · exact ⟨rfl, h⟩
  | [] | [_] | _ :: _ :: _ :: _ => exact ⟨rfl, h⟩

/-! ## What looks at the graph -/

theorem local_membership (name : String) (expected : Bool) :
    (membership name expected).body.Local := by
  intro ctx ctx' args st st' is hview _ _ h
  match args with
  | [list, value] =>
      simp only [membership, Chain.elements_congr hview.find_eq]
      exact ⟨rfl, h⟩
  | [] | [_] | _ :: _ :: _ :: _ => exact ⟨rfl, h⟩

theorem local_chainLength : chainLength.body.Local := by
  intro ctx ctx' args st st' is hview _ hargs h
  match args with
  | [list, target] =>
      have htarget : target.indexes ⊆ is := Node.indexes_subset hargs (by simp)
      simp only [chainLength, Chain.elements_congr hview.find_eq]
      split
      · exact twin_bind h htarget rfl
      · exact ⟨rfl, h⟩
  | [] | [_] | _ :: _ :: _ :: _ => exact ⟨rfl, h⟩

theorem local_chainEntry : chainEntry.body.Local := by
  intro ctx ctx' args st st' is hview hsound hargs h
  match args with
  | [list, position, target] =>
      have htarget : target.indexes ⊆ is := Node.indexes_subset hargs (by simp)
      simp only [chainEntry, ← Chain.elements_congr hview.find_eq]
      split
      · rename_i item hitem
        obtain ⟨i, _, hitem⟩ := Option.bind_eq_some_iff.1 hitem
        obtain ⟨items, hitems, hitem⟩ := Option.bind_eq_some_iff.1 hitem
        have hground : item.isGround = true :=
          Chain.isGround_of_follow hsound _ hitems item (List.mem_of_getElem? hitem)
        exact twin_bind h htarget hground
      · exact ⟨rfl, h⟩
  | [] | [_] | [_, _] | _ :: _ :: _ :: _ :: _ => exact ⟨rfl, h⟩

theorem local_noValue : noValue.body.Local := by
  intro ctx ctx' args st st' is hview _ _ h
  simp only [noValue, hview.find_eq]
  split
  · exact ⟨rfl, h⟩
  · exact ⟨rfl, h⟩

/-! ## Effects and new nodes -/

theorem local_removal (name : String) (remove : CallState → CallContext → Triple → CallState) :
    (removal name remove).body.Local :=
  fun _ _ _ _ _ _ _ _ _ h => ⟨rfl, h⟩

theorem bindings_hide (st : CallState) (ctx : CallContext) (predicate : Node) :
    (st.hide ctx predicate).bindings = st.bindings := by
  unfold CallState.hide CallState.effect
  split <;> rfl

/-- Whether it acts or not, `hide` leaves the bindings as they are. -/
theorem bindings_hideUnless (st : CallState) (ctx : CallContext) (predicate : Node) :
    (if ctx.speculative = true then st else st.hide ctx predicate).bindings = st.bindings := by
  split
  · rfl
  · exact bindings_hide st ctx predicate

theorem local_hidePredicate : hidePredicate.body.Local := by
  intro ctx ctx' args st st' is _ _ _ h
  match args with
  | [] => exact ⟨rfl, h⟩
  | predicate :: _ =>
      simp only [hidePredicate]
      split
      · refine ⟨rfl, ?_⟩
        rw [bindings_hideUnless, bindings_hideUnless]
        exact h
      · exact ⟨rfl, h⟩

theorem local_printLine : printLine.body.Local := by
  intro ctx ctx' args st st' is _ _ _ h
  have hbindings : ∀ (ctx : CallContext) (st : CallState) (line : String),
      (if ctx.speculative = true then st else st.print line).bindings = st.bindings := by
    intro ctx st line
    split <;> rfl
  refine ⟨rfl, ?_⟩
  simp only [printLine, hbindings]
  exact h

theorem local_makeSkolem : makeSkolem.body.Local := by
  intro ctx ctx' args st st' is _ _ hargs h
  match args with
  | [] => exact ⟨rfl, h⟩
  | target :: values =>
      have htarget : target.indexes ⊆ is := Node.indexes_subset hargs (by simp)
      simp only [makeSkolem]
      split
      · exact twin_bind h htarget rfl
      · exact ⟨rfl, h⟩

/-- A standard builtin is local, unless it reads the clock or makes fresh blank nodes. -/
theorem local_of_mem_standard :
    ∀ b ∈ standard, b.name ∉ ["now", "makeTemp"] → b.body.Local := by
  apply forall_standard
  · exact fun name arity test _ => local_ofTest name arity test
  · exact fun name whole real _ => local_arithmetic name whole real
  · exact fun name takesFirst _ => local_extremum name takesFirst
  · exact fun name make hmake _ => local_concatenation name fun s => (hmake s).1
  · exact fun name expected _ => local_membership name expected
  · simp only [List.forall_mem_cons, List.not_mem_nil, false_imp_iff, implies_true, and_true]
    exact ⟨fun _ => local_successor, fun _ => local_regexMatch, fun _ => local_textLength,
      fun _ => local_chainLength, fun _ => local_chainEntry, fun _ => local_noValue,
      fun _ => local_removal _ _, fun _ => local_removal _ _, fun _ => local_hidePredicate,
      fun _ => local_printLine, fun h => absurd (by decide) h, fun _ => local_makeSkolem,
      fun h => absurd (by decide) h⟩

end Builtin

/-! ## Confined procedures -/

/-- The procedure binds no variables but those of its arguments. -/
def Procedure.Confined (procedure : Procedure) : Prop :=
  ∀ (ctx : CallContext) (args : List Node) (st : CallState) (i : Nat), st.bindings.Ground →
    i ∉ Node.indexesAll args → (procedure ctx args st).2.bindings.held? i = st.bindings.held? i

namespace Builtin

theorem confined_hidePredicate : hidePredicate.body.Confined := by
  intro ctx args st i _ _
  match args with
  | [] => rfl
  | predicate :: _ =>
      simp only [hidePredicate]
      split
      · rw [bindings_hideUnless]
      · rfl

theorem confined_makeTemp : makeTemp.body.Confined := by
  intro ctx args st i hground hi
  match args with
  | [] => rfl
  | target :: _ =>
      have htarget : i ∉ target.indexes := fun hmem =>
        hi (Node.mem_indexesAll.2 ⟨target, by simp, hmem⟩)
      have hblank : st.freshBlank.1.isGround = true := rfl
      exact (Bindings.solves_bind hground target hblank).frame i htarget

theorem confined_of_safe {b : Builtin} (hsafe : b.safe = true) (hrisky : b.safe = false) :
    b.body.Confined :=
  (Bool.false_ne_true (hrisky.symm.trans hsafe)).elim

/-- A standard builtin that is unsafe binds at most variables of its arguments. -/
theorem confined_of_mem_standard : ∀ b ∈ standard, b.safe = false → b.body.Confined := by
  apply forall_standard
  · exact fun _ _ _ => confined_of_safe rfl
  · exact fun _ _ _ => confined_of_safe rfl
  · exact fun _ _ => confined_of_safe rfl
  · exact fun _ _ _ => confined_of_safe rfl
  · exact fun _ _ => confined_of_safe rfl
  · simp only [List.forall_mem_cons, List.not_mem_nil, false_imp_iff, implies_true, and_true]
    exact ⟨confined_of_safe rfl, confined_of_safe rfl, confined_of_safe rfl,
      confined_of_safe rfl, confined_of_safe rfl, confined_of_safe rfl,
      fun _ _ _ _ _ _ _ => rfl, fun _ _ _ _ _ _ _ => rfl, fun _ => confined_hidePredicate,
      confined_of_safe rfl, fun _ => confined_makeTemp, confined_of_safe rfl,
      confined_of_safe rfl⟩

end Builtin

end Entailment
