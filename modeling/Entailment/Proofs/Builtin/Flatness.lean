import Entailment.Proofs.Rule.Shelter

/-!
# What environments speak of

No standard builtin makes a functor: what it binds is a literal, an identifier or a blank
node, or was found as an object in the graph.  So if a vocabulary has all of these, an
environment stays in it, whether its variables are matched, bound by calls or completed.
One such vocabulary is that of the nodes without a functor inside a functor: where the
graph has no other nodes, an environment does not get any.
-/

namespace Entailment

/-- A vocabulary with all ground nodes that are not nested. -/
structure Ample (P : Node → Prop) : Prop extends Vocabulary P where
  plain : ∀ {n : Node}, n.isGround = true → n.isNested = false → P n

theorem ample_not_nested : Ample fun n => n.isNested = false where
  toVocabulary := vocabulary_not_nested
  plain _ hn := hn

namespace Bindings

variable {b b' : Bindings} {P : Node → Prop}

/-- Slots hold only nodes of the vocabulary. -/
def Speaks (P : Node → Prop) (b : Bindings) : Prop :=
  ∀ i n, b.slot? i = some (.ground n) → P n

theorem speaks_empty (size : Nat) : (empty size).Speaks P := by
  intro i n hi
  rw [slot?, empty, List.getElem?_replicate] at hi
  split at hi
  · cases hi
  · cases hi

namespace Speaks

theorem derefWithin (h : b.Speaks P) {links i : Nat} {n : Node}
    (hi : b.derefWithin links i = some (.ground n)) : P n := by
  induction links generalizing i with
  | zero => cases hi
  | succ links ih =>
      unfold Bindings.derefWithin at hi
      split at hi
      · cases hi
      · cases hi
      · rename_i m hm
        cases hi
        exact h i n hm
      · exact ih hi

theorem set {s : Slot} (h : b.Speaks P) (i : Nat) (hs : ∀ n, s = .ground n → P n) :
    (b.set i s).Speaks P := by
  intro j n hj
  rw [slot?_set] at hj
  split at hj
  · split at hj
    · exact hs n (Option.some.inj hj)
    · cases hj
  · exact h j n hj

/-- Comparisons of nodes of the vocabulary leave it. -/
def Safe (P : Node → Prop) (compare : Comparison) : Prop :=
  ∀ b m n, b.Speaks P → P m → P n → (compare b m n).2.Speaks P

theorem compareAll {compare : Comparison} (hcompare : Safe P compare) (h : b.Speaks P)
    {pairs : List (Node × Node)} (hpairs : ∀ pair ∈ pairs, P pair.1 ∧ P pair.2) :
    (compareAll compare b pairs).2.Speaks P := by
  induction pairs generalizing b with
  | nil => exact h
  | cons pair pairs ih =>
      obtain ⟨hleft, hright⟩ := hpairs pair List.mem_cons_self
      have hfirst := hcompare b pair.1 pair.2 h hleft hright
      unfold Bindings.compareAll
      cases hresult : compare b pair.1 pair.2 with
      | mk answer b₁ =>
          rw [hresult] at hfirst
          cases answer with
          | true => exact ih hfirst fun q hq => hpairs q (List.mem_cons_of_mem _ hq)
          | false => exact hfirst

theorem bindSlotBy {compare : Comparison} (hcompare : Safe P compare) (h : b.Speaks P) (i : Nat)
    {value : Node} (hvalue : P value) : (bindSlotBy compare b i value).2.Speaks P := by
  unfold Bindings.bindSlotBy
  split
  · exact h
  · rename_i n hn
    exact hcompare b n value h (h.derefWithin hn) hvalue
  · split
    · split
      · exact h
      · rename_i n hn
        refine h.set _ fun m hm => ?_
        cases hm
        exact h.derefWithin hn
      · split
        · exact h
        · exact h.set _ fun m hm => nomatch hm
    · exact h
    · refine h.set _ fun m hm => ?_
      cases hm
      exact hvalue

theorem unifyWithin (hargs : ∀ {f : String} {as : List Node}, P (.functor f as) → ∀ a ∈ as, P a)
    (depth : Nat) : Safe P (unifyWithin depth) := by
  induction depth with
  | zero => exact fun _ _ _ h _ _ => h
  | succ depth ih =>
      intro b m n h hm hn
      unfold Bindings.unifyWithin
      split
      · exact h
      · exact h
      · exact h
      · rename_i v hsame _
        obtain rfl := Nat.succ.inj hsame
        exact bindSlotBy ih h v.index hn
      · rename_i v hsame _ _
        obtain rfl := Nat.succ.inj hsame
        exact bindSlotBy ih h v.index hm
      · rename_i hsame
        obtain rfl := Nat.succ.inj hsame
        split
        · refine compareAll ih h fun pair hpair => ?_
          obtain ⟨hleft, hright⟩ := List.of_mem_zip hpair
          exact ⟨hargs hm _ hleft, hargs hn _ hright⟩
        · exact h
      · exact h

theorem unifyTriple (hP : Vocabulary P) (h : b.Speaks P) {pattern fact : Triple}
    (hpattern : pattern.MadeOf P) (hfact : fact.MadeOf P) :
    (b.unifyTriple pattern fact).2.Speaks P := by
  refine h.compareAll (fun b m n => unifyWithin hP.args _ b m n) fun pair hpair => ?_
  obtain ⟨hleft, hright⟩ := List.of_mem_zip hpair
  exact ⟨hpattern _ hleft, hfact _ hright⟩

theorem bind (hP : Vocabulary P) (h : b.Speaks P) {target value : Node} (htarget : P target)
    (hvalue : P value) : (b.bind target value).2.Speaks P := by
  cases target with
  | var v => exact h.bindSlotBy (fun b m n => unifyWithin hP.args _ b m n) v.index hvalue
  | _ => exact unifyWithin hP.args _ b _ _ h htarget hvalue

end Speaks

namespace Speaks

theorem complete (hP : Ample P) {st : Bindings × BlankSupply} (h : st.1.Speaks P) (v : Var) :
    (complete st v).2.1.Speaks P := by
  unfold Bindings.complete
  split
  · exact h
  · exact h.bindSlotBy (fun b m n => unifyWithin hP.args _ b m n) v.index (hP.plain rfl rfl)

mutual
theorem traverse (hP : Ample P) {st : Bindings × BlankSupply} (h : st.1.Speaks P) (n : Node) :
    (n.traverse Bindings.complete freshBlank st).2.1.Speaks P := by
  cases n with
  | var v => exact complete hP h v
  | functor f args => exact traverseAll hP h args
  | _ => exact h

theorem traverseAll (hP : Ample P) {st : Bindings × BlankSupply} (h : st.1.Speaks P)
    (ns : List Node) : (Node.traverseAll Bindings.complete freshBlank st ns).2.1.Speaks P := by
  match ns with
  | [] => exact h
  | n :: ns => exact traverseAll hP (traverse hP h n) ns
end

theorem instantiate (hP : Ample P) (h : b.Speaks P) (supply : BlankSupply) (p : Triple) :
    (b.instantiate supply p).2.1.Speaks P := by
  have hsubject : (p.subject.traverse Bindings.complete freshBlank (b, supply)).2.1.Speaks P :=
    traverse hP h p.subject
  exact traverse hP (traverse hP hsubject p.predicate) p.object

end Speaks

/-- No slot holds a functor inside a functor. -/
abbrev Flat (b : Bindings) : Prop := b.Speaks fun n => n.isNested = false

end Bindings

/-! ## Calls -/

variable {P : Node → Prop}

/-- What a search finds is made of nodes of the vocabulary. -/
def CallContext.FindsIn (P : Node → Prop) (ctx : CallContext) : Prop :=
  ∀ p, ∀ t ∈ ctx.find p, t.MadeOf P

/-- What a search finds has no functor inside a functor. -/
def CallContext.Flat (ctx : CallContext) : Prop := ∀ p, ∀ t ∈ ctx.find p, t.Unnested

/-- Among facts and arguments of the vocabulary, the procedure keeps an environment in it. -/
def Procedure.KeepsIn (P : Node → Prop) (procedure : Procedure) : Prop :=
  ∀ (ctx : CallContext) (args : List Node) (st : CallState), ctx.FindsIn P →
    (∀ a ∈ args, P a) → st.bindings.Speaks P → (procedure ctx args st).2.bindings.Speaks P

/-- The builtin does so in bodies and in heads. -/
def Builtin.KeepsIn (P : Node → Prop) (b : Builtin) : Prop :=
  Procedure.KeepsIn P b.body ∧ Procedure.KeepsIn P b.head

/-- Among flat facts and arguments, the procedure leaves a flat environment flat. -/
def Procedure.KeepsFlat (procedure : Procedure) : Prop :=
  ∀ (ctx : CallContext) (args : List Node) (st : CallState), ctx.Flat →
    (∀ a ∈ args, a.isNested = false) → st.bindings.Flat →
    (procedure ctx args st).2.bindings.Flat

namespace CallState

variable {st : CallState}

theorem speaks_bind (hP : Ample P) (h : st.bindings.Speaks P) {target value : Node}
    (htarget : P target) (hvalue : P value) : (st.bind target value).2.bindings.Speaks P :=
  h.bind hP.toVocabulary htarget hvalue

theorem speaks_bindNumber (hP : Ample P) (h : st.bindings.Speaks P) {target : Node}
    (htarget : P target) (value : Numeric) :
    (st.bindNumber target value).2.bindings.Speaks P := by
  unfold bindNumber
  split
  · exact h
  · exact speaks_bind hP h htarget (hP.plain value.isGround_toNode (by cases value <;> rfl))

theorem speaks_bindNumber? (hP : Ample P) (h : st.bindings.Speaks P) {target : Node}
    (htarget : P target) (value : Option Numeric) :
    (st.bindNumber? target value).2.bindings.Speaks P := by
  cases value with
  | some n => exact speaks_bindNumber hP h htarget n
  | none => exact h

end CallState

namespace Chain

variable {ctx : CallContext}

theorem speaks_follow (hctx : ctx.FindsIn P) {steps : Nat} {seen : List Node} {cell : Node}
    {items : List Node} (h : follow ctx steps seen cell = some items) : ∀ n ∈ items, P n := by
  induction steps generalizing seen cell items with
  | zero => cases h
  | succ steps ih =>
      unfold follow at h
      split at h
      · cases h
        exact fun n hn => absurd hn List.not_mem_nil
      · split at h
        · cases h
        · obtain ⟨value, hvalue, h⟩ := Option.bind_eq_some_iff.1 h
          obtain ⟨next, _, h⟩ := Option.bind_eq_some_iff.1 h
          obtain ⟨values, hvalues, h⟩ := Option.bind_eq_some_iff.1 h
          cases h
          intro n hn
          rcases List.mem_cons.1 hn with rfl | hn
          · unfold valueOf at hvalue
            obtain ⟨t, ht, rfl⟩ := Option.map_eq_some_iff.1 hvalue
            exact hctx _ t (List.mem_of_head? ht) t.object (by simp [Triple.nodes])
          · exact ih hvalues n hn

end Chain

namespace Builtin

variable {st : CallState}

theorem speaks_bindEach (hP : Ample P) {pairs : List (Node × Node)}
    (hpairs : ∀ pair ∈ pairs, P pair.1 ∧ P pair.2) (h : st.bindings.Speaks P) :
    (bindEach pairs st).2.bindings.Speaks P := by
  induction pairs generalizing st with
  | nil => exact h
  | cons pair pairs ih =>
      obtain ⟨htarget, hvalue⟩ := hpairs pair List.mem_cons_self
      have hbound := CallState.speaks_bind hP h htarget hvalue
      unfold bindEach
      cases hresult : st.bind pair.1 pair.2 with
      | mk answer st' =>
          rw [hresult] at hbound
          cases answer with
          | true => exact ih (fun q hq => hpairs q (List.mem_cons_of_mem _ hq)) hbound
          | false => exact hbound

theorem speaks_effect (h : st.bindings.Speaks P) (ctx : CallContext) (change : Effects → Effects) :
    (st.effect ctx change).bindings.Speaks P := by
  rwa [bindings_effect]

theorem keepsIn_arithmetic (hP : Ample P) (name : String) (whole : Int64 → Int64 → WholeResult)
    (real : Double → Double → Option Double) :
    Procedure.KeepsIn P (arithmetic name whole real).body := by
  intro ctx args st _ hargs h
  simp only [arithmetic]
  split
  · rename_i target
    have htarget : P target := hargs target (by simp)
    split
    · split
      · split
        · exact CallState.speaks_bindNumber hP h htarget _
        · exact CallState.speaks_bindNumber? hP h htarget _
        · exact h
      · exact CallState.speaks_bindNumber? hP h htarget _
    · exact h
  · exact h

theorem keepsIn_extremum (hP : Ample P) (name : String) (takesFirst : Ordering → Bool) :
    Procedure.KeepsIn P (extremum name takesFirst).body := by
  intro ctx args st _ hargs h
  simp only [extremum]
  split
  · rename_i a b target
    have htarget : P target := hargs target (by simp)
    split
    · split
      · refine CallState.speaks_bind hP h htarget ?_
        split
        · exact hargs a (by simp)
        · exact hargs b (by simp)
      · exact h
    · exact h
  · exact h

theorem keepsIn_concatenation (hP : Ample P) (name : String) {make : String → Node}
    (hmake : ∀ s, P (make s)) :
    Procedure.KeepsIn P (concatenation name make).body := by
  intro ctx args st _ hargs h
  simp only [concatenation]
  split
  · exact h
  · rename_i target htarget
    split
    · exact CallState.speaks_bind hP h (hargs target (List.mem_of_getLast? htarget)) (hmake _)
    · exact h

theorem keepsIn_membership (name : String) (expected : Bool) :
    Procedure.KeepsIn P (membership name expected).body := by
  intro ctx args st _ _ h
  simp only [membership]
  split <;> exact h

theorem keepsIn_successor (hP : Ample P) : Procedure.KeepsIn P successor.body := by
  intro ctx args st _ hargs h
  simp only [successor]
  split
  · rename_i target
    have htarget : P target := hargs target (by simp)
    split
    · exact CallState.speaks_bindNumber? hP h htarget _
    · exact CallState.speaks_bindNumber hP h htarget _
    · exact h
  · exact h

theorem keepsIn_regexMatch (hP : Ample P) : Procedure.KeepsIn P regexMatch.body := by
  intro ctx args st _ hargs h
  simp only [regexMatch]
  split
  · rename_i targets
    split
    · split
      · refine speaks_bindEach hP (fun pair hpair => ?_) h
        obtain ⟨htarget, hvalue⟩ := List.of_mem_zip hpair
        obtain ⟨i, _, hi⟩ := List.mem_map.1 hvalue
        refine ⟨hargs pair.1 ?_, hi ▸ hP.plain rfl rfl⟩
        exact List.mem_cons_of_mem _ (List.mem_cons_of_mem _ htarget)
      · exact h
    · exact h
  · exact h

theorem keepsIn_textLength (hP : Ample P) : Procedure.KeepsIn P textLength.body := by
  intro ctx args st _ hargs h
  simp only [textLength]
  split
  · split
    · exact CallState.speaks_bind hP h (hargs _ (by simp)) (hP.plain rfl rfl)
    · exact h
  · exact h

theorem keepsIn_chainLength (hP : Ample P) : Procedure.KeepsIn P chainLength.body := by
  intro ctx args st _ hargs h
  simp only [chainLength]
  split
  · split
    · exact CallState.speaks_bind hP h (hargs _ (by simp)) (hP.plain rfl rfl)
    · exact h
  · exact h

theorem keepsIn_chainEntry (hP : Ample P) : Procedure.KeepsIn P chainEntry.body := by
  intro ctx args st hctx hargs h
  simp only [chainEntry]
  split
  · split
    · rename_i item hitem
      obtain ⟨i, _, hitem⟩ := Option.bind_eq_some_iff.1 hitem
      obtain ⟨items, hitems, hitem⟩ := Option.bind_eq_some_iff.1 hitem
      refine CallState.speaks_bind hP h (hargs _ (by simp)) ?_
      exact Chain.speaks_follow hctx hitems item (List.mem_of_getElem? hitem)
    · exact h
  · exact h

theorem keepsIn_noValue : Procedure.KeepsIn P noValue.body := by
  intro ctx args st _ _ h
  simp only [noValue]
  split <;> exact h

/-- Asking for removals binds nothing. -/
theorem keepsIn_removal (name : String) {remove : CallState → CallContext → Triple → CallState}
    (hremove : ∀ st ctx t, (remove st ctx t).bindings = st.bindings) :
    (removal name remove).KeepsIn P := by
  refine ⟨fun _ _ _ _ _ h => h, fun ctx args st _ _ h => ?_⟩
  simp only [removal]
  generalize targets ctx args = ts
  induction ts generalizing st with
  | nil => exact h
  | cons t ts ih =>
      refine ih (remove st ctx t) ?_
      rwa [hremove]

theorem keepsIn_hidePredicate : Procedure.KeepsIn P hidePredicate.body := by
  intro ctx args st _ _ h
  simp only [hidePredicate]
  split
  · split
    · split
      · exact h
      · exact speaks_effect h ctx _
    · exact h
  · exact h

theorem keepsIn_printLine : Procedure.KeepsIn P printLine.body := by
  intro ctx args st _ _ h
  simp only [printLine]
  split <;> exact h

theorem keepsIn_makeTemp (hP : Ample P) : Procedure.KeepsIn P makeTemp.body := by
  intro ctx args st _ hargs h
  simp only [makeTemp]
  split
  · have hfresh : st.freshBlank.2.bindings.Speaks P := h
    exact CallState.speaks_bind hP hfresh (hargs _ (by simp)) (hP.plain rfl rfl)
  · exact h

theorem keepsIn_makeSkolem (hP : Ample P) : Procedure.KeepsIn P makeSkolem.body := by
  intro ctx args st _ hargs h
  simp only [makeSkolem]
  split
  · split
    · exact CallState.speaks_bind hP h (hargs _ (by simp)) (hP.plain rfl rfl)
    · exact h
  · exact h

theorem keepsIn_now (hP : Ample P) : Procedure.KeepsIn P now.body := by
  intro ctx args st _ hargs h
  simp only [now]
  split
  · exact CallState.speaks_bind hP h (hargs _ (by simp)) (hP.plain rfl rfl)
  · exact h

theorem keepsIn_of_body {b : Builtin} (hbody : Procedure.KeepsIn P b.body)
    (hhead : b.head = b.body) : b.KeepsIn P := ⟨hbody, hhead ▸ hbody⟩

theorem keepsIn_of_mem_standard (hP : Ample P) : ∀ b ∈ standard, b.KeepsIn P := by
  apply forall_standard
  · exact fun _ _ _ => keepsIn_of_body (fun _ _ _ _ _ h => h) rfl
  · exact fun name whole real => keepsIn_of_body (keepsIn_arithmetic hP name whole real) rfl
  · exact fun name takesFirst => keepsIn_of_body (keepsIn_extremum hP name takesFirst) rfl
  · exact fun name make hmake => keepsIn_of_body
      (keepsIn_concatenation hP name fun s => hP.plain (hmake s).1 (hmake s).2) rfl
  · exact fun name expected => keepsIn_of_body (keepsIn_membership name expected) rfl
  · simp only [List.forall_mem_cons, List.not_mem_nil, false_imp_iff, implies_true, and_true]
    exact ⟨keepsIn_of_body (keepsIn_successor hP) rfl, keepsIn_of_body (keepsIn_regexMatch hP) rfl,
      keepsIn_of_body (keepsIn_textLength hP) rfl, keepsIn_of_body (keepsIn_chainLength hP) rfl,
      keepsIn_of_body (keepsIn_chainEntry hP) rfl, keepsIn_of_body keepsIn_noValue rfl,
      keepsIn_removal _ fun st ctx _ => bindings_effect st ctx _,
      keepsIn_removal _ fun st ctx _ => bindings_effect st ctx _,
      keepsIn_of_body keepsIn_hidePredicate rfl, keepsIn_of_body keepsIn_printLine rfl,
      keepsIn_of_body (keepsIn_makeTemp hP) rfl, keepsIn_of_body (keepsIn_makeSkolem hP) rfl,
      keepsIn_of_body (keepsIn_now hP) rfl⟩

theorem keepsFlat_of_mem_standard : ∀ b ∈ standard, Procedure.KeepsFlat b.body :=
  fun b hb => (keepsIn_of_mem_standard ample_not_nested b hb).1

end Builtin

end Entailment
