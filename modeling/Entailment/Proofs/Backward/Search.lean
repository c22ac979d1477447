import Entailment.Backward.Solver
import Entailment.Proofs.Collection.Lookup
import Entailment.Proofs.Term.Equality

/-!
# How a search goes on

A search that does not fail takes the path of its goals back and only adds to the table.
The number of answers in the table tells whether anything has been added: if it is the
same at the end of a search, the table has known the same answers all the time.
-/

namespace Entailment

namespace Search

variable {α β : Type} {st st' : SearchState}

theorem bind_eq_ok {m : Search α} {f : α → Search β} {b : β} :
    (m >>= f) st = .ok b st' ↔ ∃ a mid, m st = .ok a mid ∧ f a mid = .ok b st' := by
  change EStateM.bind m f st = .ok b st' ↔ _
  unfold EStateM.bind
  cases m st with
  | ok a mid =>
      constructor
      · exact fun h => ⟨a, mid, rfl, h⟩
      · rintro ⟨_, _, hm, h⟩
        cases hm
        exact h
  | error cause mid => exact ⟨(fun h => nomatch h), fun ⟨_, _, h, _⟩ => nomatch h⟩

theorem pure_eq_ok {a b : α} : (pure a : Search α) st = .ok b st' ↔ b = a ∧ st' = st := by
  constructor
  · intro h
    cases h
    exact ⟨rfl, rfl⟩
  · rintro ⟨rfl, rfl⟩
    rfl

/-- What every step of a loop keeps is kept by the loop. -/
theorem foldlM_keeps {f : β → α → Search β} {as : List α} {b b' : β}
    (h : as.foldlM f b st = .ok b' st') (I : β → SearchState → Prop) (hstart : I b st)
    (hstep : ∀ a ∈ as, ∀ b st b' st', I b st → f b a st = .ok b' st' → I b' st') : I b' st' := by
  induction as generalizing b st with
  | nil =>
      rw [List.foldlM_nil, pure_eq_ok] at h
      obtain ⟨rfl, rfl⟩ := h
      exact hstart
  | cons a as ih =>
      rw [List.foldlM_cons, bind_eq_ok] at h
      obtain ⟨mid, stmid, hone, hrest⟩ := h
      exact ih hrest (hstep a List.mem_cons_self _ _ _ _ hstart hone)
        fun a' ha' => hstep a' (List.mem_cons_of_mem _ ha')

/-- A loop comes to each of its items, and goes on from there. -/
theorem foldlM_reaches {f : β → α → Search β} {as : List α} {b b' : β}
    (h : as.foldlM f b st = .ok b' st') {a : α} (ha : a ∈ as) :
    ∃ before after b₁ st₁ b₂ st₂, as = before ++ a :: after ∧
      before.foldlM f b st = .ok b₁ st₁ ∧ f b₁ a st₁ = .ok b₂ st₂ ∧
      after.foldlM f b₂ st₂ = .ok b' st' := by
  obtain ⟨before, after, rfl⟩ := List.append_of_mem ha
  rw [List.foldlM_append, bind_eq_ok] at h
  obtain ⟨b₁, st₁, hbefore, hrest⟩ := h
  rw [List.foldlM_cons, bind_eq_ok] at hrest
  obtain ⟨b₂, st₂, hone, hafter⟩ := hrest
  exact ⟨before, after, b₁, st₁, b₂, st₂, rfl, hbefore, hone, hafter⟩

end Search

namespace SearchState

/-- The table has the triple among the answers to the goals of the shape. -/
def Knows (st : SearchState) (shape t : Triple) : Prop :=
  (st.answers shape).any (· == t) = true

theorem knows_iff {st : SearchState} {shape t : Triple} :
    st.Knows shape t ↔ ((st.table.get? shape).getD default).contains t = true := by
  unfold Knows answers
  cases st.table.get? shape <;> exact Iff.rfl

theorem Knows.congr {st : SearchState} {shape shape' t u : Triple} (h : st.Knows shape t)
    (hshape : (shape == shape') = true) (hsame : (t == u) = true) : st.Knows shape' u := by
  rw [knows_iff] at h ⊢
  rw [← st.table.get?_congr hshape, ← OrderedSet.contains_congr _ hsame]
  exact h

theorem tabled_eq_weight (st : SearchState) : st.tabled = st.table.weight OrderedSet.size := by
  rw [tabled, OrderedMap.weight, OrderedMap.values, List.map_map, List.sum_eq_foldr]
  rfl

/-- The table has been added to, which shows in the number of its answers. -/
structure Grows (st st' : SearchState) : Prop where
  path_eq : st'.path = st.path
  knows : ∀ shape t, st.Knows shape t → st'.Knows shape t
  tabled_le : st.tabled ≤ st'.tabled
  stable : st'.tabled = st.tabled → ∀ shape t, st'.Knows shape t → st.Knows shape t

namespace Grows

variable {st st' st'' : SearchState}

theorem refl (st : SearchState) : st.Grows st :=
  ⟨rfl, fun _ _ h => h, Nat.le_refl _, fun _ _ _ h => h⟩

theorem trans (h : st.Grows st') (k : st'.Grows st'') : st.Grows st'' where
  path_eq := k.path_eq.trans h.path_eq
  knows shape t hknown := k.knows shape t (h.knows shape t hknown)
  tabled_le := Nat.le_trans h.tabled_le k.tabled_le
  stable hsame shape t hknown := by
    have hfirst := h.tabled_le
    have hsecond := k.tabled_le
    exact h.stable (by omega) shape t (k.stable (by omega) shape t hknown)

/-- Between two states that know the same, others know that too. -/
theorem between {known : Triple → Triple → Prop} (h : st.Grows st') (k : st'.Grows st'')
    (hst : st.Knows = known) (hst'' : st''.Knows = known) : st'.Knows = known := by
  funext shape t
  refine propext ⟨fun hknown => ?_, fun hknown => ?_⟩
  · rw [← hst'']
    exact k.knows shape t hknown
  · rw [← hst] at hknown
    exact h.knows shape t hknown

theorem knows_eq (h : st.Grows st') (hsame : st'.tabled = st.tabled) : st'.Knows = st.Knows :=
  funext fun shape => funext fun t =>
    propext ⟨h.stable hsame shape t, h.knows shape t⟩

end Grows

/-- The state with the answers to a goal of the shape in the table. -/
def tabling (st : SearchState) (shape : Triple) (answers : List Triple) : SearchState :=
  { st with table := st.table.alter shape (·.insertAll answers) }

theorem knows_tabling {st : SearchState} {shape shape' t : Triple} {answers : List Triple} :
    (st.tabling shape answers).Knows shape' t ↔
      st.Knows shape' t ∨ (shape == shape') = true ∧ answers.any (· == t) = true := by
  rw [knows_iff, knows_iff, tabling, OrderedMap.get?_alter]
  cases hsame : shape == shape' with
  | false => simp
  | true =>
      rw [if_pos rfl, Option.getD_some, OrderedSet.contains_insertAll, Bool.or_eq_true]
      simp

theorem grows_tabling (st : SearchState) (shape : Triple) (answers : List Triple) :
    st.Grows (st.tabling shape answers) := by
  have hprefix := ((st.table.get? shape).getD default).members_prefix_insertAll answers
  have htabled : (st.tabling shape answers).tabled + ((st.table.get? shape).getD default).size =
      st.tabled + (((st.table.get? shape).getD default).insertAll answers).size := by
    rw [tabled_eq_weight, tabled_eq_weight, tabling, OrderedMap.alter]
    cases hget : st.table.get? shape with
    | some known => exact st.table.weight_insert OrderedSet.size _ hget
    | none => exact st.table.weight_insert_new OrderedSet.size _ hget
  have hle : ((st.table.get? shape).getD default).size ≤
      (((st.table.get? shape).getD default).insertAll answers).size := hprefix.length_le
  refine ⟨rfl, fun shape' t h => knows_tabling.2 (Or.inl h), by omega, ?_⟩
  intro hsame shape' t h
  rcases knows_tabling.1 h with h | ⟨hshape, hany⟩
  · exact h
  · have hmembers := hprefix.eq_of_length (show
      ((st.table.get? shape).getD default).size =
        (((st.table.get? shape).getD default).insertAll answers).size by omega)
    have hcontains : (((st.table.get? shape).getD default).insertAll answers).contains t = true := by
      rw [OrderedSet.contains_insertAll, hany, Bool.or_true]
    rw [OrderedSet.contains, ← hmembers] at hcontains
    rw [knows_iff, ← st.table.get?_congr hshape]
    exact hcontains

end SearchState

/-- The search goes on to a state with more in the table, and more answers. -/
structure Enlarges (answers : OrderedSet Triple) (st : SearchState)
    (answers' : OrderedSet Triple) (st' : SearchState) : Prop where
  grows : st.Grows st'
  keeps : ∀ t, answers.contains t = true → answers'.contains t = true

namespace Enlarges

variable {answers answers' answers'' : OrderedSet Triple} {st st' st'' : SearchState}

theorem refl (answers : OrderedSet Triple) (st : SearchState) : Enlarges answers st answers st :=
  ⟨.refl st, fun _ h => h⟩

theorem trans (h : Enlarges answers st answers' st') (k : Enlarges answers' st' answers'' st'') :
    Enlarges answers st answers'' st'' :=
  ⟨h.grows.trans k.grows, fun t ht => k.keeps t (h.keeps t ht)⟩

theorem of_foldlM {α : Type} {f : OrderedSet Triple → α → Search (OrderedSet Triple)}
    {as : List α} (h : as.foldlM f answers st = .ok answers' st')
    (hstep : ∀ a ∈ as, ∀ answers st answers' st', f answers a st = .ok answers' st' →
      Enlarges answers st answers' st') : Enlarges answers st answers' st' :=
  Search.foldlM_keeps h (Enlarges answers st) (.refl answers st)
    fun a ha _ _ _ _ hbefore hone => hbefore.trans (hstep a ha _ _ _ _ hone)

end Enlarges

namespace Solver

variable {γ : Type} [Graph γ] {s : Solver} {view : View γ}
  {prove : Triple → Search (OrderedSet Triple)} {r : GoalRule} {st st' : SearchState}
  {answers answers' : OrderedSet Triple}

/-! ## Steps of a search -/

theorem ask_eq_ok {call : Call} {d : Derived} {result : Option Derived}
    (h : s.ask view r.rule call d st = .ok result st') :
    st' = { st with world := st'.world } := by
  unfold ask at h
  simp only at h
  split at h
  · cases h
    rfl
  · rw [Search.bind_eq_ok] at h
    obtain ⟨a, mid, hget, h⟩ := h
    cases hget
    rw [Search.bind_eq_ok] at h
    obtain ⟨_, mid', hset, h⟩ := h
    cases hset
    cases h
    rfl

theorem solveBody_nil_eq_ok {position : Nat} {d : Derived}
    (h : s.solveBody view prove r position [] d answers st = .ok answers' st') :
    st' = st ∧ answers' = if (d.bindings.partialInstantiate r.head).isGround then
      answers.insert (d.bindings.partialInstantiate r.head) else answers := by
  unfold solveBody at h
  cases h
  exact ⟨rfl, rfl⟩

/-- The answer to one fact, which may not match. -/
def solveFact (s : Solver) (view : View γ) (prove : Triple → Search (OrderedSet Triple))
    (r : GoalRule) (position : Nat) (pattern : Triple) (rest : List Clause) (d : Derived)
    (answers : OrderedSet Triple) (fact : Triple) : Search (OrderedSet Triple) :=
  match d.bindings.matching? pattern fact with
  | none => pure answers
  | some bindings =>
    s.solveBody view prove r (position + 1) rest ⟨bindings, d.matched.set position (some fact)⟩
      answers

theorem solveFact_eq_ok {position : Nat} {pattern fact : Triple} {rest : List Clause} {d : Derived}
    (h : s.solveFact view prove r position pattern rest d answers fact st = .ok answers' st') :
    (d.bindings.matching? pattern fact = none ∧ answers' = answers ∧ st' = st) ∨
      ∃ bindings, d.bindings.matching? pattern fact = some bindings ∧
        s.solveBody view prove r (position + 1) rest
          ⟨bindings, d.matched.set position (some fact)⟩ answers st = .ok answers' st' := by
  unfold solveFact at h
  cases hmatch : d.bindings.matching? pattern fact with
  | none =>
      rw [hmatch] at h
      exact Or.inl ⟨rfl, Search.pure_eq_ok.1 h⟩
  | some bindings =>
      rw [hmatch] at h
      exact Or.inr ⟨bindings, rfl, h⟩

theorem expand_eq_ok {goal : Triple}
    (h : s.expand view prove goal answers r st = .ok answers' st') :
    (Bindings.unifyHead goal r.head r.rule.numVars = none ∧ answers' = answers ∧ st' = st) ∨
      ∃ bindings, Bindings.unifyHead goal r.head r.rule.numVars = some bindings ∧
        s.solveBody view prove r 0 r.rule.body
          ⟨bindings, List.replicate r.rule.body.length none⟩ answers st = .ok answers' st' := by
  unfold expand at h
  cases hunify : Bindings.unifyHead goal r.head r.rule.numVars with
  | none =>
      rw [hunify] at h
      exact Or.inl ⟨rfl, Search.pure_eq_ok.1 h⟩
  | some bindings =>
      rw [hunify] at h
      exact Or.inr ⟨bindings, rfl, h⟩

theorem solveBody_pattern_eq_ok {position : Nat} {pattern : Triple} {rest : List Clause}
    {d : Derived} :
    s.solveBody view prove r position (.pattern pattern :: rest) d answers st = .ok answers' st' ↔
      ∃ facts mid, prove (d.bindings.partialInstantiate pattern) st = .ok facts mid ∧
        facts.members.foldlM (s.solveFact view prove r position pattern rest d) answers mid =
          .ok answers' st' := by
  rw [solveBody, Search.bind_eq_ok]
  rfl

theorem solveBody_call_eq_ok {position : Nat} {call : Call} {rest : List Clause} {d : Derived} :
    s.solveBody view prove r position (.call call :: rest) d answers st = .ok answers' st' ↔
      ∃ result mid, s.ask view r.rule call d st = .ok result mid ∧
        (match result with
          | none => pure answers
          | some d => s.solveBody view prove r (position + 1) rest d answers) mid =
            .ok answers' st' := by
  rw [solveBody]
  exact Search.bind_eq_ok

/-- What a goal comes to: it is on its own path and answered from the table, or it is
expanded by all rules, and the answers go into the table. -/
theorem prove_succ_eq_ok {depth : Nat} {goal : Triple}
    (h : s.prove view (depth + 1) goal st = .ok answers st') :
    ∃ found, view.find (.ofTriple goal) = .ok found ∧
      ((st.path.contains goal.shape = true ∧ st' = st ∧
          answers = (OrderedSet.ofList (found.filter goal.covers)).insertAll
            ((st.answers goal.shape).filter goal.covers)) ∨
        (st.path.contains goal.shape = false ∧ ∃ mid,
          s.rules.foldlM (s.expand view (s.prove view depth) goal)
            (OrderedSet.ofList (found.filter goal.covers))
            { st with path := goal.shape :: st.path } = .ok answers mid ∧
          st' = { mid with path := mid.path.tail }.tabling goal.shape answers.members)) := by
  unfold prove at h
  cases hview : view.find (.ofTriple goal) with
  | error cause =>
      simp only [hview] at h
      cases h
  | ok found =>
      simp only [hview, pure_bind] at h
      refine ⟨found, rfl, ?_⟩
      obtain ⟨_, _, hget, h⟩ := Search.bind_eq_ok.1 h
      cases hget
      split at h
      · rename_i hpath
        cases h
        exact Or.inl ⟨hpath, rfl, rfl⟩
      · rename_i hpath
        refine Or.inr ⟨Bool.eq_false_iff.2 hpath, ?_⟩
        obtain ⟨_, _, hset, h⟩ := Search.bind_eq_ok.1 h
        cases hset
        obtain ⟨answers', mid, hfold, h⟩ := Search.bind_eq_ok.1 h
        obtain ⟨_, _, hmodify, h⟩ := Search.bind_eq_ok.1 h
        cases hmodify
        cases h
        exact ⟨mid, hfold, rfl⟩

/-! ## Growth -/

/-- A way to prove goals that only adds to the table. -/
def Growing (prove : Triple → Search (OrderedSet Triple)) : Prop :=
  ∀ goal st answers st', prove goal st = .ok answers st' → st.Grows st'

theorem Growing.solveBody (hprove : Growing prove) {position : Nat} {rest : List Clause}
    {d : Derived} (h : s.solveBody view prove r position rest d answers st = .ok answers' st') :
    Enlarges answers st answers' st' := by
  induction rest generalizing position d answers st answers' st' with
  | nil =>
      obtain ⟨rfl, rfl⟩ := solveBody_nil_eq_ok h
      refine ⟨.refl _, fun t ht => ?_⟩
      split
      · rw [OrderedSet.contains_insert, ht, Bool.true_or]
      · exact ht
  | cons clause rest ih =>
      cases clause with
      | pattern pattern =>
          obtain ⟨facts, mid, hfacts, hfold⟩ := solveBody_pattern_eq_ok.1 h
          have hgrows : Enlarges answers st answers mid := ⟨hprove _ _ _ _ hfacts, fun _ ht => ht⟩
          refine hgrows.trans (.of_foldlM hfold fun fact _ answers st answers' st' hone => ?_)
          obtain ⟨_, rfl, rfl⟩ | ⟨bindings, _, hrest⟩ := solveFact_eq_ok hone
          · exact .refl _ _
          · exact ih hrest
      | call call =>
          obtain ⟨result, mid, hask, hrest⟩ := solveBody_call_eq_ok.1 h
          have hmid := ask_eq_ok hask
          have hgrows : Enlarges answers st answers mid := by
            rw [hmid]
            exact ⟨⟨rfl, fun _ _ h => h, Nat.le_refl _, fun _ _ _ h => h⟩, fun _ h => h⟩
          refine hgrows.trans ?_
          cases result with
          | none =>
              obtain ⟨rfl, rfl⟩ := Search.pure_eq_ok.1 hrest
              exact .refl _ _
          | some d => exact ih hrest

theorem Growing.solveFact (hprove : Growing prove) {position : Nat} {pattern fact : Triple}
    {rest : List Clause} {d : Derived}
    (h : s.solveFact view prove r position pattern rest d answers fact st = .ok answers' st') :
    Enlarges answers st answers' st' := by
  obtain ⟨_, rfl, rfl⟩ | ⟨bindings, _, hrest⟩ := solveFact_eq_ok h
  · exact .refl _ _
  · exact hprove.solveBody hrest

theorem Growing.expand (hprove : Growing prove) {goal : Triple}
    (h : s.expand view prove goal answers r st = .ok answers' st') :
    Enlarges answers st answers' st' := by
  obtain ⟨_, rfl, rfl⟩ | ⟨bindings, _, hbody⟩ := expand_eq_ok h
  · exact .refl _ _
  · exact hprove.solveBody hbody

theorem growing_prove (s : Solver) (view : View γ) (depth : Nat) : Growing (s.prove view depth) := by
  induction depth with
  | zero => exact fun _ _ _ _ h => nomatch h
  | succ depth ih =>
      intro goal st answers st' h
      obtain ⟨found, _, ⟨_, rfl, _⟩ | ⟨_, mid, hfold, rfl⟩⟩ := prove_succ_eq_ok h
      · exact .refl _
      · have hfolded := Enlarges.of_foldlM hfold fun r _ _ _ _ _ hone => ih.expand hone
        have htail : st.Grows { mid with path := mid.path.tail } := by
          have hgrows := hfolded.grows
          refine ⟨?_, hgrows.knows, hgrows.tabled_le, hgrows.stable⟩
          change mid.path.tail = st.path
          rw [hgrows.path_eq]
          rfl
        exact htail.trans (SearchState.grows_tabling _ _ _)

end Solver

end Entailment
