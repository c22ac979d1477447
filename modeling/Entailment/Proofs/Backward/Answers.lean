import Entailment.Proofs.Backward.Body
import Entailment.Proofs.Matching.Shape

/-!
# Answers are right and complete

Every answer to a goal follows from what is stored, since the table only ever holds what
follows.  A goal gets all of its answers with a proof of some height when the table has
those for the goals on the path, and does not change any more: a goal that comes again
on its path is answered from the table, and a goal that is expanded puts its answers of
one height into the table before those of the next height are needed.
-/

namespace Entailment

variable {γ : Type} [Graph γ]

/-- Whatever the view finds by a pattern is what is stored and accepted. -/
def View.Shows (view : View γ) (stored : Set Triple) : Prop :=
  ∀ p found, view.find p = .ok found →
    ∀ t, found.any (· == t) = true ↔ t ∈ stored ∧ p.accepts t = true

namespace Solver

/-- The solver can answer goals from these stored triples. -/
structure Suits (s : Solver) (view : View γ) (stored : Set Triple) : Prop where
  shows : view.Shows stored
  congr : ∀ t u, (t == u) = true → t ∈ stored → u ∈ stored
  simple : ∀ t ∈ stored, t.MadeOf Node.Simple
  plain : ∀ r ∈ s.rules, r.Plain s.registry

/-- The triples that follow with a proof of at most the given height. -/
abbrev provable (s : Solver) (stored : Set Triple) (height : Nat) : Set Triple :=
  derivable (s.rules.map GoalRule.rule) s.registry stored height

/-- The triples that follow from what is stored. -/
abbrev follows (s : Solver) (stored : Set Triple) : Set Triple :=
  consequences (s.rules.map GoalRule.rule) s.registry stored

section

variable {s : Solver} {view : View γ} {stored : Set Triple}

theorem Suits.simple_of_follows (hs : s.Suits view stored) :
    ∀ t ∈ s.follows stored, t.MadeOf Node.Simple := by
  refine simple_of_consequences (fun rule hrule => ?_) hs.simple
  obtain ⟨r, hr, rfl⟩ := List.mem_map.1 hrule
  exact (hs.plain r hr).determined

theorem Suits.covers_iff (hs : s.Suits view stored) {goal t : Triple} (hgoal : goal.Shallow)
    (ht : t ∈ s.follows stored) : goal.covers t = true ↔ ∃ σ, goal.Fits σ t := by
  obtain ⟨hground, hflat⟩ := Triple.madeOf_simple_iff.1 (hs.simple_of_follows t ht)
  exact Triple.covers_iff hgoal hflat hground

theorem Suits.follows_congr (hs : s.Suits view stored) {t u : Triple} (hsame : (t == u) = true)
    (h : t ∈ s.follows stored) : u ∈ s.follows stored := by
  obtain ⟨height, ht⟩ := h
  exact ⟨height, derivable_congr hs.congr hsame ht⟩

/-- A call to a test leaves everything as it is. -/
theorem ask_of_test {rule : Rule} {call : Call} {name : String} {arity : Nat}
    {test : List Node → Bool} (hget : s.registry.get? call.name = some (.ofTest name arity test))
    (d : Derived) (st : SearchState) : s.ask view rule call d st =
      .ok (if test (call.resolvedArgs d.bindings) = true then some d else none) st := by
  unfold ask
  simp only [hget, call.holds_of_test hget]
  rfl

/-! ## Nothing wrong is answered -/

/-- The table and the answers to the goal hold nothing but what follows. -/
structure Right (M : Set Triple) (goal : Triple) (answers : OrderedSet Triple)
    (st : SearchState) : Prop where
  table : ∀ shape t, st.Knows shape t → t ∈ M
  answers : ∀ t, answers.contains t = true → t ∈ M ∧ ∃ τ, goal.Fits τ t

/-- A way to prove goals that answers nothing wrong. -/
def Truthful (M : Set Triple) (prove : Triple → Search (OrderedSet Triple)) : Prop :=
  ∀ goal st answers st', goal.Shallow → (∀ shape t, st.Knows shape t → t ∈ M) →
    prove goal st = .ok answers st' → Right M goal answers st'

variable {prove : Triple → Search (OrderedSet Triple)} {r : GoalRule} {st st' : SearchState}
  {goal : Triple} {answers answers' : OrderedSet Triple}

theorem Truthful.solveBody (hprove : Truthful (s.follows stored) prove)
    (hs : s.Suits view stored) (hr : r ∈ s.rules) {done rest : List Clause} {position : Nat}
    {d : Derived} (hbody : r.rule.body = done ++ rest)
    (hd : r.Solved s.registry goal (s.follows stored) done d.bindings)
    (hstart : Right (s.follows stored) goal answers st)
    (h : s.solveBody view prove r position rest d answers st = .ok answers' st') :
    Right (s.follows stored) goal answers' st' := by
  have hplain := hs.plain r hr
  induction rest generalizing done position d answers st answers' st' with
  | nil =>
      rw [List.append_nil] at hbody
      obtain ⟨rfl, rfl⟩ := solveBody_nil_eq_ok h
      refine ⟨hstart.table, fun t ht => ?_⟩
      split at ht
      · rename_i hground
        obtain ⟨hfollows, τ, hfits⟩ := GoalRule.Solved.conclusion (hbody ▸ hd) hplain
          model_consequences (List.mem_map_of_mem hr) hground
        rw [OrderedSet.contains_insert, Bool.or_eq_true] at ht
        rcases ht with ht | hsame
        · exact hstart.answers t ht
        · exact ⟨hs.follows_congr hsame hfollows, τ, hfits.congr (fun _ _ => BEq.rfl) hsame⟩
      · exact hstart.answers t ht
  | cons clause rest ih =>
      have hnext : r.rule.body = (done ++ [clause]) ++ rest := by
        rw [hbody, List.append_assoc]
        rfl
      have hclause : clause ∈ r.rule.body := by
        rw [hbody]
        simp
      cases clause with
      | pattern pattern =>
          obtain ⟨facts, mid, hfacts, hfold⟩ := solveBody_pattern_eq_ok.1 h
          have hright := hprove _ _ _ _
            (hd.chained.shallow_partialInstantiate (hplain.bodyShallow pattern hclause)) hstart.table hfacts
          refine Search.foldlM_keeps hfold (Right (s.follows stored) goal)
            ⟨hright.table, hstart.answers⟩ fun fact hfact answers st answers' st' hbefore hone => ?_
          obtain ⟨_, rfl, rfl⟩ | ⟨bindings, hmatch, hrest⟩ := solveFact_eq_ok hone
          · exact hbefore
          · have hfollows := (hright.answers fact (OrderedSet.contains_of_mem hfact)).1
            obtain ⟨hground, hflat⟩ := Triple.madeOf_simple_iff.1 (hs.simple_of_follows fact hfollows)
            exact ih hnext (hd.next_pattern hplain hclause hfollows hground hflat hmatch) hbefore hrest
      | call call =>
          obtain ⟨result, mid, hask, hrest⟩ := solveBody_call_eq_ok.1 h
          obtain ⟨name, arity, test, hget, hpasses⟩ := hd.exists_test hplain
            (fun c hc => hbody ▸ List.mem_append_left _ hc) (hplain.ready done call rest hbody)
          rw [ask_of_test hget] at hask
          cases htest : test (call.resolvedArgs d.bindings) with
          | false =>
              rw [htest] at hask
              cases hask
              obtain ⟨rfl, rfl⟩ := Search.pure_eq_ok.1 hrest
              exact hstart
          | true =>
              rw [htest] at hask
              cases hask
              exact ih hnext (hd.next_call fun σ hσ => (hpasses σ hσ).2 htest) hstart hrest

theorem Truthful.expand (hprove : Truthful (s.follows stored) prove) (hs : s.Suits view stored)
    (hr : r ∈ s.rules) (hgoal : goal.Shallow) (hstart : Right (s.follows stored) goal answers st)
    (h : s.expand view prove goal answers r st = .ok answers' st') :
    Right (s.follows stored) goal answers' st' := by
  obtain ⟨_, rfl, rfl⟩ | ⟨bindings, hunify, hbody⟩ := expand_eq_ok h
  · exact hstart
  · exact hprove.solveBody hs hr rfl ((hs.plain r hr).solved_nil hgoal hunify) hstart hbody

/-- The stored triples that a goal finds are its instances. -/
theorem Suits.contains_stored (hs : s.Suits view stored) (hgoal : goal.Shallow) {found : List Triple}
    (hfind : view.find (.ofTriple goal) = .ok found) (t : Triple) :
    (OrderedSet.ofList (found.filter goal.covers)).contains t = true ↔
      t ∈ stored ∧ ∃ σ, goal.Fits σ t := by
  have hstored : ∀ t ∈ stored, t ∈ s.follows stored := fun t ht => ⟨0, ht⟩
  rw [OrderedSet.contains_ofList, List.any_eq_true]
  constructor
  · rintro ⟨u, hu, hsame⟩
    obtain ⟨hu, hcovers⟩ := List.mem_filter.1 hu
    have hseen := ((hs.shows _ _ hfind u).1 (List.any_eq_true.2 ⟨u, hu, BEq.rfl⟩)).1
    obtain ⟨σ, hσ⟩ := (hs.covers_iff hgoal (hstored u hseen)).1 hcovers
    exact ⟨hs.congr u t hsame hseen, σ, hσ.congr (fun _ _ => BEq.rfl) hsame⟩
  · rintro ⟨ht, σ, hσ⟩
    have haccepts : (TriplePattern.ofTriple goal).accepts t = true := by
      rw [TriplePattern.accepts, Bool.and_eq_true, Bool.and_eq_true]
      exact ⟨⟨Bindings.allows_fixing hσ.subject, Bindings.allows_fixing hσ.predicate⟩,
        Bindings.allows_fixing hσ.object⟩
    obtain ⟨u, hu, hsame⟩ := List.any_eq_true.1 ((hs.shows _ _ hfind t).2 ⟨ht, haccepts⟩)
    refine ⟨u, List.mem_filter.2 ⟨hu, ?_⟩, hsame⟩
    rw [hs.covers_iff hgoal (hstored u (hs.congr t u (BEq.symm hsame) ht))]
    exact ⟨σ, hσ.congr (fun _ _ => BEq.rfl) (BEq.symm hsame)⟩

theorem Suits.truthful (hs : s.Suits view stored) (depth : Nat) :
    Truthful (s.follows stored) (s.prove view depth) := by
  induction depth with
  | zero => exact fun _ _ _ _ _ _ h => nomatch h
  | succ depth ih =>
      intro goal st answers st' hgoal htable h
      obtain ⟨found, hfind, hcases⟩ := prove_succ_eq_ok h
      have hstored : Right (s.follows stored) goal
          (OrderedSet.ofList (found.filter goal.covers)) st := by
        refine ⟨htable, fun t ht => ?_⟩
        obtain ⟨hmem, hfits⟩ := (hs.contains_stored hgoal hfind t).1 ht
        exact ⟨⟨0, hmem⟩, hfits⟩
      rcases hcases with ⟨_, rfl, rfl⟩ | ⟨_, mid, hfold, rfl⟩
      · refine ⟨htable, fun t ht => ?_⟩
        rw [OrderedSet.contains_insertAll, Bool.or_eq_true] at ht
        rcases ht with ht | ht
        · exact hstored.answers t ht
        · obtain ⟨u, hu, hsame⟩ := List.any_eq_true.1 ht
          obtain ⟨hu, hcovers⟩ := List.mem_filter.1 hu
          have hfollows := htable goal.shape u (List.any_eq_true.2 ⟨u, hu, BEq.rfl⟩)
          obtain ⟨σ, hσ⟩ := (hs.covers_iff hgoal hfollows).1 hcovers
          exact ⟨hs.follows_congr hsame hfollows, σ, hσ.congr (fun _ _ => BEq.rfl) hsame⟩
      · have hright : Right (s.follows stored) goal answers mid :=
          Search.foldlM_keeps hfold (Right (s.follows stored) goal) ⟨hstored.table, hstored.answers⟩
            fun r hr _ _ _ _ hbefore hone => ih.expand hs hr hgoal hbefore hone
        refine ⟨fun shape t hknown => ?_, hright.answers⟩
        rcases SearchState.knows_tabling.1 hknown with hknown | ⟨_, hany⟩
        · exact hright.table shape t hknown
        · exact (hright.answers t hany).1

/-! ## Nothing is missed -/

/-- A way to prove goals that, on a path and with a table that stays as it is, answers
every instance of a goal among the given triples. -/
def Thoroughly (known : Triple → Triple → Prop) (path : List Triple) (D : Set Triple)
    (prove : Triple → Search (OrderedSet Triple)) : Prop :=
  ∀ goal st answers st', goal.Shallow → st.path = path → st.Knows = known → st'.Knows = known →
    prove goal st = .ok answers st' → ∀ t ∈ D, (∃ σ, goal.Fits σ t) → answers.contains t = true

variable {known : Triple → Triple → Prop} {path : List Triple} {D : Set Triple}

theorem Thoroughly.solveBody (hthorough : Thoroughly known path D prove)
    (hgrowing : Growing prove) (htruthful : Truthful (s.follows stored) prove)
    (hs : s.Suits view stored) (hr : r ∈ s.rules) (htable : ∀ shape t, known shape t →
      t ∈ s.follows stored) {done rest : List Clause} {position : Nat} {d : Derived}
    (hbody : r.rule.body = done ++ rest)
    (hd : r.Solved s.registry goal (s.follows stored) done d.bindings) {σ : Assignment}
    (hσ : d.bindings.Allows σ) (happlies : r.rule.Applies s.registry D σ) {t : Triple}
    (hfits : r.head.Fits σ t) (hpath : st.path = path) (hst : st.Knows = known)
    (hst' : st'.Knows = known)
    (h : s.solveBody view prove r position rest d answers st = .ok answers' st') :
    answers'.contains t = true := by
  have hplain := hs.plain r hr
  induction rest generalizing done position d answers st answers' st' with
  | nil =>
      rw [List.append_nil] at hbody
      obtain ⟨_, rfl⟩ := solveBody_nil_eq_ok h
      obtain ⟨hground, hsame⟩ := GoalRule.Solved.head_eq (hbody ▸ hd) hplain hσ hfits
      rw [if_pos hground, OrderedSet.contains_insert, hsame, Bool.or_true]
  | cons clause rest ih =>
      have hnext : r.rule.body = (done ++ [clause]) ++ rest := by
        rw [hbody, List.append_assoc]
        rfl
      have hclause : clause ∈ r.rule.body := by
        rw [hbody]
        simp
      cases clause with
      | pattern pattern =>
          obtain ⟨facts, mid, hfacts, hfold⟩ := solveBody_pattern_eq_ok.1 h
          have hflat := hplain.bodyShallow pattern hclause
          have hsub := hd.chained.shallow_partialInstantiate hflat
          have hentered := hgrowing _ _ _ _ hfacts
          have hfolded := Enlarges.of_foldlM hfold fun _ _ _ _ _ _ hone => hgrowing.solveFact hone
          have hmid := hentered.between hfolded.grows hst hst'
          -- The fact that the instance has here is among the answers to the pattern.
          obtain ⟨u, hu, hfits'⟩ := happlies.patterns pattern hclause
          have hfound := hthorough _ _ _ _ hsub hpath hst hmid hfacts u hu
            ⟨σ, (hd.chained.fits_partialInstantiate_iff hσ hflat).2 hfits'⟩
          obtain ⟨fact, hfact, hsame⟩ := OrderedSet.contains_iff.1 hfound
          have hright := htruthful _ _ _ _ hsub (fun shape t hknown => htable shape t (hst ▸ hknown))
            hfacts
          have hfollows := (hright.answers fact (OrderedSet.contains_of_mem hfact)).1
          obtain ⟨hground, hatom⟩ := Triple.madeOf_simple_iff.1 (hs.simple_of_follows fact hfollows)
          have hfits'' : pattern.Fits σ fact := hfits'.congr (fun _ _ => BEq.rfl) (BEq.symm hsame)
          obtain ⟨bindings, hmatch⟩ := hd.chained.exists_matching? hflat hatom hground
            (fun i hi => by
              rw [hd.length_eq]
              exact hplain.slots i (Rule.mem_boundIndexes_iff.2 ⟨pattern, hclause, hi⟩)) hσ hfits''
          have hallows := ((hd.chained.narrows_of_matching? hflat hatom hground hmatch).allows_iff σ).2
            ⟨hσ, hfits''⟩
          obtain ⟨before, after, b₁, st₁, b₂, st₂, _, hbefore, hone, hafter⟩ :=
            Search.foldlM_reaches hfold hfact
          have hto := Enlarges.of_foldlM hbefore fun _ _ _ _ _ _ hone => hgrowing.solveFact hone
          have hfrom := Enlarges.of_foldlM hafter fun _ _ _ _ _ _ hone => hgrowing.solveFact hone
          have hthere := hgrowing.solveFact hone
          have hst₁ := hto.grows.between (hthere.grows.trans hfrom.grows) hmid hst'
          have hst₂ := hthere.grows.between hfrom.grows hst₁ hst'
          rcases solveFact_eq_ok hone with ⟨hnone, _, _⟩ | ⟨bindings', hmatch', hrest⟩
          · rw [hmatch] at hnone
            cases hnone
          · rw [hmatch] at hmatch'
            cases hmatch'
            refine hfrom.keeps t (ih hnext
              (hd.next_pattern hplain hclause hfollows hground hatom hmatch) hallows ?_ hst₁ hst₂ hrest)
            rw [hto.grows.path_eq, hentered.path_eq, hpath]
      | call call =>
          obtain ⟨result, mid, hask, hrest⟩ := solveBody_call_eq_ok.1 h
          obtain ⟨name, arity, test, hget, hpasses⟩ := hd.exists_test hplain
            (fun c hc => hbody ▸ List.mem_append_left _ hc) (hplain.ready done call rest hbody)
          have htest := (hpasses σ hσ).1 (happlies.calls call hclause)
          rw [ask_of_test hget, if_pos htest] at hask
          cases hask
          exact ih hnext (hd.next_call fun τ hτ => (hpasses τ hτ).2 htest) hσ hpath hst hst' hrest

theorem Thoroughly.expand (hthorough : Thoroughly known path D prove)
    (hgrowing : Growing prove) (htruthful : Truthful (s.follows stored) prove)
    (hs : s.Suits view stored) (hr : r ∈ s.rules) (htable : ∀ shape t, known shape t →
      t ∈ s.follows stored) (hgoal : goal.Shallow) {σ : Assignment}
    (happlies : r.rule.Applies s.registry D σ) {t : Triple} (hfits : r.head.Fits σ t)
    (hinstance : ∃ τ, goal.Fits τ t) (hpath : st.path = path) (hst : st.Knows = known)
    (hst' : st'.Knows = known)
    (h : s.expand view prove goal answers r st = .ok answers' st') :
    answers'.contains t = true := by
  obtain ⟨τ, hτ⟩ := hinstance
  obtain ⟨b, hunify, hallows⟩ := (hs.plain r hr).exists_unifyHead hgoal hfits hτ
  rcases expand_eq_ok h with ⟨hnone, _, _⟩ | ⟨bindings, hunify', hbody⟩
  · rw [hunify] at hnone
    cases hnone
  · rw [hunify] at hunify'
    cases hunify'
    exact hthorough.solveBody hgrowing htruthful hs hr htable rfl
      ((hs.plain r hr).solved_nil hgoal hunify) hallows happlies hfits hpath hst hst' hbody

/-- The table has the instances among the triples of all goals on the path. -/
def Tabulated (known : Triple → Triple → Prop) (path : List Triple) (D : Set Triple) : Prop :=
  ∀ shape ∈ path, ∀ t ∈ D, (∃ σ, shape.Fits σ t) → known shape t

theorem Tabulated.mono {D' : Set Triple} (h : Tabulated known path D) (hsub : D' ⊆ D) :
    Tabulated known path D' :=
  fun shape hshape t ht hfits => h shape hshape t (hsub ht) hfits

/-- A goal that comes again gets its answers from the table. -/
theorem Suits.answers_of_tabulated (hs : s.Suits view stored) (hgoal : goal.Shallow)
    (htabulated : Tabulated st.Knows st.path D) (hD : D ⊆ s.follows stored)
    (hagain : st.path.contains goal.shape = true) {t : Triple} (ht : t ∈ D)
    (hinstance : ∃ σ, goal.Fits σ t) :
    ((st.answers goal.shape).filter goal.covers).any (· == t) = true := by
  obtain ⟨shape, hshape, hsame⟩ := List.contains_iff_exists_mem_beq.1 hagain
  obtain ⟨σ, hσ⟩ := hinstance
  obtain ⟨τ, hτ⟩ := Triple.shape_fits hσ
  have hknown := (htabulated shape hshape t ht ⟨τ, Triple.fits_of_beq hsame hτ⟩).congr
    (BEq.symm hsame) BEq.rfl
  obtain ⟨u, hu, hsame'⟩ := List.any_eq_true.1 hknown
  refine List.any_eq_true.2 ⟨u, List.mem_filter.2 ⟨hu, ?_⟩, hsame'⟩
  rw [hs.covers_iff hgoal (hs.follows_congr (BEq.symm hsame') (hD ht))]
  exact ⟨σ, hσ.congr (fun _ _ => BEq.rfl) (BEq.symm hsame')⟩

/-- The answers of one height are found when the table has them for the goals on the
path.  The induction is on the depth, and within one goal on the height. -/
theorem Suits.thoroughly (hs : s.Suits view stored) (depth : Nat)
    (htable : ∀ shape t, known shape t → t ∈ s.follows stored) (path : List Triple) (height : Nat)
    (htabulated : Tabulated known path (s.provable stored height)) :
    Thoroughly known path (s.provable stored height) (s.prove view depth) := by
  induction depth generalizing path height with
  | zero => exact fun _ _ _ _ _ _ _ _ h => nomatch h
  | succ depth ih =>
      intro goal st answers st' hgoal hpath hst hst' h t ht hinstance
      obtain ⟨found, hfind, hcases⟩ := prove_succ_eq_ok h
      rcases hcases with ⟨hagain, rfl, rfl⟩ | ⟨_, mid, hfold, rfl⟩
      · have hany := hs.answers_of_tabulated hgoal (by rw [hpath, hst]; exact htabulated)
          (fun u hu => ⟨height, hu⟩) hagain ht hinstance
        rw [OrderedSet.contains_insertAll, hany, Bool.or_true]
      · have hgrowing := growing_prove s view depth
        have htruthful := hs.truthful depth
        have hfolded := Enlarges.of_foldlM hfold fun r _ _ _ _ _ hone => hgrowing.expand hone
        have hmid := hfolded.grows.between (SearchState.grows_tabling mid goal.shape answers.members)
          hst hst'
        have hstored : ∀ t ∈ stored, (∃ σ, goal.Fits σ t) → answers.contains t = true :=
          fun t ht hfits => hfolded.keeps t ((hs.contains_stored hgoal hfind t).2 ⟨ht, hfits⟩)
        induction height generalizing t with
        | zero => exact hstored t ht hinstance
        | succ height ih' =>
            have hbelow := ih' (htabulated.mono (derivable_succ height))
            have hinner : Tabulated known (goal.shape :: path) (s.provable stored height) := by
              intro shape hshape u hu hfits
              rcases List.mem_cons.1 hshape with rfl | hshape
              · obtain ⟨σ, hσ⟩ := hfits
                rw [← hst']
                exact SearchState.knows_tabling.2
                  (Or.inr ⟨BEq.rfl, hbelow u hu (Triple.fits_of_shape_fits hσ)⟩)
              · exact htabulated shape hshape u (derivable_succ height hu) hfits
            rcases ht with ht | ⟨rule, hrule, σ, happlies, h, hh, hfits⟩
            · exact hstored t ht hinstance
            · obtain ⟨r, hr, rfl⟩ := List.mem_map.1 hrule
              rw [(hs.plain r hr).conclusion] at hh
              cases List.mem_singleton.1 hh
              obtain ⟨before, after, b₁, st₁, b₂, st₂, _, hbefore, hone, hafter⟩ :=
                Search.foldlM_reaches hfold hr
              have hto := Enlarges.of_foldlM hbefore fun _ _ _ _ _ _ hone => hgrowing.expand hone
              have hfrom := Enlarges.of_foldlM hafter fun _ _ _ _ _ _ hone => hgrowing.expand hone
              have hthere := hgrowing.expand hone
              have hst₁ := hto.grows.between (hthere.grows.trans hfrom.grows) hst hmid
              have hst₂ := hthere.grows.between hfrom.grows hst₁ hmid
              refine hfrom.keeps t ((ih (goal.shape :: path) height hinner).expand hgrowing htruthful
                hs hr htable hgoal happlies hfits hinstance ?_ hst₁ hst₂ hone)
              rw [hto.grows.path_eq, hpath]

/-! ## The last round -/

/-- An answer is given by a round that leaves the number of answers in the table. -/
theorem exists_round {rounds : Nat}
    (h : s.repeatUntilStable view goal rounds st = .ok answers st') (P : SearchState → Prop)
    (hstart : P st) (hround : ∀ st answers st', P st →
      s.prove view (s.maxDepth + 1) goal st = .ok answers st' → P st') :
    ∃ before, P before ∧ s.prove view (s.maxDepth + 1) goal before = .ok answers st' ∧
      st'.tabled = before.tabled := by
  induction rounds generalizing st with
  | zero => cases h
  | succ rounds ih =>
      unfold repeatUntilStable at h
      obtain ⟨_, _, hget, h⟩ := Search.bind_eq_ok.1 h
      cases hget
      obtain ⟨answers', mid, hprove, h⟩ := Search.bind_eq_ok.1 h
      obtain ⟨_, _, hget, h⟩ := Search.bind_eq_ok.1 h
      cases hget
      split at h
      · rename_i hsame
        cases h
        exact ⟨st, hstart, hprove, hsame⟩
      · exact ih h (hround _ _ _ hstart hprove)

/-- The answers to a goal are its instances among what follows. -/
theorem Suits.contains_answers (hs : s.Suits view stored) (hgoal : goal.Shallow) {world : World}
    {rounds : Nat} (h : s.repeatUntilStable view goal rounds { world } = .ok answers st')
    (t : Triple) :
    answers.contains t = true ↔ t ∈ s.follows stored ∧ ∃ σ, goal.Fits σ t := by
  obtain ⟨before, ⟨htable, hpath⟩, hprove, htabled⟩ := exists_round h
    (fun st => (∀ shape t, st.Knows shape t → t ∈ s.follows stored) ∧ st.path = [])
    ⟨(fun _ _ hknown => nomatch hknown), rfl⟩ fun st answers st' hst hprove =>
      ⟨(hs.truthful _ _ _ _ _ hgoal hst.1 hprove).table,
        (growing_prove s view _ _ _ _ _ hprove).path_eq.trans hst.2⟩
  refine ⟨(hs.truthful _ _ _ _ _ hgoal htable hprove).answers t, fun ⟨⟨height, ht⟩, hinstance⟩ => ?_⟩
  have hsame := (growing_prove s view _ _ _ _ _ hprove).knows_eq htabled
  exact hs.thoroughly (s.maxDepth + 1) htable [] height (fun _ hshape => nomatch hshape) goal before
    answers st' hgoal hpath rfl hsame hprove t ht hinstance

end

end Solver

end Entailment
