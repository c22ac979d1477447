import Entailment.Proofs.Backward.InPlace
import Entailment.Proofs.Backward.Outcome

/-!
# Backtracking is balanced

Every way back in a search in place meets what was saved on the way, so it never runs out
of saved environments, and a body that has been solved leaves the trail, the matched facts
and the path of goals as it found them.  So the search does what the one does that hands
environments on.  What it can run into is the unification of a goal with a head that does
not end.  That cannot happen where functors have no variables, and facts are compared to
the end in any case.
-/

namespace Entailment

/-! ## Searches that do the same unless they run into something -/

/-- The table holds ground triples. -/
def SearchState.HoldsGround (st : SearchState) : Prop :=
  ∀ shape t, st.Knows shape t → t.isGround = true

namespace Search

variable {α β : Type} {E : Prop} {endless : Failure} {m m' : Search α}

/-- The first search does what the second one does, if it does not run into something and
end with the failure. -/
def Upto (E : Prop) (endless : Failure) (m' m : Search α) : Prop :=
  ∀ st, st.HoldsGround → m' st = m st ∨ E ∧ ∃ st', m' st = .error endless st'

theorem Upto.refl (m : Search α) : Upto E endless m m := fun _ _ => .inl rfl

/-- What the second search gives has the property, and it leaves the table ground. -/
def Leaves (Q : α → Prop) (m : Search α) : Prop :=
  ∀ st a st', st.HoldsGround → m st = .ok a st' → Q a ∧ st'.HoldsGround

theorem Upto.bind {Q : α → Prop} {f f' : α → Search β} (hm : Upto E endless m' m)
    (hleaves : Leaves Q m) (hf : ∀ a, Q a → Upto E endless (f' a) (f a)) :
    Upto E endless (m' >>= f') (m >>= f) := by
  intro st hst
  change EStateM.bind m' f' st = EStateM.bind m f st ∨
    E ∧ ∃ st', EStateM.bind m' f' st = .error endless st'
  unfold EStateM.bind
  rcases hm st hst with hsame | ⟨hE, st', herror⟩
  · rw [hsame]
    cases hresult : m st with
    | error cause mid => exact .inl rfl
    | ok a mid =>
        obtain ⟨hQ, hmid⟩ := hleaves st a mid hst hresult
        exact hf a hQ mid hmid
  · rw [herror]
    exact .inr ⟨hE, st', rfl⟩

/-- What goes on in the same way does the same. -/
theorem Upto.bind_left (hm : Upto E endless m' m) (f : α → Search β) :
    Upto E endless (m' >>= f) (m >>= f) := by
  intro st hst
  change EStateM.bind m' f st = EStateM.bind m f st ∨
    E ∧ ∃ st', EStateM.bind m' f st = .error endless st'
  unfold EStateM.bind
  rcases hm st hst with hsame | ⟨hE, st', herror⟩
  · rw [hsame]
    exact .inl rfl
  · rw [herror]
    exact .inr ⟨hE, st', rfl⟩

theorem Upto.foldlM {f f' : β → α → Search β} {as : List α}
    (h : ∀ a ∈ as, ∀ b, Upto E endless (f' b a) (f b a))
    (hleaves : ∀ a ∈ as, ∀ b, Leaves (fun _ => True) (f b a)) (b : β) :
    Upto E endless (as.foldlM f' b) (as.foldlM f b) := by
  induction as generalizing b with
  | nil => exact .refl _
  | cons a as ih =>
      rw [List.foldlM_cons, List.foldlM_cons]
      exact (h a List.mem_cons_self b).bind (hleaves a List.mem_cons_self b) fun b _ =>
        ih (fun a' ha' => h a' (List.mem_cons_of_mem _ ha'))
          (fun a' ha' => hleaves a' (List.mem_cons_of_mem _ ha')) b

end Search

open Search

namespace Solver

variable {γ : Type} [Graph γ] {watch : Watch} {s : Solver} {view : View γ} {r : GoalRule}
  {position : Nat} {prove prove' : Triple → Search (OrderedSet Triple)} {a : Attempt} {E : Prop}

/-! ## A body is left as it was found -/

/-- A lenient watch does not object where only answers have been added. -/
theorem watched_eq (hwatch : watch.Lenient) (a : Attempt) (solution : Search (OrderedSet Triple))
    (hpath : ∀ st answers st', solution st = .ok answers st' → st'.path = st.path) :
    watched watch a (a.answered <$> solution) = a.answered <$> solution := by
  funext st
  unfold watched
  change EStateM.bind (EStateM.map a.answered solution) _ st = EStateM.map a.answered solution st
  unfold EStateM.bind EStateM.map
  cases hsolution : solution st with
  | error cause st' => rfl
  | ok answers st' =>
      have hkept : watch.accepts a st (a.answered answers) st' = true :=
        hwatch _ _ _ _ rfl rfl (hpath st answers st' hsolution)
      change (if watch.accepts a st (a.answered answers) st' = true then _ else _ :
        Search Attempt) st' = _
      rw [if_pos hkept]
      rfl

theorem upto_watched {work work' : Search Attempt} (h : Upto E watch.endless work' work)
    (a : Attempt) : Upto E watch.endless (watched watch a work') (watched watch a work) := by
  intro st hst
  unfold watched
  change EStateM.bind work' _ st = EStateM.bind work _ st ∨
    E ∧ ∃ st', EStateM.bind work' _ st = .error watch.endless st'
  unfold EStateM.bind
  rcases h st hst with hsame | ⟨hE, st', herror⟩
  · rw [hsame]
    exact .inl rfl
  · rw [herror]
    exact .inr ⟨hE, st', rfl⟩

/-- The solution of a body in place adds the answers, and leaves all else as it was found. -/
def InPlace (E : Prop) (watch : Watch) (s : Solver) (view : View γ)
    (prove' prove : Triple → Search (OrderedSet Triple)) (r : GoalRule) (rest : List Clause)
    (position : Nat) : Prop :=
  ∀ a : Attempt, a.Open position → a.trail.current.Solid →
    Upto E watch.endless (s.solveBodyOn watch view prove' r position rest a)
      (a.answered <$> s.solveBody view prove r position rest ⟨a.trail.current, a.matched⟩ a.answers)

/-- And a watch does not object to that. -/
theorem InPlace.watched {rest : List Clause}
    (h : InPlace E watch s view prove' prove r rest position) (hwatch : watch.Lenient)
    (hprove : Growing prove) (hopen : a.Open position) (hsolid : a.trail.current.Solid) :
    Upto E watch.endless
      (Solver.watched watch a (s.solveBodyOn watch view prove' r position rest a))
      (a.answered <$>
        s.solveBody view prove r position rest ⟨a.trail.current, a.matched⟩ a.answers) := by
  have hupto := upto_watched (h a hopen hsolid) a
  rwa [watched_eq hwatch a _ fun _ _ _ h => (hprove.solveBody h).grows.path_eq] at hupto

/-- A fact is tried in place. -/
def solveFactOn (watch : Watch) (s : Solver) (view : View γ)
    (prove : Triple → Search (OrderedSet Triple)) (r : GoalRule) (position : Nat)
    (pattern : Triple) (rest : List Clause) (a : Attempt) (fact : Triple) : Search Attempt := do
  let (held, a) ← a.save.unify watch pattern fact
  let a ←
    if held then
      let a := { a with matched := a.matched.set position (some fact) }
      Solver.watched watch a (solveBodyOn watch s view prove r (position + 1) rest a)
    else pure a
  a.goBack

/-- All that a fact leaves behind are answers and, if it matches, its note. -/
theorem InPlace.solveFact {rest : List Clause}
    (h : InPlace E watch s view prove' prove r rest (position + 1))
    (hwatch : watch.Lenient) (hprove : Growing prove) (hopen : a.Open position)
    (hsolid : a.trail.current.Solid) (pattern : Triple) {fact : Triple}
    (hfact : fact.isGround = true) (noted : Option Triple) :
    ∃ noted', ∀ answers, Upto E watch.endless
      (s.solveFactOn watch view prove' r position pattern rest (a.noting position noted answers)
        fact)
      (a.noting position noted' <$>
        s.solveFact view prove r position pattern rest ⟨a.trail.current, a.matched⟩ answers
          fact) := by
  unfold solveFactOn Solver.solveFact Bindings.matching?
  have hkept := hsolid.unifyTriple pattern fact
  cases hunify : a.trail.current.unifyTriple pattern fact with
  | mk held bindings =>
      rw [hunify] at hkept
      have hunified : ∀ answers, (a.noting position noted answers).save.unify watch pattern fact =
          pure (held, ⟨⟨bindings, a.trail.current :: a.trail.saved⟩,
            a.matched.set position noted, answers⟩) := by
        intro answers
        have hends : (a.noting position noted answers).save.trail.current.unifyTriple? pattern
            fact = some (held, bindings) :=
          (hsolid.unifyTriple?_eq (.inr hfact)).trans (congrArg some hunify)
        unfold Attempt.unify
        rw [hends]
        rfl
      cases held with
      | false =>
          refine ⟨noted, fun answers => ?_⟩
          rw [hunified]
          exact .refl _
      | true =>
          refine ⟨some fact, fun answers => ?_⟩
          rw [hunified]
          let b : Attempt := ⟨⟨bindings, a.trail.current :: a.trail.saved⟩,
            a.matched.set position (some fact), answers⟩
          have hnoted : (a.matched.set position noted).set position (some fact) = b.matched :=
            List.set_set ..
          have hb : b.Open (position + 1) := hopen.next fun i hi =>
            List.getElem?_set_ne (Nat.ne_of_lt hi)
          have hbody := (h.watched hwatch hprove hb hkept).bind_left Attempt.goBack
          change Upto E watch.endless (do
            let b' ← Solver.watched watch
              ⟨b.trail, (a.matched.set position noted).set position (some fact), answers⟩
              (s.solveBodyOn watch view prove' r (position + 1) rest
                ⟨b.trail, (a.matched.set position noted).set position (some fact), answers⟩)
            b'.goBack) (a.noting position (some fact) <$>
              s.solveBody view prove r (position + 1) rest ⟨b.trail.current, b.matched⟩ b.answers)
          rw [hnoted]
          rw [bind_map_left] at hbody
          rw [map_eq_pure_bind]
          exact hbody

/-- A fact leaves the table ground. -/
theorem leaves_solveFact (hgrounds : Grounds prove) (hbinds : s.OnlyBinds) (pattern fact : Triple)
    (rest : List Clause) (d : Derived) (answers : OrderedSet Triple) :
    Leaves (fun _ => True)
      (s.solveFact view prove r position pattern rest d answers fact) := by
  intro st answers' st' hst h
  refine ⟨trivial, ?_⟩
  obtain ⟨_, rfl, rfl⟩ | ⟨bindings, _, hrest⟩ := solveFact_eq_ok h
  · exact hst
  · exact (hgrounds.solveBody (lasts_fills hbinds _ bindings) (fun _ hc => hc)
      (Q := fun _ => True) (fun _ _ _ => trivial) .refl ⟨hst, fun _ _ => trivial⟩ hrest).table

/-- All that a loop over facts leaves behind are answers and some note. -/
theorem InPlace.solveFacts {rest : List Clause}
    (h : InPlace E watch s view prove' prove r rest (position + 1))
    (hwatch : watch.Lenient) (hprove : Growing prove) (hgrounds : Grounds prove)
    (hbinds : s.OnlyBinds) (hopen : a.Open position) (hsolid : a.trail.current.Solid)
    (pattern : Triple) {facts : List Triple} (hfacts : ∀ fact ∈ facts, fact.isGround = true)
    (noted : Option Triple) :
    ∃ noted', ∀ answers, Upto E watch.endless
      (facts.foldlM (s.solveFactOn watch view prove' r position pattern rest)
        (a.noting position noted answers))
      (a.noting position noted' <$>
        facts.foldlM (s.solveFact view prove r position pattern rest
          ⟨a.trail.current, a.matched⟩) answers) := by
  induction facts generalizing noted with
  | nil => exact ⟨noted, fun answers => .refl _⟩
  | cons fact facts ih =>
      obtain ⟨mid, hfact⟩ := h.solveFact hwatch hprove hopen hsolid pattern
        (hfacts fact List.mem_cons_self) noted
      obtain ⟨noted', hrest⟩ := ih (fun f hf => hfacts f (List.mem_cons_of_mem _ hf)) mid
      refine ⟨noted', fun answers => ?_⟩
      rw [List.foldlM_cons, List.foldlM_cons, map_bind]
      have hone : Leaves (fun b : Attempt => ∃ answers, b = a.noting position mid answers)
          (a.noting position mid <$> s.solveFact view prove r position pattern rest
            ⟨a.trail.current, a.matched⟩ answers fact) := by
        intro st b st' hst hb
        rw [map_eq_pure_bind] at hb
        obtain ⟨answers', mid, hsolve, hb⟩ := bind_eq_ok.1 hb
        obtain ⟨rfl, rfl⟩ := pure_eq_ok.1 hb
        exact ⟨⟨answers', rfl⟩, (leaves_solveFact hgrounds hbinds _ _ _ _ _ _ _ _ hst hsolve).2⟩
      have hafter : ∀ b : Attempt, (∃ answers, b = a.noting position mid answers) →
          Upto E watch.endless
            (facts.foldlM (s.solveFactOn watch view prove' r position pattern rest) b)
            (a.noting position noted' <$> facts.foldlM (s.solveFact view prove r position pattern
              rest ⟨a.trail.current, a.matched⟩) b.answers) := by
        rintro _ ⟨answers', rfl⟩
        exact hrest answers'
      have hall := (hfact answers).bind hone hafter
      rw [bind_map_left] at hall
      exact hall

/-- The goal, or a pattern of some body as it has become. -/
def Poses (s : Solver) (goal g : Triple) : Prop :=
  g = goal.numbered ∨ ∃ r ∈ s.rules, ∃ p, Clause.pattern p ∈ r.rule.body ∧
    ∃ b : Bindings, b.Solid ∧ g = b.partialInstantiate p

/-- Solving a body in place adds the answers, and leaves all else as it was found. -/
theorem inPlace_solveBody (hwatch : watch.Lenient) (hbinds : s.OnlyBinds)
    (hprove : Growing prove) (hgrounds : Grounds prove) {goal : Triple}
    (hupto : ∀ g, s.Poses goal g → Upto E watch.endless (prove' g) (prove g)) (hr : r ∈ s.rules)
    {rest : List Clause} (hrest : ∀ clause ∈ rest, clause ∈ r.rule.body) (position : Nat) :
    InPlace E watch s view prove' prove r rest position := by
  induction rest generalizing position with
  | nil =>
      intro a _ _
      rw [solveBodyOn, solveBody, map_pure]
      split <;> exact .refl _
  | cons clause rest ih =>
      have ih := ih (fun c hc => hrest c (List.mem_cons_of_mem _ hc)) (position + 1)
      intro a hopen hsolid
      cases clause with
      | pattern pattern =>
          rw [solveBodyOn, solveBody, map_bind]
          have hleaves : Leaves (fun facts : OrderedSet Triple =>
              ∀ fact ∈ facts.members, fact.isGround = true)
              (prove (a.trail.current.partialInstantiate pattern)) := by
            intro st facts st' hst h
            have hyields := hgrounds _ st facts st' hst h
            exact ⟨hyields.answers, hyields.table⟩
          have hposed : s.Poses goal (a.trail.current.partialInstantiate pattern) :=
            .inr ⟨r, hr, pattern, hrest _ List.mem_cons_self, _, hsolid, rfl⟩
          refine (hupto _ hposed).bind hleaves fun facts hfacts => ?_
          obtain ⟨noted, hloop⟩ := ih.solveFacts hwatch hprove hgrounds hbinds hopen hsolid pattern
            hfacts none
          have hstart : a.noting position none a.answers = a := by
            rw [Attempt.noting, hopen.set]
          have hend : ∀ answers, { a.noting position noted answers with
              matched := (a.noting position noted answers).matched.set position none } =
                a.answered answers := by
            intro answers
            rw [Attempt.noting, Attempt.answered, List.set_set, hopen.set]
          have hall := (hloop a.answers).bind_left fun b =>
            (pure { b with matched := b.matched.set position none } : Search Attempt)
          rw [hstart, bind_map_left] at hall
          simp only [hend] at hall
          rw [map_eq_pure_bind]
          exact hall
      | call call =>
          intro st hst
          rw [solveBodyOn, solveBody]
          by_cases hrefuses : s.refuses call = true
          · left
            rw [if_pos hrefuses]
            change _ = EStateM.map a.answered (EStateM.bind (s.ask view r.rule call _) _) st
            unfold EStateM.map EStateM.bind
            rw [ask_apply, if_pos hrefuses]
            rfl
          · rw [if_neg hrefuses]
            obtain ⟨held, after, hresult⟩ : ∃ held after,
                s.run view r.rule call ⟨a.trail.current, a.matched⟩ st.world = (held, after) :=
              ⟨_, _, rfl⟩
            let b : Attempt :=
              ⟨⟨after.bindings, a.trail.current :: a.trail.saved⟩, a.matched, a.answers⟩
            have hask : s.askOn view r.rule call a.save st =
                .ok (held, b) { st with world := after.world } := by
              have hsaved : s.run view r.rule call ⟨a.save.trail.current, a.save.matched⟩ st.world =
                  (held, after) := hresult
              rw [askOn_apply, hsaved]
              rfl
            have hkept : b.trail.current.Solid := by
              have hevolves := call.evolves_holds (fun c hc => hbinds call.name c hc)
                (.ofView view r.rule.label a.matched true)
                { bindings := a.trail.current, world := st.world }
              unfold run at hresult
              rw [hresult] at hevolves
              exact hsolid.evolves hevolves
            change EStateM.bind (s.askOn view r.rule call a.save) _ st =
                EStateM.map a.answered (EStateM.bind (s.ask view r.rule call _) _) st ∨
              E ∧ ∃ st', EStateM.bind (s.askOn view r.rule call a.save) _ st =
                .error watch.endless st'
            unfold EStateM.map EStateM.bind
            rw [ask_apply, if_neg hrefuses, hresult, hask]
            cases held with
            | false => exact .inl rfl
            | true =>
                have hb : b.Open (position + 1) := hopen.next fun _ _ => rfl
                have hbody := (ih.watched hwatch hprove hb hkept).bind_left Attempt.goBack
                  { st with world := after.world } hst
                rw [bind_map_left] at hbody
                refine hbody.imp (fun hsame => hsame.trans ?_) id
                change EStateM.bind _ _ _ = _
                unfold EStateM.bind
                rfl

/-! ## The whole search -/

/-- Some goal that a search may come to has no end of its unification with some head. -/
def Tangles (s : Solver) (goal : Triple) : Prop :=
  ∃ g, s.Poses goal g ∧ ∃ r ∈ s.rules, Unifier.ofGoal? g r.head r.rule.numVars = none

theorem leaves_expand (hgrounds : Grounds prove) (hbinds : s.OnlyBinds) (g : Triple)
    (answers : OrderedSet Triple) (r : GoalRule) :
    Leaves (fun _ => True) (s.expand view prove g answers r) := by
  intro st answers' st' hst h
  refine ⟨trivial, ?_⟩
  obtain ⟨_, rfl, rfl⟩ | ⟨bindings, _, hbody⟩ := expand_eq_ok h
  · exact hst
  · exact (hgrounds.solveBody (lasts_fills hbinds _ bindings) (fun _ hc => hc)
      (Q := fun _ => True) (fun _ _ _ => trivial) .refl ⟨hst, fun _ _ => trivial⟩ hbody).table

theorem upto_expandOn (hwatch : watch.Lenient) (hbinds : s.OnlyBinds) (hprove : Growing prove)
    (hgrounds : Grounds prove) {goal g : Triple}
    (hupto : ∀ g, s.Poses goal g → Upto (s.Tangles goal) watch.endless (prove' g) (prove g))
    (hposed : s.Poses goal g) (hr : r ∈ s.rules) (answers : OrderedSet Triple) :
    Upto (s.Tangles goal) watch.endless (s.expandOn watch view prove' g answers r)
      (s.expand view prove g answers r) := by
  unfold expandOn expand Bindings.unifyHead
  cases hends : Unifier.ofGoal? g r.head r.rule.numVars with
  | none => exact fun st _ => .inr ⟨⟨g, hposed, r, hr, hends⟩, st, rfl⟩
  | some found =>
      have hfound := Unifier.ofGoal_of_ofGoal? hends
      rw [hfound]
      cases found with
      | none => exact .refl _
      | some u =>
          have hopen : Attempt.Open
              ⟨⟨u.headBindings, []⟩, List.replicate r.rule.body.length none, answers⟩ 0 :=
            fun i _ m hm => (List.mem_replicate.1 (List.mem_of_getElem? hm)).2
          have hsolid := Unifier.solid_headBindings (Unifier.solid_of_ofGoal hfound)
          have hinplace : InPlace (s.Tangles goal) watch s view prove' prove r r.rule.body 0 :=
            inPlace_solveBody hwatch hbinds hprove hgrounds hupto hr (fun _ h => h) 0
          have hbody := (hinplace.watched hwatch hprove hopen hsolid).bind_left fun a =>
            (pure a.answers : Search (OrderedSet Triple))
          rw [bind_map_left] at hbody
          change Upto _ _ _ (_ >>= pure) at hbody
          rwa [bind_pure] at hbody

theorem covered_of_ground (watch : Watch) (g : Triple) {facts : List Triple}
    (h : ∀ fact ∈ facts, fact.isGround = true) :
    covered watch g facts = pure (facts.filter g.covers) := by
  refine if_pos (List.all_eq_true.2 fun fact hfact => ?_)
  rw [Triple.covers?, Unifier.ofGoal?_of_ground (h fact hfact)]
  rfl

theorem leaves_prove (hbinds : s.OnlyBinds) (hview : view.FindsGround) (depth : Nat) (g : Triple) :
    Leaves (fun _ => True) (s.prove view depth g) :=
  fun _ _ _ hst h => ⟨trivial, (yields_prove hbinds hview depth hst h).table⟩

theorem grounds_prove (hbinds : s.OnlyBinds) (hview : view.FindsGround) (depth : Nat) :
    Grounds (s.prove view depth) := fun _ _ _ _ hst h =>
  ⟨(yields_prove hbinds hview depth hst h).table,
    fun t ht => ((yields_prove hbinds hview depth hst h).answers t ht).1⟩

theorem upto_proveOn (hwatch : watch.Lenient) (hbinds : s.OnlyBinds) (hview : view.FindsGround)
    {goal : Triple} (depth : Nat) : ∀ g, s.Poses goal g →
    Upto (s.Tangles goal) watch.endless (s.proveOn watch view depth g) (s.prove view depth g) := by
  induction depth with
  | zero => exact fun _ _ => .refl _
  | succ depth ih =>
      intro g hposed
      rw [proveOn, prove]
      cases hfind : view.find (.ofTriple g) with
      | error cause => exact .refl _
      | ok found =>
          simp only [pure_bind]
          rw [covered_of_ground watch g (hview _ _ hfind), pure_bind]
          have hget : Leaves SearchState.HoldsGround (get : Search SearchState) := by
            intro st _ _ hst h
            cases h
            exact ⟨hst, hst⟩
          refine (Upto.refl get).bind hget fun st hst => ?_
          split
          · have hanswers : ∀ fact ∈ st.answers g.shape, fact.isGround = true :=
              fun fact hfact => hst g.shape fact (List.any_eq_true.2 ⟨fact, hfact, BEq.rfl⟩)
            rw [covered_of_ground watch g hanswers, pure_bind]
            exact .refl _
          · have hset : Leaves (fun _ => True)
                (set { st with path := g.shape :: st.path } : Search PUnit) := by
              intro _ _ _ _ h
              cases h
              exact ⟨trivial, hst⟩
            have hgrounds : Grounds (s.prove view depth) := grounds_prove hbinds hview depth
            refine (Upto.refl _).bind hset fun _ _ => ?_
            refine (Upto.foldlM (fun r hr answers => ?_) (fun r _ answers => ?_) _).bind_left _
            · exact upto_expandOn hwatch hbinds (growing_prove s view depth) hgrounds ih hposed hr
                answers
            · exact leaves_expand hgrounds hbinds g answers r

theorem upto_repeatOn (hwatch : watch.Lenient) (hbinds : s.OnlyBinds) (hview : view.FindsGround)
    (goal : Triple) (rounds : Nat) :
    Upto (s.Tangles goal) watch.endless (s.repeatOn watch view goal.numbered rounds)
      (s.repeatUntilStable view goal.numbered rounds) := by
  induction rounds with
  | zero => exact .refl _
  | succ rounds ih =>
      rw [repeatOn, repeatUntilStable]
      have hget : Leaves (fun _ => True) (get : Search SearchState) := by
        intro st _ _ hst h
        cases h
        exact ⟨trivial, hst⟩
      refine (Upto.refl get).bind hget fun before _ => ?_
      have hproved := upto_proveOn hwatch hbinds hview (s.maxDepth + 1) goal.numbered (.inl rfl)
      refine hproved.bind (leaves_prove hbinds hview _ _) fun answers _ => ?_
      refine (Upto.refl get).bind hget fun after _ => ?_
      split
      · exact .refl _
      · exact ih

/-- Where functors have no variables, no search runs into a unification without end. -/
theorem not_tangles_of_shallow {goal : Triple} (hgoal : goal.Shallow)
    (hrules : ∀ r ∈ s.rules, r.head.Shallow ∧ ∀ p, Clause.pattern p ∈ r.rule.body → p.Shallow) :
    ¬ s.Tangles goal := by
  rintro ⟨g, hposed, r, hr, hnone⟩
  have hg : g.Shallow := by
    rcases hposed with rfl | ⟨q, hq, p, hp, b, hb, rfl⟩
    · obtain ⟨names, _, hnumbered⟩ := goal.numbered_eq
      rw [hnumbered]
      exact hgoal.renamed _
    · exact hb.shallow_partialInstantiate ((hrules q hq).2 p hp)
  rw [Unifier.ofGoal?_of_shallow hg (hrules r hr).1] at hnone
  cases hnone

/-! ## Balance -/

/-- A search over graphs in memory may as well work in place: it ends with its answers or
for its depth, it stops nothing if no call does, and however the solutions of bodies are
watched, be it for equality, a watch that objects to nothing left as it was found never
objects.  Otherwise it has run into a goal whose unification with a head does not end. -/
theorem solve_balanced {view : View MemoryGraph} (hview : view.Sound) (hwatch : watch.Lenient)
    (hbinds : s.OnlyBinds) (goal : Triple) (world : World) :
    (s.solveOn watch view goal world = s.solve view goal world ∧
        ((∃ answers, (s.solve view goal world).1 = .ok answers) ∨
          (s.solve view goal world).1 = .error (.maxDepthExceeded s.maxDepth)) ∧
        (s.CallsCalm → (s.solve view goal world).2.isStopped = world.isStopped)) ∨
      s.Tangles goal ∧ (s.solveOn watch view goal world).1 = .error watch.endless := by
  have hfind : ∀ p, ∃ found, view.find p = .ok found := fun p => ⟨_, view.find_eq p⟩
  have hanything : s.KeptByCalls fun _ => True := fun _ _ _ _ _ _ _ _ => trivial
  have hupto := upto_repeatOn hwatch hbinds hview.findsGround goal (s.maxDepth + 1) { world }
    (fun _ _ hknown => nomatch hknown)
  rcases hupto with hsame | ⟨htangles, st', herror⟩
  · refine .inl ⟨?_, (solve_ends hanything hfind goal trivial).1, fun hcalm => ?_⟩
    · unfold solveOn solve
      rewrite [hsame]
      rfl
    · have hkept : s.KeptByCalls fun w => w.isStopped = world.isStopped :=
        fun r hr c hc hrefuses ctx st hst => (hcalm r hr c hc hrefuses ctx st).trans hst
      exact (solve_ends hkept hfind goal rfl).2
  · refine .inr ⟨htangles, ?_⟩
    unfold solveOn
    rw [herror]

/-- A watch over the number of saved environments, the matched facts and the path. -/
def depthWatch : Watch where
  endless := .closed
  accepts a st a' st' :=
    a'.trail.depth == a.trail.depth && a'.matched == a.matched && st'.path == st.path

theorem lenient_depthWatch : depthWatch.Lenient := by
  intro a st a' st' htrail hmatched hpath
  change (_ == _ && _ == _ && _ == _) = true
  rw [htrail, hmatched, hpath, Bool.and_eq_true, Bool.and_eq_true]
  exact ⟨⟨BEq.rfl, BEq.rfl⟩, BEq.rfl⟩

theorem solve_balanced_lineage :
    household.Sound ∧ depthWatch.Lenient ∧ registrar.OnlyBinds ∧ registrar.called.length = 1 ∧
      registrar.solveOn depthWatch household descent {} = registrar.solve household descent {} ∧
      (registrar.solve household descent {}).2.isStopped = false := by
  have hprepared : ofRules strictLineage Registry.standard 3 = .ok registrar :=
    ok_getD_of_isSome (by decide +kernel)
  have hregistry : registrar.registry = Registry.standard := (ofRules_eq_ok hprepared).2.1
  have hview : household.Sound := ⟨family_sound, MemoryGraph.sound_empty⟩
  have hbinds : registrar.OnlyBinds := by
    intro name b hb
    rw [hregistry] at hb
    exact (Registry.binds_standard name b hb).1
  have hcalm : registrar.CallsCalm := by
    intro r hr c hc _
    refine Call.calm_of_builtin fun b hb => ?_
    have hname : registrar.called.all (fun b => b.name != "quotient") = true := by decide +kernel
    have hb' := mem_called hr hc hb
    refine Builtin.calm_of_mem_standard (mem_standard_of_mem_called hregistry hb') fun h => ?_
    have hname := List.all_eq_true.1 hname b hb'
    rw [h] at hname
    cases hname
  have hanswered :
      (registrar.solveOn depthWatch household descent {}).1.toOption.isSome = true := by
    decide +kernel
  refine ⟨hview, lenient_depthWatch, hbinds, by decide +kernel, ?_⟩
  rcases solve_balanced hview lenient_depthWatch hbinds descent {} with
    ⟨hsame, _, hstopped⟩ | ⟨_, herror⟩
  · exact ⟨hsame, hstopped hcalm⟩
  · rw [herror] at hanswered
    cases hanswered

/-- A rule that divides what it finds by minus one, and then fails. -/
def negation : Rule :=
  .make (some "negation")
    [.pattern ⟨.var ⟨"x", 0⟩, .uri "p", .var ⟨"y", 1⟩⟩,
      .call ⟨"quotient", [.var ⟨"y", 1⟩, .integer (-1), .var ⟨"z", 2⟩]⟩,
      .call ⟨"lessThan", [.integer 2, .integer 1]⟩]
    [.pattern ⟨.var ⟨"x", 0⟩, .uri "q", .var ⟨"y", 1⟩⟩] .backward

def divider : Solver := (ofRules [negation] Registry.standard 100).toOption.getD default

/-- A triple with the smallest integer. -/
def extreme : View MemoryGraph :=
  ⟨MemoryGraph.empty.plus ⟨.uri "a", .uri "p", .integer Int64.minValue⟩, .empty⟩

/-- The smallest integer has no quotient by minus one, and asking for it stops the run. -/
theorem not_balanced_divider :
    ofRules [negation] Registry.standard 100 = .ok divider ∧
      (divider.solve extreme ⟨.uri "a", .uri "q", .var ⟨"w", 0⟩⟩ {}).2.isStopped = true :=
  ⟨ok_getD_of_isSome (by decide +kernel), by decide +kernel⟩

end Solver

end Entailment
