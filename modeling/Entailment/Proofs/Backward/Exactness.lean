import Entailment.Proofs.Backward.Answers
import Entailment.Proofs.Forward.Foundation
import Entailment.Proofs.Rule.Renaming

/-!
# Backward answers are exact

A solver for rules without functors and calls answers a goal with exactly its instances
in the least set that holds the stored triples and is closed under the rules, each once.
Cutting a goal that comes again on its own path and stopping when the table stays as it
is lose nothing, however the rules recur.
-/

namespace Entailment

/-- The graph holds exactly these triples, as far as it answers. -/
structure Graph.Holds {γ : Type} [Graph γ] (g : γ) (B : Set Triple) : Prop where
  congr : ∀ t u, (t == u) = true → t ∈ B → u ∈ B
  find : ∀ p found, Graph.find g p = .ok found →
    ∀ t, found.any (· == t) = true ↔ t ∈ B ∧ p.accepts t = true

theorem MemoryGraph.Sound.holds {g : MemoryGraph} (hg : g.Sound) :
    Graph.Holds g {t | g.contains t = true} where
  congr t u hsame ht := (g.contains_congr hsame).symm.trans ht
  find p found hfind t := by
    cases hfind
    rw [show (g.find p).any (· == t) = _ from hg.index.agreeing.any_find p t, Bool.and_eq_true]
    rfl

variable {γ : Type} [Graph γ]

namespace View

/-- The triples of the base and the deductions. -/
def stored (view : View γ) (B : Set Triple) : Set Triple :=
  {t | t ∈ B ∨ view.deductions.contains t = true}

theorem shows_stored {view : View γ} {B : Set Triple} (hbase : Graph.Holds view.base B)
    (hdeductions : view.deductions.Sound) : view.Shows (view.stored B) := by
  intro p found hfind t
  unfold find at hfind
  cases hbound : Graph.find view.base p with
  | error cause =>
      rw [hbound] at hfind
      cases hfind
  | ok ts =>
      rw [hbound] at hfind
      cases hfind
      have hany := OrderedSet.contains_ofList (ts ++ view.deductions.find p) t
      rw [OrderedSet.contains] at hany
      rw [hany, List.any_append, Bool.or_eq_true, hbase.find p ts hbound t,
        (hdeductions.holds.find p _ rfl t : _ ↔ _)]
      exact (or_and_right).symm

end View

/-! ## Instances of goals -/

/-- The triple comes from the goal by giving variables ground nodes, and a wildcard any node. -/
def Triple.HasInstance (goal t : Triple) : Prop :=
  ∃ ρ : Var → Node, (∀ v, (ρ v).isGround = true) ∧
    (goal.map (Node.subst ρ)).Fits (fun _ => .any) t

/-- The triple is an instance in which variables of one name have one value. -/
def Triple.HasNamedInstance (goal t : Triple) : Prop :=
  ∃ value : String → Node, (∀ name, (value name).isGround = true) ∧
    (goal.map (Node.subst fun v => value v.name)).Fits (fun _ => .any) t

theorem Triple.HasNamedInstance.hasInstance {goal t : Triple} (h : goal.HasNamedInstance t) :
    goal.HasInstance t := by
  obtain ⟨value, hground, hfits⟩ := h
  exact ⟨_, fun v => hground v.name, hfits⟩

namespace Node

variable {σ : Assignment} {ρ : Var → Node} {f : Var → Var} {n m : Node}

mutual
theorem fits_subst_ground_iff {n m : Node} (hρ : ∀ v, (ρ v).isGround = true)
    (h : ∀ v ∈ n.vars, (σ (f v).index == ρ v) = true) :
    (n.subst fun v => .var (f v)).Fits σ m ↔ (n.subst ρ).Fits (fun _ => .any) m := by
  match n, m with
  | .var v, m =>
      change (σ (f v).index == m) = true ↔ (ρ v).Fits _ m
      rw [fits_iff_beq (hρ v), BEq.congr_left (h v (List.mem_singleton.2 rfl))]
  | .functor g ns, .functor k ms => exact and_congr_right fun _ => allFit_subst_ground_iff hρ h
  | .functor g ns, .uri _ | .functor g ns, .literal _ | .functor g ns, .blank _
  | .functor g ns, .var _ | .functor g ns, .any => exact Iff.rfl
  | .uri _, _ | .literal _, _ | .blank _, _ | .any, _ => exact Iff.rfl

theorem allFit_subst_ground_iff {ns ms : List Node} (hρ : ∀ v, (ρ v).isGround = true)
    (h : ∀ v ∈ varsAll ns, (σ (f v).index == ρ v) = true) :
    AllFit σ (substAll (fun v => .var (f v)) ns) ms ↔
      AllFit (fun _ => .any) (substAll ρ ns) ms := by
  match ns, ms with
  | [], [] | [], _ :: _ | _ :: _, [] => exact Iff.rfl
  | n :: ns, m :: ms =>
      rw [varsAll] at h
      exact and_congr (fits_subst_ground_iff hρ fun v hv => h v (List.mem_append_left _ hv))
        (allFit_subst_ground_iff hρ fun v hv => h v (List.mem_append_right _ hv))
end

theorem Shallow.renamed (h : n.Shallow) (f : Var → Var) :
    (n.subst fun v => .var (f v)).Shallow := by
  rcases h.cases with rfl | ⟨v, rfl⟩ | hsimple
  · trivial
  · trivial
  · rwa [subst_of_ground hsimple.ground]

/-- The node if it is ground, and otherwise some node that is. -/
def grounded (n : Node) : Node := if n.isGround then n else .uri ""

theorem isGround_grounded (n : Node) : n.grounded.isGround = true := by
  unfold grounded
  split
  · assumption
  · rfl

theorem grounded_of_isGround (h : n.isGround = true) : n.grounded = n := if_pos h

end Node

namespace Triple

variable {goal t : Triple}

/-- Numbering renames the variables of a goal by the places of their names. -/
theorem numbered_eq (goal : Triple) : ∃ names : Numbering,
    (∀ v ∈ goal.vars, v.name ∈ names) ∧ goal.numbered = goal.renamed (Numbering.place names) := by
  have hplaces := placesBy_triple Var.name Var.name [] goal
  exact ⟨_, fun v hv => hplaces.key_mem hv, hplaces.result_eq _ List.prefix_rfl⟩

theorem Shallow.renamed (h : goal.Shallow) (f : Var → Var) : (goal.renamed f).Shallow := by
  obtain ⟨hs, hp, ho⟩ := shallow_iff.1 h
  exact shallow_iff.2 ⟨hs.renamed f, hp.renamed f, ho.renamed f⟩

theorem fits_renamed_ground_iff {f : Var → Var} {σ : Assignment} {ρ : Var → Node}
    (hρ : ∀ v, (ρ v).isGround = true) (h : ∀ v ∈ goal.vars, (σ (f v).index == ρ v) = true) :
    (goal.renamed f).Fits σ t ↔ (goal.map (Node.subst ρ)).Fits (fun _ => .any) t := by
  simp only [vars, List.mem_append] at h
  have hsubject :=
    Node.fits_subst_ground_iff (m := t.subject) hρ fun v hv => h v (Or.inl (Or.inl hv))
  have hpredicate :=
    Node.fits_subst_ground_iff (m := t.predicate) hρ fun v hv => h v (Or.inl (Or.inr hv))
  have hobject := Node.fits_subst_ground_iff (m := t.object) hρ fun v hv => h v (Or.inr hv)
  exact ⟨fun h => ⟨hsubject.1 h.subject, hpredicate.1 h.predicate, hobject.1 h.object⟩,
    fun h => ⟨hsubject.2 h.subject, hpredicate.2 h.predicate, hobject.2 h.object⟩⟩

theorem namedInstance_of_fits_numbered (ht : t.isGround = true) {σ : Assignment}
    (h : goal.numbered.Fits σ t) : goal.HasNamedInstance t := by
  obtain ⟨names, _, hnumbered⟩ := goal.numbered_eq
  rw [hnumbered] at h
  refine ⟨fun name => (σ (names.idxOf name)).grounded, fun _ => Node.isGround_grounded _,
    (fits_renamed_ground_iff (fun _ => Node.isGround_grounded _) fun v hv => ?_).1 h⟩
  -- The variables of the goal have parts of the triple as their values.
  have hvalue : (σ (Numbering.place names v).index).isGround = true := by
    refine vocabulary_ground.of_triple_fits h (isGround_iff_nodes.1 ht) _ ?_
    rw [indexes, vars_renamed, List.map_map]
    exact List.mem_map.2 ⟨v, hv, rfl⟩
  change (_ == (σ (Numbering.place names v).index).grounded) = true
  rw [Node.grounded_of_isGround hvalue]
  exact BEq.rfl

/-- The instances of a goal fit the goal with its variables numbered. -/
theorem exists_fits_numbered_iff
    (hnames : ∀ v ∈ goal.vars, ∀ w ∈ goal.vars, v.name = w.name → v = w)
    (ht : t.isGround = true) : (∃ σ, goal.numbered.Fits σ t) ↔ goal.HasInstance t := by
  refine ⟨fun ⟨_, hσ⟩ => (namedInstance_of_fits_numbered ht hσ).hasInstance, ?_⟩
  obtain ⟨names, hcovers, hnumbered⟩ := goal.numbered_eq
  rw [hnumbered]
  rintro ⟨ρ, hρ, hfits⟩
  refine ⟨fun i => ((goal.vars.find? fun v => (Numbering.place names v).index == i).map ρ).getD .any,
    (fits_renamed_ground_iff hρ fun v hv => ?_).2 hfits⟩
  cases hfind : goal.vars.find? fun w =>
      (Numbering.place names w).index == (Numbering.place names v).index with
  | none => exact absurd (List.find?_eq_none.1 hfind v hv) (by simp)
  | some w =>
      have hplace := List.find?_some hfind
      have hw := List.mem_of_find?_eq_some hfind
      have hname := Numbering.place_index_inj (hcovers w hw) (beq_iff_eq.1 hplace)
      rw [hnames w hw v hv hname]
      exact BEq.rfl

end Triple

/-! ## Exact answers -/

/-- No position holds a functor. -/
def Triple.Flat (t : Triple) : Prop := ∀ n ∈ t.nodes, n.isFunctor = false

theorem Triple.Flat.congr {t u : Triple} (h : t.Flat) (hsame : (t == u) = true) : u.Flat := by
  obtain ⟨hs, hp, ho⟩ := Triple.beq_iff.1 hsame
  simp only [Flat, nodes, List.forall_mem_cons] at h ⊢
  rw [← Node.isFunctor_congr hs, ← Node.isFunctor_congr hp, ← Node.isFunctor_congr ho]
  exact h

theorem Triple.Flat.shallow {t : Triple} (h : t.Flat) : t.Shallow :=
  fun n hn => Node.shallow_of_flat (h n hn)

/-- A backward rule without functors and calls, whose head is about what the patterns of
its body have. -/
structure Rule.Definite (r : Rule) : Prop where
  made : ∃ name body head, r = .make name body head .backward
  body : ∀ c ∈ r.body, ∃ p, c = .pattern p ∧ p.Flat
  headFlat : ∀ h, Clause.pattern h ∈ r.head → h.Flat
  headClosed : ∀ h, Clause.pattern h ∈ r.head → ∀ n ∈ h.nodes, n.isAny = false
  headBound : ∀ h, Clause.pattern h ∈ r.head → ∀ i ∈ h.indexes, i ∈ r.boundIndexes

/-- What can be tested of this. -/
def Rule.isDefinite (r : Rule) : Bool :=
  (r.body.all fun c =>
    match c with
    | .pattern p => p.nodes.all fun n => !n.isFunctor
    | .call _ => false) &&
  r.head.all fun c =>
    match c with
    | .pattern h => h.nodes.all (fun n => !n.isFunctor && !n.isAny) &&
        h.indexes.all fun i => decide (i ∈ r.boundIndexes)
    | .call _ => true

theorem Rule.definite_of_isDefinite {name : Option String} {body head : List Clause}
    (h : (make name body head .backward).isDefinite = true) :
    (make name body head .backward).Definite := by
  rw [isDefinite, Bool.and_eq_true, List.all_eq_true, List.all_eq_true] at h
  have hhead : ∀ t, Clause.pattern t ∈ (make name body head .backward).head →
      (∀ n ∈ t.nodes, n.isFunctor = false ∧ n.isAny = false) ∧
        ∀ i ∈ t.indexes, i ∈ (make name body head .backward).boundIndexes := by
    intro t ht
    have hone := h.2 _ ht
    simpa [List.all_eq_true] using hone
  refine ⟨⟨_, _, _, rfl⟩, fun c hc => ?_, fun t ht n hn => ((hhead t ht).1 n hn).1,
    fun t ht n hn => ((hhead t ht).1 n hn).2, fun t ht => (hhead t ht).2⟩
  have hone := h.1 c hc
  cases c with
  | pattern p => exact ⟨p, rfl, fun n hn => by simpa using List.all_eq_true.1 hone n hn⟩
  | call c => cases hone

theorem Rule.lt_numVars_of_mem_boundIndexes {r : Rule}
    (hmade : ∃ name body head direction, r = make name body head direction) {i : Nat}
    (hi : i ∈ r.boundIndexes) : i < r.numVars := by
  obtain ⟨name, body, head, direction, rfl⟩ := hmade
  obtain ⟨p, hp, hip⟩ := mem_boundIndexes_iff.1 hi
  exact lt_numVars_of_make (List.mem_flatMap.2 ⟨.pattern p, List.mem_append_left _ hp, hip⟩)

theorem GoalRule.ofRule_eq_ok {registry : Registry} {rule : Rule} {r : GoalRule}
    (h : GoalRule.ofRule registry rule = .ok r) :
    r.rule = rule ∧ rule.head = [.pattern r.head] := by
  unfold GoalRule.ofRule at h
  cases hbackward : rule.isBackward with
  | false =>
      simp only [hbackward] at h
      cases h
  | true =>
      cases hvalid : rule.validate registry with
      | error cause =>
          simp only [hbackward, hvalid] at h
          cases h
      | ok _ =>
          simp only [hbackward, hvalid, Bool.not_true, Bool.false_eq_true, if_false] at h
          dsimp only [bind, Except.bind] at h
          split at h
          · rename_i head hhead
            cases h
            exact ⟨rfl, hhead⟩
          · cases h

namespace Solver

/-- What preparing rules comes to. -/
theorem ofRules_eq_ok {rules : List Rule} {registry : Registry} {maxDepth : Nat} {s : Solver}
    (h : ofRules rules registry maxDepth = .ok s) :
    s.rules.map GoalRule.rule = rules ∧ s.registry = registry ∧
      ∀ r ∈ s.rules, r.rule.head = [.pattern r.head] := by
  have hmapM : ∀ (rules : List Rule) prepared,
      rules.mapM (GoalRule.ofRule registry) = .ok prepared →
        prepared.map GoalRule.rule = rules ∧ ∀ r ∈ prepared, r.rule.head = [.pattern r.head] := by
    intro rules
    induction rules with
    | nil =>
        intro prepared h
        cases h
        exact ⟨rfl, fun _ h => nomatch h⟩
    | cons rule rules ih =>
        intro prepared h
        rw [List.mapM_cons] at h
        cases hone : GoalRule.ofRule registry rule with
        | error cause =>
            rw [hone] at h
            cases h
        | ok r =>
            rw [hone] at h
            cases hrest : rules.mapM (GoalRule.ofRule registry) with
            | error cause =>
                rw [hrest] at h
                cases h
            | ok rest =>
                rw [hrest] at h
                cases h
                obtain ⟨hmap, hheads⟩ := ih rest hrest
                obtain ⟨rfl, hhead⟩ := GoalRule.ofRule_eq_ok hone
                refine ⟨by rw [List.map_cons, hmap], fun q hq => ?_⟩
                rcases List.mem_cons.1 hq with rfl | hq
                · exact hhead
                · exact hheads q hq
  unfold ofRules at h
  cases hprepared : rules.mapM (GoalRule.ofRule registry) with
  | error cause =>
      rw [hprepared] at h
      cases h
  | ok prepared =>
      rw [hprepared] at h
      cases h
      obtain ⟨hmap, hheads⟩ := hmapM rules prepared hprepared
      exact ⟨hmap, rfl, hheads⟩

/-- The answers to a goal that is solved are what follows and fits it, each once. -/
theorem Suits.answers_of_solve {s : Solver} {view : View γ} {stored : Set Triple}
    (hs : s.Suits view stored) {goal : Triple} (hgoal : goal.Shallow) {world : World}
    {answers : List Triple} (h : (s.solve view goal world).1 = .ok answers) :
    Distinct answers ∧ ∀ t, answers.any (· == t) = true ↔
      t ∈ s.follows stored ∧ ∃ σ, goal.numbered.Fits σ t := by
  have hnumbered : goal.numbered.Shallow := by
    obtain ⟨names, _, heq⟩ := goal.numbered_eq
    rw [heq]
    exact hgoal.renamed _
  unfold solve at h
  split at h
  · rename_i found st hsolve
    cases h
    exact ⟨found.distinct, hs.contains_answers hnumbered hsolve⟩
  · cases h

/-- A solver for definite rules can answer from any atomic triples. -/
theorem suits_of_definite {rules : List Rule} {registry : Registry} {maxDepth : Nat} {s : Solver}
    (hs : ofRules rules registry maxDepth = .ok s) (hrules : ∀ r ∈ rules, r.Definite)
    {view : View γ} {B : Set Triple} (hbase : Graph.Holds view.base B)
    (hdeductions : view.deductions.Sound)
    (hatomic : ∀ t ∈ view.stored B, t.isGround = true ∧ t.Flat) : s.Suits view (view.stored B) := by
  obtain ⟨rfl, rfl, hheads⟩ := ofRules_eq_ok hs
  have hplain : ∀ r ∈ s.rules, r.Plain s.registry := by
    intro r hr
    have hdefinite := hrules r.rule (List.mem_map_of_mem hr)
    have hhead : Clause.pattern r.head ∈ r.rule.head := by
      rw [hheads r hr]
      exact List.mem_singleton.2 rfl
    obtain ⟨name, body, head, hmade⟩ := hdefinite.made
    refine ⟨hheads r hr, fun i hi => Rule.lt_numVars_of_mem_boundIndexes ⟨_, _, _, _, hmade⟩ hi,
      (hdefinite.headFlat _ hhead).shallow, hdefinite.headClosed _ hhead, hdefinite.headBound _ hhead,
      fun p hp => ?_, fun before c after hsplit => ?_⟩
    · obtain ⟨q, hq, hflat⟩ := hdefinite.body _ hp
      cases hq
      exact hflat.shallow
    · obtain ⟨q, hq, _⟩ := hdefinite.body (.call c) (by rw [hsplit]; simp)
      cases hq
  refine ⟨View.shows_stored hbase hdeductions, ?_,
    fun t ht => Triple.madeOf_simple_iff.2 ((hatomic t ht).imp_right Triple.Flat.shallow), hplain⟩
  rintro t u hsame (ht | ht)
  · exact Or.inl (hbase.congr t u hsame ht)
  · exact Or.inr ((view.deductions.contains_congr hsame).symm.trans ht)

/-- The answers to a goal are its ground instances in the least set that holds what is
stored and is closed under the rules. -/
theorem solve_exact {rules : List Rule} {registry : Registry} {maxDepth : Nat} {s : Solver}
    (hs : ofRules rules registry maxDepth = .ok s) (hrules : ∀ r ∈ rules, r.Definite)
    {view : View γ} {B : Set Triple} (hbase : Graph.Holds view.base B)
    (hdeductions : view.deductions.Sound)
    (hatomic : ∀ t ∈ view.stored B, t.isGround = true ∧ t.Flat) {goal : Triple}
    (hgoal : goal.Flat) (hnames : ∀ v ∈ goal.vars, ∀ w ∈ goal.vars, v.name = w.name → v = w)
    {world : World} {answers : List Triple} (h : (s.solve view goal world).1 = .ok answers) :
    Distinct answers ∧
      ∃ S, IsLeast {S | Model rules registry (view.stored B) S} S ∧
        ∀ t, answers.any (· == t) = true ↔ t.isGround = true ∧ goal.HasInstance t ∧ t ∈ S := by
  have hsuits := suits_of_definite hs hrules hbase hdeductions hatomic
  obtain ⟨rfl, rfl, _⟩ := ofRules_eq_ok hs
  obtain ⟨hdistinct, hanswers⟩ := hsuits.answers_of_solve hgoal.shallow h
  refine ⟨hdistinct, _, isLeast_consequences, fun t => (hanswers t).trans ?_⟩
  constructor
  · rintro ⟨hfollows, hfits⟩
    have hground := (Triple.madeOf_simple_iff.1 (hsuits.simple_of_follows t hfollows)).1
    exact ⟨hground, (Triple.exists_fits_numbered_iff hnames hground).1 hfits, hfollows⟩
  · rintro ⟨hground, hinstance, hfollows⟩
    exact ⟨hfollows, (Triple.exists_fits_numbered_iff hnames hground).2 hinstance⟩

/-! ## A goal that comes again -/

/-- A left-recursive rule and the rule that it starts from. -/
def lineage : List Rule :=
  [.make (some "chain")
      [.pattern ⟨.var ⟨"x", 0⟩, .uri "ancestor", .var ⟨"y", 1⟩⟩,
        .pattern ⟨.var ⟨"y", 1⟩, .uri "parent", .var ⟨"z", 2⟩⟩]
      [.pattern ⟨.var ⟨"x", 0⟩, .uri "ancestor", .var ⟨"z", 2⟩⟩] .backward,
    .make (some "start") [.pattern ⟨.var ⟨"x", 0⟩, .uri "parent", .var ⟨"y", 1⟩⟩]
      [.pattern ⟨.var ⟨"x", 0⟩, .uri "ancestor", .var ⟨"y", 1⟩⟩] .backward]

def genealogist : Solver := (ofRules lineage Registry.standard 6).toOption.getD default

/-- The parents of three generations. -/
def family : MemoryGraph :=
  (MemoryGraph.empty.plus ⟨.uri "a", .uri "parent", .uri "b"⟩).plus
    ⟨.uri "b", .uri "parent", .uri "c"⟩

def household : View MemoryGraph := ⟨family, .empty⟩

/-- Whose ancestor someone is. -/
def descent : Triple := ⟨.uri "a", .uri "ancestor", .var ⟨"w", 0⟩⟩

def descendants : List Triple :=
  (genealogist.solve household descent {}).1.toOption.getD []

theorem family_sound : family.Sound :=
  (MemoryGraph.sound_empty.plus rfl).plus rfl

theorem contains_family (t : Triple) : family.contains t = true ↔
    (⟨.uri "a", .uri "parent", .uri "b"⟩ == t) = true ∨
      (⟨.uri "b", .uri "parent", .uri "c"⟩ == t) = true := by
  rw [family, (MemoryGraph.sound_empty.plus rfl).contains_plus rfl,
    MemoryGraph.sound_empty.contains_plus rfl, Bool.or_eq_true, Bool.or_eq_true]
  exact or_congr (or_iff_right Bool.false_ne_true) Iff.rfl

theorem definite_lineage : ∀ r ∈ lineage, r.Definite := by
  intro r hr
  rcases List.mem_cons.1 hr with rfl | hr
  · exact Rule.definite_of_isDefinite (by decide +kernel)
  · rw [List.mem_singleton.1 hr]
    exact Rule.definite_of_isDefinite (by decide +kernel)

theorem atomic_household : ∀ t ∈ household.stored {t | family.contains t = true},
    t.isGround = true ∧ t.Flat := by
  have hatomic : ∀ u : Triple, (u.isGround = true ∧ u.Flat) → ∀ t : Triple, (u == t) = true →
      t.isGround = true ∧ t.Flat :=
    fun u hu t hsame => ⟨(Triple.isGround_congr hsame).symm.trans hu.1, hu.2.congr hsame⟩
  rintro t (ht | ht)
  · rcases (contains_family t).1 ht with hsame | hsame
    · exact hatomic _ ⟨rfl, by unfold Triple.Flat; decide⟩ t hsame
    · exact hatomic _ ⟨rfl, by unfold Triple.Flat; decide⟩ t hsame
  · cases ht

theorem solve_exact_lineage : descendants.length = 2 ∧ Distinct descendants ∧
    ∃ S, IsLeast {S | Model lineage Registry.standard
        (household.stored {t | family.contains t = true}) S} S ∧
      ∀ t, descendants.any (· == t) = true ↔
        t.isGround = true ∧ descent.HasInstance t ∧ t ∈ S := by
  have hprepared : ofRules lineage Registry.standard 6 = .ok genealogist :=
    ok_getD_of_isSome (by decide +kernel)
  have hanswered : (genealogist.solve household descent {}).1 = .ok descendants :=
    ok_getD_of_isSome (by decide +kernel)
  refine ⟨by decide +kernel, solve_exact hprepared definite_lineage family_sound.holds
    MemoryGraph.sound_empty atomic_household ?_ ?_ hanswered⟩
  · simp [Triple.Flat, Triple.nodes, descent, Node.isFunctor]
  intro v hv w hw _
  rw [List.mem_singleton.1 hv, List.mem_singleton.1 hw]

end Solver

end Entailment
