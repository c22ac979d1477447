import Entailment.Proofs.Forward.Ability
import Mathlib.Algebra.Order.BigOperators.Group.List
import Mathlib.Algebra.Order.Group.Nat
import Mathlib.Data.Set.Finite.Lattice
import Mathlib.Data.Set.Finite.List
import Mathlib.Order.Interval.Finset.Nat

/-!
# Runs end

Where rules are modest, no node is made up, so that there are finitely many triples that
can ever be matched and finitely many tokens.  Between two rounds of asking again, an
engine first works off the deletions, then draws what it can, which stores tokens, and
then only takes back; each of these comes to an end, and so do the rounds.  None of this
needs the tokens to agree with the base, which others may have changed.
-/

namespace Entailment

/-! ## Finitely many tokens -/

/-- Up to equality there are finitely many nodes of the kind. -/
def Scarce (P : Node → Prop) : Prop := Set.Finite (Node.folded '' {m | P m})

theorem Scarce.triples {P : Node → Prop} (hP : Scarce P) :
    Set.Finite (Triple.folded '' {t | t.MadeOf P}) := by
  have hproduct := (hP.prod (hP.prod hP)).image fun x => (⟨x.1, x.2.1, x.2.2⟩ : Triple)
  refine hproduct.subset ?_
  rintro _ ⟨t, ht, rfl⟩
  refine ⟨(t.subject.folded, t.predicate.folded, t.object.folded), ⟨?_, ?_, ?_⟩, rfl⟩
  · exact ⟨_, ht _ (by simp [Triple.nodes]), rfl⟩
  · exact ⟨_, ht _ (by simp [Triple.nodes]), rfl⟩
  · exact ⟨_, ht _ (by simp [Triple.nodes]), rfl⟩

theorem finite_lists {α : Type} {s : Set α} (hs : s.Finite) (n : Nat) :
    Set.Finite {l : List α | l.length ≤ n ∧ ∀ a ∈ l, a ∈ s} := by
  have : Finite s := hs
  refine ((List.finite_length_le s n).image (List.map Subtype.val)).subset ?_
  rintro l ⟨hlength, hmem⟩
  refine ⟨l.attach.map fun a => ⟨a.1, hmem a.1 a.2⟩, by simpa using hlength, ?_⟩
  rw [List.map_map]
  exact List.attach_map_subtype_val l

namespace Engine

variable {e e' : Engine MemoryGraph} {P : Node → Prop}

/-- All tokens from the first number on are stored. -/
def Filled (first : TokenId) (e : Engine MemoryGraph) : Prop :=
  ∀ id, first ≤ id → id < e.nextToken → ∃ r token, (e.memory r).node? id = some token

/-- What is spelled at a token is made of the vocabulary. -/
theorem madeOf_of_spells {m : TokenMemory} (hm : ∀ id token, m.node? id = some token →
    token.triple.MadeOf P) {place : Option TokenId} {ts : List Triple}
    (h : m.Spells place ts) : ∀ t ∈ ts, t.MadeOf P := by
  induction h with
  | root => exact fun t ht => nomatch ht
  | child hnode _ ih =>
      intro t ht
      rcases List.mem_append.1 ht with ht | ht
      · exact ih t ht
      · rw [List.mem_singleton.1 ht]
        exact hm _ _ hnode

/-- So many tokens can be stored and no more. -/
theorem exists_token_bound (n : Network) (hP : Scarce P) :
    ∃ bound, ∀ e : Engine MemoryGraph, e.network = n → e.Stocked →
      (∀ r id token, (e.memory r).node? id = some token → token.triple.MadeOf P) →
      ∀ first, e.Filled first → e.nextToken ≤ first + bound := by
  let longest := (n.rules.map CompiledRule.levels).sum
  have hfinite : Set.Finite {x : Nat × List Triple | x.1 < n.rules.length ∧
      (x.2.length ≤ longest ∧ ∀ t ∈ x.2, t ∈ Triple.folded '' {t | t.MadeOf P})} :=
    ((Finset.range n.rules.length).finite_toSet.prod (finite_lists hP.triples longest)).subset
      fun x hx => ⟨by simpa using hx.1, hx.2⟩
  refine ⟨hfinite.toFinset.card, fun e hnetwork hstocked hheld first hfilled => ?_⟩
  -- A token is known by its rule and by what it spells, up to equality.
  have hspelled : ∀ id, ∃ x : Nat × List Triple, first ≤ id ∧ id < e.nextToken →
      ∃ ts, (e.memory x.1).Spells (some id) ts ∧ x.2 = ts.map Triple.folded := by
    intro id
    by_cases hid : first ≤ id ∧ id < e.nextToken
    · obtain ⟨r, token, hnode⟩ := hfilled id hid.1 hid.2
      obtain ⟨ts, hts⟩ := (hstocked.2 r).rooted.exists_spells hnode
      exact ⟨(r, ts.map Triple.folded), fun _ => ⟨ts, hts, rfl⟩⟩
    · exact ⟨(0, []), fun h => absurd h hid⟩
  choose name hname using hspelled
  have hcard : (Finset.Ico first e.nextToken).card ≤ hfinite.toFinset.card := by
    refine Finset.card_le_card_of_injOn name ?_ ?_
    · intro id hid
      obtain ⟨ts, hts, heq⟩ := hname id (Finset.mem_Ico.1 hid)
      obtain ⟨token, below, hnode, _, _⟩ := hts.exists_token
      obtain ⟨c, hc⟩ : ∃ c, n.rule? (name id).1 = some c := by
        cases hc : n.rule? (name id).1 with
        | some c => exact ⟨c, rfl⟩
        | none =>
            rw [← hnetwork] at hc
            rw [((hstocked.2 _).vacant hc id).1] at hnode
            cases hnode
      have hlevels : c.levels ≤ longest :=
        List.le_sum_of_mem (List.mem_map_of_mem (List.mem_of_getElem? hc))
      have hmatches := ((hstocked.2 _).token c (hnetwork ▸ hc) id token ts hnode hts).1
      refine hfinite.mem_toFinset.2 ⟨(List.getElem?_eq_some_iff.1 hc).1, ?_, ?_⟩
      · rw [heq, List.length_map]
        exact hmatches.length_le.trans hlevels
      · intro t ht
        rw [heq] at ht
        obtain ⟨u, hu, rfl⟩ := List.mem_map.1 ht
        exact ⟨u, madeOf_of_spells (hheld _) hts u hu, rfl⟩
    · intro id hid id' hid' hsame
      obtain ⟨ts, hts, heq⟩ := hname id (Finset.mem_Ico.1 hid)
      obtain ⟨us, hus, heq'⟩ := hname id' (Finset.mem_Ico.1 hid')
      rw [hsame] at hts heq
      exact Option.some.inj (hts.place_unique (hstocked.2 _).indexed hus (heq.symm.trans heq'))
  rw [Nat.card_Ico] at hcard
  exact Nat.sub_le_iff_le_add'.1 hcard

end Engine

/-! ## The nodes of an engine -/

/-- A node, and the arguments if it is a functor. -/
def Node.parts : Node → List Node
  | .functor f as => .functor f as :: as
  | n => [n]

theorem Node.mem_parts_self (n : Node) : n ∈ n.parts := by
  cases n <;> exact List.mem_cons_self

/-- The arguments of a part are parts, if the node is not nested. -/
theorem Node.mem_parts_of_mem_args {n : Node} (hflat : n.isNested = false) {f : String}
    {as : List Node} (h : Node.functor f as ∈ n.parts) {a : Node} (ha : a ∈ as) :
    a ∈ n.parts := by
  cases n with
  | functor g bs =>
      rcases List.mem_cons.1 h with heq | hmem
      · cases heq
        exact List.mem_cons_of_mem _ ha
      · exact absurd rfl (List.any_eq_false.1 (show bs.any isFunctor = false from hflat) _ hmem)
  | _ => cases List.mem_singleton.1 h

theorem Triple.exists_mem_nodes_beq {t u : Triple} (h : (u == t) = true) {n : Node}
    (hn : n ∈ t.nodes) : ∃ m ∈ u.nodes, (m == n) = true := by
  obtain ⟨hs, hp, ho⟩ := Triple.beq_iff.1 h
  simp only [Triple.nodes, List.mem_cons, List.not_mem_nil, or_false] at hn
  rcases hn with rfl | rfl | rfl
  · exact ⟨u.subject, by simp [Triple.nodes], hs⟩
  · exact ⟨u.predicate, by simp [Triple.nodes], hp⟩
  · exact ⟨u.object, by simp [Triple.nodes], ho⟩

namespace Engine

variable {e e' : Engine MemoryGraph} {n : Network} {most rechecks : Nat} {P : Node → Prop}

/-- The triples in view and those of the tokens. -/
def triples (e : Engine MemoryGraph) : List Triple :=
  e.view.visible .any ++
    e.memories.flatMap fun m => m.tokens.entries.map fun x => x.2.triple

theorem mem_triples_of_token {r : Nat} {id : TokenId} {token : Token}
    (hid : (e.memory r).node? id = some token) : token.triple ∈ e.triples := by
  obtain ⟨stored, hstored, hbare⟩ := Option.map_eq_some_iff.1 hid
  have hmemory : e.memory r ∈ e.memories := by
    cases hm : e.memories[r]? with
    | some m =>
        rw [memory, hm]
        exact List.mem_of_getElem? hm
    | none =>
        rw [memory, hm] at hstored
        cases hstored
  refine List.mem_append_right _ (List.mem_flatMap.2 ⟨_, hmemory, List.mem_map.2 ⟨(id, stored), ?_, ?_⟩⟩)
  · exact OrderedMap.mem_entries_iff.2 hstored
  · rw [← hbare]
    rfl

/-- The nodes of these triples and of the heads of all rules. -/
def nodes (e : Engine MemoryGraph) : List Node :=
  e.triples.flatMap Triple.nodes ++
    e.network.rules.flatMap fun c =>
      (c.rule.head.filterMap Clause.pattern?).flatMap Triple.nodes

/-- The node equals a part of one of those nodes. -/
def Known (e : Engine MemoryGraph) (m : Node) : Prop :=
  m.isNested = false ∧ ∃ n ∈ e.nodes, ∃ k ∈ n.parts, (k == m) = true

theorem scarce_known (e : Engine MemoryGraph) : Scarce e.Known := by
  refine ((e.nodes.flatMap Node.parts).map Node.folded).finite_toSet.subset ?_
  rintro _ ⟨m, ⟨_, n, hn, k, hk, hsame⟩, rfl⟩
  exact List.mem_map.2 ⟨k, List.mem_flatMap.2 ⟨n, hn, hk⟩, Node.beq_iff_folded.1 hsame⟩

/-- A node of a head is one of the nodes. -/
theorem mem_nodes_of_head {r : Nat} {c : CompiledRule} (hc : e.network.rule? r = some c)
    {h : Triple} (hh : Clause.pattern h ∈ c.rule.head) {n : Node} (hn : n ∈ h.nodes) :
    n ∈ e.nodes := by
  refine List.mem_append_right _ (List.mem_flatMap.2 ⟨c, List.mem_of_getElem? hc, ?_⟩)
  exact List.mem_flatMap.2 ⟨h, Rule.mem_filterMap_pattern?_iff.2 hh, hn⟩

namespace Able

theorem flat_of_mem_triples (h : Able (fun m => m.isNested = false) n most e) {t : Triple}
    (ht : t ∈ e.triples) : t.MadeOf fun m => m.isNested = false := by
  rcases List.mem_append.1 ht with ht | ht
  · exact h.seen t (h.sturdy.orderly.sound.mem_visible ht).1
  · obtain ⟨m, hm, ht⟩ := List.mem_flatMap.1 ht
    obtain ⟨⟨id, stored⟩, hstored, rfl⟩ := List.mem_map.1 ht
    obtain ⟨r, hr, hget⟩ := List.getElem_of_mem hm
    refine h.held r id stored.bare ?_
    rw [memory, List.getElem?_eq_getElem hr, hget, Option.getD_some, TokenMemory.node?,
      TokenMemory.token?, OrderedMap.mem_entries_iff.1 hstored]
    rfl

theorem flat_of_mem_nodes (h : Able (fun m => m.isNested = false) n most e) (hn : n.Modest)
    {m : Node} (hm : m ∈ e.nodes) : m.isNested = false := by
  rcases List.mem_append.1 hm with hm | hm
  · obtain ⟨t, ht, hm⟩ := List.mem_flatMap.1 hm
    exact h.flat_of_mem_triples ht m hm
  · obtain ⟨c, hc, hm⟩ := List.mem_flatMap.1 hm
    obtain ⟨p, hp, hm⟩ := List.mem_flatMap.1 hm
    obtain ⟨r, hr, hget⟩ := List.getElem_of_mem hc
    rw [h.sturdy.network_eq] at hr
    have hrule : n.rule? r = some c := by
      rw [Network.rule?, ← hget, List.getElem?_eq_getElem hr]
      simp only [h.sturdy.network_eq]
    obtain ⟨k, hk, hnodes⟩ := hn.head r c hrule _ (Rule.mem_filterMap_pattern?_iff.1 hp)
    cases hk
    have hfunctor := (hnodes m hm).1
    cases m with
    | functor f as => cases hfunctor
    | _ => rfl

/-- The heads speak of what is known. -/
theorem spoken_known (h : Able (fun m => m.isNested = false) n most e) (hn : n.Modest) :
    Spoken n e.Known where
  vocabulary :=
    { congr := by
        rintro m k hsame ⟨hflat, l, hl, p, hp, hpm⟩
        exact ⟨Node.isNested_congr hsame ▸ hflat, l, hl, p, hp, BEq.trans hpm hsame⟩
      args := by
        rintro f as ⟨hflat, m, hm, p, hp, hsame⟩ a ha
        refine ⟨vocabulary_not_nested.args hflat a ha, m, hm, ?_⟩
        have hmflat := h.flat_of_mem_nodes hn hm
        cases p with
        | functor g bs =>
            rw [Node.functor_beq, Bool.and_eq_true] at hsame
            obtain ⟨b, hb, hba⟩ := exists_mem_of_forall₂
              (list_beq_iff_forall₂.1 hsame.2) ha
            exact ⟨b, Node.mem_parts_of_mem_args hmflat hp hb, hba⟩
        | _ => cases hsame }
  flat _ hm := hm.1
  heads r c hc p hp m hm _ := by
    rw [← h.sturdy.network_eq] at hc
    have hmem := mem_nodes_of_head hc hp hm
    exact ⟨h.flat_of_mem_nodes hn hmem, m, hmem, m, m.mem_parts_self, BEq.rfl⟩

/-- The engine is able over the nodes that it has. -/
theorem known (h : Able (fun m => m.isNested = false) n most e) : Able e.Known n most e := by
  have hknown : ∀ t ∈ e.triples, ∀ m ∈ t.nodes, m ∈ e.nodes := fun t ht m hm =>
    List.mem_append_left _ (List.mem_flatMap.2 ⟨t, ht, hm⟩)
  refine ⟨h.sturdy, h.maxRechecks_eq, fun t ht m hm => ⟨h.seen t ht m hm, ?_⟩,
    fun r id token hid m hm => ⟨h.held r id token hid m hm, ?_⟩⟩
  · obtain ⟨u, hu, hsame⟩ := h.sturdy.orderly.sound.exists_mem_visible (p := .any) ht rfl
    obtain ⟨k, hk, hkm⟩ := Triple.exists_mem_nodes_beq hsame hm
    exact ⟨k, hknown u (List.mem_append_left _ hu) k hk, k, k.mem_parts_self, hkm⟩
  · exact ⟨m, hknown _ (mem_triples_of_token hid) m hm, m, m.mem_parts_self, BEq.rfl⟩

end Able

/-! ## What pieces of work do to the work that waits -/

theorem NoNews.dropped (h : e.NoNews) {event : Event} {events : List Event}
    {state : EngineState} {stats : EngineStats} (hevents : e.events = event :: events) :
    NoNews { e with events, state, stats } :=
  fun t ht => h t (hevents ▸ List.mem_cons_of_mem _ ht)

theorem NoLoss.dropped (h : e.NoLoss) {event : Event} {events : List Event}
    {state : EngineState} {stats : EngineStats} (hevents : e.events = event :: events) :
    NoLoss { e with events, state, stats } :=
  fun t ht => h t (hevents ▸ List.mem_cons_of_mem _ ht)

theorem Recedes.noNews (h : e.Recedes e') (he : e.NoNews) : e'.NoNews :=
  fun t ht => he t ((h.added_mem_iff t).1 ht)

theorem Discards.noNews {t : Triple} (h : e.Discards t e') (he : e.NoNews) : e'.NoNews := by
  induction h with
  | refl => exact he
  | @next e₁ _ rule _ _ _ hrecedes _ ih =>
      have hcleared : (e₁.cleared rule t).NoNews := ih
      exact hrecedes.noNews hcleared

theorem Discards.agenda_eq {t : Triple} (h : e.Discards t e') : e'.agenda = e.agenda := by
  induction h with
  | refl => rfl
  | next _ _ hrecedes _ ih =>
      rw [hrecedes.frame]
      exact ih

theorem Discards.burden_le {t : Triple} (h : e.Discards t e') : e'.burden ≤ e.burden := by
  induction h with
  | refl => exact Nat.le_refl _
  | next _ _ hrecedes _ ih => exact hrecedes.burden.trans ih

theorem Reasked.noNews {asked : List Activation} {changed : Bool}
    (h : e.Reasked asked changed e') (he : e.NoNews) : e'.NoNews := by
  induction h with
  | none => exact he
  | next _ _ _ _ _ hreconsidered ih =>
      cases hreconsidered with
      | same _ _ heq =>
          rw [heq]
          exact ih
      | @taken e₁ _ _ hblocked hrecedes _ _ =>
          have hnews : e₁.NoNews := by
            rw [hblocked]
            exact ih
          exact hrecedes.noNews hnews
      | again _ heq =>
          rw [heq]
          exact ih

theorem burden_of_events {event : Event} {events : List Event}
    (hevents : e.events = event :: events) (state : EngineState) (stats : EngineStats) :
    burden { e with events, state, stats } + 1 = e.burden := by
  have hlength : e.events.length = events.length + 1 := by
    rw [hevents]
    rfl
  simp only [burden]
  omega

/-- Checking a suspect leaves less to follow up. -/
theorem Reviewed.burden_lt {t : Triple} {suspects : OrderedSet Triple}
    (hsound : e.deductions.Sound) (hpop : e.suspects.pop? = some (t, suspects))
    (h : Reviewed { e with suspects } e' t) : e'.burden < e.burden := by
  have hsize : e.suspects.size = suspects.size + 1 := by
    rw [OrderedSet.size, OrderedSet.members_of_pop? hpop, List.length_append]
    rfl
  have hone : burden { e with suspects } + 1 = e.burden := by
    simp only [burden]
    omega
  rcases h with ⟨heq, _⟩ | ⟨heq, _⟩
  · rw [heq]
    change burden { e with suspects } < _
    omega
  · have hle := (recedes_withdrawn (e := { e with suspects }) hsound t).burden
    rw [heq]
    change burden (withdrawn { e with suspects } t) < _
    omega

theorem Reviewed.noNews {t : Triple} (h : e.Reviewed e' t) (he : e.NoNews) : e'.NoNews := by
  rcases h with ⟨heq, _⟩ | ⟨heq, _⟩
  · rw [heq]
    exact he
  · rw [heq]
    intro u hu
    change Event.added u ∈ (if _ then _ else _) at hu
    split at hu
    · rcases List.mem_append.1 hu with hu | hu
      · exact he u hu
      · cases List.mem_singleton.1 hu
    · exact he u hu

theorem Reviewed.agenda_eq {t : Triple} (h : e.Reviewed e' t) : e'.agenda = e.agenda := by
  rcases h with ⟨heq, _⟩ | ⟨heq, _⟩
  · rw [heq]
  · rw [heq]
    rfl

/-! ## Runs that are done -/

/-- With enough of a budget a run from here is done. -/
def Halts (rechecks : Nat) (e : Engine MemoryGraph) : Prop :=
  ∃ needed, ∀ budget, needed ≤ budget →
    ∃ last e', run budget rechecks e = .done () e' ∧ Runs rechecks e last e'

theorem Sturdy.halts_of_works (he : e.Sturdy n) (hn : n.Concrete)
    (h : ∀ more e', e.Works rechecks (some more) e' → Halts more e') : Halts rechecks e := by
  obtain ⟨answer, e', hstep, hworks⟩ := (Work.ends_step_of_sturdy he hn rechecks).exists_ok
  cases answer with
  | none =>
      refine ⟨1, fun budget hbudget => ?_⟩
      obtain ⟨budget, rfl⟩ := Nat.exists_eq_succ_of_ne_zero (Nat.ne_of_gt hbudget)
      refine ⟨rechecks, { e' with state := .idle }, ?_, .stop hstep⟩
      rw [Engine.run, hstep]
  | some more =>
      obtain ⟨needed, hneeded⟩ := h more e' hworks
      refine ⟨needed + 1, fun budget hbudget => ?_⟩
      obtain ⟨budget, rfl⟩ := Nat.exists_eq_add_of_le' hbudget
      obtain ⟨last, e'', hrun, hruns⟩ := hneeded (budget + needed) (Nat.le_add_left _ _)
      refine ⟨last, e'', ?_, .next hstep hruns⟩
      rw [← Nat.add_assoc, Engine.run, hstep]
      exact hrun

/-- A run is done if each step makes a measure smaller, or leads to a run that is done. -/
theorem halts_of_measure (hn : n.Concrete) (kept : Engine MemoryGraph → Prop) {β : Type}
    {lower : β → β → Prop} (hwf : WellFounded lower) (measure : Engine MemoryGraph → β)
    (hstep : ∀ e, kept e → Halts rechecks e ∨ e.Sturdy n ∧
      ∀ more e', e.Works rechecks (some more) e' →
        Halts more e' ∨ more = rechecks ∧ kept e' ∧ lower (measure e') (measure e))
    {e : Engine MemoryGraph} (he : kept e) : Halts rechecks e := by
  induction hm : measure e using hwf.induction generalizing e with
  | _ m ih =>
      rcases hstep e he with hdone | ⟨hsturdy, hnext⟩
      · exact hdone
      · refine hsturdy.halts_of_works hn fun more e' hworks => ?_
        rcases hnext more e' hworks with hdone | ⟨rfl, hkept, hlower⟩
        · exact hdone
        · exact ih (measure e') (hm ▸ hlower) hkept rfl

/-! ## The phases of a run -/

section Phases

/-- The next round of asking again, if there is one, comes to an end. -/
def NextRound (n : Network) (most rechecks : Nat) : Prop :=
  rechecks < most → ∀ e, Able (fun m => m.isNested = false) n most e → e.NoNews →
    Halts (rechecks + 1) e

/-- Asking again leads to the next round. -/
theorem Able.halts_of_changed (hround : NextRound n most rechecks)
    (h : Able (fun m => m.isNested = false) n most e) (hn : n.Modest)
    (hquiet : e.Quiet) (hmost : rechecks < e.maxRechecks) {stats : EngineStats}
    {asked : List Activation} (hreasked : Reasked { e with stats } asked true e') :
    Halts (rechecks + 1) e' := by
  have hnews : NoNews { e with stats } := noNews_of_events hquiet.events
  refine hround (h.maxRechecks_eq ▸ hmost) e' ?_ (hreasked.noNews hnews)
  exact h.worked hn hn.spoken_flat (.changed hquiet hmost hreasked)

/-- With nothing to join or to fire, an engine only takes back. -/
theorem Able.halts_of_withdrawing (hround : NextRound n most rechecks)
    (hn : n.Modest) (h : Able (fun m => m.isNested = false) n most e)
    (hagenda : e.agenda = []) (hnews : e.NoNews) : Halts rechecks e := by
  refine halts_of_measure hn.concrete (fun e => Able (fun m => m.isNested = false) n most e ∧
    e.agenda = [] ∧ e.NoNews) Nat.lt_wfRel.wf burden ?_ ⟨h, hagenda, hnews⟩
  rintro e ⟨h, hagenda, hnews⟩
  refine Or.inr ⟨h.sturdy, fun more e' hworks => ?_⟩
  have hable := h.worked hn hn.spoken_flat hworks
  cases hworks with
  | late hevents => exact absurd (hevents ▸ List.mem_cons_self) (hnews _)
  | entered hevents _ => exact absurd (hevents ▸ List.mem_cons_self) (hnews _)
  | back hevents =>
      refine Or.inr ⟨rfl, ⟨hable, hagenda, hnews.dropped hevents⟩, ?_⟩
      have hlt := burden_of_events hevents .propagating e.stats
      change burden _ < burden e
      omega
  | @left t events stats _ hevents hdiscards =>
      refine Or.inr ⟨rfl, ⟨hable, hdiscards.agenda_eq.trans hagenda,
        hdiscards.noNews (hnews.dropped hevents)⟩, ?_⟩
      have hlt := burden_of_events hevents .propagating stats
      have hle := hdiscards.burden_le
      change burden _ < burden e
      omega
  | dealt _ hpending _ =>
      rw [hagenda] at hpending
      cases hpending
  | reviewed _ _ hpop hreviewed =>
      refine Or.inr ⟨rfl, ⟨hable, hreviewed.agenda_eq.trans hagenda, ?_⟩, ?_⟩
      · exact hreviewed.noNews hnews
      · exact hreviewed.burden_lt h.sturdy.orderly.deductions hpop
  | changed hquiet hmost hreasked =>
      exact Or.inl (h.halts_of_changed hround hn hquiet hmost hreasked)

/-- Tokens that are all stored stay so while tokens are added. -/
theorem Filled.extends {first : TokenId} (h : e.Filled first) (hextends : e.Extends e') :
    e'.Filled first := by
  intro id hfirst hid
  by_cases hold : id < e.nextToken
  · obtain ⟨r, token, hnode⟩ := h id hfirst hold
    exact ⟨r, token, hextends.nodes r id token hnode⟩
  · exact hextends.filled id (Nat.le_of_not_lt hold) hid

/-- What can still be done while conclusions are drawn: store tokens, fire activations
and join triples. -/
def prospect (limit : Nat) (e : Engine MemoryGraph) : Nat × Nat × Nat :=
  (limit - e.nextToken, e.agenda.length, e.events.length)

/-- With nothing to take back, an engine draws what it can. -/
theorem Able.halts_of_drawing (hround : NextRound n most rechecks)
    (hn : n.Modest) (h : Able (fun m => m.isNested = false) n most e)
    (hloss : e.NoLoss) : Halts rechecks e := by
  have hP := h.spoken_known hn
  have hstart := h.known
  obtain ⟨bound, hbound⟩ := exists_token_bound n e.scarce_known
  have hfilled : e.Filled e.nextToken := fun id hfirst hid => absurd hfirst (Nat.not_le.2 hid)
  generalize hvocabulary : e.Known = P at hP hbound hstart
  generalize hfirst : e.nextToken = first at hfilled
  have hwf : WellFounded (Prod.Lex (· < ·) (Prod.Lex (· < ·) (· < ·)) :
      Nat × Nat × Nat → Nat × Nat × Nat → Prop) :=
    WellFounded.prod_lex Nat.lt_wfRel.wf (WellFounded.prod_lex Nat.lt_wfRel.wf Nat.lt_wfRel.wf)
  refine halts_of_measure hn.concrete (fun e => Able P n most e ∧ e.NoLoss ∧ e.Filled first) hwf
    (prospect (first + bound)) ?_ ⟨hstart, hloss, hfilled⟩
  rintro e ⟨h, hloss, hfilled⟩
  by_cases hdone : e.events = [] ∧ e.agenda = []
  · left
    exact Able.halts_of_withdrawing hround hn (h.weaken hP.flat) hdone.2 (noNews_of_events hdone.1)
  refine Or.inr ⟨h.sturdy, fun more e' hworks => Or.inr ?_⟩
  have hable := h.worked hn hP hworks
  cases hworks with
  | @late t events hevents =>
      refine ⟨rfl, ⟨hable, hloss.dropped hevents, hfilled⟩, ?_⟩
      unfold prospect
      rw [hevents]
      exact Prod.Lex.right _ (Prod.Lex.right _ (Nat.lt_succ_self _))
  | @entered t events stats _ hevents henters =>
      have hgrown := henters.grown
      have hfilled' : e'.Filled first := Filled.extends
        (show Filled first { e with events, state := .propagating, stats } from hfilled) hgrown
      have hbounded := hbound e' hable.sturdy.network_eq hable.sturdy.orderly.stocked hable.held
        first hfilled'
      have hevents' : e'.events = events := by rw [hgrown.frame]
      have hnext : e.nextToken ≤ e'.nextToken := hgrown.next
      have hpaid : e'.agenda.length + e.nextToken ≤ e.agenda.length + e'.nextToken := hgrown.paid
      refine ⟨rfl, ⟨hable, ?_, hfilled'⟩, ?_⟩
      · intro t ht
        rw [hevents'] at ht
        exact hloss t (hevents ▸ List.mem_cons_of_mem _ ht)
      · rcases Nat.lt_or_eq_of_le hnext with hlt | hsame
        · exact Prod.Lex.left _ _ (Nat.sub_lt_sub_left (Nat.lt_of_lt_of_le hlt hbounded) hlt)
        · unfold prospect
          rw [hsame]
          refine Prod.Lex.right _ ?_
          rcases Nat.lt_or_eq_of_le (show e'.agenda.length ≤ e.agenda.length by omega) with
            hlt | hsame
          · exact Prod.Lex.left _ _ hlt
          · rw [hsame, hevents, hevents']
            exact Prod.Lex.right _ (Nat.lt_succ_self _)
  | back hevents => exact absurd (hevents ▸ List.mem_cons_self) (hloss _)
  | left hevents _ => exact absurd (hevents ▸ List.mem_cons_self) (hloss _)
  | @dealt a agenda _ hevents hagenda hdealt =>
      have hspends := h.spends hn hP hevents hdealt
      refine ⟨rfl, ⟨hable, hspends.noLoss, ?_⟩, ?_⟩
      · intro id hid hlt
        rw [hspends.nextToken_eq] at hlt
        obtain ⟨r, token, hnode⟩ := hfilled id hid hlt
        exact ⟨r, token, (hspends.node?_eq r id).trans hnode⟩
      · unfold prospect
        rw [hspends.nextToken_eq, hspends.agenda_eq, hagenda]
        exact Prod.Lex.right _ (Prod.Lex.left _ _ (Nat.lt_succ_self _))
  | reviewed hevents hagenda _ _ => exact absurd ⟨hevents, hagenda⟩ hdone
  | changed hquiet _ _ => exact absurd ⟨hquiet.events, hquiet.agenda⟩ hdone

/-- With nothing to join, an engine first takes back, and then draws what it can. -/
theorem Able.halts_of_noNews (hround : NextRound n most rechecks)
    (hn : n.Modest) (h : Able (fun m => m.isNested = false) n most e)
    (hnews : e.NoNews) : Halts rechecks e := by
  refine halts_of_measure hn.concrete (fun e => Able (fun m => m.isNested = false) n most e ∧
    e.NoNews) Nat.lt_wfRel.wf burden ?_ ⟨h, hnews⟩
  rintro e ⟨h, hnews⟩
  by_cases hevents : e.events = []
  · exact Or.inl (h.halts_of_drawing hround hn (noLoss_of_events hevents))
  refine Or.inr ⟨h.sturdy, fun more e' hworks => Or.inr ?_⟩
  have hable := h.worked hn hn.spoken_flat hworks
  cases hworks with
  | late hevents => exact absurd (hevents ▸ List.mem_cons_self) (hnews _)
  | entered hevents _ => exact absurd (hevents ▸ List.mem_cons_self) (hnews _)
  | back hevents =>
      refine ⟨rfl, ⟨hable, hnews.dropped hevents⟩, ?_⟩
      have hlt := burden_of_events hevents .propagating e.stats
      change burden _ < burden e
      omega
  | @left t events stats _ hevents hdiscards =>
      refine ⟨rfl, ⟨hable, hdiscards.noNews (hnews.dropped hevents)⟩, ?_⟩
      have hlt := burden_of_events hevents .propagating stats
      have hle := hdiscards.burden_le
      change burden _ < burden e
      omega
  | dealt hnone _ _ => exact absurd hnone hevents
  | reviewed hnone _ _ _ => exact absurd hnone hevents
  | changed hquiet _ _ => exact absurd hquiet.events hevents

/-- Where there are no two kinds of news at once, a run comes to an end. -/
theorem Able.halts (hn : n.Modest)
    (h : Able (fun m => m.isNested = false) n most e) (hone : e.NoNews ∨ e.NoLoss) :
    Halts rechecks e := by
  induction hrounds : most - rechecks using Nat.strong_induction_on generalizing rechecks e with
  | _ rounds ih =>
      have hround : NextRound n most rechecks := fun hlt e' he' hnews' =>
        ih (most - (rechecks + 1)) (by omega) he' (Or.inl hnews') rfl
      rcases hone with hnews | hloss
      · exact h.halts_of_noNews hround hn hnews
      · exact h.halts_of_drawing hround hn hloss

end Phases

end Engine

end Entailment
