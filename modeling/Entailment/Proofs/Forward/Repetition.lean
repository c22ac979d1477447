import Entailment.Proofs.Forward.Vigilance

/-!
# Repeated announcements

Where no rule is asked again, an engine at rest may be told whatever one likes about what
has come and what has gone.  A fact that is said to have come is joined at all levels that
it activates, and each match that this gives has its token already; a fact that is said to
have gone is held by no token of a rule that it activates.  So announcements, repeated or
out of date, count as events if they agree with the view, and do nothing else.
-/

namespace Entailment

/-- The last fact of a match has matched the pattern after those before it. -/
theorem CompiledRule.Matches.exists_of_append_singleton {c : CompiledRule} {ts : List Triple}
    {t : Triple} {b' : Bindings} (h : c.Matches (ts ++ [t]) b') :
    ∃ b p, c.Matches ts b ∧ c.patterns[ts.length]? = some p ∧ b.matching? p.2 t = some b' := by
  generalize hus : ts ++ [t] = us at h
  cases h with
  | none => simp at hus
  | next hbefore hp _ hmatch =>
      obtain ⟨rfl, hlast⟩ := List.append_inj' hus rfl
      obtain rfl := List.singleton_inj.1 hlast
      exact ⟨_, _, hbefore, hp, hmatch⟩

/-- Every fact on the way to a token has a token of its own. -/
theorem TokenMemory.Spells.exists_token_of_mem {m : TokenMemory} {place : Option TokenId}
    {ts : List Triple} (h : m.Spells place ts) {t : Triple} (ht : t ∈ ts) :
    ∃ id token, m.node? id = some token ∧ token.triple = t := by
  induction h with
  | root => cases ht
  | @child id token ts hnode _ ih =>
      rcases List.mem_append.1 ht with hbefore | hlast
      · exact ih hbefore
      · exact ⟨id, token, hnode, (List.mem_singleton.1 hlast).symm⟩

/-- Nothing is removed where nothing holds the fact. -/
theorem TokenMemory.removeHolding_of_nil {m : TokenMemory} {t : Triple} (h : m.holding t = []) :
    m.removeHolding t = ([], m) := by
  simp only [removeHolding, h, List.filterMap_nil, List.foldl_nil]

theorem Engine.setMemory_self (e : Engine MemoryGraph) (r : Nat) :
    e.setMemory r (e.memory r) = e := by
  have hset : e.memories.set r (e.memory r) = e.memories := by
    refine List.ext_getElem? fun i => ?_
    rw [List.getElem?_set]
    split
    · rename_i hi
      subst hi
      split
      · rename_i hlt
        rw [Engine.memory, List.getElem?_eq_getElem hlt]
        rfl
      · rename_i hle
        rw [List.getElem?_eq_none (Nat.le_of_not_lt hle)]
    · rfl
  rw [Engine.setMemory, hset]

namespace Network

variable {n : Network}

/-- Rules that are never asked again remove and drop nothing. -/
theorem mild_of_monotonic {rules : List Rule} (hn : compile rules Registry.standard = .ok n)
    (h : n.isMonotonic = true) : n.Mild := by
  obtain ⟨_, _, hrules⟩ := compile_eq_ok hn
  refine mild_of_standard hn fun rule hrule => Rule.Sparing.kept ?_
  rw [isMonotonic, List.all_eq_true, hrules] at h
  have hrule := h _ (List.mem_map_of_mem hrule)
  rw [CompiledRule.isMonotonic, Bool.and_eq_true, Bool.not_eq_true', Bool.not_eq_true'] at hrule
  exact CompiledRule.destructive_eq_false_iff.1 hrule.2

end Network

namespace Engine

/-- More events have been followed up, and nothing else has changed. -/
def heard (e : Engine MemoryGraph) (more : Nat) : Engine MemoryGraph :=
  { e with stats := { e.stats with events := e.stats.events + more } }

end Engine

namespace Work

open Engine

variable {e : Engine MemoryGraph} {r : Nat} {c : CompiledRule}

/-! ## Matches that are stored already -/

/-- The matches have tokens. -/
def Stored (e : Engine MemoryGraph) (r : Nat) (found : List PartialMatch) : Prop :=
  ∀ p ∈ found, e.Extended r p.parent p.triple

theorem ends_store_stored {level : Nat} {p : PartialMatch}
    (hp : e.Extended r p.parent p.triple) :
    (store c ⟨r, level⟩ p).Ends e fun answer e' => answer = none ∧ e' = e := by
  obtain ⟨id, hid⟩ := hp
  unfold store
  simp only [ends_bind, ends_get]
  have hinsert : (e.memory r).insert e.nextToken (TokenMemory.tokenOf c level p) = none :=
    TokenMemory.insert_eq_none_iff.2 ⟨id, hid⟩
  unfold TokenMemory.tokenOf at hinsert
  rw [hinsert, ends_pure]
  exact ⟨rfl, rfl⟩

/-- Matches that have tokens are not followed up. -/
theorem ends_grow_stored {level : Nat} {following : List Triple} {found : List PartialMatch}
    (hfound : Stored e r found) :
    (grow c r level following found).Ends e fun _ e' => e' = e := by
  induction following generalizing level found with
  | nil =>
      refine (ends_forM (fun rest e' => e' = e ∧ Stored e r rest) ?_ found ⟨rfl, hfound⟩).mono
        fun _ _ h => h.1
      rintro p rest _ ⟨rfl, hrest⟩
      refine (ends_store_stored (hrest p (List.mem_cons_self ..))).bind ?_
      rintro _ _ ⟨rfl, rfl⟩
      exact ⟨rfl, fun q hq => hrest q (List.mem_cons_of_mem _ hq)⟩
  | cons next following ih =>
      rw [grow]
      have hextended : (found.mapM (extend c ⟨r, level⟩ next)).Ends e fun xss e' =>
          e' = e ∧ xss.flatten = [] := by
        refine (ends_mapM (fun rest done e' => e' = e ∧ Stored e r rest ∧ done.flatten = []) ?_
          found [] ⟨rfl, hfound, rfl⟩).mono fun _ _ h => ⟨h.1, h.2.2⟩
        rintro p rest done _ ⟨rfl, hrest, hdone⟩
        refine (ends_store_stored (hrest p (List.mem_cons_self ..))).bind ?_
        rintro _ _ ⟨rfl, rfl⟩
        refine ⟨rfl, fun q hq => hrest q (List.mem_cons_of_mem _ hq), ?_⟩
        rw [List.flatten_append, hdone]
        rfl
      refine hextended.bind ?_
      rintro xss _ ⟨rfl, hnone⟩
      rw [hnone]
      exact ih fun q hq => absurd hq List.not_mem_nil

/-! ## Announcements -/

variable {n : Network} {t : Triple}

/-- A fact in view has been joined already at each level that it activates. -/
theorem ends_activate_stored (hs : e.Sturdy n) (he : e.Vigilant nothingGone)
    (hevents : e.events = []) (hseen : e.view.sees t = true) {s : Subscriber}
    (hactive : s ∈ e.network.activations t) : (activate t s).Ends e fun _ e' => e' = e := by
  have ht := hs.orderly.sound.isGround hseen
  obtain ⟨c, p, hc, hp, hplain⟩ := hs.orderly.wired.plain_of_mem_activations ht hactive
  have hbound : s.level < c.patterns.length := (List.getElem?_eq_some_iff.1 hp).1
  have hdrop : (c.patterns.map Prod.snd).drop s.level =
      p.2 :: (c.patterns.drop (s.level + 1)).map Prod.snd := by
    rw [← List.map_drop, List.drop_eq_getElem_cons hbound, List.map_cons,
      (List.getElem?_eq_some_iff.1 hp).2]
  unfold activate
  rw [ends_bind, ends_get]
  simp only [hc]
  rw [hdrop]
  refine ends_grow_stored fun x hx => ?_
  obtain ⟨⟨⟨ts, hts, hlength, hmatches⟩, _⟩, hxseen⟩ :=
    proper_joins hs.orderly.stocked hc hp ht hseen (fun _ => hplain) x hx
  obtain ⟨b, q, hbefore, hq, hmatch⟩ := hmatches.exists_of_append_singleton
  rcases he.joined s.rule x.parent x.triple ⟨c, ts, b, q, _, hc, hts, hbefore, hq, hxseen, hmatch⟩
    with hstored | ⟨_, hnews, _⟩ | ⟨c', us, q', hc', hus, hq', hhidden⟩
  · exact hstored
  · rw [hevents] at hnews
    cases hnews
  · obtain rfl := Option.some.inj (hc.symm.trans hc')
    obtain rfl := hts.unique hus
    rw [hlength, hp] at hq'
    obtain rfl := Option.some.inj hq'
    rw [hplain] at hhidden
    cases hhidden

/-- No token of an activated rule holds a fact out of view. -/
theorem ends_retractTokens_unheld (hs : e.Sturdy n) (he : e.Vigilant nothingGone)
    (hevents : e.events = []) (hunseen : e.view.sees t = false) {r : Nat}
    (hactive : r ∈ (e.network.activations t).map Subscriber.rule) :
    (retractTokens t r).Ends e fun _ e' => e' = e := by
  have hstock := hs.orderly.stocked.2 r
  have hnone : (e.memory r).holding t = [] := by
    rw [List.eq_nil_iff_forall_not_mem]
    intro id hid
    obtain ⟨ts, hts, hheld⟩ :=
      (TokenMemory.mem_holding_iff hstock.indexed hstock.rooted.toLayered).1 hid
    obtain ⟨u, hu, hsame⟩ := List.any_eq_true.1 hheld
    obtain ⟨j, token, hj, rfl⟩ := hts.exists_token_of_mem hu
    have hground := hs.orderly.stocked.isGround_triple hj
    rw [← e.network.activations_congr hground hsame] at hactive
    rcases he.current r j token hj hactive with hseen | ⟨_, hnews, _⟩ | hgone
    · rw [e.view.sees_congr hsame, hunseen] at hseen
      cases hseen
    · rw [hevents] at hnews
      cases hnews
    · exact hgone
  unfold retractTokens
  simp only [ends_bind, ends_get, TokenMemory.removeHolding_of_nil hnone, setMemory_self, ends_set]
  rfl

/-- An event is counted if it agrees with the view, and nothing comes of it. -/
theorem ends_propagate_known (hs : e.Sturdy n) (he : e.Vigilant nothingGone)
    (hevents : e.events = []) (event : Event) :
    (propagate event).Ends e fun _ e' => e' = e.heard (e.confirms event).toNat := by
  have hs₁ : (e.heard 1).Sturdy n := hs.of_agree rfl
  have he₁ : (e.heard 1).Vigilant nothingGone :=
    he.notified (notifies_of_events rfl rfl rfl fun _ h => h)
  cases event with
  | added t =>
      unfold propagate
      rw [ends_bind, ends_isVisible]
      cases hseen : e.view.sees t with
      | false =>
          rw [if_neg Bool.false_ne_true, show e.confirms (.added t) = false from hseen]
          exact rfl
      | true =>
          simp only [if_true, ends_bind, ends_count, ends_get]
          rw [show e.confirms (.added t) = true from hseen]
          refine (ends_forM (fun rest e' => e' = e.heard 1 ∧
            ∀ s ∈ rest, s ∈ e.network.activations t) ?_ _ ⟨rfl, fun _ h => h⟩).mono
            fun _ _ h => h.1
          rintro s rest _ ⟨rfl, hrest⟩
          refine (ends_activate_stored hs₁ he₁ hevents hseen (hrest s List.mem_cons_self)).mono ?_
          exact fun _ _ h => ⟨h, fun q hq => hrest q (List.mem_cons_of_mem _ hq)⟩
  | deleted t =>
      unfold propagate
      rw [ends_bind, ends_isVisible]
      cases hseen : e.view.sees t with
      | true =>
          rw [if_pos rfl, show e.confirms (.deleted t) = false by rw [confirms, hseen]; rfl]
          exact rfl
      | false =>
          simp only [Bool.false_eq_true, if_false, ends_bind, ends_count, ends_get]
          rw [show e.confirms (.deleted t) = true by rw [confirms, hseen]; rfl]
          refine (ends_forM (fun rest e' => e' = e.heard 1 ∧
            ∀ r ∈ rest, r ∈ (e.network.activations t).map Subscriber.rule) ?_ _
            ⟨rfl, fun _ h => List.mem_eraseDups.1 h⟩).mono fun _ _ h => h.1
          rintro r rest _ ⟨rfl, hrest⟩
          refine (ends_retractTokens_unheld hs₁ he₁ hevents hseen
            (hrest r List.mem_cons_self)).mono ?_
          exact fun _ _ h => ⟨h, fun q hq => hrest q (List.mem_cons_of_mem _ hq)⟩

/-- An event that is announced at rest is the first to be followed up. -/
theorem ends_step_known (hs : e.Sturdy n) (he : e.Vigilant nothingGone) (hquiet : e.Quiet)
    (event : Event) (rechecks : Nat) :
    (step rechecks).Ends (e.queue event) fun answer e' => answer = some rechecks ∧
      e' = { e.heard (e.confirms event).toNat with state := .propagating } := by
  have hqueue : (e.queue event).events = [event] := by
    rw [queue, hquiet.events]
    rfl
  have hstart : ({ e.queue event with events := [], state := .propagating } : Engine MemoryGraph) =
      { e with state := .propagating } := by
    rw [queue, hquiet.events]
  have hs₁ : Sturdy n { e with state := .propagating } := hs.of_agree rfl
  have he₁ : Vigilant { e with state := .propagating } nothingGone :=
    he.notified (notifies_of_events rfl rfl rfl fun _ h => h)
  unfold step
  rw [ends_bind, ends_get, hqueue]
  simp only [ends_bind, ends_set, ends_pure, hstart, true_and]
  exact ends_propagate_known hs₁ he₁ hquiet.events event

/-- There is nothing to do where nothing waits and no rule is asked again. -/
theorem step_of_quiet (hquiet : e.Quiet) (hmonotonic : e.network.isMonotonic = true)
    (rechecks : Nat) : step rechecks e = .ok none e := by
  have hended : (step rechecks).Ends e fun answer e' => answer = none ∧ e' = e := by
    unfold step
    rw [ends_bind, ends_get, hquiet.events, hquiet.agenda,
      OrderedSet.pop?_eq_none_iff.2 hquiet.suspects]
    simp only [hmonotonic, Bool.true_or, if_true, ends_pure, and_self]
  obtain ⟨_, _, hdone, rfl, rfl⟩ := hended.exists_ok
  exact hdone

end Work

namespace Engine

variable {e : Engine MemoryGraph} {n : Network}

/-- At rest an announcement is over in two steps. -/
theorem Watchful.announce_eq (h : e.Watchful n) (hmonotonic : n.isMonotonic = true)
    (hquiet : e.Quiet) (hidle : e.state = .idle) (budget : Nat) (event : Event) :
    e.announce (budget + 2) event = .done () (e.heard (e.confirms event).toNat) := by
  have hopen : e.isClosed = false := by rw [isClosed, hidle]; rfl
  obtain ⟨_, _, hfollowed, rfl, rfl⟩ :=
    (Work.ends_step_known h.sturdy h.vigilant hquiet event 0).exists_ok
  have hrested := Work.step_of_quiet
    (e := { e.heard (e.confirms event).toNat with state := .propagating })
    ⟨hquiet.events, hquiet.agenda, hquiet.suspects⟩
    (show e.network.isMonotonic = true from h.sturdy.network_eq ▸ hmonotonic) 0
  have hrun : Engine.run (budget + 2) 0 (e.queue event) =
      .done () (e.heard (e.confirms event).toNat) := by
    rw [run, hfollowed]
    simp only
    rw [run, hrested]
    simp only [heard, hidle]
  have hqueued : (modify fun e => e.queue event : Work MemoryGraph PUnit) e =
      .ok PUnit.unit (e.queue event) := rfl
  rw [announce, operate_of_ok hopen hqueued, hrun]
  rfl

/-- Announces one event after the other. -/
def announceAll (budget : Nat) : List Event → Engine MemoryGraph → Outcome (Engine MemoryGraph) Unit
  | [], e => .done () e
  | event :: events, e =>
    match e.announce budget event with
    | .done _ e => announceAll budget events e
    | .failed cause e => .failed cause e
    | .unfinished => .unfinished

theorem heard_heard (e : Engine MemoryGraph) (more still : Nat) :
    (e.heard more).heard still = e.heard (more + still) := by
  rw [heard, heard, heard, Nat.add_assoc]

theorem confirms_heard (e : Engine MemoryGraph) (more : Nat) :
    (e.heard more).confirms = e.confirms := by
  funext event
  cases event <;> rfl

theorem Watchful.announceAll_eq (h : e.Watchful n) (hmonotonic : n.isMonotonic = true)
    (hquiet : e.Quiet) (hidle : e.state = .idle) (budget : Nat) (events : List Event) :
    e.announceAll (budget + 2) events = .done () (e.heard (events.countP e.confirms)) := by
  induction events generalizing e with
  | nil => rfl
  | cons event events ih =>
      have hrest := ih (e := e.heard (e.confirms event).toNat) (h.of_agree rfl)
        ⟨hquiet.events, hquiet.agenda, hquiet.suspects⟩ hidle
      rw [confirms_heard, heard_heard] at hrest
      have hcount : (event :: events).countP e.confirms =
          (e.confirms event).toNat + events.countP e.confirms := by
        rw [List.countP_cons, Nat.add_comm]
        cases e.confirms event <;> rfl
      rw [announceAll, h.announce_eq hmonotonic hquiet hidle, hcount]
      exact hrest

/-- Whatever is announced to an engine at rest, in whatever order and however often: if no
rule is asked again, the events that agree with the view are counted, and nothing else
changes. -/
theorem announceAll_done {rules : List Rule}
    (hn : Network.compile rules Registry.standard = .ok n) (hmonotonic : n.isMonotonic = true)
    (h : Working n none e) (budget : Nat) (events : List Event) :
    e.announceAll (budget + 2) events = .done () (e.heard (events.countP e.confirms)) := by
  obtain ⟨hwired, hregistry, _⟩ := Network.compile_eq_ok hn
  have hbinds : ∀ name b, n.registry.get? name = some b → b.Binds := by
    rw [hregistry]
    exact Registry.binds_standard
  have hconcrete : n.Concrete := Network.concrete_of_binds
    (fun _ _ _ call _ b hb => (hbinds call.name b hb).1)
    fun _ _ _ call _ b hb => (hbinds call.name b hb).2
  have hmild := Network.mild_of_monotonic hn hmonotonic
  obtain ⟨hquiet, hidle⟩ := h.resting hwired hconcrete hmild hmonotonic rfl
  exact (h.watchful hwired hconcrete hmild hmonotonic).announceAll_eq hmonotonic hquiet hidle
    budget events

/-- The link and what is deduced from it are announced again, and a link that is not in view
is said to have gone. -/
theorem announceAll_mirrored : mirrorNetwork.isMonotonic = true ∧
    mirrored.announceAll 2 [.added link, .added backlink, .added link, .deleted link,
      .deleted fact] = .done () (mirrored.heard 4) := by
  have hmonotonic : mirrorNetwork.isMonotonic = true := by decide +kernel
  have hcount : [Event.added link, .added backlink, .added link, .deleted link,
      .deleted fact].countP mirrored.confirms = 4 := by decide +kernel
  refine ⟨hmonotonic, ?_⟩
  rw [announceAll_done compile_mirroring hmonotonic working_mirrored 0, hcount]

end Engine

end Entailment
