import Entailment.Proofs.Forward.Exactness
import Entailment.Proofs.Forward.Indexing
import Entailment.Proofs.Forward.Lifetime
import Entailment.Proofs.Forward.Reliability

/-!
# Announcing what is known already

A rule looks for facts in two ways: a fact that comes into view is tried with the patterns
that it activates, and a match that grows looks among the facts in view.  A pattern whose
predicate is not plain is served in the second way only, so a memory need not have all
matches of such a rule.  But it has all those that an announcement would find, and it has
no token that an announcement would remove.  So where no rule is asked again, an engine at
rest can be told as often as one likes what has come and what has gone, and does nothing.
-/

namespace Entailment

namespace Engine

variable {e e' : Engine MemoryGraph} {n : Network} {gone : Nat → Triple → Prop}

/-! ## What an announcement finds -/

/-- The pattern that follows the token is tried with no fact that comes into view. -/
def Overlooked (e : Engine MemoryGraph) (r : Nat) (place : Option TokenId) : Prop :=
  ∃ c ts p, e.network.rule? r = some c ∧ (e.memory r).Spells place ts ∧
    c.patterns[ts.length]? = some p ∧ p.2.hasPlainPredicate = false

/-- What an activated rule has matched is in view, or known to have left it. -/
def Current (e : Engine MemoryGraph) (gone : Nat → Triple → Prop) : Prop :=
  ∀ r id token, (e.memory r).node? id = some token →
    r ∈ (e.network.activations token.triple).map Subscriber.rule →
    e.view.sees token.triple = true ∨ e.Announced token.triple ∨ gone r token.triple

/-- Nothing that is in view or has left it would change the tokens if it were announced,
apart from what waits. -/
structure Vigilant (e : Engine MemoryGraph) (gone : Nat → Triple → Prop) : Prop where
  joined : e.Joined fun r place u => e.News u ∨ e.Overlooked r place
  current : e.Current gone

/-! ## What leaves the matches as they are -/

/-- The matches are the same.  What has come into view or left it is announced, and no
announcement is dropped that is still to the point. -/
structure Notifies (e e' : Engine MemoryGraph) : Prop where
  matches_eq : e.SameMatches e'
  entered : ∀ u, e'.view.sees u = true → e.view.sees u = true ∨ e'.News u
  left : ∀ u, e.view.sees u = true → e'.view.sees u = true ∨ e'.Announced u
  added : ∀ t, Event.added t ∈ e.events → e'.view.sees t = true → Event.added t ∈ e'.events
  deleted : ∀ t, Event.deleted t ∈ e.events →
    e'.view.sees t = true ∨ Event.deleted t ∈ e'.events

theorem Vigilant.notified (he : e.Vigilant gone) (h : e.Notifies e') : e'.Vigilant gone where
  joined := by
    intro r place u ⟨c, ts, b, p, b', hc, hts, hmatches, hp, hseen, hmatch⟩
    rcases h.entered u hseen with hold | hnew
    · have hc' := hc
      have hts' := hts
      rw [h.matches_eq.network_eq] at hc'
      rw [TokenMemory.spells_congr (h.matches_eq.node?_eq r)] at hts'
      rcases he.joined r place u ⟨c, ts, b, p, b', hc', hts', hmatches, hp, hold, hmatch⟩ with
        ⟨id, hid⟩ | ⟨t, ht, hsame⟩ | ⟨d, us, q, hd, hus, hq, hplain⟩
      · exact Or.inl ⟨id, by rw [h.matches_eq.edges_eq]; exact hid⟩
      · exact Or.inr (Or.inl
          ⟨t, h.added t ht (by rw [e'.view.sees_congr hsame]; exact hseen), hsame⟩)
      · rw [← h.matches_eq.network_eq] at hd
        rw [← TokenMemory.spells_congr (h.matches_eq.node?_eq r)] at hus
        exact Or.inr (Or.inr ⟨d, us, q, hd, hus, hq, hplain⟩)
    · exact Or.inr (Or.inl hnew)
  current := by
    intro r id token hid hactive
    rw [h.matches_eq.node?_eq] at hid
    rw [h.matches_eq.network_eq] at hactive
    rcases he.current r id token hid hactive with hseen | ⟨t, ht, hsame⟩ | hgone
    · exact (h.left _ hseen).imp_right Or.inl
    · rcases h.deleted t ht with hback | hkept
      · exact Or.inl (e'.view.sees_congr hsame ▸ hback)
      · exact Or.inr (Or.inl ⟨t, hkept, hsame⟩)
    · exact Or.inr (Or.inr hgone)

/-- The view and the matches are the same, and no announcement is dropped that is still to
the point. -/
theorem notifies_of_view_eq (hmatches : e.SameMatches e') (hview : e'.view = e.view)
    (hadded : ∀ t, Event.added t ∈ e.events → e.view.sees t = true → Event.added t ∈ e'.events)
    (hdeleted : ∀ t, Event.deleted t ∈ e.events →
      e.view.sees t = true ∨ Event.deleted t ∈ e'.events) : e.Notifies e' where
  matches_eq := hmatches
  entered _ hu := Or.inl (hview ▸ hu)
  left _ hu := Or.inl (hview.symm ▸ hu)
  added t ht hseen := hadded t ht (hview ▸ hseen)
  deleted t ht := (hdeleted t ht).imp_left fun h => hview.symm ▸ h

theorem notifies_of_events (hnetwork : e'.network = e.network)
    (hmemories : e'.memories = e.memories) (hview : e'.view = e.view)
    (hevents : ∀ event ∈ e.events, event ∈ e'.events) : e.Notifies e' :=
  notifies_of_view_eq (sameMatches_of_memories_eq hnetwork hmemories) hview
    (fun _ ht _ => hevents _ ht) fun _ ht => Or.inr (hevents _ ht)

/-- The announcement agrees with the view. -/
def confirms (e : Engine MemoryGraph) : Event → Bool
  | .added t => e.view.sees t
  | .deleted t => !e.view.sees t

/-- An announcement that does not agree with the view may be dropped. -/
theorem notifies_of_stale {event : Event} {events : List Event}
    (hevents : e.events = event :: events) (hstale : e.confirms event = false)
    {state : EngineState} : e.Notifies { e with events, state } := by
  refine notifies_of_view_eq (sameMatches_of_memories_eq rfl rfl) rfl ?_ ?_
  · intro t ht hseen
    rw [hevents] at ht
    refine (List.mem_cons.1 ht).resolve_left fun hsame => ?_
    subst hsame
    rw [show e.view.sees t = false from hstale] at hseen
    cases hseen
  · intro t ht
    rw [hevents] at ht
    rcases List.mem_cons.1 ht with hsame | ht
    · subst hsame
      rw [confirms, Bool.not_eq_false'] at hstale
      exact Or.inl hstale
    · exact Or.inr ht

theorem Recedes.notifies (h : e.Recedes e') : e.Notifies e' where
  matches_eq := sameMatches_of_memories_eq h.network_eq h.memories_eq
  entered _ hu := Or.inl (h.sees hu)
  left u hu := by
    obtain ⟨ts, hevents, hgone⟩ := h.announces
    cases hafter : e'.view.sees u with
    | true => exact Or.inl rfl
    | false =>
        obtain ⟨t, ht, hsame⟩ := List.any_eq_true.1 (hgone u hu hafter)
        refine Or.inr ⟨t, ?_, hsame⟩
        rw [hevents]
        exact List.mem_append_right _ (List.mem_map_of_mem ht)
  added t ht _ := (h.added_mem_iff t).2 ht
  deleted t ht := by
    obtain ⟨ts, hevents, _⟩ := h.announces
    rw [hevents]
    exact Or.inr (List.mem_append_left _ ht)

/-! ## Events -/

/-- When matches are added, the same patterns are overlooked. -/
theorem Overlooked.extends {r : Nat} {place : Option TokenId} (h : e.Overlooked r place)
    (hextends : e.Extends e') : e'.Overlooked r place := by
  obtain ⟨c, ts, p, hc, hts, hp, hplain⟩ := h
  exact ⟨c, ts, p, by rwa [hextends.network_eq], hextends.spells hts, hp, hplain⟩

theorem Vigilant.entered (he : e.Vigilant nothingGone) (hs : e.Sturdy n) {t : Triple}
    {events : List Event} (hevents : e.events = .added t :: events) {stats : EngineStats}
    (henters : Enters t { e with events, state := .propagating, stats } e') :
    e'.Vigilant nothingGone where
  joined := by
    have hgrown := henters.grown
    have hevents' : e'.events = events := by rw [hgrown.frame]
    refine henters.joins (fun r place u => e'.News u ∨ e'.Overlooked r place)
      fun r place u hdemands => ?_
    have hoverlooked : e.Overlooked r place → e'.Overlooked r place := fun h =>
      Overlooked.extends (e := { e with events, state := .propagating, stats }) h hgrown
    rcases he.joined r place u hdemands with hextended | ⟨w, hw, hsame⟩ | hpassed
    · exact Or.inl hextended
    · rw [hevents] at hw
      rcases List.mem_cons.1 hw with hw | hw
      · cases hw
        obtain ⟨c, ts, b, p, b', hc, hts, hmatches, hp, hseen, hmatch⟩ := hdemands
        right
        cases hplain : p.2.hasPlainPredicate with
        | false => exact Or.inl (Or.inr (hoverlooked ⟨c, ts, p, hc, hts, hp, hplain⟩))
        | true =>
            have hground := hs.orderly.sound.isGround hseen
            have hfits := (hmatches.matched hground hmatch).fits
            refine Or.inr ⟨hsame, ts, hts, ?_⟩
            exact hs.orderly.wired.filed.mem_activations
              ((hs.orderly.wired.rule r c hc).listens _ p hp) hplain
              (by rw [Triple.isGround_congr hsame]; exact hground)
              (hfits.congr (fun _ _ => BEq.rfl) (BEq.symm hsame))
      · exact Or.inr (Or.inl (Or.inl ⟨w, hevents' ▸ hw, hsame⟩))
    · exact Or.inr (Or.inl (Or.inr (hoverlooked hpassed)))
  current := by
    have hgrown := henters.grown
    have hview : e'.view = e.view := hgrown.view_eq
    intro r id token hid hactive
    rw [hgrown.network_eq] at hactive
    rw [hview]
    rcases hgrown.fresh r id token hid with hold | ⟨hseen, _⟩
    · rcases he.current r id token hold hactive with hseen | ⟨u, hu, hsame⟩ | hgone
      · exact Or.inl hseen
      · refine Or.inr (Or.inl ⟨u, ?_, hsame⟩)
        rw [hevents] at hu
        rw [show e'.events = events by rw [hgrown.frame]]
        exact (List.mem_cons.1 hu).resolve_left fun h => nomatch h
      · exact hgone.elim
    · exact Or.inl hseen

/-! ## Losing tokens -/

theorem Stocked.isGround_triple (he : e.Stocked) {r : Nat} {id : TokenId} {token : Token}
    (hid : (e.memory r).node? id = some token) : token.triple.isGround = true := by
  cases hc : e.network.rule? r with
  | none =>
      rw [((he.2 r).vacant hc id).1] at hid
      cases hid
  | some c =>
      obtain ⟨_, _, _, hground⟩ := (he.2 r).exists_fit hc hid
      exact hground

theorem Vigilant.weaken {gone' : Nat → Triple → Prop} (he : e.Vigilant gone)
    (himp : ∀ r id token, (e.memory r).node? id = some token →
      r ∈ (e.network.activations token.triple).map Subscriber.rule → gone r token.triple →
      gone' r token.triple) : e.Vigilant gone' where
  joined := he.joined
  current r id token hid hactive :=
    (he.current r id token hid hactive).imp_right fun h => h.imp_right (himp r id token hid hactive)

/-- The announcement of a deletion has been taken up. -/
theorem Vigilant.next_deleted (he : e.Vigilant nothingGone) {t : Triple} {events : List Event}
    (hevents : e.events = .deleted t :: events) {state : EngineState} {stats : EngineStats} :
    Vigilant { e with events, state, stats } fun _ u => (t == u) = true where
  joined := by
    refine he.joined.weaken fun r place u _ h => Or.inr (h.imp_left ?_)
    rintro ⟨w, hw, hsame⟩
    rw [hevents] at hw
    exact ⟨w, (List.mem_cons.1 hw).resolve_left (fun h => nomatch h), hsame⟩
  current r id token hid hactive := by
    rcases he.current r id token hid hactive with hseen | ⟨u, hu, hsame⟩ | hgone
    · exact Or.inl hseen
    · rw [hevents] at hu
      rcases List.mem_cons.1 hu with hu | hu
      · cases hu
        exact Or.inr (Or.inr hsame)
      · exact Or.inr (Or.inl ⟨u, hu, hsame⟩)
    · exact hgone.elim

/-- A rule loses the tokens that hold a triple out of view. -/
theorem Vigilant.cleared (he : e.Vigilant gone) (hstocked : e.Stocked) {rule : Nat}
    {c : CompiledRule} (hc : e.network.rule? rule = some c) {t : Triple}
    (hunseen : e.view.sees t = false) :
    (e.cleared rule t).Vigilant fun r u => gone r u ∧ ¬ (r = rule ∧ (t == u) = true) where
  joined := by
    intro r place u ⟨d, ts, b, p, b', hd, hts, hmatches, hp, hseen, hmatch⟩
    obtain ⟨hspells, hfree⟩ := spells_cleared hstocked hc hts
    rcases he.joined r place u ⟨d, ts, b, p, b', hd, hspells, hmatches, hp, hseen, hmatch⟩ with
      ⟨id, hid⟩ | hnews | ⟨d', us, q, hd', hus, hq, hplain⟩
    · -- The token that extends the place by what is in view does not hold what is not.
      obtain ⟨token, hnode, hparent, hsame⟩ := ((hstocked.2 r).indexed.edge_iff place u id).1 hid
      have hne : (token.triple == t) = false := by
        rw [Bool.eq_false_iff]
        intro hcontra
        rw [← e.view.sees_congr (BEq.trans (BEq.symm hsame) hcontra)] at hunseen
        rw [show e.view.sees u = true from hseen] at hunseen
        cases hunseen
      have hnode' : ((e.cleared rule t).memory r).node? id = some token := by
        refine node?_cleared hstocked hc hnode fun hrule ⟨us, hus, hheld⟩ => ?_
        have hown : (e.memory r).Spells (some id) (ts ++ [token.triple]) :=
          .child hnode (hparent ▸ hspells)
        rw [hus.unique hown, List.any_append, hfree hrule] at hheld
        simp [hne] at hheld
      have hindexed := ((hstocked.cleared hc t).2 r).indexed
      exact Or.inl ⟨id, (hindexed.edge_iff place u id).2 ⟨token, hnode', hparent, hsame⟩⟩
    · exact Or.inr (Or.inl hnews)
    · obtain rfl := Option.some.inj (hd'.symm.trans hd)
      obtain rfl := hus.unique hspells
      exact Or.inr (Or.inr ⟨d', us, q, hd', hts, hq, hplain⟩)
  current r id token hid hactive := by
    obtain ⟨hnode, hfree⟩ := node?_of_cleared hstocked hc hid
    rcases he.current r id token hnode hactive with hseen | hannounced | hgone
    · exact Or.inl hseen
    · exact Or.inr (Or.inl hannounced)
    · refine Or.inr (Or.inr ⟨hgone, ?_⟩)
      rintro ⟨rfl, hsame⟩
      obtain ⟨ts, hts⟩ := (hstocked.2 r).rooted.exists_spells hnode
      obtain ⟨found, below, hfound, _, rfl⟩ := hts.exists_token
      rw [hnode] at hfound
      obtain rfl := Option.some.inj hfound
      exact hfree rfl ⟨_, hts, by simp [BEq.symm hsame]⟩

/-! ## Firings and checks -/

theorem Dealt.notifies (hs : e.Sturdy n) (hmild : n.Mild) (hevents : e.events = [])
    {a : Activation} {agenda : List Activation}
    (h : Dealt { e with agenda, state := .firing } a e') : e.Notifies e' := by
  have hlt : ∀ c, e.network.rule? a.rule = some c → a.rule < e.memories.length :=
    fun c hc => hs.orderly.stocked.lt_length hc
  cases h with
  | stale => exact notifies_of_events rfl rfl rfl fun _ h => h
  | blocked ha hc _ _ hframe =>
      have hreplaces : e.Replaces e' a .blocked := by
        rw [hframe]
        exact ⟨rfl, rfl⟩
      refine notifies_of_view_eq (hreplaces.sameMatches (hlt _ hc) ha) ?_ ?_ ?_
      · rw [hframe]
        rfl
      · rw [hevents]
        exact fun _ h => nomatch h
      · rw [hevents]
        exact fun _ h => nomatch h
  | @drawn c b st conclusions e₀ e₁ e₂ _ ha hc _ hevaluate _ hframe hadopts hpurges hsheds =>
      obtain ⟨hremoved, hdropped⟩ := hmild a.rule c (hs.network_eq ▸ hc) _ _ _ _ rfl
        (hs.network_eq ▸ hevaluate)
      obtain rfl := hpurges.nothing hremoved
      obtain rfl := hsheds.nothing hdropped
      have hview : e₀.view = e.view := by
        rw [hframe]
        rfl
      have hreplaces : e.Replaces e' a (.fired conclusions st.effects.hidden c.destructive) := by
        refine ⟨?_, ?_⟩
        · rw [hadopts.frame, hframe]
          rfl
        · rw [hadopts.frame, hframe]
          rfl
      obtain ⟨ts, hnews, _, hcovers⟩ := hadopts.announces
      refine ⟨hreplaces.sameMatches (hlt _ hc) ha, fun u hu => ?_, fun u hu => ?_, ?_, ?_⟩
      · cases hbefore : e.view.sees u with
        | true => exact Or.inl rfl
        | false =>
            obtain ⟨t, ht, hsame⟩ :=
              List.any_eq_true.1 (hcovers u hu (by rw [hview]; exact hbefore))
            refine Or.inr ⟨t, ?_, hsame⟩
            rw [hnews]
            exact List.mem_append_right _ (List.mem_map_of_mem ht)
      · left
        rw [hadopts.sees_eq, hview, hu]
        rfl
      · rw [hevents]
        exact fun _ h => nomatch h
      · rw [hevents]
        exact fun _ h => nomatch h

theorem Reviewed.notifies (hs : e.Sturdy n) {t : Triple} {suspects : OrderedSet Triple}
    (h : Reviewed { e with suspects } e' t) : e.Notifies e' := by
  rcases h with ⟨hframe, _⟩ | ⟨hframe, _⟩
  · rw [hframe]
    exact notifies_of_events rfl rfl rfl fun _ h => h
  · have hnotifies := (recedes_withdrawn (e := e) hs.orderly.deductions t).notifies
    rw [hframe]
    exact ⟨sameMatches_of_memories_eq rfl rfl, hnotifies.entered, hnotifies.left,
      hnotifies.added, hnotifies.deleted⟩

end Engine

/-! ## Steps -/

namespace Work

variable {e : Engine MemoryGraph} {n : Network} {events : List Event} {t : Triple}

open Engine

theorem Ends.and {α : Type} {w : Work MemoryGraph α} {post post' : α → Engine MemoryGraph → Prop}
    (h : w.Ends e post) (h' : w.Ends e post') : w.Ends e fun a e' => post a e' ∧ post' a e' := by
  obtain ⟨a, e', hw, ha⟩ := h.exists_ok
  obtain ⟨_, _, hw', ha'⟩ := h'.exists_ok
  rw [hw] at hw'
  cases hw'
  exact .of_ok hw ⟨ha, ha'⟩

theorem ends_follow_added_vigilant (hs : e.Sturdy n) (he : e.Vigilant nothingGone)
    (hevents : e.events = .added t :: events) :
    (propagate (.added t)).Ends { e with events, state := .propagating } fun _ e' =>
      e'.Vigilant nothingGone := by
  refine (ends_propagate_added (e := { e with events, state := .propagating })
    hs.orderly.stocked hs.orderly.sound hs.orderly.wired t).mono ?_
  rintro _ e' (⟨hunseen, rfl⟩ | ⟨stats, henters⟩)
  · exact he.notified (notifies_of_stale hevents hunseen)
  · exact he.entered hs hevents henters

/-- Once all rules that it activates have lost the tokens that hold it, a triple is gone for
none of them. -/
theorem ends_retractAll_vigilant (hs : e.Sturdy n) (hunseen : e.view.sees t = false)
    {rules : List Nat} (hrules : ∀ r ∈ rules, ∃ c, n.rule? r = some c)
    (he : e.Vigilant fun r u => (t == u) = true ∧ r ∈ rules) :
    (rules.forM (retractTokens t)).Ends e fun _ e' => e'.Vigilant nothingGone := by
  refine (ends_forM (fun rest e' => e'.Sturdy n ∧ (∀ r ∈ rest, ∃ c, n.rule? r = some c) ∧
    e'.view.sees t = false ∧ e'.Vigilant fun r u => (t == u) = true ∧ r ∈ rest) ?_ _
    ⟨hs, hrules, hunseen, he⟩).mono ?_
  · rintro r rest e₁ ⟨hs₁, hrest, hunseen₁, he₁⟩
    obtain ⟨c, hc⟩ := hrest r (List.mem_cons_self ..)
    rw [← hs₁.network_eq] at hc
    refine (ends_retractTokens hs₁.orderly.deductions hs₁.orderly.stocked
      hs₁.orderly.backed hc t).mono ?_
    rintro _ e₂ ⟨hrecedes, _, hbacked⟩
    refine ⟨hs₁.retracts hc hrecedes hbacked, fun q hq => hrest q (List.mem_cons_of_mem _ hq),
      ?_, ?_⟩
    · rw [Bool.eq_false_iff] at hunseen₁ ⊢
      exact fun hback => hunseen₁ (hrecedes.sees hback)
    · refine ((he₁.cleared hs₁.orderly.stocked hc hunseen₁).notified hrecedes.notifies).weaken ?_
      rintro q id token _ _ ⟨⟨hsame, hq⟩, hnot⟩
      refine ⟨hsame, (List.mem_cons.1 hq).resolve_left ?_⟩
      rintro rfl
      exact hnot ⟨rfl, hsame⟩
  · rintro _ e' ⟨_, _, _, he'⟩
    exact he'.weaken fun r _ _ _ _ h => absurd h.2 List.not_mem_nil

theorem ends_follow_deleted_vigilant (hs : e.Sturdy n) (he : e.Vigilant nothingGone)
    (hevents : e.events = .deleted t :: events) :
    (propagate (.deleted t)).Ends { e with events, state := .propagating } fun _ e' =>
      e'.Vigilant nothingGone := by
  unfold propagate
  rw [ends_bind, ends_isVisible]
  split
  · rename_i hseen
    have hstale : e.confirms (.deleted t) = false := by
      rw [confirms, Bool.not_eq_false']
      exact hseen
    exact he.notified (notifies_of_stale hevents hstale)
  · rename_i hunseen
    rw [Bool.not_eq_true] at hunseen
    simp only [ends_bind, ends_count, ends_get]
    set e₀ : Engine MemoryGraph := { e with
      events
      state := .propagating
      stats := { e.stats with events := e.stats.events + 1 } }
    have hs₀ : e₀.Sturdy n := hs.of_agree rfl
    set active := (e₀.network.activations t).map Subscriber.rule
    have hstart : e₀.Vigilant fun r u => (t == u) = true ∧ r ∈ active.eraseDups := by
      refine (he.next_deleted hevents).weaken fun r id token hid hactive hsame => ⟨hsame, ?_⟩
      have hground : token.triple.isGround = true := hs₀.orderly.stocked.isGround_triple hid
      rw [List.mem_eraseDups]
      rwa [e₀.network.activations_congr hground (BEq.symm hsame)] at hactive
    refine ends_retractAll_vigilant hs₀ hunseen (fun r hr => ?_) hstart
    rw [List.mem_eraseDups] at hr
    obtain ⟨s, hmem, rfl⟩ := List.mem_map.1 hr
    have hrule := hs₀.orderly.wired.rule_of_mem_activations hmem
    rwa [hs₀.network_eq] at hrule

/-- What is known of the engines of a monotonic network between two pieces of work. -/
theorem ends_step_of_vigilant (hs : e.Sturdy n) (he : e.Vigilant nothingGone) (hn : n.Concrete)
    (hmild : n.Mild) (hmonotonic : n.isMonotonic = true) (rechecks : Nat) :
    (step rechecks).Ends e fun answer e' =>
      e'.Sturdy n ∧ e'.Vigilant nothingGone ∧ (answer = none → e' = e ∧ e.Quiet) := by
  have hsturdy : (step rechecks).Ends e fun _ e' => e'.Sturdy n :=
    (ends_step_of_sturdy hs hn rechecks).mono fun _ _ h => hs.worked h
  refine hsturdy.and ?_
  unfold step
  rw [ends_bind, ends_get]
  split
  · rename_i event events hevents
    simp only [ends_bind, ends_set, ends_pure]
    cases event with
    | added t =>
        exact (ends_follow_added_vigilant hs he hevents).mono fun _ _ h => ⟨h, fun h => nomatch h⟩
    | deleted t =>
        exact (ends_follow_deleted_vigilant hs he hevents).mono fun _ _ h => ⟨h, fun h => nomatch h⟩
  · simp only [ends_bind, ends_set, ends_pure]
    rename_i a agenda hevents hagenda
    have hs₀ : Sturdy n { e with agenda, state := .firing } := hs.of_agree rfl
    have hconcrete : e.network.Concrete := hs.network_eq ▸ hn
    refine (ends_deal hs₀.orderly hconcrete a).mono fun _ _ h => ⟨?_, fun h => nomatch h⟩
    exact he.notified (h.notifies hs hmild hevents)
  · simp only [ends_bind, ends_set, ends_pure]
    rename_i t suspects hevents hagenda hpop
    have hs₀ : Sturdy n { e with suspects } := hs.of_agree rfl
    refine (ends_checkSupport hs₀.orderly.deductions t).mono fun _ _ h => ⟨?_, fun h => nomatch h⟩
    exact he.notified (h.notifies hs)
  · rename_i hevents hagenda hpop
    have hstop : (e.network.isMonotonic || decide (e.maxRechecks ≤ rechecks)) = true := by
      rw [hs.network_eq, hmonotonic]
      rfl
    rw [if_pos hstop]
    exact ⟨he, fun _ => ⟨rfl, hevents, hagenda, OrderedSet.pop?_eq_none_iff.1 hpop⟩⟩

end Work

namespace Engine

variable {e e' : Engine MemoryGraph} {n : Network}

/-! ## Requests -/

theorem Restarts.vigilant (h : e.Restarts e') : e'.Vigilant nothingGone where
  joined := h.thorough.joined.weaken fun _ _ _ _ hnews => Or.inr (Or.inl hnews)
  current r id token hid := by
    rw [h.nodes] at hid
    cases hid

theorem notifies_expanded (hs : e.Sturdy n) {t : Triple} (ht : t.isGround = true) :
    e.Notifies (e.expanded t) := by
  have hevents : ∀ event ∈ e.events, event ∈ (e.expanded t).events := by
    intro event hevent
    unfold Engine.expanded
    dsimp only
    split
    · exact hevent
    · exact List.mem_append_left _ hevent
  refine ⟨sameMatches_of_memories_eq rfl rfl, fun u hu => ?_, fun u hu => Or.inl ?_,
    fun _ hu _ => hevents _ hu, fun _ hu => Or.inr (hevents _ hu)⟩
  · rw [sees_expanded hs.orderly.base ht, Bool.or_eq_true] at hu
    rcases hu with hu | hsame
    · exact Or.inl hu
    · by_cases hseen : e.view.sees t = true
      · exact Or.inl (e.view.sees_congr hsame ▸ hseen)
      · refine Or.inr ⟨t, ?_, hsame⟩
        unfold Engine.expanded
        rw [if_neg hseen]
        exact List.mem_append_right _ (List.mem_singleton.2 rfl)
  · rw [sees_expanded hs.orderly.base ht, hu]
    rfl

/-- What a deletion takes out of view it announces. -/
theorem sees_reduced_or_announced (hbase : e.base.Sound) (hsound : e.deductions.Sound)
    (t : Triple) {u : Triple} (hu : e.view.sees u = true) :
    (e.reduced t).view.sees u = true ∨ (e.reduced t).Announced u := by
  change (e.base.contains u || e.deductions.contains u) = true at hu
  by_cases hsame : (t == u) = true
  · unfold reduced
    split
    · split
      · rename_i hdeduced
        left
        change ((e.base.minus t).contains u || e.deductions.contains u) = true
        rw [← e.deductions.contains_congr hsame, hdeduced, Bool.or_true]
      · exact Or.inr ⟨t, List.mem_append_right _ (List.mem_singleton.2 rfl), hsame⟩
    · split
      · exact Or.inr ⟨t, List.mem_append_right _ (List.mem_singleton.2 rfl), hsame⟩
      · rename_i hbaseNot hdeducedNot
        rw [← e.base.contains_congr hsame, ← e.deductions.contains_congr hsame] at hu
        rw [Bool.not_eq_true] at hbaseNot hdeducedNot
        rw [hbaseNot, hdeducedNot] at hu
        cases hu
  · rw [Bool.not_eq_true] at hsame
    have hstays : ((e.base.minus t).contains u || e.deductions.contains u) = true ∧
        ((e.base.minus t).contains u || (e.deductions.minus t).contains u) = true := by
      rw [hbase.contains_minus, hsound.contains_minus, hsame]
      simpa using hu
    left
    unfold reduced
    split <;> split
    · exact hstays.1
    · exact hstays.1
    · exact hstays.2
    · exact hstays.2

theorem notifies_reduced (hs : e.Sturdy n) (t : Triple) : e.Notifies (e.reduced t) := by
  have hevents : ∀ event ∈ e.events, event ∈ (e.reduced t).events := by
    intro event hevent
    unfold Engine.reduced
    split <;> split
    · exact hevent
    · exact List.mem_append_left _ hevent
    · exact List.mem_append_left _ hevent
    · exact hevent
  have hmatches : e.SameMatches (e.reduced t) := by
    unfold Engine.reduced
    split <;> split <;> exact sameMatches_of_memories_eq rfl rfl
  exact ⟨hmatches,
    fun _ hu => Or.inl (sees_of_sees_reduced hs.orderly.base hs.orderly.deductions t hu),
    fun _ hu => sees_reduced_or_announced hs.orderly.base hs.orderly.deductions t hu,
    fun _ hu _ => hevents _ hu, fun _ hu => Or.inr (hevents _ hu)⟩

/-- What holds between two pieces of work of a monotonic network. -/
structure Watchful (n : Network) (e : Engine MemoryGraph) : Prop where
  sturdy : e.Sturdy n
  vigilant : e.Vigilant nothingGone

theorem Watchful.of_agree (h : e.Watchful n)
    (hagree : e' = { e with
      derivations := e'.derivations
      logging := e'.logging
      traceFirings := e'.traceFirings
      maxRechecks := e'.maxRechecks
      state := e'.state
      stats := e'.stats
      world := e'.world }) : e'.Watchful n where
  sturdy := h.sturdy.of_agree (by rw [hagree])
  vigilant := by
    rw [hagree]
    exact h.vigilant.notified (notifies_of_events rfl rfl rfl fun _ hevent => hevent)

theorem watchful_of_restart (hs : e.Sturdy n) (h : Work.restart e = .ok () e') :
    e'.Watchful n := by
  obtain ⟨_, _, hdone, hrestarts⟩ := (Work.ends_restart hs.orderly.base).exists_ok
  rw [h] at hdone
  cases hdone
  exact ⟨hs.network_eq ▸ hrestarts.sturdy hs.orderly.wired hs.orderly.base, hrestarts.vigilant⟩

theorem Watchful.requested (h : e.Watchful n) (hrequested : e.Requested e') :
    e'.Watchful n := by
  have horderly := h.sturdy.orderly
  cases hrequested with
  | restart hwork => exact watchful_of_restart h.sturdy hwork
  | @add t _ _ hwork =>
      cases ht : t.isGround with
      | false =>
          have hrefused := Work.addToBase_of_not_ground (e := e) ht
          rw [hwork] at hrefused
          cases hrefused
      | true =>
          obtain ⟨_, _, hdone, _, rfl⟩ := (Work.ends_addToBase horderly.base ht).exists_ok
          rw [hwork] at hdone
          cases hdone
          exact ⟨h.sturdy.expanded ht, h.vigilant.notified (notifies_expanded h.sturdy ht)⟩
  | @delete t _ _ hwork =>
      obtain ⟨_, _, hdone, _, rfl⟩ :=
        (Work.ends_deleteVisible horderly.base horderly.deductions t).exists_ok
      rw [hwork] at hdone
      cases hdone
      exact ⟨h.sturdy.reduced t, h.vigilant.notified (notifies_reduced h.sturdy t)⟩
  | announce =>
      exact ⟨h.sturdy.of_agree rfl, h.vigilant.notified
        (notifies_of_events rfl rfl rfl fun _ hevent => List.mem_append_left _ hevent)⟩

/-! ## Engines that have been operated -/

theorem Sturdy.reset (hs : e.Sturdy n) : e.reset.Sturdy n := by
  have hstart : (start n e.base).Sturdy n :=
    sturdy_start (hs.network_eq ▸ hs.orderly.wired) hs.orderly.base
  rw [← hs.network_eq] at hstart ⊢
  refine ⟨rfl, ⟨hstart.orderly.wired, hstart.orderly.base, hstart.orderly.deductions,
    Work.stocked_reset e, hstart.orderly.backed⟩, hstart.ground⟩

/-- An operation leaves an engine that can be relied on, done or failed. -/
theorem Sturdy.performed (hs : e.Sturdy n) (hn : n.Concrete) (o : Operation) (budget : Nat)
    (ho : o ≠ .close) (h : (o.perform budget e).state? = some e') : e'.Sturdy n := by
  cases hopen : e.isClosed with
  | true =>
      rw [Operation.perform_eq ho, operate_of_closed hopen] at h
      exact Option.some.inj h ▸ hs
  | false =>
      rcases hs.perform hn hopen ho budget with
        ⟨t, _, _, hfailed⟩ | ⟨_, hunfinished | ⟨e₁, hdone, he₁, _⟩⟩
      · rw [hfailed] at h
        exact Option.some.inj h ▸ hs
      · rw [hunfinished] at h
        cases h
      · rw [hdone] at h
        exact Option.some.inj h ▸ he₁

theorem Reached.sturdy (h : Reached n e) (hwired : n.Wired) (hn : n.Concrete) : e.Sturdy n := by
  induction h with
  | start hbase => exact sturdy_start hwired hbase.sound
  | @recomputed _ _ budget _ hstate ih =>
      exact ih.performed hn .recompute budget (by simp) hstate
  | @added _ _ budget t _ hstate ih =>
      refine ih.performed hn (.add t) budget (by simp) ?_
      rwa [Operation.perform, Outcome.state?_map]
  | @deleted _ _ budget t _ hstate ih =>
      refine ih.performed hn (.delete t) budget (by simp) ?_
      rwa [Operation.perform, Outcome.state?_map]
  | @announced _ _ budget event _ hstate ih =>
      exact ih.performed hn (.announce event) budget (by simp) hstate
  | reset _ ih => exact ih.reset
  | closed _ ih => exact ih.reset.of_agree rfl
  | logging _ ih => exact ih.of_agree rfl
  | settings _ ih => exact ih.of_agree rfl

theorem Working.watchful {phase : Option Nat} (h : Working n phase e) (hwired : n.Wired)
    (hn : n.Concrete) (hmild : n.Mild) (hmonotonic : n.isMonotonic = true) : e.Watchful n := by
  have hstepped : ∀ {rechecks : Nat} {answer : Option Nat} {e e' : Engine MemoryGraph},
      e.Watchful n → Work.step rechecks e = .ok answer e' → e'.Watchful n := by
    intro rechecks answer e e' he hwork
    obtain ⟨_, _, hdone, hs, hv, _⟩ := (Work.ends_step_of_vigilant he.sturdy he.vigilant hn hmild
      hmonotonic rechecks).exists_ok
    rw [hwork] at hdone
    cases hdone
    exact ⟨hs, hv⟩
  induction h with
  | begun hreached hwork => exact watchful_of_restart (hreached.sturdy hwired hn) hwork
  | worked _ hwork ih => exact hstepped ih hwork
  | rested _ hwork ih => exact (hstepped ih hwork).of_agree rfl
  | requested _ hrequested ih => exact ih.requested hrequested
  | logging _ ih => exact ih.of_agree rfl
  | settings _ ih => exact ih.of_agree rfl

/-- At rest nothing waits, and the engine says so. -/
theorem Working.resting {phase : Option Nat} (h : Working n phase e) (hwired : n.Wired)
    (hn : n.Concrete) (hmild : n.Mild) (hmonotonic : n.isMonotonic = true)
    (hrest : phase = none) : e.Quiet ∧ e.state = .idle := by
  induction h with
  | begun | worked | requested => cases hrest
  | rested hworking hwork _ =>
      have he := hworking.watchful hwired hn hmild hmonotonic
      obtain ⟨_, _, hdone, _, _, hquiet⟩ := (Work.ends_step_of_vigilant he.sturdy he.vigilant hn
        hmild hmonotonic _).exists_ok
      rw [hwork] at hdone
      cases hdone
      obtain ⟨rfl, hquiet⟩ := hquiet rfl
      exact ⟨⟨hquiet.events, hquiet.agenda, hquiet.suspects⟩, rfl⟩
  | logging _ ih | settings _ ih =>
      obtain ⟨hquiet, hidle⟩ := ih hrest
      exact ⟨⟨hquiet.events, hquiet.agenda, hquiet.suspects⟩, hidle⟩

end Engine

end Entailment
