import Entailment.Proofs.Forward.Request

/-!
# Thorough engines

An engine overlooks no match, whatever its rules are, as long as each of their patterns
is among those that a fact is tried with.  Every fact that extends a token has extended
it or waits as news, every complete token has a firing, and a rule without patterns has
exactly one.  Tokens come only when a triple enters and go only when one has left, and
whatever else a piece of work changes, it announces what comes into view.
-/

namespace Entailment

namespace Engine

variable {e e' : Engine MemoryGraph}

/-- The triple waits to be joined. -/
def News (e : Engine MemoryGraph) (u : Triple) : Prop :=
  ∃ t, Event.added t ∈ e.events ∧ (t == u) = true

/-- No match is overlooked, apart from those of triples that wait. -/
structure Thorough (e : Engine MemoryGraph) : Prop where
  joined : e.Joined fun _ _ u => e.News u
  ready : e.Ready
  unconditional : ∀ r c, e.network.rule? r = some c → c.patterns = [] →
    ∃ id, ∀ j, (∃ firing, e.firing? ⟨r, j⟩ = some firing) ↔ j = id

/-- A rule without patterns has no tokens. -/
theorem Stocked.node?_of_no_patterns (he : e.Stocked) {r : Nat} {c : CompiledRule}
    (hc : e.network.rule? r = some c) (hpatterns : c.patterns = []) (id : TokenId) :
    (e.memory r).node? id = none := by
  cases hid : (e.memory r).node? id with
  | none => rfl
  | some token =>
      obtain ⟨p, hp, _⟩ := (he.2 r).exists_fit hc hid
      rw [hpatterns] at hp
      cases hp

/-! ## What leaves the matches as they are -/

/-- No token has come or gone, and no activation either. -/
structure SameMatches (e e' : Engine MemoryGraph) : Prop where
  network_eq : e'.network = e.network
  node?_eq : ∀ r id, (e'.memory r).node? id = (e.memory r).node? id
  edges_eq : ∀ r, (e'.memory r).edges = (e.memory r).edges
  firing_iff : ∀ a, (∃ firing, e'.firing? a = some firing) ↔ ∃ firing, e.firing? a = some firing

theorem sameMatches_of_memories_eq (hnetwork : e'.network = e.network)
    (hmemories : e'.memories = e.memories) : e.SameMatches e' := by
  have hmemory : ∀ r, e'.memory r = e.memory r := fun r => by rw [memory, memory, hmemories]
  refine ⟨hnetwork, fun r id => by rw [hmemory], fun r => by rw [hmemory], fun a => ?_⟩
  rw [firing?, firing?, hmemory]

/-- What comes into view is news, and news in view are not lost. -/
theorem Thorough.recast (he : e.Thorough) (h : e.SameMatches e')
    (hsees : ∀ u, e'.view.sees u = true → e.view.sees u = true ∨ e'.News u)
    (hnews : ∀ t, Event.added t ∈ e.events → e'.view.sees t = true → Event.added t ∈ e'.events) :
    e'.Thorough where
  joined := by
    intro r place u ⟨c, ts, b, p, b', hc, hts, hmatches, hp, hseen, hmatch⟩
    rcases hsees u hseen with hold | hnew
    · rw [h.network_eq] at hc
      rw [TokenMemory.spells_congr (h.node?_eq r)] at hts
      rcases he.joined r place u ⟨c, ts, b, p, b', hc, hts, hmatches, hp, hold, hmatch⟩ with
        ⟨id, hid⟩ | ⟨t, ht, hsame⟩
      · exact Or.inl ⟨id, by rw [h.edges_eq]; exact hid⟩
      · exact Or.inr ⟨t, hnews t ht (by rw [e'.view.sees_congr hsame]; exact hseen), hsame⟩
    · exact Or.inr hnew
  ready := by
    intro r c id token hc hid hlevel
    rw [h.network_eq] at hc
    rw [h.node?_eq] at hid
    exact (h.firing_iff ⟨r, id⟩).2 (he.ready r c id token hc hid hlevel)
  unconditional := by
    intro r c hc hpatterns
    rw [h.network_eq] at hc
    obtain ⟨id, hid⟩ := he.unconditional r c hc hpatterns
    exact ⟨id, fun j => (h.firing_iff ⟨r, j⟩).trans (hid j)⟩

/-- One firing is replaced by another, and no token is touched. -/
structure Replaces (e e' : Engine MemoryGraph) (a : Activation) (new : Firing) : Prop where
  network_eq : e'.network = e.network
  memories_eq : e'.memories = (e.setFiring a new).memories

namespace Replaces

variable {a : Activation} {new : Firing} {r : Nat}

theorem memory_eq (h : e.Replaces e' a new) (r : Nat) :
    e'.memory r = (e.setFiring a new).memory r := by
  unfold memory
  rw [h.memories_eq]

theorem firing?_eq (h : e.Replaces e' a new) (ha : a.rule < e.memories.length) (b : Activation) :
    e'.firing? b = if a = b then some new else e.firing? b := by
  rw [← firing?_setFiring ha new b]
  unfold firing?
  rw [h.memory_eq]

theorem matchedBy_eq (h : e.Replaces e' a new) (ha : a.rule < e.memories.length)
    (b : Activation) : e'.matchedBy b = e.matchedBy b := by
  rw [← matchedBy_setFiring ha new b]
  unfold matchedBy
  rw [h.memory_eq]

theorem node?_eq (h : e.Replaces e' a new) (ha : a.rule < e.memories.length) (r : Nat)
    (id : TokenId) : (e'.memory r).node? id = (e.memory r).node? id := by
  rw [h.memory_eq]
  exact node?_setFiring ha new r id

theorem edges_eq (h : e.Replaces e' a new) (ha : a.rule < e.memories.length) (r : Nat) :
    (e'.memory r).edges = (e.memory r).edges := by
  rw [h.memory_eq]
  unfold setFiring
  rw [memory_setMemory _ ha]
  split
  · rename_i hrule
    rw [← hrule]
    rfl
  · rfl

/-- Only what an activation stands for has changed. -/
theorem sameMatches (h : e.Replaces e' a new) (ha : a.rule < e.memories.length) {old : Firing}
    (hold : e.firing? a = some old) : e.SameMatches e' where
  network_eq := h.network_eq
  node?_eq := h.node?_eq ha
  edges_eq := h.edges_eq ha
  firing_iff b := by
    rw [h.firing?_eq ha]
    split
    · rename_i hsame
      rw [← hsame, hold]
      simp
    · rfl

end Replaces

/-! ## Entering -/

/-- A triple is due at every level that it can extend. -/
theorem due_of_demands (hconsistent : e.Consistent nothingGone) (hovert : e.network.Overt)
    {r : Nat} {place : Option TokenId} {t u : Triple} (hdemands : e.Demands r place u)
    (hsame : (t == u) = true) : e.Due t (e.network.activations t) r place u := by
  obtain ⟨c, ts, b, p, b', hc, hts, hmatches, hp, hseen, hmatch⟩ := hdemands
  have hground := hconsistent.sound.isGround hseen
  have hfits := (hmatches.matched hground hmatch).fits
  have ht : t.isGround = true := by rw [Triple.isGround_congr hsame]; exact hground
  refine ⟨hsame, ts, hts, ?_⟩
  exact hconsistent.wired.filed.mem_activations
    ((hconsistent.wired.rule r c hc).listens _ p hp) (hovert r c _ p hc hp) ht
    (hfits.congr (fun _ _ => BEq.rfl) (BEq.symm hsame))

theorem Thorough.enters (he : e.Thorough) (hconsistent : e.Consistent nothingGone)
    (hovert : e.network.Overt) {t : Triple} {events : List Event}
    (hevents : e.events = .added t :: events) {stats : EngineStats}
    (henters : Enters t { e with events, state := .propagating, stats } e') : e'.Thorough := by
  have hgrown := henters.grown
  have hevents' : e'.events = events := by rw [hgrown.frame]
  constructor
  case joined =>
    refine henters.joins (fun _ _ u => e'.News u) fun r place u hdemands => ?_
    rcases he.joined r place u hdemands with hextended | ⟨w, hw, hsame⟩
    · exact Or.inl hextended
    · rw [hevents] at hw
      rcases List.mem_cons.1 hw with hw | hw
      · cases hw
        exact Or.inr (Or.inr (due_of_demands hconsistent hovert hdemands hsame))
      · exact Or.inr (Or.inl ⟨w, hevents' ▸ hw, hsame⟩)
  case ready => exact hgrown.ready he.ready
  case unconditional =>
    intro r c hc hpatterns
    have hc' : e.network.rule? r = some c := by
      rw [hgrown.network_eq] at hc
      exact hc
    obtain ⟨id, hid⟩ := he.unconditional r c hc' hpatterns
    refine ⟨id, fun j => ⟨?_, fun hj => ?_⟩⟩
    · rintro ⟨firing, hfiring⟩
      rcases hgrown.scheduled ⟨r, j⟩ firing hfiring with hold | ⟨_, _, _, token, hnode⟩
      · exact (hid j).1 ⟨firing, hold⟩
      · rw [hgrown.stocked.node?_of_no_patterns hc hpatterns] at hnode
        cases hnode
    · obtain ⟨firing, hfiring⟩ := (hid j).2 hj
      exact ⟨firing, hgrown.firings _ _ hfiring⟩

/-! ## Losing tokens -/

theorem Recedes.added_mem_iff {e₁ : Engine MemoryGraph} (hrecedes : e₁.Recedes e') (u : Triple) :
    Event.added u ∈ e'.events ↔ Event.added u ∈ e₁.events := by
  obtain ⟨ts, hevents, _⟩ := hrecedes.announces
  rw [hevents, List.mem_append]
  constructor
  · rintro (hmem | hmem)
    · exact hmem
    · obtain ⟨_, _, hcontra⟩ := List.mem_map.1 hmem
      cases hcontra
  · exact Or.inl

/-- A firing that is left when tokens are gone has matched what it had. -/
theorem firing?_cleared {rule : Nat} {c : CompiledRule} (he : e.Stocked)
    (hc : e.network.rule? rule = some c) {t : Triple} {a : Activation} {firing : Firing}
    (ha : (e.cleared rule t).firing? a = some firing) :
    e.firing? a = some firing ∧ (e.cleared rule t).matchedBy a = e.matchedBy a := by
  have hmemory := memory_cleared (he.lt_length hc) t a.rule
  unfold firing? at ha ⊢
  unfold matchedBy
  rw [hmemory] at ha ⊢
  by_cases hrule : rule = a.rule
  · subst hrule
    rw [if_pos rfl] at ha ⊢
    have hstock := he.2 a.rule
    have hcleared := hstock.cleared_removeHolding t
    obtain ⟨hholds, hfiring⟩ := hcleared.not_holds_of_firing ha
    exact ⟨hfiring, hcleared.triples_eq hstock.rooted hholds⟩
  · rw [if_neg hrule] at ha ⊢
    exact ⟨ha, rfl⟩

/-- What a place spells when tokens are gone, it spelled before, and the triple that has
gone is not in it. -/
theorem spells_cleared {rule : Nat} {c : CompiledRule} (he : e.Stocked)
    (hc : e.network.rule? rule = some c) {t : Triple} {r : Nat} {place : Option TokenId}
    {ts : List Triple} (h : ((e.cleared rule t).memory r).Spells place ts) :
    (e.memory r).Spells place ts ∧ (rule = r → ts.any (· == t) = false) := by
  rw [memory_cleared (he.lt_length hc)] at h
  by_cases hrule : rule = r
  · subst hrule
    rw [if_pos rfl] at h
    have hstock := he.2 rule
    have hcleared := hstock.cleared_removeHolding t
    cases place with
    | none =>
        cases h
        exact ⟨.root, fun _ => rfl⟩
    | some id =>
        obtain ⟨hspells, hfree⟩ := hcleared.spells_iff.1 h
        exact ⟨hspells, fun _ => hfree⟩
  · rw [if_neg hrule] at h
    exact ⟨h, fun heq => absurd heq hrule⟩

/-- A token stays if it does not hold the triple that has gone. -/
theorem node?_cleared {rule : Nat} {c : CompiledRule} (he : e.Stocked)
    (hc : e.network.rule? rule = some c) {t : Triple} {r : Nat} {id : TokenId} {token : Token}
    (hid : (e.memory r).node? id = some token)
    (hfree : rule = r → ¬ (e.memory r).Holds id t) :
    ((e.cleared rule t).memory r).node? id = some token := by
  rw [memory_cleared (he.lt_length hc)]
  by_cases hrule : rule = r
  · subst hrule
    rw [if_pos rfl]
    have hstock := he.2 rule
    exact ((hstock.cleared_removeHolding t).node?_iff id token).2 ⟨hid, hfree rfl⟩
  · rw [if_neg hrule]
    exact hid

theorem node?_of_cleared {rule : Nat} {c : CompiledRule} (he : e.Stocked)
    (hc : e.network.rule? rule = some c) {t : Triple} {r : Nat} {id : TokenId} {token : Token}
    (hid : ((e.cleared rule t).memory r).node? id = some token) :
    (e.memory r).node? id = some token ∧ (rule = r → ¬ (e.memory r).Holds id t) := by
  rw [memory_cleared (he.lt_length hc)] at hid
  by_cases hrule : rule = r
  · subst hrule
    rw [if_pos rfl] at hid
    have hstock := he.2 rule
    obtain ⟨hnode, hfree⟩ := ((hstock.cleared_removeHolding t).node?_iff id token).1 hid
    exact ⟨hnode, fun _ => hfree⟩
  · rw [if_neg hrule] at hid
    exact ⟨hid, fun heq => absurd heq hrule⟩

theorem firing?_cleared_of_not_holds {rule : Nat} {c : CompiledRule} (he : e.Stocked)
    (hc : e.network.rule? rule = some c) {t : Triple} {a : Activation} {firing : Firing}
    (ha : e.firing? a = some firing) (hfree : rule = a.rule → ¬ (e.memory a.rule).Holds a.token t) :
    (e.cleared rule t).firing? a = some firing := by
  unfold firing? at ha ⊢
  rw [memory_cleared (he.lt_length hc)]
  by_cases hrule : rule = a.rule
  · subst hrule
    rw [if_pos rfl]
    have hstock := he.2 a.rule
    exact ((hstock.cleared_removeHolding t).firing_eq a.token (hfree rfl)).trans ha
  · rw [if_neg hrule]
    exact ha

/-- An engine stays thorough when it loses the tokens that hold a triple out of view. -/
theorem Thorough.survives (t : Triple) : Work.SurvivesLoss Thorough t := by
  intro e e' gone rule c hconsistent _ hc hunseen hrecedes _ _ he
  have hstocked := hconsistent.stocked
  have hmemory : ∀ r, e'.memory r = (e.cleared rule t).memory r := hrecedes.memory_eq
  have hnetwork : e'.network = e.network := hrecedes.network_eq
  have hsees : ∀ u, e'.view.sees u = true → e.view.sees u = true := fun u hu => hrecedes.sees hu
  have hfiring : ∀ a, e'.firing? a = (e.cleared rule t).firing? a := by
    intro a
    unfold firing?
    rw [hmemory]
  constructor
  case joined =>
    intro r place u ⟨d, ts, b, p, b', hd, hts, hmatches, hp, hseen, hmatch⟩
    rw [hmemory] at hts
    rw [hnetwork] at hd
    obtain ⟨hspells, hfree⟩ := spells_cleared hstocked hc hts
    have hseen' := hsees u hseen
    rcases he.joined r place u ⟨d, ts, b, p, b', hd, hspells, hmatches, hp, hseen', hmatch⟩ with
      ⟨id, hid⟩ | ⟨w, hw, hsame⟩
    · -- The token that extends the place by what is in view does not hold what is not.
      obtain ⟨token, hnode, hparent, hsame⟩ := ((hstocked.2 r).indexed.edge_iff place u id).1 hid
      have hne : (token.triple == t) = false := by
        rw [Bool.eq_false_iff]
        intro hcontra
        rw [← e.view.sees_congr (BEq.trans (BEq.symm hsame) hcontra), hseen'] at hunseen
        cases hunseen
      have hnode' : (e'.memory r).node? id = some token := by
        rw [hmemory]
        refine node?_cleared hstocked hc hnode fun hrule ⟨us, hus, hheld⟩ => ?_
        have hown : (e.memory r).Spells (some id) (ts ++ [token.triple]) :=
          .child hnode (hparent ▸ hspells)
        rw [hus.unique hown, List.any_append, hfree hrule] at hheld
        simp [hne] at hheld
      have hindexed : (e'.memory r).Indexed := by
        rw [hmemory]
        exact ((hstocked.cleared hc t).2 r).indexed
      exact Or.inl ⟨id, (hindexed.edge_iff place u id).2 ⟨token, hnode', hparent, hsame⟩⟩
    · exact Or.inr ⟨w, (hrecedes.added_mem_iff w).2 hw, hsame⟩
  case ready =>
    intro r d id token hd hid hlevel
    rw [hnetwork] at hd
    rw [hmemory] at hid ⊢
    obtain ⟨hnode, hfree⟩ := node?_of_cleared hstocked hc hid
    obtain ⟨firing, hold⟩ := he.ready r d id token hd hnode hlevel
    exact ⟨firing, firing?_cleared_of_not_holds (a := ⟨r, id⟩) hstocked hc hold hfree⟩
  case unconditional =>
    intro r d hd hpatterns
    rw [hnetwork] at hd
    obtain ⟨id, hid⟩ := he.unconditional r d hd hpatterns
    refine ⟨id, fun j => Iff.trans ⟨?_, ?_⟩ (hid j)⟩
    · rintro ⟨firing, hj⟩
      rw [hfiring] at hj
      exact ⟨firing, (firing?_cleared hstocked hc hj).1⟩
    · rintro ⟨firing, hj⟩
      refine ⟨firing, ?_⟩
      rw [hfiring]
      refine firing?_cleared_of_not_holds hstocked hc hj fun _ ⟨ts, hts, _⟩ => ?_
      obtain ⟨token, _, hnode, _, _⟩ := hts.exists_token
      rw [hstocked.node?_of_no_patterns hd hpatterns] at hnode
      cases hnode

/-! ## Steps -/

theorem Purges.sees {ts : List Triple} (h : e.Purges e' ts) {u : Triple}
    (hu : e'.view.sees u = true) : e.view.sees u = true := by
  unfold View.sees view at hu ⊢
  rw [h.base_eq, h.deductions_eq, ← Bool.and_or_distrib_right, Bool.and_eq_true] at hu
  exact hu.1

theorem Thorough.fired (he : e.Thorough) (hconsistent : e.Consistent nothingGone)
    (hevents : e.events = []) {a : Activation} {agenda : List Activation}
    (hfired : Fired { e with agenda, state := .firing } a e') : e'.Thorough := by
  have hnone : ∀ u, Event.added u ∉ e.events := by
    intro u hu
    rw [hevents] at hu
    cases hu
  cases hfired with
  | stale =>
      exact he.recast (sameMatches_of_memories_eq rfl rfl) (fun u hu => Or.inl hu)
        fun u hu _ => hu
  | blocked ha hc _ _ heq =>
      have hreplaces : e.Replaces e' a .blocked := by
        rw [heq]
        exact ⟨rfl, rfl⟩
      refine he.recast (hreplaces.sameMatches (hconsistent.stocked.lt_length hc) ha)
        (fun u hu => Or.inl ?_) fun u hu => absurd hu (hnone u)
      rw [heq] at hu
      exact hu
  | @drawn c b st conclusions e₀ e₁ e' ha hc _ _ hnoted hadopts hpurges =>
      have hview : e₀.view = e.view := by
        rw [hnoted]
        rfl
      have hreplaces : e.Replaces e' a (.fired conclusions st.effects.hidden c.destructive) := by
        refine ⟨?_, ?_⟩
        · rw [hpurges.frame, hadopts.frame, hnoted]
          rfl
        · rw [hpurges.frame, hadopts.frame, hnoted]
          rfl
      refine he.recast (hreplaces.sameMatches (hconsistent.stocked.lt_length hc) ha)
        (fun u hu => ?_) fun u hu => absurd hu (hnone u)
      cases hbefore : e.view.sees u with
      | true => exact Or.inl rfl
      | false =>
          obtain ⟨ts, hnews, _, hcovers⟩ := hadopts.announces
          obtain ⟨vs, hgone, _⟩ := hpurges.announces
          obtain ⟨t, ht, hsame⟩ := List.any_eq_true.1
            (hcovers u (hpurges.sees hu) (by rw [hview]; exact hbefore))
          refine Or.inr ⟨t, ?_, hsame⟩
          rw [hgone, hnews]
          exact List.mem_append_left _ (List.mem_append_right _ (List.mem_map_of_mem ht))

theorem Thorough.reviewed (he : e.Thorough) (hsound : e.deductions.Sound) {t : Triple}
    {suspects : OrderedSet Triple} (hreviewed : Reviewed { e with suspects } e' t) :
    e'.Thorough := by
  rcases hreviewed with ⟨heq, _⟩ | ⟨heq, _⟩
  · rw [heq]
    exact he.recast (sameMatches_of_memories_eq rfl rfl) (fun u hu => Or.inl hu) fun u hu _ => hu
  · have hrecedes := recedes_withdrawn (e := { e with suspects }) hsound t
    rw [heq]
    refine he.recast (sameMatches_of_memories_eq rfl rfl)
      (fun u hu => Or.inl (hrecedes.sees hu)) fun u hu _ => ?_
    exact (hrecedes.added_mem_iff u).2 hu

theorem Thorough.reconsidered (he : e.Thorough) (hconsistent : e.Consistent nothingGone)
    {a : Activation} {c : CompiledRule} {firing : Firing} {fired answer : Bool}
    (hc : e.network.rule? a.rule = some c) (ha : e.firing? a = some firing)
    (hreconsidered : e.Reconsidered c a fired answer e') : e'.Thorough := by
  have hlt := hconsistent.stocked.lt_length hc
  cases hreconsidered with
  | same _ _ heq =>
      rw [heq]
      exact he.recast (sameMatches_of_memories_eq rfl rfl) (fun u hu => Or.inl hu)
        fun u hu _ => hu
  | @taken e₁ _ _ hblocked hrecedes _ _ =>
      have hreplaces : e.Replaces e' a .blocked := by
        refine ⟨?_, ?_⟩
        · rw [hrecedes.network_eq, hblocked]
          rfl
        · rw [hrecedes.memories_eq, hblocked]
      refine he.recast (hreplaces.sameMatches hlt ha) (fun u hu => Or.inl ?_) fun u hu _ => ?_
      · have hview : e₁.view = e.view := by
          rw [hblocked]
          rfl
        exact hview ▸ hrecedes.sees hu
      · rw [hrecedes.added_mem_iff, hblocked]
        exact hu
  | again _ heq =>
      have hreplaces : e.Replaces e' a .pending := by
        rw [heq]
        exact ⟨rfl, rfl⟩
      refine he.recast (hreplaces.sameMatches hlt ha) (fun u hu => Or.inl ?_) fun u hu _ => ?_
      · rw [heq] at hu
        exact hu
      · rw [heq]
        exact hu

theorem Thorough.reasked (he : e.Thorough) (hconsistent : e.Consistent nothingGone)
    (hbacked : e.Backed) {asked : List Activation} {changed : Bool}
    (h : e.Reasked asked changed e') : e'.Thorough := by
  induction h with
  | none => exact he
  | next hreasked hc _ hfiring _ hreconsidered ih =>
      obtain ⟨hconsistent₁, _⟩ := hreasked.sound hconsistent hbacked
      exact ih.reconsidered hconsistent₁ hc hfiring hreconsidered

/-- An event may be forgotten that is no news of anything in view. -/
theorem Thorough.next_event (he : e.Thorough) {event : Event} {events : List Event}
    (hevents : e.events = event :: events)
    (hunseen : ∀ t, event = .added t → e.view.sees t = false) {state : EngineState}
    {stats : EngineStats} : Thorough { e with events, state, stats } := by
  refine he.recast (sameMatches_of_memories_eq rfl rfl) (fun u hu => Or.inl hu) fun u hu hseen => ?_
  rw [hevents] at hu
  rcases List.mem_cons.1 hu with hu | hu
  · have hgone := hunseen u hu.symm
    rw [show e.view.sees u = true from hseen] at hgone
    cases hgone
  · exact hu

/-- A piece of work leaves a thorough engine thorough. -/
theorem Thorough.stepped (he : e.Thorough) (hsteady : e.Steady) (hovert : e.network.Overt)
    {rechecks : Nat} {answer : Option Nat} (h : e.Stepped rechecks answer e') : e'.Thorough := by
  have hconsistent := hsteady.consistent
  have hkept : ∀ (stats : EngineStats) (world : World), Thorough { e with stats, world } :=
    fun _ _ => he.recast (sameMatches_of_memories_eq rfl rfl) (fun u hu => Or.inl hu)
      fun u hu _ => hu
  cases h with
  | late hevents hunseen =>
      refine he.next_event hevents fun t ht => ?_
      cases ht
      exact hunseen
  | entered hevents henters => exact he.enters hconsistent hovert hevents henters
  | back hevents _ => exact he.next_event hevents fun t ht => nomatch ht
  | left hevents _ hforgets _ _ =>
      exact hforgets.survives (Thorough.survives _) (he.next_event hevents fun t ht => nomatch ht)
  | fired hevents _ hfired => exact he.fired hconsistent hevents hfired
  | reviewed _ _ _ hreviewed => exact he.reviewed hconsistent.deductions hreviewed
  | settled => exact he
  | @changed stats _ _ _ _ hreasked =>
      have hsteady₀ : Steady { e with stats } := hsteady.of_agree rfl
      exact (hkept stats e.world).reasked hsteady₀.consistent hsteady₀.backed hreasked
  | upheld => exact hkept _ _

/-! ## Requests -/

/-- An engine that starts over has everything still to do. -/
theorem Restarts.thorough (h : e.Restarts e') : e'.Thorough where
  joined := by
    intro r place u ⟨_, _, _, _, _, _, _, _, _, hseen, _⟩
    have hview : e'.view.sees u = (e'.base.contains u || e'.deductions.contains u) := rfl
    rw [hview, h.base_eq, h.deductions_eq, MemoryGraph.contains_empty, Bool.or_false] at hseen
    obtain ⟨t, ht, hsame⟩ := h.announces u hseen
    exact Or.inr ⟨t, ht, hsame⟩
  ready := by
    intro r c id token _ hid
    rw [h.nodes] at hid
    cases hid
  unconditional := h.unconditional

theorem Thorough.expanded (he : e.Thorough) (hbase : e.base.Sound) {t : Triple}
    (ht : t.isGround = true) : (e.expanded t).Thorough := by
  refine he.recast (sameMatches_of_memories_eq rfl rfl) (fun u hu => ?_) fun u hu _ => ?_
  · have hsees : (e.expanded t).view.sees u = (e.view.sees u || t == u) := by
      change ((e.base.plus t).contains u || e.deductions.contains u) =
        (e.base.contains u || e.deductions.contains u || t == u)
      rw [hbase.contains_plus ht, Bool.or_right_comm]
    rw [hsees, Bool.or_eq_true] at hu
    rcases hu with hu | hu
    · exact Or.inl hu
    · by_cases hseen : e.view.sees t = true
      · exact Or.inl (e.view.sees_congr hu ▸ hseen)
      · refine Or.inr ⟨t, ?_, hu⟩
        unfold Engine.expanded
        rw [if_neg hseen]
        exact List.mem_append_right _ (List.mem_singleton.2 rfl)
  · unfold Engine.expanded
    dsimp only
    split
    · exact hu
    · exact List.mem_append_left _ hu

theorem Thorough.reduced (he : e.Thorough) (hbase : e.base.Sound) (hsound : e.deductions.Sound)
    (t : Triple) : (e.reduced t).Thorough := by
  have hkept : ∀ {deductions : MemoryGraph} {events : List Event} {suspects : OrderedSet Triple}
      {committed : OrderedSet Triple},
      (∀ u, deductions.contains u = true → e.deductions.contains u = true) →
      (∀ event ∈ e.events, event ∈ events) →
      Thorough { e with base := e.base.minus t, deductions, events, suspects, committed } := by
    intro deductions events suspects committed hdeductions hevents
    refine he.recast (sameMatches_of_memories_eq rfl rfl) (fun u hu => Or.inl ?_)
      fun u hu _ => hevents _ hu
    change ((e.base.minus t).contains u || deductions.contains u) = true at hu
    change (e.base.contains u || e.deductions.contains u) = true
    rw [hbase.contains_minus, Bool.or_eq_true, Bool.and_eq_true] at hu
    rw [Bool.or_eq_true]
    exact hu.imp And.left (hdeductions u)
  have hminus : ∀ u, (e.deductions.minus t).contains u = true →
      e.deductions.contains u = true := by
    intro u hu
    rw [hsound.contains_minus, Bool.and_eq_true] at hu
    exact hu.1
  unfold Engine.reduced
  split
  · split
    · exact hkept (fun _ hu => hu) fun _ h => h
    · exact hkept (fun _ hu => hu) fun _ h => List.mem_append_left _ h
  · split
    · exact hkept hminus fun _ h => List.mem_append_left _ h
    · exact hkept hminus fun _ h => h

theorem Thorough.queue (he : e.Thorough) (event : Event) : (e.queue event).Thorough :=
  he.recast (sameMatches_of_memories_eq rfl rfl) (fun _ hu => Or.inl hu)
    fun _ hu _ => List.mem_append_left _ hu

end Engine

end Entailment
