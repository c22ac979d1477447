import Entailment.Proofs.Forward.Consistency
import Entailment.Proofs.Matching.Resolution

/-!
# Extending partial matches

Matching only adds: new tokens for triples in view, and new activations that wait on
the agenda.  It is thorough as well.  A fact that the next pattern of a token can be
matched with either extends the token already, or it is among the matches still to be
stored, or it waits for its turn as an event.
-/

namespace Entailment

namespace Engine

/-- Every complete token has a firing, if only one that waits. -/
def Ready {γ : Type} (e : Engine γ) : Prop :=
  ∀ r c id token, e.network.rule? r = some c → (e.memory r).node? id = some token →
    token.level + 1 = c.levels → ∃ firing, (e.memory r).firings.get? id = some firing

/-- Tokens and activations have been added, and nothing else has changed. -/
structure Extends (e e' : Engine MemoryGraph) : Prop where
  frame : e' = { e with
    memories := e'.memories
    nextToken := e'.nextToken
    agenda := e'.agenda }
  next : e.nextToken ≤ e'.nextToken
  stocked : e'.Stocked
  nodes : ∀ r id token, (e.memory r).node? id = some token → (e'.memory r).node? id = some token
  fresh : ∀ r id token, (e'.memory r).node? id = some token →
    (e.memory r).node? id = some token ∨
      e.view.sees token.triple = true ∧ e.nextToken ≤ id
  firings : ∀ a firing, e.firing? a = some firing → e'.firing? a = some firing
  scheduled : ∀ a firing, e'.firing? a = some firing → e.firing? a = some firing ∨
    firing = .pending ∧ a ∈ e'.agenda ∧ e.nextToken ≤ a.token ∧
      ∃ token, (e'.memory a.rule).node? a.token = some token
  agenda : ∀ a ∈ e.agenda, a ∈ e'.agenda
  ready : e.Ready → e'.Ready
  filled : ∀ id, e.nextToken ≤ id → id < e'.nextToken →
    ∃ r token, (e'.memory r).node? id = some token
  paid : e'.agenda.length + e.nextToken ≤ e.agenda.length + e'.nextToken

namespace Extends

variable {e e' e'' : Engine MemoryGraph}

theorem refl (he : e.Stocked) : e.Extends e where
  frame := rfl
  next := Nat.le_refl _
  stocked := he
  nodes _ _ _ h := h
  fresh _ _ _ h := Or.inl h
  firings _ _ h := h
  scheduled _ _ h := Or.inl h
  agenda _ h := h
  ready h := h
  filled _ hle hlt := absurd hlt (Nat.not_lt_of_le hle)
  paid := Nat.le_refl _

theorem network_eq (h : e.Extends e') : e'.network = e.network := by rw [h.frame]

theorem base_eq (h : e.Extends e') : e'.base = e.base := by rw [h.frame]

theorem view_eq (h : e.Extends e') : e'.view = e.view := by rw [h.frame]; rfl

theorem supporters_eq (h : e.Extends e') (t : Triple) : e'.supporters t = e.supporters t := by
  rw [h.frame]
  rfl

theorem trans (h : e.Extends e') (k : e'.Extends e'') : e.Extends e'' where
  frame := by rw [k.frame, h.frame]
  next := Nat.le_trans h.next k.next
  stocked := k.stocked
  nodes r id token hid := k.nodes r id token (h.nodes r id token hid)
  fresh r id token hid := by
    rcases k.fresh r id token hid with hid | ⟨hseen, hid⟩
    · exact h.fresh r id token hid
    · rw [h.view_eq] at hseen
      exact Or.inr ⟨hseen, Nat.le_trans h.next hid⟩
  firings a firing ha := k.firings a firing (h.firings a firing ha)
  scheduled a firing ha := by
    rcases k.scheduled a firing ha with ha | ⟨hpending, hagenda, hle, hnode⟩
    · rcases h.scheduled a firing ha with ha | ⟨hpending, hagenda, hle, token, hnode⟩
      · exact Or.inl ha
      · exact Or.inr ⟨hpending, k.agenda a hagenda, hle, token, k.nodes _ _ _ hnode⟩
    · exact Or.inr ⟨hpending, hagenda, Nat.le_trans h.next hle, hnode⟩
  agenda a ha := k.agenda a (h.agenda a ha)
  ready hr := k.ready (h.ready hr)
  filled id hle hlt := by
    by_cases hmid : id < e'.nextToken
    · obtain ⟨r, token, hid⟩ := h.filled id hle hmid
      exact ⟨r, token, k.nodes r id token hid⟩
    · exact k.filled id (Nat.le_of_not_lt hmid) hlt
  paid := by
    have hfirst := h.paid
    have hsecond := k.paid
    omega

/-- The tokens that were there spell what they spelled. -/
theorem spells (h : e.Extends e') {r : Nat} {place : Option TokenId} {ts : List Triple}
    (hts : (e.memory r).Spells place ts) : (e'.memory r).Spells place ts :=
  hts.mono (h.nodes r)

theorem matchedBy_eq (h : e.Extends e') (he : e.Stocked) {a : Activation}
    (ha : a.token < e.nextToken) : e'.matchedBy a = e.matchedBy a := by
  rw [matchedBy, matchedBy]
  cases hid : (e.memory a.rule).node? a.token with
  | some token =>
      obtain ⟨ts, hts⟩ := (he.2 a.rule).rooted.exists_spells hid
      rw [hts.triples_eq,
        (h.spells hts).triples_eq]
  | none =>
      have hnone : (e'.memory a.rule).node? a.token = none := by
        cases hid' : (e'.memory a.rule).node? a.token with
        | none => rfl
        | some token =>
            rcases h.fresh a.rule a.token token hid' with hold | ⟨_, hle⟩
            · rw [hold] at hid
              cases hid
            · exact absurd ha (Nat.not_lt_of_le hle)
      rw [TokenMemory.triples_of_none hid, TokenMemory.triples_of_none hnone]

theorem fires_iff (h : e.Extends e') (a : Activation) (t : Triple) :
    e'.Fires a t ↔ e.Fires a t := by
  constructor
  · rintro ⟨firing, ha, hconcludes⟩
    rcases h.scheduled a firing ha with ha | ⟨rfl, _⟩
    · exact ⟨firing, ha, hconcludes⟩
    · obtain ⟨_, _, hfired, _⟩ := hconcludes
      cases hfired
  · rintro ⟨firing, ha, hconcludes⟩
    exact ⟨firing, h.firings a firing ha, hconcludes⟩

theorem backed (h : e.Extends e') (hbacked : e.Backed) : e'.Backed := by
  intro t a
  rw [h.supporters_eq, h.fires_iff]
  exact hbacked t a

theorem consistent (h : e.Extends e') (hbacked : e.Backed) {gone : Nat → Triple → Prop}
    (he : e.Consistent gone) : e'.Consistent gone where
  wired := by rw [h.network_eq]; exact he.wired
  plain := by rw [h.network_eq]; exact he.plain
  base := by rw [h.frame]; exact he.base
  deductions := by rw [h.frame]; exact he.deductions
  stocked := h.stocked
  covered r id token hid := by
    rw [h.view_eq]
    have hannounced : e.Announced token.triple → e'.Announced token.triple := by
      rw [h.frame]
      exact fun h => h
    rcases h.fresh r id token hid with hold | ⟨hseen, _⟩
    · rcases he.covered r id token hold with hseen | hpending | hgone
      · exact Or.inl hseen
      · exact Or.inr (Or.inl (hannounced hpending))
      · exact Or.inr (Or.inr hgone)
    · exact Or.inl hseen
  accounted t := by
    have hexcused : ∀ u, e.Excused u → e'.Excused u := by
      rw [h.frame]
      exact fun _ h => h
    refine (he.accounted t).transfer (fun u hu => .given (hexcused u hu)) ?_
    rintro ts u ⟨a, ha, rfl⟩
    have hlt : a.token < e.nextToken := by
      obtain ⟨firing, hfiring, _⟩ := (hbacked u a).1 ha
      exact (he.stocked.2 a.rule).firing_lt a.token firing hfiring
    refine Or.inr ⟨_, ⟨a, ?_, rfl⟩, ?_⟩
    · rw [h.supporters_eq]
      exact ha
    · rw [h.matchedBy_eq he.stocked hlt]
      exact fun m hm => hm

end Extends

/-! ## What is still to be joined -/

/-- A fact in view can be matched with the pattern that follows a token, or with the
first pattern where there is no token. -/
def Demands (e : Engine MemoryGraph) (r : Nat) (place : Option TokenId) (u : Triple) : Prop :=
  ∃ c ts b p b', e.network.rule? r = some c ∧ (e.memory r).Spells place ts ∧ c.Matches ts b ∧
    c.patterns[ts.length]? = some p ∧ e.view.sees u = true ∧ b.matching? p.2 u = some b'

/-- The token is extended by the fact. -/
def Extended (e : Engine MemoryGraph) (r : Nat) (place : Option TokenId) (u : Triple) : Prop :=
  ∃ id, (e.memory r).edges.get? (place, u) = some id

/-- Every extension there can be is there, or is expected. -/
def Joined (e : Engine MemoryGraph) (expected : Nat → Option TokenId → Triple → Prop) : Prop :=
  ∀ r place u, e.Demands r place u → e.Extended r place u ∨ expected r place u

theorem Joined.weaken {e : Engine MemoryGraph}
    {expected expected' : Nat → Option TokenId → Triple → Prop} (h : e.Joined expected)
    (himp : ∀ r place u, e.Demands r place u → expected r place u →
      e.Extended r place u ∨ expected' r place u) : e.Joined expected' := by
  intro r place u hu
  rcases h r place u hu with hdone | hexpected
  · exact Or.inl hdone
  · exact himp r place u hu hexpected

theorem Extended.congr {e : Engine MemoryGraph} {r : Nat} {place : Option TokenId}
    {t u : Triple} (h : e.Extended r place t) (hsame : (t == u) = true) :
    e.Extended r place u := by
  obtain ⟨id, hid⟩ := h
  refine ⟨id, ?_⟩
  have hkey : ((place, t) == (place, u)) = true := by
    rw [pair_beq, hsame, BEq.rfl]
    rfl
  rw [← (e.memory r).edges.get?_congr hkey]
  exact hid

theorem Extends.extended {e e' : Engine MemoryGraph} (h : e.Extends e') (he : e.Stocked)
    {r : Nat} {place : Option TokenId} {u : Triple} (hu : e.Extended r place u) :
    e'.Extended r place u := by
  obtain ⟨id, hid⟩ := hu
  obtain ⟨token, htoken, hrest⟩ := ((he.2 r).indexed.edge_iff place u id).1 hid
  exact ⟨id, ((h.stocked.2 r).indexed.edge_iff place u id).2
    ⟨token, h.nodes r id token htoken, hrest⟩⟩

/-! ## Storing one match -/

section Storing

variable {e : Engine MemoryGraph} {r : Nat} {c : CompiledRule}

/-- The engine with a new token in one memory, and perhaps its activation. -/
def storing (e : Engine MemoryGraph) (r : Nat) (m : TokenMemory) (agenda : List Activation) :
    Engine MemoryGraph :=
  { e.setMemory r m with nextToken := e.nextToken + 1, agenda }

/-- The memory has one token more, which has the number that comes next. -/
structure Gains (e : Engine MemoryGraph) (r : Nat) (token : Token) (m : TokenMemory) : Prop where
  stock : m.Stock e.network r (e.nextToken + 1)
  node?_eq : ∀ j, m.node? j = if e.nextToken = j then some token else (e.memory r).node? j
  firings_eq : ∀ j, e.nextToken ≠ j → m.firings.get? j = (e.memory r).firings.get? j

theorem memory_storing (he : e.Stocked) (hc : e.network.rule? r = some c) (m : TokenMemory)
    (agenda : List Activation) (j : Nat) :
    (e.storing r m agenda).memory j = if r = j then m else e.memory j :=
  memory_setMemory m (he.lt_length hc) j

theorem Gains.extends {token : Token} {m : TokenMemory} {agenda : List Activation}
    (hm : e.Gains r token m) (he : e.Stocked) (hc : e.network.rule? r = some c)
    (hseen : e.view.sees token.triple = true) (hagenda : ∀ a ∈ e.agenda, a ∈ agenda)
    (hfiring : ∀ firing, m.firings.get? e.nextToken = some firing →
      firing = .pending ∧ (⟨r, e.nextToken⟩ : Activation) ∈ agenda)
    (hready : token.level + 1 = c.levels → ∃ firing, m.firings.get? e.nextToken = some firing)
    (hpaid : agenda.length ≤ e.agenda.length + 1) : e.Extends (e.storing r m agenda) := by
  have hmemory := memory_storing he hc m agenda
  have hfresh : ∀ firing, (e.memory r).firings.get? e.nextToken ≠ some firing := by
    intro firing hid
    exact absurd ((he.2 r).firing_lt _ _ hid) (Nat.lt_irrefl _)
  refine ⟨rfl, Nat.le_succ _, ?_, ?_, ?_, ?_, ?_, hagenda, ?_, ?_, ?_⟩
  · exact he.setMemory (he.lt_length hc) (Nat.le_succ _) hm.stock
  · intro j id found hid
    rw [hmemory]
    split
    · rename_i hr
      subst hr
      rw [hm.node?_eq, if_neg]
      · exact hid
      · intro hsame
        exact absurd ((he.2 r).token_lt id found hid) (hsame ▸ Nat.lt_irrefl _)
    · exact hid
  · intro j id found hid
    rw [hmemory] at hid
    split at hid
    · rename_i hr
      subst hr
      rw [hm.node?_eq] at hid
      split at hid
      · rename_i hsame
        obtain rfl := Option.some.inj hid
        exact Or.inr ⟨hseen, Nat.le_of_eq hsame⟩
      · exact Or.inl hid
    · exact Or.inl hid
  · intro a firing ha
    rw [firing?, hmemory]
    split
    · rename_i hr
      rw [hm.firings_eq]
      · rw [hr]
        exact ha
      · intro hsame
        apply hfresh firing
        rw [hsame, hr]
        exact ha
    · exact ha
  · intro a firing ha
    rw [firing?, hmemory] at ha
    split at ha
    · rename_i hr
      by_cases hsame : e.nextToken = a.token
      · rw [← hsame] at ha
        obtain ⟨hpending, hmem⟩ := hfiring firing ha
        refine Or.inr ⟨hpending, ?_, Nat.le_of_eq hsame, token, ?_⟩
        · rw [hr, hsame] at hmem
          exact hmem
        · rw [hmemory, if_pos hr, hm.node?_eq, if_pos hsame]
      · rw [hm.firings_eq a.token hsame, hr] at ha
        exact Or.inl ha
    · exact Or.inl ha
  · intro hr j c' id found hc' hid hlevel
    rw [hmemory] at hid ⊢
    split at hid
    · rename_i hj
      rw [if_pos hj]
      subst hj
      rw [hm.node?_eq] at hid
      split at hid
      · rename_i hsame
        obtain rfl := Option.some.inj hid
        change e.network.rule? r = some c' at hc'
        rw [hc] at hc'
        obtain rfl := Option.some.inj hc'
        rw [← hsame]
        exact hready hlevel
      · rename_i hsame
        rw [hm.firings_eq id hsame]
        exact hr r c' id found hc' hid hlevel
    · rename_i hj
      rw [if_neg hj]
      exact hr j c' id found hc' hid hlevel
  · intro id hle hlt
    have hsame : e.nextToken = id := Nat.le_antisymm hle (Nat.lt_succ_iff.1 hlt)
    exact ⟨r, token, by rw [hmemory, if_pos rfl, hm.node?_eq, if_pos hsame]⟩
  · change agenda.length + e.nextToken ≤ e.agenda.length + (e.nextToken + 1)
    omega

/-- A place other than the new token spells what it spelled before. -/
theorem Gains.spells_old {token : Token} {m : TokenMemory} (hm : e.Gains r token m)
    (he : e.Stocked) {place : Option TokenId} {ts : List Triple} (hts : m.Spells place ts)
    (hplace : place ≠ some e.nextToken) : (e.memory r).Spells place ts := by
  have hfresh : ∀ found, (e.memory r).node? e.nextToken ≠ some found := by
    intro found hid
    exact absurd ((he.2 r).token_lt _ _ hid) (Nat.lt_irrefl _)
  induction hts with
  | root => exact .root
  | @child id found ts hid hbelow ih =>
      have hne : e.nextToken ≠ id := fun hsame => hplace (congrArg some hsame.symm)
      rw [hm.node?_eq, if_neg hne] at hid
      refine .child hid (ih ?_)
      intro hparent
      obtain ⟨below, hp, _⟩ := (he.2 r).rooted.next id found e.nextToken hid hparent
      exact hfresh below hp

/-- Storing a match meets the demand for it, and raises demands on the new token only. -/
theorem Gains.joined {token : Token} {m : TokenMemory} {agenda : List Activation}
    (hm : e.Gains r token m) (he : e.Stocked) (hc : e.network.rule? r = some c)
    (hextends : e.Extends (e.storing r m agenda))
    {expected : Nat → Option TokenId → Triple → Prop}
    (hjoined : e.Joined fun j place u =>
      expected j place u ∨ j = r ∧ token.parent = place ∧ (token.triple == u) = true) :
    (e.storing r m agenda).Joined fun j place u =>
      expected j place u ∨ j = r ∧ place = some e.nextToken := by
  have hmemory := memory_storing he hc m agenda
  rintro j place u ⟨c', ts, b, p, b', hc', hts, hmatches, hp, hseen, hmatch⟩
  by_cases hnew : j = r ∧ place = some e.nextToken
  · exact Or.inr (Or.inr hnew)
  · have hold : (e.memory j).Spells place ts := by
      rw [hmemory] at hts
      split at hts
      · rename_i hj
        subst hj
        exact hm.spells_old he hts fun hplace => hnew ⟨rfl, hplace⟩
      · exact hts
    rcases hjoined j place u ⟨c', ts, b, p, b', hc', hold, hmatches, hp, hseen, hmatch⟩ with
      hdone | hexpected | ⟨rfl, hparent, hsame⟩
    · exact Or.inl (hextends.extended he hdone)
    · exact Or.inr (Or.inl hexpected)
    · left
      refine ⟨e.nextToken, ?_⟩
      rw [hmemory, if_pos rfl, hm.stock.indexed.edge_iff]
      exact ⟨token, by rw [hm.node?_eq, if_pos rfl], hparent, hsame⟩

end Storing

/-- A match of the list extends the token by the fact. -/
def Awaits (found : List PartialMatch) (r : Nat) (j : Nat) (place : Option TokenId)
    (u : Triple) : Prop :=
  j = r ∧ ∃ p ∈ found, p.parent = place ∧ (p.triple == u) = true

/-- The matches continue tokens of the rule's memory, by facts in view. -/
def Proper (e : Engine MemoryGraph) (r : Nat) (c : CompiledRule) (level : Nat)
    (found : List PartialMatch) : Prop :=
  ∀ p ∈ found, (e.memory r).Continues c level p ∧ e.view.sees p.triple = true

theorem Extends.proper {e e' : Engine MemoryGraph} (h : e.Extends e') {r : Nat}
    {c : CompiledRule} {level : Nat} {found : List PartialMatch}
    (hfound : e.Proper r c level found) : e'.Proper r c level found := by
  intro p hp
  obtain ⟨⟨⟨ts, hts, hrest⟩, hentered⟩, hseen⟩ := hfound p hp
  rw [h.view_eq]
  exact ⟨⟨⟨ts, h.spells hts, hrest⟩, hentered⟩, hseen⟩

end Engine

namespace Work

variable {e : Engine MemoryGraph} {r level : Nat} {c : CompiledRule} {p : PartialMatch}

theorem gains_of_insert (he : e.Stocked) (hc : e.network.rule? r = some c)
    (hp : (e.memory r).Continues c level p) {m : TokenMemory}
    (h : (e.memory r).insert e.nextToken (TokenMemory.tokenOf c level p) = some m) :
    e.Gains r (TokenMemory.tokenOf c level p) m ∧ m.firings = (e.memory r).firings := by
  obtain ⟨hins, hstock⟩ := (he.2 r).inserted hc hp h
  exact ⟨⟨hstock, hins.node?_eq, fun j _ => by rw [hins.firings_eq]⟩, hins.firings_eq⟩

/-- A match is stored under the next number, or its token is there already. -/
theorem ends_store (p : PartialMatch) :
    (store c ⟨r, level⟩ p).Ends e fun answer e' =>
      (answer = none ∧ e' = e ∧ e.Extended r p.parent p.triple) ∨
      (answer = some e.nextToken ∧ ∃ m,
        (e.memory r).insert e.nextToken (TokenMemory.tokenOf c level p) = some m ∧
        e' = e.storing r m e.agenda) := by
  unfold store
  simp only [ends_bind, ends_get]
  cases hinsert : (e.memory r).insert e.nextToken (TokenMemory.tokenOf c level p) with
  | none =>
      unfold TokenMemory.tokenOf at hinsert
      rw [hinsert, ends_pure]
      exact Or.inl ⟨rfl, rfl, TokenMemory.insert_eq_none_iff.1 hinsert⟩
  | some m =>
      unfold TokenMemory.tokenOf at hinsert
      rw [hinsert, ends_bind, ends_set, ends_pure]
      exact Or.inr ⟨rfl, m, rfl, rfl⟩

theorem joined_of_extended {expected : Nat → Option TokenId → Triple → Prop}
    {rest : List PartialMatch} (hdone : e.Extended r p.parent p.triple)
    (hjoined : e.Joined fun j place u => expected j place u ∨ Engine.Awaits (p :: rest) r j place u) :
    e.Joined fun j place u => expected j place u ∨ Engine.Awaits rest r j place u := by
  apply hjoined.weaken
  rintro j place u _ (hexpected | ⟨rfl, q, hq, hparent, hsame⟩)
  · exact Or.inr (Or.inl hexpected)
  · rcases List.mem_cons.1 hq with rfl | hq
    · rw [← hparent]
      exact Or.inl (hdone.congr hsame)
    · exact Or.inr (Or.inr ⟨rfl, q, hq, hparent, hsame⟩)

theorem split_awaits {expected : Nat → Option TokenId → Triple → Prop}
    {rest : List PartialMatch}
    (hjoined : e.Joined fun j place u => expected j place u ∨ Engine.Awaits (p :: rest) r j place u) :
    e.Joined fun j place u => (expected j place u ∨ Engine.Awaits rest r j place u) ∨
      j = r ∧ p.parent = place ∧ (p.triple == u) = true := by
  apply hjoined.weaken
  rintro j place u _ (hexpected | ⟨rfl, q, hq, hparent, hsame⟩)
  · exact Or.inr (Or.inl (Or.inl hexpected))
  · rcases List.mem_cons.1 hq with rfl | hq
    · exact Or.inr (Or.inr ⟨rfl, hparent, hsame⟩)
    · exact Or.inr (Or.inl (Or.inr ⟨rfl, q, hq, hparent, hsame⟩))

/-- A match of the last level becomes an activation. -/
theorem ends_complete (he : e.Stocked) (hc : e.network.rule? r = some c)
    (hp : (e.memory r).Continues c level p) (hseen : e.view.sees p.triple = true)
    (hlevel : level + 1 = c.levels) :
    (complete c ⟨r, level⟩ p).Ends e fun _ e' => e.Extends e' ∧
      ∀ (expected : Nat → Option TokenId → Triple → Prop) rest,
        (e.Joined fun j place u => expected j place u ∨ Engine.Awaits (p :: rest) r j place u) →
        e'.Joined fun j place u => expected j place u ∨ Engine.Awaits rest r j place u := by
  unfold complete
  refine (ends_store p).bind ?_
  rintro answer e₁ (⟨rfl, rfl, hdone⟩ | ⟨rfl, m, hinsert, rfl⟩)
  · rw [ends_pure]
    exact ⟨.refl he, fun expected rest hjoined => joined_of_extended hdone hjoined⟩
  · simp only [ends_modify]
    obtain ⟨hgains, hfirings⟩ := gains_of_insert he hc hp hinsert
    have hlt := he.lt_length hc
    have hschedule : (e.storing r m e.agenda).schedule ⟨r, e.nextToken⟩ =
        e.storing r (m.setFiring e.nextToken .pending) (e.agenda ++ [⟨r, e.nextToken⟩]) := by
      rw [Engine.schedule, Engine.setFiring, Engine.memory_storing he hc, if_pos rfl]
      simp [Engine.storing, Engine.setMemory, List.set_set]
    rw [hschedule]
    obtain ⟨ts, hts, hlength, hmatches⟩ := hp.spells
    have hnode : m.node? e.nextToken = some (TokenMemory.tokenOf c level p) := by
      rw [hgains.node?_eq, if_pos rfl]
    have hspells : m.Spells (some e.nextToken) (ts ++ [p.triple]) := by
      refine .child hnode ?_
      apply hts.mono
      intro id token hid
      rw [hgains.node?_eq, if_neg]
      · exact hid
      · intro hsame
        exact absurd ((he.2 r).token_lt id token hid) (hsame ▸ Nat.lt_irrefl _)
    have hgains' : e.Gains r (TokenMemory.tokenOf c level p) (m.setFiring e.nextToken .pending) := by
      refine ⟨hgains.stock.setFiring hc (Nat.lt_succ_self _) ?_ ?_, hgains.node?_eq, ?_⟩
      · rw [hspells.triples_eq]
        exact ⟨by rw [List.length_append, List.length_singleton, hlength, hlevel], _, hmatches⟩
      · intro conclusions hidden committed h
        cases h
      · intro j hj
        rw [TokenMemory.get?_firings_setFiring, if_neg hj, hfirings]
    have hpending : (m.setFiring e.nextToken .pending).firings.get? e.nextToken =
        some .pending := by
      rw [TokenMemory.get?_firings_setFiring, if_pos rfl]
    have hextends : e.Extends (e.storing r (m.setFiring e.nextToken .pending)
        (e.agenda ++ [⟨r, e.nextToken⟩])) := by
      apply hgains'.extends he hc hseen
      · exact fun a ha => List.mem_append_left _ ha
      · intro firing hfiring
        rw [hpending] at hfiring
        exact ⟨(Option.some.inj hfiring).symm, List.mem_append_right _ (List.mem_singleton.2 rfl)⟩
      · exact fun _ => ⟨_, hpending⟩
      · rw [List.length_append, List.length_singleton]
    refine ⟨hextends, fun expected rest hjoined => ?_⟩
    apply (hgains'.joined he hc hextends (split_awaits hjoined)).weaken
    rintro j place u ⟨c', us, b, q, b', hc', hus, _, hq, _⟩ (hexpected | ⟨rfl, rfl⟩)
    · exact Or.inr hexpected
    · -- Nothing follows the last level.
      change e.network.rule? j = some c' at hc'
      rw [hc] at hc'
      obtain rfl := Option.some.inj hc'
      rw [Engine.memory_storing he hc, if_pos rfl] at hus
      have hsame : us.length = level + 1 := hus.length_eq hgains'.stock.rooted hnode
      have hbound := (List.getElem?_eq_some_iff.1 hq).1
      rw [hsame, hlevel] at hbound
      exact absurd hbound (Nat.lt_irrefl _)

theorem mem_extensions {p x : PartialMatch} {id : TokenId} {next : Triple}
    {facts : List Triple} : x ∈ p.extensions id next facts ↔
      ∃ fact ∈ facts, ∃ b, p.bindings.matching? next fact = some b ∧ x = ⟨some id, fact, b⟩ := by
  rw [PartialMatch.extensions, List.mem_filterMap]
  simp only [Option.map_eq_some_iff]
  constructor
  · rintro ⟨fact, hfact, b, hb, rfl⟩
    exact ⟨fact, hfact, b, hb, rfl⟩
  · rintro ⟨fact, hfact, b, hb, rfl⟩
    exact ⟨fact, hfact, b, hb, rfl⟩

/-- A match before the last level is stored, and all that extend it are found. -/
theorem ends_extend (he : e.Stocked) (hview : e.view.Sound) (hc : e.network.rule? r = some c)
    (hp : (e.memory r).Continues c level p) (hseen : e.view.sees p.triple = true)
    {next : Nat × Triple} (hnext : c.patterns[level + 1]? = some next) :
    (extend c ⟨r, level⟩ next.2 p).Ends e fun xs e' => e.Extends e' ∧
      e'.Proper r c (level + 1) xs ∧
      ∀ (expected : Nat → Option TokenId → Triple → Prop) rest,
        (e.Joined fun j place u => expected j place u ∨ Engine.Awaits (p :: rest) r j place u) →
        e'.Joined fun j place u => (expected j place u ∨ Engine.Awaits rest r j place u) ∨
          Engine.Awaits xs r j place u := by
  unfold extend
  refine (ends_store p).bind ?_
  rintro answer e₁ (⟨rfl, rfl, hdone⟩ | ⟨rfl, m, hinsert, rfl⟩)
  · rw [ends_pure]
    refine ⟨.refl he, (fun x hx => nomatch hx), fun expected rest hjoined => ?_⟩
    apply (joined_of_extended hdone hjoined).weaken
    exact fun j place u _ h => Or.inr (Or.inl h)
  · simp only [ends_bind, ends_get]
    obtain ⟨hgains, hfirings⟩ := gains_of_insert he hc hp hinsert
    have hlevel : level + 1 < c.levels := (List.getElem?_eq_some_iff.1 hnext).1
    have hextends : e.Extends (e.storing r m e.agenda) := by
      have hnone : ∀ firing, m.firings.get? e.nextToken ≠ some firing := by
        intro firing hid
        rw [hfirings] at hid
        exact absurd ((he.2 r).firing_lt _ _ hid) (Nat.lt_irrefl _)
      apply hgains.extends he hc hseen (fun a ha => ha)
      · exact fun firing hfiring => absurd hfiring (hnone firing)
      · intro hlast
        change level + 1 = c.levels at hlast
        omega
      · exact Nat.le_succ _
    rw [View.find_eq, ends_access, ends_pure]
    obtain ⟨ts, hts, hlength, hmatches⟩ := hp.spells
    have hnode : m.node? e.nextToken = some (TokenMemory.tokenOf c level p) := by
      rw [hgains.node?_eq, if_pos rfl]
    have hmemory : (e.storing r m e.agenda).memory r = m := by
      rw [Engine.memory_storing he hc, if_pos rfl]
    have hspells : m.Spells (some e.nextToken) (ts ++ [p.triple]) := by
      have hbelow := hextends.spells hts
      rw [hmemory] at hbelow
      exact .child hnode hbelow
    have hfull : (ts ++ [p.triple]).length = level + 1 := by
      rw [List.length_append, List.length_singleton, hlength]
    refine ⟨hextends, ?_, fun expected rest hjoined => ?_⟩
    · intro x hx
      obtain ⟨fact, hfact, b, hmatch, rfl⟩ := mem_extensions.1 hx
      obtain ⟨hfactSeen, _⟩ := hview.mem_visible hfact
      rw [hmemory]
      refine ⟨⟨⟨_, hspells, hfull, ?_⟩, hp.entered⟩, hfactSeen⟩
      exact .next hmatches (by rw [hfull]; exact hnext) (hview.isGround hfactSeen) hmatch
    · apply (hgains.joined he hc hextends (split_awaits hjoined)).weaken
      rintro j place u ⟨c', us, b, q, b', hc', hus, hus', hq, huSeen, hmatch⟩
        (hexpected | ⟨rfl, rfl⟩)
      · exact Or.inr (Or.inl hexpected)
      · -- The fact is found by the partly completed pattern.
        change e.network.rule? j = some c' at hc'
        rw [hc] at hc'
        obtain rfl := Option.some.inj hc'
        rw [hmemory] at hus
        obtain rfl := hus.unique hspells
        obtain rfl := hus'.unique hmatches
        rw [hfull, hnext] at hq
        obtain rfl := Option.some.inj hq
        have hu : u.isGround = true := hview.isGround huSeen
        have hmatched := hmatches.matched hu hmatch
        obtain ⟨hadmits, hfits⟩ := (hmatched.admits_iff _).1 b'.admits_assignment
        obtain ⟨fact, hfact, hsame⟩ := hview.exists_mem_visible huSeen
          (hmatches.ground.accepts_partialInstantiate hadmits hfits)
        obtain ⟨b'', hb''⟩ := hmatches.ground.exists_matching?_congr hu (BEq.symm hsame) hmatch
        refine Or.inr (Or.inr ⟨rfl, ⟨some e.nextToken, fact, b''⟩, ?_, rfl, hsame⟩)
        exact mem_extensions.2 ⟨fact, hfact, b'', hb'', rfl⟩

end Work

end Entailment
