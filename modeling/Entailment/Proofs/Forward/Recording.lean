import Entailment.Proofs.Collection.Occurrence
import Entailment.Proofs.Derivation.Recording
import Entailment.Proofs.Forward.Prudence
import Entailment.Proofs.Forward.Tally

/-!
# What the log records

While derivations are recorded, the log has one for every firing that holds up a
conclusion, and it has no others, apart from those of conclusions that are committed.  A
derivation tells the rule and what it has matched, not who has drawn it: so this is the
case where no two activations have matched the same by equal rules.
-/

namespace Entailment

/-- No two rules of the network are equal. -/
def Network.Diverse (n : Network) : Prop :=
  ∀ r s c d, n.rule? r = some c → n.rule? s = some d → (c.rule == d.rule) = true → r = s

namespace Engine

variable {γ : Type} {n : Network} {told : Activation → List Triple} {alive : Activation → Prop}

theorem matchedBy_of_memories_eq {e e' : Engine γ} (h : e'.memories = e.memories)
    (a : Activation) : e'.matchedBy a = e.matchedBy a := by
  rw [matchedBy, matchedBy, memory, memory, h]

/-- Activations that are alive can be told from their derivations. -/
def Told (n : Network) (told : Activation → List Triple) (alive : Activation → Prop) : Prop :=
  ∀ a b c d t, alive a → alive b → n.rule? a.rule = some c → n.rule? b.rule = some d →
    (c.derivation (told a) t == d.derivation (told b) t) = true → a = b

/-- A supporter of the conclusion has drawn it by this derivation. -/
def Drawn (n : Network) (told : Activation → List Triple) (e : Engine γ) (t : Triple)
    (d : Derivation) : Prop :=
  ∃ a ∈ e.supporters t, ∃ c, n.rule? a.rule = some c ∧ (d == c.derivation (told a) t) = true

namespace Drawn

variable {e e' : Engine γ} {a : Activation} {c : CompiledRule} {t u : Triple} {d : Derivation}

/-- When a conclusion loses a supporter and the log its derivation, the other derivations
are still those of supporters. -/
theorem lose (h : e.Drawn n told u d) (hc : n.rule? a.rule = some c)
    (hother : ¬ ((t == u) = true ∧ (d == c.derivation (told a) t) = true))
    (hsupporters : ∀ v b, b ∈ e'.supporters v ↔
      b ∈ e.supporters v ∧ ¬ ((t == v) = true ∧ b = a)) : e'.Drawn n told u d := by
  obtain ⟨b, hb, c', hc', hsame⟩ := h
  refine ⟨b, (hsupporters u b).2 ⟨hb, ?_⟩, c', hc', hsame⟩
  rintro ⟨htu, rfl⟩
  obtain rfl := Option.some.inj (hc.symm.trans hc')
  refine hother ⟨htu, BEq.trans hsame ?_⟩
  exact Derivation.beq_iff.2 ⟨BEq.symm htu, BEq.rfl, BEq.rfl⟩

/-- Supporters are gained, and none is lost. -/
theorem mono (h : e.Drawn n told u d) (hsupporters : ∀ b ∈ e.supporters u, b ∈ e'.supporters u) :
    e'.Drawn n told u d := by
  obtain ⟨b, hb, hdrawn⟩ := h
  exact ⟨b, hsupporters b hb, hdrawn⟩

/-- A firing that holds up its conclusion has drawn it. -/
theorem of_supporter (ha : a ∈ e.supporters u) (hc : n.rule? a.rule = some c)
    (hsame : (t == u) = true) : e.Drawn n told u (c.derivation (told a) t) :=
  ⟨a, ha, c, hc, Derivation.beq_iff.2 ⟨hsame, BEq.rfl, BEq.rfl⟩⟩

end Drawn

/-- The log has the derivations of what is held up and of what is committed. -/
structure Logged (n : Network) (told : Activation → List Triple) (alive : Activation → Prop)
    (e : Engine γ) : Prop where
  network_eq : e.network = n
  logging : e.logging = true
  supporter : ∀ t, ∀ a ∈ e.supporters t,
    alive a ∧ ∃ c, n.rule? a.rule = some c ∧ c.destructive = false
  recorded : ∀ t, ∀ a ∈ e.supporters t, ∀ c, n.rule? a.rule = some c →
    ∃ d ∈ e.derivations.get t, (d == c.derivation (told a) t) = true
  drawn : ∀ t, ∀ d ∈ e.derivations.get t, e.committed.contains t = true ∨
    ∃ a ∈ e.supporters t, ∃ c, n.rule? a.rule = some c ∧ (d == c.derivation (told a) t) = true
  lasting : ∀ t, e.committed.contains t = true → ∃ d ∈ e.derivations.get t, ∃ r c,
    n.rule? r = some c ∧ c.destructive = true ∧ (d.rule == c.rule) = true

/-- The property depends on conclusions and their derivations. -/
def OfProofs (P : Engine γ → Prop) : Prop :=
  ∀ e e', e'.network = e.network → e'.support = e.support → e'.committed = e.committed →
    e'.derivations = e.derivations → e'.logging = e.logging → P e → P e'

/-- What is known of an engine from what is recorded: it depends on conclusions and their
derivations, and lasts when a conclusion loses a supporter and the log its derivation, and
when a firing draws a conclusion that it may draw and this is recorded. -/
structure Ledger (n : Network) (told : Activation → List Triple) (alive : Activation → Prop)
    (draws : Activation → CompiledRule → Triple → Prop) (P : Engine γ → Prop) : Prop where
  ofProofs : OfProofs P
  network_eq : ∀ e, P e → e.network = n
  logging : ∀ e, P e → e.logging = true
  lose : ∀ {e e' : Engine γ} {a : Activation} {c : CompiledRule} {t : Triple}, P e →
    n.rule? a.rule = some c → a ∈ e.supporters t → e'.network = e.network →
    e'.logging = e.logging → e'.committed = e.committed →
    e'.derivations = (e.derivations.remove (c.derivation (told a) t)).2 →
    (∀ u b, b ∈ e'.supporters u ↔ b ∈ e.supporters u ∧ ¬ ((t == u) = true ∧ b = a)) → P e'
  gain : ∀ {e e' : Engine γ} {a : Activation} {c : CompiledRule} {t : Triple}, P e →
    n.rule? a.rule = some c → alive a → draws a c t → e'.network = e.network →
    e'.logging = e.logging →
    e'.derivations = (e.derivations.record (c.derivation (told a) t)).2 →
    (∀ u, e'.committed.contains u = true ↔
      e.committed.contains u = true ∨ c.destructive = true ∧ (t == u) = true) →
    (∀ u b, b ∈ e'.supporters u ↔
      b ∈ e.supporters u ∨ c.destructive = false ∧ (t == u) = true ∧ b = a) → P e'

namespace Ledger

variable {draws : Activation → CompiledRule → Triple → Prop} {P : Engine γ → Prop}

theorem ofBooks (hP : Ledger n told alive draws P) : Work.OfBooks P := fun e e' h =>
  hP.ofProofs e e' (congrArg Books.network h) (congrArg Books.support h)
    (congrArg Books.committed h) (congrArg Books.derivations h) (congrArg Books.logging h)

theorem besideTokens (hP : Ledger n told alive draws P) : Work.BesideTokens P :=
  fun e _ _ _ => hP.ofProofs e _ rfl rfl rfl rfl rfl

end Ledger

namespace Logged

variable {e : Engine γ}

theorem ofProofs : OfProofs (Logged n told alive : Engine γ → Prop) := by
  intro e e' hnetwork hsupport hcommitted hderivations hlogging he
  have hsupporters : ∀ t, e'.supporters t = e.supporters t := fun t => by
    rw [supporters, supporters, hsupport]
  refine ⟨hnetwork.trans he.network_eq, hlogging.trans he.logging, ?_, ?_, ?_, ?_⟩
  · simpa only [hsupporters] using he.supporter
  · simpa only [hsupporters, hderivations] using he.recorded
  · simpa only [hsupporters, hderivations, hcommitted] using he.drawn
  · simpa only [hderivations, hcommitted] using he.lasting

/-- Who supports what may be told in another way. -/
theorem retell {told' : Activation → List Triple} {alive' : Activation → Prop}
    (he : e.Logged n told alive)
    (h : ∀ t, ∀ a ∈ e.supporters t, alive' a ∧ told' a = told a) : e.Logged n told' alive' where
  network_eq := he.network_eq
  logging := he.logging
  supporter t a ha := ⟨(h t a ha).1, (he.supporter t a ha).2⟩
  recorded t a ha := by
    rw [(h t a ha).2]
    exact he.recorded t a ha
  drawn t d hd := by
    rcases he.drawn t d hd with hcommitted | ⟨a, ha, c, hc, hsame⟩
    · exact Or.inl hcommitted
    · refine Or.inr ⟨a, ha, c, hc, ?_⟩
      rwa [(h t a ha).2]
  lasting := he.lasting

/-- What is recorded is held up or committed, and the other way round. -/
theorem get_ne_nil_iff (he : e.Logged n told alive) (t : Triple) :
    e.derivations.get t ≠ [] ↔ e.supporters t ≠ [] ∨ e.committed.contains t = true := by
  constructor
  · intro h
    obtain ⟨d, hd⟩ := List.exists_mem_of_ne_nil _ h
    rcases he.drawn t d hd with hcommitted | ⟨a, ha, _⟩
    · exact Or.inr hcommitted
    · exact Or.inl (List.ne_nil_of_mem ha)
  · rintro (h | h)
    · obtain ⟨a, ha⟩ := List.exists_mem_of_ne_nil _ h
      obtain ⟨_, c, hc, _⟩ := he.supporter t a ha
      obtain ⟨d, hd, _⟩ := he.recorded t a ha c hc
      exact List.ne_nil_of_mem hd
    · obtain ⟨d, hd, _⟩ := he.lasting t h
      exact List.ne_nil_of_mem hd

/-- A conclusion loses a supporter, and the log its derivation. -/
theorem lose (he : e.Logged n told alive) (htold : Told n told alive) (hdiverse : n.Diverse)
    {a : Activation} {c : CompiledRule} (hc : n.rule? a.rule = some c) {t : Triple}
    (ha : a ∈ e.supporters t) {e' : Engine γ} (hnetwork : e'.network = e.network)
    (hlogging : e'.logging = e.logging) (hcommitted : e'.committed = e.committed)
    (hderivations : e'.derivations = (e.derivations.remove (c.derivation (told a) t)).2)
    (hsupporters : ∀ u b, b ∈ e'.supporters u ↔
      b ∈ e.supporters u ∧ ¬ ((t == u) = true ∧ b = a)) : e'.Logged n told alive := by
  have hmem : ∀ u d, d ∈ e'.derivations.get u ↔ d ∈ e.derivations.get u ∧
      ¬ ((t == u) = true ∧ (d == c.derivation (told a) t) = true) := fun u d => by
    rw [hderivations]
    exact DerivationLog.mem_get_remove
  refine ⟨hnetwork.trans he.network_eq, hlogging.trans he.logging, fun u b hb =>
    he.supporter u b ((hsupporters u b).1 hb).1, ?_, ?_, ?_⟩
  · intro u b hb d hd
    obtain ⟨hb, hother⟩ := (hsupporters u b).1 hb
    obtain ⟨x, hx, hsame⟩ := he.recorded u b hb d hd
    refine ⟨x, (hmem u x).2 ⟨hx, fun ⟨htu, hgone⟩ => hother ⟨htu, ?_⟩⟩, hsame⟩
    -- The derivation would be that of both.
    have hboth : (d.derivation (told b) u == c.derivation (told a) t) = true :=
      BEq.trans (BEq.symm hsame) hgone
    obtain ⟨_, hrule, hmatched⟩ := Derivation.beq_iff.1 hboth
    exact htold b a d c t (he.supporter u b hb).1 (he.supporter t a ha).1 hd hc
      (Derivation.beq_iff.2 ⟨BEq.rfl, hrule, hmatched⟩)
  · intro u x hx
    obtain ⟨hx, hother⟩ := (hmem u x).1 hx
    rcases he.drawn u x hx with hmemo | hdrawn
    · exact Or.inl (hcommitted ▸ hmemo)
    · exact Or.inr (Drawn.lose hdrawn hc hother hsupporters)
  · intro u hu
    obtain ⟨x, hx, r, d, hd, hdestructive, hrule⟩ := he.lasting u (hcommitted ▸ hu)
    refine ⟨x, (hmem u x).2 ⟨hx, fun ⟨_, hgone⟩ => ?_⟩, r, d, hd, hdestructive, hrule⟩
    -- No supporter is destructive.
    obtain ⟨_, _, hc', hspared⟩ := he.supporter t a ha
    have hsame := hdiverse _ _ _ _ hd hc
      (BEq.trans (BEq.symm hrule) (Derivation.beq_iff.1 hgone).2.1)
    rw [hsame] at hd
    rw [hd] at hc'
    cases hc'
    rw [hdestructive] at hspared
    cases hspared

/-- A firing that draws a conclusion is recorded, and holds it up or commits it. -/
theorem gain (he : e.Logged n told alive) {a : Activation} {c : CompiledRule}
    (hc : n.rule? a.rule = some c) (ha : alive a) {t : Triple} {e' : Engine γ}
    (hnetwork : e'.network = e.network) (hlogging : e'.logging = e.logging)
    (hderivations : e'.derivations = (e.derivations.record (c.derivation (told a) t)).2)
    (hcommitted : ∀ u, e'.committed.contains u = true ↔
      e.committed.contains u = true ∨ c.destructive = true ∧ (t == u) = true)
    (hsupporters : ∀ u b, b ∈ e'.supporters u ↔
      b ∈ e.supporters u ∨ c.destructive = false ∧ (t == u) = true ∧ b = a) :
    e'.Logged n told alive := by
  have hold : ∀ {u d}, d ∈ e.derivations.get u → d ∈ e'.derivations.get u := fun hd => by
    rw [hderivations]
    exact DerivationLog.mem_get_record_of_mem hd
  have hnew : ∀ u, (t == u) = true →
      ∃ d ∈ e'.derivations.get u, (d == c.derivation (told a) t) = true := fun u hsame => by
    rw [hderivations, ← DerivationLog.get_congr _ hsame]
    exact e.derivations.exists_get_record (c.derivation (told a) t)
  refine ⟨hnetwork.trans he.network_eq, hlogging.trans he.logging, ?_, ?_, ?_, ?_⟩
  · intro u b hb
    rcases (hsupporters u b).1 hb with hb | ⟨hspared, _, rfl⟩
    · exact he.supporter u b hb
    · exact ⟨ha, c, hc, hspared⟩
  · intro u b hb d hd
    rcases (hsupporters u b).1 hb with hb | ⟨_, hsame, rfl⟩
    · obtain ⟨x, hx, hxd⟩ := he.recorded u b hb d hd
      exact ⟨x, hold hx, hxd⟩
    · rw [hc] at hd
      cases hd
      obtain ⟨x, hx, hxd⟩ := hnew u hsame
      exact ⟨x, hx, BEq.trans hxd (Derivation.beq_iff.2 ⟨hsame, BEq.rfl, BEq.rfl⟩)⟩
  · intro u x hx
    rw [hderivations] at hx
    rcases DerivationLog.mem_get_record hx with hx | ⟨rfl, hsame⟩
    · rcases he.drawn u x hx with hmem | hdrawn
      · exact Or.inl ((hcommitted u).2 (Or.inl hmem))
      · exact Or.inr (Drawn.mono hdrawn fun b hb => (hsupporters u b).2 (Or.inl hb))
    · have htu : (t == u) = true := hsame
      cases hdestructive : c.destructive with
      | true => exact Or.inl ((hcommitted u).2 (Or.inr ⟨hdestructive, htu⟩))
      | false =>
          have hsupports := (hsupporters u a).2 (Or.inr ⟨hdestructive, htu, rfl⟩)
          exact Or.inr (Drawn.of_supporter hsupports hc htu)
  · intro u hu
    rcases (hcommitted u).1 hu with hu | ⟨hdestructive, hsame⟩
    · obtain ⟨x, hx, r, d, hd, hrest⟩ := he.lasting u hu
      exact ⟨x, hold hx, r, d, hd, hrest⟩
    · obtain ⟨x, hx, hxd⟩ := hnew u hsame
      exact ⟨x, hx, a.rule, c, hc, hdestructive, (Derivation.beq_iff.1 hxd).2.1⟩

/-- Where activations can be told apart and no two rules are equal. -/
theorem ledger (htold : Told n told alive) (hdiverse : n.Diverse) :
    Ledger n told alive (fun _ _ _ => True) (Logged n told alive : Engine γ → Prop) where
  ofProofs := ofProofs
  network_eq _ he := he.network_eq
  logging _ he := he.logging
  lose he hc ha hnetwork hlogging hcommitted hderivations hsupporters :=
    he.lose htold hdiverse hc ha hnetwork hlogging hcommitted hderivations hsupporters
  gain he hc ha _ hnetwork hlogging hderivations hcommitted hsupporters :=
    he.gain hc ha hnetwork hlogging hderivations hcommitted hsupporters

end Logged

end Engine

/-! ## What work does to the log -/

namespace Work

open Engine

variable {γ : Type} [Graph γ] {n : Network} {told : Activation → List Triple}
  {alive : Activation → Prop} {draws : Activation → CompiledRule → Triple → Prop}
  {P : Engine γ → Prop} {e : Engine γ}

theorem leaves_unsupport (hP : Ledger n told alive draws P) (he : P e) {a : Activation}
    {c : CompiledRule} (hc : n.rule? a.rule = some c) (t : Triple) :
    (unsupport a c (c.matched (told a)) t).Leaves e fun _ e' => P e' := by
  refine leaves_get_bind ?_
  split
  · exact leaves_throw
  · rename_i firings hfirings
    have hmembers : e.supporters t = firings.members := by rw [supporters, hfirings]
    cases hin : firings.contains a with
    | false => exact Leaves.bind leaves_throw fun _ _ h => h
    | true =>
        have ha : a ∈ e.supporters t := by
          rw [hmembers]
          obtain ⟨b, hb, hsame⟩ := List.any_eq_true.1 hin
          rwa [← beq_iff_eq.1 hsame]
        have hleft : ∀ b, b ∈ (firings.erase a).members ↔ b ∈ e.supporters t ∧ b ≠ a := by
          intro b
          rw [hmembers]
          simp [OrderedSet.erase]
        simp only [Bool.not_true, Bool.false_eq_true, if_false]
        rw [if_pos (hP.logging e he)]
        refine leaves_set_bind ?_
        split
        · rename_i hempty
          have hlost : P { e with
              derivations := (e.derivations.remove (c.derivation (told a) t)).2
              support := e.support.erase t } := by
            refine hP.lose he hc ha rfl rfl rfl rfl fun u b => ?_
            have herased : supporters { e with
                derivations := (e.derivations.remove (c.derivation (told a) t)).2
                support := e.support.erase t } u = if t == u then [] else e.supporters u :=
              supporters_erase e t u
            rw [herased]
            split
            · rename_i hsame
              rw [← e.supporters_congr hsame]
              refine ⟨fun h => absurd h List.not_mem_nil, fun hkept => ?_⟩
              have hstill := (hleft b).2 ⟨hkept.1, fun hab => hkept.2 ⟨hsame, hab⟩⟩
              rw [List.isEmpty_iff.1 hempty] at hstill
              cases hstill
            · rename_i hdifferent
              exact ⟨fun h => ⟨h, fun hboth => hdifferent hboth.1⟩, And.left⟩
          refine leaves_modify_bind ?_
          split
          · exact leaves_pure hlost
          · exact (hP.ofBooks.ofCounts.withdraw t).leaves hlost
        · refine leaves_modify_bind ((hP.ofBooks.ofCounts.suspect t).leaves ?_)
          refine hP.lose he hc ha rfl rfl rfl rfl fun u b => ?_
          have hinserted : supporters { e with
              derivations := (e.derivations.remove (c.derivation (told a) t)).2
              support := e.support.insert t (firings.erase a) } u =
              if t == u then (firings.erase a).members else e.supporters u :=
            supporters_insert e t u _
          refine (iff_of_eq (congrArg (b ∈ ·) hinserted)).trans ?_
          split
          · rename_i hsame
            rw [hleft, e.supporters_congr hsame]
            simp [hsame]
          · rename_i hdifferent
            exact ⟨fun h => ⟨h, fun hboth => hdifferent hboth.1⟩, And.left⟩

/-- A firing that is taken back is taken out of the log. -/
theorem keeps_retract_logged (hP : Ledger n told alive draws P) (a : Activation)
    (firing : Firing) : Keeps P (retract a (told a) firing : Work γ Unit) := by
  refine keeps_get_bind fun e he => ?_
  split
  · rename_i c hc
    rw [hP.network_eq e he] at hc
    refine keeps_bind (hP.ofBooks.count _) fun _ =>
      keeps_bind (keeps_modify fun e => hP.ofProofs e _ rfl rfl rfl rfl rfl) fun _ => ?_
    exact keeps_forM (fun t => keeps_of_leaves fun e he => leaves_unsupport hP he hc t) _
  · exact keeps_pure _

/-- The tokens of a rule go with their derivations, and no other rule is concerned. -/
theorem leaves_retractTokens_logged (hP : Ledger n told alive draws P) (he : P e) {rule : Nat}
    (htriples : ∀ id, (e.memory rule).triples id = told ⟨rule, id⟩) (t : Triple) :
    (retractTokens t rule).Leaves e fun _ e' =>
      P e' ∧ ∀ r, r ≠ rule → e'.memory r = e.memory r := by
  refine leaves_get_bind (leaves_set_bind ?_)
  set memories := (e.setMemory rule ((e.memory rule).removeHolding t).2).memories with hmemories
  have hothers : ∀ r, r ≠ rule → (memories[r]?).getD .empty = e.memory r := fun r hr => by
    rw [hmemories, setMemory, List.getElem?_set_ne (Ne.symm hr), memory]
  refine (leaves_forM (fun rest e' => (P e' ∧ e'.memories = memories) ∧
    ∀ b ∈ rest, b.triples = told ⟨rule, b.id⟩) ?_ _ ⟨⟨?_, rfl⟩, ?_⟩).mono
    fun _ e' hafter => ⟨hafter.1.1, fun r hr => ?_⟩
  · rintro b rest e₁ ⟨⟨he₁, hmemories₁⟩, hrest⟩
    rw [hrest b List.mem_cons_self]
    have hdone := ((keeps_retract_logged hP ⟨rule, b.id⟩ b.firing).leaves he₁).and
      ((keeps_memories_retract memories ⟨rule, b.id⟩ _ b.firing).leaves hmemories₁)
    exact hdone.mono fun _ _ h => ⟨h, fun x hx => hrest x (List.mem_cons_of_mem _ hx)⟩
  · exact hP.ofProofs e _ rfl rfl rfl rfl rfl he
  · intro b hb
    obtain ⟨id, _, hbroken⟩ := List.mem_filterMap.1 hb
    obtain ⟨_, _, rfl⟩ := Option.map_eq_some_iff.1 hbroken
    exact htriples id
  · rw [memory, hafter.1.2]
    exact hothers r hr

/-! ## Events -/

/-- To follow up an event costs the log what the event costs the conclusions. -/
theorem leaves_propagate_logged (hP : Ledger n told alive draws P) (he : P e)
    (htriples : ∀ a, e.matchedBy a = told a) (event : Event) :
    (propagate event).Leaves e fun _ e' => P e' := by
  cases event with
  | added t =>
      refine Keeps.leaves ?_ he
      refine keeps_bind (keeps_isVisible t) fun _ => keeps_ite ?_ (keeps_pure _)
      exact keeps_bind (hP.ofBooks.count _) fun _ => keeps_get_bind fun _ _ =>
        keeps_forM (hP.besideTokens.activate t) _
  | deleted t =>
      have hof : OfBooks fun e : Engine γ => P e ∧ ∀ a, e.matchedBy a = told a :=
        fun e₁ e₂ hbooks he₁ => ⟨hP.ofBooks e₁ e₂ hbooks he₁.1, fun a =>
          (matchedBy_of_memories_eq (congrArg Books.memories hbooks) a).trans (he₁.2 a)⟩
      refine ((keeps_isVisible t).leaves (P := fun e : Engine γ => P e ∧
        ∀ a, e.matchedBy a = told a) ⟨he, htriples⟩).bind fun seen e₁ he₁ => ?_
      split
      · exact leaves_pure he₁.1
      · refine ((hof.count _).leaves he₁).bind fun _ e₂ he₂ => leaves_get_bind ?_
        -- Each rule is dealt with once, so its tokens are still all there.
        refine (leaves_forM (fun rest e' => P e' ∧ rest.Nodup ∧
          ∀ r ∈ rest, ∀ id, (e'.memory r).triples id = told ⟨r, id⟩) ?_ _
          ⟨he₂.1, nodup_eraseDups _, fun r _ id => he₂.2 ⟨r, id⟩⟩).mono fun _ _ h => h.1
        rintro rule rest e₃ ⟨he₃, hdistinct, hrest⟩
        obtain ⟨hnew, hdistinct⟩ := List.nodup_cons.1 hdistinct
        refine (leaves_retractTokens_logged hP he₃ (hrest rule List.mem_cons_self) t).mono ?_
        rintro _ e₄ ⟨he₄, hothers⟩
        refine ⟨he₄, hdistinct, fun r hr => ?_⟩
        rw [hothers r fun hsame => hnew (hsame ▸ hr)]
        exact hrest r (List.mem_cons_of_mem _ hr)

/-! ## Firing -/

omit [Graph γ] in
theorem keeps_credit_logged (hP : Ledger n told alive draws P) {a : Activation}
    {c : CompiledRule} (hc : n.rule? a.rule = some c) (ha : alive a) {t : Triple}
    (ht : draws a c t) : Keeps P (credit a c (c.matched (told a)) t : Work γ Unit) := by
  refine keeps_modify fun e he => ?_
  simp only
  rw [if_pos (hP.logging e he)]
  split
  · rename_i hdestructive
    refine hP.gain he hc ha ht rfl rfl rfl (fun u => ?_) fun u b => ?_
    · change (e.committed.insert t).contains u = true ↔ _
      rw [OrderedSet.contains_insert, Bool.or_eq_true]
      simp only [hdestructive, true_and]
    · exact ⟨Or.inl, fun h => h.resolve_right fun hnew =>
        absurd (hdestructive.symm.trans hnew.1) (Bool.true_eq_false ▸ id)⟩
  · rename_i hdestructive
    rw [Bool.not_eq_true] at hdestructive
    refine hP.gain he hc ha ht rfl rfl rfl (fun u => ?_) fun u b => ?_
    · exact ⟨Or.inl, fun h => h.resolve_right fun hnew =>
        absurd (hdestructive.symm.trans hnew.1) Bool.false_ne_true⟩
    · refine (supporters_alter e t u a b).trans ?_
      simp only [hdestructive, true_and, and_comm]

/-- Where nothing is to be removed, what a firing concludes is recorded. -/
theorem keeps_settleFiring_logged (hP : Ledger n told alive draws P) {a : Activation}
    {c : CompiledRule} (hc : n.rule? a.rule = some c) (ha : alive a) {conclusions : List Triple}
    (hdrawn : ∀ t ∈ conclusions, draws a c t) {effects : Effects}
    (hnone : effects.removed = [] ∧ effects.dropped = []) :
    Keeps P (settleFiring a c (c.matched (told a)) conclusions effects : Work γ Unit) := by
  unfold settleFiring
  rw [hnone.1, hnone.2]
  refine keeps_bind (hP.ofBooks.count _) fun _ =>
    keeps_bind (hP.ofBooks.ofCounts.report c conclusions) fun _ =>
    keeps_bind (keeps_modify fun e => hP.ofProofs e _ rfl rfl rfl rfl rfl) fun _ =>
    keeps_bind (keeps_modify fun e => hP.ofProofs e _ rfl rfl rfl rfl rfl) fun _ =>
    keeps_bind (keeps_forM_each fun t ht => keeps_bind
      (keeps_credit_logged hP hc ha (hdrawn t ht)) fun _ => hP.ofBooks.ofCounts.assert t)
      fun _ => ?_
  exact keeps_bind (keeps_pure _) fun _ => keeps_pure _

/-- From what its activation has matched a rule concludes only what it may draw. -/
def Draws (e : Engine γ) (told : Activation → List Triple)
    (draws : Activation → CompiledRule → Triple → Prop) : Prop :=
  ∀ a c b st conclusions, e.network.rule? a.rule = some c → c.bindings (told a) = .ok b →
    c.evaluate e.network.registry (.ofView e.view c.label (c.matched (told a)) false)
      { bindings := b, world := e.world } = (some conclusions, st) →
    ∀ t ∈ conclusions, draws a c t

theorem leaves_fire_logged (hP : Ledger n told alive draws P) (he : P e) (hmild : n.Mild)
    (hdraws : Draws e told draws) (htriples : ∀ a, e.matchedBy a = told a)
    (halive : ∀ a firing, e.firing? a = some firing → alive a) (a : Activation) :
    (fire a).Leaves e fun _ e' => P e' := by
  refine leaves_get_bind ?_
  split
  · rename_i c ha hc
    rw [htriples]
    have hbound : (attempt (c.bindings (told a)) : Work γ Bindings).Leaves e
        fun b _ => c.bindings (told a) = .ok b := leaves_attempt fun _ hb => hb
    refine hbound.bind fun bindings e₁ hbindings => ?_
    simp only
    cases hevaluate : c.evaluate e.network.registry
        (.ofView e.view c.label (c.matched (told a)) false) { bindings, world := e.world } with
    | mk answer st =>
        refine leaves_set_bind ?_
        have hworld : P { e with world := st.world } := hP.ofBooks e _ rfl he
        cases answer with
        | none =>
            refine ((hP.ofBooks.count _).leaves hworld).bind fun _ e₂ he₂ => ?_
            exact leaves_modify (hP.ofProofs e₂ _ rfl rfl rfl rfl rfl he₂)
        | some conclusions =>
            have hdrawn := hdraws a c bindings st conclusions hc hbindings hevaluate
            rw [hP.network_eq e he] at hc hevaluate
            exact (keeps_settleFiring_logged hP hc (halive a _ ha) hdrawn
              (hmild a.rule c hc _ _ st conclusions rfl hevaluate)).leaves hworld
  · exact leaves_pure he

/-! ## Asking again -/

omit [Graph γ] in
theorem matchedBy_setFiring_any (e : Engine γ) (a : Activation) (firing : Firing)
    (b : Activation) : (e.setFiring a firing).matchedBy b = e.matchedBy b := by
  by_cases hlt : a.rule < e.memories.length
  · exact matchedBy_setFiring hlt firing b
  · exact matchedBy_of_memories_eq (List.set_eq_of_length_le (Nat.le_of_not_lt hlt)) b

/-- To ask an activation again leaves what activations have matched. -/
theorem keeps_reconsider_logged (hP : Ledger n told alive draws P) (c : CompiledRule)
    (a : Activation) (fired : Bool) :
    Keeps (fun e : Engine γ => P e ∧ ∀ b, e.matchedBy b = told b) (reconsider c a fired) := by
  have hof : OfBooks fun e : Engine γ => P e ∧ ∀ b, e.matchedBy b = told b :=
    fun e e' hbooks he => ⟨hP.ofBooks e e' hbooks he.1, fun b =>
      (matchedBy_of_memories_eq (congrArg Books.memories hbooks) b).trans (he.2 b)⟩
  refine keeps_get_bind fun e he => ?_
  simp only
  rw [he.2]
  refine keeps_bind (hof.ofCounts.stillHolds c _) fun held =>
    keeps_ite ?_ (keeps_ite ?_ (keeps_pure _))
  · refine keeps_of_leaves fun e₁ he₁ => leaves_modify_bind ?_
    have hblocked : P (e₁.setFiring a .blocked) := hP.ofProofs e₁ _ rfl rfl rfl rfl rfl he₁.1
    have hback := ((keeps_retract_logged hP a ((e.firing? a).getD .blocked)).leaves
      hblocked).and ((keeps_memories_retract (e₁.setFiring a .blocked).memories a (told a)
        ((e.firing? a).getD .blocked)).leaves rfl)
    refine hback.bind fun _ e₂ he₂ => leaves_pure ⟨he₂.1, fun b => ?_⟩
    rw [matchedBy_of_memories_eq he₂.2, matchedBy_setFiring_any]
    exact he₁.2 b
  · refine keeps_bind (keeps_modify fun e₁ he₁ => ?_) fun _ => keeps_pure _
    exact ⟨hP.ofProofs e₁ _ rfl rfl rfl rfl rfl he₁.1, fun b =>
      (matchedBy_setFiring_any e₁ a .pending b).trans (he₁.2 b)⟩

theorem keeps_recheck_logged (hP : Ledger n told alive draws P) :
    Keeps (fun e : Engine γ => P e ∧ ∀ b, e.matchedBy b = told b) recheck := by
  refine keeps_get_bind fun _ _ => keeps_bind (keeps_mapM (fun _ => ?_) _) fun _ => keeps_pure _
  exact keeps_get_bind fun _ _ => keeps_bind
    (keeps_mapM (fun _ => keeps_reconsider_logged hP _ _ _) _) fun _ => keeps_pure _

/-! ## Steps -/

/-- A piece of work keeps what is known from what is recorded. -/
theorem leaves_step_ledger (hP : Ledger n told alive draws P) (he : P e) (hmild : n.Mild)
    (hdraws : Draws e told draws) (htriples : ∀ a, e.matchedBy a = told a)
    (halive : ∀ a firing, e.firing? a = some firing → alive a) (rechecks : Nat) :
    (step rechecks).Leaves e fun _ e' => P e' := by
  refine leaves_get_bind ?_
  split
  · refine leaves_set_bind ?_
    refine (leaves_propagate_logged hP ?_ ?_ _).bind fun _ _ he' => leaves_pure he'
    · exact hP.ofBooks e _ rfl he
    · exact htriples
  · refine leaves_set_bind ?_
    refine (leaves_fire_logged hP ?_ hmild ?_ ?_ ?_ _).bind fun _ _ he' => leaves_pure he'
    · exact hP.ofBooks e _ rfl he
    · exact hdraws
    · exact htriples
    · exact halive
  · refine leaves_set_bind ?_
    refine ((hP.ofBooks.ofCounts.checkSupport _).leaves ?_).bind fun _ _ he' => leaves_pure he'
    exact hP.ofBooks e _ rfl he
  · split
    · exact leaves_pure he
    · refine leaves_modify_bind ?_
      refine ((keeps_recheck_logged hP).leaves ⟨?_, ?_⟩).bind fun changed _ he' => ?_
      · exact hP.ofBooks e _ rfl he
      · exact htriples
      · split
        · exact leaves_pure he'.1
        · exact leaves_pure he'.1

/-- A piece of work keeps the log in line with the conclusions. -/
theorem leaves_step_logged (he : e.Logged n told alive)
    (htold : Told n told alive) (hdiverse : n.Diverse) (hmild : n.Mild)
    (htriples : ∀ a, e.matchedBy a = told a)
    (halive : ∀ a firing, e.firing? a = some firing → alive a) (rechecks : Nat) :
    (step rechecks).Leaves e fun _ e' => e'.Logged n told alive :=
  leaves_step_ledger (Logged.ledger htold hdiverse) he hmild
    (fun _ _ _ _ _ _ _ _ _ _ => trivial) htriples halive rechecks

end Work

end Entailment
