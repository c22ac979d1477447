import Entailment.Proofs.Forward.Foundation
import Entailment.Proofs.Forward.Tally

/-!
# What is hidden

The predicate of a triple is hidden while a firing that lists it is alive.  The count that
decides this is a tally that every operation keeps, done or failed, so a live firing hides
what it lists.  Nothing else is hidden, unless a destructive rule has hidden it: such a
firing is committed, and what it hides stays hidden when its token goes.
-/

namespace Entailment

namespace Firing

/-- How many times the firing lists a predicate among those that it hides. -/
def listings (p : Node) : Firing → Nat
  | .fired _ hidden _ => hidden.countP (· == p)
  | _ => 0

/-- The firing hides the predicate. -/
def Hides (firing : Firing) (p : Node) : Prop :=
  ∃ conclusions hidden committed, firing = .fired conclusions hidden committed ∧
    hidden.any (· == p) = true

theorem hides_iff {firing : Firing} {p : Node} : firing.Hides p ↔ 0 < firing.listings p := by
  cases firing with
  | pending => simp [Hides, listings]
  | blocked => simp [Hides, listings]
  | fired conclusions hidden committed => simp [Hides, listings, List.countP_pos_iff]

end Firing

namespace Network

/-- No rule that removes triples asks for the predicate to be hidden. -/
def Spares (n : Network) (p : Node) : Prop :=
  ∀ c ∈ n.rules, c.destructive = true → ∀ ctx st conclusions st', st.effects = {} →
    c.evaluate n.registry ctx st = (some conclusions, st') →
    st'.effects.hidden.any (· == p) = false

theorem spares_of_all {n : Network} (h : (n.rules.all fun c => !c.destructive) = true) (p : Node) :
    n.Spares p := by
  intro c hc hdestructive
  have hnot := List.all_eq_true.1 h c hc
  rw [hdestructive] at hnot
  cases hnot

end Network

/-! ## Counting -/

/-- How many firings hide the predicate, as far as the count knows. -/
def countOf (hidden : OrderedMap Node Nat) (p : Node) : Nat := (hidden.get? p).getD 0

theorem countOf_hideOnce (hidden : OrderedMap Node Nat) (q p : Node) :
    countOf (hideOnce hidden q) p = countOf hidden p + if q == p then 1 else 0 := by
  unfold countOf hideOnce
  rw [OrderedMap.get?_alter]
  split
  · rfl
  · rfl

theorem countOf_unhide (hidden : OrderedMap Node Nat) (q p : Node) :
    countOf (unhide hidden q) p = countOf hidden p - if q == p then 1 else 0 := by
  unfold countOf unhide
  by_cases same : (q == p) = true
  · rw [if_pos same, hidden.get?_congr same]
    cases h : hidden.get? p with
    | none => simp [h]
    | some n =>
        simp only
        split
        · rw [OrderedMap.get?_erase, if_pos same, Option.getD_none, Option.getD_some]
          omega
        · rw [OrderedMap.get?_insert, if_pos same]
          rfl
  · rw [if_neg same, Nat.sub_zero]
    cases hidden.get? q with
    | none => rfl
    | some n =>
        simp only
        split
        · rw [OrderedMap.get?_erase, if_neg same]
        · rw [OrderedMap.get?_insert, if_neg same]

theorem countOf_foldl_hideOnce (qs : List Node) (hidden : OrderedMap Node Nat) (p : Node) :
    countOf (qs.foldl hideOnce hidden) p = countOf hidden p + qs.countP (· == p) := by
  induction qs generalizing hidden with
  | nil => rfl
  | cons q qs ih =>
      rw [List.foldl_cons, ih, countOf_hideOnce, List.countP_cons]
      omega

theorem countOf_foldl_unhide (qs : List Node) (hidden : OrderedMap Node Nat) (p : Node) :
    countOf (qs.foldl unhide hidden) p = countOf hidden p - qs.countP (· == p) := by
  induction qs generalizing hidden with
  | nil => rfl
  | cons q qs ih =>
      rw [List.foldl_cons, ih, countOf_unhide, List.countP_cons]
      omega

theorem Counted.contains_iff {hidden : OrderedMap Node Nat} (h : Counted hidden) {p : Node} :
    hidden.contains p = true ↔ 0 < countOf hidden p := by
  rw [OrderedMap.contains_eq_isSome_get?, countOf]
  cases hp : hidden.get? p with
  | none => simp
  | some n =>
      have hn : n ≠ 0 := fun hzero => h p (hzero ▸ hp)
      simp
      omega

/-! ## Listings -/

/-- How many times firings list the predicate among those that they hide. -/
def Tally.hiding (p : Node) : Tally where
  weight := Firing.listings p
  noted hidden _ := countOf hidden p
  returned _ := 0
  weight_pending := rfl
  weight_blocked := rfl
  noted_fired _ hides _ hidden _ := countOf_foldl_hideOnce hides hidden p
  returned_retracted conclusions hides hidden _ _ h := by
    change 0 + hides.countP (· == p) ≤ countOf hidden p at h
    change countOf (hides.foldl unhide hidden) p + 0 + hides.countP (· == p) = countOf hidden p + 0
    rw [countOf_foldl_unhide]
    omega
  noted_none := rfl

theorem Network.Spares.hiding {n : Network} {p : Node} (h : n.Spares p) :
    (Tally.hiding p).Spares n := by
  intro c hc hdestructive ctx st conclusions st' hst hevaluate
  exact List.countP_eq_zero.2 (List.any_eq_false.1 (h c hc hdestructive ctx st _ _ hst hevaluate))

/-- How many times the firings of a memory list a predicate. -/
def TokenMemory.listings (m : TokenMemory) (p : Node) : Nat := m.firings.weight (Firing.listings p)

namespace Engine

variable {γ : Type} {e : Engine γ}

/-- How many times the live firings of an engine list a predicate. -/
def listings (e : Engine γ) (p : Node) : Nat := (e.memories.map fun m => m.listings p).sum

/-- The activation has fired, and its firing hides the predicate. -/
def Hides (e : Engine γ) (a : Activation) (p : Node) : Prop :=
  ∃ firing, e.firing? a = some firing ∧ firing.Hides p

/-- A predicate is listed exactly if some firing hides it. -/
theorem listings_pos_iff {p : Node} : 0 < e.listings p ↔ ∃ a, e.Hides a p := by
  refine (total_pos_iff (Firing.listings p)).trans
    (exists_congr fun a => exists_congr fun firing => ?_)
  rw [Firing.hides_iff]

/-! ## Histories -/

variable [Graph γ] {n : Network} {sane : γ → Prop} {allowed : Operation → Prop}

/-- Every predicate that is hidden is counted. -/
theorem Operated.counted (he : Operated n sane allowed e) : Counted e.hidden := by
  rcases he.tallied (T := .hiding default) with htallied | hsilent
  · exact htallied.counted
  · intro p h
    rw [hsilent.hidden_eq] at h
    cases h

/-- Whatever has been done, a live firing hides what it lists, and the count covers all
listings.  Nothing else is hidden and nothing else is counted, unless a destructive rule
of the network asks for the predicate to be hidden. -/
theorem isHidden_iff_of_operated (he : Operated n sane allowed e) (t : Triple) :
    (∀ a, e.Hides a t.predicate → e.isHidden t = true) ∧
      e.listings t.predicate ≤ countOf e.hidden t.predicate ∧
      (n.Spares t.predicate →
        (e.isHidden t = true ↔ ∃ a, e.Hides a t.predicate) ∧
          countOf e.hidden t.predicate = e.listings t.predicate) := by
  obtain ⟨lost, hnoted, hlost⟩ := he.noted_eq (.hiding t.predicate)
  have hcount : countOf e.hidden t.predicate = 0 + e.listings t.predicate + lost := hnoted
  have hiff : e.isHidden t = true ↔ 0 < countOf e.hidden t.predicate := he.counted.contains_iff
  refine ⟨fun a ha => hiff.2 ?_, by omega, fun hspared => ⟨?_, ?_⟩⟩
  · have hpos := listings_pos_iff.2 ⟨a, ha⟩
    omega
  · rw [hiff, ← listings_pos_iff]
    have hnone := hlost hspared.hiding
    omega
  · have hnone := hlost hspared.hiding
    omega

/-! ## A predicate that is hidden while a triple is there -/

/-- While anything is marked, the notes are hidden. -/
def veiling : Rule :=
  .make none [.pattern ⟨.var ⟨"x", 0⟩, .uri "marked", .var ⟨"y", 1⟩⟩]
    [.call ⟨"hide", [.uri "note"]⟩] .forward

def veilingNetwork : Network :=
  ((Network.compile [veiling] Registry.standard).toOption).getD default

def mark : Triple := ⟨.uri "a", .uri "marked", .uri "b"⟩

def note : Triple := ⟨.uri "a", .uri "note", .uri "c"⟩

def veiled : Engine MemoryGraph :=
  (Operation.perform 20 (.add mark) (start veilingNetwork .empty)).state?.getD
    (start veilingNetwork .empty)

theorem isHidden_iff_of_operated_veiled :
    (veiled.isHidden note = true ↔ ∃ a, veiled.Hides a note.predicate) ∧
      countOf veiled.hidden note.predicate = veiled.listings note.predicate ∧
      veiled.isHidden note = true := by
  have hperform : (Operation.perform 20 (.add mark)
      (start veilingNetwork MemoryGraph.empty)).state? = some veiled :=
    Outcome.state?_eq_getD (by decide +kernel) _
  have hoperated : Operated veilingNetwork (fun _ => True) (fun _ => True) veiled :=
    .performed (.start trivial) trivial hperform
  have hspares := Network.spares_of_all (n := veilingNetwork) (by decide +kernel) note.predicate
  obtain ⟨_, _, hspared⟩ := isHidden_iff_of_operated hoperated note
  exact ⟨(hspared hspares).1, (hspared hspares).2, by decide +kernel⟩

/-- The notes are seen again once the mark is gone. -/
example : ((Operation.perform 20 (.delete mark) veiled).state?.any fun e => !e.isHidden note) =
    true := by decide +kernel

/-! ## A predicate that stays hidden -/

/-- Hides the notes, and removes what has made it fire. -/
def sweeping : Rule :=
  .make none [.pattern ⟨.var ⟨"x", 0⟩, .uri "marked", .var ⟨"y", 1⟩⟩]
    [.call ⟨"hide", [.uri "note"]⟩, .call ⟨"remove", [.integer 0]⟩] .forward

def sweepingNetwork : Network :=
  ((Network.compile [sweeping] Registry.standard).toOption).getD default

def swept : Engine MemoryGraph :=
  (Operation.perform 20 (.add mark) (start sweepingNetwork .empty)).state?.getD
    (start sweepingNetwork .empty)

/-- No firing is alive any more, yet the predicate is hidden and counted. -/
theorem not_isHidden_iff_swept :
    Network.compile [sweeping] Registry.standard = .ok sweepingNetwork ∧
      Operated sweepingNetwork (fun _ => True) (fun _ => True) swept ∧
      swept.isHidden note = true ∧ (¬ ∃ a, swept.Hides a note.predicate) ∧
      countOf swept.hidden note.predicate ≠ swept.listings note.predicate := by
  have hperform : (Operation.perform 20 (.add mark)
      (start sweepingNetwork MemoryGraph.empty)).state? = some swept :=
    Outcome.state?_eq_getD (by decide +kernel) _
  have hlistings : swept.listings note.predicate = 0 := by decide +kernel
  refine ⟨ok_getD_of_isSome (by decide +kernel), .performed (.start trivial) trivial hperform,
    by decide +kernel, ?_, ?_⟩
  · rw [← listings_pos_iff, hlistings]
    exact Nat.lt_irrefl 0
  · rw [hlistings]
    decide +kernel

end Engine

end Entailment
