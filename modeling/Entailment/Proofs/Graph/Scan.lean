import Entailment.Graph.Index
import Entailment.Proofs.Collection.Lookup

/-!
# Searching nested maps

A scan lists what a nested map holds at the fixed keys, every entry once.  The three
maps of an index are scanned in three orders, so the triple is built by a function
that only has to keep the comparison of its parts.
-/

namespace Entailment

theorem TriplePattern.allows_congr {position : Option Node} {m n : Node}
    (h : (m == n) = true) : allows position m = allows position n := by
  cases position with
  | none => rfl
  | some fixed => exact BEq.congr_right h

namespace Level

open TriplePattern (allows)

variable {υ : Type}

theorem mem_select {m : OrderedMap Node υ} {key : Option Node} {e : Node × υ} :
    e ∈ select m key ↔ e ∈ m.entries ∧ allows key e.1 = true := by
  cases key with
  | none => simp [select, allows]
  | some k =>
    rw [select, Option.mem_toList, OrderedMap.entry?_eq_some_iff]
    simp only [allows]
    rw [BEq.comm]

theorem pairwise_select (m : OrderedMap Node υ) (key : Option Node) :
    (select m key).Pairwise fun e f => (e.1 == f.1) = false := by
  cases key with
  | none => exact List.pairwise_map.1 m.distinct
  | some k =>
    unfold select
    cases m.entry? k <;> simp

theorem mem_selectMembers {s : OrderedSet Node} {key : Option Node} {c : Node} :
    c ∈ selectMembers s key → s.contains c = true ∧ allows key c = true := by
  intro h
  cases key with
  | none => exact ⟨OrderedSet.contains_of_mem h, rfl⟩
  | some k =>
    simp only [selectMembers] at h
    split at h
    · rename_i present
      have same : c = k := by simpa using h
      subst same
      exact ⟨present, BEq.rfl⟩
    · cases h

theorem exists_mem_selectMembers {s : OrderedSet Node} {key : Option Node} {c : Node}
    (held : s.contains c = true) (allowed : allows key c = true) :
    ∃ d ∈ selectMembers s key, (d == c) = true := by
  cases key with
  | none => exact OrderedSet.contains_iff.1 held
  | some k =>
    have same : (k == c) = true := allowed
    refine ⟨k, ?_, same⟩
    have present : s.contains k = true := (s.contains_congr same).trans held
    simp [selectMembers, present]

theorem pairwise_selectMembers (s : OrderedSet Node) (key : Option Node) :
    (selectMembers s key).Pairwise fun c d => (c == d) = false := by
  cases key with
  | none => exact s.distinct
  | some k =>
    simp only [selectMembers]
    split
    · exact List.pairwise_singleton ..
    · exact List.Pairwise.nil

theorem holds_iff {level : Level} {x y z : Node} :
    level.holds x y z = true ↔ ∃ e ∈ level.entries, (e.1 == x) = true ∧
      ∃ f ∈ e.2.entries, (f.1 == y) = true ∧ f.2.contains z = true := by
  unfold holds third second
  constructor
  · intro h
    cases hx : level.get? x with
    | none =>
      rw [hx, Option.getD_none, OrderedMap.get?_default, Option.getD_none] at h
      cases h
    | some inner =>
      rw [hx, Option.getD_some] at h
      cases hy : inner.get? y with
      | none =>
        rw [hy, Option.getD_none] at h
        cases h
      | some members =>
        rw [hy, Option.getD_some] at h
        obtain ⟨e, he, hex, rfl⟩ := OrderedMap.get?_eq_some_iff.1 hx
        obtain ⟨f, hf, hfy, rfl⟩ := OrderedMap.get?_eq_some_iff.1 hy
        exact ⟨e, he, hex, f, hf, hfy, h⟩
  · rintro ⟨e, he, hex, f, hf, hfy, h⟩
    rw [OrderedMap.get?_eq_some_iff.2 ⟨e, he, hex, rfl⟩, Option.getD_some,
      OrderedMap.get?_eq_some_iff.2 ⟨f, hf, hfy, rfl⟩, Option.getD_some]
    exact h

section Scan

variable {level : Level} {a b c : Option Node} {build : Node → Node → Node → Triple}

theorem mem_scan {t : Triple} (h : t ∈ scan level a b c build) :
    ∃ x y z, t = build x y z ∧ level.holds x y z = true ∧
      allows a x = true ∧ allows b y = true ∧ allows c z = true := by
  unfold scan at h
  obtain ⟨e, he, h⟩ := List.mem_flatMap.1 h
  obtain ⟨f, hf, h⟩ := List.mem_flatMap.1 h
  obtain ⟨z, hz, rfl⟩ := List.mem_map.1 h
  obtain ⟨he, hea⟩ := mem_select.1 he
  obtain ⟨hf, hfb⟩ := mem_select.1 hf
  obtain ⟨hz, hzc⟩ := mem_selectMembers hz
  exact ⟨e.1, f.1, z, rfl, holds_iff.2 ⟨e, he, BEq.rfl, f, hf, BEq.rfl, hz⟩, hea, hfb, hzc⟩

theorem exists_mem_scan {x y z : Node} (held : level.holds x y z = true)
    (ha : allows a x = true) (hb : allows b y = true) (hc : allows c z = true) :
    ∃ x' y' z', build x' y' z' ∈ scan level a b c build ∧
      (x' == x) = true ∧ (y' == y) = true ∧ (z' == z) = true := by
  obtain ⟨e, he, hex, f, hf, hfy, hz⟩ := holds_iff.1 held
  obtain ⟨z', hz', hzz⟩ := exists_mem_selectMembers hz hc
  refine ⟨e.1, f.1, z', ?_, hex, hfy, hzz⟩
  refine List.mem_flatMap.2 ⟨e, mem_select.2 ⟨he, ?_⟩, ?_⟩
  · rw [TriplePattern.allows_congr hex, ha]
  refine List.mem_flatMap.2 ⟨f, mem_select.2 ⟨hf, ?_⟩, ?_⟩
  · rw [TriplePattern.allows_congr hfy, hb]
  exact List.mem_map_of_mem hz'

theorem pairwise_scan
    (hbuild : ∀ x y z x' y' z',
      (build x y z == build x' y' z') = (x == x' && y == y' && z == z')) :
    (scan level a b c build).Pairwise fun t u => (t == u) = false := by
  unfold scan
  rw [List.pairwise_flatMap]
  constructor
  · intro e _
    rw [List.pairwise_flatMap]
    constructor
    · intro f _
      rw [List.pairwise_map]
      refine (pairwise_selectMembers f.2 c).imp ?_
      intro z z' different
      rw [hbuild, different, Bool.and_false]
    · refine (pairwise_select e.2 b).imp ?_
      intro f f' different t ht u hu
      obtain ⟨z, _, rfl⟩ := List.mem_map.1 ht
      obtain ⟨z', _, rfl⟩ := List.mem_map.1 hu
      rw [hbuild, different, Bool.and_false, Bool.false_and]
  · refine (pairwise_select level a).imp ?_
    intro e e' different t ht u hu
    obtain ⟨f, _, ht⟩ := List.mem_flatMap.1 ht
    obtain ⟨f', _, hu⟩ := List.mem_flatMap.1 hu
    obtain ⟨z, _, rfl⟩ := List.mem_map.1 ht
    obtain ⟨z', _, rfl⟩ := List.mem_map.1 hu
    rw [hbuild, different, Bool.false_and, Bool.false_and]

end Scan

theorem holds_congr (level : Level) {x y z x' y' z' : Node} (hx : (x == x') = true)
    (hy : (y == y') = true) (hz : (z == z') = true) :
    level.holds x y z = level.holds x' y' z' := by
  rw [holds, holds, level.third_congr hx hy, OrderedSet.contains_congr _ hz]

end Level

end Entailment
