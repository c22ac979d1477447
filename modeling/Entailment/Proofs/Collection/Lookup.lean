import Entailment.Collection.OrderedMap
import Entailment.Forward.TokenMemory
import Mathlib.Algebra.GroupWithZero.Nat
import Mathlib.Data.List.Forall2

/-!
# What collections find

Every operation on an ordered map, an ordered set or a token index is described by
what can be found afterwards.  Keys are only compared by `==`, so lists, pairs and
optional keys need that their comparison is an equivalence too.
-/

namespace Entailment

/-! ## Equivalence of composed keys -/

section Keys

variable {α β : Type} [BEq α] [BEq β]

theorem list_beq_cons (a b : α) (as bs : List α) :
    ((a :: as) == (b :: bs)) = (a == b && as == bs) := rfl

theorem list_beq_iff_forall₂ {as bs : List α} :
    (as == bs) = true ↔ List.Forall₂ (fun a b => (a == b) = true) as bs := by
  induction as generalizing bs with
  | nil =>
    cases bs with
    | nil => simp
    | cons b bs => simp
  | cons a as ih =>
    cases bs with
    | nil => simp
    | cons b bs => rw [list_beq_cons, Bool.and_eq_true, ih, List.forall₂_cons]

theorem length_eq_of_list_beq {as bs : List α} (h : (as == bs) = true) :
    as.length = bs.length :=
  (list_beq_iff_forall₂.1 h).length_eq

omit [BEq α] in
theorem exists_mem_of_forall₂ {β : Type} {R : α → β → Prop} {as : List α} {bs : List β}
    (h : List.Forall₂ R as bs) {b : β} (hb : b ∈ bs) : ∃ a ∈ as, R a b := by
  induction h with
  | nil => cases hb
  | @cons a c as cs hac _ ih =>
      rcases List.mem_cons.1 hb with rfl | hb
      · exact ⟨a, List.mem_cons_self, hac⟩
      · obtain ⟨a', ha', hab⟩ := ih hb
        exact ⟨a', List.mem_cons_of_mem _ ha', hab⟩

instance equivBEqList [EquivBEq α] : EquivBEq (List α) where
  rfl {as} := by
    induction as with
    | nil => rfl
    | cons a as ih => rw [list_beq_cons, ih, BEq.rfl]; rfl
  symm {as bs} h := by
    rw [list_beq_iff_forall₂] at h ⊢
    exact h.flip.imp fun _ _ same => BEq.symm same
  trans {as bs cs} h k := by
    rw [list_beq_iff_forall₂] at h k ⊢
    induction h generalizing cs with
    | nil => exact k
    | cons same _ ih =>
      cases k with
      | cons other rest => exact List.Forall₂.cons (BEq.trans same other) (ih rest)

instance equivBEqOption [EquivBEq α] : EquivBEq (Option α) where
  rfl {a} := by
    cases a with
    | none => rfl
    | some a => exact (BEq.rfl : (a == a) = true)
  symm {a b} h := by
    cases a <;> cases b <;> first | exact h | exact BEq.symm (α := α) h
  trans {a b c} h k := by
    cases a <;> cases b <;> cases c <;>
      first | exact h | exact k | cases h | cases k | exact BEq.trans (α := α) h k

theorem pair_beq (p q : α × β) : (p == q) = (p.1 == q.1 && p.2 == q.2) := rfl

instance equivBEqProd [EquivBEq α] [EquivBEq β] : EquivBEq (α × β) where
  rfl {p} := by rw [pair_beq, BEq.rfl, BEq.rfl]; rfl
  symm {p q} h := by
    rw [pair_beq, Bool.and_eq_true] at h ⊢
    exact ⟨BEq.symm h.1, BEq.symm h.2⟩
  trans {p q r} h k := by
    rw [pair_beq, Bool.and_eq_true] at h k ⊢
    exact ⟨BEq.trans h.1 k.1, BEq.trans h.2 k.2⟩

end Keys

/-! ## Maps -/

namespace OrderedMap

variable {κ υ : Type} [BEq κ]

theorem get?_modify [EquivBEq κ] (m : OrderedMap κ υ) (k j : κ) (f : υ → υ) :
    (m.modify k f).get? j = if k == j then (m.get? j).map f else m.get? j := by
  unfold modify
  cases h : m.get? k with
  | none =>
    by_cases same : (k == j) = true
    · rw [if_pos same, ← m.get?_congr same, h]
      rfl
    · rw [if_neg same]
  | some v =>
    simp only [get?_insert]
    by_cases same : (k == j) = true
    · rw [if_pos same, if_pos same, ← m.get?_congr same, h]
      rfl
    · rw [if_neg same, if_neg same]

theorem get?_foldl_erase [EquivBEq κ] (ks : List κ) (m : OrderedMap κ υ) (j : κ) :
    (ks.foldl erase m).get? j = if ks.any (· == j) then none else m.get? j := by
  induction ks generalizing m with
  | nil => simp
  | cons k ks ih =>
    rw [List.foldl_cons, ih, get?_erase, List.any_cons]
    cases k == j <;> simp

theorem entries_foldl_erase (ks : List κ) (m : OrderedMap κ υ) :
    (ks.foldl erase m).entries = m.entries.filter fun e => !ks.any fun k => e.1 == k := by
  induction ks generalizing m with
  | nil => simp
  | cons k ks ih =>
      rw [List.foldl_cons, ih, erase, List.filter_filter]
      refine List.filter_congr fun e _ => ?_
      rw [List.any_cons, Bool.not_or, Bool.and_comm]

theorem isSome_get?_iff {m : OrderedMap κ υ} {k : κ} :
    (m.get? k).isSome = true ↔ ∃ e ∈ m.entries, (e.1 == k) = true := by
  rw [← contains_eq_isSome_get?, contains, List.any_eq_true]

/-- No two entries share a key, so the first entry found at a key is the only one. -/
theorem entry?_eq_some_iff [EquivBEq κ] {m : OrderedMap κ υ} {k : κ} {e : κ × υ} :
    m.entry? k = some e ↔ e ∈ m.entries ∧ (e.1 == k) = true := by
  obtain ⟨es, distinct⟩ := m
  simp only [ entry?]
  induction es with
  | nil => simp
  | cons first rest ih =>
    rw [List.map_cons, Distinct, List.pairwise_cons] at distinct
    rw [List.find?_cons, List.mem_cons]
    by_cases same : (first.1 == k) = true
    · rw [same]
      constructor
      · intro h
        cases h
        exact ⟨Or.inl rfl, same⟩
      · rintro ⟨rfl | later, hk⟩
        · rfl
        · have clash := distinct.1 e.1 (List.mem_map_of_mem later)
          rw [BEq.trans same (BEq.symm hk)] at clash
          cases clash
    · rw [Bool.eq_false_iff.2 same]
      rw [ih distinct.2]
      constructor
      · rintro ⟨later, hk⟩
        exact ⟨Or.inr later, hk⟩
      · rintro ⟨rfl | later, hk⟩
        · exact absurd hk same
        · exact ⟨later, hk⟩

theorem get?_eq_some_iff [EquivBEq κ] {m : OrderedMap κ υ} {k : κ} {v : υ} :
    m.get? k = some v ↔ ∃ e ∈ m.entries, (e.1 == k) = true ∧ e.2 = v := by
  rw [get?, Option.map_eq_some_iff]
  constructor
  · rintro ⟨e, he, rfl⟩
    obtain ⟨hmem, hk⟩ := entry?_eq_some_iff.1 he
    exact ⟨e, hmem, hk, rfl⟩
  · rintro ⟨e, hmem, hk, rfl⟩
    exact ⟨e, entry?_eq_some_iff.2 ⟨hmem, hk⟩, rfl⟩

theorem mem_entries_iff [LawfulBEq κ] {m : OrderedMap κ υ} {k : κ} {v : υ} :
    (k, v) ∈ m.entries ↔ m.get? k = some v := by
  rw [get?_eq_some_iff]
  constructor
  · intro h
    exact ⟨(k, v), h, by simp, rfl⟩
  · rintro ⟨⟨j, w⟩, h, same, rfl⟩
    have same : j = k := by simpa using same
    exact same ▸ h

theorem mem_keys_iff [LawfulBEq κ] {m : OrderedMap κ υ} {k : κ} :
    k ∈ m.keys ↔ (m.get? k).isSome = true := by
  rw [isSome_get?_iff, keys, List.mem_map]
  constructor
  · rintro ⟨e, he, rfl⟩
    exact ⟨e, he, by simp⟩
  · rintro ⟨e, he, same⟩
    exact ⟨e, he, by simpa using same⟩

theorem nodup_keys [LawfulBEq κ] (m : OrderedMap κ υ) : m.keys.Nodup :=
  m.distinct.imp fun h => by simpa using h

/-- What the values of a map weigh together. -/
def weight (f : υ → Nat) (m : OrderedMap κ υ) : Nat := (m.entries.map fun e => f e.2).sum

theorem weight_insert [EquivBEq κ] (f : υ → Nat) {m : OrderedMap κ υ} {k : κ} {v : υ} (w : υ)
    (h : m.get? k = some v) : (m.insert k w).weight f + f v = m.weight f + f w := by
  obtain ⟨es, distinct⟩ := m
  simp only [weight, insert]
  induction es with
  | nil => cases h
  | cons first rest ih =>
    by_cases same : (first.1 == k) = true
    · simp only [get?, entry?, List.find?_cons, same, Option.map_some, Option.some.injEq] at h
      simp only [insertEntry, same, if_true, List.map_cons, List.sum_cons, h]
      omega
    · rw [Bool.not_eq_true] at same
      rw [List.map_cons, Distinct, List.pairwise_cons] at distinct
      simp only [get?, entry?, List.find?_cons, same] at h
      have hrest := ih distinct.2 h
      simp only [insertEntry, same, Bool.false_eq_true, if_false, List.map_cons, List.sum_cons]
      omega

theorem weight_insert_new (f : υ → Nat) {m : OrderedMap κ υ} {k : κ} (w : υ)
    (h : m.get? k = none) : (m.insert k w).weight f = m.weight f + f w := by
  obtain ⟨es, distinct⟩ := m
  simp only [weight, insert]
  induction es with
  | nil => simp [insertEntry]
  | cons first rest ih =>
    by_cases same : (first.1 == k) = true
    · simp [get?, entry?, same] at h
    · rw [Bool.not_eq_true] at same
      rw [List.map_cons, Distinct, List.pairwise_cons] at distinct
      simp only [get?, entry?, List.find?_cons, same] at h
      have hrest := ih distinct.2 h
      simp only [insertEntry, same, Bool.false_eq_true, if_false, List.map_cons, List.sum_cons]
      omega

theorem weight_erase [EquivBEq κ] (f : υ → Nat) {m : OrderedMap κ υ} {k : κ} {v : υ}
    (h : m.get? k = some v) : (m.erase k).weight f + f v = m.weight f := by
  obtain ⟨es, distinct⟩ := m
  simp only [weight, erase]
  induction es with
  | nil => cases h
  | cons first rest ih =>
    rw [List.map_cons, Distinct, List.pairwise_cons] at distinct
    by_cases same : (first.1 == k) = true
    · simp only [get?, entry?, List.find?_cons, same, Option.map_some, Option.some.injEq] at h
      have hrest : (rest.filter fun e => !(e.1 == k)) = rest := by
        rw [List.filter_eq_self]
        intro e he
        have different := distinct.1 e.1 (List.mem_map_of_mem he)
        rw [BEq.congr_left same, BEq.comm] at different
        rw [different]
        rfl
      simp only [List.filter_cons, same, Bool.not_true, Bool.false_eq_true, if_false, hrest,
        List.map_cons, List.sum_cons, h]
      omega
    · rw [Bool.not_eq_true] at same
      simp only [get?, entry?, List.find?_cons, same] at h
      have hrest := ih distinct.2 h
      simp only [List.filter_cons, same, Bool.not_false, if_true, List.map_cons, List.sum_cons]
      omega

theorem erase_of_get?_eq_none {m : OrderedMap κ υ} {k : κ} (h : m.get? k = none) :
    m.erase k = m := by
  have hnone : m.contains k = false := by
    rw [contains_eq_isSome_get?, h]
    rfl
  obtain ⟨es, distinct⟩ := m
  simp only [erase, mk.injEq, List.filter_eq_self]
  intro e he
  rw [contains, List.any_eq_false] at hnone
  simpa using hnone e he

/-- What is erased takes its weight along. -/
theorem weight_foldl_erase [LawfulBEq κ] (f : υ → Nat) {ks : List κ} (hks : ks.Nodup)
    (m : OrderedMap κ υ) :
    (ks.foldl erase m).weight f + ((ks.filterMap m.get?).map f).sum = m.weight f := by
  induction ks generalizing m with
  | nil => simp
  | cons k ks ih =>
      obtain ⟨hk, hks⟩ := List.nodup_cons.1 hks
      have hrest : ks.filterMap (m.erase k).get? = ks.filterMap m.get? := by
        apply List.filterMap_congr
        intro j hj
        rw [get?_erase, if_neg]
        intro same
        exact hk (LawfulBEq.eq_of_beq same ▸ hj)
      have hstep := ih hks (m.erase k)
      rw [hrest] at hstep
      rw [List.foldl_cons]
      cases hv : m.get? k with
      | none =>
          rw [List.filterMap_cons_none hv, hstep, erase_of_get?_eq_none hv]
      | some v =>
          have herase := weight_erase f hv
          rw [List.filterMap_cons_some hv, List.map_cons, List.sum_cons]
          omega

end OrderedMap

/-! ## Sets -/

namespace OrderedSet

variable {α : Type} [BEq α]

theorem contains_iff {s : OrderedSet α} {a : α} :
    s.contains a = true ↔ ∃ b ∈ s.members, (b == a) = true := by
  rw [contains, List.any_eq_true]

theorem contains_of_mem [ReflBEq α] {s : OrderedSet α} {a : α} (h : a ∈ s.members) :
    s.contains a = true :=
  contains_iff.2 ⟨a, h, BEq.rfl⟩

theorem contains_congr [EquivBEq α] (s : OrderedSet α) {a b : α} (h : (a == b) = true) :
    s.contains a = s.contains b :=
  congrArg s.members.any (funext fun _ => BEq.congr_right h)

theorem contains_empty (a : α) : (empty : OrderedSet α).contains a = false := rfl

theorem contains_insertAll [EquivBEq α] (as : List α) (s : OrderedSet α) (b : α) :
    (s.insertAll as).contains b = (s.contains b || as.any (· == b)) := by
  unfold insertAll
  induction as generalizing s with
  | nil => simp
  | cons a as ih => rw [List.foldl_cons, ih, contains_insert, List.any_cons, Bool.or_assoc]

theorem contains_ofList [EquivBEq α] (as : List α) (b : α) :
    (ofList as).contains b = as.any (· == b) := by
  rw [ofList, contains_insertAll, contains_empty, Bool.false_or]

theorem mem_insert {s : OrderedSet α} {a b : α} (h : b ∈ (s.insert a).members) :
    b ∈ s.members ∨ b = a := by
  rw [members_insert] at h
  split at h
  · exact Or.inl h
  · simpa using h

theorem mem_insertAll {as : List α} {s : OrderedSet α} {b : α}
    (h : b ∈ (s.insertAll as).members) : b ∈ s.members ∨ b ∈ as := by
  unfold insertAll at h
  induction as generalizing s with
  | nil => exact Or.inl h
  | cons a as ih =>
    rcases ih h with earlier | later
    · rcases mem_insert earlier with old | rfl
      · exact Or.inl old
      · exact Or.inr (List.mem_cons_self ..)
    · exact Or.inr (List.mem_cons_of_mem _ later)

theorem mem_ofList {as : List α} {b : α} (h : b ∈ (ofList as).members) : b ∈ as := by
  rcases mem_insertAll h with none | found
  · cases none
  · exact found

theorem members_prefix_insertAll (s : OrderedSet α) (as : List α) :
    s.members <+: (s.insertAll as).members := by
  induction as generalizing s with
  | nil => exact List.prefix_rfl
  | cons a as ih =>
      refine List.IsPrefix.trans ?_ (ih (s.insert a))
      rw [members_insert]
      split
      · exact List.prefix_rfl
      · exact List.prefix_append ..

theorem isEmpty_iff {s : OrderedSet α} : s.isEmpty = true ↔ s.members = [] := by
  rw [isEmpty, List.isEmpty_iff]

theorem size_erase_lt {s : OrderedSet α} {a : α} (h : s.contains a = true) :
    (s.erase a).size < s.size := by
  obtain ⟨b, hb, same⟩ := contains_iff.1 h
  apply List.length_filter_lt_length_iff_exists.2
  exact ⟨b, hb, by simp [same]⟩

theorem size_insert_le (s : OrderedSet α) (a : α) : (s.insert a).size ≤ s.size + 1 := by
  rw [size, members_insert]
  split
  · exact Nat.le_succ _
  · rw [List.length_append, List.length_singleton]
    exact Nat.le_refl _

theorem pop?_eq_none_iff {s : OrderedSet α} : s.pop? = none ↔ s.members = [] := by
  rw [pop?, Option.map_eq_none_iff, List.getLast?_eq_none_iff]

theorem members_of_pop? {s rest : OrderedSet α} {a : α} (h : s.pop? = some (a, rest)) :
    s.members = rest.members ++ [a] := by
  unfold pop? at h
  rw [Option.map_eq_some_iff] at h
  obtain ⟨b, hb, hpair⟩ := h
  obtain ⟨rfl, rfl⟩ := Prod.mk.inj hpair
  exact (List.dropLast_append_getLast? b (Option.mem_def.2 hb)).symm

theorem contains_of_pop? [EquivBEq α] {s rest : OrderedSet α} {a : α}
    (h : s.pop? = some (a, rest)) (b : α) :
    s.contains b = (rest.contains b || a == b) := by
  rw [contains, members_of_pop? h, List.any_append]
  simp [contains]

end OrderedSet

/-! ## Token indexes -/

namespace TokenIndex

variable {κ : Type} [BEq κ] [EquivBEq κ]

theorem mem_ids_add {index : TokenIndex κ} {k j : κ} {id other : TokenId} :
    other ∈ (index.add k id).ids j ↔
      other ∈ index.ids j ∨ ((k == j) = true ∧ other = id) := by
  unfold ids add
  rw [OrderedMap.get?_alter]
  by_cases same : (k == j) = true
  · rw [if_pos same]
    cases h : index.get? j with
    | none =>
      have none : (default : OrderedSet TokenId).members = [] := rfl
      simp [OrderedSet.members_insert, same, none]
    | some ids =>
      simp only [Option.getD_some, OrderedSet.members_insert, same, true_and]
      split
      · rename_i present
        obtain ⟨b, hb, eq⟩ := OrderedSet.contains_iff.1 present
        have eq : b = id := by simpa using eq
        subst eq
        exact ⟨Or.inl, fun h => h.elim (fun h => h) fun h => h ▸ hb⟩
      · simp
  · rw [if_neg same]
    simp [same]

theorem mem_ids_remove {index : TokenIndex κ} {k j : κ} {id other : TokenId} :
    other ∈ (index.remove k id).ids j ↔
      other ∈ index.ids j ∧ ¬((k == j) = true ∧ other = id) := by
  unfold ids remove
  cases h : index.get? k with
  | none =>
    by_cases same : (k == j) = true
    · have none : index.get? j = none := by rw [← index.get?_congr same, h]
      simp [none]
    · simp [same]
  | some ids =>
    simp only [OrderedMap.get?_store]
    by_cases same : (k == j) = true
    · rw [if_pos same, ← index.get?_congr same, h]
      simp only [same, true_and]
      by_cases empty : (ids.erase id).isEmpty = true
      · rw [if_pos empty]
        have none := OrderedSet.isEmpty_iff.1 empty
        simp only [OrderedSet.erase, List.filter_eq_nil_iff] at none
        constructor
        · simp
        · rintro ⟨hother, hne⟩
          exact absurd (by simpa using none other hother) hne
      · rw [if_neg empty]
        simp [OrderedSet.erase]
    · rw [if_neg same]
      simp [same]

end TokenIndex

end Entailment
