/-!
# Maps and sets that remember insertion order

An `OrderedMap` lists its entries in the order in which their keys first came in.
Replacing a value keeps the entry's place and its first key; erasing closes the
gap.  Keys are compared by `==`, so that a key type may identify more than equal
values, and no two keys of a map are the same.  An `OrderedSet` is the same for
members alone.

The lemmas say what a look-up finds after each operation.
-/

namespace Entailment

/-- No two elements are the same. -/
abbrev Distinct {α : Type} [BEq α] (as : List α) : Prop :=
  as.Pairwise fun a b => (a == b) = false

theorem Distinct.push {α : Type} [BEq α] {as : List α} {a : α} (distinct : Distinct as)
    (absent : as.any (· == a) = false) : Distinct (as ++ [a]) := by
  refine List.pairwise_append.2 ⟨distinct, List.pairwise_singleton _ _, ?_⟩
  intro b hb c hc
  rw [List.mem_singleton.1 hc]
  simpa using List.any_eq_false.1 absent b hb

structure OrderedMap (κ υ : Type) [BEq κ] where
  entries : List (κ × υ) := []
  distinct : Distinct (entries.map Prod.fst) := by simp

namespace OrderedMap

variable {κ υ : Type} [BEq κ]

def empty : OrderedMap κ υ := {}

instance : Inhabited (OrderedMap κ υ) := ⟨empty⟩

def keys (m : OrderedMap κ υ) : List κ := m.entries.map Prod.fst

def values (m : OrderedMap κ υ) : List υ := m.entries.map Prod.snd

def size (m : OrderedMap κ υ) : Nat := m.entries.length

def isEmpty (m : OrderedMap κ υ) : Bool := m.entries.isEmpty

/-- The stored entry whose key equals `k`. -/
def entry? (m : OrderedMap κ υ) (k : κ) : Option (κ × υ) := m.entries.find? fun e => e.1 == k

def get? (m : OrderedMap κ υ) (k : κ) : Option υ := (m.entry? k).map Prod.snd

def contains (m : OrderedMap κ υ) (k : κ) : Bool := m.entries.any fun e => e.1 == k

def insertEntry (k : κ) (v : υ) : List (κ × υ) → List (κ × υ)
  | [] => [(k, v)]
  | e :: rest => if e.1 == k then (e.1, v) :: rest else e :: insertEntry k v rest

theorem map_fst_insertEntry (k : κ) (v : υ) (es : List (κ × υ)) :
    (insertEntry k v es).map Prod.fst =
      if (es.map Prod.fst).any (· == k) then es.map Prod.fst else es.map Prod.fst ++ [k] := by
  induction es with
  | nil => rfl
  | cons e rest ih =>
    cases h : e.1 == k with
    | true => simp [insertEntry, h]
    | false =>
      simp only [insertEntry, h, Bool.false_eq_true, if_false, List.map_cons, ih,
        List.any_cons, Bool.false_or]
      split <;> rfl

theorem distinct_insertEntry (k : κ) (v : υ) {es : List (κ × υ)}
    (distinct : Distinct (es.map Prod.fst)) : Distinct ((insertEntry k v es).map Prod.fst) := by
  rw [map_fst_insertEntry]
  split
  · exact distinct
  · rename_i absent
    exact distinct.push (Bool.eq_false_iff.2 absent)

def insert (m : OrderedMap κ υ) (k : κ) (v : υ) : OrderedMap κ υ :=
  ⟨insertEntry k v m.entries, distinct_insertEntry k v m.distinct⟩

def erase (m : OrderedMap κ υ) (k : κ) : OrderedMap κ υ :=
  ⟨m.entries.filter fun e => !(e.1 == k), m.distinct.sublist (List.filter_sublist.map _)⟩

/-- The value at `k`, or an empty one, replaced by its image. -/
def alter [Inhabited υ] (m : OrderedMap κ υ) (k : κ) (f : υ → υ) : OrderedMap κ υ :=
  m.insert k (f ((m.get? k).getD default))

/-- The value at `k`, if there is one, replaced by its image. -/
def modify (m : OrderedMap κ υ) (k : κ) (f : υ → υ) : OrderedMap κ υ :=
  match m.get? k with
  | some v => m.insert k (f v)
  | none => m

/-- The map with `v` at `k`, or with nothing there if `v` is vacant. -/
def store (m : OrderedMap κ υ) (vacant : υ → Bool) (k : κ) (v : υ) : OrderedMap κ υ :=
  if vacant v then m.erase k else m.insert k v

theorem contains_eq_isSome_get? (m : OrderedMap κ υ) (k : κ) :
    m.contains k = (m.get? k).isSome := by
  rw [contains, get?, entry?, Option.isSome_map, List.isSome_find?]

@[simp]
theorem get?_empty (k : κ) : (empty : OrderedMap κ υ).get? k = none := rfl

@[simp]
theorem get?_default (k : κ) : (default : OrderedMap κ υ).get? k = none := rfl

theorem get?_of_isEmpty {m : OrderedMap κ υ} (h : m.isEmpty = true) (k : κ) :
    m.get? k = none := by
  simp_all [isEmpty, get?, entry?]

theorem get?_congr [EquivBEq κ] (m : OrderedMap κ υ) {k j : κ} (h : (k == j) = true) :
    m.get? k = m.get? j := by
  simp only [get?, entry?]
  exact congrArg (fun p => (m.entries.find? p).map Prod.snd)
    (funext fun e => BEq.congr_right h)

theorem keys_insert (m : OrderedMap κ υ) (k : κ) (v : υ) :
    (m.insert k v).keys = if m.contains k then m.keys else m.keys ++ [k] := by
  simp only [keys, insert, contains, map_fst_insertEntry, List.any_map]
  rfl

theorem get?_insert [EquivBEq κ] (m : OrderedMap κ υ) (k j : κ) (v : υ) :
    (m.insert k v).get? j = if k == j then some v else m.get? j := by
  obtain ⟨es, distinct⟩ := m
  simp only [insert, get?, entry?]
  clear distinct
  induction es with
  | nil => cases h : k == j <;> simp [insertEntry, h]
  | cons e rest ih =>
    simp only [insertEntry]
    cases he : e.1 == k with
    | true =>
      have hj : (e.1 == j) = (k == j) := BEq.congr_left he
      cases h : k == j <;> simp [hj, h]
    | false =>
      cases hj : e.1 == j with
      | true =>
        have hk : (k == j) = false := by
          cases h : k == j with
          | false => rfl
          | true => simp [BEq.trans hj (BEq.symm h)] at he
        simp [hj, hk]
      | false => simpa [hj] using ih

theorem get?_erase [EquivBEq κ] (m : OrderedMap κ υ) (k j : κ) :
    (m.erase k).get? j = if k == j then none else m.get? j := by
  simp only [erase, get?, entry?, List.find?_filter]
  cases h : k == j with
  | true =>
    have never : (m.entries.find? fun e => (!(e.1 == k)) && e.1 == j) = none := by
      rw [List.find?_eq_none]
      intro e _
      rw [BEq.congr_right (a := e.1) h]
      cases e.1 == j <;> simp
    simp [never]
  | false =>
    have same : (fun e : κ × υ => (!(e.1 == k)) && e.1 == j) = fun e => e.1 == j := by
      funext e
      cases hj : e.1 == j with
      | false => simp
      | true =>
        cases hk : e.1 == k with
        | false => rfl
        | true => simp [BEq.trans (BEq.symm hk) hj] at h
    simp [same]

theorem get?_alter [EquivBEq κ] [Inhabited υ] (m : OrderedMap κ υ) (k j : κ) (f : υ → υ) :
    (m.alter k f).get? j = if k == j then some (f ((m.get? j).getD default)) else m.get? j := by
  rw [alter, get?_insert]
  split
  · rename_i same
    rw [m.get?_congr same]
  · rfl

theorem get?_store [EquivBEq κ] (m : OrderedMap κ υ) (vacant : υ → Bool) (k j : κ) (v : υ) :
    (m.store vacant k v).get? j =
      if k == j then (if vacant v then none else some v) else m.get? j := by
  unfold store
  split
  · rw [get?_erase]
  · rw [get?_insert]

end OrderedMap

structure OrderedSet (α : Type) [BEq α] where
  members : List α := []
  distinct : Distinct members := by simp

namespace OrderedSet

variable {α : Type} [BEq α]

def empty : OrderedSet α := {}

instance : Inhabited (OrderedSet α) := ⟨empty⟩

def size (s : OrderedSet α) : Nat := s.members.length

def isEmpty (s : OrderedSet α) : Bool := s.members.isEmpty

def contains (s : OrderedSet α) (a : α) : Bool := s.members.any (· == a)

/-- The set with `a` at its end, unless a member equals it already. -/
def insert (s : OrderedSet α) (a : α) : OrderedSet α :=
  if h : s.contains a then s
  else ⟨s.members ++ [a], s.distinct.push (by simpa [contains] using h)⟩

def insertAll (s : OrderedSet α) (as : List α) : OrderedSet α := as.foldl insert s

def erase (s : OrderedSet α) (a : α) : OrderedSet α :=
  ⟨s.members.filter fun b => !(b == a), s.distinct.filter _⟩

/-- The member that came in last, and the set without it. -/
def pop? (s : OrderedSet α) : Option (α × OrderedSet α) :=
  s.members.getLast?.map fun a =>
    (a, ⟨s.members.dropLast, s.distinct.sublist (List.dropLast_sublist _)⟩)

/-- The first of every group of equal elements, in their order. -/
def ofList (as : List α) : OrderedSet α := empty.insertAll as

@[simp]
theorem contains_default (a : α) : (default : OrderedSet α).contains a = false := rfl

theorem contains_of_isEmpty {s : OrderedSet α} (h : s.isEmpty = true) (a : α) :
    s.contains a = false := by
  simp_all [isEmpty, contains]

theorem members_insert (s : OrderedSet α) (a : α) :
    (s.insert a).members = if s.contains a then s.members else s.members ++ [a] := by
  unfold insert
  split <;> rfl

theorem contains_insert [EquivBEq α] (s : OrderedSet α) (a b : α) :
    (s.insert a).contains b = (s.contains b || a == b) := by
  unfold insert
  split
  · rename_i present
    cases h : a == b with
    | false => simp
    | true =>
      have same : s.contains b = s.contains a := by
        unfold contains
        exact congrArg s.members.any (funext fun c => (BEq.congr_right h).symm)
      simp [same, present]
  · simp [contains]

theorem contains_erase [EquivBEq α] (s : OrderedSet α) (a b : α) :
    (s.erase a).contains b = (s.contains b && !(a == b)) := by
  simp only [contains, erase]
  rw [Bool.eq_iff_iff]
  simp only [List.any_eq_true, List.mem_filter, Bool.not_eq_true', Bool.and_eq_true]
  constructor
  · rintro ⟨c, ⟨hc, hne⟩, hcb⟩
    refine ⟨⟨c, hc, hcb⟩, ?_⟩
    cases h : a == b with
    | false => rfl
    | true => simp [BEq.trans hcb (BEq.symm h)] at hne
  · rintro ⟨⟨c, hc, hcb⟩, hne⟩
    refine ⟨c, ⟨hc, ?_⟩, hcb⟩
    cases h : c == a with
    | false => rfl
    | true => simp [BEq.trans (BEq.symm h) hcb] at hne

end OrderedSet

end Entailment
