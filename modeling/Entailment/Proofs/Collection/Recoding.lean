import Entailment.Proofs.Collection.Lookup

/-!
# Collections with other keys

A recoding gives every key a code, equal codes to equal keys and different codes to
different ones.  A collection whose keys are replaced by their codes keeps its order, and
every operation on it comes to what the same operation comes to on the given collection.
So whatever reads collections by their keys alone cannot tell the two apart.
-/

namespace Entailment

structure Recoding (κ κ' : Type) [BEq κ] [BEq κ'] where
  code : κ → κ'
  beq_code : ∀ a b, (code a == code b) = (a == b)

attribute [simp] Recoding.beq_code

namespace Recoding

variable {κ κ' ι ι' : Type} [BEq κ] [BEq κ'] [BEq ι] [BEq ι']

protected def id : Recoding κ κ := ⟨fun a => a, fun _ _ => rfl⟩

def prod (c : Recoding κ κ') (d : Recoding ι ι') : Recoding (κ × ι) (κ' × ι') where
  code p := (c.code p.1, d.code p.2)
  beq_code p q := by rw [pair_beq, pair_beq, beq_code, beq_code]

def option (c : Recoding κ κ') : Recoding (Option κ) (Option κ') where
  code := Option.map c.code
  beq_code a b := by
    cases a <;> cases b
    · rfl
    · rfl
    · rfl
    · exact c.beq_code _ _

def list (c : Recoding κ κ') : Recoding (List κ) (List κ') where
  code := List.map c.code
  beq_code as bs := by
    induction as generalizing bs with
    | nil => cases bs <;> rfl
    | cons a as ih =>
        cases bs with
        | nil => rfl
        | cons b bs =>
            rw [List.map_cons, List.map_cons, list_beq_cons, list_beq_cons, c.beq_code, ih]

end Recoding

/-! ## Lists of keys -/

section Lists

variable {κ κ' : Type} [BEq κ] [BEq κ'] (c : Recoding κ κ')

theorem Distinct.recode {as : List κ} (h : Distinct as) : Distinct (as.map c.code) :=
  List.pairwise_map.2 (h.imp fun hab => by rwa [c.beq_code])

@[simp]
theorem contains_map_code (as : List κ) (a : κ) :
    (as.map c.code).contains (c.code a) = as.contains a := by
  induction as with
  | nil => rfl
  | cons b as ih => rw [List.map_cons, List.contains_cons, List.contains_cons, ih, c.beq_code]

end Lists

/-! ## Maps -/

namespace OrderedMap

variable {κ κ' υ ω : Type} [BEq κ] [BEq κ'] (c : Recoding κ κ') (f : υ → ω)

theorem ext_entries {m m' : OrderedMap κ υ} (h : m.entries = m'.entries) : m = m' := by
  obtain ⟨entries, _⟩ := m
  obtain ⟨entries', _⟩ := m'
  cases h
  rfl

def recode (m : OrderedMap κ υ) : OrderedMap κ' ω where
  entries := m.entries.map fun e => (c.code e.1, f e.2)
  distinct := by
    have hcodes := m.distinct.recode c
    rwa [List.map_map] at hcodes ⊢

theorem entries_recode (m : OrderedMap κ υ) :
    (m.recode c f).entries = m.entries.map fun e => (c.code e.1, f e.2) := rfl

@[simp]
theorem recode_empty : (empty : OrderedMap κ υ).recode c f = empty := rfl

@[simp]
theorem size_recode (m : OrderedMap κ υ) : (m.recode c f).size = m.size := List.length_map _

@[simp]
theorem isEmpty_recode (m : OrderedMap κ υ) : (m.recode c f).isEmpty = m.isEmpty :=
  List.isEmpty_map

@[simp]
theorem keys_recode (m : OrderedMap κ υ) : (m.recode c f).keys = m.keys.map c.code := by
  simp [keys, recode, Function.comp_def]

@[simp]
theorem entry?_recode (m : OrderedMap κ υ) (k : κ) :
    entry? (m.recode c f) (c.code k) = (m.entry? k).map fun e => (c.code e.1, f e.2) := by
  rw [ entry?, entries_recode, List.find?_map]
  simp only [Function.comp_def, c.beq_code]
  rfl

@[simp]
theorem get?_recode (m : OrderedMap κ υ) (k : κ) :
    (m.recode c f).get? (c.code k) = (m.get? k).map f := by
  rw [get?, entry?_recode, get?, Option.map_map, Option.map_map]
  rfl

@[simp]
theorem contains_recode (m : OrderedMap κ υ) (k : κ) :
    (m.recode c f).contains (c.code k) = m.contains k := by
  rw [contains_eq_isSome_get?, get?_recode, Option.isSome_map, contains_eq_isSome_get?]

theorem map_insertEntry (k : κ) (v : υ) (es : List (κ × υ)) :
    (insertEntry k v es).map (fun e => (c.code e.1, f e.2)) =
      insertEntry (c.code k) (f v) (es.map fun e => (c.code e.1, f e.2)) := by
  induction es with
  | nil => rfl
  | cons e es ih =>
      rw [List.map_cons, insertEntry, insertEntry, c.beq_code]
      split
      · rfl
      · rw [List.map_cons, ih]

@[simp]
theorem recode_insert (m : OrderedMap κ υ) (k : κ) (v : υ) :
    (m.insert k v).recode c f = (m.recode c f).insert (c.code k) (f v) :=
  ext_entries (map_insertEntry c f k v m.entries)

@[simp]
theorem recode_erase (m : OrderedMap κ υ) (k : κ) :
    (m.erase k).recode c f = (m.recode c f).erase (c.code k) := by
  refine ext_entries ?_
  simp only [erase, entries_recode, List.filter_map, Function.comp_def, c.beq_code]

theorem recode_foldl_erase (ks : List κ) (m : OrderedMap κ υ) :
    (ks.foldl erase m).recode c f = (ks.map c.code).foldl erase (m.recode c f) := by
  induction ks generalizing m with
  | nil => rfl
  | cons k ks ih => rw [List.foldl_cons, ih, List.map_cons, List.foldl_cons, recode_erase]

/-- The value at a key is altered like its image, which may start from another empty one. -/
theorem recode_alter [Inhabited υ] [Inhabited ω] (m : OrderedMap κ υ) (k : κ) {g : υ → υ}
    {g' : ω → ω} (hdefault : f default = default) (hg : ∀ v, f (g v) = g' (f v)) :
    (m.alter k g).recode c f = (m.recode c f).alter (c.code k) g' := by
  rw [alter, recode_insert, alter, get?_recode, hg]
  cases m.get? k with
  | none => rw [Option.getD_none, Option.map_none, Option.getD_none, hdefault]
  | some v => rfl

theorem recode_modify (m : OrderedMap κ υ) (k : κ) {g : υ → υ} {g' : ω → ω}
    (hg : ∀ v, f (g v) = g' (f v)) :
    (m.modify k g).recode c f = (m.recode c f).modify (c.code k) g' := by
  rw [modify, modify, get?_recode]
  cases m.get? k with
  | none => rfl
  | some v => exact (recode_insert c f m k (g v)).trans (congrArg _ (hg v))

theorem recode_store (m : OrderedMap κ υ) {vacant : υ → Bool} {vacant' : ω → Bool} (k : κ) (v : υ)
    (hvacant : vacant' (f v) = vacant v) :
    (m.store vacant k v).recode c f = (m.recode c f).store vacant' (c.code k) (f v) := by
  rw [store, store, hvacant]
  split
  · exact recode_erase c f m k
  · exact recode_insert c f m k v

/-- A map that is its own image under the codes of its keys and the images of its values. -/
theorem recode_eq_self {c : Recoding κ κ} {f : υ → υ} {m : OrderedMap κ υ}
    (h : ∀ e ∈ m.entries, c.code e.1 = e.1 ∧ f e.2 = e.2) : m.recode c f = m := by
  refine ext_entries ((List.map_congr_left fun e he => ?_).trans (List.map_id _))
  obtain ⟨hkey, hvalue⟩ := h e he
  rw [hkey, hvalue, id]

end OrderedMap

/-! ## Sets -/

namespace OrderedSet

variable {α α' : Type} [BEq α] [BEq α'] (c : Recoding α α')

theorem ext_members {s s' : OrderedSet α} (h : s.members = s'.members) : s = s' := by
  obtain ⟨members, _⟩ := s
  obtain ⟨members', _⟩ := s'
  cases h
  rfl

def recode (s : OrderedSet α) : OrderedSet α' := ⟨s.members.map c.code, s.distinct.recode c⟩

@[simp]
theorem members_recode (s : OrderedSet α) : (s.recode c).members = s.members.map c.code := rfl

@[simp]
theorem recode_empty : (empty : OrderedSet α).recode c = empty := rfl

@[simp]
theorem isEmpty_recode (s : OrderedSet α) : (s.recode c).isEmpty = s.isEmpty := List.isEmpty_map

@[simp]
theorem contains_recode (s : OrderedSet α) (a : α) :
    (s.recode c).contains (c.code a) = s.contains a := by
  simp only [contains, members_recode, List.any_map, Function.comp_def, c.beq_code]

@[simp]
theorem recode_insert (s : OrderedSet α) (a : α) :
    (s.insert a).recode c = (s.recode c).insert (c.code a) := by
  refine ext_members ?_
  rw [members_recode, members_insert, members_insert, contains_recode]
  split
  · rfl
  · rw [List.map_append, List.map_singleton, members_recode]

@[simp]
theorem recode_erase (s : OrderedSet α) (a : α) :
    (s.erase a).recode c = (s.recode c).erase (c.code a) := by
  refine ext_members ?_
  simp only [erase, members_recode, List.filter_map, Function.comp_def, c.beq_code]

theorem recode_insertAll (s : OrderedSet α) (as : List α) :
    (s.insertAll as).recode c = (s.recode c).insertAll (as.map c.code) := by
  induction as generalizing s with
  | nil => rfl
  | cons a as ih => exact (ih (s.insert a)).trans (by rw [recode_insert]; rfl)

theorem recode_ofList (as : List α) : (ofList as).recode c = ofList (as.map c.code) :=
  recode_insertAll c empty as

theorem pop?_recode (s : OrderedSet α) :
    (s.recode c).pop? = s.pop?.map fun popped => (c.code popped.1, popped.2.recode c) := by
  simp only [pop?, members_recode, List.getLast?_map, Option.map_map]
  refine congrArg (fun g => s.members.getLast?.map g) (funext fun a => ?_)
  exact Prod.ext rfl (ext_members (List.map_dropLast).symm)

theorem recode_eq_self {c : Recoding α α} {s : OrderedSet α} (h : ∀ a ∈ s.members, c.code a = a) :
    s.recode c = s :=
  ext_members ((List.map_congr_left h).trans (List.map_id _))

end OrderedSet

/-! ## Descent -/

section Descent

variable {α β : Type} [DecidableEq α] [DecidableEq β] {f : α → β} {next : α → List α}
  {next' : β → List β}

theorem descendWithin_map (hf : Function.Injective f) (hnext : ∀ a, next' (f a) = (next a).map f)
    (bound : Nat) (domain pending : List α) :
    descendWithin next' bound (domain.map f) (pending.map f) =
      (descendWithin next bound domain pending).map f := by
  induction bound generalizing domain pending with
  | zero => rfl
  | succ bound ih =>
      have hdrop : (pending.map f).dropWhile (· ∉ domain.map f) =
          (pending.dropWhile (· ∉ domain)).map f := by
        rw [List.dropWhile_map]
        refine congrArg (fun p => (pending.dropWhile p).map f) (funext fun a => ?_)
        exact decide_eq_decide.2 (not_congr (List.mem_map_of_injective hf))
      rw [descendWithin, descendWithin, hdrop]
      cases pending.dropWhile (· ∉ domain) with
      | nil => rfl
      | cons a rest =>
          rw [List.map_cons]
          simp only
          rw [hnext, ← List.map_reverse, ← List.map_append, ← List.map_erase hf, ih, List.map_cons]

/-- A descent over renamed members meets them in the same order. -/
theorem descend_map (hf : Function.Injective f) (hnext : ∀ a, next' (f a) = (next a).map f)
    (domain pending : List α) :
    descend next' (domain.map f) (pending.map f) = (descend next domain pending).map f := by
  rw [descend, descend, List.length_map, ← List.map_reverse]
  exact descendWithin_map hf hnext _ _ _

end Descent

/-! ## Token indexes -/

namespace TokenIndex

variable {κ κ' : Type} [BEq κ] [BEq κ'] (c : Recoding κ κ') (d : Recoding TokenId TokenId)

def recode (index : TokenIndex κ) : TokenIndex κ' := OrderedMap.recode c (OrderedSet.recode d) index

theorem recode_add (index : TokenIndex κ) (k : κ) (id : TokenId) :
    (index.add k id).recode c d = (index.recode c d).add (c.code k) (d.code id) :=
  OrderedMap.recode_alter c _ index k rfl fun ids => OrderedSet.recode_insert d ids id

theorem recode_remove (index : TokenIndex κ) (k : κ) (id : TokenId) :
    (index.remove k id).recode c d = (index.recode c d).remove (c.code k) (d.code id) := by
  unfold remove recode
  rw [OrderedMap.get?_recode]
  cases OrderedMap.get? index k with
  | none => rfl
  | some ids =>
      rw [Option.map_some]
      simp only
      rw [← OrderedSet.recode_erase]
      exact OrderedMap.recode_store c _ index k _ (OrderedSet.isEmpty_recode d _)

theorem ids_recode (index : TokenIndex κ) (k : κ) :
    (index.recode c d).ids (c.code k) = (index.ids k).map d.code := by
  unfold ids recode
  rw [OrderedMap.get?_recode]
  cases OrderedMap.get? index k <;> rfl

end TokenIndex

end Entailment
