import Entailment.Builtin.Action
import Entailment.Proofs.Collection.Lookup
import Entailment.Proofs.Term.Equality

/-!
# Equal terms are hashed alike

Equality of terms is an equivalence, and two terms give a hasher the same values exactly
if they are equal.  So a table that compares hashes before it compares its keys, whatever
the hash is made of these values, finds what comparing all keys would find.  This holds
of all that tables are keyed by: nodes, triples, lists of nodes, and edges from a token
along a triple.
-/

namespace Entailment

/-! ## What equal terms give a hasher -/

theorem Literal.feed_append_iff {l l' : Literal} {xs ys : List HashValue} :
    l.feed ++ xs = l'.feed ++ ys ↔ (l == l') = true ∧ xs = ys := by
  have hbits : ∀ d e : Double, d.bits = e.bits ↔ d = e := fun d e => by
    cases d
    cases e
    exact Iff.of_eq (Double.mk.injEq ..).symm
  rw [Literal.beq_iff_folded]
  cases l <;> cases l' <;> simp [feed, folded, hbits, and_assoc]

namespace Node

mutual
/-- What nodes give a hasher tells where the one ends and whether they are equal. -/
theorem feed_append_iff {m n : Node} {xs ys : List HashValue} :
    m.feed ++ xs = n.feed ++ ys ↔ (m == n) = true ∧ xs = ys := by
  rw [beq_eq_same]
  cases m with
  | literal l =>
      cases n with
      | literal l' =>
          simp only [feed, same, List.cons_append, List.cons.injEq, true_and]
          exact Literal.feed_append_iff
      | _ => simp [feed, same]
  | functor f as =>
      cases n with
      | functor g bs =>
          simp only [feed, same, List.cons_append, List.cons.injEq, HashValue.text.injEq, true_and,
            HashValue.length.injEq, Bool.and_eq_true, beq_iff_eq, and_assoc]
          refine and_congr_right fun _ => ⟨fun ⟨hlength, h⟩ => ?_, fun ⟨h, hrest⟩ => ?_⟩
          · exact (feedAll_append_iff hlength).1 h
          · have hlength := length_eq_of_list_beq ((sameAll_eq_beq as bs).symm.trans h)
            exact ⟨hlength, (feedAll_append_iff hlength).2 ⟨h, hrest⟩⟩
      | _ => simp [feed, same]
  | var v =>
      cases n with
      | var w =>
          cases v
          cases w
          simp [feed, same, and_assoc]
      | _ => simp [feed, same]
  | _ => cases n <;> simp [feed, same]

theorem feedAll_append_iff {ms ns : List Node} {xs ys : List HashValue}
    (hlength : ms.length = ns.length) :
    feedAll ms ++ xs = feedAll ns ++ ys ↔ sameAll ms ns = true ∧ xs = ys := by
  match ms, ns with
  | [], [] => simp [feedAll, sameAll]
  | m :: ms, n :: ns =>
      rw [feedAll, feedAll, List.append_assoc, List.append_assoc, feed_append_iff,
        feedAll_append_iff (Nat.succ.inj hlength), sameAll, Bool.and_eq_true, and_assoc]
      rfl
end

end Node

/-! ## Keys of tables -/

/-- What a key gives a hasher. -/
class HashKey (κ : Type) where
  feed : κ → List HashValue

/-- What keys give a hasher tells where the one ends and whether they are equal. -/
class LawfulHashKey (κ : Type) [BEq κ] [HashKey κ] : Prop where
  feed_append_iff : ∀ {a b : κ} {xs ys : List HashValue},
    HashKey.feed a ++ xs = HashKey.feed b ++ ys ↔ (a == b) = true ∧ xs = ys

open HashKey LawfulHashKey

instance : HashKey Nat := ⟨fun n => [.number n]⟩

instance : LawfulHashKey Nat := ⟨by simp [feed]⟩

instance : HashKey Node := ⟨Node.feed⟩

instance : LawfulHashKey Node := ⟨Node.feed_append_iff⟩

instance : HashKey Triple := ⟨Triple.feed⟩

instance : LawfulHashKey Triple where
  feed_append_iff {t u xs ys} := by
    change (t.subject.feed ++ t.predicate.feed ++ t.object.feed) ++ xs =
      (u.subject.feed ++ u.predicate.feed ++ u.object.feed) ++ ys ↔ _
    rw [List.append_assoc, List.append_assoc, List.append_assoc, List.append_assoc,
      Node.feed_append_iff, Node.feed_append_iff, Node.feed_append_iff, Triple.beq_iff,
      and_assoc, and_assoc]

section Composed

variable {α β : Type} [HashKey α] [HashKey β]

instance : HashKey (α × β) := ⟨fun p => feed p.1 ++ feed p.2⟩

instance : HashKey (Option α) where
  feed
    | none => [.kind 0]
    | some a => .kind 1 :: feed a

instance : HashKey (List α) := ⟨fun as => .length as.length :: as.flatMap feed⟩

variable [BEq α] [BEq β] [LawfulHashKey α] [LawfulHashKey β]

instance : LawfulHashKey (α × β) where
  feed_append_iff {p q xs ys} := by
    change (feed p.1 ++ feed p.2) ++ xs = (feed q.1 ++ feed q.2) ++ ys ↔ _
    rw [List.append_assoc, List.append_assoc, feed_append_iff, feed_append_iff, pair_beq,
      Bool.and_eq_true, and_assoc]

instance : LawfulHashKey (Option α) where
  feed_append_iff {a b xs ys} := by
    cases a with
    | none => cases b <;> simp [feed]
    | some a =>
        cases b with
        | none => simp [feed]
        | some b =>
            change HashValue.kind 1 :: feed a ++ xs = HashValue.kind 1 :: feed b ++ ys ↔ _
            rw [List.cons_append, List.cons_append, List.cons.injEq, feed_append_iff]
            exact and_iff_right rfl

theorem flatMap_feed_append_iff {as bs : List α} {xs ys : List HashValue}
    (hlength : as.length = bs.length) :
    as.flatMap feed ++ xs = bs.flatMap feed ++ ys ↔ (as == bs) = true ∧ xs = ys := by
  induction as generalizing bs with
  | nil =>
      cases bs with
      | nil => simp
      | cons b bs => cases hlength
  | cons a as ih =>
      cases bs with
      | nil => cases hlength
      | cons b bs =>
          rw [List.flatMap_cons, List.flatMap_cons, List.append_assoc, List.append_assoc,
            feed_append_iff, ih (Nat.succ.inj hlength), list_beq_cons, Bool.and_eq_true, and_assoc]

instance : LawfulHashKey (List α) where
  feed_append_iff {as bs xs ys} := by
    change HashValue.length as.length :: (as.flatMap feed ++ xs) =
      HashValue.length bs.length :: (bs.flatMap feed ++ ys) ↔ _
    rw [List.cons.injEq, HashValue.length.injEq]
    constructor
    · rintro ⟨hlength, h⟩
      exact (flatMap_feed_append_iff hlength).1 h
    · rintro ⟨hsame, hrest⟩
      have hlength := length_eq_of_list_beq hsame
      exact ⟨hlength, (flatMap_feed_append_iff hlength).2 ⟨hsame, hrest⟩⟩

end Composed

theorem feed_eq_iff {κ : Type} [BEq κ] [HashKey κ] [LawfulHashKey κ] {a b : κ} :
    feed a = feed b ↔ (a == b) = true := by
  have happend : feed a ++ [] = feed b ++ [] ↔ (a == b) = true ∧ ([] : List HashValue) = [] :=
    feed_append_iff
  rwa [List.append_nil, List.append_nil, and_iff_left rfl] at happend

/-! ## Tables -/

namespace OrderedMap

variable {κ υ : Type} [BEq κ]

/-- Of values stored under equal keys the last one is kept, under the first key. -/
theorem insert_insert [EquivBEq κ] {a b : κ} (h : (a == b) = true) (m : OrderedMap κ υ) (v w : υ) :
    (m.insert a v).insert b w = m.insert a w := by
  obtain ⟨es, distinct⟩ := m
  simp only [insert, mk.injEq]
  clear distinct
  induction es with
  | nil => simp [insertEntry, h]
  | cons e rest ih =>
      have hsame : (e.1 == b) = (e.1 == a) := (BEq.congr_right h).symm
      cases he : e.1 == a with
      | true => simp [insertEntry, he, hsame]
      | false => simpa [insertEntry, he, hsame] using ih

end OrderedMap

namespace OrderedSet

variable {α : Type} [BEq α]

theorem insert_insert [EquivBEq α] {a b : α} (h : (a == b) = true) (s : OrderedSet α) :
    (s.insert a).insert b = s.insert a := by
  have hcontains : (s.insert a).contains b = true := by
    rw [contains_insert, h, Bool.or_true]
  rw [insert]
  exact dif_pos hcontains

end OrderedSet

/-- The comparison of keys by a table, which looks at the hashes first. -/
@[reducible]
def hashedBEq {κ : Type} [BEq κ] [HashKey κ] (hash : List HashValue → UInt64) : BEq κ :=
  ⟨fun a b => hash (feed a) == hash (feed b) && a == b⟩

/-- Equal keys are one key: to a hasher, whatever hash it computes, to maps and to sets. -/
structure KeysUpToEquality (κ : Type) [BEq κ] [HashKey κ] : Prop where
  equivalence : Equivalence fun a b : κ => (a == b) = true
  feed_eq_iff : ∀ a b : κ, feed a = feed b ↔ (a == b) = true
  hashed_eq : ∀ hash : List HashValue → UInt64, hashedBEq hash = (inferInstance : BEq κ)
  get?_eq : ∀ (υ : Type) (m : OrderedMap κ υ) (a b : κ), (a == b) = true → m.get? a = m.get? b
  insert_insert : ∀ (υ : Type) (m : OrderedMap κ υ) (a b : κ) (v w : υ), (a == b) = true →
    (m.insert a v).insert b w = m.insert a w
  contains_eq : ∀ (s : OrderedSet κ) (a b : κ), (a == b) = true → s.contains a = s.contains b
  insert_insert_set : ∀ (s : OrderedSet κ) (a b : κ), (a == b) = true →
    (s.insert a).insert b = s.insert a

theorem keysUpToEquality (κ : Type) [BEq κ] [EquivBEq κ] [HashKey κ] [LawfulHashKey κ] :
    KeysUpToEquality κ where
  equivalence := ⟨fun _ => BEq.rfl, fun h => BEq.symm h, fun h k => BEq.trans h k⟩
  feed_eq_iff _ _ := feed_eq_iff
  hashed_eq hash := by
    refine congrArg BEq.mk (funext fun a => funext fun b => ?_)
    cases hsame : a == b with
    | false => exact Bool.and_false _
    | true => rw [feed_eq_iff.2 hsame, beq_self_eq_true, Bool.and_true]
  get?_eq _ m _ _ h := m.get?_congr h
  insert_insert _ m _ _ v w h := m.insert_insert h v w
  contains_eq s _ _ h := s.contains_congr h
  insert_insert_set s _ _ h := s.insert_insert h

/-! ## Blank nodes named by terms -/

theorem feedAll_eq_flatMap (ns : List Node) : Node.feedAll ns = ns.flatMap Node.feed := by
  induction ns with
  | nil => rfl
  | cons n ns ih => rw [Node.feedAll, ih, List.flatMap_cons]

/-- What is hashed for the name of a blank node is what the list of terms gives a hasher. -/
theorem Digest.ofNodes_eq (ns : List Node) :
    Digest.ofNodes ns = (feed ns).flatMap HashValue.words := by
  rw [Digest.ofNodes, feedAll_eq_flatMap]
  rfl

theorem Node.skolem_congr {ms ns : List Node} (h : (ms == ns) = true) : skolem ms = skolem ns := by
  rw [skolem, skolem, Digest.ofNodes_eq, Digest.ofNodes_eq, feed_eq_iff.2 h]

theorem Node.double_beq_iff (d e : Double) :
    (Node.literal (.double d) == Node.literal (.double e)) = true ↔ d.bits = e.bits := by
  rw [beq_iff_folded]
  cases d
  cases e
  simp [folded, Literal.folded]

theorem Node.tagged_beq_iff (value tag value' tag' : String) :
    (Node.literal (.tagged value tag) == Node.literal (.tagged value' tag')) = true ↔
      value = value' ∧ tag.map Char.toLower = tag'.map Char.toLower := by
  rw [beq_iff_folded]
  simp [folded, Literal.folded]

/-- Terms are equal as they should be: doubles by their bits, so that a NaN equals itself and
zeros with different signs differ, and tagged texts without regard to the case of the tag.
Equal terms are one key of the index, of the edges and join keys of tokens and of all tables
and sets of triples, and name one blank node. -/
theorem terms_fit_for_hashing :
    KeysUpToEquality Node ∧ KeysUpToEquality Triple ∧ KeysUpToEquality (List Node) ∧
      KeysUpToEquality (Option TokenId × Triple) ∧ KeysUpToEquality (Nat × List Node) ∧
      (∀ d e : Double,
        (Node.literal (.double d) == Node.literal (.double e)) = true ↔ d.bits = e.bits) ∧
      (∀ value tag value' tag' : String,
        (Node.literal (.tagged value tag) == Node.literal (.tagged value' tag')) = true ↔
          value = value' ∧ tag.map Char.toLower = tag'.map Char.toLower) ∧
      ∀ ms ns : List Node, (ms == ns) = true → Node.skolem ms = Node.skolem ns :=
  ⟨keysUpToEquality Node, keysUpToEquality Triple, keysUpToEquality (List Node),
    keysUpToEquality (Option TokenId × Triple), keysUpToEquality (Nat × List Node),
    Node.double_beq_iff, Node.tagged_beq_iff, fun _ _ => Node.skolem_congr⟩

/-- A NaN beside a text whose tag is written in capitals or not. -/
def tagging (tag : String) : List Node :=
  [.functor "f" [.literal (.double .nan), .literal (.tagged "chat" tag)], .any]

/-- The tag makes no difference to the values that are hashed, nor to the name of a node. -/
theorem terms_fit_for_hashing_tagging :
    (tagging "FR-ca" == tagging "fr-CA") = true ∧
      Node.skolem (tagging "FR-ca") = Node.skolem (tagging "fr-CA") := by
  have htags : "FR-ca".map Char.toLower = "fr-CA".map Char.toLower :=
    String.toList_inj.1 (by rw [String.toList_map, String.toList_map]; decide)
  have htagged := (Node.tagged_beq_iff "chat" "FR-ca" "chat" "fr-CA").2 ⟨rfl, htags⟩
  have hsame : (tagging "FR-ca" == tagging "fr-CA") = true := by
    rw [tagging, tagging, list_beq_cons, Node.functor_beq, list_beq_cons, list_beq_cons, htagged]
    rfl
  exact ⟨hsame, terms_fit_for_hashing.2.2.2.2.2.2.2 (tagging "FR-ca") (tagging "fr-CA") hsame⟩

end Entailment
