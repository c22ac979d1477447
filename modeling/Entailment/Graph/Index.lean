import Entailment.Collection.OrderedMap
import Entailment.Term.Triple

/-!
# Three-way index of triples

Each triple stands in three nested maps, under its subject, its predicate and its
object.  A search uses the map whose outer keys the pattern fixes, so that what it
returns comes in that map's insertion order.  The maps always hold the same
triples, and no inner map is empty.

`Level.holds_add` and `Level.holds_remove` say what a nested map holds afterwards.
-/

namespace Entailment

inductive GraphError where
  | invalidTriple (triple : Triple)
  | index (detail : String)
deriving Inhabited

namespace GraphError

def message : GraphError → String
  | .invalidTriple t => "invalid triple: " ++ t.text
  | .index detail => "index error: " ++ detail

end GraphError

/-- Third components under second ones under first ones. -/
abbrev Level := OrderedMap Node (OrderedMap Node (OrderedSet Node))

namespace Level

/-- The map under a first component. -/
def second (level : Level) (a : Node) : OrderedMap Node (OrderedSet Node) :=
  (level.get? a).getD default

/-- The third components under a first and a second one. -/
def third (level : Level) (a b : Node) : OrderedSet Node := ((level.second a).get? b).getD default

def holds (level : Level) (a b c : Node) : Bool := (level.third a b).contains c

def add (level : Level) (a b c : Node) : Level :=
  level.alter a fun second => second.alter b fun third => third.insert c

/-- Takes out one entry, and with it the inner maps that it leaves empty. -/
def remove (level : Level) (a b c : Node) : Level :=
  level.store OrderedMap.isEmpty a
    ((level.second a).store OrderedSet.isEmpty b ((level.third a b).erase c))

theorem second_congr (level : Level) {a x : Node} (h : (a == x) = true) :
    level.second a = level.second x := by
  rw [second, second, level.get?_congr h]

theorem third_congr (level : Level) {a b x y : Node} (h : (a == x) = true)
    (k : (b == y) = true) : level.third a b = level.third x y := by
  rw [third, third, level.second_congr h, OrderedMap.get?_congr _ k]

theorem holds_add (level : Level) (a b c x y z : Node) :
    (level.add a b c).holds x y z =
      (level.holds x y z || (a == x && b == y && c == z)) := by
  simp only [add, holds, third, second, OrderedMap.get?_alter]
  cases ha : a == x with
  | false => simp
  | true =>
    cases hb : b == y with
    | false => simp [OrderedMap.get?_alter, hb]
    | true => simp [OrderedMap.get?_alter, hb, OrderedSet.contains_insert]

theorem get?_second_store (level : Level) (a x y : Node)
    (inner : OrderedMap Node (OrderedSet Node)) :
    (second (level.store OrderedMap.isEmpty a inner) x).get? y =
      if a == x then inner.get? y else (level.second x).get? y := by
  rw [second, OrderedMap.get?_store]
  cases a == x with
  | false => simp [second]
  | true =>
    cases h : inner.isEmpty with
    | false => simp
    | true => simp [OrderedMap.get?_of_isEmpty h]

theorem holds_remove (level : Level) (a b c x y z : Node) :
    (level.remove a b c).holds x y z =
      (level.holds x y z && !(a == x && b == y && c == z)) := by
  rw [holds, third, remove, get?_second_store]
  cases ha : a == x with
  | false => simp [holds, third]
  | true =>
    rw [if_pos rfl, OrderedMap.get?_store, level.second_congr ha]
    cases hb : b == y with
    | false => simp [holds, third]
    | true =>
      have kept := (level.third a b).contains_erase c z
      rw [level.third_congr ha hb] at kept
      simp only [level.third_congr ha hb, holds, Bool.true_and, ← kept, if_true]
      cases h : ((level.third x y).erase c).isEmpty with
      | false => simp
      | true => simp [OrderedSet.contains_of_isEmpty h]

/-- The entries of a map at a fixed key, or all of them. -/
def select {υ : Type} (m : OrderedMap Node υ) (key : Option Node) : List (Node × υ) :=
  match key with
  | some k => (m.entry? k).toList
  | none => m.entries

def selectMembers (s : OrderedSet Node) (key : Option Node) : List Node :=
  match key with
  | some k => if s.contains k then [k] else []
  | none => s.members

def scan (level : Level) (a b c : Option Node) (build : Node → Node → Node → Triple) :
    List Triple :=
  (select level a).flatMap fun (ka, second) =>
    (select second b).flatMap fun (kb, third) =>
      (selectMembers third c).map fun kc => build ka kb kc

end Level

/-- The order in which an index nests the positions of a triple. -/
inductive IndexOrder where
  | spo
  | pos
  | osp
deriving DecidableEq

namespace IndexOrder

def text : IndexOrder → String
  | .spo => "SPO"
  | .pos => "POS"
  | .osp => "OSP"

/-- The order whose outer positions the pattern fixes. -/
def ofPattern (p : TriplePattern) : IndexOrder :=
  match p.subject, p.predicate, p.object with
  | some _, some _, _ => .spo
  | some _, none, none => .spo
  | none, none, none => .spo
  | none, some _, _ => .pos
  | _, none, some _ => .osp

end IndexOrder

structure TripleIndex where
  spo : Level := .empty
  pos : Level := .empty
  osp : Level := .empty
  size : Nat := 0
deriving Inhabited

namespace TripleIndex

def empty : TripleIndex := {}

def isEmpty (index : TripleIndex) : Bool := index.size == 0

def contains (index : TripleIndex) (t : Triple) : Bool :=
  index.spo.holds t.subject t.predicate t.object

/-- The three maps agree on whether they hold the triple. -/
def agrees (index : TripleIndex) (t : Triple) : Bool :=
  let known := index.contains t
  known == index.pos.holds t.predicate t.object t.subject &&
    known == index.osp.holds t.object t.subject t.predicate

def disagreement (t : Triple) : GraphError := .index ("indexes disagree on " ++ t.text)

/-- Adds a triple, and tells whether it was absent. -/
def insert (index : TripleIndex) (t : Triple) : Except GraphError (Bool × TripleIndex) :=
  if !index.agrees t then .error (disagreement t)
  else if index.contains t then .ok (false, index)
  else
    .ok (true,
      { spo := index.spo.add t.subject t.predicate t.object
        pos := index.pos.add t.predicate t.object t.subject
        osp := index.osp.add t.object t.subject t.predicate
        size := index.size + 1 })

/-- Takes out a triple, and tells whether it was present. -/
def remove (index : TripleIndex) (t : Triple) : Except GraphError (Bool × TripleIndex) :=
  if !index.agrees t then .error (disagreement t)
  else if !index.contains t then .ok (false, index)
  else
    .ok (true,
      { spo := index.spo.remove t.subject t.predicate t.object
        pos := index.pos.remove t.predicate t.object t.subject
        osp := index.osp.remove t.object t.subject t.predicate
        size := index.size - 1 })

def find (index : TripleIndex) (p : TriplePattern) : List Triple :=
  match IndexOrder.ofPattern p with
  | .spo => index.spo.scan p.subject p.predicate p.object fun s q o => ⟨s, q, o⟩
  | .pos => index.pos.scan p.predicate p.object p.subject fun q o s => ⟨s, q, o⟩
  | .osp => index.osp.scan p.object p.subject p.predicate fun o s q => ⟨s, q, o⟩

def subjectCount (index : TripleIndex) : Nat := index.spo.size

def predicateCount (index : TripleIndex) : Nat := index.pos.size

def objectCount (index : TripleIndex) : Nat := index.osp.size

end TripleIndex

end Entailment
