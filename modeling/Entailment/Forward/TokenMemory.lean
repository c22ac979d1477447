import Entailment.Binding.Bindings
import Entailment.Collection.Descent

/-!
# Token memories

A token is a partial match of a rule: it extends its parent, one level up, by one
more triple.  The memory of a rule holds its tokens as a forest in which no two
siblings have the same triple.  It finds them by level and join key, and by their
own triple, and keeps for every complete token what became of it.
-/

namespace Entailment

abbrev TokenId := Nat

structure Token where
  parent : Option TokenId
  triple : Triple
  level : Nat
  bindings : Bindings
  /-- What the next level joins on. -/
  key : List Node
  children : List TokenId := []
deriving Inhabited

/-- What became of a complete token. -/
inductive Firing where
  /-- It waits on the agenda. -/
  | pending
  /-- A call of the body failed. -/
  | blocked
  /-- It has fired; a committed firing is never taken back. -/
  | fired (conclusions : List Triple) (hidden : List Node) (committed : Bool)
deriving Inhabited

namespace Firing

def isPending : Firing → Bool
  | .pending => true
  | _ => false

/-- Whether the calls of the body held when they were asked last, where that is open
to revision. -/
def revisable? : Firing → Option Bool
  | .fired _ _ false => some true
  | .blocked => some false
  | _ => none

end Firing

/-- A complete token that has lost a triple. -/
structure BrokenToken where
  id : TokenId
  triples : List Triple
  firing : Firing
deriving Inhabited

/-- Tokens listed under a key; no list is empty. -/
abbrev TokenIndex (κ : Type) [BEq κ] := OrderedMap κ (OrderedSet TokenId)

namespace TokenIndex

variable {κ : Type} [BEq κ]

def add (index : TokenIndex κ) (k : κ) (id : TokenId) : TokenIndex κ :=
  index.alter k fun ids => ids.insert id

def remove (index : TokenIndex κ) (k : κ) (id : TokenId) : TokenIndex κ :=
  match index.get? k with
  | none => index
  | some ids => index.store OrderedSet.isEmpty k (ids.erase id)

def ids (index : TokenIndex κ) (k : κ) : List TokenId :=
  match index.get? k with
  | none => []
  | some ids => ids.members

end TokenIndex

structure TokenMemory where
  tokens : OrderedMap TokenId Token := .empty
  /-- The child of a parent by its triple. -/
  edges : OrderedMap (Option TokenId × Triple) TokenId := .empty
  byKey : TokenIndex (Nat × List Node) := .empty
  byTriple : TokenIndex Triple := .empty
  firings : OrderedMap TokenId Firing := .empty
deriving Inhabited

namespace TokenMemory

def empty : TokenMemory := {}

def size (m : TokenMemory) : Nat := m.tokens.size

def token? (m : TokenMemory) (id : TokenId) : Option Token := m.tokens.get? id

def children (m : TokenMemory) (id : TokenId) : List TokenId :=
  match m.token? id with
  | some token => token.children
  | none => []

def adopt (m : TokenMemory) (parent : Option TokenId) (id : TokenId) : TokenMemory :=
  match parent with
  | some p =>
    { m with tokens := m.tokens.modify p fun t => { t with children := t.children ++ [id] } }
  | none => m

/-- Stores a token, unless its parent has a child with this triple. -/
def insert (m : TokenMemory) (id : TokenId) (token : Token) : Option TokenMemory :=
  let edge := (token.parent, token.triple)
  if m.edges.contains edge then none
  else
    let m := m.adopt token.parent id
    some
      { m with
        tokens := m.tokens.insert id token
        edges := m.edges.insert edge id
        byKey := m.byKey.add (token.level, token.key) id
        byTriple := m.byTriple.add token.triple id }

/-- The tokens of a level that the next one can join on the key. -/
def joining (m : TokenMemory) (level : Nat) (key : List Node) : List TokenId :=
  m.byKey.ids (level, key)

/-- The triples from a token up to its root, in at most `steps` of them. -/
def ascend (m : TokenMemory) : Nat → TokenId → List Triple
  | 0, _ => []
  | steps + 1, id =>
    match m.token? id with
    | none => []
    | some token =>
      match token.parent with
      | none => [token.triple]
      | some p => token.triple :: m.ascend steps p

/-- The triples of a token from its root down. -/
def triples (m : TokenMemory) (id : TokenId) : List Triple := (m.ascend m.size id).reverse

def disown (m : TokenMemory) (parent : Option TokenId) (id : TokenId) : TokenMemory :=
  match parent with
  | some p =>
    { m with
      tokens := m.tokens.modify p fun t => { t with children := t.children.filter (· != id) } }
  | none => m

/-- Takes a token out of all that lists it. -/
def remove (m : TokenMemory) (id : TokenId) : TokenMemory :=
  match m.token? id with
  | none => m
  | some token =>
    let m : TokenMemory :=
      { m with
        tokens := m.tokens.erase id
        edges := m.edges.erase (token.parent, token.triple)
        byKey := m.byKey.remove (token.level, token.key) id
        byTriple := m.byTriple.remove token.triple id }
    m.disown token.parent id

/-- The tokens with this triple and all that extend them. -/
def holding (m : TokenMemory) (t : Triple) : List TokenId :=
  descend m.children m.tokens.keys (m.byTriple.ids t)

def broken? (m : TokenMemory) (id : TokenId) : Option BrokenToken :=
  (m.firings.get? id).map fun firing => ⟨id, m.triples id, firing⟩

/-- Removes the tokens that hold a triple, and gives the complete ones among them. -/
def removeHolding (m : TokenMemory) (t : Triple) : List BrokenToken × TokenMemory :=
  let doomed := m.holding t
  let broken := doomed.filterMap m.broken?
  let m := { m with firings := doomed.foldl OrderedMap.erase m.firings }
  (broken, doomed.foldl remove m)

def setFiring (m : TokenMemory) (id : TokenId) (firing : Firing) : TokenMemory :=
  { m with firings := m.firings.insert id firing }

/-- The tokens whose calls can be asked again, with the last answer. -/
def revisable (m : TokenMemory) : List (TokenId × Bool) :=
  m.firings.entries.filterMap fun (id, firing) => firing.revisable?.map fun held => (id, held)

end TokenMemory

end Entailment
