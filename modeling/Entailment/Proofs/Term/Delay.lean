import Entailment.Proofs.Collection.Recoding
import Entailment.Proofs.Term.Equality
import Entailment.Term.Shape

/-!
# Delays

Fresh blank nodes and tokens are numbered in the order in which they are made.  A run that
begins later, when more of them have been made, gives higher numbers to what it makes, and
that is the only difference.  A delay moves the numbers up: those of blank nodes from a first
one on, and those of all tokens.  Equal terms stay equal and different ones different, and
terms without a blank node that is moved are left as they are.
-/

namespace Entailment

mutual
/-- The numbers of the blank nodes of a term. -/
def Node.blanks : Node → List Nat
  | .blank k => [k]
  | .functor _ args => Node.allBlanks args
  | _ => []

def Node.allBlanks : List Node → List Nat
  | [] => []
  | a :: rest => a.blanks ++ Node.allBlanks rest
end

mutual
theorem Node.blanks_folded (n : Node) : n.folded.blanks = n.blanks := by
  match n with
  | .functor name args => rw [folded, blanks, blanks, allBlanks_foldedAll args]
  | .uri _ | .literal _ | .blank _ | .var _ | .any => rfl

theorem Node.allBlanks_foldedAll (ns : List Node) : allBlanks (foldedAll ns) = allBlanks ns := by
  match ns with
  | [] => rfl
  | n :: ns => rw [foldedAll, allBlanks, allBlanks, blanks_folded n, allBlanks_foldedAll ns]
end

theorem Node.blanks_congr {m n : Node} (h : (m == n) = true) : m.blanks = n.blanks := by
  rw [← blanks_folded m, beq_iff_folded.1 h, blanks_folded]

/-- How much later a run begins: by how many blank nodes, from the first that it makes on,
and by how many tokens. -/
structure Delay where
  first : Nat
  blanks : Nat := 0
  tokens : Nat := 0

namespace Delay

variable (δ : Delay)

def blank (k : Nat) : Nat := if k < δ.first then k else k + δ.blanks

theorem blank_injective : Function.Injective δ.blank := by
  intro j k h
  unfold blank at h
  split at h <;> split at h <;> omega

@[simp]
theorem blank_beq (j k : Nat) : (δ.blank j == δ.blank k) = (j == k) := by
  rw [Bool.eq_iff_iff, beq_iff_eq, beq_iff_eq, δ.blank_injective.eq_iff]

/-! ## Terms -/

mutual
def node : Node → Node
  | .blank k => .blank (δ.blank k)
  | .functor name args => .functor name (nodes args)
  | n => n

def nodes : List Node → List Node
  | [] => []
  | a :: rest => node a :: nodes rest
end

@[simp] theorem node_uri (u : String) : δ.node (.uri u) = .uri u := by rw [node] <;> nofun

@[simp] theorem node_literal (l : Literal) : δ.node (.literal l) = .literal l := by
  rw [node] <;> nofun

@[simp] theorem node_blank (k : Nat) : δ.node (.blank k) = .blank (δ.blank k) := by rw [node]

@[simp] theorem node_var (v : Var) : δ.node (.var v) = .var v := by rw [node] <;> nofun

@[simp] theorem node_any : δ.node .any = .any := by rw [node] <;> nofun

theorem nodes_eq_map (ns : List Node) : δ.nodes ns = ns.map δ.node := by
  induction ns with
  | nil => rw [nodes, List.map_nil]
  | cons n ns ih => rw [nodes, ih, List.map_cons]

@[simp] theorem node_functor (name : String) (args : List Node) :
    δ.node (.functor name args) = .functor name (args.map δ.node) := by
  rw [node, nodes_eq_map]

mutual
theorem same_node (m n : Node) : (δ.node m).same (δ.node n) = m.same n := by
  match m, n with
  | .functor f as, .functor g bs =>
      rw [node, node, Node.same, Node.same, sameAll_nodes as bs]
  | .blank j, .blank k => simp [Node.same]
  | .uri _, n | .literal _, n | .var _, n | .any, n => cases n <;> simp [Node.same]
  | .blank _, .uri _ | .blank _, .literal _ | .blank _, .var _ | .blank _, .any
  | .blank _, .functor _ _ | .functor _ _, .uri _ | .functor _ _, .literal _
  | .functor _ _, .blank _ | .functor _ _, .var _ | .functor _ _, .any => simp [Node.same]

theorem sameAll_nodes (ms ns : List Node) :
    Node.sameAll (δ.nodes ms) (δ.nodes ns) = Node.sameAll ms ns := by
  match ms, ns with
  | [], [] => simp [nodes]
  | [], _ :: _ | _ :: _, [] => simp [nodes, Node.sameAll]
  | m :: ms, n :: ns => simp [nodes, Node.sameAll, same_node m n, sameAll_nodes ms ns]
end

@[simp]
theorem node_beq (m n : Node) : (δ.node m == δ.node n) = (m == n) := δ.same_node m n

mutual
theorem isGround_node (n : Node) : (δ.node n).isGround = n.isGround := by
  match n with
  | .functor name args => rw [node, Node.isGround, Node.isGround, allGround_nodes args]
  | .uri _ | .literal _ | .blank _ | .var _ | .any => simp [Node.isGround]

theorem allGround_nodes (ns : List Node) : Node.allGround (δ.nodes ns) = Node.allGround ns := by
  match ns with
  | [] => rw [nodes]
  | n :: ns => rw [nodes, Node.allGround, Node.allGround, isGround_node n, allGround_nodes ns]
end

mutual
theorem size_node (n : Node) : (δ.node n).size = n.size := by
  match n with
  | .functor name args => rw [node, Node.size, Node.size, sizeAll_nodes args]
  | .uri _ | .literal _ | .blank _ | .var _ | .any => simp [Node.size]

theorem sizeAll_nodes (ns : List Node) : Node.sizeAll (δ.nodes ns) = Node.sizeAll ns := by
  match ns with
  | [] => rw [nodes]
  | n :: ns => rw [nodes, Node.sizeAll, Node.sizeAll, size_node n, sizeAll_nodes ns]
end

attribute [simp] isGround_node size_node

@[simp] theorem isFunctor_node (n : Node) : (δ.node n).isFunctor = n.isFunctor := by
  cases n <;> simp [Node.isFunctor]

@[simp] theorem isLiteral_node (n : Node) : (δ.node n).isLiteral = n.isLiteral := by
  cases n <;> simp [Node.isLiteral]

@[simp] theorem isBlank_node (n : Node) : (δ.node n).isBlank = n.isBlank := by
  cases n <;> simp [Node.isBlank]

@[simp] theorem uri?_node (n : Node) : (δ.node n).uri? = n.uri? := by
  cases n <;> simp [Node.uri?]

/-! ### Terms that stay -/

theorem blank_of_lt {k : Nat} (h : k < δ.first) : δ.blank k = k := if_pos h

theorem blank_of_no_blanks (h : δ.blanks = 0) (k : Nat) : δ.blank k = k := by
  rw [blank, h, Nat.add_zero, ite_self]

mutual
theorem node_eq_self_iff {n : Node} : δ.node n = n ↔ ∀ k ∈ n.blanks, δ.blank k = k := by
  match n with
  | .blank k => simp [Node.blanks]
  | .functor name args => simp only [node, Node.functor.injEq, true_and, nodes_eq_self_iff,
      Node.blanks]
  | .uri _ | .literal _ | .var _ | .any => simp [Node.blanks]

theorem nodes_eq_self_iff {ns : List Node} :
    δ.nodes ns = ns ↔ ∀ k ∈ Node.allBlanks ns, δ.blank k = k := by
  match ns with
  | [] => simp [nodes, Node.allBlanks]
  | n :: ns =>
      rw [nodes, List.cons.injEq, node_eq_self_iff, nodes_eq_self_iff, Node.allBlanks,
        List.forall_mem_append]
end

theorem node_eq_self (h : δ.blanks = 0) (n : Node) : δ.node n = n :=
  δ.node_eq_self_iff.2 fun k _ => δ.blank_of_no_blanks h k

theorem node_eq_self_of_lt {n : Node} (h : ∀ k ∈ n.blanks, k < δ.first) : δ.node n = n :=
  δ.node_eq_self_iff.2 fun k hk => δ.blank_of_lt (h k hk)

theorem node_eq_self_congr {m n : Node} (h : (m == n) = true) (hm : δ.node m = m) :
    δ.node n = n := by
  rw [node_eq_self_iff, Node.blanks_congr h] at hm
  exact δ.node_eq_self_iff.2 hm

mutual
theorem node_subst (n : Node) (image : Var → Node) :
    δ.node (n.subst image) = (δ.node n).subst fun v => δ.node (image v) := by
  match n with
  | .functor name args => rw [Node.subst, node, node, Node.subst, nodes_substAll args]
  | .uri _ | .literal _ | .blank _ | .var _ | .any => simp [Node.subst]

theorem nodes_substAll (ns : List Node) (image : Var → Node) :
    δ.nodes (Node.substAll image ns) = Node.substAll (fun v => δ.node (image v)) (δ.nodes ns) := by
  match ns with
  | [] => simp [Node.substAll, nodes]
  | n :: ns => rw [Node.substAll, nodes, nodes, Node.substAll, node_subst n, nodes_substAll ns]
end

mutual
/-- A traversal that treats variables and wildcards alike in related states gives the same
term, moved up. -/
theorem traverse_node {σ : Type} {f : σ → σ} {P : σ → Prop}
    {onVar : σ → Var → Node × σ} {onAny : σ → Node × σ}
    (hvar : ∀ st v, P st → onVar (f st) v =
      (δ.node (onVar st v).1, f (onVar st v).2) ∧ P (onVar st v).2)
    (hany : ∀ st, P st → onAny (f st) =
      (δ.node (onAny st).1, f (onAny st).2) ∧ P (onAny st).2)
    (n : Node) {st : σ} (hst : P st) :
    (δ.node n).traverse onVar onAny (f st) =
      (δ.node (n.traverse onVar onAny st).1, f (n.traverse onVar onAny st).2) ∧
      P (n.traverse onVar onAny st).2 := by
  match n with
  | .var v =>
      rw [node_var, Node.traverse, Node.traverse]
      exact hvar st v hst
  | .any =>
      rw [node_any, Node.traverse, Node.traverse]
      exact hany st hst
  | .functor name args =>
      obtain ⟨hargs, hkept⟩ := traverseAll_nodes hvar hany args hst
      rw [node, Node.traverse, Node.traverse, hargs]
      refine ⟨?_, hkept⟩
      simp only [node]
  | .uri _ | .literal _ | .blank _ => simpa [Node.traverse] using hst

theorem traverseAll_nodes {σ : Type} {f : σ → σ} {P : σ → Prop}
    {onVar : σ → Var → Node × σ} {onAny : σ → Node × σ}
    (hvar : ∀ st v, P st → onVar (f st) v =
      (δ.node (onVar st v).1, f (onVar st v).2) ∧ P (onVar st v).2)
    (hany : ∀ st, P st → onAny (f st) =
      (δ.node (onAny st).1, f (onAny st).2) ∧ P (onAny st).2)
    (ns : List Node) {st : σ} (hst : P st) :
    Node.traverseAll onVar onAny (f st) (δ.nodes ns) =
      (δ.nodes (Node.traverseAll onVar onAny st ns).1,
        f (Node.traverseAll onVar onAny st ns).2) ∧
      P (Node.traverseAll onVar onAny st ns).2 := by
  match ns with
  | [] => simpa [Node.traverseAll, nodes] using hst
  | n :: ns =>
      obtain ⟨hfirst, hkept⟩ := traverse_node hvar hany n hst
      obtain ⟨hrest, hkept⟩ := traverseAll_nodes hvar hany ns hkept
      rw [nodes, Node.traverseAll, Node.traverseAll, hfirst]
      simp only
      rw [hrest]
      refine ⟨?_, hkept⟩
      simp only [nodes]
end

/-! ## Triples and patterns -/

def triple (t : Triple) : Triple := t.map δ.node

@[simp] theorem subject_triple (t : Triple) : (δ.triple t).subject = δ.node t.subject := rfl

@[simp] theorem predicate_triple (t : Triple) : (δ.triple t).predicate = δ.node t.predicate := rfl

@[simp] theorem object_triple (t : Triple) : (δ.triple t).object = δ.node t.object := rfl

theorem triple_mk (s p o : Node) : δ.triple ⟨s, p, o⟩ = ⟨δ.node s, δ.node p, δ.node o⟩ := rfl

@[simp] theorem nodes_triple (t : Triple) : (δ.triple t).nodes = t.nodes.map δ.node := rfl

@[simp]
theorem triple_beq (t u : Triple) : (δ.triple t == δ.triple u) = (t == u) := by
  rw [Bool.eq_iff_iff, Triple.beq_iff, Triple.beq_iff]
  simp

@[simp]
theorem isGround_triple (t : Triple) : (δ.triple t).isGround = t.isGround := by
  simp [Triple.isGround]

theorem triple_eq_self_iff {t : Triple} : δ.triple t = t ↔ ∀ n ∈ t.nodes, δ.node n = n := by
  obtain ⟨s, p, o⟩ := t
  simp [triple_mk, Triple.nodes]

theorem triple_eq_self (h : δ.blanks = 0) (t : Triple) : δ.triple t = t :=
  δ.triple_eq_self_iff.2 fun n _ => δ.node_eq_self h n

theorem triple_eq_self_congr {t u : Triple} (h : (t == u) = true) (ht : δ.triple t = t) :
    δ.triple u = u := by
  obtain ⟨hs, hp, ho⟩ := Triple.beq_iff.1 h
  simp only [triple_eq_self_iff, Triple.nodes, List.forall_mem_cons] at ht ⊢
  exact ⟨δ.node_eq_self_congr hs ht.1, δ.node_eq_self_congr hp ht.2.1,
    δ.node_eq_self_congr ho ht.2.2.1, ht.2.2.2⟩

theorem traverse_triple {σ : Type} {f : σ → σ} {P : σ → Prop}
    {onVar : σ → Var → Node × σ} {onAny : σ → Node × σ}
    (hvar : ∀ st v, P st → onVar (f st) v =
      (δ.node (onVar st v).1, f (onVar st v).2) ∧ P (onVar st v).2)
    (hany : ∀ st, P st → onAny (f st) =
      (δ.node (onAny st).1, f (onAny st).2) ∧ P (onAny st).2)
    (t : Triple) {st : σ} (hst : P st) :
    (δ.triple t).traverse onVar onAny (f st) =
      (δ.triple (t.traverse onVar onAny st).1, f (t.traverse onVar onAny st).2) ∧
      P (t.traverse onVar onAny st).2 := by
  obtain ⟨hsubject, hkept⟩ := δ.traverse_node hvar hany t.subject hst
  obtain ⟨hpredicate, hkept⟩ := δ.traverse_node hvar hany t.predicate hkept
  obtain ⟨hobject, hkept⟩ := δ.traverse_node hvar hany t.object hkept
  simp only [Triple.traverse, subject_triple, predicate_triple, object_triple, hsubject,
    hpredicate, hobject]
  exact ⟨rfl, hkept⟩

theorem shape_triple (t : Triple) : (δ.triple t).shape = δ.triple t.shape := by
  have hplace : ∀ (met : ShapeNumbering) v, δ.node (met.place v).1 = (met.place v).1 := by
    intro met v
    unfold ShapeNumbering.place
    split <;> rfl
  have htraverse : (δ.triple t).traverse ShapeNumbering.place ShapeNumbering.keepAny [] =
      (δ.triple t.numberedShape.1, t.numberedShape.2) ∧ True :=
    δ.traverse_triple (f := id) (P := fun _ => True)
      (fun met v _ => ⟨Prod.ext (hplace met v).symm rfl, trivial⟩) (fun _ _ => ⟨rfl, trivial⟩)
      t trivial
  exact congrArg Prod.fst htraverse.1

def pattern (p : TriplePattern) : TriplePattern :=
  ⟨p.subject.map δ.node, p.predicate.map δ.node, p.object.map δ.node⟩

@[simp] theorem pattern_any : δ.pattern .any = .any := rfl

theorem pattern_eq_self (h : δ.blanks = 0) (p : TriplePattern) : δ.pattern p = p := by
  have hnode : δ.node = id := funext (δ.node_eq_self h)
  simp [pattern, hnode]

theorem fixing_node (n : Node) :
    TriplePattern.fixing (δ.node n) = (TriplePattern.fixing n).map δ.node := by
  rw [TriplePattern.fixing, TriplePattern.fixing, isGround_node]
  cases n.isGround <;> rfl

@[simp]
theorem ofTriple_triple (t : Triple) :
    TriplePattern.ofTriple (δ.triple t) = δ.pattern (.ofTriple t) := by
  simp [TriplePattern.ofTriple, pattern, fixing_node]

/-! ## Codes -/

def nodeCode : Recoding Node Node := ⟨δ.node, δ.node_beq⟩

def tripleCode : Recoding Triple Triple := ⟨δ.triple, δ.triple_beq⟩

def token (id : Nat) : Nat := id + δ.tokens

theorem token_injective : Function.Injective δ.token := fun _ _ h => Nat.add_right_cancel h

def tokenCode : Recoding Nat Nat where
  code := δ.token
  beq_code i j := by rw [Bool.eq_iff_iff, beq_iff_eq, beq_iff_eq, δ.token_injective.eq_iff]

end Delay

end Entailment
