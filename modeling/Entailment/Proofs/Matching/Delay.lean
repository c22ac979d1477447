import Entailment.Binding.Bindings
import Entailment.Proofs.Term.Delay

/-!
# Matching later

Bindings whose values have been moved up by a delay resolve, unify and match like the given
ones, and what comes out is moved up by the same delay.  The same goes for the completion of
a pattern, which draws fresh blank nodes, as soon as the supply has come to the first number
that the delay moves.
-/

namespace Entailment

theorem mapM_map_of_map {α α' β β' : Type} {f : α → Option β} {f' : α' → Option β'} {g : α → α'}
    {h : β → β'} (hf : ∀ a, f' (g a) = (f a).map h) (as : List α) :
    (as.map g).mapM f' = (as.mapM f).map (List.map h) := by
  induction as with
  | nil => rfl
  | cons a as ih =>
      rw [List.map_cons, List.mapM_cons, List.mapM_cons, hf, ih]
      cases f a with
      | none => rfl
      | some b => cases as.mapM f <;> rfl

namespace Delay

variable (δ : Delay)

def slot : Slot → Slot
  | .ground n => .ground (δ.node n)
  | s => s

def slotEnd : SlotEnd → SlotEnd
  | .ground n => .ground (δ.node n)
  | s => s

def bindings (b : Bindings) : Bindings := ⟨b.slots.map δ.slot⟩

@[simp] theorem bindings_empty (size : Nat) : δ.bindings (.empty size) = .empty size := by
  simp [bindings, Bindings.empty, slot]

@[simp] theorem length_bindings (b : Bindings) : (δ.bindings b).length = b.length :=
  List.length_map _

@[simp]
theorem slot?_bindings (b : Bindings) (i : Nat) :
    (δ.bindings b).slot? i = (b.slot? i).map δ.slot := List.getElem?_map

theorem bindings_set (b : Bindings) (i : Nat) (s : Slot) :
    δ.bindings (b.set i s) = (δ.bindings b).set i (δ.slot s) := by
  rw [bindings, Bindings.set, List.map_set]
  rfl

/-! ## Resolution -/

theorem derefWithin_bindings (b : Bindings) (links i : Nat) :
    (δ.bindings b).derefWithin links i = (b.derefWithin links i).map δ.slotEnd := by
  induction links generalizing i with
  | zero => rfl
  | succ links ih =>
      rw [Bindings.derefWithin, Bindings.derefWithin, slot?_bindings]
      cases b.slot? i with
      | none => rfl
      | some s =>
          cases s with
          | unbound => rfl
          | ground n => rfl
          | aliasOf j => exact ih j

@[simp]
theorem deref_bindings (b : Bindings) (i : Nat) :
    (δ.bindings b).deref i = (b.deref i).map δ.slotEnd := by
  rw [Bindings.deref, length_bindings, derefWithin_bindings, Bindings.deref]

theorem resolveArg_node (b : Bindings) (n : Node) :
    (δ.bindings b).resolveArg (δ.node n) = (b.resolveArg n).map δ.node := by
  cases n with
  | var v =>
      rw [node_var, Bindings.resolveArg, Bindings.resolveArg, deref_bindings]
      cases b.deref v.index with
      | none => rfl
      | some s =>
          cases s with
          | unbound j => rfl
          | ground n =>
              simp only [Option.map_some, slotEnd, isFunctor_node]
              cases n.isFunctor <;> rfl
  | uri _ | literal _ | blank _ | any | functor _ _ => simp [Bindings.resolveArg]

theorem resolveTerm_node (b : Bindings) (n : Node) :
    (δ.bindings b).resolveTerm (δ.node n) = (b.resolveTerm n).map δ.node := by
  cases n with
  | functor name args =>
      rw [node_functor, Bindings.resolveTerm, Bindings.resolveTerm,
        mapM_map_of_map (δ.resolveArg_node b), Option.map_map, Option.map_map]
      exact congrArg (fun f => (args.mapM b.resolveArg).map f)
        (funext fun ns => (δ.node_functor name ns).symm)
  | uri _ | literal _ | blank _ | var _ | any => simp [Bindings.resolveTerm]

theorem resolve_node (b : Bindings) (n : Node) :
    (δ.bindings b).resolve (δ.node n) = (b.resolve n).map δ.node := by
  cases n with
  | var v =>
      rw [node_var, Bindings.resolve, Bindings.resolve, deref_bindings]
      cases b.deref v.index with
      | none => rfl
      | some s =>
          cases s with
          | unbound j => rfl
          | ground n => exact δ.resolveTerm_node b n
  | functor f args => simpa [Bindings.resolve] using δ.resolveTerm_node b (.functor f args)
  | uri _ | literal _ | blank _ | any => simp [Bindings.resolve, Bindings.resolveTerm]

theorem resolve_var (b : Bindings) (v : Var) :
    (δ.bindings b).resolve (.var v) = (b.resolve (.var v)).map δ.node := by
  rw [← resolve_node, node_var]

theorem value_bindings (b : Bindings) (i : Nat) :
    (δ.bindings b).value i = (b.value i).map δ.node := δ.resolve_var b _

theorem partialNode_node (b : Bindings) (n : Node) :
    (δ.bindings b).partialNode (δ.node n) = δ.node (b.partialNode n) := by
  rw [Bindings.partialNode, Bindings.partialNode, node_subst]
  refine congrArg (δ.node n).subst (funext fun v => ?_)
  rw [Bindings.valueOrSelf, Bindings.valueOrSelf, resolve_var]
  cases b.resolve (.var v) with
  | none => exact (δ.node_var v).symm
  | some n => rfl

theorem partialInstantiate_triple (b : Bindings) (t : Triple) :
    (δ.bindings b).partialInstantiate (δ.triple t) = δ.triple (b.partialInstantiate t) := by
  simp only [Bindings.partialInstantiate, Triple.map, triple, partialNode_node]

/-! ## Unification -/

def compared (r : Bool × Bindings) : Bool × Bindings := (r.1, δ.bindings r.2)

/-- The comparison of nodes that have been moved up comes to the same, moved up. -/
def Commutes (compare : Bindings.Comparison) : Prop :=
  ∀ b m n, compare (δ.bindings b) (δ.node m) (δ.node n) = δ.compared (compare b m n)

variable {δ}

theorem Commutes.compareAll {compare : Bindings.Comparison} (h : δ.Commutes compare) (b : Bindings)
    (pairs : List (Node × Node)) :
    Bindings.compareAll compare (δ.bindings b) (pairs.map (Prod.map δ.node δ.node)) =
      δ.compared (Bindings.compareAll compare b pairs) := by
  induction pairs generalizing b with
  | nil => rfl
  | cons pair pairs ih =>
      obtain ⟨m, n⟩ := pair
      rw [List.map_cons, Prod.map_apply, Bindings.compareAll, Bindings.compareAll, h]
      rcases compare b m n with ⟨answer, b₁⟩
      cases answer with
      | false => rfl
      | true => exact ih b₁

theorem Commutes.bindSlotBy {compare : Bindings.Comparison} (h : δ.Commutes compare) (b : Bindings)
    (i : Nat) (value : Node) :
    Bindings.bindSlotBy compare (δ.bindings b) i (δ.node value) =
      δ.compared (Bindings.bindSlotBy compare b i value) := by
  rw [Bindings.bindSlotBy, Bindings.bindSlotBy, deref_bindings]
  cases b.deref i with
  | none => rfl
  | some s =>
      cases s with
      | ground n => exact h b n value
      | unbound target =>
          cases value with
          | var v =>
              simp only [Option.map_some, slotEnd, node_var, deref_bindings]
              cases b.deref v.index with
              | none => rfl
              | some s =>
                  cases s with
                  | ground n => exact Prod.ext rfl (δ.bindings_set b target (.ground n)).symm
                  | unbound other =>
                      simp only [Option.map_some, slotEnd]
                      by_cases hsame : other = target
                      · rw [if_pos hsame, if_pos hsame]
                        rfl
                      · rw [if_neg hsame, if_neg hsame]
                        exact Prod.ext rfl (δ.bindings_set b target (.aliasOf other)).symm
          | any => rfl
          | uri u => exact Prod.ext rfl (δ.bindings_set b target (.ground (.uri u))).symm
          | literal l => exact Prod.ext rfl (δ.bindings_set b target (.ground (.literal l))).symm
          | blank k => exact Prod.ext rfl (δ.bindings_set b target (.ground (.blank k))).symm
          | functor f as =>
              exact Prod.ext rfl (δ.bindings_set b target (.ground (.functor f as))).symm

variable (δ)

theorem zip_map_node (as bs : List Node) :
    (as.map δ.node).zip (bs.map δ.node) = (as.zip bs).map (Prod.map δ.node δ.node) :=
  List.zip_map

theorem commutes_unifyWithin (depth : Nat) : δ.Commutes (Bindings.unifyWithin depth) := by
  induction depth with
  | zero => exact fun _ _ _ => rfl
  | succ depth ih =>
      intro b m n
      cases m with
      | any => rfl
      | var v =>
          cases n with
          | any => rfl
          | uri u => exact ih.bindSlotBy b v.index (.uri u)
          | literal l => exact ih.bindSlotBy b v.index (.literal l)
          | blank k => exact ih.bindSlotBy b v.index (.blank k)
          | var w => exact ih.bindSlotBy b v.index (.var w)
          | functor g bs => exact ih.bindSlotBy b v.index (.functor g bs)
      | functor f as =>
          cases n with
          | var v => exact ih.bindSlotBy b v.index (.functor f as)
          | functor g bs =>
              simp only [node_functor, Bindings.unifyWithin, List.length_map, zip_map_node]
              split
              · exact ih.compareAll b _
              · rfl
          | _ => rfl
      | uri u =>
          cases n with
          | var v => exact ih.bindSlotBy b v.index (.uri u)
          | _ => rfl
      | literal l =>
          cases n with
          | var v => exact ih.bindSlotBy b v.index (.literal l)
          | _ => rfl
      | blank k =>
          cases n with
          | var v => exact ih.bindSlotBy b v.index (.blank k)
          | blank j => exact Prod.ext (δ.node_beq (.blank k) (.blank j)) rfl
          | _ => rfl

theorem depthBound_bindings (b : Bindings) (m n : Node) :
    (δ.bindings b).depthBound (δ.node m) (δ.node n) = b.depthBound m n := by
  have hslots : ∀ s, (δ.slot s).size = s.size := by
    intro s
    cases s with
    | ground n => exact δ.size_node n
    | _ => rfl
  have hsizes : (δ.bindings b).slots.map Slot.size = b.slots.map Slot.size := by
    simp only [bindings, List.map_map, Function.comp_def, hslots]
  rw [Bindings.depthBound, Bindings.depthBound, length_bindings, size_node, size_node, hsizes]

theorem commutes_unify : δ.Commutes Bindings.unify := by
  intro b m n
  rw [Bindings.unify, depthBound_bindings]
  exact δ.commutes_unifyWithin _ b m n

theorem bindSlot_bindings (b : Bindings) (i : Nat) (value : Node) :
    (δ.bindings b).bindSlot i (δ.node value) = δ.compared (b.bindSlot i value) :=
  δ.commutes_unify.bindSlotBy b i value

theorem bind_bindings (b : Bindings) (target value : Node) :
    (δ.bindings b).bind (δ.node target) (δ.node value) = δ.compared (b.bind target value) := by
  cases target with
  | var v => exact δ.bindSlot_bindings b v.index value
  | any => exact δ.commutes_unify b .any value
  | uri u => exact δ.commutes_unify b (.uri u) value
  | literal l => exact δ.commutes_unify b (.literal l) value
  | blank k => exact δ.commutes_unify b (.blank k) value
  | functor f as => exact δ.commutes_unify b (.functor f as) value

theorem unifyTriple_bindings (b : Bindings) (pattern fact : Triple) :
    (δ.bindings b).unifyTriple (δ.triple pattern) (δ.triple fact) =
      δ.compared (b.unifyTriple pattern fact) := by
  rw [Bindings.unifyTriple, nodes_triple, nodes_triple, zip_map_node]
  exact δ.commutes_unify.compareAll b _

theorem matching?_bindings (b : Bindings) (pattern fact : Triple) :
    (δ.bindings b).matching? (δ.triple pattern) (δ.triple fact) =
      (b.matching? pattern fact).map δ.bindings := by
  rw [Bindings.matching?, Bindings.matching?, unifyTriple_bindings]
  rcases b.unifyTriple pattern fact with ⟨answer, b₁⟩
  cases answer <;> rfl

/-! ## Completion -/

def supply (s : BlankSupply) : BlankSupply := ⟨s.used + δ.blanks⟩

/-- All that the supply has still to give is moved up. -/
def Ready (s : BlankSupply) : Prop := δ.first ≤ BlankSupply.firstGenerated + s.used

variable {δ}

theorem Ready.fresh {s : BlankSupply} (h : δ.Ready s) :
    (δ.supply s).fresh = (δ.node s.fresh.1, δ.supply s.fresh.2) := by
  have hmoved : δ.blank (BlankSupply.firstGenerated + s.used) =
      BlankSupply.firstGenerated + s.used + δ.blanks := if_neg (Nat.not_lt.2 h)
  simp only [BlankSupply.fresh, supply, node_blank, hmoved, Nat.add_assoc, Nat.add_comm 1]

theorem Ready.after_fresh {s : BlankSupply} (h : δ.Ready s) : δ.Ready s.fresh.2 :=
  Nat.le_succ_of_le h

variable (δ)

def completion (st : Bindings × BlankSupply) : Bindings × BlankSupply :=
  (δ.bindings st.1, δ.supply st.2)

variable {δ}

theorem Ready.complete {st : Bindings × BlankSupply} (h : δ.Ready st.2) (v : Var) :
    Bindings.complete (δ.completion st) v =
      ((δ.node (Bindings.complete st v).1), δ.completion (Bindings.complete st v).2) ∧
      δ.Ready (Bindings.complete st v).2.2 := by
  unfold Bindings.complete
  simp only [completion, resolve_var]
  cases st.1.resolve (.var v) with
  | some n => exact ⟨rfl, h⟩
  | none =>
      simp only [Option.map_none, h.fresh, bindSlot_bindings]
      exact ⟨rfl, h.after_fresh⟩

theorem Ready.freshBlank {st : Bindings × BlankSupply} (h : δ.Ready st.2) :
    Bindings.freshBlank (δ.completion st) =
      ((δ.node (Bindings.freshBlank st).1), δ.completion (Bindings.freshBlank st).2) ∧
      δ.Ready (Bindings.freshBlank st).2.2 := by
  unfold Bindings.freshBlank
  refine ⟨?_, h.after_fresh⟩
  simp only [completion, h.fresh]

/-- A completed pattern is moved up like the bindings. -/
theorem Ready.instantiate {b : Bindings} {s : BlankSupply} (h : δ.Ready s) (pattern : Triple) :
    (δ.bindings b).instantiate (δ.supply s) (δ.triple pattern) =
      (δ.triple (b.instantiate s pattern).1, δ.completion (b.instantiate s pattern).2) ∧
      δ.Ready (b.instantiate s pattern).2.2 := by
  have hst : δ.Ready (b, s).2 := h
  exact δ.traverse_triple (P := fun st : Bindings × BlankSupply => δ.Ready st.2)
    (fun _ v h => h.complete v) (fun _ h => h.freshBlank) pattern hst

end Delay

end Entailment
