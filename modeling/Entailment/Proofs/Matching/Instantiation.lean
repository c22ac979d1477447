import Entailment.Proofs.Matching.Equations
import Entailment.Proofs.Matching.Filling
import Entailment.Proofs.Rule.Shelter

/-!
# Completing patterns one after another

A pattern is completed from left to right.  A variable that has a value is replaced by it,
and one that has none by a fresh blank node, which is also bound.  When the variable leads
to an unbound slot, the slot takes the blank node, and all later occurrences get the same.
When it leads to a functor that has no value itself, the binding is refused without notice,
and the next occurrence gets another node.  So patterns are completed consistently, by one
assignment for all of them, if and only if no variable is in that state at its turn.
-/

namespace Entailment

theorem mapM_of_forall₂ {α β : Type} {f : α → Option β} {as : List α} {bs : List β}
    (h : List.Forall₂ (fun a b => f a = some b) as bs) : as.mapM f = some bs := by
  induction h with
  | nil => rfl
  | cons hone _ ih =>
      rw [List.mapM_cons, hone, ih]
      rfl

namespace Bindings

variable {b b' : Bindings} {st st' : Bindings × BlankSupply} {σ : Assignment}

/-! ## Values that stay -/

theorem resolveArg_of_fills (h : b.Fills b') {m n : Node} (hm : b.resolveArg m = some n) :
    b'.resolveArg m = some n := by
  cases m with
  | var v =>
      rw [resolveArg] at hm ⊢
      cases hv : b.deref v.index with
      | none =>
          rw [hv] at hm
          cases hm
      | some last =>
          rw [hv] at hm
          cases last with
          | unbound => cases hm
          | ground k =>
              rw [h.deref_ground hv]
              exact hm
  | _ => exact hm

theorem resolveTerm_of_fills (h : b.Fills b') {m n : Node} (hm : b.resolveTerm m = some n) :
    b'.resolveTerm m = some n := by
  cases m with
  | functor f args =>
      obtain ⟨ns, hns, rfl⟩ := Option.map_eq_some_iff.1 hm
      have hall : args.mapM b'.resolveArg = some ns :=
        mapM_of_forall₂ ((forall₂_of_mapM hns).imp fun _ _ => resolveArg_of_fills h)
      rw [resolveTerm, hall]
      rfl
  | _ => exact hm

/-- A value stays when slots are filled. -/
theorem value_of_fills (h : b.Fills b') {i : Nat} {n : Node} (hi : b.value i = some n) :
    b'.value i = some n := by
  rw [value, resolve_var] at hi ⊢
  cases hlast : b.deref i with
  | none =>
      rw [hlast] at hi
      cases hi
  | some last =>
      rw [hlast] at hi
      cases last with
      | unbound => cases hi
      | ground k =>
          rw [h.deref_ground hlast]
          exact resolveTerm_of_fills h hi

/-! ## Completing variables -/

/-- Variables completed in turn. -/
def completeAll (st : Bindings × BlankSupply) : List Var → List Node × Bindings × BlankSupply
  | [] => ([], st)
  | v :: vs =>
    let (n, st) := complete st v
    let (ns, st) := completeAll st vs
    (n :: ns, st)

/-- The variable has a value, or leads to an unbound slot. -/
def Completable (b : Bindings) (i : Nat) : Prop :=
  (b.value i).isSome = true ∨ ∃ last, b.deref i = some (.unbound last)

/-- No variable leads to a functor without a value when its turn comes. -/
def Completes (st : Bindings × BlankSupply) : List Var → Prop
  | [] => True
  | v :: vs => st.1.Completable v.index ∧ Completes (complete st v).2 vs

/-- The second state comes later: more slots are filled, and more blank nodes used. -/
structure Precedes (st st' : Bindings × BlankSupply) : Prop where
  fills : st.1.Fills st'.1
  used : st.2.used ≤ st'.2.used

theorem Precedes.refl : Precedes st st := ⟨.refl, Nat.le_refl _⟩

theorem Precedes.trans {st'' : Bindings × BlankSupply} (h : Precedes st st')
    (k : Precedes st' st'') : Precedes st st'' :=
  ⟨h.fills.trans k.fills, Nat.le_trans h.used k.used⟩

theorem complete_of_value {v : Var} {n : Node} (h : st.1.value v.index = some n) :
    complete st v = (n, st) := by
  have hv : st.1.resolve (.var v) = some n := h
  rw [complete, hv]

theorem complete_of_no_value {v : Var} (h : st.1.value v.index = none) :
    complete st v = (st.2.fresh.1, (st.1.bindSlot v.index st.2.fresh.1).2, st.2.fresh.2) := by
  have hv : st.1.resolve (.var v) = none := h
  rw [complete, hv]

theorem precedes_complete (st : Bindings × BlankSupply) (v : Var) :
    Precedes st (complete st v).2 := by
  cases hv : st.1.value v.index with
  | some n =>
      rw [complete_of_value hv]
      exact .refl
  | none =>
      rw [complete_of_no_value hv]
      exact ⟨Fills.bind _ (.var v) _, Nat.le_succ _⟩

mutual
theorem precedes_traverse (st : Bindings × BlankSupply) (n : Node) :
    Precedes st (n.traverse complete freshBlank st).2 := by
  match n with
  | .var v => exact precedes_complete st v
  | .any => exact ⟨.refl, Nat.le_succ _⟩
  | .functor _ args => exact precedes_traverseAll st args
  | .uri _ | .literal _ | .blank _ => exact .refl

theorem precedes_traverseAll (st : Bindings × BlankSupply) (ns : List Node) :
    Precedes st (Node.traverseAll complete freshBlank st ns).2 := by
  match ns with
  | [] => exact .refl
  | n :: ns => exact (precedes_traverse st n).trans (precedes_traverseAll _ ns)
end

theorem precedes_instantiate (st : Bindings × BlankSupply) (p : Triple) :
    Precedes st (st.1.instantiate st.2 p).2 :=
  (precedes_traverse st p.subject).trans
    ((precedes_traverse _ p.predicate).trans (precedes_traverse _ p.object))

theorem precedes_completeAll (st : Bindings × BlankSupply) (vs : List Var) :
    Precedes st (completeAll st vs).2 := by
  induction vs generalizing st with
  | nil => exact .refl
  | cons v vs ih => exact (precedes_complete st v).trans (ih _)

/-- A completable variable has the node that replaces it for its value afterwards. -/
theorem value_complete {v : Var} (h : st.1.Completable v.index) :
    (complete st v).2.1.value v.index = some (complete st v).1 := by
  cases hv : st.1.value v.index with
  | some n =>
      rw [complete_of_value hv]
      exact hv
  | none =>
      rcases h with hsome | ⟨last, hlast⟩
      · rw [hv] at hsome
        cases hsome
      · rw [complete_of_no_value hv]
        have hfree := slot?_of_derefWithin hlast
        have hbind : (st.1.bindSlot v.index st.2.fresh.1).2 =
            st.1.set last (.ground st.2.fresh.1) := by
          unfold bindSlot bindSlotBy
          rw [hlast]
          rfl
        have hheld : (st.1.set last (.ground st.2.fresh.1)).held? last = some st.2.fresh.1 := by
          rw [held?_set_ground (lt_length_of_slot? hfree), if_pos rfl]
        rw [hbind]
        change Bindings.resolve _ (.var v) = _
        rw [resolve_var, (Fills.set_ground hfree _).deref_unbound hlast, deref_of_held? hheld]
        rfl

/-- Slots hold terms, and the aliases of every slot come to an end. -/
structure Regular (b : Bindings) : Prop where
  solid : b.Solid
  ends : ∀ i < b.length, ∃ last, b.deref i = some last

theorem regular_empty (size : Nat) : (empty size).Regular where
  solid := (ground_empty size).solid
  ends i hi := by
    obtain ⟨_, last, hleads⟩ := (chained_empty size).ends i hi
    exact ⟨last, hleads.deref_eq⟩

theorem Regular.complete (h : st.1.Regular) (v : Var) : (complete st v).2.1.Regular where
  solid := (h.solid.complete v).2
  ends := (precedes_complete st v).fills.ends h.ends

/-- A variable that is not completable leads to a functor without a value. -/
theorem Regular.exists_functor (h : b.Regular) {i : Nat} (hi : i < b.length)
    (hstuck : ¬ b.Completable i) :
    b.value i = none ∧ ∃ f args, b.deref i = some (.ground (.functor f args)) := by
  obtain ⟨hnone, hbound⟩ := not_or.1 hstuck
  have hvalue : b.value i = none := by
    rwa [Bool.not_eq_true, Option.isSome_eq_false_iff, Option.isNone_iff_eq_none] at hnone
  refine ⟨hvalue, ?_⟩
  obtain ⟨last, hlast⟩ := h.ends i hi
  cases last with
  | unbound last => exact absurd ⟨last, hlast⟩ hbound
  | ground n =>
      rw [value, resolve_var, hlast] at hvalue
      obtain ⟨hvar, hany⟩ := h.solid.derefWithin hlast
      cases n with
      | functor f args => exact ⟨f, args, hlast⟩
      | var v => cases hvar
      | any => cases hany
      | _ => cases hvalue

/-- A completion never comes upon a blank node that was drawn before, if the variable leads
to a functor. -/
theorem complete_ne_of_functor {v : Var} {f : String} {args : List Node} {k : Nat}
    (h : st.1.deref v.index = some (.ground (.functor f args))) (hk : k < st.2.used) :
    (complete st v).1 ≠ .blank (BlankSupply.firstGenerated + k) := by
  cases hv : st.1.value v.index with
  | some n =>
      rw [complete_of_value hv]
      rw [value, resolve_var, h] at hv
      obtain ⟨ns, _, rfl⟩ := Option.map_eq_some_iff.1 hv
      exact fun hn => nomatch hn
  | none =>
      rw [complete_of_no_value hv]
      intro hblank
      have hsame : BlankSupply.firstGenerated + st.2.used = BlankSupply.firstGenerated + k :=
        Node.blank.inj hblank
      omega

theorem completeAll_cons (st : Bindings × BlankSupply) (v : Var) (vs : List Var) :
    completeAll st (v :: vs) = ((complete st v).1 :: (completeAll (complete st v).2 vs).1,
      (completeAll (complete st v).2 vs).2) := rfl

theorem length_completeAll (st : Bindings × BlankSupply) (vs : List Var) :
    (completeAll st vs).1.length = vs.length := by
  induction vs generalizing st with
  | nil => rfl
  | cons v vs ih => exact congrArg (· + 1) (ih _)

theorem completeAll_append (st : Bindings × BlankSupply) (vs ws : List Var) :
    completeAll st (vs ++ ws) =
      ((completeAll st vs).1 ++ (completeAll (completeAll st vs).2 ws).1,
        (completeAll (completeAll st vs).2 ws).2) := by
  induction vs generalizing st with
  | nil => rfl
  | cons v vs ih => rw [List.cons_append, completeAll_cons, completeAll_cons, ih, List.cons_append]

/-- The nodes are what the assignment gives the variables. -/
def Assigned (σ : Assignment) (vs : List Var) (ns : List Node) : Prop :=
  ns = vs.map fun v => σ v.index

theorem assigned_cons {v : Var} {vs : List Var} :
    Assigned σ (v :: vs) (completeAll st (v :: vs)).1 ↔
      (complete st v).1 = σ v.index ∧ Assigned σ vs (completeAll (complete st v).2 vs).1 := by
  rw [completeAll_cons, Assigned, Assigned, List.map_cons, List.cons.injEq]

theorem assigned_append {vs ws : List Var} :
    Assigned σ (vs ++ ws) (completeAll st (vs ++ ws)).1 ↔
      Assigned σ vs (completeAll st vs).1 ∧
        Assigned σ ws (completeAll (completeAll st vs).2 ws).1 := by
  rw [completeAll_append, Assigned, Assigned, Assigned, List.map_append]
  constructor
  · intro h
    exact List.append_inj h (by rw [length_completeAll, List.length_map])
  · rintro ⟨hleft, hright⟩
    rw [hleft, hright]

/-- What an environment makes of the variables, with wildcards where it has no value. -/
def valuation (b : Bindings) : Assignment := fun i => (b.value i).getD .any

/-- Variables with values are replaced by these, and nothing changes. -/
theorem assigned_of_values {vs : List Var} (h : ∀ v ∈ vs, (st.1.value v.index).isSome = true) :
    Assigned st.1.valuation vs (completeAll st vs).1 ∧ (completeAll st vs).2 = st := by
  induction vs with
  | nil => exact ⟨rfl, rfl⟩
  | cons v vs ih =>
      obtain ⟨n, hn⟩ := Option.isSome_iff_exists.1 (h v (List.mem_cons_self ..))
      have hrest := ih fun w hw => h w (List.mem_cons_of_mem v hw)
      rw [assigned_cons, completeAll_cons, complete_of_value hn]
      refine ⟨⟨?_, hrest.1⟩, hrest.2⟩
      rw [valuation, hn]
      rfl

/-- Completed variables are replaced by the values that they have in the end. -/
theorem assigned_of_completes {vs : List Var} (h : Completes st vs)
    (hfills : (completeAll st vs).2.1.Fills b) :
    Assigned b.valuation vs (completeAll st vs).1 ∧
      ∀ v ∈ vs, (b.value v.index).isSome = true := by
  induction vs generalizing st with
  | nil => exact ⟨rfl, fun _ hv => nomatch hv⟩
  | cons v vs ih =>
      have hlater := (precedes_completeAll (complete st v).2 vs).fills.trans hfills
      have hvalue := value_of_fills hlater (value_complete h.1)
      obtain ⟨hrest, hvalues⟩ := ih h.2 hfills
      refine ⟨assigned_cons.2 ⟨?_, hrest⟩, fun w hw => ?_⟩
      · rw [valuation, hvalue]
        rfl
      · rcases List.mem_cons.1 hw with rfl | hw
        · rw [hvalue]
          rfl
        · exact hvalues w hw

/-- If both of two passes give the variables what one assignment gives them, none of them
was stuck on the first pass: it would have got a blank node that cannot come back. -/
theorem completes_of_assigned {vs : List Var} (hst : st.1.Regular)
    (hvs : ∀ v ∈ vs, v.index < st.1.length) (hlater : Precedes (completeAll st vs).2 st')
    (hfirst : Assigned σ vs (completeAll st vs).1)
    (hsecond : Assigned σ vs (completeAll st' vs).1) : Completes st vs := by
  induction vs generalizing st st' with
  | nil => trivial
  | cons v vs ih =>
      have hstep := precedes_complete st v
      obtain ⟨hv, hrest⟩ := assigned_cons.1 hfirst
      obtain ⟨hv', hrest'⟩ := assigned_cons.1 hsecond
      refine ⟨?_, ih (hst.complete v) ?_ (hlater.trans (precedes_complete st' v)) hrest hrest'⟩
      · by_contra hstuck
        obtain ⟨hnone, f, args, hfunctor⟩ :=
          hst.exists_functor (hvs v (List.mem_cons_self ..)) hstuck
        have hbefore := (precedes_completeAll (complete st v).2 vs).trans hlater
        have hfunctor' := (hstep.trans hbefore).fills.deref_ground hfunctor
        have hused : st.2.used < st'.2.used := by
          have hdrawn := hbefore.used
          rw [complete_of_no_value hnone] at hdrawn
          exact hdrawn
        refine complete_ne_of_functor hfunctor' hused ?_
        rw [hv', ← hv, complete_of_no_value hnone]
        rfl
      · intro w hw
        rw [hstep.fills.length_eq]
        exact hvs w (List.mem_cons_of_mem v hw)

/-- Two passes over the variables agree with one assignment if and only if no variable is
stuck on the first one. -/
theorem exists_assigned_iff {vs : List Var} (hst : st.1.Regular)
    (hvs : ∀ v ∈ vs, v.index < st.1.length) :
    (∃ σ : Assignment, (∀ i n, st.1.value i = some n → σ i = n) ∧
      Assigned σ (vs ++ vs) (completeAll st (vs ++ vs)).1) ↔ Completes st vs := by
  constructor
  · rintro ⟨σ, _, hassigned⟩
    obtain ⟨hfirst, hsecond⟩ := assigned_append.1 hassigned
    exact completes_of_assigned hst hvs .refl hfirst hsecond
  · intro h
    obtain ⟨hfirst, hvalues⟩ := assigned_of_completes h .refl
    refine ⟨(completeAll st vs).2.1.valuation, fun i n hi => ?_,
      assigned_append.2 ⟨hfirst, (assigned_of_values hvalues).1⟩⟩
    rw [valuation, value_of_fills (precedes_completeAll st vs).fills hi]
    rfl

end Bindings

/-! ## Completing patterns -/

open Bindings

namespace Node

variable {σ : Assignment}

mutual
/-- Completing a pattern is completing its variables from left to right. -/
theorem traverse_complete {n : Node} (hn : n.noWildcard = true) (st : Bindings × BlankSupply) :
    (n.traverse complete freshBlank st).2 = (completeAll st n.vars).2 ∧
      ((n.traverse complete freshBlank st).1 = n.filled σ ↔
        Assigned σ n.vars (completeAll st n.vars).1) := by
  match n with
  | .var v =>
      refine ⟨rfl, ?_⟩
      rw [vars, assigned_cons]
      exact ⟨fun h => ⟨h, rfl⟩, fun h => h.1⟩
  | .any => cases hn
  | .functor f args =>
      obtain ⟨hstate, hnodes⟩ := traverseAll_complete hn st
      refine ⟨hstate, ?_⟩
      change Node.functor f _ = .functor f (allFilled σ args) ↔ _
      rw [Node.functor.injEq, eq_self_iff_true, true_and]
      exact hnodes
  | .uri _ | .literal _ | .blank _ => exact ⟨rfl, fun _ => rfl, fun _ => rfl⟩

theorem traverseAll_complete {ns : List Node} (hns : noWildcards ns = true)
    (st : Bindings × BlankSupply) :
    (traverseAll complete freshBlank st ns).2 = (completeAll st (varsAll ns)).2 ∧
      ((traverseAll complete freshBlank st ns).1 = allFilled σ ns ↔
        Assigned σ (varsAll ns) (completeAll st (varsAll ns)).1) := by
  match ns with
  | [] => exact ⟨rfl, fun _ => rfl, fun _ => rfl⟩
  | n :: ns =>
      rw [noWildcards, Bool.and_eq_true] at hns
      obtain ⟨hstate, hnode⟩ := traverse_complete hns.1 st
      obtain ⟨hstate', hnodes⟩ :=
        traverseAll_complete hns.2 (n.traverse complete freshBlank st).2
      rw [hstate] at hstate' hnodes
      rw [traverseAll, varsAll, assigned_append, completeAll_append, ← hnode, ← hnodes]
      simp only [hstate]
      refine ⟨hstate', ?_⟩
      rw [allFilled, substAll, List.cons.injEq]
end

end Node

namespace Node

variable {b : Bindings}

mutual
/-- Variables with values may be replaced by these beforehand. -/
theorem traverse_partialNode (hb : b.Solid) {st : Bindings × BlankSupply} {n : Node}
    (hn : n.noWildcard = true) (hlater : b.Fills st.1) : (b.partialNode n).traverse complete freshBlank st =
      n.traverse complete freshBlank st := by
  match n with
  | .var v =>
      change (b.valueOrSelf v).traverse complete freshBlank st = complete st v
      rw [valueOrSelf]
      cases hv : b.resolve (.var v) with
      | none => rfl
      | some k =>
          rw [complete_of_value (value_of_fills hlater hv)]
          exact traverse_of_ground st (hb.isGround_of_resolve hv)
  | .any => cases hn
  | .functor f args =>
      change (Node.functor f (substAll b.valueOrSelf args)).traverse complete freshBlank st = _
      rw [traverse, traverseAll_partialNode hb hn hlater]
      rfl
  | .uri _ | .literal _ | .blank _ => rfl

theorem traverseAll_partialNode (hb : b.Solid) {st : Bindings × BlankSupply} {ns : List Node}
    (hns : noWildcards ns = true) (hlater : b.Fills st.1) :
    traverseAll complete freshBlank st (substAll b.valueOrSelf ns) =
      traverseAll complete freshBlank st ns := by
  match ns with
  | [] => rfl
  | n :: ns =>
      rw [noWildcards, Bool.and_eq_true] at hns
      have hone := traverse_partialNode hb hns.1 hlater
      rw [partialNode] at hone
      have hfills : b.Fills (n.traverse complete freshBlank st).2.1 := by
        rw [(traverse_complete (σ := fun _ => .any) hns.1 st).1]
        exact hlater.trans (precedes_completeAll st n.vars).fills
      rw [substAll, traverseAll, traverseAll, hone]
      simp only
      rw [traverseAll_partialNode hb hns.2 hfills]
end

end Node

namespace Bindings

variable {b : Bindings} {st : Bindings × BlankSupply} {σ : Assignment}

theorem instantiate_complete {p : Triple} (hp : p.NoWildcard) (st : Bindings × BlankSupply) :
    (st.1.instantiate st.2 p).2 = (completeAll st p.vars).2 ∧
      ((st.1.instantiate st.2 p).1 = p.filled σ ↔
        Assigned σ p.vars (completeAll st p.vars).1) := by
  obtain ⟨hs, hpred, ho⟩ := Triple.noWildcard_iff.1 hp
  obtain ⟨hstate, hsubject⟩ := Node.traverse_complete (σ := σ) hs st
  obtain ⟨hstate', hpredicate⟩ :=
    Node.traverse_complete (σ := σ) hpred (completeAll st p.subject.vars).2
  obtain ⟨hstate'', hobject⟩ := Node.traverse_complete (σ := σ) ho
    (completeAll (completeAll st p.subject.vars).2 p.predicate.vars).2
  rw [Triple.vars, assigned_append, assigned_append, completeAll_append, completeAll_append,
    ← hsubject, ← hpredicate, ← hobject, instantiate, Triple.traverse]
  simp only [hstate, hstate', hstate'']
  rw [Triple.filled, Triple.map, Triple.mk.injEq, and_assoc]
  exact ⟨trivial, Iff.rfl⟩

/-- The values of variables may be put into a pattern before it is completed. -/
theorem instantiate_partialInstantiate (hb : b.Solid) (supply : BlankSupply) {p : Triple}
    (hp : p.NoWildcard) :
    b.instantiate supply (b.partialInstantiate p) = b.instantiate supply p := by
  obtain ⟨hs, hpred, ho⟩ := Triple.noWildcard_iff.1 hp
  have hfills (vs : List Var) : b.Fills (completeAll (b, supply) vs).2.1 :=
    (precedes_completeAll (b, supply) vs).fills
  have hstate := (Node.traverse_complete (σ := fun _ => .any) hs (b, supply)).1
  have hstate' := (Node.traverse_complete (σ := fun _ => .any) hpred
    (completeAll (b, supply) p.subject.vars).2).1
  have hsubject : (b.partialNode p.subject).traverse complete freshBlank (b, supply) =
      p.subject.traverse complete freshBlank (b, supply) :=
    Node.traverse_partialNode hb hs (hfills [])
  have hpredicate := Node.traverse_partialNode hb hpred (hfills p.subject.vars)
  have hobject := Node.traverse_partialNode hb ho (hfills (p.subject.vars ++ p.predicate.vars))
  rw [completeAll_append] at hobject
  rw [instantiate, instantiate, partialInstantiate, Triple.traverse, Triple.traverse, Triple.map]
  simp only [hsubject, hstate, hpredicate, hstate', hobject]

/-- Patterns completed in turn. -/
def instantiateAll (st : Bindings × BlankSupply) :
    List Triple → List Triple × Bindings × BlankSupply
  | [] => ([], st)
  | p :: ps =>
    let (t, st) := st.1.instantiate st.2 p
    let (ts, st) := instantiateAll st ps
    (t :: ts, st)

theorem instantiateAll_cons (st : Bindings × BlankSupply) (p : Triple) (ps : List Triple) :
    instantiateAll st (p :: ps) = ((st.1.instantiate st.2 p).1 ::
      (instantiateAll (st.1.instantiate st.2 p).2 ps).1,
      (instantiateAll (st.1.instantiate st.2 p).2 ps).2) := rfl

theorem isGround_of_mem_instantiateAll (h : st.1.Solid) {ps : List Triple} :
    ∀ t ∈ (instantiateAll st ps).1, t.isGround = true := by
  induction ps generalizing st with
  | nil => exact fun _ ht => nomatch ht
  | cons p ps ih =>
      intro t ht
      have hfirst := h.instantiate st.2 p
      rw [instantiateAll_cons] at ht
      rcases List.mem_cons.1 ht with rfl | ht
      · exact hfirst.1
      · exact ih hfirst.2 t ht

/-- Completed patterns are filled in by one assignment if it gives their variables, in the
order of their occurrence, what these are replaced by. -/
theorem instantiateAll_eq_filled_iff {ps : List Triple} (hps : ∀ p ∈ ps, p.NoWildcard) :
    (instantiateAll st ps).1 = ps.map (.filled σ) ↔
      Assigned σ (ps.flatMap Triple.vars) (completeAll st (ps.flatMap Triple.vars)).1 := by
  induction ps generalizing st with
  | nil => exact ⟨fun _ => rfl, fun _ => rfl⟩
  | cons p ps ih =>
      obtain ⟨hstate, hfirst⟩ := instantiate_complete (σ := σ) (hps p (List.mem_cons_self ..)) st
      rw [instantiateAll_cons, List.map_cons, List.cons.injEq, List.flatMap_cons, assigned_append,
        ← hstate, hfirst, ih fun q hq => hps q (List.mem_cons_of_mem p hq)]

end Bindings

/-! ## Environments that have been bound -/

namespace BindingRequest

variable {b b' : Bindings} {answers : List Bool} {requests : List BindingRequest}

theorem regular_perform {r : BindingRequest} {answer : Bool} (hb : b.Regular)
    (h : r.perform b = .ok (answer, b')) : b'.Regular ∧ b'.length = b.length := by
  suffices hkept : b.Fills b' ∧ b'.Solid from
    ⟨⟨hkept.2, hkept.1.ends hb.ends⟩, hkept.1.length_eq⟩
  cases r with
  | bind target value =>
      obtain rfl : _ = b' := congrArg Prod.snd (Except.ok.inj h)
      exact ⟨Fills.bind b target value, hb.solid.bind target value⟩
  | bindAt i value =>
      rw [perform, bind?] at h
      split at h
      · obtain rfl : _ = b' := congrArg Prod.snd (Except.ok.inj h)
        exact ⟨Fills.bind b (.var ⟨"", i⟩) value, hb.solid.bindSlot i value⟩
      · cases h
  | unify pattern fact =>
      obtain rfl : _ = b' := congrArg Prod.snd (Except.ok.inj h)
      exact ⟨Fills.unifyTriple b pattern fact, hb.solid.unifyTriple pattern fact⟩

theorem regular_performAll (hb : b.Regular) (h : performAll b requests = .ok (answers, b')) :
    b'.Regular ∧ b'.length = b.length := by
  induction requests generalizing b answers with
  | nil =>
      cases h
      exact ⟨hb, rfl⟩
  | cons r rest ih =>
      rw [performAll] at h
      cases hfirst : r.perform b with
      | error cause =>
          rw [hfirst] at h
          cases h
      | ok result =>
          obtain ⟨answer, b₁⟩ := result
          obtain ⟨hregular, hlength⟩ := regular_perform hb hfirst
          rw [hfirst] at h
          change (performAll b₁ rest >>= _) = _ at h
          cases hrest : performAll b₁ rest with
          | error cause =>
              rw [hrest] at h
              cases h
          | ok result =>
              rw [hrest] at h
              cases h
              obtain ⟨hregular', hlength'⟩ := ih hregular hrest
              exact ⟨hregular', hlength'.trans hlength⟩

/-- After any requests completed patterns are ground, and values may be put into a pattern
beforehand.  Patterns completed twice over are filled in by one assignment, which gives the
variables with values these, if and only if each variable has a value or leads to an unbound
slot when its turn comes for the first time. -/
theorem instantiateAll_consistent {size : Nat}
    (hb : performAll (.empty size) requests = .ok (answers, b)) (supply : BlankSupply)
    {ps : List Triple} (hps : ∀ p ∈ ps, p.NoWildcard ∧ ∀ i ∈ p.indexes, i < size) :
    (∀ t ∈ (instantiateAll (b, supply) (ps ++ ps)).1, t.isGround = true) ∧
      (∀ p ∈ ps, b.instantiate supply (b.partialInstantiate p) = b.instantiate supply p) ∧
      ((∃ σ : Assignment, (∀ i n, b.value i = some n → σ i = n) ∧
        (instantiateAll (b, supply) (ps ++ ps)).1 = (ps ++ ps).map (.filled σ)) ↔
          Completes (b, supply) (ps.flatMap Triple.vars)) := by
  obtain ⟨hregular, hlength⟩ := regular_performAll (regular_empty size) hb
  rw [length_empty] at hlength
  have hplain : ∀ p ∈ ps ++ ps, p.NoWildcard := by
    intro p hp
    exact (hps p ((List.mem_append.1 hp).elim id id)).1
  have hslots : ∀ v ∈ ps.flatMap Triple.vars, v.index < (b, supply).1.length := by
    intro v hv
    obtain ⟨p, hp, hv⟩ := List.mem_flatMap.1 hv
    rw [hlength]
    exact (hps p hp).2 v.index (List.mem_map_of_mem hv)
  refine ⟨isGround_of_mem_instantiateAll hregular.solid, fun p hp => ?_, ?_⟩
  · exact instantiate_partialInstantiate hregular.solid supply (hps p hp).1
  · rw [← exists_assigned_iff hregular hslots]
    refine exists_congr fun σ => and_congr_right fun _ => ?_
    rw [instantiateAll_eq_filled_iff hplain, List.flatMap_append]

/-- The first variable has a value, the second one leads to an unbound slot, and a third
one is bound to a functor of the two. -/
def partlyBound : List BindingRequest :=
  [.bind (.var ⟨"x", 0⟩) (.uri "a"), .bind (.var ⟨"y", 1⟩) (.var ⟨"z", 2⟩),
    .bind (.var ⟨"w", 3⟩) (.functor "f" [.var ⟨"x", 0⟩, .var ⟨"z", 2⟩])]

/-- The functor comes last, when its variables have values. -/
def lateFunctor : Triple := ⟨.var ⟨"x", 0⟩, .var ⟨"y", 1⟩, .var ⟨"w", 3⟩⟩

theorem instantiate_lateFunctor_twice :
    ∃ b, performAll (.empty 4) partlyBound = .ok ([true, true, true], b) ∧
      ∃ σ : Assignment, (∀ i n, b.value i = some n → σ i = n) ∧
        (instantiateAll (b, ⟨0⟩) [lateFunctor, lateFunctor]).1 =
          [lateFunctor.filled σ, lateFunctor.filled σ] := by
  refine ⟨⟨[.ground (.uri "a"), .aliasOf 2, .unbound,
    .ground (.functor "f" [.var ⟨"x", 0⟩, .var ⟨"z", 2⟩])]⟩, rfl, ?_⟩
  have hslots : ∀ p ∈ [lateFunctor], p.NoWildcard ∧ ∀ i ∈ p.indexes, i < 4 := by
    intro p hp
    obtain rfl := List.mem_singleton.1 hp
    exact ⟨Triple.noWildcard_iff.2 ⟨rfl, rfl, rfl⟩, by decide⟩
  have hbound : performAll (.empty 4) partlyBound = .ok ([true, true, true],
      ⟨[.ground (.uri "a"), .aliasOf 2, .unbound,
        .ground (.functor "f" [.var ⟨"x", 0⟩, .var ⟨"z", 2⟩])]⟩) := rfl
  refine (instantiateAll_consistent hbound ⟨0⟩ hslots).2.2.2 ?_
  exact ⟨Or.inl rfl, Or.inr ⟨2, rfl⟩, Or.inl rfl, trivial⟩

/-! ## A binding that is refused without notice -/

/-- The variable is bound to a functor that has no value. -/
def openFunctor : List BindingRequest :=
  [.bind (.var ⟨"x", 0⟩) (.functor "f" [.var ⟨"y", 1⟩])]

def reflexive : Triple := ⟨.var ⟨"x", 0⟩, .uri "p", .var ⟨"x", 0⟩⟩

/-- The two occurrences of one variable are replaced by different blank nodes. -/
theorem not_consistent_reflexive :
    ∃ b, performAll (.empty 2) openFunctor = .ok ([true], b) ∧ b.value 0 = none ∧
      ¬ ∃ σ : Assignment, (b.instantiate ⟨0⟩ reflexive).1 = reflexive.filled σ := by
  refine ⟨⟨[.ground (.functor "f" [.var ⟨"y", 1⟩]), .unbound]⟩, rfl, rfl, ?_⟩
  rintro ⟨σ, h⟩
  have hsubject : Node.blank 1000000 = σ 0 := congrArg Triple.subject h
  have hobject : Node.blank 1000001 = σ 0 := congrArg Triple.object h
  cases hsubject.trans hobject.symm

end BindingRequest

end Entailment
