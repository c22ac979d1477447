import Entailment.Proofs.Builtin.Binding
import Entailment.Proofs.Rule.Instance

/-!
# Heads that do not nest

A variable resolves to a node without a functor inside a functor, whatever its slot holds.
So a head can make such a node in one way only: a variable inside one of its functors has
a functor for its value.  A variable is sheltered from that if it also stands inside a
functor of the body, where it has met an argument of a fact, if a call of the body holds
only where it has another value, or if nothing but the head names it, so that it is to
stand for a blank node.
-/

namespace Entailment

/-- No part of the triple is a functor with a functor inside. -/
def Triple.Unnested (t : Triple) : Prop := t.MadeOf fun n => n.isNested = false

/-- The variables inside a functor. -/
def Node.innerIndexes : Node → List Nat
  | .functor _ args => indexesAll args
  | _ => []

def Triple.innerIndexes (t : Triple) : List Nat := t.nodes.flatMap Node.innerIndexes

/-- The variables that a slot names. -/
def Slot.indexes : Slot → List Nat
  | .unbound => []
  | .ground n => n.indexes
  | .aliasOf j => [j]

namespace Bindings

variable {b b' : Bindings} {i : Nat}

/-! ## Slots that stay filled -/

/-- The slot leads to a node that is no functor. -/
def Atomic (b : Bindings) (i : Nat) : Prop :=
  ∃ n, b.deref i = some (.ground n) ∧ n.isFunctor = false

theorem derefWithin_set {target : Nat} (ht : b.slot? target = some .unbound) (s : Slot)
    {links i : Nat} {n : Node} (h : b.derefWithin links i = some (.ground n)) :
    (b.set target s).derefWithin links i = some (.ground n) := by
  induction links generalizing i with
  | zero => cases h
  | succ links ih =>
      have hne : target ≠ i := by
        rintro rfl
        rw [derefWithin, ht] at h
        cases h
      rw [derefWithin, slot?_set, if_neg hne]
      rw [derefWithin] at h
      split at h
      · cases h
      · cases h
      · exact h
      · exact ih h

theorem Atomic.fills (h : b.Atomic i) (hfills : b.Fills b') : b'.Atomic i := by
  induction hfills with
  | refl => exact h
  | @tail b₁ _ _ hstep ih =>
      obtain ⟨target, s, ht, _, rfl⟩ := hstep
      obtain ⟨n, hn, hfunctor⟩ := ih
      refine ⟨n, ?_, hfunctor⟩
      rw [deref, length_set]
      exact derefWithin_set ht s hn

theorem atomic_of_held? {n : Node} (h : b.held? i = some n) (hn : n.isFunctor = false) :
    b.Atomic i := ⟨n, deref_of_held? h, hn⟩

theorem Atomic.isFunctor {v : Var} (h : b.Atomic v.index) {n : Node}
    (hn : b.resolve (.var v) = some n) : n.isFunctor = false := by
  obtain ⟨m, hm, hfunctor⟩ := h
  rw [resolve, hm] at hn
  exact (isFunctor_of_resolveTerm hn).trans hfunctor

/-- A variable whose value is no functor leads to a node that is none. -/
theorem atomic_of_resolve {v : Var} {n : Node} (h : b.resolve (.var v) = some n)
    (hn : n.isFunctor = false) : b.Atomic v.index := by
  rw [resolve] at h
  split at h
  · rename_i m hm
    exact ⟨m, hm, (isFunctor_of_resolveTerm h).symm.trans hn⟩
  · cases h

/-- The slot is unbound, and no other one names it. -/
structure Loose (b : Bindings) (i : Nat) : Prop where
  unbound : ∀ s, b.slot? i = some s → s = .unbound
  unnamed : ∀ j s, b.slot? j = some s → i ∉ s.indexes

theorem Ground.loose (h : b.Ground) (hi : b.held? i = none) : b.Loose i where
  unbound s hs := by
    rcases h i s hs with hunbound | ⟨n, rfl, _⟩
    · exact hunbound
    · rw [held?, hs] at hi
      cases hi
  unnamed j s hs := by
    rcases h j s hs with rfl | ⟨n, rfl, hn⟩
    · exact List.not_mem_nil
    · rw [Slot.indexes, Node.indexes_of_ground hn]
      exact List.not_mem_nil

theorem Loose.resolve_eq_none {v : Var} (h : b.Loose v.index) : b.resolve (.var v) = none := by
  rw [resolve, deref, derefWithin]
  cases hslot : b.slot? v.index with
  | none => rfl
  | some s =>
      obtain rfl := h.unbound s hslot
      rfl

theorem Loose.set {target : Nat} (h : b.Loose i) (hne : target ≠ i) {s : Slot}
    (hs : i ∉ s.indexes) : (b.set target s).Loose i where
  unbound s' hs' := by
    rw [slot?_set, if_neg hne] at hs'
    exact h.unbound s' hs'
  unnamed j s' hs' := by
    rw [slot?_set] at hs'
    split at hs'
    · split at hs'
      · cases hs'
        exact hs
      · cases hs'
    · exact h.unnamed j s' hs'

/-! ## Completed patterns -/

/-- To bind a blank node is to fill an unbound slot with it, or to do nothing. -/
theorem Solid.bindSlot_blank (h : b.Solid) (i k : Nat) :
    (b.bindSlot i (.blank k)).2 = b ∨ ∃ target, b.slot? target = some .unbound ∧
      (b.bindSlot i (.blank k)).2 = b.set target (.ground (.blank k)) := by
  unfold Bindings.bindSlot Bindings.bindSlotBy
  split
  · exact Or.inl rfl
  · rename_i n hn
    left
    obtain ⟨hvar, hany⟩ := h.derefWithin hn
    unfold unify depthBound
    cases n with
    | var v => cases hvar
    | any => cases hany
    | _ => rfl
  · rename_i target htarget
    exact Or.inr ⟨target, slot?_of_derefWithin htarget, rfl⟩

/-- Every one of these variables leads to a node that is no functor, or is loose and
left alone. -/
structure Shelters (b : Bindings) (alone : Nat → Prop) (is : List Nat) : Prop where
  solid : b.Solid
  sheltered : ∀ i ∈ is, b.Atomic i ∨ alone i ∧ b.Loose i

namespace Shelters

variable {alone : Nat → Prop} {is : List Nat} {st : Bindings × BlankSupply}

theorem bindSlot_blank (h : b.Shelters alone is) (j k : Nat) :
    (b.bindSlot j (.blank k)).2.Shelters alone is := by
  refine ⟨h.solid.bindSlot j _, fun i hi => ?_⟩
  rcases h.solid.bindSlot_blank j k with hsame | ⟨target, htarget, hset⟩
  · rw [hsame]
    exact h.sheltered i hi
  · rw [hset]
    rcases h.sheltered i hi with hatomic | ⟨halone, hloose⟩
    · exact Or.inl (hatomic.fills (.set_ground htarget _))
    · by_cases hne : target = i
      · -- The variable itself has got the blank node.
        subst hne
        left
        refine atomic_of_held? (n := .blank k) ?_ rfl
        rw [held?_set_ground (lt_length_of_slot? htarget), if_pos rfl]
      · exact Or.inr ⟨halone, hloose.set hne List.not_mem_nil⟩

theorem complete (h : st.1.Shelters alone is) (v : Var) :
    (complete st v).1.isNested = false ∧
      (v.index ∈ is → (Bindings.complete st v).1.isFunctor = false) ∧
      (Bindings.complete st v).2.1.Shelters alone is := by
  unfold Bindings.complete
  split
  · rename_i n hn
    refine ⟨isNested_of_resolve hn, fun hv => ?_, h⟩
    rcases h.sheltered v.index hv with hatomic | ⟨_, hloose⟩
    · exact hatomic.isFunctor hn
    · rw [hloose.resolve_eq_none] at hn
      cases hn
  · exact ⟨rfl, fun _ => rfl, h.bindSlot_blank v.index _⟩

theorem traverseArg (h : st.1.Shelters alone is) {n : Node} (hn : n.isFunctor = false)
    (hi : ∀ i ∈ n.indexes, i ∈ is) :
    (n.traverse Bindings.complete freshBlank st).1.isFunctor = false ∧
      (n.traverse Bindings.complete freshBlank st).2.1.Shelters alone is := by
  cases n with
  | var v => exact (h.complete v).2.imp_left fun hv => hv (hi _ (List.mem_singleton.2 rfl))
  | any => exact ⟨rfl, h⟩
  | functor f args => cases hn
  | _ => exact ⟨rfl, h⟩

theorem traverseArgs (h : st.1.Shelters alone is) {ns : List Node}
    (hns : ns.any Node.isFunctor = false) (hi : ∀ i ∈ Node.indexesAll ns, i ∈ is) :
    (Node.traverseAll Bindings.complete freshBlank st ns).1.any Node.isFunctor = false ∧
      (Node.traverseAll Bindings.complete freshBlank st ns).2.1.Shelters alone is := by
  induction ns generalizing st with
  | nil => exact ⟨rfl, h⟩
  | cons n ns ih =>
      rw [List.any_cons, Bool.or_eq_false_iff] at hns
      rw [Node.indexesAll_cons] at hi
      have hfirst := h.traverseArg hns.1 fun i hin => hi i (List.mem_append_left _ hin)
      have hrest := ih hfirst.2 hns.2 fun i hin => hi i (List.mem_append_right _ hin)
      refine ⟨?_, hrest.2⟩
      rw [Node.traverseAll, List.any_cons, Bool.or_eq_false_iff]
      exact ⟨hfirst.1, hrest.1⟩

theorem traverse (h : st.1.Shelters alone is) {n : Node} (hn : n.isNested = false)
    (hi : ∀ i ∈ n.innerIndexes, i ∈ is) :
    (n.traverse Bindings.complete freshBlank st).1.isNested = false ∧
      (n.traverse Bindings.complete freshBlank st).2.1.Shelters alone is := by
  cases n with
  | var v => exact ⟨(h.complete v).1, (h.complete v).2.2⟩
  | any => exact ⟨rfl, h⟩
  | functor f args => exact h.traverseArgs hn hi
  | _ => exact ⟨rfl, h⟩

theorem instantiate (h : b.Shelters alone is) {p : Triple} (hp : p.Unnested)
    (hi : ∀ i ∈ p.innerIndexes, i ∈ is) (supply : BlankSupply) :
    (b.instantiate supply p).1.Unnested ∧ (b.instantiate supply p).2.1.Shelters alone is := by
  have hinner : ∀ n ∈ p.nodes, ∀ i ∈ n.innerIndexes, i ∈ is :=
    fun n hn i hin => hi i (List.mem_flatMap.2 ⟨n, hn, hin⟩)
  have hs := (show (b, supply).1.Shelters alone is from h).traverse
    (hp p.subject (by simp [Triple.nodes])) (hinner p.subject (by simp [Triple.nodes]))
  have hq := hs.2.traverse (hp p.predicate (by simp [Triple.nodes]))
    (hinner p.predicate (by simp [Triple.nodes]))
  have ho := hq.2.traverse (hp p.object (by simp [Triple.nodes]))
    (hinner p.object (by simp [Triple.nodes]))
  refine ⟨fun n hn => ?_, ho.2⟩
  simp only [Triple.nodes, List.mem_cons, List.not_mem_nil, or_false] at hn
  rcases hn with rfl | rfl | rfl
  · exact hs.1
  · exact hq.1
  · exact ho.1

end Shelters

end Bindings

/-! ## Calls -/

/-- The call holds only where the variable has come to a node that is no functor. -/
def Call.Restricts (registry : Registry) (c : Call) (i : Nat) : Prop :=
  ∀ (ctx : CallContext) (st st' : CallState),
    c.holds registry ctx st = (true, st') → st'.bindings.Atomic i

/-- In a body or a head, the call leaves a loose variable as it is. -/
structure Call.Ignores (registry : Registry) (c : Call) (i : Nat) : Prop where
  holds : ∀ (ctx : CallContext) (st : CallState),
    st.bindings.Loose i → (c.holds registry ctx st).2.bindings.Loose i
  act : ∀ (ctx : CallContext) (st : CallState),
    st.bindings.Loose i → (c.act registry ctx st).bindings.Loose i

section Tests

variable {registry : Registry} {name : String}

/-- A test leaves all variables as they are. -/
theorem Call.ignores_of_test {arity : Nat} {test : List Node → Bool} {c : Call}
    (h : registry.get? c.name = some (.ofTest name arity test)) (i : Nat) :
    c.Ignores registry i where
  holds ctx st hloose := by
    rw [Call.holds, h]
    exact hloose
  act ctx st hloose := by
    rw [Call.act, h]
    exact hloose

/-- A test that accepts only ground nodes that are no functors restricts its argument. -/
theorem Call.restricts_of_kindTest {test : Node → Bool} {f : String} {v : Var}
    (h : registry.get? f = some (Builtin.kindTest name test))
    (htest : ∀ n, test n = true → n.isGround = true ∧ n.isFunctor = false) :
    Call.Restricts registry ⟨f, [.var v]⟩ v.index := by
  intro ctx st st' hholds
  rw [Call.holds, h] at hholds
  obtain ⟨haccepted, rfl⟩ := Prod.mk.inj hholds
  obtain ⟨hground, hfunctor⟩ := htest _ haccepted
  change ((st.bindings.resolve (.var v)).getD (.var v)).isGround = true at hground
  change ((st.bindings.resolve (.var v)).getD (.var v)).isFunctor = false at hfunctor
  cases hvalue : st.bindings.resolve (.var v) with
  | none =>
      rw [hvalue] at hground
      cases hground
  | some n =>
      rw [hvalue] at hfunctor
      exact Bindings.atomic_of_resolve hvalue hfunctor

end Tests

section Asking

variable {ask : Call → CallState → Bool × CallState} {calls : List Call} {P : CallState → Prop}
  {st st' : CallState}

/-- What every call keeps is kept when the calls are asked. -/
theorem allHold_keeps (hask : ∀ c ∈ calls, ∀ st, P st → P (ask c st).2) (h : P st) :
    P (allHold ask calls st).2 := by
  induction calls generalizing st with
  | nil => exact h
  | cons c calls ih =>
      have hfirst := hask c List.mem_cons_self st h
      unfold allHold
      cases hanswer : ask c st with
      | mk answer st₁ =>
          rw [hanswer] at hfirst
          cases answer with
          | true => exact ih (fun d hd => hask d (List.mem_cons_of_mem _ hd)) hfirst
          | false => exact hfirst

/-- What one of the calls brings about and every call keeps is so when all have held. -/
theorem allHold_brings (hask : ∀ c ∈ calls, ∀ st, P st → P (ask c st).2) {c : Call}
    (hc : c ∈ calls) (hbrings : ∀ st st', ask c st = (true, st') → P st')
    (h : allHold ask calls st = (true, st')) : P st' := by
  induction calls generalizing st with
  | nil => cases hc
  | cons d calls ih =>
      have hrest := fun c hc => hask c (List.mem_cons_of_mem d hc)
      unfold allHold at h
      cases hanswer : ask d st with
      | mk answer st₁ =>
          rw [hanswer] at h
          cases answer with
          | false => cases h
          | true =>
              rcases List.mem_cons.1 hc with rfl | hc
              · have hkept := allHold_keeps hrest (hbrings st st₁ hanswer)
                rwa [show allHold ask calls st₁ = (true, st') from h] at hkept
              · exact ih hrest hc h

end Asking

/-! ## Rules -/

namespace Rule

variable {r : Rule} {registry : Registry}

/-- The variables inside the functors of the head. -/
def filledIndexes (r : Rule) : List Nat :=
  (r.head.filterMap Clause.pattern?).flatMap Triple.innerIndexes

/-- Only patterns of the head name the variable. -/
structure LeavesAlone (registry : Registry) (r : Rule) (i : Nat) : Prop where
  notBound : i ∉ r.boundIndexes
  calls : ∀ c, Clause.call c ∈ r.clauses → c.Ignores registry i

/-- No functor can be the value of the variable when the head is completed. -/
def Shelters (registry : Registry) (r : Rule) (i : Nat) : Prop :=
  (∃ p, Clause.pattern p ∈ r.body ∧ i ∈ p.innerIndexes) ∨
    (∃ c, Clause.call c ∈ r.body ∧ c.Restricts registry i) ∨ r.LeavesAlone registry i

/-- The rule shelters the variables inside the functors of its head. -/
def Sheltered (registry : Registry) (r : Rule) : Prop :=
  ∀ i ∈ r.filledIndexes, r.Shelters registry i

theorem isNested_of_validate (h : r.validate registry = .ok ()) :
    ∀ c ∈ r.clauses, c.isNested = false := by
  have hnone : r.clauses.find? Clause.isNested = none := by
    cases hfound : r.clauses.find? Clause.isNested with
    | none => rfl
    | some c =>
        unfold validate at h
        rw [hfound] at h
        cases hempty : r.head.isEmpty <;> rw [hempty] at h <;> cases h
  exact fun c hc => Bool.eq_false_iff.2 (List.find?_eq_none.1 hnone c hc)

theorem flat_of_validate (h : r.validate registry = .ok ()) {p : Triple}
    (hp : Clause.pattern p ∈ r.clauses) : p.Unnested := fun n hn =>
  Bool.eq_false_iff.2 (List.any_eq_false.1 (isNested_of_validate h _ hp) n hn)

end Rule

/-! ## Matched patterns -/

theorem Node.isFunctor_of_allFit {σ : Assignment} {ps ns : List Node} (h : AllFit σ ps ns)
    (hns : ns.any isFunctor = false) : ∀ i ∈ indexesAll ps, (σ i).isFunctor = false := by
  intro i hi
  induction ps generalizing ns with
  | nil => cases hi
  | cons p ps ih =>
      cases ns with
      | nil => cases h
      | cons n ns =>
          rw [List.any_cons, Bool.or_eq_false_iff] at hns
          rw [indexesAll_cons, List.mem_append] at hi
          rcases hi with hi | hi
          · cases p with
            | var v =>
                rw [List.mem_singleton.1 hi, isFunctor_congr h.1]
                exact hns.1
            | functor f args =>
                -- The argument of the fact is no functor, so none fits it.
                cases n with
                | functor g ms => cases hns.1
                | _ => cases h.1
            | _ => cases hi
          · exact ih h.2 hns.2 hi

/-- A variable inside a functor of a pattern stands for an argument of the fact. -/
theorem Triple.Fits.isFunctor {σ : Assignment} {p t : Triple} (h : p.Fits σ t) (ht : t.Unnested) :
    ∀ i ∈ p.innerIndexes, (σ i).isFunctor = false := by
  have hone : ∀ {m n : Node}, m.Fits σ n → n.isNested = false →
      ∀ i ∈ m.innerIndexes, (σ i).isFunctor = false := by
    intro m n hfits hn i hi
    cases m with
    | functor f ps =>
        cases n with
        | functor g ns => exact Node.isFunctor_of_allFit hfits.2 hn i hi
        | _ => cases hfits
    | _ => cases hi
  intro i hi
  obtain ⟨n, hn, hi⟩ := List.mem_flatMap.1 hi
  simp only [Triple.nodes, List.mem_cons, List.not_mem_nil, or_false] at hn
  rcases hn with rfl | rfl | rfl
  · exact hone h.subject (ht _ (by simp [Triple.nodes])) i hi
  · exact hone h.predicate (ht _ (by simp [Triple.nodes])) i hi
  · exact hone h.object (ht _ (by simp [Triple.nodes])) i hi

/-! ## Conclusions -/

namespace Rule

variable {r : Rule} {registry : Registry} {ctx : CallContext} {st : CallState}

/-- The head of a sheltered rule draws flat conclusions. -/
theorem flat_of_mem_conclude (hpatterns : ∀ p, Clause.pattern p ∈ r.head → p.Unnested)
    (hact : ∀ c, Clause.call c ∈ r.head → ∀ st : CallState,
      st.bindings.Evolves (c.act registry ctx st).bindings)
    (h : st.bindings.Shelters (r.LeavesAlone registry) r.filledIndexes) :
    ∀ t ∈ (r.conclude registry ctx st).1, t.Unnested := by
  suffices hclauses : ∀ (clauses : List Clause) (drawn : OrderedSet Triple) (st : CallState),
      (∀ c ∈ clauses, c ∈ r.head) →
      st.bindings.Shelters (r.LeavesAlone registry) r.filledIndexes →
      (∀ t ∈ drawn.members, t.Unnested) →
      ∀ t ∈ (clauses.foldl (Clause.carryOut registry ctx) (drawn, st)).1.members, t.Unnested from
    hclauses r.head .empty st (fun _ hc => hc) h fun _ ht => nomatch ht
  intro clauses
  induction clauses with
  | nil => exact fun _ _ _ _ hdrawn => hdrawn
  | cons clause clauses ih =>
      intro drawn st hhead hshelters hdrawn
      rw [List.foldl_cons]
      have hclause := hhead clause List.mem_cons_self
      have hrest := fun c hc => hhead c (List.mem_cons_of_mem clause hc)
      cases clause with
      | pattern p =>
          have hinner : ∀ i ∈ p.innerIndexes, i ∈ r.filledIndexes := fun i hi =>
            List.mem_flatMap.2 ⟨p, mem_filterMap_pattern?_iff.2 hclause, hi⟩
          have hone := hshelters.instantiate (hpatterns p hclause) hinner st.world.supply
          refine ih _ _ hrest hone.2 fun t ht => ?_
          rcases OrderedSet.mem_insert ht with ht | rfl
          · exact hdrawn t ht
          · exact hone.1
      | call c =>
          have hevolves := hact c hclause st
          refine ih _ _ hrest ⟨hshelters.solid.evolves hevolves, fun i hi => ?_⟩ hdrawn
          rcases hshelters.sheltered i hi with hatomic | ⟨halone, hloose⟩
          · exact Or.inl (hatomic.fills (.of_evolves hevolves))
          · have hignores := halone.calls c (List.mem_append_right _ hclause)
            exact Or.inr ⟨halone, hignores.act ctx st hloose⟩

end Rule

namespace CompiledRule

variable {c : CompiledRule} {ts : List Triple} {b : Bindings}

/-- Facts that can be unified with the patterns of a rule match them. -/
theorem Matches.of_unifyToken {before rest : List Triple} {b₀ : Bindings}
    (hbefore : c.Matches before b₀) (hlength : before.length + rest.length = c.levels)
    (hground : ∀ t ∈ rest, t.isGround = true)
    (h : c.unifyToken ((c.patterns.drop before.length).zip rest) b₀ = .ok b) :
    c.Matches (before ++ rest) b := by
  induction rest generalizing before b₀ with
  | nil =>
      rw [List.zip_nil_right] at h
      cases h
      rwa [List.append_nil]
  | cons t rest ih =>
      rw [List.length_cons] at hlength
      have hlt : before.length < c.patterns.length := by
        unfold levels at hlength
        omega
      have hp : c.patterns[before.length]? = some c.patterns[before.length] :=
        List.getElem?_eq_getElem hlt
      rw [List.drop_eq_getElem_cons hlt, List.zip_cons_cons, unifyToken] at h
      split at h
      · rename_i b₁ hmatch
        have hnext := hbefore.next hp (hground t List.mem_cons_self) hmatch
        rw [← List.singleton_append, ← List.append_assoc]
        refine ih hnext ?_ (fun u hu => hground u (List.mem_cons_of_mem _ hu)) ?_
        · rw [List.length_append, List.length_singleton]
          omega
        · rwa [List.length_append, List.length_singleton]
      · cases h

theorem matches_of_bindings (hground : ∀ t ∈ ts, t.isGround = true) (h : c.bindings ts = .ok b) :
    c.Matches ts b ∧ ts.length = c.levels := by
  unfold bindings at h
  split at h
  · rename_i hlength
    exact ⟨Matches.of_unifyToken .none (by simpa using hlength) hground h, hlength⟩
  · cases h

variable {r : Rule} {registry : Registry}

/-- What has matched a functor of the body leads the variables inside to no functor. -/
theorem Matches.atomic (h : (ofRule registry r).Matches ts b)
    (hlength : ts.length = (ofRule registry r).levels) (hts : ∀ t ∈ ts, t.Unnested) {p : Triple}
    (hp : Clause.pattern p ∈ r.body) {i : Nat} (hi : i ∈ p.innerIndexes) : b.Atomic i := by
  obtain ⟨place, hplace⟩ := Rule.mem_patterns_iff.2 hp
  obtain ⟨level, hlevel⟩ := List.mem_iff_getElem?.1 hplace
  have hlt : level < ts.length := by
    rw [hlength]
    exact (List.getElem?_eq_some_iff.1 hlevel).1
  have hfits := h.fits hlevel (List.getElem?_eq_getElem hlt)
  have hindex : i ∈ p.indexes := by
    obtain ⟨n, hn, hi⟩ := List.mem_flatMap.1 hi
    have hinner : i ∈ n.indexes := by
      cases n with
      | functor f args => exact hi
      | _ => cases hi
    rw [Triple.indexes_eq]
    simp only [Triple.nodes, List.mem_cons, List.not_mem_nil, or_false] at hn
    rcases hn with rfl | rfl | rfl <;> simp [hinner]
  obtain ⟨n, hn⟩ := Option.isSome_iff_exists.1
    ((h.held?_isSome_iff i).2 ⟨level, _, hlt, hlevel, hindex⟩)
  have hfunctor := hfits.isFunctor (hts _ (List.getElem_mem hlt)) i hi
  rw [Bindings.assignment, hn] at hfunctor
  exact Bindings.atomic_of_held? hn hfunctor

/-- When the calls of a sheltered rule have held, its environment shelters what the head
is to be filled with. -/
theorem Matches.shelters (hmatches : (ofRule registry r).Matches ts b)
    (hlength : ts.length = (ofRule registry r).levels) (hts : ∀ t ∈ ts, t.Unnested)
    (hsheltered : r.Sheltered registry) {ctx : CallContext} {world : World} {st : CallState}
    (hholds : ∀ (call : Call) (st : CallState),
      st.bindings.Evolves (call.holds registry ctx st).2.bindings)
    (hasked : allHold (fun call st => call.holds registry ctx st) (ofRule registry r).calls
      { bindings := b, world } = (true, st)) :
    st.bindings.Shelters (r.LeavesAlone registry) r.filledIndexes := by
  have hatomic : ∀ i (call : Call), call ∈ (ofRule registry r).calls → ∀ st : CallState,
      st.bindings.Atomic i → (call.holds registry ctx st).2.bindings.Atomic i :=
    fun _ call _ st hst => hst.fills (.of_evolves (hholds call st))
  have hst : st = (allHold (fun call st => call.holds registry ctx st)
      (ofRule registry r).calls { bindings := b, world }).2 := by rw [hasked]
  refine ⟨?_, fun i hi => ?_⟩
  · rw [hst]
    exact solid_allHold (fun c _ st => hholds c st) hmatches.ground.solid
  rcases hsheltered i hi with ⟨p, hp, hinner⟩ | ⟨c, hc, hrestricts⟩ | halone
  · left
    rw [hst]
    exact allHold_keeps (P := fun st => st.bindings.Atomic i) (hatomic i)
      (hmatches.atomic hlength hts hp hinner)
  · exact Or.inl (allHold_brings (P := fun st => st.bindings.Atomic i) (hatomic i)
      (Rule.mem_calls_iff.2 hc) (hrestricts ctx) hasked)
  · refine Or.inr ⟨halone, ?_⟩
    have hfree : b.held? i = Option.none := by
      rw [← Option.not_isSome_iff_eq_none, hmatches.held?_isSome_iff]
      rintro ⟨level, p, _, hp, hindex⟩
      exact halone.notBound (Rule.mem_boundIndexes_iff.2
        ⟨p.2, Rule.mem_patterns_iff.1 ⟨p.1, List.mem_of_getElem? hp⟩, hindex⟩)
    rw [hst]
    exact allHold_keeps (P := fun st => st.bindings.Loose i)
      (fun call hmem st hst => (halone.calls call
        (List.mem_append_left _ (Rule.mem_calls_iff.1 hmem))).holds ctx st hst)
      (hmatches.ground.loose hfree)

/-- A sheltered rule whose calls only bind concludes flat triples from flat ones. -/
theorem flat_of_evaluate (hvalid : r.validate registry = .ok ())
    (hbinds : ∀ name b, registry.get? name = some b → b.Binds)
    (hsheltered : r.Sheltered registry) (hmatches : (ofRule registry r).Matches ts b)
    (hlength : ts.length = (ofRule registry r).levels) (hts : ∀ t ∈ ts, t.Unnested)
    {ctx : CallContext} {world : World} {st : CallState} {conclusions : List Triple}
    (h : (ofRule registry r).evaluate registry ctx { bindings := b, world } =
      (some conclusions, st)) : ∀ t ∈ conclusions, t.Unnested := by
  have hholds : ∀ (call : Call) (st : CallState),
      st.bindings.Evolves (call.holds registry ctx st).2.bindings := by
    intro call st
    unfold Call.holds
    cases hb : registry.get? call.name with
    | none => exact .refl
    | some b => exact (hbinds call.name b hb).1 ctx _ st
  have hact : ∀ (call : Call) (st : CallState),
      st.bindings.Evolves (call.act registry ctx st).bindings := by
    intro call st
    unfold Call.act
    cases hb : registry.get? call.name with
    | none => exact .refl
    | some b => exact (hbinds call.name b hb).2 ctx _ st
  unfold evaluate at h
  cases hasked : allHold (fun call st => call.holds registry ctx st) (ofRule registry r).calls
      { bindings := b, world } with
  | mk held st₁ =>
      rw [hasked] at h
      cases held with
      | false => cases h
      | true =>
          obtain ⟨hconclusions, _⟩ := Prod.mk.inj h
          rw [← Option.some.inj hconclusions]
          exact Rule.flat_of_mem_conclude
            (fun p hp => Rule.flat_of_validate hvalid (List.mem_append_right _ hp))
            (fun c _ st => hact c st) (hmatches.shelters hlength hts hsheltered hholds hasked)

end CompiledRule

end Entailment
