import Entailment.Proofs.Builtin.Flatness
import Entailment.Proofs.Rule.Valuation
import Mathlib.Data.Finset.Prod
import Mathlib.Data.Finset.Card

/-!
# Where unification ends

Unification compares what slots hold, and a functor in a slot may lead back to that slot.
Two such functors can be compared without end.  The bound that `unify` works with cuts
nothing else short: on the way down a comparison comes again only after a slot has been
bound, and there are no more slots to bind than there are slots, and no more comparisons
than there are pairs of subterms.
-/

namespace Entailment

namespace Node

mutual
/-- The node and all nodes inside it. -/
def subterms : Node → List Node
  | .functor f as => .functor f as :: subtermsAll as
  | n => [n]

def subtermsAll : List Node → List Node
  | [] => []
  | a :: rest => a.subterms ++ subtermsAll rest
end

mutual
theorem length_subterms (n : Node) : n.subterms.length = n.size := by
  match n with
  | .functor f as =>
      rw [subterms, size, List.length_cons, length_subtermsAll as, Nat.add_comm]
  | .uri _ | .literal _ | .blank _ | .var _ | .any => rfl

theorem length_subtermsAll (ns : List Node) : (subtermsAll ns).length = sizeAll ns := by
  match ns with
  | [] => rfl
  | n :: ns =>
      rw [subtermsAll, sizeAll, List.length_append, length_subterms n, length_subtermsAll ns]
end

theorem mem_subterms_self (n : Node) : n ∈ n.subterms := by
  cases n <;> exact List.mem_cons_self

theorem mem_subtermsAll {ns : List Node} {k : Node} :
    k ∈ subtermsAll ns ↔ ∃ n ∈ ns, k ∈ n.subterms := by
  induction ns with
  | nil => simp [subtermsAll]
  | cons n ns ih => simp [subtermsAll, ih]

mutual
/-- The arguments of what is inside a node are inside it. -/
theorem mem_subterms_of_mem_args {n : Node} {f : String} {as : List Node}
    (h : Node.functor f as ∈ n.subterms) : ∀ a ∈ as, a ∈ n.subterms := by
  match n with
  | .functor g bs =>
      intro a ha
      rcases List.mem_cons.1 h with heq | hmem
      · cases heq
        exact List.mem_cons_of_mem _ (mem_subtermsAll.2 ⟨a, ha, a.mem_subterms_self⟩)
      · exact List.mem_cons_of_mem _ (mem_subtermsAll_of_mem_args hmem a ha)
  | .uri _ | .literal _ | .blank _ | .var _ | .any => cases List.mem_singleton.1 h

theorem mem_subtermsAll_of_mem_args {ns : List Node} {f : String} {as : List Node}
    (h : Node.functor f as ∈ subtermsAll ns) : ∀ a ∈ as, a ∈ subtermsAll ns := by
  match ns with
  | [] => cases h
  | n :: ns =>
      intro a ha
      rcases List.mem_append.1 h with h | h
      · exact List.mem_append_left _ (mem_subterms_of_mem_args h a ha)
      · exact List.mem_append_right _ (mem_subtermsAll_of_mem_args h a ha)
end

theorem Shallow.args {f : String} {as : List Node} (h : (Node.functor f as).Shallow) :
    ∀ a ∈ as, a.Shallow := fun a ha => (vocabulary_simple.args h a ha).shallow

end Node

def Slot.subterms : Slot → List Node
  | .ground n => n.subterms
  | _ => []

namespace Bindings

/-! ## Unification that may be cut short -/

/-- A comparison that gives nothing where it is cut short. -/
abbrev Comparison? := Bindings → Node → Node → Option (Bool × Bindings)

/-- Runs a comparison over pairs up to the first that fails or is cut short. -/
def compareAll? (compare : Comparison?) :
    Bindings → List (Node × Node) → Option (Bool × Bindings)
  | b, [] => some (true, b)
  | b, (x, y) :: rest =>
    match compare b x y with
    | some (true, b) => compareAll? compare b rest
    | some (false, b) => some (false, b)
    | none => none

/-- Gives a slot a value, where a bound slot compares its own with it. -/
def bindSlotBy? (compare : Comparison?) (b : Bindings) (i : Nat) (value : Node) :
    Option (Bool × Bindings) :=
  match b.deref i with
  | some (.ground n) => compare b n value
  | _ => some (b.bindSlot i value)

/-- Unification by the given way to unify what is below. -/
def unifyStep? (below : Comparison?) : Comparison?
  | b, .any, _ => some (true, b)
  | b, _, .any => some (true, b)
  | b, .var v, n => bindSlotBy? below b v.index n
  | b, n, .var v => bindSlotBy? below b v.index n
  | b, .functor f as, .functor g bs =>
    if f = g ∧ as.length = bs.length then compareAll? below b (as.zip bs)
    else some (false, b)
  | b, m, n => some (m == n, b)

/-- Unification that is cut short at a depth. -/
def unifyWithin? : Nat → Comparison?
  | 0 => fun _ _ _ => none
  | depth + 1 => unifyStep? (unifyWithin? depth)

/-- Unification ends: some depth is enough for it. -/
def Ends (b : Bindings) (m n : Node) : Prop :=
  ∃ depth, (unifyWithin? depth b m n).isSome = true

variable {b b' : Bindings} {m n : Node} {depth : Nat} {result : Bool × Bindings}

/-- Where it is not cut short, the comparison gives what the other one gives. -/
def Refines (compare? : Comparison?) (compare : Comparison) : Prop :=
  ∀ b m n result, compare? b m n = some result → compare b m n = result

namespace Refines

variable {compare? : Comparison?} {compare : Comparison}

theorem compareAll (h : Refines compare? compare) {pairs : List (Node × Node)}
    (hall : compareAll? compare? b pairs = some result) :
    Bindings.compareAll compare b pairs = result := by
  induction pairs generalizing b with
  | nil => exact Option.some.inj hall
  | cons pair pairs ih =>
      unfold compareAll? at hall
      unfold Bindings.compareAll
      split at hall
      · rename_i b₁ hfirst
        rw [h _ _ _ _ hfirst]
        exact ih hall
      · rename_i b₁ hfirst
        rw [h _ _ _ _ hfirst]
        exact Option.some.inj hall
      · cases hall

theorem bindSlotBy (h : Refines compare? compare) {i : Nat} {value : Node}
    (hbind : bindSlotBy? compare? b i value = some result) :
    Bindings.bindSlotBy compare b i value = result := by
  unfold bindSlotBy? at hbind
  cases hi : b.deref i with
  | none =>
      rw [hi] at hbind
      rw [← Option.some.inj hbind, bindSlot]
      simp only [Bindings.bindSlotBy, hi]
  | some last =>
      rw [hi] at hbind
      cases last with
      | ground k =>
          simp only [Bindings.bindSlotBy, hi]
          exact h _ _ _ _ hbind
      | unbound target =>
          rw [← Option.some.inj hbind, bindSlot]
          simp only [Bindings.bindSlotBy, hi]

end Refines

/-- A step refines unification if what is below does. -/
theorem Refines.unifyStep {below : Comparison?} (hbelow : Refines below (unifyWithin depth)) :
    Refines (unifyStep? below) (unifyWithin (depth + 1)) := by
  intro b m n result h
  fun_cases unifyStep? below b m n with
  | case1 =>
      rw [unifyStep?] at h
      rw [unifyWithin]
      exact Option.some.inj h
  | case2 =>
      rename_i hany
      rw [unifyStep?] at h
      · rw [unifyWithin]
        · exact Option.some.inj h
        · exact hany
      · exact hany
  | case3 =>
      rename_i v hany
      rw [unifyStep?] at h
      · rw [unifyWithin]
        · exact hbelow.bindSlotBy h
        · exact hany
      · exact hany
  | case4 =>
      rename_i v hany hvar
      rw [unifyStep?] at h
      · rw [unifyWithin]
        · exact hbelow.bindSlotBy h
        · exact hany
        · exact hvar
      · exact hany
      · exact hvar
  | case5 =>
      rename_i f as g bs hsame
      rw [unifyStep?, if_pos hsame] at h
      rw [unifyWithin, if_pos hsame]
      exact hbelow.compareAll h
  | case6 =>
      rename_i f as g bs hdifferent
      rw [unifyStep?, if_neg hdifferent] at h
      rw [unifyWithin, if_neg hdifferent]
      exact Option.some.inj h
  | case7 =>
      rw [unifyStep?] at h
      · rw [unifyWithin]
        · exact Option.some.inj h
        all_goals assumption
      all_goals assumption

/-- Where it is not cut short, unification gives what it gives in any case. -/
theorem refines_unifyWithin? (depth : Nat) : Refines (unifyWithin? depth) (unifyWithin depth) := by
  induction depth with
  | zero => exact fun _ _ _ _ h => nomatch h
  | succ depth ih => exact ih.unifyStep

/-! ## More depth -/

section Calls

variable {below below' : Comparison?} {I : Bindings → Prop} {P : Node → Prop}

/-- The second comparison gets as far as the first one with nodes that have the one property
and in environments that have the other, which are kept. -/
def Reaches (I : Bindings → Prop) (P : Node → Prop) (below below' : Comparison?) : Prop :=
  ∀ b m n result, I b → P m → P n → below b m n = some result →
    below' b m n = some result ∧ I result.2

theorem Reaches.compareAll (h : Reaches I P below below') {pairs : List (Node × Node)}
    (hpairs : ∀ pair ∈ pairs, P pair.1 ∧ P pair.2) (hb : I b)
    (hall : compareAll? below b pairs = some result) :
    compareAll? below' b pairs = some result := by
  induction pairs generalizing b with
  | nil => exact hall
  | cons pair pairs ih =>
      obtain ⟨hm, hn⟩ := hpairs pair List.mem_cons_self
      unfold compareAll? at hall ⊢
      split at hall
      · rename_i b₁ hfirst
        obtain ⟨hfirst', hb₁⟩ := h _ _ _ _ hb hm hn hfirst
        rw [hfirst']
        exact ih (fun q hq => hpairs q (List.mem_cons_of_mem _ hq)) hb₁ hall
      · rename_i b₁ hfirst
        rw [(h _ _ _ _ hb hm hn hfirst).1]
        exact hall
      · cases hall

theorem Reaches.bindSlotBy (h : Reaches I P below below') {i : Nat} {value : Node}
    (hspeaks : b.Speaks P) (hvalue : P value) (hb : I b)
    (hbind : bindSlotBy? below b i value = some result) :
    bindSlotBy? below' b i value = some result := by
  unfold bindSlotBy? at hbind ⊢
  split at hbind
  · rename_i n hn
    exact (h _ _ _ _ hb (hspeaks.derefWithin hn) hvalue hbind).1
  · exact hbind

theorem Reaches.unifyStep (h : Reaches I P below below')
    (hargs : ∀ {f as}, P (.functor f as) → ∀ a ∈ as, P a) (hspeaks : b.Speaks P) (hb : I b)
    (hm : P m) (hn : P n) (hstep : unifyStep? below b m n = some result) :
    unifyStep? below' b m n = some result := by
  fun_cases unifyStep? below b m n with
  | case1 => exact hstep
  | case2 =>
      rename_i hany
      rw [unifyStep?] at hstep ⊢
      · exact hstep
      · exact hany
      · exact hany
  | case3 =>
      rename_i v hany
      rw [unifyStep?] at hstep ⊢
      · exact h.bindSlotBy hspeaks hn hb hstep
      · exact hany
      · exact hany
  | case4 =>
      rename_i v hany hvar
      rw [unifyStep?] at hstep ⊢
      · exact h.bindSlotBy hspeaks hm hb hstep
      all_goals assumption
  | case5 =>
      rename_i f as g bs hsame
      rw [unifyStep?, if_pos hsame] at hstep ⊢
      refine h.compareAll (fun pair hpair => ?_) hb hstep
      obtain ⟨hleft, hright⟩ := List.of_mem_zip hpair
      exact ⟨hargs hm _ hleft, hargs hn _ hright⟩
  | case6 =>
      rename_i f as g bs hdifferent
      rw [unifyStep?, if_neg hdifferent] at hstep ⊢
      exact hstep
  | case7 =>
      rw [unifyStep?] at hstep ⊢
      · exact hstep
      all_goals assumption

end Calls

theorem reaches_unifyWithin? (depth more : Nat) :
    Reaches (fun _ => True) (fun _ => True) (unifyWithin? depth) (unifyWithin? (depth + more)) := by
  induction depth with
  | zero => exact fun _ _ _ _ _ _ _ h => nomatch h
  | succ depth ih =>
      intro b m n result _ _ _ h
      rw [Nat.add_right_comm]
      exact ⟨ih.unifyStep (fun _ _ _ => trivial) (fun _ _ _ => trivial) trivial trivial trivial h,
        trivial⟩

/-- More depth changes nothing where there was enough. -/
theorem unifyWithin?_of_le {depth' : Nat} (hle : depth ≤ depth')
    (h : unifyWithin? depth b m n = some result) : unifyWithin? depth' b m n = some result := by
  obtain ⟨more, rfl⟩ := Nat.exists_eq_add_of_le hle
  exact (reaches_unifyWithin? depth more b m n result trivial trivial trivial h).1

/-! ## The depth that is enough -/

/-- Nothing has been put into the slot. -/
def isUnbound : Slot → Bool
  | .unbound => true
  | _ => false

/-- The number of unbound slots. -/
def unboundCount (b : Bindings) : Nat := b.slots.countP isUnbound

theorem unboundCount_le_length (b : Bindings) : b.unboundCount ≤ b.length :=
  List.countP_le_length

theorem set_eq_or_unboundCount_lt {target : Nat} (h : b.slot? target = some .unbound) (s : Slot) :
    b.set target s = b ∨ (b.set target s).unboundCount < b.unboundCount := by
  obtain ⟨hlt, hget⟩ := List.getElem?_eq_some_iff.1 h
  cases hs : isUnbound s with
  | true =>
      cases s with
      | unbound =>
          left
          rw [set, ← hget, List.set_getElem_self]
      | _ => cases hs
  | false =>
      right
      have hcount := List.boole_getElem_le_countP (p := isUnbound) hlt
      rw [unboundCount, unboundCount, set, List.countP_set hlt, hs]
      rw [hget] at hcount ⊢
      simp only [isUnbound, if_true, Bool.false_eq_true, if_false] at hcount ⊢
      omega

/-- Filling either does nothing or leaves fewer slots unbound. -/
theorem Fills.eq_or_unboundCount_lt (h : b.Fills b') :
    b' = b ∨ b'.unboundCount < b.unboundCount := by
  induction h with
  | refl => exact .inl rfl
  | @tail b₁ _ _ hstep ih =>
      obtain ⟨target, s, ht, _, rfl⟩ := hstep
      rcases set_eq_or_unboundCount_lt ht s with hset | hset
      · rwa [hset]
      · rcases ih with rfl | ih
        · exact .inr hset
        · exact .inr (Nat.lt_trans hset ih)

/-- The pairs of terms whose unification needs no more than the depth. -/
def within (T : Finset Node) (depth : Nat) (b : Bindings) : Finset (Node × Node) :=
  (T ×ˢ T).filter fun pair => (unifyWithin? depth b pair.1 pair.2).isSome

theorem mem_within {T : Finset Node} (hm : m ∈ T) (hn : n ∈ T) :
    (m, n) ∈ within T depth b ↔ (unifyWithin? depth b m n).isSome = true := by
  rw [within, Finset.mem_filter, Finset.mem_product]
  exact and_iff_right ⟨hm, hn⟩

theorem within_subset (T : Finset Node) (depth : Nat) (b : Bindings) :
    within T depth b ⊆ within T (depth + 1) b := by
  intro pair hpair
  obtain ⟨hmem, hsome⟩ := Finset.mem_filter.1 hpair
  obtain ⟨result, hresult⟩ := Option.isSome_iff_exists.1 hsome
  refine Finset.mem_filter.2 ⟨hmem, ?_⟩
  rw [unifyWithin?_of_le (Nat.le_succ depth) hresult]
  rfl

theorem card_within_le (T : Finset Node) (depth : Nat) (b : Bindings) :
    (within T depth b).card ≤ T.card * T.card := by
  rw [← Finset.card_product]
  exact Finset.card_filter_le _ _

/-- A depth is enough that does not depend on the one that was enough: one for each pair of
terms between any two slots that are bound. -/
theorem unifyWithin?_bounded {T : Finset Node}
    (hargs : ∀ {f as}, Node.functor f as ∈ T → ∀ a ∈ as, a ∈ T)
    (hspeaks : b.Speaks (· ∈ T)) (hm : m ∈ T) (hn : n ∈ T)
    (h : unifyWithin? depth b m n = some result) :
    unifyWithin? (b.unboundCount * (T.card * T.card) + (within T depth b).card) b m n =
      some result := by
  induction depth generalizing b m n result with
  | zero => cases h
  | succ depth ih =>
      by_cases hbefore : (unifyWithin? depth b m n).isSome = true
      · obtain ⟨result', hresult'⟩ := Option.isSome_iff_exists.1 hbefore
        rw [unifyWithin?_of_le (Nat.le_succ depth) hresult'] at h
        cases h
        refine unifyWithin?_of_le (Nat.add_le_add_left ?_ _) (ih hspeaks hm hn hresult')
        exact Finset.card_le_card (within_subset T depth b)
      · -- The pair is one of those that need just this depth, so all that is compared below
        -- in the same environment is accounted for by the other ones.
        have hnew : (within T depth b).card < (within T (depth + 1) b).card := by
          refine Finset.card_lt_card ((Finset.ssubset_iff_of_subset (within_subset T depth b)).2
            ⟨(m, n), (mem_within hm hn).2 ?_, fun hmem => hbefore ((mem_within hm hn).1 hmem)⟩)
          rw [h]
          rfl
        obtain ⟨bound, hbound⟩ : ∃ bound, b.unboundCount * (T.card * T.card) +
            (within T (depth + 1) b).card = bound + 1 := ⟨_, (Nat.sub_add_cancel (by omega)).symm⟩
        rw [hbound]
        have hreaches : Reaches
            (fun b' => b'.Speaks (· ∈ T) ∧ (b' = b ∨ b'.unboundCount < b.unboundCount)) (· ∈ T)
            (unifyWithin? depth) (unifyWithin? bound) := by
          intro b' x y result' ⟨hspeaks', hb'⟩ hx hy hbelow
          have hresult' := refines_unifyWithin? depth b' x y result' hbelow
          have hfills := Fills.unifyWithin depth b' x y
          rw [hresult'] at hfills
          refine ⟨unifyWithin?_of_le ?_ (ih hspeaks' hx hy hbelow), ?_, ?_⟩
          · rcases hb' with rfl | hlt
            · omega
            · have hcard := card_within_le T depth b'
              have hmul := Nat.mul_le_mul_right (T.card * T.card) (Nat.succ_le_of_lt hlt)
              rw [Nat.succ_mul] at hmul
              omega
          · have hsafe := Speaks.unifyWithin hargs depth b' x y hspeaks' hx hy
            rwa [hresult'] at hsafe
          · rcases hfills.eq_or_unboundCount_lt with heq | hlt
            · rwa [heq]
            · rcases hb' with rfl | hlt'
              · exact .inr hlt
              · exact .inr (Nat.lt_trans hlt hlt')
        exact hreaches.unifyStep hargs hspeaks ⟨hspeaks, .inl rfl⟩ hm hn h

/-- All terms that unification can come to. -/
def subterms (b : Bindings) (m n : Node) : List Node :=
  b.slots.flatMap Slot.subterms ++ m.subterms ++ n.subterms

theorem mem_subterms_of_mem_args {f : String} {as : List Node}
    (h : Node.functor f as ∈ b.subterms m n) : ∀ a ∈ as, a ∈ b.subterms m n := by
  intro a ha
  simp only [subterms, List.mem_append, List.mem_flatMap] at h ⊢
  refine h.imp (Or.imp ?_ fun h => Node.mem_subterms_of_mem_args h a ha)
    fun h => Node.mem_subterms_of_mem_args h a ha
  rintro ⟨s, hs, hmem⟩
  refine ⟨s, hs, ?_⟩
  cases s with
  | ground k => exact Node.mem_subterms_of_mem_args hmem a ha
  | _ => cases hmem

theorem speaks_subterms (b : Bindings) (m n : Node) : b.Speaks (· ∈ b.subterms m n) := by
  intro i k hi
  refine List.mem_append_left _ (List.mem_append_left _ (List.mem_flatMap.2
    ⟨_, List.mem_of_getElem? hi, k.mem_subterms_self⟩))

theorem length_subterms (b : Bindings) (m n : Node) :
    (b.subterms m n).length = (b.slots.map Slot.size).foldr (· + ·) 0 + m.size + n.size := by
  have hslots : (b.slots.flatMap Slot.subterms).length =
      (b.slots.map Slot.size).foldr (· + ·) 0 := by
    induction b.slots with
    | nil => rfl
    | cons s slots ih =>
        rw [List.flatMap_cons, List.length_append, ih, List.map_cons, List.foldr_cons]
        cases s with
        | ground k => rw [Slot.subterms, k.length_subterms]; rfl
        | _ => rfl
  rw [subterms, List.length_append, List.length_append, hslots, m.length_subterms,
    n.length_subterms]

open Classical in
/-- The depth that `unify` goes to is enough for all that ends. -/
theorem unifyWithin?_depthBound (h : unifyWithin? depth b m n = some result) :
    unifyWithin? (b.depthBound m n) b m n = some result := by
  let T := (b.subterms m n).toFinset
  have hT : ∀ {k : Node}, k ∈ T ↔ k ∈ b.subterms m n := List.mem_toFinset
  have hspeaks : b.Speaks (· ∈ T) := fun i k hi => hT.2 (b.speaks_subterms m n i k hi)
  have hbounded := unifyWithin?_bounded (T := T)
    (fun h a ha => hT.2 (mem_subterms_of_mem_args (hT.1 h) a ha)) hspeaks
    (hT.2 (List.mem_append_left _ (List.mem_append_right _ m.mem_subterms_self)))
    (hT.2 (List.mem_append_right _ n.mem_subterms_self)) h
  refine unifyWithin?_of_le ?_ hbounded
  have hcard : T.card * T.card ≤ (b.subterms m n).length * (b.subterms m n).length :=
    Nat.mul_le_mul (List.toFinset_card_le _) (List.toFinset_card_le _)
  have hwithin := card_within_le T depth b
  have hslots := Nat.mul_le_mul b.unboundCount_le_length hcard
  rw [depthBound, ← length_subterms, Nat.mul_succ, Nat.mul_comm _ b.length]
  omega

/-- Where some depth is enough, `unify` gives what that depth gives. -/
theorem unify_eq_of_unifyWithin? (h : unifyWithin? depth b m n = some result) :
    b.unify m n = result :=
  refines_unifyWithin? _ _ _ _ _ (unifyWithin?_depthBound h)

theorem ends_iff : b.Ends m n ↔ (unifyWithin? (b.depthBound m n) b m n).isSome = true := by
  refine ⟨fun ⟨depth, hdepth⟩ => ?_, fun h => ⟨_, h⟩⟩
  obtain ⟨result, hresult⟩ := Option.isSome_iff_exists.1 hdepth
  rw [unifyWithin?_depthBound hresult]
  rfl

/-! ## What ends -/

theorem compareAll?_completes {compare : Comparison?} {I : Bindings → Prop}
    {pairs : List (Node × Node)}
    (hcompare : ∀ b, ∀ pair ∈ pairs, I b →
      ∃ result, compare b pair.1 pair.2 = some result ∧ I result.2) (hb : I b) :
    ∃ result, compareAll? compare b pairs = some result ∧ I result.2 := by
  induction pairs generalizing b with
  | nil => exact ⟨_, rfl, hb⟩
  | cons pair pairs ih =>
      obtain ⟨⟨answer, b₁⟩, hfirst, hb₁⟩ := hcompare b pair List.mem_cons_self hb
      unfold compareAll?
      rw [hfirst]
      cases answer with
      | true => exact ih (fun b q hq => hcompare b q (List.mem_cons_of_mem _ hq)) hb₁
      | false => exact ⟨_, rfl, hb₁⟩

/-- The first node is ground, and small enough for the depth. -/
def Bounded (depth : Nat) (m n : Node) : Prop :=
  m.isGround = true ∧ 2 * m.size ≤ depth + if n.isVariable then 0 else 1

theorem Bounded.arg {f g : String} {as bs : List Node} {x y : Node}
    (h : Bounded (depth + 1) (.functor f as) (.functor g bs)) (hx : x ∈ as) :
    Bounded depth x y := by
  obtain ⟨hground, hsize⟩ := h
  refine ⟨Node.allGround_iff.1 hground x hx, ?_⟩
  have hle := Node.size_le_sizeAll hx
  rw [Node.size] at hsize
  simp only [Node.isVariable, Bool.false_eq_true, if_false] at hsize
  omega

theorem exists_unifyWithin?_of_bounded (hb : b.Solid)
    (h : Bounded depth m n ∨ Bounded depth n m) :
    ∃ result, unifyWithin? depth b m n = some result := by
  induction depth generalizing b m n with
  | zero =>
      have hm := m.size_pos
      have hn := n.size_pos
      rcases h with ⟨_, h⟩ | ⟨_, h⟩ <;> split at h <;> omega
  | succ depth ih =>
      have hslot : ∀ i, ∀ k : Node, k.isGround = true → 2 * k.size ≤ depth + 1 →
          ∃ result, bindSlotBy? (unifyWithin? depth) b i k = some result := by
        intro i k hk hsize
        unfold bindSlotBy?
        split
        · rename_i held hheld
          exact ih hb (.inr ⟨hk, by rwa [if_neg (Bool.eq_false_iff.1 (hb.derefWithin hheld).1)]⟩)
        · exact ⟨_, rfl⟩
      rw [unifyWithin?]
      fun_cases unifyStep? (unifyWithin? depth) b m n with
      | case1 => exact ⟨_, rfl⟩
      | case2 => exact ⟨_, rfl⟩
      | case3 =>
          rcases h with ⟨hground, _⟩ | ⟨hground, hsize⟩
          · cases hground
          · exact hslot _ _ hground hsize
      | case4 =>
          rcases h with ⟨hground, hsize⟩ | ⟨hground, _⟩
          · exact hslot _ _ hground hsize
          · cases hground
      | case5 =>
          rename_i f as g bs hsame
          have hbelow : ∀ b, ∀ pair ∈ as.zip bs, b.Solid →
              ∃ result, unifyWithin? depth b pair.1 pair.2 = some result ∧ result.2.Solid := by
            intro b pair hpair hb
            obtain ⟨hleft, hright⟩ := List.of_mem_zip hpair
            obtain ⟨result, hresult⟩ := ih hb (h.imp (·.arg hleft) (·.arg hright))
            refine ⟨result, hresult, ?_⟩
            rw [← refines_unifyWithin? _ _ _ _ _ hresult]
            exact hb.unifyWithin depth _ _
          obtain ⟨result, hresult, -⟩ := compareAll?_completes hbelow hb
          exact ⟨result, hresult⟩
      | case6 => exact ⟨_, rfl⟩
      | case7 => exact ⟨_, rfl⟩

/-- A comparison with a ground node ends. -/
theorem Solid.ends (hb : b.Solid) (h : m.isGround = true ∨ n.isGround = true) : b.Ends m n := by
  have hbounded : ∀ k k' : Node, k.isGround = true → 2 * k.size ≤ 2 * m.size + 2 * n.size →
      Bounded (2 * m.size + 2 * n.size) k k' :=
    fun k k' hk hsize => ⟨hk, Nat.le_trans hsize (Nat.le_add_right _ _)⟩
  obtain ⟨result, hresult⟩ := exists_unifyWithin?_of_bounded hb
    (h.imp (hbounded m n · (Nat.le_add_right _ _)) (hbounded n m · (Nat.le_add_left _ _)))
  exact ⟨_, by rw [hresult]; rfl⟩

/-- A comparison of nodes whose functors are ground ends. -/
theorem Solid.ends_of_shallow (hb : b.Solid) (hspeaks : b.Speaks Node.Shallow) (hm : m.Shallow)
    (hn : n.Shallow) : b.Ends m n := by
  rcases hm.cases with rfl | ⟨v, rfl⟩ | hm
  · exact ⟨1, rfl⟩
  · rcases hn.cases with rfl | ⟨w, rfl⟩ | hn
    · exact ⟨1, rfl⟩
    · have hslot : ∃ depth, (bindSlotBy? (unifyWithin? depth) b v.index (.var w)).isSome := by
        cases hv : b.deref v.index with
        | none => exact ⟨0, by simp only [bindSlotBy?, hv]; rfl⟩
        | some last =>
            cases last with
            | unbound => exact ⟨0, by simp only [bindSlotBy?, hv]; rfl⟩
            | ground k =>
                obtain ⟨hvar, hany⟩ := hb.derefWithin hv
                have hk : k.isGround = true := by
                  rcases (hspeaks.derefWithin hv).cases with rfl | ⟨u, rfl⟩ | hk
                  · cases hany
                  · cases hvar
                  · exact hk.ground
                obtain ⟨depth, hdepth⟩ : b.Ends k (.var w) := hb.ends (.inl hk)
                exact ⟨depth, by simp only [bindSlotBy?, hv]; exact hdepth⟩
      obtain ⟨depth, hdepth⟩ := hslot
      exact ⟨depth + 1, hdepth⟩
    · exact hb.ends (.inr hn.ground)
  · exact hb.ends (.inl hm.ground)

/-! ## Triples -/

/-- Unification, where it ends. -/
def unify? : Comparison? := fun b m n => unifyWithin? (b.depthBound m n) b m n

/-- Unification of two triples, where it ends. -/
def unifyTriple? (b : Bindings) (pattern fact : Triple) : Option (Bool × Bindings) :=
  compareAll? unify? b (pattern.nodes.zip fact.nodes)

theorem refines_unify? : Refines unify? unify :=
  fun b m n result h => refines_unifyWithin? (b.depthBound m n) b m n result h

theorem unifyTriple_of_unifyTriple? {pattern fact : Triple}
    (h : b.unifyTriple? pattern fact = some result) : b.unifyTriple pattern fact = result :=
  refines_unify?.compareAll h

theorem Solid.exists_unify? (hb : b.Solid) (h : m.isGround = true ∨ n.isGround = true) :
    ∃ result, b.unify? m n = some result ∧ result.2.Solid := by
  obtain ⟨result, hresult⟩ := Option.isSome_iff_exists.1 (ends_iff.1 (hb.ends h))
  refine ⟨result, hresult, ?_⟩
  rw [← refines_unify? b m n result hresult]
  exact hb.unifyWithin _ m n

/-- A comparison with a ground triple ends. -/
theorem Solid.unifyTriple?_eq (hb : b.Solid) {pattern fact : Triple}
    (hground : pattern.isGround = true ∨ fact.isGround = true) :
    b.unifyTriple? pattern fact = some (b.unifyTriple pattern fact) := by
  have hside : ∀ {t : Triple}, t.isGround = true → ∀ n ∈ t.nodes, n.isGround = true := by
    intro t ht
    exact Triple.isGround_iff_nodes.1 ht
  obtain ⟨result, hresult, -⟩ := compareAll?_completes
    (fun b pair hpair (hb : b.Solid) => by
      obtain ⟨hleft, hright⟩ := List.of_mem_zip hpair
      exact hb.exists_unify? (hground.imp (hside · _ hleft) (hside · _ hright))) hb
  exact hresult.trans (congrArg some (unifyTriple_of_unifyTriple? hresult).symm)

/-- A comparison of triples whose functors are ground ends. -/
theorem Solid.unifyTriple?_eq_of_shallow (hb : b.Solid) (hspeaks : b.Speaks Node.Shallow)
    {pattern fact : Triple} (hpattern : pattern.Shallow) (hfact : fact.Shallow) :
    b.unifyTriple? pattern fact = some (b.unifyTriple pattern fact) := by
  have hbelow : ∀ b : Bindings, ∀ pair ∈ pattern.nodes.zip fact.nodes,
      b.Solid ∧ b.Speaks Node.Shallow → ∃ result, b.unify? pair.1 pair.2 = some result ∧
        result.2.Solid ∧ result.2.Speaks Node.Shallow := by
    intro b pair hpair ⟨hb, hspeaks⟩
    obtain ⟨hleft, hright⟩ := List.of_mem_zip hpair
    have hm := hpattern _ hleft
    have hn := hfact _ hright
    obtain ⟨result, hresult⟩ :=
      Option.isSome_iff_exists.1 (ends_iff.1 (hb.ends_of_shallow hspeaks hm hn))
    refine ⟨result, hresult, ?_⟩
    rw [← refines_unify? _ _ _ _ hresult]
    exact ⟨hb.unifyWithin _ _ _, Speaks.unifyWithin Node.Shallow.args _ _ _ _ hspeaks hm hn⟩
  obtain ⟨result, hresult, -⟩ := compareAll?_completes hbelow ⟨hb, hspeaks⟩
  exact hresult.trans (congrArg some (unifyTriple_of_unifyTriple? hresult).symm)

end Bindings

end Entailment
