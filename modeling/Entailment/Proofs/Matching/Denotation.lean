import Entailment.Proofs.Builtin.Binding
import Entailment.Proofs.Matching.Alias
import Mathlib.Data.List.Zip

/-!
# What nodes stand for

A slot may hold a functor with variables, and these may lead to further functors.  A node
stands for a ground one if it becomes that node when slots are followed to their ends and
every unbound end is given a value.  Unification makes each of two nodes fit what the other
one stands for, however functors and aliases are chained, provided that at every step one of
them stands for something.
-/

namespace Entailment

namespace Bindings

variable {b b' E : Bindings} {θ : Assignment}

/-! ## Ends of slots -/

theorem leads_of_derefWithin {links i : Nat} {last : SlotEnd}
    (h : b.derefWithin links i = some last) : ∃ links', b.Leads links' i last := by
  induction links generalizing i with
  | zero => cases h
  | succ links ih =>
      rw [derefWithin] at h
      split at h
      · cases h
      · rename_i hi
        cases h
        exact ⟨0, .unbound hi⟩
      · rename_i hi
        cases h
        exact ⟨0, .ground hi⟩
      · rename_i hi
        obtain ⟨links', hleads⟩ := ih h
        exact ⟨_, .link hi hleads⟩

theorem deref_eq_some_iff {i : Nat} {last : SlotEnd} :
    b.deref i = some last ↔ ∃ links, b.Leads links i last :=
  ⟨leads_of_derefWithin, fun ⟨_, h⟩ => h.deref_eq⟩

theorem deref_of_alias {i j : Nat} (hi : b.slot? i = some (.aliasOf j)) :
    b.deref i = b.deref j := by
  refine Option.ext fun last => ?_
  rw [deref_eq_some_iff, deref_eq_some_iff]
  refine ⟨fun ⟨_, h⟩ => ?_, fun ⟨_, h⟩ => ⟨_, .link hi h⟩⟩
  cases h with
  | unbound hi' | ground hi' =>
      rw [hi] at hi'
      cases hi'
  | link hi' h =>
      rw [hi] at hi'
      cases hi'
      exact ⟨_, h⟩

namespace Fills

theorem deref_ground {i : Nat} {n : Node} (h : b.Fills b') (hi : b.deref i = some (.ground n)) :
    b'.deref i = some (.ground n) := by
  obtain ⟨links, hleads⟩ := deref_eq_some_iff.1 hi
  generalize hlast : SlotEnd.ground n = last at hleads
  refine deref_eq_some_iff.2 ⟨links, ?_⟩
  induction hleads with
  | unbound => cases hlast
  | ground hj =>
      cases hlast
      exact .ground (h.slot?_eq hj nofun)
  | link hj _ ih =>
      subst hlast
      exact .link (h.slot?_eq hj nofun) (ih ((deref_of_alias hj).symm.trans hi) rfl)

/-- A slot that ended in an unbound one goes where that one goes. -/
theorem deref_unbound {i last : Nat} (h : b.Fills b') (hi : b.deref i = some (.unbound last)) :
    b'.deref i = b'.deref last := by
  obtain ⟨links, hleads⟩ := deref_eq_some_iff.1 hi
  clear hi
  generalize hend : SlotEnd.unbound last = stop at hleads
  induction hleads with
  | unbound =>
      cases hend
      rfl
  | ground => cases hend
  | link hj _ ih => exact (deref_of_alias (h.slot?_eq hj nofun)).trans (ih hend)

/-- Filling makes no cycle of aliases. -/
theorem ends (h : b.Fills b') (hb : ∀ i < b.length, ∃ last, b.deref i = some last) :
    ∀ i < b'.length, ∃ last, b'.deref i = some last := by
  induction h with
  | refl => exact hb
  | @tail b₁ _ hbefore hstep ih =>
      obtain ⟨target, s, ht, halias, rfl⟩ := hstep
      have hlt := lt_length_of_slot? ht
      have hslot : (b₁.set target s).slot? target = some s := by
        rw [slot?_set_of_lt hlt, if_pos rfl]
      have htarget : ∃ links last, (b₁.set target s).Leads links target last := by
        cases s with
        | unbound => exact ⟨_, _, .unbound hslot⟩
        | ground n => exact ⟨_, _, .ground hslot⟩
        | aliasOf j =>
            obtain ⟨hne, hj⟩ := halias j rfl
            refine ⟨_, _, .link hslot (.unbound ?_)⟩
            rw [slot?_set_of_lt hlt, if_neg hne.symm]
            exact hj
      intro i hi
      rw [length_set] at hi
      obtain ⟨last, hlast⟩ := ih i hi
      obtain ⟨links, hleads⟩ := deref_eq_some_iff.1 hlast
      by_cases hend : last = .unbound target
      · obtain ⟨links', last', hleads'⟩ := htarget
        exact ⟨last', (leads_set ht hleads' (hend ▸ hleads)).deref_eq⟩
      · refine ⟨last, (leads_set_of_ne ht s hleads ?_).deref_eq⟩
        rintro j rfl rfl
        exact hend rfl

end Fills

/-! ## Denotation -/

/-- The first node becomes the second one when slots are followed to their ends, and
unbound ends have the values that the assignment gives them. -/
inductive Denotes (b : Bindings) (θ : Assignment) : Node → Node → Prop where
  | held {v : Var} {n k : Node} :
      b.deref v.index = some (.ground n) → Denotes b θ n k → Denotes b θ (.var v) k
  | free {v : Var} {last : Nat} {k : Node} :
      b.deref v.index = some (.unbound last) → (θ last == k) = true → Denotes b θ (.var v) k
  | functor {f : String} {ns ks : List Node} :
      List.Forall₂ (Denotes b θ) ns ks → Denotes b θ (.functor f ns) (.functor f ks)
  | atom {n k : Node} :
      n.isGround = true → n.isFunctor = false → (n == k) = true → Denotes b θ n k

namespace Denotes

theorem functor_inv {f : String} {ns : List Node} {k : Node} (h : E.Denotes θ (.functor f ns) k) :
    ∃ ks, k = .functor f ks ∧ List.Forall₂ (E.Denotes θ) ns ks := by
  cases h with
  | functor hall => exact ⟨_, rfl, hall⟩
  | atom _ hflat _ => cases hflat

theorem atom_inv {n k : Node} (hn : n.isGround = true) (hflat : n.isFunctor = false)
    (h : E.Denotes θ n k) : (n == k) = true := by
  cases h with
  | held | free => cases hn
  | functor => cases hflat
  | atom _ _ hsame => exact hsame

theorem var_iff_of_ground {v : Var} {n k : Node} (hv : E.deref v.index = some (.ground n)) :
    E.Denotes θ (.var v) k ↔ E.Denotes θ n k := by
  refine ⟨fun h => ?_, .held hv⟩
  cases h with
  | held hv' h =>
      rw [hv] at hv'
      cases hv'
      exact h
  | free hv' _ =>
      rw [hv] at hv'
      cases hv'
  | atom hground => cases hground

theorem var_iff_of_deref_eq {v w : Var} {k : Node} (h : E.deref v.index = E.deref w.index) :
    E.Denotes θ (.var v) k ↔ E.Denotes θ (.var w) k := by
  have hone : ∀ {v w : Var}, E.deref v.index = E.deref w.index →
      E.Denotes θ (.var v) k → E.Denotes θ (.var w) k := by
    intro v w h hv
    cases hv with
    | held hv hk => exact .held (h ▸ hv) hk
    | free hv hk => exact .free (h ▸ hv) hk
    | atom hground => cases hground
  exact ⟨hone h, hone h.symm⟩

/-- Induction in which the arguments of a functor have the property too. -/
@[elab_as_elim]
theorem induct {motive : ∀ n k, E.Denotes θ n k → Prop}
    (held : ∀ {v : Var} {n k : Node} (hv : E.deref v.index = some (.ground n))
      (h : E.Denotes θ n k), motive n k h → motive (.var v) k (.held hv h))
    (free : ∀ {v : Var} {last : Nat} {k : Node} (hv : E.deref v.index = some (.unbound last))
      (hk : (θ last == k) = true), motive (.var v) k (.free hv hk))
    (functor : ∀ {f : String} {ns ks : List Node} (hall : List.Forall₂ (E.Denotes θ) ns ks),
      List.Forall₂ (fun n k => ∃ h, motive n k h) ns ks →
        motive (.functor f ns) (.functor f ks) (.functor hall))
    (atom : ∀ {n k : Node} (hground : n.isGround = true) (hflat : n.isFunctor = false)
      (hsame : (n == k) = true), motive n k (.atom hground hflat hsame))
    {n k : Node} (h : E.Denotes θ n k) : motive n k h :=
  @Denotes.rec E θ motive (fun ns ks _ => List.Forall₂ (fun n k => ∃ h, motive n k h) ns ks)
    held free functor atom .nil (fun hone _ ih ihs => .cons ⟨hone, ih⟩ ihs) n k h

/-- A node stands for one node at most. -/
theorem unique {n k k' : Node} (h : E.Denotes θ n k) (h' : E.Denotes θ n k') :
    (k == k') = true := by
  induction h using induct generalizing k' with
  | held hv _ ih => exact ih ((var_iff_of_ground hv).1 h')
  | free hv hk =>
      cases h' with
      | held hv' _ =>
          rw [hv] at hv'
          cases hv'
      | free hv' hk' =>
          rw [hv] at hv'
          cases hv'
          exact BEq.trans (BEq.symm hk) hk'
      | atom hground => cases hground
  | functor hns ih =>
      obtain ⟨ks', rfl, hall⟩ := h'.functor_inv
      rw [Node.functor_beq, beq_self_eq_true, Bool.true_and]
      clear h' hns
      induction ih generalizing ks' with
      | nil =>
          cases hall
          rfl
      | cons hone _ ihs =>
          cases hall with
          | cons hk hks =>
              obtain ⟨_, hone⟩ := hone
              rw [list_beq_cons, hone hk, ihs _ hks]
              rfl
  | atom hground hflat hk => exact BEq.trans (BEq.symm hk) (h'.atom_inv hground hflat)

theorem congr {n k k' : Node} (h : E.Denotes θ n k) (hsame : (k == k') = true) :
    E.Denotes θ n k' := by
  induction h using induct generalizing k' with
  | held hv _ ih => exact .held hv (ih hsame)
  | free hv hk => exact .free hv (BEq.trans hk hsame)
  | @functor f ns ks hns ih =>
      clear hns
      cases k' with
      | functor g ks' =>
          rw [Node.functor_beq, Bool.and_eq_true, beq_iff_eq, list_beq_iff_forall₂] at hsame
          obtain ⟨rfl, hall⟩ := hsame
          refine .functor ?_
          induction hall generalizing ns with
          | nil =>
              cases ih
              exact .nil
          | cons hone _ ihs =>
              cases ih with
              | cons hk hks =>
                  obtain ⟨_, hk⟩ := hk
                  exact .cons (hk hone) (ihs hks)
      | _ => cases hsame
  | atom hground hflat hk => exact .atom hground hflat (BEq.trans hk hsame)

end Denotes

/-- If one of two functors stands for something, one of any two arguments does. -/
theorem args_of_functor {f : String} {ms ns : List Node}
    (h : (∃ k, E.Denotes θ (.functor f ms) k) ∨ ∃ k, E.Denotes θ (.functor f ns) k) :
    ∀ pair ∈ ms.zip ns, (∃ k, E.Denotes θ pair.1 k) ∨ ∃ k, E.Denotes θ pair.2 k := by
  have hall : ∀ {ns : List Node}, (∃ k, E.Denotes θ (.functor f ns) k) →
      ∀ n ∈ ns, ∃ k, E.Denotes θ n k := by
    rintro ns ⟨k, hk⟩ n hn
    obtain ⟨ks, rfl, hks⟩ := hk.functor_inv
    obtain ⟨k, _, hk⟩ := exists_mem_of_forall₂ hks.flip hn
    exact ⟨k, hk⟩
  intro pair hpair
  exact h.imp (fun h => hall h _ (List.of_mem_zip hpair).1)
    fun h => hall h _ (List.of_mem_zip hpair).2

mutual
/-- A ground node stands for itself. -/
theorem denotes_self {n : Node} (h : n.isGround = true) : E.Denotes θ n n := by
  match n with
  | .functor f ns => exact .functor (denotes_all_self h)
  | .uri _ | .literal _ | .blank _ => exact .atom rfl rfl BEq.rfl
  | .var _ | .any => cases h

theorem denotes_all_self {ns : List Node} (h : Node.allGround ns = true) :
    List.Forall₂ (E.Denotes θ) ns ns := by
  match ns with
  | [] => exact .nil
  | n :: ns =>
      rw [Node.allGround, Bool.and_eq_true] at h
      exact .cons (denotes_self h.1) (denotes_all_self h.2)
end

/-! ## Values -/

theorem denotes_of_resolveArg (hE : E.Solid) {n k : Node} (h : E.resolveArg n = some k) :
    E.Denotes θ n k := by
  cases n with
  | var v =>
      rw [resolveArg] at h
      split at h
      · rename_i held hv
        split at h
        · cases h
        · rename_i hflat
          cases h
          refine .held hv (denotes_self ?_)
          obtain ⟨hvar, hany⟩ := hE.derefWithin hv
          cases k with
          | var _ => cases hvar
          | any => cases hany
          | functor _ _ => exact absurd rfl hflat
          | _ => rfl
      · cases h
  | any | functor => cases h
  | uri _ | literal _ | blank _ =>
      cases h
      exact denotes_self rfl

theorem denotes_of_resolveTerm (hE : E.Solid) {n k : Node} (h : E.resolveTerm n = some k) :
    E.Denotes θ n k := by
  cases n with
  | var | any => cases h
  | functor f ns =>
      obtain ⟨ks, hks, rfl⟩ := Option.map_eq_some_iff.1 h
      exact .functor ((forall₂_of_mapM hks).imp fun _ _ => denotes_of_resolveArg hE)
  | uri _ | literal _ | blank _ =>
      cases h
      exact denotes_self rfl

/-- What has a value stands for it. -/
theorem denotes_of_resolve (hE : E.Solid) {v : Var} {k : Node}
    (h : E.resolve (.var v) = some k) : E.Denotes θ (.var v) k := by
  rw [resolve_var] at h
  split at h
  · rename_i hv
    exact .held hv (denotes_of_resolveTerm hE h)
  · cases h

mutual
/-- A node whose variables have ground values stands for its partial instance. -/
theorem denotes_partialNode
    (hvalues : ∀ v k, b.resolve (.var v) = some k → E.Denotes θ (.var v) k) {n : Node}
    (h : (b.partialNode n).isGround = true) : E.Denotes θ n (b.partialNode n) := by
  match n with
  | .var v =>
      change (b.valueOrSelf v).isGround = true at h
      change E.Denotes θ _ (b.valueOrSelf v)
      unfold valueOrSelf at h ⊢
      cases hv : b.resolve (.var v) with
      | none =>
          rw [hv] at h
          cases h
      | some k => exact hvalues v k hv
  | .any => cases h
  | .functor f ns => exact .functor (denotes_partialNodes hvalues h)
  | .uri _ | .literal _ | .blank _ => exact denotes_self rfl

theorem denotes_partialNodes
    (hvalues : ∀ v k, b.resolve (.var v) = some k → E.Denotes θ (.var v) k) {ns : List Node}
    (h : Node.allGround (Node.substAll b.valueOrSelf ns) = true) :
    List.Forall₂ (E.Denotes θ) ns (Node.substAll b.valueOrSelf ns) := by
  match ns with
  | [] => exact .nil
  | n :: ns =>
      rw [Node.substAll, Node.allGround, Bool.and_eq_true] at h
      exact .cons (denotes_partialNode hvalues h.1) (denotes_partialNodes hvalues h.2)
end

/-! ## The meaning of variables -/

/-- What each slot stands for, if anything. -/
noncomputable def meaning (b : Bindings) (θ : Assignment) : Assignment := fun i =>
  open Classical in if h : ∃ k, b.Denotes θ (.var ⟨"", i⟩) k then h.choose else .any

theorem Denotes.meaning_beq {v : Var} {k : Node} (h : E.Denotes θ (.var v) k) :
    (E.meaning θ v.index == k) = true := by
  have hslot : E.Denotes θ (.var ⟨"", v.index⟩) k :=
    (Denotes.var_iff_of_deref_eq (v := ⟨"", v.index⟩) (w := v) rfl).2 h
  have hexists : ∃ k, E.Denotes θ (.var ⟨"", v.index⟩) k := ⟨k, hslot⟩
  rw [meaning, dif_pos hexists]
  exact hexists.choose_spec.unique hslot

mutual
/-- A node fits what it stands for. -/
theorem Denotes.fits {n k : Node} (h : E.Denotes θ n k) : n.Fits (E.meaning θ) k := by
  cases n with
  | var v => exact h.meaning_beq
  | any => trivial
  | functor f ns =>
      obtain ⟨ks, rfl, hall⟩ := h.functor_inv
      exact ⟨rfl, Denotes.allFit hall⟩
  | uri u => exact h.atom_inv rfl rfl
  | literal l => exact h.atom_inv rfl rfl
  | blank i => exact h.atom_inv rfl rfl

theorem Denotes.allFit {ns ks : List Node} (h : List.Forall₂ (E.Denotes θ) ns ks) :
    Node.AllFit (E.meaning θ) ns ks := by
  match ns, ks with
  | [], [] => trivial
  | n :: ns, k :: ks =>
      cases h with
      | cons hone hall => exact ⟨hone.fits, Denotes.allFit hall⟩
end

mutual
/-- A node that stands for something stands for all that it fits. -/
theorem Denotes.of_fits {n k k' : Node} (h : E.Denotes θ n k')
    (hfits : n.Fits (E.meaning θ) k) : E.Denotes θ n k := by
  cases n with
  | var v => exact h.congr (BEq.trans (BEq.symm h.meaning_beq) hfits)
  | any =>
      cases h with
      | atom hground => cases hground
  | functor f ns =>
      obtain ⟨ks', rfl, hall⟩ := h.functor_inv
      cases k with
      | functor g ks =>
          obtain ⟨rfl, hallFit⟩ := hfits
          exact .functor (Denotes.of_allFit hall hallFit)
      | _ => cases hfits
  | uri u => exact .atom rfl rfl hfits
  | literal l => exact .atom rfl rfl hfits
  | blank i => exact .atom rfl rfl hfits

theorem Denotes.of_allFit {ns ks ks' : List Node} (h : List.Forall₂ (E.Denotes θ) ns ks')
    (hfits : Node.AllFit (E.meaning θ) ns ks) : List.Forall₂ (E.Denotes θ) ns ks := by
  match ns, ks with
  | [], [] => exact .nil
  | n :: ns, k :: ks =>
      cases h with
      | cons hone hall => exact .cons (hone.of_fits hfits.1) (Denotes.of_allFit hall hfits.2)
end

/-! ## Unification -/

/-- Each of the nodes fits what the other one stands for. -/
structure Concurs (E : Bindings) (θ : Assignment) (m n : Node) : Prop where
  left : ∀ k, E.Denotes θ m k → n.Fits (E.meaning θ) k
  right : ∀ k, E.Denotes θ n k → m.Fits (E.meaning θ) k

theorem Concurs.symm {m n : Node} (h : E.Concurs θ m n) : E.Concurs θ n m := ⟨h.right, h.left⟩

theorem concurs_of_iff {m n : Node} (h : ∀ k, E.Denotes θ m k ↔ E.Denotes θ n k) :
    E.Concurs θ m n := ⟨fun k hm => ((h k).1 hm).fits, fun k hn => ((h k).2 hn).fits⟩

theorem concurs_any (n : Node) : E.Concurs θ .any n where
  left _ h := by
    cases h with
    | atom hground => cases hground
  right _ _ := trivial

/-- What slots hold stands for something in the environment that unification comes to. -/
def Meaningful (E : Bindings) (θ : Assignment) (b : Bindings) : Prop :=
  ∀ i n, b.slot? i = some (.ground n) → ∃ k, E.Denotes θ n k

theorem Meaningful.deref {i : Nat} {n : Node} (h : E.Meaningful θ b)
    (hi : b.deref i = some (.ground n)) : ∃ k, E.Denotes θ n k := by
  obtain ⟨_, hleads⟩ := deref_eq_some_iff.1 hi
  obtain ⟨j, hj⟩ := hleads.slot?_of_ground
  exact h j n hj

theorem Meaningful.set {target : Nat} {s : Slot} (h : E.Meaningful θ b)
    (hs : ∀ n, s = .ground n → ∃ k, E.Denotes θ n k) : E.Meaningful θ (b.set target s) := by
  intro i n hi
  rw [slot?_set] at hi
  split at hi
  · split at hi
    · exact hs n (Option.some.inj hi)
    · cases hi
  · exact h i n hi

/-- A comparison that is on the way to the environment makes nodes concur of which one
stands for something. -/
def Unites (E : Bindings) (θ : Assignment) (compare : Comparison) : Prop :=
  ∀ b b' m n, compare b m n = (true, b') → b'.Fills E → E.Meaningful θ b →
    (∃ k, E.Denotes θ m k) ∨ (∃ k, E.Denotes θ n k) →
    E.Meaningful θ b' ∧ E.Concurs θ m n

namespace Unites

variable {compare : Comparison}

theorem compareAll (hfills : ∀ (b : Bindings) m n, b.Fills (compare b m n).2)
    (hunites : E.Unites θ compare) {pairs : List (Node × Node)}
    (h : compareAll compare b pairs = (true, b')) (hE : b'.Fills E) (hb : E.Meaningful θ b)
    (hpairs : ∀ pair ∈ pairs, (∃ k, E.Denotes θ pair.1 k) ∨ ∃ k, E.Denotes θ pair.2 k) :
    E.Meaningful θ b' ∧ ∀ pair ∈ pairs, E.Concurs θ pair.1 pair.2 := by
  induction pairs generalizing b with
  | nil =>
      cases h
      exact ⟨hb, fun _ hpair => nomatch hpair⟩
  | cons pair pairs ih =>
      obtain ⟨m, n⟩ := pair
      unfold Bindings.compareAll at h
      cases hresult : compare b m n with
      | mk answer b₁ =>
          rw [hresult] at h
          cases answer with
          | false => cases h
          | true =>
              change Bindings.compareAll compare b₁ pairs = (true, b') at h
              have hrest : b₁.Fills b' := by
                have hall := Fills.compareAll hfills b₁ pairs
                rwa [h] at hall
              obtain ⟨hb₁, hone⟩ := hunites b b₁ m n hresult (hrest.trans hE) hb
                (hpairs _ (List.mem_cons_self ..))
              obtain ⟨hb', hall⟩ := ih h hb₁ fun pair hpair =>
                hpairs pair (List.mem_cons_of_mem _ hpair)
              exact ⟨hb', List.forall_mem_cons.2 ⟨hone, hall⟩⟩

theorem bindSlotBy (hfills : ∀ (b : Bindings) m n, b.Fills (compare b m n).2)
    (hunites : E.Unites θ compare) {v : Var} {n : Node}
    (h : bindSlotBy compare b v.index n = (true, b')) (hE : b'.Fills E) (hb : E.Meaningful θ b)
    (hside : (∃ k, E.Denotes θ (.var v) k) ∨ ∃ k, E.Denotes θ n k) :
    E.Meaningful θ b' ∧ E.Concurs θ (.var v) n := by
  have hto : b.Fills E := by
    have hfirst := Fills.bindSlotBy hfills b v.index n
    rw [h] at hfirst
    exact hfirst.trans hE
  unfold Bindings.bindSlotBy at h
  split at h
  · cases h
  · rename_i held hv
    obtain ⟨k, hk⟩ := hb.deref hv
    obtain ⟨hb', hconcurs⟩ := hunites b b' held n h hE hb (Or.inl ⟨k, hk⟩)
    have hvar := fun k => Denotes.var_iff_of_ground (k := k) (θ := θ) (hto.deref_ground hv)
    exact ⟨hb', fun k' hk' => hconcurs.left k' ((hvar k').1 hk'),
      fun k' hk' => ((hvar k').2 (hk.of_fits (hconcurs.right k' hk'))).fits⟩
  · rename_i target hv
    have htarget := slot?_of_derefWithin hv
    have hend := hto.deref_unbound hv
    -- Once the end has been given something, the variable goes where that goes.
    have hset : ∀ {s : Slot}, b' = b.set target s → b'.slot? target = some s := fun hs => by
      rw [hs, slot?_set_of_lt (lt_length_of_slot? htarget), if_pos rfl]
    have hground : ∀ {m : Node}, b' = b.set target (.ground m) →
        E.deref v.index = some (.ground m) := fun hs => by
      rw [hend]
      exact hE.deref_ground (deref_of_held? (by rw [held?, hset hs]))
    split at h
    · rename_i w
      split at h
      · cases h
      · rename_i held hw
        obtain ⟨k, hk⟩ := hb.deref hw
        cases h
        refine ⟨hb.set fun m hm => ?_, concurs_of_iff fun k => ?_⟩
        · cases hm
          exact ⟨k, hk⟩
        · rw [Denotes.var_iff_of_ground (hground rfl),
            Denotes.var_iff_of_ground (hto.deref_ground hw)]
      · rename_i other hw
        have hother := hto.deref_unbound hw
        split at h
        · rename_i hsame
          cases h
          refine ⟨hb, concurs_of_iff fun k => Denotes.var_iff_of_deref_eq ?_⟩
          rw [hend, hother, hsame]
        · cases h
          refine ⟨hb.set (fun m hm => by cases hm),
            concurs_of_iff fun k => Denotes.var_iff_of_deref_eq ?_⟩
          rw [hend, hother]
          exact deref_of_alias (hE.slot?_eq (hset rfl) (by simp))
    · cases h
      exact ⟨hb, (concurs_any _).symm⟩
    · cases h
      have hvar := fun k => Denotes.var_iff_of_ground (k := k) (θ := θ) (hground rfl)
      refine ⟨hb.set fun m hm => ?_, concurs_of_iff hvar⟩
      cases hm
      rcases hside with ⟨k, hk⟩ | hvalue
      · exact ⟨k, (hvar k).1 hk⟩
      · exact hvalue

end Unites

theorem concurs_of_atoms {m n : Node} (hm : m.isGround = true) (hflat : m.isFunctor = false)
    (h : (m == n) = true) : E.Concurs θ m n := by
  have hn : n.isGround = true := Node.isGround_congr h ▸ hm
  have hflat' : n.isFunctor = false := Node.isFunctor_congr h ▸ hflat
  exact concurs_of_iff fun k =>
    ⟨fun hk => .atom hn hflat' (BEq.trans (BEq.symm h) (hk.atom_inv hm hflat)),
      fun hk => .atom hm hflat (BEq.trans h (hk.atom_inv hn hflat'))⟩

/-- Functors concur if their arguments do. -/
theorem Concurs.functor {f : String} {ms ns : List Node} (hlength : ms.length = ns.length)
    (h : ∀ pair ∈ ms.zip ns, E.Concurs θ pair.1 pair.2) :
    E.Concurs θ (.functor f ms) (.functor f ns) := by
  have hall : ∀ {ms ns ks : List Node}, ms.length = ns.length →
      (∀ pair ∈ ms.zip ns, ∀ k, E.Denotes θ pair.1 k → pair.2.Fits (E.meaning θ) k) →
      List.Forall₂ (E.Denotes θ) ms ks → Node.AllFit (E.meaning θ) ns ks := by
    intro ms ns ks hlength h hks
    induction hks generalizing ns with
    | nil =>
        cases ns with
        | nil => trivial
        | cons n ns => cases hlength
    | cons hk _ ih =>
        cases ns with
        | nil => cases hlength
        | cons n ns =>
            exact ⟨h _ (List.mem_cons_self ..) _ hk,
              ih (Nat.succ.inj hlength) fun pair hpair => h pair (List.mem_cons_of_mem _ hpair)⟩
  constructor
  · intro k hk
    obtain ⟨ks, rfl, hks⟩ := hk.functor_inv
    exact ⟨rfl, hall hlength (fun pair hpair => (h pair hpair).left) hks⟩
  · intro k hk
    obtain ⟨ks, rfl, hks⟩ := hk.functor_inv
    refine ⟨rfl, hall hlength.symm (fun pair hpair => ?_) hks⟩
    rw [← List.zip_swap] at hpair
    obtain ⟨swapped, hswapped, rfl⟩ := List.mem_map.1 hpair
    exact (h swapped hswapped).right

theorem unites_unifyWithin (depth : Nat) : E.Unites θ (unifyWithin depth) := by
  induction depth with
  | zero => exact fun _ _ _ _ h => nomatch h
  | succ depth ih =>
      intro b b' m n h hE hb hside
      unfold unifyWithin at h
      split at h
      · cases h
      · cases h
        exact ⟨hb, concurs_any _⟩
      · cases h
        exact ⟨hb, (concurs_any _).symm⟩
      · rename_i hsame _
        obtain rfl := Nat.succ.inj hsame
        exact ih.bindSlotBy (Fills.unifyWithin depth) h hE hb hside
      · rename_i hsame _ _
        obtain rfl := Nat.succ.inj hsame
        exact (ih.bindSlotBy (Fills.unifyWithin depth) h hE hb hside.symm).imp_right Concurs.symm
      · rename_i hsame
        obtain rfl := Nat.succ.inj hsame
        split at h
        · rename_i hnames
          obtain ⟨rfl, hlength⟩ := hnames
          have hall := ih.compareAll (Fills.unifyWithin depth) h hE hb
            (args_of_functor hside)
          exact ⟨hall.1, .functor hlength hall.2⟩
        · cases h
      · rename_i m n _ _ _ _ _ _ hany hvar _ _ hboth
        obtain ⟨hsame, rfl⟩ := Prod.mk.inj h
        refine ⟨hb, ?_⟩
        cases m with
        | var v => exact (hvar v rfl).elim
        | any => exact (hany rfl).elim
        | functor f ms =>
            cases n with
            | functor g ns => exact (hboth f ms g ns rfl rfl).elim
            | _ => cases hsame
        | uri u => exact concurs_of_atoms rfl rfl hsame
        | literal l => exact concurs_of_atoms rfl rfl hsame
        | blank i => exact concurs_of_atoms rfl rfl hsame

/-- If every position of one triple stands for the one of another, unification makes the
second pattern fit it. -/
theorem fits_of_unifyTriple {p q t : Triple} (h : b.unifyTriple p q = (true, b'))
    (hb : b'.Meaningful θ b) (hs : b'.Denotes θ p.subject t.subject)
    (hp : b'.Denotes θ p.predicate t.predicate) (ho : b'.Denotes θ p.object t.object) :
    q.Fits (b'.meaning θ) t := by
  have hunites : b'.Unites θ unify := fun b b₁ m n => unites_unifyWithin _ b b₁ m n
  have hpairs : ∀ pair ∈ p.nodes.zip q.nodes,
      (∃ k, b'.Denotes θ pair.1 k) ∨ ∃ k, b'.Denotes θ pair.2 k := by
    simp only [Triple.nodes, List.zip_cons_cons, List.forall_mem_cons]
    exact ⟨Or.inl ⟨_, hs⟩, Or.inl ⟨_, hp⟩, Or.inl ⟨_, ho⟩, fun _ h => absurd h List.not_mem_nil⟩
  obtain ⟨-, hall⟩ := hunites.compareAll (fun b m n => Fills.unifyWithin _ b m n) h .refl hb hpairs
  simp only [Triple.nodes, List.zip_cons_cons, List.forall_mem_cons] at hall
  exact ⟨hall.1.left _ hs, hall.2.1.left _ hp, hall.2.2.1.left _ ho⟩

end Bindings

end Entailment
