import Entailment.Proofs.Backward.Exactness
import Entailment.Proofs.Matching.Denotation

/-!
# Negation

A call of `noValue` looks up what its resolved arguments fix and succeeds if there is
nothing.  That answer is right when it is yes: no visible triple is then an instance of the
pattern that the arguments form.  It need not be right when it is no, as a lookup can
neither tell that a variable stands at two positions nor look into a functor.  The lookup
tells exactly, whatever is visible, for the patterns in which every open position is a
wildcard or an unbound variable of its own.
-/

namespace Entailment

namespace Bindings

variable {b : Bindings} {θ : Assignment}

/-! ## Instances in an environment -/

/-- The slot whose value is missing where a node is an unbound variable. -/
def freeEnd? (b : Bindings) : Node → Option Nat
  | .var v =>
    match b.deref v.index with
    | some (.unbound last) => some last
    | some (.ground _) => none
    | none => some v.index
  | _ => none

/-- The first node becomes the second one when slots are followed to their ends, unbound
ends have the values that the assignment gives them, and wildcards have any. -/
inductive Yields (b : Bindings) (θ : Assignment) : Node → Node → Prop where
  | any {k : Node} : Yields b θ .any k
  | free {v : Var} {last : Nat} {k : Node} :
      b.freeEnd? (.var v) = some last → (θ last == k) = true → Yields b θ (.var v) k
  | held {v : Var} {n k : Node} :
      b.deref v.index = some (.ground n) → Yields b θ n k → Yields b θ (.var v) k
  | functor {f : String} {ns ks : List Node} :
      List.Forall₂ (Yields b θ) ns ks → Yields b θ (.functor f ns) (.functor f ks)
  | atom {n k : Node} :
      n.isGround = true → n.isFunctor = false → (n == k) = true → Yields b θ n k

namespace Yields

variable {n k k' : Node}

/-- Induction in which the arguments of a functor have the property too. -/
@[elab_as_elim]
theorem induct {motive : ∀ n k, b.Yields θ n k → Prop}
    (any : ∀ {k : Node}, motive .any k .any)
    (free : ∀ {v : Var} {last : Nat} {k : Node} (hv : b.freeEnd? (.var v) = some last)
      (hk : (θ last == k) = true), motive (.var v) k (.free hv hk))
    (held : ∀ {v : Var} {n k : Node} (hv : b.deref v.index = some (.ground n))
      (h : b.Yields θ n k), motive n k h → motive (.var v) k (.held hv h))
    (functor : ∀ {f : String} {ns ks : List Node} (hall : List.Forall₂ (b.Yields θ) ns ks),
      List.Forall₂ (fun n k => ∃ h, motive n k h) ns ks →
        motive (.functor f ns) (.functor f ks) (.functor hall))
    (atom : ∀ {n k : Node} (hground : n.isGround = true) (hflat : n.isFunctor = false)
      (hsame : (n == k) = true), motive n k (.atom hground hflat hsame))
    {n k : Node} (h : b.Yields θ n k) : motive n k h :=
  @Yields.rec b θ motive (fun ns ks _ => List.Forall₂ (fun n k => ∃ h, motive n k h) ns ks)
    any free held functor atom .nil (fun hone _ ih ihs => .cons ⟨hone, ih⟩ ihs) n k h

/-- A ground node yields nothing but itself. -/
theorem beq_of_ground (h : b.Yields θ n k) (hn : n.isGround = true) : (n == k) = true := by
  induction h using induct with
  | any | free | held => cases hn
  | @functor f ns ks hall ih =>
      rw [Node.functor_beq, beq_self_eq_true, Bool.true_and, list_beq_iff_forall₂]
      have hns : Node.allGround ns = true := hn
      rw [Node.allGround_iff] at hns
      clear hn hall
      induction ih with
      | nil => exact .nil
      | cons hone _ ihs =>
          obtain ⟨_, hone⟩ := hone
          exact .cons (hone (hns _ List.mem_cons_self))
            (ihs fun n hn => hns n (List.mem_cons_of_mem _ hn))
  | atom _ _ hsame => exact hsame

mutual
theorem self {n : Node} (h : n.isGround = true) : b.Yields θ n n := by
  match n with
  | .functor f ns => exact .functor (all_self h)
  | .uri _ | .literal _ | .blank _ => exact .atom rfl rfl BEq.rfl
  | .var _ | .any => cases h

theorem all_self {ns : List Node} (h : Node.allGround ns = true) :
    List.Forall₂ (b.Yields θ) ns ns := by
  match ns with
  | [] => exact .nil
  | n :: ns =>
      rw [Node.allGround, Bool.and_eq_true] at h
      exact .cons (self h.1) (all_self h.2)
end

theorem congr (h : b.Yields θ n k) (hsame : (k == k') = true) : b.Yields θ n k' := by
  induction h using induct generalizing k' with
  | any => exact .any
  | free hv hk => exact .free hv (BEq.trans hk hsame)
  | held hv _ ih => exact .held hv (ih hsame)
  | @functor f ns ks hns ih =>
      clear hns
      cases k' with
      | functor g ks' =>
          rw [Node.functor_beq, Bool.and_eq_true, beq_iff_eq, list_beq_iff_forall₂] at hsame
          obtain ⟨rfl, hall⟩ := hsame
          refine .functor ?_
          induction hall generalizing ns with
          | nil =>
              cases ih
              exact .nil
          | cons hone _ ihs =>
              cases ih with
              | cons hk hks =>
                  obtain ⟨_, hk⟩ := hk
                  exact .cons (hk hone) (ihs hks)
      | _ => cases hsame
  | atom hground hflat hk => exact .atom hground hflat (BEq.trans hk hsame)

theorem of_ground (hn : n.isGround = true) (hsame : (n == k) = true) : b.Yields θ n k :=
  (self hn).congr hsame

/-- An unbound variable yields the value of its end. -/
theorem beq_of_free {last : Nat} (h : b.Yields θ n k) (hn : b.freeEnd? n = some last) :
    (θ last == k) = true := by
  cases h with
  | any | functor => cases hn
  | free hv hk =>
      rw [hv] at hn
      cases hn
      exact hk
  | held hv _ =>
      rw [freeEnd?, hv] at hn
      cases hn
  | atom hground =>
      cases n with
      | var v => cases hground
      | _ => cases hn

end Yields

/-- The pattern becomes the triple if the unbound variables get the right values. -/
def HasInstance (b : Bindings) (p t : Triple) : Prop :=
  ∃ θ, b.Yields θ p.subject t.subject ∧ b.Yields θ p.predicate t.predicate ∧
    b.Yields θ p.object t.object

theorem HasInstance.congr {p t u : Triple} (h : b.HasInstance p t) (hsame : (t == u) = true) :
    b.HasInstance p u := by
  obtain ⟨θ, hs, hp, ho⟩ := h
  obtain ⟨hss, hsp, hso⟩ := Triple.beq_iff.1 hsame
  exact ⟨θ, hs.congr hss, hp.congr hsp, ho.congr hso⟩

/-! ## What a lookup tells -/

theorem allows_fixing_iff {n k : Node} : TriplePattern.allows (TriplePattern.fixing n) k = true ↔
    (n.isGround = true → (n == k) = true) := by
  unfold TriplePattern.fixing
  split
  · rename_i hn
    exact ⟨fun h _ => h, fun h => h hn⟩
  · rename_i hn
    exact ⟨fun _ h => absurd h hn, fun _ => rfl⟩

theorem accepts_ofTriple_iff {p t : Triple} : (TriplePattern.ofTriple p).accepts t = true ↔
    (p.subject.isGround = true → (p.subject == t.subject) = true) ∧
      (p.predicate.isGround = true → (p.predicate == t.predicate) = true) ∧
      (p.object.isGround = true → (p.object == t.object) = true) := by
  rw [TriplePattern.accepts, Bool.and_eq_true, Bool.and_eq_true, and_assoc]
  exact and_congr allows_fixing_iff (and_congr allows_fixing_iff allows_fixing_iff)

/-- A lookup finds all instances. -/
theorem HasInstance.accepts {p t : Triple} (h : b.HasInstance p t) :
    (TriplePattern.ofTriple p).accepts t = true := by
  obtain ⟨θ, hs, hp, ho⟩ := h
  exact accepts_ofTriple_iff.2 ⟨hs.beq_of_ground, hp.beq_of_ground, ho.beq_of_ground⟩

/-- What is open at a position is a wildcard or an unbound variable, and no unbound variable
stands at two positions. -/
structure Told (b : Bindings) (p : Triple) : Prop where
  plain : ∀ n ∈ p.nodes, n.isGround = true ∨ n.isAny = true ∨ ∃ last, b.freeEnd? n = some last
  apart : p.nodes.Pairwise fun m n => ∀ last, b.freeEnd? m = some last → b.freeEnd? n ≠ some last

/-- Then a lookup finds nothing but instances. -/
theorem Told.hasInstance {p t : Triple} (h : b.Told p)
    (haccepts : (TriplePattern.ofTriple p).accepts t = true) : b.HasInstance p t := by
  obtain ⟨hs, hp, ho⟩ := accepts_ofTriple_iff.1 haccepts
  obtain ⟨hsp, hso, hpo⟩ : (∀ last, b.freeEnd? p.subject = some last →
        b.freeEnd? p.predicate ≠ some last) ∧
      (∀ last, b.freeEnd? p.subject = some last → b.freeEnd? p.object ≠ some last) ∧
      ∀ last, b.freeEnd? p.predicate = some last → b.freeEnd? p.object ≠ some last := by
    have hapart := h.apart
    simp only [Triple.nodes, List.pairwise_cons, List.mem_cons, List.not_mem_nil,
      or_false] at hapart
    exact ⟨hapart.1 _ (.inl rfl), hapart.1 _ (.inr rfl), hapart.2.1 _ rfl⟩
  -- Every end has the node at the position of its variable.
  let θ : Assignment := fun last =>
    if b.freeEnd? p.subject = some last then t.subject
    else if b.freeEnd? p.predicate = some last then t.predicate else t.object
  have hyields : ∀ n ∈ p.nodes, ∀ k, (n.isGround = true → (n == k) = true) →
      (∀ last, b.freeEnd? n = some last → θ last = k) → b.Yields θ n k := by
    intro n hn k hground hend
    rcases h.plain n hn with hn | hn | ⟨last, hn⟩
    · exact .of_ground hn (hground hn)
    · cases n with
      | any => exact .any
      | _ => cases hn
    · cases n with
      | var v => exact .free hn (beq_of_eq (hend last hn))
      | _ => cases hn
  refine ⟨θ, hyields _ (by simp [Triple.nodes]) _ hs fun last hlast => if_pos hlast,
    hyields _ (by simp [Triple.nodes]) _ hp fun last hlast => ?_,
    hyields _ (by simp [Triple.nodes]) _ ho fun last hlast => ?_⟩
  · rw [show θ last = _ from if_neg fun hs => hsp last hs hlast, if_pos hlast]
  · rw [show θ last = _ from if_neg fun hs => hso last hs hlast,
      if_neg fun hp => hpo last hp hlast]

/-- Some node is not what the given one becomes, unless that can be anything. -/
theorem exists_not_yields {n : Node} (hvar : n.isVariable = false) (hany : n.isAny = false) :
    ∃ k : Node, k.isGround = true ∧ ∀ θ, ¬ b.Yields θ n k := by
  cases n with
  | var v => cases hvar
  | any => cases hany
  | uri s => exact ⟨.blank 0, rfl, fun θ h => nomatch h.beq_of_ground rfl⟩
  | literal l => exact ⟨.uri "", rfl, fun θ h => nomatch h.beq_of_ground rfl⟩
  | blank k => exact ⟨.uri "", rfl, fun θ h => nomatch h.beq_of_ground rfl⟩
  | functor f ns =>
      refine ⟨.uri "", rfl, fun θ h => ?_⟩
      cases h with
      | atom _ hflat => cases hflat

theorem Solid.exists_not_yields (hb : b.Solid) {n : Node} (hground : n.isGround = false)
    (hany : n.isAny = false) (hend : b.freeEnd? n = none) :
    ∃ k : Node, k.isGround = true ∧ ∀ θ, ¬ b.Yields θ n k := by
  cases n with
  | var v =>
      rw [freeEnd?] at hend
      split at hend
      · cases hend
      · rename_i m hm
        obtain ⟨hvar, hany⟩ := hb.derefWithin hm
        obtain ⟨k, hk, hno⟩ := Bindings.exists_not_yields (b := b) hvar hany
        refine ⟨k, hk, fun θ h => ?_⟩
        cases h with
        | free hv _ =>
            rw [freeEnd?, hm] at hv
            cases hv
        | held hv h =>
            rw [hm] at hv
            cases hv
            exact hno θ h
        | atom hground => cases hground
      · cases hend
  | functor f ns => exact Bindings.exists_not_yields rfl rfl
  | any => cases hany
  | uri _ | literal _ | blank _ => cases hground

/-- The node itself, or some node if it is open. -/
def closed (n : Node) : Node := if n.isGround then n else .uri ""

theorem isGround_closed (n : Node) : (closed n).isGround = true := by
  unfold closed
  split
  · assumption
  · rfl

theorem beq_closed {n : Node} (hn : n.isGround = true) : (n == closed n) = true := by
  rw [closed, if_pos hn]
  exact BEq.rfl

theorem not_isGround_of_freeEnd? {n : Node} {last : Nat} (h : b.freeEnd? n = some last) :
    n.isGround ≠ true := by
  cases n with
  | var v => exact Bool.false_ne_true
  | _ => cases h

/-- An unbound variable cannot yield two nodes. -/
theorem not_yields_both {m n : Node} {last : Nat} (hm : b.freeEnd? m = some last)
    (hn : b.freeEnd? n = some last) (h : b.Yields θ m (.uri "a")) : ¬ b.Yields θ n (.uri "b") :=
  fun h' => absurd (BEq.trans (BEq.symm (h.beq_of_free hm)) (h'.beq_of_free hn))
    (by decide : ¬ (Node.uri "a" == Node.uri "b") = true)

/-- If a lookup finds nothing but instances, whatever there is to be found, it tells. -/
theorem Solid.told (hb : b.Solid) {p : Triple} (h : ∀ t : Triple, t.isGround = true →
    (TriplePattern.ofTriple p).accepts t = true → b.HasInstance p t) : b.Told p := by
  have hinstance : ∀ s q o : Node, s.isGround = true → q.isGround = true → o.isGround = true →
      (p.subject.isGround = true → (p.subject == s) = true) →
      (p.predicate.isGround = true → (p.predicate == q) = true) →
      (p.object.isGround = true → (p.object == o) = true) → b.HasInstance p ⟨s, q, o⟩ :=
    fun s q o hs hq ho hps hpq hpo => h ⟨s, q, o⟩ (Triple.isGround_iff.2 ⟨hs, hq, ho⟩)
      (accepts_ofTriple_iff.2 ⟨hps, hpq, hpo⟩)
  refine ⟨fun n hn => ?_, ?_⟩
  · by_contra hbad
    simp only [not_or, not_exists, Bool.not_eq_true] at hbad
    obtain ⟨hground, hany, hend⟩ := hbad
    obtain ⟨k, hk, hno⟩ :=
      hb.exists_not_yields hground hany (Option.eq_none_iff_forall_ne_some.2 hend)
    have hopen : ∀ k : Node, n.isGround = true → (n == k) = true := fun _ hn =>
      absurd (hground.symm.trans hn) Bool.false_ne_true
    simp only [Triple.nodes, List.mem_cons, List.not_mem_nil, or_false] at hn
    rcases hn with rfl | rfl | rfl
    · obtain ⟨θ, hs, -⟩ := hinstance k (closed p.predicate) (closed p.object) hk
        (isGround_closed _) (isGround_closed _) (hopen k) beq_closed beq_closed
      exact hno θ hs
    · obtain ⟨θ, -, hp, -⟩ := hinstance (closed p.subject) k (closed p.object) (isGround_closed _)
        hk (isGround_closed _) beq_closed (hopen k) beq_closed
      exact hno θ hp
    · obtain ⟨θ, -, -, ho⟩ := hinstance (closed p.subject) (closed p.predicate) k
        (isGround_closed _) (isGround_closed _) hk beq_closed beq_closed (hopen k)
      exact hno θ ho
  · have hopen : ∀ {n k : Node} {last : Nat}, b.freeEnd? n = some last →
        n.isGround = true → (n == k) = true := fun hn hground =>
      absurd hground (not_isGround_of_freeEnd? hn)
    refine .cons (fun n hn last hs hlast => ?_) (.cons (fun n hn last hp hlast => ?_)
      (List.pairwise_singleton _ _))
    · simp only [List.mem_cons, List.not_mem_nil, or_false] at hn
      rcases hn with rfl | rfl
      · obtain ⟨θ, hys, hyp, -⟩ := hinstance (.uri "a") (.uri "b") (closed p.object) rfl rfl
          (isGround_closed _) (hopen hs) (hopen hlast) beq_closed
        exact not_yields_both hs hlast hys hyp
      · obtain ⟨θ, hys, -, hyo⟩ := hinstance (.uri "a") (closed p.predicate) (.uri "b") rfl
          (isGround_closed _) rfl (hopen hs) beq_closed (hopen hlast)
        exact not_yields_both hs hlast hys hyo
    · rw [List.mem_singleton] at hn
      subst hn
      obtain ⟨θ, -, hyp, hyo⟩ := hinstance (closed p.subject) (.uri "a") (.uri "b")
        (isGround_closed _) rfl rfl beq_closed (hopen hp) (hopen hlast)
      exact not_yields_both hp hlast hyp hyo

end Bindings

namespace View

variable {γ : Type} [Graph γ]

/-- No lookup fails. -/
def Readable (view : View γ) : Prop := ∀ p, ∃ found, view.find p = .ok found

theorem readable_memory (view : View MemoryGraph) : view.Readable :=
  fun p => ⟨_, view.find_eq p⟩

/-- The view of one triple. -/
def single (t : Triple) : View MemoryGraph := ⟨MemoryGraph.empty.plus t, .empty⟩

end View

namespace Call

/-- The pattern of two or three arguments, with any object if there are two. -/
def negated? : List Node → Option Triple
  | [s, p] => some ⟨s, p, .any⟩
  | [s, p, o] => some ⟨s, p, o⟩
  | _ => none

theorem negatedPattern_eq (args : List Node) :
    Builtin.negatedPattern args = (negated? args).map TriplePattern.ofTriple := by
  match args with
  | [] | [_] | _ :: _ :: _ :: _ :: _ => rfl
  | [_, _] | [_, _, _] => rfl

/-- In the environment, and whatever is visible, the call succeeds if and only if no
visible triple is an instance of the pattern. -/
def Negates (c : Call) (b : Bindings) (p : Triple) : Prop :=
  ∀ (γ : Type) [Graph γ] (view : View γ) (S : Set Triple), view.Shows S → view.Readable →
    ∀ label matched speculative (st : CallState), st.bindings = b →
      ((c.holds Registry.standard (.ofView view label matched speculative) st).1 = true ↔
        ∀ t ∈ S, ¬ b.HasInstance p t)

theorem get?_noValue : Registry.standard.get? "noValue" = some Builtin.noValue := by
  have hname : (Registry.standard.get? "noValue").map Builtin.name = some "noValue" := by
    decide +kernel
  obtain ⟨found, hfound, hname⟩ := Option.map_eq_some_iff.1 hname
  rw [hfound, Builtin.eq_noValue (Registry.mem_standard hfound) hname]

variable {c : Call} {b : Bindings} {p : Triple} {γ : Type} [Graph γ]

/-- The call looks the pattern up, and does nothing else. -/
theorem holds_noValue (hget : Registry.standard.get? c.name = some Builtin.noValue)
    (hp : negated? (c.resolvedArgs b) = some p) (ctx : CallContext) {st : CallState}
    (hst : st.bindings = b) :
    c.holds Registry.standard ctx st = ((ctx.find (.ofTriple p)).isEmpty, st) := by
  unfold holds
  rw [hget, hst]
  simp only [Builtin.noValue, negatedPattern_eq, hp, Option.map_some]

theorem isEmpty_find_iff {view : View γ} {S : Set Triple} (hshows : view.Shows S)
    (hreadable : view.Readable) (q : TriplePattern) (label : String)
    (matched : List (Option Triple)) (speculative : Bool) :
    ((CallContext.ofView view label matched speculative).find q).isEmpty = true ↔
      ∀ t ∈ S, q.accepts t ≠ true := by
  obtain ⟨found, hfound⟩ := hreadable q
  have hfind : (CallContext.ofView view label matched speculative).find q = found := by
    simp only [CallContext.ofView, hfound]
  have hshown := hshows q found hfound
  rw [hfind, List.isEmpty_iff]
  constructor
  · rintro rfl t ht haccepts
    exact absurd ((hshown t).2 ⟨ht, haccepts⟩) Bool.false_ne_true
  · intro hnone
    refine List.eq_nil_iff_forall_not_mem.2 fun t ht => ?_
    obtain ⟨hstored, haccepts⟩ := (hshown t).1 (List.any_eq_true.2 ⟨t, ht, BEq.rfl⟩)
    exact hnone t hstored haccepts

theorem shows_single {t : Triple} (ht : t.isGround = true) :
    (View.single t).Shows {u | (t == u) = true} := by
  have hstored : (View.single t).stored {u | (MemoryGraph.empty.plus t).contains u = true} =
      {u | (t == u) = true} := by
    ext u
    change (MemoryGraph.empty.plus t).contains u = true ∨ MemoryGraph.empty.contains u = true ↔
      (t == u) = true
    rw [MemoryGraph.sound_empty.contains_plus ht, MemoryGraph.contains_empty,
      Bool.false_or]
    exact or_iff_left Bool.false_ne_true
  rw [← hstored]
  exact View.shows_stored (MemoryGraph.sound_empty.plus ht).holds MemoryGraph.sound_empty

theorem exists_negated (hargs : c.args.length = 2 ∨ c.args.length = 3) (b : Bindings) :
    ∃ p, negated? (c.resolvedArgs b) = some p := by
  have hlength : (c.resolvedArgs b).length = c.args.length := List.length_map _
  match hresolved : c.resolvedArgs b with
  | [s, p] => exact ⟨_, rfl⟩
  | [s, p, o] => exact ⟨_, rfl⟩
  | [] | [_] | _ :: _ :: _ :: _ :: _ =>
      rw [hresolved] at hlength
      simp only [List.length_nil, List.length_cons] at hlength
      omega

/-- A call of `noValue` binds nothing and changes nothing.  When it succeeds no visible
triple is an instance of the pattern that its resolved arguments form; and it succeeds in
just these cases, whatever is visible, if and only if what is open in the pattern are
wildcards and unbound variables that stand at one position each. -/
theorem noValue_tells {size : Nat} (hb : (Bindings.empty size).Evolves b)
    (hget : Registry.standard.get? c.name = some Builtin.noValue)
    (hargs : c.args.length = 2 ∨ c.args.length = 3) :
    ∃ p, negated? (c.resolvedArgs b) = some p ∧
      (∀ ctx st, st.bindings = b → (c.holds Registry.standard ctx st).2 = st) ∧
      (∀ (γ : Type) [Graph γ] (view : View γ) (S : Set Triple), view.Shows S → view.Readable →
        ∀ label matched speculative (st : CallState), st.bindings = b →
          (c.holds Registry.standard (.ofView view label matched speculative) st).1 = true →
            ∀ t ∈ S, ¬ b.HasInstance p t) ∧
      (c.Negates b p ↔ b.Told p) := by
  obtain ⟨p, hp⟩ := exists_negated hargs b
  have hsolid : b.Solid := (Bindings.ground_empty size).solid.evolves hb
  refine ⟨p, hp, fun ctx st hst => by rw [holds_noValue hget hp ctx hst], ?_, fun hnegates => ?_,
    fun htold => ?_⟩
  · intro γ _ view S hshows hreadable label matched speculative st hst hheld t ht hinstance
    rw [holds_noValue hget hp _ hst] at hheld
    exact (isEmpty_find_iff hshows hreadable _ _ _ _).1 hheld t ht hinstance.accepts
  · refine hsolid.told fun t hground haccepts => ?_
    by_contra hno
    have hexact := hnegates MemoryGraph (.single t) _ (shows_single hground)
      (View.readable_memory _) "" [] true { bindings := b } rfl
    rw [holds_noValue hget hp _ rfl,
      isEmpty_find_iff (shows_single hground) (View.readable_memory _)] at hexact
    refine hexact.2 (fun u hu hinstance => hno ?_) t BEq.rfl haccepts
    exact hinstance.congr (BEq.symm hu)
  · intro γ _ view S hshows hreadable label matched speculative st hst
    rw [holds_noValue hget hp _ hst, isEmpty_find_iff hshows hreadable]
    exact forall₂_congr fun t _ =>
      not_congr ⟨fun haccepts => htold.hasInstance haccepts, Bindings.HasInstance.accepts⟩

/-! ## A variable at one position, and at two -/

/-- An environment in which the first variable has a value and the second one has none. -/
def halfBound : Bindings := ((Bindings.empty 2).bind (.var ⟨"x", 0⟩) (.uri "a")).2

/-- The first node has no value of the property. -/
def lacking : Call := ⟨"noValue", [.var ⟨"x", 0⟩, .uri "p", .var ⟨"y", 1⟩]⟩

theorem noValue_tells_lacking :
    (Bindings.empty 2).Evolves halfBound ∧
      Registry.standard.get? lacking.name = some Builtin.noValue ∧ lacking.args.length = 3 ∧
      ∃ p, negated? (lacking.resolvedArgs halfBound) = some p ∧
        p = ⟨.uri "a", .uri "p", .var ⟨"y", 1⟩⟩ ∧ lacking.Negates halfBound p := by
  have hb : (Bindings.empty 2).Evolves halfBound := .single ⟨_, _, rfl⟩
  have hargs : lacking.args.length = 2 ∨ lacking.args.length = 3 := .inr rfl
  obtain ⟨p, hp, -, -, hnegates⟩ := noValue_tells hb get?_noValue hargs
  obtain rfl : p = ⟨.uri "a", .uri "p", .var ⟨"y", 1⟩⟩ := (Option.some.inj hp).symm
  refine ⟨hb, get?_noValue, rfl, _, hp, rfl, hnegates.2 ⟨fun n hn => ?_, ?_⟩⟩
  · simp only [Triple.nodes, List.mem_cons, List.not_mem_nil, or_false] at hn
    rcases hn with rfl | rfl | rfl
    · exact .inl rfl
    · exact .inl rfl
    · exact .inr (.inr ⟨1, rfl⟩)
  · refine .cons (fun n _ last h => ?_) (.cons (fun n _ last h => ?_)
      (List.pairwise_singleton _ _))
    · exact absurd rfl (Bindings.not_isGround_of_freeEnd? h)
    · exact absurd rfl (Bindings.not_isGround_of_freeEnd? h)

/-- Nothing has itself as a value of the property. -/
def irreflexive : Call := ⟨"noValue", [.var ⟨"x", 0⟩, .uri "p", .var ⟨"x", 0⟩]⟩

/-- With one triple visible whose ends differ, the call fails. -/
theorem not_negates_irreflexive :
    (irreflexive.holds Registry.standard
        (.ofView (View.single ⟨.uri "a", .uri "p", .uri "b"⟩) "" [] true)
        { bindings := .empty 1 }).1 = false ∧
      ¬ irreflexive.Negates (.empty 1) ⟨.var ⟨"x", 0⟩, .uri "p", .var ⟨"x", 0⟩⟩ := by
  have hshows := shows_single (t := ⟨.uri "a", .uri "p", .uri "b"⟩) rfl
  have hfails : (irreflexive.holds Registry.standard
      (.ofView (View.single ⟨.uri "a", .uri "p", .uri "b"⟩) "" [] true)
      { bindings := .empty 1 }).1 = false := by
    rw [holds_noValue (b := .empty 1) get?_noValue rfl _ rfl, Bool.eq_false_iff]
    intro hempty
    have haccepts : (TriplePattern.ofTriple ⟨.var ⟨"x", 0⟩, .uri "p", .var ⟨"x", 0⟩⟩).accepts
        ⟨.uri "a", .uri "p", .uri "b"⟩ = true := rfl
    exact (isEmpty_find_iff hshows (View.readable_memory _) _ "" [] true).1 hempty _ BEq.rfl
      haccepts
  refine ⟨hfails, fun hnegates => ?_⟩
  have hexact := hnegates MemoryGraph _ _ hshows (View.readable_memory _) "" [] true
    { bindings := .empty 1 } rfl
  rw [hfails] at hexact
  refine Bool.false_ne_true (hexact.2 fun t ht hinstance => ?_)
  obtain ⟨θ, hs, -, ho⟩ := hinstance.congr (BEq.symm ht)
  have hend : (Bindings.empty 1).freeEnd? (.var ⟨"x", 0⟩) = some 0 := rfl
  exact Bindings.not_yields_both hend hend hs ho

end Call

end Entailment
