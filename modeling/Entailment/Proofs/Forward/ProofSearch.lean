import Entailment.Proofs.Forward.Consistency

/-!
# The search for a proof

A triple is proved by a finite tree: its leaves are triples of the base and committed
conclusions, and every other node is a deduction with the triples that one of its
supporters has matched below it.  The search that looks for such a tree keeps off its own
path and remembers what it found.  Neither changes its answer: a tree that comes back to
its conclusion can be shortened, and only what has a tree is remembered.  The path makes
it end, as it is shorter than the number of deductions.
-/

namespace Entailment

/-! ## Shortening -/

/-- Whatever rests on what is given rests on it without passing through `t`, or `t` has
a proof whose parts do not. -/
theorem Rests.avoid_or {given : Triple → Prop} {step : List Triple → Triple → Prop}
    {t u : Triple} (hcongr : ∀ ts u, step ts u → (u == t) = true → step ts t)
    (h : Rests given step u) :
    Rests given (fun ts v => step ts v ∧ (v == t) = false) u ∨
      ∃ ts, step ts t ∧
        ∀ m ∈ ts, Rests given (fun ts v => step ts v ∧ (v == t) = false) m := by
  induction h with
  | given hgiven => exact Or.inl (.given hgiven)
  | @step ts u hstep _ ih =>
      by_cases hparts : ∀ m ∈ ts, Rests given (fun ts v => step ts v ∧ (v == t) = false) m
      · cases hsame : u == t with
        | true => exact Or.inr ⟨ts, hcongr ts u hstep hsame, hparts⟩
        | false => exact Or.inl (.step ⟨hstep, hsame⟩ hparts)
      · push Not at hparts
        obtain ⟨m, hm, hnot⟩ := hparts
        exact Or.inr ((ih m hm).resolve_left hnot)

theorem Rests.shorten {given : Triple → Prop} {step : List Triple → Triple → Prop}
    {t : Triple} (hcongr : ∀ ts u, step ts u → (u == t) = true → step ts t)
    (h : Rests given step t) :
    given t ∨ ∃ ts, step ts t ∧
      ∀ m ∈ ts, Rests given (fun ts v => step ts v ∧ (v == t) = false) m := by
  rcases h.avoid_or hcongr with hdirect | hparts
  · cases hdirect with
    | given hgiven => exact Or.inl hgiven
    | step hstep _ =>
        rw [BEq.rfl] at hstep
        cases hstep.2
  · exact Or.inr hparts

/-! ## Searches that remember what they found -/

/-- The search fails only for the reasons allowed.  Otherwise it remembers only what is
good, and its answer meets the postcondition. -/
def Resolves (search : StateT (List Triple) (Except Failure) Bool) (refused : Failure → Prop)
    (good : Triple → Prop) (post : Bool → Prop) : Prop :=
  ∀ known : List Triple, (∀ t ∈ known, good t) →
    (∃ cause, search known = .error cause ∧ refused cause) ∨
      ∃ answer known', search known = .ok (answer, known') ∧ (∀ t ∈ known', good t) ∧ post answer

theorem run_bind_of_ok {α β : Type} {search : StateT (List Triple) (Except Failure) α}
    {next : α → StateT (List Triple) (Except Failure) β} {known : List Triple} (a : α)
    (known' : List Triple) (h : search known = .ok (a, known')) :
    (search >>= next) known = next a known' := by
  change (search known >>= fun found => next found.1 found.2) = _
  rw [h]
  rfl

theorem run_bind_of_error {α β : Type} {search : StateT (List Triple) (Except Failure) α}
    {next : α → StateT (List Triple) (Except Failure) β} {known : List Triple} {cause : Failure}
    (h : search known = .error cause) : (search >>= next) known = .error cause := by
  change (search known >>= fun found => next found.1 found.2) = _
  rw [h]
  rfl

namespace Resolves

variable {α : Type} {refused : Failure → Prop} {good : Triple → Prop}
  {search : α → StateT (List Triple) (Except Failure) Bool} {yes no : α → Prop}

theorem bind {first : StateT (List Triple) (Except Failure) Bool}
    {next : Bool → StateT (List Triple) (Except Failure) Bool} {mid post : Bool → Prop}
    (hfirst : Resolves first refused good mid)
    (hnext : ∀ answer, mid answer → Resolves (next answer) refused good post) :
    Resolves (first >>= next) refused good post := by
  intro known hknown
  rcases hfirst known hknown with ⟨cause, hrun, hcause⟩ | ⟨answer, known', hrun, hknown', hmid⟩
  · exact Or.inl ⟨cause, run_bind_of_error hrun, hcause⟩
  · rw [run_bind_of_ok _ _ hrun]
    exact hnext answer hmid known' hknown'

theorem pure {post : Bool → Prop} {answer : Bool} (h : post answer) :
    Resolves (Pure.pure answer) refused good post :=
  fun known hknown => Or.inr ⟨answer, known, rfl, hknown, h⟩

theorem mono {found : StateT (List Triple) (Except Failure) Bool} {post post' : Bool → Prop}
    (h : Resolves found refused good post) (himp : ∀ answer, post answer → post' answer) :
    Resolves found refused good post' := by
  intro known hknown
  rcases h known hknown with hfails | ⟨answer, known', hrun, hknown', hpost⟩
  · exact Or.inl hfails
  · exact Or.inr ⟨answer, known', hrun, hknown', himp answer hpost⟩

/-- Some element has it, or none has. -/
theorem anyM {as : List α}
    (h : ∀ a ∈ as, Resolves (search a) refused good fun answer =>
      if answer = true then yes a else no a) :
    Resolves (as.anyM search) refused good fun answer =>
      if answer = true then ∃ a ∈ as, yes a else ∀ a ∈ as, no a := by
  induction as with
  | nil => exact pure fun a ha => nomatch ha
  | cons a as ih =>
      rw [List.anyM]
      refine bind (h a (List.mem_cons_self ..)) fun answer hpost => ?_
      cases answer with
      | true => exact pure ⟨a, List.mem_cons_self .., hpost⟩
      | false =>
          refine (ih fun b hb => h b (List.mem_cons_of_mem _ hb)).mono fun answer hpost' => ?_
          cases answer with
          | true =>
              obtain ⟨b, hb, hyes⟩ := hpost'
              exact ⟨b, List.mem_cons_of_mem _ hb, hyes⟩
          | false => exact List.forall_mem_cons.2 ⟨hpost, hpost'⟩

/-- All elements have it, or one has not. -/
theorem allM {as : List α}
    (h : ∀ a ∈ as, Resolves (search a) refused good fun answer =>
      if answer = true then yes a else no a) :
    Resolves (as.allM search) refused good fun answer =>
      if answer = true then ∀ a ∈ as, yes a else ∃ a ∈ as, no a := by
  induction as with
  | nil => exact pure fun a ha => nomatch ha
  | cons a as ih =>
      rw [List.allM]
      refine bind (h a (List.mem_cons_self ..)) fun answer hpost => ?_
      cases answer with
      | false => exact pure ⟨a, List.mem_cons_self .., hpost⟩
      | true =>
          refine (ih fun b hb => h b (List.mem_cons_of_mem _ hb)).mono fun answer hpost' => ?_
          cases answer with
          | true => exact List.forall_mem_cons.2 ⟨hpost, hpost'⟩
          | false =>
              obtain ⟨b, hb, hno⟩ := hpost'
              exact ⟨b, List.mem_cons_of_mem _ hb, hno⟩

end Resolves

theorem contains_iff_any {ts : List Triple} {t : Triple} :
    ts.contains t = true ↔ ∃ u ∈ ts, (u == t) = true := by
  rw [List.contains_eq_any_beq, List.any_eq_true]
  exact exists_congr fun u => and_congr_right fun _ => ⟨BEq.symm, BEq.symm⟩

namespace Engine

variable {γ : Type} {e : Engine γ}

/-- A deduction is held up by an activation that has matched the triples. -/
def Infers (e : Engine γ) (ts : List Triple) (t : Triple) : Prop :=
  e.deductions.contains t = true ∧ e.Props ts t

theorem Infers.congr {ts : List Triple} {t u : Triple} (h : e.Infers ts t)
    (hsame : (t == u) = true) : e.Infers ts u := by
  obtain ⟨hdeduced, a, ha, hmatched⟩ := h
  refine ⟨?_, a, ?_, hmatched⟩
  · rw [← e.deductions.contains_congr hsame]
    exact hdeduced
  · rw [← e.supporters_congr hsame]
    exact ha

/-! ## Paths -/

/-- Different deductions that no path within the depth can use up. -/
structure Ample (e : Engine γ) (depth : Nat) (path : List Triple) : Prop where
  distinct : Distinct path
  deduced : ∀ t ∈ path, e.deductions.contains t = true
  size_lt : e.deductions.size < depth + path.length

theorem Ample.not_zero (hsound : e.deductions.Sound) {path : List Triple} :
    ¬ e.Ample 0 path := by
  intro h
  have hle := hsound.length_le_size h.distinct h.deduced
  have hlt := h.size_lt
  omega

theorem Ample.cons {depth : Nat} {path : List Triple} {t : Triple} (h : e.Ample (depth + 1) path)
    (hfree : path.any (· == t) = false) (hdeduced : e.deductions.contains t = true) :
    e.Ample depth (t :: path) where
  distinct := by
    refine List.pairwise_cons.2 ⟨fun u hu => ?_, h.distinct⟩
    rw [BEq.comm]
    exact Bool.eq_false_iff.2 (List.any_eq_false.1 hfree u hu)
  deduced := List.forall_mem_cons.2 ⟨hdeduced, h.deduced⟩
  size_lt := by
    have hlt := h.size_lt
    rw [List.length_cons]
    omega

theorem Ample.mono {depth depth' : Nat} {path : List Triple} (h : e.Ample depth path)
    (hle : depth ≤ depth') : e.Ample depth' path :=
  ⟨h.distinct, h.deduced, Nat.lt_of_lt_of_le h.size_lt (Nat.add_le_add_right hle _)⟩

theorem ample_nil {depth : Nat} (h : e.deductions.size < depth) : e.Ample depth [] :=
  ⟨List.Pairwise.nil, (fun _ ht => nomatch ht), h⟩

variable [Graph γ]

/-! ## Proofs -/

/-- The triple needs no deduction. -/
def Evident (e : Engine γ) (t : Triple) : Prop :=
  Graph.contains e.base t = .ok true ∨ e.committed.contains t = true

def Proven (e : Engine γ) : Triple → Prop := Rests e.Evident e.Infers

/-- The same without passing through the path. -/
def ProvenOff (e : Engine γ) (path : List Triple) : Triple → Prop :=
  Rests e.Evident fun ts t => e.Infers ts t ∧ path.any (· == t) = false

/-- The triple is inferred from what is proven. -/
def Inferred (e : Engine γ) (t : Triple) : Prop := ∃ ts, e.Infers ts t ∧ ∀ m ∈ ts, e.Proven m

/-- Nothing is asked of the base here, which may tell equal triples apart. -/
theorem Inferred.proven {t u : Triple} (h : e.Inferred t) (hsame : (t == u) = true) :
    e.Proven u := by
  obtain ⟨ts, hinfers, hparts⟩ := h
  exact .step (hinfers.congr hsame) hparts

theorem provenOff_nil {t : Triple} : e.ProvenOff [] t ↔ e.Proven t := by
  constructor
  · intro h
    exact h.transfer (fun _ => .given) fun ts t hstep => Or.inr ⟨ts, hstep.1, fun m hm => hm⟩
  · intro h
    exact h.transfer (fun _ => .given) fun ts t hstep =>
      Or.inr ⟨ts, ⟨hstep, rfl⟩, fun m hm => hm⟩

/-- What is proven off a path is evident, or some activation infers it from triples that
are proven off the longer path. -/
theorem ProvenOff.next {path : List Triple} {t : Triple} (h : e.ProvenOff path t) :
    e.Evident t ∨ path.any (· == t) = false ∧ e.deductions.contains t = true ∧
      ∃ a ∈ e.supporters t, ∀ m ∈ e.matchedBy a, e.ProvenOff (t :: path) m := by
  rcases h.shorten (fun ts u hstep hsame => ⟨hstep.1.congr hsame, by
      rw [← hstep.2]
      exact congrArg path.any (funext fun v => (BEq.congr_right hsame).symm)⟩) with
    hevident | ⟨ts, ⟨⟨hdeduced, a, ha, rfl⟩, hfree⟩, hparts⟩
  · exact Or.inl hevident
  · refine Or.inr ⟨hfree, hdeduced, a, ha, fun m hm => ?_⟩
    refine (hparts m hm).transfer (fun _ => .given) fun us v hstep =>
      Or.inr ⟨us, ⟨hstep.1.1, ?_⟩, fun m hm => hm⟩
    rw [List.any_cons, hstep.1.2, Bool.or_false]
    exact Bool.eq_false_iff.2 fun hsame => by
      rw [BEq.symm hsame] at hstep
      cases hstep.2

/-! ## The search with and without its devices -/

/-- The search for a proof, which may be told not to keep off its path, and not to
remember what it found. -/
def searchWithin (e : Engine γ) (cut remember : Bool) :
    (depth : Nat) → (path : List Triple) → Triple → StateT (List Triple) (Except Failure) Bool
  | 0, _, _ => return false
  | depth + 1, path, t => do
    if (remember && (← get).contains t) || e.committed.contains t then return true
    if ← Failure.ofGraph (Graph.contains e.base t) then return true
    if (cut && path.contains t) || !e.deductions.contains t then return false
    let found ← (e.supporters t).anyM fun a =>
      (e.matchedBy a).allM (e.searchWithin cut remember depth (t :: path))
    if remember && found then modify (t :: ·)
    return found

/-- With both devices it is the search that the engine makes. -/
theorem searchWithin_true_true : e.searchWithin true true = e.groundedWithin := by
  funext depth
  induction depth with
  | zero => rfl
  | succ depth ih =>
    funext path t
    rw [searchWithin, groundedWithin, ih]
    simp only [Bool.true_and]

theorem searchWithin_succ (cut remember : Bool) (depth : Nat) (path : List Triple) (t : Triple)
    (known : List Triple) : e.searchWithin cut remember (depth + 1) path t known =
      if ((remember && known.contains t) || e.committed.contains t) = true then .ok (true, known)
      else match Graph.contains e.base t with
        | .error error => .error (.graph error)
        | .ok true => .ok (true, known)
        | .ok false =>
          if ((cut && path.contains t) || !e.deductions.contains t) = true then .ok (false, known)
          else
            (((e.supporters t).anyM fun a =>
                (e.matchedBy a).allM (e.searchWithin cut remember depth (t :: path))) >>=
              fun found => do
                if (remember && found) = true then modify (t :: ·)
                return found) known := by
  rw [searchWithin, run_bind_of_ok known known rfl]
  split
  · rfl
  · cases hbase : Graph.contains e.base t with
    | error error => exact run_bind_of_error rfl
    | ok held =>
      rw [show Failure.ofGraph (.ok held : Except GraphError Bool) = .ok held from rfl,
        run_bind_of_ok held known rfl]
      cases held with
      | true => rfl
      | false =>
        rw [if_neg Bool.false_ne_true]
        simp only
        split
        · rfl
        · rfl

/-- The base has refused an access. -/
def Refused (e : Engine γ) (cause : Failure) : Prop :=
  ∃ u error, Graph.contains e.base u = .error error ∧ cause = .graph error

/-- What is not evident has no proof that keeps off a path where the search stops at it. -/
theorem not_provenOff_of_stop {cut : Bool} {path : List Triple} {t : Triple}
    (hnotEvident : ¬ e.Evident t)
    (hstop : ((cut && path.contains t) || !e.deductions.contains t) = true) :
    ¬ e.ProvenOff path t := by
  intro hoff
  rcases hoff.next with hgiven | ⟨hfree, hdeduced, _⟩
  · exact hnotEvident hgiven
  · rw [hdeduced, Bool.not_true, Bool.or_false, Bool.and_eq_true, contains_iff_any] at hstop
    obtain ⟨_, u, hu, hsame⟩ := hstop
    exact List.any_eq_false.1 hfree u hu hsame

/-- The search may remember what it has inferred, and answers the same. -/
theorem resolves_remember {good : Triple → Prop} (hlearn : ∀ u, e.Inferred u → good u)
    {remember found : Bool} {t : Triple} {post : Bool → Prop}
    (hinferred : found = true → e.Inferred t) (hpost : post found) :
    Resolves (do
      if (remember && found) = true then modify (t :: ·)
      return found) e.Refused good post := by
  intro known hknown
  cases hremember : remember && found with
  | false => exact Or.inr ⟨found, known, rfl, hknown, hpost⟩
  | true =>
    have hgood : good t := hlearn t (hinferred (Bool.and_eq_true_iff.1 hremember).2)
    exact Or.inr ⟨found, t :: known, rfl, List.forall_mem_cons.2 ⟨hgood, hknown⟩, hpost⟩

/-- A yes is right at every depth, and a no within a depth that no path can use up, as long
as what is remembered is proven, and so is every triple equal to it. -/
theorem resolves_searchWithin (hsound : e.deductions.Sound) {good : Triple → Prop}
    (hlearn : ∀ u, e.Inferred u → good u)
    (hgood : ∀ u t, good u → (u == t) = true → e.Proven t) (cut remember : Bool) (depth : Nat)
    (path : List Triple) (t : Triple) :
    Resolves (e.searchWithin cut remember depth path t) e.Refused good fun answer =>
      if answer = true then e.Proven t else e.Ample depth path → ¬ e.ProvenOff path t := by
  induction depth generalizing path t with
  | zero => exact Resolves.pure fun hample => absurd hample (Ample.not_zero hsound)
  | succ depth ih =>
    intro known hknown
    rw [searchWithin_succ]
    split
    next hfound =>
      refine Or.inr ⟨true, known, rfl, hknown, ?_⟩
      rw [Bool.or_eq_true, Bool.and_eq_true] at hfound
      rcases hfound with ⟨_, hmem⟩ | hcommitted
      · obtain ⟨u, hu, hsame⟩ := contains_iff_any.1 hmem
        exact hgood u t (hknown u hu) hsame
      · exact .given (Or.inr hcommitted)
    next hfound =>
      cases hbase : Graph.contains e.base t with
      | error error => exact Or.inl ⟨_, rfl, t, error, hbase, rfl⟩
      | ok held =>
        cases held with
        | true => exact Or.inr ⟨true, known, rfl, hknown, .given (Or.inl hbase)⟩
        | false =>
          have hnotEvident : ¬ e.Evident t := by
            rintro (hgiven | hgiven)
            · rw [hbase] at hgiven
              cases hgiven
            · exact hfound (by rw [hgiven, Bool.or_true])
          simp only
          split
          next hstop =>
            exact Or.inr
              ⟨false, known, rfl, hknown, fun _ => not_provenOff_of_stop hnotEvident hstop⟩
          next hstop =>
            have hdeduced : e.deductions.contains t = true := by
              rw [Bool.not_eq_true, Bool.or_eq_false_iff, Bool.not_eq_false'] at hstop
              exact hstop.2
            have hsearch := Resolves.anyM fun a (_ : a ∈ e.supporters t) =>
              Resolves.allM fun m (_ : m ∈ e.matchedBy a) => ih (t :: path) m
            refine Resolves.bind hsearch (fun found hpost => ?_) known hknown
            have hinferred : found = true → e.Inferred t := by
              intro hfound
              rw [if_pos hfound] at hpost
              obtain ⟨a, ha, hparts⟩ := hpost
              exact ⟨_, ⟨hdeduced, a, ha, rfl⟩, hparts⟩
            refine resolves_remember hlearn hinferred ?_
            cases found with
            | true => exact (hinferred rfl).proven BEq.rfl
            | false =>
              intro hample hoff
              rcases hoff.next with hgiven | ⟨hfree, _, a, ha, hparts⟩
              · exact hnotEvident hgiven
              · obtain ⟨m, hm, hnot⟩ := hpost a ha
                exact hnot (hample.cons hfree hdeduced) (hparts m hm)

/-- A depth that no path can use up is as good as any larger one. -/
theorem groundedWithin_succ_eq (hsound : e.deductions.Sound) {depth : Nat} {path : List Triple}
    (h : e.Ample depth path) : e.groundedWithin (depth + 1) path = e.groundedWithin depth path := by
  simp only [← searchWithin_true_true]
  induction depth generalizing path with
  | zero => exact absurd h (Ample.not_zero hsound)
  | succ depth ih =>
    funext t known
    rw [searchWithin_succ, searchWithin_succ _ _ depth]
    split
    · rfl
    · split
      · rfl
      · rfl
      · split
        · rfl
        next hstop =>
          rw [Bool.true_and, Bool.not_eq_true, Bool.or_eq_false_iff, Bool.not_eq_false'] at hstop
          have hfree : path.any (· == t) = false := by
            rw [Bool.eq_false_iff]
            intro hany
            rw [List.any_eq_true, ← contains_iff_any, hstop.1] at hany
            cases hany
          rw [ih (h.cons hfree hstop.2)]

theorem groundedWithin_eq_of_le (hsound : e.deductions.Sound) {depth depth' : Nat}
    {path : List Triple} (h : e.Ample depth path) (hle : depth ≤ depth') :
    e.groundedWithin depth' path = e.groundedWithin depth path := by
  induction hle with
  | refl => rfl
  | step hle ih => exact (groundedWithin_succ_eq hsound (h.mono hle)).trans ih

end Engine

end Entailment
