import Mathlib.Data.List.Dedup
import Mathlib.Data.Set.Function

/-!
# First occurrences

A list without its repetitions keeps the order in which its elements occur first.  Places
in that order, the ranks of the elements, are numbers without gaps, and a numbering that
goes on, element by element, comes to the same order.  Lists in which the same elements
recur at the same places have equal ranks.
-/

namespace Entailment

section Occurrence

variable {α β : Type} [BEq α] [LawfulBEq α] [BEq β] [LawfulBEq β]

theorem nodup_eraseDups : ∀ as : List α, as.eraseDups.Nodup
  | [] => .nil
  | a :: as => by
      rw [List.eraseDups_cons, List.nodup_cons]
      refine ⟨fun ha => ?_, nodup_eraseDups (as.filter fun b => !b == a)⟩
      rw [List.mem_eraseDups, List.mem_filter, BEq.rfl] at ha
      exact absurd ha.2 Bool.false_ne_true
termination_by as => as.length
decreasing_by exact Nat.lt_succ_of_le (List.length_filter_le _ _)

theorem eraseDups_map {f : α → β} : ∀ {as : List α}, Set.InjOn f {a | a ∈ as} →
    (as.map f).eraseDups = as.eraseDups.map f
  | [], _ => rfl
  | a :: as, hf => by
      have hfilter : (as.map f).filter (fun b => !b == f a) =
          (as.filter fun b => !b == a).map f := by
        rw [List.filter_map]
        refine congrArg (List.map f) (List.filter_congr fun b hb => ?_)
        have hsame : (f b == f a) = (b == a) := by
          rw [Bool.eq_iff_iff, beq_iff_eq, beq_iff_eq]
          exact hf.eq_iff (List.mem_cons_of_mem a hb) List.mem_cons_self
        rw [Function.comp_apply, hsame]
      rw [List.map_cons, List.eraseDups_cons, List.eraseDups_cons, List.map_cons, hfilter]
      refine congrArg (f a :: ·) (eraseDups_map (hf.mono fun b hb => ?_))
      exact List.mem_cons_of_mem a (List.mem_filter.1 hb).1
termination_by as => as.length
decreasing_by exact Nat.lt_succ_of_le (List.length_filter_le _ _)

theorem map_idxOf_of_nodup {as : List α} (h : as.Nodup) :
    as.map (fun a => as.idxOf a) = List.range as.length := by
  refine List.ext_getElem (by simp) fun i hi hi' => ?_
  rw [List.getElem_map, List.getElem_range]
  exact h.idxOf_getElem i (by simpa using hi)

/-- The place of every element in the order of first occurrences. -/
def ranks (as : List α) : List Nat := as.map fun a => as.eraseDups.idxOf a

theorem idxOf_eraseDups_injOn (as : List α) :
    Set.InjOn (fun a => as.eraseDups.idxOf a) {a | a ∈ as} :=
  fun _ ha _ _ hab => (List.idxOf_inj (List.mem_eraseDups.2 ha)).1 hab

/-- Ranks occur first in their own order. -/
theorem eraseDups_ranks (as : List α) :
    (ranks as).eraseDups = List.range as.eraseDups.length := by
  rw [ranks, eraseDups_map (idxOf_eraseDups_injOn as), map_idxOf_of_nodup (nodup_eraseDups as)]

theorem length_eraseDups_ranks (as : List α) :
    (ranks as).eraseDups.length = as.eraseDups.length := by
  rw [eraseDups_ranks, List.length_range]

/-- As many different elements stand in lists with the same members. -/
theorem length_eraseDups_congr {as bs : List α} (h : ∀ a, a ∈ as ↔ a ∈ bs) :
    as.eraseDups.length = bs.eraseDups.length := by
  refine ((List.perm_ext_iff_of_nodup (nodup_eraseDups as) (nodup_eraseDups bs)).2
    fun a => ?_).length_eq
  rw [List.mem_eraseDups, List.mem_eraseDups, h]

end Occurrence

/-! ## Recurrences -/

section Recurrences

variable {α β : Type} [DecidableEq α] [DecidableEq β]

/-- For every place of the list, the first place at which the same stands. -/
def recurrences (as : List α) : List Nat := as.map fun a => as.idxOf a

/-- The first place of a node is the same in images of one list that tell the same apart. -/
theorem idxOf_map_congr {γ : Type} [DecidableEq γ] {g : γ → α} {h : γ → β} {cs : List γ} {a : α}
    {b : β} (hsame : ∀ c ∈ cs, g c = a ↔ h c = b) : (cs.map g).idxOf a = (cs.map h).idxOf b := by
  induction cs with
  | nil => rfl
  | cons c cs ih =>
      have hc : (g c == a) = (h c == b) := by
        rw [Bool.eq_iff_iff, beq_iff_eq, beq_iff_eq]
        exact hsame c List.mem_cons_self
      rw [List.map_cons, List.map_cons, List.idxOf_cons, List.idxOf_cons, hc,
        ih fun c hc => hsame c (List.mem_cons_of_mem _ hc)]

theorem recurrences_map {f : α → β} {as : List α} (h : Set.InjOn f {a | a ∈ as}) :
    recurrences (as.map f) = recurrences as := by
  unfold recurrences
  rw [List.map_map]
  refine List.map_congr_left fun a ha => ?_
  have hidx := idxOf_map_congr (g := f) (h := id) (b := a) fun c (hc : c ∈ as) =>
    ⟨fun hf => h hc ha hf, congrArg f⟩
  rwa [List.map_id] at hidx

/-- Lists in which the same recurs at the same places are one-to-one images of each other. -/
theorem exists_map_eq_iff [Inhabited β] {as : List α} {bs : List β} :
    (∃ f : α → β, Set.InjOn f {a | a ∈ as} ∧ as.map f = bs) ↔ recurrences as = recurrences bs := by
  constructor
  · rintro ⟨f, hf, rfl⟩
    exact (recurrences_map hf).symm
  · intro h
    have hlength : as.length = bs.length := by
      have := congrArg List.length h
      rwa [recurrences, recurrences, List.length_map, List.length_map] at this
    have hplace : ∀ (i : Nat) (hi : i < as.length) (hi' : i < bs.length),
        as.idxOf as[i] = bs.idxOf bs[i] := by
      intro i hi hi'
      have hget := congrArg (·[i]?) h
      simpa [recurrences, List.getElem?_eq_getElem hi, List.getElem?_eq_getElem hi'] using hget
    -- What stands at some place of the one list goes to what stands there in the other.
    have himage : ∀ (i : Nat) (hi : i < as.length) (hi' : i < bs.length),
        (bs[as.idxOf as[i]]?).getD default = bs[i] := by
      intro i hi hi'
      rw [hplace i hi hi', List.getElem?_idxOf (List.getElem_mem hi'), Option.getD_some]
    refine ⟨fun a => (bs[as.idxOf a]?).getD default, ?_, ?_⟩
    · intro a ha b hb hab
      obtain ⟨i, hi, rfl⟩ := List.getElem_of_mem ha
      obtain ⟨j, hj, rfl⟩ := List.getElem_of_mem hb
      have hi' := hlength ▸ hi
      have hj' := hlength ▸ hj
      simp only [himage i hi hi', himage j hj hj'] at hab
      have hsame : as.idxOf as[i] = as.idxOf as[j] := by
        rw [hplace i hi hi', hplace j hj hj', hab]
      exact (List.idxOf_inj ha).1 hsame
    · refine List.ext_getElem (by rw [List.length_map, hlength]) fun i hi hi' => ?_
      rw [List.getElem_map]
      exact himage i (by simpa using hi) hi'

/-! ## Ranks -/

theorem ranks_map {f : α → β} {as : List α} (h : Set.InjOn f {a | a ∈ as}) :
    ranks (as.map f) = ranks as := by
  rw [ranks, ranks, eraseDups_map h, List.map_map]
  refine List.map_congr_left fun a ha => ?_
  have hidx := idxOf_map_congr (g := f) (h := id) (b := a) fun c (hc : c ∈ as.eraseDups) =>
    ⟨fun hf => h (List.mem_eraseDups.1 hc) ha hf, congrArg f⟩
  rwa [List.map_id] at hidx

theorem recurrences_ranks (as : List α) : recurrences (ranks as) = recurrences as :=
  recurrences_map (idxOf_eraseDups_injOn as)

/-- Ranks that are given ranks stay as they are. -/
theorem ranks_ranks (as : List α) : ranks (ranks as) = ranks as :=
  ranks_map (idxOf_eraseDups_injOn as)

theorem ranks_recurrences (as : List α) : ranks (recurrences as) = ranks as :=
  ranks_map fun _ ha _ _ hab => (List.idxOf_inj ha).1 hab

/-- Ranks say what recurs where, and no more. -/
theorem ranks_eq_ranks_iff {as : List α} {bs : List β} :
    ranks as = ranks bs ↔ recurrences as = recurrences bs := by
  constructor
  · intro h
    rw [← recurrences_ranks as, h, recurrences_ranks]
  · intro h
    rw [← ranks_recurrences as, h, ranks_recurrences]

/-- Images of one list that tell the same apart have the same ranks. -/
theorem ranks_map_congr {γ : Type} [DecidableEq γ] {g : γ → α} {h : γ → β} {cs : List γ}
    (hsame : ∀ c ∈ cs, ∀ d ∈ cs, g c = g d ↔ h c = h d) :
    ranks (cs.map g) = ranks (cs.map h) := by
  rw [ranks_eq_ranks_iff, recurrences, recurrences, List.map_map, List.map_map]
  exact List.map_congr_left fun d hd => idxOf_map_congr fun c hc => hsame c hc d hd

end Recurrences

/-! ## Noting what is met -/

section Met

variable {κ : Type} [DecidableEq κ]

/-- What has been met after some more, each listed where it is met first. -/
def metAfter (met ks : List κ) : List κ :=
  ks.foldl (fun met k => if k ∈ met then met else met ++ [k]) met

theorem metAfter_cons (met : List κ) (k : κ) (ks : List κ) :
    metAfter met (k :: ks) = metAfter (if k ∈ met then met else met ++ [k]) ks := rfl

theorem metAfter_append (met ks js : List κ) :
    metAfter met (ks ++ js) = metAfter (metAfter met ks) js :=
  List.foldl_append

theorem prefix_metAfter (met ks : List κ) : met <+: metAfter met ks := by
  induction ks generalizing met with
  | nil => exact List.prefix_rfl
  | cons k ks ih =>
      rw [metAfter_cons]
      refine List.IsPrefix.trans ?_ (ih _)
      split
      · exact List.prefix_rfl
      · exact List.prefix_append ..

theorem mem_metAfter {met ks : List κ} {k : κ} : k ∈ metAfter met ks ↔ k ∈ met ∨ k ∈ ks := by
  induction ks generalizing met with
  | nil => simp [metAfter]
  | cons j ks ih =>
      rw [metAfter_cons, ih, List.mem_cons]
      split
      · rename_i hj
        constructor
        · exact fun h => h.imp_right Or.inr
        · rintro (h | rfl | h)
          · exact Or.inl h
          · exact Or.inl hj
          · exact Or.inr h
      · rw [List.mem_append, List.mem_singleton, or_assoc]

theorem metAfter_eraseDups (past ks : List κ) :
    metAfter past.eraseDups ks = (past ++ ks).eraseDups := by
  induction ks generalizing past with
  | nil => rw [List.append_nil]; rfl
  | cons k ks ih =>
      have hstep : (past ++ [k]).eraseDups =
          if k ∈ past.eraseDups then past.eraseDups else past.eraseDups ++ [k] := by
        rw [List.eraseDups_append]
        by_cases hk : k ∈ past
        · simp [List.removeAll, hk]
        · simp [List.removeAll, hk, List.eraseDups_cons]
      rw [metAfter_cons, ← hstep, ih, List.append_assoc]
      rfl

end Met

end Entailment
