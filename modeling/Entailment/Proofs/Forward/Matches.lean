import Entailment.Forward.Network
import Entailment.Proofs.Matching.Ground

/-!
# Facts that match the first patterns of a rule

A token stands for facts that match the patterns of its rule up to its level, and its
bindings are what matching them one after another gives.  They admit exactly the
assignments under which every one of the facts fits its pattern.
-/

namespace Entailment

namespace CompiledRule

/-- The facts match the first patterns of the rule, one each, and leave the bindings. -/
inductive Matches (c : CompiledRule) : List Triple → Bindings → Prop where
  | none : c.Matches [] (.empty c.rule.numVars)
  | next {ts : List Triple} {b b' : Bindings} {p : Nat × Triple} {t : Triple} :
      c.Matches ts b → c.patterns[ts.length]? = some p → t.isGround = true →
      b.matching? p.2 t = some b' → c.Matches (ts ++ [t]) b'

/-- Every fact fits the pattern at its place. -/
def FitEach (c : CompiledRule) (σ : Assignment) (ts : List Triple) : Prop :=
  ∀ (i : Nat) (p : Nat × Triple) (t : Triple),
    c.patterns[i]? = some p → ts[i]? = some t → p.2.Fits σ t

theorem fitEach_append_singleton {c : CompiledRule} {σ : Assignment} {ts : List Triple}
    {p : Nat × Triple} {t : Triple} (hp : c.patterns[ts.length]? = some p) :
    c.FitEach σ (ts ++ [t]) ↔ c.FitEach σ ts ∧ p.2.Fits σ t := by
  constructor
  · intro h
    refine ⟨?_, h ts.length p t hp (by simp)⟩
    intro i q u hq hu
    have hlt := (List.getElem?_eq_some_iff.1 hu).1
    exact h i q u hq (by rw [List.getElem?_append_left hlt, hu])
  · rintro ⟨hbefore, hlast⟩ i q u hq hu
    by_cases hlt : i < ts.length
    · rw [List.getElem?_append_left hlt] at hu
      exact hbefore i q u hq hu
    · rw [List.getElem?_append_right (Nat.le_of_not_lt hlt), List.getElem?_singleton] at hu
      split at hu
      · have hi : i = ts.length := by omega
        rw [hi, hp] at hq
        rw [← Option.some.inj hq, ← Option.some.inj hu]
        exact hlast
      · cases hu

namespace Matches

variable {c : CompiledRule} {ts : List Triple} {b b' : Bindings}

theorem unique (h : c.Matches ts b) (k : c.Matches ts b') : b = b' := by
  induction h generalizing b' with
  | none =>
      generalize hts : ([] : List Triple) = us at k
      cases k with
      | none => rfl
      | next _ _ _ _ => simp at hts
  | @next ts b b₁ p t _ hp _ hmatch ih =>
      generalize hus : ts ++ [t] = us at k
      cases k with
      | none => simp at hus
      | @next ts' b₂ b₃ p' t' hbefore hp' _ hmatch' =>
          obtain ⟨rfl, htriple⟩ := List.append_inj' hus rfl
          obtain rfl := List.singleton_inj.1 htriple
          rw [hp] at hp'
          obtain rfl := Option.some.inj hp'
          obtain rfl := ih hbefore
          rw [hmatch] at hmatch'
          exact Option.some.inj hmatch'

theorem ground (h : c.Matches ts b) : b.Ground := by
  induction h with
  | none => exact Bindings.ground_empty _
  | next _ _ ht hmatch ih => exact (ih.matched ht hmatch).ground

theorem matched {p : Nat × Triple} {t : Triple} (h : c.Matches ts b) (ht : t.isGround = true)
    (hmatch : b.matching? p.2 t = some b') : b.Matched p.2 t b' :=
  h.ground.matched ht hmatch

theorem length_bindings (h : c.Matches ts b) : b.length = c.rule.numVars := by
  induction h with
  | none => exact Bindings.length_empty _
  | next hbefore _ ht hmatch ih => exact (hbefore.matched ht hmatch).length_eq.trans ih

theorem length_le (h : c.Matches ts b) : ts.length ≤ c.levels := by
  cases h with
  | none => exact Nat.zero_le _
  | next _ hp _ _ =>
      rw [List.length_append, List.length_singleton]
      exact (List.getElem?_eq_some_iff.1 hp).1

theorem isGround (h : c.Matches ts b) : ∀ t ∈ ts, t.isGround = true := by
  induction h with
  | none =>
      intro t ht
      cases ht
  | next _ _ hground _ ih =>
      intro u hu
      rcases List.mem_append.1 hu with hu | hu
      · exact ih u hu
      · exact List.mem_singleton.1 hu ▸ hground

/-- The bindings admit the assignments under which every fact fits its pattern. -/
theorem admits_iff (h : c.Matches ts b) (σ : Assignment) : b.Admits σ ↔ c.FitEach σ ts := by
  induction h with
  | none =>
      constructor
      · intro _ i p t _ ht
        cases ht
      · intro _ i n hi
        rw [Bindings.held?_empty] at hi
        cases hi
  | next hbefore hp ht hmatch ih =>
      rw [(hbefore.matched ht hmatch).admits_iff σ, ih, fitEach_append_singleton hp]

theorem fits (h : c.Matches ts b) {i : Nat} {p : Nat × Triple} {t : Triple}
    (hp : c.patterns[i]? = some p) (ht : ts[i]? = some t) : p.2.Fits b.assignment t :=
  (h.admits_iff _).1 b.admits_assignment i p t hp ht

/-- A slot is taken when its variable occurs in a pattern that has been matched. -/
theorem held?_isSome_iff (h : c.Matches ts b) (j : Nat) :
    (b.held? j).isSome = true ↔
      ∃ (i : Nat) (p : Nat × Triple),
        i < ts.length ∧ c.patterns[i]? = some p ∧ j ∈ p.2.indexes := by
  induction h with
  | none => simp [Bindings.held?_empty]
  | @next ts b b' p t hbefore hp ht hmatch ih =>
      have hstep := hbefore.matched ht hmatch
      constructor
      · intro hj
        by_cases hmem : j ∈ p.2.indexes
        · exact ⟨ts.length, p, by simp, hp, hmem⟩
        · rw [hstep.frame j hmem, ih] at hj
          obtain ⟨i, q, hi, hq, hmem⟩ := hj
          exact ⟨i, q, by rw [List.length_append]; omega, hq, hmem⟩
      · rintro ⟨i, q, hi, hq, hmem⟩
        rw [List.length_append, List.length_singleton] at hi
        by_cases hlt : i < ts.length
        · obtain ⟨n, hn⟩ := Option.isSome_iff_exists.1 (ih.2 ⟨i, q, hlt, hq, hmem⟩)
          rw [hstep.keeps j n hn]
          rfl
        · have hi : i = ts.length := by omega
          rw [hi, hp] at hq
          obtain rfl := Option.some.inj hq
          obtain ⟨n, hn⟩ := hstep.covers j hmem
          rw [hn]
          rfl

end Matches

theorem unifyToken_append {c : CompiledRule} {before : List ((Nat × Triple) × Triple)}
    {p : Nat × Triple} {t : Triple} {b b' b'' : Bindings} (h : c.unifyToken before b = .ok b')
    (hlast : b'.matching? p.2 t = some b'') :
    c.unifyToken (before ++ [(p, t)]) b = .ok b'' := by
  induction before generalizing b with
  | nil =>
      cases h
      obtain ⟨i, pattern⟩ := p
      rw [List.nil_append, unifyToken, hlast]
      rfl
  | cons entry before ih =>
      obtain ⟨⟨i, pattern⟩, fact⟩ := entry
      rw [List.cons_append, unifyToken]
      rw [unifyToken] at h
      cases hmatch : b.matching? pattern fact with
      | none =>
          rw [hmatch] at h
          cases h
      | some next =>
          rw [hmatch] at h
          exact ih h

theorem Matches.unifyToken_eq {c : CompiledRule} {ts : List Triple} {b : Bindings}
    (h : c.Matches ts b) :
    c.unifyToken ((c.patterns.take ts.length).zip ts) (.empty c.rule.numVars) = .ok b := by
  induction h with
  | none => rfl
  | @next ts b b' p t hbefore hp _ hmatch ih =>
      have hlt := (List.getElem?_eq_some_iff.1 hp).1
      have htake : c.patterns.take (ts ++ [t]).length = c.patterns.take ts.length ++ [p] := by
        rw [List.length_append, List.length_singleton, List.take_add_one, hp]
        rfl
      rw [htake, List.zip_append (by rw [List.length_take]; omega)]
      exact unifyToken_append ih hmatch

/-- A complete match has the bindings that the rule is evaluated in. -/
theorem Matches.bindings_eq {c : CompiledRule} {ts : List Triple} {b : Bindings}
    (h : c.Matches ts b) (hlength : ts.length = c.levels) : c.bindings ts = .ok b := by
  have hunify := h.unifyToken_eq
  rw [hlength, levels, List.take_length] at hunify
  rw [CompiledRule.bindings, if_pos hlength]
  exact hunify

end CompiledRule

end Entailment
