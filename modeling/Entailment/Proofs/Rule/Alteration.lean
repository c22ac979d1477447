import Entailment.Proofs.Builtin.Tests
import Entailment.Proofs.Rule.Renaming
import Entailment.Proofs.Rule.Valuation

/-!
# Renamed rules conclude the same

A rule and one with other variables have the same conclusions from any triples, when the
renaming is one to one and the calls do not tell variables apart.  Turning a rule round
renames its variables, since they are numbered anew.
-/

namespace Entailment

namespace Rule

/-- The clauses of the second rule are those of the first with other variables, which
are one to one by their numbers. -/
structure RenamedTo (r : Rule) (f : Var → Var) (r' : Rule) : Prop where
  body : r'.body = r.body.map (Clause.renamed f)
  head : r'.head = r.head.map (Clause.renamed f)
  faithful : ∀ v ∈ r.vars, ∀ w ∈ r.vars, v.index = w.index ↔ (f v).index = (f w).index
  slots : ∀ v ∈ r.vars, v.index < r.numVars ∧ (f v).index < r'.numVars

/-- The calls of the body are to tests that do not tell variables apart, and have no
functors as arguments. -/
def AsksTests (r : Rule) (registry : Registry) : Prop :=
  ∀ c, Clause.call c ∈ r.body → (∃ b, registry.get? c.name = some b ∧ b.IsBlindTest) ∧
    ∀ n ∈ c.args, n.isFunctor = false

/-- The assignments give a variable and its image the same value. -/
def Corresponds (r : Rule) (f : Var → Var) (τ σ : Assignment) : Prop :=
  ∀ v ∈ r.vars, σ (f v).index = τ v.index

namespace RenamedTo

variable {r r' : Rule} {f : Var → Var} {σ τ : Assignment} {registry : Registry}

theorem exists_image (h : r.RenamedTo f r') (τ : Assignment) : ∃ σ, r.Corresponds f τ σ := by
  refine ⟨fun i => ((r.vars.find? fun v => (f v).index == i).map fun v => τ v.index).getD .any,
    fun v hv => ?_⟩
  cases hfind : r.vars.find? fun w => (f w).index == (f v).index with
  | none => exact absurd (List.find?_eq_none.1 hfind v hv) (by simp)
  | some w =>
      have hw := List.mem_of_find?_eq_some hfind
      have hplace := List.find?_some hfind
      have hindex := (h.faithful w hw v hv).2 (beq_iff_eq.1 hplace)
      simp only [hfind, Option.map_some, Option.getD_some]
      exact congrArg τ hindex

theorem exists_preimage (h : r.RenamedTo f r') (σ : Assignment) : ∃ τ, r.Corresponds f τ σ := by
  refine ⟨fun i => ((r.vars.find? fun v => v.index == i).map fun v => σ (f v).index).getD .any,
    fun v hv => ?_⟩
  cases hfind : r.vars.find? fun w => w.index == v.index with
  | none => exact absurd (List.find?_eq_none.1 hfind v hv) (by simp)
  | some w =>
      have hw := List.mem_of_find?_eq_some hfind
      have hplace := List.find?_some hfind
      have hindex := (h.faithful w hw v hv).1 (beq_iff_eq.1 hplace)
      simp only [hfind, Option.map_some, Option.getD_some]
      exact congrArg σ hindex.symm

theorem mem_boundIndexes_iff (h : r.RenamedTo f r') {v : Var} (hv : v ∈ r.vars) :
    (f v).index ∈ r'.boundIndexes ↔ v.index ∈ r.boundIndexes := by
  rw [Rule.mem_boundIndexes_iff, Rule.mem_boundIndexes_iff, h.body]
  constructor
  · rintro ⟨q, hq, hi⟩
    obtain ⟨p, hp, rfl⟩ := pattern_mem_renamed.1 hq
    rw [Triple.indexes, Triple.vars_renamed, List.map_map] at hi
    obtain ⟨w, hw, hindex⟩ := List.mem_map.1 hi
    have hsame := (h.faithful w (mem_vars_of_body (c := .pattern p) hp hw) v hv).2 hindex
    exact ⟨p, hp, List.mem_map.2 ⟨w, hw, hsame⟩⟩
  · rintro ⟨p, hp, hi⟩
    obtain ⟨w, hw, hindex⟩ := List.mem_map.1 hi
    refine ⟨_, pattern_mem_renamed.2 ⟨p, hp, rfl⟩, ?_⟩
    rw [Triple.indexes, Triple.vars_renamed, List.map_map]
    exact List.mem_map.2 ⟨w, hw, (h.faithful w (mem_vars_of_body (c := .pattern p) hp hw) v hv).1 hindex⟩

/-- A call sees the same values, and variables where it has none. -/
theorem resolvedArgs_likeKnown (h : r.RenamedTo f r') (hcorr : r.Corresponds f τ σ)
    (hsimple : ∀ i ∈ r.boundIndexes, (τ i).Simple) {args : List Node}
    (hflat : ∀ n ∈ args, n.isFunctor = false) (hvars : ∀ v ∈ Node.varsAll args, v ∈ r.vars) :
    List.Forall₂ Node.LikeKnown
      ((Node.substAll (fun v => .var (f v)) args).map fun a => ((r'.environment σ).resolve a).getD a)
      (args.map fun a => ((r.environment τ).resolve a).getD a) := by
  induction args with
  | nil => exact .nil
  | cons n args ih =>
      rw [Node.varsAll] at hvars
      refine .cons ?_ (ih (fun n hn => hflat n (List.mem_cons_of_mem _ hn))
        fun v hv => hvars v (List.mem_append_right _ hv))
      have hn := hflat n List.mem_cons_self
      cases n with
      | functor g args => cases hn
      | var v =>
          have hv := hvars v (List.mem_append_left _ (List.mem_singleton.2 rfl))
          have hslots := h.slots v hv
          have hvalue := hcorr v hv
          by_cases hbound : v.index ∈ r.boundIndexes
          · have hv' := hsimple v.index hbound
            have hleft := resolve_environment (r := r') (σ := σ) (v := f v) hslots.2
              ((h.mem_boundIndexes_iff hv).2 hbound) (hvalue.symm ▸ hv')
            have hright := resolve_environment (v := v) hslots.1 hbound hv'
            left
            change (((r'.environment σ).resolve (.var (f v))).getD _ ==
              ((r.environment τ).resolve (.var v)).getD _) = true
            rw [hleft, hright, Option.getD_some, Option.getD_some, hvalue]
            exact BEq.rfl
          · have hleft := resolve_environment_of_not_mem (r := r') (σ := σ) (v := f v)
              fun hmem => hbound ((h.mem_boundIndexes_iff hv).1 hmem)
            have hright := resolve_environment_of_not_mem (σ := τ) hbound
            right
            change Node.isVariable (((r'.environment σ).resolve (.var (f v))).getD _) = true ∧
              Node.isVariable (((r.environment τ).resolve (.var v)).getD _) = true
            rw [hleft, hright]
            exact ⟨rfl, rfl⟩
      | _ => exact Or.inl BEq.rfl

theorem passes_iff (h : r.RenamedTo f r') (hasks : r.AsksTests registry)
    (hcorr : r.Corresponds f τ σ) (hsimple : ∀ i ∈ r.boundIndexes, (τ i).Simple) {c : Call}
    (hc : Clause.call c ∈ r.body) :
    (c.renamed f).Passes registry (r'.environment σ) ↔
      c.Passes registry (r.environment τ) := by
  obtain ⟨⟨_, hget, name, arity, test, rfl, hblind⟩, hflat⟩ := hasks c hc
  have hlike := h.resolvedArgs_likeKnown hcorr hsimple hflat fun v hv =>
    mem_vars_of_body (c := .call c) hc hv
  have hget' : registry.get? (c.renamed f).name = some (.ofTest name arity test) := hget
  rw [Call.passes_iff hget, Call.passes_iff hget']
  exact iff_of_eq (congrArg (· = true) (hblind _ _ hlike))

theorem applies_iff (h : r.RenamedTo f r') (hasks : r.AsksTests registry)
    (hcorr : r.Corresponds f τ σ) {S : Set Triple} (hS : ∀ t ∈ S, t.MadeOf Node.Simple) :
    r'.Applies registry S σ ↔ r.Applies registry S τ := by
  have hfits : ∀ p, Clause.pattern p ∈ r.body → ∀ t, (p.renamed f).Fits σ t ↔ p.Fits τ t := by
    intro p hp t
    refine Triple.fits_renamed_iff fun v hv => ?_
    rw [hcorr v (mem_vars_of_body (c := .pattern p) hp hv)]
    exact BEq.rfl
  have hpatterns : (∀ p, Clause.pattern p ∈ r'.body → ∃ t ∈ S, p.Fits σ t) ↔
      ∀ p, Clause.pattern p ∈ r.body → ∃ t ∈ S, p.Fits τ t := by
    rw [h.body]
    constructor
    · intro hall p hp
      obtain ⟨t, ht, hfit⟩ := hall _ (pattern_mem_renamed.2 ⟨p, hp, rfl⟩)
      exact ⟨t, ht, (hfits p hp t).1 hfit⟩
    · intro hall q hq
      obtain ⟨p, hp, rfl⟩ := pattern_mem_renamed.1 hq
      obtain ⟨t, ht, hfit⟩ := hall p hp
      exact ⟨t, ht, (hfits p hp t).2 hfit⟩
  constructor
  · intro happlies
    have hbody := hpatterns.1 happlies.patterns
    refine ⟨hbody, fun c hc => ?_⟩
    refine (h.passes_iff hasks hcorr (simple_of_fits hbody hS) hc).1 (happlies.calls _ ?_)
    rw [h.body]
    exact call_mem_renamed.2 ⟨c, hc, rfl⟩
  · intro happlies
    refine ⟨hpatterns.2 happlies.patterns, fun c' hc' => ?_⟩
    rw [h.body] at hc'
    obtain ⟨c, hc, rfl⟩ := call_mem_renamed.1 hc'
    exact (h.passes_iff hasks hcorr (simple_of_fits happlies.patterns hS) hc).2
      (happlies.calls c hc)

/-- Renaming leaves the conclusions as they are. -/
theorem conclusions_eq (h : r.RenamedTo f r') (hasks : r.AsksTests registry) {S : Set Triple}
    (hS : ∀ t ∈ S, t.MadeOf Node.Simple) : r'.conclusions registry S = r.conclusions registry S := by
  have hhead : ∀ {σ τ : Assignment}, r.Corresponds f τ σ → ∀ t,
      (∃ k, Clause.pattern k ∈ r'.head ∧ k.Fits σ t) ↔
        ∃ k, Clause.pattern k ∈ r.head ∧ k.Fits τ t := by
    intro σ τ hcorr t
    have hfits : ∀ k, Clause.pattern k ∈ r.head → ((k.renamed f).Fits σ t ↔ k.Fits τ t) := by
      intro k hk
      refine Triple.fits_renamed_iff fun v hv => ?_
      rw [hcorr v (mem_vars_of_head (c := .pattern k) hk hv)]
      exact BEq.rfl
    rw [h.head]
    constructor
    · rintro ⟨_, hk', hfit⟩
      obtain ⟨k, hk, rfl⟩ := pattern_mem_renamed.1 hk'
      exact ⟨k, hk, (hfits k hk).1 hfit⟩
    · rintro ⟨k, hk, hfit⟩
      exact ⟨_, pattern_mem_renamed.2 ⟨k, hk, rfl⟩, (hfits k hk).2 hfit⟩
  ext t
  constructor
  · rintro ⟨σ, happlies, hconcludes⟩
    obtain ⟨τ, hcorr⟩ := h.exists_preimage σ
    exact ⟨τ, (h.applies_iff hasks hcorr hS).1 happlies, (hhead hcorr t).1 hconcludes⟩
  · rintro ⟨τ, happlies, hconcludes⟩
    obtain ⟨σ, hcorr⟩ := h.exists_image τ
    exact ⟨σ, (h.applies_iff hasks hcorr hS).2 happlies, (hhead hcorr t).2 hconcludes⟩

end RenamedTo

/-! ## Rules turned round -/

/-- Turning a rule round numbers its variables anew. -/
theorem renamedTo_withDirection {r : Rule} (hmade : r.Made) (direction : Direction) :
    ∃ f, r.RenamedTo f (r.withDirection direction) := by
  obtain ⟨hslots, hnumbered⟩ := hmade.numbered
  -- The number of a variable is the place of its name in the one list and in the other.
  have hcovered : ∀ v ∈ r.vars, v.name ∈ slotNames direction r.body r.head :=
    fun v hv => name_mem_slotNames direction hv
  refine ⟨Numbering.place (slotNames direction r.body r.head), ?_⟩
  rw [withDirection, make_eq]
  refine ⟨rfl, rfl, fun v hv w hw => ?_, fun v hv => ⟨?_, List.idxOf_lt_length_iff.2 (hcovered v hv)⟩⟩
  · rw [(hnumbered v hv).2, (hnumbered w hw).2]
    exact (List.idxOf_inj (hnumbered v hv).1).trans (List.idxOf_inj (hcovered v hv)).symm
  · rw [hslots, (hnumbered v hv).2]
    exact List.idxOf_lt_length_iff.2 (hnumbered v hv).1

end Rule

/-! ## What follows -/

section Consequences

variable {rules rules' : List Rule} {registry : Registry} {stored : Set Triple}

/-- If other rules conclude at least what these do, at least as much follows from them. -/
theorem consequences_subset (hrules : ∀ r ∈ rules, r.Determined)
    (hstored : ∀ t ∈ stored, t.MadeOf Node.Simple)
    (h : ∀ r ∈ rules, ∃ r' ∈ rules', ∀ S : Set Triple, (∀ t ∈ S, t.MadeOf Node.Simple) →
      r.conclusions registry S ⊆ r'.conclusions registry S) :
    consequences rules registry stored ⊆ consequences rules' registry stored := by
  have hheights : ∀ height,
      derivable rules registry stored height ⊆ derivable rules' registry stored height := by
    intro height
    induction height with
    | zero => exact fun _ ht => ht
    | succ height ih =>
        rintro t (ht | ⟨r, hr, ht⟩)
        · exact Or.inl ht
        · obtain ⟨r', hr', hconclusions⟩ := h r hr
          have hsimple : ∀ t ∈ derivable rules registry stored height, t.MadeOf Node.Simple :=
            simple_of_derivable hrules hstored height
          exact Or.inr ⟨r', hr', Rule.conclusions_mono ih (hconclusions _ hsimple ht)⟩
  exact fun t ⟨height, ht⟩ => ⟨height, hheights height ht⟩

end Consequences

end Entailment
