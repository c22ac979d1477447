import Entailment.Proofs.Forward.Exactness
import Entailment.Proofs.Forward.Recording

/-!
# The index agrees with a scan

Patterns of one shape share a test, and tests are looked up by the predicate of the
triple.  Where the predicate of a pattern is plain, the lookup finds the test, and the
test passes exactly for the triples that the pattern itself can be matched with.  So a
triple activates the levels that a scan of all rules finds, in the order of the scan,
apart from those whose predicate is a functor that is not ground.
-/

namespace Entailment

namespace Subscriber

/-- By rule and then by level, and not the same. -/
def Before (s t : Subscriber) : Prop := s.rule < t.rule ∨ s.rule = t.rule ∧ s.level < t.level

theorem precedes_iff {s t : Subscriber} :
    s.precedes t = true ↔ s.rule < t.rule ∨ s.rule = t.rule ∧ s.level ≤ t.level := by
  simp [precedes]

theorem precedes_trans (s t u : Subscriber) (h : s.precedes t = true)
    (k : t.precedes u = true) : s.precedes u = true := by
  rw [precedes_iff] at h k ⊢
  omega

theorem precedes_total (s t : Subscriber) : (s.precedes t || t.precedes s) = true := by
  rw [Bool.or_eq_true, precedes_iff, precedes_iff]
  omega

theorem before_of_precedes {s t : Subscriber} (h : s.precedes t = true) (hne : s ≠ t) :
    s.Before t := by
  rw [precedes_iff] at h
  rcases h with h | ⟨hrule, hlevel⟩
  · exact Or.inl h
  · refine Or.inr ⟨hrule, Nat.lt_of_le_of_ne hlevel fun h => hne ?_⟩
    cases s
    cases t
    simp_all

end Subscriber

theorem eraseDups_sublist {α : Type} [BEq α] : ∀ as : List α, as.eraseDups.Sublist as
  | [] => .slnil
  | a :: as => by
      rw [List.eraseDups_cons]
      exact ((eraseDups_sublist (as.filter fun b => !b == a)).trans List.filter_sublist).cons_cons a
termination_by as => as.length
decreasing_by
  exact Nat.lt_succ_of_le (List.length_filter_le ..)

namespace SharedPattern

/-- What a shared test accepts fits each pattern of its shape. -/
theorem exists_fits_of_accepts {q : SharedPattern} {p t : Triple}
    (hsame : (q.shape == p.shape) = true) (ht : t.isGround = true)
    (h : q.accepts t = true) : ∃ σ, p.Fits σ t := by
  rw [accepts, Option.isSome_iff_exists] at h
  obtain ⟨b, hb⟩ := h
  have hfits : q.shape.Fits b.assignment t :=
    ((Bindings.ground_empty q.varCount).matched ht hb).fits
  exact Triple.fits_of_shape_fits (Triple.fits_of_beq hsame hfits)

theorem accepts_of_beq {q : SharedPattern} {t u : Triple} (ht : t.isGround = true)
    (hsame : (t == u) = true) (h : q.accepts t = true) : q.accepts u = true := by
  rw [accepts, Option.isSome_iff_exists] at h ⊢
  obtain ⟨b, hb⟩ := h
  exact (Bindings.ground_empty q.varCount).exists_matching?_congr ht hsame hb

end SharedPattern

namespace Bindings

/-- On its own a pattern can be matched with what fits it. -/
theorem isSome_matching?_empty {size : Nat} {p t : Triple} (ht : t.isGround = true)
    (hvars : ∀ i ∈ p.indexes, i < size) :
    ((empty size).matching? p t).isSome = true ↔ ∃ σ, p.Fits σ t := by
  rw [Option.isSome_iff_exists]
  constructor
  · rintro ⟨b, hb⟩
    exact ⟨b.assignment, ((ground_empty size).matched ht hb).fits⟩
  · rintro ⟨σ, hσ⟩
    refine (ground_empty size).exists_matching? ht ?_ ?_ hσ
    · intro i hi
      rw [length_empty]
      exact hvars i hi
    · intro i n h
      rw [held?_empty] at h
      cases h

end Bindings

namespace Network

/-- The pattern of the level can be matched with the triple, whatever the other levels
of its rule ask for. -/
def Meets (rules : List Rule) (t : Triple) (s : Subscriber) : Prop :=
  ∃ rule p, rules[s.rule]? = some rule ∧ rule.patterns[s.level]? = some p ∧
    ((Bindings.empty rule.numVars).matching? p.2 t).isSome = true

/-- The predicate of the level's pattern is open altogether or not at all. -/
def PlainAt (rules : List Rule) (s : Subscriber) : Prop :=
  ∃ rule p, rules[s.rule]? = some rule ∧ rule.patterns[s.level]? = some p ∧
    p.2.hasPlainPredicate = true

/-- The subscribers come by rule and level, and none comes twice. -/
theorem pairwise_activations (n : Network) (t : Triple) :
    (n.activations t).Pairwise Subscriber.Before := by
  rw [activations]
  set found := (((n.candidates t.predicate).filterMap fun place => n.patterns[place]?).filter
    (·.accepts t)).flatMap SharedPattern.subscribers
  have hsorted : (found.mergeSort Subscriber.precedes).Pairwise
      fun s t => s.precedes t = true :=
    List.pairwise_mergeSort Subscriber.precedes_trans Subscriber.precedes_total found
  have hnodup : (found.mergeSort Subscriber.precedes).eraseDups.Pairwise (· ≠ ·) :=
    nodup_eraseDups _
  exact ((hsorted.sublist (eraseDups_sublist _)).and hnodup).imp
    fun h => Subscriber.before_of_precedes h.1 h.2

/-- Equal triples activate the same subscribers. -/
theorem activations_congr (n : Network) {t u : Triple} (ht : t.isGround = true)
    (hsame : (t == u) = true) : n.activations t = n.activations u := by
  have hu : u.isGround = true := Triple.isGround_congr hsame ▸ ht
  have hcandidates : n.candidates t.predicate = n.candidates u.predicate := by
    rw [candidates, candidates, n.byPredicate.get?_congr (Triple.beq_iff.1 hsame).2.1]
  have haccepts : (fun q : SharedPattern => q.accepts t) = fun q => q.accepts u := by
    funext q
    rw [Bool.eq_iff_iff]
    exact ⟨SharedPattern.accepts_of_beq ht hsame,
      SharedPattern.accepts_of_beq hu (BEq.symm hsame)⟩
  rw [activations, activations, hcandidates, haccepts]

/-- What is activated has a pattern that the triple fits. -/
theorem Wired.exists_fits_of_mem_activations {n : Network} (hn : n.Wired) {t : Triple}
    {s : Subscriber} (ht : t.isGround = true) (h : s ∈ n.activations t) :
    ∃ c p, n.rule? s.rule = some c ∧ c.patterns[s.level]? = some p ∧ ∃ σ, p.2.Fits σ t := by
  rw [activations, List.mem_eraseDups, List.mem_mergeSort] at h
  obtain ⟨q, hq, hs⟩ := List.mem_flatMap.1 h
  obtain ⟨hfound, haccepts⟩ := List.mem_filter.1 hq
  obtain ⟨place, _, hget⟩ := List.mem_filterMap.1 hfound
  have hmem : q ∈ n.patterns := List.mem_of_getElem? hget
  obtain ⟨origin, hshape, _⟩ := hn.filed.shaped q hmem
  have hself : (q.shape == origin.shape) = true := by
    rw [hshape]
    exact BEq.rfl
  obtain ⟨c, p, hc, hp, hsame⟩ := hn.origin origin s ⟨q, hmem, hself, hs⟩
  exact ⟨c, p, hc, hp,
    SharedPattern.exists_fits_of_accepts (BEq.trans hself hsame) ht haccepts⟩

/-- A ground triple activates just the levels whose patterns can be matched with it and
have plain predicates. -/
theorem activations_agree_with_scan {rules : List Rule} {registry : Registry} {n : Network}
    (hn : compile rules registry = .ok n)
    (hmade : ∀ rule ∈ rules, ∃ name body head, rule = .make name body head .forward)
    {t : Triple} (ht : t.isGround = true) :
    (n.activations t).Pairwise Subscriber.Before ∧
      ∀ s, s ∈ n.activations t ↔ Meets rules t s ∧ PlainAt rules s := by
  refine ⟨n.pairwise_activations t, fun s => ?_⟩
  obtain ⟨hwired, _, hrules⟩ := compile_eq_ok hn
  have hslotted := slotted_of_made hn hmade
  have hrule : ∀ c, n.rule? s.rule = some c ↔
      ∃ rule, rules[s.rule]? = some rule ∧ CompiledRule.ofRule registry rule = c := by
    intro c
    rw [rule?, hrules, List.getElem?_map, Option.map_eq_some_iff]
  constructor
  · intro hs
    obtain ⟨c, p, hc, hp, hfits⟩ := Wired.exists_fits_of_mem_activations hwired ht hs
    obtain ⟨c', p', hc', hp', hplain⟩ := hwired.plain_of_mem_activations ht hs
    obtain rfl := Option.some.inj (hc.symm.trans hc')
    obtain rfl := Option.some.inj (hp.symm.trans hp')
    have hvars := hslotted s.rule c s.level p hc hp
    obtain ⟨rule, hget, rfl⟩ := (hrule c).1 hc
    exact ⟨⟨rule, p, hget, hp, (Bindings.isSome_matching?_empty ht hvars).2 hfits⟩,
      rule, p, hget, hp, hplain⟩
  · rintro ⟨⟨rule, p, hget, hp, hmatch⟩, rule', p', hget', hp', hplain⟩
    obtain rfl := Option.some.inj (hget.symm.trans hget')
    obtain rfl := Option.some.inj (hp.symm.trans hp')
    have hc : n.rule? s.rule = some (CompiledRule.ofRule registry rule) :=
      (hrule _).2 ⟨rule, hget, rfl⟩
    have hvars := hslotted s.rule _ s.level p hc hp
    obtain ⟨σ, hσ⟩ := (Bindings.isSome_matching?_empty ht hvars).1 hmatch
    exact hwired.filed.mem_activations ((hwired.rule _ _ hc).listens s.level p hp) hplain ht hσ

/-! ## Patterns that share a test -/

/-- The patterns of the first rule have one shape, which the pattern of the second rule,
with its repeated variable, has not. -/
def coupling : List Rule :=
  [.make none
    [.pattern ⟨.var ⟨"x", 0⟩, .uri "p", .var ⟨"y", 1⟩⟩,
      .pattern ⟨.var ⟨"y", 1⟩, .uri "p", .var ⟨"x", 0⟩⟩]
    [.pattern ⟨.var ⟨"x", 0⟩, .uri "q", .var ⟨"y", 1⟩⟩] .forward,
  .make none [.pattern ⟨.var ⟨"z", 0⟩, .uri "p", .var ⟨"z", 0⟩⟩]
    [.pattern ⟨.var ⟨"z", 0⟩, .uri "r", .var ⟨"z", 0⟩⟩] .forward]

def couplingNetwork : Network := ((compile coupling Registry.standard).toOption).getD default

def loop : Triple := ⟨.uri "a", .uri "p", .uri "a"⟩

/-- All three levels are activated by a loop, and they come in their order. -/
theorem activations_loop :
    (couplingNetwork.activations loop).Pairwise Subscriber.Before ∧
      ∀ s ∈ [(⟨0, 0⟩ : Subscriber), ⟨0, 1⟩, ⟨1, 0⟩], s ∈ couplingNetwork.activations loop := by
  have hn : compile coupling Registry.standard = .ok couplingNetwork :=
    ok_getD_of_isSome (by decide +kernel)
  have hground : loop.isGround = true := by decide
  have hmade : ∀ rule ∈ coupling, ∃ name body head, rule = .make name body head .forward := by
    intro rule hrule
    rcases List.mem_cons.1 hrule with rfl | hrule
    · exact ⟨_, _, _, rfl⟩
    · obtain rfl := List.mem_singleton.1 hrule
      exact ⟨_, _, _, rfl⟩
  obtain ⟨hsorted, hmem⟩ := activations_agree_with_scan hn hmade hground
  refine ⟨hsorted, fun s hs => (hmem s).2 ?_⟩
  simp only [List.mem_cons, List.not_mem_nil, or_false] at hs
  rcases hs with rfl | rfl | rfl <;>
    exact ⟨⟨_, _, rfl, rfl, by decide +kernel⟩, _, _, rfl, rfl, by decide +kernel⟩

/-! ## A predicate that is looked up in vain -/

/-- The predicate of the pattern is a functor with a variable in it. -/
def veiled : Rule :=
  .make none [.pattern ⟨.var ⟨"a", 0⟩, .functor "f" [.var ⟨"x", 1⟩], .var ⟨"c", 2⟩⟩]
    [.pattern ⟨.var ⟨"a", 0⟩, .uri "q", .var ⟨"c", 2⟩⟩] .forward

def veiledNetwork : Network := ((compile [veiled] Registry.standard).toOption).getD default

def veiledFact : Triple := ⟨.uri "s", .functor "f" [.literal (.integer 1)], .uri "o"⟩

/-- A pattern under an open functor is filed where no triple looks it up. -/
theorem not_activated_veiled :
    compile [veiled] Registry.standard = .ok veiledNetwork ∧ veiledFact.isGround = true ∧
      Meets [veiled] veiledFact ⟨0, 0⟩ ∧ ⟨0, 0⟩ ∉ veiledNetwork.activations veiledFact := by
  refine ⟨ok_getD_of_isSome (by decide +kernel), by decide, ?_, by decide +kernel⟩
  exact ⟨veiled, _, rfl, rfl, by decide +kernel⟩

end Network

end Entailment
