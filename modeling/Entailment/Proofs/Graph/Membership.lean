import Entailment.Graph.View
import Entailment.Proofs.Graph.Scan
import Entailment.Proofs.Term.Equality

/-!
# Graphs as sets of triples

An index is sound when its three maps agree and its size counts what it holds.  Every
index that starts empty and is changed by insertions and removals alone is sound, so
that no operation on it fails, and a search finds exactly the stored triples that the
pattern accepts, each once.  Memory graphs and views inherit this.
-/

namespace Entailment

section Counting

variable {α : Type} [BEq α] [EquivBEq α]

/-- A list without repetitions is no longer than one that covers it. -/
theorem length_le_of_covered {as bs : List α} (hdistinct : Distinct as)
    (hcovered : ∀ a ∈ as, bs.any (· == a) = true) : as.length ≤ bs.length := by
  induction as generalizing bs with
  | nil => exact Nat.zero_le _
  | cons a as ih =>
    rw [Distinct, List.pairwise_cons] at hdistinct
    obtain ⟨b, hb, hba⟩ := List.any_eq_true.1 (hcovered a (List.mem_cons_self ..))
    obtain ⟨before, after, rfl⟩ := List.append_of_mem hb
    have hrest : as.length ≤ (before ++ after).length := by
      apply ih hdistinct.2
      intro a' ha'
      obtain ⟨c, hc, hca⟩ := List.any_eq_true.1 (hcovered a' (List.mem_cons_of_mem _ ha'))
      refine List.any_eq_true.2 ⟨c, ?_, hca⟩
      rw [List.mem_append, List.mem_cons] at hc
      rcases hc with hc | rfl | hc
      · exact List.mem_append_left _ hc
      · have clash := hdistinct.1 a' ha'
        rw [BEq.trans (BEq.symm hba) hca] at clash
        cases clash
      · exact List.mem_append_right _ hc
    simp only [List.length_cons, List.length_append] at hrest ⊢
    omega

theorem length_eq_of_same_members {as bs : List α} (has : Distinct as) (hbs : Distinct bs)
    (hsame : ∀ a, as.any (· == a) = bs.any (· == a)) : as.length = bs.length := by
  apply Nat.le_antisymm
  · apply length_le_of_covered has
    intro a ha
    rw [← hsame]
    exact List.any_eq_true.2 ⟨a, ha, BEq.rfl⟩
  · apply length_le_of_covered hbs
    intro b hb
    rw [hsame]
    exact List.any_eq_true.2 ⟨b, hb, BEq.rfl⟩

end Counting

theorem TriplePattern.accepts_congr (p : TriplePattern) {t u : Triple} (h : (t == u) = true) :
    p.accepts t = p.accepts u := by
  obtain ⟨hs, hp, ho⟩ := Triple.beq_iff.1 h
  rw [accepts, accepts, allows_congr hs, allows_congr hp, allows_congr ho]

namespace TripleIndex

/-- The three maps hold the same triples. -/
def Agreeing (index : TripleIndex) : Prop :=
  ∀ s p o, index.pos.holds p o s = index.spo.holds s p o ∧
    index.osp.holds o s p = index.spo.holds s p o

structure Sound (index : TripleIndex) : Prop where
  agreeing : index.Agreeing
  size_eq : index.size = (index.find .any).length

theorem contains_congr (index : TripleIndex) {t u : Triple} (h : (t == u) = true) :
    index.contains t = index.contains u := by
  obtain ⟨hs, hp, ho⟩ := Triple.beq_iff.1 h
  exact Level.holds_congr _ hs hp ho

theorem Agreeing.agrees {index : TripleIndex} (hindex : index.Agreeing) (t : Triple) :
    index.agrees t = true := by
  obtain ⟨hpos, hosp⟩ := hindex t.subject t.predicate t.object
  simp [TripleIndex.agrees, contains, hpos, hosp]

/-! ## Searching -/

theorem Agreeing.mem_find {index : TripleIndex} (hindex : index.Agreeing)
    {p : TriplePattern} {t : Triple} (h : t ∈ index.find p) :
    index.contains t = true ∧ p.accepts t = true := by
  unfold find at h
  unfold contains TriplePattern.accepts
  cases horder : IndexOrder.ofPattern p with
  | spo =>
      rw [horder] at h
      obtain ⟨s, q, o, rfl, held, hs, hq, ho⟩ := Level.mem_scan h
      exact ⟨held, by simp [hs, hq, ho]⟩
  | pos =>
      rw [horder] at h
      obtain ⟨q, o, s, rfl, held, hq, ho, hs⟩ := Level.mem_scan h
      exact ⟨(hindex s q o).1 ▸ held, by simp [hs, hq, ho]⟩
  | osp =>
      rw [horder] at h
      obtain ⟨o, s, q, rfl, held, ho, hs, hq⟩ := Level.mem_scan h
      exact ⟨(hindex s q o).2 ▸ held, by simp [hs, hq, ho]⟩

theorem Agreeing.exists_mem_find {index : TripleIndex} (hindex : index.Agreeing)
    {p : TriplePattern} {t : Triple} (held : index.contains t = true)
    (haccepts : p.accepts t = true) : ∃ u ∈ index.find p, (u == t) = true := by
  unfold contains at held
  unfold TriplePattern.accepts at haccepts
  rw [Bool.and_eq_true, Bool.and_eq_true] at haccepts
  obtain ⟨⟨hs, hq⟩, ho⟩ := haccepts
  obtain ⟨hpos, hosp⟩ := hindex t.subject t.predicate t.object
  unfold find
  cases IndexOrder.ofPattern p with
  | spo =>
      obtain ⟨x, y, z, hmem, hx, hy, hz⟩ := Level.exists_mem_scan held hs hq ho
      exact ⟨_, hmem, Triple.beq_iff.2 ⟨hx, hy, hz⟩⟩
  | pos =>
      obtain ⟨x, y, z, hmem, hx, hy, hz⟩ := Level.exists_mem_scan (hpos.trans held) hq ho hs
      exact ⟨_, hmem, Triple.beq_iff.2 ⟨hz, hx, hy⟩⟩
  | osp =>
      obtain ⟨x, y, z, hmem, hx, hy, hz⟩ := Level.exists_mem_scan (hosp.trans held) ho hs hq
      exact ⟨_, hmem, Triple.beq_iff.2 ⟨hy, hz, hx⟩⟩

theorem distinct_find (index : TripleIndex) (p : TriplePattern) : Distinct (index.find p) := by
  unfold find
  cases IndexOrder.ofPattern p with
  | spo => exact Level.pairwise_scan fun _ _ _ _ _ _ => rfl
  | pos =>
      apply Level.pairwise_scan
      intro q o s q' o' s'
      rw [Triple.beq_mk, Bool.and_assoc, Bool.and_comm]
  | osp =>
      apply Level.pairwise_scan
      intro o s q o' s' q'
      rw [Triple.beq_mk, Bool.and_comm, Bool.and_assoc]

theorem Agreeing.any_find {index : TripleIndex} (hindex : index.Agreeing) (p : TriplePattern)
    (t : Triple) : (index.find p).any (· == t) = (index.contains t && p.accepts t) := by
  rw [Bool.eq_iff_iff, List.any_eq_true, Bool.and_eq_true]
  constructor
  · rintro ⟨u, hu, same⟩
    obtain ⟨held, haccepts⟩ := hindex.mem_find hu
    rw [index.contains_congr same] at held
    rw [p.accepts_congr same] at haccepts
    exact ⟨held, haccepts⟩
  · rintro ⟨held, haccepts⟩
    exact hindex.exists_mem_find held haccepts

theorem Agreeing.any_find_any {index : TripleIndex} (hindex : index.Agreeing) (t : Triple) :
    (index.find .any).any (· == t) = index.contains t := by
  rw [hindex.any_find]
  simp [TriplePattern.accepts, TriplePattern.any, TriplePattern.allows]

/-! ## Inserting and removing -/

theorem sound_empty : Sound empty :=
  ⟨fun _ _ _ => ⟨rfl, rfl⟩, rfl⟩

theorem Sound.insert_eq {index : TripleIndex} (hindex : index.Sound) (t : Triple) :
    ∃ index' : TripleIndex, index.insert t = .ok (!index.contains t, index') ∧ index'.Sound ∧
      ∀ u, index'.contains u = (index.contains u || t == u) := by
  unfold insert
  rw [hindex.agreeing.agrees]
  cases held : index.contains t with
  | true =>
      refine ⟨index, rfl, hindex, ?_⟩
      intro u
      by_cases same : (t == u) = true
      · rw [same, ← index.contains_congr same, held]
        rfl
      · simp [same]
  | false =>
      refine ⟨_, rfl, ?_, fun u => Level.holds_add ..⟩
      have hagreeing : Agreeing
          { spo := index.spo.add t.subject t.predicate t.object
            pos := index.pos.add t.predicate t.object t.subject
            osp := index.osp.add t.object t.subject t.predicate
            size := index.size + 1 } := by
        intro s p o
        obtain ⟨hpos, hosp⟩ := hindex.agreeing s p o
        simp only [Level.holds_add, hpos, hosp]
        constructor
        · rw [Bool.and_comm (t.predicate == p && t.object == o), ← Bool.and_assoc]
        · rw [Bool.and_assoc (t.object == o), Bool.and_comm (t.object == o)]
      refine ⟨hagreeing, ?_⟩
      have hlength := length_eq_of_same_members (distinct_find _ .any)
        ((distinct_find index .any).push (a := t) (by rw [hindex.agreeing.any_find_any, held]))
        (fun u => by
          rw [hagreeing.any_find_any, List.any_append, hindex.agreeing.any_find_any]
          simp only [contains, Level.holds_add, List.any_cons, List.any_nil, Bool.or_false]
          rfl)
      rw [hlength, List.length_append, ← hindex.size_eq]
      rfl

theorem Sound.remove_eq {index : TripleIndex} (hindex : index.Sound) (t : Triple) :
    ∃ index' : TripleIndex, index.remove t = .ok (index.contains t, index') ∧ index'.Sound ∧
      ∀ u, index'.contains u = (index.contains u && !(t == u)) := by
  unfold remove
  rw [hindex.agreeing.agrees]
  cases held : index.contains t with
  | false =>
      refine ⟨index, rfl, hindex, ?_⟩
      intro u
      by_cases same : (t == u) = true
      · rw [same, ← index.contains_congr same, held]
        rfl
      · simp [same]
  | true =>
      refine ⟨_, rfl, ?_, fun u => Level.holds_remove ..⟩
      have hagreeing : Agreeing
          { spo := index.spo.remove t.subject t.predicate t.object
            pos := index.pos.remove t.predicate t.object t.subject
            osp := index.osp.remove t.object t.subject t.predicate
            size := index.size - 1 } := by
        intro s p o
        obtain ⟨hpos, hosp⟩ := hindex.agreeing s p o
        simp only [Level.holds_remove, hpos, hosp]
        constructor
        · rw [Bool.and_comm (t.predicate == p && t.object == o), ← Bool.and_assoc]
        · rw [Bool.and_assoc (t.object == o), Bool.and_comm (t.object == o)]
      refine ⟨hagreeing, ?_⟩
      have habsent : ((find
          { spo := index.spo.remove t.subject t.predicate t.object
            pos := index.pos.remove t.predicate t.object t.subject
            osp := index.osp.remove t.object t.subject t.predicate
            size := index.size - 1 } .any).any (· == t)) = false := by
        rw [hagreeing.any_find_any]
        simp [contains, Level.holds_remove]
      have hlength := length_eq_of_same_members ((distinct_find _ .any).push habsent)
        (distinct_find index .any) (fun u => by
          rw [hindex.agreeing.any_find_any, List.any_append, hagreeing.any_find_any]
          simp only [contains, Level.holds_remove, List.any_cons, List.any_nil, Bool.or_false]
          by_cases same : (t == u) = true
          · have heldU := (index.contains_congr same).symm.trans held
            rw [contains] at heldU
            rw [same, heldU]
            simp
          · have hparts : (t.subject == u.subject && t.predicate == u.predicate &&
                t.object == u.object) = false := Bool.eq_false_iff.2 same
            simp [same, hparts])
      rw [hindex.size_eq, ← hlength, List.length_append]
      rfl

end TripleIndex

end Entailment
