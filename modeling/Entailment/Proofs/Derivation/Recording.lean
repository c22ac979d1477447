import Entailment.Proofs.Collection.Lookup
import Entailment.Derivation.Log
import Entailment.Forward.Network

namespace Entailment

instance : EquivBEq Clause where
  rfl {c} := by
    cases c with
    | pattern t => exact (BEq.rfl : (t == t) = true)
    | call c => exact (BEq.rfl : (c.toNode == c.toNode) = true)
  symm {c d} h := by
    cases c <;> cases d
    · exact BEq.symm (α := Triple) h
    · cases h
    · cases h
    · exact BEq.symm (α := Node) h
  trans {c d f} h k := by
    cases c <;> cases d <;> cases f <;>
      first
        | exact BEq.trans (α := Triple) h k
        | exact BEq.trans (α := Node) h k
        | cases h
        | cases k

theorem Rule.beq_iff {r s : Rule} : (r == s) = true ↔
    r.direction = s.direction ∧ (r.body == s.body) = true ∧ (r.head == s.head) = true := by
  change (r.direction == s.direction && r.body == s.body && r.head == s.head) = true ↔ _
  rw [Bool.and_eq_true, Bool.and_eq_true, and_assoc, beq_iff_eq]

instance : EquivBEq Rule where
  rfl := Rule.beq_iff.2 ⟨rfl, BEq.rfl, BEq.rfl⟩
  symm h :=
    have ⟨hdirection, hbody, hhead⟩ := Rule.beq_iff.1 h
    Rule.beq_iff.2 ⟨hdirection.symm, BEq.symm hbody, BEq.symm hhead⟩
  trans h k :=
    have ⟨hdirection, hbody, hhead⟩ := Rule.beq_iff.1 h
    have ⟨kdirection, kbody, khead⟩ := Rule.beq_iff.1 k
    Rule.beq_iff.2 ⟨hdirection.trans kdirection, BEq.trans hbody kbody, BEq.trans hhead khead⟩

theorem Derivation.beq_iff {d d' : Derivation} : (d == d') = true ↔
    (d.conclusion == d'.conclusion) = true ∧ (d.rule == d'.rule) = true ∧
      (d.antecedents == d'.antecedents) = true := by
  change (d.conclusion == d'.conclusion && d.rule == d'.rule &&
    d.antecedents == d'.antecedents) = true ↔ _
  rw [Bool.and_eq_true, Bool.and_eq_true, and_assoc]

instance : EquivBEq Derivation where
  rfl := Derivation.beq_iff.2 ⟨BEq.rfl, BEq.rfl, BEq.rfl⟩
  symm h :=
    have ⟨hconclusion, hrule, hantecedents⟩ := Derivation.beq_iff.1 h
    Derivation.beq_iff.2 ⟨BEq.symm hconclusion, BEq.symm hrule, BEq.symm hantecedents⟩
  trans h k :=
    have ⟨hconclusion, hrule, hantecedents⟩ := Derivation.beq_iff.1 h
    have ⟨kconclusion, krule, kantecedents⟩ := Derivation.beq_iff.1 k
    Derivation.beq_iff.2 ⟨BEq.trans hconclusion kconclusion, BEq.trans hrule krule,
      BEq.trans hantecedents kantecedents⟩

/-! ## The log -/

namespace DerivationLog

variable {log : DerivationLog} {d x : Derivation} {t u : Triple}

theorem get_congr (log : DerivationLog) (h : (t == u) = true) : log.get t = log.get u := by
  rw [get, get, log.entries.get?_congr h]

theorem get_record (log : DerivationLog) (d : Derivation) (t : Triple) :
    (log.record d).2.get t =
      if (d.conclusion == t) = true ∧ (log.get t).contains d = false then log.get t ++ [d]
      else log.get t := by
  unfold record
  cases hsame : d.conclusion == t with
  | false =>
      simp only [Bool.false_eq_true, false_and, if_false]
      split
      · rfl
      · change ((log.entries.alter d.conclusion _).get? t).getD [] = _
        rw [OrderedMap.get?_alter, hsame]
        rfl
  | true =>
      rw [log.get_congr hsame]
      cases hknown : (log.get t).contains d with
      | true => rfl
      | false =>
          change ((log.entries.alter d.conclusion _).get? t).getD [] = _
          rw [OrderedMap.get?_alter, hsame]
          rfl

theorem mem_get_record (h : x ∈ (log.record d).2.get t) :
    x ∈ log.get t ∨ x = d ∧ (d.conclusion == t) = true := by
  rw [get_record] at h
  split at h
  · rename_i hnew
    rcases List.mem_append.1 h with h | h
    · exact Or.inl h
    · exact Or.inr ⟨List.mem_singleton.1 h, hnew.1⟩
  · exact Or.inl h

theorem mem_get_record_of_mem (h : x ∈ log.get t) : x ∈ (log.record d).2.get t := by
  rw [get_record]
  split
  · exact List.mem_append_left _ h
  · exact h

/-- A derivation that is recorded is there, or one that is equal. -/
theorem exists_get_record (log : DerivationLog) (d : Derivation) :
    ∃ x ∈ (log.record d).2.get d.conclusion, (x == d) = true := by
  rw [get_record]
  split
  · exact ⟨d, List.mem_append_right _ (List.mem_singleton.2 rfl), BEq.rfl⟩
  · rename_i hold
    have hknown : (log.get d.conclusion).contains d = true := by
      by_contra hnot
      exact hold ⟨BEq.rfl, Bool.eq_false_iff.2 hnot⟩
    obtain ⟨x, hx, hsame⟩ := List.contains_iff_exists_mem_beq.1 hknown
    exact ⟨x, hx, BEq.symm hsame⟩

theorem mem_get_remove : x ∈ (log.remove d).2.get t ↔
    x ∈ log.get t ∧ ¬ ((d.conclusion == t) = true ∧ (x == d) = true) := by
  unfold remove
  cases hlist : log.entries.get? d.conclusion with
  | none =>
      refine ⟨fun h => ⟨h, fun hsame => ?_⟩, And.left⟩
      have hnone : log.get t = [] := by
        rw [← log.get_congr hsame.1, get, hlist]
        rfl
      rw [hnone] at h
      cases h
  | some list =>
      change x ∈ ((log.entries.store List.isEmpty d.conclusion _).get? t).getD [] ↔ _
      rw [OrderedMap.get?_store]
      cases hsame : d.conclusion == t with
      | false => exact ⟨fun h => ⟨h, fun hboth => nomatch hboth.1⟩, And.left⟩
      | true =>
          have hget : log.get t = list := by
            rw [← log.get_congr hsame, get, hlist]
            rfl
          rw [if_pos rfl, hget]
          cases hempty : (list.filter fun e => !(e == d)).isEmpty with
          | true =>
              rw [List.isEmpty_iff] at hempty
              rw [if_pos rfl]
              refine ⟨(nomatch ·), fun h => ?_⟩
              have hmem : x ∈ list.filter fun e => !(e == d) := by
                simpa using h
              rw [hempty] at hmem
              cases hmem
          | false => simp

end DerivationLog

/-! ## Derivations of a rule -/

theorem Rule.nodup_positions (r : Rule) : (r.patterns.map Prod.fst).Nodup := by
  have hindexes : r.body.zipIdx.Pairwise fun x y => x.2 ≠ y.2 := by
    have hnodup : (r.body.zipIdx.map Prod.snd).Nodup := by
      rw [List.zipIdx_map_snd]
      exact List.nodup_range'
    exact List.pairwise_map.1 hnodup
  rw [List.Nodup, List.pairwise_map]
  refine hindexes.filterMap _ fun x y hne p hp q hq => ?_
  obtain ⟨_, _, rfl⟩ := Option.map_eq_some_iff.1 hp
  obtain ⟨_, _, rfl⟩ := Option.map_eq_some_iff.1 hq
  exact hne

theorem Rule.position_lt {r : Rule} {p : Nat × Triple} (hp : p ∈ r.patterns) :
    p.1 < r.body.length := by
  obtain ⟨⟨c, i⟩, hmem, hsome⟩ := List.mem_filterMap.1 hp
  obtain ⟨_, _, rfl⟩ := Option.map_eq_some_iff.1 hsome
  exact (List.mem_zipIdx' hmem).1

theorem Rule.mem_patterns_iff_getElem? {r : Rule} {i : Nat} {p : Triple} :
    (i, p) ∈ r.patterns ↔ r.body[i]? = some (.pattern p) := by
  unfold Rule.patterns
  rw [List.mem_filterMap]
  constructor
  · rintro ⟨⟨clause, place⟩, hmem, hsome⟩
    obtain ⟨q, hq, hsame⟩ := Option.map_eq_some_iff.1 hsome
    cases hsame
    rw [List.mk_mem_zipIdx_iff_getElem?] at hmem
    cases clause with
    | pattern t => exact Option.some.inj hq ▸ hmem
    | call c => cases hq
  · intro h
    exact ⟨(.pattern p, i), List.mk_mem_zipIdx_iff_getElem?.2 h, rfl⟩

section Positions

variable {pairs : List ((Nat × Triple) × Triple)} {found : List (Option Triple)}

/-- The facts, each set at the position of its pattern. -/
private def placed (pairs : List ((Nat × Triple) × Triple)) (found : List (Option Triple)) :
    List (Option Triple) :=
  pairs.foldl (fun found (pattern, fact) => found.set pattern.1 (some fact)) found

private theorem getElem?_placed_of_not_mem {i : Nat} (hi : ∀ p ∈ pairs, p.1.1 ≠ i) :
    (placed pairs found)[i]? = found[i]? := by
  induction pairs generalizing found with
  | nil => rfl
  | cons p pairs ih =>
      have hrest : (placed pairs (found.set p.1.1 (some p.2)))[i]? =
          (found.set p.1.1 (some p.2))[i]? := ih fun q hq => hi q (List.mem_cons_of_mem _ hq)
      rw [List.getElem?_set_ne (hi p List.mem_cons_self)] at hrest
      exact hrest

private theorem getElem?_placed (hdistinct : (pairs.map fun p => p.1.1).Nodup)
    (hlt : ∀ p ∈ pairs, p.1.1 < found.length) {p : (Nat × Triple) × Triple} (hp : p ∈ pairs) :
    (placed pairs found)[p.1.1]? = some (some p.2) := by
  induction pairs generalizing found with
  | nil => cases hp
  | cons q pairs ih =>
      rw [List.map_cons, List.nodup_cons] at hdistinct
      rcases List.mem_cons.1 hp with rfl | hp
      · have hrest : (placed pairs (found.set p.1.1 (some p.2)))[p.1.1]? =
            (found.set p.1.1 (some p.2))[p.1.1]? :=
          getElem?_placed_of_not_mem fun q hq hsame =>
            hdistinct.1 (List.mem_map.2 ⟨q, hq, hsame⟩)
        rw [List.getElem?_set_self (hlt p List.mem_cons_self)] at hrest
        exact hrest
      · change (placed pairs (found.set q.1.1 (some q.2)))[p.1.1]? = _
        refine ih hdistinct.2 (fun x hx => ?_) hp
        rw [List.length_set]
        exact hlt x (List.mem_cons_of_mem _ hx)

private theorem length_placed : (placed pairs found).length = found.length := by
  induction pairs generalizing found with
  | nil => rfl
  | cons p pairs ih =>
      have hrest : (placed pairs (found.set p.1.1 (some p.2))).length =
          (found.set p.1.1 (some p.2)).length := ih
      rw [List.length_set] at hrest
      exact hrest

private theorem mem_of_some_mem_placed {t : Triple} (h : some t ∈ placed pairs found) :
    some t ∈ found ∨ t ∈ pairs.map Prod.snd := by
  induction pairs generalizing found with
  | nil => exact Or.inl h
  | cons p pairs ih =>
      rw [List.map_cons, List.mem_cons]
      have hrest : some t ∈ found.set p.1.1 (some p.2) ∨ t ∈ pairs.map Prod.snd := ih h
      rcases hrest with hset | hlater
      · rcases List.mem_or_eq_of_mem_set hset with hfound | hsame
        · exact Or.inl hfound
        · exact Or.inr (Or.inl (Option.some.inj hsame))
      · exact Or.inr (Or.inr hlater)

end Positions

namespace CompiledRule

/-- The derivation of a conclusion from what the rule has matched. -/
def derivation (c : CompiledRule) (ts : List Triple) (t : Triple) : Derivation :=
  ⟨t, c.rule, c.matched ts⟩

theorem getElem?_matched {registry : Registry} {rule : Rule} {c : CompiledRule}
    (hc : c = ofRule registry rule) {ts : List Triple} (hts : ts.length = c.patterns.length)
    {i : Nat} (hi : i < ts.length) (hlevel : i < c.patterns.length) :
    (c.matched ts)[c.patterns[i].1]? = some (some ts[i]) := by
  have hpatterns : c.patterns = rule.patterns := by rw [hc]; rfl
  have hfirst : (c.patterns.zip ts).map Prod.fst = c.patterns :=
    List.map_fst_zip (Nat.le_of_eq hts.symm)
  refine getElem?_placed (p := (c.patterns[i], ts[i])) ?_ ?_ ?_
  · rw [show (fun p : (Nat × Triple) × Triple => p.1.1) = Prod.fst ∘ Prod.fst from rfl,
      ← List.map_map, hfirst, hpatterns]
    exact rule.nodup_positions
  · intro p hp
    have hmem := (List.of_mem_zip hp).1
    rw [List.length_replicate, hc]
    rw [hpatterns] at hmem
    exact Rule.position_lt hmem
  · refine List.mem_iff_getElem.2 ⟨i, ?_, List.getElem_zip⟩
    rw [List.length_zip]
    omega

theorem length_matched (c : CompiledRule) (ts : List Triple) :
    (c.matched ts).length = c.rule.body.length :=
  length_placed.trans List.length_replicate

/-- What has been matched stands at the places of the patterns, and nothing elsewhere. -/
theorem map_isSome_matched {registry : Registry} {rule : Rule} {c : CompiledRule}
    (hc : c = ofRule registry rule) {ts : List Triple} (hts : ts.length = c.levels) :
    (c.matched ts).map Option.isSome = rule.body.map fun clause => clause.pattern?.isSome := by
  have hpatterns : c.patterns = rule.patterns := by rw [hc]; rfl
  have hbody : c.rule.body = rule.body := by rw [hc]; rfl
  refine List.ext_getElem? fun i => ?_
  rw [List.getElem?_map, List.getElem?_map]
  cases hclause : rule.body[i]? with
  | none =>
      have hle := List.getElem?_eq_none_iff.1 hclause
      rw [List.getElem?_eq_none (by rwa [length_matched, hbody])]
      rfl
  | some clause =>
      cases clause with
      | pattern p =>
          obtain ⟨level, hlevel⟩ :=
            List.mem_iff_getElem?.1 (Rule.mem_patterns_iff_getElem?.2 hclause)
          rw [← hpatterns] at hlevel
          obtain ⟨hlt, hget⟩ := List.getElem?_eq_some_iff.1 hlevel
          have hmatched := getElem?_matched hc hts (Nat.lt_of_lt_of_eq hlt hts.symm) hlt
          rw [hget] at hmatched
          rw [hmatched]
          rfl
      | call call =>
          have hfree : (c.matched ts)[i]? = (List.replicate c.rule.body.length none)[i]? := by
            refine getElem?_placed_of_not_mem fun entry hentry hsame => ?_
            have hmem := (List.of_mem_zip hentry).1
            rw [hpatterns] at hmem
            have hpattern := Rule.mem_patterns_iff_getElem?.1 hmem
            rw [hsame, hclause] at hpattern
            cases hpattern
          rw [hfree, List.getElem?_replicate, if_pos]
          · rfl
          · rw [hbody]
            exact (List.getElem?_eq_some_iff.1 hclause).1

/-- Only facts of the token stand at the places of the patterns. -/
theorem mem_of_some_mem_matched {c : CompiledRule} {ts : List Triple} {t : Triple}
    (h : some t ∈ c.matched ts) : t ∈ ts := by
  rcases mem_of_some_mem_placed h with hnone | hplaced
  · exact absurd (List.eq_of_mem_replicate hnone) (Option.some_ne_none t)
  · obtain ⟨entry, hentry, rfl⟩ := List.mem_map.1 hplaced
    exact (List.of_mem_zip hentry).2

/-- What a derivation has matched is the same as facts of its token. -/
theorem exists_mem_of_matchedTriples {c : CompiledRule} {ts : List Triple} {t : Triple}
    {d : Derivation} (h : (d == c.derivation ts t) = true) {m : Triple}
    (hm : m ∈ d.matchedTriples) : ∃ u ∈ ts, (u == m) = true := by
  obtain ⟨_, hfound, rfl⟩ := List.mem_filterMap.1 hm
  obtain ⟨_, _, hsame⟩ := Derivation.beq_iff.1 h
  obtain ⟨place, hplace, hequal⟩ :=
    exists_mem_of_forall₂ (list_beq_iff_forall₂.1 (BEq.symm hsame)) hfound
  cases place with
  | none => cases hequal
  | some u => exact ⟨u, mem_of_some_mem_matched hplace, hequal⟩

/-- What has been matched can be read off a derivation. -/
theorem matched_inj {registry : Registry} {rule : Rule} {c : CompiledRule}
    (hc : c = ofRule registry rule) {ts us : List Triple} (hts : ts.length = c.levels)
    (hus : us.length = c.levels) (h : (c.matched ts == c.matched us) = true) :
    (ts == us) = true := by
  rw [list_beq_iff_forall₂, List.forall₂_iff_get] at h ⊢
  refine ⟨hts.trans hus.symm, fun i hi hi' => ?_⟩
  have hlevel : i < c.patterns.length := Nat.lt_of_lt_of_eq hi hts
  obtain ⟨hlt, hone⟩ := List.getElem?_eq_some_iff.1 (getElem?_matched hc hts hi hlevel)
  obtain ⟨hlt', hother⟩ := List.getElem?_eq_some_iff.1 (getElem?_matched hc hus hi' hlevel)
  have hsame := h.2 _ hlt hlt'
  rw [List.get_eq_getElem, List.get_eq_getElem, hone, hother] at hsame
  exact hsame

end CompiledRule

end Entailment
