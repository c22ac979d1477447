import Entailment.Proofs.Matching.Shape
import Entailment.Proofs.Rule.Renaming
import Mathlib.Data.Set.Function

/-!
# Similar rules and variants

Two rules are variants when a one-to-one renaming makes the clauses of the one those of
the other.  Variants are similar, since similar rules may differ in their variables, but
similar rules are variants only if their variables recur at the same places.
-/

namespace Entailment

/-! ## Renamed terms are similar -/

/-- What renames two parts, of which the first are of one length, renames the whole. -/
theorem renames_append_iff {A B : Prop} {f : Var → Var} {us us' vs vs' : List Var}
    (hlength : A → us.length = us'.length) :
    (A ∧ us.map f = us') ∧ (B ∧ vs.map f = vs') ↔ (A ∧ B) ∧ (us ++ vs).map f = us' ++ vs' := by
  constructor
  · rintro ⟨⟨ha, rfl⟩, hb, rfl⟩
    exact ⟨⟨ha, hb⟩, List.map_append⟩
  · rintro ⟨⟨ha, hb⟩, h⟩
    rw [List.map_append] at h
    obtain ⟨hus, hvs⟩ := List.append_inj h (by rw [List.length_map, hlength ha])
    exact ⟨⟨ha, hus⟩, hb, hvs⟩

namespace Node

mutual
theorem length_vars_of_similar {m n : Node} (h : m.similar n = true) :
    m.vars.length = n.vars.length := by
  match m, n with
  | .var _, .var _ => rfl
  | .functor f ms, .functor g ns =>
      rw [similar, Bool.and_eq_true] at h
      exact length_varsAll_of_similarAll h.2
  | .uri _, n | .literal _, n | .blank _, n | .any, n => exact congrArg List.length (vars_of_beq h)
  | .var _, .uri _ | .var _, .literal _ | .var _, .blank _ | .var _, .any | .var _, .functor _ _ =>
      exact nomatch h
  | .functor _ _, .uri _ | .functor _ _, .literal _ | .functor _ _, .blank _
  | .functor _ _, .any | .functor _ _, .var _ => exact nomatch h

theorem length_varsAll_of_similarAll {ms ns : List Node} (h : similarAll ms ns = true) :
    (varsAll ms).length = (varsAll ns).length := by
  match ms, ns with
  | [], [] => rfl
  | m :: ms, n :: ns =>
      rw [similarAll, Bool.and_eq_true] at h
      rw [varsAll, varsAll, List.length_append, List.length_append, length_vars_of_similar h.1,
        length_varsAll_of_similarAll h.2]
  | [], _ :: _ => cases h
  | _ :: _, [] => cases h
end

mutual
/-- Renaming makes a node another one if the two are similar and the variables of the
one go, place by place, to those of the other. -/
theorem renamed_beq_iff {f : Var → Var} {m n : Node} :
    ((m.subst fun v => .var (f v)) == n) = true ↔
      m.similar n = true ∧ m.vars.map f = n.vars := by
  match m, n with
  | .var v, .var w =>
      change (f v == w) = true ↔ true = true ∧ [f v] = [w]
      simp
  | .functor g ms, .functor k ns =>
      rw [subst, functor_beq, similar, Bool.and_eq_true, Bool.and_eq_true, renamedAll_beq_iff,
        and_assoc]
      exact Iff.rfl
  | .uri _, n | .literal _, n | .blank _, n | .any, n =>
      exact ⟨fun h => ⟨h, vars_of_beq h⟩, fun h => h.1⟩
  | .var _, .uri _ | .var _, .literal _ | .var _, .blank _ | .var _, .any | .var _, .functor _ _ =>
      exact ⟨(fun h => nomatch h), fun h => nomatch h.1⟩
  | .functor _ _, .uri _ | .functor _ _, .literal _ | .functor _ _, .blank _
  | .functor _ _, .any | .functor _ _, .var _ => exact ⟨(fun h => nomatch h), fun h => nomatch h.1⟩

theorem renamedAll_beq_iff {f : Var → Var} {ms ns : List Node} :
    (substAll (fun v => .var (f v)) ms == ns) = true ↔
      similarAll ms ns = true ∧ (varsAll ms).map f = varsAll ns := by
  match ms, ns with
  | [], [] => exact ⟨fun _ => ⟨rfl, rfl⟩, fun _ => rfl⟩
  | m :: ms, n :: ns =>
      rw [substAll, list_beq_cons, Bool.and_eq_true, renamed_beq_iff, renamedAll_beq_iff,
        renames_append_iff length_vars_of_similar, similarAll, Bool.and_eq_true]
      exact Iff.rfl
  | [], _ :: _ => exact ⟨(fun h => nomatch h), fun h => nomatch h.1⟩
  | _ :: _, [] => exact ⟨(fun h => nomatch h), fun h => nomatch h.1⟩
end

end Node

mutual
/-- Renaming makes no difference to what is similar. -/
theorem Node.similar_renamed (f g : Var → Var) (m n : Node) :
    (m.subst fun v => .var (f v)).similar (n.subst fun v => .var (g v)) = m.similar n := by
  match m, n with
  | .var _, .var _ => rfl
  | .functor h ms, .functor k ns =>
      exact congrArg (h == k && ·) (Node.similarAll_renamed f g ms ns)
  | .uri _, n | .literal _, n | .blank _, n | .any, n => cases n <;> rfl
  | .var _, .uri _ | .var _, .literal _ | .var _, .blank _ | .var _, .any | .var _, .functor _ _ => rfl
  | .functor _ _, .uri _ | .functor _ _, .literal _ | .functor _ _, .blank _
  | .functor _ _, .any | .functor _ _, .var _ => rfl

theorem Node.similarAll_renamed (f g : Var → Var) (ms ns : List Node) :
    Node.similarAll (Node.substAll (fun v => .var (f v)) ms) (Node.substAll (fun v => .var (g v)) ns) =
      Node.similarAll ms ns := by
  match ms, ns with
  | [], [] => rfl
  | [], _ :: _ => rfl
  | _ :: _, [] => rfl
  | m :: ms, n :: ns =>
      exact congrArg₂ and (Node.similar_renamed f g m n) (Node.similarAll_renamed f g ms ns)
end

theorem Clause.similar_renamed (f g : Var → Var) (c d : Clause) :
    (c.renamed f).similar (d.renamed g) = c.similar d := by
  cases c with
  | pattern t =>
      cases d with
      | pattern u =>
          change (_ && _ && _) = (_ && _ && _)
          rw [← Node.similar_renamed f g t.subject, ← Node.similar_renamed f g t.predicate,
            ← Node.similar_renamed f g t.object]
          rfl
      | call d => rfl
  | call c =>
      cases d with
      | pattern u => rfl
      | call d => exact Node.similar_renamed f g c.toNode d.toNode

theorem Triple.renamed_beq_iff {f : Var → Var} {t u : Triple} :
    (t.renamed f == u) = true ↔ t.similar u = true ∧ t.vars.map f = u.vars := by
  have hlength : t.subject.similar u.subject = true ∧ t.predicate.similar u.predicate = true →
      (t.subject.vars ++ t.predicate.vars).length = (u.subject.vars ++ u.predicate.vars).length := by
    rintro ⟨hs, hp⟩
    rw [List.length_append, List.length_append, Node.length_vars_of_similar hs,
      Node.length_vars_of_similar hp]
  rw [beq_iff, similar, Bool.and_eq_true, Bool.and_eq_true, vars, vars,
    ← renames_append_iff hlength, ← renames_append_iff Node.length_vars_of_similar,
    ← Node.renamed_beq_iff, ← Node.renamed_beq_iff, ← Node.renamed_beq_iff, and_assoc]
  exact Iff.rfl

theorem Clause.renamed_beq_iff {f : Var → Var} {c d : Clause} :
    (c.renamed f == d) = true ↔ c.similar d = true ∧ c.vars.map f = d.vars := by
  cases c with
  | pattern t =>
      cases d with
      | pattern u => exact Triple.renamed_beq_iff
      | call d => exact ⟨(fun h => nomatch h), fun h => nomatch h.1⟩
  | call c =>
      cases d with
      | pattern u => exact ⟨(fun h => nomatch h), fun h => nomatch h.1⟩
      | call d => exact Node.renamed_beq_iff (m := c.toNode) (n := d.toNode)

theorem Clause.length_vars_of_similar {c d : Clause} (h : c.similar d = true) :
    c.vars.length = d.vars.length := by
  cases c with
  | pattern t =>
      cases d with
      | pattern u =>
          change (_ && _ && _) = true at h
          rw [Bool.and_eq_true, Bool.and_eq_true] at h
          change (t.subject.vars ++ t.predicate.vars ++ t.object.vars).length =
            (u.subject.vars ++ u.predicate.vars ++ u.object.vars).length
          simp only [List.length_append]
          rw [Node.length_vars_of_similar h.1.1, Node.length_vars_of_similar h.1.2,
            Node.length_vars_of_similar h.2]
      | call d => cases h
  | call c =>
      cases d with
      | pattern u => cases h
      | call d => exact Node.length_vars_of_similar (m := c.toNode) (n := d.toNode) h

namespace Rule

theorem similarAll_cons (c d : Clause) (cs ds : List Clause) :
    similarAll (c :: cs) (d :: ds) = (c.similar d && similarAll cs ds) := by
  simp [similarAll, Bool.and_left_comm]

theorem renamedClauses_beq_iff {f : Var → Var} {cs ds : List Clause} :
    (cs.map (Clause.renamed f) == ds) = true ↔
      similarAll cs ds = true ∧ (cs.flatMap Clause.vars).map f = ds.flatMap Clause.vars := by
  induction cs generalizing ds with
  | nil =>
      cases ds with
      | nil => exact ⟨fun _ => ⟨rfl, rfl⟩, fun _ => rfl⟩
      | cons d ds => exact ⟨(fun h => nomatch h), fun h => nomatch h.1⟩
  | cons c cs ih =>
      cases ds with
      | nil => exact ⟨(fun h => nomatch h), fun h => nomatch h.1⟩
      | cons d ds =>
          rw [List.map_cons, list_beq_cons, Bool.and_eq_true, Clause.renamed_beq_iff, ih,
            renames_append_iff Clause.length_vars_of_similar, similarAll_cons, Bool.and_eq_true,
            List.flatMap_cons, List.flatMap_cons]

theorem similarAll_renamed (f g : Var → Var) (cs ds : List Clause) :
    similarAll (cs.map (Clause.renamed f)) (ds.map (Clause.renamed g)) = similarAll cs ds := by
  induction cs generalizing ds with
  | nil => cases ds <;> rfl
  | cons c cs ih =>
      cases ds with
      | nil => rfl
      | cons d ds =>
          rw [List.map_cons, List.map_cons, similarAll_cons, similarAll_cons, ih,
            Clause.similar_renamed]

theorem length_vars_of_similarAll {cs ds : List Clause} (h : similarAll cs ds = true) :
    (cs.flatMap Clause.vars).length = (ds.flatMap Clause.vars).length := by
  induction cs generalizing ds with
  | nil =>
      cases ds with
      | nil => rfl
      | cons d ds => cases h
  | cons c cs ih =>
      cases ds with
      | nil => cases h
      | cons d ds =>
          rw [similarAll_cons, Bool.and_eq_true] at h
          rw [List.flatMap_cons, List.flatMap_cons, List.length_append, List.length_append,
            Clause.length_vars_of_similar h.1, ih h.2]

/-! ## Variants -/

/-- The renaming makes the clauses of the one rule those of the other, which have the
same direction.  Names of rules do not count. -/
structure Renames (f : Var → Var) (q r : Rule) : Prop where
  direction : q.direction = r.direction
  injective : Set.InjOn f {v | v ∈ q.vars}
  body : (q.body.map (Clause.renamed f) == r.body) = true
  head : (q.head.map (Clause.renamed f) == r.head) = true

/-- The rules are the same up to a one-to-one renaming of variables. -/
def IsVariant (q r : Rule) : Prop := ∃ f, Renames f q r

variable {q r : Rule}

/-- Variants are similar rules whose variables recur at the same places. -/
theorem isVariant_iff :
    q.IsVariant r ↔ q.similar r = true ∧ recurrences q.vars = recurrences r.vars := by
  have hclauses : ∀ f, (q.body.map (Clause.renamed f) == r.body) = true ∧
      (q.head.map (Clause.renamed f) == r.head) = true ↔
        (similarAll q.body r.body = true ∧ similarAll q.head r.head = true) ∧
          q.vars.map f = r.vars := by
    intro f
    rw [renamedClauses_beq_iff, renamedClauses_beq_iff,
      renames_append_iff length_vars_of_similarAll, vars, vars, clauses, clauses,
      List.flatMap_append, List.flatMap_append]
  rw [similar, Bool.and_eq_true, Bool.and_eq_true, ← exists_map_eq_iff, beq_iff_eq]
  constructor
  · rintro ⟨f, hdirection, hinj, hbody, hhead⟩
    obtain ⟨hsimilar, hvars⟩ := (hclauses f).1 ⟨hbody, hhead⟩
    exact ⟨⟨⟨hdirection, hsimilar.1⟩, hsimilar.2⟩, f, hinj, hvars⟩
  · rintro ⟨⟨⟨hdirection, hbody⟩, hhead⟩, f, hinj, hvars⟩
    obtain ⟨hbody, hhead⟩ := (hclauses f).2 ⟨⟨hbody, hhead⟩, hvars⟩
    exact ⟨f, hdirection, hinj, hbody, hhead⟩

end Rule

/-! ## Rule sets -/

namespace RuleSet

variable {s : RuleSet} {r : Rule}

theorem add_eq_false_iff : (s.add r).1 = false ↔ ∃ q ∈ s.rules, q.similar r = true := by
  unfold add
  cases h : s.rules.any fun q => q.similar r with
  | true => exact ⟨fun _ => List.any_eq_true.1 h, fun _ => rfl⟩
  | false =>
      refine ⟨(fun h => nomatch h), fun ⟨q, hq, hsimilar⟩ => ?_⟩
      exact absurd hsimilar (List.any_eq_false.1 h q hq)

/-- Where variables recur alike in similar rules, only variants are refused. -/
theorem add_eq_false_iff_variant
    (h : ∀ q ∈ s.rules, q.similar r = true → recurrences q.vars = recurrences r.vars) :
    (s.add r).1 = false ↔ ∃ q ∈ s.rules, q.IsVariant r := by
  rw [add_eq_false_iff]
  refine exists_congr fun q => and_congr_right fun hq => ?_
  rw [Rule.isVariant_iff]
  exact (and_iff_left_of_imp (h q hq)).symm

theorem rules_add (s : RuleSet) (r : Rule) :
    (∀ q ∈ s.rules, q ∈ (s.add r).2.rules) ∧ (∀ q ∈ (s.add r).2.rules, q ∈ s.rules ∨ q = r) ∧
      ∃ q ∈ (s.add r).2.rules, q = r ∨ q.similar r = true := by
  unfold add
  cases h : s.rules.any fun q => q.similar r with
  | true =>
      obtain ⟨q, hq, hsimilar⟩ := List.any_eq_true.1 h
      exact ⟨fun _ h => h, fun _ => Or.inl, q, hq, Or.inr hsimilar⟩
  | false =>
      refine ⟨fun q hq => List.mem_append_left _ hq, fun q hq => ?_, r, by simp, Or.inl rfl⟩
      exact (List.mem_append.1 hq).imp_right List.mem_singleton.1

/-- What has been collected comes from the list, and for whatever is left out of it
something similar has been kept. -/
theorem rules_ofRules (name : String) (rules : List Rule) :
    (∀ q ∈ (ofRules name rules).rules, q ∈ rules) ∧
      ∀ r ∈ rules, ∃ q ∈ (ofRules name rules).rules, q = r ∨ q.similar r = true := by
  have hfold : ∀ (rules : List Rule) (s s' : RuleSet),
      rules.foldl (fun s r => (s.add r).2) s = s' →
      (∀ q ∈ s.rules, q ∈ s'.rules) ∧ (∀ q ∈ s'.rules, q ∈ s.rules ∨ q ∈ rules) ∧
        ∀ r ∈ rules, ∃ q ∈ s'.rules, q = r ∨ q.similar r = true := by
    intro rules
    induction rules with
    | nil =>
        rintro s _ rfl
        exact ⟨fun _ h => h, fun _ => Or.inl, fun _ h => nomatch h⟩
    | cons r rules ih =>
        intro s s' hs'
        obtain ⟨hkept, hnew, hr⟩ := rules_add s r
        obtain ⟨hkept', hnew', hrules⟩ := ih (s.add r).2 s' hs'
        refine ⟨fun q hq => hkept' q (hkept q hq), fun q hq => ?_, fun q hq => ?_⟩
        · rcases hnew' q hq with hq | hq
          · exact (hnew q hq).imp_right fun h => List.mem_cons.2 (Or.inl h)
          · exact Or.inr (List.mem_cons_of_mem _ hq)
        · rcases List.mem_cons.1 hq with rfl | hq
          · obtain ⟨k, hk, hsimilar⟩ := hr
            exact ⟨k, hkept' k hk, hsimilar⟩
          · exact hrules q hq
  obtain ⟨_, hnew, hrules⟩ := hfold rules (empty name) _ rfl
  exact ⟨fun q hq => (hnew q hq).resolve_left (fun h => nomatch h), hrules⟩

end RuleSet

end Entailment
