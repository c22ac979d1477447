import Entailment.Proofs.Builtin.Naming
import Entailment.Proofs.Rule.Similarity
import Entailment.Proofs.Rule.Valuation
import Mathlib.Order.Bounds.Basic

/-!
# Variants have the same instances

Variables are numbered in the order in which they occur first, so that variants number
them alike, and differ in names only.  Names are not read by builtins that are free of
the graph nor by negation, so variants that call nothing else hold and conclude the same
under every assignment, and one of them can be left out of any list of rules.
-/

namespace Entailment

/-! ## Variants have the same numbers -/

namespace Rule

variable {q r : Rule} {f : Var → Var}

theorem Renames.varsInOrder_eq (h : Renames f q r) :
    varsInOrder r.direction r.body r.head = (varsInOrder q.direction q.body q.head).map f := by
  have hbody := (renamedClauses_beq_iff.1 h.body).2
  have hhead := (renamedClauses_beq_iff.1 h.head).2
  rw [← h.direction]
  cases q.direction <;>
    simp only [varsInOrder, List.flatMap_append, List.map_append, hbody, hhead]

/-- Variants number their variables alike. -/
theorem Renames.keeps_numbers (h : Renames f q r) (hq : q.Made) (hr : r.Made) :
    q.numVars = r.numVars ∧ ∀ v ∈ q.vars, (f v).index = v.index := by
  have himage : ∀ v ∈ q.vars, f v ∈ r.vars := by
    intro v hv
    rw [← mem_varsInOrder, h.varsInOrder_eq]
    exact List.mem_map_of_mem (mem_varsInOrder.2 hv)
  have hnames : ∀ v ∈ q.vars, ∀ w ∈ q.vars, v.name = w.name ↔ (f v).name = (f w).name := by
    intro v hv w hw
    refine ⟨fun hname => by rw [hq.eq_of_name_eq hv hw hname], fun hname => ?_⟩
    rw [h.injective hv hw (hr.eq_of_name_eq (himage v hv) (himage w hw) hname)]
  have hranks : ranks ((varsInOrder q.direction q.body q.head).map Var.name) =
      ranks ((varsInOrder r.direction r.body r.head).map Var.name) := by
    rw [h.varsInOrder_eq, List.map_map]
    exact ranks_map_congr fun v hv w hw =>
      hnames v (mem_varsInOrder.1 hv) w (mem_varsInOrder.1 hw)
  refine ⟨?_, fun v hv => ?_⟩
  · rw [hq.numbered.1, hr.numbered.1, names, names, slotNames, slotNames,
      ← length_eraseDups_ranks, hranks, length_eraseDups_ranks]
  · have hindexes := hr.indexes_eq
    rw [← hranks, ← hq.indexes_eq, h.varsInOrder_eq, List.map_map] at hindexes
    exact List.map_inj_left.1 hindexes v (mem_varsInOrder.2 hv)

/-- Turned round, variants are variants. -/
theorem IsVariant.withDirection (h : q.IsVariant r) (hq : q.Made) (hr : r.Made)
    (direction : Direction) : (q.withDirection direction).IsVariant (r.withDirection direction) := by
  have hturned : ∀ {r : Rule}, r.Made → ∃ names : Numbering,
      (r.withDirection direction).body = r.body.map (Clause.renamed names.place) ∧
        (r.withDirection direction).head = r.head.map (Clause.renamed names.place) ∧
        (r.withDirection direction).direction = direction ∧
        recurrences (r.withDirection direction).vars = recurrences r.vars := by
    intro r hr
    have hplace : Set.InjOn (Numbering.place (slotNames direction r.body r.head))
        {v | v ∈ r.vars} := by
      intro v hv w hw hvw
      have hname := congrArg Var.name hvw
      exact hr.eq_of_name_eq hv hw hname
    rw [Rule.withDirection, make_eq, ← recurrences_map hplace]
    refine ⟨slotNames direction r.body r.head, rfl, rfl, rfl, congrArg recurrences ?_⟩
    change (r.body.map _ ++ r.head.map _).flatMap Clause.vars = (r.clauses.flatMap Clause.vars).map _
    rw [← List.map_append, ← vars_renamedClauses]
    rfl
  rw [isVariant_iff] at h ⊢
  obtain ⟨names, hbody, hhead, hdirection, hvars⟩ := hturned hq
  obtain ⟨names', hbody', hhead', hdirection', hvars'⟩ := hturned hr
  rw [hvars, hvars', similar, hbody, hhead, hdirection, hbody', hhead', hdirection',
    similarAll_renamed, similarAll_renamed]
  have hsimilar := h.1
  rw [similar, Bool.and_eq_true, Bool.and_eq_true] at hsimilar
  rw [hsimilar.1.2, hsimilar.2, beq_self_eq_true]
  exact ⟨rfl, h.2⟩

end Rule

/-! ## Equal calls -/

namespace Bindings

theorem resolveArg_congr (b : Bindings) {m n : Node} (h : (m == n) = true) :
    (b.resolveArg m == b.resolveArg n) = true := by
  cases m with
  | var v =>
      cases n with
      | var w =>
          obtain rfl : v = w := List.cons.inj (Node.vars_of_beq h) |>.1
          exact BEq.rfl
      | _ => cases h
  | functor f ms =>
      cases n with
      | functor g ns => rfl
      | _ => cases h
  | _ => cases n <;> first | exact h | cases h

theorem mapM_resolveArg_congr (b : Bindings) {ms ns : List Node} (h : (ms == ns) = true) :
    (ms.mapM b.resolveArg == ns.mapM b.resolveArg) = true := by
  have hall := list_beq_iff_forall₂.1 h
  clear h
  induction hall with
  | nil => rfl
  | cons hsame _ ih =>
      rw [List.mapM_cons, List.mapM_cons]
      rcases option_beq_iff.1 (b.resolveArg_congr hsame) with ⟨hm, hn⟩ | ⟨x, y, hm, hn, hxy⟩
      · rw [hm, hn]
        rfl
      · rcases option_beq_iff.1 ih with ⟨hms, hns⟩ | ⟨xs, ys, hms, hns, hxys⟩
        · rw [hm, hn, hms, hns]
          rfl
        · rw [hm, hn, hms, hns]
          change (x == y && xs == ys) = true
          rw [hxy, hxys]
          rfl

/-- Equal nodes stand for equal nodes. -/
theorem resolve_congr (b : Bindings) {m n : Node} (h : (m == n) = true) :
    (b.resolve m == b.resolve n) = true := by
  cases m with
  | var v =>
      cases n with
      | var w =>
          obtain rfl : v = w := List.cons.inj (Node.vars_of_beq h) |>.1
          exact BEq.rfl
      | _ => cases h
  | functor f ms =>
      cases n with
      | functor g ns =>
          rw [Node.functor_beq, Bool.and_eq_true, beq_iff_eq] at h
          obtain ⟨rfl, hargs⟩ := h
          change ((ms.mapM b.resolveArg).map (Node.functor f) ==
            (ns.mapM b.resolveArg).map (Node.functor f)) = true
          rcases option_beq_iff.1 (b.mapM_resolveArg_congr hargs) with
            ⟨hms, hns⟩ | ⟨xs, ys, hms, hns, hxys⟩
          · rw [hms, hns]
            rfl
          · rw [hms, hns]
            change (Node.functor f xs == Node.functor f ys) = true
            rw [Node.functor_beq, hxys, beq_self_eq_true]
            rfl
      | _ => cases h
  | _ => cases n <;> first | exact h | cases h

end Bindings

namespace Call

variable {c c' : Call} {registry : Registry} {ctx ctx' : CallContext} {st st' : CallState}
  {like : CallContext → CallContext → Prop}

/-- Equal calls see equal arguments in like environments. -/
theorem resolvedArgs_beq {b b' : Bindings} (hargs : (c.args == c'.args) = true)
    (hlike : b.Alike b') : (c.resolvedArgs b == c'.resolvedArgs b') = true := by
  refine BEq.trans (c.resolvedArgs_congr hlike) ?_
  rw [list_beq_iff_forall₂] at hargs ⊢
  unfold resolvedArgs
  rw [List.forall₂_map_left_iff, List.forall₂_map_right_iff]
  refine hargs.imp fun m n hsame => ?_
  rcases Bindings.option_beq_iff.1 (b'.resolve_congr hsame) with ⟨hm, hn⟩ | ⟨x, y, hm, hn, hxy⟩
  · rw [hm, hn]
    exact hsame
  · rw [hm, hn]
    exact hxy

/-- Calls that respect likeness and are equal but for the names of variables agree. -/
theorem agree_holds_of_renamed {f : Var → Var}
    (hnames : ∀ b, registry.get? c.name = some b → b.IgnoresNames)
    (hrespects : ∀ b, registry.get? c.name = some b → b.body.Respects like)
    (hindex : ∀ v ∈ Node.varsAll c.args, (f v).index = v.index)
    (hsame : ((c.renamed f).toNode == c'.toNode) = true) (hctx : like ctx ctx')
    (hlike : st.bindings.Alike st'.bindings) :
    CallState.Agree (c.holds registry ctx st) (c'.holds registry ctx' st') := by
  rw [toNode, toNode, Node.functor_beq, Bool.and_eq_true, beq_iff_eq] at hsame
  obtain ⟨hname, hargs⟩ := hsame
  rw [← holds_renamed hnames hindex]
  unfold holds
  rw [← hname]
  cases hb : registry.get? (c.renamed f).name with
  | none => exact CallState.agree_false
  | some b =>
      exact (hrespects b hb _ _ _ _ _ _ hctx (resolvedArgs_beq hargs hlike) hlike).1

end Call

/-- Pairs of calls that agree one by one agree when they are asked in order. -/
theorem agree_allHold_of_forall₂ {ask ask' : Call → CallState → Bool × CallState}
    {calls calls' : List Call} {st st' : CallState}
    (h : List.Forall₂ (fun c c' => ∀ st st' : CallState, st.bindings.Alike st'.bindings →
      CallState.Agree (ask c st) (ask' c' st')) calls calls')
    (hlike : st.bindings.Alike st'.bindings) :
    CallState.Agree (allHold ask calls st) (allHold ask' calls' st') := by
  induction h generalizing st st' with
  | nil => exact ⟨rfl, fun _ => hlike⟩
  | cons hfirst _ ih =>
      obtain ⟨hanswer, hbindings⟩ := hfirst _ _ hlike
      rw [allHold, allHold]
      generalize ask _ st = result at hanswer hbindings ⊢
      generalize ask' _ st' = result' at hanswer hbindings ⊢
      obtain ⟨answer, st₁⟩ := result
      obtain ⟨answer', st₁'⟩ := result'
      obtain rfl : answer = answer' := hanswer
      cases answer with
      | false => exact CallState.agree_false
      | true => exact ih (hbindings rfl)

/-! ## Instances of variants -/

/-- The clauses are equal but for the names of variables. -/
def Clause.Respells (f : Var → Var) (c d : Clause) : Prop :=
  (c.renamed f == d) = true ∧ ∀ v ∈ c.vars, (f v).index = v.index

/-- The patterns have the same instances and the same variables. -/
def Triple.Interchangeable (p p' : Triple) : Prop :=
  p.indexes = p'.indexes ∧ ∀ σ t, p.Fits σ t ↔ p'.Fits σ t

namespace Clause

variable {f : Var → Var} {cs ds : List Clause}

theorem Respells.interchangeable {p p' : Triple} (h : Respells f (.pattern p) (.pattern p')) :
    p.Interchangeable p' := by
  obtain ⟨hsame, hindex⟩ := h
  have hvars := (Triple.renamed_beq_iff.1 hsame).2
  refine ⟨?_, fun σ t => ?_⟩
  · rw [Triple.indexes, Triple.indexes, ← hvars, List.map_map]
    exact (List.map_congr_left hindex).symm
  · rw [← Triple.fits_renamed_iff (f := f) (σ := σ) fun v hv => by rw [hindex v hv]; exact BEq.rfl]
    exact ⟨Triple.fits_of_beq hsame, Triple.fits_of_beq (BEq.symm hsame)⟩

theorem forall₂_patterns (h : List.Forall₂ (Respells f) cs ds) :
    List.Forall₂ Triple.Interchangeable (cs.filterMap pattern?) (ds.filterMap pattern?) := by
  induction h with
  | nil => exact .nil
  | @cons c d _ _ hcd _ ih =>
      cases c with
      | pattern p =>
          cases d with
          | pattern p' => exact .cons hcd.interchangeable ih
          | call _ => exact nomatch hcd.1
      | call _ =>
          cases d with
          | pattern _ => exact nomatch hcd.1
          | call _ => exact ih

theorem forall₂_calls (h : List.Forall₂ (Respells f) cs ds) :
    List.Forall₂ (fun c c' => Respells f (.call c) (.call c')) (cs.filterMap call?)
      (ds.filterMap call?) := by
  induction h with
  | nil => exact .nil
  | @cons c d _ _ hcd _ ih =>
      cases c with
      | pattern _ =>
          cases d with
          | pattern _ => exact ih
          | call _ => exact nomatch hcd.1
      | call c =>
          cases d with
          | pattern _ => exact nomatch hcd.1
          | call d => exact .cons hcd ih

end Clause

/-- What pairs have together, all of the one list have if all of the other have it. -/
theorem forall_mem_iff_of_forall₂ {α β : Type} {R : α → β → Prop} {P : α → Prop} {Q : β → Prop}
    {as : List α} {bs : List β} (h : List.Forall₂ R as bs) (hPQ : ∀ a b, R a b → (P a ↔ Q b)) :
    (∀ a ∈ as, P a) ↔ ∀ b ∈ bs, Q b := by
  induction h with
  | nil => exact ⟨fun _ _ h => (nomatch h), fun _ _ h => nomatch h⟩
  | cons hab _ ih => rw [List.forall_mem_cons, List.forall_mem_cons, hPQ _ _ hab, ih]

namespace Rule

/-- The rules have the same slots, and their clauses are equal but for the names of
variables. -/
structure Respells (f : Var → Var) (q r : Rule) : Prop where
  slots : q.numVars = r.numVars
  body : List.Forall₂ (Clause.Respells f) q.body r.body
  head : List.Forall₂ (Clause.Respells f) q.head r.head

theorem Renames.respells (h : Renames f q r) (hq : q.Made) (hr : r.Made) : Respells f q r := by
  obtain ⟨hslots, hindex⟩ := h.keeps_numbers hq hr
  have hclauses : ∀ {cs ds : List Clause}, (∀ c ∈ cs, ∀ v ∈ c.vars, v ∈ q.vars) →
      (cs.map (Clause.renamed f) == ds) = true → List.Forall₂ (Clause.Respells f) cs ds := by
    intro cs ds hcs hsame
    rw [list_beq_iff_forall₂, List.forall₂_map_left_iff] at hsame
    exact (List.forall₂_and_left _ _).2 ⟨fun c hc v hv => hindex v (hcs c hc v hv), hsame⟩ |>.imp
      fun _ _ h => ⟨h.2, h.1⟩
  exact ⟨hslots, hclauses (fun c hc v hv => mem_vars_of_body hc hv) h.body,
    hclauses (fun c hc v hv => mem_vars_of_head hc hv) h.head⟩

theorem calls_map_snd (r : Rule) : r.calls.map Prod.snd = r.body.filterMap Clause.call? := by
  have hzip : ∀ (cs : List Clause) (k : Nat),
      ((cs.zipIdx k).filterMap fun x => x.1.call?.map fun call => (x.2, call)).map Prod.snd =
        cs.filterMap Clause.call? := by
    intro cs
    induction cs with
    | nil => exact fun _ => rfl
    | cons c cs ih =>
        intro k
        cases c with
        | pattern p => exact ih (k + 1)
        | call c => exact congrArg (c :: ·) (ih (k + 1))
  exact hzip r.body 0

theorem mem_filterMap_call?_iff {cs : List Clause} {c : Call} :
    c ∈ cs.filterMap Clause.call? ↔ Clause.call c ∈ cs := by
  rw [List.mem_filterMap]
  constructor
  · rintro ⟨d, hd, hc⟩
    cases d with
    | pattern p => cases hc
    | call call =>
        cases hc
        exact hd
  · exact fun hc => ⟨.call c, hc, rfl⟩

/-- The calls of the body ignore names and are fair. -/
structure Discreet (r : Rule) (registry : Registry) : Prop where
  fair : r.Fair registry
  nameless : ∀ c, Clause.call c ∈ r.body → ∀ b, registry.get? c.name = some b → b.IgnoresNames

namespace Respells

variable {registry : Registry} {base : MemoryGraph} {v : View MemoryGraph} {S : Set Triple}
  {σ : Assignment}

theorem boundIndexes_eq (h : Respells f q r) : q.boundIndexes = r.boundIndexes := by
  have hpatterns := Clause.forall₂_patterns h.body
  unfold boundIndexes
  generalize q.body.filterMap Clause.pattern? = ps at hpatterns ⊢
  generalize r.body.filterMap Clause.pattern? = ps' at hpatterns ⊢
  induction hpatterns with
  | nil => rfl
  | cons hp _ ih => rw [List.flatMap_cons, List.flatMap_cons, hp.1, ih]

theorem environment_eq (h : Respells f q r) (σ : Assignment) :
    q.environment σ = r.environment σ := by
  rw [environment, environment, h.slots, h.boundIndexes_eq]

theorem callsHold_iff (h : Respells f q r) (hq : q.Discreet registry) (hv : v.Sound) {b : Bindings}
    (hb : b.Ground) : q.CallsHold registry v b ↔ r.CallsHold registry v b := by
  have hcalls : List.Forall₂ (fun c c' => ∀ st st' : CallState, st.bindings.Alike st'.bindings →
      CallState.Agree (c.holds registry (.ofView v q.label [] false) st)
        (c'.holds registry (.ofView v r.label [] false) st'))
      (q.body.filterMap Clause.call?) (r.body.filterMap Clause.call?) := by
    have hmem : ∀ c ∈ q.body.filterMap Clause.call?, Clause.call c ∈ q.body :=
      fun c hc => mem_filterMap_call?_iff.1 hc
    refine ((List.forall₂_and_left _ _).2 ⟨hmem, Clause.forall₂_calls h.body⟩).imp ?_
    rintro c c' ⟨hc, hsame, hindex⟩ st st' hlike
    exact Call.agree_holds_of_renamed (hq.nameless c hc) (hq.fair.respects c hc) hindex hsame
      (CallContext.like_ofView hv _ _ _ _ _ _) hlike
  have hagree := agree_allHold_of_forall₂ hcalls
    (show (CallState.bindings { bindings := b }).Alike (CallState.bindings { bindings := b }) from
      .refl hb)
  unfold CallsHold
  rw [calls_map_snd, calls_map_snd]
  exact iff_of_eq (congrArg (· = true) hagree.1)

theorem body_iff (h : Respells f q r) {P : Triple → Prop} :
    (∀ p, Clause.pattern p ∈ q.body → ∃ t, p.Fits σ t ∧ P t) ↔
      ∀ p, Clause.pattern p ∈ r.body → ∃ t, p.Fits σ t ∧ P t := by
  simp only [← mem_filterMap_pattern?_iff]
  exact forall_mem_iff_of_forall₂ (Clause.forall₂_patterns h.body) fun p p' hp =>
    exists_congr fun t => and_congr_left fun _ => hp.2 σ t

theorem head_iff (h : Respells f q r) {P : Triple → Prop} :
    (∀ p, Clause.pattern p ∈ q.head → ∀ t, p.Fits σ t → P t) ↔
      ∀ p, Clause.pattern p ∈ r.head → ∀ t, p.Fits σ t → P t := by
  simp only [← mem_filterMap_pattern?_iff]
  exact forall_mem_iff_of_forall₂ (Clause.forall₂_patterns h.head) fun p p' hp =>
    forall_congr' fun t => imp_congr_left (hp.2 σ t)

/-- Ground triples are closed under a rule exactly if they are under its variant. -/
theorem closed_iff (h : Respells f q r) (hq : q.Discreet registry) (hv : v.Sound)
    (hground : ∀ t, base.contains t = true ∨ t ∈ S → t.isGround = true) :
    Closed [q] registry base v S ↔ Closed [r] registry base v S := by
  unfold Closed
  simp only [List.mem_singleton, forall_eq]
  refine forall_congr' fun σ => imp_congr_ctx h.body_iff fun hbody => ?_
  have hvalues : ∀ i ∈ r.boundIndexes, (σ i).isGround = true := by
    intro i hi
    obtain ⟨p, hp, hmem⟩ := mem_boundIndexes_iff.1 hi
    obtain ⟨t, hfits, ht⟩ := hbody p hp
    exact vocabulary_ground.of_triple_fits hfits (Triple.isGround_iff_nodes.1 (hground t ht)) i hmem
  rw [h.environment_eq, h.callsHold_iff hq hv (ground_environment hvalues)]
  exact imp_congr_right fun _ => h.head_iff

/-- A set is a model of a rule without calls exactly if it is one of its variant. -/
theorem model_iff (h : Respells f q r) (hq : ∀ c, Clause.call c ∉ q.body) {stored : Set Triple} :
    Model [q] registry stored S ↔ Model [r] registry stored S := by
  have hr : ∀ c, Clause.call c ∉ r.body := by
    have hcalls := Clause.forall₂_calls h.body
    have hnone : q.body.filterMap Clause.call? = [] :=
      List.eq_nil_iff_forall_not_mem.2 fun c hc => hq c (mem_filterMap_call?_iff.1 hc)
    rw [hnone, List.forall₂_nil_left_iff] at hcalls
    intro c hc
    rw [← mem_filterMap_call?_iff, hcalls] at hc
    cases hc
  have happlies : ∀ {p : Rule} {σ : Assignment}, (∀ c, Clause.call c ∉ p.body) →
      (p.Applies registry S σ ↔ ∀ k, Clause.pattern k ∈ p.body → ∃ t, k.Fits σ t ∧ t ∈ S) := by
    intro p σ hp
    refine ⟨fun ha k hk => ?_, fun ha => ⟨fun k hk => ?_, fun c hc => absurd hc (hp c)⟩⟩
    · obtain ⟨t, ht, hfits⟩ := ha.patterns k hk
      exact ⟨t, hfits, ht⟩
    · obtain ⟨t, hfits, ht⟩ := ha k hk
      exact ⟨t, ht, hfits⟩
  have hclosed : (∀ σ, q.Applies registry S σ →
      ∀ p, Clause.pattern p ∈ q.head → ∀ t, p.Fits σ t → t ∈ S) ↔
      ∀ σ, r.Applies registry S σ → ∀ p, Clause.pattern p ∈ r.head → ∀ t, p.Fits σ t → t ∈ S :=
    forall_congr' fun σ => by rw [happlies hq, happlies hr, h.body_iff, h.head_iff]
  constructor
  · rintro ⟨hstored, hq⟩
    refine ⟨hstored, fun p hp => ?_⟩
    rw [List.mem_singleton.1 hp]
    exact hclosed.1 (hq q (List.mem_singleton.2 rfl))
  · rintro ⟨hstored, hr⟩
    refine ⟨hstored, fun p hp => ?_⟩
    rw [List.mem_singleton.1 hp]
    exact hclosed.2 (hr r (List.mem_singleton.2 rfl))

end Respells

end Rule

/-! ## Lists without variants -/

/-- The second list leaves out of the first only what it keeps a variant of. -/
structure Thins (rules kept : List Rule) : Prop where
  subset : ∀ q ∈ kept, q ∈ rules
  covers : ∀ r ∈ rules, ∃ q ∈ kept, q = r ∨ q.IsVariant r

namespace Thins

variable {rules kept : List Rule} {registry : Registry} {base : MemoryGraph} {v : View MemoryGraph}
  {S stored : Set Triple}

/-- What holds of the rules that are kept and of variants holds of all. -/
theorem forall_iff (h : Thins rules kept) (hmade : ∀ r ∈ rules, r.Made) {P : Rule → Prop}
    (hP : ∀ q ∈ rules, ∀ r ∈ rules, ∀ f, Rule.Respells f q r → (P q ↔ P r)) :
    (∀ r ∈ rules, P r) ↔ ∀ q ∈ kept, P q := by
  refine ⟨fun hall q hq => hall q (h.subset q hq), fun hall r hr => ?_⟩
  obtain ⟨q, hq, rfl | ⟨f, hf⟩⟩ := h.covers r hr
  · exact hall q hq
  · have hmem := h.subset q hq
    exact (hP q hmem r hr f (hf.respells (hmade q hmem) (hmade r hr))).1 (hall q hq)

/-- Ground triples are closed under all rules exactly if they are under those kept. -/
theorem closed_iff (h : Thins rules kept) (hmade : ∀ r ∈ rules, r.Made)
    (hdiscreet : ∀ r ∈ rules, r.Discreet registry) (hv : v.Sound)
    (hground : ∀ t, base.contains t = true ∨ t ∈ S → t.isGround = true) :
    Closed rules registry base v S ↔ Closed kept registry base v S := by
  have hone : ∀ rules : List Rule, Closed rules registry base v S ↔
      ∀ r ∈ rules, Closed [r] registry base v S := by
    intro rules
    unfold Closed
    simp only [List.mem_singleton, forall_eq]
  rw [hone, hone]
  exact h.forall_iff hmade fun q hq r _ f hf => hf.closed_iff (hdiscreet q hq) hv hground

/-- Without calls, all rules have the same models as those kept. -/
theorem model_iff (h : Thins rules kept) (hmade : ∀ r ∈ rules, r.Made)
    (hcalls : ∀ r ∈ rules, ∀ c, Clause.call c ∉ r.body) :
    Model rules registry stored S ↔ Model kept registry stored S := by
  have hone : ∀ rules : List Rule, Model rules registry stored S ↔
      stored ⊆ S ∧ ∀ r ∈ rules, stored ⊆ S → Model [r] registry stored S := by
    intro rules
    refine ⟨fun hS => ⟨hS.stored_subset, fun r hr _ => ⟨hS.stored_subset, fun q hq => ?_⟩⟩,
      fun hS => ⟨hS.1, fun r hr => ?_⟩⟩
    · rw [List.mem_singleton.1 hq]
      exact hS.closed r hr
    · exact (hS.2 r hr hS.1).closed r (List.mem_singleton.2 rfl)
  rw [hone, hone]
  refine and_congr_right fun _ => ?_
  exact h.forall_iff hmade fun q hq r _ f hf => imp_congr_right fun _ => hf.model_iff (hcalls q hq)

theorem consequences_eq (h : Thins rules kept) (hmade : ∀ r ∈ rules, r.Made)
    (hcalls : ∀ r ∈ rules, ∀ c, Clause.call c ∉ r.body) :
    consequences rules registry stored = consequences kept registry stored := by
  have hmodels : {S | Model rules registry stored S} = {S | Model kept registry stored S} :=
    Set.ext fun S => h.model_iff hmade hcalls
  have hleast : IsLeast {S | Model rules registry stored S} (consequences rules registry stored) :=
    isLeast_consequences
  rw [hmodels] at hleast
  exact IsLeast.unique hleast isLeast_consequences

theorem filter (h : Thins rules kept) (direction : Direction) :
    Thins (rules.filter fun r => r.direction == direction)
      (kept.filter fun r => r.direction == direction) where
  subset q hq := by
    rw [List.mem_filter] at hq ⊢
    exact ⟨h.subset q hq.1, hq.2⟩
  covers r hr := by
    obtain ⟨hr, hdirection⟩ := List.mem_filter.1 hr
    obtain ⟨q, hq, hsame⟩ := h.covers r hr
    refine ⟨q, List.mem_filter.2 ⟨hq, ?_⟩, hsame⟩
    rcases hsame with rfl | ⟨f, hf⟩
    · exact hdirection
    · rw [hf.direction]
      exact hdirection

theorem map (h : Thins rules kept) {turn : Rule → Rule}
    (hturn : ∀ q ∈ rules, ∀ r ∈ rules, q.IsVariant r → (turn q).IsVariant (turn r)) :
    Thins (rules.map turn) (kept.map turn) where
  subset q hq := by
    obtain ⟨p, hp, rfl⟩ := List.mem_map.1 hq
    exact List.mem_map_of_mem (h.subset p hp)
  covers r hr := by
    obtain ⟨p, hp, rfl⟩ := List.mem_map.1 hr
    obtain ⟨q, hq, hsame⟩ := h.covers p hp
    exact ⟨turn q, List.mem_map_of_mem hq, hsame.imp (congrArg turn) (hturn q (h.subset q hq) p hp)⟩

end Thins

/-- A collection leaves out variants alone if variables recur alike in similar rules. -/
theorem RuleSet.thins_ofRules (name : String) {rules : List Rule}
    (hrules : ∀ q ∈ rules, ∀ r ∈ rules, q.similar r = true → recurrences q.vars = recurrences r.vars) :
    Thins rules (ofRules name rules).rules := by
  obtain ⟨hsubset, hcovers⟩ := rules_ofRules name rules
  refine ⟨hsubset, fun r hr => ?_⟩
  obtain ⟨q, hq, hsame⟩ := hcovers r hr
  exact ⟨q, hq, hsame.imp_right fun hsimilar =>
    Rule.isVariant_iff.2 ⟨hsimilar, hrules q (hsubset q hq) r hr hsimilar⟩⟩

end Entailment
