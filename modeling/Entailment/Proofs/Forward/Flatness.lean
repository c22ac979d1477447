import Entailment.Proofs.Forward.Atomicity
import Entailment.Proofs.Forward.Completion
import Entailment.Proofs.Rule.Shelter

/-!
# Functors do not nest

If the rules shelter what stands inside the functors of their heads, then over a base of
flat facts an engine deduces flat facts, whatever has been done to it.  What it sees is
flat, so its tokens hold flat facts, and so rules conclude flat facts from them.
-/

namespace Entailment

/-- A ground triple without a functor inside a functor. -/
structure Triple.FlatFact (t : Triple) : Prop where
  ground : t.isGround = true
  unnested : t.Unnested

/-- Graphs that hold flat facts only, as long as only flat triples are added. -/
structure Graph.KeepsFlat {γ : Type} [Graph γ] (sane : γ → Prop) : Prop where
  find : ∀ {g p ts}, sane g → Graph.find g p = .ok ts → ∀ t ∈ ts, t.FlatFact
  contains : ∀ {g t}, sane g → Graph.contains g t = .ok true → t.FlatFact
  add : ∀ {g g' t added}, sane g → t.Unnested → Graph.add g t = .ok (added, g') → sane g'
  delete : ∀ {g g' t removed}, sane g → Graph.delete g t = .ok (removed, g') → sane g'

namespace MemoryGraph

theorem flat_empty : MemoryGraph.empty.Flat := by
  intro t ht
  rw [contains_empty] at ht
  cases ht

/-- Sound memory graphs of flat facts are such graphs. -/
theorem keepsFlat : Graph.KeepsFlat fun g : MemoryGraph => g.Sound ∧ g.Flat where
  find := by
    rintro g p ts ⟨hsound, hflat⟩ hfind t ht
    cases hfind
    have hheld := (hsound.index.agreeing.mem_find ht).1
    exact ⟨hsound.isGround t hheld, hflat t hheld⟩
  contains := by
    rintro g t ⟨hsound, hflat⟩ hcontains
    have hheld : g.contains t = true := Except.ok.inj hcontains
    exact ⟨hsound.isGround t hheld, hflat t hheld⟩
  add := by
    rintro g g' t added ⟨hsound, hflat⟩ ht hadd
    have hground := isGround_of_add hadd
    change g.add t = _ at hadd
    rw [hsound.add_eq hground] at hadd
    cases hadd
    refine ⟨hsound.plus hground, fun u hu => ?_⟩
    rw [hsound.contains_plus hground, Bool.or_eq_true] at hu
    rcases hu with hu | hsame
    · exact hflat u hu
    · exact vocabulary_not_nested.madeOf_congr hsame ht
  delete := by
    rintro g g' t removed ⟨hsound, hflat⟩ hdelete
    change g.delete t = _ at hdelete
    rw [hsound.delete_eq] at hdelete
    cases hdelete
    refine ⟨hsound.minus t, fun u hu => ?_⟩
    rw [hsound.contains_minus, Bool.and_eq_true] at hu
    exact hflat u hu.1

end MemoryGraph

/-- From flat facts the rules conclude flat triples. -/
def Network.DrawsFlat (n : Network) : Prop :=
  ∀ r c, n.rule? r = some c → ∀ ts b ctx world conclusions st,
    (∀ t ∈ ts, t.FlatFact) → c.bindings ts = .ok b →
    c.evaluate n.registry ctx { bindings := b, world } = (some conclusions, st) →
    ∀ t ∈ conclusions, t.Unnested

theorem Network.drawsFlat_of_compile {n : Network} {rules : List Rule} {registry : Registry}
    (hn : compile rules registry = .ok n)
    (hbinds : ∀ name b, registry.get? name = some b → b.Binds)
    (hrules : ∀ rule ∈ rules, rule.Sheltered registry) : n.DrawsFlat := by
  intro r c hc ts b ctx world conclusions st hts hb hevaluate
  obtain ⟨hwired, hregistry, _⟩ := compile_eq_ok hn
  obtain ⟨rule, hcompiled, _, hvalid⟩ := (hwired.rule r c hc).compiled
  obtain ⟨source, hsource, hsame⟩ := exists_rule_of_rule? hn hc
  obtain rfl : rule = source := congrArg CompiledRule.rule (hcompiled.symm.trans hsame)
  rw [hregistry] at hvalid hevaluate
  subst hsame
  obtain ⟨hmatches, hlength⟩ := CompiledRule.matches_of_bindings (fun t ht => (hts t ht).ground) hb
  exact CompiledRule.flat_of_evaluate hvalid hbinds (hrules rule hsource) hmatches hlength
    (fun t ht => (hts t ht).unnested) hevaluate

/-! ## Tokens -/

namespace TokenMemory

variable {F : Triple → Prop} {m m' : TokenMemory}

/-- Every token has matched a triple of the kind. -/
def OnlyOf (F : Triple → Prop) (m : TokenMemory) : Prop :=
  ∀ id token, m.token? id = some token → F token.triple

theorem onlyOf_empty : TokenMemory.empty.OnlyOf F := fun _ _ h => nomatch h

/-- A token whose children change is the token that it was. -/
theorem OnlyOf.modify (h : m.OnlyOf F) (id : TokenId) (change : List TokenId → List TokenId) :
    OnlyOf F { m with
      tokens := m.tokens.modify id fun t => { t with children := change t.children } } := by
  intro other token hother
  rw [token?, OrderedMap.get?_modify] at hother
  split at hother
  · obtain ⟨found, hfound, rfl⟩ := Option.map_eq_some_iff.1 hother
    exact h other found hfound
  · exact h other token hother

theorem OnlyOf.insert (h : m.OnlyOf F) {id : TokenId} {token : Token} (htoken : F token.triple)
    (hinsert : m.insert id token = some m') : m'.OnlyOf F := by
  have hadopt : (m.adopt token.parent id).OnlyOf F := by
    unfold adopt
    split
    · exact h.modify _ fun children => children ++ [id]
    · exact h
  unfold TokenMemory.insert at hinsert
  simp only at hinsert
  split at hinsert
  · cases hinsert
  · cases hinsert
    intro other found hother
    rw [token?, OrderedMap.get?_insert] at hother
    split at hother
    · cases hother
      exact htoken
    · exact hadopt other found hother

theorem OnlyOf.remove (h : m.OnlyOf F) (id : TokenId) : (m.remove id).OnlyOf F := by
  unfold TokenMemory.remove
  split
  · exact h
  · rename_i token _
    have herased : OnlyOf F { m with
        tokens := m.tokens.erase id
        edges := m.edges.erase (token.parent, token.triple)
        byKey := m.byKey.remove (token.level, token.key) id
        byTriple := m.byTriple.remove token.triple id } := by
      intro other found hother
      rw [token?, OrderedMap.get?_erase] at hother
      split at hother
      · cases hother
      · exact h other found hother
    unfold disown
    split
    · exact herased.modify _ fun children => children.filter (· != id)
    · exact herased

theorem OnlyOf.removeHolding (h : m.OnlyOf F) (t : Triple) : (m.removeHolding t).2.OnlyOf F := by
  have hall : ∀ (ids : List TokenId) (m : TokenMemory), m.OnlyOf F →
      (ids.foldl TokenMemory.remove m).OnlyOf F := by
    intro ids
    induction ids with
    | nil => exact fun _ hm => hm
    | cons id ids ih => exact fun m hm => ih _ (hm.remove id)
  exact hall _ _ h

theorem OnlyOf.ascend (h : m.OnlyOf F) (steps : Nat) (id : TokenId) :
    ∀ t ∈ m.ascend steps id, F t := by
  induction steps generalizing id with
  | zero => exact fun _ ht => nomatch ht
  | succ steps ih =>
      intro t ht
      unfold TokenMemory.ascend at ht
      split at ht
      · cases ht
      · rename_i token htoken
        split at ht
        · rw [List.mem_singleton.1 ht]
          exact h id token htoken
        · rcases List.mem_cons.1 ht with rfl | ht
          · exact h id token htoken
          · exact ih _ t ht

theorem OnlyOf.triples (h : m.OnlyOf F) (id : TokenId) : ∀ t ∈ m.triples id, F t :=
  fun t ht => h.ascend _ id t (List.mem_reverse.1 ht)

end TokenMemory

namespace Engine

variable {γ : Type} {sane : γ → Prop} {n : Network} {e : Engine γ}

/-- An engine over the network that holds nothing but flat facts. -/
structure Flat (sane : γ → Prop) (n : Network) (e : Engine γ) : Prop where
  network_eq : e.network = n
  base : sane e.base
  deductions : e.deductions.Sound ∧ e.deductions.Flat
  tokens : ∀ m ∈ e.memories, m.OnlyOf Triple.FlatFact

namespace Flat

theorem of_eq {e' : Engine γ} (h : e.Flat sane n) (hnetwork : e'.network = e.network)
    (hbase : e'.base = e.base) (hdeductions : e'.deductions = e.deductions)
    (hmemories : e'.memories = e.memories) : e'.Flat sane n :=
  ⟨hnetwork.trans h.network_eq, hbase ▸ h.base, hdeductions ▸ h.deductions, hmemories ▸ h.tokens⟩

theorem memory (h : e.Flat sane n) (rule : Nat) : (e.memory rule).OnlyOf Triple.FlatFact := by
  unfold Engine.memory
  cases hrule : e.memories[rule]? with
  | none => exact TokenMemory.onlyOf_empty
  | some m => exact h.tokens m (List.mem_of_getElem? hrule)

theorem setMemory (h : e.Flat sane n) (rule : Nat) {m : TokenMemory}
    (hm : m.OnlyOf Triple.FlatFact) : (e.setMemory rule m).Flat sane n :=
  ⟨h.network_eq, h.base, h.deductions, fun other hother =>
    (List.mem_or_eq_of_mem_set hother).elim (h.tokens other) fun hsame => hsame ▸ hm⟩

theorem setFiring (h : e.Flat sane n) (a : Activation) (firing : Firing) :
    (e.setFiring a firing).Flat sane n := h.setMemory a.rule (h.memory a.rule)

/-- What is deduced and what is in the base, together with all else, may change. -/
theorem replace (h : e.Flat sane n) {base : γ} (hbase : sane base) {deductions : MemoryGraph}
    (hdeductions : deductions.Sound ∧ deductions.Flat) :
    Flat sane n { e with base, deductions } := ⟨h.network_eq, hbase, hdeductions, h.tokens⟩

theorem reset (h : e.Flat sane n) : e.reset.Flat sane n where
  network_eq := h.network_eq
  base := h.base
  deductions := ⟨MemoryGraph.sound_empty, MemoryGraph.flat_empty⟩
  tokens m hm := by
    obtain ⟨_, _, rfl⟩ := List.mem_map.1 hm
    exact TokenMemory.onlyOf_empty

theorem start {base : γ} (hbase : sane base) : (Engine.start n base).Flat sane n where
  network_eq := rfl
  base := hbase
  deductions := ⟨MemoryGraph.sound_empty, MemoryGraph.flat_empty⟩
  tokens m hm := by
    obtain ⟨_, _, rfl⟩ := List.mem_map.1 hm
    exact TokenMemory.onlyOf_empty

end Flat

end Engine

/-! ## Work -/

namespace Work

open Engine

variable {γ α β : Type}

theorem leaves_mapM_each {P : Engine γ → Prop} {Q : β → Prop} {w : α → Work γ β} {as : List α}
    (hstep : ∀ a ∈ as, ∀ e, P e → (w a).Leaves e fun b e' => P e' ∧ Q b) {e : Engine γ}
    (he : P e) : (as.mapM w).Leaves e fun bs e' => P e' ∧ ∀ b ∈ bs, Q b := by
  induction as generalizing e with
  | nil => exact leaves_pure ⟨he, fun _ hb => nomatch hb⟩
  | cons a as ih =>
      rw [List.mapM_cons]
      refine (hstep a List.mem_cons_self e he).bind fun b e₁ ⟨he₁, hb⟩ => ?_
      refine (ih (fun a ha => hstep a (List.mem_cons_of_mem _ ha)) he₁).bind
        fun bs e₂ ⟨he₂, hbs⟩ => leaves_pure ⟨he₂, fun x hx => ?_⟩
      rcases List.mem_cons.1 hx with rfl | hx
      · exact hb
      · exact hbs x hx

variable {sane : γ → Prop} {n : Network}

theorem keeps_store_flat (c : CompiledRule) (s : Subscriber) {m : PartialMatch}
    (hm : m.triple.FlatFact) : Keeps (Flat sane n) (store c s m : Work γ (Option TokenId)) := by
  refine keeps_get_bind fun e he => ?_
  simp only
  split
  · exact keeps_pure _
  · rename_i memory hinsert
    have hset := he.setMemory s.rule ((he.memory s.rule).insert hm hinsert)
    exact keeps_bind (keeps_set (hset.of_eq rfl rfl rfl rfl)) fun _ => keeps_pure _

theorem keeps_schedule_flat (a : Activation) :
    Keeps (Flat sane n) (modify fun e => e.schedule a : Work γ PUnit) :=
  keeps_modify fun _ he => (he.setFiring a .pending).of_eq rfl rfl rfl rfl

theorem keeps_complete_flat (c : CompiledRule) (s : Subscriber) {m : PartialMatch}
    (hm : m.triple.FlatFact) : Keeps (Flat sane n) (complete c s m : Work γ Unit) := by
  refine keeps_bind (keeps_store_flat c s hm) fun stored => ?_
  cases stored with
  | none => exact keeps_pure _
  | some id => exact keeps_schedule_flat _

theorem keeps_retractDeduction_flat (t : Triple) :
    Keeps (Flat sane n) (retractDeduction t : Work γ Bool) := by
  refine keeps_of_leaves fun e he => leaves_get_bind ?_
  have haccess : (access (e.deductions.delete t) : Work γ (Bool × MemoryGraph)).Leaves e
      fun result _ => result.2.Sound ∧ result.2.Flat :=
    leaves_access fun _ hdeleted => MemoryGraph.keepsFlat.delete he.deductions hdeleted
  exact haccess.bind fun _ _ hdeductions =>
    leaves_set_bind (leaves_pure (he.replace he.base hdeductions))

theorem keeps_queue_flat (event : Event) :
    Keeps (Flat sane n) (modify fun e => e.queue event : Work γ PUnit) :=
  keeps_modify fun _ he => he.of_eq rfl rfl rfl rfl

theorem keeps_count_flat (change : EngineStats → EngineStats) :
    Keeps (Flat sane n) (count change : Work γ Unit) :=
  keeps_modify fun _ he => he.of_eq rfl rfl rfl rfl

variable [Graph γ]

theorem keeps_withdraw_flat (t : Triple) : Keeps (Flat sane n) (withdraw t : Work γ Unit) :=
  keeps_bind (keeps_retractDeduction_flat t) fun _ =>
    keeps_ite (keeps_bind (keeps_inBase t) fun _ => keeps_ite (keeps_pure _) (keeps_queue_flat _))
      (keeps_pure _)

/-! ### Matching -/

/-- What is visible is flat. -/
theorem leaves_isVisible_flat (hsane : Graph.KeepsFlat sane) {e : Engine γ}
    (he : e.Flat sane n) (t : Triple) : (isVisible t).Leaves e fun seen e' =>
      Flat sane n e' ∧ (seen = true → t.FlatFact) := by
  refine leaves_get_bind (leaves_access fun seen hseen => ⟨he, ?_⟩)
  rintro rfl
  unfold View.contains view at hseen
  cases hbase : Graph.contains e.base t with
  | error _ =>
      rw [hbase] at hseen
      cases hseen
  | ok stored =>
      rw [hbase] at hseen
      cases stored with
      | true => exact hsane.contains he.base hbase
      | false => exact MemoryGraph.keepsFlat.contains he.deductions hseen

theorem flat_of_view_find (hsane : Graph.KeepsFlat sane) {e : Engine γ} (he : e.Flat sane n)
    {p : TriplePattern} {facts : List Triple} (h : e.view.find p = .ok facts) :
    ∀ t ∈ facts, t.FlatFact := by
  unfold View.find view at h
  cases hbase : Graph.find e.base p with
  | error _ =>
      rw [hbase] at h
      cases h
  | ok stored =>
      rw [hbase] at h
      cases h
      intro t ht
      rcases List.mem_append.1 (OrderedSet.mem_ofList ht) with ht | ht
      · exact hsane.find he.base hbase t ht
      · exact MemoryGraph.keepsFlat.find he.deductions rfl t ht

/-- A match is extended by flat facts. -/
theorem leaves_extend_flat (hsane : Graph.KeepsFlat sane) (c : CompiledRule) (s : Subscriber)
    (next : Triple) {m : PartialMatch} (hm : m.triple.FlatFact) {e : Engine γ}
    (he : e.Flat sane n) : (extend c s next m).Leaves e fun found e' =>
      Flat sane n e' ∧ ∀ x ∈ found, x.triple.FlatFact := by
  refine ((keeps_store_flat c s hm).leaves he).bind fun stored e₁ he₁ => ?_
  cases stored with
  | none => exact leaves_pure ⟨he₁, fun _ hx => nomatch hx⟩
  | some id =>
      have hfind : ∀ p, (access (e₁.view.find p) : Work γ (List Triple)).Leaves e₁
          fun facts e' => Flat sane n e' ∧ ∀ t ∈ facts, t.FlatFact :=
        fun p => leaves_access fun _ hfacts => ⟨he₁, flat_of_view_find hsane he₁ hfacts⟩
      refine leaves_get_bind ((hfind _).bind fun facts e₂ ⟨he₂, hfacts⟩ => ?_)
      refine leaves_pure ⟨he₂, fun x hx => ?_⟩
      obtain ⟨fact, hfact, hx⟩ := List.mem_filterMap.1 hx
      obtain ⟨_, _, rfl⟩ := Option.map_eq_some_iff.1 hx
      exact hfacts fact hfact

theorem keeps_grow_flat (hsane : Graph.KeepsFlat sane) (c : CompiledRule) (rule : Nat)
    (following : List Triple) (level : Nat) {found : List PartialMatch}
    (hfound : ∀ m ∈ found, m.triple.FlatFact) :
    Keeps (Flat sane n) (grow c rule level following found : Work γ Unit) := by
  induction following generalizing level found with
  | nil => exact keeps_forM_each fun m hm => keeps_complete_flat c _ (hfound m hm)
  | cons next following ih =>
      refine keeps_of_leaves fun e he => (leaves_mapM_each (fun m hm _ he =>
        leaves_extend_flat hsane c _ next (hfound m hm) he) he).bind
          fun extended e₁ ⟨he₁, hall⟩ => ?_
      refine (ih (level + 1) fun m hm => ?_).leaves he₁
      obtain ⟨some, hsome, hm⟩ := List.mem_flatten.1 hm
      exact hall some hsome m hm

theorem keeps_activate_flat (hsane : Graph.KeepsFlat sane) {t : Triple} (ht : t.FlatFact)
    (s : Subscriber) : Keeps (Flat sane n) (activate t s : Work γ Unit) := by
  refine keeps_get_bind fun e _ => ?_
  split
  · exact keeps_pure _
  · split
    · exact keeps_pure _
    · refine keeps_grow_flat hsane _ _ _ _ fun m hm => ?_
      unfold joins at hm
      split at hm
      · cases hm
      · split at hm
        · rw [List.mem_singleton.1 hm]
          exact ht
        · obtain ⟨id, _, hm⟩ := List.mem_filterMap.1 hm
          obtain ⟨token, _, hm⟩ := Option.bind_eq_some_iff.1 hm
          obtain ⟨_, _, hm⟩ := Option.bind_eq_some_iff.1 hm
          cases hm
          exact ht

/-! ### Support -/

theorem keeps_unsupport_flat (a : Activation) (c : CompiledRule)
    (matched : List (Option Triple)) (t : Triple) :
    Keeps (Flat sane n) (unsupport a c matched t : Work γ Unit) := by
  have hbeside : BesideSupport (Flat sane n) := fun _ _ _ _ he => he.of_eq rfl rfl rfl rfl
  exact hbeside.unsupport (keeps_withdraw_flat t) a c matched

theorem keeps_retract_flat (a : Activation) (triples : List Triple) (firing : Firing) :
    Keeps (Flat sane n) (retract a triples firing : Work γ Unit) := by
  refine keeps_get_bind fun e _ => ?_
  split
  · exact keeps_bind (keeps_count_flat _) fun _ => keeps_bind (keeps_modify fun _ he =>
      he.of_eq rfl rfl rfl rfl) fun _ =>
        keeps_forM (keeps_unsupport_flat a _ _) _
  · exact keeps_pure _

theorem keeps_propagate_flat (hsane : Graph.KeepsFlat sane) (event : Event) :
    Keeps (Flat sane n) (propagate event : Work γ Unit) := by
  cases event with
  | added t =>
      refine keeps_of_leaves fun e he =>
        (leaves_isVisible_flat hsane he t).bind fun seen e₁ ⟨he₁, hseen⟩ => ?_
      cases seen with
      | false => exact leaves_pure he₁
      | true =>
          refine Keeps.leaves (P := Flat sane n) ?_ he₁
          exact keeps_bind (keeps_count_flat _) fun _ => keeps_get_bind fun _ _ =>
            keeps_forM (keeps_activate_flat hsane (hseen rfl)) _
  | deleted t =>
      refine keeps_bind (keeps_isVisible t) fun _ => keeps_ite (keeps_pure _) ?_
      refine keeps_bind (keeps_count_flat _) fun _ => keeps_get_bind fun _ _ =>
        keeps_forM (fun rule => keeps_get_bind fun e he => ?_) _
      exact keeps_bind (keeps_set (he.setMemory rule ((he.memory rule).removeHolding t))) fun _ =>
        keeps_forM (fun _ => keeps_retract_flat _ _ _) _

theorem keeps_checkSupport_flat (t : Triple) :
    Keeps (Flat sane n) (checkSupport t : Work γ Unit) := by
  refine keeps_get_bind fun _ _ => keeps_ite (keeps_pure _) ?_
  refine keeps_bind (keeps_inBase t) fun _ => keeps_ite (keeps_pure _) ?_
  refine keeps_get_bind fun _ _ => keeps_ite (keeps_pure _) ?_
  refine keeps_bind (keeps_count_flat _) fun _ => keeps_get_bind fun _ _ => ?_
  refine keeps_bind (keeps_attempt _) fun _ => keeps_ite (keeps_pure _) ?_
  exact keeps_bind (keeps_count_flat _) fun _ => keeps_withdraw_flat t

/-! ### Firing -/

omit [Graph γ] in
theorem keeps_credit_flat (a : Activation) (c : CompiledRule) (matched : List (Option Triple))
    (t : Triple) : Keeps (Flat sane n) (credit a c matched t : Work γ Unit) := by
  refine keeps_modify fun e he => ?_
  simp only
  split <;> split <;> exact he.of_eq rfl rfl rfl rfl

theorem keeps_assert_flat {t : Triple} (ht : t.Unnested) :
    Keeps (Flat sane n) (assert t : Work γ Unit) := by
  refine keeps_of_leaves fun e he => leaves_get_bind ?_
  have haccess : (access (e.deductions.add t) : Work γ (Bool × MemoryGraph)).Leaves e
      fun result _ => result.2.Sound ∧ result.2.Flat :=
    leaves_access fun _ hadded => MemoryGraph.keepsFlat.add he.deductions ht hadded
  refine haccess.bind fun _ _ hdeductions => leaves_set_bind ?_
  refine Keeps.leaves (P := Flat sane n) (keeps_ite (keeps_bind (keeps_inBase t) fun _ => ?_)
    (keeps_pure _)) (he.replace he.base hdeductions)
  exact keeps_ite (keeps_pure _) (keeps_queue_flat _)

theorem keeps_removeEverywhere_flat (hsane : Graph.KeepsFlat sane) (announced : Bool)
    (t : Triple) : Keeps (Flat sane n) (removeEverywhere announced t : Work γ Unit) := by
  refine keeps_of_leaves fun e he => leaves_get_bind ?_
  have haccess : (access (Graph.delete e.base t) : Work γ (Bool × γ)).Leaves e
      fun result _ => sane result.2 := leaves_access fun _ hdeleted => hsane.delete he.base hdeleted
  refine haccess.bind fun _ _ hbase => leaves_set_bind ?_
  refine Keeps.leaves (P := Flat sane n) (keeps_bind (keeps_retractDeduction_flat t) fun _ => ?_)
    (he.replace hbase he.deductions)
  exact keeps_bind (keeps_modify fun _ he => he.of_eq rfl rfl rfl rfl)
    fun _ => keeps_ite (keeps_queue_flat _) (keeps_pure _)

theorem keeps_settleFiring_flat (hsane : Graph.KeepsFlat sane) (a : Activation)
    (c : CompiledRule) (matched : List (Option Triple)) {conclusions : List Triple}
    (hconclusions : ∀ t ∈ conclusions, t.Unnested) (effects : Effects) :
    Keeps (Flat sane n) (settleFiring a c matched conclusions effects : Work γ Unit) := by
  have hreport : Keeps (Flat sane n) (report c conclusions : Work γ Unit) := by
    refine keeps_modify fun e he => ?_
    split <;> exact he.of_eq rfl rfl rfl rfl
  refine keeps_bind (keeps_count_flat _) fun _ => keeps_bind hreport fun _ =>
    keeps_bind (keeps_modify fun _ he => he.of_eq rfl rfl rfl rfl)
    fun _ => keeps_bind (keeps_modify fun _ he => he.setFiring a _) fun _ => ?_
  refine keeps_bind (keeps_forM_each fun t ht => keeps_bind (keeps_credit_flat a c matched t)
    fun _ => keeps_assert_flat (hconclusions t ht)) fun _ => ?_
  exact keeps_bind (keeps_forM (keeps_removeEverywhere_flat hsane true) _) fun _ =>
    keeps_forM (keeps_removeEverywhere_flat hsane false) _

theorem keeps_fire_flat (hsane : Graph.KeepsFlat sane) (hn : n.DrawsFlat) (a : Activation) :
    Keeps (Flat sane n) (fire a : Work γ Unit) := by
  refine keeps_get_bind fun e he => ?_
  split
  · rename_i c _ hc
    refine keeps_of_leaves fun e₁ he₁ => ?_
    have hbindings : (attempt (c.bindings (e.matchedBy a)) : Work γ Bindings).Leaves e₁
        fun b e' => Flat sane n e' ∧ c.bindings (e.matchedBy a) = .ok b :=
      leaves_attempt fun _ hb => ⟨he₁, hb⟩
    refine hbindings.bind fun b e₂ ⟨he₂, hb⟩ => ?_
    refine Keeps.leaves (P := Flat sane n) ?_ he₂
    refine keeps_bind (keeps_set (he.of_eq rfl rfl rfl rfl)) fun _ => ?_
    split
    · exact keeps_bind (keeps_count_flat _) fun _ => keeps_modify fun _ he => he.setFiring a _
    · rename_i conclusions hanswer
      refine keeps_settleFiring_flat hsane a c _ ?_ _
      rw [he.network_eq] at hc hanswer
      exact hn a.rule c hc _ b _ _ conclusions _
        (fun t ht => (he.memory a.rule).triples a.token t ht) hb (Prod.ext hanswer rfl)
  · exact keeps_pure _

theorem keeps_recheck_flat : Keeps (Flat sane n) (recheck : Work γ Bool) := by
  have hholds : ∀ (c : CompiledRule) triples,
      Keeps (Flat sane n) (stillHolds c triples : Work γ Bool) := fun c triples =>
    keeps_get_bind fun _ he => keeps_bind (keeps_attempt _) fun _ =>
      keeps_bind (keeps_set (he.of_eq rfl rfl rfl rfl)) fun _ => keeps_pure _
  have hreconsider : ∀ c a fired, Keeps (Flat sane n) (reconsider c a fired : Work γ Bool) :=
    fun c a fired => keeps_get_bind fun _ _ => keeps_bind (hholds c _) fun _ => keeps_ite
      (keeps_bind (keeps_modify fun _ he => he.setFiring a _) fun _ =>
        keeps_bind (keeps_retract_flat a _ _) fun _ => keeps_pure _)
      (keeps_ite (keeps_bind (keeps_schedule_flat a) fun _ => keeps_pure _) (keeps_pure _))
  exact keeps_get_bind fun _ _ => keeps_bind (keeps_mapM (fun _ => keeps_get_bind fun _ _ =>
    keeps_bind (keeps_mapM (fun _ => hreconsider _ _ _) _) fun _ => keeps_pure _) _)
      fun _ => keeps_pure _

/-- A piece of work leaves the engine flat. -/
theorem keeps_step_flat (hsane : Graph.KeepsFlat sane) (hn : n.DrawsFlat) (rechecks : Nat) :
    Keeps (Flat sane n) (step rechecks : Work γ (Option Nat)) := by
  refine keeps_get_bind fun e he => ?_
  split
  · exact keeps_bind (keeps_set (he.of_eq rfl rfl rfl rfl)) fun _ =>
      keeps_bind (keeps_propagate_flat hsane _) fun _ => keeps_pure _
  · exact keeps_bind (keeps_set (he.of_eq rfl rfl rfl rfl)) fun _ =>
      keeps_bind (keeps_fire_flat hsane hn _) fun _ => keeps_pure _
  · exact keeps_bind (keeps_set (he.of_eq rfl rfl rfl rfl)) fun _ =>
      keeps_bind (keeps_checkSupport_flat _) fun _ => keeps_pure _
  · exact keeps_ite (keeps_pure _) (keeps_bind (keeps_count_flat _) fun _ =>
      keeps_bind keeps_recheck_flat fun _ => keeps_ite (keeps_pure _) (keeps_pure _))

/-- A request leaves the engine flat, unless it adds what is not. -/
theorem keeps_request_flat (hsane : Graph.KeepsFlat sane) {o : Operation} (hopen : o ≠ .close)
    (ho : ∀ t, o = .add t → t.Unnested) : Keeps (Flat sane n) (o.request : Work γ Unit) := by
  cases o with
  | recompute =>
      refine keeps_bind (keeps_modify fun _ he => he.reset) fun _ => keeps_get_bind fun _ he =>
        keeps_bind (keeps_attempt _) fun _ => keeps_bind (keeps_set (he.of_eq rfl rfl rfl rfl))
          fun _ => ?_
      exact keeps_forM (fun _ => keeps_modify fun e he =>
        (he.setFiring ⟨_, e.nextToken⟩ .pending).of_eq rfl rfl rfl rfl) _
  | add t =>
      refine keeps_bind (keeps_of_leaves fun e he => leaves_get_bind ?_) fun _ => keeps_pure _
      have haccess : (access (Graph.add e.base t) : Work γ (Bool × γ)).Leaves e
          fun result _ => sane result.2 :=
        leaves_access fun _ hadded => hsane.add he.base (ho t rfl) hadded
      refine haccess.bind fun _ _ hbase => leaves_set_bind ?_
      exact Keeps.leaves (P := Flat sane n) (keeps_ite (keeps_bind (keeps_queue_flat _)
        fun _ => keeps_pure _) (keeps_pure _)) (he.replace hbase he.deductions)
  | delete t =>
      refine keeps_bind (keeps_of_leaves fun e he => leaves_get_bind ?_) fun _ => keeps_pure _
      have haccess : (access (Graph.delete e.base t) : Work γ (Bool × γ)).Leaves e
          fun result _ => sane result.2 :=
        leaves_access fun _ hdeleted => hsane.delete he.base hdeleted
      refine haccess.bind fun _ _ hbase => leaves_set_bind ?_
      refine Keeps.leaves (P := Flat sane n) (keeps_ite ?_ ?_) (he.replace hbase he.deductions)
      · exact keeps_ite (keeps_bind (keeps_modify fun _ he => he.of_eq rfl rfl rfl rfl)
          fun _ => keeps_pure _) (keeps_bind (keeps_queue_flat _) fun _ => keeps_pure _)
      · exact keeps_bind (keeps_retractDeduction_flat t) fun _ => keeps_ite
          (keeps_bind (keeps_modify fun _ he => he.of_eq rfl rfl rfl rfl) fun _ => keeps_pure _)
          (keeps_pure _)
  | announce event => exact keeps_queue_flat event
  | close => exact absurd rfl hopen

end Work

/-! ## Histories -/

namespace Engine

variable {γ : Type} [Graph γ] {sane : γ → Prop} {n : Network} {e : Engine γ}

theorem Flat.of_refused {e' : Engine γ} (h : e.Flat sane n) {o : Operation} {cause : Failure}
    (hrefused : o.request e = .error cause e') : e'.Flat sane n := by
  obtain rfl | ⟨_, rfl, _⟩ | ⟨_, _, _, _, hdelete, _⟩ := (Operation.refusal hrefused).2
  · exact h
  · exact h.reset
  · -- The deductions refuse nothing.
    rw [h.deductions.1.delete_eq] at hdelete
    cases hdelete

/-- Whatever is done to it, the engine is flat until it is closed.  Then it deduces
nothing. -/
theorem Operated.flat (hsane : Graph.KeepsFlat sane) (hn : n.DrawsFlat)
    (h : Operated n sane (fun o => ∀ t, o = .add t → t.Unnested) e) :
    (e.isClosed = true ∧ e.deductions = .empty) ∨ e.Flat sane n := by
  induction h with
  | start hbase => exact Or.inr (.start hbase)
  | @performed e e' o _ _ ho hleaves ih =>
      rcases Operation.leaves_cases hleaves with
        ⟨_, rfl⟩ | ⟨_, rfl⟩ | ⟨hopen, cause, hrefused⟩ | ⟨hopen, e₁, hgranted, hrun⟩
      · exact ih
      · exact Or.inl ⟨rfl, rfl⟩
      all_goals
        have he : e.Flat sane n := ih.resolve_left fun hclosed => by
          rw [hopen] at hclosed
          cases hclosed.1
      · exact Or.inr (he.of_refused hrefused)
      · by_cases hclose : o = .close
        · subst hclose
          cases hleaves
          exact Or.inl ⟨rfl, rfl⟩
        have he₁ := Work.keeps_request_flat hsane hclose ho e () e₁ he hgranted
        rcases run_leaves (fun rechecks => Work.keeps_step_flat hsane hn rechecks)
          (fun _ he => he.of_eq rfl rfl rfl rfl) he₁ hrun with he' | ⟨_, rfl⟩
        · exact Or.inr he'
        · exact Or.inl ⟨rfl, rfl⟩
  | rebased _ hbase ih =>
      exact ih.imp id fun he => ⟨he.network_eq, hbase, he.deductions, he.tokens⟩
  | logging _ ih => exact ih.imp id fun he => he.of_eq rfl rfl rfl rfl
  | settings _ ih => exact ih.imp id fun he => he.of_eq rfl rfl rfl rfl

/-- Over flat facts, sheltered rules whose calls only bind deduce flat facts, whatever is
added, deleted, announced, recomputed and closed, and even if others change the base. -/
theorem flat_of_operated {rules : List Rule} {registry : Registry}
    (hn : Network.compile rules registry = .ok n)
    (hbinds : ∀ name b, registry.get? name = some b → b.Binds)
    (hrules : ∀ rule ∈ rules, rule.Sheltered registry) (hsane : Graph.KeepsFlat sane)
    (h : Operated n sane (fun o => ∀ t, o = .add t → t.Unnested) e) :
    ∀ t, (e.deductions.contains t = true ∨ t ∈ e.deductions.triples) → t.Unnested := by
  have hdeductions : e.deductions.Sound ∧ e.deductions.Flat := by
    rcases h.flat hsane (Network.drawsFlat_of_compile hn hbinds hrules) with ⟨_, hnone⟩ | he
    · rw [hnone]
      exact ⟨MemoryGraph.sound_empty, MemoryGraph.flat_empty⟩
    · exact he.deductions
  rintro t (ht | ht)
  · exact hdeductions.2 t ht
  · exact (MemoryGraph.keepsFlat.find hdeductions rfl t ht).unnested

/-- What is owned and is no functor is labelled together with a part of the owner and
with something new. -/
def labelling : Rule :=
  .make none
    [.pattern ⟨.var ⟨"x", 0⟩, .uri "owns", .var ⟨"y", 1⟩⟩, .call ⟨"notFunctor", [.var ⟨"y", 1⟩]⟩,
      .pattern ⟨.var ⟨"x", 0⟩, .uri "has", .functor "part" [.var ⟨"z", 2⟩]⟩]
    [.pattern ⟨.var ⟨"x", 0⟩, .uri "keeps",
      .functor "label" [.var ⟨"y", 1⟩, .var ⟨"z", 2⟩, .var ⟨"w", 3⟩]⟩] .forward

def labelNetwork : Network :=
  ((Network.compile [labelling] Registry.standard).toOption).getD default

def labelFacts : List Triple :=
  [⟨.uri "a", .uri "owns", .uri "b"⟩, ⟨.uri "a", .uri "owns", .functor "box" [.integer 1]⟩,
    ⟨.uri "a", .uri "has", .functor "part" [.integer 2]⟩]

/-- The conclusions from the facts. -/
def labelled : Engine MemoryGraph :=
  let e := start labelNetwork (labelFacts.foldl MemoryGraph.plus .empty)
  ((Operation.recompute.perform 40 e).state?).getD e

theorem sheltered_labelling : labelling.Sheltered Registry.standard := by
  have hbody : labelling.body =
      [.pattern ⟨.var ⟨"x", 0⟩, .uri "owns", .var ⟨"y", 1⟩⟩,
        .call ⟨"notFunctor", [.var ⟨"y", 1⟩]⟩,
        .pattern ⟨.var ⟨"x", 0⟩, .uri "has", .functor "part" [.var ⟨"z", 2⟩]⟩] := by rfl
  have hhead : labelling.head = [.pattern ⟨.var ⟨"x", 0⟩, .uri "keeps",
      .functor "label" [.var ⟨"y", 1⟩, .var ⟨"z", 2⟩, .var ⟨"w", 3⟩]⟩] := by rfl
  have hcall : Registry.standard.get? "notFunctor" =
      some (Builtin.kindTest "notFunctor" fun n => n.isGround && !n.isFunctor) := by rfl
  have hfilled : labelling.filledIndexes = [1, 2, 3] := by decide +kernel
  intro i hi
  rw [hfilled, List.mem_cons, List.mem_cons, List.mem_singleton] at hi
  rcases hi with rfl | rfl | rfl
  · -- A call restricts what is owned.
    refine Or.inr (Or.inl ⟨⟨"notFunctor", [.var ⟨"y", 1⟩]⟩, by simp [hbody], ?_⟩)
    exact Call.restricts_of_kindTest hcall fun n hn => by simpa using hn
  · -- The part is inside a functor of the body.
    exact Or.inl ⟨⟨.var ⟨"x", 0⟩, .uri "has", .functor "part" [.var ⟨"z", 2⟩]⟩,
      by simp [hbody], by decide⟩
  · -- What is new is named in the head only.
    refine Or.inr (Or.inr ⟨by decide +kernel, fun c hc => ?_⟩)
    simp only [Rule.clauses, hbody, hhead, List.cons_append, List.nil_append, List.mem_cons,
      List.not_mem_nil, or_false, reduceCtorEq, false_or, Clause.call.injEq] at hc
    rw [hc]
    exact Call.ignores_of_test hcall 3

theorem operated_of_plus {n : Network} {facts : List Triple} {budget : Nat} {e : Engine MemoryGraph}
    (hfacts : ∀ t ∈ facts, t.FlatFact)
    (h : (Operation.recompute.perform budget
      (start n (facts.foldl MemoryGraph.plus .empty))).state? = some e) :
    Operated n (fun base => base.Sound ∧ base.Flat) (fun o => ∀ t, o = .add t → t.Unnested) e := by
  have hbase : ∀ (facts : List Triple) (g : MemoryGraph), (∀ t ∈ facts, t.FlatFact) →
      g.Sound ∧ g.Flat → (facts.foldl MemoryGraph.plus g).Sound ∧
        (facts.foldl MemoryGraph.plus g).Flat := by
    intro facts
    induction facts with
    | nil => exact fun _ _ hg => hg
    | cons t facts ih =>
        intro g hfacts hg
        refine ih _ (fun u hu => hfacts u (List.mem_cons_of_mem _ hu)) ?_
        have ht := hfacts t List.mem_cons_self
        exact MemoryGraph.keepsFlat.add hg ht.unnested (hg.1.add_eq ht.ground)
  refine .performed (.start (hbase facts _ hfacts ⟨MemoryGraph.sound_empty,
    MemoryGraph.flat_empty⟩)) (fun t hadd => ?_) h
  cases hadd

theorem flat_of_operated_labelling : labelled.deductions.size = 1 ∧
    ∀ t, (labelled.deductions.contains t = true ∨ t ∈ labelled.deductions.triples) →
      t.Unnested := by
  have hfacts : ∀ t ∈ labelFacts, t.FlatFact := by
    have hall : ∀ t ∈ labelFacts, t.isGround = true ∧ t.MadeOf fun m => m.isNested = false := by
      unfold Triple.MadeOf
      decide +kernel
    exact fun t ht => ⟨(hall t ht).1, (hall t ht).2⟩
  have hoperated := operated_of_plus (n := labelNetwork) (e := labelled) hfacts
    (Outcome.state?_eq_getD (by decide +kernel) _)
  refine ⟨by decide +kernel, flat_of_operated (ok_getD_of_isSome (by decide +kernel))
    Registry.binds_standard ?_ MemoryGraph.keepsFlat hoperated⟩
  intro rule hrule
  obtain rfl := List.mem_singleton.1 hrule
  exact sheltered_labelling

/-! ## Functors that do nest -/

/-- What is owned is boxed, a functor as well. -/
def boxing : Rule :=
  .make none [.pattern ⟨.var ⟨"x", 0⟩, .uri "owns", .var ⟨"y", 1⟩⟩]
    [.pattern ⟨.var ⟨"x", 0⟩, .uri "keeps", .functor "box" [.var ⟨"y", 1⟩]⟩] .forward

def boxNetwork : Network :=
  ((Network.compile [boxing] Registry.standard).toOption).getD default

def boxedFact : Triple := ⟨.uri "a", .uri "owns", .functor "part" [.integer 1]⟩

/-- The conclusions from the one fact. -/
def boxed : Engine MemoryGraph :=
  let e := start boxNetwork (MemoryGraph.empty.plus boxedFact)
  ((Operation.recompute.perform 20 e).state?).getD e

/-- A variable that the patterns of the body give a functor brings it into a functor of
the head. -/
theorem not_flat_of_operated_boxing :
    Network.compile [boxing] Registry.standard = .ok boxNetwork ∧
      Operated boxNetwork (fun base => base.Sound ∧ base.Flat)
        (fun o => ∀ t, o = .add t → t.Unnested) boxed ∧
      boxed.deductions.contains
        ⟨.uri "a", .uri "keeps", .functor "box" [.functor "part" [.integer 1]]⟩ = true ∧
      ¬ Triple.Unnested
        ⟨.uri "a", .uri "keeps", .functor "box" [.functor "part" [.integer 1]]⟩ := by
  have hfact : ∀ t ∈ [boxedFact], t.FlatFact := by
    have hall : ∀ t ∈ [boxedFact], t.isGround = true ∧ t.MadeOf fun m => m.isNested = false := by
      unfold Triple.MadeOf
      decide +kernel
    exact fun t ht => ⟨(hall t ht).1, (hall t ht).2⟩
  refine ⟨ok_getD_of_isSome (by decide +kernel),
    operated_of_plus hfact (Outcome.state?_eq_getD (by decide +kernel) _), by decide +kernel, ?_⟩
  intro hflat
  have hnode := hflat (.functor "box" [.functor "part" [.integer 1]]) (by simp [Triple.nodes])
  cases hnode

end Engine

end Entailment
