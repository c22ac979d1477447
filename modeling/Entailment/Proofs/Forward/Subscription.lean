import Entailment.Forward.Network
import Entailment.Proofs.Matching.Ground
import Entailment.Proofs.Matching.Shape

/-!
# Which subscribers a triple activates

The network of compiled rules lists every level of every rule under the shape of its
pattern.  A triple that fits the pattern activates the level, provided that the
predicate of the pattern is not a functor with variables in it: such a pattern is
filed under its own predicate, which no triple has, and is never activated.
-/

namespace Entailment

namespace Node

variable {σ : Type} {onVar : σ → Var → Node × σ} {onAny : σ → Node × σ}

mutual
theorem traverse_of_ground (st : σ) {n : Node} (h : n.isGround = true) :
    n.traverse onVar onAny st = (n, st) := by
  cases n with
  | var v => cases h
  | any => cases h
  | functor f args => rw [traverse, traverseAll_of_ground st h]
  | _ => rfl

theorem traverseAll_of_ground (st : σ) {ns : List Node} (h : allGround ns = true) :
    traverseAll onVar onAny st ns = (ns, st) := by
  match ns with
  | [] => rfl
  | n :: ns =>
      rw [allGround, Bool.and_eq_true] at h
      rw [traverseAll, traverse_of_ground st h.1]
      simp only
      rw [traverseAll_of_ground st h.2]
end

end Node

namespace Node

mutual
theorem isGround_traverse_place (met : ShapeNumbering) (n : Node) :
    (n.traverse ShapeNumbering.place ShapeNumbering.keepAny met).1.isGround = n.isGround := by
  cases n with
  | var v =>
      simp only [traverse, ShapeNumbering.place]
      split <;> rfl
  | functor f args =>
      rw [traverse, isGround]
      exact allGround_traverseAll_place met args
  | _ => rfl

theorem allGround_traverseAll_place (met : ShapeNumbering) (ns : List Node) :
    allGround (traverseAll ShapeNumbering.place ShapeNumbering.keepAny met ns).1 =
      allGround ns := by
  match ns with
  | [] => rfl
  | n :: ns =>
      rw [traverseAll, allGround, allGround, isGround_traverse_place met n,
        allGround_traverseAll_place _ ns]
end

end Node

namespace Triple

/-- The predicate is a variable or a wildcard. -/
def hasOpenPredicate (p : Triple) : Bool := p.predicate.isVariable || p.predicate.isAny

/-- The predicate is open altogether or not at all. -/
def hasPlainPredicate (p : Triple) : Bool := p.hasOpenPredicate || p.predicate.isGround

theorem hasOpenPredicate_shape (p : Triple) : p.shape.hasOpenPredicate = p.hasOpenPredicate := by
  change (p.predicate.traverse ShapeNumbering.place ShapeNumbering.keepAny
      (p.subject.traverse ShapeNumbering.place ShapeNumbering.keepAny []).2).1.isVariable.or
    (p.predicate.traverse ShapeNumbering.place ShapeNumbering.keepAny
      (p.subject.traverse ShapeNumbering.place ShapeNumbering.keepAny []).2).1.isAny = _
  rw [hasOpenPredicate]
  cases p.predicate with
  | var v =>
      simp only [Node.traverse, ShapeNumbering.place]
      split <;> rfl
  | _ => rfl

theorem isGround_predicate_shape (p : Triple) :
    p.shape.predicate.isGround = p.predicate.isGround :=
  Node.isGround_traverse_place _ p.predicate

theorem predicate_shape_of_ground {p : Triple} (h : p.predicate.isGround = true) :
    p.shape.predicate = p.predicate := by
  change (p.predicate.traverse ShapeNumbering.place ShapeNumbering.keepAny _).1 = _
  rw [Node.traverse_of_ground _ h]

theorem hasOpenPredicate_congr {p q : Triple} (h : (p == q) = true) :
    p.hasOpenPredicate = q.hasOpenPredicate := by
  have hpredicate := (beq_iff.1 h).2.1
  rw [hasOpenPredicate, hasOpenPredicate]
  revert hpredicate
  cases p.predicate <;> cases q.predicate <;> intro h <;> first | rfl | cases h

theorem hasPlainPredicate_of_shape_beq {p q : Triple} (h : (p.shape == q.shape) = true) :
    p.hasPlainPredicate = q.hasPlainPredicate := by
  rw [hasPlainPredicate, hasPlainPredicate, ← hasOpenPredicate_shape p, ← hasOpenPredicate_shape q,
    hasOpenPredicate_congr h, ← isGround_predicate_shape p, ← isGround_predicate_shape q,
    Node.isGround_congr (beq_iff.1 h).2.1]

end Triple

namespace SharedPattern

/-- A pattern made by `Network.subscribe` accepts what fits any triple of its shape. -/
theorem accepts_of_fits {q : SharedPattern} {origin p t : Triple} {σ : Assignment}
    (hshape : q.shape = origin.shape) (hcount : q.varCount = origin.varCount)
    (hsame : (q.shape == p.shape) = true) (ht : t.isGround = true) (hfits : p.Fits σ t) :
    q.accepts t = true := by
  obtain ⟨τ, hτ⟩ := Triple.shape_fits hfits
  have hq : q.shape.Fits τ t := Triple.fits_of_beq (BEq.symm hsame) hτ
  have hvars : ∀ i ∈ q.shape.indexes, i < (Bindings.empty q.varCount).length := by
    intro i hi
    rw [Bindings.length_empty, hcount]
    rw [hshape] at hi
    exact Triple.lt_varCount_of_mem_indexes_shape hi
  have hadmits : (Bindings.empty q.varCount).Admits τ := by
    intro i n h
    rw [Bindings.held?_empty] at h
    cases h
  obtain ⟨b, hb⟩ :=
    (Bindings.ground_empty q.varCount).exists_matching? ht hvars hadmits hq
  rw [accepts, hb]
  rfl

end SharedPattern

namespace Network

/-- A pattern of this shape lists the subscriber. -/
def Listens (n : Network) (p : Triple) (s : Subscriber) : Prop :=
  ∃ q ∈ n.patterns, (q.shape == p.shape) = true ∧ s ∈ q.subscribers

/-- Every pattern is filed under its predicate, or as open. -/
structure Filed (n : Network) : Prop where
  shaped : ∀ q ∈ n.patterns, ∃ p : Triple, q.shape = p.shape ∧ q.varCount = p.varCount
  open_iff : ∀ place, place ∈ n.openPredicate ↔
    ∃ q, n.patterns[place]? = some q ∧ q.shape.hasOpenPredicate = true
  keyed_iff : ∀ predicate place, place ∈ (n.byPredicate.get? predicate).getD [] ↔
    ∃ q, n.patterns[place]? = some q ∧ q.shape.hasOpenPredicate = false ∧
      (q.shape.predicate == predicate) = true

theorem Filed.empty (registry : Registry) : ({ registry } : Network).Filed where
  shaped q hq := by cases hq
  open_iff place := ⟨(fun h => nomatch h), fun ⟨_, h, _⟩ => nomatch h⟩
  keyed_iff predicate place := ⟨(fun h => nomatch h), fun ⟨_, h, _⟩ => nomatch h⟩

theorem getElem?_push_iff {α : Type} {as : List α} {a b : α} {i : Nat} :
    (as ++ [a])[i]? = some b ↔ as[i]? = some b ∨ i = as.length ∧ b = a := by
  rw [List.getElem?_append]
  split
  · rename_i hlow
    constructor
    · exact Or.inl
    · rintro (h | ⟨rfl, _⟩)
      · exact h
      · exact absurd hlow (Nat.lt_irrefl _)
  · rename_i hlow
    have hnone : as[i]? = none := List.getElem?_eq_none (Nat.le_of_not_lt hlow)
    rw [List.getElem?_singleton, hnone]
    split
    · have hi : i = as.length := by omega
      simp [hi, eq_comm]
    · have hi : i ≠ as.length := by omega
      simp [hi]

theorem Filed.addPattern {n : Network} (hn : n.Filed) {q : SharedPattern}
    (hq : ∃ p : Triple, q.shape = p.shape ∧ q.varCount = p.varCount) :
    (n.addPattern q).Filed ∧ (n.addPattern q).patterns = n.patterns ++ [q] := by
  have hshaped : ∀ other ∈ n.patterns ++ [q],
      ∃ p : Triple, other.shape = p.shape ∧ other.varCount = p.varCount := by
    intro other hother
    rcases List.mem_append.1 hother with hold | hnew
    · exact hn.shaped other hold
    · exact List.mem_singleton.1 hnew ▸ hq
  unfold Network.addPattern
  simp only
  change (if q.shape.hasOpenPredicate = true then _ else _ : Network).Filed ∧
    (if q.shape.hasOpenPredicate = true then _ else _ : Network).patterns = _
  cases hopen : q.shape.hasOpenPredicate with
  | true =>
      refine ⟨⟨hshaped, ?_, ?_⟩, rfl⟩
      · intro place
        simp only [if_true, List.mem_append, List.mem_singleton, hn.open_iff, getElem?_push_iff]
        constructor
        · rintro (⟨other, hother, hopen'⟩ | rfl)
          · exact ⟨other, Or.inl hother, hopen'⟩
          · exact ⟨q, Or.inr ⟨rfl, rfl⟩, hopen⟩
        · rintro ⟨other, hother | ⟨rfl, rfl⟩, hopen'⟩
          · exact Or.inl ⟨other, hother, hopen'⟩
          · exact Or.inr rfl
      · intro predicate place
        simp only [if_true, hn.keyed_iff, getElem?_push_iff]
        constructor
        · rintro ⟨other, hother, hrest⟩
          exact ⟨other, Or.inl hother, hrest⟩
        · rintro ⟨other, hother | ⟨rfl, rfl⟩, hclosed, hrest⟩
          · exact ⟨other, hother, hclosed, hrest⟩
          · rw [hopen] at hclosed
            cases hclosed
  | false =>
      refine ⟨⟨hshaped, ?_, ?_⟩, rfl⟩
      · intro place
        simp only [Bool.false_eq_true, if_false, hn.open_iff, getElem?_push_iff]
        constructor
        · rintro ⟨other, hother, hopen'⟩
          exact ⟨other, Or.inl hother, hopen'⟩
        · rintro ⟨other, hother | ⟨rfl, rfl⟩, hopen'⟩
          · exact ⟨other, hother, hopen'⟩
          · rw [hopen] at hopen'
            cases hopen'
      · intro predicate place
        have hbefore := hn.keyed_iff predicate place
        simp only [Bool.false_eq_true, if_false, OrderedMap.get?_alter, getElem?_push_iff]
        constructor
        · intro hmem
          split at hmem
          · rename_i hsame
            rcases List.mem_append.1 hmem with hold | hnew
            · obtain ⟨other, hother, hrest⟩ := hbefore.1 hold
              exact ⟨other, Or.inl hother, hrest⟩
            · exact ⟨q, Or.inr ⟨List.mem_singleton.1 hnew, rfl⟩, hopen, hsame⟩
          · obtain ⟨other, hother, hrest⟩ := hbefore.1 hmem
            exact ⟨other, Or.inl hother, hrest⟩
        · rintro ⟨other, hother | ⟨rfl, rfl⟩, hclosed, hsame⟩
          · have hmem := hbefore.2 ⟨other, hother, hclosed, hsame⟩
            split
            · exact List.mem_append_left _ hmem
            · exact hmem
          · rw [if_pos hsame]
            exact List.mem_append_right _ (List.mem_singleton.2 rfl)

theorem getElem?_modify_subscribe_iff {patterns : List SharedPattern} {place i : Nat}
    {s : Subscriber} {q : SharedPattern} :
    (patterns.modify place (·.subscribe s))[i]? = some q ↔
      ∃ old, patterns[i]? = some old ∧ q = if place = i then old.subscribe s else old := by
  rw [List.getElem?_modify]
  constructor
  · intro h
    obtain ⟨old, hold, hq⟩ := Option.map_eq_some_iff.1 h
    exact ⟨old, hold, by rw [← hq]⟩
  · rintro ⟨old, hold, rfl⟩
    rw [hold]
    split <;> rfl

theorem shape_ite_subscribe (P : Prop) [Decidable P] (s : Subscriber) (q : SharedPattern) :
    (if P then q.subscribe s else q).shape = q.shape ∧
      (if P then q.subscribe s else q).varCount = q.varCount := by
  split <;> exact ⟨rfl, rfl⟩

/-- Subscribing keeps the filing and the subscriptions, and adds one. -/
structure Subscribes (n n' : Network) (p : Triple) (s : Subscriber) : Prop where
  filed : n'.Filed
  rules : n'.rules = n.rules
  registry : n'.registry = n.registry
  keeps : ∀ p' s', n.Listens p' s' → n'.Listens p' s'
  listens : n'.Listens p s
  origin : ∀ p' s', n'.Listens p' s' → n.Listens p' s' ∨ s' = s ∧ (p.shape == p'.shape) = true

theorem Filed.modifySubscribe {n : Network} (hn : n.Filed) (place : Nat) (s : Subscriber) :
    ({ n with patterns := n.patterns.modify place (·.subscribe s) } : Network).Filed where
  shaped q hq := by
    obtain ⟨i, hi⟩ := List.getElem?_of_mem hq
    obtain ⟨old, hold, rfl⟩ := getElem?_modify_subscribe_iff.1 hi
    rw [(shape_ite_subscribe _ s old).1, (shape_ite_subscribe _ s old).2]
    exact hn.shaped old (List.mem_of_getElem? hold)
  open_iff i := by
    rw [hn.open_iff]
    constructor
    · rintro ⟨old, hold, hopen⟩
      refine ⟨_, getElem?_modify_subscribe_iff.2 ⟨old, hold, rfl⟩, ?_⟩
      rw [(shape_ite_subscribe _ s old).1]
      exact hopen
    · rintro ⟨q, hq, hopen⟩
      obtain ⟨old, hold, rfl⟩ := getElem?_modify_subscribe_iff.1 hq
      rw [(shape_ite_subscribe _ s old).1] at hopen
      exact ⟨old, hold, hopen⟩
  keyed_iff predicate i := by
    rw [hn.keyed_iff]
    constructor
    · rintro ⟨old, hold, hrest⟩
      refine ⟨_, getElem?_modify_subscribe_iff.2 ⟨old, hold, rfl⟩, ?_⟩
      rw [(shape_ite_subscribe _ s old).1]
      exact hrest
    · rintro ⟨q, hq, hrest⟩
      obtain ⟨old, hold, rfl⟩ := getElem?_modify_subscribe_iff.1 hq
      rw [(shape_ite_subscribe _ s old).1] at hrest
      exact ⟨old, hold, hrest⟩

theorem Filed.subscribe {n : Network} (hn : n.Filed) (p : Triple) (s : Subscriber) :
    Subscribes n (n.subscribe p s) p s := by
  unfold Network.subscribe
  cases hplace : n.patterns.findIdx? fun q => q.shape == p.shape with
  | none =>
      obtain ⟨hfiled, hpatterns⟩ :=
        hn.addPattern (q := ⟨p.shape, p.varCount, [s]⟩) ⟨p, rfl, rfl⟩
      have hfixed : (n.addPattern ⟨p.shape, p.varCount, [s]⟩).rules = n.rules ∧
          (n.addPattern ⟨p.shape, p.varCount, [s]⟩).registry = n.registry := by
        unfold Network.addPattern
        simp only
        split <;> exact ⟨rfl, rfl⟩
      refine ⟨hfiled, hfixed.1, hfixed.2, ?_, ?_, ?_⟩
      · rintro p' s' ⟨q, hq, hshape, hs⟩
        exact ⟨q, hpatterns ▸ List.mem_append_left _ hq, hshape, hs⟩
      · refine ⟨⟨p.shape, p.varCount, [s]⟩, ?_, BEq.rfl, List.mem_singleton.2 rfl⟩
        rw [hpatterns]
        exact List.mem_append_right _ (List.mem_singleton.2 rfl)
      · rintro p' s' ⟨q, hq, hshape, hs⟩
        rw [hpatterns] at hq
        rcases List.mem_append.1 hq with hq | hq
        · exact Or.inl ⟨q, hq, hshape, hs⟩
        · obtain rfl := List.mem_singleton.1 hq
          exact Or.inr ⟨List.mem_singleton.1 hs, hshape⟩
  | some place =>
      obtain ⟨hlt, hsame, _⟩ := List.findIdx?_eq_some_iff_getElem.1 hplace
      refine ⟨hn.modifySubscribe place s, rfl, rfl, ?_, ?_, ?_⟩
      · rintro p' s' ⟨q, hq, hshape, hs⟩
        obtain ⟨i, hi⟩ := List.getElem?_of_mem hq
        refine ⟨_, List.mem_of_getElem? (getElem?_modify_subscribe_iff.2 ⟨q, hi, rfl⟩), ?_, ?_⟩
        · rw [(shape_ite_subscribe _ s q).1]
          exact hshape
        · split
          · exact List.mem_append_left _ hs
          · exact hs
      · have hget : n.patterns[place]? = some n.patterns[place] := List.getElem?_eq_getElem hlt
        refine ⟨_, List.mem_of_getElem? (getElem?_modify_subscribe_iff.2 ⟨_, hget, rfl⟩), ?_, ?_⟩
        · rw [(shape_ite_subscribe _ s _).1]
          exact hsame
        · rw [if_pos rfl]
          exact List.mem_append_right _ (List.mem_singleton.2 rfl)
      · rintro p' s' ⟨q, hq, hshape, hs⟩
        obtain ⟨i, hi⟩ := List.getElem?_of_mem hq
        obtain ⟨old, hold, rfl⟩ := getElem?_modify_subscribe_iff.1 hi
        rw [(shape_ite_subscribe _ s old).1] at hshape
        split at hs
        · rename_i hi'
          rcases List.mem_append.1 hs with hearlier | hnew
          · exact Or.inl ⟨old, List.mem_of_getElem? hold, hshape, hearlier⟩
          · right
            subst hi'
            rw [List.getElem?_eq_getElem hlt] at hold
            obtain rfl := Option.some.inj hold
            exact ⟨List.mem_singleton.1 hnew, BEq.trans (BEq.symm hsame) hshape⟩
        · exact Or.inl ⟨old, List.mem_of_getElem? hold, hshape, hs⟩

/-- A triple activates the subscribers of the patterns that it fits. -/
theorem Filed.mem_activations {n : Network} (hn : n.Filed) {p t : Triple} {s : Subscriber}
    {σ : Assignment} (hs : n.Listens p s) (hplain : p.hasPlainPredicate = true)
    (ht : t.isGround = true) (hfits : p.Fits σ t) : s ∈ n.activations t := by
  obtain ⟨q, hq, hsame, hmem⟩ := hs
  obtain ⟨place, hplace⟩ := List.getElem?_of_mem hq
  obtain ⟨origin, hshape, hcount⟩ := hn.shaped q hq
  have haccepts := SharedPattern.accepts_of_fits hshape hcount hsame ht hfits
  have hopen : q.shape.hasOpenPredicate = p.hasOpenPredicate := by
    rw [Triple.hasOpenPredicate_congr hsame, Triple.hasOpenPredicate_shape]
  have hcandidate : place ∈ n.candidates t.predicate := by
    rw [candidates, List.mem_append]
    cases hcase : p.hasOpenPredicate with
    | true => exact Or.inr ((hn.open_iff place).2 ⟨q, hplace, hopen.trans hcase⟩)
    | false =>
        left
        have hground : p.predicate.isGround = true := by
          rwa [Triple.hasPlainPredicate, hcase, Bool.false_or] at hplain
        have hpredicate := (Triple.beq_iff.1 hsame).2.1
        rw [Triple.predicate_shape_of_ground hground] at hpredicate
        have hkey := BEq.trans hpredicate ((Node.fits_iff_beq hground).1 hfits.predicate)
        exact (hn.keyed_iff _ place).2 ⟨q, hplace, hopen.trans hcase, hkey⟩
  rw [activations, List.mem_eraseDups, List.mem_mergeSort]
  apply List.mem_flatMap.2
  refine ⟨q, List.mem_filter.2 ⟨?_, haccepts⟩, hmem⟩
  exact List.mem_filterMap.2 ⟨place, hcandidate, hplace⟩

/-- Only subscribers of patterns with a plain predicate are ever activated. -/
theorem Filed.listens_of_mem_activations {n : Network} (hn : n.Filed) {t : Triple}
    {s : Subscriber} (ht : t.isGround = true) (h : s ∈ n.activations t) :
    ∃ p : Triple, n.Listens p s ∧ p.hasPlainPredicate = true := by
  rw [activations, List.mem_eraseDups, List.mem_mergeSort] at h
  obtain ⟨q, hq, hs⟩ := List.mem_flatMap.1 h
  obtain ⟨place, hplace, hget⟩ := List.mem_filterMap.1 (List.mem_filter.1 hq).1
  have hmem : q ∈ n.patterns := List.mem_of_getElem? hget
  obtain ⟨origin, hshape, _⟩ := hn.shaped q hmem
  refine ⟨origin, ⟨q, hmem, by rw [hshape]; exact BEq.rfl, hs⟩, ?_⟩
  rw [Triple.hasPlainPredicate, ← Triple.hasOpenPredicate_shape,
    ← Triple.isGround_predicate_shape, ← hshape, Bool.or_eq_true]
  rw [candidates, List.mem_append] at hplace
  rcases hplace with hkeyed | hopen
  · right
    obtain ⟨found, hfound, _, hkey⟩ := (hn.keyed_iff t.predicate place).1 hkeyed
    rw [hget] at hfound
    obtain rfl := Option.some.inj hfound
    rw [Triple.isGround, Bool.and_eq_true, Bool.and_eq_true] at ht
    rw [Node.isGround_congr hkey]
    exact ht.1.2
  · left
    obtain ⟨found, hfound, hcase⟩ := (hn.open_iff place).1 hopen
    rw [hget] at hfound
    obtain rfl := Option.some.inj hfound
    exact hcase

/-! ## Compiled networks -/

/-- A compiled rule, and whether its levels are subscribed to. -/
structure Compiled (n : Network) (i : Nat) (c : CompiledRule) : Prop where
  compiled : ∃ rule : Rule, c = CompiledRule.ofRule n.registry rule ∧
    rule.isBackward = false ∧ rule.validate n.registry = .ok ()
  listens : ∀ (level : Nat) (p : Nat × Triple), c.patterns[level]? = some p →
    n.Listens p.2 ⟨i, level⟩

/-- The network of compiled rules: every level of every rule is subscribed to, and
nothing else is. -/
structure Wired (n : Network) : Prop where
  filed : n.Filed
  rule : ∀ i c, n.rule? i = some c → n.Compiled i c
  origin : ∀ p s, n.Listens p s → ∃ c p', n.rule? s.rule = some c ∧
    c.patterns[s.level]? = some p' ∧ (p.shape == p'.2.shape) = true

/-- Only levels of rules are activated. -/
theorem Wired.rule_of_mem_activations {n : Network} (hn : n.Wired) {t : Triple} {s : Subscriber}
    (h : s ∈ n.activations t) : ∃ c, n.rule? s.rule = some c := by
  rw [activations, List.mem_eraseDups, List.mem_mergeSort] at h
  obtain ⟨q, hq, hs⟩ := List.mem_flatMap.1 h
  obtain ⟨place, _, hget⟩ := List.mem_filterMap.1 (List.mem_filter.1 hq).1
  have hmem : q ∈ n.patterns := List.mem_of_getElem? hget
  obtain ⟨origin, hshape, _⟩ := hn.filed.shaped q hmem
  obtain ⟨c, _, hc, _⟩ := hn.origin origin s ⟨q, hmem, by rw [hshape]; exact BEq.rfl, hs⟩
  exact ⟨c, hc⟩

/-- An activated level has a pattern with a plain predicate. -/
theorem Wired.plain_of_mem_activations {n : Network} (hn : n.Wired) {t : Triple}
    {s : Subscriber} (ht : t.isGround = true) (h : s ∈ n.activations t) :
    ∃ c p, n.rule? s.rule = some c ∧ c.patterns[s.level]? = some p ∧
      p.2.hasPlainPredicate = true := by
  obtain ⟨p, hlistens, hplain⟩ := hn.filed.listens_of_mem_activations ht h
  obtain ⟨c, p', hc, hp', hshape⟩ := hn.origin p s hlistens
  exact ⟨c, p', hc, hp', by rwa [← Triple.hasPlainPredicate_of_shape_beq hshape]⟩

theorem Filed.subscribeAll {n : Network} (hn : n.Filed) (place : Nat)
    (levels : List ((Nat × Triple) × Nat)) :
    let n' := levels.foldl (fun n ((_, pattern), level) => n.subscribe pattern ⟨place, level⟩) n
    n'.Filed ∧ n'.rules = n.rules ∧ n'.registry = n.registry ∧
      (∀ p s, n.Listens p s → n'.Listens p s) ∧
      (∀ entry ∈ levels, n'.Listens entry.1.2 ⟨place, entry.2⟩) ∧
      ∀ p s, n'.Listens p s → n.Listens p s ∨
        ∃ entry ∈ levels, s = ⟨place, entry.2⟩ ∧ (entry.1.2.shape == p.shape) = true := by
  induction levels generalizing n with
  | nil => exact ⟨hn, rfl, rfl, fun _ _ h => h, (fun _ h => nomatch h), fun _ _ h => Or.inl h⟩
  | cons entry levels ih =>
      have hfirst := hn.subscribe entry.1.2 ⟨place, entry.2⟩
      obtain ⟨hfiled, hrules, hregistry, hkeeps, hlistens, horigin⟩ := ih hfirst.filed
      refine ⟨hfiled, hrules.trans hfirst.rules, hregistry.trans hfirst.registry, ?_, ?_, ?_⟩
      · intro p s h
        exact hkeeps p s (hfirst.keeps p s h)
      · intro other hother
        rcases List.mem_cons.1 hother with rfl | hother
        · exact hkeeps _ _ hfirst.listens
        · exact hlistens other hother
      · intro p s h
        rcases horigin p s h with h | ⟨other, hother, hs⟩
        · rcases hfirst.origin p s h with h | hs
          · exact Or.inl h
          · exact Or.inr ⟨entry, List.mem_cons_self .., hs⟩
        · exact Or.inr ⟨other, List.mem_cons_of_mem _ hother, hs⟩

theorem Wired.addRule {n n' : Network} (hn : n.Wired) {rule : Rule}
    (h : n.addRule rule = .ok n') :
    n'.Wired ∧ n'.registry = n.registry ∧
      n'.rules = n.rules ++ [CompiledRule.ofRule n.registry rule] := by
  unfold Network.addRule at h
  cases hbackward : rule.isBackward with
  | true =>
      rw [hbackward] at h
      cases h
  | false =>
      cases hvalid : rule.validate n.registry with
      | error cause =>
          rw [hbackward, hvalid] at h
          cases h
      | ok checked =>
          rw [hbackward, hvalid] at h
          cases h
          set compiled := CompiledRule.ofRule n.registry rule with hcompiled
          have hlonger : ({ n with rules := n.rules ++ [compiled] } : Network).Filed :=
            ⟨hn.filed.shaped, hn.filed.open_iff, hn.filed.keyed_iff⟩
          obtain ⟨hfiled, hrules, hregistry, hkeeps, hlistens, horigin⟩ :=
            hlonger.subscribeAll n.rules.length compiled.patterns.zipIdx
          refine ⟨⟨hfiled, ?_, ?_⟩, hregistry, hrules⟩
          · intro i c hi
            rw [rule?, hrules, getElem?_push_iff] at hi
            rcases hi with hi | ⟨rfl, rfl⟩
            · obtain ⟨hcomp, hlist⟩ := hn.rule i c hi
              refine ⟨?_, ?_⟩
              · rw [hregistry]
                exact hcomp
              · intro level p hp
                exact hkeeps _ _ (hlist level p hp)
            · refine ⟨?_, ?_⟩
              · rw [hregistry]
                exact ⟨rule, hcompiled, hbackward, hvalid⟩
              · intro level p hp
                have hmem : (p, level) ∈ compiled.patterns.zipIdx :=
                  List.mk_mem_zipIdx_iff_getElem?.2 hp
                exact hlistens _ hmem
          · intro p s hs
            simp only [rule?, hrules, getElem?_push_iff]
            rcases horigin p s hs with hold | ⟨entry, hentry, rfl, hshape⟩
            · obtain ⟨c, p', hc, hp', hshape⟩ := hn.origin p s hold
              exact ⟨c, p', Or.inl hc, hp', hshape⟩
            · obtain ⟨pattern, level⟩ := entry
              have hget := List.mk_mem_zipIdx_iff_getElem?.1 hentry
              exact ⟨compiled, pattern, Or.inr ⟨rfl, rfl⟩, hget, BEq.symm hshape⟩

theorem Wired.foldlM_addRule {rules : List Rule} {n n' : Network} (hn : n.Wired)
    (h : rules.foldlM Network.addRule n = .ok n') :
    n'.Wired ∧ n'.registry = n.registry ∧
      n'.rules = n.rules ++ rules.map (CompiledRule.ofRule n.registry) := by
  induction rules generalizing n with
  | nil =>
      cases h
      exact ⟨hn, rfl, by simp⟩
  | cons rule rules ih =>
      rw [List.foldlM_cons] at h
      cases hrule : n.addRule rule with
      | error cause =>
          rw [hrule] at h
          cases h
      | ok next =>
          rw [hrule] at h
          obtain ⟨hwired, hregistry, hrules⟩ := hn.addRule hrule
          obtain ⟨hwired', hregistry', hrules'⟩ := ih hwired h
          refine ⟨hwired', hregistry'.trans hregistry, ?_⟩
          rw [hrules', hrules, hregistry, List.map_cons, List.append_assoc]
          rfl

/-- Compiling keeps the rules in their order and subscribes to all their levels. -/
theorem compile_eq_ok {rules : List Rule} {registry : Registry} {n : Network}
    (h : compile rules registry = .ok n) :
    n.Wired ∧ n.registry = registry ∧ n.rules = rules.map (CompiledRule.ofRule registry) := by
  have hempty : ({ registry } : Network).Wired :=
    ⟨Filed.empty registry, (fun i c hi => by cases hi),
      fun p s hs => by obtain ⟨q, hq, _⟩ := hs; cases hq⟩
  have hfold := hempty.foldlM_addRule h
  simpa using hfold

end Network

end Entailment
