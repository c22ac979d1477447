import Entailment.Proofs.Builtin.Calling

/-!
# Equality and order

Two tests of values are computed apart from each other: whether they are the same, and
what order they have.  On identifiers, blank nodes, integers, truth values and texts the
first is an equivalence and the second a strict order.  The two fit together, so that
values with an order are smaller, equal or greater, except for texts that differ in their
tags alone: those are ordered by their contents, but they are different terms.
-/

namespace Entailment

/-- What a value is ordered by. -/
inductive Rank where
  | whole (n : Int)
  | truth (form : String)
  | text (content : String)

namespace Rank

def compare? : Rank → Rank → Option Ordering
  | .whole m, .whole n => some (compare m n)
  | .truth s, .truth t => some (compare s t)
  | .text s, .text t => some (compare s t)
  | _, _ => none

theorem compare?_swap (x y : Rank) : y.compare? x = (x.compare? y).map Ordering.swap := by
  cases x <;> cases y <;> first
    | rfl
    | exact congrArg some Std.OrientedOrd.eq_swap

theorem compare?_lt_trans {x y z : Rank} (hxy : x.compare? y = some .lt)
    (hyz : y.compare? z = some .lt) : x.compare? z = some .lt := by
  cases x <;> cases y <;> cases z <;> simp only [compare?, Option.some.injEq, reduceCtorEq] at *
  · exact Std.TransCmp.lt_trans hxy hyz
  · exact Std.TransCmp.lt_trans hxy hyz
  · exact Std.TransCmp.lt_trans hxy hyz

theorem compare?_eq_iff {x y : Rank} : x.compare? y = some .eq ↔ x = y := by
  cases x <;> cases y <;> simp [compare?]

end Rank

namespace Node

/-- An identifier, a blank node, an integer, a truth value, or a text with or without a tag. -/
inductive Scalar : Node → Prop where
  | uri (u : String) : Scalar (.uri u)
  | blank (id : Nat) : Scalar (.blank id)
  | integer (n : Int64) : Scalar (.literal (.integer n))
  | boolean (b : Bool) : Scalar (.literal (.boolean b))
  | string (s : String) : Scalar (.literal (.string s))
  | tagged (s tag : String) : Scalar (.literal (.tagged s tag))

def rank? : Node → Option Rank
  | .literal (.integer n) => some (.whole n.toInt)
  | .literal (.boolean b) => some (.truth (Literal.boolean b).lexicalForm)
  | .literal (.string s) => some (.text s)
  | .literal (.tagged s _) => some (.text s)
  | _ => none

/-- Texts with one content that are different terms. -/
def Homographs (a b : Node) : Prop :=
  (a == b) = false ∧ ∃ s, a.rank? = some (.text s) ∧ b.rank? = some (.text s)

variable {a b c : Node}

theorem Scalar.isGround (h : a.Scalar) : a.isGround = true ∧ a.isFunctor = false := by
  cases h <;> exact ⟨rfl, rfl⟩

/-- Scalars have the order of their ranks. -/
theorem Scalar.compareValues?_eq (ha : a.Scalar) (hb : b.Scalar) :
    a.compareValues? b = a.rank?.bind fun x => b.rank?.bind x.compare? := by
  cases ha <;> cases hb <;> rfl

/-- Scalars are the same value when they are the same term. -/
theorem Scalar.sameValue_eq (ha : a.Scalar) (hb : b.Scalar) : a.sameValue b = (a == b) := by
  cases ha <;> cases hb <;> try rfl
  case integer.integer m n =>
    have hnumbers : ((Numeric.int m).compare? (.int n) == some .eq) = true ↔ m = n := by
      rw [beq_iff_eq, Numeric.compare?, Option.some.injEq, Std.compare_eq_iff_eq, Int64.toInt_inj]
    have hterms : (Node.integer m == Node.integer n) = true ↔ m = n := by
      rw [beq_iff_folded]
      simp [Node.integer, folded, Literal.folded]
    exact Bool.eq_iff_iff.2 (hnumbers.trans hterms.symm)

theorem rank?_folded (n : Node) : n.folded.rank? = n.rank? := by
  cases n with
  | literal l => cases l <;> rfl
  | _ => rfl

theorem rank?_congr (h : (a == b) = true) : a.rank? = b.rank? := by
  rw [← rank?_folded a, beq_iff_folded.1 h, rank?_folded]

/-- Scalars of one rank are one term, or they are homographs. -/
theorem Scalar.beq_or_homographs (ha : a.Scalar) (hb : b.Scalar) {x : Rank}
    (hax : a.rank? = some x) (hbx : b.rank? = some x) : (a == b) = true ∨ a.Homographs b := by
  cases hsame : a == b with
  | true => exact .inl rfl
  | false =>
      refine .inr ⟨hsame, ?_⟩
      rw [← hbx] at hax
      cases ha with
      | uri | blank => cases hax.trans hbx
      | integer m =>
          cases hb with
          | integer n =>
              have hmn : m = n := Int64.toInt_inj.1 (Rank.whole.inj (Option.some.inj hax))
              rw [hmn, BEq.rfl] at hsame
              cases hsame
          | _ => cases hax
      | boolean p =>
          cases hb with
          | boolean q =>
              have hforms : (Literal.boolean p).lexicalForm = (Literal.boolean q).lexicalForm :=
                Rank.truth.inj (Option.some.inj hax)
              have hpq : p = q := by
                cases p <;> cases q <;> first | rfl | exact absurd hforms (by decide)
              rw [hpq, BEq.rfl] at hsame
              cases hsame
          | _ => cases hax
      | string s | tagged s => exact ⟨s, rfl, hax.symm⟩

/-- Two scalars have the order in which they are equal just when they are one term or
homographs. -/
theorem Scalar.compareValues?_eq_eq_iff (ha : a.Scalar) (hb : b.Scalar)
    (hordered : (a.compareValues? b).isSome = true) :
    a.compareValues? b = some .eq ↔ (a == b) = true ∨ a.Homographs b := by
  rw [ha.compareValues?_eq hb] at hordered ⊢
  cases hx : a.rank? with
  | none =>
      rw [hx] at hordered
      cases hordered
  | some x =>
      cases hy : b.rank? with
      | none =>
          rw [hx, hy] at hordered
          cases hordered
      | some y =>
          change x.compare? y = some .eq ↔ _
          rw [Rank.compare?_eq_iff]
          refine ⟨fun hxy => ha.beq_or_homographs hb hx (hxy ▸ hy), ?_⟩
          rintro (hsame | ⟨_, s, hs, ht⟩)
          · have hranks := rank?_congr hsame
            rw [hx, hy] at hranks
            exact Option.some.inj hranks
          · rw [hx] at hs
            rw [hy] at ht
            exact (Option.some.inj hs).trans (Option.some.inj ht).symm

theorem Scalar.compareValues?_swap (ha : a.Scalar) (hb : b.Scalar) :
    b.compareValues? a = (a.compareValues? b).map Ordering.swap := by
  rw [ha.compareValues?_eq hb, hb.compareValues?_eq ha]
  cases a.rank? <;> cases b.rank? <;> try rfl
  exact Rank.compare?_swap _ _

theorem Scalar.compareValues?_lt_trans (ha : a.Scalar) (hb : b.Scalar) (hc : c.Scalar)
    (hab : a.compareValues? b = some .lt) (hbc : b.compareValues? c = some .lt) :
    a.compareValues? c = some .lt := by
  rw [ha.compareValues?_eq hb] at hab
  rw [hb.compareValues?_eq hc] at hbc
  rw [ha.compareValues?_eq hc]
  obtain ⟨x, hx, hab⟩ := Option.bind_eq_some_iff.1 hab
  obtain ⟨y, hy, hxy⟩ := Option.bind_eq_some_iff.1 hab
  obtain ⟨y', hy', hbc⟩ := Option.bind_eq_some_iff.1 hbc
  obtain ⟨z, hz, hyz⟩ := Option.bind_eq_some_iff.1 hbc
  obtain rfl : y = y' := Option.some.inj (hy.symm.trans hy')
  rw [hx, hz]
  exact Rank.compare?_lt_trans hxy hyz

end Node

namespace Call

/-- The call of a comparison with two nodes succeeds. -/
def Compares (ctx : CallContext) (st : CallState) (name : String) (a b : Node) : Prop :=
  ((Call.mk name [a, b]).holds Registry.standard ctx st).1 = true

/-- Some test of the order of two nodes succeeds. -/
def Ordered (holds : String → Node → Node → Prop) (a b : Node) : Prop :=
  holds "lessThan" a b ∨ holds "greaterThan" a b ∨ holds "le" a b ∨ holds "ge" a b

/-- One of the strict tests and the test of equality succeeds, and the weak tests say which
ones can. -/
structure Coherent (holds : String → Node → Node → Prop) (a b : Node) : Prop where
  one : holds "lessThan" a b ∧ ¬ holds "equal" a b ∧ ¬ holds "greaterThan" a b ∨
    ¬ holds "lessThan" a b ∧ holds "equal" a b ∧ ¬ holds "greaterThan" a b ∨
    ¬ holds "lessThan" a b ∧ ¬ holds "equal" a b ∧ holds "greaterThan" a b
  le_iff : holds "le" a b ↔ holds "lessThan" a b ∨ holds "equal" a b
  ge_iff : holds "ge" a b ↔ holds "greaterThan" a b ∨ holds "equal" a b

variable {ctx : CallContext} {st : CallState} {a b c : Node}

theorem compares_iff {name : String} (test : Node → Node → Bool)
    (hmem : Builtin.comparison name test ∈ Builtin.comparisons) (ha : a.Scalar) (hb : b.Scalar) :
    Compares ctx st name a b ↔ test a b = true := by
  have hstandard : Builtin.comparison name test ∈ Builtin.standard := by
    simp only [Builtin.standard, List.mem_append]
    tauto
  obtain ⟨hground, hflat⟩ := ha.isGround
  obtain ⟨hground', hflat'⟩ := hb.isGround
  have hcall := holds_standard hstandard [a, b] ctx st
  rw [List.map_cons, List.map_cons, List.map_nil, Bindings.valueOr_of_ground _ hground hflat,
    Bindings.valueOr_of_ground _ hground' hflat'] at hcall
  have hanswer : ((Call.mk name [a, b]).holds Registry.standard ctx st).1 =
      (a.isGround && b.isGround && test a b) := congrArg Prod.fst hcall
  rw [Compares, hanswer, hground, hground', Bool.and_self, Bool.true_and]

theorem compares_equal_iff (ha : a.Scalar) (hb : b.Scalar) :
    Compares ctx st "equal" a b ↔ (a == b) = true := by
  rw [compares_iff Node.sameValue (by simp [Builtin.comparisons]) ha hb, ha.sameValue_eq hb]

theorem compares_notEqual_iff (ha : a.Scalar) (hb : b.Scalar) :
    Compares ctx st "notEqual" a b ↔ (a == b) = false := by
  rw [compares_iff (fun a b => !a.sameValue b) (by simp [Builtin.comparisons]) ha hb,
    ha.sameValue_eq hb, Bool.not_eq_true']

/-- A test of order succeeds where there is an order that it accepts. -/
theorem compares_order_iff {name : String} (accept : Ordering → Bool)
    (hmem : Builtin.ordering name accept ∈ Builtin.comparisons) (ha : a.Scalar) (hb : b.Scalar) :
    Compares ctx st name a b ↔ (a.compareValues? b).any accept = true :=
  compares_iff _ hmem ha hb

theorem compares_lessThan_iff (ha : a.Scalar) (hb : b.Scalar) :
    Compares ctx st "lessThan" a b ↔ a.compareValues? b = some .lt := by
  rw [compares_order_iff Ordering.isLT (by simp [Builtin.comparisons]) ha hb]
  cases a.compareValues? b with
  | none => simp
  | some o => cases o <;> simp [Ordering.isLT]

theorem ordered_iff (ha : a.Scalar) (hb : b.Scalar) :
    Ordered (Compares ctx st) a b ↔ (a.compareValues? b).isSome = true := by
  rw [Ordered, compares_lessThan_iff ha hb,
    compares_order_iff Ordering.isGT (by simp [Builtin.comparisons]) ha hb,
    compares_order_iff Ordering.isLE (by simp [Builtin.comparisons]) ha hb,
    compares_order_iff Ordering.isGE (by simp [Builtin.comparisons]) ha hb]
  cases a.compareValues? b with
  | none => simp
  | some o => cases o <;> simp [Ordering.isGT, Ordering.isLE, Ordering.isGE]

/-- The tests fit together if values are in the order of equals just when they are equal. -/
theorem coherent_iff (ha : a.Scalar) (hb : b.Scalar) {o : Ordering}
    (ho : a.compareValues? b = some o) :
    Coherent (Compares ctx st) a b ↔ (o = .eq ↔ (a == b) = true) := by
  have hgreater : Compares ctx st "greaterThan" a b ↔ o.isGT = true := by
    rw [compares_order_iff Ordering.isGT (by simp [Builtin.comparisons]) ha hb, ho]
    rfl
  have hle : Compares ctx st "le" a b ↔ o.isLE = true := by
    rw [compares_order_iff Ordering.isLE (by simp [Builtin.comparisons]) ha hb, ho]
    rfl
  have hge : Compares ctx st "ge" a b ↔ o.isGE = true := by
    rw [compares_order_iff Ordering.isGE (by simp [Builtin.comparisons]) ha hb, ho]
    rfl
  have hless : Compares ctx st "lessThan" a b ↔ o = .lt := by
    rw [compares_lessThan_iff ha hb, ho, Option.some.injEq]
  have hequal : Compares ctx st "equal" a b ↔ (a == b) = true := compares_equal_iff ha hb
  constructor
  · rintro ⟨hone, hle', hge'⟩
    rw [hless, hequal, hgreater] at hone
    rw [hle, hless, hequal] at hle'
    cases o <;> simp_all
  · intro hfit
    refine ⟨?_, ?_, ?_⟩
    · rw [hless, hequal, hgreater, ← hfit]
      cases o <;> simp
    · rw [hle, hless, hequal, ← hfit]
      cases o <;> simp
    · rw [hge, hgreater, hequal, ← hfit]
      cases o <;> simp

/-- On scalars equality is an equivalence and the order is strict.  Where two of them have an
order the tests fit together, unless the two are homographs. -/
theorem compares_coherent (ctx : CallContext) (st : CallState) (ha : a.Scalar) (hb : b.Scalar)
    (hc : c.Scalar) :
    (Compares ctx st "equal" a a ∧
      (Compares ctx st "equal" a b → Compares ctx st "equal" b a) ∧
      (Compares ctx st "equal" a b → Compares ctx st "equal" b c →
        Compares ctx st "equal" a c)) ∧
    (Compares ctx st "notEqual" a b ↔ ¬ Compares ctx st "equal" a b) ∧
    (Ordered (Compares ctx st) a b →
      (Coherent (Compares ctx st) a b ↔ ¬ a.Homographs b)) ∧
    ¬ Compares ctx st "lessThan" a a ∧
    (Compares ctx st "lessThan" a b → Compares ctx st "lessThan" b c →
      Compares ctx st "lessThan" a c) := by
  refine ⟨⟨?_, ?_, ?_⟩, ?_, ?_, ?_, ?_⟩
  · exact (compares_equal_iff ha ha).2 BEq.rfl
  · intro hab
    exact (compares_equal_iff hb ha).2 (BEq.symm ((compares_equal_iff ha hb).1 hab))
  · intro hab hbc
    exact (compares_equal_iff ha hc).2
      (BEq.trans ((compares_equal_iff ha hb).1 hab) ((compares_equal_iff hb hc).1 hbc))
  · rw [compares_notEqual_iff ha hb, compares_equal_iff ha hb, Bool.not_eq_true]
  · intro hordered
    rw [ordered_iff ha hb] at hordered
    obtain ⟨o, ho⟩ := Option.isSome_iff_exists.1 hordered
    have hequals := ha.compareValues?_eq_eq_iff hb hordered
    rw [ho, Option.some.injEq] at hequals
    rw [coherent_iff ha hb ho, hequals]
    refine ⟨fun hfit hhomographs => ?_, fun hno => or_iff_left hno⟩
    exact Bool.false_ne_true (hhomographs.1.symm.trans (hfit.1 (.inr hhomographs)))
  · rw [compares_lessThan_iff ha ha]
    intro hself
    have hswap := ha.compareValues?_swap ha
    rw [hself] at hswap
    cases hswap
  · intro hab hbc
    exact (compares_lessThan_iff ha hc).2 (ha.compareValues?_lt_trans hb hc
      ((compares_lessThan_iff ha hb).1 hab) ((compares_lessThan_iff hb hc).1 hbc))

/-! ## Words with tags -/

def word (content tag : String) : Node := .literal (.tagged content tag)

theorem compares_coherent_words :
    ((word "chat" "fr").Scalar ∧ (Node.string "chien").Scalar ∧ (word "dog" "en").Scalar) ∧
      Coherent (Compares CallContext.blind default) (word "chat" "fr") (Node.string "chien") ∧
      Compares CallContext.blind default "lessThan" (word "chat" "fr") (word "dog" "en") := by
  have hchat : (word "chat" "fr").Scalar := .tagged _ _
  have hchien : (Node.string "chien").Scalar := .string _
  have hdog : (word "dog" "en").Scalar := .tagged _ _
  obtain ⟨-, -, hcoherent, -, htrans⟩ :=
    compares_coherent CallContext.blind default hchat hchien hdog
  have hordered : ((word "chat" "fr").compareValues? (Node.string "chien")).isSome = true := rfl
  refine ⟨⟨hchat, hchien, hdog⟩, (hcoherent ((ordered_iff hchat hchien).2 hordered)).2 ?_, ?_⟩
  · rintro ⟨-, s, hs, ht⟩
    cases hs
    exact absurd (Rank.text.inj (Option.some.inj ht)) (by decide)
  · exact htrans ((compares_lessThan_iff hchat hchien).2 (by decide +kernel))
      ((compares_lessThan_iff hchien hdog).2 (by decide +kernel))

/-- One word in two languages has an order, but it is neither smaller nor equal nor greater:
the weak tests alone succeed. -/
theorem not_coherent_homographs :
    Ordered (Compares CallContext.blind default) (word "chat" "fr") (word "chat" "en") ∧
      Compares CallContext.blind default "le" (word "chat" "fr") (word "chat" "en") ∧
      ¬ Compares CallContext.blind default "lessThan" (word "chat" "fr") (word "chat" "en") ∧
      ¬ Compares CallContext.blind default "equal" (word "chat" "fr") (word "chat" "en") ∧
      ¬ Compares CallContext.blind default "greaterThan" (word "chat" "fr") (word "chat" "en") := by
  have hfrench : (word "chat" "fr").Scalar := .tagged _ _
  have henglish : (word "chat" "en").Scalar := .tagged _ _
  have horder : (word "chat" "fr").compareValues? (word "chat" "en") = some .eq := by
    decide +kernel
  refine ⟨?_, ?_, ?_, ?_, ?_⟩
  · rw [ordered_iff hfrench henglish, horder]
    rfl
  · rw [compares_order_iff Ordering.isLE (by simp [Builtin.comparisons]) hfrench henglish, horder]
    rfl
  · rw [compares_lessThan_iff hfrench henglish, horder]
    decide
  · rw [compares_equal_iff hfrench henglish]
    decide +kernel
  · rw [compares_order_iff Ordering.isGT (by simp [Builtin.comparisons]) hfrench henglish, horder]
    exact Bool.false_ne_true

end Call

end Entailment
