import Entailment.Json.Term
import Entailment.Proofs.Json.Numeral

/-!
# Reading terms back

A term is read from its document just as it was written if the document is not nested too
deeply and every double in the term is read back as itself.  A NaN or an infinity is not,
since it is written as null.
-/

namespace Entailment

namespace Json

/-! ## Nesting -/

mutual
/-- How deep the containers of a value nest. -/
def height : Json → Nat
  | array items => heightItems items + 1
  | object members => heightMembers members + 1
  | _ => 0

def heightItems : List Json → Nat
  | [] => 0
  | v :: rest => max v.height (heightItems rest)

def heightMembers : List (Option String × Json) → Nat
  | [] => 0
  | (_, v) :: rest => max v.height (heightMembers rest)
end

variable {depth : Nat} {items : List Json} {members : List (String × Json)}

theorem enter?_eq_some_iff {inner : Nat} :
    enter? depth = some inner ↔ depth = inner + 1 ∧ 0 < inner := by
  unfold enter?
  split
  · simp only [reduceCtorEq, false_iff]
    omega
  · simp only [Option.some.injEq]
    omega

theorem lt_iff_of_height {j : Json} (below : Nat) (h : j.height = below + 1) :
    j.height < depth ↔ ∃ inner, enter? depth = some inner ∧ below < inner := by
  constructor
  · intro hlt
    exact ⟨depth - 1, enter?_eq_some_iff.2 (by omega), by omega⟩
  · rintro ⟨inner, hinner, hbelow⟩
    rw [enter?_eq_some_iff] at hinner
    omega

theorem heightItems_lt_iff :
    heightItems items < depth ↔ 0 < depth ∧ ∀ v ∈ items, v.height < depth := by
  induction items with
  | nil => simp [heightItems]
  | cons v items ih =>
      rw [heightItems, Nat.max_lt, ih, List.forall_mem_cons]
      tauto

theorem heightMembers_lt_iff : heightMembers (members.map fun (k, v) => (some k, v)) < depth ↔
    0 < depth ∧ ∀ m ∈ members, m.2.height < depth := by
  induction members with
  | nil => simp [heightMembers]
  | cons m members ih =>
      rw [List.map_cons, heightMembers, Nat.max_lt, ih, List.forall_mem_cons]
      tauto

/-- An array fits where there is room to enter it and its items fit inside. -/
theorem height_array_lt_iff : (array items).height < depth ↔
    ∃ inner, enter? depth = some inner ∧ ∀ v ∈ items, v.height < inner := by
  rw [lt_iff_of_height (heightItems items) rfl]
  refine exists_congr fun inner => and_congr_right fun hinner => ?_
  rw [heightItems_lt_iff]
  exact and_iff_right (enter?_eq_some_iff.1 hinner).2

theorem height_record_lt_iff : (record members).height < depth ↔
    ∃ inner, enter? depth = some inner ∧ ∀ m ∈ members, m.2.height < inner := by
  rw [lt_iff_of_height (heightMembers (members.map fun (k, v) => (some k, v))) rfl]
  refine exists_congr fun inner => and_congr_right fun hinner => ?_
  rw [heightMembers_lt_iff]
  exact and_iff_right (enter?_eq_some_iff.1 hinner).2

theorem height_variant_lt_iff {tag : String} {v : Json} : (variant tag v).height < depth ↔
    ∃ inner, enter? depth = some inner ∧ v.height < inner := by
  simp only [variant, height_record_lt_iff, List.forall_mem_singleton]

theorem variant?_variant (tag : String) (v : Json) (depth : Nat) :
    (variant tag v).variant? depth = (enter? depth).map fun inner => (inner, tag, some v) := rfl

/-! ## Members -/

/-- Each of the elements is read back as the other. -/
theorem mapM_map_eq_some_iff {α β γ : Type} {f : β → Option γ} {g : α → β} {h : α → γ}
    {as : List α} : (as.map g).mapM f = some (as.map h) ↔ ∀ a ∈ as, f (g a) = some (h a) := by
  induction as with
  | nil => simp
  | cons a as ih =>
      rw [List.map_cons, List.mapM_cons, List.forall_mem_cons, ← ih]
      cases f (g a) with
      | none => simp
      | some b => cases (as.map g).mapM f <;> simp

theorem filter_members_of_mem (hnames : (members.map Prod.fst).Nodup) {m : String × Json}
    (hm : m ∈ members) :
    (members.map fun (k, v) => (some k, v)).filter (fun e => e.1 == some m.1) =
      [(some m.1, m.2)] := by
  induction members with
  | nil => cases hm
  | cons head members ih =>
      obtain ⟨hnew, hnames⟩ := List.nodup_cons.1 hnames
      rcases List.mem_cons.1 hm with rfl | hm
      · have hothers : (members.map fun (k, v) => (some k, v)).filter
            (fun e => e.1 == some m.1) = [] := by
          rw [List.filter_eq_nil_iff]
          intro e he hname
          obtain ⟨n, hn, rfl⟩ := List.mem_map.1 he
          refine hnew (List.mem_map.2 ⟨n, hn, ?_⟩)
          exact Option.some.inj (eq_of_beq hname)
        rw [List.map_cons, List.filter_cons, hothers]
        exact if_pos BEq.rfl
      · have hne : ¬ (some head.1 == some m.1) = true := by
          intro hname
          refine hnew (List.mem_map.2 ⟨m, hm, ?_⟩)
          exact (Option.some.inj (eq_of_beq hname)).symm
        rw [List.map_cons, List.filter_cons, ih hnames hm]
        exact if_neg hne

theorem memberValues?_record (hnames : (members.map Prod.fst).Nodup) :
    memberValues? (members.map Prod.fst) (members.map fun (k, v) => (some k, v)) =
      some (members.map fun m => some m.2) := by
  have hkeys : ((members.map fun (k, v) => (some k, v)).any fun m => m.1.isNone) = false := by
    rw [List.any_eq_false]
    intro e he
    obtain ⟨m, -, rfl⟩ := List.mem_map.1 he
    exact Bool.false_ne_true
  rw [memberValues?, hkeys, if_neg Bool.false_ne_true, mapM_map_eq_some_iff]
  intro m hm
  rw [filter_members_of_mem hnames hm]

/-- The fields of a record are the values of its members. -/
theorem fields?_record (members : List (String × Json)) (hnames : (members.map Prod.fst).Nodup)
    (hasDefaults : Bool) (depth : Nat) :
    fields? (members.map Prod.fst) hasDefaults depth (record members) =
      (enter? depth).map fun inner => (inner, members.map fun m => some m.2) := by
  rw [record, fields?, memberValues?_record hnames]
  cases enter? depth <;> rfl

end Json

open Json

variable {depth : Nat}

namespace Literal

/-- A double is read back as itself. -/
def Legible : Literal → Prop
  | .double d => (ofDouble d).double? = some d
  | _ => True

/-- A number without a literal is written as null, which is no number. -/
theorem not_legible_of_special {d : Double} (h : d.isNaN = true ∨ d.isInfinite = true) :
    ¬ (double d).Legible := by
  have hnull : ofDouble d = .null := by
    rw [ofDouble, if_pos (Bool.or_eq_true_iff.2 h)]
  rw [Legible, hnull]
  exact nofun

/-- A finite double may be read back as its neighbour. -/
example : (ofDouble ⟨0x3ab5c87fb0000000⟩).double? = some ⟨0x3ab5c87fafffffff⟩ := by
  decide +kernel

/-- Two texts under different names are read back where there is room for them. -/
theorem textPair?_record {first second : String} (hne : first ≠ second) (a b : String) :
    textPair? first second depth (record [(first, ofText a), (second, ofText b)]) = some (a, b) ↔
      (record [(first, ofText a), (second, ofText b)]).height < depth := by
  have hfields := fields?_record [(first, ofText a), (second, ofText b)]
    (by simpa using hne) false depth
  simp only [List.map_cons, List.map_nil] at hfields
  rw [textPair?, hfields, height_record_lt_iff]
  cases h : enter? depth with
  | none => simp
  | some inner =>
      have hroom : 0 < inner := (enter?_eq_some_iff.1 h).2
      refine iff_of_true rfl ⟨inner, rfl, fun m hm => ?_⟩
      simp only [List.mem_cons, List.not_mem_nil, or_false] at hm
      rcases hm with rfl | rfl <;> exact hroom

theorem height_ofDouble (d : Double) : (ofDouble d).height = 0 := by
  unfold ofDouble
  split <;> rfl

/-- A literal is read back where there is room for it, if its double is. -/
theorem ofJson?_toJson_iff (l : Literal) :
    ofJson? depth l.toJson = some l ↔ l.toJson.height < depth ∧ l.Legible := by
  cases h : enter? depth with
  | none =>
      have hread : ofJson? depth l.toJson = none := by
        cases l <;> rw [toJson, ofJson?, variant?_variant, h] <;> rfl
      have htall : ¬ l.toJson.height < depth := by
        cases l <;> rw [toJson, height_variant_lt_iff, h] <;> simp
      rw [hread]
      exact iff_of_false nofun (fun hfits => htall hfits.1)
  | some inner =>
      have hroom : 0 < inner := (enter?_eq_some_iff.1 h).2
      cases l with
      | string | boolean =>
          rw [toJson, ofJson?, variant?_variant, height_variant_lt_iff, h]
          exact iff_of_true rfl ⟨⟨inner, rfl, hroom⟩, trivial⟩
      | integer n =>
          rw [toJson, ofJson?, variant?_variant, height_variant_lt_iff, h]
          refine iff_of_true ?_ ⟨⟨inner, rfl, hroom⟩, trivial⟩
          change ((ofInt n.toInt).int64?.bind fun n => some (integer n)) = some (integer n)
          rw [int64?_ofInt]
          rfl
      | double d =>
          rw [toJson, ofJson?, variant?_variant, height_variant_lt_iff, h, height_ofDouble]
          change ((ofDouble d).double?.bind fun d => some (double d)) = some (double d) ↔ _
          rw [and_iff_right ⟨inner, rfl, hroom⟩]
          simp [Legible, Option.bind_eq_some_iff]
      | typed text datatype =>
          rw [toJson, ofJson?, variant?_variant, height_variant_lt_iff, h]
          change ((textPair? "value" "datatype" inner _).bind fun pair =>
            some (typed pair.1 pair.2)) = some (typed text datatype) ↔ _
          simp [Legible, Option.bind_eq_some_iff, textPair?_record]
      | tagged text tag =>
          rw [toJson, ofJson?, variant?_variant, height_variant_lt_iff, h]
          change ((textPair? "value" "lang" inner _).bind fun pair =>
            some (tagged pair.1 pair.2)) = some (tagged text tag) ↔ _
          simp [Legible, Option.bind_eq_some_iff, textPair?_record]

end Literal

theorem Var.ofJson?_toJson_iff (v : Var) :
    Var.ofJson? depth v.toJson = some v ↔
      v.toJson.height < depth ∧ v.index < Numeral.wordLimit := by
  have hfields := fields?_record [("name", ofText v.name), ("index", ofNat v.index)]
    (by simp) false depth
  simp only [List.map_cons, List.map_nil] at hfields
  rw [toJson, ofJson?, hfields, height_record_lt_iff]
  cases h : enter? depth with
  | none => simp
  | some inner =>
      have hroom : 0 < inner := (enter?_eq_some_iff.1 h).2
      have hfits : ∀ m ∈ [("name", ofText v.name), ("index", ofNat v.index)],
          m.2.height < inner := by
        simp only [List.forall_mem_cons]
        exact ⟨hroom, hroom, List.forall_mem_nil _⟩
      rw [and_iff_right ⟨inner, rfl, hfits⟩]
      change ((ofNat v.index).nat?.bind fun index => some (Var.mk v.name index)) = some v ↔ _
      rw [nat?_ofNat]
      split
      · exact iff_of_true rfl ‹_›
      · exact iff_of_false nofun ‹_›

namespace Node

/-- Every literal in the node is legible, and the numbers of variables and blank nodes are
of 64 bits. -/
inductive Legible : Node → Prop where
  | uri (u : String) : Legible (.uri u)
  | literal {l : Literal} : l.Legible → Legible (.literal l)
  | blank {id : Nat} : id < Numeral.wordLimit → Legible (.blank id)
  | var {v : Var} : v.index < Numeral.wordLimit → Legible (.var v)
  | any : Legible .any
  | functor (name : String) {args : List Node} : (∀ a ∈ args, Legible a) →
      Legible (.functor name args)

theorem legible_literal_iff {l : Literal} : (literal l).Legible ↔ l.Legible :=
  ⟨fun | .literal h => h, .literal⟩

theorem legible_blank_iff {id : Nat} : (blank id).Legible ↔ id < Numeral.wordLimit :=
  ⟨fun | .blank h => h, .blank⟩

theorem legible_var_iff {v : Var} : (var v).Legible ↔ v.index < Numeral.wordLimit :=
  ⟨fun | .var h => h, .var⟩

theorem legible_functor_iff {name : String} {args : List Node} :
    (functor name args).Legible ↔ ∀ a ∈ args, a.Legible :=
  ⟨fun | .functor _ h => h, .functor name⟩

theorem toJsonAll_eq (args : List Node) : toJsonAll args = args.map toJson := by
  induction args with
  | nil => rfl
  | cons n args ih => rw [toJsonAll, ih, List.map_cons]

end Node

theorem bind_toNode_iff {call : Option Call} {name : String} {args : List Node} :
    (call.bind fun c => some c.toNode) = some (.functor name args) ↔ call = some ⟨name, args⟩ := by
  cases call with
  | none => simp
  | some c =>
      cases c
      simp [Call.toNode]

/-- A functor is read back where there is room for it, if its arguments are. -/
theorem functorBy?_toJson_iff {arg? : Nat → Json → Option Node} {name : String} {args : List Node}
    (harg : ∀ inner, 0 < inner → inner < depth → ∀ a ∈ args,
      (arg? inner a.toJson = some a ↔ a.toJson.height < inner ∧ a.Legible)) :
    functorBy? arg? depth (functorJson name (Node.toJsonAll args)) = some ⟨name, args⟩ ↔
      (functorJson name (Node.toJsonAll args)).height < depth ∧ ∀ a ∈ args, a.Legible := by
  have hfields := fields?_record [("name", ofText name), ("args", array (args.map Node.toJson))]
    (by simp) false depth
  simp only [List.map_cons, List.map_nil] at hfields
  rw [functorJson, Node.toJsonAll_eq, functorBy?, hfields, height_record_lt_iff]
  cases h : enter? depth with
  | none => simp
  | some inner =>
      have hroom : 0 < inner := (enter?_eq_some_iff.1 h).2
      have hfits : (∃ i, some inner = some i ∧ ∀ m ∈ [("name", ofText name),
          ("args", array (args.map Node.toJson))], m.2.height < i) ↔
            (array (args.map Node.toJson)).height < inner := by
        simp [hroom, ofText, height]
      rw [hfits, height_array_lt_iff]
      change (((enter? inner).map fun d => (d, args.map Node.toJson)).bind fun p =>
        (p.2.mapM (arg? p.1)).bind fun args => some (Call.mk name args)) = some ⟨name, args⟩ ↔ _
      cases h' : enter? inner with
      | none => simp
      | some innermost =>
          obtain ⟨hinner, hroom⟩ := enter?_eq_some_iff.1 h'
          have hdepth := (enter?_eq_some_iff.1 h).1
          have hargs : (args.map Node.toJson).mapM (arg? innermost) = some args ↔
              ∀ a ∈ args, a.toJson.height < innermost ∧ a.Legible := by
            have hall : (args.map Node.toJson).mapM (arg? innermost) = some (args.map id) ↔
                ∀ a ∈ args, arg? innermost a.toJson = some a := mapM_map_eq_some_iff
            rw [List.map_id] at hall
            rw [hall]
            exact forall₂_congr (harg innermost hroom (by omega))
          simpa [Option.bind_eq_some_iff, forall_and] using hargs

namespace Node

/-- A node is read back where there is room for it, if it is legible.  The functors in it do
not nest more often than its containers. -/
theorem ofJsonWithin?_toJson_iff {nesting depth : Nat} (hroom : 0 < depth)
    (hnesting : depth < nesting) (n : Node) :
    ofJsonWithin? nesting depth n.toJson = some n ↔ n.toJson.height < depth ∧ n.Legible := by
  induction nesting generalizing depth n with
  | zero => omega
  | succ nesting ih =>
      cases h : enter? depth with
      | none =>
          cases n with
          | any => exact iff_of_true rfl ⟨hroom, .any⟩
          | _ =>
              rw [toJson, ofJsonWithin?, variant?_variant, height_variant_lt_iff, h]
              simp
      | some inner =>
          obtain ⟨hdepth, hinner⟩ := enter?_eq_some_iff.1 h
          cases n with
          | any => exact iff_of_true rfl ⟨hroom, .any⟩
          | uri u =>
              rw [toJson, ofJsonWithin?, variant?_variant, height_variant_lt_iff, h]
              exact iff_of_true rfl ⟨⟨inner, rfl, hinner⟩, .uri u⟩
          | literal l =>
              rw [toJson, ofJsonWithin?, variant?_variant, height_variant_lt_iff, h]
              change ((Literal.ofJson? inner l.toJson).bind fun l => some (literal l)) =
                some (literal l) ↔ _
              simp [Option.bind_eq_some_iff, Literal.ofJson?_toJson_iff, legible_literal_iff]
          | blank id =>
              rw [toJson, ofJsonWithin?, variant?_variant, height_variant_lt_iff, h]
              change ((ofNat id).nat?.bind fun id => some (blank id)) = some (blank id) ↔ _
              rw [nat?_ofNat, legible_blank_iff, and_iff_right ⟨inner, rfl, hinner⟩]
              split <;> simp [*]
          | var v =>
              rw [toJson, ofJsonWithin?, variant?_variant, height_variant_lt_iff, h]
              change ((Var.ofJson? inner v.toJson).bind fun v => some (var v)) = some (var v) ↔ _
              simp [Option.bind_eq_some_iff, Var.ofJson?_toJson_iff, legible_var_iff]
          | functor name args =>
              rw [toJson, ofJsonWithin?, variant?_variant, height_variant_lt_iff, h]
              change ((functorBy? (ofJsonWithin? nesting) inner
                (functorJson name (toJsonAll args))).bind fun c => some c.toNode) =
                  some (functor name args) ↔ _
              have hcall : functorBy? (ofJsonWithin? nesting) inner
                  (functorJson name (toJsonAll args)) = some ⟨name, args⟩ ↔ _ ∧ _ :=
                functorBy?_toJson_iff fun i hi hlt a _ => ih hi (by omega) a
              rw [bind_toNode_iff, hcall, legible_functor_iff]
              simp

/-- The reader of nodes has no limit of its own. -/
theorem ofJson?_toJson_iff (hroom : 0 < depth) (hlimit : depth ≤ depthLimit) (n : Node) :
    ofJson? depth n.toJson = some n ↔ n.toJson.height < depth ∧ n.Legible :=
  ofJsonWithin?_toJson_iff hroom (Nat.lt_succ_of_le hlimit) n

end Node

/-- Every node of the triple is legible. -/
structure Triple.Legible (t : Triple) : Prop where
  subject : t.subject.Legible
  predicate : t.predicate.Legible
  object : t.object.Legible

theorem Triple.legible_iff {t : Triple} :
    t.Legible ↔ t.subject.Legible ∧ t.predicate.Legible ∧ t.object.Legible :=
  ⟨fun h => ⟨h.subject, h.predicate, h.object⟩, fun h => ⟨h.1, h.2.1, h.2.2⟩⟩

theorem Triple.ofJson?_toJson_iff (hlimit : depth ≤ depthLimit) (t : Triple) :
    Triple.ofJson? depth t.toJson = some t ↔ t.toJson.height < depth ∧ t.Legible := by
  have hfields := fields?_record [("subject", t.subject.toJson),
    ("predicate", t.predicate.toJson), ("object", t.object.toJson)] (by simp) false depth
  simp only [List.map_cons, List.map_nil] at hfields
  rw [toJson, ofJson?, hfields, height_record_lt_iff]
  cases h : enter? depth with
  | none => simp
  | some inner =>
      obtain ⟨hdepth, hroom⟩ := enter?_eq_some_iff.1 h
      obtain ⟨s, p, o⟩ := t
      have hnode : ∀ n : Node, Node.ofJson? inner n.toJson = some n ↔
          n.toJson.height < inner ∧ n.Legible := Node.ofJson?_toJson_iff hroom (by omega)
      have hread : ((Node.ofJson? inner s.toJson).bind fun s =>
          (Node.ofJson? inner p.toJson).bind fun p =>
            (Node.ofJson? inner o.toJson).bind fun o => some (Triple.mk s p o)) = some ⟨s, p, o⟩ ↔
          Node.ofJson? inner s.toJson = some s ∧ Node.ofJson? inner p.toJson = some p ∧
            Node.ofJson? inner o.toJson = some o := by
        simp [Option.bind_eq_some_iff]
      have hfits : (∃ i, some inner = some i ∧ ∀ m ∈ [("subject", s.toJson),
          ("predicate", p.toJson), ("object", o.toJson)], m.2.height < i) ↔
            s.toJson.height < inner ∧ p.toJson.height < inner ∧ o.toJson.height < inner := by
        simp
      refine hread.trans ?_
      rw [hnode, hnode, hnode, hfits, legible_iff]
      tauto

/-! ## Documents of terms -/

namespace Json

theorem tidy_variant (tag : String) {v : Json} (h : v.Tidy) : (variant tag v).Tidy :=
  .record (List.forall_mem_singleton.2 h)

theorem tidy_ofOption {α : Type} {f : α → Json} (h : ∀ a, (f a).Tidy) (a : Option α) :
    (ofOption f a).Tidy := by
  cases a with
  | none => exact .null
  | some a => exact h a

theorem tidy_array_map {α : Type} {f : α → Json} (h : ∀ a, (f a).Tidy) (as : List α) :
    (array (as.map f)).Tidy :=
  .array (List.forall_mem_map.2 fun a _ => h a)

end Json

theorem Literal.tidy_toJson (l : Literal) : l.toJson.Tidy := by
  cases l with
  | string s => exact tidy_variant _ (.string s)
  | integer n => exact tidy_variant _ (tidy_ofInt _)
  | double d => exact tidy_variant _ (tidy_ofDouble d)
  | boolean b => exact tidy_variant _ (.bool b)
  | typed text name | tagged text name =>
      refine tidy_variant _ (.record ?_)
      simp only [List.forall_mem_cons]
      exact ⟨.string text, .string name, List.forall_mem_nil _⟩

theorem Var.tidy_toJson (v : Var) : v.toJson.Tidy := by
  refine .record ?_
  simp only [List.forall_mem_cons]
  exact ⟨.string v.name, tidy_ofNat v.index, List.forall_mem_nil _⟩

namespace Node

mutual
theorem tidy_toJson (n : Node) : n.toJson.Tidy := by
  match n with
  | .uri u => exact tidy_variant _ (.string u)
  | .literal l => exact tidy_variant _ l.tidy_toJson
  | .blank id => exact tidy_variant _ (tidy_ofNat id)
  | .var v => exact tidy_variant _ v.tidy_toJson
  | .any => exact .string "Any"
  | .functor name args =>
      refine tidy_variant _ (.record ?_)
      simp only [List.forall_mem_cons]
      exact ⟨.string name, .array (tidy_toJsonAll args), List.forall_mem_nil _⟩

theorem tidy_toJsonAll (args : List Node) : ∀ v ∈ toJsonAll args, v.Tidy := by
  match args with
  | [] => exact List.forall_mem_nil _
  | n :: args => exact List.forall_mem_cons.2 ⟨tidy_toJson n, tidy_toJsonAll args⟩
end

end Node

theorem Triple.tidy_toJson (t : Triple) : t.toJson.Tidy := by
  refine .record ?_
  simp only [List.forall_mem_cons]
  exact ⟨t.subject.tidy_toJson, t.predicate.tidy_toJson, t.object.tidy_toJson,
    List.forall_mem_nil _⟩

end Entailment
