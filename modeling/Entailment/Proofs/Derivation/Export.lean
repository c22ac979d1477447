import Entailment.Derivation.Export
import Entailment.Proofs.Json.Term

/-!
# Reading exports back

An export is written as a text that spells its document, and is read back from there record
by record.  It comes back as it was exactly if everything in its triples is legible and the
document is not nested too deeply.
-/

namespace Entailment

open Json

variable {depth : Nat}

namespace DerivationRecord

/-- Everything in the triples of the record is legible. -/
structure Legible (r : DerivationRecord) : Prop where
  conclusion : r.conclusion.Legible
  antecedents : ∀ t, some t ∈ r.antecedents → t.Legible

theorem tidy_toJson (r : DerivationRecord) : r.toJson.Tidy := by
  refine .record ?_
  simp only [List.forall_mem_cons]
  exact ⟨r.conclusion.tidy_toJson, tidy_ofOption .string _, .string _,
    tidy_array_map (tidy_ofOption Triple.tidy_toJson) _, List.forall_mem_nil _⟩

theorem optional?_name (name : Option String) :
    (ofOption ofText name).optional? text? = some name := by
  cases name <;> rfl

/-- A triple that may be missing is read back where there is room for it. -/
theorem optional?_triple_iff (hroom : 0 < depth) (hlimit : depth ≤ depthLimit)
    (t : Option Triple) :
    (ofOption Triple.toJson t).optional? (Triple.ofJson? depth) = some t ↔
      (ofOption Triple.toJson t).height < depth ∧ ∀ u, t = some u → u.Legible := by
  cases t with
  | none => exact iff_of_true rfl ⟨hroom, nofun⟩
  | some t =>
      change (Triple.ofJson? depth t.toJson).map some = some (some t) ↔ _
      simp [Triple.ofJson?_toJson_iff hlimit, ofOption]

theorem antecedents_iff (hlimit : depth ≤ depthLimit) (ts : List (Option Triple)) :
    (((array (ts.map (ofOption Triple.toJson))).items? depth).bind fun p =>
      p.2.mapM (optional? (Triple.ofJson? p.1))) = some ts ↔
        (array (ts.map (ofOption Triple.toJson))).height < depth ∧
          ∀ t, some t ∈ ts → t.Legible := by
  rw [height_array_lt_iff]
  cases h : enter? depth with
  | none => simp [items?, h]
  | some inner =>
      obtain ⟨hdepth, hroom⟩ := enter?_eq_some_iff.1 h
      have hall : (ts.map (ofOption Triple.toJson)).mapM (optional? (Triple.ofJson? inner)) =
          some (ts.map id) ↔ ∀ t ∈ ts,
            (ofOption Triple.toJson t).optional? (Triple.ofJson? inner) = some t :=
        mapM_map_eq_some_iff
      rw [List.map_id] at hall
      simp only [items?, h, Option.map_some, Option.bind_some, Option.some.injEq, exists_eq_left',
        List.forall_mem_map]
      rw [hall, forall₂_congr fun t _ => optional?_triple_iff hroom (by omega) t]
      constructor
      · exact fun hts => ⟨fun t ht => (hts t ht).1, fun t ht => (hts _ ht).2 t rfl⟩
      · rintro ⟨hfits, hlegible⟩ t ht
        exact ⟨hfits t ht, fun u hu => hlegible u (hu ▸ ht)⟩

theorem ofJson?_toJson_iff (hlimit : depth ≤ depthLimit) (r : DerivationRecord) :
    ofJson? depth r.toJson = some r ↔ r.toJson.height < depth ∧ r.Legible := by
  obtain ⟨conclusion, ruleName, rule, ts⟩ := r
  have hfields := fields?_record [("conclusion", conclusion.toJson),
    ("rule_name", ofOption ofText ruleName), ("rule", ofText rule),
    ("matches", array (ts.map (ofOption Triple.toJson)))] (by simp) false depth
  simp only [List.map_cons, List.map_nil] at hfields
  rw [toJson, ofJson?, hfields, height_record_lt_iff]
  cases h : enter? depth with
  | none => simp
  | some inner =>
      obtain ⟨hdepth, hroom⟩ := enter?_eq_some_iff.1 h
      have hread : (((array (ts.map (ofOption Triple.toJson))).items? inner).bind fun p =>
          (Triple.ofJson? inner conclusion.toJson).bind fun conclusion =>
            ((ofOption ofText ruleName).optional? text?).bind fun ruleName =>
              (ofText rule).text?.bind fun rule =>
                (p.2.mapM (optional? (Triple.ofJson? p.1))).bind fun ts =>
                  some (DerivationRecord.mk conclusion ruleName rule ts)) =
            some ⟨conclusion, ruleName, rule, ts⟩ ↔
          Triple.ofJson? inner conclusion.toJson = some conclusion ∧
            (((array (ts.map (ofOption Triple.toJson))).items? inner).bind fun p =>
              p.2.mapM (optional? (Triple.ofJson? p.1))) = some ts := by
        simp only [optional?_name, ofText, text?, Option.bind_some, Option.bind_eq_some_iff,
          Option.some.injEq, DerivationRecord.mk.injEq]
        constructor
        · rintro ⟨p, hp, _, hconclusion, _, hts, rfl, -, -, rfl⟩
          exact ⟨hconclusion, p, hp, hts⟩
        · rintro ⟨hconclusion, p, hp, hts⟩
          exact ⟨p, hp, _, hconclusion, _, hts, rfl, trivial, trivial, rfl⟩
      have hfits : (∃ i, some inner = some i ∧ ∀ m ∈ [("conclusion", conclusion.toJson),
          ("rule_name", ofOption ofText ruleName), ("rule", ofText rule),
          ("matches", array (ts.map (ofOption Triple.toJson)))], m.2.height < i) ↔
            conclusion.toJson.height < inner ∧
              (array (ts.map (ofOption Triple.toJson))).height < inner := by
        have hname : (ofOption ofText ruleName).height = 0 := by cases ruleName <;> rfl
        simp [hname, hroom, ofText, height]
      refine hread.trans ?_
      rw [hfits, Triple.ofJson?_toJson_iff (by omega), antecedents_iff (by omega)]
      constructor
      · rintro ⟨⟨hc, hconclusion⟩, hts, hantecedents⟩
        exact ⟨⟨hc, hts⟩, hconclusion, hantecedents⟩
      · rintro ⟨⟨hc, hts⟩, hlegible⟩
        exact ⟨⟨hc, hlegible.conclusion⟩, hts, hlegible.antecedents⟩

end DerivationRecord

namespace DerivationExport

theorem tidy_toJson (e : DerivationExport) : e.toJson.Tidy := by
  refine .record ?_
  simp only [List.forall_mem_cons]
  exact ⟨.string _, tidy_array_map DerivationRecord.tidy_toJson _, List.forall_mem_nil _⟩

/-- The records of an export are read back one by one. -/
theorem listOfJson?_iff (hlimit : depth ≤ depthLimit) (rs : List DerivationRecord) :
    DerivationRecord.listOfJson? depth (array (rs.map DerivationRecord.toJson)) = some rs ↔
      (array (rs.map DerivationRecord.toJson)).height < depth ∧ ∀ r ∈ rs, r.Legible := by
  rw [DerivationRecord.listOfJson?, height_array_lt_iff]
  cases h : enter? depth with
  | none => simp [items?, h]
  | some inner =>
      obtain ⟨hdepth, hroom⟩ := enter?_eq_some_iff.1 h
      have hall : (rs.map DerivationRecord.toJson).mapM (DerivationRecord.ofJson? inner) =
          some (rs.map id) ↔ ∀ r ∈ rs, DerivationRecord.ofJson? inner r.toJson = some r :=
        mapM_map_eq_some_iff
      rw [List.map_id] at hall
      simp only [items?, h, Option.map_some, Option.bind_eq_bind, Option.bind_some,
        Option.some.injEq, exists_eq_left', List.forall_mem_map]
      rw [hall, forall₂_congr fun r _ => DerivationRecord.ofJson?_toJson_iff (by omega) r]
      exact forall₂_and

theorem ofJson?_toJson_iff (e : DerivationExport) (hlimit : depth ≤ depthLimit)
    (htime : Timestamp.isValid e.exportedAt = true) :
    (∃ e', ofJson? depth e.toJson = some e' ∧ e'.derivations = e.derivations) ↔
      e.toJson.height < depth ∧ ∀ r ∈ e.derivations, r.Legible := by
  obtain ⟨time, rs⟩ := e
  have hfields := fields?_record [("exported_at", Json.ofText time),
    ("derivations", array (rs.map DerivationRecord.toJson))] (by simp) false depth
  simp only [List.map_cons, List.map_nil] at hfields
  rw [toJson, ofJson?, hfields, height_record_lt_iff]
  cases h : enter? depth with
  | none => simp
  | some inner =>
      obtain ⟨hdepth, hroom⟩ := enter?_eq_some_iff.1 h
      have hread : ∀ e', ((if Timestamp.isValid time then
          (DerivationRecord.listOfJson? inner (array (rs.map DerivationRecord.toJson))).bind
            fun rs => some (DerivationExport.mk time rs)
          else none) = some e' ∧ e'.derivations = rs) ↔
            DerivationRecord.listOfJson? inner (array (rs.map DerivationRecord.toJson)) =
              some rs ∧ e' = ⟨time, rs⟩ := by
        intro e'
        rw [if_pos htime, Option.bind_eq_some_iff]
        constructor
        · rintro ⟨⟨rs, hrs, ⟨⟩⟩, rfl⟩
          exact ⟨hrs, rfl⟩
        · rintro ⟨hrs, rfl⟩
          exact ⟨⟨rs, hrs, rfl⟩, rfl⟩
      have hfits : (∃ i, some inner = some i ∧ ∀ m ∈ [("exported_at", Json.ofText time),
          ("derivations", array (rs.map DerivationRecord.toJson))], m.2.height < i) ↔
            (array (rs.map DerivationRecord.toJson)).height < inner := by
        simp [hroom, Json.ofText, height]
      refine (exists_congr hread).trans ?_
      rw [hfits, exists_and_left, listOfJson?_iff (by omega)]
      simp

/-- The text of an export is read as its document is. -/
theorem ofText_pretty (e : DerivationExport) :
    ofText (e.toJson.pretty 0) =
      match ofJson? depthLimit e.toJson with
      | some e => .ok e
      | none => .error .serialization := by
  rw [ofText, decode, e.tidy_toJson.read?_pretty, Option.bind_some]
  cases ofJson? depthLimit e.toJson <;> rfl

end DerivationExport

/-- Everything in the triples of the derivation is legible. -/
structure Derivation.Legible (d : Derivation) : Prop where
  conclusion : d.conclusion.Legible
  antecedents : ∀ t ∈ d.matchedTriples, t.Legible

theorem Derivation.legible_toRecord_iff {d : Derivation} : d.toRecord.Legible ↔ d.Legible := by
  have hmatched : ∀ t, t ∈ d.matchedTriples ↔ some t ∈ d.antecedents := by
    simp [matchedTriples]
  exact ⟨fun h => ⟨h.conclusion, fun t ht => h.antecedents t ((hmatched t).1 ht)⟩,
    fun h => ⟨h.conclusion, fun t ht => h.antecedents t ((hmatched t).2 ht)⟩⟩

namespace DerivationLog

/-- The text of a log is read back as its records, in their order, just when everything in it
is legible and its document does not nest too deeply. -/
theorem ofText_toText_iff (log : DerivationLog) {time : String}
    (htime : Timestamp.isValid time = true) :
    (∃ e, DerivationExport.ofText (log.toText time) = .ok e ∧
        e.derivations = log.derivations.map Derivation.toRecord) ↔
      (∀ d ∈ log.derivations, d.Legible) ∧ (log.toExport time).toJson.height < depthLimit := by
  have htext : ∀ e, DerivationExport.ofText (log.toText time) = .ok e ↔
      DerivationExport.ofJson? depthLimit (log.toExport time).toJson = some e := by
    rw [toText, DerivationExport.ofText_pretty]
    cases DerivationExport.ofJson? depthLimit (log.toExport time).toJson <;> simp
  have hread := (log.toExport time).ofJson?_toJson_iff (Nat.le_refl depthLimit) htime
  have hrecords : (∀ r ∈ (log.toExport time).derivations, r.Legible) ↔
      ∀ d ∈ log.derivations, d.Legible := by
    rw [toExport]
    simp only [List.forall_mem_map, Derivation.legible_toRecord_iff]
  rw [hrecords] at hread
  refine (exists_congr fun e => and_congr_left' (htext e)).trans (hread.trans ?_)
  exact and_comm

/-- The step from a premise to a conclusion by a rule of one pattern. -/
def copied (l : Literal) : Derivation where
  conclusion := ⟨.uri "s", .uri "q", .literal l⟩
  rule := {
    name := some "copy"
    body := [.pattern ⟨.uri "s", .uri "p", .var ⟨"x", 0⟩⟩]
    head := [.pattern ⟨.uri "s", .uri "q", .var ⟨"x", 0⟩⟩]
    numVars := 1
    direction := .forward }
  antecedents := [some ⟨.uri "s", .uri "p", .literal l⟩]

def copies (ls : List Literal) : DerivationLog :=
  ls.foldl (fun log l => (log.record (copied l)).2) .empty

theorem legible_copied {l : Literal} (h : l.Legible) : (copied l).Legible := by
  refine ⟨⟨.uri _, .uri _, .literal h⟩, fun t ht => ?_⟩
  rw [List.mem_singleton.1 ht]
  exact ⟨.uri _, .uri _, .literal h⟩

set_option maxRecDepth 4000 in
theorem ofText_toText_iff_copies :
    Timestamp.isValid "2024-01-02T03:04:05Z" = true ∧
      ∃ e, DerivationExport.ofText
          ((copies [.double Double.one, .tagged "chat" "fr"]).toText "2024-01-02T03:04:05Z") =
            .ok e ∧
        e.derivations.length = 2 := by
  have htime : Timestamp.isValid "2024-01-02T03:04:05Z" = true := by decide +kernel
  have hderivations : (copies [.double Double.one, .tagged "chat" "fr"]).derivations =
      [copied (.double Double.one), copied (.tagged "chat" "fr")] := rfl
  have hlegible : ∀ d ∈ (copies [.double Double.one, .tagged "chat" "fr"]).derivations,
      d.Legible := by
    have hone : (ofDouble Double.one).double? = some Double.one := by decide +kernel
    rw [hderivations]
    simp only [List.forall_mem_cons]
    exact ⟨legible_copied hone, legible_copied trivial, List.forall_mem_nil _⟩
  obtain ⟨e, he, hrecords⟩ := (ofText_toText_iff
    (copies [.double Double.one, .tagged "chat" "fr"]) htime).2 ⟨hlegible, by decide +kernel⟩
  refine ⟨htime, e, he, ?_⟩
  rw [hrecords, List.length_map, hderivations]
  rfl

set_option maxRecDepth 4000 in
/-- The export of a step to an infinity cannot be read back at all. -/
theorem not_ofText_toText_infinite :
    Timestamp.isValid "2024-01-02T03:04:05Z" = true ∧
      (copies [.double Double.infinity]).derivations = [copied (.double Double.infinity)] ∧
      DerivationExport.ofText
        ((copies [.double Double.infinity]).toText "2024-01-02T03:04:05Z") =
          .error .serialization := by
  refine ⟨by decide +kernel, rfl, ?_⟩
  have hnone : DerivationExport.ofJson? depthLimit
      ((copies [.double Double.infinity]).toExport "2024-01-02T03:04:05Z").toJson = none :=
    Option.isNone_iff_eq_none.1 (by decide +kernel)
  rw [toText, DerivationExport.ofText_pretty, hnone]

end DerivationLog

end Entailment
