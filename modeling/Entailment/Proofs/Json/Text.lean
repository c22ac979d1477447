import Entailment.Json.Basic
import Mathlib.Data.List.Forall2

/-!
# Reading what has been written

The text of a value is read as that value again: every content of a string comes back
from its quotes, every well-formed literal of a number ends where it is followed by a
blank, a comma or a bracket, and the blanks that lay out a document are skipped.
-/

namespace Entailment

namespace Json

namespace Reader

/-! ## Strings -/

theorem hexUnit?_hexChar {n : Nat} (h : n < 0x20) :
    hexUnit? '0' '0' (hexChar (n / 16)) (hexChar (n % 16)) = some n := by
  decide +revert

/-- A character before the units of a text. -/
def withChar (c : Char) : List Unit16 × List Char → List Unit16 × List Char :=
  fun (us, rest) => (.char c :: us, rest)

theorem units_plainEscape {e c : Char} (h : plainEscape? e = some c) (cs : List Char) :
    units ('\\' :: e :: cs) = (units cs).map (withChar c) := by
  rw [units, h, Option.map_eq_bind]
  · rfl
  · rintro _ _ _ _ _ rfl
    cases h

theorem units_plain {c : Char} (hquote : c ≠ '"') (hescape : c ≠ '\\')
    (hplain : ¬ c.toNat < 0x20) (cs : List Char) :
    units (c :: cs) = (units cs).map (withChar c) := by
  rw [units, if_neg hplain, Option.map_eq_bind]
  · rfl
  · exact hquote
  · exact fun _ _ _ _ _ h => absurd h hescape
  · exact fun _ _ h => absurd h hescape

theorem units_control {n : Nat} (h : n < 0x20) (cs : List Char) :
    units ('\\' :: 'u' :: '0' :: '0' :: hexChar (n / 16) :: hexChar (n % 16) :: cs) =
      (units cs).map (withChar (Char.ofNat n)) := by
  rw [units, hexUnit?_hexChar h, Option.map_eq_bind]
  have hwhole : ¬ (0xd800 ≤ n ∧ n ≤ 0xdfff) := by omega
  simp only [Option.bind_eq_bind, Option.bind_some, if_neg hwhole]
  rfl

/-- A character is escaped by a letter or by its number, or it stands for itself. -/
theorem escapeChar_cases (c : Char) :
    (∃ e, escapeChar c = ['\\', e] ∧ plainEscape? e = some c) ∨
      (c.toNat < 0x20 ∧ escapeChar c =
        ['\\', 'u', '0', '0', hexChar (c.toNat / 16), hexChar (c.toNat % 16)]) ∨
      (c ≠ '"' ∧ c ≠ '\\' ∧ ¬ c.toNat < 0x20 ∧ escapeChar c = [c]) := by
  have hnamed : ∀ {d e : Char}, (c == d) = true → plainEscape? e = some d →
      ∃ e', ['\\', e] = ['\\', e'] ∧ plainEscape? e' = some c := by
    intro d e hcd he
    exact ⟨e, rfl, (eq_of_beq hcd).symm ▸ he⟩
  unfold escapeChar
  split_ifs with hquote hescape hline hreturn htab hback hfeed hcontrol
  · exact .inl (hnamed hquote rfl)
  · exact .inl (hnamed hescape rfl)
  · exact .inl (hnamed hline rfl)
  · exact .inl (hnamed hreturn rfl)
  · exact .inl (hnamed htab rfl)
  · exact .inl (hnamed hback rfl)
  · exact .inl (hnamed hfeed rfl)
  · exact .inr (.inl ⟨hcontrol, rfl⟩)
  · refine .inr (.inr ⟨?_, ?_, hcontrol, rfl⟩)
    · rintro rfl
      exact hquote rfl
    · rintro rfl
      exact hescape rfl

/-- An escaped character is read as the character. -/
theorem units_escapeChar (c : Char) (cs : List Char) :
    units (escapeChar c ++ cs) = (units cs).map (withChar c) := by
  rcases escapeChar_cases c with ⟨e, hc, he⟩ | ⟨hcontrol, hc⟩ | ⟨hquote, hescape, hplain, hc⟩
  · rw [hc]
    exact units_plainEscape he cs
  · rw [hc]
    have hunits := units_control hcontrol cs
    rwa [Char.ofNat_toNat] at hunits
  · rw [hc]
    exact units_plain hquote hescape hplain cs

theorem units_escaped (cs rest : List Char) :
    units (cs.flatMap escapeChar ++ '"' :: rest) = some (cs.map .char, rest) := by
  induction cs with
  | nil => rw [List.flatMap_nil, List.nil_append, units, List.map_nil]
  | cons c cs ih =>
      rw [List.flatMap_cons, List.append_assoc, units_escapeChar, ih]
      rfl

theorem joinHalves_chars (cs : List Char) : joinHalves (cs.map .char) = some cs := by
  induction cs with
  | nil => rfl
  | cons c cs ih =>
      rw [List.map_cons, joinHalves, ih]
      rfl

/-- A quoted string is read as its content. -/
theorem stringBody_quote (s : String) (rest : List Char) :
    stringBody (s.toList.flatMap escapeChar ++ '"' :: rest) = some (some s, rest) := by
  rw [stringBody, units_escaped]
  simp only [Option.bind_eq_bind, Option.bind_some, joinHalves_chars, Option.map_some,
    String.ofList_toList]
  rfl

theorem toList_quote (s : String) :
    (quote s).toList = '"' :: (s.toList.flatMap escapeChar ++ ['"']) := by
  rw [quote, String.toList_ofList]
  rfl

/-! ## Numbers -/

/-- At least one digit, and nothing else. -/
def Digits (ds : List Char) : Prop := ds ≠ [] ∧ ∀ c ∈ ds, c.isDigit = true

/-- A literal of a number: a sign, a whole part without a superfluous zero, a fraction and
an exponent. -/
inductive Spelled : List Char → Prop where
  | mk {sign whole fraction exponent : List Char} :
      sign = [] ∨ sign = ['-'] →
      Digits whole → (whole.head? = some '0' → whole.length = 1) →
      fraction = [] ∨ (∃ ds, fraction = '.' :: ds ∧ Digits ds) →
      exponent = [] ∨ (∃ s ds, exponent = 'e' :: (s ++ ds) ∧
        (s = [] ∨ s = ['+'] ∨ s = ['-']) ∧ Digits ds) →
      Spelled (sign ++ whole ++ fraction ++ exponent)

/-- What follows a number does not go on with it. -/
def Breaks (rest : List Char) : Prop :=
  ∀ c ∈ rest.head?, c.isDigit = false ∧ c ≠ '.' ∧ c ≠ 'e' ∧ c ≠ 'E'

/-- Digits end where something else follows. -/
theorem digits_append {ds rest : List Char} (hds : ∀ c ∈ ds, c.isDigit = true)
    (hrest : ∀ c ∈ rest.head?, c.isDigit = false) : Reading.digits (ds ++ rest) = (ds, rest) := by
  have hstop : rest.takeWhile Char.isDigit = [] ∧ rest.dropWhile Char.isDigit = rest := by
    cases rest with
    | nil => exact ⟨rfl, rfl⟩
    | cons c cs =>
        have hc : ¬ c.isDigit = true := Bool.not_eq_true _ ▸ hrest c rfl
        exact ⟨List.takeWhile_cons_of_neg hc, List.dropWhile_cons_of_neg hc⟩
  rw [Reading.digits, List.takeWhile_append_of_pos hds, List.dropWhile_append_of_pos hds,
    hstop.1, hstop.2, List.append_nil]

theorem someDigits_append {ds rest : List Char} (hds : Digits ds)
    (hrest : ∀ c ∈ rest.head?, c.isDigit = false) : someDigits (ds ++ rest) = some (ds, rest) := by
  rw [someDigits, digits_append hds.2 hrest]
  cases ds with
  | nil => exact absurd rfl hds.1
  | cons => rfl

theorem wholeDigits_append {ds rest : List Char} (hds : Digits ds)
    (hzero : ds.head? = some '0' → ds.length = 1) (hrest : ∀ c ∈ rest.head?, c.isDigit = false) :
    wholeDigits (ds ++ rest) = some (ds, rest) := by
  rw [wholeDigits, someDigits_append hds hrest]
  simp only [Option.bind_eq_bind, Option.bind_some]
  rw [if_neg]
  simp only [Bool.and_eq_true, beq_iff_eq, bne_iff_ne, not_and, not_not]
  exact hzero

theorem fractionPart_append {fraction rest : List Char}
    (h : fraction = [] ∨ ∃ ds, fraction = '.' :: ds ∧ Digits ds)
    (hrest : ∀ c ∈ rest.head?, c.isDigit = false ∧ c ≠ '.') :
    fractionPart (fraction ++ rest) = some (fraction, rest) := by
  rcases h with rfl | ⟨ds, rfl, hds⟩
  · rw [List.nil_append, fractionPart]
    rintro tail rfl
    exact (hrest '.' rfl).2 rfl
  · rw [List.cons_append, fractionPart, someDigits_append hds fun c hc => (hrest c hc).1]
    rfl

theorem Digits.head_isDigit {ds : List Char} (h : Digits ds) : ∃ d tail, ds = d :: tail ∧
    d.isDigit = true := by
  obtain ⟨hne, hall⟩ := h
  cases ds with
  | nil => exact absurd rfl hne
  | cons d tail => exact ⟨d, tail, rfl, hall d List.mem_cons_self⟩

theorem exponentPart_append {exponent rest : List Char}
    (h : exponent = [] ∨ ∃ s ds, exponent = 'e' :: (s ++ ds) ∧
      (s = [] ∨ s = ['+'] ∨ s = ['-']) ∧ Digits ds)
    (hrest : Breaks rest) : exponentPart (exponent ++ rest) = some (exponent, rest) := by
  rcases h with rfl | ⟨s, ds, rfl, hs, hds⟩
  · cases rest with
    | nil => rfl
    | cons c cs =>
        obtain ⟨-, -, he, hE⟩ := hrest c rfl
        have hno : (c == 'e' || c == 'E') = false := by simp [he, hE]
        simp only [List.nil_append, exponentPart, hno]
        rfl
  · have hdigits := someDigits_append hds fun c hc => (hrest c hc).1
    rcases hs with rfl | rfl | rfl
    · have hsigned : ∀ sign tail, ds ++ rest = sign :: tail → sign.isDigit = true := by
        obtain ⟨d, ds, rfl, hd⟩ := hds.head_isDigit
        rintro _ _ ⟨⟩
        exact hd
      rw [List.nil_append, List.cons_append, exponentPart, hdigits]
      · rfl
      · exact fun tail htail => absurd (hsigned _ _ htail) (by decide)
      · exact fun tail htail => absurd (hsigned _ _ htail) (by decide)
    · change (someDigits (ds ++ rest)).bind (fun p => some ('e' :: ['+'] ++ p.1, p.2)) = _
      rw [hdigits]
      rfl
    · change (someDigits (ds ++ rest)).bind (fun p => some ('e' :: ['-'] ++ p.1, p.2)) = _
      rw [hdigits]
      rfl

/-- A literal ends where something else follows. -/
theorem numberLiteral_append {literal rest : List Char} (h : Spelled literal)
    (hrest : Breaks rest) : numberLiteral (literal ++ rest) = some (literal, rest) := by
  obtain @⟨sign, whole, fraction, exponent, hsign, hwhole, hzero, hfraction, hexponent⟩ := h
  have hafter : ∀ c ∈ (exponent ++ rest).head?, c.isDigit = false ∧ c ≠ '.' := by
    rcases hexponent with rfl | ⟨s, ds, rfl, -⟩
    · exact fun c hc => ⟨(hrest c hc).1, (hrest c hc).2.1⟩
    · rintro _ ⟨⟩
      decide
  have hpoint : ∀ c ∈ (fraction ++ (exponent ++ rest)).head?, c.isDigit = false := by
    rcases hfraction with rfl | ⟨ds, rfl, -⟩
    · exact fun c hc => (hafter c hc).1
    · rintro _ ⟨⟩
      decide
  have hparts : ∀ sign : List Char,
      ((wholeDigits (whole ++ (fraction ++ (exponent ++ rest)))).bind fun w =>
        (fractionPart w.2).bind fun f =>
          (exponentPart f.2).bind fun e => some (sign ++ w.1 ++ f.1 ++ e.1, e.2)) =
        some (sign ++ whole ++ fraction ++ exponent, rest) := by
    intro sign
    simp only [wholeDigits_append hwhole hzero hpoint, Option.bind_some,
      fractionPart_append hfraction hafter, exponentPart_append hexponent hrest]
  have hinput : sign ++ whole ++ fraction ++ exponent ++ rest =
      sign ++ (whole ++ (fraction ++ (exponent ++ rest))) := by
    simp only [List.append_assoc]
  rw [hinput]
  rcases hsign with rfl | rfl
  · rw [List.nil_append, numberLiteral]
    · exact hparts []
    · obtain ⟨d, tail, rfl, hd⟩ := hwhole.head_isDigit
      rintro _ ⟨⟩
      exact absurd hd (by decide)
  · exact hparts ['-']

theorem Spelled.head {literal : List Char} (h : Spelled literal) :
    ∃ c tail, literal = c :: tail ∧ (c = '-' ∨ c.isDigit = true) := by
  obtain @⟨sign, whole, fraction, exponent, hsign, hwhole, -, -, -⟩ := h
  rcases hsign with rfl | rfl
  · obtain ⟨d, tail, rfl, hd⟩ := hwhole.head_isDigit
    exact ⟨d, _, rfl, .inr hd⟩
  · exact ⟨'-', _, rfl, .inl rfl⟩

/-! ## Layout -/

theorem skipBlanks_append {blanks : List Char} (h : ∀ c ∈ blanks, isBlank c = true)
    (cs : List Char) : skipBlanks (blanks ++ cs) = skipBlanks cs :=
  List.dropWhile_append_of_pos h

theorem skipBlanks_cons {c : Char} (h : isBlank c = false) (cs : List Char) :
    skipBlanks (c :: cs) = c :: cs :=
  List.dropWhile_cons_of_neg (by rw [h]; exact Bool.false_ne_true)

theorem value_blanks {blanks : List Char} (h : ∀ c ∈ blanks, isBlank c = true) (fuel : Nat)
    (cs : List Char) : value fuel (blanks ++ cs) = value fuel cs := by
  cases fuel with
  | zero => rw [value, value]
  | succ fuel => rw [value, value, skipBlanks_append h]

theorem itemsFrom_blanks {blanks : List Char} (h : ∀ c ∈ blanks, isBlank c = true) (fuel : Nat)
    (cs : List Char) : itemsFrom fuel (blanks ++ cs) = itemsFrom fuel cs := by
  cases fuel with
  | zero => rw [itemsFrom, itemsFrom]
  | succ fuel => rw [itemsFrom, itemsFrom, value_blanks h]

theorem membersFrom_blanks {blanks : List Char} (h : ∀ c ∈ blanks, isBlank c = true) (fuel : Nat)
    (cs : List Char) : membersFrom fuel (blanks ++ cs) = membersFrom fuel cs := by
  cases fuel with
  | zero => rw [membersFrom, membersFrom]
  | succ fuel => rw [membersFrom, membersFrom, skipBlanks_append h]

/-- The beginning of a line. -/
def margin (depth : Nat) : List Char := '\n' :: List.replicate (2 * depth) ' '

theorem isBlank_of_mem_margin {depth : Nat} : ∀ c ∈ margin depth, isBlank c = true := by
  intro c hc
  rcases List.mem_cons.1 hc with rfl | hc
  · rfl
  · rw [List.eq_of_mem_replicate hc]
    rfl

/-- What follows the first item of a block. -/
def blockTail (depth : Nat) (closing : List Char) : List (List Char) → List Char
  | [] => margin depth ++ closing
  | text :: texts => ',' :: (margin (depth + 1) ++ (text ++ blockTail depth closing texts))

theorem intercalate_lines (depth : Nat) (closing text : List Char) (texts : List (List Char)) :
    '\n' :: ([',', '\n'].intercalate
        ((text :: texts).map (List.replicate (2 * (depth + 1)) ' ' ++ ·)) ++
          (margin depth ++ closing)) =
      margin (depth + 1) ++ (text ++ blockTail depth closing texts) := by
  induction texts generalizing text with
  | nil => simp [margin, blockTail]
  | cons next texts ih =>
      rw [List.map_cons, List.map_cons, List.intercalate_cons_cons, blockTail, ← ih next]
      simp [margin]

/-! ## Values -/

/-- A value is read from the text wherever that stands, in as many steps as it is long. -/
structure Written (v : Json) (text : List Char) : Prop where
  starts : ∃ c tail, text = c :: tail ∧ isBlank c = false ∧ c ≠ ']'
  reads : ∀ fuel rest, text.length ≤ fuel → Breaks rest → value fuel (text ++ rest) = some (v, rest)

/-- A member is read from its key and the text of its value. -/
inductive WrittenMember : String × Json → List Char → Prop where
  | mk (key : String) {v : Json} {text : List Char} : Written v text →
      WrittenMember (key, v) ((quote key).toList ++ ':' :: ' ' :: text)

/-- Steps that are enough for the items of a block. -/
def stepsFor : List (List Char) → Nat
  | [] => 0
  | text :: texts => text.length + 1 + stepsFor texts

theorem stepsFor_cons {text : List Char} {texts : List (List Char)} {fuel : Nat}
    (h : stepsFor (text :: texts) ≤ fuel + 1) : text.length ≤ fuel ∧ stepsFor texts ≤ fuel := by
  rw [stepsFor] at h
  omega

theorem breaks_blockTail (depth : Nat) {closing : List Char} (texts : List (List Char))
    (rest : List Char) : Breaks (blockTail depth closing texts ++ rest) := by
  cases texts <;> · rintro _ ⟨⟩; decide

theorem itemsFrom_block {items : List Json} {texts : List (List Char)}
    (h : List.Forall₂ Written items texts) (depth : Nat) {item : Json} {text : List Char}
    (hitem : Written item text) {fuel : Nat} (hfuel : stepsFor (text :: texts) ≤ fuel)
    (rest : List Char) :
    itemsFrom fuel (text ++ (blockTail depth [']'] texts ++ rest)) =
      some (item :: items, rest) := by
  induction h generalizing item text fuel with
  | nil =>
      cases fuel with
      | zero => simp [stepsFor] at hfuel
      | succ fuel =>
          have hlength := (stepsFor_cons hfuel).1
          rw [itemsFrom, hitem.reads fuel _ hlength (breaks_blockTail depth [] rest)]
          simp only [Option.bind_eq_bind, Option.bind_some, blockTail, List.append_assoc,
            skipBlanks_append isBlank_of_mem_margin]
          rfl
  | @cons next nextText items texts hnext _ ih =>
      cases fuel with
      | zero => simp [stepsFor] at hfuel
      | succ fuel =>
          obtain ⟨hlength, hrest⟩ := stepsFor_cons hfuel
          rw [itemsFrom, hitem.reads fuel _ hlength (breaks_blockTail depth _ rest)]
          simp only [Option.bind_eq_bind, Option.bind_some, blockTail, List.cons_append,
            List.append_assoc]
          rw [skipBlanks_cons (by rfl)]
          simp only [itemsFrom_blanks isBlank_of_mem_margin, ih hnext hrest]
          rfl

/-- The value of a key, with what follows it. -/
theorem membersFrom_key (fuel : Nat) (key : String) (cs : List Char) :
    membersFrom (fuel + 1) ((quote key).toList ++ ':' :: ' ' :: cs) = (do
      let (item, rest) ← value fuel cs
      match skipBlanks rest with
      | '\x7d' :: rest => return ([(some key, item)], rest)
      | ',' :: rest =>
        let (members, rest) ← membersFrom fuel rest
        return ((some key, item) :: members, rest)
      | _ => none) := by
  have hcolon : skipBlanks (':' :: ' ' :: cs) = ':' :: ' ' :: cs := rfl
  have hblank : ∀ c ∈ [' '], isBlank c = true := List.forall_mem_singleton.2 rfl
  have hspace : value fuel (' ' :: cs) = value fuel cs := value_blanks hblank fuel cs
  rw [membersFrom, toList_quote, List.cons_append, skipBlanks_cons (by rfl), List.append_assoc,
    List.singleton_append]
  simp only [stringBody_quote, Option.bind_eq_bind, Option.bind_some, hcolon]
  exact congrArg (Option.bind · _) hspace

theorem membersFrom_block {members : List (String × Json)} {texts : List (List Char)}
    (h : List.Forall₂ WrittenMember members texts) (depth : Nat) {m : String × Json}
    {text : List Char} (hm : WrittenMember m text) {fuel : Nat}
    (hfuel : stepsFor (text :: texts) ≤ fuel) (rest : List Char) :
    membersFrom fuel (text ++ (blockTail depth ['\x7d'] texts ++ rest)) =
      some ((m :: members).map (fun (k, v) => (some k, v)), rest) := by
  induction h generalizing m text fuel with
  | nil =>
      cases fuel with
      | zero => simp [stepsFor] at hfuel
      | succ fuel =>
          obtain ⟨key, hinner⟩ := hm
          obtain ⟨hlength, -⟩ := stepsFor_cons hfuel
          simp only [List.length_append, List.length_cons] at hlength
          rw [List.append_assoc, List.cons_append, List.cons_append, membersFrom_key,
            hinner.reads fuel _ (by omega) (breaks_blockTail depth [] rest)]
          simp only [Option.bind_eq_bind, Option.bind_some, blockTail, List.append_assoc,
            skipBlanks_append isBlank_of_mem_margin]
          rfl
  | @cons next nextText members texts hnext _ ih =>
      cases fuel with
      | zero => simp [stepsFor] at hfuel
      | succ fuel =>
          obtain ⟨key, hinner⟩ := hm
          obtain ⟨hlength, hrest⟩ := stepsFor_cons hfuel
          simp only [List.length_append, List.length_cons] at hlength
          rw [List.append_assoc, List.cons_append, List.cons_append, membersFrom_key,
            hinner.reads fuel _ (by omega) (breaks_blockTail depth _ rest)]
          simp only [Option.bind_eq_bind, Option.bind_some, blockTail, List.cons_append,
            List.append_assoc]
          rw [skipBlanks_cons (by rfl)]
          simp only [membersFrom_blanks isBlank_of_mem_margin, ih hnext hrest]
          rfl

theorem stepsFor_lt_length (depth : Nat) (closing : List Char) (texts : List (List Char)) :
    stepsFor texts < (blockTail depth closing texts).length := by
  induction texts with
  | nil => simp [stepsFor, blockTail, margin]
  | cons text texts ih =>
      simp only [stepsFor, blockTail, List.length_cons, List.length_append] at ih ⊢
      omega

theorem value_bracket {blanks : List Char} (hblanks : ∀ c ∈ blanks, isBlank c = true) {c : Char}
    (hc : isBlank c = false) (hclosing : c ≠ ']') (fuel : Nat) (cs : List Char) :
    value (fuel + 1) ('[' :: (blanks ++ c :: cs)) =
      (itemsFrom fuel (c :: cs)).bind fun (items, rest) => some (.array items, rest) := by
  rw [value, skipBlanks_cons (by rfl)]
  simp only [skipBlanks_append hblanks, skipBlanks_cons hc]
  split
  · rename_i heq
    exact absurd (List.cons.inj heq).1 hclosing
  · rfl

theorem value_brace {blanks : List Char} (hblanks : ∀ c ∈ blanks, isBlank c = true) (fuel : Nat)
    (cs : List Char) :
    value (fuel + 1) ('\x7b' :: (blanks ++ '"' :: cs)) =
      (membersFrom fuel ('"' :: cs)).bind fun (members, rest) => some (.object members, rest) := by
  rw [value, skipBlanks_cons (by rfl)]
  simp only [skipBlanks_append hblanks, skipBlanks_cons (c := '"') (by rfl)]
  rfl

theorem written_null : Written .null "null".toList where
  starts := ⟨_, _, rfl, rfl, by decide⟩
  reads fuel rest hfuel _ := by
    cases fuel with
    | zero => simp at hfuel
    | succ fuel => rfl

theorem written_bool (b : Bool) : Written (.bool b) (if b then "true" else "false").toList := by
  cases b with
  | true =>
      refine ⟨⟨_, _, rfl, rfl, by decide⟩, fun fuel rest hfuel _ => ?_⟩
      cases fuel with
      | zero => simp at hfuel
      | succ fuel => rfl
  | false =>
      refine ⟨⟨_, _, rfl, rfl, by decide⟩, fun fuel rest hfuel _ => ?_⟩
      cases fuel with
      | zero => simp at hfuel
      | succ fuel => rfl

theorem written_string (s : String) : Written (.string (some s)) (quote s).toList := by
  rw [toList_quote]
  refine ⟨⟨_, _, rfl, rfl, by decide⟩, fun fuel rest hfuel _ => ?_⟩
  cases fuel with
  | zero => simp at hfuel
  | succ fuel =>
      rw [List.cons_append, value, skipBlanks_cons rfl, List.append_assoc, List.singleton_append]
      simp only [stringBody_quote]
      rfl

theorem written_number {literal : String} (h : Spelled literal.toList) :
    Written (.number literal) literal.toList := by
  obtain ⟨c, tail, hliteral, hc⟩ := h.head
  have hother : ∀ d : Char, d ≠ '-' → d.isDigit = false → c ≠ d := by
    rintro d hminus hdigit rfl
    rcases hc with hc | hc
    · exact hminus hc
    · rw [hdigit] at hc
      cases hc
  have hblank : isBlank c = false := by
    simp only [isBlank, Bool.or_eq_false_iff, beq_eq_false_iff_ne]
    exact ⟨⟨⟨hother _ (by decide) (by decide), hother _ (by decide) (by decide)⟩,
      hother _ (by decide) (by decide)⟩, hother _ (by decide) (by decide)⟩
  refine ⟨⟨c, tail, hliteral, hblank, hother _ (by decide) (by decide)⟩,
    fun fuel rest hfuel hrest => ?_⟩
  cases fuel with
  | zero =>
      rw [hliteral] at hfuel
      simp at hfuel
  | succ fuel =>
      have hnumber := numberLiteral_append h hrest
      rw [hliteral] at hnumber ⊢
      rw [List.cons_append] at hnumber ⊢
      rw [value, skipBlanks_cons hblank]
      split
      · rename_i heq
        cases heq
      iterate 6
        · rename_i heq
          exact absurd (List.cons.inj heq).1 (hother _ (by decide) (by decide))
      · rename_i heq
        cases heq
        rw [hnumber, ← hliteral]
        simp only [Option.bind_eq_bind, Option.bind_some, String.ofList_toList]
        rfl

end Reader

open Reader in
theorem toList_block (depth : Nat) (opening closing text : String) (texts : List String) :
    (block depth opening closing (text :: texts)).toList =
      opening.toList ++ (margin (depth + 1) ++
        (text.toList ++ blockTail depth closing.toList (texts.map String.toList))) := by
  rw [← intercalate_lines, block, List.isEmpty_cons, if_neg Bool.false_ne_true]
  simp only [String.toList_append, String.toList_intercalate, indentation, String.toList_ofList,
    List.map_map, List.map_cons, Function.comp_def, margin]
  simp only [List.append_assoc, List.cons_append]
  rfl

section Blocks

open Reader

variable {items : List Json} {members : List (String × Json)} {texts : List String}

theorem stepsFor_block {depth fuel : Nat} {opening closing text : String}
    (hopening : opening ≠ "")
    (h : (block depth opening closing (text :: texts)).toList.length ≤ fuel + 1) :
    stepsFor (text.toList :: texts.map String.toList) ≤ fuel := by
  have hlt := stepsFor_lt_length depth closing.toList (texts.map String.toList)
  have hpos : 0 < opening.toList.length :=
    List.length_pos_iff.2 fun hnil => hopening (String.toList_inj.1 hnil)
  rw [toList_block] at h
  simp only [List.length_append] at h
  rw [stepsFor]
  simp only [margin, List.length_cons] at h
  omega

theorem written_array (depth : Nat) (h : List.Forall₂ Written items (texts.map String.toList)) :
    Written (.array items) (block depth "[" "]" texts).toList := by
  cases texts with
  | nil =>
      cases h
      have hempty : (block depth "[" "]" []).toList = ['[', ']'] := by simp [block]
      rw [hempty]
      refine ⟨⟨_, _, rfl, rfl, by decide⟩, fun fuel rest hfuel _ => ?_⟩
      cases fuel with
      | zero => simp at hfuel
      | succ fuel => rfl
  | cons text texts =>
      cases h with
      | @cons item _ items _ hitem hitems =>
          obtain ⟨c, tail, htext, hc, hclosing⟩ := hitem.starts
          refine ⟨⟨'[', _, toList_block .., rfl, by decide⟩, fun fuel rest hfuel _ => ?_⟩
          cases fuel with
          | zero => simp [toList_block] at hfuel
          | succ fuel =>
              have hitems :=
                itemsFrom_block hitems depth hitem (stepsFor_block (by decide) hfuel) rest
              rw [toList_block, List.append_assoc, List.append_assoc, List.append_assoc]
              rw [htext, List.cons_append] at hitems ⊢
              refine (value_bracket isBlank_of_mem_margin hc hclosing fuel _).trans ?_
              rw [show "]".toList = [']'] from rfl, hitems]
              rfl

theorem written_record (depth : Nat)
    (h : List.Forall₂ WrittenMember members (texts.map String.toList)) :
    Written (.record members) (block depth "\x7b" "\x7d" texts).toList := by
  cases texts with
  | nil =>
      cases h
      have hempty : (block depth "\x7b" "\x7d" []).toList = ['\x7b', '\x7d'] := by simp [block]
      rw [hempty]
      refine ⟨⟨_, _, rfl, rfl, by decide⟩, fun fuel rest hfuel _ => ?_⟩
      cases fuel with
      | zero => simp at hfuel
      | succ fuel => rfl
  | cons text texts =>
      cases h with
      | @cons m _ members _ hm hmembers =>
          refine ⟨⟨'\x7b', _, toList_block .., rfl, by decide⟩, fun fuel rest hfuel _ => ?_⟩
          cases fuel with
          | zero => simp [toList_block] at hfuel
          | succ fuel =>
              have hmembers := membersFrom_block hmembers depth hm
                (stepsFor_block (by decide) hfuel) rest
              obtain ⟨tail, htext⟩ : ∃ tail, text.toList = '"' :: tail := by
                generalize text.toList = chars at hm
                obtain ⟨key, -⟩ := hm
                rw [toList_quote]
                exact ⟨_, rfl⟩
              rw [toList_block, List.append_assoc, List.append_assoc, List.append_assoc]
              rw [htext, List.cons_append] at hmembers ⊢
              refine (value_brace isBlank_of_mem_margin fuel _).trans ?_
              rw [show "\x7d".toList = ['\x7d'] from rfl, hmembers]
              rfl

end Blocks

/-- A value that can be written so that it is read again: every string has its content and
every number a literal of a number. -/
inductive Tidy : Json → Prop where
  | null : Tidy .null
  | bool (b : Bool) : Tidy (.bool b)
  | number {literal : String} : Reader.Spelled literal.toList → Tidy (.number literal)
  | string (s : String) : Tidy (.string (some s))
  | array {items : List Json} : (∀ v ∈ items, Tidy v) → Tidy (.array items)
  | record {members : List (String × Json)} : (∀ m ∈ members, Tidy m.2) → Tidy (.record members)

theorem prettyItems_eq (depth : Nat) (items : List Json) :
    prettyItems depth items = items.map (·.pretty depth) := by
  induction items with
  | nil => rfl
  | cons v items ih => rw [prettyItems, ih, List.map_cons]

theorem prettyMembers_record (depth : Nat) (members : List (String × Json)) :
    prettyMembers depth (members.map fun (k, v) => (some k, v)) =
      members.map fun m => quote m.1 ++ ": " ++ m.2.pretty depth := by
  induction members with
  | nil => rfl
  | cons m members ih =>
      rw [List.map_cons, prettyMembers, ih, List.map_cons]
      rfl

theorem Tidy.written {j : Json} (h : j.Tidy) (depth : Nat) :
    Reader.Written j (j.pretty depth).toList := by
  induction h generalizing depth with
  | null => exact Reader.written_null
  | bool b => exact Reader.written_bool b
  | number h => exact Reader.written_number h
  | string s => exact Reader.written_string s
  | @array items _ ih =>
      rw [pretty, prettyItems_eq]
      refine written_array depth ?_
      rw [List.map_map, List.forall₂_map_right_iff, List.forall₂_same]
      exact fun v hv => ih v hv (depth + 1)
  | @record members _ ih =>
      rw [Json.record, pretty, prettyMembers_record]
      refine written_record depth ?_
      rw [List.map_map, List.forall₂_map_right_iff, List.forall₂_same]
      intro m hm
      have hmember := Reader.WrittenMember.mk m.1 (ih m hm (depth + 1))
      simpa using hmember

/-- The text of a tidy value is read as the value. -/
theorem Tidy.read?_pretty {j : Json} (h : j.Tidy) (depth : Nat) :
    read? (j.pretty depth) = some j := by
  have hreads := (h.written depth).reads ((j.pretty depth).length + 1) [] (Nat.le_succ _)
    (fun c hc => nomatch hc)
  rw [List.append_nil] at hreads
  rw [read?, hreads]
  rfl

end Json

end Entailment
