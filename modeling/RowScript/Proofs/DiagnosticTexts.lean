import RowScript.Diagnostic
import Mathlib.Data.List.TakeWhile

/-!
# The text form of diagnostics is read back

A text *is located* if it has the form `Line <l1>..<l2> col <c1>..<c2>: <message>` with four
numerals and a message that is not empty. The reader turns out to accept exactly such texts.
-/

namespace RowScript.Diagnostic

open Text List Option

/-- A numeral: decimal digits of any script, behind a minus sign or not. -/
def IsNumeral (text : List Char) : Prop :=
  ∃ digits : List Char, digits ≠ [] ∧ (∀ c ∈ digits, isDecimalDigit c) ∧
    (text = digits ∨ text = '-' :: digits)

/-- The characters of a diagnostic with a range. -/
def located (startLine stopLine startColumn stopColumn message : List Char) : List Char :=
  "Line ".toList ++ (startLine ++ ("..".toList ++ (stopLine ++ (" col ".toList ++
    (startColumn ++ ("..".toList ++ (stopColumn ++ (": ".toList ++ message))))))))

/-- A text in the form of a diagnostic with a range. -/
def IsLocated (text : String) : Prop :=
  ∃ startLine stopLine startColumn stopColumn message : List Char,
    (IsNumeral startLine ∧ IsNumeral stopLine ∧ IsNumeral startColumn ∧ IsNumeral stopColumn) ∧
      message ≠ [] ∧ text.toList = located startLine stopLine startColumn stopColumn message

theorem readInt?_minus (text : List Char) :
    readInt? ('-' :: text) =
      if (text.takeWhile isDecimalDigit).isEmpty then none
      else some (-(decimalValue (text.takeWhile isDecimalDigit) : Int),
        text.drop (text.takeWhile isDecimalDigit).length) := rfl

variable {text numeral rest digits : List Char} {number : Int}

theorem readInt?_of_ne_minus (htext : ∀ rest, text ≠ '-' :: rest) :
    readInt? text =
      if (text.takeWhile isDecimalDigit).isEmpty then none
      else some ((decimalValue (text.takeWhile isDecimalDigit) : Int),
        text.drop (text.takeWhile isDecimalDigit).length) := by
  unfold readInt?
  split
  case h_1 rest heq =>
    split at heq
    case h_1 => exact absurd rfl (htext _)
    case h_2 => cases heq; rfl

/-- The reader takes the numeral for the number, whatever comes behind it that is no digit. -/
def Denotes (numeral : List Char) (number : Int) : Prop :=
  ∀ c rest, isDecimalDigit c = false → readInt? (numeral ++ c :: rest) = some (number, c :: rest)

theorem Denotes.before (hdenotes : Denotes numeral number) (beginning : String)
    (hother : beginning.toList.head?.any fun c => !isDecimalDigit c) :
    readInt? (numeral ++ (beginning.toList ++ rest)) = some (number, beginning.toList ++ rest) := by
  obtain ⟨c, hhead, hc⟩ := (Option.any_eq_true ..).mp hother
  obtain ⟨others, htext⟩ := head?_eq_some_iff.mp hhead
  rw [htext]
  exact hdenotes c _ (by simpa using hc)

theorem denotes_digits (hne : digits ≠ []) (hdigits : ∀ c ∈ digits, isDecimalDigit c) :
    Denotes digits (decimalValue digits) ∧ Denotes ('-' :: digits) (-decimalValue digits) := by
  have htaken {c : Char} {rest : List Char} (hc : isDecimalDigit c = false) :
      (digits ++ c :: rest).takeWhile isDecimalDigit = digits := by
    rw [takeWhile_append_of_pos hdigits, takeWhile_cons_of_neg (by simp [hc]),
      append_nil]
  constructor
  · intro c rest hc
    have hminus (others : List Char) : digits ++ c :: rest ≠ '-' :: others := by
      obtain ⟨first, behind, rfl⟩ := exists_cons_of_ne_nil hne
      intro heq
      obtain ⟨rfl, -⟩ := cons_eq_cons.mp heq
      exact absurd (hdigits '-' mem_cons_self) (by decide)
    rw [readInt?_of_ne_minus hminus, htaken hc]
    simp [hne]
  · intro c rest hc
    rw [cons_append, readInt?_minus, htaken hc]
    simp [hne]

theorem IsNumeral.denotes (hnumeral : IsNumeral numeral) : ∃ number, Denotes numeral number := by
  obtain ⟨digits, hne, hdigits, rfl | rfl⟩ := hnumeral
  · exact ⟨_, (denotes_digits hne hdigits).1⟩
  · exact ⟨_, (denotes_digits hne hdigits).2⟩

theorem exists_numeral_of_readInt? (hread : readInt? text = some (number, rest)) :
    ∃ numeral, IsNumeral numeral ∧ text = numeral ++ rest := by
  have hdigits (text : List Char) :
      (∀ c ∈ text.takeWhile isDecimalDigit, isDecimalDigit c) ∧
        text = text.takeWhile isDecimalDigit ++
          text.drop (text.takeWhile isDecimalDigit).length := by
    have htaken : text.takeWhile isDecimalDigit <+: text := takeWhile_prefix _
    exact ⟨fun c => mem_takeWhile_imp, (prefix_iff_eq_append.mp htaken).symm⟩
  by_cases hminus : ∃ others, text = '-' :: others
  · obtain ⟨others, rfl⟩ := hminus
    rw [readInt?_minus] at hread
    split at hread
    case isTrue => contradiction
    case isFalse hne =>
      cases hread
      obtain ⟨hall, heq⟩ := hdigits others
      exact ⟨'-' :: others.takeWhile isDecimalDigit, ⟨_, by simpa using hne, hall, .inr rfl⟩,
        congrArg _ heq⟩
  · rw [readInt?_of_ne_minus (not_exists.mp hminus)] at hread
    split at hread
    case isTrue => contradiction
    case isFalse hne =>
      cases hread
      obtain ⟨hall, heq⟩ := hdigits text
      exact ⟨text.takeWhile isDecimalDigit, ⟨_, by simpa using hne, hall, .inl rfl⟩, heq⟩

theorem digitValue?_of_isDigit {c : Char} (hc : c.isDigit) :
    digitValue? c = some (c.toNat - '0'.toNat) := by
  have hascii : c.toNat < 128 := by
    have hbounds := Char.isDigit_iff_toNat.mp hc
    exact lt_of_le_of_lt hbounds.2 (by decide)
  rw [digitValue?, if_pos hascii, if_pos hc]

theorem decimalValue_eq_ofDigitChars (hdigits : ∀ c ∈ digits, c.isDigit) :
    decimalValue digits = Nat.ofDigitChars 10 digits 0 := by
  suffices ∀ value, digits.foldl (fun value c => value * 10 + (digitValue? c).getD 0) value =
      Nat.ofDigitChars 10 digits value from this 0
  induction digits with
  | nil => exact fun _ => rfl
  | cons c rest ih =>
    intro value
    rw [forall_mem_cons] at hdigits
    rw [foldl_cons, digitValue?_of_isDigit hdigits.1, Nat.ofDigitChars_cons, ih hdigits.2,
      getD_some, Nat.mul_comm]

theorem denotes_toString (number : Int) : Denotes (toString number).toList number := by
  have hdenotes (value : Nat) : Denotes value.repr.toList value ∧
      Denotes ('-' :: value.repr.toList) (-value) := by
    have hdigit : ∀ c ∈ Nat.toDigits 10 value, c.isDigit := fun c =>
      Nat.isDigit_of_mem_toDigits (by decide) (by decide)
    have hvalue : decimalValue (Nat.toDigits 10 value) = value := by
      rw [decimalValue_eq_ofDigitChars hdigit, Nat.ofDigitChars_toDigits (by decide) (by decide)]
    have hread := denotes_digits Nat.toDigits_ne_nil fun c hc => by
      rw [isDecimalDigit, digitValue?_of_isDigit (hdigit c hc), isSome_some]
    rwa [hvalue, ← Nat.toList_repr] at hread
  cases number with
  | ofNat value => exact (hdenotes value).1
  | negSucc value =>
    have htext : (toString (Int.negSucc value)).toList = '-' :: (value + 1).repr.toList :=
      String.toList_append
    rw [htext]
    exact (hdenotes (value + 1)).2

theorem readFixed?_eq_some_iff {beginning : String} :
    readFixed? beginning text = some rest ↔ text = beginning.toList ++ rest := by
  rw [readFixed?, ite_none_right_eq_some, isPrefixOf_iff_prefix, ← String.length_toList]
  constructor
  · rintro ⟨⟨others, rfl⟩, hrest⟩
    rw [← some.inj hrest, drop_left]
  · rintro rfl
    exact ⟨⟨rest, rfl⟩, by rw [drop_left]⟩

theorem readFixed?_append (beginning : String) (rest : List Char) :
    readFixed? beginning (beginning.toList ++ rest) = some rest :=
  readFixed?_eq_some_iff.mpr rfl

section

variable {startLine stopLine startColumn stopColumn message : List Char} {loc : Loc}

variable (message loc) in
theorem readLocated?_located (hstartLine : Denotes startLine loc.start.line)
    (hstopLine : Denotes stopLine loc.stop.line)
    (hstartColumn : Denotes startColumn loc.start.column)
    (hstopColumn : Denotes stopColumn loc.stop.column) :
    readLocated? (located startLine stopLine startColumn stopColumn message) =
      if message.isEmpty then none else some (loc, message) := by
  unfold located
  simp only [readLocated?, readFixed?_append, bind_eq_bind, bind_some,
    hstartLine.before ".." (by decide), hstopLine.before " col " (by decide),
    hstartColumn.before ".." (by decide), hstopColumn.before ": " (by decide)]

theorem exists_located_of_readLocated? (hread : readLocated? text = some (loc, message)) :
    ∃ startLine stopLine startColumn stopColumn,
      (IsNumeral startLine ∧ IsNumeral stopLine ∧ IsNumeral startColumn ∧
        IsNumeral stopColumn) ∧ message ≠ [] ∧
        text = located startLine stopLine startColumn stopColumn message := by
  simp only [readLocated?, bind_eq_bind, bind_eq_some_iff, Prod.exists,
    readFixed?_eq_some_iff, ite_none_left_eq_some, some.injEq, Prod.mk.injEq] at hread
  obtain ⟨_, rfl, _, _, hstartLine, _, rfl, _, _, hstopLine, _, rfl, _, _, hstartColumn, _, rfl,
    _, _, hstopColumn, _, rfl, hmessage, -, rfl⟩ := hread
  obtain ⟨startLine, hnumeral₁, rfl⟩ := exists_numeral_of_readInt? hstartLine
  obtain ⟨stopLine, hnumeral₂, rfl⟩ := exists_numeral_of_readInt? hstopLine
  obtain ⟨startColumn, hnumeral₃, rfl⟩ := exists_numeral_of_readInt? hstartColumn
  obtain ⟨stopColumn, hnumeral₄, rfl⟩ := exists_numeral_of_readInt? hstopColumn
  exact ⟨startLine, stopLine, startColumn, stopColumn,
    ⟨hnumeral₁, hnumeral₂, hnumeral₃, hnumeral₄⟩, by simpa using hmessage, rfl⟩

end

/-- The reader finds a range in exactly the texts in the located form. -/
theorem isLocated_iff {text : String} : IsLocated text ↔ (readLocated? text.toList).isSome := by
  constructor
  · rintro ⟨startLine, stopLine, startColumn, stopColumn, message,
      ⟨hstartLine, hstopLine, hstartColumn, hstopColumn⟩, hmessage, htext⟩
    obtain ⟨line, hline⟩ := hstartLine.denotes
    obtain ⟨lastLine, hlastLine⟩ := hstopLine.denotes
    obtain ⟨column, hcolumn⟩ := hstartColumn.denotes
    obtain ⟨lastColumn, hlastColumn⟩ := hstopColumn.denotes
    have hread := readLocated?_located message ⟨⟨line, column⟩, ⟨lastLine, lastColumn⟩⟩
      hline hlastLine hcolumn hlastColumn
    rw [htext, hread, if_neg (by simpa using hmessage), isSome_some]
  · intro hsome
    obtain ⟨⟨loc, message⟩, hread⟩ := isSome_iff_exists.mp hsome
    obtain ⟨startLine, stopLine, startColumn, stopColumn, hnumerals, hmessage, htext⟩ :=
      exists_located_of_readLocated? hread
    exact ⟨startLine, stopLine, startColumn, stopColumn, message, hnumerals, hmessage, htext⟩

theorem toList_format (loc : Loc) (message : String) :
    (format (some loc) message).toList =
      located (toString loc.start.line).toList (toString loc.stop.line).toList
        (toString loc.start.column).toList (toString loc.stop.column).toList message.toList := by
  unfold format located
  simp only [toString, String.toList_append, append_assoc]

theorem parse_format_some {loc : Loc} {message : String} :
    parse (format (some loc) message) = (some loc, message) ↔ message ≠ "" := by
  have hread := readLocated?_located message.toList loc
    (denotes_toString loc.start.line) (denotes_toString loc.stop.line)
    (denotes_toString loc.start.column) (denotes_toString loc.stop.column)
  rw [parse, toList_format, hread]
  by_cases hmessage : message = ""
  · simp [hmessage]
  · simp [hmessage]

theorem parse_format_none {message : String} :
    parse (format none message) = (none, message) ↔ ¬IsLocated message := by
  unfold format
  rw [isLocated_iff, parse]
  cases hread : readLocated? message.toList with
  | none => simp
  | some found => simp

/-- The text form of a diagnostic is read back. With a range this is so for every message
but the empty one, without a range for every message that is not in the located form itself;
the kind is the reader's choice and plays no part. -/
theorem parse_format :
    (∀ (loc : Loc) (message : String),
      parse (format (some loc) message) = (some loc, message) ↔ message ≠ "") ∧
    (∀ message : String, parse (format none message) = (none, message) ↔ ¬IsLocated message) ∧
    ∀ (kind : Kind) (diagnostic : Diagnostic),
      ofText kind diagnostic.toText = ⟨kind, diagnostic.message, diagnostic.loc⟩ ↔
        if diagnostic.loc.isSome then diagnostic.message ≠ ""
        else ¬IsLocated diagnostic.message := by
  refine ⟨fun loc message => parse_format_some, fun message => parse_format_none, ?_⟩
  intro kind diagnostic
  obtain ⟨_, message, loc⟩ := diagnostic
  have hparts : ofText kind (format loc message) = ⟨kind, message, loc⟩ ↔
      parse (format loc message) = (loc, message) := by
    rw [ofText]
    grind
  rw [toText, hparts]
  cases loc with
  | none => exact parse_format_none
  | some loc => exact parse_format_some

end RowScript.Diagnostic
