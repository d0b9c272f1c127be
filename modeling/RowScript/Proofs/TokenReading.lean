import Mathlib.Data.List.Find
import RowScript.Proofs.PlainExpressions

/-!
# Reading single tokens

What the parsers of names, numbers, keywords and signs do with the text of some tokens depends on
the first token only: behind it stands a space, and no token has one inside.
-/

namespace RowScript

open Text List Option

section

open Parser

variable {α : Type} {token : Token} {tokens rest : List Token} {spelling : String}
  {word : PlainName} {spellings : List (String × α)}

theorem reads_oneOf {value : α} (hblank : ∀ found ∈ spellings, ' ' ∉ found.1.toList)
    (hfind : spellings.find? (fun found => found.1.toList.isPrefixOf token.chars) = some (spelling,
      value)) (hchars : spelling.toList = token.chars) :
    (oneOf spellings).Reads (spaced (token :: rest)) (spaced rest) fun found => found = value := by
  apply Reads.token (n := spelling.length)
  · have hsame : spellings.find? (fun found =>
        found.1.toList.isPrefixOf (token.chars ++ spaced rest)) = some (spelling, value) := by
      rw [← hfind]
      exact find?_congr fun found hfound => isPrefixOf_spaced (hblank found hfound) _ _
    rw [skipped_spaced]
    exact congrArg (Option.map _) hsame
  · rw [skipped_spaced, ← hchars, ← String.length_toList, drop_left]

theorem refuses_oneOf (hblank : ∀ found ∈ spellings, ' ' ∉ found.1.toList ∧ found.1.toList ≠ [])
    (hhead : ∀ token, tokens.head? = some token → ∀ found ∈ spellings,
      found.1.toList.isPrefixOf token.chars = false) :
    (oneOf spellings).Refuses (spaced tokens) := by
  apply Refuses.token
  have hnone : spellings.find? (fun found =>
      found.1.toList.isPrefixOf (skipped (spaced tokens))) = none := by
    rw [find?_eq_none]
    intro found hfound
    obtain ⟨hspace, hne⟩ := hblank found hfound
    cases tokens with
    | nil => simp [hne]
    | cons token tokens =>
      rw [skipped_spaced, isPrefixOf_spaced hspace, hhead token rfl found hfound]
      exact Bool.false_ne_true
  exact congrArg (Option.map _) hnone

theorem reads_mark {sign : Punctuation} (hchars : spelling.toList = sign.chars) :
    (symbol spelling).Reads (spaced (.mark sign :: rest)) (spaced rest) fun _ => True :=
  Reads.symbol (by rw [skipped_spaced, Token.chars, hchars])

theorem refuses_symbol (hblank : ' ' ∉ spelling.toList ∧ spelling.toList ≠ [])
    (hhead : ∀ token, tokens.head? = some token → spelling.toList.isPrefixOf token.chars = false) :
    (symbol spelling).Refuses (spaced tokens) :=
  refuses_oneOf (by simpa using hblank) (by simpa using hhead)

/-- Behind another word that a name starts with, the name goes on. -/
theorem exists_plain_of_prefix (hlead : spelling.toList <+: word.text.toList)
    (hne : spelling ≠ word.text) (rest : List Char) :
    ∃ c more, (c.isAlphanum ∨ c = '_') ∧
      (word.text.toList ++ rest).drop spelling.length = c :: more := by
  obtain ⟨more, hmore⟩ := hlead
  cases more with
  | nil =>
    rw [append_nil] at hmore
    exact absurd (String.toList_inj.mp hmore) hne
  | cons c more =>
    refine ⟨c, more ++ rest, word.chars c (by simp [← hmore]), ?_⟩
    rw [← hmore, append_assoc, ← String.length_toList, drop_left]
    rfl

theorem refuses_keyword (hblank : ' ' ∉ spelling.toList) (hne : spelling ≠ word.text) :
    (keyword spelling).Refuses (spaced (.name word :: rest)) := by
  intro cursor hcursor
  rw [skipped_spaced] at hcursor
  rw [keyword, keywordHere, Cursor.ahead_skipBlanks, hcursor, isPrefixOf_spaced hblank]
  split
  case isTrue hlead =>
    obtain ⟨c, more, hc, hdrop⟩ := exists_plain_of_prefix
      ( isPrefixOf_iff_prefix.mp hlead) hne (spaced rest)
    have hahead : (cursor.skipBlanks.drop spelling.length).ahead = c :: more := by
      rw [Cursor.ahead_drop, Cursor.ahead_skipBlanks, hcursor]
      exact hdrop
    dsimp only
    split
    · exact ⟨_, rfl⟩
    · rw [hahead]
      simp [isKeywordChar_of_plain hc]
  case isFalse => exact ⟨_, rfl⟩

theorem refuses_keyword_of_head (hblank : ' ' ∉ spelling.toList ∧ spelling.toList ≠ [])
    (hhead : ∀ token, tokens.head? = some token → spelling.toList.isPrefixOf token.chars = false) :
    (keyword spelling).Refuses (spaced tokens) := by
  intro cursor hcursor
  have hlead : spelling.toList.isPrefixOf cursor.skipBlanks.ahead = false := by
    rw [Cursor.ahead_skipBlanks, hcursor]
    cases tokens with
    | nil =>
      obtain ⟨c, more, hspelling⟩ := exists_cons_of_ne_nil hblank.2
      rw [hspelling]
      rfl
    | cons token tokens => rw [skipped_spaced, isPrefixOf_spaced hblank.1, hhead token rfl]
  refine ⟨cursor.skipBlanks.offset, ?_⟩
  rw [keyword, keywordHere, hlead]
  rfl

theorem refuses_quoted
    (hhead : ∀ token, tokens.head? = some token →
      token.chars.head? ≠ some '"' ∧ token.chars.head? ≠ some '\'') :
    quoted.Refuses (spaced tokens) := by
  intro cursor hcursor
  have hahead : cursor.skipBlanks.ahead.head? ≠ some '"' ∧
      cursor.skipBlanks.ahead.head? ≠ some '\'' := by
    rw [Cursor.ahead_skipBlanks, hcursor]
    cases tokens with
    | nil => simp
    | cons token tokens =>
      rw [skipped_spaced, head?_append_of_ne_nil _ token.chars_ne_nil]
      exact hhead token rfl
  exact ⟨_, quotedHere_eq_failed hahead.1 hahead.2⟩

end

namespace ScriptGrammar

open Parser

variable {word : PlainName} {digits : Numeral} {rest : List Token} {after : List Char}

theorem takeWhile_append {p : Char → Bool} {chars : List Char} (hchars : ∀ c ∈ chars, p c)
    (hafter : ∀ c, after.head? = some c → p c = false) : (chars ++ after).takeWhile p = chars := by
  rw [takeWhile_append_of_pos hchars]
  cases after with
  | nil => simp
  | cons c after => simp [hafter c rfl]

theorem eq_space_of_head?_spaced {c : Char} (hc : (spaced rest).head? = some c) : c = ' ' := by
  cases rest with
  | nil => cases hc
  | cons token rest => exact (some.inj hc).symm

theorem reads_name :
    name.Reads (spaced (.name word :: rest)) (spaced rest) fun found => found = word.text := by
  obtain ⟨c, more, hword, hdigit⟩ := word.start
  have hplain := word.chars
  rw [hword, forall_mem_cons] at hplain
  have hstart : isNameStart c := by
    simp only [isNameStart, Bool.or_eq_true, decide_eq_true_eq]
    obtain halpha | hunderscore := hplain.1
    · rw [Char.isAlphanum, hdigit, Bool.or_false] at halpha
      exact .inl (.inl halpha)
    · exact .inl (.inr hunderscore)
  have hmore : ∀ d ∈ more, isNameChar d := fun d hd => by
    rw [isNameChar, isWordChar_of_plain (hplain.2 d hd)]
    rfl
  have htail : (more ++ spaced rest).takeWhile isNameChar = more :=
    takeWhile_append hmore fun c hc => by
      rw [eq_space_of_head?_spaced hc]
      decide
  rw [name, wordOf]
  apply Reads.token (n := more.length + 1)
  · rw [skipped_spaced, Token.chars, hword]
    simp only [cons_append, hstart, if_true, htail]
    rw [← hword, String.ofList_toList]
  · rw [skipped_spaced, Token.chars, hword]
    simp

theorem refuses_name
    (hhead : ∀ token, rest.head? = some token → ∀ c, token.chars.head? = some c →
      isNameStart c = false) : name.Refuses (spaced rest) := by
  rw [name, wordOf]
  apply Refuses.token
  cases rest with
  | nil => rfl
  | cons token rest =>
    obtain ⟨c, more, hchars⟩ := exists_cons_of_ne_nil token.chars_ne_nil
    have hstart := hhead token rfl c (by rw [hchars]; rfl)
    rw [skipped_spaced, hchars]
    simp [hstart]

theorem reads_noKeyword :
    (noKeyword keywords).Reads (spaced (.name word :: rest)) (spaced (.name word :: rest))
      fun _ => True := by
  intro cursor hcursor
  refine ⟨(), cursor, ?_, hcursor, trivial⟩
  rw [noKeyword, if_neg]
  rw [Bool.not_eq_true, List.any_eq_false]
  intro spelling hspelling
  have hblank : ∀ spelling ∈ keywords, ' ' ∉ spelling.toList := by decide
  obtain ⟨offset, hfailed⟩ : ∃ offset, keyword spelling cursor = .failed offset :=
    refuses_keyword (hblank _ hspelling) (fun hequal => word.notKeyword (hequal ▸ hspelling))
      cursor hcursor
  rw [hfailed]
  exact Bool.false_ne_true

theorem reads_identifier :
    identifier.Reads (spaced (.name word :: rest)) (spaced rest) fun id => id.name = word.text :=
  Reads.located_bind (reads_noKeyword.bind fun _ _ => reads_name) fun _ _ hname => .pure hname

theorem reads_memberName :
    memberName.Reads (spaced (.name word :: rest)) (spaced rest) fun id => id.name = word.text :=
  Reads.located_bind reads_name fun _ _ hname => .pure hname

theorem mantissaLength_append
    (hafter : ∀ c, after.head? = some c → isDecimalDigit c = false ∧ c ≠ '.') :
    mantissaLength (digits.mantissaChars ++ after) = digits.mantissaChars.length := by
  have hdigits : ∀ c, after.head? = some c → isDecimalDigit c = false := fun c hc => (hafter c hc).1
  unfold mantissaLength
  cases hfraction : digits.fraction with
  | none =>
    have hchars : digits.mantissaChars = digits.whole := by rw [Numeral.mantissaChars, hfraction]
    rw [hchars, takeWhile_append digits.whole_digits hdigits]
    split
    case h_1 hzero =>
      obtain hne | ⟨_, hsome, -⟩ := digits.mantissa
      · exact absurd (eq_nil_of_length_eq_zero hzero) hne
      · rw [hfraction] at hsome
        cases hsome
    case h_2 =>
      rw [drop_left]
      split
      case h_1 rest => exact absurd rfl (hafter '.' rfl).2
      case h_2 => rfl
  | some more =>
    have hchars : digits.mantissaChars = digits.whole ++ '.' :: more := by
      rw [Numeral.mantissaChars, hfraction]
    have hmore := takeWhile_append (digits.fraction_digits more hfraction) hdigits
    have hpoint : ∀ c, ('.' :: (more ++ after)).head? = some c → isDecimalDigit c = false :=
      fun c hc => by
        obtain rfl := some.inj hc
        decide
    rw [hchars, append_assoc, cons_append,
      takeWhile_append digits.whole_digits hpoint]
    split
    case h_1 hzero =>
      have hwhole := eq_nil_of_length_eq_zero hzero
      rw [hwhole, nil_append, nil_append]
      split
      case h_2 hne => exact absurd rfl (hne _)
      case h_1 rest hrest =>
        obtain rfl := tail_eq_of_cons_eq hrest
        rw [hmore]
        split
        case h_1 hnone =>
          obtain hne | ⟨_, hsome, hne⟩ := digits.mantissa
          · exact absurd hwhole hne
          · rw [hfraction] at hsome
            obtain rfl := some.inj hsome
            exact absurd (eq_nil_of_length_eq_zero hnone) hne
        case h_2 => rfl
    case h_2 =>
      rw [drop_left]
      show digits.whole.length + 1 + ((more ++ after).takeWhile isDecimalDigit).length = _
      rw [hmore, length_append, length_cons]
      omega

theorem exponentLength_append (hafter : ∀ c, after.head? = some c → c = ' ') :
    exponentLength (digits.exponentChars ++ after) = digits.exponentChars.length := by
  cases hexponent : digits.exponent with
  | none =>
    have hchars : digits.exponentChars = [] := by rw [Numeral.exponentChars, hexponent]
    rw [hchars, nil_append]
    cases after with
    | nil => rfl
    | cons c after =>
      obtain rfl := hafter c rfl
      rfl
  | some parts =>
    obtain ⟨mark, sign, more⟩ := parts
    have hchars : digits.exponentChars = mark :: (sign ++ more) := by
      rw [Numeral.exponentChars, hexponent]
    obtain ⟨hmark, hsign, hne, hmore⟩ := digits.exponent_form mark sign more hexponent
    have htake : (more ++ after).takeWhile isDecimalDigit = more :=
      takeWhile_append hmore fun c hc => by
        rw [hafter c hc]
        decide
    have hmarkTest : (mark = 'e' || mark = 'E') = true := by simpa using hmark
    have hsignLength : (if (sign ++ more ++ after).head?.any (fun c => c = '+' || c = '-')
        then 1 else 0) = sign.length := by
      obtain rfl | rfl | rfl := hsign
      · obtain ⟨c, rest, rfl⟩ := exists_cons_of_ne_nil hne
        have hdigit := hmore c mem_cons_self
        have hplus : c ≠ '+' := fun hequal => absurd (hequal ▸ hdigit) (by decide)
        have hminus : c ≠ '-' := fun hequal => absurd (hequal ▸ hdigit) (by decide)
        simp [hplus, hminus]
      · rfl
      · rfl
    rw [hchars, cons_append]
    unfold exponentLength
    dsimp only
    rw [if_pos hmarkTest]
    rw [hsignLength, append_assoc, drop_left, htake]
    split
    case h_1 hzero => exact absurd (eq_nil_of_length_eq_zero hzero) hne
    case h_2 =>
      rw [length_cons, length_append]
      omega

theorem reads_number :
    number.Reads (spaced (.numeral digits :: rest)) (spaced rest) fun lit =>
      lit.value = .number ∧ lit.raw.toList = digits.chars := by
  have hexponent : ∀ c, (digits.exponentChars ++ spaced rest).head? = some c →
      isDecimalDigit c = false ∧ c ≠ '.' := by
    intro c hc
    cases hexponent : digits.exponent with
    | none =>
      rw [Numeral.exponentChars, hexponent] at hc
      rw [eq_space_of_head?_spaced hc]
      decide
    | some parts =>
      obtain ⟨mark, sign, more⟩ := parts
      obtain ⟨hmark, -⟩ := digits.exponent_form mark sign more hexponent
      rw [Numeral.exponentChars, hexponent] at hc
      obtain rfl := some.inj hc
      obtain rfl | rfl := hmark <;> decide
  have hmantissa : mantissaLength (digits.mantissaChars ++ (digits.exponentChars ++ spaced rest)) =
      digits.mantissaChars.length := mantissaLength_append hexponent
  have hlength : exponentLength (digits.exponentChars ++ spaced rest) =
      digits.exponentChars.length :=
    exponentLength_append fun c hc => eq_space_of_head?_spaced hc
  refine Reads.located_bind (P := fun raw => raw = String.ofList digits.chars)
    (Reads.token (n := digits.chars.length) ?_ ?_) fun _ _ hraw => .pure ⟨rfl, ?_⟩
  · rw [skipped_spaced, Token.chars, Numeral.chars, append_assoc, hmantissa]
    split
    case h_1 hzero => exact absurd (eq_nil_of_length_eq_zero hzero) digits.mantissaChars_ne_nil
    case h_2 =>
      rw [drop_left]
      dsimp only
      rw [hlength, ← length_append, ← append_assoc, take_left]
  · rw [skipped_spaced, Token.chars, drop_left]
  · rw [hraw, String.toList_ofList]

theorem refuses_number
    (hhead : ∀ token, rest.head? = some token → ∀ c, token.chars.head? = some c →
      isDecimalDigit c = false ∧ c ≠ '.') : number.Refuses (spaced rest) := by
  refine Refuses.bind (Refuses.located (Refuses.token ?_))
  have hzero : mantissaLength (skipped (spaced rest)) = 0 := by
    cases rest with
    | nil => rfl
    | cons token rest =>
      obtain ⟨c, more, hchars⟩ := exists_cons_of_ne_nil token.chars_ne_nil
      obtain ⟨hdigit, hpoint⟩ := hhead token rfl c (by rw [hchars]; rfl)
      rw [skipped_spaced, hchars, cons_append]
      simp [mantissaLength, hdigit, hpoint]
  rw [hzero]
  rfl

theorem refuses_identifier {before : List Char} (hname : name.Refuses before) :
    identifier.Refuses before := by
  refine Refuses.bind (Refuses.located ?_)
  intro cursor hcursor
  obtain ⟨offset, hfailed⟩ := hname cursor hcursor
  by_cases hkeyword : (noKeyword keywords cursor) = .done () cursor
  · refine ⟨offset, ?_⟩
    show Parser.bind (noKeyword keywords) (fun _ => name) cursor = _
    rw [Parser.bind, hkeyword]
    exact hfailed
  · refine ⟨cursor.offset, ?_⟩
    show Parser.bind (noKeyword keywords) (fun _ => name) cursor = _
    rw [Parser.bind, noKeyword]
    rw [noKeyword] at hkeyword
    split at hkeyword
    · rw [if_pos ‹_›]
    · exact absurd rfl hkeyword

end ScriptGrammar

/-- Characters that an expression may start with. -/
def isLeadChar (c : Char) : Bool :=
  c.isAlphanum || c = '_' || isDecimalDigit c || c = '.' || c = '('

namespace Token

/-- Tokens that an expression may start with. -/
def leads : Token → Bool
  | .name _ | .numeral _ | .mark .opening => true
  | _ => false

variable {token : Token}

theorem exists_lead_char (hleads : token.leads) :
    ∃ c rest, token.chars = c :: rest ∧ isLeadChar c := by
  cases token with
  | name word =>
    obtain ⟨c, rest, hword, -⟩ := word.start
    have hc := word.chars c (hword ▸ mem_cons_self)
    exact ⟨c, rest, hword, by simp [isLeadChar, hc]⟩
  | numeral digits =>
    obtain ⟨c, rest, hchars, hdigit⟩ | ⟨c, rest, hchars, -⟩ := digits.chars_cases
    · exact ⟨c, rest, hchars, by simp [isLeadChar, hdigit]⟩
    · exact ⟨'.', c :: rest, hchars, rfl⟩
  | operator sign => cases hleads
  | mark sign =>
    cases sign with
    | opening => exact ⟨'(', [], rfl, rfl⟩
    | _ => cases hleads

/-- No token of an expression's start begins like the spelling. -/
theorem isPrefixOf_of_leads {spelling : List Char} {c : Char}
    (hspelling : spelling.head? = some c) (hc : isLeadChar c = false) (hleads : token.leads) :
    spelling.isPrefixOf token.chars = false := by
  obtain ⟨d, rest, hchars, hd⟩ := exists_lead_char hleads
  cases spelling with
  | nil => cases hspelling
  | cons x spelling =>
    obtain rfl := some.inj hspelling
    have hne : x ≠ d := by
      rintro rfl
      rw [hc] at hd
      cases hd
    simp [hchars, isPrefixOf, hne]

end Token

end RowScript
