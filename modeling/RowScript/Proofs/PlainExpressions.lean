import RowScript.Proofs.Comments
import RowScript.Script.Grammar

/-!
# Expressions written with few parentheses

Expressions as trees without ranges, written as tokens with single spaces between them and
parentheses only around a part that binds less tightly than its place asks for.
-/

namespace RowScript

open Text List

/-- A name that is a name wherever it stands: ASCII letters, digits and underscores, and not
the start of anything else. -/
structure PlainName where
  text : String
  chars : ∀ c ∈ text.toList, c.isAlphanum ∨ c = '_'
  start : ∃ c rest, text.toList = c :: rest ∧ c.isDigit = false
  notKeyword : text ∉ ScriptGrammar.keywords
  notTypeof : ¬"typeof".toList <+: text.toList

/-- A decimal number: digits, perhaps with a point, and perhaps an exponent. -/
structure Numeral where
  whole : List Char
  fraction : Option (List Char)
  exponent : Option (Char × List Char × List Char)
  whole_digits : ∀ c ∈ whole, isDecimalDigit c
  fraction_digits : ∀ digits, fraction = some digits → ∀ c ∈ digits, isDecimalDigit c
  mantissa : whole ≠ [] ∨ ∃ digits, fraction = some digits ∧ digits ≠ []
  exponent_form : ∀ mark sign digits, exponent = some (mark, sign, digits) →
    (mark = 'e' ∨ mark = 'E') ∧ (sign = [] ∨ sign = ['+'] ∨ sign = ['-']) ∧ digits ≠ [] ∧
      ∀ c ∈ digits, isDecimalDigit c

namespace Numeral

def mantissaChars (numeral : Numeral) : List Char :=
  match numeral.fraction with
  | none => numeral.whole
  | some digits => numeral.whole ++ '.' :: digits

def exponentChars (numeral : Numeral) : List Char :=
  match numeral.exponent with
  | none => []
  | some (mark, sign, digits) => mark :: (sign ++ digits)

def chars (numeral : Numeral) : List Char := numeral.mantissaChars ++ numeral.exponentChars

end Numeral

/-- Expressions without ranges. -/
inductive PlainExpr where
  | name (name : PlainName)
  | number (numeral : Numeral)
  | binary (operator : BinaryOperator) (left right : PlainExpr)
  | conditional (test consequent alternate : PlainExpr)
  | arrow (params : List PlainName) (body : PlainExpr)
  | member (object : PlainExpr) (property : PlainName)
  | call (callee : PlainExpr) (arguments : List PlainExpr)

namespace PlainExpr

mutual

/-- The expression is the tree when ranges are left aside. -/
def Matches : PlainExpr → Expr → Prop
  | .name word, .identifier id => id.name = word.text
  | .number numeral, .literal lit => lit.value = .number ∧ lit.raw.toList = numeral.chars
  | .binary operator left right, .binary _ operator' left' right' =>
    operator' = operator ∧ Matches left left' ∧ Matches right right'
  | .conditional test consequent alternate, .conditional _ test' consequent' alternate' =>
    Matches test test' ∧ Matches consequent consequent' ∧ Matches alternate alternate'
  | .arrow params body, .arrow _ params' (.expression body') =>
    params'.map (·.name) = params.map (·.text) ∧ Matches body body'
  | .member object property, .member _ object' property' =>
    Matches object object' ∧ property'.name = property.text
  | .call callee arguments, .call _ callee' arguments' =>
    Matches callee callee' ∧ MatchesEach arguments arguments'
  | _, _ => False

def MatchesEach : List PlainExpr → List Expr → Prop
  | [], [] => True
  | tree :: trees, expression :: expressions =>
    Matches tree expression ∧ MatchesEach trees expressions
  | _, _ => False

end

theorem matchesEach_iff {trees : List PlainExpr} {expressions : List Expr} :
    MatchesEach trees expressions ↔ Forall₂ Matches trees expressions := by
  induction trees generalizing expressions with
  | nil => cases expressions <;> simp [MatchesEach]
  | cons tree trees ih => cases expressions <;> simp [MatchesEach, ih]

end PlainExpr

/-- How tightly an operator binds; the levels are counted from the loosest. -/
def BinaryOperator.level : BinaryOperator → Nat
  | .or | .coalesce => 1
  | .and => 2
  | .identical | .notIdentical | .equal | .notEqual => 3
  | .lessOrEqual | .greaterOrEqual | .less | .greater => 4
  | .add | .subtract => 5
  | .multiply | .divide | .remainder => 6

inductive Punctuation where
  | opening | closing | comma | dot | arrow | question | colon
deriving DecidableEq

def Punctuation.chars : Punctuation → List Char
  | .opening => ['(']
  | .closing => [')']
  | .comma => [',']
  | .dot => ['.']
  | .arrow => ['=', '>']
  | .question => ['?']
  | .colon => [':']

inductive Token where
  | name (name : PlainName)
  | numeral (numeral : Numeral)
  | operator (operator : BinaryOperator)
  | mark (mark : Punctuation)

namespace Token

def chars : Token → List Char
  | .name word => word.text.toList
  | .numeral digits => digits.chars
  | .operator sign => sign.toText.toList
  | .mark sign => sign.chars

/-- What stands in parentheses. -/
def parenthesized (tokens : List Token) : List Token :=
  .mark .opening :: (tokens ++ [.mark .closing])

/-- Items with commas between them. -/
def separated : List (List Token) → List Token
  | [] => []
  | first :: others => first ++ others.flatMap (.mark .comma :: ·)

end Token

namespace PlainExpr

/-- How tightly an expression holds together. Only a name, a member and a call can be
followed by a member name or arguments. -/
def level : PlainExpr → Nat
  | .arrow .. | .conditional .. => 0
  | .binary operator .. => operator.level
  | .number _ => 7
  | .name _ | .member .. | .call .. => 8

/-- Parameters in parentheses; a single one may do without. -/
def paramTokens (bare : Bool) : List PlainName → List Token
  | [param] => if bare then [.name param] else Token.parenthesized [.name param]
  | params => Token.parenthesized (Token.separated (params.map fun param => [.name param]))

/-- The tokens at a place for expressions of at least the given level. -/
def placed (place level : Nat) (tokens : List Token) : List Token :=
  if level < place then Token.parenthesized tokens else tokens

mutual

/-- The tokens of a written expression. -/
def tokens (bare : Bool) : PlainExpr → List Token
  | .name word => [.name word]
  | .number numeral => [.numeral numeral]
  | .binary operator left right =>
    placed operator.level left.level (left.tokens bare) ++ .operator operator ::
      placed (operator.level + 1) right.level (right.tokens bare)
  | .conditional test consequent alternate =>
    placed 1 test.level (test.tokens bare) ++ .mark .question ::
      (consequent.tokens bare ++ .mark .colon :: alternate.tokens bare)
  | .arrow params body => paramTokens bare params ++ .mark .arrow :: body.tokens bare
  | .member object property =>
    placed 8 object.level (object.tokens bare) ++ [.mark .dot, .name property]
  | .call callee arguments =>
    placed 8 callee.level (callee.tokens bare) ++
      Token.parenthesized (Token.separated (tokensEach bare arguments))

def tokensEach (bare : Bool) : List PlainExpr → List (List Token)
  | [] => []
  | tree :: trees => tree.tokens bare :: tokensEach bare trees

end

/-- Parentheses show where operations are not done from left to right, and only there. -/
example (a b c : PlainName) :
    (binary .subtract (.name a) (.binary .subtract (.name b) (.name c))).tokens true =
        [.name a, .operator .subtract, .mark .opening, .name b, .operator .subtract, .name c,
          .mark .closing] ∧
      (binary .subtract (.binary .subtract (.name a) (.name b)) (.name c)).tokens true =
        [.name a, .operator .subtract, .name b, .operator .subtract, .name c] :=
  ⟨rfl, rfl⟩

/-- The expression as it is written, with single spaces between its tokens. -/
def written (bare : Bool) (tree : PlainExpr) : List Char :=
  [' '].intercalate ((tree.tokens bare).map Token.chars)

end PlainExpr

section

variable {c : Char}

theorem not_isBlank_of_plain (hc : c.isAlphanum ∨ c = '_') : isBlank c = false := by
  cases hblank : isBlank c with
  | false => rfl
  | true =>
    simp only [isBlank, Bool.or_eq_true, decide_eq_true_eq] at hblank
    obtain ((rfl | rfl) | rfl) | rfl := hblank <;> simp at hc

theorem not_isBlank_of_isDecimalDigit (hc : isDecimalDigit c) : isBlank c = false := by
  cases hblank : isBlank c with
  | false => rfl
  | true =>
    simp only [isBlank, Bool.or_eq_true, decide_eq_true_eq] at hblank
    obtain ((rfl | rfl) | rfl) | rfl := hblank <;> exact absurd hc (by decide)

theorem toNat_lt_of_plain (hc : c.isAlphanum ∨ c = '_') : c.toNat < 128 := by
  obtain hc | rfl := hc
  · delta Char.isAlphanum Char.isAlpha Char.isUpper Char.isLower Char.isDigit at hc
    simp only [Bool.or_eq_true, Bool.and_eq_true, decide_eq_true_eq,
      UInt32.le_iff_toNat_le] at hc
    have hvalue : c.toNat = c.val.toNat := rfl
    simp only [Char.reduceVal, UInt32.reduceToNat] at hc
    omega
  · decide

theorem isWordChar_of_plain (hc : c.isAlphanum ∨ c = '_') : isWordChar c := by
  rw [isWordChar, if_pos (toNat_lt_of_plain hc)]
  simpa using hc

theorem isKeywordChar_of_plain (hc : c.isAlphanum ∨ c = '_') : isKeywordChar c := by
  simp only [isKeywordChar, Bool.or_eq_true, decide_eq_true_eq]
  exact .inl hc

end

namespace Numeral

theorem mantissaChars_ne_nil (numeral : Numeral) : numeral.mantissaChars ≠ [] := by
  rw [mantissaChars]
  cases hfraction : numeral.fraction with
  | some digits => exact append_ne_nil_of_right_ne_nil _ (cons_ne_nil _ _)
  | none =>
    obtain hne | ⟨_, hsome, -⟩ := numeral.mantissa
    · exact hne
    · rw [hfraction] at hsome
      cases hsome

theorem chars_cases (numeral : Numeral) :
    (∃ c rest, numeral.chars = c :: rest ∧ isDecimalDigit c) ∨
      ∃ c rest, numeral.chars = '.' :: c :: rest ∧ isDecimalDigit c := by
  rw [chars, mantissaChars]
  cases hwhole : numeral.whole with
  | cons c rest =>
    have hdigit := numeral.whole_digits c (hwhole ▸ mem_cons_self)
    cases numeral.fraction with
    | none | some digits => exact .inl ⟨c, _, rfl, hdigit⟩
  | nil =>
    obtain hne | ⟨digits, hfraction, hne⟩ := numeral.mantissa
    · exact absurd hwhole hne
    · obtain ⟨c, rest, rfl⟩ := exists_cons_of_ne_nil hne
      rw [hfraction]
      exact .inr ⟨c, _, rfl, numeral.fraction_digits _ hfraction c mem_cons_self⟩

theorem mem_chars {numeral : Numeral} {c : Char} (hc : c ∈ numeral.chars) :
    isDecimalDigit c ∨ c = '.' ∨ c = 'e' ∨ c = 'E' ∨ c = '+' ∨ c = '-' := by
  rw [chars, mantissaChars, exponentChars, mem_append] at hc
  obtain hc | hc := hc
  · cases hfraction : numeral.fraction with
    | none =>
      rw [hfraction] at hc
      exact .inl (numeral.whole_digits c hc)
    | some digits =>
      rw [hfraction, mem_append, mem_cons] at hc
      obtain hc | rfl | hc := hc
      · exact .inl (numeral.whole_digits c hc)
      · exact .inr (.inl rfl)
      · exact .inl (numeral.fraction_digits digits hfraction c hc)
  · cases hexponent : numeral.exponent with
    | none =>
      rw [hexponent] at hc
      cases hc
    | some parts =>
      obtain ⟨mark, sign, digits⟩ := parts
      obtain ⟨hmark, hsign, -, hdigits⟩ := numeral.exponent_form mark sign digits hexponent
      rw [hexponent, mem_cons, mem_append] at hc
      obtain rfl | hc | hc := hc
      · exact .inr (.inr (hmark.elim .inl fun hmark => .inr (.inl hmark)))
      · obtain rfl | rfl | rfl := hsign
        · cases hc
        · simp_all
        · simp_all
      · exact .inl (hdigits c hc)

end Numeral

namespace Token

theorem chars_ne_nil (token : Token) : token.chars ≠ [] := by
  cases token with
  | name word =>
    obtain ⟨c, rest, hword, -⟩ := word.start
    rw [chars, hword]
    exact cons_ne_nil _ _
  | numeral digits =>
    obtain ⟨c, rest, hchars, -⟩ | ⟨c, rest, hchars, -⟩ := digits.chars_cases
    all_goals
      rw [chars, hchars]
      exact cons_ne_nil _ _
  | operator sign | mark sign => cases sign <;> decide

theorem not_isBlank_of_mem_chars {token : Token} {c : Char} (hc : c ∈ token.chars) :
    isBlank c = false := by
  cases token with
  | name word => exact not_isBlank_of_plain (word.chars c hc)
  | numeral digits =>
    obtain hdigit | hc := digits.mem_chars hc
    · exact not_isBlank_of_isDecimalDigit hdigit
    · obtain rfl | rfl | rfl | rfl | rfl := hc <;> rfl
  | operator sign =>
    have hall : sign.toText.toList.all (!isBlank ·) := by cases sign <;> decide
    simpa using all_eq_true.mp hall c hc
  | mark sign =>
    have hall : sign.chars.all (!isBlank ·) := by cases sign <;> decide
    simpa using all_eq_true.mp hall c hc

end Token

/-- The text of tokens, with a space before each. -/
def spaced (tokens : List Token) : List Char := tokens.flatMap fun token => ' ' :: token.chars

@[simp]
theorem spaced_nil : spaced [] = [] := rfl

@[simp]
theorem spaced_cons (token : Token) (tokens : List Token) :
    spaced (token :: tokens) = ' ' :: (token.chars ++ spaced tokens) := rfl

@[simp]
theorem spaced_append (first second : List Token) :
    spaced (first ++ second) = spaced first ++ spaced second := flatMap_append

theorem spaced_flatMap {ι : Type} (items : List ι) (tokens : ι → List Token) :
    spaced (items.flatMap tokens) = items.flatMap fun item => spaced (tokens item) :=
  flatMap_assoc

theorem skipped_spaced (token : Token) (tokens : List Token) :
    skipped (spaced (token :: tokens)) = token.chars ++ spaced tokens := by
  rw [spaced_cons, skipped_cons_of_isBlank rfl]
  obtain ⟨c, rest, hchars⟩ := exists_cons_of_ne_nil token.chars_ne_nil
  have hblank : isBlank c = false :=
    Token.not_isBlank_of_mem_chars (hchars ▸ mem_cons_self)
  rw [hchars]
  exact skipped_cons_of_not_isBlank hblank

theorem length_le_width_spaced (tokens : List Token) : tokens.length ≤ width (spaced tokens) := by
  induction tokens with
  | nil => exact Nat.zero_le _
  | cons token tokens ih =>
    obtain ⟨c, rest, hchars⟩ := exists_cons_of_ne_nil token.chars_ne_nil
    have hblank : isBlank c = false :=
      Token.not_isBlank_of_mem_chars (hchars ▸ mem_cons_self)
    have hwidth : width (spaced (token :: tokens)) = width rest + 1 + width (spaced tokens) := by
      rw [spaced_cons, width_cons, width_append, hchars, width_cons, hblank]
      rfl
    rw [hwidth, length_cons]
    omega

/-- A text with single spaces between the tokens, up to the first space. -/
theorem spaced_eq_intercalate {tokens : List Token} (hne : tokens ≠ []) :
    spaced tokens = ' ' :: [' '].intercalate (tokens.map Token.chars) := by
  induction tokens with
  | nil => exact absurd rfl hne
  | cons token tokens ih =>
    cases tokens with
    | nil => simp [intercalate]
    | cons next rest =>
      rw [spaced_cons, ih (cons_ne_nil _ _)]
      simp [intercalate]

/-- Behind a token stands a space or nothing, so a word without spaces that the text starts
with is one that the token starts with. -/
theorem isPrefixOf_spaced {word : List Char} (hword : ' ' ∉ word) (chars : List Char)
    (tokens : List Token) : word.isPrefixOf (chars ++ spaced tokens) = word.isPrefixOf chars := by
  induction word generalizing chars with
  | nil => simp
  | cons c word ih =>
    rw [mem_cons, not_or] at hword
    cases chars with
    | nil =>
      cases tokens with
      | nil => rfl
      | cons token tokens =>
        have hne : c ≠ ' ' := fun hequal => hword.1 hequal.symm
        simp [isPrefixOf, hne]
    | cons d chars => rw [cons_append, isPrefixOf, isPrefixOf, ih hword.2]

end RowScript
