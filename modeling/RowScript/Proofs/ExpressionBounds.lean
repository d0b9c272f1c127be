import RowScript.Proofs.ReadRanges
import RowScript.Proofs.TokenReading

/-!
# Where written expressions start and end

An expression starts with a name, a number or an opening parenthesis, and ends before a token that
cannot continue it, which depends on the place where the expression stands.
-/

namespace RowScript

open Text Parser List Option

variable {tokens rest : List Token}

namespace Token

/-- How loose an operand a token can end; a token that would continue any operand has a high
rank. -/
def rank : Token → Nat
  | .mark .closing | .mark .comma | .mark .colon => 0
  | .mark .question => 1
  | .operator sign => sign.level + 1
  | _ => 9

end Token

/-- An expression at such a place ends before these tokens. -/
def Ends (place : Nat) (tokens : List Token) : Prop :=
  ∀ token, tokens.head? = some token → token.rank ≤ place

theorem Ends.mono {place larger : Nat} (hends : Ends place tokens) (hle : place ≤ larger) :
    Ends larger tokens :=
  fun token htoken => le_trans (hends token htoken) hle

variable {token : Token} {operator : BinaryOperator} {α ι : Type} {p : Parser α}

theorem ends_cons {place : Nat} (hrank : token.rank ≤ place) : Ends place (token :: tokens) := by
  intro other hother
  obtain rfl := some.inj hother
  exact hrank

/-- A level of the grammar holds the operators that bind as tightly, and recognizes each. -/
structure IsLevel (place : Nat) (operators : List BinaryOperator) : Prop where
  mem_iff : ∀ operator, operator ∈ operators ↔ operator.level = place
  find : ∀ operator ∈ operators,
    (operators.map fun other => (other.toText, other)).find?
      (fun found => found.1.toList.isPrefixOf operator.toText.toList) =
        some (operator.toText, operator)

theorem BinaryOperator.blank_notMem_toText (operator : BinaryOperator) :
    ' ' ∉ operator.toText.toList ∧ operator.toText.toList ≠ [] := by
  cases operator <;> decide

theorem BinaryOperator.level_le (operator : BinaryOperator) : operator.level ≤ 6 := by
  cases operator <;> decide

theorem BinaryOperator.level_pos (operator : BinaryOperator) : 0 < operator.level := by
  cases operator <;> decide

theorem isPrefixOf_toText_of_rank (hrank : token.rank ≤ operator.level) :
    operator.toText.toList.isPrefixOf token.chars = false := by
  have hlevel := operator.level_le
  cases token with
  | name word | numeral digits =>
    have hrank : 9 ≤ operator.level := hrank
    omega
  | operator sign =>
    have hrank : sign.level + 1 ≤ operator.level := hrank
    revert hrank
    cases operator <;> cases sign <;> decide
  | mark sign =>
    cases sign with
    | closing | comma | colon | question => cases operator <;> decide
    | _ =>
      have hrank : 9 ≤ operator.level := hrank
      omega

section

variable {place : Nat} {operators : List BinaryOperator} {tokens rest : List Token}

theorem refuses_operators (hlevel : IsLevel place operators) (hends : Ends place tokens) :
    (oneOf (operators.map fun operator => (operator.toText, operator))).Refuses
      (spaced tokens) := by
  apply refuses_oneOf
  · intro found hfound
    obtain ⟨operator, -, rfl⟩ := mem_map.mp hfound
    exact operator.blank_notMem_toText
  · intro token htoken found hfound
    obtain ⟨operator, hoperator, rfl⟩ := mem_map.mp hfound
    apply isPrefixOf_toText_of_rank
    rw [(hlevel.mem_iff operator).mp hoperator]
    exact hends token htoken

theorem reads_operators (hlevel : IsLevel place operators) (hoperator : operator.level = place) :
    (oneOf (operators.map fun operator => (operator.toText, operator))).Reads
      (spaced (.operator operator :: rest)) (spaced rest) fun found => found = operator := by
  refine reads_oneOf ?_ (hlevel.find operator ((hlevel.mem_iff operator).mpr hoperator)) rfl
  intro found hfound
  obtain ⟨operator, -, rfl⟩ := mem_map.mp hfound
  exact operator.blank_notMem_toText.1

end

/-- The tokens start as an expression does. -/
def Lead (tokens : List Token) : Prop :=
  ∃ token rest, tokens = token :: rest ∧ token.leads = true

theorem Lead.append (hlead : Lead tokens) (more : List Token) : Lead (tokens ++ more) := by
  obtain ⟨token, rest, rfl, hleads⟩ := hlead
  exact ⟨token, rest ++ more, rfl, hleads⟩

theorem Lead.head (hlead : Lead tokens) (htoken : tokens.head? = some token) : token.leads := by
  obtain ⟨first, rest, rfl, hleads⟩ := hlead
  obtain rfl := some.inj htoken
  exact hleads

namespace PlainExpr

variable (bare : Bool)

theorem lead_placed (hlead : Lead tokens) (place level : Nat) :
    Lead (placed place level tokens) := by
  rw [placed]
  split
  · exact ⟨_, _, rfl, rfl⟩
  · exact hlead

theorem lead_paramTokens (params : List PlainName) : Lead (paramTokens bare params) := by
  rw [paramTokens.eq_def]
  split
  · split
    · exact ⟨_, _, rfl, rfl⟩
    · exact ⟨_, _, rfl, rfl⟩
  · exact ⟨_, _, rfl, rfl⟩

theorem lead_tokens : ∀ tree : PlainExpr, Lead (tree.tokens bare)
  | .name _ => ⟨_, _, rfl, rfl⟩
  | .number _ => ⟨_, _, rfl, rfl⟩
  | .binary _ left _ => (lead_placed (lead_tokens left) _ _).append _
  | .conditional test _ _ => (lead_placed (lead_tokens test) _ _).append _
  | .arrow params _ => (lead_paramTokens bare params).append _
  | .member object _ => (lead_placed (lead_tokens object) _ _).append _
  | .call callee _ => (lead_placed (lead_tokens callee) _ _).append _

/-- The tokens of an expression at a place. -/
def tokensAt (place : Nat) (tree : PlainExpr) : List Token :=
  placed place tree.level (tree.tokens bare)

theorem lead_tokensAt (place : Nat) (tree : PlainExpr) : Lead (tree.tokensAt bare place) :=
  lead_placed (lead_tokens bare tree) _ _

end PlainExpr

section

variable {tokens : List Token} (hlead : Lead tokens)
include hlead

theorem refuses_symbol_of_lead {spelling : String} {c : Char}
    (hspelling : spelling.toList.head? = some c) (hblank : ' ' ∉ spelling.toList)
    (hc : isLeadChar c = false) : (symbol spelling).Refuses (spaced tokens) := by
  refine refuses_symbol ⟨hblank, fun hnil => ?_⟩ fun token htoken =>
    Token.isPrefixOf_of_leads hspelling hc (hlead.head htoken)
  rw [hnil] at hspelling
  cases hspelling

/-- Dots do not start an expression; a number has at most one before a digit. -/
theorem refuses_dots : (symbol "...").Refuses (spaced tokens) := by
  refine refuses_symbol (by decide) fun token htoken => ?_
  have hleads := hlead.head htoken
  cases token with
  | name word =>
    obtain ⟨c, rest, hword, -⟩ := word.start
    have hc := word.chars c (hword ▸ mem_cons_self)
    have hne : '.' ≠ c := by
      rintro rfl
      simp at hc
    simp [Token.chars, hword, isPrefixOf, hne]
  | numeral digits =>
    obtain ⟨c, rest, hchars, hdigit⟩ | ⟨c, rest, hchars, hdigit⟩ := digits.chars_cases
    all_goals
      have hne : '.' ≠ c := by
        rintro rfl
        exact absurd hdigit (by decide)
      simp [Token.chars, hchars, isPrefixOf, hne]
  | operator sign => cases hleads
  | mark sign =>
    cases sign with
    | opening => decide
    | _ => cases hleads

/-- An expression that starts like this has no operator in front. -/
theorem refuses_unaryOperator :
    (oneOf [("!", UnaryOperator.not), ("-", .negate), ("+", .plus), ("typeof", .typeof)]).Refuses
      (spaced tokens) := by
  refine refuses_oneOf (by decide) fun token htoken found hfound => ?_
  have hleads := hlead.head htoken
  simp only [mem_cons, not_mem_nil, or_false] at hfound
  obtain rfl | rfl | rfl | rfl := hfound
  · exact Token.isPrefixOf_of_leads (c := '!') rfl (by decide) hleads
  · exact Token.isPrefixOf_of_leads (c := '-') rfl (by decide) hleads
  · exact Token.isPrefixOf_of_leads (c := '+') rfl (by decide) hleads
  · cases token with
    | name word =>
      rw [← Bool.not_eq_true, isPrefixOf_iff_prefix]
      exact word.notTypeof
    | numeral digits =>
      obtain ⟨c, rest, hchars, hdigit⟩ | ⟨c, rest, hchars, -⟩ := digits.chars_cases
      · have hne : 't' ≠ c := by
          rintro rfl
          exact absurd hdigit (by decide)
        simp [Token.chars, hchars, isPrefixOf, hne]
      · simp [Token.chars, hchars, isPrefixOf]
    | operator sign => cases hleads
    | mark sign =>
      cases sign with
      | opening => decide
      | _ => cases hleads

end

/-- Nothing is left, or a closing parenthesis. -/
def Closed (tokens : List Token) : Prop :=
  ∀ token, tokens.head? = some token → token = .mark .closing

namespace ScriptGrammar

variable {spelling : String} {c : Char}

theorem shape_of_mem_keywords (hspelling : spelling ∈ keywords) :
    (' ' ∉ spelling.toList ∧ spelling.toList ≠ []) ∧
      ∃ c ∈ spelling.toList.head?, isDecimalDigit c = false ∧ c ≠ '.' ∧ c ≠ '(' ∧ c ≠ ')' := by
  have hshape : ∀ spelling ∈ keywords, (' ' ∉ spelling.toList ∧ spelling.toList ≠ []) ∧
      spelling.toList.head?.any
        (fun c => isDecimalDigit c = false ∧ c ≠ '.' ∧ c ≠ '(' ∧ c ≠ ')') = true := by
    decide
  obtain ⟨hblank, hhead⟩ := hshape spelling hspelling
  refine ⟨hblank, ?_⟩
  cases hc : spelling.toList.head? with
  | none =>
    rw [hc] at hhead
    cases hhead
  | some c =>
    rw [hc] at hhead
    exact ⟨c, rfl, of_decide_eq_true hhead⟩

/-- Only a name can start with a keyword. -/
theorem isPrefixOf_of_mem_keywords (hspelling : spelling ∈ keywords)
    (htoken : token.leads ∨ token = .mark .closing) (hname : ∀ word, token ≠ .name word) :
    spelling.toList.isPrefixOf token.chars = false := by
  obtain ⟨hblank, c, hc, hdigit, hpoint, hopening, hclosing⟩ := shape_of_mem_keywords hspelling
  have hother : ∀ {d : Char} {rest : List Char}, token.chars = d :: rest → c ≠ d →
      spelling.toList.isPrefixOf token.chars = false := by
    intro d rest hchars hne
    obtain ⟨e, more, hmore⟩ := exists_cons_of_ne_nil hblank.2
    rw [hmore] at hc ⊢
    obtain rfl := some.inj hc
    simp [hchars, isPrefixOf, hne]
  cases token with
  | name word => exact absurd rfl (hname word)
  | numeral digits =>
    obtain ⟨d, more, hchars, hd⟩ | ⟨d, more, hchars, -⟩ := digits.chars_cases
    · refine hother hchars fun hequal => ?_
      rw [hequal, hd] at hdigit
      cases hdigit
    · exact hother hchars hpoint
  | operator sign => simp [Token.leads] at htoken
  | mark sign =>
    cases sign with
    | opening => exact hother rfl hopening
    | closing => exact hother rfl hclosing
    | _ => simp [Token.leads] at htoken

section

variable {tokens : List Token} (hhead : Lead tokens ∨ Closed tokens)
include hhead

theorem leads_or_closing (htoken : tokens.head? = some token) :
    token.leads ∨ token = .mark .closing :=
  hhead.imp (fun hlead => hlead.head htoken) fun hclosed => hclosed token htoken

theorem refuses_keywords (hspelling : spelling ∈ keywords) :
    (keyword spelling).Refuses (spaced tokens) := by
  obtain ⟨hblank, -⟩ := shape_of_mem_keywords hspelling
  by_cases hname : ∃ word rest, tokens = .name word :: rest
  · obtain ⟨word, rest, rfl⟩ := hname
    exact refuses_keyword hblank.1 fun hequal => word.notKeyword (hequal ▸ hspelling)
  · refine refuses_keyword_of_head hblank fun token htoken =>
      isPrefixOf_of_mem_keywords hspelling (leads_or_closing hhead htoken) ?_
    rintro word rfl
    obtain ⟨rest, rfl⟩ := head?_eq_some_iff.mp htoken
    exact hname ⟨word, rest, rfl⟩

/-- The word of a declaration does not end inside a name. -/
theorem refuses_declarationKeyword : declarationKeyword.Refuses (spaced tokens) := by
  intro cursor hcursor
  have hnone : [DeclarationKeyword.constKeyword, .letKeyword, .varKeyword].find?
      (fun keyword => keyword.toText.toList.isPrefixOf cursor.skipBlanks.ahead
        && !(cursor.skipBlanks.ahead.drop keyword.toText.length).head?.any isWordChar) = none := by
    rw [find?_eq_none]
    intro keyword _
    have hkeyword : keyword.toText ∈ keywords := by cases keyword <;> decide
    obtain ⟨hblank, -⟩ := shape_of_mem_keywords hkeyword
    rw [Cursor.ahead_skipBlanks, hcursor]
    cases tokens with
    | nil =>
      cases keyword <;> decide
    | cons token rest =>
      rw [skipped_spaced, isPrefixOf_spaced hblank.1]
      by_cases hname : ∃ word, token = .name word
      · obtain ⟨word, rfl⟩ := hname
        rw [Bool.and_eq_true, not_and, Bool.not_eq_true', isPrefixOf_iff_prefix]
        intro hlead
        obtain ⟨c, more, hc, hdrop⟩ := exists_plain_of_prefix hlead
          (fun hequal => word.notKeyword (hequal ▸ hkeyword)) (spaced rest)
        rw [Token.chars, hdrop]
        simp [isWordChar_of_plain hc]
      · rw [isPrefixOf_of_mem_keywords hkeyword (leads_or_closing hhead rfl)
          fun word hequal => hname ⟨word, hequal⟩]
        simp
  refine ⟨cursor.skipBlanks.offset, ?_⟩
  rw [declarationKeyword]
  simp only [hnone]

theorem refuses_string : string.Refuses (spaced tokens) := by
  refine Refuses.bind (Refuses.located (refuses_quoted fun token htoken => ?_))
  obtain hlead | hclosed := hhead
  · obtain ⟨c, rest, hchars, hc⟩ := Token.exists_lead_char (hlead.head htoken)
    rw [hchars]
    constructor
    all_goals
      intro hequal
      obtain rfl := some.inj hequal
      exact absurd hc (by decide)
  · obtain rfl := hclosed token htoken
    decide

end

theorem isDecimalDigit_of_start {word : PlainName} {rest : List Char}
    (hword : word.text.toList = c :: rest) (hdigit : c.isDigit = false) :
    isDecimalDigit c = false ∧ c ≠ '.' := by
  have hplain := word.chars c (hword ▸ mem_cons_self)
  constructor
  · rw [isDecimalDigit, digitValue?, if_pos (toNat_lt_of_plain hplain), hdigit]
    rfl
  · rintro rfl
    simp at hplain

theorem isNameStart_of_isDecimalDigit (hdigit : isDecimalDigit c) : isNameStart c = false := by
  have halpha : c.isAlpha = false := by
    cases halpha : c.isAlpha with
    | false => rfl
    | true =>
      have hplain : c.isAlphanum ∨ c = '_' := .inl (by simp [Char.isAlphanum, halpha])
      rw [isDecimalDigit, digitValue?, if_pos (toNat_lt_of_plain hplain)] at hdigit
      have hisDigit : c.isDigit := by
        by_contra hnot
        simp [hnot] at hdigit
      delta Char.isAlpha Char.isUpper Char.isLower at halpha
      delta Char.isDigit at hisDigit
      simp only [Bool.or_eq_true, Bool.and_eq_true, decide_eq_true_eq,
        UInt32.le_iff_toNat_le] at halpha hisDigit
      simp only [Char.reduceVal, UInt32.reduceToNat] at halpha hisDigit
      omega
  have hunderscore : c ≠ '_' := fun hequal => absurd (hequal ▸ hdigit) (by decide)
  have hdollar : c ≠ '$' := fun hequal => absurd (hequal ▸ hdigit) (by decide)
  simp [isNameStart, halpha, hunderscore, hdollar]

/-- Tokens at which a primary expression is no name and no number. -/
theorem refuses_name_of_parenthesis
    (hhead : ∀ token, tokens.head? = some token → token = .mark .opening ∨ token = .mark .closing ∨
      ∃ digits, token = .numeral digits) : identifier.Refuses (spaced tokens) := by
  refine refuses_identifier (refuses_name fun token htoken c hc => ?_)
  obtain rfl | rfl | ⟨digits, rfl⟩ := hhead token htoken
  · obtain rfl := some.inj hc
    decide
  · obtain rfl := some.inj hc
    decide
  · obtain ⟨d, rest, hchars, hd⟩ | ⟨d, rest, hchars, -⟩ := digits.chars_cases
    · rw [Token.chars, hchars] at hc
      obtain rfl := some.inj hc
      exact isNameStart_of_isDecimalDigit hd
    · rw [Token.chars, hchars] at hc
      obtain rfl := some.inj hc
      decide

theorem refuses_literal
    (hhead : ∀ token, tokens.head? = some token → token = .mark .opening ∨ token = .mark .closing ∨
      ∃ word, token = .name word) : literal.Refuses (spaced tokens) := by
  have hlead : Lead tokens ∨ Closed tokens := by
    cases tokens with
    | nil => exact .inr fun _ hnone => by cases hnone
    | cons token rest =>
      obtain rfl | rfl | ⟨word, rfl⟩ := hhead token rfl
      · exact .inl ⟨_, _, rfl, rfl⟩
      · exact .inr fun _ hsome => (some.inj hsome).symm
      · exact .inl ⟨_, _, rfl, rfl⟩
  have hkeyword : ∀ {spelling : String} {value : LiteralValue}, spelling ∈ keywords →
      (keywordLiteral spelling value).Refuses (spaced tokens) := fun hspelling =>
    Refuses.bind (Refuses.located (refuses_keywords hlead hspelling))
  refine Refuses.orElse (refuses_number fun token htoken c hc => ?_)
    ((refuses_string hlead).orElse ((hkeyword (by decide)).orElse
      ((hkeyword (by decide)).orElse (hkeyword (by decide)))))
  obtain rfl | rfl | ⟨word, rfl⟩ := hhead token htoken
  · obtain rfl := some.inj hc
    decide
  · obtain rfl := some.inj hc
    decide
  · obtain ⟨d, rest, hword, hdigit⟩ := word.start
    rw [Token.chars, hword] at hc
    obtain rfl := some.inj hc
    exact isDecimalDigit_of_start hword hdigit

end ScriptGrammar

theorem length_le_flatMap (tokens : ι → List Token) {items : List ι} {item : ι}
    (hitem : item ∈ items) : (tokens item).length ≤ (items.flatMap tokens).length :=
  (sublist_flatten_of_mem (mem_map_of_mem hitem)).length_le

namespace Token

theorem length_parenthesized (tokens : List Token) :
    (parenthesized tokens).length = tokens.length + 2 := by
  simp [parenthesized]

theorem length_le_separated {items : List (List Token)} (htokens : tokens ∈ items) :
    tokens.length ≤ (separated items).length := by
  cases items with
  | nil => cases htokens
  | cons first others =>
    rw [separated, length_append]
    obtain rfl | hmem := mem_cons.mp htokens
    · omega
    · have hle := length_le_flatMap (Token.mark .comma :: ·) hmem
      rw [length_cons] at hle
      omega

end Token

theorem reads_many {tokens : ι → List Token} {means : ι → α → Prop} {items : List ι}
    (hstop : p.Refuses (spaced rest))
    (hitems : ∀ item ∈ items, ∀ others : List ι, p.Reads (spaced (tokens item ++ (others.flatMap
      tokens ++ rest))) (spaced (others.flatMap tokens ++ rest)) (means item))
    (hne : ∀ item ∈ items, tokens item ≠ []) :
    p.many.Reads (spaced (items.flatMap tokens ++ rest)) (spaced rest)
      (Forall₂ means items) := by
  rw [spaced_append, spaced_flatMap]
  refine Reads.many hstop (fun item hitem others => ?_) fun item hitem => ?_
  · have hreads := hitems item hitem others
    rwa [spaced_append, spaced_append, spaced_flatMap] at hreads
  · have hlength := length_le_width_spaced (tokens item)
    have hpositive := length_pos_of_ne_nil (hne item hitem)
    omega

theorem reads_many_nil (hstop : p.Refuses (spaced rest)) :
    p.many.Reads (spaced rest) (spaced rest) fun values => values = [] := by
  intro cursor hcursor
  obtain ⟨offset, hrun⟩ := hstop cursor hcursor
  refine ⟨[], cursor, ?_, hcursor, rfl⟩
  rw [many]
  cases cursor.ahead.length with
  | zero => rfl
  | succ n => simp only [manyUpTo, hrun]

/-- An empty run of operators is read like any other, up to blanks. -/
theorem reads_manyOrBlanks {before after : List Char} {P : List α → Prop}
    (hmany : p.many.Reads before after P) : (manyOrBlanks p).Reads before after P := by
  intro cursor hcursor
  obtain ⟨values, next, hrun, hnext, hvalues⟩ := hmany cursor hcursor
  cases values with
  | nil =>
    refine ⟨[], cursor.skipBlanks, by rw [manyOrBlanks, hrun], ?_, hvalues⟩
    cases chained_of_many hrun
    rw [Cursor.ahead_skipBlanks, skipped_skipped, hnext]
  | cons value values => exact ⟨_, next, by rw [manyOrBlanks, hrun], hnext, hvalues⟩

/-- Items with commas between them, in parentheses. -/
theorem reads_list {item : Parser α} {tokens : ι → List Token} {means : ι → α → Prop}
    {items : List ι} (hrefuses : item.Refuses (spaced (.mark .closing :: rest)))
    (hitem : ∀ i ∈ items, ∀ others, Ends 0 others → item.Reads (spaced (tokens i ++ others)) (spaced
      others) (means i)) :
    (between "(" ")" (commaSeparated item)).Reads
      (spaced (Token.parenthesized (Token.separated (items.map tokens)) ++ rest)) (spaced rest)
      (Forall₂ means items) := by
  cases items with
  | nil =>
    refine (reads_mark rfl).bind fun _ _ => (Refuses.optional (Refuses.bind hrefuses)).bind
      fun found hfound => (reads_mark rfl).bind fun _ _ => .pure ?_
    rw [hfound]
    exact .nil
  | cons first others =>
    have hends : ∀ others : List ι,
        Ends 0 (others.flatMap (fun i => .mark .comma :: tokens i) ++ .mark .closing :: rest) := by
      intro others
      cases others with
      | nil | cons other others => exact ends_cons (Nat.le_refl 0)
    have hothers : (do symbol ","; item : Parser α).many.Reads
        (spaced (others.flatMap (fun i => .mark .comma :: tokens i) ++ .mark .closing :: rest))
        (spaced (.mark .closing :: rest)) (Forall₂ means others) := by
      refine reads_many (Refuses.bind ?_) (fun other hother more => ?_) fun _ _ =>
        cons_ne_nil _ _
      · refine refuses_symbol (by decide) fun token htoken => ?_
        obtain rfl := some.inj htoken
        decide
      · exact (reads_mark rfl).bind fun _ _ =>
          hitem other (mem_cons_of_mem _ hother) _ (hends more)
    have hitems : (commaSeparated item).Reads
        (spaced (tokens first ++
          (others.flatMap (fun i => .mark .comma :: tokens i) ++ .mark .closing :: rest)))
        (spaced (.mark .closing :: rest)) (Forall₂ means (first :: others)) :=
      (hitem first mem_cons_self _ (hends others)).bind fun _ hfirst =>
        hothers.bind fun _ hothers => .pure (.cons hfirst hothers)
    have htokens : Token.parenthesized (Token.separated ((first :: others).map tokens)) ++ rest =
        .mark .opening :: (tokens first ++
          (others.flatMap (fun i => .mark .comma :: tokens i) ++ .mark .closing :: rest)) := by
      simp [Token.parenthesized, Token.separated, flatMap_map]
    rw [htokens]
    refine (reads_mark rfl).bind fun _ _ => hitems.optional.bind fun found hfound =>
      (reads_mark rfl).bind fun _ _ => .pure ?_
    obtain ⟨values, rfl, hvalues⟩ := hfound
    exact hvalues

end RowScript
