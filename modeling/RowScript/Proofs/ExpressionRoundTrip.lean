import RowScript.Proofs.ExpressionReading

/-!
# Reading a written expression gives the expression back

Nothing that starts like an expression is taken for the parameters of a function, because
parentheses are never put around a name alone. So the grammar reads what is written at every depth.
-/

namespace RowScript

open Text Parser List Option

namespace ScriptGrammar

/-- What follows an opening parenthesis is not the rest of a list of parameters. -/
def NoParams : List Token → Prop
  | .numeral _ :: _ | .mark .opening :: _ => True
  | .name _ :: rest => ∀ token, rest.head? = some token →
      token ≠ .mark .closing ∧ token ≠ .mark .comma
  | _ => False

/-- The tokens do not start with parameters and an arrow. -/
def NoArrow : List Token → Prop
  | .numeral _ :: _ => True
  | .name _ :: rest => ∀ token, rest.head? = some token → token ≠ .mark .arrow
  | .mark .opening :: rest => NoParams rest
  | _ => False

variable {sign : Punctuation} {tokens : List Token}

theorem isPrefixOf_chars_of_ne (hsign : sign = .closing ∨ sign = .comma ∨ sign = .arrow)
    {token : Token} (hne : token ≠ .mark sign) : sign.chars.isPrefixOf token.chars = false := by
  have hlead : token.leads → sign.chars.isPrefixOf token.chars = false := by
    obtain rfl | rfl | rfl := hsign
    · exact Token.isPrefixOf_of_leads (c := ')') rfl (by decide)
    · exact Token.isPrefixOf_of_leads (c := ',') rfl (by decide)
    · exact Token.isPrefixOf_of_leads (c := '=') rfl (by decide)
  cases token with
  | name word => exact hlead rfl
  | numeral digits => exact hlead rfl
  | operator operator => obtain rfl | rfl | rfl := hsign <;> cases operator <;> decide
  | mark other =>
    have hne : other ≠ sign := fun hequal => hne (congrArg _ hequal)
    revert hne
    obtain rfl | rfl | rfl := hsign <;> cases other <;> decide

theorem refuses_mark {spelling : String} (hchars : spelling.toList = sign.chars)
    (hsign : sign = .closing ∨ sign = .comma ∨ sign = .arrow)
    (hhead : ∀ token, tokens.head? = some token → token ≠ .mark sign) :
    (symbol spelling).Refuses (spaced tokens) := by
  refine refuses_symbol ?_ fun token htoken => ?_
  · rw [hchars]
    cases sign <;> decide
  · rw [hchars]
    exact isPrefixOf_chars_of_ne hsign (hhead token htoken)

/-- Behind an opening parenthesis that belongs to an expression, no list of names is closed. -/
theorem refuses_params {rest : List Token} (hrest : NoParams rest) :
    (between "(" ")" (commaSeparated identifier)).Refuses (spaced (.mark .opening :: rest)) := by
  -- without a name, the list is empty and should end at once
  have hempty : (∀ token, rest.head? = some token →
      token = .mark .opening ∨ token = .mark .closing ∨ ∃ digits, token = .numeral digits) →
      (∀ token, rest.head? = some token → token ≠ .mark .closing) →
      (between "(" ")" (commaSeparated identifier)).Refuses (spaced (.mark .opening :: rest)) := by
    intro hhead hclosing
    exact (reads_mark rfl).refuses_bind fun _ _ => (Refuses.optional (Refuses.bind
      (refuses_name_of_parenthesis hhead))).refuses_bind fun _ _ =>
        Refuses.bind (refuses_mark rfl (.inl rfl) hclosing)
  cases rest with
  | nil => exact hrest.elim
  | cons token rest =>
    cases token with
    | numeral digits =>
      refine hempty (fun token htoken => ?_) fun token htoken => ?_
      · exact .inr (.inr ⟨digits, (some.inj htoken).symm⟩)
      · obtain rfl := some.inj htoken
        exact Token.noConfusion
    | name word =>
      have hnames : (commaSeparated identifier).Reads (spaced (.name word :: rest)) (spaced rest)
          fun _ => True :=
        reads_identifier.bind fun _ _ => (reads_many_nil (Refuses.bind (refuses_mark rfl
          (.inr (.inl rfl)) fun token htoken => (hrest token htoken).2))).bind
            fun _ _ => .pure trivial
      exact (reads_mark rfl).refuses_bind fun _ _ => hnames.optional.refuses_bind fun _ _ =>
        Refuses.bind (refuses_mark rfl (.inl rfl) fun token htoken => (hrest token htoken).1)
    | operator operator => exact hrest.elim
    | mark sign =>
      cases sign with
      | opening =>
        refine hempty (fun token htoken => ?_) fun token htoken => ?_
        · exact .inl (some.inj htoken).symm
        · obtain rfl := some.inj htoken
          simp
      | _ => exact hrest.elim

theorem refuses_arrow {expression : Parser Expr} {statement : Parser (Option Statement)}
    (htokens : NoArrow tokens) : (arrow expression statement).Refuses (spaced tokens) := by
  refine Refuses.bind (Refuses.located ?_)
  cases tokens with
  | nil => exact htokens.elim
  | cons token rest =>
    cases token with
    | numeral digits =>
      refine Refuses.bind (Refuses.orElse (Refuses.bind (refuses_name_of_parenthesis
        fun token htoken => ?_)) (Refuses.bind (refuses_symbol (by decide)
          fun token htoken => ?_)))
      · exact .inr (.inr ⟨digits, (some.inj htoken).symm⟩)
      · obtain rfl := some.inj htoken
        obtain ⟨c, more, hchars, hc⟩ | ⟨c, more, hchars, -⟩ := digits.chars_cases
        · have hne : '(' ≠ c := by
            rintro rfl
            exact absurd hc (by decide)
          simp [Token.chars, hchars, isPrefixOf, hne]
        · simp [Token.chars, hchars, isPrefixOf]
    | name word =>
      have hparams : arrowParams.Reads (spaced (.name word :: rest)) (spaced rest)
          fun _ => True :=
        Reads.orElse (reads_identifier.bind fun _ _ => .pure trivial)
      exact hparams.refuses_bind fun _ _ =>
        Refuses.bind (refuses_mark rfl (.inr (.inr rfl)) htokens)
    | operator operator => exact htokens.elim
    | mark sign =>
      cases sign with
      | opening =>
        refine Refuses.bind (Refuses.orElse (Refuses.bind (refuses_name_of_parenthesis
          fun token htoken => ?_)) (refuses_params htokens))
        exact .inl (some.inj htoken).symm
      | _ => exact htokens.elim

end ScriptGrammar

namespace PlainExpr

open ScriptGrammar

variable (bare : Bool) {tree : PlainExpr} {place : Nat} {rest : List Token}

theorem noParams_tokensAt_of (htree : place ≤ tree.level → NoParams (tree.tokens bare ++ rest)) :
    NoParams (tree.tokensAt bare place ++ rest) := by
  by_cases hlevel : tree.level < place
  · rw [tokensAt_of_level_lt hlevel]
    trivial
  · rw [tokensAt_of_le_level (Nat.not_lt.mp hlevel)]
    exact htree (Nat.not_lt.mp hlevel)

/-- An expression in front of something that closes no list is not a name in parentheses. -/
theorem noParams_tokensAt : ∀ (tree : PlainExpr) {place : Nat}, 0 < place → ∀ {next : Token},
    next ≠ .mark .closing ∧ next ≠ .mark .comma → ∀ rest : List Token,
      NoParams (tree.tokensAt bare place ++ next :: rest)
  | .name word, place, _, next, hnext, rest => noParams_tokensAt_of bare fun _ token htoken => by
    obtain rfl := some.inj htoken
    exact hnext
  | .number _, _, _, _, _, _ => noParams_tokensAt_of bare fun _ => trivial
  | .binary operator left right, _, _, _, _, _ => noParams_tokensAt_of bare fun _ => by
    rw [tokens, append_assoc]
    exact noParams_tokensAt left operator.level_pos (by simp) _
  | .conditional _ _ _, _, hpositive, _, _, _ | .arrow _ _, _, hpositive, _, _, _ =>
    noParams_tokensAt_of bare fun hplace =>
    absurd hplace (Nat.not_le.mpr hpositive)
  | .member object property, _, _, _, _, _ => noParams_tokensAt_of bare fun _ => by
    rw [tokens, append_assoc]
    exact noParams_tokensAt object (by decide) (by simp) _
  | .call callee arguments, _, _, _, _, _ => noParams_tokensAt_of bare fun _ => by
    rw [tokens, append_assoc]
    exact noParams_tokensAt callee (by decide) (by simp) _

/-- What is put into parentheses is not a name, and is not taken for parameters. -/
theorem noParams_tokens (hlevel : tree.level < 8) (rest : List Token) :
    NoParams (tree.tokens bare ++ rest) := by
  cases tree with
  | number digits => trivial
  | binary operator left right =>
    rw [tokens, append_assoc]
    exact noParams_tokensAt bare left operator.level_pos (by simp) _
  | conditional test consequent alternate =>
    rw [tokens, append_assoc]
    exact noParams_tokensAt bare test (by decide) (by simp) _
  | arrow params body =>
    rw [tokens, append_assoc, paramTokens.eq_def]
    split
    · split
      · rintro token htoken
        obtain rfl := some.inj htoken
        simp
      · trivial
    · trivial
  | name word | member object property | call callee arguments =>
    exact absurd hlevel (Nat.lt_irrefl 8)

theorem noArrow_tokensAt_of (hplace : place ≤ 8)
    (htree : place ≤ tree.level → NoArrow (tree.tokens bare ++ rest)) :
    NoArrow (tree.tokensAt bare place ++ rest) := by
  by_cases hlevel : tree.level < place
  · rw [tokensAt_of_level_lt hlevel, Token.parenthesized, cons_append, append_assoc]
    exact noParams_tokens bare (Nat.lt_of_lt_of_le hlevel hplace) _
  · rw [tokensAt_of_le_level (Nat.not_lt.mp hlevel)]
    exact htree (Nat.not_lt.mp hlevel)

theorem noArrow_tokensAt : ∀ (tree : PlainExpr) {place : Nat}, 0 < place → place ≤ 8 →
    ∀ {rest : List Token}, (∀ token, rest.head? = some token → token ≠ .mark .arrow) →
      NoArrow (tree.tokensAt bare place ++ rest)
  | .name _, _, _, hplace, _, hrest => noArrow_tokensAt_of bare hplace fun _ => hrest
  | .number _, _, _, hplace, _, _ => noArrow_tokensAt_of bare hplace fun _ => trivial
  | .binary operator left right, _, _, hplace, _, _ => noArrow_tokensAt_of bare hplace fun _ => by
    have hlevel := operator.level_le
    rw [tokens, append_assoc]
    refine noArrow_tokensAt left operator.level_pos (by omega) fun token htoken => ?_
    obtain rfl := some.inj htoken
    simp
  | .conditional _ _ _, _, hpositive, hplace, _, _ | .arrow _ _, _, hpositive, hplace, _, _ =>
    noArrow_tokensAt_of bare hplace fun hle =>
    absurd hle (Nat.not_le.mpr hpositive)
  | .member object property, _, _, hplace, _, _ => noArrow_tokensAt_of bare hplace fun _ => by
    rw [tokens, append_assoc]
    refine noArrow_tokensAt object (by decide) (by decide) fun token htoken => ?_
    obtain rfl := some.inj htoken
    simp
  | .call callee arguments, _, _, hplace, _, _ => noArrow_tokensAt_of bare hplace fun _ => by
    rw [tokens, append_assoc]
    refine noArrow_tokensAt callee (by decide) (by decide) fun token htoken => ?_
    obtain rfl := some.inj htoken
    simp

end PlainExpr

namespace ScriptGrammar

section

variable {expression : Parser Expr} {statement : Parser (Option Statement)} {tokens : List Token}
  (hclosed : Closed tokens)
include hclosed

theorem refuses_unary_of_closed : (unary expression).Refuses (spaced tokens) := by
  have hprimary : (primary expression).Refuses (spaced tokens) := by
    refine Refuses.orElse (Refuses.map (refuses_literal fun token htoken => ?_))
      (Refuses.orElse (Refuses.map (refuses_name_of_parenthesis fun token htoken => ?_))
        (Refuses.orElse (Refuses.bind (Refuses.located (Refuses.bind ?_)))
          (Refuses.orElse (Refuses.bind (Refuses.located (Refuses.bind ?_))) (Refuses.bind ?_))))
    · exact .inr (.inl (hclosed token htoken))
    · exact .inr (.inl (hclosed token htoken))
    all_goals exact refuses_symbol_of_closed (by decide) (by decide) hclosed
  have hsuffixed : (suffixed expression).Refuses (spaced tokens) := Refuses.bind hprimary
  have hupTo : ∀ n, (unaryUpTo expression n).Refuses (spaced tokens) := by
    intro n
    cases n with
    | zero => exact hsuffixed
    | succ n =>
      refine Refuses.orElse (Refuses.bind (Refuses.located (Refuses.bind (refuses_oneOf (by decide)
        fun token htoken => ?_)))) hsuffixed
      obtain rfl := hclosed token htoken
      decide
  exact fun cursor => hupTo _ cursor

theorem refuses_expressionWith : (expressionWith expression statement).Refuses (spaced tokens) := by
  refine Refuses.orElse (Refuses.bind (Refuses.located (Refuses.bind (Refuses.orElse
    (Refuses.bind (refuses_name_of_parenthesis fun token htoken => ?_)) (Refuses.bind ?_)))))
      (Refuses.bind (Refuses.located (Refuses.bind ?_)))
  · exact .inr (.inl (hclosed token htoken))
  · exact refuses_symbol_of_closed (by decide) (by decide) hclosed
  · have hunary : (unary expression).Refuses (spaced tokens) := refuses_unary_of_closed hclosed
    exact foldlRecOn (motive := fun operand : Parser Expr => operand.Refuses (spaced tokens))
      operatorLevels _ hunary fun _ hoperand _ _ => Refuses.bind hoperand

end

variable {bare : Bool}

theorem reads_expressionWith {expression : Parser Expr} {statement : Parser (Option Statement)}
    {bound : Nat} (hexpression : ReadsUpTo bare bound expression) (tree : PlainExpr)
    {rest : List Token} (hbound : (tree.tokens bare).length ≤ bound + 1) (hends : Ends 0 rest) :
    (expressionWith expression statement).Reads (spaced (tree.tokens bare ++ rest)) (spaced rest)
      tree.Matches := by
  have hrest : ∀ token, rest.head? = some token → token ≠ .mark .arrow := by
    rintro token htoken rfl
    exact absurd (hends _ htoken) (by decide)
  by_cases htree : 1 ≤ tree.level
  · have hnoArrow := PlainExpr.noArrow_tokensAt bare tree Nat.one_pos (by decide) hrest
    rw [PlainExpr.tokensAt_of_le_level htree] at hnoArrow
    exact Refuses.orElse_reads (refuses_arrow hnoArrow)
      (reads_conditional_of_test hexpression htree hbound hends)
  · cases tree with
    | conditional test consequent alternate =>
      refine Refuses.orElse_reads (refuses_arrow ?_) (reads_conditional hexpression hbound hends)
      rw [PlainExpr.tokens, append_assoc]
      refine PlainExpr.noArrow_tokensAt bare test Nat.one_pos (by decide) fun token htoken => ?_
      obtain rfl := some.inj htoken
      simp
    | arrow params body => exact Reads.orElse (reads_arrow hexpression hbound hends)
    | binary operator left right => exact absurd operator.level_pos htree
    | name word | member object property | call callee arguments =>
      exact absurd (by decide : 1 ≤ 8) htree
    | number digits => exact absurd (by decide : 1 ≤ 7) htree

theorem readsUpTo_expressionUpTo (bare : Bool) (depth : Nat) :
    ReadsUpTo bare depth (expressionUpTo depth) := by
  induction depth with
  | zero =>
    refine ⟨fun tree rest hbound _ => ?_, fun tokens _ cursor _ => ⟨_, rfl⟩⟩
    obtain ⟨token, more, htokens, -⟩ := PlainExpr.lead_tokens bare tree
    rw [htokens] at hbound
    exact absurd hbound (Nat.not_succ_le_zero _)
  | succ depth ih =>
    exact ⟨fun tree rest hbound hends cursor => reads_expressionWith ih tree hbound hends cursor,
      fun tokens hclosed cursor => refuses_expressionWith hclosed cursor⟩

/-- An expression that is a whole text is read as a statement. -/
theorem reads_statementUpTo {tree : PlainExpr} {depth : Nat}
    (hbound : (tree.tokens bare).length ≤ depth) :
    (statementUpTo (depth + 1)).Reads (spaced (tree.tokens bare)) [] fun found =>
      ∃ loc inner, found = some (.expression loc inner) ∧ tree.Matches inner := by
  have hlead : Lead (tree.tokens bare) ∨ Closed (tree.tokens bare) :=
    .inl (PlainExpr.lead_tokens bare tree)
  have hinner := (readsUpTo_expressionUpTo bare depth).reads tree [] hbound fun _ hnone => by
    cases hnone
  rw [append_nil] at hinner
  have hsemicolon : (symbol ";").Refuses (spaced []) :=
    refuses_symbol (by decide) fun _ hnone => by cases hnone
  show (statementWith (expressionUpTo depth) (statementUpTo depth)).Reads _ _ _
  refine Refuses.orElse_reads (Refuses.map (Refuses.bind (Refuses.located (Refuses.bind
    (refuses_declarationKeyword hlead))))) (Refuses.orElse_reads (Refuses.map (Refuses.bind
      (Refuses.located (Refuses.bind (refuses_keywords hlead (by decide))))))
        (Refuses.orElse_reads (Refuses.map (refuses_block hlead)) (Reads.orElse (Reads.map
          (Reads.located_bind ?_ fun loc inner hinner => .pure ⟨loc, inner, rfl, hinner⟩)))))
  exact hinner.bind fun _ hinner => (Refuses.optional hsemicolon).bind fun _ _ => .pure hinner

theorem refuses_statementUpTo (depth : Nat) : (statementUpTo depth).Refuses [] := by
  have hclosed : Closed [] := fun _ hnone => by cases hnone
  have hlead : Lead [] ∨ Closed [] := .inr hclosed
  cases depth with
  | zero => exact fun cursor _ => ⟨_, rfl⟩
  | succ depth =>
    show (statementWith (expressionUpTo depth) (statementUpTo depth)).Refuses (spaced [])
    refine Refuses.orElse (Refuses.map (Refuses.bind (Refuses.located (Refuses.bind
      (refuses_declarationKeyword hlead))))) (Refuses.orElse (Refuses.map (Refuses.bind
        (Refuses.located (Refuses.bind (refuses_keywords hlead (by decide))))))
          (Refuses.orElse (Refuses.map (refuses_block hlead)) (Refuses.orElse (Refuses.map
            (Refuses.bind (Refuses.located (Refuses.bind ?_)))) (Refuses.bind ?_))))
    · exact (readsUpTo_expressionUpTo true depth).refuses [] hclosed
    · exact refuses_symbol_of_closed (by decide) (by decide) hclosed

theorem reads_many_one {α : Type} {p : Parser α} {before after : List Char} {P : α → Prop}
    (hreads : p.Reads before after P) (hstop : p.Refuses after) (hwidth : 0 < width before) :
    p.many.Reads before after fun values => ∃ value, values = [value] ∧ P value := by
  intro cursor hcursor
  have hlength : 0 < cursor.ahead.length := by
    have hle := width_le_length cursor.ahead
    rw [← width_skipped, hcursor, width_skipped] at hle
    omega
  obtain ⟨value, next, hrun, hnext, hvalue⟩ := hreads cursor hcursor
  obtain ⟨offset, hfailed⟩ := hstop next hnext
  refine ⟨[value], next, ?_, hnext, value, rfl, hvalue⟩
  rw [many]
  obtain ⟨n, hn⟩ := Nat.exists_eq_add_of_lt hlength
  rw [hn, manyUpTo]
  simp only [hrun]
  cases n with
  | zero => rfl
  | succ n => simp only [manyUpTo, hfailed]

theorem reads_statements (bare : Bool) (tree : PlainExpr) :
    statements.Reads (spaced (tree.tokens bare)) [] fun body =>
      ∃ loc inner, body = [.expression loc inner] ∧ tree.Matches inner := by
  have hlength := length_le_width_spaced (tree.tokens bare)
  have hstatement : statement.Reads (spaced (tree.tokens bare)) [] fun found =>
      ∃ loc inner, found = some (.expression loc inner) ∧ tree.Matches inner := by
    intro cursor hcursor
    have hwidth := width_le_length cursor.ahead
    rw [← width_skipped, hcursor, width_skipped] at hwidth
    exact reads_statementUpTo (by omega) cursor hcursor
  have hpositive : 0 < width (spaced (tree.tokens bare)) := by
    obtain ⟨token, rest, htokens, -⟩ := PlainExpr.lead_tokens bare tree
    rw [htokens] at hlength ⊢
    exact Nat.lt_of_lt_of_le (Nat.succ_pos _) hlength
  refine (reads_many_one hstatement (fun cursor => refuses_statementUpTo _ cursor) hpositive).bind
    fun found hfound => .pure ?_
  obtain ⟨_, rfl, loc, inner, rfl, hinner⟩ := hfound
  exact ⟨loc, inner, rfl, hinner⟩

end ScriptGrammar

/-- No quotes, and no slash before a slash or a star. -/
def Uncommented : List Char → Prop
  | [] => True
  | c :: rest => (c ≠ '"' ∧ c ≠ '\'') ∧
      (c = '/' → rest.head? ≠ some '/' ∧ rest.head? ≠ some '*') ∧ Uncommented rest

theorem Uncommented.drop {text : List Char} (htext : Uncommented text) (n : Nat) :
    Uncommented (text.drop n) := by
  induction n generalizing text with
  | zero => exact htext
  | succ n ih =>
    cases text with
    | nil => exact htext
    | cons c rest => exact ih htext.2.2

theorem Uncommented.scanUpTo {cursor : Cursor} (hahead : Uncommented cursor.ahead) (n : Nat) :
    Comment.scanUpTo n cursor = [] := by
  induction n generalizing cursor with
  | zero => rfl
  | succ n ih =>
    have hskipped : Uncommented cursor.skipBlanks.ahead := by
      rw [Cursor.skipBlanks, Cursor.dropWhile, Cursor.ahead_drop]
      exact hahead.drop _
    have hquotes : cursor.skipBlanks.ahead.head? ≠ some '"' ∧
        cursor.skipBlanks.ahead.head? ≠ some '\'' := by
      cases hcase : cursor.skipBlanks.ahead with
      | nil => simp
      | cons c rest =>
        rw [hcase] at hskipped
        exact ⟨fun hequal => hskipped.1.1 (some.inj hequal),
          fun hequal => hskipped.1.2 (some.inj hequal)⟩
    have hread : Comment.read? cursor.skipBlanks = none := by
      rw [Comment.read?.eq_def]
      split
      case h_1 body hbody =>
        rw [hbody] at hskipped
        exact absurd rfl (hskipped.2.1 rfl).2
      case h_2 body hbody =>
        rw [hbody] at hskipped
        exact absurd rfl (hskipped.2.1 rfl).1
      case h_3 => rfl
    have hnext : Uncommented cursor.skipBlanks.next.ahead := by
      have hdrop := hskipped.drop 1
      rwa [← Cursor.ahead_drop] at hdrop
    rw [Comment.scanUpTo]
    simp only [quotedHere_eq_failed hquotes.1 hquotes.2, hread]
    split
    · rfl
    · exact ih hnext

variable {rest : List Char}

theorem Uncommented.append {chars : List Char} (hrest : Uncommented rest)
    (hchars : ∀ c ∈ chars, c ≠ '"' ∧ c ≠ '\'' ∧ c ≠ '/') : Uncommented (chars ++ rest) := by
  induction chars with
  | nil => exact hrest
  | cons c chars ih =>
    rw [forall_mem_cons] at hchars
    obtain ⟨⟨hdouble, hsingle, hslash⟩, hchars⟩ := hchars
    exact ⟨⟨hdouble, hsingle⟩, fun hequal => absurd hequal hslash, ih hchars⟩

/-- The one token with a slash in it is followed by a space. -/
theorem Token.uncommented_append (token : Token) (hrest : Uncommented rest)
    (hspace : ∀ c, rest.head? = some c → c = ' ') : Uncommented (token.chars ++ rest) := by
  cases token with
  | name word =>
    refine hrest.append fun c hc => ?_
    have hplain := word.chars c hc
    refine ⟨?_, ?_, ?_⟩ <;>
      · rintro rfl
        simp at hplain
  | numeral digits =>
    refine hrest.append fun c hc => ?_
    have hmem := digits.mem_chars hc
    refine ⟨?_, ?_, ?_⟩ <;>
      · rintro rfl
        exact absurd hmem (by decide)
  | operator sign =>
    by_cases hdivide : sign = .divide
    · subst hdivide
      refine ⟨by decide, fun _ => ⟨fun hequal => ?_, fun hequal => ?_⟩, hrest⟩
      · exact absurd (hspace _ hequal) (by decide)
      · exact absurd (hspace _ hequal) (by decide)
    · have hall : sign ≠ .divide →
          sign.toText.toList.all (fun c => c ≠ '"' ∧ c ≠ '\'' ∧ c ≠ '/') = true := by
        cases sign <;> decide
      exact hrest.append fun c hc =>
        of_decide_eq_true (all_eq_true.mp (hall hdivide) c hc)
  | mark sign =>
    have hall : sign.chars.all (fun c => c ≠ '"' ∧ c ≠ '\'' ∧ c ≠ '/') = true := by
      cases sign <;> decide
    exact hrest.append fun c hc => of_decide_eq_true (all_eq_true.mp hall c hc)

theorem uncommented_spaced (tokens : List Token) : Uncommented (spaced tokens) := by
  induction tokens with
  | nil => trivial
  | cons token tokens ih =>
    exact ⟨by decide, fun hequal => absurd hequal (by decide),
      token.uncommented_append ih fun c hc => ScriptGrammar.eq_space_of_head?_spaced hc⟩

namespace PlainExpr

/-- Written with single spaces between its tokens and with parentheses only where its parts ask
for them, an expression is a script of one statement, and that statement is the expression
again. -/
theorem parse_written (bare : Bool) (tree : PlainExpr) :
    ∃ program loc expression, Program.parse (tree.written bare) = .ok program ∧
      program.body = [.expression loc expression] ∧ program.comments = [] ∧
      tree.Matches expression := by
  obtain ⟨token, rest, htokens, -⟩ := lead_tokens bare tree
  have hspaced : spaced (tree.tokens bare) = ' ' :: tree.written bare :=
    spaced_eq_intercalate (by rw [htokens]; exact List.cons_ne_nil _ _)
  have huncommented : Uncommented (tree.written bare) := by
    have hall := uncommented_spaced (tree.tokens bare)
    rw [hspaced] at hall
    exact hall.2.2
  have hscan : Comment.scan (tree.written bare) = [] := huncommented.scanUpTo _
  have hreads := ScriptGrammar.reads_statements bare tree
  rw [hspaced] at hreads
  obtain ⟨body, hrun, loc, expression, rfl, hmatches⟩ :=
    (Reads.of_skipped (skipped_cons_of_isBlank rfl).symm hreads).run
  refine ⟨⟨.ofOffsets (tree.written bare) 0 (tree.written bare).length,
    [.expression loc expression], []⟩, loc, expression, ?_, rfl, rfl, hmatches⟩
  have herase : Comment.eraseAll (tree.written bare) [] = tree.written bare := rfl
  rw [Program.parse]
  simp only [hscan, herase, hrun]
  rfl

end PlainExpr

end RowScript
