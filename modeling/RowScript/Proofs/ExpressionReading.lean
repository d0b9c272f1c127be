import RowScript.Proofs.ExpressionBounds

/-!
# Reading written expressions

What is known about the expressions inside others is an assumption on the parser for them, up to a
number of tokens. A chain of operators, or of member names and calls, is read from its first part
on, so these proofs walk down the left side of a tree.
-/

namespace RowScript

open Text Parser List

/-! ## Member names and calls -/

/-- What stands behind an expression: a member name or arguments. -/
inductive PlainSuffix where
  | member (property : PlainName)
  | call (arguments : List PlainExpr)

namespace PlainSuffix

def onto (object : PlainExpr) : PlainSuffix → PlainExpr
  | .member property => .member object property
  | .call arguments => .call object arguments

def tokens (bare : Bool) : PlainSuffix → List Token
  | .member property => [.mark .dot, .name property]
  | .call arguments => Token.parenthesized (Token.separated (arguments.map (PlainExpr.tokens bare)))

def Matches : PlainSuffix → ScriptGrammar.Suffix → Prop
  | .member property, .member _ id => id.name = property.text
  | .call arguments, .call _ values => Forall₂ PlainExpr.Matches arguments values
  | _, _ => False

variable {tree : PlainExpr} {object : Expr}

theorem matches_onto {suffix : PlainSuffix} {value : ScriptGrammar.Suffix}
    (hsuffix : suffix.Matches value) (htree : tree.Matches object) :
    (suffix.onto tree).Matches (value.onto object) := by
  cases suffix <;> cases value
  case member.member => exact ⟨htree, hsuffix⟩
  case call.call => exact ⟨htree, PlainExpr.matchesEach_iff.mpr hsuffix⟩
  all_goals exact hsuffix.elim

theorem matches_foldl {suffixes : List PlainSuffix} {values : List ScriptGrammar.Suffix}
    (hsuffixes : Forall₂ Matches suffixes values) (htree : tree.Matches object) :
    (suffixes.foldl onto tree).Matches (values.foldl ScriptGrammar.Suffix.onto object) := by
  induction hsuffixes generalizing tree object with
  | nil => exact htree
  | cons hsuffix _ ih => exact ih (matches_onto hsuffix htree)

end PlainSuffix

namespace PlainExpr

theorem tokensEach_eq_map (bare : Bool) (trees : List PlainExpr) :
    tokensEach bare trees = trees.map (tokens bare) := by
  induction trees with
  | nil => rfl
  | cons tree trees ih => rw [tokensEach, ih, map_cons]

theorem tokensAt_member (bare : Bool) (object : PlainExpr) (property : PlainName) :
    (member object property).tokensAt bare 8 =
      object.tokensAt bare 8 ++ (PlainSuffix.member property).tokens bare := rfl

theorem tokensAt_call (bare : Bool) (callee : PlainExpr) (arguments : List PlainExpr) :
    (call callee arguments).tokensAt bare 8 =
      callee.tokensAt bare 8 ++ (PlainSuffix.call arguments).tokens bare := by
  show (call callee arguments).tokens bare = _
  rw [tokens, tokensEach_eq_map]
  rfl

variable {bare : Bool} {place : Nat} {tree : PlainExpr}

theorem tokensAt_of_level_lt (hlevel : tree.level < place) :
    tree.tokensAt bare place = Token.parenthesized (tree.tokens bare) := if_pos hlevel

theorem tokensAt_of_le_level (hlevel : place ≤ tree.level) :
    tree.tokensAt bare place = tree.tokens bare :=
  if_neg (Nat.not_lt.mpr hlevel)

/-- Two places are the same to an expression unless its level lies between them. -/
theorem tokensAt_succ (hlevel : tree.level ≠ place) :
    tree.tokensAt bare place = tree.tokensAt bare (place + 1) := by
  by_cases hlt : tree.level < place
  · rw [tokensAt_of_level_lt hlt, tokensAt_of_level_lt (Nat.lt_succ_of_lt hlt)]
  · rw [tokensAt_of_le_level (by omega), tokensAt_of_le_level (by omega)]

end PlainExpr

/-- The parser reads the written expressions of at most so many tokens, and nothing where a
parenthesis closes. -/
structure ReadsUpTo (bare : Bool) (bound : Nat) (expression : Parser Expr) : Prop where
  reads : ∀ (tree : PlainExpr) (rest : List Token), (tree.tokens bare).length ≤ bound →
    Ends 0 rest →
      expression.Reads (spaced (tree.tokens bare ++ rest)) (spaced rest) tree.Matches
  refuses : ∀ tokens, Closed tokens → expression.Refuses (spaced tokens)

namespace ScriptGrammar

theorem closed_cons (rest : List Token) : Closed (.mark .closing :: rest) :=
  fun _ hsome => (Option.some.inj hsome).symm

variable {spelling : String}

theorem refuses_symbol_of_closed {tokens : List Token}
    (hblank : ' ' ∉ spelling.toList ∧ spelling.toList ≠ [])
    (hclosing : spelling.toList.isPrefixOf [')'] = false) (hclosed : Closed tokens) :
    (symbol spelling).Refuses (spaced tokens) := by
  refine refuses_symbol hblank fun token htoken => ?_
  obtain rfl := hclosed token htoken
  exact hclosing

theorem refuses_symbol_of_ends {rest : List Token} (hspelling : spelling ∈ [".", "[", "("])
    (hends : Ends 7 rest) : (symbol spelling).Refuses (spaced rest) := by
  have hshape : ∀ spelling ∈ [".", "[", "("],
      ' ' ∉ String.toList spelling ∧ String.toList spelling ≠ [] := by decide
  refine refuses_symbol (hshape spelling hspelling) fun token htoken => ?_
  have hrank := hends token htoken
  cases token with
  | name word | numeral digits =>
    have hrank : 9 ≤ 7 := hrank
    omega
  | operator sign =>
    have hall : ∀ spelling ∈ [".", "[", "("],
        (String.toList spelling).isPrefixOf sign.toText.toList = false := by
      cases sign <;> decide
    exact hall spelling hspelling
  | mark sign =>
    revert hrank
    have hall : (Token.mark sign).rank ≤ 7 → ∀ spelling ∈ [".", "[", "("],
        (String.toList spelling).isPrefixOf sign.chars = false := by
      cases sign <;> decide
    exact fun hrank => hall hrank spelling hspelling

section

variable {expression : Parser Expr} {bare : Bool} {bound : Nat}
  (hexpression : ReadsUpTo bare bound expression) {rest tokens : List Token} {tree : PlainExpr}
  {suffixes : List PlainSuffix}
include hexpression

theorem reads_element (hbound : (tree.tokens bare).length ≤ bound) (hends : Ends 0 rest) :
    (element expression).Reads (spaced (tree.tokens bare ++ rest)) (spaced rest) tree.Matches := by
  have hlead := (PlainExpr.lead_tokens bare tree).append rest
  exact Refuses.orElse_reads (Refuses.bind (Refuses.located (Refuses.bind (refuses_dots hlead))))
    (hexpression.reads tree rest hbound hends)

theorem refuses_element (hclosed : Closed tokens) : (element expression).Refuses (spaced tokens) :=
  Refuses.orElse
    (Refuses.bind (Refuses.located (Refuses.bind
      (refuses_symbol_of_closed (by decide) (by decide) hclosed))))
    (hexpression.refuses tokens hclosed)

theorem reads_suffix {inner : PlainSuffix} (hbound : (inner.tokens bare).length ≤ bound) :
    (suffix expression).Reads (spaced (inner.tokens bare ++ rest)) (spaced rest) inner.Matches := by
  cases inner with
  | member property =>
    refine Reads.orElse (Reads.located_bind ?_ fun _ _ hname => .pure hname)
    exact (reads_mark rfl).bind fun _ _ => reads_memberName
  | call arguments =>
    have hopening : ∀ {spelling : String}, ' ' ∉ spelling.toList ∧ spelling.toList ≠ [] →
        spelling.toList.isPrefixOf ['('] = false →
        (symbol spelling).Refuses
          (spaced ((PlainSuffix.call arguments).tokens bare ++ rest)) := by
      intro spelling hblank hlead
      refine refuses_symbol hblank fun token htoken => ?_
      obtain rfl := Option.some.inj htoken
      exact hlead
    refine Refuses.orElse_reads (Refuses.bind (Refuses.located (Refuses.bind
      (hopening (by decide) (by decide))))) (Refuses.orElse_reads (Refuses.bind (Refuses.located
        (Refuses.bind (hopening (by decide) (by decide))))) (Reads.located_bind ?_
          fun _ _ hvalues => .pure hvalues))
    refine reads_list (refuses_element hexpression (closed_cons rest))
      fun tree htree others hends => reads_element hexpression ?_ hends
    have hlength :=
      Token.length_le_separated (mem_map_of_mem htree (f := PlainExpr.tokens bare))
    rw [PlainSuffix.tokens, Token.length_parenthesized] at hbound
    omega

omit hexpression in
theorem refuses_suffix (hends : Ends 7 rest) : (suffix expression).Refuses (spaced rest) :=
  Refuses.orElse
    (Refuses.bind (Refuses.located (Refuses.bind (refuses_symbol_of_ends (by decide) hends))))
    (Refuses.orElse
      (Refuses.bind (Refuses.located (Refuses.bind (refuses_symbol_of_ends (by decide) hends))))
      (Refuses.bind (Refuses.located (Refuses.bind (refuses_symbol_of_ends (by decide) hends)))))

omit hexpression in
theorem reads_primary_name {word : PlainName} :
    (primary expression).Reads (spaced (.name word :: rest)) (spaced rest)
      (PlainExpr.name word).Matches := by
  refine Refuses.orElse_reads (Refuses.map (refuses_literal fun token htoken => ?_))
    (Reads.orElse (Reads.map reads_identifier))
  exact .inr (.inr ⟨word, (Option.some.inj htoken).symm⟩)

omit hexpression in
theorem reads_primary_number {digits : Numeral} :
    (primary expression).Reads (spaced (.numeral digits :: rest)) (spaced rest)
      (PlainExpr.number digits).Matches :=
  Reads.orElse (Reads.map (Reads.orElse reads_number))

/-- An expression in parentheses, not taken for an object or an array. -/
theorem reads_primary_parenthesized (hbound : (tree.tokens bare).length ≤ bound) :
    (primary expression).Reads (spaced (Token.parenthesized (tree.tokens bare) ++ rest))
      (spaced rest) tree.Matches := by
  have hopening : ∀ token, (Token.parenthesized (tree.tokens bare) ++ rest).head? = some token →
      token = .mark .opening := fun token htoken => (Option.some.inj htoken).symm
  have hlead : Lead (Token.parenthesized (tree.tokens bare) ++ rest) := ⟨_, _, rfl, rfl⟩
  have htokens : Token.parenthesized (tree.tokens bare) ++ rest =
      .mark .opening :: (tree.tokens bare ++ .mark .closing :: rest) := by
    simp [Token.parenthesized]
  refine Refuses.orElse_reads (Refuses.map (refuses_literal fun token htoken =>
    .inl (hopening token htoken))) (Refuses.orElse_reads (Refuses.map (refuses_name_of_parenthesis
      fun token htoken => .inl (hopening token htoken))) (Refuses.orElse_reads (Refuses.bind
        (Refuses.located (Refuses.bind (refuses_symbol_of_lead hlead (c := '\x7b') rfl (by decide)
          (by decide))))) (Refuses.orElse_reads (Refuses.bind (Refuses.located (Refuses.bind
            (refuses_symbol_of_lead hlead (c := '[') rfl (by decide) (by decide))))) ?_)))
  rw [htokens]
  have hends : Ends 0 (.mark .closing :: rest) := ends_cons (Nat.le_refl 0)
  exact (reads_mark rfl).bind fun _ _ => (hexpression.reads tree _ hbound hends).bind
    fun _ hinner => (reads_mark rfl).bind fun _ _ => .pure hinner

/-- A chain of suffixes behind something that is read by itself. -/
theorem reads_suffixed
    (hprimary : ∀ others, (primary expression).Reads (spaced (tokens ++ others)) (spaced others)
      tree.Matches) (hbound : (suffixes.flatMap (PlainSuffix.tokens bare)).length ≤ bound)
    (hends : Ends 7 rest) :
    (suffixed expression).Reads
      (spaced (tokens ++ (suffixes.flatMap (PlainSuffix.tokens bare) ++ rest))) (spaced rest)
      (suffixes.foldl PlainSuffix.onto tree).Matches := by
  have hsuffixes : (suffix expression).many.Reads
      (spaced (suffixes.flatMap (PlainSuffix.tokens bare) ++ rest)) (spaced rest)
      (Forall₂ PlainSuffix.Matches suffixes) := by
    refine reads_many (refuses_suffix hends) (fun inner hinner others => ?_) fun inner _ => ?_
    · refine reads_suffix hexpression ?_
      exact le_trans (length_le_flatMap _ hinner) hbound
    · cases inner <;> exact cons_ne_nil _ _
  exact (hprimary _).bind fun _ htree => hsuffixes.bind fun _ hvalues =>
    .pure (PlainSuffix.matches_foldl hvalues htree)

theorem reads_suffixed_parenthesized (hlevel : tree.level < 8)
    (hbound : (tree.tokensAt bare 8 ++ suffixes.flatMap (PlainSuffix.tokens bare)).length ≤ bound +
      1) (hends : Ends 7 rest) :
    (suffixed expression).Reads
      (spaced (tree.tokensAt bare 8 ++ (suffixes.flatMap (PlainSuffix.tokens bare) ++ rest)))
      (spaced rest) (suffixes.foldl PlainSuffix.onto tree).Matches := by
  rw [PlainExpr.tokensAt_of_level_lt hlevel, length_append,
    Token.length_parenthesized] at hbound
  rw [PlainExpr.tokensAt_of_level_lt hlevel]
  exact reads_suffixed hexpression
    (fun others => reads_primary_parenthesized hexpression (by omega)) (by omega) hends

/-- An expression at the place before a suffix, with the suffixes that follow it. Member names
and calls are taken off the tree one by one and become the first of these. -/
theorem reads_chain (hends : Ends 7 rest) :
    ∀ (tree : PlainExpr) (suffixes : List PlainSuffix),
      (tree.tokensAt bare 8 ++ suffixes.flatMap (PlainSuffix.tokens bare)).length ≤ bound + 1 →
      (suffixed expression).Reads
        (spaced (tree.tokensAt bare 8 ++ (suffixes.flatMap (PlainSuffix.tokens bare) ++ rest)))
        (spaced rest) (suffixes.foldl PlainSuffix.onto tree).Matches
  | .member object property, suffixes, hbound => by
    have htokens := PlainExpr.tokensAt_member bare object property
    have hchain := reads_chain hends object (.member property :: suffixes)
    rw [flatMap_cons, ← append_assoc, ← htokens] at hchain
    rw [htokens, append_assoc]
    simpa only [flatMap_cons, append_assoc, foldl_cons, PlainSuffix.onto]
      using hchain hbound
  | .call callee arguments, suffixes, hbound => by
    have htokens := PlainExpr.tokensAt_call bare callee arguments
    have hchain := reads_chain hends callee (.call arguments :: suffixes)
    rw [flatMap_cons, ← append_assoc, ← htokens] at hchain
    rw [htokens, append_assoc]
    simpa only [flatMap_cons, append_assoc, foldl_cons, PlainSuffix.onto]
      using hchain hbound
  | .name word, suffixes, hbound => by
    have htokens : (PlainExpr.name word).tokensAt bare 8 = [.name word] := rfl
    rw [htokens, length_append, length_singleton] at hbound
    rw [htokens]
    exact reads_suffixed hexpression (fun others => reads_primary_name) (by omega) hends
  | .number _, _, hbound | .conditional _ _ _, _, hbound | .arrow _ _, _, hbound =>
    reads_suffixed_parenthesized hexpression (by simp [PlainExpr.level]) hbound hends
  | .binary operator _ _, _, hbound => by
    have hlevel := operator.level_le
    refine reads_suffixed_parenthesized hexpression ?_ hbound hends
    rw [PlainExpr.level]
    omega

/-- What stands at the place of an operand of the tightest operators. -/
theorem reads_unary (hbound : (tree.tokensAt bare 7).length ≤ bound + 1) (hends : Ends 7 rest) :
    (unary expression).Reads (spaced (tree.tokensAt bare 7 ++ rest)) (spaced rest) tree.Matches :=
    by
  have hsuffixed : (suffixed expression).Reads (spaced (tree.tokensAt bare 7 ++ rest))
      (spaced rest) tree.Matches := by
    by_cases hnumber : ∃ digits, tree = .number digits
    · obtain ⟨digits, rfl⟩ := hnumber
      show (suffixed expression).Reads
        (spaced ([.numeral digits] ++ ([].flatMap (PlainSuffix.tokens bare) ++ rest))) (spaced rest)
        ([].foldl PlainSuffix.onto (.number digits)).Matches
      exact reads_suffixed hexpression (fun others => reads_primary_number) (Nat.zero_le _) hends
    · have hlevel : tree.level ≠ 7 := by
        cases tree with
        | number digits => exact absurd ⟨digits, rfl⟩ hnumber
        | binary operator left right =>
          have hlevel := operator.level_le
          rw [PlainExpr.level]
          omega
        | _ => simp [PlainExpr.level]
      rw [PlainExpr.tokensAt_succ hlevel] at hbound ⊢
      have hchain := reads_chain hexpression hends tree []
      rw [flatMap_nil, append_nil] at hchain
      exact hchain hbound
  have hlead := (PlainExpr.lead_tokensAt bare 7 tree).append rest
  have hupTo : ∀ n, (unaryUpTo expression n).Reads (spaced (tree.tokensAt bare 7 ++ rest))
      (spaced rest) tree.Matches := by
    intro n
    cases n with
    | zero => exact hsuffixed
    | succ n =>
      exact Refuses.orElse_reads (Refuses.bind (Refuses.located
        (Refuses.bind (refuses_unaryOperator hlead)))) hsuffixed
  exact fun cursor => hupTo _ cursor

end

/-! ## Operators -/

/-- An operator of a level, and the operand behind it. -/
abbrev Operation (place : Nat) : Type :=
  {operator : BinaryOperator // operator.level = place} × PlainExpr

namespace Operation

variable {place : Nat}

def onto (left : PlainExpr) (operation : Operation place) : PlainExpr :=
  .binary operation.1 left operation.2

def tokens (bare : Bool) (operation : Operation place) : List Token :=
  .operator operation.1 :: operation.2.tokensAt bare (place + 1)

theorem matches_foldl {operations : List (Operation place)} {others : List (BinaryOperator × Expr)}
    (hothers : Forall₂ (fun operation other =>
      other.1 = operation.1.1 ∧ operation.2.Matches other.2) operations others) {tree : PlainExpr}
    {left : Expr} (htree : tree.Matches left) :
    (operations.foldl onto tree).Matches (others.foldl
      (fun left other => .binary (left.loc.span other.2.loc) other.1 left other.2) left) := by
  induction hothers generalizing tree left with
  | nil => exact htree
  | @cons operation other _ _ hother _ ih => exact ih ⟨hother.1, htree, hother.2⟩

end Operation

section

variable {bare : Bool} {bound place : Nat} {operand : Parser Expr} {rest : List Token}
  {operators : List BinaryOperator} (hlevel : IsLevel place operators)
  (hoperand : ∀ (tree : PlainExpr) (rest : List Token),
    (tree.tokensAt bare (place + 1)).length ≤ bound → Ends (place + 1) rest →
      operand.Reads (spaced (tree.tokensAt bare (place + 1) ++ rest)) (spaced rest) tree.Matches)
  (hends : Ends place rest)
include hlevel hoperand hends

/-- An operand, and the operations of the level behind it. -/
theorem reads_operations_of_ne {tree : PlainExpr} (htree : tree.level ≠ place)
    {operations : List (Operation place)}
    (hbound : (tree.tokensAt bare place ++
      operations.flatMap (Operation.tokens bare)).length ≤ bound) :
    (binaryLevel operators operand).Reads
      (spaced (tree.tokensAt bare place ++ (operations.flatMap (Operation.tokens bare) ++ rest)))
      (spaced rest) (operations.foldl Operation.onto tree).Matches := by
  have hfollow : ∀ operations : List (Operation place),
      Ends (place + 1) (operations.flatMap (Operation.tokens bare) ++ rest) := by
    intro operations
    cases operations with
    | nil => exact hends.mono (Nat.le_succ _)
    | cons operation operations =>
      refine ends_cons ?_
      rw [Token.rank, operation.1.2]
  rw [length_append] at hbound
  have hothers : Parser.Reads (manyOrBlanks (do
        let operator ← oneOf (operators.map fun operator => (operator.toText, operator))
        let right ← operand
        return (operator, right)))
      (spaced (operations.flatMap (Operation.tokens bare) ++ rest)) (spaced rest)
      (Forall₂ (fun operation other =>
        other.1 = operation.1.1 ∧ operation.2.Matches other.2) operations) := by
    refine reads_manyOrBlanks (reads_many (Refuses.bind (refuses_operators hlevel hends))
      (fun operation hoperation others => ?_) fun _ _ => cons_ne_nil _ _)
    have hlength := length_le_flatMap (Operation.tokens bare) hoperation
    rw [Operation.tokens, length_cons] at hlength
    refine (reads_operators hlevel operation.1.2).bind fun operator hoperator => ?_
    exact (hoperand _ _ (by omega) (hfollow others)).bind fun right hright =>
      .pure ⟨hoperator, hright⟩
  rw [PlainExpr.tokensAt_succ htree] at hbound ⊢
  exact (hoperand tree _ (by omega) (hfollow operations)).bind fun left hleft =>
    hothers.bind fun others hothers => .pure (Operation.matches_foldl hothers hleft)

/-- The operations of one level. They are taken off the tree from the last to the first, so
that what is left of the tree is the first operand. -/
theorem reads_operations (hpositive : 0 < place) (hplace : place < 7) :
    ∀ (tree : PlainExpr) (operations : List (Operation place)),
      (tree.tokensAt bare place ++ operations.flatMap (Operation.tokens bare)).length ≤ bound →
      (binaryLevel operators operand).Reads
        (spaced (tree.tokensAt bare place ++ (operations.flatMap (Operation.tokens bare) ++ rest)))
        (spaced rest) (operations.foldl Operation.onto tree).Matches
  | .binary operator left right, operations, hbound => by
    by_cases hoperator : operator.level = place
    · have htokens : (PlainExpr.binary operator left right).tokensAt bare place =
          left.tokensAt bare place ++
            Operation.tokens bare (⟨operator, hoperator⟩, right) := by
        rw [PlainExpr.tokensAt_of_le_level (le_of_eq hoperator.symm), PlainExpr.tokens, hoperator]
        rfl
      have hreads := reads_operations hpositive hplace left
        ((⟨operator, hoperator⟩, right) :: operations)
      rw [flatMap_cons, ← append_assoc, ← htokens] at hreads
      rw [htokens, append_assoc]
      simpa only [flatMap_cons, append_assoc, foldl_cons, Operation.onto]
        using hreads hbound
    · refine reads_operations_of_ne hlevel hoperand hends ?_ hbound
      exact hoperator
  | .name _, _, hbound | .number _, _, hbound | .member _ _, _, hbound | .call _ _, _, hbound
  | .conditional _ _ _, _, hbound | .arrow _ _, _, hbound =>
    reads_operations_of_ne hlevel hoperand hends
      (by rw [PlainExpr.level]; omega) hbound

end

/-- The parser reads what stands at a place, if it ends there. -/
def ReadsAt (bare : Bool) (bound place : Nat) (operand : Parser Expr) : Prop :=
  ∀ (tree : PlainExpr) (rest : List Token), (tree.tokensAt bare place).length ≤ bound →
    Ends place rest →
      operand.Reads (spaced (tree.tokensAt bare place ++ rest)) (spaced rest) tree.Matches

theorem readsAt_binaryLevel {bare : Bool} {bound place : Nat} {operand : Parser Expr}
    {operators : List BinaryOperator} (hlevel : IsLevel place operators) (hpositive : 0 < place)
    (hplace : place < 7) (hoperand : ReadsAt bare bound (place + 1) operand) :
    ReadsAt bare bound place (binaryLevel operators operand) := by
  intro tree rest hbound hends
  have hreads := reads_operations hlevel hoperand hends hpositive hplace tree []
  rw [flatMap_nil, append_nil] at hreads
  exact hreads hbound

section

variable {expression : Parser Expr} {statement : Parser (Option Statement)} {bare : Bool}
  {bound : Nat} (hexpression : ReadsUpTo bare bound expression) {rest : List Token}
  {params : List PlainName}
include hexpression

theorem readsAt_binary : ReadsAt bare (bound + 1) 1 (binary expression) := by
  have hunary : ReadsAt bare (bound + 1) 7 (unary expression) := fun tree rest hbound hends =>
    reads_unary hexpression hbound hends
  have hmultiply : IsLevel 6 [.multiply, .divide, .remainder] :=
    ⟨fun operator => by cases operator <;> decide, by decide⟩
  have hadd : IsLevel 5 [.add, .subtract] :=
    ⟨fun operator => by cases operator <;> decide, by decide⟩
  have hless : IsLevel 4 [.lessOrEqual, .greaterOrEqual, .less, .greater] :=
    ⟨fun operator => by cases operator <;> decide, by decide⟩
  have hequal : IsLevel 3 [.identical, .notIdentical, .equal, .notEqual] :=
    ⟨fun operator => by cases operator <;> decide, by decide⟩
  have hand : IsLevel 2 [.and] := ⟨fun operator => by cases operator <;> decide, by decide⟩
  have hor : IsLevel 1 [.or, .coalesce] := ⟨fun operator => by cases operator <;> decide, by decide⟩
  exact readsAt_binaryLevel hor (by decide) (by decide)
    (readsAt_binaryLevel hand (by decide) (by decide)
      (readsAt_binaryLevel hequal (by decide) (by decide)
        (readsAt_binaryLevel hless (by decide) (by decide)
          (readsAt_binaryLevel hadd (by decide) (by decide)
            (readsAt_binaryLevel hmultiply (by decide) (by decide) hunary)))))

omit hexpression in
theorem refuses_question (hends : Ends 0 rest) : (symbol "?").Refuses (spaced rest) := by
  refine refuses_symbol (by decide) fun token htoken => ?_
  have hrank := hends token htoken
  cases token with
  | name word | numeral digits =>
    have hrank : 9 ≤ 0 := hrank
    omega
  | operator sign =>
    have hrank : sign.level + 1 ≤ 0 := hrank
    omega
  | mark sign =>
    have hall : (Token.mark sign).rank ≤ 0 → "?".toList.isPrefixOf sign.chars = false := by
      cases sign <;> decide
    exact hall hrank

theorem reads_conditional_of_test {tree : PlainExpr} (htree : 1 ≤ tree.level)
    (hbound : (tree.tokens bare).length ≤ bound + 1) (hends : Ends 0 rest) :
    (conditional expression).Reads (spaced (tree.tokens bare ++ rest)) (spaced rest)
      tree.Matches := by
  rw [← PlainExpr.tokensAt_of_le_level htree] at hbound ⊢
  have htest := readsAt_binary hexpression tree rest hbound (hends.mono (Nat.zero_le _))
  refine Reads.located_bind (P := fun (result : Expr × Option (Expr × Expr)) =>
    tree.Matches result.1 ∧ result.2 = none) ?_ fun loc result hresult => ?_
  · exact htest.bind fun _ htest => (Refuses.optional (Refuses.bind (refuses_question hends))).bind
      fun _ hbranches => .pure ⟨htest, hbranches⟩
  · obtain ⟨test, branches⟩ := result
    obtain ⟨htest, rfl⟩ := hresult
    exact .pure htest

theorem reads_conditional {test consequent alternate : PlainExpr}
    (hbound : ((PlainExpr.conditional test consequent alternate).tokens bare).length ≤ bound + 1)
    (hends : Ends 0 rest) :
    (conditional expression).Reads
      (spaced ((PlainExpr.conditional test consequent alternate).tokens bare ++ rest)) (spaced rest)
      (PlainExpr.conditional test consequent alternate).Matches := by
  have htokens : (PlainExpr.conditional test consequent alternate).tokens bare =
      test.tokensAt bare 1 ++ .mark .question ::
        (consequent.tokens bare ++ .mark .colon :: alternate.tokens bare) := rfl
  rw [htokens] at hbound ⊢
  simp only [length_append, length_cons] at hbound
  simp only [append_assoc, cons_append]
  have htest := readsAt_binary hexpression test
    (.mark .question :: (consequent.tokens bare ++ .mark .colon :: (alternate.tokens bare ++ rest)))
    (by omega) (ends_cons (Nat.le_refl 1))
  have hconsequent := hexpression.reads consequent (.mark .colon :: (alternate.tokens bare ++ rest))
    (by omega) (ends_cons (Nat.le_refl 0))
  have halternate := hexpression.reads alternate rest (by omega) hends
  refine Reads.located_bind (P := fun (result : Expr × Option (Expr × Expr)) =>
    test.Matches result.1 ∧ ∃ branches, result.2 = some branches ∧
      consequent.Matches branches.1 ∧ alternate.Matches branches.2) ?_ fun loc result hresult => ?_
  · refine htest.bind fun _ htest => Reads.bind (Reads.optional ?_) fun _ hbranches =>
      .pure ⟨htest, hbranches⟩
    refine (reads_mark rfl).bind fun _ _ => Reads.commit ?_
    exact hconsequent.bind fun _ hconsequent => (reads_mark rfl).bind fun _ _ =>
      halternate.bind fun _ halternate => .pure ⟨hconsequent, halternate⟩
  · obtain ⟨found, branches⟩ := result
    obtain ⟨htest, branches, rfl, hbranches⟩ := hresult
    exact .pure ⟨htest, hbranches⟩

/-! ## Functions -/

omit hexpression in
theorem map_name_of_forall₂ {ids : List Identifier}
    (hids : Forall₂ (fun param id => id.name = PlainName.text param) params ids) :
    ids.map (·.name) = params.map (·.text) := by
  induction hids with
  | nil => rfl
  | cons hid _ ih => rw [map_cons, map_cons, hid, ih]

omit hexpression in
theorem reads_arrowParams (params : List PlainName) :
    arrowParams.Reads (spaced (PlainExpr.paramTokens bare params ++ rest)) (spaced rest)
      fun ids => ids.map (·.name) = params.map (·.text) := by
  by_cases hbare : ∃ param, params = [param] ∧ bare = true
  · obtain ⟨param, rfl, rfl⟩ := hbare
    exact Reads.orElse (reads_identifier.bind fun id hid => .pure (by simp [hid]))
  · have htokens : PlainExpr.paramTokens bare params =
        Token.parenthesized (Token.separated (params.map fun param => [.name param])) := by
      rw [PlainExpr.paramTokens.eq_def]
      split
      · rw [if_neg fun htrue => hbare ⟨_, rfl, htrue⟩]
        rfl
      · rfl
    have hlist : (between "(" ")" (commaSeparated identifier)).Reads
        (spaced (Token.parenthesized (Token.separated (params.map fun param => [.name param])) ++
          rest)) (spaced rest) (Forall₂ (fun param id => id.name = param.text) params) := by
      refine reads_list (refuses_name_of_parenthesis fun token htoken => ?_) fun param _ others _ =>
        reads_identifier
      exact .inr (.inl (Option.some.inj htoken).symm)
    rw [htokens]
    refine Refuses.orElse_reads (Refuses.bind (refuses_name_of_parenthesis fun token htoken => ?_))
      (hlist.imp fun ids hids => map_name_of_forall₂ hids)
    exact .inl (Option.some.inj htoken).symm

omit hexpression in
theorem refuses_block {tokens : List Token} (hlead : Lead tokens ∨ Closed tokens) :
    (block statement).Refuses (spaced tokens) := by
  refine Refuses.bind (Refuses.located (Refuses.bind ?_))
  obtain hlead | hclosed := hlead
  · exact refuses_symbol_of_lead hlead (c := '\x7b') rfl (by decide) (by decide)
  · exact refuses_symbol_of_closed (by decide) (by decide) hclosed

theorem reads_arrow {body : PlainExpr}
    (hbound : ((PlainExpr.arrow params body).tokens bare).length ≤ bound + 1)
    (hends : Ends 0 rest) :
    (arrow expression statement).Reads (spaced ((PlainExpr.arrow params body).tokens bare ++ rest))
      (spaced rest) (PlainExpr.arrow params body).Matches := by
  have htokens : (PlainExpr.arrow params body).tokens bare =
      PlainExpr.paramTokens bare params ++ .mark .arrow :: body.tokens bare := rfl
  rw [htokens] at hbound ⊢
  simp only [length_append, length_cons] at hbound
  simp only [append_assoc, cons_append]
  have hlead := (PlainExpr.lead_tokens bare body).append rest
  have hbody : Parser.Reads (Body.block <$> block statement <|> Body.expression <$> expression)
      (spaced (body.tokens bare ++ rest)) (spaced rest)
      fun found => ∃ inner, found = .expression inner ∧ body.Matches inner := by
    refine Refuses.orElse_reads (Refuses.map (refuses_block (.inl hlead))) (Reads.map ?_)
    exact (hexpression.reads body rest (by omega) hends).imp
      fun inner hinner => ⟨inner, rfl, hinner⟩
  refine Reads.located_bind (P := fun (result : List Identifier × Body) =>
    result.1.map (·.name) = params.map (·.text) ∧
      ∃ inner, result.2 = .expression inner ∧ body.Matches inner) ?_ fun loc result hresult => ?_
  · exact (reads_arrowParams params).bind fun _ hparams => (reads_mark rfl).bind fun _ _ =>
      hbody.commit.bind fun _ hbody => .pure ⟨hparams, hbody⟩
  · obtain ⟨ids, found⟩ := result
    obtain ⟨hparams, inner, rfl, hinner⟩ := hresult
    exact .pure ⟨hparams, hinner⟩

end

end ScriptGrammar

end RowScript
