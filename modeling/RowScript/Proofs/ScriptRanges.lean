import RowScript.Proofs.SourceTrees
import RowScript.Script.Grammar

/-!
# The ranges of a script

A tree is *laid out* if every part of it lies inside the whole and parts that follow one another do
not overlap. What is read from a script is laid out; the proof follows the grammar, one lemma for
each production.
-/

namespace RowScript

open Text

mutual

/-- Every part of the expression lies inside of it, and its parts stand in order. -/
def Expr.Laid : Expr → Prop
  | .identifier id => id.loc.Ordered
  | .literal lit => lit.loc.Ordered
  | .arrow loc params body =>
    (∀ id ∈ params, id.loc.Inside loc ∧ id.loc.Before body.loc) ∧ body.loc.Inside loc ∧
      Body.Laid body
  | .conditional loc test consequent alternate =>
    (test.loc.Inside loc ∧ consequent.loc.Inside loc ∧ alternate.loc.Inside loc) ∧
      (test.loc.Before consequent.loc ∧ consequent.loc.Before alternate.loc) ∧
        Expr.Laid test ∧ Expr.Laid consequent ∧ Expr.Laid alternate
  | .binary loc _ left right =>
    left.loc.Inside loc ∧ right.loc.Inside loc ∧ left.loc.Before right.loc ∧
      Expr.Laid left ∧ Expr.Laid right
  | .unary loc _ argument => argument.loc.Inside loc ∧ Expr.Laid argument
  | .call loc callee arguments =>
    callee.loc.Inside loc ∧ Expr.Laid callee ∧ Expr.AllLaid loc arguments ∧
      ∀ argument ∈ arguments, callee.loc.Before argument.loc
  | .member loc object property =>
    object.loc.Inside loc ∧ property.loc.Inside loc ∧ object.loc.Before property.loc ∧
      Expr.Laid object
  | .index loc object property =>
    object.loc.Inside loc ∧ property.loc.Inside loc ∧ object.loc.Before property.loc ∧
      Expr.Laid object ∧ Expr.Laid property
  | .object loc properties => loc.Ordered ∧ Property.AllLaid loc properties
  | .array loc elements => loc.Ordered ∧ Expr.AllLaid loc elements
  | .spread loc argument => argument.loc.Inside loc ∧ Expr.Laid argument

/-- Expressions inside a range, with something between any two of them. -/
def Expr.AllLaid (range : Loc) : List Expr → Prop
  | [] => True
  | expression :: rest =>
    (expression.loc.Inside range ∧ ∀ other ∈ rest, expression.loc.Before other.loc) ∧
      Expr.Laid expression ∧ Expr.AllLaid range rest

/-- Every part of the body lies inside of it. -/
def Body.Laid : Body → Prop
  | .block inner => Block.Laid inner
  | .expression inner => Expr.Laid inner

/-- The statements of a block stand in order behind its opening brace. -/
def Block.Laid : Block → Prop
  | .mk loc statements => loc.Ordered ∧ Statement.AllLaid loc statements

/-- Every part of a property lies inside of it. -/
def Property.Laid : Property → Prop
  | .spread loc argument =>
    argument.loc.Inside loc ∧ loc.start < argument.loc.start ∧ Expr.Laid argument
  | .computed loc key value =>
    key.loc.Inside loc ∧ value.loc.Inside loc ∧ key.loc.Before value.loc ∧
      Expr.Laid key ∧ Expr.Laid value
  | .field loc key value => key.loc.Inside loc ∧ value.loc.Inside loc ∧ Expr.Laid value

/-- Properties inside a range, with something between any two of them. -/
def Property.AllLaid (range : Loc) : List Property → Prop
  | [] => True
  | property :: rest =>
    (property.loc.Inside range ∧ ∀ other ∈ rest, property.loc.Before other.loc) ∧
      Property.Laid property ∧ Property.AllLaid range rest

/-- Every part of a statement lies inside of it, behind its keyword if it has one. -/
def Statement.Laid : Statement → Prop
  | .declaration loc _ declarators => loc.Ordered ∧ Declarator.AllLaid loc declarators
  | .expression loc inner => inner.loc.Inside loc ∧ Expr.Laid inner
  | .ret loc none => loc.Ordered
  | .ret loc (some argument) =>
    argument.loc.Inside loc ∧ loc.start < argument.loc.start ∧ Expr.Laid argument
  | .block inner => Block.Laid inner

/-- Statements inside a range, none of them before the end of another. -/
def Statement.AllLaid (range : Loc) : List Statement → Prop
  | [] => True
  | statement :: rest =>
    (statement.loc.Inside range ∧ ∀ other ∈ rest, statement.loc.stop ≤ other.loc.start) ∧
      Statement.Laid statement ∧ Statement.AllLaid range rest

/-- A declarator's value stands behind what it binds. -/
def Declarator.Laid : Declarator → Prop
  | .mk loc target none => target.loc.Inside loc
  | .mk loc target (some init) =>
    target.loc.Inside loc ∧ init.loc.Inside loc ∧ target.loc.Before init.loc ∧ Expr.Laid init

/-- Declarators inside a range and behind its start, with something between any two. -/
def Declarator.AllLaid (range : Loc) : List Declarator → Prop
  | [] => True
  | declarator :: rest =>
    (declarator.loc.Inside range ∧ range.start < declarator.loc.start ∧
      ∀ other ∈ rest, declarator.loc.Before other.loc) ∧
      Declarator.Laid declarator ∧ Declarator.AllLaid range rest

end

section

variable (text : List Char)

/-! What stands in a text is laid out, and its nodes are faithful to the text. -/

def Expr.StandsIn (inner : Expr) : Prop := inner.Laid ∧ inner.node.Faithful text

def Body.StandsIn (inner : Body) : Prop := inner.Laid ∧ inner.node.Faithful text

def Block.StandsIn (inner : Block) : Prop := inner.Laid ∧ inner.node.Faithful text

def Property.StandsIn (inner : Property) : Prop := inner.Laid ∧ inner.node.Faithful text

def Statement.StandsIn (inner : Statement) : Prop := inner.Laid ∧ inner.node.Faithful text

def Declarator.StandsIn (inner : Declarator) : Prop := inner.Laid ∧ inner.node.Faithful text

end

variable {text code : List Char} {range : Loc} {expressions : List Expr}

theorem Expr.standIn_of_lined
    (hlined : Parser.Lined Expr.loc (Expr.StandsIn text) range expressions) :
    Expr.AllLaid range expressions ∧ Node.AllFaithful text range (Expr.nodes expressions) := by
  induction expressions with
  | nil => simp [Expr.AllLaid, Expr.nodes]
  | cons expression rest ih =>
    obtain ⟨hplace, ⟨hlaid, hfaithful⟩, hrest⟩ := hlined.cons
    exact ⟨⟨hplace, hlaid, (ih hrest).1⟩, by simp [Expr.nodes, hplace.1, hfaithful, ih hrest]⟩

theorem Expr.AllLaid.mono {outer : Loc} (hall : Expr.AllLaid range expressions)
    (hstart : outer.start ≤ range.start) (hstop : range.stop ≤ outer.stop) :
    Expr.AllLaid outer expressions := by
  induction expressions with
  | nil => simp only [Expr.AllLaid]
  | cons expression rest ih =>
    obtain ⟨⟨hinside, hbefore⟩, hlaid, hrest⟩ := hall
    exact ⟨⟨⟨le_trans hstart hinside.start, hinside.ordered, le_trans hinside.stop hstop⟩, hbefore⟩,
      hlaid, ih hrest⟩

theorem Property.standIn_of_lined {properties : List Property}
    (hlined : Parser.Lined Property.loc (Property.StandsIn text) range properties) :
    Property.AllLaid range properties ∧
      Node.AllFaithful text range (Property.nodes properties) := by
  induction properties with
  | nil => simp [Property.AllLaid, Property.nodes]
  | cons property rest ih =>
    obtain ⟨hplace, ⟨hlaid, hfaithful⟩, hrest⟩ := hlined.cons
    exact ⟨⟨hplace, hlaid, (ih hrest).1⟩, by simp [Property.nodes, hplace.1, hfaithful, ih hrest]⟩

theorem Declarator.standIn_of_lined (range : Loc) {inner : Loc} {declarators : List Declarator}
    (hlined : Parser.Lined Declarator.loc (Declarator.StandsIn text) inner declarators)
    (hstart : range.start < inner.start) (hstop : inner.stop ≤ range.stop) :
    Declarator.AllLaid range declarators ∧
      Node.AllFaithful text range (Declarator.nodes declarators) := by
  induction declarators with
  | nil => simp [Declarator.AllLaid, Declarator.nodes]
  | cons declarator rest ih =>
    obtain ⟨⟨hinside, hbefore⟩, ⟨hlaid, hfaithful⟩, hrest⟩ := hlined.cons
    have hbehind := lt_of_lt_of_le hstart hinside.start
    have hplace : declarator.loc.Inside range :=
      ⟨le_of_lt hbehind, hinside.ordered, le_trans hinside.stop hstop⟩
    exact ⟨⟨⟨hplace, hbehind, hbefore⟩, hlaid, (ih hrest).1⟩,
      by simp [Declarator.nodes, hplace, hfaithful, ih hrest]⟩

@[simp, grind =]
theorem Identifier.faithful_node {id : Identifier} :
    id.node.Faithful text ↔ id.loc.slice text = id.name.toList := by
  simp [Identifier.node]

theorem Literal.faithful_node {literal : Literal} (hliteral : literal.value ≠ .number) :
    literal.node.Faithful text := by
  simp [Literal.node, if_neg hliteral]

namespace ScriptGrammar

open Parser List

/-! ## Tokens -/

theorem blank_notMem_digits (ahead : List Char) :
    ' ' ∉ ahead.take (ahead.takeWhile isDecimalDigit).length := by
  intro hmem
  rw [← prefix_iff_eq_take.mp ( takeWhile_prefix isDecimalDigit)] at hmem
  have hdigit : isDecimalDigit ' ' := all_eq_true.mp all_takeWhile _ hmem
  exact absurd hdigit (by decide)

theorem blank_notMem_mantissa (ahead : List Char) : ' ' ∉ ahead.take (mantissaLength ahead) := by
  have hdigits := blank_notMem_digits ahead
  unfold mantissaLength
  split
  case h_1 =>
    split
    case h_1 rest _ =>
      split
      case h_1 => simp
      case h_2 => simpa using blank_notMem_digits rest
    case h_2 => simp
  case h_2 =>
    split
    case h_1 rest hdrop =>
      rw [take_add, take_add, hdrop, take_one, ← drop_drop, hdrop]
      simpa [hdigits] using blank_notMem_digits rest
    case h_2 => exact hdigits

theorem blank_notMem_exponent (ahead : List Char) : ' ' ∉ ahead.take (exponentLength ahead) := by
  unfold exponentLength
  split
  case h_1 c rest =>
    split
    case isTrue hc =>
      have hblank : ' ' ≠ c := by
        rintro rfl
        simp at hc
      have hsign : ' ' ∉ rest.take
          (if rest.head?.any (fun c => c = '+' || c = '-') then 1 else 0) := by
        split
        · cases rest with
          | nil => simp
          | cons sign rest =>
            rintro hmem
            obtain rfl : ' ' = sign := by simpa using hmem
            simp_all
        · simp
      generalize (if rest.head?.any (fun c => c = '+' || c = '-') then 1 else 0) = sign at hsign ⊢
      dsimp only
      split
      case h_1 => simp
      case h_2 =>
        rw [Nat.add_comm _ sign, take_succ_cons, take_add, mem_cons, mem_append]
        rintro (hmem | hmem | hmem)
        · exact hblank hmem
        · exact hsign hmem
        · exact blank_notMem_digits _ hmem
    case isFalse => simp
  case h_2 => simp

section

variable (hblanked : Blanked text code)
include hblanked

theorem places_name :
    name.located.Places code Prod.fst fun result => result.1.slice text = result.2.toList :=
  places_wordOf hblanked (by decide) (by decide)

theorem places_memberName : memberName.Places code Identifier.loc (·.node.Faithful text) :=
  (places_name hblanked).make (fun _ => rfl) fun _ hname => by simpa using hname

theorem places_identifier : identifier.Places code Identifier.loc (·.node.Faithful text) := by
  refine .make (fun cursor result rest hon hdone => ?_) (fun _ => rfl)
    fun _ hname => by simpa using hname
  obtain ⟨hdone, hloc⟩ := located_eq_done.mp hdone
  obtain ⟨_, start, hstart, hname⟩ := bind_eq_done.mp hdone
  obtain rfl := noKeyword_eq_done hstart
  exact places_name hblanked _ _ _ hon (located_eq_done.mpr ⟨hname, hloc⟩)

theorem places_number : number.Places code Literal.loc (·.node.Faithful text) := by
  refine (places_token hblanked fun ahead word n hread => ?_).make (fun _ => rfl)
    fun result hraw => ?_
  · split at hread
    · cases hread
    · obtain ⟨rfl, rfl⟩ := Prod.mk.inj (Option.some.inj hread)
      rw [String.toList_ofList, take_add, mem_append]
      exact ⟨rfl, fun hmem => hmem.elim (blank_notMem_mantissa ahead) (blank_notMem_exponent _)⟩
  · simp [Literal.node, hraw]

omit hblanked in
theorem places_string : string.Places code Literal.loc (·.node.Faithful text) :=
  advances_quoted.located.make (fun _ => rfl) fun _ _ => Literal.faithful_node (by simp)

omit hblanked in
theorem places_keywordLiteral {spelling : String} (hne : spelling.toList ≠ [])
    {meaning : LiteralValue} (hmeaning : meaning ≠ .number) :
    (keywordLiteral spelling meaning).Places code Literal.loc (·.node.Faithful text) := by
  refine (Advances.located fun cursor value rest hon hread => ?_).make (fun _ => rfl)
    fun _ _ => Literal.faithful_node hmeaning
  exact (on_keyword hon hread hne).imp_right le_of_lt

theorem places_literal : literal.Places code Literal.loc (·.node.Faithful text) :=
  (places_number hblanked).orElse (places_string.orElse
    ((places_keywordLiteral (by decide) (by simp)).orElse
      ((places_keywordLiteral (by decide) (by simp)).orElse
        (places_keywordLiteral (by decide) (by simp)))))

theorem places_fieldKey :
    (FieldKey.identifier <$> memberName <|> FieldKey.literal <$> string <|>
      FieldKey.literal <$> number).Places code FieldKey.loc (·.node.Faithful text) := by
  refine .orElse (.map ?_) (.orElse (.map ?_) (.map ?_))
  · exact places_memberName hblanked
  · exact places_string
  · exact places_number hblanked

end

/-! ## Expressions -/

attribute [local grind =] Property.StandsIn Property.Laid Property.loc Property.node FieldKey.loc
  FieldKey.node Expr.StandsIn Expr.Laid Expr.loc Expr.node Identifier.node Node.loc Loc.span
  Body.StandsIn Body.Laid Body.loc Body.node Block.StandsIn Block.Laid Block.loc Block.node
  Statement.StandsIn Statement.Laid Statement.loc Statement.node Declarator.StandsIn Declarator.Laid
  Declarator.loc Declarator.node

section

variable (hblanked : Blanked text code) {expression : Parser Expr}
  (hexpression : expression.Places code Expr.loc (Expr.StandsIn text))
include hexpression

/-- The range of an expression with dots in front covers the expression. -/
theorem inside_of_spread {cursor rest : Cursor} {loc : Loc} {argument : Expr}
    (hon : cursor.On code) (hdone : spread expression cursor = .done (loc, argument) rest) :
    rest.On code ∧ loc = ⟨cursor.skipBlanks.position, rest.position⟩ ∧ argument.loc.Inside loc ∧
      loc.start < argument.loc.start ∧ argument.StandsIn text := by
  simp only [spread, bind_eq_done, located_eq_done] at hdone
  obtain ⟨⟨_, dots, hdots, hargument⟩, rfl⟩ := hdone
  have hdots := on_symbol hon hdots (by decide)
  have hargument := hexpression _ _ _ hdots.1 hargument
  grind

include hblanked in
theorem places_property :
    (property expression).Places code Property.loc (Property.StandsIn text) := by
  refine .orElse ?_ (.orElse ?_ (.orElse ?_ ?_))
  · intro cursor value rest hon hdone
    simp only [bind_eq_done, pure_eq_done] at hdone
    obtain ⟨⟨loc, argument⟩, middle, hspread, rfl, rfl⟩ := hdone
    have hspread := inside_of_spread hexpression hon hspread
    grind
  · intro cursor value rest hon hdone
    simp only [computedProperty, bind_eq_done, located_eq_done, pure_eq_done] at hdone
    obtain ⟨⟨loc, key, content⟩, last, ⟨⟨_, opened, hopened, foundKey, afterKey, hkey, _, closed,
      hclosed, _, colon, hcolon, foundValue, afterValue, hvalue, heq, rfl⟩, rfl⟩, rfl, rfl⟩ := hdone
    have hopened := on_symbol hon hopened (by decide)
    have hkey := hexpression _ _ _ hopened.1 hkey
    have hclosed := on_symbol hkey.1 hclosed (by decide)
    have hcolon := on_symbol hclosed.1 hcolon (by decide)
    have hvalue := hexpression _ _ _ hcolon.1 hvalue
    grind
  · intro cursor value rest hon hdone
    simp only [keyedProperty, bind_eq_done, located_eq_done, pure_eq_done] at hdone
    obtain ⟨⟨loc, key, content⟩, last, ⟨⟨foundKey, afterKey, hkey, _, colon, hcolon, foundValue,
      afterValue, hvalue, heq, rfl⟩, rfl⟩, rfl, rfl⟩ := hdone
    have hkey := places_fieldKey hblanked _ _ _ hon hkey
    have hcolon := on_symbol hkey.1 hcolon (by decide)
    have hvalue := hexpression _ _ _ hcolon.1 hvalue
    grind
  · intro cursor value rest hon hdone
    simp only [shorthandProperty, bind_eq_done, pure_eq_done] at hdone
    obtain ⟨id, last, hid, rfl, rfl⟩ := hdone
    have hid := places_identifier hblanked _ _ _ hon hid
    grind

include hblanked in
theorem places_object : (object expression).Places code Expr.loc (Expr.StandsIn text) := by
  intro cursor value rest hon hdone
  simp only [object, bind_eq_done, located_eq_done, pure_eq_done] at hdone
  obtain ⟨⟨loc, properties⟩, last, ⟨hbetween, rfl⟩, rfl, rfl⟩ := hdone
  obtain ⟨hlast, hlt, hlined, -⟩ :=
    (places_property hblanked hexpression).commaTerminated.between hon hbetween (by decide)
  have hall := Property.standIn_of_lined hlined
  grind

theorem places_element : (element expression).Places code Expr.loc (Expr.StandsIn text) := by
  refine .orElse ?_ hexpression
  intro cursor value rest hon hdone
  simp only [bind_eq_done, pure_eq_done] at hdone
  obtain ⟨⟨loc, argument⟩, middle, hspread, rfl, rfl⟩ := hdone
  have hspread := inside_of_spread hexpression hon hspread
  grind

theorem places_array : (array expression).Places code Expr.loc (Expr.StandsIn text) := by
  intro cursor value rest hon hdone
  simp only [array, bind_eq_done, located_eq_done, pure_eq_done] at hdone
  obtain ⟨⟨loc, elements⟩, last, ⟨hbetween, rfl⟩, rfl, rfl⟩ := hdone
  obtain ⟨hlast, hlt, hlined, -⟩ :=
    (places_element hexpression).commaTerminated.between hon hbetween (by decide)
  have hall := Expr.standIn_of_lined hlined
  grind

/-- An expression keeps its own range in parentheses. -/
theorem places_parenthesized :
    (parenthesized expression).Places code Expr.loc (Expr.StandsIn text) := by
  intro cursor value rest hon hdone
  simp only [parenthesized, bind_eq_done, pure_eq_done] at hdone
  obtain ⟨_, opened, hopened, inner, middle, hinner, _, closed, hclosed, rfl, rfl⟩ := hdone
  have hopened := on_symbol hon hopened (by decide)
  have hinner := hexpression _ _ _ hopened.1 hinner
  have hclosed := on_symbol hinner.1 hclosed (by decide)
  grind

include hblanked in
theorem places_primary : (primary expression).Places code Expr.loc (Expr.StandsIn text) := by
  refine .orElse (.map ?_) (.orElse (.map ?_) (.orElse (places_object hblanked hexpression)
    (.orElse (places_array hexpression) (places_parenthesized hexpression))))
  · intro cursor value rest hon hdone
    have hliteral := places_literal hblanked _ _ _ hon hdone
    grind
  · intro cursor value rest hon hdone
    have hidentifier := places_identifier hblanked _ _ _ hon hdone
    grind

end

/-- The range of a suffix, from its first character on. -/
def Suffix.loc : Suffix → Loc
  | .member loc _ | .index loc _ | .call loc _ => loc

/-- The parts of a suffix stand behind its first character. -/
def Suffix.Laid : Suffix → Prop
  | .member loc property => property.loc.Inside loc ∧ loc.start < property.loc.start
  | .index loc property =>
    property.loc.Inside loc ∧ loc.start < property.loc.start ∧ property.Laid
  | .call loc arguments =>
    Expr.AllLaid loc arguments ∧ ∀ argument ∈ arguments, loc.start < argument.loc.start

def Suffix.nodes : Suffix → List Node
  | .member _ property => [property.node]
  | .index _ property => [property.node]
  | .call _ arguments => Expr.nodes arguments

def Suffix.StandsIn (text : List Char) (suffix : Suffix) : Prop :=
  suffix.Laid ∧ Node.AllFaithful text suffix.loc suffix.nodes

attribute [local grind =] Suffix.onto Suffix.StandsIn Suffix.Laid Suffix.loc Suffix.nodes

/-- A suffix behind an expression makes an expression that starts where the first one does
and ends with the suffix. -/
theorem Suffix.onto_standsIn {object : Expr} {suffix : Suffix} (hobject : object.StandsIn text)
    (hordered : object.loc.Ordered) (hsuffix : suffix.StandsIn text) (hloc : suffix.loc.Ordered)
    (hbefore : object.loc.stop ≤ suffix.loc.start) :
    (suffix.onto object).StandsIn text ∧
      (suffix.onto object).loc = object.loc.span suffix.loc := by
  have hstart : object.loc.start ≤ suffix.loc.start := le_trans hordered hbefore
  have hnode : (suffix.onto object).node =
      .mk (object.loc.span suffix.loc) none (object.node :: suffix.nodes) := by cases suffix <;> rfl
  have hparts : Node.AllFaithful text (object.loc.span suffix.loc) suffix.nodes :=
    hsuffix.2.mono hstart (le_refl _)
  have hfaithful : (suffix.onto object).node.Faithful text := by
    rw [hnode]
    grind
  refine ⟨⟨?_, hfaithful⟩, by cases suffix <;> rfl⟩
  cases suffix with
  | member loc property | index loc property =>
    grind
  | call loc arguments =>
    have hall : Expr.AllLaid (object.loc.span loc) arguments :=
      hsuffix.1.1.mono hstart (le_refl _)
    grind

section

variable (hblanked : Blanked text code) {expression : Parser Expr}
  (hexpression : expression.Places code Expr.loc (Expr.StandsIn text))
include hblanked hexpression

theorem places_suffix : (suffix expression).Places code Suffix.loc (Suffix.StandsIn text) := by
  refine .orElse ?_ (.orElse ?_ ?_)
  · intro cursor value rest hon hdone
    simp only [bind_eq_done, located_eq_done, pure_eq_done] at hdone
    obtain ⟨⟨loc, property⟩, last, ⟨⟨_, dot, hdot, hproperty⟩, rfl⟩, rfl, rfl⟩ := hdone
    have hdot := on_symbol hon hdot (by decide)
    have hproperty := places_memberName hblanked _ _ _ hdot.1 hproperty
    grind
  · intro cursor value rest hon hdone
    simp only [bind_eq_done, located_eq_done, pure_eq_done] at hdone
    obtain ⟨⟨loc, property⟩, last, ⟨⟨_, opened, hopened, found, middle, hproperty, _, closed,
      hclosed, rfl, rfl⟩, rfl⟩, rfl, rfl⟩ := hdone
    have hopened := on_symbol hon hopened (by decide)
    have hproperty := hexpression _ _ _ hopened.1 hproperty
    have hclosed := on_symbol hproperty.1 hclosed (by decide)
    grind
  · intro cursor value rest hon hdone
    simp only [bind_eq_done, located_eq_done, pure_eq_done] at hdone
    obtain ⟨⟨loc, arguments⟩, last, ⟨hbetween, rfl⟩, rfl, rfl⟩ := hdone
    obtain ⟨hlast, hlt, hlined, hbehind⟩ :=
      (places_element hexpression).commaSeparated.between hon hbetween (by decide)
    have hall := Expr.standIn_of_lined hlined
    grind

theorem places_suffixed : (suffixed expression).Places code Expr.loc (Expr.StandsIn text) := by
  have hfold {cursor rest : Cursor} {suffixes : List Suffix} {start : Position}
      (hchained : Chained (suffix expression) cursor suffixes rest) (hon : cursor.On code)
      {object : Expr} (hobject : object.StandsIn text)
      (hinside : object.loc.Inside ⟨start, cursor.position⟩) :
      rest.On code ∧ (suffixes.foldl Suffix.onto object).StandsIn text ∧
        (suffixes.foldl Suffix.onto object).loc.Inside ⟨start, rest.position⟩ := by
    induction hchained generalizing object with
    | nil cursor => exact ⟨hon, hobject, hinside⟩
    | @cons cursor middle rest suffix suffixes hdone _ ih =>
      obtain ⟨hmiddle, hsuffix, hplace⟩ := places_suffix hblanked hexpression _ _ _ hon hdone
      obtain ⟨hstands, hloc⟩ := Suffix.onto_standsIn hobject hinside.ordered hsuffix hplace.ordered
        (by grind)
      exact ih hmiddle hstands (by grind)
  intro cursor value rest hon hdone
  simp only [suffixed, bind_eq_done, pure_eq_done] at hdone
  obtain ⟨object, middle, hobject, suffixes, last, hsuffixes, rfl, rfl⟩ := hdone
  obtain ⟨hmiddle, hstands, hinside⟩ := places_primary hblanked hexpression _ _ _ hon hobject
  exact hfold (chained_of_many hsuffixes) hmiddle hstands hinside

theorem places_unaryUpTo (depth : Nat) :
    (unaryUpTo expression depth).Places code Expr.loc (Expr.StandsIn text) := by
  induction depth with
  | zero => exact places_suffixed hblanked hexpression
  | succ depth ih =>
    refine .orElse ?_ (places_suffixed hblanked hexpression)
    intro cursor value rest hon hdone
    simp only [bind_eq_done, located_eq_done, pure_eq_done] at hdone
    obtain ⟨⟨loc, operator, argument⟩, last, ⟨⟨found, middle, hoperator, operand, after, hoperand,
      heq, rfl⟩, rfl⟩, rfl, rfl⟩ := hdone
    have hoperator := on_oneOf hon hoperator (by decide)
    have hoperand := ih _ _ _ hoperator.1 hoperand
    grind

theorem places_unary : (unary expression).Places code Expr.loc (Expr.StandsIn text) :=
  fun cursor => places_unaryUpTo hblanked hexpression cursor.ahead.length cursor

-- the range ends with the operand, and the blank behind it is left for what follows
example : ∃ operand rest, unary Parser.fail (.start "!x ;".toList) =
    .done (.unary ⟨⟨1, 0⟩, ⟨1, 2⟩⟩ .not operand) rest := ⟨_, _, rfl⟩

omit hblanked hexpression in
theorem places_binaryLevel {operand : Parser Expr}
    (hoperand : operand.Places code Expr.loc (Expr.StandsIn text))
    (operators : List BinaryOperator) :
    (binaryLevel operators operand).Places code Expr.loc (Expr.StandsIn text) := by
  have hspelling : ∀ spelling ∈ operators.map fun operator => (operator.toText, operator),
      spelling.1.toList ≠ [] := by
    intro spelling hmem
    obtain ⟨operator, -, rfl⟩ := mem_map.1 hmem
    cases operator <;> decide
  have hfold {cursor rest : Cursor} {others : List (BinaryOperator × Expr)} {start : Position}
      (hchained : Chained (do
        let operator ← oneOf (operators.map fun operator => (operator.toText, operator))
        let right ← operand
        return (operator, right)) cursor others rest) (hon : cursor.On code) {left : Expr}
      (hleft : left.StandsIn text) (hinside : left.loc.Inside ⟨start, cursor.position⟩) :
      let folded := others.foldl (fun left other =>
        Expr.binary (left.loc.span other.2.loc) other.1 left other.2) left
      rest.On code ∧ folded.StandsIn text ∧ folded.loc.Inside ⟨start, rest.position⟩ := by
    induction hchained generalizing left with
    | nil cursor => exact ⟨hon, hleft, hinside⟩
    | @cons cursor middle rest other others hdone _ ih =>
      simp only [bind_eq_done, pure_eq_done] at hdone
      obtain ⟨operator, afterOperator, hoperator, right, afterRight, hright, rfl, rfl⟩ := hdone
      have hoperator := on_oneOf hon hoperator hspelling
      have hright := hoperand _ _ _ hoperator.1 hright
      exact ih hright.1 (by grind)
        (by grind)
  intro cursor value rest hon hdone
  simp only [binaryLevel, bind_eq_done, pure_eq_done] at hdone
  obtain ⟨first, middle, hfirst, others, last, hothers, rfl, rfl⟩ := hdone
  obtain ⟨hmiddle, hstands, hinside⟩ := hoperand _ _ _ hon hfirst
  obtain hchained | ⟨rfl, rfl⟩ := chained_of_manyOrBlanks hothers
  · exact hfold hchained hmiddle hstands hinside
  · exact ⟨hmiddle.skipBlanks, hstands, by grind⟩

theorem places_binary : (binary expression).Places code Expr.loc (Expr.StandsIn text) :=
  foldlRecOn (motive := fun operand : Parser Expr =>
    operand.Places code Expr.loc (Expr.StandsIn text)) operatorLevels _
      (places_unary hblanked hexpression)
      fun _ hoperand level _ => places_binaryLevel hoperand level

theorem places_conditional :
    (conditional expression).Places code Expr.loc (Expr.StandsIn text) := by
  intro cursor value rest hon hdone
  simp only [conditional, bind_eq_done, located_eq_done, pure_eq_done] at hdone
  obtain ⟨⟨loc, test, branches⟩, last, ⟨⟨foundTest, afterTest, htest, foundBranches, afterBranches,
    hbranches, heq, rfl⟩, rfl⟩, rfl, rfl⟩ := hdone
  have htest := places_binary hblanked hexpression _ _ _ hon htest
  obtain ⟨⟨consequent, alternate⟩, rfl, hread⟩ | ⟨rfl, rfl⟩ := optional_eq_done hbranches
  · simp only [bind_eq_done, commit_eq_done, pure_eq_done, Prod.mk.injEq] at hread
    obtain ⟨_, question, hquestion, found, afterFound, hfound, _, colon, hcolon, other, afterOther,
      hother, ⟨rfl, rfl⟩, rfl⟩ := hread
    have hquestion := on_symbol htest.1 hquestion (by decide)
    have hfound := hexpression _ _ _ hquestion.1 hfound
    have hcolon := on_symbol hfound.1 hcolon (by decide)
    have hother := hexpression _ _ _ hcolon.1 hother
    grind
  · have hskip := htest.1.skipBlanks
    grind

end

/-! ## Statements -/

/-- The statements that a parser reads stand in the text; a lone semicolon is none. -/
def PlacesStatement (text code : List Char) (statement : Parser (Option Statement)) : Prop :=
  ∀ cursor found rest, cursor.On code → statement cursor = .done found rest →
    rest.On code ∧ cursor.skipBlanks.position ≤ rest.position ∧ ∀ value, found = some value →
      value.StandsIn text ∧ value.loc.Inside ⟨cursor.skipBlanks.position, rest.position⟩

theorem PlacesStatement.orElse {p q : Parser (Option Statement)} (hp : PlacesStatement text code p)
    (hq : PlacesStatement text code q) : PlacesStatement text code (p <|> q) := by
  intro cursor found rest hon hdone
  obtain hdone | hdone := of_orElse_eq_done hdone
  · exact hp cursor found rest hon hdone
  · exact hq cursor found rest hon hdone

theorem placesStatement_some {α : Type} {p : Parser α} {make : α → Statement}
    (hp : p.Places code (fun inner => (make inner).loc) fun inner => (make inner).StandsIn text) :
    PlacesStatement text code ((fun inner => some (make inner)) <$> p) := by
  intro cursor found rest hon hdone
  obtain ⟨value, hvalue, rfl⟩ := map_eq_done.mp hdone
  obtain ⟨hrest, hstands, hinside⟩ := hp cursor value rest hon hvalue
  exact ⟨hrest, hinside.outer, fun _ hequal => Option.some.inj hequal ▸ ⟨hstands, hinside⟩⟩

variable {rest : Cursor}

/-- Statements that are read one after the other stand in order. -/
theorem standIn_of_chained {statement : Parser (Option Statement)}
    (hstatement : PlacesStatement text code statement) {cursor : Cursor}
    {found : List (Option Statement)} (hchained : Chained statement cursor found rest)
    (hon : cursor.On code) :
    rest.On code ∧ cursor.position ≤ rest.position ∧
      ∀ range : Loc, range.start ≤ cursor.position → rest.position ≤ range.stop →
        Statement.AllLaid range (found.filterMap id) ∧
          Node.AllFaithful text range (Statement.nodes (found.filterMap id)) ∧
            ∀ value ∈ found.filterMap id, cursor.position ≤ value.loc.start := by
  induction hchained with
  | nil cursor => exact ⟨hon, le_refl _, by simp [Statement.AllLaid, Statement.nodes]⟩
  | @cons cursor middle rest value values hdone _ ih =>
    obtain ⟨hmiddle, hadvances, hvalue⟩ := hstatement _ _ _ hon hdone
    obtain ⟨hrest, hle, hothers⟩ := ih hmiddle
    refine ⟨hrest, by grind, fun range hstart hstop => ?_⟩
    obtain ⟨hall, hfaithful, hbehind⟩ := hothers range (by grind) hstop
    cases value with
    | none => exact ⟨by simpa using hall, by simpa using hfaithful, by simpa using by grind⟩
    | some value =>
      obtain ⟨⟨hlaid, hnode⟩, hinside⟩ := hvalue value rfl
      rw [show (some value :: values).filterMap id = value :: values.filterMap id from rfl]
      generalize values.filterMap id = others at hall hfaithful hbehind
      rw [Statement.AllLaid, Statement.nodes]
      grind

section

variable (hblanked : Blanked text code) {expression : Parser Expr}
  (hexpression : expression.Places code Expr.loc (Expr.StandsIn text))
  {statement : Parser (Option Statement)} (hstatement : PlacesStatement text code statement)
  {cursor rest : Cursor}

include hstatement in
theorem places_block : (block statement).Places code Block.loc (Block.StandsIn text) := by
  intro cursor value rest hon hdone
  simp only [block, bind_eq_done, located_eq_done, pure_eq_done] at hdone
  obtain ⟨⟨loc, statements⟩, last, ⟨⟨_, opened, hopened, found, middle, hfound, _, closed, hclosed,
    rfl, rfl⟩, rfl⟩, rfl, rfl⟩ := hdone
  have hopened := on_symbol hon hopened (by decide)
  obtain ⟨hmiddle, hle, hall⟩ := standIn_of_chained hstatement (chained_of_many hfound) hopened.1
  have hclosed := on_symbol hmiddle hclosed (by decide)
  have hall := hall ⟨cursor.skipBlanks.position, closed.position⟩ (by grind) (by grind)
  grind

include hblanked in
theorem arrowParams_inside {params : List Identifier} (hon : cursor.On code)
    (hdone : arrowParams cursor = .done params rest) :
    rest.On code ∧ cursor.skipBlanks.position ≤ rest.position ∧ ∀ id ∈ params,
      id.node.Faithful text ∧ id.loc.Inside ⟨cursor.skipBlanks.position, rest.position⟩ := by
  obtain hdone | hdone := of_orElse_eq_done hdone
  · simp only [bind_eq_done, pure_eq_done] at hdone
    obtain ⟨id, last, hid, rfl, rfl⟩ := hdone
    have hid := places_identifier hblanked _ _ _ hon hid
    grind
  · obtain ⟨hrest, hlt, hlined, -⟩ :=
      (places_identifier hblanked).commaSeparated.between hon hdone (by decide)
    exact ⟨hrest, le_of_lt hlt, hlined.each⟩

include hblanked hexpression hstatement in
theorem places_arrow : (arrow expression statement).Places code Expr.loc (Expr.StandsIn text) := by
  have hbody : (Body.block <$> block statement <|> Body.expression <$> expression).Places
      code Body.loc (Body.StandsIn text) := by
    refine .orElse (.map ?_) (.map ?_)
    · intro cursor value rest hon hdone
      have hblock := places_block hstatement _ _ _ hon hdone
      grind
    · intro cursor value rest hon hdone
      have hinner := hexpression _ _ _ hon hdone
      grind
  intro cursor value rest hon hdone
  simp only [arrow, bind_eq_done, located_eq_done, commit_eq_done, pure_eq_done] at hdone
  obtain ⟨⟨loc, params, body⟩, last, ⟨⟨foundParams, afterParams, hparams, _, afterArrow, harrow,
    foundBody, afterBody, hfound, heq, rfl⟩, rfl⟩, rfl, rfl⟩ := hdone
  obtain ⟨rfl, rfl⟩ := Prod.mk.inj heq
  have hparams := arrowParams_inside hblanked hon hparams
  have harrow := on_symbol hparams.1 harrow (by decide)
  have hfound := hbody _ _ _ harrow.1 hfound
  have hnodes : Node.AllFaithful text ⟨cursor.skipBlanks.position, afterBody.position⟩
      (foundParams.map Identifier.node) := by
    rw [Node.allFaithful_iff, forall_mem_map]
    intro id hid
    have hid := hparams.2.2 id hid
    grind
  grind

include hblanked in
theorem places_declarationTarget :
    declarationTarget.Places code DeclarationTarget.loc (·.node.Faithful text) := by
  refine .orElse (.map (places_identifier hblanked)) (.orElse ?_ ?_)
  · exact (advances_group _ _).located.make (fun _ => rfl) (by simp [DeclarationTarget.node])
  · exact (advances_group _ _).located.make (fun _ => rfl) (by simp [DeclarationTarget.node])

theorem on_declarationKeyword {keyword : DeclarationKeyword} (hon : cursor.On code)
    (hdone : declarationKeyword cursor = .done keyword rest) :
    rest.On code ∧ cursor.skipBlanks.position < rest.position := by
  rw [declarationKeyword] at hdone
  split at hdone
  case h_1 found hfind =>
    split at hdone
    · cases hdone
    · obtain ⟨rfl, rfl⟩ := Outcome.done.inj hdone
      have hnext := find?_some hfind
      rw [Bool.and_eq_true, isPrefixOf_iff_prefix] at hnext
      have hne : found.toText.toList ≠ [] := by cases found <;> decide
      refine ⟨hon.skipBlanks.drop _, Cursor.position_lt_drop (by cases found <;> decide) ?_⟩
      rintro hnil
      rw [hnil] at hnext
      exact hne (prefix_nil.1 hnext.1)
  case h_2 => cases hdone

include hblanked hexpression in
theorem places_declarator :
    (declarator expression).Places code Declarator.loc (Declarator.StandsIn text) := by
  intro cursor value rest hon hdone
  simp only [declarator, bind_eq_done, located_eq_done, pure_eq_done] at hdone
  obtain ⟨⟨loc, target, init⟩, last, ⟨⟨foundTarget, afterTarget, htarget, foundInit, afterInit,
    hinit, heq, rfl⟩, rfl⟩, rfl, rfl⟩ := hdone
  obtain ⟨rfl, rfl⟩ := Prod.mk.inj heq
  have htarget := places_declarationTarget hblanked _ _ _ hon htarget
  obtain ⟨value, rfl, hread⟩ | ⟨rfl, rfl⟩ := optional_eq_done hinit
  · simp only [bind_eq_done] at hread
    obtain ⟨_, afterEquals, hequals, hvalue⟩ := hread
    have hequals := on_symbol htarget.1 hequals (by decide)
    have hvalue := hexpression _ _ _ hequals.1 hvalue
    grind
  · have hskip := htarget.1.skipBlanks
    grind

include hblanked hexpression in
theorem places_declaration :
    (declaration expression).Places code Statement.loc (Statement.StandsIn text) := by
  intro cursor value rest hon hdone
  simp only [declaration, bind_eq_done, located_eq_done, commit_eq_done, pure_eq_done] at hdone
  obtain ⟨⟨loc, keyword, declarators⟩, last, ⟨⟨foundKeyword, afterKeyword, hkeyword,
    foundDeclarators, afterDeclarators, hdeclarators, semicolon, afterSemicolon, hsemicolon, heq,
    rfl⟩, rfl⟩, rfl, rfl⟩ := hdone
  obtain ⟨rfl, rfl⟩ := Prod.mk.inj heq
  have hkeyword := on_declarationKeyword hon hkeyword
  obtain ⟨hmiddle, hle, hlined⟩ :=
    (places_declarator hblanked hexpression).commaSeparated _ _ _ hkeyword.1 hdeclarators
  have hsemicolon := on_optionalSymbol hmiddle hsemicolon
  have hall := Declarator.standIn_of_lined ⟨cursor.skipBlanks.position, afterSemicolon.position⟩
    hlined (by grind) (by grind)
  grind

include hexpression in
theorem places_returnStatement :
    (returnStatement expression).Places code Statement.loc (Statement.StandsIn text) := by
  intro cursor value rest hon hdone
  simp only [returnStatement, bind_eq_done, located_eq_done, pure_eq_done] at hdone
  obtain ⟨⟨loc, argument⟩, last, ⟨⟨_, afterKeyword, hkeyword, found, afterArgument, hargument,
    semicolon, afterSemicolon, hsemicolon, rfl, rfl⟩, rfl⟩, rfl, rfl⟩ := hdone
  have hkeyword := on_keyword hon hkeyword (by decide)
  obtain ⟨argument, rfl, hread⟩ | ⟨rfl, rfl⟩ := optional_eq_done hargument
  · have hread := hexpression _ _ _ hkeyword.1 hread
    have hsemicolon := on_optionalSymbol hread.1 hsemicolon
    grind
  · have hsemicolon := on_optionalSymbol hkeyword.1.skipBlanks hsemicolon
    grind

include hexpression in
theorem places_expressionStatement :
    (expressionStatement expression).Places code Statement.loc (Statement.StandsIn text) := by
  intro cursor value rest hon hdone
  simp only [expressionStatement, bind_eq_done, located_eq_done, pure_eq_done] at hdone
  obtain ⟨⟨loc, inner⟩, last, ⟨⟨found, afterFound, hfound, semicolon, afterSemicolon, hsemicolon,
    rfl, rfl⟩, rfl⟩, rfl, rfl⟩ := hdone
  have hfound := hexpression _ _ _ hon hfound
  have hsemicolon := on_optionalSymbol hfound.1 hsemicolon
  grind

include hblanked hexpression hstatement in
theorem placesStatement_statementWith :
    PlacesStatement text code (statementWith expression statement) := by
  refine .orElse (placesStatement_some (places_declaration hblanked hexpression))
    (.orElse (placesStatement_some (places_returnStatement hexpression)) (.orElse
      (placesStatement_some ?_) (.orElse
        (placesStatement_some (places_expressionStatement hexpression)) ?_)))
  · intro cursor value rest hon hdone
    have hblock := places_block hstatement _ _ _ hon hdone
    grind
  · intro cursor found rest hon hdone
    simp only [bind_eq_done, pure_eq_done] at hdone
    obtain ⟨_, last, hsemicolon, rfl, rfl⟩ := hdone
    obtain ⟨hlast, hlt⟩ := on_symbol hon hsemicolon (by decide)
    exact ⟨hlast, le_of_lt hlt, fun _ hequal => by cases hequal⟩

end

/-- Expressions and statements stand in the text however deep they nest. -/
theorem places_upTo (hblanked : Blanked text code) (depth : Nat) :
    (expressionUpTo depth).Places code Expr.loc (Expr.StandsIn text) ∧
      PlacesStatement text code (statementUpTo depth) := by
  induction depth with
  | zero =>
    refine ⟨fun cursor value rest _ hdone => ?_, fun cursor value rest _ hdone => ?_⟩
    all_goals cases hdone
  | succ depth ih =>
    obtain ⟨hexpression, hstatement⟩ := ih
    exact ⟨.orElse (places_arrow hblanked hexpression hstatement)
      (places_conditional hblanked hexpression),
      placesStatement_statementWith hblanked hexpression hstatement⟩

/-- The statements of a text stand in order, from its start to where reading stops. -/
theorem standIn_of_statements (hblanked : Blanked text code) {body : List Statement}
    (hdone : statements (.start code) = .done body rest) :
    rest.On code ∧ Statement.AllLaid ⟨.origin, rest.position⟩ body ∧
      Node.AllFaithful text ⟨.origin, rest.position⟩ (Statement.nodes body) := by
  simp only [statements, bind_eq_done, pure_eq_done] at hdone
  obtain ⟨found, last, hfound, rfl, rfl⟩ := hdone
  have hstatement : PlacesStatement text code statement :=
    fun cursor => (places_upTo hblanked _).2 cursor
  obtain ⟨hlast, hle, hall⟩ :=
    standIn_of_chained hstatement (chained_of_many hfound) (Cursor.on_start code)
  obtain ⟨hlaid, hfaithful, -⟩ := hall ⟨.origin, last.position⟩ (le_refl _) (le_refl _)
  exact ⟨hlast, hlaid, hfaithful⟩

end ScriptGrammar

namespace Program

variable {program : Program}

variable (hparse : Program.parse text = .ok program)

include hparse

/-- A script is its statements, read without its comments, and its comments. -/
theorem parse_eq_ok :
    ∃ rest, ScriptGrammar.statements (.start (Comment.eraseAll text (Comment.scan text))) =
        .done program.body rest ∧
      program.loc = .ofOffsets text 0 text.length ∧ program.comments = Comment.scan text := by
  rw [Program.parse] at hparse
  split at hparse
  case h_1 body hrun =>
    obtain rfl := Except.ok.inj hparse
    obtain ⟨rest, hdone⟩ := Parser.exists_of_run hrun
    exact ⟨rest, hdone, rfl, rfl⟩
  case h_2 => cases hparse

/-- The statements of a script stand in order, and everything in them is laid out. -/
theorem laid_of_parse :
    ∃ range : Loc, range.start = .origin ∧ Statement.AllLaid range program.body := by
  obtain ⟨rest, hdone, -, -⟩ := parse_eq_ok hparse
  exact ⟨_, rfl, (ScriptGrammar.standIn_of_statements (blanked_eraseAll text _) hdone).2.1⟩

/-- The statements and the comments of a script lie inside of it, and so do their parts, and
names and numbers are written where they say. -/
theorem faithful_node : program.node.Faithful text := by
  obtain ⟨rest, hdone, hloc, hcomments⟩ := parse_eq_ok hparse
  have hblanked := blanked_eraseAll text (Comment.scan text)
  obtain ⟨hrest, -, hbody⟩ := ScriptGrammar.standIn_of_statements hblanked hdone
  have hrange : program.loc = ⟨.origin, Position.origin.behind text⟩ := by
    rw [hloc, Loc.ofOffsets, Position.ofOffset_length]
    rfl
  have hbody : Node.AllFaithful text program.loc (Statement.nodes program.body) := by
    rw [hrange, ← hblanked.behind_eq]
    exact hbody.mono (le_refl _) hrest.le_end
  rw [node, Node.faithful_mk, Node.allFaithful_iff, List.forall_mem_append, List.forall_mem_map]
  refine ⟨by simp, Node.allFaithful_iff.mp hbody, fun comment hcomment => ?_⟩
  rw [hcomments] at hcomment
  rw [hrange]
  exact ⟨(Comment.scan_cited text comment hcomment).2, by simp⟩

end Program

end RowScript
