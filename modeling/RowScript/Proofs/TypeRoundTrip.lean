import Mathlib.Logic.Function.Iterate
import RowScript.Proofs.PrintedTypes

/-!
# Reading a printed type gives the type back

What is known about the types between brackets is an assumption on the parser for them, up to a
width. Each part that holds a type also holds a bracket, a colon or an arrow, so the types inside
are less wide.
-/

namespace RowScript

open Text Ty Parser List

/-- The written type stands for the given type, up to the ranges of its names. -/
def TypeExpr.StandsFor (expr : TypeExpr) (ty : Ty) : Prop :=
  ∃ found, expr.toTy = .ok found ∧ found.agrees ty = true

namespace TypeExpr

variable {expr body : TypeExpr} {arg ret ty : Ty} {name : String} {id : Identifier}

theorem standsFor_identifier (hid : id.name = name) (loc : Loc) :
    (identifier id).StandsFor (.ident name loc) :=
  ⟨.ident id.name id.loc, rfl, by simp [agrees, hid]⟩

theorem StandsFor.arrow (harg : expr.StandsFor arg) (hret : body.StandsFor ret) (loc : Loc) :
    (TypeExpr.arrow loc expr body).StandsFor (.arrow arg ret) := by
  obtain ⟨arg', harg, hagrees⟩ := harg
  obtain ⟨ret', hret, hagrees'⟩ := hret
  refine ⟨.arrow arg' ret', ?_, by simp [agrees, hagrees, hagrees']⟩
  rw [toTy, harg, hret]
  rfl

theorem StandsFor.application (hid : id.name = name) (harg : expr.StandsFor arg)
    (loc nameLoc appLoc : Loc) :
    (TypeExpr.application loc id [expr]).StandsFor (.app (.ident name nameLoc) arg appLoc) := by
  obtain ⟨arg', harg, hagrees⟩ := harg
  refine ⟨.app (.ident id.name id.loc) arg' loc, ?_, by simp [agrees, hid, hagrees]⟩
  rw [toTy, applied, harg]
  rfl

theorem StandsFor.array (hexpr : expr.StandsFor arg) (loc nameLoc appLoc : Loc) :
    (TypeExpr.array loc expr).StandsFor (.app (.ident "Array" nameLoc) arg appLoc) := by
  obtain ⟨arg', harg, hagrees⟩ := hexpr
  refine ⟨.app (.named "Array") arg' loc, ?_, by simp [agrees, named, hagrees]⟩
  rw [toTy, harg]
  rfl

/-- Types under the same parameters agree if what is left under them does. -/
theorem agrees_foldr_generic {found : Ty} (hagrees : found.agrees ty.body) :
    (ty.params.foldr Ty.generic found).agrees ty := by
  induction ty with
  | generic param body ih => simp [params, agrees, ih hagrees]
  | _ => exact hagrees

theorem StandsFor.withParams {ids : List Identifier} (hids : ids.map (·.name) = ty.params)
    (hexpr : expr.StandsFor ty.body) (loc : Loc) : (expr.withParams loc ids).StandsFor ty := by
  obtain ⟨found, hfound, hagrees⟩ := hexpr
  have hty := agrees_foldr_generic hagrees
  rw [← hids, foldr_map] at hty
  rw [TypeExpr.withParams]
  split
  case isTrue hempty =>
    rw [isEmpty_iff.mp hempty] at hty
    exact ⟨found, hfound, hty⟩
  case isFalse hempty =>
    refine ⟨_, ?_, hty⟩
    rw [toTy, hfound]
    rfl

end TypeExpr

/-- What stands between the commas of a record. -/
inductive RowPart where
  | spread (name : String) (loc : Loc)
  | field (key : String) (type : Ty)

namespace RowPart

/-- The text of a part. -/
def chars : RowPart → List Char
  | .spread name _ => '.' :: '.' :: '.' :: name.toList
  | .field key type => fieldChars key type

theorem chars_ne_nil (part : RowPart) : part.chars ≠ [] := by
  cases part with
  | spread name loc => simp [chars]
  | field key type => simp [chars, fieldChars]

/-- Parts that have a written form. -/
def Written : RowPart → Prop
  | .spread name _ => IsTypeName name
  | .field key type => IsWord key ∧ type.Written .scheme

end RowPart

/-- The written part of a record stands for the given part. -/
inductive TypeProperty.StandsFor : RowPart → TypeProperty → Prop where
  | spread {name : String} {id : Identifier} (loc loc' : Loc) (hid : id.name = name) :
      StandsFor (.spread name loc) (.spread loc' id)
  | field {key : String} {id : Identifier} {type : Ty} {value : TypeExpr} (loc : Loc)
      (hid : id.name = key) (hvalue : value.StandsFor type) :
      StandsFor (.field key type) (.field loc id value)

/-- The parts of a row as they are written, from the innermost one on. -/
def Ty.rowParts : Ty → List RowPart
  | .ident name loc => [.spread name loc]
  | .field key type base => base.rowParts ++ [.field key type]
  | _ => []

namespace Ty

variable {row : Ty}

theorem rowParts_written (hrow : row.Written .row) : ∀ part ∈ row.rowParts, part.Written := by
  induction row with
  | ident name loc =>
    cases hrow with
    | spread _ hname =>
      intro part hpart
      rw [mem_singleton.mp hpart]
      exact hname
  | field key type base _ ih =>
    cases hrow with
    | field hkey htype hbase =>
      intro part hpart
      rcases mem_append.mp hpart with hpart | hpart
      · exact ih hbase part hpart
      · rw [mem_singleton.mp hpart]
        exact ⟨hkey, htype⟩
  | emptyRow => simp [rowParts]
  | _ => cases hrow

theorem rowChars_eq (hrow : row.Written .row) :
    row.rowChars = commaJoined (row.rowParts.map RowPart.chars) := by
  induction row with
  | ident name loc => simp [rowChars_ident, rowParts, commaJoined, RowPart.chars]
  | field key type base _ ih =>
    cases hrow with
    | field hkey htype hbase =>
      have hbase := ih hbase
      rw [rowChars_field, rowParts, map_append, map_singleton]
      by_cases hparts : base.rowParts = []
      · simp [hbase, hparts, commaJoined, RowPart.chars]
      · have htexts : base.rowParts.map RowPart.chars ≠ [] := by simpa using hparts
        have hchars : base.rowChars ≠ [] := by
          obtain ⟨part, rest, hcons⟩ := exists_cons_of_ne_nil hparts
          simp [hbase, hcons, commaJoined, part.chars_ne_nil]
        rw [if_neg hchars, commaJoined_append_singleton htexts, hbase]
        rfl
  | emptyRow => rfl
  | _ => cases hrow

end Ty

/-- What is related to a list with one more item is a list with one more item. -/
theorem forall₂_append_singleton {α β : Type} {R : α → β → Prop} {items : List α} {item : α}
    {values : List β} (hvalues : Forall₂ R (items ++ [item]) values) :
    ∃ rest value, values = rest ++ [value] ∧ Forall₂ R items rest ∧ R item value := by
  induction items generalizing values with
  | nil =>
    obtain ⟨value, rest, hvalue, hrest, rfl⟩ := forall₂_cons_left_iff.mp hvalues
    cases hrest
    exact ⟨[], value, rfl, .nil, hvalue⟩
  | cons first items ih =>
    obtain ⟨value, rest, hvalue, hrest, rfl⟩ := forall₂_cons_left_iff.mp hvalues
    obtain ⟨rest, last, rfl, hrest, hlast⟩ := ih hrest
    exact ⟨value :: rest, last, rfl, .cons hvalue hrest, hlast⟩

namespace TypeExpr

/-- A field at the end goes in front of the row that the parts before it make. -/
theorem rowOnto_append_field (properties : List TypeProperty) (row : Ty) (isFirst : Bool)
    (loc : Loc) (key : Identifier) (value : TypeExpr) :
    rowOnto row isFirst (properties ++ [.field loc key value]) = (do
      let row ← rowOnto row isFirst properties
      let type ← value.toTy
      pure (.field key.name type row)) := by
  induction properties generalizing row isFirst with
  | nil =>
    show rowOnto row isFirst [.field loc key value] = _
    simp only [rowOnto, propertyOnto]
    cases value.toTy <;> rfl
  | cons property rest ih =>
    rw [cons_append, rowOnto, rowOnto]
    cases propertyOnto row isFirst property with
    | error fault => rfl
    | ok row => exact ih row false

variable {row : Ty} {properties : List TypeProperty}

variable (hrow : row.Written .row)
  (hproperties : Forall₂ TypeProperty.StandsFor row.rowParts properties)

include hrow hproperties

theorem rowOnto_standsFor :
    ∃ found, rowOnto .emptyRow true properties = .ok found ∧ found.agrees row := by
  induction row generalizing properties with
  | ident name loc =>
    obtain ⟨property, rest, hproperty, hrest, rfl⟩ := forall₂_cons_left_iff.mp hproperties
    cases hrest
    cases hproperty with
    | spread _ loc' hid =>
      exact ⟨_, rfl, by simp [agrees, hid]⟩
  | field key type base _ ih =>
    cases hrow with
    | field hkey htype hbase =>
      obtain ⟨rest, property, rfl, hrest, hproperty⟩ := forall₂_append_singleton hproperties
      obtain ⟨found, hfound, hagrees⟩ := ih hbase hrest
      cases hproperty with
      | field loc hid hvalue =>
        obtain ⟨found', hfound', hagrees'⟩ := hvalue
        rw [rowOnto_append_field, hfound, hfound']
        exact ⟨_, rfl, by simp [agrees, hid, hagrees, hagrees']⟩
  | emptyRow =>
    cases hproperties
    exact ⟨.emptyRow, rfl, rfl⟩
  | _ => cases hrow

theorem standsFor_record (loc : Loc) : (record loc properties).StandsFor (.record row none) := by
  obtain ⟨found, hfound, hagrees⟩ := rowOnto_standsFor hrow hproperties
  refine ⟨.record found none, ?_, by simp [agrees, hagrees]⟩
  rw [toTy, hfound]
  rfl

end TypeExpr

theorem width_le_commaJoined {text : List Char} {texts : List (List Char)} (htext : text ∈ texts) :
    width text ≤ width (commaJoined texts) := by
  have hle : ∀ rest : List (List Char), text ∈ rest →
      width text ≤ width (rest.flatMap fun text => ',' :: ' ' :: text) := by
    intro rest hrest
    induction rest with
    | nil => cases hrest
    | cons first rest ih =>
      rw [flatMap_cons, width_append]
      rcases mem_cons.mp hrest with rfl | hrest
      · have hcons : width (',' :: ' ' :: text) = width text + 1 := by simp +decide [width_cons]
        omega
      · have hrest := ih hrest
        omega
  cases texts with
  | nil => cases htext
  | cons first rest =>
    rw [commaJoined, width_append]
    rcases mem_cons.mp htext with rfl | hrest
    · exact Nat.le_add_right ..
    · have hrest := hle rest hrest
      omega

namespace Ty.Written

variable {ty : Ty}

theorem body_eq (hty : ty.Written .plain) : ty.body = ty := by
  cases hty <;> rfl

theorem body (hty : ty.Written .scheme) : ty.body.Written .plain := by
  induction ty with
  | generic param inner ih =>
    cases hty with
    | simple hplain => cases hplain
    | generic hparam hbody => exact ih hbody
  | _ =>
    cases hty with
    | simple hplain => exact hplain

theorem params (hty : ty.Written .scheme) : ∀ param ∈ ty.params, IsWord param := by
  induction ty with
  | generic param inner ih =>
    cases hty with
    | simple hplain => cases hplain
    | generic hparam hbody => exact forall_mem_cons.mpr ⟨hparam, ih hbody⟩
  | _ =>
    intro param hparam
    cases hparam

end Ty.Written

namespace TypeGrammar

open RowScript.Text.Parser (Reads Refuses)

/-- The parser reads printed types that are less wide than the bound. -/
def ReadsBelow (type : Parser TypeExpr) (bound : Nat) : Prop :=
  ∀ ty : Ty, ty.Written .plain → width ty.chars < bound → ∀ after, Follows closers after →
    type.Reads (ty.chars ++ after) after fun expr => expr.StandsFor ty

variable {type : Parser TypeExpr} {bound : Nat} {after : List Char} {name : String} {ty : Ty}

theorem property_reads (htype : ReadsBelow type bound) {part : RowPart} (hpart : part.Written)
    (hwidth : width part.chars < bound) (hafter : Follows [',', '\x7d'] after) :
    (property type).Reads (part.chars ++ after) after (TypeProperty.StandsFor part) := by
  cases part with
  | spread name loc =>
    have hdots : (symbol "...").Reads ((RowPart.spread name loc).chars ++ after)
        (name.toList ++ after) fun _ => True := Reads.symbol rfl
    have hname := typeIdentifier_reads hpart hafter (by decide)
    apply Reads.orElse
    apply (hdots.bind fun _ _ => hname).located_bind
    intro loc' id hid
    exact Reads.pure (.spread loc loc' hid)
  | field key type' =>
    have hfollows : Follows ['<', ':']
        (angledChars type'.params ++ (':' :: ' ' :: (type'.body.chars ++ after))) := by
      by_cases hparams : type'.params = []
      · rw [hparams]
        exact follows_cons (by decide) rfl
      · rw [angledChars_of_ne_nil hparams]
        exact follows_cons (by decide) rfl
    have htext : (RowPart.field key type').chars ++ after = key.toList ++
        (angledChars type'.params ++ (':' :: ' ' :: (type'.body.chars ++ after))) := by
      simp [RowPart.chars, fieldChars]
    have hless : width type'.body.chars < bound := by
      refine Nat.lt_of_le_of_lt ?_ hwidth
      simp +decide [RowPart.chars, fieldChars, width_cons]
      omega
    have hcolon : Follows [':'] (':' :: ' ' :: (type'.body.chars ++ after)) :=
      follows_cons (by decide) rfl
    have hsymbol : (symbol ":").Reads (':' :: ' ' :: (type'.body.chars ++ after))
        (' ' :: (type'.body.chars ++ after)) fun _ => True := Reads.symbol rfl
    have hvalue := htype type'.body hpart.2.body hless after (hafter.mono (by decide))
    rw [htext]
    apply Refuses.orElse_reads
    · exact (hpart.1.refuses_symbol rfl rfl _).bind.located.bind
    apply Reads.located_bind (P := fun found => found.1.name = key ∧
      found.2.1.map (·.name) = type'.params ∧ found.2.2.StandsFor type'.body)
    · apply (wordIdentifier_reads hpart.1 hfollows (by decide)).bind
      intro id hid
      apply (params_reads hpart.2.params hcolon).bind
      intro ids hids
      apply hsymbol.bind
      intro _ _
      apply (hvalue.of_skipped rfl).bind
      intro value hvalue
      exact Reads.pure ⟨hid, hids, hvalue⟩
    · rintro loc ⟨id, ids, value⟩ ⟨hid, hids, hvalue⟩
      exact Reads.pure (.field loc hid (hvalue.withParams hids loc))

theorem record_reads (htype : ReadsBelow type bound) {row : Ty} (hrow : row.Written .row)
    (hwidth : width (Ty.record row none).chars ≤ bound) (after : List Char) :
    (record type).Reads ((Ty.record row none).chars ++ after) after
      fun expr => expr.StandsFor (.record row none) := by
  -- the properties between the braces make up the row
  suffices hparts : (between "\x7b" "\x7d" (commaSeparated (property type))).Reads
      ((Ty.record row none).chars ++ after) after
      (Forall₂ TypeProperty.StandsFor row.rowParts) by
    apply hparts.located_bind
    intro loc properties hproperties
    exact Reads.pure (TypeExpr.standsFor_record hrow hproperties loc)
  have hclose : (symbol "\x7d").Reads ('\x7d' :: after) after fun _ => True :=
    Reads.symbol rfl
  by_cases hempty : row = .emptyRow
  · subst hempty
    have hopen : (symbol "\x7b").Reads ((Ty.record .emptyRow none).chars ++ after)
        ('\x7d' :: after) fun _ => True := Reads.symbol rfl
    have hword : wordIdentifier.Refuses ('\x7d' :: after) :=
      (Refuses.word (by simp +decide [skipped])).located.bind
    have hrefuses : (property type).Refuses ('\x7d' :: after) :=
      Refuses.orElse (Refuses.symbol rfl).bind.located.bind hword.bind.located.bind
    apply hopen.bind
    intro _ _
    apply hrefuses.bind.optional.bind
    rintro _ rfl
    apply hclose.bind
    intro _ _
    exact Reads.pure .nil
  · have hchars := chars_record hempty
    rw [hchars] at hwidth
    have hopen : (symbol "\x7b").Reads ((Ty.record row none).chars ++ after)
        (' ' :: (row.rowChars ++ (' ' :: '\x7d' :: after))) fun _ => True := by
      rw [hchars]
      exact Reads.symbol (by simp +decide [skipped])
    have hend : Follows [',', '\x7d'] (' ' :: '\x7d' :: after) :=
      (follows_cons (by decide) rfl).blank rfl
    have hless : ∀ part ∈ row.rowParts, width part.chars < bound := by
      intro part hpart
      have hle := width_le_commaJoined (mem_map_of_mem (f := RowPart.chars) hpart)
      rw [← rowChars_eq hrow] at hle
      have hrow : width row.rowChars + 1 + 1 ≤ bound := by simpa +decide [width_cons] using hwidth
      omega
    have hne : row.rowParts ≠ [] := by
      cases hrow with
      | emptyRow => exact absurd rfl hempty
      | spread loc hname => simp [rowParts]
      | field hkey htype hbase => simp [rowParts]
    have hitems := commaSeparated_reads hne (by decide)
      (fun part hpart rest hrest =>
        property_reads htype (rowParts_written hrow part hpart) (hless part hpart) hrest)
      hend (Refuses.symbol rfl)
    rw [← rowChars_eq hrow] at hitems
    apply hopen.bind
    intro _ _
    apply (hitems.optional.of_skipped rfl).bind
    rintro _ ⟨properties, rfl, hproperties⟩
    apply (hclose.of_skipped rfl).bind
    intro _ _
    exact Reads.pure hproperties

/-- Types do not start with a closing parenthesis, so two parentheses are a name. -/
def RefusesClosing (type : Parser TypeExpr) : Prop := ∀ after, type.Refuses (')' :: after)

theorem parenthesized_refuses (hclosing : RefusesClosing type) (hname : IsTypeName name)
    (after : List Char) : (parenthesized type).Refuses (name.toList ++ after) := by
  rcases hname with hword | rfl
  · exact (hword.refuses_symbol rfl rfl after).bind
  · have hopen : (symbol "(").Reads ("()".toList ++ after) (')' :: after) fun _ => True :=
      Reads.symbol rfl
    exact hopen.refuses_bind fun _ _ => (hclosing after).bind

theorem record_refuses (hname : IsTypeName name) (after : List Char) :
    (record type).Refuses (name.toList ++ after) := by
  apply Refuses.bind
  apply Refuses.located
  apply Refuses.bind
  rcases hname with hword | rfl
  · exact hword.refuses_symbol rfl rfl after
  · exact Refuses.symbol rfl

theorem application_reads_name (hname : IsTypeName name) (loc : Loc) {chars : List Char}
    (hafter : Follows chars after) (hchars : EndWords chars) (hangle : '<' ∉ chars) :
    (application type).Reads (name.toList ++ after) after
      fun expr => expr.StandsFor (.ident name loc) := by
  have harguments : (some <$> arguments type <|> pure none).Reads after after
      fun found => found = none :=
    (hafter.refuses_symbol rfl hangle).bind.map.orElse_reads (Reads.pure rfl)
  apply Reads.located_bind (P := fun found => found.1.name = name ∧ found.2 = none)
  · apply (typeIdentifier_reads hname hafter hchars).bind
    intro id hid
    apply harguments.bind
    rintro _ rfl
    exact Reads.pure ⟨hid, rfl⟩
  · rintro loc' ⟨id, _⟩ ⟨hid, rfl⟩
    exact Reads.pure (TypeExpr.standsFor_identifier hid loc)

theorem application_reads (htype : ReadsBelow type bound) {arg : Ty} (hname : IsTypeName name)
    (harg : arg.Written .plain) (hwidth : width arg.chars < bound) (nameLoc loc : Loc)
    (after : List Char) :
    (application type).Reads (name.toList ++ '<' :: (arg.chars ++ '>' :: after)) after
      fun expr => expr.StandsFor (.app (.ident name nameLoc) arg loc) := by
  have hopen : (symbol "<").Reads ('<' :: (arg.chars ++ '>' :: after))
      (arg.chars ++ '>' :: after) fun _ => True := Reads.symbol rfl
  have hclose : (symbol ">").Reads ('>' :: after) after fun _ => True := Reads.symbol rfl
  have hend : Follows closers ('>' :: after) := follows_cons (by decide) rfl
  have hitems : (commaSeparated type).Reads (commaJoined ([arg].map chars) ++ '>' :: after)
      ('>' :: after) (Forall₂ (fun arg expr => expr.StandsFor arg) [arg]) := by
    apply commaSeparated_reads (by simp) (by decide) ?_ hend (Refuses.symbol rfl)
    intro arg' harg' rest hrest
    rw [mem_singleton.mp harg']
    exact htype arg harg hwidth rest hrest
  have hjoined : commaJoined ([arg].map chars) = arg.chars := by simp [commaJoined]
  rw [hjoined] at hitems
  have harguments : (arguments type).Reads ('<' :: (arg.chars ++ '>' :: after)) after
      (Forall₂ (fun arg expr => expr.StandsFor arg) [arg]) := by
    apply hopen.bind
    intro _ _
    apply hitems.bind
    intro exprs hexprs
    apply hclose.bind
    intro _ _
    exact Reads.pure hexprs
  have hfollows : Follows ['<'] ('<' :: (arg.chars ++ '>' :: after)) := follows_cons (by decide) rfl
  apply Reads.located_bind (P := fun found => found.1.name = name ∧
    ∃ expr, found.2 = some [expr] ∧ expr.StandsFor arg)
  · apply (typeIdentifier_reads hname hfollows (by decide)).bind
    intro id hid
    apply (Reads.map (harguments.imp ?_)).orElse.bind
    · intro found hfound
      exact Reads.pure ⟨hid, hfound⟩
    · intro exprs hexprs
      obtain ⟨expr, rest, hexpr, hrest, rfl⟩ := forall₂_cons_left_iff.mp hexprs
      cases hrest
      exact ⟨expr, rfl, hexpr⟩
  · rintro loc' ⟨id, _⟩ ⟨hid, expr, rfl, hexpr⟩
    exact Reads.pure (hexpr.application hid loc' nameLoc loc)

/-- What stands in front of the brackets of an operand. -/
def element (type : Parser TypeExpr) : Parser TypeExpr :=
  parenthesized type <|> record type <|> application type

section

variable (htype : ReadsBelow type bound) (hclosing : RefusesClosing type) (hty : ty.Written .plain)

include htype hclosing hty

/-- An operand is an element and a number of pairs of brackets behind it. -/
theorem element_reads (hwidth : width ty.operandChars ≤ bound) :
    ∃ (chars : List Char) (n : Nat),
      ty.operandChars = chars ++ (replicate n ()).flatMap (fun _ => ['[', ']']) ∧
      ∀ after, Follows ('[' :: '-' :: closers) after →
        (element type).Reads (chars ++ after) after
          fun expr => ∀ loc, ((TypeExpr.array loc)^[n] expr).StandsFor ty := by
  induction ty with
  | ident name loc =>
    cases hty with
    | ident _ hname =>
      refine ⟨name.toList, 0, by simp [operandChars_ident], ?_⟩
      intro after hafter
      apply (parenthesized_refuses hclosing hname after).orElse_reads
      apply (record_refuses hname after).orElse_reads
      exact (application_reads_name hname loc hafter (by decide) (by decide)).imp
        fun expr hexpr loc' => hexpr
  | arrow arg ret _ _ =>
    refine ⟨(Ty.arrow arg ret).operandChars, 0, by simp, ?_⟩
    intro after hafter
    rw [operandChars_arrow] at hwidth ⊢
    have hless : width (Ty.arrow arg ret).chars < bound := by
      simp +decide [width_cons] at hwidth
      omega
    have hopen : (symbol "(").Reads
        ('(' :: ((Ty.arrow arg ret).chars ++ [')']) ++ after)
        ((Ty.arrow arg ret).chars ++ ')' :: after) fun _ => True :=
      Reads.symbol (by simp +decide [skipped])
    have hclose : (symbol ")").Reads (')' :: after) after fun _ => True := Reads.symbol rfl
    have hend : Follows closers (')' :: after) := follows_cons (by decide) rfl
    apply Reads.orElse
    apply hopen.bind
    intro _ _
    apply (htype _ hty hless _ hend).bind
    intro expr hexpr
    apply hclose.bind
    intro _ _
    exact Reads.pure fun loc => hexpr
  | app callee arg loc _ ih =>
    cases hty with
    | @app name _ nameLoc _ hname harg =>
      by_cases harray : name = "Array"
      · subst harray
        rw [operandChars_app, chars_array] at hwidth ⊢
        have hle : width arg.operandChars ≤ bound := by
          rw [width_append] at hwidth
          omega
        obtain ⟨chars, n, hchars, hreads⟩ := ih harg hle
        refine ⟨chars, n + 1, ?_, ?_⟩
        · rw [hchars, replicate_succ', flatMap_append, append_assoc]
          rfl
        · intro after hafter
          apply (hreads after hafter).imp
          intro expr hexpr loc'
          rw [Function.iterate_succ_apply']
          exact (hexpr loc').array loc' nameLoc loc
      · refine ⟨(app (.ident name nameLoc) arg loc).operandChars, 0, by simp, ?_⟩
        intro after hafter
        rw [operandChars_app, chars_app harray] at hwidth ⊢
        have hless : width arg.chars < bound := by
          simp +decide [width_cons] at hwidth
          omega
        have htext : name.toList ++ '<' :: (arg.chars ++ ['>']) ++ after =
            name.toList ++ '<' :: (arg.chars ++ '>' :: after) := by simp
        rw [htext]
        apply (parenthesized_refuses hclosing hname _).orElse_reads
        apply (record_refuses hname _).orElse_reads
        exact (application_reads htype hname harg hless nameLoc loc after).imp
          fun expr hexpr loc' => hexpr
  | record row label _ =>
    cases hty with
    | record hrow =>
      refine ⟨(Ty.record row none).operandChars, 0, by simp, ?_⟩
      intro after hafter
      have hrefuses : (parenthesized type).Refuses ((Ty.record row none).chars ++ after) := by
        apply Refuses.bind
        by_cases hempty : row = .emptyRow
        · subst hempty
          exact Refuses.symbol rfl
        · rw [chars_record hempty]
          exact Refuses.symbol rfl
      apply hrefuses.orElse_reads
      apply Reads.orElse
      exact (record_reads htype hrow hwidth after).imp fun expr hexpr loc => hexpr
  | _ => cases hty

theorem operand_reads (hwidth : width ty.operandChars ≤ bound)
    (hafter : Follows ('-' :: closers) after) :
    (operand type).Reads (ty.operandChars ++ after) after fun expr => expr.StandsFor ty := by
  obtain ⟨chars, n, hchars, hreads⟩ := element_reads htype hclosing hty hwidth
  rw [hchars, append_assoc]
  have hfollows : Follows ('[' :: '-' :: closers)
      ((replicate n ()).flatMap (fun _ => ['[', ']']) ++ after) := by
    cases n with
    | zero => exact hafter.mono (subset_cons_self ..)
    | succ n => exact follows_cons (by decide) rfl
  have hbrackets : (symbol "[]").many.Reads
      ((replicate n ()).flatMap (fun _ => ['[', ']']) ++ after) after
      (Forall₂ (fun _ _ => True) (replicate n ())) :=
    Reads.many (hafter.refuses_symbol rfl (by decide)) (fun _ _ rest => Reads.symbol rfl)
      fun _ _ => by decide
  apply Reads.located_bind (P := fun found =>
    (∀ loc, ((TypeExpr.array loc)^[n] found.1).StandsFor ty) ∧ found.2.length = n)
  · apply (hreads _ hfollows).bind
    intro expr hexpr
    apply hbrackets.bind
    intro brackets hlength
    exact Reads.pure ⟨hexpr, by simpa using hlength.length_eq.symm⟩
  · rintro loc ⟨expr, brackets⟩ ⟨hexpr, rfl⟩
    apply Reads.pure
    rw [foldl_const]
    exact hexpr loc

/-- A type that needs no parentheses as an operand is one with no arrow behind it. -/
theorem arrow_reads_operand (hchars : ty.operandChars = ty.chars) (hwidth : width ty.chars ≤ bound)
    (hafter : Follows closers after) :
    (arrow type).Reads (ty.chars ++ after) after fun expr => expr.StandsFor ty := by
  rw [← hchars] at hwidth ⊢
  have hmark : (symbol "->").Refuses after := hafter.refuses_symbol rfl (by decide)
  apply Reads.located_bind (P := fun found => found.1.StandsFor ty ∧ found.2 = none)
  · apply (operand_reads htype hclosing hty hwidth (hafter.mono (subset_cons_self ..))).bind
    intro expr hexpr
    apply hmark.bind.optional.bind
    intro body hbody
    exact Reads.pure ⟨hexpr, hbody⟩
  · rintro loc ⟨expr, _⟩ ⟨hexpr, rfl⟩
    exact Reads.pure hexpr

theorem arrow_reads (hwidth : width ty.chars ≤ bound) (hafter : Follows closers after) :
    (arrow type).Reads (ty.chars ++ after) after fun expr => expr.StandsFor ty := by
  cases hty with
  | @arrow arg ret harg hret =>
    rw [chars_arrow] at hwidth ⊢
    have hwidths : width arg.operandChars ≤ bound ∧ width ret.chars < bound := by
      simp +decide [width_cons] at hwidth
      omega
    have hmark : (symbol "->").Reads
        (' ' :: '-' :: '>' :: ' ' :: (ret.chars ++ after)) (' ' :: (ret.chars ++ after))
        fun _ => True := Reads.symbol rfl
    have hend : Follows ('-' :: closers) (' ' :: '-' :: '>' :: ' ' :: (ret.chars ++ after)) :=
      (follows_cons (by decide) rfl).blank rfl
    have hret := htype ret hret hwidths.2 after hafter
    have htext : arg.operandChars ++ ' ' :: '-' :: '>' :: ' ' :: ret.chars ++ after =
        arg.operandChars ++ (' ' :: '-' :: '>' :: ' ' :: (ret.chars ++ after)) := by simp
    rw [htext]
    apply Reads.located_bind (P := fun found => found.1.StandsFor arg ∧
      ∃ body, found.2 = some body ∧ body.StandsFor ret)
    · apply (operand_reads htype hclosing harg hwidths.1 hend).bind
      intro expr hexpr
      apply (hmark.bind fun _ _ => hret.of_skipped rfl).optional.bind
      intro body hbody
      exact Reads.pure ⟨hexpr, hbody⟩
    · rintro loc ⟨expr, _⟩ ⟨hexpr, body, rfl, hbody⟩
      exact Reads.pure (hexpr.arrow hbody loc)
  | ident loc hname => exact arrow_reads_operand htype hclosing (.ident loc hname) rfl hwidth hafter
  | app nameLoc loc hname harg =>
    exact arrow_reads_operand htype hclosing (.app nameLoc loc hname harg) rfl hwidth hafter
  | record hrow => exact arrow_reads_operand htype hclosing (.record hrow) rfl hwidth hafter

end

theorem typeUpTo_refusesClosing (depth : Nat) : RefusesClosing (typeUpTo depth) := by
  intro after
  cases depth with
  | zero => exact fun cursor _ => ⟨cursor.offset, rfl⟩
  | succ depth =>
    have hname : (word <|> unitName).Refuses (')' :: after) :=
      (Refuses.word (by simp +decide [skipped])).orElse (Refuses.oneOf rfl)
    have helement : (element (typeUpTo depth)).Refuses (')' :: after) := by
      apply Refuses.orElse (Refuses.symbol rfl).bind
      apply Refuses.orElse (Refuses.symbol rfl).bind.located.bind
      exact hname.located.bind.bind.located.bind
    exact helement.bind.located.bind.bind.located.bind

/-- The depth bounds the width of what is read, since brackets and arrows have a width. -/
theorem typeUpTo_readsBelow (depth : Nat) : ReadsBelow (typeUpTo depth) depth := by
  induction depth with
  | zero => exact fun ty _ hwidth => absurd hwidth (Nat.not_lt_zero _)
  | succ depth ih =>
    intro ty hty hwidth after hafter
    exact arrow_reads ih (typeUpTo_refusesClosing depth) hty (Nat.le_of_lt_succ hwidth) hafter

/-- A printed type is read as that type, where nothing follows that could belong to it. -/
theorem type_reads (hty : ty.Written .plain) (hafter : Follows closers after) :
    TypeGrammar.type.Reads (ty.chars ++ after) after fun expr => expr.StandsFor ty := by
  intro cursor hcursor
  have hwidth : width ty.chars < cursor.ahead.length + 1 := by
    calc width ty.chars ≤ width (ty.chars ++ after) := by simp
      _ = width cursor.ahead := by rw [← width_skipped, ← hcursor, width_skipped]
      _ < cursor.ahead.length + 1 := Nat.lt_succ_of_le (width_le_length _)
  exact typeUpTo_readsBelow _ ty hty hwidth after hafter cursor hcursor

end TypeGrammar

end RowScript
