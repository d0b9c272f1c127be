import RowScript.Checker.Basic
import RowScript.Proofs.Reading
import RowScript.Signature.Grammar
import RowScript.Signature.Types

/-!
# Printed types can be read

A type is printed so that reading the text gives the type back, up to the ranges of its names.
Placeholders, labelled records and inner generic types have no written form.
-/

namespace RowScript

open Text Parser List

variable {params : List String} {spelling : String} {tail : List Char}

/-- Words of the notation. -/
def IsWord (name : String) : Prop := name ≠ "" ∧ ∀ c ∈ name.toList, isKeywordChar c = true

/-- Names of types: words, and the two parentheses. -/
def IsTypeName (name : String) : Prop := IsWord name ∨ name = "()"

/-- Characters that can stand behind a word. -/
def EndWords (chars : List Char) : Prop := ∀ c ∈ chars, isKeywordChar c = false

-- decided on the list, since all characters could be gone through as well
instance (name : String) : Decidable (IsWord name) :=
  decidable_of_iff (name ≠ "" ∧ name.toList.all isKeywordChar = true) (by simp [IsWord])

instance (chars : List Char) : Decidable (EndWords chars) :=
  decidable_of_iff (chars.all (!isKeywordChar ·) = true) (by simp [EndWords])

instance (name : String) : Decidable (IsTypeName name) :=
  inferInstanceAs (Decidable (_ ∨ _))

/-- The places in which a type can be written. -/
inductive WrittenPlace where
  /-- Types without parameters in front. -/
  | plain
  /-- Types behind a name or a key that has their parameters. -/
  | scheme
  /-- Rows between the braces of a record. -/
  | row

/-- Types that have a written form. -/
inductive Ty.Written : WrittenPlace → Ty → Prop where
  | ident {name : String} (loc : Loc) (hname : IsTypeName name) : Written .plain (.ident name loc)
  | arrow {arg ret : Ty} (harg : Written .plain arg) (hret : Written .plain ret) :
      Written .plain (.arrow arg ret)
  | app {name : String} {arg : Ty} (nameLoc loc : Loc) (hname : IsTypeName name)
      (harg : Written .plain arg) : Written .plain (.app (.ident name nameLoc) arg loc)
  | record {row : Ty} (hrow : Written .row row) : Written .plain (.record row none)
  | simple {ty : Ty} (hty : Written .plain ty) : Written .scheme ty
  | generic {param : String} {body : Ty} (hparam : IsWord param) (hbody : Written .scheme body) :
      Written .scheme (.generic param body)
  | emptyRow : Written .row .emptyRow
  | spread {name : String} (loc : Loc) (hname : IsTypeName name) : Written .row (.ident name loc)
  | field {key : String} {type base : Ty} (hkey : IsWord key) (htype : Written .scheme type)
      (hbase : Written .row base) : Written .row (.field key type base)

namespace Ty

/-- The text of a type without its leading parameters. -/
def chars (ty : Ty) : List Char := (print false false ty).1.toList

/-- The text of a type where it is an operand. -/
def operandChars (ty : Ty) : List Char := (parenthesized ty (print false false ty).1).toList

/-- The text of a row. -/
def rowChars (row : Ty) : List Char := (print true false row).1.toList

end Ty

/-- Texts with commas between them. -/
def commaJoined : List (List Char) → List Char
  | [] => []
  | first :: rest => first ++ rest.flatMap fun text => ',' :: ' ' :: text

theorem commaJoined_append_singleton {texts : List (List Char)} (hne : texts ≠ [])
    (text : List Char) :
    commaJoined (texts ++ [text]) = commaJoined texts ++ ',' :: ' ' :: text := by
  cases texts with
  | nil => exact absurd rfl hne
  | cons first rest => simp [commaJoined]

theorem intercalate_eq_commaJoined (texts : List (List Char)) :
    [',', ' '].intercalate texts = commaJoined texts := by
  induction texts with
  | nil => rfl
  | cons first rest ih =>
    cases rest with
    | nil => simp [commaJoined, intercalate_singleton]
    | cons next rest =>
      rw [intercalate_cons_cons, ih]
      simp [commaJoined]

/-- Parameters in angle brackets. -/
def angledChars (params : List String) : List Char := (Ty.angled params).toList

@[simp]
theorem angledChars_nil : angledChars [] = [] := rfl

theorem angledChars_of_ne_nil (hne : params ≠ []) :
    angledChars params = '<' :: (commaJoined (params.map String.toList) ++ ['>']) := by
  have hempty : params.isEmpty = false := by simpa using hne
  simp [angledChars, Ty.angled, hempty, intercalate_eq_commaJoined]

namespace Ty

theorem operandChars_ident (name : String) (loc : Loc) :
    (ident name loc).operandChars = name.toList := rfl

theorem chars_arrow (arg ret : Ty) :
    (arrow arg ret).chars = arg.operandChars ++ ' ' :: '-' :: '>' :: ' ' :: ret.chars := by
  show (parenthesized arg (arg.print false false).1 ++ " -> " ++ (ret.print false false).1).toList =
    _
  simp [chars, operandChars]

theorem operandChars_arrow (arg ret : Ty) :
    (arrow arg ret).operandChars = '(' :: ((arrow arg ret).chars ++ [')']) := by
  show ("(" ++ ((arrow arg ret).print false false).1 ++ ")").toList = _
  simp [chars]

/-- Only a function looks different as an operand. -/
theorem operandChars_app (callee arg : Ty) (loc : Loc) :
    (app callee arg loc).operandChars = (app callee arg loc).chars := rfl

theorem chars_app_ident (name : String) (nameLoc loc : Loc) (arg : Ty) :
    (app (ident name nameLoc) arg loc).chars =
      (if name = "Array" then parenthesized arg (arg.print false false).1 ++ "[]"
      else name ++ "<" ++ (arg.print false false).1 ++ ">").toList := rfl

theorem chars_array (nameLoc loc : Loc) (arg : Ty) :
    (app (ident "Array" nameLoc) arg loc).chars = arg.operandChars ++ ['[', ']'] := by
  simp [chars_app_ident, operandChars]

theorem chars_app {name : String} (hname : name ≠ "Array") (nameLoc loc : Loc) (arg : Ty) :
    (app (ident name nameLoc) arg loc).chars = name.toList ++ '<' :: (arg.chars ++ ['>']) := by
  rw [chars_app_ident, if_neg hname]
  simp [chars]

theorem chars_record {row : Ty} (hrow : row ≠ emptyRow) :
    (record row none).chars = '\x7b' :: ' ' :: (row.rowChars ++ [' ', '\x7d']) := by
  cases row with
  | emptyRow => exact absurd rfl hrow
  | _ =>
    show ("\x7b " ++ (print true false _).1 ++ " \x7d").toList = _
    simp [rowChars]

/-- The leading parameters are not part of the text. -/
theorem print_eq (inRow hideTail : Bool) (ty : Ty) :
    ty.print inRow hideTail = ((ty.body.print inRow hideTail).1, ty.params) := by
  induction ty with
  | generic param body ih =>
    show ((body.print inRow hideTail).1, param :: (body.print inRow hideTail).2) = _
    rw [ih]
    rfl
  | record row label =>
    cases label with
    | some label => rfl
    | none => cases row <;> rfl
  | _ => rfl

theorem rowChars_ident (name : String) (loc : Loc) :
    (ident name loc).rowChars = '.' :: '.' :: '.' :: name.toList := by
  show ("..." ++ name).toList = _
  simp

/-- The text of a field. -/
def fieldChars (key : String) (type : Ty) : List Char :=
  key.toList ++ (angledChars type.params ++ ':' :: ' ' :: type.body.chars)

theorem rowChars_field (key : String) (type base : Ty) :
    (field key type base).rowChars =
      if base.rowChars = [] then fieldChars key type
      else base.rowChars ++ ',' :: ' ' :: fieldChars key type := by
  have htext : (field key type base).rowChars =
      (if (base.print true false).1.isEmpty then
        key ++ angled (type.print false false).2 ++ ": " ++ (type.print false false).1
      else (base.print true false).1 ++ ", " ++
        (key ++ angled (type.print false false).2 ++ ": " ++ (type.print false false).1)).toList :=
    rfl
  rw [htext, print_eq false false type]
  by_cases hempty : (base.print true false).1 = ""
  · simp [hempty, rowChars, fieldChars, angledChars, chars]
  · have hne : (base.print true false).1.toList ≠ [] := by simpa using hempty
    simp [hempty, rowChars, fieldChars, angledChars, chars]

end Ty

/-- The next character behind blanks is one of the given ones, if there is one. -/
def Follows (chars after : List Char) : Prop := ∀ c, (skipped after).head? = some c → c ∈ chars

/-- The characters that can stand behind a whole type: what closes a bracket around it,
and the comma before the next field. -/
def closers : List Char := [')', '>', ',', '\x7d']

section Follows

variable {chars after : List Char} {c : Char}

theorem follows_nil : Follows chars [] := by
  intro c hc
  cases hc

theorem follows_cons (hc : c ∈ chars) (hblank : isBlank c = false) :
    Follows chars (c :: after) := by
  intro d hd
  rw [skipped_cons_of_not_isBlank hblank] at hd
  cases hd
  exact hc

theorem Follows.blank (hafter : Follows chars after) (hblank : isBlank c) :
    Follows chars (c :: after) := by
  intro d hd
  rw [skipped_cons_of_isBlank hblank] at hd
  exact hafter d hd

theorem Follows.mono {more : List Char} (hafter : Follows chars after) (hchars : chars ⊆ more) :
    Follows more after :=
  fun c hc => hchars (hafter c hc)

theorem isKeywordChar_eq_false_of_isBlank (hblank : isBlank c) : isKeywordChar c = false := by
  simp only [isBlank, Bool.or_eq_true, decide_eq_true_eq] at hblank
  rcases hblank with ((rfl | rfl) | rfl) | rfl <;> decide

/-- No word goes on where such a character follows. -/
theorem Follows.isKeywordChar_eq_false (hafter : Follows chars after) (hchars : EndWords chars)
    (hc : after.head? = some c) : isKeywordChar c = false := by
  cases after with
  | nil => cases hc
  | cons d rest =>
    cases hc
    cases hblank : isBlank c with
    | true => exact isKeywordChar_eq_false_of_isBlank hblank
    | false => exact hchars c (hafter c (by rw [skipped_cons_of_not_isBlank hblank]; rfl))

/-- A symbol is not there if its first character cannot follow. -/
theorem Follows.refuses_symbol (hafter : Follows chars after) {d : Char}
    (hspelling : spelling.toList = d :: tail) (hd : d ∉ chars) :
    (symbol spelling).Refuses after := by
  apply Refuses.symbol
  rw [hspelling]
  cases hskipped : skipped after with
  | nil => rfl
  | cons c rest =>
    have hc : c ∈ chars := hafter c (by rw [hskipped]; rfl)
    have hne : d ≠ c := by
      rintro rfl
      exact hd hc
    simp [isPrefixOf, hne]

end Follows

theorem IsWord.exists_cons {name : String} (hname : IsWord name) :
    ∃ c tail, name.toList = c :: tail ∧ isKeywordChar c ∧ isBlank c = false := by
  cases hchars : name.toList with
  | nil => exact absurd (String.toList_eq_nil_iff.mp hchars) hname.1
  | cons c tail =>
    have hc : isKeywordChar c := hname.2 c (by simp [hchars])
    refine ⟨c, tail, rfl, hc, ?_⟩
    cases hblank : isBlank c with
    | true => simp [isKeywordChar_eq_false_of_isBlank hblank] at hc
    | false => rfl

/-- Nothing but a word starts like a word. -/
theorem IsWord.refuses_symbol {name : String} (hname : IsWord name) {d : Char}
    (hspelling : spelling.toList = d :: tail) (hd : isKeywordChar d = false) (after : List Char) :
    (symbol spelling).Refuses (name.toList ++ after) := by
  obtain ⟨c, rest, hchars, hc, hblank⟩ := hname.exists_cons
  have hfollows : Follows [c] (name.toList ++ after) := by
    rw [hchars]
    exact follows_cons (by simp) hblank
  apply hfollows.refuses_symbol hspelling
  rw [mem_singleton]
  rintro rfl
  simp [hd] at hc

namespace TypeGrammar

open RowScript.Text.Parser (Reads Refuses)

variable {after chars : List Char} {name : String}

theorem word_reads (hname : IsWord name) (hafter : Follows chars after) (hchars : EndWords chars) :
    word.Reads (name.toList ++ after) after fun found => found = name := by
  obtain ⟨c, tail, hcons, hc, hblank⟩ := hname.exists_cons
  have hbefore : skipped (name.toList ++ after) = name.toList ++ after := by
    rw [hcons]
    exact skipped_cons_of_not_isBlank hblank
  have hread := Reads.word (by simp [hcons]) hname.2 hbefore
    fun d hd => hafter.isKeywordChar_eq_false hchars hd
  rw [String.ofList_toList] at hread
  exact hread

theorem wordIdentifier_reads (hname : IsWord name) (hafter : Follows chars after)
    (hchars : EndWords chars) :
    wordIdentifier.Reads (name.toList ++ after) after fun id => id.name = name := by
  apply (word_reads hname hafter hchars).located_bind
  intro loc found hfound
  exact Reads.pure hfound

theorem typeIdentifier_reads (hname : IsTypeName name) (hafter : Follows chars after)
    (hchars : EndWords chars) :
    typeIdentifier.Reads (name.toList ++ after) after fun id => id.name = name := by
  have hread : (word <|> unitName).Reads (name.toList ++ after) after
      fun found => found = name := by
    rcases hname with hname | rfl
    · exact (word_reads hname hafter hchars).orElse
    · have hword : word.Refuses ("()".toList ++ after) := Refuses.word (by simp +decide [skipped])
      exact hword.orElse_reads (Reads.oneOf rfl)
  apply hread.located_bind
  intro loc found hfound
  exact Reads.pure hfound

/-- Items with commas between them are read if each of them is, whatever follows it. -/
theorem commaSeparated_reads {ι α : Type} {p : Parser α} {text : ι → List Char}
    {means : ι → α → Prop} {items : List ι} (hne : items ≠ []) (hcomma : ',' ∈ chars)
    (hitems : ∀ item ∈ items, ∀ rest, Follows chars rest →
      p.Reads (text item ++ rest) rest (means item))
    (hafter : Follows chars after) (hstop : (symbol ",").Refuses after) :
    (commaSeparated p).Reads (commaJoined (items.map text) ++ after) after
      (Forall₂ means items) := by
  cases items with
  | nil => exact absurd rfl hne
  | cons first others =>
    rw [forall_mem_cons] at hitems
    have hfollows : ∀ rest : List ι,
        Follows chars ((rest.flatMap fun item => ',' :: ' ' :: text item) ++ after) := by
      intro rest
      cases rest with
      | nil => exact hafter
      | cons item rest => exact follows_cons hcomma rfl
    have htext : commaJoined ((first :: others).map text) ++ after =
        text first ++ ((others.flatMap fun item => ',' :: ' ' :: text item) ++ after) := by
      simp [commaJoined, flatMap_map]
    rw [htext]
    -- behind the first item, each comma starts another one
    have hother : ∀ item ∈ others, ∀ rest : List ι,
        (symbol "," >>= fun _ => p).Reads
          ((',' :: ' ' :: text item) ++
            ((rest.flatMap fun item => ',' :: ' ' :: text item) ++ after))
          ((rest.flatMap fun item => ',' :: ' ' :: text item) ++ after) (means item) := by
      intro item hitem rest
      have hsymbol : (symbol ",").Reads
          ((',' :: ' ' :: text item) ++
            ((rest.flatMap fun item => ',' :: ' ' :: text item) ++ after))
          (' ' :: (text item ++ ((rest.flatMap fun item => ',' :: ' ' :: text item) ++ after)))
          fun _ => True := Reads.symbol rfl
      apply hsymbol.bind
      intro _ _
      exact (hitems.2 item hitem _ (hfollows rest)).of_skipped rfl
    apply (hitems.1 _ (hfollows others)).bind
    intro value hvalue
    apply (Reads.many hstop.bind hother fun item _ => by simp +decide [width_cons]).bind
    intro values hvalues
    exact Reads.pure (.cons hvalue hvalues)

theorem params_reads (hparams : ∀ param ∈ params, IsWord param) (hafter : Follows [':'] after) :
    TypeGrammar.params.Reads (angledChars params ++ after) after
      fun ids => ids.map (·.name) = params := by
  by_cases hempty : params = []
  · subst hempty
    have hrefuses : (symbol "<").Refuses after :=
      hafter.refuses_symbol rfl (by decide)
    apply hrefuses.bind.optional.bind
    rintro _ rfl
    exact Reads.pure rfl
  · rw [angledChars_of_ne_nil hempty]
    have hopen : (symbol "<").Reads
        (('<' :: (commaJoined (params.map String.toList) ++ ['>'])) ++ after)
        (commaJoined (params.map String.toList) ++ '>' :: after) fun _ => True :=
      Reads.symbol (by simp +decide [skipped])
    have hclose : (symbol ">").Reads ('>' :: after) after fun _ => True := Reads.symbol rfl
    have hend : Follows [',', '>'] ('>' :: after) := follows_cons (by decide) rfl
    have hwords : (commaSeparated wordIdentifier).Reads
        (commaJoined (params.map String.toList) ++ '>' :: after) ('>' :: after)
        (Forall₂ (fun param id => id.name = param) params) :=
      commaSeparated_reads hempty (by decide) (fun param hparam rest hrest =>
        wordIdentifier_reads (hparams param hparam) hrest (by decide)) hend (Refuses.symbol rfl)
    have hangled : (do
        symbol "<"
        let params ← commaSeparated wordIdentifier
        symbol ">"
        return params : Parser (List Identifier)).Reads
          (('<' :: (commaJoined (params.map String.toList) ++ ['>'])) ++ after) after
          (Forall₂ (fun param id => id.name = param) params) := by
      apply hopen.bind
      intro _ _
      apply hwords.bind
      intro ids hids
      apply hclose.bind
      intro _ _
      exact Reads.pure hids
    apply hangled.optional.bind
    rintro _ ⟨ids, rfl, hids⟩
    apply Reads.pure
    clear hangled hwords hclose hend hopen hempty hparams
    induction hids with
    | nil => rfl
    | cons hid _ ih => simpa using ⟨hid, by simpa using ih⟩

end TypeGrammar

end RowScript
