import RowScript.Proofs.ScriptCommands
import RowScript.Proofs.ScriptRanges

/-!
# The nodes of written types

A comment is read with everything around it blanked, and every production of the grammar of types
gives trees that are faithful to the text. So ranges say where everything is written, in a script
and in its comments.
-/

namespace RowScript

open Text Parser List

mutual

def TypeExpr.node : TypeExpr → Node
  | .identifier id => id.node
  | .arrow loc argument body => .mk loc none [argument.node, body.node]
  | .application loc callee arguments => .mk loc none (callee.node :: TypeExpr.nodes arguments)
  | .array loc element => .mk loc none [element.node]
  | .record loc properties => .mk loc none (TypeProperty.nodes properties)
  | .abstraction loc params body => .mk loc none (body.node :: params.map Identifier.node)

def TypeExpr.nodes : List TypeExpr → List Node
  | [] => []
  | type :: rest => type.node :: TypeExpr.nodes rest

def TypeProperty.node : TypeProperty → Node
  | .spread loc argument => .mk loc none [argument.node]
  | .field loc key value => .mk loc none [key.node, value.node]

def TypeProperty.nodes : List TypeProperty → List Node
  | [] => []
  | property :: rest => property.node :: TypeProperty.nodes rest

end

def TypeDeclaration.node (declaration : TypeDeclaration) : Node :=
  .mk declaration.loc none [declaration.id.node, declaration.init.node]

variable {text code : List Char} {α : Type} {comment : Comment} {view : α → Node} {values : List α}

theorem Node.allFaithful_of_lined {range : Loc}
    (hlined : Lined (fun value => (view value).loc) (fun value => (view value).Faithful text)
      range values) : AllFaithful text range (values.map view) := by
  rw [allFaithful_iff, forall_mem_map]
  exact fun value hvalue => (hlined.each value hvalue).symm

theorem TypeExpr.nodes_eq_map (types : List TypeExpr) :
    TypeExpr.nodes types = types.map TypeExpr.node := by
  induction types with
  | nil => rfl
  | cons type rest ih => rw [TypeExpr.nodes, ih, map_cons]

theorem TypeProperty.nodes_eq_map (properties : List TypeProperty) :
    TypeProperty.nodes properties = properties.map TypeProperty.node := by
  induction properties with
  | nil => rfl
  | cons property rest ih => rw [TypeProperty.nodes, ih, map_cons]

/-- The parser gives faithful trees that lie where they were read. -/
abbrev PlacesNode {α : Type} (text code : List Char) (p : Parser α) (view : α → Node) : Prop :=
  p.Places code (fun value => (view value).loc) fun value => (view value).Faithful text

/-- A type with parameters covers its parameters and the type. -/
theorem TypeExpr.faithful_withParams (loc : Loc) {params : List Identifier} {body : TypeExpr}
    (hinside : body.node.loc.Inside loc) (hbody : body.node.Faithful text)
    (hparams : Node.AllFaithful text loc (params.map Identifier.node)) :
    (TypeExpr.withParams loc params body).node.loc.Inside loc ∧
      (TypeExpr.withParams loc params body).node.Faithful text := by
  rw [withParams]
  split
  · exact ⟨hinside, hbody⟩
  · exact ⟨.refl hinside.outer, by simp [TypeExpr.node, hinside, hbody, hparams]⟩

section

variable {cursor rest : Cursor} (hblanked : Blanked text code)
include hblanked

namespace TypeGrammar

theorem places_wordIdentifier : PlacesNode text code wordIdentifier Identifier.node :=
  (places_wordOf hblanked (by decide) (by decide)).make (fun _ => rfl)
    fun _ hname => by simpa using hname

theorem places_unitName :
    unitName.located.Places code Prod.fst fun result => result.1.slice text = result.2.toList := by
  rw [unitName, oneOf]
  refine places_token hblanked fun ahead word n hread => ?_
  obtain ⟨found, hfind, hfound⟩ := Option.map_eq_some_iff.mp hread
  have hlead : found.1.toList <+: ahead := by simpa using find?_some hfind
  obtain rfl := mem_singleton.mp (mem_of_find?_eq_some hfind)
  obtain ⟨rfl, rfl⟩ := Prod.mk.inj hfound
  exact ⟨prefix_iff_eq_take.mp hlead, by decide⟩

theorem places_typeIdentifier : PlacesNode text code typeIdentifier Identifier.node :=
  (Places.located_orElse (places_wordOf hblanked (by decide) (by decide))
    (places_unitName hblanked)).make (fun _ => rfl) fun _ hname => by simpa using hname

omit hblanked in
theorem faithful_of_angles {item : Parser α} (hitem : PlacesNode text code item view)
    (hon : cursor.On code)
    (hdone : (do
      symbol "<"
      let values ← commaSeparated item
      symbol ">"
      return values : Parser (List α)) cursor = .done values rest) :
    rest.On code ∧ cursor.skipBlanks.position ≤ rest.position ∧
      Node.AllFaithful text ⟨cursor.skipBlanks.position, rest.position⟩ (values.map view) := by
  simp only [bind_eq_done, pure_eq_done] at hdone
  obtain ⟨_, opened, hopened, found, closing, hvalues, _, closed, hclosed, rfl, rfl⟩ := hdone
  have hopened := on_symbol hon hopened (by decide)
  obtain ⟨hclosing, hle, hlined⟩ := hitem.commaSeparated _ _ _ hopened.1 hvalues
  have hclosed := on_symbol hclosing hclosed (by decide)
  exact ⟨hclosed.1, by grind, (Node.allFaithful_of_lined hlined).mono (by grind) (by grind)⟩

theorem faithful_params {values : List Identifier} (hon : cursor.On code)
    (hdone : params cursor = .done values rest) :
    rest.On code ∧ cursor.skipBlanks.position ≤ rest.position ∧ Node.AllFaithful text
      ⟨cursor.skipBlanks.position, rest.position⟩ (values.map Identifier.node) := by
  simp only [params, bind_eq_done, pure_eq_done] at hdone
  obtain ⟨found, middle, hfound, rfl, rfl⟩ := hdone
  obtain ⟨values, rfl, hread⟩ | ⟨rfl, rfl⟩ := optional_eq_done hfound
  · exact faithful_of_angles (places_wordIdentifier hblanked) hon hread
  · exact ⟨hon.skipBlanks, le_refl _, by simp⟩

section

variable {type : Parser TypeExpr} (htype : PlacesNode text code type TypeExpr.node)
include htype

theorem places_application : PlacesNode text code (application type) TypeExpr.node := by
  intro cursor value rest hon hdone
  simp only [application, bind_eq_done, located_eq_done, pure_eq_done] at hdone
  obtain ⟨⟨loc, callee, found⟩, last, ⟨⟨id, middle, hid, others, stop, hothers, heq, rfl⟩, rfl⟩,
    rfl, rfl⟩ := hdone
  obtain ⟨rfl, rfl⟩ := Prod.mk.inj heq
  obtain ⟨hmiddle, hid⟩ := places_typeIdentifier hblanked _ _ _ hon hid
  obtain hothers | hothers := of_orElse_eq_done hothers
  · obtain ⟨values, hvalues, rfl⟩ := map_eq_done.mp hothers
    obtain ⟨hstop, hle, hvalues⟩ := faithful_of_angles htype hmiddle hvalues
    have hvalues : Node.AllFaithful text ⟨cursor.skipBlanks.position, stop.position⟩
        (TypeExpr.nodes values) := by
      rw [TypeExpr.nodes_eq_map]
      exact hvalues.mono (by grind) (by grind)
    grind [TypeExpr.node, Node.loc]
  · obtain ⟨rfl, rfl⟩ := pure_eq_done.mp hothers
    exact ⟨hmiddle, hid⟩

theorem places_property : PlacesNode text code (property type) TypeProperty.node := by
  refine .orElse ?_ ?_
  · intro cursor value rest hon hdone
    simp only [bind_eq_done, located_eq_done, pure_eq_done] at hdone
    obtain ⟨⟨loc, argument⟩, last, ⟨⟨_, dots, hdots, hargument⟩, rfl⟩, rfl, rfl⟩ := hdone
    have hdots := on_symbol hon hdots (by decide)
    have hargument := places_typeIdentifier hblanked _ _ _ hdots.1 hargument
    grind [TypeProperty.node, Node.loc]
  · intro cursor value rest hon hdone
    simp only [bind_eq_done, located_eq_done, pure_eq_done] at hdone
    obtain ⟨⟨loc, key, params, content⟩, last, ⟨⟨foundKey, afterKey, hkey, foundParams, afterParams,
      hparams, _, colon, hcolon, foundValue, afterValue, hvalue, heq, rfl⟩, rfl⟩, rfl, rfl⟩ := hdone
    obtain ⟨rfl, rfl, rfl⟩ : foundKey = key ∧ foundParams = params ∧ foundValue = content := by
      simpa using heq
    have hkey := places_wordIdentifier hblanked _ _ _ hon hkey
    obtain ⟨hafter, hle, hparams⟩ := faithful_params hblanked hkey.1 hparams
    have hcolon := on_symbol hafter hcolon (by decide)
    obtain ⟨hlast, hvalue, hinside⟩ := htype _ _ _ hcolon.1 hvalue
    have hcontent := TypeExpr.faithful_withParams
      ⟨cursor.skipBlanks.position, afterValue.position⟩ (by grind) hvalue
      (hparams.mono (by grind) (by grind))
    grind [TypeProperty.node, Node.loc]

theorem places_record : PlacesNode text code (record type) TypeExpr.node := by
  intro cursor value rest hon hdone
  simp only [record, bind_eq_done, located_eq_done, pure_eq_done] at hdone
  obtain ⟨⟨loc, properties⟩, last, ⟨hbetween, rfl⟩, rfl, rfl⟩ := hdone
  obtain ⟨hlast, hlt, hlined, -⟩ :=
    (places_property hblanked htype).commaSeparated.between hon hbetween (by decide)
  have hall := Node.allFaithful_of_lined hlined
  rw [← TypeProperty.nodes_eq_map] at hall
  grind [TypeExpr.node, Node.loc]

omit hblanked in
theorem places_parenthesized : PlacesNode text code (parenthesized type) TypeExpr.node := by
  intro cursor value rest hon hdone
  simp only [parenthesized, bind_eq_done, pure_eq_done] at hdone
  obtain ⟨_, opened, hopened, inner, middle, hinner, _, closed, hclosed, rfl, rfl⟩ := hdone
  have hopened := on_symbol hon hopened (by decide)
  have hinner := htype _ _ _ hopened.1 hinner
  have hclosed := on_symbol hinner.1 hclosed (by decide)
  grind

/-- All the array types that brackets make of a type have the range of the whole. -/
theorem places_operand : PlacesNode text code (operand type) TypeExpr.node := by
  intro cursor value rest hon hdone
  simp only [operand, bind_eq_done, located_eq_done, pure_eq_done] at hdone
  obtain ⟨⟨loc, element, brackets⟩, last, ⟨⟨foundElement, middle, helement, foundBrackets, stop,
    hbrackets, heq, rfl⟩, rfl⟩, rfl, rfl⟩ := hdone
  obtain ⟨rfl, rfl⟩ := Prod.mk.inj heq
  have hplaces : PlacesNode text code (parenthesized type <|> record type <|> application type)
      TypeExpr.node :=
    (places_parenthesized htype).orElse ((places_record hblanked htype).orElse
      (places_application hblanked htype))
  obtain ⟨hmiddle, hnode, hinside⟩ := hplaces _ _ _ hon helement
  obtain ⟨hstop, hle⟩ :=
    (advances_symbol "[]").of_chained (chained_of_many hbrackets) hmiddle
  refine ⟨hstop, foldlRecOn (motive := fun inner : TypeExpr => inner.node.Faithful text ∧
    inner.node.loc.Inside ⟨cursor.skipBlanks.position, stop.position⟩) foundBrackets _
      ⟨hnode, by grind⟩ ?_⟩
  rintro inner ⟨hnode, hinside⟩ - -
  grind [TypeExpr.node, Node.loc]

theorem places_arrow : PlacesNode text code (arrow type) TypeExpr.node := by
  intro cursor value rest hon hdone
  simp only [arrow, bind_eq_done, located_eq_done, pure_eq_done] at hdone
  obtain ⟨⟨loc, argument, body⟩, last, ⟨⟨foundArgument, middle, hargument, foundBody, stop, hbody,
    heq, rfl⟩, rfl⟩, rfl, rfl⟩ := hdone
  obtain ⟨rfl, rfl⟩ := Prod.mk.inj heq
  have hargument := places_operand hblanked htype _ _ _ hon hargument
  obtain ⟨body, rfl, hread⟩ | ⟨rfl, rfl⟩ := optional_eq_done hbody
  · obtain ⟨_, sign, hsign, hread⟩ := bind_eq_done.mp hread
    have hsign := on_symbol hargument.1 hsign (by decide)
    have hbody := htype _ _ _ hsign.1 hread
    grind [TypeExpr.node, Node.loc]
  · exact ⟨hargument.1.skipBlanks, hargument.2.1, by grind⟩

end

theorem places_typeUpTo (depth : Nat) : PlacesNode text code (typeUpTo depth) TypeExpr.node := by
  induction depth with
  | zero =>
    intro cursor value rest _ hdone
    cases hdone
  | succ depth ih => exact fun cursor => places_arrow hblanked ih cursor

theorem places_type : PlacesNode text code type TypeExpr.node :=
  fun cursor => places_typeUpTo hblanked _ cursor

end TypeGrammar

open TypeGrammar

theorem TypeDeclaration.places_grammar : PlacesNode text code grammar TypeDeclaration.node := by
  intro cursor value rest hon hdone
  simp only [grammar, bind_eq_done, pure_eq_done] at hdone
  obtain ⟨⟨loc, id, params, init⟩, last, hdone, rfl, rfl⟩ := hdone
  obtain ⟨hdone, rfl⟩ := located_eq_done.mp hdone
  simp only [bind_eq_done, commit_eq_done, pure_eq_done] at hdone
  obtain ⟨_, start, hstart, ⟨idLoc, name⟩, afterName, hname, foundParams, afterParams, hparams, _,
    sign, hsign, foundInit, afterInit, hinit, _, stop, hend, heq, rfl⟩ := hdone
  obtain ⟨rfl, rfl, rfl⟩ : _ = id ∧ foundParams = params ∧ foundInit = init := by
    simpa only [Prod.mk.injEq] using heq
  have hstart := on_keyword hon hstart (by decide)
  have hname := Places.located_orElse (places_wordOf hblanked (by decide) (by decide))
    (places_unitName hblanked) _ _ _ hstart.1 hname
  obtain ⟨hafter, hle, hparams⟩ := faithful_params hblanked hname.1 hparams
  have hsign := on_symbol hafter hsign (by decide)
  obtain ⟨hinitOn, hinit, hinside⟩ := places_type hblanked _ _ _ hsign.1 hinit
  have hend := on_optionalSymbol hinitOn hend
  have hbody := TypeExpr.faithful_withParams
    ⟨cursor.skipBlanks.position, stop.position⟩ (by grind) hinit
    (hparams.mono (by grind) (by grind))
  grind [TypeDeclaration.node, Node.loc, Identifier.node]

theorem Signature.faithful_value {nameChar : Char → Bool} {signature : Signature}
    (hon : cursor.On code) (hdone : grammar nameChar cursor = .done signature rest) :
    signature.value.node.Faithful text := by
  simp only [grammar, bind_eq_done, located_eq_done, commit_eq_done, pure_eq_done] at hdone
  obtain ⟨⟨loc, name, params, value⟩, last, ⟨⟨foundName, afterName, hname,
    foundParams, afterParams, hparams, _, sign, hsign, foundValue, afterValue, hvalue, heq, rfl⟩,
    rfl⟩, rfl, rfl⟩ := hdone
  obtain ⟨rfl, rfl, rfl⟩ : foundName = name ∧ foundParams = params ∧ foundValue = value := by
    simpa only [Prod.mk.injEq] using heq
  rw [Parser.word, wordOf] at hname
  have hname := advances_token _ _ _ _ hon hname
  obtain ⟨hafter, hle, hparams⟩ := faithful_params hblanked hname.1 hparams
  have hsign := on_symbol hafter hsign (by decide)
  obtain ⟨-, hvalue, hinside⟩ := places_type hblanked _ _ _ hsign.1 hvalue
  exact (TypeExpr.faithful_withParams ⟨cursor.skipBlanks.position, afterValue.position⟩
    (by grind) hvalue (hparams.mono (by grind) (by grind))).2

end

theorem readSignatures_eq_ok {p : Parser α} {value : α}
    (hread : readSignatures p text = .ok value) :
    ∃ rest, p (.start text) = .done value rest := by
  rw [readSignatures] at hread
  split at hread
  case h_1 found hrun =>
    obtain rfl := Except.ok.inj hread
    exact exists_of_run hrun
  case h_2 => cases hread

theorem TypeDeclaration.faithful_of_ofComment {declarations : List TypeDeclaration}
    (hread : TypeDeclaration.ofComment text comment = .ok declarations) :
    ∀ declaration ∈ declarations, declaration.node.Faithful text := by
  obtain ⟨rest, hdone⟩ := readSignatures_eq_ok hread
  have hblanked : Blanked text (comment.isolate text) := blanked_blankAround _ _ _
  intro declaration hmem
  obtain ⟨before, after, hon, hone⟩ := (TypeDeclaration.places_grammar hblanked).advances.of_mem
    (chained_of_many hdone) (Cursor.on_start _) hmem
  exact (TypeDeclaration.places_grammar hblanked before declaration after hon hone).2.1

theorem Signature.faithful_of_ofComment {name : String} {type : TypeExpr}
    (hread : Signature.ofComment text comment name = .ok type) : type.node.Faithful text := by
  obtain ⟨signature, hsignature, hname⟩ := Except.bind_eq_ok.mp hread
  obtain ⟨rest, hdone⟩ := readSignatures_eq_ok hsignature
  have hblanked : Blanked text (comment.isolate text) := blanked_blankAround _ _ _
  split at hname
  · obtain rfl := Except.ok.inj hname
    exact Signature.faithful_value hblanked (Cursor.on_start _) hdone
  · cases hname

/-- In a script that can be read, every name and every number is written at its range, every
comment holds the text at its offset, and every node lies inside the node around it. The same
goes for the types that are written in its comments. -/
theorem Program.faithful_of_parse {text : List Char} {program : Program}
    (hparse : Program.parse text = .ok program) :
    (program.node.Nested ∧ program.node.Spelled text) ∧
      ∀ comment ∈ program.comments, comment.IsCited text ∧
        (∀ declarations, TypeDeclaration.ofComment text comment = .ok declarations →
          ∀ declaration ∈ declarations,
            declaration.node.Nested ∧ declaration.node.Spelled text) ∧
        ∀ name type, Signature.ofComment text comment name = .ok type →
          type.node.Nested ∧ type.node.Spelled text := by
  obtain ⟨rest, -, -, hcomments⟩ := Program.parse_eq_ok hparse
  refine ⟨faithful_node hparse, fun comment hcomment => ?_⟩
  rw [hcomments] at hcomment
  exact ⟨(Comment.scan_cited text comment hcomment).1,
    fun _ hread => TypeDeclaration.faithful_of_ofComment hread,
    fun _ _ hread => Signature.faithful_of_ofComment hread⟩

/-- A script with a type declaration, and a type above its function. -/
def annotatedScript : List Char := "/*type N=Number*/\n//f<a>::N->a\nlet f=x=>x(42)".toList

theorem Program.faithful_of_parse_annotatedScript :
    ∃ program header above declaration type,
      Program.parse annotatedScript = .ok program ∧
      header ∈ program.comments ∧ above ∈ program.comments ∧
      TypeDeclaration.ofComment annotatedScript header = .ok [declaration] ∧
      Signature.ofComment annotatedScript above "f" = .ok type ∧
      program.node.Nested ∧ program.node.Spelled annotatedScript ∧
      declaration.node.Nested ∧ declaration.node.Spelled annotatedScript ∧
      type.node.Nested ∧ type.node.Spelled annotatedScript := by
  have hpasses : Except.passes (Program.parse annotatedScript) (fun program =>
      program.comments.any (fun comment =>
        Except.passes (TypeDeclaration.ofComment annotatedScript comment)
          fun found => found.length == 1) &&
      program.comments.any fun comment =>
        Except.passes (Signature.ofComment annotatedScript comment "f") fun _ => true) = true := by
    decide +kernel
  obtain ⟨program, hprogram, hcomments⟩ := Except.exists_of_passes hpasses
  simp only [Bool.and_eq_true, any_eq_true] at hcomments
  obtain ⟨⟨header, hheader, hdeclares⟩, above, habove, hannotates⟩ := hcomments
  obtain ⟨found, hdeclarations, hlength⟩ := Except.exists_of_passes hdeclares
  obtain ⟨declaration, rfl⟩ := length_eq_one_iff.mp (beq_iff_eq.mp hlength)
  obtain ⟨type, htype, -⟩ := Except.exists_of_passes hannotates
  obtain ⟨⟨hnested, hspelled⟩, hall⟩ := Program.faithful_of_parse hprogram
  obtain ⟨hdeclared, hnamed⟩ :=
    (hall header hheader).2.1 _ hdeclarations declaration mem_cons_self
  obtain ⟨htypeNested, htypeSpelled⟩ := (hall above habove).2.2 _ _ htype
  exact ⟨program, header, above, declaration, type, hprogram, hheader, habove, hdeclarations, htype,
    hnested, hspelled, hdeclared, hnamed, htypeNested, htypeSpelled⟩

end RowScript
