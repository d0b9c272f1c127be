import RowScript.Proofs.ClosedTypes
import RowScript.Proofs.PrintedTypes

/-!
# The variables of a printed signature

A signature lists the leading type parameters of a type behind the name, and those of a field behind
its key. A type parameter below an arrow is not shown.
-/

namespace RowScript

/-- A part of the text of a type. -/
inductive Piece where
  | plain (text : String)
  /-- A name, with the type parameters that are listed around it. -/
  | ident (name : String) (listed : List String)
deriving DecidableEq

def Piece.spelling : Piece → String
  | .plain text | .ident text _ => text

namespace Piece

/-- The text that some pieces make up. -/
def join (pieces : List Piece) : String := String.join (pieces.map spelling)

@[simp]
theorem join_nil : join [] = "" := rfl

@[simp]
theorem join_cons (piece : Piece) (pieces : List Piece) :
    join (piece :: pieces) = piece.spelling ++ join pieces := by
  simp [join]

@[simp]
theorem join_append (pieces others : List Piece) :
    join (pieces ++ others) = join pieces ++ join others := by
  simp [join]

end Piece

namespace Ty

open Piece (join spelling)

variable {inRow : Bool} {listed around : List String} {ty : Ty} {name : String}
  {known : String → Prop}

/-- Parenthesizes a function type where it is an operand. -/
def operandPieces (ty : Ty) (pieces : List Piece) : List Piece :=
  match ty.body with
  | .arrow .. => .plain "(" :: pieces ++ [.plain ")"]
  | _ => pieces

/-- The text of a type, with the names in it. -/
def pieces (inRow : Bool) (listed : List String) : Ty → List Piece
  | .generic _ body => pieces inRow listed body
  | .app callee arg _ =>
    if (print false false callee).1 = "Array" then
      operandPieces arg (pieces false listed arg) ++ [.plain "[]"]
    else pieces false listed callee ++ .plain "<" :: pieces false listed arg ++ [.plain ">"]
  | .arrow arg ret =>
    operandPieces arg (pieces false listed arg) ++ .plain " -> " :: pieces false listed ret
  | .ident name _ => if inRow then [.plain "...", .ident name listed] else [.ident name listed]
  | .hole id => [.plain (print inRow false (.hole id)).1]
  | .record _ (some label) => [.plain label]
  | .record .emptyRow none => [.plain "\x7b\x7d"]
  | .record row none => .plain "\x7b " :: pieces true listed row ++ [.plain " \x7d"]
  | .field key type base =>
    (if (print inRow false base).1.isEmpty then []
      else pieces inRow listed base ++ [.plain ", "]) ++
      .plain (key ++ angled type.params ++ ": ") :: pieces false (type.params ++ listed) type
  | .emptyRow => []

theorem join_operandPieces (pieces : List Piece) :
    join (operandPieces ty pieces) = parenthesized ty (join pieces) := by
  unfold operandPieces parenthesized
  cases ty.body <;> simp [spelling, String.append_assoc]

theorem join_pieces : join (ty.pieces inRow listed) = (ty.print inRow false).1 := by
  fun_induction pieces inRow listed ty with
  | case1 inRow listed param body ih => exact ih
  | case2 inRow listed callee arg loc harray ih =>
    simp [print, harray, ih, join_operandPieces, spelling]
  | case3 inRow listed callee arg loc harray ihcallee iharg =>
    simp [print, harray, ihcallee, iharg, spelling, String.append_assoc]
  | case4 inRow listed arg ret iharg ihret =>
    simp [print, iharg, ihret, join_operandPieces, spelling, String.append_assoc]
  | case6 inRow listed name loc hrow => simp [print, spelling, hrow]
  | case10 inRow listed row hrow ih => simp [print, ih, spelling, String.append_assoc]
  | case11 inRow listed key type base ihbase ih =>
    by_cases hbase : (print inRow false base).1 = "" <;>
      simp [print, hbase, ihbase, ih, spelling, print_eq false false type, String.append_assoc]
  | _ => simp [print, spelling]

/-- The type parameters that neither lead the type nor lead the type of a field. -/
def hiddenParams : Ty → List String
  | .generic _ body => hiddenParams body
  | .arrow a b | .app a b _ => params a ++ hiddenParams a ++ (params b ++ hiddenParams b)
  | .record row _ => params row ++ hiddenParams row
  | .field _ type base => hiddenParams type ++ (params base ++ hiddenParams base)
  | .ident .. | .hole _ | .emptyRow => []

theorem mem_operandPieces {pieces : List Piece}
    (hname : .ident name around ∈ operandPieces ty pieces) : .ident name around ∈ pieces := by
  unfold operandPieces at hname
  split at hname
  · simpa using hname
  · exact hname

/-- A name in the text of a type is known, or listed, or a leading or hidden parameter.
What is listed at the outside is listed around every name. -/
theorem known_or_listed (hty : ty.ClosedOver known)
    (hname : .ident name around ∈ ty.pieces inRow listed) :
    listed ⊆ around ∧
      (known name ∨ name ∈ around ∨ name ∈ ty.params ∨ name ∈ ty.hiddenParams) := by
  fun_induction pieces inRow listed ty generalizing known with
  | case1 inRow listed param body ih =>
    have hbody := ih (closedOver_generic.mp hty) hname
    rw [params, hiddenParams, List.mem_cons]
    tauto
  -- the leading parameters of operands and of rows are hidden
  | case2 | case3 => grind [hiddenParams, closedOver_app, mem_operandPieces]
  | case4 => grind [hiddenParams, closedOver_arrow, mem_operandPieces]
  | case10 => grind [hiddenParams, closedOver_record]
  | case5 | case6 => grind [closedOver_ident]
  -- those of the type of a field are listed behind its key
  | case11 => grind [hiddenParams, closedOver_field]
  | case7 | case8 | case9 | case12 => simp at hname

/-- The text of a signature, with the names in its type. -/
def signaturePieces (name : String) (ty : Ty) : List Piece :=
  .plain (name ++ angled ty.params ++ " :: ") :: ty.pieces false ty.params

theorem join_signaturePieces (name : String) :
    join (ty.signaturePieces name) = ty.signature name := by
  simp [signaturePieces, signature, join_pieces, print_eq false false ty, spelling]

/-- Hidden parameters are the only names that a signature uses without listing them,
apart from known names. -/
theorem known_or_listed_of_signature {value : String} (hty : ty.ClosedOver known)
    (hname : .ident name around ∈ ty.signaturePieces value) :
    known name ∨ name ∈ around ∨ name ∈ ty.hiddenParams := by
  simp only [signaturePieces, List.mem_cons, reduceCtorEq, false_or] at hname
  obtain ⟨hlisted, hown⟩ := known_or_listed hty hname
  have hparam : name ∈ ty.params → name ∈ around := fun hparam => hlisted hparam
  tauto

end Ty

instance (known : String → Prop) [DecidablePred known] :
    (command : Command) → Decidable (command.WritesClosed known)
  | .evaluate .. | .bind _ (.defined ..) _ => inferInstanceAs (Decidable (_ = true))
  | .bind _ (.typed type _ _) _ => inferInstanceAs (Decidable (type.ClosedOver known))
  | .bind name (.typeAlias type _ _) _ =>
    inferInstanceAs (Decidable (known name → type.ClosedOver known))
  | .bind _ .typeParameter _ => inferInstanceAs (Decidable True)

/-- Every name in the signature of a value is the name of a type, is listed in front of
its use, or is a hidden parameter, unless it is one of the given names. -/
def Context.ListsVariables (written : List String) (ctx : Context) : Prop :=
  ∀ entry ∈ ctx, ∀ term type? nameLoc inner isGlobal,
    entry.binding = .defined term type? nameLoc inner isGlobal →
    ∃ type, type? = some type ∧
      Piece.join (type.signaturePieces entry.name) = type.signature entry.name ∧
      ∀ name listed, .ident name listed ∈ type.signaturePieces entry.name →
        (ctx.alias? name).isSome = true ∨ name ∈ listed ∨ name ∈ type.hiddenParams ∨
          name ∈ written

/-- The signatures of a script that is accepted, starting from the built-in types and
values, list the type variables that they use, except those of hidden parameters. The types
that the script itself writes may use the types that it declares. Where they leave another
name free, it may turn up as well. -/
theorem checkCommands_listsVariables {commands : List Command} {globals ctx : Context}
    {fuel preludeFuel : Nat} {checker start loaded final : Checker}
    {declared written : List String}
    (hglobals : preludeContext preludeFuel start = .ok globals loaded)
    (hdeclared : ∀ name ∈ declared, name ∈ commands.filterMap Command.declaredType?)
    (hwritten : ∀ command ∈ commands,
      command.WritesClosed (· ∈ builtinTypes ++ (declared ++ written)))
    (hrun : checkCommands fuel globals commands checker = .ok ctx final) :
    ctx.ListsVariables written := by
  have hknown : ∀ name ∈ builtinTypes, name ∈ builtinTypes ++ (declared ++ written) :=
    fun name hname => List.mem_append_left _ hname
  have hliteral : ∀ name ∈ Inference.literalTypes, name ∈ builtinTypes := by decide
  obtain ⟨hclosed, hbuiltin⟩ := preludeContext_closedOver hknown hglobals
  have hctx := checkCommands_closed_of_writes
    (fun name hname => hknown name (hliteral name hname)) hclosed hwritten hrun
  intro entry hentry term type? nameLoc inner isGlobal hbinding
  have hvalue := hctx entry hentry
  rw [hbinding] at hvalue
  obtain ⟨type, rfl, htype⟩ := hvalue
  refine ⟨type, rfl, Ty.join_signaturePieces entry.name, fun name listed hname => ?_⟩
  rcases Ty.known_or_listed_of_signature htype hname with hname | hname | hname
  · simp only [List.mem_append] at hname
    rcases hname with hname | hname | hname
    · exact .inl (checkCommands_isSome_alias? hrun (.inl (hbuiltin name hname)))
    · exact .inl (checkCommands_isSome_alias? hrun (.inr (hdeclared name hname)))
    · exact .inr (.inr (.inr hname))
  · exact .inr (.inl hname)
  · exact .inr (.inr (.inl hname))

/-- A script that declares a type. -/
def pointScript : List Char := "/* type P = \x7b x: Number \x7d; */".toList

/-- A function with a written type that uses the declared one. -/
def movingScript : List Char := "// move<a> :: a -> P -> P\nconst move = x => p => p;".toList

/-- The signature of the function uses the declared type, which is not listed, and a
parameter, which is. -/
theorem checkCommands_listsVariables_moving :
    ∃ globals types values ctx loaded final,
      preludeContext 60 {} = .ok globals loaded ∧ parseScript pointScript = .ok types ∧
      parseScript movingScript = .ok values ∧
      checkCommands 60 globals (types ++ values) loaded = .ok ctx final ∧
      (∀ name ∈ ["P"], name ∈ (types ++ values).filterMap Command.declaredType?) ∧
      (∀ command ∈ types ++ values,
        command.WritesClosed (· ∈ builtinTypes ++ (["P"] ++ []))) ∧
      (ctx.value? "move").map (Ty.signature "move") = some "move<a> :: a -> P -> P" ∧
      ctx.ListsVariables [] := by
  have hyields : (preludeContext 60).yields {} (fun globals loaded =>
      Except.passes (parseScript pointScript) fun types =>
      Except.passes (parseScript movingScript) fun values =>
      (checkCommands 60 globals (types ++ values)).yields loaded fun ctx _ => decide (
        (∀ name ∈ ["P"], name ∈ (types ++ values).filterMap Command.declaredType?) ∧
        (∀ command ∈ types ++ values,
          command.WritesClosed (· ∈ builtinTypes ++ (["P"] ++ []))) ∧
        (ctx.value? "move").map (Ty.signature "move") = some "move<a> :: a -> P -> P")) =
      true := by
    unfold pointScript movingScript
    rw [preludeContext_eq, String.toList_ofList, String.toList_ofList]
    decide +kernel
  obtain ⟨globals, loaded, hglobals, hpasses⟩ := CheckM.exists_of_yields hyields
  obtain ⟨types, htypes, hpasses⟩ := Except.exists_of_passes hpasses
  obtain ⟨values, hvalues, hyields⟩ := Except.exists_of_passes hpasses
  obtain ⟨ctx, final, hrun, htest⟩ := CheckM.exists_of_yields hyields
  obtain ⟨hdeclared, hwritten, hsignature⟩ := of_decide_eq_true htest
  exact ⟨globals, types, values, ctx, loaded, final, hglobals, htypes, hvalues, hrun, hdeclared,
    hwritten, hsignature, checkCommands_listsVariables hglobals hdeclared hwritten hrun⟩

/-- A function without a parameter keeps the type parameter of its result to itself, and
its signature uses a letter that nothing declares. -/
theorem checkCommands_hidden_variable :
    ∃ globals commands ctx loaded final,
      preludeContext 60 {} = .ok globals loaded ∧
      parseScript "const k = () => x => x;".toList = .ok commands ∧
      checkCommands 60 globals commands loaded = .ok ctx final ∧
      (ctx.value? "k").map (Ty.signature "k") = some "k :: () -> a -> a" ∧
      (ctx.value? "k").map (Ty.signaturePieces "k") = some [.plain "k :: ", .ident "()" [],
        .plain " -> ", .ident "a" [], .plain " -> ", .ident "a" []] ∧
      ctx.alias? "a" = none := by
  have hyields : (checkScript 60 "const k = () => x => x;".toList).yields {} (fun result _ =>
      decide ((result.2.2.value? "k").map (Ty.signature "k") = some "k :: () -> a -> a" ∧
        (result.2.2.value? "k").map (Ty.signaturePieces "k") = some [.plain "k :: ",
          .ident "()" [], .plain " -> ", .ident "a" [], .plain " -> ", .ident "a" []] ∧
        result.2.2.alias? "a" = none)) = true := by
    rw [checkScript, preludeContext_eq, String.toList_ofList]
    decide +kernel
  obtain ⟨⟨globals, commands, ctx⟩, final, hrun, htest⟩ := CheckM.exists_of_yields hyields
  obtain ⟨loaded, hglobals, hscript, hrun⟩ := checkScript_eq_ok hrun
  exact ⟨globals, commands, ctx, loaded, final, hglobals, hscript, hrun, of_decide_eq_true htest⟩

end RowScript
