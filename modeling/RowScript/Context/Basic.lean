import RowScript.Fault
import RowScript.Term.Basic

/-!
# Contexts

A context lists what the names in scope stand for, the most recent binding
first. Values, declared types and type parameters share one name space. A
binding of a defined value keeps the context that its term was checked in, so
that positions inside the term can be looked up later; contexts therefore form
a graph in which many chains end in the same entries.

Every entry carries a stamp, drawn from a supply when the entry is made. Two
entries with one stamp are the same entry, and so are all entries behind them.
Stamps let a pass over the graph visit a shared entry once, and they tell a
chain that was kept from one that was rebuilt with the same contents.
-/

namespace RowScript

/-- A name in a context with what it stands for. -/
structure Entry (β : Type) where
  stamp : Nat
  name : String
  binding : β
deriving Repr

/-- What a name stands for. -/
inductive Binding where
  /-- A value of which only the type is known. -/
  | typed (type : Ty) (nameLoc : Loc) (isGlobal : Bool)
  /-- A value defined by a term; its type is missing until the term is checked,
  and `inner` is the context as seen from inside the term. -/
  | defined (term : Term) (type : Option Ty) (nameLoc : Loc)
      (inner : Option (List (Entry Binding))) (isGlobal : Bool)
  /-- A declared type. -/
  | typeAlias (type : Ty) (nameLoc : Loc) (isGlobal : Bool)
  /-- A type parameter in scope; no other type fits it. -/
  | typeParameter

instance : Inhabited Binding := ⟨.typeParameter⟩

/-- Bindings in scope, the most recent one first. -/
abbrev Context := List (Entry Binding)

/-- A computation that draws stamps for new entries. -/
abbrev Stamped := StateM Nat

/-- Global bindings come from declarations outside of the script. -/
def Binding.isGlobal : Binding → Bool
  | .typed _ _ isGlobal | .defined _ _ _ _ isGlobal | .typeAlias _ _ isGlobal => isGlobal
  | .typeParameter => false

/-- The type that a binding holds, be it a value's type or a declared one. -/
def Binding.type? : Binding → Option Ty
  | .typed type _ _ | .typeAlias type _ _ => some type
  | .defined _ type _ _ _ => type
  | .typeParameter => none

/-- Names that cannot be bound. -/
def reservedWords : List String := ["string", "boolean", "number"]

/-- The names that inference may give to type parameters. -/
def typeVariableNames : List String :=
  "abcdefghijklmnopqrstuvwxyz".toList.map (String.ofList [·])

namespace Context

/-- What a name stands for: its most recent binding. -/
def find? (ctx : Context) (name : String) : Option Binding :=
  (List.find? (fun entry => entry.name = name) ctx).map (·.binding)

/-- Whether a name is bound. -/
def binds (ctx : Context) (name : String) : Bool := (ctx.find? name).isSome

/-- Whether a name is a type parameter in scope. -/
def hasTypeParameter (ctx : Context) (name : String) : Bool :=
  match ctx.find? name with
  | some .typeParameter => true
  | _ => false

/-- A name can be bound once along a chain, and reserved words cannot be bound. -/
def checkBindable (ctx : Context) (name : String) (loc : Option Loc) : Except Fault Unit :=
  if reservedWords.contains name then throw ⟨.reserved name, loc⟩
  else if ctx.binds name then throw ⟨.redefined name, loc⟩
  else pure ()

/-- The type of the value that a name stands for. -/
def valueType (ctx : Context) (name : String) (loc : Option Loc) : Except Fault Ty :=
  match ctx.find? name with
  | some (.typed type _ _) | some (.defined _ (some type) _ _ _) => pure type
  | some (.defined ..) => throw ⟨.untyped name, none⟩
  | none | some (.typeAlias ..) | some .typeParameter => throw ⟨.undeclared name false, loc⟩

/-- The names for type parameters that are neither in use nor excluded. -/
def freeTypeVariables (ctx : Context) (taken : List String) : List String :=
  typeVariableNames.filter fun name => !taken.contains name && !ctx.hasTypeParameter name

/-- The first free name for a type parameter. -/
def nextTypeVariable (ctx : Context) (loc : Option Loc) (taken : List String) :
    Except Fault String :=
  match ctx.freeTypeVariables taken with
  | name :: _ => pure name
  | [] => throw ⟨.outOfTypeVariables, loc⟩

/-- Two contexts are the same when they are the same chain of entries. -/
def same : Context → Context → Bool
  | [], [] => true
  | a :: _, b :: _ => a.stamp = b.stamp
  | _, _ => false

/-- Binds a name without asking whether it is bound already. -/
def extend (ctx : Context) (name : String) (binding : Binding) : Stamped Context :=
  fun stamp => (⟨stamp, name, binding⟩ :: ctx, stamp + 1)

/-- Adds the bindings that `other` has on top of the entries both share, from the
oldest on, leaving out the names that are bound already. -/
def merge (ctx other : Context) : Stamped Context :=
  let added := other.takeWhile fun entry => !ctx.any (·.stamp = entry.stamp)
  added.reverse.foldlM (fun ctx entry =>
    if ctx.binds entry.name then pure ctx else ctx.extend entry.name entry.binding) ctx

end Context

end RowScript
