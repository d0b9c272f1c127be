import RowScript.Context.Basic
import RowScript.Ty.Substitution

/-!
# Passes over the types of a context

A pass reaches the types of all bindings, also of those in the contexts kept
inside defined values, and leaves global bindings alone. It goes from the oldest
entry to the most recent one, and takes the type of a defined value before the
context kept inside it. An entry that is reached on several ways is visited once.

Mapping keeps every entry that it does not have to rebuild: one whose binding is
unchanged and that stands on entries that were all kept.
-/

namespace RowScript.Context

/-- What a mapping pass knows: the next stamp, and for each entry visited so far
the chain that now starts at it. -/
structure Pass where
  stamp : Nat
  images : List (Nat × Context)

/-- Draws a stamp for a new entry in front of a chain. -/
def Pass.push (name : String) (binding : Binding) (older : Context) : StateM Pass Context :=
  fun pass => (⟨pass.stamp, name, binding⟩ :: older, { pass with stamp := pass.stamp + 1 })

mutual

/-- Maps a chain of entries. -/
def mapChain (f : Ty → Option Ty) : List (Entry Binding) → StateM Pass Context
  | [] => pure []
  | entry :: older => do
    match (← get).images.lookup entry.stamp with
    | some image => pure image
    | none =>
      let base ← mapChain f older
      let binding ← mapEntry f entry
      let image ← match binding with
        | some binding => Pass.push entry.name binding base
        | none =>
          if same base older then pure (entry :: older)
          else Pass.push entry.name entry.binding base
      modify fun pass => { pass with images := (entry.stamp, image) :: pass.images }
      pure image
termination_by structural chain => chain

/-- The new binding of an entry, or `none` when it stays as it is. -/
def mapEntry (f : Ty → Option Ty) : Entry Binding → StateM Pass (Option Binding)
  | ⟨_, _, binding⟩ => mapBinding f binding
termination_by structural entry => entry

/-- The new form of a binding, or `none` when it stays as it is. -/
def mapBinding (f : Ty → Option Ty) : Binding → StateM Pass (Option Binding)
  | .typed type nameLoc false => pure ((f type).map (.typed · nameLoc false))
  | .typeAlias type nameLoc false => pure ((f type).map (.typeAlias · nameLoc false))
  | .defined term type nameLoc none false =>
    pure ((type.bind f).map (.defined term · nameLoc none false))
  | .defined term type nameLoc (some inner) false => do
    let image ← mapChain f inner
    match type.bind f with
    | some new => pure (some (.defined term (some new) nameLoc (some image) false))
    | none =>
      if same image inner then pure none
      else pure (some (.defined term type nameLoc (some image) false))
  | _ => pure none
termination_by structural binding => binding

end

/-- Applies `f` to the types of all bindings that are not global; `f` gives `none`
for a type that it leaves alone. -/
def mapTypes (f : Ty → Option Ty) (ctx : Context) : Stamped Context := fun stamp =>
  let (image, pass) := mapChain f ctx ⟨stamp, []⟩
  (image, pass.stamp)

/-- Replaces a name or a placeholder in the types of a context. -/
def replace (target : Ty.Target) (replacement : Ty) (ctx : Context) : Stamped Context :=
  ctx.mapTypes (·.replace? target replacement)

mutual

/-- The types along a chain, less those of entries seen before. -/
def chainTypes : List (Entry Binding) → StateM (List Nat) (List Ty)
  | [] => pure []
  | entry :: older => do
    if (← get).contains entry.stamp then pure []
    else
      let before ← chainTypes older
      let own ← entryTypes entry
      modify (entry.stamp :: ·)
      pure (before ++ own)
termination_by structural chain => chain

/-- The types of an entry and of the context inside it. -/
def entryTypes : Entry Binding → StateM (List Nat) (List Ty)
  | ⟨_, _, binding⟩ => bindingTypes binding
termination_by structural entry => entry

/-- The type of a binding, and the types of the context inside it. -/
def bindingTypes : Binding → StateM (List Nat) (List Ty)
  | .typed type _ false | .typeAlias type _ false => pure [type]
  | .defined _ type _ none false => pure type.toList
  | .defined _ type _ (some inner) false => do
    let inside ← chainTypes inner
    pure (type.toList ++ inside)
  | _ => pure []
termination_by structural binding => binding

end

/-- All types that a pass over the context meets, in its order. -/
def reachableTypes (ctx : Context) : List Ty := (chainTypes ctx []).1

end RowScript.Context
