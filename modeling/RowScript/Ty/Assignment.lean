import RowScript.Ty.Substitution

/-!
# Assignments of placeholders

Solved constraints give types to placeholders. An assignment lists them with
each placeholder at most once. Resolving a type follows the assignment until
only unassigned placeholders are left. A placeholder that is reached again while
it is being resolved stays as it is, so that resolution ends for every
assignment, also for one that is cyclic.
-/

namespace RowScript

/-- Placeholders with the types given to them. -/
abbrev Assignment := List (Nat × Ty)

namespace Assignment

/-- The assignment without one placeholder. -/
def without (id : Nat) (assignment : Assignment) : Assignment :=
  assignment.filter fun (i, _) => i ≠ id

/-- Reads solved constraints as an assignment. The first constraint on a
placeholder counts, and the first one without any placeholder side ends it. -/
def ofConstraints : List Constraint → Assignment
  | [] => []
  | (.hole id, type) :: rest => (id, type) :: without id (ofConstraints rest)
  | (type, .hole id) :: rest => (id, type) :: without id (ofConstraints rest)
  | _ => []

/-- Resolves a type with an assignment of at most the given length. An assigned
placeholder is taken out of the assignment while its own type is resolved. -/
def resolveUpTo : Nat → Assignment → Ty → Ty
  | 0, _, ty => ty
  | n + 1, assignment, ty =>
    ty.bindHoles fun id =>
      match assignment.lookup id with
      | some type => resolveUpTo n (assignment.without id) type
      | none => .hole id

/-- Follows an assignment until only unassigned placeholders are left. -/
def resolve (assignment : Assignment) (ty : Ty) : Ty :=
  resolveUpTo assignment.length assignment ty

end Assignment

/-- A type under solved constraints. -/
def Ty.applying (constraints : List Constraint) (ty : Ty) : Ty :=
  (Assignment.ofConstraints constraints).resolve ty

/-- What solved constraints say about a placeholder: the other side of the first
constraint on it, the placeholder itself when it occurs only inside other types,
and nothing when it does not occur at all. -/
def solutionFor (id : Nat) (constraints : List Constraint) : Option Ty :=
  let assigned := constraints.findSome? fun (lhs, rhs) =>
    if lhs = .hole id then some rhs else if rhs = .hole id then some lhs else none
  match assigned with
  | some type => some type
  | none =>
    if constraints.any fun (lhs, rhs) => lhs.occurs id || rhs.occurs id then some (.hole id)
    else none

end RowScript
