import RowScript.Proofs.Slices
import RowScript.Script.Tree

/-!
# The nodes of a script

A tree is *nested* if every node lies inside the node around it, and *spelled* if the text of every
name and number stands at its range. It is *faithful* to the text if it is both.
-/

namespace RowScript

open Text List

/-- A node of a tree: its range, its text if it is known by that, and the nodes inside. -/
inductive Node where
  | mk (loc : Loc) (spelling : Option String) (parts : List Node)

namespace Node

def loc : Node → Loc
  | .mk loc _ _ => loc

mutual

/-- Every node lies inside the one around it. -/
def Nested : Node → Prop
  | .mk loc _ parts => AllNested loc parts

/-- The nodes lie inside a range, and so do the nodes in them. -/
def AllNested (range : Loc) : List Node → Prop
  | [] => True
  | node :: rest => (node.loc.Inside range ∧ Nested node) ∧ AllNested range rest

end

mutual

/-- What is known by its text is written at its range. -/
def Spelled (text : List Char) : Node → Prop
  | .mk loc spelling parts =>
    (∀ word, spelling = some word → loc.slice text = word.toList) ∧ AllSpelled text parts

def AllSpelled (text : List Char) : List Node → Prop
  | [] => True
  | node :: rest => Spelled text node ∧ AllSpelled text rest

end

variable {text : List Char} {loc range : Loc} {node : Node} {parts : List Node}

/-- Every node lies inside the one around it, and what is known by its text is written there. -/
def Faithful (text : List Char) (node : Node) : Prop := node.Nested ∧ node.Spelled text

def AllFaithful (text : List Char) (range : Loc) (parts : List Node) : Prop :=
  AllNested range parts ∧ AllSpelled text parts

@[simp, grind =]
theorem faithful_mk {spelling : Option String} :
    (Node.mk loc spelling parts).Faithful text ↔
      (∀ word, spelling = some word → loc.slice text = word.toList) ∧
        AllFaithful text loc parts := by
  rw [Faithful, AllFaithful, Nested, Spelled]
  tauto

@[simp, grind =]
theorem allFaithful_nil : AllFaithful text range [] ↔ True := by
  simp [AllFaithful, AllNested, AllSpelled]

@[simp, grind =]
theorem allFaithful_cons :
    AllFaithful text range (node :: parts) ↔
      (node.loc.Inside range ∧ node.Faithful text) ∧ AllFaithful text range parts := by
  rw [AllFaithful, AllFaithful, AllNested, AllSpelled, Faithful]
  tauto

theorem allFaithful_iff :
    AllFaithful text range parts ↔
      ∀ part ∈ parts, part.loc.Inside range ∧ part.Faithful text := by
  induction parts with
  | nil => simp
  | cons part rest ih => rw [allFaithful_cons, ih, forall_mem_cons]

theorem AllFaithful.mono {outer : Loc} (hfaithful : AllFaithful text range parts)
    (hstart : outer.start ≤ range.start) (hstop : range.stop ≤ outer.stop) :
    AllFaithful text outer parts := by
  rw [allFaithful_iff] at hfaithful ⊢
  intro part hpart
  obtain ⟨hinside, hpart⟩ := hfaithful part hpart
  exact ⟨⟨le_trans hstart hinside.start, hinside.ordered, le_trans hinside.stop hstop⟩, hpart⟩

end Node

/-- The range of a function body. -/
def Body.loc : Body → Loc
  | .block inner => inner.loc
  | .expression inner => inner.loc

/-- The range of a part of an object. -/
def Property.loc : Property → Loc
  | .spread loc _ | .computed loc _ _ | .field loc _ _ => loc

/-- A name is known by its text. -/
def Identifier.node (id : Identifier) : Node := .mk id.loc (some id.name) []

/-- A literal is known by its text if it is a number. -/
def Literal.node (literal : Literal) : Node :=
  .mk literal.loc (if literal.value = .number then some literal.raw else none) []

def FieldKey.node : FieldKey → Node
  | .identifier id => id.node
  | .literal lit => lit.node

def DeclarationTarget.node : DeclarationTarget → Node
  | .identifier id => id.node
  | .objectPattern loc | .arrayPattern loc => .mk loc none []

mutual

def Expr.node : Expr → Node
  | .identifier id => id.node
  | .literal lit => lit.node
  | .arrow loc params body => .mk loc none (Body.node body :: params.map Identifier.node)
  | .conditional loc test consequent alternate =>
    .mk loc none [test.node, consequent.node, alternate.node]
  | .binary loc _ left right => .mk loc none [left.node, right.node]
  | .unary loc _ argument => .mk loc none [argument.node]
  | .call loc callee arguments => .mk loc none (callee.node :: Expr.nodes arguments)
  | .member loc object property => .mk loc none [object.node, property.node]
  | .index loc object property => .mk loc none [object.node, property.node]
  | .object loc properties => .mk loc none (Property.nodes properties)
  | .array loc elements => .mk loc none (Expr.nodes elements)
  | .spread loc argument => .mk loc none [argument.node]

def Expr.nodes : List Expr → List Node
  | [] => []
  | expression :: rest => expression.node :: Expr.nodes rest

def Body.node : Body → Node
  | .block inner => Block.node inner
  | .expression inner => inner.node

def Block.node : Block → Node
  | .mk loc statements => .mk loc none (Statement.nodes statements)

def Property.node : Property → Node
  | .spread loc argument => .mk loc none [argument.node]
  | .computed loc key value => .mk loc none [key.node, value.node]
  | .field loc key value => .mk loc none [key.node, value.node]

def Property.nodes : List Property → List Node
  | [] => []
  | property :: rest => property.node :: Property.nodes rest

def Statement.node : Statement → Node
  | .declaration loc _ declarators => .mk loc none (Declarator.nodes declarators)
  | .expression loc inner => .mk loc none [inner.node]
  | .ret loc none => .mk loc none []
  | .ret loc (some argument) => .mk loc none [argument.node]
  | .block inner => Block.node inner

def Statement.nodes : List Statement → List Node
  | [] => []
  | statement :: rest => statement.node :: Statement.nodes rest

def Declarator.node : Declarator → Node
  | .mk loc target none => .mk loc none [target.node]
  | .mk loc target (some init) => .mk loc none [target.node, init.node]

def Declarator.nodes : List Declarator → List Node
  | [] => []
  | declarator :: rest => declarator.node :: Declarator.nodes rest

end

/-- A script has its statements and its comments in it. -/
def Program.node (program : Program) : Node :=
  .mk program.loc none
    (Statement.nodes program.body ++ program.comments.map fun comment => .mk comment.loc none [])

@[simp, grind =]
theorem FieldKey.loc_node (key : FieldKey) : key.node.loc = key.loc := by cases key <;> rfl

@[simp, grind =]
theorem DeclarationTarget.loc_node (target : DeclarationTarget) : target.node.loc = target.loc := by
  cases target <;> rfl

@[simp, grind =]
theorem Block.loc_node (block : Block) : block.node.loc = block.loc := by cases block; rfl

@[simp, grind =]
theorem Expr.loc_node (expression : Expr) : expression.node.loc = expression.loc := by
  cases expression <;> rfl

@[simp, grind =]
theorem Body.loc_node (body : Body) : body.node.loc = body.loc := by
  cases body with
  | block inner | expression inner => exact inner.loc_node

@[simp, grind =]
theorem Property.loc_node (property : Property) : property.node.loc = property.loc := by
  cases property <;> rfl

@[simp, grind =]
theorem Statement.loc_node (statement : Statement) : statement.node.loc = statement.loc := by
  cases statement with
  | ret loc argument => cases argument <;> rfl
  | block inner => exact inner.loc_node
  | _ => rfl

@[simp, grind =]
theorem Declarator.loc_node (declarator : Declarator) : declarator.node.loc = declarator.loc := by
  obtain ⟨loc, target, init⟩ := declarator
  cases init <;> rfl

end RowScript
