import DatalogPolicy.Surface.Tree

/-!
# Outlines of surface trees

A surface tree drawn as labels in preorder, with the depth of each label on a
line before it.
-/

namespace DatalogPolicy

/-- A labelled tree. -/
inductive Outline
  | node (label : String) (children : List Outline)
deriving Repr

namespace Outline

/-- A tree without children. -/
def leaf (label : String) : Outline := node label []

/-- The label of the root. -/
def label : Outline → String
  | node label _ => label

/-- The subtrees below the root. -/
def children : Outline → List Outline
  | node _ children => children

mutual

/-- The lines of a tree at a depth. -/
def lines (depth : Nat) : Outline → List String
  | node label children =>
      String.ofList (List.replicate depth '|') :: label :: linesOf (depth + 1) children

/-- The lines of several trees at a depth. -/
def linesOf (depth : Nat) : List Outline → List String
  | [] => []
  | tree :: rest => lines depth tree ++ linesOf depth rest

end

/-- The drawing of a tree at a depth. -/
def draw (depth : Nat) (tree : Outline) : String :=
  String.join ((tree.lines depth).map (· ++ "\n"))

end Outline

namespace Surface

/-- The outline of a term. -/
def termOutline (term : Lexeme) : Outline :=
  let kind :=
    match term.terminal with
    | .integer => "INTEGER_OBJ"
    | .float => "FLOAT_OBJ"
    | .string => "STRING_OBJ"
    | _ => "VARIABLE"
  .node kind [.leaf term.text]

/-- The outline of an argument. -/
def Param.outline : Param → Outline
  | .positional term => termOutline term
  | .named column term =>
      let kind := if column.terminal = .integer then "COLUMN_NUMBER" else "COLUMN_NAME"
      .node "NAMED_PARAM" [.node kind [.leaf column.text], termOutline term]

/-- The outline of an atom. -/
def Atom.outline (a : Atom) : Outline :=
  let parts := a.relation.pieces ++ a.relation.sign.toList
  .node "ATOM"
    (.node "STRUCTURED_NAME" (parts.map fun x => .leaf x.text) :: a.params.map Param.outline)

/-- The outline of a literal. -/
def Literal.outline (l : Literal) : Outline :=
  let inner :=
    match l.modal with
    | some modal => .node "MODAL" [.leaf modal.name.text, l.atom.outline]
    | none => l.atom.outline
  if l.negation.isSome then .node "NOT" [inner] else inner

/-- The outline of a statement. -/
def Statement.outline : Statement → Outline
  | .fact l => l.outline
  | .rule head heads first body =>
      .node "RULE" [
        .node "AND" ((head :: heads).map Literal.outline),
        .node "AND" ((first :: body).map Literal.outline)]

/-- The outline of a policy. -/
def outline (statements : List Statement) : Outline :=
  .node "THEORY" (statements.map Statement.outline)

end Surface

end DatalogPolicy
