import DatalogPolicy.Formula
import DatalogPolicy.Json

/-!
# Formulas as JSON values

The fields of an object are listed in increasing order of their names.
-/

namespace DatalogPolicy

/-- A constant as a JSON value. -/
def Value.toJson : Value → Json
  | .str s => .str s
  | .int i => .int i.toInt
  | .float x => .float x

/-- A term as a JSON value. -/
def Term.toJson : Term → Json
  | .var x => .object [("variable", .str x)]
  | .const v => v.toJson

/-- A text, or null for an absent one. -/
def Json.ofOption : Option String → Json
  | some s => .str s
  | none => .null

/-- A literal as a JSON value. -/
def Literal.toJson (l : Literal) : Json :=
  .object [
    ("arguments", .array (l.arguments.map (·.item.toJson))),
    ("modal", .ofOption l.table.modal),
    ("negated", .bool l.negated),
    ("service", .ofOption l.table.service),
    ("table", .str l.table.table)]

/-- A formula as a JSON value that tells facts from rules. -/
def Formula.toJson : Formula → Json
  | .literal l => .object [("fact", l.toJson)]
  | .rule r => .object [("rule", .object [
      ("body", .array (r.body.map (·.toJson))),
      ("heads", .array (r.heads.map (·.toJson)))])]

end DatalogPolicy
