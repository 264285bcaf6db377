import Reified.Ty.Text
import Reified.Value.Basic

/-!
# The text of a value

Strings are shown as they are, without quotes, and functions and holes only by what they are.

A value that does not contain itself is nested at most as deep as there are cells, so a bound above
that number is never reached.
-/

namespace Reified.Heap

/-- The text of a value through at most `n` nested cells. -/
def textWithin (h : Heap) : Nat → Value → String
  | _, .unit => "()"
  | _, .bool b => boolText b
  | _, .number x => x.text
  | _, .string s => s
  | _, .function c => "<function " ++ (h.closure c).block.name ++ ">"
  | _, .builtin op => "<builtin " ++ op.symbol ++ ">"
  | _, .type t => t.text
  | _, .hole _ => "<hole>"
  | 0, _ => ""
  | n + 1, .array c => "[" ++ ", ".intercalate ((h.list c).toList.map (h.textWithin n)) ++ "]"
  | n + 1, .tuple c => "(" ++ ", ".intercalate ((h.list c).toList.map (h.textWithin n)) ++ ")"
  | n + 1, .object c =>
    let fields := (h.object c).map fun f => f.1 ++ ": " ++ h.textWithin n f.2
    "\x7b" ++ ", ".intercalate fields ++ "\x7d"

/-- The number of cells that can be nested. -/
def depth (h : Heap) : Nat := h.lists.size + h.objects.size + 1

/-- The text of a value. -/
def text (h : Heap) (v : Value) : String := h.textWithin h.depth v

end Reified.Heap
