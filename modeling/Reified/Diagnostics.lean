import Reified.Span
import Reified.Text.Quoted

/-!
# Diagnostics

The rejections found by checking, in the order in which they were found, and their text as JSON.

## Main definitions

* `Diagnostic`, `Diagnostics`
* `Diagnostics.json` — an indented JSON array
-/

namespace Reified

/-- The rejection of a top-level declaration, with the first error found in it. -/
structure Diagnostic where
  message : String
  span : Span
  /-- The position of the declaration in its program. -/
  declaration : Nat
  deriving DecidableEq, Inhabited

/-- Rejections in the order in which they were found. -/
structure Diagnostics where
  entries : Array Diagnostic
  deriving DecidableEq

namespace Diagnostics

/-- No rejections. -/
def empty : Diagnostics := ⟨#[]⟩

instance : Inhabited Diagnostics := ⟨empty⟩

/-- The number of rejections. -/
def size (D : Diagnostics) : Nat := D.entries.size

/-- There is no rejection. -/
def isEmpty (D : Diagnostics) : Bool := D.entries.isEmpty

/-- Add a rejection at the end. -/
def reject (D : Diagnostics) (declaration : Nat) (message : String) (span : Span) : Diagnostics :=
  ⟨D.entries.push ⟨message, span, declaration⟩⟩

/-- Add all rejections of `E` at the end. -/
def append (D E : Diagnostics) : Diagnostics := ⟨D.entries ++ E.entries⟩

/-! ## Text -/

/-- One character inside a JSON string. Only the quote, the backslash and the controls below the
space are escaped, five of the controls with a letter of their own. -/
def jsonChar (c : Char) : String :=
  match c with
  | '"' => "\\\""
  | '\\' => "\\\\"
  | '\n' => "\\n"
  | '\r' => "\\r"
  | '\t' => "\\t"
  | c =>
    if c.toNat = 8 then "\\b"
    else if c.toNat = 12 then "\\f"
    else if c.toNat < 0x20 then
      "\\u00" ++ (if c.toNat < 16 then "0" else "") ++ Text.hexDigits c.toNat
    else c.toString

/-- A JSON string. -/
def jsonString (s : String) : String :=
  s.foldl (fun out c => out ++ jsonChar c) "\"" ++ "\""

/-- The lines of one rejection. -/
def jsonLines (d : Diagnostic) : List String :=
  [ "  \x7b",
    "    \"message\": " ++ jsonString d.message ++ ",",
    "    \"span\": \x7b",
    "      \"line\": " ++ toString d.span.line ++ ",",
    "      \"column\": " ++ toString d.span.column ++ ",",
    "      \"end_line\": " ++ toString d.span.endLine ++ ",",
    "      \"end_column\": " ++ toString d.span.endColumn,
    "    \x7d,",
    "    \"declaration\": " ++ toString d.declaration,
    "  \x7d" ]

/-- The rejections as a JSON array, indented by two spaces. -/
def json (D : Diagnostics) : String :=
  if D.isEmpty then "[]"
  else
    let items := D.entries.toList.map fun d => "\n".intercalate (jsonLines d)
    "[\n" ++ ",\n".intercalate items ++ "\n]"

end Diagnostics

end Reified
