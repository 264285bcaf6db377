import Reified.Text.Extending
import Reified.Text.Unprintable

/-!
# Quoted strings

A string is shown between double quotes. The quote, the backslash and the four usual controls have
two-character escapes; a character that would be invisible, or that would be drawn on its
neighbour, is written as `\u{...}` with its code point in lower-case hexadecimal.

## Main definitions

* `escape` — the written form of one character
* `quote` — the written form of a string
-/

namespace Reified.Text

/-- The hexadecimal digits of a number, lower case, without leading zeros. -/
def hexDigits (n : Nat) : String :=
  String.ofList (Nat.toDigits 16 n)

/-- The written form of one character inside double quotes. -/
def escape (c : Char) : String :=
  match c with
  | '\x00' => "\\0"
  | '\t' => "\\t"
  | '\n' => "\\n"
  | '\r' => "\\r"
  | '"' => "\\\""
  | '\\' => "\\\\"
  | c =>
    if (0x20 ≤ c.toNat && c.toNat < 0x7f) || !(isExtending c || isUnprintable c) then
      c.toString
    else
      "\\u\x7b" ++ hexDigits c.toNat ++ "\x7d"

/-- The string between double quotes, every character in its written form. -/
def quote (s : String) : String :=
  s.foldl (fun out c => out ++ escape c) "\"" ++ "\""

end Reified.Text
