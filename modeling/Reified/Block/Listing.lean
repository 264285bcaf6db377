import Reified.Block.Basic

/-!
# Listings

A block is listed as a heading, its constants, its identifiers and its instructions, one a line,
followed by its nested blocks, each indented by two more spaces. The instruction at which the code
of a function starts is marked.
-/

namespace Reified.Block

/-- A position with at least four digits. -/
def positionText (n : Nat) : String :=
  let digits := toString n
  String.ofList (List.replicate (4 - digits.length) '0') ++ digits

/-- The first line of a listing. -/
def heading (B : Block) : String :=
  "block `" ++ B.name ++ "` (parameters: " ++ toString B.parameterCount.toNat ++ ", registers: " ++
    toString B.registerCount.toNat ++ ", code start: " ++ toString B.codeStart.toNat ++ ")"

/-- The line of an instruction. -/
def codeLine (B : Block) (position : Nat) (i : Instr) : String :=
  let isStart := 0 < B.codeStart && position = B.codeStart.toNat
  (if isStart then " >" else "  ") ++ positionText position ++ " " ++ i.text

/-- The lines of a block without its nested blocks. -/
def ownLines (B : Block) : List String :=
  B.heading ::
    (B.constants.toList.mapIdx fun i c => "  c" ++ toString i ++ " = " ++ c.text) ++
    (B.identifiers.toList.mapIdx fun i n => "  id" ++ toString i ++ " = " ++ n) ++
    B.code.toList.mapIdx B.codeLine

mutual

/-- The lines of a block and its nested blocks, each behind the indentation. -/
def lines (indent : String) : Block → List String
  | ⟨name, code, constants, identifiers, ⟨functions⟩, parameters, registers, start⟩ =>
    let B : Block :=
      ⟨name, code, constants, identifiers, ⟨functions⟩, parameters, registers, start⟩
    B.ownLines.map (indent ++ ·) ++ linesList (indent ++ "  ") functions

/-- The lines of a list of blocks. -/
def linesList (indent : String) : List Block → List String
  | [] => []
  | B :: Bs => lines indent B ++ linesList indent Bs

end

/-- The listing of a block; every line is ended. -/
def listing (B : Block) : String :=
  String.join ((B.lines "").map (· ++ "\n"))

mutual

/-- The bytes of a block and of its nested blocks, outer ones first. -/
def encodings : Block → List (List UInt8)
  | ⟨name, code, constants, identifiers, ⟨functions⟩, parameters, registers, start⟩ =>
    let B : Block :=
      ⟨name, code, constants, identifiers, ⟨functions⟩, parameters, registers, start⟩
    B.encode :: encodingsList functions

/-- The bytes of a list of blocks and of their nested blocks. -/
def encodingsList : List Block → List (List UInt8)
  | [] => []
  | B :: Bs => B.encodings ++ encodingsList Bs

end

end Reified.Block
