import BinarySplitting.Decimal.Shortest
import BinarySplitting.Json.Value

/-!
# Writing documents

A document as text, either on one line without blanks or with each member on a line of its own.
Machine numbers have the fewest digits that read back; those that are not finite are written as the
empty value.
-/

namespace BinarySplitting.Json

/-! ## Texts -/

/-- A digit below sixteen, in lower case. -/
def hexDigit (n : Nat) : Char := if n < 10 then Char.ofNat (48 + n) else Char.ofNat (87 + n)

/-- A character inside quotes: quotes, backslashes and control characters are escaped. -/
def escapeChar (c : Char) : List Char :=
  if c = '"' then ['\\', '"']
  else if c = '\\' then ['\\', '\\']
  else if c = '\x08' then ['\\', 'b']
  else if c = '\x0c' then ['\\', 'f']
  else if c = '\n' then ['\\', 'n']
  else if c = '\r' then ['\\', 'r']
  else if c = '\t' then ['\\', 't']
  else if c.toNat < 0x20 then
    ['\\', 'u', '0', '0', hexDigit (c.toNat / 16), hexDigit (c.toNat % 16)]
  else [c]

def quote (s : String) : String := "\"" ++ String.ofList (s.toList.flatMap escapeChar) ++ "\""

/-! ## Layout -/

/-- How the members of a container are laid out. -/
structure Layout where
  /-- The indentation of each level; without one everything stands on one line. -/
  indent? : Option Nat

/-- Each member on a line of its own, each level two blanks further in. -/
def Layout.lines : Layout := ⟨some 2⟩

/-- What stands before a member, or before the closing bracket, at a depth. -/
def Layout.lineBreak (l : Layout) (depth : Nat) : String :=
  match l.indent? with
  | none => ""
  | some width => "\n" ++ "".pushn ' ' (width * depth)

/-- What stands between a key and its value. -/
def Layout.keyMark (l : Layout) : String :=
  match l.indent? with
  | none => ":"
  | some _ => ": "

def Layout.container (l : Layout) (depth : Nat) (left right : String) (members : List String) :
    String :=
  match members with
  | [] => left ++ right
  | _ =>
    left ++ l.lineBreak (depth + 1) ++ ("," ++ l.lineBreak (depth + 1)).intercalate members ++
      l.lineBreak depth ++ right

mutual

/-- The text of a document at a depth. -/
def writeAt (l : Layout) (depth : Nat) : Json → String
  | .null => "null"
  | .bool b => if b then "true" else "false"
  | .integer i => i.repr
  | .number x => (Decimal.minimal? x).getD "null"
  | .string s => quote s
  | .array items => l.container depth "[" "]" (writeItems l (depth + 1) items)
  | .object members => l.container depth "\x7b" "\x7d" (writeMembers l (depth + 1) members)

/-- The texts of the values of a sequence. -/
def writeItems (l : Layout) (depth : Nat) : List Json → List String
  | [] => []
  | v :: rest => writeAt l depth v :: writeItems l depth rest

def writeMembers (l : Layout) (depth : Nat) : List (String × Json) → List String
  | [] => []
  | (key, v) :: rest =>
    (quote key ++ l.keyMark ++ writeAt l depth v) :: writeMembers l depth rest

end

def write (l : Layout) (v : Json) : String := writeAt l 0 v

end BinarySplitting.Json
