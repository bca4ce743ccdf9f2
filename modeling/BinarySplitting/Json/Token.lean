import BinarySplitting.Decimal.Binary64
import BinarySplitting.Scalar
import BinarySplitting.Json.Value

/-!
# Tokens

The text of a document, cut into its smallest parts. Blanks separate parts and are dropped; the
first place where no part can be read ends the sequence with the token `malformed`.
-/

namespace BinarySplitting.Json

/-- The parts of a document's text. -/
inductive Token where
  | openObject
  | closeObject
  | openArray
  | closeArray
  | colon
  | comma
  | text (s : String)
  | scalar (value : Json)
  | overflow
  | malformed

namespace Token

def isBlank (c : Char) : Bool := c = ' ' || c = '\t' || c = '\n' || c = '\r'

/-! ## Numbers -/

def isDigit (c : Char) : Bool := '0' ≤ c && c ≤ '9'

/-- The number that a sequence of digits writes. -/
def digitsValue (cs : List Char) : Nat := cs.foldl (fun n c => 10 * n + (c.toNat - 48)) 0

/-- A whole number fits a signed or an unsigned machine word. -/
def fitsWord (i : Int) : Bool := decide (-9223372036854775808 ≤ i ∧ i ≤ 18446744073709551615)

/-- The whole number if it fits a machine word, else the nearest machine number. -/
def wholeNumber (negative : Bool) (n : Nat) : Token :=
  let i : Int := if negative then -n else n
  if fitsWord i then .scalar (.integer i)
  else
    let x := Decimal.read n 0
    if Scalar.isFinite x then .scalar (.number (if negative then -x else x)) else .overflow

def decimalNumber (negative : Bool) (digits : Nat) (power : Int) : Token :=
  let x := Decimal.read digits power
  if Scalar.isFinite x then .scalar (.number (if negative then -x else x)) else .overflow

/-- Digits at the front, at least one, and what follows them. -/
def digits? (cs : List Char) : Option (List Char × List Char) :=
  match cs.takeWhile isDigit with
  | [] => none
  | ds => some (ds, cs.dropWhile isDigit)

/-- The whole part of a number: zero, or digits that do not start with zero. -/
def wholePart? (cs : List Char) : Option (List Char × List Char) :=
  match cs with
  | '0' :: rest => some (['0'], rest)
  | _ => digits? cs

/-- The digits after a point, none if there is no point. -/
def fraction? (cs : List Char) : Option (List Char × List Char) :=
  match cs with
  | '.' :: rest => digits? rest
  | _ => some ([], cs)

/-- The power of ten after an exponent mark, `none` inside if there is no mark. -/
def exponent? (cs : List Char) : Option (Option Int × List Char) :=
  match cs with
  | c :: rest =>
    if c = 'e' ∨ c = 'E' then
      match rest with
      | '-' :: rest => (digits? rest).map fun (ds, r) => (some (-(digitsValue ds : Int)), r)
      | '+' :: rest => (digits? rest).map fun (ds, r) => (some (digitsValue ds : Int), r)
      | _ => (digits? rest).map fun (ds, r) => (some (digitsValue ds : Int), r)
    else some (none, cs)
  | [] => some (none, [])

/-- An unsigned number at the front and what follows it. -/
def unsigned? (negative : Bool) (cs : List Char) : Option (Token × List Char) := do
  let (whole, cs) ← wholePart? cs
  let (places, cs) ← fraction? cs
  let (power, cs) ← exponent? cs
  let token :=
    if places.isEmpty && power.isNone then wholeNumber negative (digitsValue whole)
    else decimalNumber negative (digitsValue (whole ++ places)) (power.getD 0 - places.length)
  return (token, cs)

/-! ## Texts -/

def hexDigit? (c : Char) : Option Nat :=
  if '0' ≤ c && c ≤ '9' then some (c.toNat - 48)
  else if 'a' ≤ c && c ≤ 'f' then some (c.toNat - 87)
  else if 'A' ≤ c && c ≤ 'F' then some (c.toNat - 55)
  else none

/-- The unit that four hexadecimal digits at the front write, and what follows them. -/
def unit? : List Char → Option (Nat × List Char)
  | a :: b :: c :: d :: rest => do
    let a ← hexDigit? a
    let b ← hexDigit? b
    let c ← hexDigit? c
    let d ← hexDigit? d
    return (((a * 16 + b) * 16 + c) * 16 + d, rest)
  | _ => none

/-- The character of an escape by number, of which the first unit's digits come next; a character
past the first plane is written as two units, and neither stands alone. -/
def unicodeEscape? (cs : List Char) : Option (Char × List Char) := do
  let (u, rest) ← unit? cs
  if 0xD800 ≤ u ∧ u < 0xDC00 then
    match rest with
    | '\\' :: 'u' :: more =>
      let (v, rest) ← unit? more
      if 0xDC00 ≤ v ∧ v < 0xE000 then
        return (Char.ofNat (0x10000 + (u - 0xD800) * 0x400 + (v - 0xDC00)), rest)
      else none
    | _ => none
  else if 0xDC00 ≤ u ∧ u < 0xE000 then none
  else return (Char.ofNat u, rest)

/-- The character that an escape stands for, after the backslash, and what follows it. -/
def escape? : List Char → Option (Char × List Char)
  | '"' :: rest => some ('"', rest)
  | '\\' :: rest => some ('\\', rest)
  | '/' :: rest => some ('/', rest)
  | 'b' :: rest => some ('\x08', rest)
  | 'f' :: rest => some ('\x0c', rest)
  | 'n' :: rest => some ('\n', rest)
  | 'r' :: rest => some ('\r', rest)
  | 't' :: rest => some ('\t', rest)
  | 'u' :: rest => unicodeEscape? rest
  | _ => none

/-- The characters up to the closing quote, and what follows it. The first argument bounds the
number of characters. -/
def quoted? : Nat → List Char → Option (List Char × List Char)
  | 0, _ => none
  | _ + 1, [] => none
  | fuel + 1, c :: rest =>
    if c = '"' then some ([], rest)
    else if c = '\\' then do
      let (e, rest) ← escape? rest
      let (cs, rest) ← quoted? fuel rest
      return (e :: cs, rest)
    else if c.toNat < 0x20 then none
    else do
      let (cs, rest) ← quoted? fuel rest
      return (c :: cs, rest)

/-! ## The sequence of tokens -/

/-- The token at the front, and what follows it. -/
def next? : List Char → Option (Token × List Char)
  | '\x7b' :: rest => some (.openObject, rest)
  | '\x7d' :: rest => some (.closeObject, rest)
  | '[' :: rest => some (.openArray, rest)
  | ']' :: rest => some (.closeArray, rest)
  | ':' :: rest => some (.colon, rest)
  | ',' :: rest => some (.comma, rest)
  | 't' :: 'r' :: 'u' :: 'e' :: rest => some (.scalar (.bool true), rest)
  | 'f' :: 'a' :: 'l' :: 's' :: 'e' :: rest => some (.scalar (.bool false), rest)
  | 'n' :: 'u' :: 'l' :: 'l' :: rest => some (.scalar .null, rest)
  | '"' :: rest => (quoted? (rest.length + 1) rest).map fun (cs, r) => (.text (String.ofList cs), r)
  | '-' :: rest => unsigned? true rest
  | cs => unsigned? false cs

/-- The tokens of a text, `fuel` of them at most. -/
def scan : Nat → List Char → List Token
  | 0, _ => []
  | fuel + 1, cs =>
    match cs.dropWhile isBlank with
    | [] => []
    | c :: rest =>
      match next? (c :: rest) with
      | some (token, rest) => token :: scan fuel rest
      | none => [.malformed]

/-- The tokens of a text; a byte order mark in front is skipped. -/
def ofText (text : String) : List Token :=
  match text.toList with
  | '\ufeff' :: cs => scan (cs.length + 1) cs
  | cs => scan (cs.length + 1) cs

/-- The longest text in front of the bytes of a file. -/
def leadingText (content : ByteArray) : String :=
  ((List.range content.size).reverse.findSome? fun size =>
    String.fromUTF8? (content.extract 0 size)).getD ""

/-- The tokens of the bytes of a file; where they are no text any more the sequence is malformed. -/
def ofBytes (content : ByteArray) : List Token :=
  match String.fromUTF8? content with
  | some s => ofText s
  | none => ofText (leadingText content) ++ [.malformed]

theorem ofBytes_toUTF8 (text : String) : ofBytes text.toUTF8 = ofText text := by
  have hdecode : String.fromUTF8? text.toUTF8 = some text := dif_pos text.isValidUTF8
  rw [ofBytes, hdecode]

end Token

end BinarySplitting.Json
