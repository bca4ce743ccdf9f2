import BinarySplitting.Json.Token

/-!
# Reading documents

A document's tokens drive a machine whose state is what may come next and the containers that are
still open. A token that may not come next, or a text that ends early, is malformed; a number too
large is reported where a value may stand. Of two members with one key the later counts.
-/

namespace BinarySplitting.Json

/-- Why a text is not read. -/
inductive ReadError where
  | malformed
  | overflow
deriving DecidableEq

/-- A container that is still open. -/
inductive Frame where
  /-- A sequence and its values so far, the last first. -/
  | array (items : List Json)
  /-- An object, its members so far, and the key whose value is being read. -/
  | object (members : List (String × Json)) (key : String)

/-- What may come next, inside the open containers. -/
inductive Expectation where
  | value (frames : List Frame)
  | firstItem (frames : List Frame)
  | firstKey (frames : List Frame)
  | key (members : List (String × Json)) (frames : List Frame)
  | colon (members : List (String × Json)) (key : String) (frames : List Frame)
  | after (value : Json) (frames : List Frame)

/-- A token where a value may stand. -/
def Expectation.startValue (frames : List Frame) : Token → Except ReadError Expectation
  | .scalar v => .ok (.after v frames)
  | .text s => .ok (.after (.string s) frames)
  | .openArray => .ok (.firstItem frames)
  | .openObject => .ok (.firstKey frames)
  | .overflow => .error .overflow
  | _ => .error .malformed

def Expectation.step : Expectation → Token → Except ReadError Expectation
  | .value frames, token => startValue frames token
  | .firstItem frames, .closeArray => .ok (.after (.array []) frames)
  | .firstItem frames, token => startValue (.array [] :: frames) token
  | .firstKey frames, .closeObject => .ok (.after (.object []) frames)
  | .firstKey frames, .text s => .ok (.colon [] s frames)
  | .key members frames, .text s => .ok (.colon members s frames)
  | .colon members name frames, .colon => .ok (.value (.object members name :: frames))
  | .after v (.array items :: frames), .comma => .ok (.value (.array (v :: items) :: frames))
  | .after v (.array items :: frames), .closeArray =>
    .ok (.after (.array (v :: items).reverse) frames)
  | .after v (.object members name :: frames), .comma => .ok (.key (insert name v members) frames)
  | .after v (.object members name :: frames), .closeObject =>
    .ok (.after (.object (insert name v members)) frames)
  | _, _ => .error .malformed

/-- The document that a sequence of tokens writes. -/
def ofTokens (tokens : List Token) : Except ReadError Json := do
  match ← tokens.foldlM Expectation.step (.value []) with
  | .after v [] => return v
  | _ => throw .malformed

/-- The document that the bytes of a file write. -/
def readBytes (content : ByteArray) : Except ReadError Json := ofTokens (Token.ofBytes content)

end BinarySplitting.Json
