import BinarySplitting.Json.Reader
import BinarySplitting.Message
import BinarySplitting.Params.Validation

/-!
# Parameters from documents

Parameters are read from an object, or from its member `admm` if it has one. A key that is present
sets its field, one that is absent leaves the standard value, and the result must be admissible.
The keys are read in a fixed order, and the first that cannot be read decides. A whole number is
wanted for the number of passes: other numbers are cut to their whole part, and numbers past a
machine integer are reduced to one. An error belongs to a class; the readers handle some of the
classes and report the errors of these as their own.
-/

namespace BinarySplitting

namespace Decimal

/-- The machine integer that a whole number is reduced to, modulo `2 ^ 32`. -/
def machineInteger (i : Int) : Int := Int.bmod i (1 <<< 32)

def leastMachineInteger : Int := -2147483648

/-- The whole part of a machine number, toward zero; the least machine integer if it does not fit
one. -/
def wholePart (x : Float) : Int :=
  match Binary64.ofFloat x with
  | .finite negative num den =>
    let i : Int := if negative then -(num / den : Nat) else (num / den : Nat)
    if machineInteger i = i then i else leastMachineInteger
  | _ => leastMachineInteger

end Decimal

namespace Params

/-- Why a document gives no parameters. -/
inductive DocumentError where
  | notObject
  | wrongType
  | unknownPolicy (name : String)
  | notAdmissible (defect : Defect Float)

/-- The classes of errors that a caller can tell apart. -/
inductive ErrorClass where
  | runtime
  | argument
  | syntaxError
  | outOfRange
  | type
deriving DecidableEq

/-- The name of a class; the three classes of the document format have one name. -/
def ErrorClass.name : ErrorClass → String
  | .runtime => "runtime_error"
  | .argument => "invalid_argument"
  | .syntaxError | .outOfRange | .type => "json_exception"

def ErrorClass.isOfFormat (c : ErrorClass) : Bool := c = .syntaxError || c = .outOfRange || c = .type

/-- The class of an error past a handler, which reports what it handles as its own. -/
def ErrorClass.past (handles : ErrorClass → Bool) (c : ErrorClass) : ErrorClass :=
  if handles c then .runtime else c

def DocumentError.raisedAs : DocumentError → ErrorClass
  | .notObject => .runtime
  | .wrongType => .type
  | .unknownPolicy _ => .runtime
  | .notAdmissible _ => .argument

/-- The class in which an error is reported. While the fields are read the errors of the document
format are handled, while the parameters are validated those of arguments. -/
def DocumentError.reportedAs (e : DocumentError) : ErrorClass :=
  match e with
  | .notObject => e.raisedAs
  | .wrongType | .unknownPolicy _ => e.raisedAs.past ErrorClass.isOfFormat
  | .notAdmissible _ => e.raisedAs.past (· = .argument)

def unknownPolicyMessage (name : String) : String :=
  shown ("parse_rho_policy: unknown policy '" ++ name ++
    "' (expected fixed, grow or residual_balancing)")

def DocumentError.message : DocumentError → String
  | .notObject => "parse_admm_params: \"admm\" is not an object"
  | .wrongType => "parse_admm_params: [json.exception.type_error.302]"
  | .unknownPolicy name => unknownPolicyMessage name
  | .notAdmissible defect => "parse_admm_params: " ++ defect.message

/-! ## Values -/

def number? : Json → Option Float
  | .number x => some x
  | .integer i => some (if i < 0 then -(Decimal.read i.natAbs 0) else Decimal.read i.natAbs 0)
  | _ => none

/-- A count: any number, or a truth value as zero or one. -/
def count? : Json → Option Int
  | .integer i => some (Decimal.machineInteger i)
  | .number x => some (Decimal.wholePart x)
  | .bool b => some (if b then 1 else 0)
  | _ => none

def flag? : Json → Option Bool
  | .bool b => some b
  | _ => none

def policyOf : Json → Except DocumentError PenaltyPolicy
  | .string s =>
    match PenaltyPolicy.ofName? s with
    | some p => .ok p
    | none => .error (.unknownPolicy s)
  | _ => .error .wrongType

def orWrongType {β : Type} : Option β → Except DocumentError β
  | some b => .ok b
  | none => .error .wrongType

/-! ## Fields -/

/-- Reads one key into the parameters. -/
structure Setter where
  key : String
  set : Json → Params Float → Except DocumentError (Params Float)

def numberSetter (key : String) (put : Float → Params Float → Params Float) : Setter :=
  ⟨key, fun v p => (orWrongType (number? v)).map (put · p)⟩

def flagSetter (key : String) (put : Bool → Params Float → Params Float) : Setter :=
  ⟨key, fun v p => (orWrongType (flag? v)).map (put · p)⟩

/-- The setters in the order in which the keys are read. -/
def setters : List Setter :=
  [numberSetter "rho_initial" fun x p => { p with rhoInitial := x },
   numberSetter "beta" fun x p => { p with beta := x },
   numberSetter "factor_c" fun x p => { p with equalityWeight := x },
   ⟨"maxiter", fun v p => (orWrongType (count? v)).map fun n => { p with maxIterations := n }⟩,
   numberSetter "tol" fun x p => { p with tolerance := x },
   flagSetter "three_block" fun b p => { p with threeBlock := b },
   ⟨"rho_policy", fun v p => (policyOf v).map fun k => { p with policy := k }⟩,
   numberSetter "rho_growth" fun x p => { p with rhoGrowth := x },
   numberSetter "tau_incr" fun x p => { p with raiseFactor := x },
   numberSetter "tau_decr" fun x p => { p with lowerFactor := x },
   numberSetter "mu_res" fun x p => { p with balanceRatio := x },
   numberSetter "rho_min" fun x p => { p with rhoMin := x },
   numberSetter "rho_max" fun x p => { p with rhoMax := x },
   flagSetter "check_dual_residual" fun b p => { p with checkDual := b },
   numberSetter "dual_tol" fun x p => { p with dualTolerance := x },
   numberSetter "mu_merit" fun x p => { p with meritWeight := x },
   numberSetter "feasibility_tol" fun x p => { p with feasibilityTolerance := x },
   numberSetter "max_time_seconds" fun x p => { p with timeLimit := x },
   flagSetter "verbose" fun b p => { p with verbose := b }]

/-- Applies a setter if its key is among the members. -/
def Setter.apply (members : List (String × Json)) (p : Params Float) (s : Setter) :
    Except DocumentError (Params Float) :=
  match Json.lookup s.key members with
  | some v => s.set v p
  | none => .ok p

/-- The standard parameters with the fields that the members set. -/
def overlay (members : List (String × Json)) : Except DocumentError (Params Float) :=
  setters.foldlM (Setter.apply members) standard

def place (doc : Json) : Json := (doc.member? "admm").getD doc

/-- The parameters that a document gives. -/
def ofJson (doc : Json) : Except DocumentError (Params Float) :=
  match place doc with
  | .object members => do
    let p ← overlay members
    match p.validate with
    | .ok () => return p
    | .error defect => throw (.notAdmissible defect)
  | _ => .error .notObject

/-! ## Files -/

/-- Why a file gives no parameters. -/
inductive FileError where
  | missing
  | malformed
  | overflow
  | document (error : DocumentError)

def FileError.raisedAs : FileError → ErrorClass
  | .missing => .runtime
  | .malformed => .syntaxError
  | .overflow => .outOfRange
  | .document error => error.reportedAs

/-- The class in which an error is reported. While the file is read only errors of syntax are
handled. -/
def FileError.reportedAs (e : FileError) : ErrorClass :=
  match e with
  | .missing | .document _ => e.raisedAs
  | .malformed | .overflow => e.raisedAs.past (· = .syntaxError)

def FileError.message (path : String) : FileError → String
  | .missing => "load_admm_params: cannot open " ++ path
  | .malformed => "load_admm_params: " ++ path ++ ": [json.exception.parse_error.101]"
  | .overflow => "[json.exception.out_of_range.406]"
  | .document error => error.message

def ofRead : Except Json.ReadError Json → Except FileError (Params Float)
  | .error .malformed => .error .malformed
  | .error .overflow => .error .overflow
  | .ok doc => (ofJson doc).mapError .document

/-- The parameters that a file gives, by its bytes if it exists. -/
def load (content : Option ByteArray) : Except FileError (Params Float) :=
  match content with
  | none => .error .missing
  | some bytes => ofRead (Json.readBytes bytes)

end Params

end BinarySplitting
