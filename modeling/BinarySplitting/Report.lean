import BinarySplitting.Json.Writer
import BinarySplitting.Result

/-!
# Reports

A result as a document, and its history as a table. In the document each variable stands under its
label: its name if it has one, else a letter and its index. Of two variables with one label the
later counts.
-/

namespace BinarySplitting.Report

/-! ## The document -/

def label (names : List String) (letter : String) (i : Nat) : String :=
  match names[i]? with
  | some name => if name = "" then letter ++ i.repr else name
  | none => letter ++ i.repr

/-- The variables of one kind with their labels. -/
def labelled (names : List String) (letter : String) (v : Vec Float) : List (String × Json) :=
  (List.range v.size).map fun i => (label names letter i, .number (v i))

/-- The values of all variables with their labels, the binary ones first. -/
def valuesByLabel (p : Problem Float) (r : Result Float) : List (String × Json) :=
  labelled p.binaryNames "x" r.x ++ labelled p.continuousNames "u" r.u

def vector (v : Vec Float) : Json := .array (v.toList.map .number)

def record (r : Record Float) : Json :=
  .ofMembers
    [("iteration", .integer r.iteration),
     ("primal_residual", .number r.primal),
     ("dual_residual", .number r.dual),
     ("rho", .number r.rho),
     ("objective", .number r.objective),
     ("constraint_residual", .number r.violation),
     ("merit", .number r.merit)]

def document (p : Problem Float) (r : Result Float) : Json :=
  .ofMembers
    [("status", .string (Status.stopped r.stop).name),
     ("converged", .bool r.converged),
     ("iterations", .integer r.iterations),
     ("final_rho", .number r.finalRho),
     ("fval", .number r.objective),
     ("constraint_residual", .number r.violation),
     ("feasible", .bool r.feasible),
     ("variables", .ofMembers (valuesByLabel p r)),
     ("solution", vector r.solution),
     ("history", .array (r.history.records.map record))]

/-- The text of the document, a member on each line. -/
def text (p : Problem Float) (r : Result Float) : String := (document p r).write .lines ++ "\n"

/-! ## The table -/

def heading : String :=
  "iteration,primal_residual,dual_residual,rho,objective,constraint_residual,merit\n"

/-- A line of the table: the number of the pass and the measures with ten significant digits. -/
def line (r : Record Float) : String :=
  let numbers := [r.primal, r.dual, r.rho, r.objective, r.violation, r.merit]
  ",".intercalate (r.iteration.repr :: numbers.map (Decimal.scientific 9)) ++ "\n"

def table (h : History Float) : String := heading ++ "".intercalate (h.records.map line)

/-! ## Files -/

/-- The message when the document's file cannot be written. -/
def documentUnwritable (path : String) : String := "write_result_json: cannot open " ++ path

/-- The message when the table's file cannot be written. -/
def tableUnwritable (path : String) : String := "write_residuals_csv: cannot open " ++ path

end BinarySplitting.Report
