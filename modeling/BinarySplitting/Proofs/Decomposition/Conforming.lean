import BinarySplitting.Proofs.Engine.Start
import BinarySplitting.Proofs.Problem.Conforming

/-!
# Subproblems are built from parts that conform

The functions that build the subproblems of an iterate and those that measure their points, once more with
operations that have no result unless their operands conform; a block that is put into a matrix must have the
size of its place. For a decomposition of an accepted problem and an iterate whose vectors have the sizes of
the problem they all have a result, and it is that of the functions without these tests
(`Decomposition.Conforms`, `Decomposition.conforms_of_accepted`). What they build fits together
(`Qubo.isSquare`, `Program.Fits`), so its points can be measured, too.

As with the points of a problem, this is about sizes alone and holds in any arithmetic.
-/

namespace BinarySplitting

variable {α : Type} [Scalar α]

/-! ## Points of the subproblems -/

def Qubo.value? (q : Qubo α) (x : Vec α) : Option α := do
  return (← q.quadratic.quadraticForm? x) + (← q.linear.dot? x) + q.constant

theorem Qubo.value?_of_isSquare {q : Qubo α} {x : Vec α} (hq : q.isSquare = true)
    (hx : x.size = q.numVariables) : q.value? x = some (q.value x) := by
  unfold isSquare Mat.hasShape at hq
  rw [Bool.and_eq_true, beq_iff_eq, beq_iff_eq] at hq
  unfold value?
  rw [Mat.quadraticForm?_of_shape (hq.1.trans hx.symm) (hq.2.trans hx.symm), Vec.dot?_of_size hx.symm]
  rfl

namespace Program

def objective? (p : Program α) (w : Vec α) : Option α := do
  return 0.5 * (← p.quadratic.quadraticForm? w) + (← p.linear.dot? w) + p.constant

/-- The greatest amount by which a vector with entries is past a pair of bounds, at least `least`. -/
def worstExcess? (least : α) (v lower upper : Vec α) : Option α := do
  return Scalar.larger (Scalar.larger least (← (← lower.sub? v).maximum?)) (← (← v.sub? upper).maximum?)

/-- The greatest amount by which a row is past a bound. -/
def rowExcess? (p : Program α) (w : Vec α) : Option α :=
  if p.numRows = 0 then some 0.0
  else do worstExcess? 0.0 (← p.rows.mulVec? w) p.rowLower p.rowUpper

/-- The greatest amount by which a row or a variable is past a bound. -/
def maxViolation? (p : Program α) (w : Vec α) : Option α := do
  let rows ← p.rowExcess? w
  if p.dimension = 0 then some rows else worstExcess? rows w p.lower p.upper

/-- The parts of a program have the sizes that its variables and rows ask for; nothing is asked of the matrix
of the rows if there are none. -/
structure Fits (p : Program α) : Prop where
  quadratic : p.quadratic.rows = p.dimension ∧ p.quadratic.cols = p.dimension
  rows : 0 < p.numRows → p.rows.rows = p.numRows ∧ p.rows.cols = p.dimension
  rowUpper : p.rowUpper.size = p.numRows
  lower : p.lower.size = p.dimension
  upper : p.upper.size = p.dimension

variable {p : Program α} {w : Vec α}

theorem Fits.objective?_eq (hp : p.Fits) (hw : w.size = p.dimension) : p.objective? w = some (p.objective w) := by
  unfold Program.objective?
  rw [Mat.quadraticForm?_of_shape (hp.quadratic.1.trans hw.symm) (hp.quadratic.2.trans hw.symm),
    Vec.dot?_of_size hw.symm]
  rfl

theorem worstExcess?_of_size {n : ℕ} {least : α} {v lower upper : Vec α} (hn : 0 < n) (hv : v.size = n)
    (hlower : lower.size = n) (hupper : upper.size = n) :
    worstExcess? least v lower upper = some (worstExcess least v lower upper) := by
  have hsizes : 0 < (lower - v).size ∧ 0 < (v - upper).size := by
    rw [Vec.size_sub, Vec.size_sub]
    omega
  unfold worstExcess?
  rw [Vec.sub?_of_size (hlower.trans hv.symm), Vec.sub?_of_size (hv.trans hupper.symm)]
  simp only [Option.bind_eq_bind, Option.bind_some]
  rw [Vec.maximum?_of_size hsizes.1, Vec.maximum?_of_size hsizes.2]
  rfl

theorem Fits.rowExcess?_eq (hp : p.Fits) (hw : w.size = p.dimension) : p.rowExcess? w =
    some (if p.numRows = 0 then 0.0 else worstExcess 0.0 (p.rows.mulVec w) p.rowLower p.rowUpper) := by
  unfold Program.rowExcess?
  split
  · rfl
  next hm =>
  obtain ⟨hr, hc⟩ := hp.rows (Nat.pos_of_ne_zero hm)
  rw [Mat.mulVec?_of_size (hc.trans hw.symm)]
  exact worstExcess?_of_size (Nat.pos_of_ne_zero hm) (by rw [Mat.size_mulVec, hr]) rfl hp.rowUpper

theorem Fits.maxViolation?_eq (hp : p.Fits) (hw : w.size = p.dimension) :
    p.maxViolation? w = some (p.maxViolation w) := by
  unfold Program.maxViolation? maxViolation
  rw [hp.rowExcess?_eq hw, Option.bind_eq_bind, Option.bind_some]
  dsimp only
  split
  · rfl
  next hn => exact worstExcess?_of_size (Nat.pos_of_ne_zero hn) hw hp.lower hp.upper

end Program

/-! ## Construction -/

namespace Decomposition

/-- The decomposition of a problem for given parameters. -/
def ofProblem? (p : Problem α) (params : Params α) : Option (Decomposition α) := do
  let c := params.equalityWeight
  let form ← p.binaryQuadratic.symmetricPart?
  let closedForm := decide (p.numInequalities = 0) && !touchesBinaries p
  if p.numEqualities = 0 then some ⟨p, params, form, p.binaryLinear, p.constant, closedForm⟩
  else do
    let t := p.equalityRows.transpose
    let quadratic ← form.add? (← ((0.5 * c) • t).mul? p.equalityRows)
    let linear ← p.binaryLinear.sub? (← (c • t).mulVec? p.equalityRhs)
    let square ← p.equalityRhs.dot? p.equalityRhs
    return ⟨p, params, quadratic, linear, p.constant + 0.5 * c * square, closedForm⟩

variable (d : Decomposition α) (it : Iterate α)

def qubo? : Option (Qubo α) := do
  let target ← it.z.add? it.s
  return { quadratic := d.quadratic.addDiagonal (0.5 * it.rho)
           linear := ← (← d.linear.add? it.y).sub? (it.rho • target)
           constant := d.constant - (← it.y.dot? target) + 0.5 * it.rho * (← target.dot? target) }

/-- The quadratic form of the convex program, put together from its blocks. -/
def programQuadratic? : Option (Mat α) := do
  let nz := d.numRelaxed
  let l := d.problem.numContinuous
  let p := d.problem.continuousQuadratic
  let penalty := Mat.ofFn nz nz fun i j => if i = j then it.rho else 0.0
  (← (Mat.zero (nz + l) (nz + l)).putIf? (0 < nz) 0 0 nz nz (some penalty)).putIf?
    (0 < l) nz nz l l (p.add? p.transpose)

def programLinear? : Option (Vec α) :=
  let nz := d.numRelaxed
  let l := d.problem.numContinuous
  Vec.assemble? nz l (Vec.zero (nz + l)) (do (-it.y).sub? (it.rho • (← it.x.sub? it.s)))
    (some d.problem.continuousLinear)

def programConstant? : Option α :=
  if d.numRelaxed = 0 then some 0.0
  else do
    let target ← it.x.sub? it.s
    return 0.0 + ((← it.y.dot? target) + 0.5 * it.rho * (← target.dot? target))

/-- The number of rows of the convex program that are inequalities on the relaxed copy. -/
def numInequalityRows : ℕ := if d.closedForm then 0 else d.problem.numInequalities

/-- The rows of the convex program, put together from the blocks that have entries. -/
def programRows? : Option (Mat α) := do
  let p := d.problem
  let nz := d.numRelaxed
  let l := p.numContinuous
  let mg := d.numInequalityRows
  let mc := p.numCoupling
  let rows ← (Mat.zero (mg + mc) (nz + l)).putIf? (0 < mg) 0 0 mg nz (some p.inequalityRows)
  let rows ← rows.putIf? (0 < mc ∧ 0 < nz ∧ p.couplingBinary.isEmpty = false) mg 0 mc nz (some p.couplingBinary)
  rows.putIf? (0 < mc ∧ 0 < l ∧ p.couplingContinuous.isEmpty = false) mg nz mc l (some p.couplingContinuous)

/-- The convex program. The entries of its bounds are undetermined before they are put in place. -/
def program? : Option (Program α) := do
  let p := d.problem
  let nz := d.numRelaxed
  let l := p.numContinuous
  let mg := d.numInequalityRows
  let mc := p.numCoupling
  return { quadratic := ← d.programQuadratic? it
           linear := ← d.programLinear? it
           constant := ← d.programConstant? it
           rows := ← d.programRows?
           rowLower := Vec.const (mg + mc) (-Scalar.infinity)
           rowUpper := ← Vec.assemble? mg mc (Vec.const (mg + mc) Scalar.outside) (some p.inequalityRhs)
             (some p.couplingRhs)
           lower := ← Vec.assemble? nz l (Vec.const (nz + l) Scalar.outside) (some (Vec.zero nz)) (some p.lower)
           upper := ← Vec.assemble? nz l (Vec.const (nz + l) Scalar.outside) (some (Vec.const nz 1.0))
             (some p.upper) }

def consensus? (_ : Decomposition α) : Option (Vec α) := do
  return (← (← it.x.sub? it.s).add? (it.y.divBy it.rho)).withinUnit

def slack? : Option (Vec α) := do
  return (← it.y.add? (it.rho • (← it.x.sub? it.z))).divBy (d.params.beta + it.rho)

/-- What the subproblems share has the sizes of the binary part. -/
structure HasSizes (d : Decomposition α) : Prop where
  quadratic : d.quadratic.rows = d.problem.numBinary ∧ d.quadratic.cols = d.problem.numBinary
  linear : d.linear.size = d.problem.numBinary

/-! ## Accepted problems -/

section parts

variable {p : Problem α} {spectrum : Mat α → Vec α} (hp : p.Accepted spectrum) (params : Params α)

include hp

theorem ofProblem?_of_accepted : ofProblem? p params = some (ofProblem p params) := by
  obtain ⟨hr, hc⟩ := hp.binaryQuadratic.shape hp.numBinary_pos hp.numBinary_pos
  have hform : p.binaryQuadratic.symmetricPart? = some p.binaryQuadratic.symmetricPart :=
    Mat.symmetricPart?_of_shape (hr.trans hc.symm)
  unfold ofProblem? ofProblem
  rw [hform, Option.bind_eq_bind, Option.bind_some]
  dsimp only
  split
  · rfl
  next hm =>
  obtain ⟨hr', hc'⟩ := hp.equalityRows.shape (Nat.pos_of_ne_zero hm) hp.numBinary_pos
  have hsizes : p.binaryLinear.size = p.numBinary ∧ p.equalityRhs.size = p.numEqualities := ⟨rfl, rfl⟩
  rw [Mat.mul?_of_shape (by simp), Mat.mulVec?_of_size (by simp [hr', hsizes])]
  simp only [Option.bind_eq_bind, Option.bind_some]
  rw [Mat.add?_of_shape (by simp [Mat.symmetricPart, hr, hc, hc']) (by simp [Mat.symmetricPart, hr, hc, hc']),
    Vec.sub?_of_size (by simp [hc', hsizes]), Vec.dot?_of_size rfl]
  rfl

theorem ofProblem_hasSizes : (ofProblem p params).HasSizes := by
  obtain ⟨hr, hc⟩ := hp.binaryQuadratic.shape hp.numBinary_pos hp.numBinary_pos
  have hlinear : p.binaryLinear.size = p.numBinary := rfl
  unfold ofProblem
  dsimp only
  split
  · exact ⟨by simp [Mat.symmetricPart, hr, hc], hlinear⟩
  next hm =>
  obtain ⟨-, hc'⟩ := hp.equalityRows.shape (Nat.pos_of_ne_zero hm) hp.numBinary_pos
  exact ⟨by simp [Mat.symmetricPart, hr, hc, hc'], by simp [hc', hlinear]⟩

end parts

/-! ## Accepted iterates -/

variable {d : Decomposition α} {it : Iterate α}

omit [Scalar α] in
/-- The relaxed copy takes part in the convex program with all its entries and rows or not at all. -/
theorem numRelaxed_cases (d : Decomposition α) :
    d.closedForm = true ∧ d.numRelaxed = 0 ∧ d.numInequalityRows = 0 ∨
      d.closedForm = false ∧ d.numRelaxed = d.problem.numBinary ∧
        d.numInequalityRows = d.problem.numInequalities := by
  unfold numRelaxed numInequalityRows
  cases d.closedForm
  · exact Or.inr ⟨rfl, rfl, rfl⟩
  · exact Or.inl ⟨rfl, rfl, rfl⟩

section binary

variable (hd : d.HasSizes)

include hd

theorem HasSizes.numVariables_qubo (hz : it.z.size = d.problem.numBinary) (hs : it.s.size = d.problem.numBinary)
    (hy : it.y.size = d.problem.numBinary) : (d.qubo it).numVariables = d.problem.numBinary := by
  simp [Qubo.numVariables, qubo, hd.linear, hy, hz, hs]

variable (h : d.HasVectors it)

include h

theorem HasSizes.isSquare_qubo : (d.qubo it).isSquare = true := by
  unfold Qubo.isSquare Mat.hasShape
  rw [hd.numVariables_qubo h.z.1 h.s.1 h.y.1, Bool.and_eq_true, beq_iff_eq, beq_iff_eq]
  exact hd.quadratic

theorem HasSizes.qubo?_eq : d.qubo? it = some (d.qubo it) := by
  have htarget : (it.z + it.s).size = d.problem.numBinary := by simp [h.z.1, h.s.1]
  unfold qubo?
  rw [Vec.add?_of_size (h.z.1.trans h.s.1.symm), Vec.add?_of_size (hd.linear.trans h.y.1.symm)]
  simp only [Option.bind_eq_bind, Option.bind_some]
  rw [Vec.sub?_of_size (by simp [hd.linear, h.y.1, htarget]), Vec.dot?_of_size (h.y.1.trans htarget.symm),
    Vec.dot?_of_size rfl]
  rfl

end binary

section convex

variable {spectrum : Mat α → Vec α} (hp : d.problem.Accepted spectrum) (h : d.HasVectors it)

theorem programQuadratic?_eq (hp : d.problem.Accepted spectrum) :
    d.programQuadratic? it = some (d.programQuadratic it.rho) := by
  unfold programQuadratic? programQuadratic
  dsimp only
  generalize d.numRelaxed = nz
  generalize hP : d.problem.continuousQuadratic = P
  generalize hl : d.problem.numContinuous = l
  have hform : 0 < l → P.add? P.transpose = some (P + P.transpose) ∧ (P + P.transpose).rows = l ∧
      (P + P.transpose).cols = l := by
    intro hpos
    subst hP hl
    obtain ⟨hr, hc⟩ := hp.continuousQuadratic.shape hpos hpos
    exact ⟨Mat.add?_of_shape (hr.trans hc.symm) (hc.trans hr.symm), by simp [hr, hc], by simp [hr, hc]⟩
  generalize hpenalty : (Mat.ofFn nz nz fun i j => if i = j then it.rho else 0.0) = penalty
  have hblock : 0 < nz → some penalty = some penalty ∧ penalty.rows = nz ∧ penalty.cols = nz := by
    rw [← hpenalty]
    exact fun _ => ⟨rfl, rfl, rfl⟩
  rw [Mat.putIf?_of_shape hblock (by simp) (by simp), Option.bind_eq_bind, Option.bind_some,
    Mat.putIf?_of_shape hform (by simp) (by simp)]
  refine congrArg some (Mat.ext (by simp) (by simp) fun i hi j hj => ?_)
  simp only [Mat.rows_ite_put, Mat.cols_ite_put, Mat.rows_zero, Mat.cols_zero] at hi hj
  rw [Mat.get_ite_put (fun hl => (hform hl).2) (by simpa using hi) (by simpa using hj),
    Mat.get_ite_put (fun hz => (hblock hz).2) hi hj, Mat.get_ofFn _ hi hj, Mat.zero, Mat.get_ofFn _ hi hj]
  by_cases hz : i < nz ∧ j < nz
  · rw [if_neg (by omega), if_pos (by omega), if_pos hz, ← hpenalty, Nat.sub_zero, Nat.sub_zero,
      Mat.get_ofFn _ hz.1 hz.2]
  by_cases hu : nz ≤ i ∧ nz ≤ j
  · rw [if_pos (by omega), if_neg hz, if_pos hu]
  · rw [if_neg (by omega), if_neg (by omega), if_neg hz, if_neg hu]

theorem inequalityRows_shape (hp : d.problem.Accepted spectrum) (hm : 0 < d.numInequalityRows) :
    d.problem.inequalityRows.rows = d.numInequalityRows ∧ d.problem.inequalityRows.cols = d.numRelaxed := by
  obtain ⟨-, -, hnone⟩ | ⟨-, hcount, hrows⟩ := d.numRelaxed_cases
  · omega
  · rw [hrows] at hm ⊢
    rw [hcount]
    exact hp.inequalityRows.shape hm hp.numBinary_pos

theorem couplingBinary_shape (hp : d.problem.Accepted spectrum) (hm : 0 < d.problem.numCoupling)
    (hz : 0 < d.numRelaxed) :
    d.problem.couplingBinary.rows = d.problem.numCoupling ∧ d.problem.couplingBinary.cols = d.numRelaxed := by
  obtain ⟨-, hnone, -⟩ | ⟨-, hcount, -⟩ := d.numRelaxed_cases
  · omega
  · rw [hcount]
    exact hp.couplingBinary.shape hm hp.numBinary_pos

theorem programRows?_eq (hp : d.problem.Accepted spectrum) : d.programRows? = some d.programRows := by
  have hinequalities := inequalityRows_shape hp
  have hcoupling := couplingBinary_shape hp
  have hcontinuous : 0 < d.problem.numCoupling → 0 < d.problem.numContinuous → _ := hp.couplingContinuous.shape
  unfold programRows? programRows
  dsimp only
  rw [← numInequalityRows]
  rw [Mat.putIf?_of_shape (fun h => ⟨rfl, hinequalities h⟩) (by simp) (by simp), Option.bind_eq_bind,
    Option.bind_some, Mat.putIf?_of_shape (fun h => ⟨rfl, hcoupling h.1 h.2.1⟩) (by simp) (by simp),
    Option.bind_some, Mat.putIf?_of_shape (fun h => ⟨rfl, hcontinuous h.1 h.2.1⟩) (by simp) (by simp)]
  refine congrArg some (Mat.ext (by simp) (by simp) fun i hi j hj => ?_)
  simp only [Mat.rows_ite_put, Mat.cols_ite_put, Mat.rows_zero, Mat.cols_zero] at hi hj
  rw [Mat.get_ite_put (fun h => hcontinuous h.1 h.2.1) (by simpa using hi) (by simpa using hj),
    Mat.get_ite_put (fun h => hcoupling h.1 h.2.1) (by simpa using hi) (by simpa using hj),
    Mat.get_ite_put hinequalities hi hj, Mat.get_ofFn _ hi hj, Mat.zero, Mat.get_ofFn _ hi hj]
  by_cases hg : i < d.numInequalityRows
  · rw [if_neg (by omega), if_neg (by omega), if_pos hg]
    by_cases hz : j < d.numRelaxed
    · rw [if_pos (by omega), if_pos hz, Nat.sub_zero, Nat.sub_zero]
    · rw [if_neg (by omega), if_neg hz]
  rw [if_neg hg]
  by_cases hz : j < d.numRelaxed
  · rw [if_neg (by omega), if_pos hz]
    cases hempty : d.problem.couplingBinary.isEmpty with
    | true => rw [if_neg (by simp), if_neg (by omega), if_pos rfl]
    | false => rw [if_pos ⟨⟨by omega, by omega, rfl⟩, by omega⟩, if_neg (by simp), Nat.sub_zero]
  rw [if_neg hz]
  cases hempty : d.problem.couplingContinuous.isEmpty with
  | true => rw [if_neg (by simp), if_neg (by omega), if_neg (by omega), if_pos rfl]
  | false => rw [if_pos ⟨⟨by omega, by omega, rfl⟩, by omega⟩, if_neg (by simp)]

include hp h

theorem programLinear?_eq : d.programLinear? it = some (d.program it).linear := by
  have hsizes : (-it.y).size = d.problem.numBinary ∧
      (it.rho • (it.x - it.s)).size = d.problem.numBinary := by simp [h.x.1, h.s.1, h.y.1]
  have hhead : (do (-it.y).sub? (it.rho • (← it.x.sub? it.s))) = some (-it.y - it.rho • (it.x - it.s)) := by
    rw [Vec.sub?_of_size (h.x.1.trans h.s.1.symm)]
    exact Vec.sub?_of_size (hsizes.1.trans hsizes.2.symm)
  unfold programLinear? program
  dsimp only
  obtain ⟨-, hcount, -⟩ | ⟨-, hcount, -⟩ := d.numRelaxed_cases
  · rw [hcount, if_pos rfl]
    exact Vec.assemble?_zero (Vec.size_zero _) (fun _ => rfl) rfl
  · rw [hcount, if_neg (Nat.ne_of_gt hp.numBinary_pos)]
    exact Vec.assemble?_eq_append (Vec.size_zero _) (fun _ => hhead) (by simp [hsizes]) (fun _ => rfl) rfl

omit hp in
theorem programConstant?_eq : d.programConstant? it = some (d.program it).constant := by
  have htarget : (it.x - it.s).size = d.problem.numBinary := by simp [h.x.1, h.s.1]
  unfold programConstant? program
  dsimp only
  split
  · rfl
  · rw [Vec.sub?_of_size (h.x.1.trans h.s.1.symm)]
    simp only [Option.bind_eq_bind, Option.bind_some]
    rw [Vec.dot?_of_size (h.y.1.trans htarget.symm), Vec.dot?_of_size rfl]
    rfl

omit [Scalar α] hp h in
theorem size_programRowUpper : d.programRowUpper.size = d.numInequalityRows + d.problem.numCoupling := by
  unfold programRowUpper
  obtain ⟨hform, -, hrows⟩ | ⟨hform, -, hrows⟩ := d.numRelaxed_cases
  · rw [hform, hrows, if_pos rfl, Nat.zero_add]
    rfl
  · rw [hform, hrows, if_neg (by simp), Vec.size_append]
    rfl

omit hp h in
theorem programRowUpper?_eq : Vec.assemble? d.numInequalityRows d.problem.numCoupling
    (Vec.const (d.numInequalityRows + d.problem.numCoupling) Scalar.outside) (some d.problem.inequalityRhs)
    (some d.problem.couplingRhs) = some d.programRowUpper := by
  unfold programRowUpper
  obtain ⟨hform, -, hrows⟩ | ⟨hform, -, hrows⟩ := d.numRelaxed_cases
  · rw [hform, hrows, if_pos rfl]
    exact Vec.assemble?_zero (Vec.size_const _ _) (fun _ => rfl) rfl
  · rw [hform, hrows, if_neg (by simp)]
    exact Vec.assemble?_eq_append (Vec.size_const _ _) (fun _ => rfl) rfl (fun _ => rfl) rfl

theorem program?_eq : d.program? it = some (d.program it) := by
  have hbounds : ∀ {head tail : Vec α}, head.size = d.numRelaxed → tail.size = d.problem.numContinuous →
      Vec.assemble? d.numRelaxed d.problem.numContinuous
        (Vec.const (d.numRelaxed + d.problem.numContinuous) Scalar.outside) (some head) (some tail) =
          some (head ++ tail) :=
    fun hhead htail => Vec.assemble?_eq_append (Vec.size_const _ _) (fun _ => rfl) hhead (fun _ => rfl) htail
  unfold program?
  dsimp only
  rw [programQuadratic?_eq hp, programLinear?_eq hp h, programConstant?_eq h, programRows?_eq hp,
    programRowUpper?_eq, hbounds (Vec.size_zero _) hp.lower_size, hbounds (Vec.size_const _ _) hp.upper_size]
  simp only [Option.bind_eq_bind, Option.bind_some]
  rw [← size_programRowUpper]
  rfl

omit hp h in
theorem dimension_program (hx : it.x.size = d.problem.numBinary) (hs : it.s.size = d.problem.numBinary)
    (hy : it.y.size = d.problem.numBinary) :
    (d.program it).dimension = d.numRelaxed + d.problem.numContinuous := by
  have hdual : (-it.y - it.rho • (it.x - it.s)).size = d.problem.numBinary := by simp [hx, hs, hy]
  unfold Program.dimension program
  dsimp only
  split
  · next hnone =>
    rw [hnone, Nat.zero_add]
    rfl
  · next hsome =>
    obtain ⟨-, hcount, -⟩ | ⟨-, hcount, -⟩ := d.numRelaxed_cases
    · exact absurd hcount hsome
    · rw [Vec.size_append, hdual, hcount]
      rfl

theorem fits_program : (d.program it).Fits := by
  have hdimension : (d.program it).dimension = d.numRelaxed + d.problem.numContinuous :=
    dimension_program h.x.1 h.s.1 h.y.1
  have hrows : (d.program it).numRows = d.numInequalityRows + d.problem.numCoupling :=
    (Vec.size_const _ _).trans size_programRowUpper
  refine ⟨?_, ?_, ?_, ?_, ?_⟩
  · rw [hdimension]
    exact ⟨rfl, rfl⟩
  · intro _
    rw [hdimension, hrows]
    exact ⟨rfl, rfl⟩
  · rw [hrows]
    exact size_programRowUpper
  · rw [hdimension]
    exact (Vec.size_append _ _).trans (by rw [Vec.size_zero, hp.lower_size])
  · rw [hdimension]
    exact (Vec.size_append _ _).trans (by rw [Vec.size_const, hp.upper_size])

end convex

theorem consensus?_eq (h : d.HasVectors it) : d.consensus? it = some (d.consensus it) := by
  unfold consensus?
  rw [Vec.sub?_of_size (h.x.1.trans h.s.1.symm), Option.bind_eq_bind, Option.bind_some,
    Vec.add?_of_size (by simp [h.x.1, h.s.1, h.y.1])]
  rfl

theorem slack?_eq (h : d.HasVectors it) : d.slack? it = some (d.slack it) := by
  unfold slack?
  rw [Vec.sub?_of_size (h.x.1.trans h.z.1.symm), Option.bind_eq_bind, Option.bind_some,
    Vec.add?_of_size (by simp [h.x.1, h.z.1, h.y.1])]
  rfl

/-! ## All operations -/

/-- Every operation that builds the subproblems of an iterate, measures their points or measures those of the
problem is given operands that conform: written with tests, the functions have the results that they have
without. -/
structure Conforms (d : Decomposition α) (it : Iterate α) : Prop where
  shared : ofProblem? d.problem d.params = some d
  qubo : d.qubo? it = some (d.qubo it)
  program : d.program? it = some (d.program it)
  consensus : d.consensus? it = some (d.consensus it)
  slack : d.slack? it = some (d.slack it)
  quboValue : ∀ x, x.size = d.problem.numBinary → (d.qubo it).value? x = some ((d.qubo it).value x)
  programValue : ∀ w, w.size = (d.program it).dimension →
    (d.program it).objective? w = some ((d.program it).objective w)
  programViolation : ∀ w, w.size = (d.program it).dimension →
    (d.program it).maxViolation? w = some ((d.program it).maxViolation w)
  objective : ∀ x u, x.size = d.problem.numBinary → u.size = d.problem.numContinuous →
    d.problem.objective? x u = some (d.problem.objective x u)
  violation : ∀ x u, x.size = d.problem.numBinary → u.size = d.problem.numContinuous →
    d.problem.violation? x u = some (d.problem.violation x u)

/-- **The operands conform** for a decomposition of an accepted problem, whatever blocks it leaves out, and an
iterate with vectors of its sizes. -/
theorem conforms_of_accepted {spectrum : Mat α → Vec α} (hp : d.problem.Accepted spectrum)
    (hd : d = ofProblem d.problem d.params) (h : d.HasVectors it) : d.Conforms it := by
  have hsizes : d.HasSizes := by
    rw [hd]
    exact ofProblem_hasSizes hp d.params
  have hcount := hsizes.numVariables_qubo h.z.1 h.s.1 h.y.1
  have hfits := fits_program hp h
  exact {
    shared := (ofProblem?_of_accepted hp d.params).trans (congrArg some hd.symm)
    qubo := hsizes.qubo?_eq h
    program := program?_eq hp h
    consensus := consensus?_eq h
    slack := slack?_eq h
    quboValue := fun x hx => Qubo.value?_of_isSquare (hsizes.isSquare_qubo h) (hx.trans hcount.symm)
    programValue := fun w hw => hfits.objective?_eq hw
    programViolation := fun w hw => hfits.maxViolation?_eq hw
    objective := fun x u hx hu => hp.objective?_eq hx hu
    violation := fun x u hx hu => hp.violation?_eq hx hu }

end Decomposition

end BinarySplitting
