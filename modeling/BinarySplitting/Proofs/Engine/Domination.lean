import BinarySplitting.Proofs.Engine.Feasibility
import BinarySplitting.Proofs.Engine.Selection

/-!
# Whether a better pass is passed over

Of two passes with the same primal residual one dominates the other if its objective and its violation
are no larger and one of them is smaller. The merit is the objective plus the weighted violation, so
with a finite positive weight the dominating pass has the lower merit (`Record.Dominates.better`), and
a run that did not converge returns a pass that no other dominates.

An infinite weight is accepted as well. With it the merit of a pass is infinite or, where nothing is
violated, undefined, so no merit is below another and the selection goes by the primal residual alone
(`exists_bestIterate_of_level`). Both cases are in `Engine.solveAt_selects_undominated`, and
`Engine.solveAt_keeps_dominated` is a run that returns a dominated pass.
-/

namespace BinarySplitting

open Matrix

variable {α σ : Type} [Scalar α]

/-! ## Records -/

namespace Record

/-- The primal residual, the objective and the violation are finite. -/
structure IsFinite (r : Record α) : Prop where
  primal : Scalar.isFinite r.primal = true
  objective : Scalar.isFinite r.objective = true
  violation : Scalar.isFinite r.violation = true

/-- With the same primal residual, neither objective nor violation is larger and one is smaller. -/
structure Dominates (a b : Record α) : Prop where
  primal : Scalar.same a.primal b.primal = true
  objective : a.objective ≤ b.objective
  violation : a.violation ≤ b.violation
  smaller : a.objective < b.objective ∨ a.violation < b.violation

/-- The merit belongs to the objective and the violation, which is not negative. -/
structure IsMeasured (weight : Exact) (r : Record Exact) : Prop where
  merit : r.merit = r.objective + weight * r.violation
  violation : r.violation ≠ .undefined → .real 0 ≤ r.violation

theorem Better.irrefl [OrderedScalar α] {a : Record α} : ¬ a.Better a := by
  rintro (h | ⟨-, h⟩)
  · exact OrderedScalar.not_le_of_lt h (OrderedScalar.le_of_lt h)
  · exact OrderedScalar.not_le_of_lt h (OrderedScalar.le_of_lt h)

variable {a b : Record Exact} {weight : Exact} {w : ℝ}

theorem IsMeasured.exists_merit (h : a.IsMeasured (.real w)) (hfinite : a.IsFinite) :
    ∃ o v : ℝ, a.objective = .real o ∧ a.violation = .real v ∧ a.merit = .real (o + w * v) := by
  obtain ⟨o, ho⟩ := Exact.isFinite_iff.1 hfinite.objective
  obtain ⟨v, hv⟩ := Exact.isFinite_iff.1 hfinite.violation
  refine ⟨o, v, ho, hv, ?_⟩
  rw [h.merit, ho, hv, Exact.real_mul, Exact.real_add]

theorem IsMeasured.isDefined (h : a.IsMeasured (.real w)) (hfinite : a.IsFinite) : a.IsDefined := by
  obtain ⟨r, hr⟩ := Exact.isFinite_iff.1 hfinite.primal
  obtain ⟨o, v, -, -, hmerit⟩ := h.exists_merit hfinite
  refine ⟨Scalar.isUndefined_eq_false_iff.2 ?_, Scalar.isUndefined_eq_false_iff.2 ?_⟩
  · rw [hr, Exact.real_le_real]
  · rw [hmerit, Exact.real_le_real]

theorem Dominates.better (h : a.Dominates b) (hw : 0 < w) (ha : a.IsMeasured (.real w))
    (hb : b.IsMeasured (.real w)) (hafinite : a.IsFinite) (hbfinite : b.IsFinite) : a.Better b := by
  obtain ⟨o, v, ho, hv, hmerit⟩ := ha.exists_merit hafinite
  obtain ⟨o', v', ho', hv', hmerit'⟩ := hb.exists_merit hbfinite
  have hobjective : o ≤ o' := by simpa only [ho, ho', Exact.real_le_real] using h.objective
  have hviolation : v ≤ v' := by simpa only [hv, hv', Exact.real_le_real] using h.violation
  refine Or.inr ⟨h.primal, ?_⟩
  rw [hmerit, hmerit', Exact.real_lt_real]
  rcases h.smaller with hsmaller | hsmaller
  · rw [ho, ho', Exact.real_lt_real] at hsmaller
    exact add_lt_add_of_lt_of_le hsmaller (mul_le_mul_of_nonneg_left hviolation hw.le)
  · rw [hv, hv', Exact.real_lt_real] at hsmaller
    exact add_lt_add_of_le_of_lt hobjective (mul_lt_mul_of_pos_left hsmaller hw)

theorem IsMeasured.merit_of_infinite (h : a.IsMeasured .plusInfinity) (hfinite : a.IsFinite) :
    a.merit = .undefined ∨ a.merit = .plusInfinity := by
  obtain ⟨o, ho⟩ := Exact.isFinite_iff.1 hfinite.objective
  obtain ⟨v, hv⟩ := Exact.isFinite_iff.1 hfinite.violation
  have hnonneg : 0 ≤ v := by simpa [hv] using h.violation (by simp [hv])
  have hproduct : Exact.plusInfinity * .real v = Exact.infinityOf v := rfl
  rw [h.merit, ho, hv, hproduct]
  rcases hnonneg.eq_or_lt with rfl | hpos
  · left
    simp [Exact.infinityOf]
    rfl
  · right
    rw [Exact.infinityOf, if_pos hpos]
    rfl

theorem IsMeasured.not_merit_lt (h : a.IsMeasured .plusInfinity) (hfinite : a.IsFinite) (c : Exact) :
    ¬ a.merit < c := by
  intro hlt
  rcases h.merit_of_infinite hfinite with hundefined | hinfinite
  · rw [hundefined] at hlt
    exact Exact.not_undefined_le _ (OrderedScalar.le_of_lt hlt)
  · rw [hinfinite] at hlt
    exact Exact.not_plusInfinity_lt _ hlt

end Record

/-! ## The first of the least primal residuals -/

/-- A record has the least primal residual, and those before it have a greater one. -/
structure IsFirstLeast (records : List (Record α)) (k : ℕ) (r : Record α) : Prop where
  getElem? : records[k]? = some r
  least : ∀ other ∈ records, r.primal ≤ other.primal
  first : ∀ (j : ℕ) (other : Record α), j < k → records[j]? = some other → r.primal < other.primal

section level

variable [OrderedScalar α] {records : List (Record α)} {k : ℕ} {r new : Record α}

theorem IsFirstLeast.append_less (h : IsFirstLeast records k r) (hless : new.primal < r.primal) :
    IsFirstLeast (records ++ [new]) records.length new := by
  refine ⟨by simp, ?_, ?_⟩
  · intro other hother
    rcases List.mem_append.1 hother with hold | hlast
    · exact OrderedScalar.trans _ _ _ (OrderedScalar.le_of_lt hless) (h.least other hold)
    · rw [List.mem_singleton.1 hlast]
      exact (OrderedScalar.refl_of_le _ _ (OrderedScalar.le_of_lt hless)).1
  · intro j other hj hother
    rw [List.getElem?_append_left hj] at hother
    exact OrderedScalar.lt_of_lt_of_le hless (h.least other (List.mem_of_getElem? hother))

omit [OrderedScalar α] in
theorem IsFirstLeast.append_other (h : IsFirstLeast records k r) (hnew : r.primal ≤ new.primal) :
    IsFirstLeast (records ++ [new]) k r := by
  have hk : k < records.length := (List.getElem?_eq_some_iff.1 h.getElem?).1
  refine ⟨?_, ?_, ?_⟩
  · rw [List.getElem?_append_left hk]
    exact h.getElem?
  · intro other hother
    rcases List.mem_append.1 hother with hold | hlast
    · exact h.least other hold
    · rwa [List.mem_singleton.1 hlast]
  · intro j other hj hother
    rw [List.getElem?_append_left (by omega)] at hother
    exact h.first j other hj hother

/-- Where no merit is below another, the preferred iterate is that of the first pass with the least
primal residual, by induction on the passes from the last one on. -/
theorem exists_bestIterate_of_level (p : Pass α) (rest : List (Pass α))
    (hdefined : ∀ q ∈ p :: rest, q.record.primal ≤ q.record.primal)
    (hlevel : ∀ q ∈ p :: rest, ∀ c, ¬ q.record.merit < c) :
    ∃ k q, (p :: rest)[k]? = some q ∧ bestIterate p.iterate rest = q.iterate ∧
      IsFirstLeast ((p :: rest).map Pass.record) k q.record := by
  induction rest using List.reverseRecOn with
  | nil =>
    refine ⟨0, p, rfl, rfl, rfl, ?_, ?_⟩
    · simpa using hdefined p (by simp)
    · omega
  | append_singleton rest new ih =>
    have hold : ∀ q ∈ p :: rest, q ∈ p :: (rest ++ [new]) := fun q hq =>
      List.mem_append_left [new] hq
    have hnew : new ∈ p :: (rest ++ [new]) := by simp
    obtain ⟨k, q, hq, hbest, hfirst⟩ := ih (fun q hq => hdefined q (hold q hq))
      (fun q hq => hlevel q (hold q hq))
    have hbetter : new.record.Better q.record ↔ new.record.primal < q.record.primal :=
      or_iff_left fun h => hlevel new hnew _ h.2
    rw [bestIterate_append_singleton, hbest, ← List.cons_append, List.map_append]
    by_cases hless : new.record.primal < q.record.primal
    · rw [if_pos (Pass.isBetter_iff.2 (hbetter.2 hless))]
      exact ⟨((p :: rest).map Pass.record).length, new, by simp, rfl, hfirst.append_less hless⟩
    · rw [if_neg (mt Pass.isBetter_iff.1 (mt hbetter.1 hless))]
      have hle := (OrderedScalar.lt_or_le (hdefined new hnew)
        (hdefined q (hold q (List.mem_of_getElem? hq)))).resolve_left hless
      refine ⟨k, q, ?_, rfl, hfirst.append_other hle⟩
      rw [List.getElem?_append_left (List.getElem?_eq_some_iff.1 hq).1]
      exact hq

theorem Run.exists_best_of_level {run : Run α} (hpos : 0 < run.passes.length)
    (hdefined : ∀ r ∈ run.history.records, r.primal ≤ r.primal)
    (hlevel : ∀ r ∈ run.history.records, ∀ c, ¬ r.merit < c) :
    ∃ k q, run.passes[k]? = some q ∧ run.best = q.iterate ∧
      IsFirstLeast run.history.records k q.record := by
  rcases hpasses : run.passes with _ | ⟨p, rest⟩
  · rw [hpasses] at hpos
    exact absurd hpos (by simp)
  · have hrecords : run.history.records = (p :: rest).map Pass.record := by
      rw [Run.history, hpasses]
    rw [hrecords, List.forall_mem_map] at hdefined hlevel
    obtain ⟨k, q, hq, hbest, hfirst⟩ := exists_bestIterate_of_level p rest hdefined hlevel
    refine ⟨k, q, hq, ?_, hrecords ▸ hfirst⟩
    rw [← hbest, Run.best, hpasses]

end level

/-! ## What the passes measure -/

/-- A value that is not negative, as far as it is defined. -/
def Exact.IsAmount (x : Exact) : Prop := x ≠ .undefined → .real 0 ≤ x

namespace Exact

theorem isAmount_zero : IsAmount 0.0 := fun _ => by simp

theorem IsAmount.infinite_or_real {x : Exact} (h : x.IsAmount) (hx : x ≠ .undefined) :
    x = .plusInfinity ∨ ∃ a, 0 ≤ a ∧ x = .real a := by
  have hle := h hx
  cases x with
  | undefined => exact absurd rfl hx
  | minusInfinity => exact absurd hle (not_real_le_minusInfinity 0)
  | plusInfinity => exact Or.inl rfl
  | real a => exact Or.inr ⟨a, real_le_real.1 hle, rfl⟩

theorem IsAmount.add {x y : Exact} (hx : x.IsAmount) (hy : y.IsAmount) : (x + y).IsAmount := by
  intro h
  obtain ⟨hxdefined, hydefined⟩ := defined_of_add h
  rcases hx.infinite_or_real hxdefined with rfl | ⟨a, ha, rfl⟩
  · rcases hy.infinite_or_real hydefined with rfl | ⟨b, -, rfl⟩
    · exact real_le_plusInfinity 0
    · exact real_le_plusInfinity 0
  · rcases hy.infinite_or_real hydefined with rfl | ⟨b, hb, rfl⟩
    · exact real_le_plusInfinity 0
    · exact real_le_real.2 (add_nonneg ha hb)

theorem isAmount_sum {f : ℕ → Exact} (h : ∀ i, (f i).IsAmount) (n : ℕ) : (Scalar.sum n f).IsAmount := by
  induction n with
  | zero => exact isAmount_zero
  | succ n ih => exact ih.add (h n)

theorem isAmount_abs (x : Exact) : (Scalar.abs x).IsAmount := by
  intro h
  cases x with
  | undefined => exact absurd rfl h
  | minusInfinity => exact real_le_plusInfinity 0
  | plusInfinity => exact real_le_plusInfinity 0
  | real a => exact real_le_real.2 (abs_nonneg a)

theorem isAmount_larger_zero (x : Exact) : (Scalar.larger x 0.0).IsAmount := by
  intro h
  rw [zero_literal] at h ⊢
  unfold Scalar.larger at h ⊢
  split
  · exact real_le_real.2 le_rfl
  · next hle =>
    rw [if_neg hle] at h
    exact le_of_not_lt (by simp) h hle

end Exact

theorem Vec.isAmount_sum_map {f : Exact → Exact} (hf : ∀ a, (f a).IsAmount) (v : Vec Exact) :
    (v.map f).sum.IsAmount := by
  refine Exact.isAmount_sum (fun i => ?_) _
  by_cases hi : i < v.size
  · rw [Vec.get_map f hi]
    exact hf _
  · intro h
    exact absurd (Vec.get_of_size_le (by simpa using hi)) h

theorem Problem.isAmount_violation (p : Problem Exact) (x u : Vec Exact) : (p.violation x u).IsAmount := by
  have hexcess (v : Vec Exact) : v.excess.IsAmount := Vec.isAmount_sum_map Exact.isAmount_larger_zero v
  have habsSum (v : Vec Exact) : v.absSum.IsAmount := Vec.isAmount_sum_map Exact.isAmount_abs v
  refine ((Exact.IsAmount.add ?_ ?_).add ?_).add ?_
  · unfold equalityViolation
    split
    · exact Exact.isAmount_zero
    · exact habsSum _
  · unfold inequalityViolation
    split
    · exact Exact.isAmount_zero
    · exact hexcess _
  · unfold couplingViolation
    split
    · exact Exact.isAmount_zero
    · exact hexcess _
  · unfold boundViolation
    split
    · exact Exact.isAmount_zero
    · exact (hexcess _).add (hexcess _)

theorem Decomposition.pass_merit {d : Decomposition α} {oracles : Oracles α σ} {it next : Iterate α}
    {st st' : σ} (h : d.pass oracles it st = (.ok next, st')) :
    next.measures.merit =
      next.measures.objective + d.params.meritWeight * next.measures.violation := by
  obtain ⟨x, updated, -, -, rfl⟩ := pass_ok h
  unfold finish
  split <;> rfl

theorem Engine.Makes.isMeasured {e : Engine Exact σ} {it : Iterate Exact} {passes : List (Pass Exact)}
    {ending : Ending Exact} {st st' : σ} (h : e.Makes it st passes ending st') {p : Pass Exact}
    (hp : p ∈ passes) : p.record.IsMeasured e.decomposition.params.meritWeight := by
  obtain ⟨before, st₁, st₂, hpass⟩ := h.exists_pass p hp
  refine ⟨Decomposition.pass_merit hpass, ?_⟩
  show p.iterate.measures.violation.IsAmount
  rw [Decomposition.pass_violation hpass]
  exact Problem.isAmount_violation _ _ _

/-! ## Two passes -/

namespace Engine

theorem runAt_of_two {e : Engine α σ} {start? : Option (Iterate α)} {start first second : Iterate α}
    {st st₁ st₂ : σ} {stop : Stop} (hstart : e.decomposition.startAt start? = .ok start)
    (hlimit : e.decomposition.params.maxIterations = 2)
    (hfirst : e.decomposition.pass e.oracles start st = (.ok first, st₁))
    (hnone : e.decomposition.params.stop? e.clock first = none)
    (hsecond : e.decomposition.pass e.oracles first st₁ = (.ok second, st₂))
    (hstop : e.decomposition.params.stop? e.clock second = some stop) :
    e.runAt start? st =
      (.ok ⟨start, [⟨start.rho, first⟩, ⟨first.rho, second⟩], .stopped stop⟩, st₂) := by
  have hpasses : e.passes 2 start st =
      (([⟨start.rho, first⟩, ⟨first.rho, second⟩], .stopped stop), st₂) := by
    rw [passes_of_next 1 hfirst hnone, passes_of_stopped 0 hsecond hstop]
  rw [runAt_of_start hstart, run, hlimit, runState_bind]
  show (Except.ok _, _) = _
  rw [show (2 : ℤ).toNat = 2 from rfl, hpasses]
  rfl

/-- The schedule without slack, two passes and a weight. -/
noncomputable def twoPasses (weight : Exact) : Params Exact :=
  { Params.standard with threeBlock := false, maxIterations := 2, meritWeight := weight }

/-- An engine for one binary variable whose copy may be one half at most. The binary oracle answers one
and then zero, the other one always answers one half. -/
noncomputable def oneThenZero (weight : Exact) : Engine Exact ℕ where
  decomposition := .ofProblem atMostHalf (twoPasses weight)
  oracles.binary _
    | 0 => (.ok (Vec.const 1 1.0), 1)
    | calls + 1 => (.ok (Vec.const 1 0.0), calls + 2)
  oracles.continuous := .ofFunction fun _ => .ok (Vec.const 1 0.5)
  clock _ := 0.0

section oneThenZero

variable {weight : Exact}

theorem const_one_real (a : ℝ) : Vec.const 1 (.real a) = Vec.ofReal ![a] := by
  rw [Vec.const_eq_ofReal, const_fin1_eq]

theorem twoPasses_validate (h : 0.0 ≤ weight) : (twoPasses weight).validate = .ok () :=
  Params.validate_ok_iff.2
    { Params.validate_ok_iff.1 Params.standard_validate with
      maxIterations_pos := by simp [twoPasses]
      meritWeight_nonneg := h }

theorem oneThenZero_create (h : 0.0 ≤ weight) :
    Decomposition.create .standard atMostHalf (twoPasses weight) = .ok (oneThenZero weight).decomposition :=
  Decomposition.create_eq_ok_iff.2 ⟨atMostHalf_accepted _, twoPasses_validate h, rfl⟩

theorem oneThenZero_problem : (oneThenZero weight).decomposition.problem = atMostHalf :=
  Decomposition.ofProblem_problem _ _

theorem oneThenZero_params : (oneThenZero weight).decomposition.params = twoPasses weight :=
  Decomposition.ofProblem_params _ _

theorem oneThenZero_closedForm : (oneThenZero weight).decomposition.closedForm = false := by
  have hrows : atMostHalf.numInequalities = 1 := Vec.size_ofReal _
  rw [oneThenZero, Decomposition.ofProblem_closedForm]
  simp [hrows]

theorem oneThenZero_numRelaxed : (oneThenZero weight).decomposition.numRelaxed = 1 := by
  rw [Decomposition.numRelaxed, oneThenZero_closedForm, oneThenZero_problem]
  exact atMostHalf_numBinary

theorem oneThenZero_numContinuous : (oneThenZero weight).decomposition.problem.numContinuous = 0 := by
  rw [oneThenZero_problem]
  rfl

theorem oneThenZero_binary (weight : Exact) (q : Qubo Exact) :
    (oneThenZero weight).oracles.binary q 0 = (.ok (Vec.ofReal ![1]), 1) ∧
      (oneThenZero weight).oracles.binary q 1 = (.ok (Vec.ofReal ![0]), 2) := by
  rw [← const_one_real, ← const_one_real, ← Exact.one_literal, ← Exact.zero_literal]
  exact ⟨rfl, rfl⟩

theorem oneThenZero_place (it : Iterate Exact) :
    (oneThenZero weight).decomposition.place it (Vec.ofReal ![1 / 2]) = { it with z := Vec.ofReal ![1 / 2] } := by
  have hcopy : ((Vec.ofReal ![1 / 2]).slice 0 1).withinUnit = Vec.ofReal ![1 / 2] := by
    rw [show (Vec.ofReal ![1 / 2]).slice 0 1 = _ from Vec.slice_ofReal (n := 1) ![1 / 2] le_rfl,
      Vec.withinUnit_ofReal]
    refine Vec.ofReal_inj.2 (funext fun i => ?_)
    rw [Subsingleton.elim i 0]
    exact unitClamp_of_mem ⟨by norm_num, by norm_num⟩
  unfold Decomposition.place
  dsimp only
  rw [oneThenZero_numRelaxed, oneThenZero_numContinuous, hcopy]
  rfl

theorem atMostHalf_counts :
    atMostHalf.numEqualities = 0 ∧ atMostHalf.numCoupling = 0 ∧ atMostHalf.numContinuous = 0 :=
  ⟨rfl, rfl, rfl⟩

theorem atMostHalf_objective (b : ℝ) (u : Vec Exact) : atMostHalf.objective (Vec.ofReal ![b]) u = .real 0 := by
  have hbinary : atMostHalf.binaryObjective (Vec.ofReal ![b]) = .real 0 := by
    show (Mat.ofReal 0).quadraticForm (Vec.ofReal ![b]) + (Vec.ofReal ![0]).dot (Vec.ofReal ![b]) = _
    rw [Mat.quadraticForm_ofReal, Vec.dot_ofReal, Exact.real_add]
    simp [dotProduct]
  have hcontinuous : atMostHalf.continuousObjective u = .real 0 := by
    rw [Problem.continuousObjective, if_pos atMostHalf_counts.2.2, Exact.zero_literal]
  have hconstant : atMostHalf.constant = .real 0 := Exact.zero_literal
  rw [Problem.objective, hbinary, hcontinuous, hconstant, Exact.real_add, Exact.real_add, add_zero, add_zero]

theorem atMostHalf_violation (b : ℝ) (u : Vec Exact) :
    atMostHalf.violation (Vec.ofReal ![b]) u = .real (max (b - 1 / 2) 0) := by
  have hequality : atMostHalf.equalityViolation (Vec.ofReal ![b]) = .real 0 := by
    rw [Problem.equalityViolation, if_pos atMostHalf_counts.1, Exact.zero_literal]
  have hinequality : atMostHalf.inequalityViolation (Vec.ofReal ![b]) = .real (max (b - 1 / 2) 0) := by
    have hrows : atMostHalf.numInequalities ≠ 0 := (Vec.size_ofReal _).trans_ne one_ne_zero
    rw [Problem.inequalityViolation, if_neg hrows]
    show ((Mat.ofReal 1).mulVec (Vec.ofReal ![b]) - Vec.ofReal ![0.5]).excess = _
    rw [Mat.mulVec_ofReal, one_mulVec, Vec.ofReal_sub, Vec.excess_ofReal]
    norm_num
  have hcoupling : atMostHalf.couplingViolation (Vec.ofReal ![b]) u = .real 0 := by
    rw [Problem.couplingViolation, if_pos atMostHalf_counts.2.1, Exact.zero_literal]
  have hbounds : atMostHalf.boundViolation u = .real 0 := by
    rw [Problem.boundViolation, if_pos atMostHalf_counts.2.2, Exact.zero_literal]
  rw [Problem.violation, hequality, hinequality, hcoupling, hbounds]
  simp only [Exact.real_add, zero_add, add_zero]

/-- Every pass has the residual one half, and the inequality is violated where one was answered. -/
theorem oneThenZero_pass (weight : Exact) {it : Iterate Exact} (hs : it.s = Vec.ofReal (0 : Fin 1 → ℝ))
    {calls : ℕ} {b : ℝ} (hb : b = 0 ∨ b = 1) (hanswer : (oneThenZero weight).oracles.binary
      ((oneThenZero weight).decomposition.qubo it) calls = (.ok (Vec.ofReal ![b]), calls + 1)) :
    ∃ next, (oneThenZero weight).decomposition.pass (oneThenZero weight).oracles it calls =
        (.ok next, calls + 1) ∧ next.s = it.s ∧ next.measures.primal = .real (1 / 2) ∧
      next.measures.objective = .real 0 ∧ next.measures.violation = .real (max (b - 1 / 2) 0) := by
  have hbinary : (Vec.ofReal ![b]).IsBinary (oneThenZero weight).decomposition.problem.numBinary := by
    rw [oneThenZero_problem, atMostHalf_numBinary]
    refine Vec.isBinary_ofReal fun i => ?_
    rwa [Subsingleton.elim i 0]
  have haccept : acceptBinary (oneThenZero weight).decomposition.problem.numBinary
      ((oneThenZero weight).oracles.binary ((oneThenZero weight).decomposition.qubo it) calls).1 =
        .ok (Vec.ofReal ![b]) := by
    rw [hanswer]
    exact acceptBinary_of_snap? hbinary.1 hbinary.snap?_eq
  have hneeds : (oneThenZero weight).decomposition.needsProgram = true := by
    simp [Decomposition.needsProgram, oneThenZero_closedForm]
  have hsize : (Vec.ofReal ![(1 / 2 : ℝ)]).size = (oneThenZero weight).decomposition.numRelaxed +
      (oneThenZero weight).decomposition.problem.numContinuous := by
    rw [oneThenZero_numRelaxed, oneThenZero_numContinuous]
    exact Vec.size_ofReal _
  have hhalf : (Vec.const 1 0.5 : Vec Exact) = Vec.ofReal ![1 / 2] := by
    rw [Exact.half_literal, const_one_real]
  have hrelax (it : Iterate Exact) : (oneThenZero weight).decomposition.relax it = it := by
    simp [Decomposition.relax, oneThenZero_closedForm]
  have hupdate : ((oneThenZero weight).decomposition.updateContinuous (oneThenZero weight).oracles.continuous
      { it with x := Vec.ofReal ![b] } (calls + 1)).1 = _ :=
    Decomposition.updateContinuous_of_answer hneeds (congrArg Except.ok hhalf) hsize (Vec.allFinite_ofReal _)
  rw [hrelax, oneThenZero_place] at hupdate
  have hstate := congrArg Prod.snd hanswer
  have hpass := Decomposition.pass_of_updated haccept
    (by rw [hstate]; exact Prod.ext hupdate rfl)
  have htwo : (oneThenZero weight).decomposition.params.threeBlock = false := by
    rw [oneThenZero_params]
    rfl
  have hslack : ∀ updated, ((oneThenZero weight).decomposition.finish it.z updated).s = updated.s := by
    intro updated
    rw [Decomposition.finish_s, htwo, if_neg Bool.false_ne_true]
  refine ⟨_, hpass, hslack _, ?_, ?_, ?_⟩
  · have hsquare : (![b] - ![1 / 2] - 0) ⬝ᵥ (![b] - ![1 / 2] - 0 : Fin 1 → ℝ) = (1 / 2) ^ 2 := by
      rcases hb with rfl | rfl
      · simp [dotProduct, pow_two]
      · simp [dotProduct]
        norm_num
    rw [Decomposition.finish_primal, hslack]
    show (Vec.ofReal ![b] - Vec.ofReal ![1 / 2] - it.s).norm = _
    rw [hs, Vec.ofReal_sub, Vec.ofReal_sub, Vec.norm_ofReal, hsquare, Real.sqrt_sq (by norm_num)]
  · rw [Decomposition.finish_objective, oneThenZero_problem]
    exact atMostHalf_objective b _
  · rw [Decomposition.finish_violation, oneThenZero_problem]
    exact atMostHalf_violation b _

theorem oneThenZero_run (weight : Exact) : ∃ run first second, (oneThenZero weight).runAt none 0 = (.ok run, 2) ∧
    run.ending = .stopped .iterationLimit ∧ run.passes = [first, second] ∧
    first.record.primal = .real (1 / 2) ∧ second.record.primal = .real (1 / 2) ∧
    first.record.objective = .real 0 ∧ second.record.objective = .real 0 ∧
    first.record.violation = .real (1 / 2) ∧ second.record.violation = .real 0 := by
  have hslack : (oneThenZero weight).decomposition.initial.s = Vec.ofReal (0 : Fin 1 → ℝ) := by
    show Vec.zero (oneThenZero weight).decomposition.problem.numBinary = _
    rw [oneThenZero_problem, atMostHalf_numBinary, Vec.zero_eq_ofReal]
  obtain ⟨first, hfirst, hs, hprimal, hobjective, hviolation⟩ :=
    oneThenZero_pass weight hslack (Or.inr rfl) (oneThenZero_binary weight _).1
  obtain ⟨second, hsecond, -, hprimal', hobjective', hviolation'⟩ :=
    oneThenZero_pass weight (hs.trans hslack) (Or.inl rfl) (oneThenZero_binary weight _).2
  have hiteration := Decomposition.pass_iteration hfirst
  have hiteration' := Decomposition.pass_iteration hsecond
  have hmet : ∀ {it : Iterate Exact}, it.measures.primal = .real (1 / 2) →
      ¬ (twoPasses weight).isMet it.measures = true := by
    intro it hit hmet
    simp only [Params.isMet, Bool.and_eq_true, decide_eq_true_eq] at hmet
    have hlt : Exact.real (1 / 2) < .real 1e-4 := hit ▸ hmet.1
    rw [Exact.real_lt_real] at hlt
    norm_num at hlt
  have hnone : (oneThenZero weight).decomposition.params.stop? (oneThenZero weight).clock first = none := by
    rw [oneThenZero_params, Params.stop?, if_neg (hmet hprimal), if_neg, if_neg]
    · exact OrderedScalar.not_infinity_le _ (Exact.isFinite_iff.2 ⟨0, Exact.zero_literal⟩)
    · rw [hiteration]
      exact show ¬ (2 : ℤ) ≤ 0 + 1 by norm_num
  have hlimit : (oneThenZero weight).decomposition.params.stop? (oneThenZero weight).clock second =
      some .iterationLimit := by
    rw [oneThenZero_params, Params.stop?, if_neg (hmet hprimal'), if_pos]
    rw [hiteration', hiteration]
    exact show (2 : ℤ) ≤ 0 + 1 + 1 by norm_num
  have hlength : (oneThenZero weight).decomposition.params.maxIterations = 2 := by
    rw [oneThenZero_params]
    rfl
  refine ⟨_, _, _, runAt_of_two rfl hlength hfirst hnone hsecond hlimit, rfl, rfl, hprimal, hprimal',
    hobjective, hobjective', hviolation.trans ?_, hviolation'.trans ?_⟩
  · norm_num
  · norm_num

theorem oneThenZero_solve (h : 0.0 ≤ weight) :
    ∃ run r first second, (oneThenZero weight).runAt none 0 = (.ok run, 2) ∧
      (oneThenZero weight).solveAt none 0 = (.ok r, 2) ∧ r.stop = .iterationLimit ∧
      run.passes = [first, second] ∧ r.history.records = [first.record, second.record] ∧
      (∀ record ∈ r.history.records, record.IsFinite ∧ record.IsMeasured weight) ∧
      second.record.Dominates first.record ∧ first.record.violation = .real (1 / 2) ∧
      (run.best = first.iterate → r.IsOf (twoPasses weight) first.iterate first.record) := by
  obtain ⟨run, first, second, hrun, hending, hpasses, hprimal, hprimal', hobjective, hobjective',
    hviolation, hviolation'⟩ := oneThenZero_run weight
  obtain ⟨-, hparams, haccepted, hvalid⟩ := Decomposition.create_ok (oneThenZero_create h)
  obtain ⟨hstart, hmakes⟩ := runAt_makes (hparams ▸ hvalid) hrun
  have hrecords : run.history.records = [first.record, second.record] := by
    rw [Run.history, hpasses]
    rfl
  have hu := Decomposition.startAt_size_u haccepted hstart
  refine ⟨run, _, first, second, hrun, solveAt_of_stopped hrun hending, rfl, hpasses, hrecords, ?_, ?_,
    hviolation, ?_⟩
  · intro record hrecord
    obtain ⟨pass, hpass, rfl⟩ := List.mem_map.1 hrecord
    have hmeasured := hmakes.isMeasured hpass
    rw [oneThenZero_params] at hmeasured
    refine ⟨?_, hmeasured⟩
    rw [hpasses, List.mem_pair] at hpass
    rcases hpass with rfl | rfl
    · exact ⟨Exact.isFinite_iff.2 ⟨_, hprimal⟩, Exact.isFinite_iff.2 ⟨_, hobjective⟩,
        Exact.isFinite_iff.2 ⟨_, hviolation⟩⟩
    · exact ⟨Exact.isFinite_iff.2 ⟨_, hprimal'⟩, Exact.isFinite_iff.2 ⟨_, hobjective'⟩,
        Exact.isFinite_iff.2 ⟨_, hviolation'⟩⟩
  · have hless : second.record.violation < first.record.violation := by
      rw [hviolation, hviolation', Exact.real_lt_real]
      norm_num
    refine ⟨?_, ?_, OrderedScalar.le_of_lt hless, Or.inr hless⟩
    · rw [hprimal, hprimal', Exact.same_real]
    · rw [hobjective, hobjective', Exact.real_le_real]
  · intro hbest
    have hselected : run.selected .iterationLimit = first.iterate := by
      rw [Run.selected, if_neg (by simp), hbest]
    have hisOf := hmakes.isOf hu (by simp [hpasses]) hselected
    rwa [oneThenZero_params] at hisOf

end oneThenZero

/-! ## What is returned -/

variable {e : Engine Exact σ} {st st' : σ}

/-- **A run that did not converge returns a pass that no other dominates**, if the weight of the
violation is finite. With an infinite weight it returns the first of the passes with the least primal
residual, whatever they are worth. -/
theorem solveAt_selects_undominated {kernels : Kernels Exact} {p : Problem Exact} {params : Params Exact}
    {start? : Option (Iterate Exact)} {r : Result Exact}
    (hcreate : Decomposition.create kernels p params = .ok e.decomposition)
    (hweight : 0.0 < params.meritWeight) (hfinite : ∀ record ∈ r.history.records, record.IsFinite)
    (hstop : r.stop ≠ .converged) (hsolve : e.solveAt start? st = (.ok r, st')) :
    ∃ run k pass record, e.runAt start? st = (.ok run, st') ∧ run.passes[k]? = some pass ∧
      r.history.records[k]? = some record ∧ r.IsOf params pass.iterate record ∧
      (Scalar.isFinite params.meritWeight = true →
        ∀ other ∈ r.history.records, ¬ other.Dominates record) ∧
      (Scalar.isFinite params.meritWeight = false → IsFirstLeast r.history.records k record) := by
  obtain ⟨rfl, rfl, haccepted, hvalid⟩ := Decomposition.create_ok hcreate
  obtain ⟨run, stop, hrun, hending, rfl⟩ := solveAt_ok hsolve
  obtain ⟨hstart, hmakes⟩ := runAt_makes hvalid hrun
  rw [hending] at hmakes
  have hu := Decomposition.startAt_size_u haccepted hstart
  have hmeasured : ∀ record ∈ run.history.records,
      record.IsMeasured e.decomposition.params.meritWeight := by
    intro record hrecord
    obtain ⟨pass, hpass, rfl⟩ := List.mem_map.1 hrecord
    exact hmakes.isMeasured hpass
  have hreturned : ∀ {k : ℕ} {pass : Pass Exact}, run.passes[k]? = some pass →
      run.best = pass.iterate → run.history.records[k]? = some pass.record ∧
        (run.resultAt e.decomposition stop).IsOf e.decomposition.params pass.iterate pass.record := by
    intro k pass hk hbest
    refine ⟨?_, hmakes.isOf hu (List.mem_of_getElem? hk) ?_⟩
    · rw [Run.history, List.getElem?_map, hk, Option.map_some]
    · rw [Run.selected, if_neg (show stop ≠ .converged from hstop), hbest]
  rw [Exact.zero_literal] at hweight
  rcases Exact.real_or_infinite_of_lt hweight with ⟨w, hw, hpos⟩ | hinfinite
  · rw [hw] at hmeasured
    obtain ⟨k, pass, hk, hbest, hfirst⟩ := Run.exists_best hmakes.length_pos fun record hrecord =>
      (hmeasured record hrecord).isDefined (hfinite record hrecord)
    obtain ⟨hrecord, hisOf⟩ := hreturned hk hbest
    refine ⟨run, k, pass, pass.record, hrun, hk, hrecord, hisOf, ?_, ?_⟩
    · intro _ other hother hdominates
      have hmem := List.mem_of_getElem? hrecord
      have hbetter := hdominates.better hpos (hmeasured other hother) (hmeasured _ hmem)
        (hfinite other hother) (hfinite _ hmem)
      exact Record.Better.irrefl (hbetter.trans_noWorse (hfirst.least other hother))
    · rw [hw, Exact.isFinite_iff.2 ⟨w, rfl⟩]
      exact fun h => absurd h (by simp)
  · rw [hinfinite] at hmeasured
    obtain ⟨k, pass, hk, hbest, hfirst⟩ := Run.exists_best_of_level hmakes.length_pos
      (fun record hrecord => by
        obtain ⟨a, ha⟩ := Exact.isFinite_iff.1 (hfinite record hrecord).primal
        rw [ha, Exact.real_le_real])
      (fun record hrecord => (hmeasured record hrecord).not_merit_lt (hfinite record hrecord))
    obtain ⟨hrecord, hisOf⟩ := hreturned hk hbest
    refine ⟨run, k, pass, pass.record, hrun, hk, hrecord, hisOf, ?_, fun _ => hfirst⟩
    rw [hinfinite]
    exact fun h => absurd (Exact.isFinite_iff.1 h) (by simp)

/-- With the weight one thousand the second pass is returned. -/
theorem solveAt_selects_undominated_thousand :
    let e := oneThenZero 1000.0
    let params := twoPasses 1000.0
    Decomposition.create .standard atMostHalf params = .ok e.decomposition ∧ 0.0 < params.meritWeight ∧
      Scalar.isFinite params.meritWeight = true ∧
      ∃ r, e.solveAt none 0 = (.ok r, 2) ∧ (∀ record ∈ r.history.records, record.IsFinite) ∧
        r.stop ≠ .converged ∧
        ∃ (run : Run Exact) (k : ℕ) (pass : Pass Exact) (record : Record Exact),
          e.runAt none 0 = (.ok run, 2) ∧ run.passes[k]? = some pass ∧
          r.history.records[k]? = some record ∧ r.IsOf params pass.iterate record ∧
          ∀ other ∈ r.history.records, ¬ other.Dominates record := by
  intro e params
  have hweight : 0.0 < params.meritWeight := by
    show (0.0 : Exact) < 1000.0
    rw [Exact.zero_literal, Exact.literal, Exact.real_lt_real]
    norm_num
  have hfinite : Scalar.isFinite params.meritWeight = true := Exact.isFinite_iff.2 ⟨_, Exact.literal _ _ _⟩
  obtain ⟨-, r, -, -, -, hsolve, hlimit, -, -, hall, -⟩ := oneThenZero_solve (OrderedScalar.le_of_lt hweight)
  have hrecords : ∀ record ∈ r.history.records, record.IsFinite := fun record hrecord => (hall record hrecord).1
  have hstop : r.stop ≠ .converged := by simp [hlimit]
  have hcreate := oneThenZero_create (OrderedScalar.le_of_lt hweight)
  obtain ⟨run, k, pass, record, hrun, hk, hrecord, hisOf, hundominated, -⟩ :=
    solveAt_selects_undominated hcreate hweight hrecords hstop hsolve
  exact ⟨hcreate, hweight, hfinite, r, hsolve, hrecords, hstop, run, k, pass, record, hrun, hk, hrecord, hisOf,
    hundominated hfinite⟩

/-- **With an infinite weight a dominated pass may be returned**: the first pass violates the inequality,
the second one does not, and both have the same residual and objective, but the merit of the second is
undefined. -/
theorem solveAt_keeps_dominated :
    let e := oneThenZero .plusInfinity
    let params := twoPasses .plusInfinity
    Decomposition.create .standard atMostHalf params = .ok e.decomposition ∧ 0.0 < params.meritWeight ∧
      ∃ run r first second, e.runAt none 0 = (.ok run, 2) ∧ e.solveAt none 0 = (.ok r, 2) ∧
        r.stop ≠ .converged ∧ (∀ record ∈ r.history.records, record.IsFinite) ∧
        run.passes = [first, second] ∧ r.history.records = [first.record, second.record] ∧
        r.IsOf params first.iterate first.record ∧ second.record.Dominates first.record ∧
        r.violation = .real (1 / 2) := by
  intro e params
  have hweight : 0.0 < params.meritWeight := by
    rw [Exact.zero_literal]
    exact Exact.real_lt_plusInfinity 0
  obtain ⟨run, r, first, second, hrun, hsolve, hstop, hpasses, hrecords, hall, hdominates, hviolation, hisOf⟩ :=
    oneThenZero_solve (OrderedScalar.le_of_lt hweight)
  have hbest : run.best = first.iterate := by
    obtain ⟨hfinite, hmeasured⟩ := hall second.record (by simp [hrecords])
    have hother : ¬ second.record.Better first.record := by
      rintro (hless | ⟨-, hmerit⟩)
      · exact OrderedScalar.not_le_of_lt hless (Scalar.same_iff.1 hdominates.primal).2
      · exact hmeasured.not_merit_lt hfinite _ hmerit
    rw [Run.best, hpasses]
    exact if_neg (mt Pass.isBetter_iff.1 hother)
  have hreturned := hisOf hbest
  exact ⟨oneThenZero_create (OrderedScalar.le_of_lt hweight), hweight, run, r, first, second, hrun, hsolve,
    by simp [hstop], fun record hrecord => (hall record hrecord).1, hpasses, hrecords, hreturned, hdominates,
    hreturned.violation.trans hviolation⟩

end Engine

end BinarySplitting
