import BinarySplitting.Proofs.Engine.Penalty
import BinarySplitting.Proofs.Engine.Shape

/-!
# What the first pass begins with

Passes check nothing about the iterate they are made from, so a run relies on its start. An accepted
start has real vectors of the right sizes, a binary `x` and no slack where there is none, whatever the
caller supplied. Its penalty was moved between the limits, which decides less: the undefined value
compares to nothing and stays where it is, and accepted limits may be infinite.

`Engine.runAt_entry` says from which starts the first penalty is a finite number. No pass mends an
undefined one (`Engine.Leads.rho_undefined`): a run that begins with it ends with it and still has a
result.
-/

namespace BinarySplitting

/-! ## Clamped values -/

namespace Exact

variable {a lo hi : Exact}

@[simp] theorem clamp_undefined : Scalar.clamp undefined lo hi = undefined := by
  unfold Scalar.clamp
  rw [if_neg fun h => not_undefined_le lo h.1, if_neg fun h => not_le_undefined hi h.1]

/-- The nearest point of an interval is finite unless the value is undefined, the interval begins at
infinity, or both the value and the end of the interval are infinite. -/
theorem isFinite_clamp_iff (hpos : real 0 < lo) (hle : lo ≤ hi) :
    Scalar.isFinite (Scalar.clamp a lo hi) = true ↔
      a ≤ a ∧ Scalar.isFinite lo = true ∧ (a < plusInfinity ∨ Scalar.isFinite hi = true) := by
  obtain ⟨l, rfl, -⟩ | rfl := real_or_infinite_of_lt hpos
  · have hlo : Scalar.isFinite (real l) = true := isFinite_iff.2 ⟨l, rfl⟩
    simp only [hlo, true_and]
    cases a with
    | undefined => simp [isFinite_iff]
    | minusInfinity =>
      have hlt : minusInfinity < real l := ⟨trivial, not_real_le_minusInfinity l⟩
      have hclamp : Scalar.clamp minusInfinity (real l) hi = real l := if_pos hlt
      simp [hclamp, hlo, lt_iff_le_not_le]
    | real r =>
      refine iff_of_true ?_ ⟨real_le_real.2 le_rfl, Or.inl (real_lt_plusInfinity r)⟩
      unfold Scalar.clamp
      split
      · exact hlo
      · split
        · next hlt =>
          obtain ⟨h, rfl, -, -⟩ := exists_real_of_between hle (OrderedScalar.le_of_lt hlt)
          exact isFinite_iff.2 ⟨h, rfl⟩
        · exact isFinite_iff.2 ⟨r, rfl⟩
    | plusInfinity =>
      -- Infinity is moved to the end of the interval, which may be infinity as well.
      have hclamp : Scalar.clamp plusInfinity (real l) hi = hi := by
        unfold Scalar.clamp
        rw [if_neg (not_plusInfinity_lt _)]
        split
        · rfl
        · next hnot =>
          cases hi with
          | plusInfinity => rfl
          | undefined => exact absurd hle (not_le_undefined _)
          | minusInfinity => exact absurd hle (not_real_le_minusInfinity _)
          | real h => exact absurd (real_lt_plusInfinity h) hnot
      simp [hclamp]
  · refine iff_of_false ?_ (by simp [isFinite_iff])
    intro hfinite
    obtain ⟨c, hc⟩ := isFinite_iff.1 hfinite
    have hdefined : Scalar.clamp a plusInfinity hi ≤ Scalar.clamp a plusInfinity hi := by simp [hc]
    have hbelow := (Scalar.clamp_within hle hdefined).1
    rw [hc] at hbelow
    exact not_plusInfinity_le_real c hbelow

end Exact

/-! ## The first penalty -/

/-- A run begins with a finite penalty: the initial one where no iterate is supplied, otherwise a
supplied one that is defined and that the limits can make finite. -/
def Params.BeginsFinite {α : Type} [Scalar α] (params : Params α) : Option (Iterate α) → Prop
  | none => Scalar.isFinite params.rhoInitial = true
  | some it => it.rho ≤ it.rho ∧ Scalar.isFinite params.rhoMin = true ∧
      (it.rho < Scalar.infinity ∨ Scalar.isFinite params.rhoMax = true)

section params

variable {params : Params Exact} {start? : Option (Iterate Exact)}

theorem Params.isFinite_firstRho_iff (h : params.Admissible) :
    Scalar.isFinite (params.firstRho start?) = true ↔ params.BeginsFinite start? := by
  cases start? with
  | none => exact Iff.rfl
  | some it =>
    have hpos := h.rhoMin_pos
    rw [Exact.zero_literal] at hpos
    exact Exact.isFinite_clamp_iff hpos h.rhoMin_le_rhoMax

theorem Params.firstRho_within (h : params.Admissible)
    (hdefined : params.firstRho start? ≤ params.firstRho start?) :
    params.rhoMin ≤ params.firstRho start? ∧ params.firstRho start? ≤ params.rhoMax := by
  cases start? with
  | none => exact h.rhoInitial_within
  | some it => exact Scalar.clamp_within h.rhoMin_le_rhoMax hdefined

theorem Decomposition.nextRho_undefined (primal dual : Exact) :
    nextRho params .undefined primal dual = .undefined := by
  unfold nextRho
  cases params.policy with
  | fixed => exact Exact.clamp_undefined
  | grow => exact Exact.clamp_undefined
  | residualBalancing =>
    dsimp only
    split
    · exact Exact.clamp_undefined
    · split
      · exact Exact.clamp_undefined
      · exact Exact.clamp_undefined

end params

namespace Decomposition

variable {d : Decomposition Exact} {it : Iterate Exact}

theorem exists_startAt (h : d.HasVectors it) (hx : it.x.IsBinary d.problem.numBinary) :
    ∃ start, d.startAt (some it) = .ok start := by
  unfold startAt normalize
  dsimp only
  rw [checkVectors_ok.2 h, hx.snap?_eq]
  exact ⟨_, rfl⟩

theorem exists_startAt_initial {spectrum : Mat Exact → Vec Exact} (hp : d.problem.Accepted spectrum)
    (rho : Exact) : ∃ start, d.startAt (some { d.initial with rho }) = .ok start := by
  have h := initial_hasVectors hp
  exact exists_startAt ⟨h.x, h.z, h.s, h.y, h.u⟩ (isBinary_zero _)

end Decomposition

namespace Engine

variable {σ : Type} {e : Engine Exact σ} {start it : Iterate Exact} {st st' : σ}

theorem Leads.rho_undefined {passes : List (Pass Exact)} (h : e.Leads start st passes it st')
    (hstart : start.rho = .undefined) : it.rho = .undefined := by
  refine h.invariant (P := fun it => it.rho = .undefined) ?_ hstart
  intro it next st st' hrho hpass
  rw [Decomposition.pass_rho hpass, hrho]
  exact Decomposition.nextRho_undefined _ _

/-! ## The start of a run -/

/-- **What the first pass begins with.** The passes of a run are made from an iterate with real vectors
of the right sizes, a binary `x` and no slack where the schedule has none. Its penalty is between the
limits, unless it is undefined, and it is a finite number exactly where `Params.BeginsFinite` says so. -/
theorem runAt_entry {kernels : Kernels Exact} {p : Problem Exact} {params : Params Exact}
    {start? : Option (Iterate Exact)} {run : Run Exact}
    (hcreate : Decomposition.create kernels p params = .ok e.decomposition)
    (hrun : e.runAt start? st = (.ok run, st')) :
    e.Makes run.start st run.passes run.ending st' ∧
      e.decomposition.HasVectors run.start ∧ run.start.x.IsBinary p.numBinary ∧
      (params.threeBlock = false → run.start.s = Vec.zero p.numBinary) ∧
      (run.start.rho ≤ run.start.rho →
        params.rhoMin ≤ run.start.rho ∧ run.start.rho ≤ params.rhoMax) ∧
      (Scalar.isFinite run.start.rho = true ↔ params.BeginsFinite start?) := by
  obtain ⟨rfl, rfl, haccepted, hvalid⟩ := Decomposition.create_ok hcreate
  have hadmissible := Params.validate_ok_iff.1 hvalid
  obtain ⟨hstart, hmakes⟩ := runAt_makes hvalid hrun
  have hvectors := Decomposition.IsStart.hasVectors (Or.inr ⟨start?, hstart⟩) haccepted
  have hshape := Decomposition.startAt_hasShape haccepted hstart
  have hrho := Decomposition.startAt_rho hstart
  refine ⟨hmakes, hvectors, hshape.x, hshape.s_zero, ?_, ?_⟩
  · rw [hrho]
    exact Params.firstRho_within hadmissible
  · rw [hrho]
    exact Params.isFinite_firstRho_iff hadmissible

/-- An infinite penalty is supplied and moved to the upper limit. -/
theorem runAt_entry_infinite :
    let e := alwaysOne
    let params : Params Exact := .standard
    let supplied : Iterate Exact := { e.decomposition.initial with rho := .plusInfinity }
    Decomposition.create .standard e.decomposition.problem params = .ok e.decomposition ∧
    ∃ run st', e.runAt (some supplied) () = (.ok run, st') ∧ params.BeginsFinite (some supplied) ∧
      run.start.x.IsBinary e.decomposition.problem.numBinary ∧
      Scalar.isFinite run.start.rho = true ∧
      params.rhoMin ≤ run.start.rho ∧ run.start.rho ≤ params.rhoMax := by
  intro e params supplied
  obtain ⟨-, -, haccepted, -⟩ := Decomposition.create_ok alwaysOne_create
  obtain ⟨start, hstart⟩ := Decomposition.exists_startAt_initial haccepted .plusInfinity
  have hrun : e.runAt (some supplied) () = _ := runAt_of_start hstart
  have hbegins : params.BeginsFinite (some supplied) :=
    ⟨Exact.plusInfinity_le_self, Exact.isFinite_iff.2 ⟨_, rfl⟩, Or.inr (Exact.isFinite_iff.2 ⟨_, rfl⟩)⟩
  obtain ⟨-, -, hx, -, hwithin, hfinite⟩ := runAt_entry alwaysOne_create hrun
  have hrho := hfinite.2 hbegins
  obtain ⟨r, hr⟩ := Exact.isFinite_iff.1 hrho
  exact ⟨alwaysOne_create, _, _, hrun, hbegins, hx, hrho, hwithin (by simp [hr])⟩

/-- A supplied penalty that is undefined is accepted. The run begins with it, makes every pass with it
and has a result. -/
theorem runAt_alwaysOne_undefined :
    let e := alwaysOne
    let supplied : Iterate Exact := { e.decomposition.initial with rho := .undefined }
    Decomposition.create .standard e.decomposition.problem .standard = .ok e.decomposition ∧
    (∃ run st', e.runAt (some supplied) () = (.ok run, st') ∧ run.start.rho = .undefined ∧
      ∀ passes it st', e.Leads run.start () passes it st' → it.rho = .undefined) ∧
    ∃ r st', e.solveAt (some supplied) () = (.ok r, st') := by
  intro e supplied
  obtain ⟨-, -, haccepted, hvalid⟩ := Decomposition.create_ok alwaysOne_create
  obtain ⟨start, hstart⟩ := Decomposition.exists_startAt_initial haccepted .undefined
  have hrho : start.rho = .undefined :=
    (Decomposition.startAt_rho hstart).trans Exact.clamp_undefined
  have hrun : e.runAt (some supplied) () = _ := runAt_of_start hstart
  refine ⟨alwaysOne_create, ⟨_, _, hrun, hrho, ?_⟩,
    alwaysOne_neverFails.exists_result hvalid hstart ()⟩
  intro passes it st' hleads
  exact hleads.rho_undefined hrho

end Engine

end BinarySplitting
