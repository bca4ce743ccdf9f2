import BinarySplitting.Proofs.Splitting.Polish

/-!
# Multipliers and active bounds

An iteration moves the relaxed image, with the scaled multipliers, to the nearest point between the bounds, and the
new multipliers are the step size times what it was moved by. So whatever the multipliers were and whatever vector
the linear system was answered with, afterwards the image is between the bounds and a multiplier is positive only
at an upper bound and negative only at a lower one (`Constraints.IsComplementary`). Such a bound is finite, because
the image is real.

The refinement looks for its active constraints by comparing the multipliers to the distances from the bounds.
At a point of this kind the comparison says no more than the signs: a constraint is taken at its lower bound where
its multiplier is negative, at its upper bound where it is positive, and not at all where it is zero
(`Point.HasSignedActiveSet`, `Solver.iterate?_complementary`).
-/

namespace BinarySplitting.Splitting

section generic

variable {α : Type} [Scalar α]

/-- The values keep the bounds, and a multiplier is positive only at an upper and negative only at a lower bound. -/
structure Constraints.IsComplementary (c : Constraints α) (z y : Vec α) : Prop where
  within : ∀ i < c.size, c.lower i ≤ z i ∧ z i ≤ c.upper i
  upper : ∀ i < c.size, 0.0 < y i → z i = c.upper i
  lower : ∀ i < c.size, y i < 0.0 → z i = c.lower i

def Constraints.LeansOnFinite (c : Constraints α) (y : Vec α) : Prop :=
  ∀ i < c.size, (0.0 < y i → Scalar.isFinite (c.upper i) = true) ∧ (y i < 0.0 → Scalar.isFinite (c.lower i) = true)

/-- The active constraints of a point are told by the signs of its multipliers alone, none is at both of its
bounds, and the conditions that they are to satisfy have finite right-hand sides. -/
structure Point.HasSignedActiveSet (s : System α) (pt : Point α) : Prop where
  lower : (pt.activeSet s.constraints).lower =
    (List.range s.constraints.size).filter fun i => decide (pt.y i < 0.0)
  upper : (pt.activeSet s.constraints).upper =
    (List.range s.constraints.size).filter fun i => decide (0.0 < pt.y i)
  disjoint : ∀ i ∈ (pt.activeSet s.constraints).lower, i ∉ (pt.activeSet s.constraints).upper
  finite : ((pt.activeSet s.constraints).rhs s).allFinite = true

end generic

/-! ## Complementary values over the reals -/

namespace Constraints

variable {c : Constraints Exact} {k : ℕ} {z y : Fin k → ℝ}

theorem isComplementary_ofReal (hsize : c.size = k) :
    c.IsComplementary (.ofReal z) (.ofReal y) ↔ c.IsNormal z y := by
  subst hsize
  constructor
  · intro h
    refine ⟨fun i => ?_, fun i hi => ?_, fun i hi => ?_⟩
    · have hwithin := h.within i i.isLt
      rwa [Vec.get_ofReal_fin] at hwithin
    · have hupper := h.upper i i.isLt
      rw [Vec.get_ofReal_fin, Vec.get_ofReal_fin, Exact.zero_literal, Exact.real_lt_real] at hupper
      exact (hupper hi).symm
    · have hlower := h.lower i i.isLt
      rw [Vec.get_ofReal_fin, Vec.get_ofReal_fin, Exact.zero_literal, Exact.real_lt_real] at hlower
      exact (hlower hi).symm
  · intro h
    refine ⟨fun i hi => ?_, fun i hi => ?_, fun i hi => ?_⟩
    · rw [Vec.get_ofReal z hi]
      exact h.admits ⟨i, hi⟩
    · rw [Vec.get_ofReal z hi, Vec.get_ofReal y hi, Exact.zero_literal, Exact.real_lt_real]
      exact fun hpos => (h.upper ⟨i, hi⟩ hpos).symm
    · rw [Vec.get_ofReal z hi, Vec.get_ofReal y hi, Exact.zero_literal, Exact.real_lt_real]
      exact fun hneg => (h.lower ⟨i, hi⟩ hneg).symm

theorem LeansOn.leansOnFinite (h : c.LeansOn y z) (hsize : c.size = k) : c.LeansOnFinite (.ofReal y) := by
  subst hsize
  intro i hi
  rw [Vec.get_ofReal y hi, Exact.zero_literal, Exact.real_lt_real, Exact.real_lt_real]
  exact ⟨fun hpos => Exact.isFinite_iff.2 ⟨_, h.upper ⟨i, hi⟩ hpos⟩,
    fun hneg => Exact.isFinite_iff.2 ⟨_, h.lower ⟨i, hi⟩ hneg⟩⟩

/-- Next to a lower bound the distance from it is below what the multiplier pulls towards it. -/
theorem IsNormal.lower_iff (h : c.IsNormal z y) (i : Fin k) : .real (z i) - c.lower i < -.real (y i) ↔ y i < 0 := by
  constructor
  · intro hnear
    by_contra hnonneg
    obtain ⟨hlower, -⟩ := h.admits i
    obtain ⟨r, hr⟩ := Exact.exists_real_of_sub_lt hnear
      (OrderedScalar.lt_of_le_of_lt hlower (Exact.real_lt_plusInfinity _))
    rw [hr, Exact.real_le_real] at hlower
    rw [hr, Exact.real_sub, Exact.real_neg, Exact.real_lt_real] at hnear
    linarith
  · intro hneg
    rw [h.lower i hneg, Exact.real_sub, Exact.real_neg, Exact.real_lt_real]
    linarith

theorem IsNormal.upper_iff (h : c.IsNormal z y) (i : Fin k) : c.upper i - .real (z i) < .real (y i) ↔ 0 < y i := by
  constructor
  · intro hnear
    by_contra hnonpos
    obtain ⟨-, hupper⟩ := h.admits i
    have hinfinite : Exact.minusInfinity < c.upper i :=
      OrderedScalar.lt_of_lt_of_le ⟨Exact.minusInfinity_le_real _, Exact.not_real_le_minusInfinity _⟩ hupper
    obtain ⟨r, hr⟩ := Exact.exists_real_of_lt_sub hnear hinfinite
    rw [hr, Exact.real_le_real] at hupper
    rw [hr, Exact.real_sub, Exact.real_lt_real] at hnear
    linarith
  · intro hpos
    rw [h.upper i hpos, Exact.real_sub, Exact.real_lt_real]
    linarith

end Constraints

/-! ## The active constraints -/

variable {p : Program Exact} {pt : Point Exact}

theorem Point.IsNormal.isComplementary (h : pt.IsNormal p) :
    (Constraints.ofProgram p).IsComplementary pt.z pt.y ∧ (Constraints.ofProgram p).LeansOnFinite pt.y := by
  obtain ⟨w, z, y, dy, rfl, hnormal⟩ := h
  exact ⟨(Constraints.isComplementary_ofReal rfl).2 hnormal, hnormal.leansOn.leansOnFinite rfl⟩

theorem Point.IsNormal.atLower_iff (h : pt.IsNormal p) {i : ℕ} (hi : i < (Constraints.ofProgram p).size) :
    pt.atLower (Constraints.ofProgram p) i = true ↔ pt.y i < 0.0 := by
  obtain ⟨w, z, y, dy, rfl, hnormal⟩ := h
  have hside := hnormal.lower_iff ⟨i, hi⟩
  rw [atLower, decide_eq_true_eq]
  unfold ofReal
  dsimp only
  rw [Vec.get_ofReal z hi, Vec.get_ofReal y hi, Exact.zero_literal, Exact.real_lt_real]
  exact hside

theorem Point.IsNormal.atUpper_iff (h : pt.IsNormal p) {i : ℕ} (hi : i < (Constraints.ofProgram p).size) :
    pt.atUpper (Constraints.ofProgram p) i = true ↔ 0.0 < pt.y i := by
  obtain ⟨w, z, y, dy, rfl, hnormal⟩ := h
  have hside := hnormal.upper_iff ⟨i, hi⟩
  rw [atUpper, decide_eq_true_eq]
  unfold ofReal
  dsimp only
  rw [Vec.get_ofReal z hi, Vec.get_ofReal y hi, Exact.zero_literal, Exact.real_lt_real]
  exact hside

theorem Point.IsNormal.hasSignedActiveSet (R : p.Reals) (h : pt.IsNormal p)
    (hordered : (Constraints.ofProgram p).Ordered (p.numRows + p.dimension)) :
    pt.HasSignedActiveSet (System.ofProgram p) := by
  have hlower : (pt.activeSet (Constraints.ofProgram p)).lower =
      (List.range (Constraints.ofProgram p).size).filter fun i => decide (pt.y i < 0.0) := by
    refine List.filter_congr fun i hi => ?_
    rw [Bool.eq_iff_iff, decide_eq_true_eq]
    exact h.atLower_iff (List.mem_range.1 hi)
  have hupper : (pt.activeSet (Constraints.ofProgram p)).upper =
      (List.range (Constraints.ofProgram p).size).filter fun i => decide (0.0 < pt.y i) := by
    refine List.filter_congr fun i hi => ?_
    have hi := List.mem_range.1 hi
    rw [Bool.eq_iff_iff, Bool.and_eq_true, Bool.not_eq_true', ← Bool.not_eq_true, h.atLower_iff hi,
      h.atUpper_iff hi, decide_eq_true_eq]
    exact and_iff_right_of_imp fun hpos hneg => OrderedScalar.not_le_of_lt hneg (OrderedScalar.le_of_lt hpos)
  refine ⟨hlower, hupper, fun i hnegative hpositive => ?_, ?_⟩
  · have hconstraints : (System.ofProgram p).constraints = Constraints.ofProgram p := rfl
    rw [hconstraints, hlower, List.mem_filter, decide_eq_true_eq] at hnegative
    rw [hconstraints, hupper, List.mem_filter, decide_eq_true_eq] at hpositive
    exact OrderedScalar.not_le_of_lt hnegative.2 (OrderedScalar.le_of_lt hpositive.2)
  · obtain ⟨b, hb⟩ := Point.exists_bound hordered rfl h.isReal
    have hrhs := R.rhs_active hb
    exact hrhs ▸ Vec.allFinite_ofReal _

/-! ## Runs -/

variable {kernels : Kernels Exact} {clock : ℕ → Exact} {solver : Solver Exact} {start l : Loop Exact} {k : ℕ}

theorem Loop.Leads.isNormal (R : p.Reals)
    (h : Loop.Leads kernels.symmetric? clock (System.ofProgram p) solver.settings start (k + 1) l)
    (hstart : Loop.start? kernels.symmetric? (System.ofProgram p) solver.settings = some start)
    (hsound : solver.Throughout kernels clock p (Loop.IsSound p solver.settings))
    (hordered : (Constraints.ofProgram p).Ordered (p.numRows + p.dimension))
    (ha : Scalar.isFinite solver.settings.alpha = true) (hk : k < solver.settings.iterations) :
    l.point.IsNormal p := by
  cases h with
  | @unchecked k l h hskip =>
    exact (hsound start hstart k hk l h).isNormal R hordered ha (h.isReal R hstart hsound hordered ha hk.le)
  | @checked k l next h hchecked hcheck =>
    rw [Loop.check_point hcheck]
    exact (hsound start hstart k hk l h).isNormal R hordered ha (h.isReal R hstart hsound hordered ha hk.le)

theorem Loop.Ends.isNormal (R : p.Reals) {o : Outcome Exact}
    (h : Loop.Ends kernels.symmetric? clock (System.ofProgram p) solver.settings start solver.settings.iterations o)
    (hstart : Loop.start? kernels.symmetric? (System.ofProgram p) solver.settings = some start)
    (hsound : solver.Throughout kernels clock p (Loop.IsSound p solver.settings))
    (hordered : (Constraints.ofProgram p).Ordered (p.numRows + p.dimension))
    (ha : Scalar.isFinite solver.settings.alpha = true) (hiterations : 0 < solver.settings.iterations) :
    o.loop.point.IsNormal p := by
  cases h with
  | exhausted h =>
    obtain ⟨n, hn⟩ := Nat.exists_eq_succ_of_ne_zero hiterations.ne'
    rw [hn] at h
    exact h.isNormal R hstart hsound hordered ha (by omega)
  | @stopped k l l' ending h hlt hchecked hcheck =>
    have hmoved := (hsound start hstart k hlt l h).isNormal R hordered ha
      (h.isReal R hstart hsound hordered ha hlt.le)
    rwa [← (Loop.check_error_kept hcheck).1] at hmoved

/-- **Multipliers are complementary after every iteration**, whatever the linear systems are answered with and
however the step size changes, so the refinement takes exactly the constraints whose multipliers are not zero, each
on the side of its sign, and their bounds are finite. -/
theorem Solver.iterate?_complementary (hcheck : check p = .ok ()) (hbounds : p.WellBounded)
    (hcrossed : (Constraints.ofProgram p).crossed? = none) (ha : Scalar.isFinite solver.settings.alpha = true)
    (hsound : solver.Throughout kernels clock p (Loop.IsSound p solver.settings))
    (hiterations : 0 < solver.settings.iterations) :
    solver.Throughout kernels clock p (fun l =>
        let next := (l.moved (System.ofProgram p) solver.settings).point
        (Constraints.ofProgram p).IsComplementary next.z next.y ∧
          (Constraints.ofProgram p).LeansOnFinite next.y) ∧
      ∀ o, solver.iterate? kernels clock (System.ofProgram p) = some o →
        (Constraints.ofProgram p).IsComplementary o.loop.point.z o.loop.point.y ∧
          (Constraints.ofProgram p).LeansOnFinite o.loop.point.y ∧
          o.loop.point.HasSignedActiveSet (System.ofProgram p) := by
  obtain ⟨R⟩ := Program.exists_reals hcheck
  have hordered := Constraints.ordered_ofProgram R hbounds hcrossed
  constructor
  · intro start hstart k hk l h
    exact ((hsound start hstart k hk l h).isNormal R hordered ha
      (h.isReal R hstart hsound hordered ha hk.le)).isComplementary
  · intro o ho
    obtain ⟨start, hstart, hends⟩ := iterate?_ends ho
    have hnormal := hends.isNormal R hstart hsound hordered ha hiterations
    exact ⟨hnormal.isComplementary.1, hnormal.isComplementary.2, hnormal.hasSignedActiveSet R hordered⟩

/-- For the one iteration on the ramp, with the standard routines. -/
theorem Solver.iterate?_complementary_ramp :
    check ramp = .ok () ∧ ramp.WellBounded ∧ (Constraints.ofProgram ramp).crossed? = none ∧
      Scalar.isFinite (Settings.oneStep false).alpha = true ∧
      (⟨.oneStep false⟩ : Solver Exact).Throughout .standard (fun _ => 0.0) ramp
        (Loop.IsSound ramp (.oneStep false)) ∧
      0 < (Settings.oneStep false).iterations ∧
      ∃ o, (⟨.oneStep false⟩ : Solver Exact).iterate? .standard (fun _ => 0.0) (System.ofProgram ramp) = some o ∧
        (Constraints.ofProgram ramp).IsComplementary o.loop.point.z o.loop.point.y ∧
        o.loop.point.HasSignedActiveSet (System.ofProgram ramp) := by
  have hcrossed : (Constraints.ofProgram ramp).crossed? = none := ordered_ramp.crossed?_eq_none rfl
  have halpha : Scalar.isFinite (Settings.oneStep false).alpha = true :=
    Exact.isFinite_iff.2 ⟨1, Exact.one_literal⟩
  have hsound := throughout_ramp Kernels.standard.general false
  obtain ⟨-, hends⟩ := iterate?_complementary rampReals.check wellBounded_ramp hcrossed halpha hsound Nat.one_pos
  obtain ⟨l, hstart, -⟩ := moved_ramp false
  have ho : (⟨.oneStep false⟩ : Solver Exact).iterate? .standard (fun _ => 0.0) (System.ofProgram ramp) =
      some (l.run Kernels.standard.symmetric? (fun _ => 0.0) (System.ofProgram ramp) (.oneStep false) 1 0) :=
    congrArg (Option.map _) hstart
  obtain ⟨hcomplementary, -, hactive⟩ := hends _ ho
  exact ⟨rampReals.check, wellBounded_ramp, hcrossed, halpha, hsound, Nat.one_pos, _, ho, hcomplementary, hactive⟩

end BinarySplitting.Splitting
