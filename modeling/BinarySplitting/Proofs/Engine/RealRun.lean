import BinarySplitting.Proofs.Decomposition.RealPass
import BinarySplitting.Proofs.Engine.Answers
import BinarySplitting.Proofs.Engine.Completion
import BinarySplitting.Proofs.Params.Penalty
import BinarySplitting.Proofs.Problem.Mixed

/-!
# Runs over the reals

Every iterate that is accepted as a start has real vectors, and passes keep them real as long as their
penalties are finite (`Leads.hasVectors`). A penalty that is defined is positive
(`Leads.rho_pos`), so an infinite one is all that could end exact arithmetic: then the products of the
penalty with a zero are undefined.
-/

namespace BinarySplitting

variable {α σ : Type} [Scalar α]

namespace Decomposition

/-- An iterate from which passes are made: one that is accepted for a single pass, or the one with which
a run begins. -/
def IsStart (d : Decomposition α) (start : Iterate α) : Prop :=
  d.checkPass start = .ok () ∨ ∃ start?, d.startAt start? = .ok start

/-! ## The penalty is positive -/

section positive

variable [OrderedScalar α] {d : Decomposition α} {start it next : Iterate α} {st st' : σ}

theorem IsStart.rho_pos (h : d.IsStart start) (hparams : d.params.Admissible)
    (hdefined : start.rho ≤ start.rho) : 0.0 < start.rho := by
  obtain hcheck | ⟨_ | supplied, hstart⟩ := h
  · exact (checkPass_ok.1 hcheck).2
  · obtain rfl := Except.ok.inj hstart
    exact hparams.rhoInitial_pos
  · obtain ⟨-, x, -, rfl⟩ := normalize_ok hstart
    exact Scalar.lt_clamp hparams.rhoMin_pos hparams.rhoMin_le_rhoMax hdefined

theorem pass_rho_pos {oracles : Oracles α σ} (hparams : d.params.Admissible)
    (h : d.pass oracles it st = (.ok next, st')) (hdefined : next.rho ≤ next.rho) :
    0.0 < next.rho := by
  rw [pass_rho h] at hdefined ⊢
  exact Scalar.lt_clamp hparams.rhoMin_pos hparams.rhoMin_le_rhoMax hdefined

end positive

/-! ## Starts -/

variable {d : Decomposition Exact} {start : Iterate Exact} {spectrum : Mat Exact → Vec Exact}

theorem exists_within {lo hi : Exact} (h : Problem.hasNoValue lo hi = false) (a : ℝ) :
    ∃ r, Scalar.smaller (Scalar.larger (.real a) lo) hi = .real r ∧ lo ≤ .real r ∧ .real r ≤ hi := by
  have hle : lo ≤ hi := Problem.le_of_hasNoValue h
  simp only [Problem.hasNoValue, Bool.or_eq_false_iff, decide_eq_false_iff_not] at h
  obtain ⟨⟨⟨⟨hlo, hhi⟩, -⟩, hinfinite⟩, hminus⟩ := h
  rw [Scalar.isUndefined_eq_false_iff] at hlo hhi
  obtain ⟨r, hr, hlower⟩ : ∃ r, Scalar.larger (.real a) lo = .real r ∧ lo ≤ .real r := by
    cases lo with
    | undefined => exact hlo.elim
    | plusInfinity => simp [Scalar.same, Exact.infinity_eq] at hinfinite
    | minusInfinity => exact ⟨a, if_neg (by simp [Exact.lt_iff_le_not_le]), trivial⟩
    | real b => exact ⟨_, Exact.larger_real a b, Exact.real_le_real.2 (le_max_right _ _)⟩
  rw [hr]
  cases hi with
  | undefined => exact hhi.elim
  | plusInfinity => exact ⟨r, Exact.smaller_plusInfinity _, hlower, trivial⟩
  | minusInfinity => simp [Scalar.same, Exact.neg_infinity_eq] at hminus
  | real b =>
    refine ⟨min r b, Exact.smaller_real r b, ?_, Exact.real_le_real.2 (min_le_right _ _)⟩
    rcases min_choice r b with h | h
    · rwa [h]
    · rwa [h]

theorem exists_initial_u (hp : d.problem.Accepted spectrum) {j : ℕ} (hj : j < d.problem.numContinuous) :
    ∃ r, d.initial.u j = .real r ∧ d.problem.lower j ≤ .real r ∧ .real r ≤ d.problem.upper j := by
  obtain ⟨r, hr, hwithin⟩ := exists_within (hp.hasValue j hj) 0
  refine ⟨r, ?_, hwithin⟩
  unfold initial
  dsimp only
  rw [if_neg (Nat.ne_of_gt (Nat.zero_lt_of_lt hj)), ← hr,
    Vec.get_within (hp.lower_size ▸ hj) (hp.upper_size ▸ hj), Vec.zero, Vec.get_const _ hj,
    Exact.zero_literal]

theorem hasVectors_zero (n : ℕ) :
    (Vec.zero n : Vec Exact).size = n ∧ (Vec.zero n : Vec Exact).allFinite = true :=
  Vec.size_and_allFinite_of_eq_ofReal (Vec.zero_eq_ofReal n)

theorem initial_hasVectors (hp : d.problem.Accepted spectrum) : d.HasVectors d.initial := by
  have hsize := initial_size_u hp
  have hfinite : d.initial.u.allFinite = true := by
    rw [Vec.allFinite_iff, hsize]
    intro j hj
    obtain ⟨r, hr, -⟩ := exists_initial_u hp hj
    exact Exact.isFinite_iff.2 ⟨r, hr⟩
  have hzero := hasVectors_zero d.problem.numBinary
  exact ⟨hzero, hzero, hzero, hzero, hsize, hfinite⟩

theorem IsStart.hasVectors (h : d.IsStart start) (hp : d.problem.Accepted spectrum) :
    d.HasVectors start := by
  obtain hcheck | ⟨_ | supplied, hstart⟩ := h
  · exact (checkPass_ok.1 hcheck).1
  · obtain rfl := Except.ok.inj hstart
    exact initial_hasVectors hp
  · obtain ⟨hvectors, x, hsnap, rfl⟩ := normalize_ok hstart
    have hx : x.IsBinary d.problem.numBinary := hvectors.x.1 ▸ Vec.isBinary_of_snap? hsnap
    obtain ⟨f, -, rfl⟩ := hx.exists_ofReal
    refine ⟨⟨Vec.size_ofReal f, Vec.allFinite_ofReal f⟩, hvectors.z, ?_, hvectors.y, hvectors.u⟩
    dsimp only
    split
    · exact hvectors.s
    · rw [hvectors.s.1]
      exact hasVectors_zero _

theorem Reals.Moved.hasVectors {R : d.Reals} {it next : Iterate Exact} {I : d.Point it}
    (M : R.Moved I next) : d.HasVectors next :=
  ⟨Vec.size_and_allFinite_of_eq_ofReal M.x_eq, Vec.size_and_allFinite_of_eq_ofReal M.z_eq,
    Vec.size_and_allFinite_of_eq_ofReal M.s_eq, Vec.size_and_allFinite_of_eq_ofReal M.y_eq,
    Vec.size_and_allFinite_of_eq_ofReal M.u_eq⟩

end Decomposition

/-! ## Passes -/

namespace Engine

theorem Leads.rho_pos [OrderedScalar α] {e : Engine α σ} {start it : Iterate α} {st st' : σ}
    {passes : List (Pass α)} (h : e.Leads start st passes it st')
    (hparams : e.decomposition.params.Admissible) (hstart : e.decomposition.IsStart start)
    (hdefined : it.rho ≤ it.rho) : 0.0 < it.rho := by
  cases h with
  | refl => exact hstart.rho_pos hparams hdefined
  | snoc _ hpass => exact Decomposition.pass_rho_pos hparams hpass hdefined

variable {e : Engine Exact σ} {start it next : Iterate Exact} {st st₁ st' : σ} {passes : List (Pass Exact)}
  {kernels : Kernels Exact} {p : Problem Exact} {params : Params Exact}

theorem Leads.isFinite_rho (h : e.Leads start st passes it st')
    (hparams : e.decomposition.params.Admissible) (hfinite : e.decomposition.params.HasFiniteRho)
    (hstart : Scalar.isFinite start.rho = true) :
    Scalar.isFinite it.rho = true ∧ ∀ p ∈ passes, Scalar.isFinite p.rho = true := by
  induction h with
  | refl => exact ⟨hstart, fun p hp => absurd hp List.not_mem_nil⟩
  | @snoc before it next _ _ _ hpass ih =>
    obtain ⟨hrho, hbefore⟩ := ih
    obtain ⟨ρ, hρ⟩ := Exact.isFinite_iff.1 hrho
    refine ⟨?_, ?_⟩
    · rw [Decomposition.pass_rho hpass, hρ]
      exact Exact.isFinite_iff.2 (hparams.exists_nextRho hfinite ρ _ _)
    · intro p hp
      rcases List.mem_append.1 hp with hp | hp
      · exact hbefore p hp
      · rwa [List.mem_singleton.1 hp]

theorem alwaysOne_isFinite_rho {st' : Unit} (h : alwaysOne.Leads start () passes it st')
    (hstart : Scalar.isFinite start.rho = true) :
    Scalar.isFinite it.rho = true ∧ ∀ p ∈ passes, Scalar.isFinite p.rho = true := by
  refine h.isFinite_rho ?_ ?_ hstart
  · rw [alwaysOne_params]
    exact Params.validate_ok_iff.1 Params.standard_validate
  · rw [alwaysOne_params]
    exact Params.standard_hasFiniteRho

/-! ## A slack that shrinks -/

/-- An iterate of `alwaysOne` whose multipliers are the weight times its slack. -/
structure IsSlackened (it : Iterate Exact) (slack ρ : ℝ) : Prop where
  s_eq : it.s = .ofReal ![slack]
  y_eq : it.y = .ofReal ![1000 * slack]
  rho_eq : it.rho = .real ρ

/-- An iterate with as negative a slack and as large a penalty as three passes need that are to miss the
standard tolerance. -/
noncomputable def slackened : Iterate Exact :=
  .ofReal ![1] ![1] ![-1] ![-1000] ![] 10000

/-- An iterate with one for the binary variable and for its copy. -/
def atOne (it : Iterate Exact) : Iterate Exact := { it with x := .ofReal ![1], z := .ofReal ![1] }

@[simp] theorem atOne_x (it : Iterate Exact) : (atOne it).x = .ofReal ![1] := rfl

@[simp] theorem atOne_z (it : Iterate Exact) : (atOne it).z = .ofReal ![1] := rfl

@[simp] theorem atOne_y (it : Iterate Exact) : (atOne it).y = it.y := rfl

@[simp] theorem atOne_rho (it : Iterate Exact) : (atOne it).rho = it.rho := rfl

theorem standard_rho_within {ρ : ℝ} (hlo : 1 ≤ ρ) (hhi : ρ ≤ 10000000) :
    (Params.standard : Params Exact).rhoMin ≤ .real ρ ∧ .real ρ ≤ (Params.standard : Params Exact).rhoMax := by
  have hmin : (Params.standard : Params Exact).rhoMin = .real _ := Exact.literal _ _ _
  have hmax : (Params.standard : Params Exact).rhoMax = .real _ := Exact.literal _ _ _
  rw [hmin, hmax, Exact.real_le_real, Exact.real_le_real]
  constructor
  · norm_num
    linarith
  · norm_num
    linarith

theorem standard_nextRho {ρ : ℝ} {primal dual : Exact} (hlo : 1 ≤ ρ * (11 / 10)) (hhi : ρ * (11 / 10) ≤ 10000000) :
    Decomposition.nextRho (Params.standard : Params Exact) (.real ρ) primal dual = .real (ρ * (11 / 10)) := by
  have hgrowth : (Params.standard : Params Exact).rhoGrowth = .real (11 / 10) :=
    (Exact.literal _ _ _).trans (congrArg Exact.real (by norm_num))
  obtain ⟨hmin, hmax⟩ := standard_rho_within hlo hhi
  change Scalar.clamp (.real ρ * (Params.standard : Params Exact).rhoGrowth) _ _ = _
  rw [hgrowth, Exact.real_mul]
  exact Scalar.clamp_of_mem hmin hmax

theorem isSlackened_slackened : IsSlackened slackened (-1) 10000 := by
  refine ⟨rfl, ?_, rfl⟩
  rw [mul_neg_one]
  rfl

theorem slackened_hasVectors : alwaysOne.decomposition.HasVectors slackened := by
  refine ⟨?_, ?_, ?_, ?_, ?_⟩ <;> exact Vec.size_and_allFinite_of_eq_ofReal rfl

theorem slackened_checkPass : alwaysOne.decomposition.checkPass slackened = .ok () := by
  refine Decomposition.checkPass_ok.2 ⟨slackened_hasVectors, ?_⟩
  rw [isSlackened_slackened.rho_eq, Exact.zero_literal, Exact.real_lt_real]
  norm_num

namespace IsSlackened

variable {it : Iterate Exact} {before : Vec Exact} {slack ρ : ℝ}

theorem consensus_eq (h : IsSlackened it slack ρ) (hslack : slack < 0) (hρ : 1000 ≤ ρ) :
    alwaysOne.decomposition.consensus { it with x := .ofReal ![1] } = .ofReal ![1] := by
  have hpos : 0 < ρ := by linarith
  have hless : ρ⁻¹ * 1000 ≤ 1 := by rwa [inv_mul_le_iff₀ hpos, mul_one]
  have habove : 1 ≤ 1 - slack + ρ⁻¹ * (1000 * slack) := by nlinarith
  rw [Decomposition.consensus, h.s_eq, h.y_eq, h.rho_eq, Vec.ofReal_divBy hpos.ne', Vec.ofReal_sub,
    Vec.ofReal_add, Vec.withinUnit_ofReal]
  refine Vec.ofReal_inj.2 (funext fun i => ?_)
  rw [Subsingleton.elim i 0]
  change unitClamp (1 - slack + ρ⁻¹ * (1000 * slack)) = 1
  rw [unitClamp, max_eq_left (zero_le_one.trans habove), min_eq_right habove]

/-- The copy and the binary vector agree in a pass, since the slack pulls the copy up. -/
theorem pass_eq (h : IsSlackened it slack ρ) (hslack : slack < 0) (hρ : 1000 ≤ ρ) :
    alwaysOne.decomposition.pass alwaysOne.oracles it () =
      (.ok (alwaysOne.decomposition.finish it.z (atOne it)), ()) := by
  have hx : acceptBinary alwaysOne.decomposition.problem.numBinary
      (alwaysOne.oracles.binary (alwaysOne.decomposition.qubo it) ()).1 = .ok (.ofReal ![1]) :=
    acceptBinary_of_snap? (Vec.size_ofReal _) (Vec.isBinary_ofReal fun i => Or.inr (by simp)).snap?_eq
  have hneeds : alwaysOne.decomposition.needsProgram = false := Decomposition.needsProgram_unconstrained _ _ _
  have hrelax : alwaysOne.decomposition.relax { it with x := .ofReal ![1] } = atOne it := by
    rw [Decomposition.relax, if_pos (Decomposition.needsProgram_eq_false_iff.1 hneeds).1,
      h.consensus_eq hslack hρ]
    rfl
  exact Decomposition.pass_of_updated hx ((Decomposition.updateContinuous_of_closed _ hneeds).trans (by rw [hrelax]))

theorem finish_s_eq (h : IsSlackened it slack ρ) (hsum : 0 < 1000 + ρ) :
    (alwaysOne.decomposition.finish before (atOne it)).s = .ofReal ![1000 * slack / (1000 + ρ)] := by
  have hthree : (Params.standard : Params Exact).threeBlock = true := rfl
  have hbeta : (Params.standard : Params Exact).beta = .real 1000 :=
    (Exact.literal _ _ _).trans (congrArg Exact.real (by norm_num))
  rw [Decomposition.finish_s, alwaysOne_params, if_pos hthree, Decomposition.slack, alwaysOne_params, hbeta,
    atOne_x, atOne_z, atOne_y, atOne_rho, h.y_eq, h.rho_eq, Exact.real_add, Vec.ofReal_sub, Vec.ofReal_smul,
    Vec.ofReal_add, Vec.ofReal_divBy hsum.ne']
  refine Vec.ofReal_inj.2 (funext fun i => ?_)
  rw [Subsingleton.elim i 0, div_eq_inv_mul]
  simp

theorem residual_eq (h : IsSlackened it slack ρ) (hsum : 0 < 1000 + ρ) :
    (atOne it).x - (atOne it).z - (alwaysOne.decomposition.finish before (atOne it)).s =
      .ofReal ![-(1000 * slack / (1000 + ρ))] := by
  rw [h.finish_s_eq hsum, atOne_x, atOne_z, Vec.ofReal_sub, Vec.ofReal_sub]
  refine Vec.ofReal_inj.2 (funext fun i => ?_)
  rw [Subsingleton.elim i 0]
  simp

theorem finish_y_eq (h : IsSlackened it slack ρ) (hsum : 0 < 1000 + ρ) :
    (alwaysOne.decomposition.finish before (atOne it)).y = .ofReal ![1000 * (1000 * slack / (1000 + ρ))] := by
  rw [Decomposition.finish_y, h.residual_eq hsum, atOne_y, atOne_rho, h.y_eq, h.rho_eq, Vec.ofReal_smul,
    Vec.ofReal_add]
  refine Vec.ofReal_inj.2 (funext fun i => ?_)
  rw [Subsingleton.elim i 0]
  change 1000 * slack + ρ * -(1000 * slack / (1000 + ρ)) = 1000 * (1000 * slack / (1000 + ρ))
  field_simp
  ring

theorem finish_primal_eq (h : IsSlackened it slack ρ) (hslack : slack < 0) (hsum : 0 < 1000 + ρ) :
    (alwaysOne.decomposition.finish before (atOne it)).measures.primal = .real (-(1000 * slack / (1000 + ρ))) := by
  have hnegative : 1000 * slack / (1000 + ρ) < 0 := div_neg_of_neg_of_pos (by linarith) hsum
  have hsquare : ![-(1000 * slack / (1000 + ρ))] ⬝ᵥ ![-(1000 * slack / (1000 + ρ))] =
      (-(1000 * slack / (1000 + ρ))) ^ 2 := by
    simp [dotProduct, pow_two]
  rw [Decomposition.finish_primal, h.residual_eq hsum, Vec.norm_ofReal, hsquare, Real.sqrt_sq (by linarith)]

/-- After a pass the slack is what the multipliers leave of it, and so is the residual but for its sign. -/
theorem exists_pass (h : IsSlackened it slack ρ) (hslack : slack < 0) (hρ : 1000 ≤ ρ) (hmax : ρ ≤ 1000000) :
    ∃ next, alwaysOne.decomposition.pass alwaysOne.oracles it () = (.ok next, ()) ∧
      IsSlackened next (1000 * slack / (1000 + ρ)) (ρ * (11 / 10)) ∧
      next.measures.primal = .real (-(1000 * slack / (1000 + ρ))) := by
  have hsum : 0 < 1000 + ρ := by linarith
  have hpass := h.pass_eq hslack hρ
  refine ⟨_, hpass, ⟨h.finish_s_eq hsum, h.finish_y_eq hsum, ?_⟩, h.finish_primal_eq hslack hsum⟩
  rw [Decomposition.pass_rho hpass, alwaysOne_params, h.rho_eq]
  exact standard_nextRho (by linarith) (by linarith)

end IsSlackened

theorem Leads.exists_point (h : e.Leads start st passes it st')
    (hparams : e.decomposition.params.Admissible) (hstart : e.decomposition.IsStart start)
    (hvectors : e.decomposition.HasVectors it) (hrho : Scalar.isFinite it.rho = true) :
    ∃ I : e.decomposition.Point it, 0 < I.rho := by
  obtain ⟨I⟩ := hvectors.exists_point hrho
  have hpos : 0.0 < it.rho := h.rho_pos hparams hstart (by simp [I.rho_eq])
  exact ⟨I, by simpa [I.rho_eq] using hpos⟩

/-- **The vectors stay real** as long as the penalties of the passes are finite. -/
theorem Leads.hasVectors (h : e.Leads start st passes it st')
    (hcreate : Decomposition.create kernels p params = .ok e.decomposition)
    (hstart : e.decomposition.IsStart start)
    (hexact : ∀ p ∈ passes, Scalar.isFinite p.rho = true) : e.decomposition.HasVectors it := by
  obtain ⟨R⟩ := Decomposition.exists_reals hcreate
  obtain ⟨-, -, haccepted, hvalid⟩ := Decomposition.create_ok hcreate
  induction h with
  | refl => exact hstart.hasVectors haccepted
  | @snoc before it next _ _ h hpass ih =>
    have hvectors := ih fun p hp => hexact p (List.mem_append_left _ hp)
    have hrho : Scalar.isFinite it.rho = true := hexact ⟨it.rho, next⟩ (by simp)
    obtain ⟨I, hρ⟩ := h.exists_point (Params.validate_ok_iff.1 hvalid) hstart hvectors hrho
    obtain ⟨M⟩ := R.exists_moved I hρ hpass
    exact M.hasVectors

theorem Leads.exists_moved (h : e.Leads start st passes it st')
    (hcreate : Decomposition.create kernels p params = .ok e.decomposition)
    (hstart : e.decomposition.IsStart start)
    (hexact : ∀ p ∈ passes, Scalar.isFinite p.rho = true) (hrho : Scalar.isFinite it.rho = true)
    (R : e.decomposition.Reals)
    (hpass : e.decomposition.pass e.oracles it st' = (.ok next, st₁)) :
    ∃ I : e.decomposition.Point it, 0 < I.rho ∧ Nonempty (R.Moved I next) := by
  obtain ⟨-, -, -, hvalid⟩ := Decomposition.create_ok hcreate
  have hvectors := h.hasVectors hcreate hstart hexact
  obtain ⟨I, hρ⟩ := h.exists_point (Params.validate_ok_iff.1 hvalid) hstart hvectors hrho
  exact ⟨I, hρ, R.exists_moved I hρ hpass⟩

end Engine

end BinarySplitting
