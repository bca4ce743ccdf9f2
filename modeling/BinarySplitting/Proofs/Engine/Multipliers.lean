import BinarySplitting.Proofs.Engine.RealRun

/-!
# The multipliers are the weighted slack

With a slack between the binary vector and its copy, a pass first computes the slack from the
multipliers and then updates the multipliers by the residual that is left. In exact arithmetic these
two steps cancel: after every pass the multipliers are `beta` times the slack
(`Reals.Moved.multipliers`). So from one pass to the next the residual, times the penalty, is the
change of the slack, times `beta`, and the primal residual that the stopping test looks at is this change
(`Engine.leads_multipliers`).
-/

namespace BinarySplitting

variable {σ : Type}

namespace Decomposition.Reals.Moved

variable {d : Decomposition Exact} {R : d.Reals} {it next : Iterate Exact} {I : d.Point it}
  (M : R.Moved I next)

include M

theorem multipliers_real (hρ : 0 < I.rho) (hthree : d.params.threeBlock = true) :
    I.y + I.rho • (M.x - M.z - M.s) = R.beta • M.s := by
  have hne : R.beta + I.rho ≠ 0 := (add_pos_of_nonneg_of_pos R.beta_nonneg hρ).ne'
  have hslack : (R.beta + I.rho) • M.s = I.y + I.rho • (M.x - M.z) := by
    rw [M.s_closed hthree, smul_smul, mul_inv_cancel₀ hne, one_smul]
  rw [smul_sub, ← add_sub_assoc, ← hslack, add_smul, add_sub_cancel_right]

theorem multipliers (hρ : 0 < I.rho) (hthree : d.params.threeBlock = true) :
    next.y = d.params.beta • next.s := by
  rw [M.y_eq, M.s_eq, R.beta_eq, Vec.ofReal_smul, M.multipliers_real hρ hthree]

/-- The residual of a pass, times the penalty, is the change of the multipliers. -/
theorem residual_real (hρ : 0 < I.rho) (hthree : d.params.threeBlock = true)
    (hy : it.y = d.params.beta • it.s) : I.rho • (M.x - M.z - M.s) = R.beta • (M.s - I.s) := by
  have hbefore : I.y = R.beta • I.s := by
    rw [I.y_eq, I.s_eq, R.beta_eq, Vec.ofReal_smul, Vec.ofReal_inj] at hy
    exact hy
  rw [smul_sub R.beta, ← M.multipliers_real hρ hthree, ← hbefore, add_sub_cancel_left]

theorem residual (hρ : 0 < I.rho) (hthree : d.params.threeBlock = true)
    (hy : it.y = d.params.beta • it.s) :
    it.rho • (next.x - next.z - next.s) = d.params.beta • (next.s - it.s) := by
  rw [M.x_eq, M.z_eq, M.s_eq, I.s_eq, I.rho_eq, R.beta_eq]
  simp only [Vec.ofReal_sub, Vec.ofReal_smul]
  rw [M.residual_real hρ hthree hy]

theorem norm_residual (hρ : 0 < I.rho) (hthree : d.params.threeBlock = true)
    (hy : it.y = d.params.beta • it.s) :
    (next.x - next.z - next.s).norm = d.params.beta / it.rho * (next.s - it.s).norm := by
  have hresidual : M.x - M.z - M.s = (R.beta / I.rho) • (M.s - I.s) := by
    rw [div_eq_inv_mul, mul_smul, ← M.residual_real hρ hthree hy, smul_smul, inv_mul_cancel₀ hρ.ne',
      one_smul]
  rw [M.x_eq, M.z_eq, M.s_eq, I.s_eq, I.rho_eq, R.beta_eq, Exact.real_div _ hρ.ne']
  simp only [Vec.ofReal_sub]
  rw [hresidual, Vec.norm_smul_ofReal (div_nonneg R.beta_nonneg hρ.le)]

end Decomposition.Reals.Moved

namespace Engine

/-- **After every pass the multipliers are `beta` times the slack.** Then in the next pass the residual,
times the penalty, is `beta` times the change of the slack, and the primal residual is the norm of this
change, times `beta / rho`. The penalties of the passes are exact numbers, that is, finite; they are
whenever those of the start and of the parameters are (`Leads.isFinite_rho`). -/
theorem leads_multipliers {e : Engine Exact σ} {kernels : Kernels Exact} {p : Problem Exact}
    {params : Params Exact} {start it : Iterate Exact} {st st₁ : σ} {passes : List (Pass Exact)}
    (hcreate : Decomposition.create kernels p params = .ok e.decomposition)
    (hthree : params.threeBlock = true) (hstart : e.decomposition.IsStart start)
    (h : e.Leads start st passes it st₁) (hne : passes ≠ [])
    (hexact : ∀ p ∈ passes, Scalar.isFinite p.rho = true) :
    it.y = params.beta • it.s ∧
      ∀ next st₂, e.decomposition.pass e.oracles it st₁ = (.ok next, st₂) →
        Scalar.isFinite it.rho = true →
          it.rho • (next.x - next.z - next.s) = params.beta • (next.s - it.s) ∧
          next.measures.primal = params.beta / it.rho * (next.s - it.s).norm := by
  obtain ⟨R⟩ := Decomposition.exists_reals hcreate
  obtain ⟨-, hparams, -, -⟩ := Decomposition.create_ok hcreate
  rw [← hparams] at hthree ⊢
  have hy : it.y = e.decomposition.params.beta • it.s := by
    -- The last pass alone decides this; the passes before it only have to keep the vectors real.
    cases h with
    | refl => exact absurd rfl hne
    | @snoc before it' _ _ _ h hpass =>
      have hbefore : ∀ p ∈ before, Scalar.isFinite p.rho = true := fun p hp =>
        hexact p (List.mem_append_left _ hp)
      have hrho : Scalar.isFinite it'.rho = true := hexact ⟨it'.rho, it⟩ (by simp)
      obtain ⟨I, hρ, ⟨M⟩⟩ := h.exists_moved hcreate hstart hbefore hrho R hpass
      exact M.multipliers hρ hthree
  refine ⟨hy, ?_⟩
  intro next st₂ hpass hrho
  obtain ⟨I, hρ, ⟨M⟩⟩ := h.exists_moved hcreate hstart hexact hrho R hpass
  rw [Decomposition.pass_primal hpass]
  exact ⟨M.residual hρ hthree hy, M.norm_residual hρ hthree hy⟩

theorem leads_multipliers_slackened :
    let e := alwaysOne
    let params : Params Exact := .standard
    Decomposition.create .standard e.decomposition.problem params = .ok e.decomposition ∧
    params.threeBlock = true ∧ e.decomposition.IsStart slackened ∧
    ∃ passes it st₁ next st₂, e.Leads slackened () passes it st₁ ∧ passes ≠ [] ∧
      (∀ p ∈ passes, Scalar.isFinite p.rho = true) ∧ it.y = params.beta • it.s ∧
      e.decomposition.pass e.oracles it st₁ = (.ok next, st₂) ∧ Scalar.isFinite it.rho = true ∧
      it.rho • (next.x - next.z - next.s) = params.beta • (next.s - it.s) ∧
      next.measures.primal = params.beta / it.rho * (next.s - it.s).norm ∧
      it.s = .ofReal ![-1 / 11] ∧ next.s = .ofReal ![-1 / 132] ∧ next.measures.primal = .real (1 / 132) := by
  intro e params
  have hstart : e.decomposition.IsStart slackened := Or.inl slackened_checkPass
  obtain ⟨it, hfirst, hit, -⟩ :=
    isSlackened_slackened.exists_pass (by norm_num) (by norm_num) (by norm_num)
  obtain ⟨next, hsecond, hnext, hprimal⟩ := hit.exists_pass (by norm_num) (by norm_num) (by norm_num)
  have hleads : e.Leads slackened () [⟨slackened.rho, it⟩] it () := .snoc .refl hfirst
  have hne : [(⟨slackened.rho, it⟩ : Pass Exact)] ≠ [] := List.cons_ne_nil _ _
  obtain ⟨hrho, hexact⟩ := alwaysOne_isFinite_rho hleads (Exact.isFinite_iff.2 ⟨_, rfl⟩)
  obtain ⟨hy, hlaw⟩ := leads_multipliers alwaysOne_create rfl hstart hleads hne hexact
  obtain ⟨hresidual, hnorm⟩ := hlaw next () hsecond hrho
  refine ⟨alwaysOne_create, rfl, hstart, _, it, (), next, (), hleads, hne, hexact, hy, hsecond, hrho,
    hresidual, hnorm, hit.s_eq.trans ?_, hnext.s_eq.trans ?_, hprimal.trans ?_⟩
  · norm_num
  · norm_num
  · norm_num

end Engine

end BinarySplitting
