import BinarySplitting.Proofs.Decomposition.Descent

/-!
# A pass over the reals

Whatever the oracles answer, a completed pass from real vectors and a positive penalty leads to real
vectors (`Reals.exists_moved`): a binary vector, a relaxed copy in the unit box, the slack in closed
form or unchanged, and the multipliers that belong to them. Nothing is asked of the answers but that
they were accepted, so this is about wrong oracles as well as exact ones.
-/

namespace BinarySplitting.Decomposition

open Matrix

variable {d : Decomposition Exact} {it next : Iterate Exact} {σ : Type} {st st' : σ}

/-- The real vectors that a pass from a point leads to. -/
structure Reals.Moved (R : d.Reals) (I : d.Point it) (next : Iterate Exact) where
  x : Fin d.problem.numBinary → ℝ
  z : Fin d.problem.numBinary → ℝ
  s : Fin d.problem.numBinary → ℝ
  u : Fin d.problem.numContinuous → ℝ
  z_unit : ∀ i, 0 ≤ z i ∧ z i ≤ 1
  s_closed : d.params.threeBlock = true → s = (R.beta + I.rho)⁻¹ • (I.y + I.rho • (x - z))
  x_eq : next.x = Vec.ofReal x
  z_eq : next.z = Vec.ofReal z
  s_eq : next.s = Vec.ofReal s
  y_eq : next.y = Vec.ofReal (I.y + I.rho • (x - z - s))
  u_eq : next.u = Vec.ofReal u

namespace Reals

variable (R : d.Reals) (I : d.Point it)

include R in
theorem exists_relaxed (hρ : 0 < I.rho) {w : Vec Exact}
    (hsize : w.size = d.numRelaxed + d.problem.numContinuous) (hfin : w.allFinite = true) :
    ∃ z : Fin d.problem.numBinary → ℝ, (∀ i, 0 ≤ z i ∧ z i ≤ 1) ∧
      (d.place (d.relax it) w).z = Vec.ofReal z := by
  unfold place
  dsimp only
  cases hform : d.closedForm with
  | true =>
    refine ⟨I.consensus, fun i => unitClamp_mem _, ?_⟩
    rw [if_pos (numRelaxed_closed hform), relax_ofReal I hρ hform]
  | false =>
    have hcount : d.numRelaxed = d.problem.numBinary := numRelaxed_joint hform
    have hne : d.numRelaxed ≠ 0 := hcount ▸ R.numBinary_pos.ne'
    have hbound : 0 + d.problem.numBinary ≤ w.size := by omega
    obtain ⟨f, hf⟩ := Vec.exists_slice_ofReal hfin hbound
    refine ⟨fun i => unitClamp (f i), fun i => unitClamp_mem _, ?_⟩
    rw [if_neg hne, hcount, hf, Vec.withinUnit_ofReal]

include I in
theorem exists_continuous {w : Vec Exact}
    (hsize : w.size = d.numRelaxed + d.problem.numContinuous) (hfin : w.allFinite = true) :
    ∃ u : Fin d.problem.numContinuous → ℝ, (d.place (d.relax it) w).u = Vec.ofReal u := by
  unfold place
  dsimp only
  split
  · exact ⟨I.u, by rw [relax_u, I.u_eq]⟩
  · exact Vec.exists_slice_ofReal hfin hsize.ge

include R in
theorem exists_updated {oracle : Oracle (Program Exact) Exact σ} {updated : Iterate Exact}
    (hρ : 0 < I.rho) (h : d.updateContinuous oracle it st = (.ok updated, st')) :
    ∃ (z : Fin d.problem.numBinary → ℝ) (u : Fin d.problem.numContinuous → ℝ),
      (∀ i, 0 ≤ z i ∧ z i ≤ 1) ∧ updated = { it with z := Vec.ofReal z, u := Vec.ofReal u } := by
  obtain ⟨hneeds, rfl, -⟩ | ⟨-, w, -, hsize, hfin, rfl⟩ := updateContinuous_ok h
  · have hform : d.closedForm = true := by
      simp [needsProgram] at hneeds
      exact hneeds.1
    refine ⟨I.consensus, I.u, fun i => unitClamp_mem _, ?_⟩
    rw [relax_ofReal I hρ hform, ← I.u_eq]
  · obtain ⟨z, hunit, hz⟩ := R.exists_relaxed I hρ hsize hfin
    obtain ⟨u, hu⟩ := exists_continuous I hsize hfin
    refine ⟨z, u, hunit, ?_⟩
    rw [← hz, ← hu]
    unfold place relax
    split <;> rfl

theorem exists_slack (hρ : 0 < I.rho) (zBefore : Vec Exact) :
    ∃ s : Fin d.problem.numBinary → ℝ, (d.finish zBefore it).s = Vec.ofReal s ∧
      (d.params.threeBlock = true → s = (R.beta + I.rho)⁻¹ • (I.y + I.rho • (I.x - I.z))) := by
  rw [finish_s]
  split
  · exact ⟨_, R.slack_ofReal I hρ, fun _ => rfl⟩
  · next htwo => exact ⟨I.s, I.s_eq, fun hthree => absurd hthree htwo⟩

/-- **A completed pass from real vectors leads to real vectors**, whatever the oracles answer. -/
theorem exists_moved {oracles : Oracles Exact σ} (hρ : 0 < I.rho)
    (h : d.pass oracles it st = (.ok next, st')) : Nonempty (R.Moved I next) := by
  obtain ⟨x, updated, haccept, hupdate, rfl⟩ := pass_ok h
  obtain ⟨f, -, rfl⟩ := (acceptBinary_isBinary haccept).exists_ofReal
  obtain ⟨z, u, hunit, rfl⟩ := R.exists_updated (I.setBinary f) hρ hupdate
  obtain ⟨s, hs, hclosed⟩ := R.exists_slack ((I.setBinary f).setPair z u) hρ it.z
  refine ⟨⟨f, z, s, u, hunit, hclosed, finish_x .., finish_z .., hs, ?_, finish_u ..⟩⟩
  rw [finish_y, hs]
  dsimp only
  rw [I.y_eq, I.rho_eq, Vec.ofReal_sub, Vec.ofReal_sub, Vec.ofReal_smul, Vec.ofReal_add]

end Reals

end BinarySplitting.Decomposition
