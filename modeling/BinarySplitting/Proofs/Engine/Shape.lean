import BinarySplitting.Proofs.Engine.RealRun

/-!
# The shape of iterates

The oracles are not trusted: a pass sets the binary vector to zeros and ones itself, takes over only
finite answers of the right size, moves the relaxed copy into the unit box and leaves the slack at zero
where there is none. So the vectors of an iterate keep their sizes and the binary vector stays binary,
in any arithmetic and whatever the oracles answer (`HasShape.pass`). In exact arithmetic the relaxed
copy is in the unit box, too (`Engine.leads_hasShape`); an infinite penalty is no exact number, and a
relaxed copy in closed form would divide infinite multipliers by it.
-/

namespace BinarySplitting

variable {α σ : Type} [Scalar α]

theorem Vec.allFinite_slice {v : Vec α} (hfin : v.allFinite = true) {start n : ℕ}
    (h : start + n ≤ v.size) : (v.slice start n).allFinite = true := by
  rw [allFinite_iff] at hfin ⊢
  intro i hi
  rw [size_slice] at hi
  rw [get_slice hi]
  exact hfin (start + i) (by omega)

namespace Decomposition

/-- The vectors have the sizes of the problem, the binary one is binary and the continuous one finite;
without a slack in the schedule there is none. -/
structure HasShape (d : Decomposition α) (it : Iterate α) : Prop where
  x : it.x.IsBinary d.problem.numBinary
  z : it.z.size = d.problem.numBinary
  u : it.u.size = d.problem.numContinuous ∧ it.u.allFinite = true
  s : it.s.size = d.problem.numBinary
  y : it.y.size = d.problem.numBinary
  s_zero : d.params.threeBlock = false → it.s = Vec.zero d.problem.numBinary

variable {d : Decomposition α} {it next updated : Iterate α} {st st' : σ}

/-! ## A pass -/

theorem relax_size_z (h : d.HasShape it) : (d.relax it).z.size = d.problem.numBinary := by
  unfold relax
  split
  · have hsizes := h.x.1
    simp [consensus, hsizes, h.s, h.y]
  · exact h.z

theorem updateContinuous_size_z {oracle : Oracle (Program α) α σ} (h : d.HasShape it)
    (hupdate : d.updateContinuous oracle it st = (.ok updated, st')) :
    updated.z.size = d.problem.numBinary := by
  obtain ⟨-, rfl, -⟩ | ⟨-, w, -, -, -, rfl⟩ := updateContinuous_ok hupdate
  · exact relax_size_z h
  · unfold place
    dsimp only
    split
    · exact relax_size_z h
    · next hcount =>
      unfold numRelaxed at hcount ⊢
      split at hcount
      · exact absurd rfl hcount
      · next hform => simp [hform]

theorem updateContinuous_allFinite_u {oracle : Oracle (Program α) α σ} (h : d.HasShape it)
    (hupdate : d.updateContinuous oracle it st = (.ok updated, st')) :
    updated.u.allFinite = true := by
  obtain ⟨-, rfl, -⟩ | ⟨-, w, -, hsize, hfin, rfl⟩ := updateContinuous_ok hupdate
  · rw [relax_u]
    exact h.u.2
  · unfold place
    dsimp only
    split
    · rw [relax_u]
      exact h.u.2
    · exact Vec.allFinite_slice hfin hsize.ge

theorem HasShape.updateContinuous {oracle : Oracle (Program α) α σ} (h : d.HasShape it)
    (hupdate : d.updateContinuous oracle it st = (.ok updated, st')) : d.HasShape updated := by
  have hz := updateContinuous_size_z h hupdate
  have hu := updateContinuous_size_u h.u.1 hupdate
  have hfinite := updateContinuous_allFinite_u h hupdate
  obtain ⟨z, u, rfl⟩ := updateContinuous_frame hupdate
  exact ⟨h.x, hz, ⟨hu, hfinite⟩, h.s, h.y, h.s_zero⟩

theorem HasShape.finish (h : d.HasShape it) (zBefore : Vec α) : d.HasShape (d.finish zBefore it) := by
  have hx := h.x.1
  have hs : (d.finish zBefore it).s.size = d.problem.numBinary := by
    rw [finish_s]
    split
    · simp [slack, hx, h.z, h.y]
    · exact h.s
  refine ⟨?_, ?_, ?_, hs, ?_, ?_⟩
  · rw [finish_x]
    exact h.x
  · rw [finish_z]
    exact h.z
  · rw [finish_u]
    exact h.u
  · rw [finish_y]
    simp [hx, h.z, h.y, hs]
  · intro htwo
    rw [finish_s, htwo]
    exact h.s_zero htwo

/-- **A completed pass keeps the shape**, in any arithmetic and whatever the oracles answer. -/
theorem HasShape.pass {oracles : Oracles α σ} (h : d.HasShape it)
    (hpass : d.pass oracles it st = (.ok next, st')) : d.HasShape next := by
  obtain ⟨x, updated, haccept, hupdate, rfl⟩ := pass_ok hpass
  have hshape : d.HasShape { it with x } :=
    ⟨acceptBinary_isBinary haccept, h.z, h.u, h.s, h.y, h.s_zero⟩
  exact (hshape.updateContinuous hupdate).finish it.z

/-! ## Starts -/

theorem isBinary_zero (n : ℕ) : (Vec.zero n : Vec α).IsBinary n := by
  refine ⟨Vec.size_zero n, ?_⟩
  intro i hi
  exact Or.inl (Vec.get_const 0.0 hi)

theorem startAt_hasShape {d : Decomposition Exact} {start : Iterate Exact}
    {start? : Option (Iterate Exact)} {spectrum : Mat Exact → Vec Exact}
    (hp : d.problem.Accepted spectrum) (hstart : d.startAt start? = .ok start) : d.HasShape start := by
  have hvectors : d.HasVectors start := IsStart.hasVectors (Or.inr ⟨start?, hstart⟩) hp
  refine ⟨?_, hvectors.z.1, hvectors.u, hvectors.s.1, hvectors.y.1, ?_⟩
  · cases start? with
    | none =>
      obtain rfl := Except.ok.inj hstart
      exact isBinary_zero _
    | some it =>
      obtain ⟨hsupplied, x, hsnap, rfl⟩ := normalize_ok hstart
      exact hsupplied.x.1 ▸ Vec.isBinary_of_snap? hsnap
  · intro htwo
    cases start? with
    | none =>
      obtain rfl := Except.ok.inj hstart
      rfl
    | some it =>
      obtain ⟨hsupplied, x, -, rfl⟩ := normalize_ok hstart
      dsimp only
      rw [htwo, hsupplied.s.1]
      rfl

/-- An iterate that has its shape and a penalty within the limits is supplied as it is. -/
theorem normalize_of_hasShape {d : Decomposition Exact} {it : Iterate Exact}
    (hvectors : d.HasVectors it) (hshape : d.HasShape it)
    (hrho : Scalar.clamp it.rho d.params.rhoMin d.params.rhoMax = it.rho) :
    d.normalize it = .ok { it with iteration := 0, status := .initialized } := by
  have hs : (if d.params.threeBlock then it.s else Vec.zero it.s.size) = it.s := by
    split
    · rfl
    · next htwo => rw [hshape.s, hshape.s_zero (Bool.eq_false_of_not_eq_true htwo)]
  unfold normalize
  rw [checkVectors_ok.2 hvectors, hshape.x.snap?_eq, hrho, hs]
  rfl

end Decomposition

namespace Engine

/-- **The shape of iterates.** The standard start fits the problem, with a continuous vector within its
bounds. From an accepted start every completed pass gives an iterate that has its shape; its relaxed copy
is in the unit box, if the penalties of the passes are exact numbers, that is, finite; they are whenever
those of the start and of the parameters are (`Leads.isFinite_rho`). -/
theorem leads_hasShape {e : Engine Exact σ} {kernels : Kernels Exact} {p : Problem Exact}
    {params : Params Exact}
    (hcreate : Decomposition.create kernels p params = .ok e.decomposition) :
    (e.decomposition.HasVectors e.decomposition.initial ∧
      ∀ j < p.numContinuous, p.lower j ≤ e.decomposition.initial.u j ∧
        e.decomposition.initial.u j ≤ p.upper j) ∧
    ∀ start? start st passes it st', e.decomposition.startAt start? = .ok start →
      e.Leads start st passes it st' → e.decomposition.HasShape it ∧
        (passes ≠ [] → (∀ p ∈ passes, Scalar.isFinite p.rho = true) →
          ∀ i < p.numBinary, 0.0 ≤ it.z i ∧ it.z i ≤ 1.0) := by
  obtain ⟨R⟩ := Decomposition.exists_reals hcreate
  obtain ⟨hproblem, -, haccepted, -⟩ := Decomposition.create_ok hcreate
  subst hproblem
  refine ⟨⟨Decomposition.initial_hasVectors haccepted, ?_⟩, ?_⟩
  · intro j hj
    obtain ⟨r, hr, hwithin⟩ := Decomposition.exists_initial_u haccepted hj
    rwa [hr]
  · intro start? start st passes it st' hstart h
    have hshape := Decomposition.startAt_hasShape haccepted hstart
    refine ⟨h.invariant (fun _ _ _ _ hkeep => hkeep.pass) hshape, ?_⟩
    intro hne hexact i hi
    -- The relaxed copy of a supplied start may be anywhere: the last pass moves it into the box.
    cases h with
    | refl => exact absurd rfl hne
    | @snoc before it' _ _ _ h hpass =>
      have hbefore : ∀ p ∈ before, Scalar.isFinite p.rho = true := fun p hp =>
        hexact p (List.mem_append_left _ hp)
      have hrho : Scalar.isFinite it'.rho = true := hexact ⟨it'.rho, it⟩ (by simp)
      obtain ⟨I, -, ⟨M⟩⟩ := h.exists_moved hcreate (Or.inr ⟨start?, hstart⟩) hbefore hrho R hpass
      rw [M.z_eq, Vec.get_ofReal M.z hi, Exact.zero_literal, Exact.one_literal, Exact.real_le_real,
        Exact.real_le_real]
      exact M.z_unit ⟨i, hi⟩

/-- Three passes from the standard start, with an oracle that always answers one. -/
theorem leads_hasShape_alwaysOne :
    let e := alwaysOne
    let start := e.decomposition.initial
    Decomposition.create .standard e.decomposition.problem .standard = .ok e.decomposition ∧
      e.decomposition.HasVectors start ∧ e.decomposition.startAt none = .ok start ∧
      ∃ passes it st', e.Leads start () passes it st' ∧ passes.length = 3 ∧
        (∀ p ∈ passes, Scalar.isFinite p.rho = true) ∧ e.decomposition.HasShape it ∧
        ∀ i < e.decomposition.problem.numBinary, 0.0 ≤ it.z i ∧ it.z i ≤ 1.0 := by
  intro e start
  obtain ⟨⟨hvectors, -⟩, hshape⟩ := leads_hasShape alwaysOne_create
  obtain ⟨passes, it, st', hleads, hlength⟩ := alwaysOne_neverFails.exists_leads start () 3
  have hne : passes ≠ [] := List.ne_nil_of_length_pos (by omega)
  have hexact := (alwaysOne_isFinite_rho hleads (Exact.isFinite_iff.2 ⟨_, rfl⟩)).2
  obtain ⟨hit, hunit⟩ := hshape none start () passes it st' rfl hleads
  exact ⟨alwaysOne_create, hvectors, rfl, passes, it, st', hleads, hlength, hexact, hit,
    hunit hne hexact⟩

end Engine

end BinarySplitting
