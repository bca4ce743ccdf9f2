import BinarySplitting.Engine.Run
import BinarySplitting.Proofs.Engine.Pass

/-!
# Runs as derivations

`Engine.Makes e it st passes ending st'` says that from the iterate `it` and the state `st` of the
oracles the engine makes these passes, comes to this end and leaves the oracles in `st'`. It has one
rule for each thing that can follow a pass, and no fuel: the loop of an engine whose limit leaves
room for the passes is such a derivation (`Engine.passes_makes`), since the limit itself stops it
before the fuel is used up. What holds along every run is proved by induction on the derivation.
-/

namespace BinarySplitting

variable {α σ : Type} [Scalar α]

namespace Engine

/-- From an iterate and a state, the engine makes these passes and comes to this end. -/
inductive Makes (e : Engine α σ) : Iterate α → σ → List (Pass α) → Ending α → σ → Prop
  | failed {it : Iterate α} {st st' : σ} {failure : SubproblemFailure α}
      (hpass : e.decomposition.pass e.oracles it st = (.error failure, st')) :
      Makes e it st [] (.failed failure) st'
  | stopped {it next : Iterate α} {st st' : σ} {stop : Stop}
      (hpass : e.decomposition.pass e.oracles it st = (.ok next, st'))
      (hstop : e.decomposition.params.stop? e.clock next = some stop) :
      Makes e it st [⟨it.rho, next⟩] (.stopped stop) st'
  | next {it next : Iterate α} {st st' st'' : σ} {passes : List (Pass α)} {ending : Ending α}
      (hpass : e.decomposition.pass e.oracles it st = (.ok next, st'))
      (hstop : e.decomposition.params.stop? e.clock next = none)
      (hrest : Makes e next st' passes ending st'') :
      Makes e it st (⟨it.rho, next⟩ :: passes) ending st''

variable {e : Engine α σ} {it : Iterate α} {st st' : σ} {passes : List (Pass α)} {ending : Ending α}

/-! ## The loop -/

theorem passes_of_failed {failure : SubproblemFailure α} (fuel : ℕ)
    (hpass : e.decomposition.pass e.oracles it st = (.error failure, st')) :
    e.passes (fuel + 1) it st = (([], .failed failure), st') := by
  rw [passes, runState_bind, hpass]
  rfl

theorem passes_of_stopped {next : Iterate α} {stop : Stop} (fuel : ℕ)
    (hpass : e.decomposition.pass e.oracles it st = (.ok next, st'))
    (hstop : e.decomposition.params.stop? e.clock next = some stop) :
    e.passes (fuel + 1) it st = (([⟨it.rho, next⟩], .stopped stop), st') := by
  rw [passes, runState_bind, hpass]
  dsimp only
  rw [hstop]
  rfl

theorem passes_of_next {next : Iterate α} (fuel : ℕ)
    (hpass : e.decomposition.pass e.oracles it st = (.ok next, st'))
    (hstop : e.decomposition.params.stop? e.clock next = none) :
    e.passes (fuel + 1) it st =
      ((⟨it.rho, next⟩ :: (e.passes fuel next st').1.1, (e.passes fuel next st').1.2),
        (e.passes fuel next st').2) := by
  rw [passes, runState_bind, hpass]
  dsimp only
  rw [hstop]
  rfl

theorem iteration_lt_of_stop?_none {params : Params α} {clock : ℕ → α} {next : Iterate α}
    (h : params.stop? clock next = none) : next.iteration < params.maxIterations := by
  unfold Params.stop? at h
  split at h
  · simp at h
  · split at h
    · simp at h
    · next hlt => omega

/-- The loop is a derivation, by induction on the fuel: at an iterate that does not stop the run
there are passes left. -/
theorem passes_makes {fuel : ℕ} (hpos : 0 < fuel)
    (hfuel : it.iteration + fuel = e.decomposition.params.maxIterations) :
    e.Makes it st (e.passes fuel it st).1.1 (e.passes fuel it st).1.2 (e.passes fuel it st).2 := by
  induction fuel generalizing it st with
  | zero => omega
  | succ fuel ih =>
    rcases hpass : e.decomposition.pass e.oracles it st with ⟨failure | next, st'⟩
    · rw [passes_of_failed fuel hpass]
      exact .failed hpass
    · cases hstop : e.decomposition.params.stop? e.clock next with
      | some stop =>
        rw [passes_of_stopped fuel hpass hstop]
        exact .stopped hpass hstop
      | none =>
        rw [passes_of_next fuel hpass hstop]
        have hiteration := Decomposition.pass_iteration hpass
        have hlt := iteration_lt_of_stop?_none hstop
        exact .next hpass hstop (ih (by omega) (by omega))

theorem Makes.unique {passes' : List (Pass α)} {ending' : Ending α} {st'' : σ}
    (h : e.Makes it st passes ending st') (h' : e.Makes it st passes' ending' st'') :
    passes = passes' ∧ ending = ending' ∧ st' = st'' := by
  induction h generalizing passes' ending' st'' with
  | failed hpass =>
    cases h' with
    | failed hpass' =>
      cases hpass.symm.trans hpass'
      exact ⟨rfl, rfl, rfl⟩
    | stopped hpass' _ => cases hpass.symm.trans hpass'
    | next hpass' _ _ => cases hpass.symm.trans hpass'
  | stopped hpass hstop =>
    cases h' with
    | failed hpass' => cases hpass.symm.trans hpass'
    | stopped hpass' hstop' =>
      cases hpass.symm.trans hpass'
      cases hstop.symm.trans hstop'
      exact ⟨rfl, rfl, rfl⟩
    | next hpass' hstop' _ =>
      cases hpass.symm.trans hpass'
      cases hstop.symm.trans hstop'
  | next hpass hstop hrest ih =>
    cases h' with
    | failed hpass' => cases hpass.symm.trans hpass'
    | stopped hpass' hstop' =>
      cases hpass.symm.trans hpass'
      cases hstop.symm.trans hstop'
    | next hpass' hstop' hrest' =>
      cases hpass.symm.trans hpass'
      obtain ⟨rfl, rfl, rfl⟩ := ih hrest'
      exact ⟨rfl, rfl, rfl⟩

/-! ## What holds along a run -/

/-- A property of the start that every completed pass keeps holds after every pass of a run. -/
theorem Makes.forall_passes {P : Iterate α → Prop} (h : e.Makes it st passes ending st')
    (hkeep : ∀ it next st st', P it → e.decomposition.pass e.oracles it st = (.ok next, st') → P next)
    (hstart : P it) : ∀ p ∈ passes, P p.iterate := by
  induction h with
  | failed _ => simp
  | stopped hpass _ => simpa using hkeep _ _ _ _ hstart hpass
  | next hpass _ _ ih =>
    have hnext := hkeep _ _ _ _ hstart hpass
    simpa using ⟨hnext, ih hnext⟩

theorem Makes.exists_pass (h : e.Makes it st passes ending st') :
    ∀ p ∈ passes, ∃ before st₁ st₂,
      e.decomposition.pass e.oracles before st₁ = (.ok p.iterate, st₂) := by
  induction h with
  | failed _ => simp
  | stopped hpass _ => simpa using ⟨_, _, _, hpass⟩
  | next hpass _ _ ih =>
    intro p hp
    rcases List.mem_cons.1 hp with rfl | hp
    · exact ⟨_, _, _, hpass⟩
    · exact ih p hp

theorem Makes.iteration (h : e.Makes it st passes ending st') {k : ℕ} {p : Pass α}
    (hp : passes[k]? = some p) : p.iterate.iteration = it.iteration + k + 1 := by
  induction h generalizing k with
  | failed _ => simp at hp
  | stopped hpass _ =>
    have hiteration := Decomposition.pass_iteration hpass
    cases k with
    | zero =>
      obtain rfl := Option.some.inj hp
      simpa using hiteration
    | succ k => simp at hp
  | next hpass _ _ ih =>
    have hiteration := Decomposition.pass_iteration hpass
    cases k with
    | zero =>
      obtain rfl := Option.some.inj hp
      simpa using hiteration
    | succ k =>
      have hrest := ih (k := k) (by simpa using hp)
      omega

theorem Makes.length_pos {stop : Stop} (h : e.Makes it st passes (.stopped stop) st') :
    0 < passes.length := by
  cases h <;> simp

theorem Makes.stop?_last {stop : Stop} {p : Pass α} (h : e.Makes it st passes (.stopped stop) st')
    (hp : passes[passes.length - 1]? = some p) :
    e.decomposition.params.stop? e.clock p.iterate = some stop := by
  generalize hending : Ending.stopped stop = ending at h
  induction h with
  | failed _ => cases hending
  | stopped _ hstop =>
    cases hending
    obtain rfl := Option.some.inj hp
    exact hstop
  | @next _ _ _ _ _ rest _ _ _ hrest ih =>
    have hpos : 0 < rest.length := by
      subst hending
      exact hrest.length_pos
    refine ih ?_ hending
    rw [List.length_cons, List.getElem?_cons, if_neg (by omega)] at hp
    simpa using hp

theorem Makes.stop?_earlier (h : e.Makes it st passes ending st') {k : ℕ} {p : Pass α}
    (hk : k + 1 < passes.length) (hp : passes[k]? = some p) :
    e.decomposition.params.stop? e.clock p.iterate = none := by
  induction h generalizing k with
  | failed _ => simp at hk
  | stopped _ _ => simp at hk
  | next _ hstop _ ih =>
    cases k with
    | zero =>
      obtain rfl := Option.some.inj hp
      exact hstop
    | succ k => exact ih (by simpa using hk) (by simpa using hp)

end Engine

end BinarySplitting
