import BinarySplitting.Proofs.Engine.Trace

/-!
# Passes in sequence

`Engine.Leads e start st passes it st'` says that from the iterate `start` and the state `st` of the
oracles these passes are completed one after another and lead to `it` and `st'`. No stopping test
ends the sequence, so it covers both what a caller does pass by pass and what a run does: a run is
such a sequence in which no pass but the last gives a reason to stop, and it ends there or in a pass
that fails (`Makes.leads_of_stopped`, `Makes.leads_of_failed`).

A sequence grows at its end, where the next pass is made. What a pass keeps is kept by a sequence
(`Leads.invariant`), and its length determines it (`Leads.unique`).
-/

namespace BinarySplitting

variable {α σ : Type} [Scalar α]

namespace Engine

/-- From an iterate and a state, these passes are completed and lead to another iterate. -/
inductive Leads (e : Engine α σ) (start : Iterate α) (st : σ) : List (Pass α) → Iterate α → σ → Prop
  | refl : Leads e start st [] start st
  | snoc {passes : List (Pass α)} {it next : Iterate α} {st₁ st₂ : σ}
      (h : Leads e start st passes it st₁)
      (hpass : e.decomposition.pass e.oracles it st₁ = (.ok next, st₂)) :
      Leads e start st (passes ++ [⟨it.rho, next⟩]) next st₂

variable {e : Engine α σ} {start it next last : Iterate α} {st st₁ st₂ st' : σ}
  {passes passes' : List (Pass α)}

theorem Leads.cons (hpass : e.decomposition.pass e.oracles it st = (.ok next, st₁))
    (h : e.Leads next st₁ passes last st') : e.Leads it st (⟨it.rho, next⟩ :: passes) last st' := by
  induction h with
  | refl => exact .snoc .refl hpass
  | snoc _ hpass' ih => exact .snoc ih hpass'

/-! ## What holds along a sequence -/

theorem Leads.invariant {P : Iterate α → Prop} (h : e.Leads start st passes it st')
    (hkeep : ∀ it next st st', P it → e.decomposition.pass e.oracles it st = (.ok next, st') → P next)
    (hstart : P start) : P it := by
  induction h with
  | refl => exact hstart
  | snoc _ hpass ih => exact hkeep _ _ _ _ ih hpass

theorem Leads.iteration (h : e.Leads start st passes it st') :
    it.iteration = start.iteration + passes.length := by
  induction h with
  | refl => simp
  | snoc _ hpass ih =>
    have hpass' := Decomposition.pass_iteration hpass
    rw [List.length_append, List.length_singleton]
    omega

theorem Leads.last_eq (h : e.Leads start st passes it st') :
    (passes.getLast?.map (·.iterate)).getD start = it := by
  cases h with
  | refl => rfl
  | snoc _ _ => simp

theorem Leads.unique {it' : Iterate α} {st₁' : σ} (h : e.Leads start st passes it st₁)
    (h' : e.Leads start st passes' it' st₁') (hlength : passes.length = passes'.length) :
    passes = passes' ∧ it = it' ∧ st₁ = st₁' := by
  induction h generalizing passes' it' st₁' with
  | refl =>
    cases h' with
    | refl => exact ⟨rfl, rfl, rfl⟩
    | snoc _ _ => simp at hlength
  | snoc _ hpass ih =>
    cases h' with
    | refl => simp at hlength
    | snoc h' hpass' =>
      -- By induction the last pass begins with the same iterate and state, and it has one outcome.
      obtain ⟨rfl, rfl, rfl⟩ := ih h' (by simpa using hlength)
      cases hpass.symm.trans hpass'
      exact ⟨rfl, rfl, rfl⟩

theorem Leads.pass_of_length_lt {it' : Iterate α} {st₁' : σ} (h : e.Leads start st passes it st₁)
    (h' : e.Leads start st passes' it' st₁') (hlength : passes'.length < passes.length) :
    ∃ next st₂, e.decomposition.pass e.oracles it' st₁' = (.ok next, st₂) := by
  induction h with
  | refl => simp at hlength
  | @snoc before _ _ _ _ h hpass ih =>
    rw [List.length_append, List.length_singleton] at hlength
    by_cases hshorter : passes'.length < before.length
    · exact ih hshorter
    · -- Only the last pass is missing from the other sequence.
      obtain ⟨-, rfl, rfl⟩ := h'.unique h (by omega)
      exact ⟨_, _, hpass⟩

/-! ## Runs -/

theorem Leads.makes {rest : List (Pass α)} {ending : Ending α}
    (h : e.Leads start st passes it st₁)
    (hnone : ∀ p ∈ passes, e.decomposition.params.stop? e.clock p.iterate = none)
    (hrest : e.Makes it st₁ rest ending st') : e.Makes start st (passes ++ rest) ending st' := by
  induction h generalizing rest with
  | refl => exact hrest
  | @snoc before it' next _ _ _ hpass ih =>
    have hlast := hnone ⟨it'.rho, next⟩ (by simp)
    rw [List.append_assoc]
    exact ih (fun p hp => hnone p (List.mem_append_left _ hp)) (.next hpass hlast hrest)

theorem Makes.split {ending : Ending α} (h : e.Makes start st passes ending st') {k : ℕ}
    (hk : k < passes.length) : ∃ it st₁, e.Leads start st (passes.take k) it st₁ ∧
      e.Makes it st₁ (passes.drop k) ending st' := by
  induction h generalizing k with
  | failed _ => simp at hk
  | stopped hpass hstop =>
    obtain rfl : k = 0 := by simpa using hk
    exact ⟨_, _, .refl, .stopped hpass hstop⟩
  | next hpass hstop hrest ih =>
    cases k with
    | zero => exact ⟨_, _, .refl, .next hpass hstop hrest⟩
    | succ k =>
      obtain ⟨it, st₁, hleads, hmakes⟩ := ih (k := k) (by simpa using hk)
      exact ⟨it, st₁, .cons hpass hleads, hmakes⟩

theorem Makes.exists_before {ending : Ending α} (h : e.Makes start st passes ending st') {k : ℕ}
    {p : Pass α} (hp : passes[k]? = some p) :
    ∃ it st₁ st₂, e.Leads start st (passes.take k) it st₁ ∧
      e.decomposition.pass e.oracles it st₁ = (.ok p.iterate, st₂) ∧ p.rho = it.rho := by
  obtain ⟨hk, rfl⟩ := List.getElem?_eq_some_iff.1 hp
  obtain ⟨it, st₁, hleads, hmakes⟩ := h.split hk
  rw [List.drop_eq_getElem_cons hk] at hmakes
  generalize passes[k] = p, passes.drop (k + 1) = rest at hmakes
  cases hmakes with
  | stopped hpass _ => exact ⟨it, st₁, _, hleads, hpass, rfl⟩
  | next hpass _ _ => exact ⟨it, st₁, _, hleads, hpass, rfl⟩

/-- A run that fails completes its passes and fails in the next one; none gave a reason to stop. -/
theorem Makes.leads_of_failed {failure : SubproblemFailure α}
    (h : e.Makes start st passes (.failed failure) st') :
    ∃ it st₁, e.Leads start st passes it st₁ ∧
      e.decomposition.pass e.oracles it st₁ = (.error failure, st') ∧
      ∀ p ∈ passes, e.decomposition.params.stop? e.clock p.iterate = none := by
  generalize hending : Ending.failed failure = ending at h
  induction h with
  | failed hpass =>
    cases hending
    exact ⟨_, _, .refl, hpass, by simp⟩
  | stopped _ _ => cases hending
  | next hpass hstop _ ih =>
    obtain ⟨it, st₁, hleads, hfailed, hnone⟩ := ih hending
    refine ⟨it, st₁, .cons hpass hleads, hfailed, ?_⟩
    intro p hp
    rcases List.mem_cons.1 hp with rfl | hp
    · exact hstop
    · exact hnone p hp

theorem Makes.leads_of_stopped {stop : Stop} (h : e.Makes start st passes (.stopped stop) st') :
    ∃ it, e.Leads start st passes it st' := by
  generalize hending : Ending.stopped stop = ending at h
  induction h with
  | failed _ => cases hending
  | stopped hpass _ => exact ⟨_, .cons hpass .refl⟩
  | next hpass _ _ ih =>
    obtain ⟨it, hleads⟩ := ih hending
    exact ⟨it, .cons hpass hleads⟩

end Engine

end BinarySplitting
