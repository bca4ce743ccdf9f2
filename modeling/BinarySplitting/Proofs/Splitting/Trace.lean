import BinarySplitting.Splitting.Solver

/-!
# Iterations in sequence

`Loop.Leads … start k l` says that from `start` the first `k` iterations are made without ending and
lead to `l`: an iteration moves the point, and the checked ones pass their check. The run of the
solver is such a sequence followed by its end, which is the limit of iterations or a check that does
not pass (`Loop.Ends`, `Loop.run_ends`). What a check finds is in `Loop.check_ok` and
`Loop.check_error`; no proof about a run opens the check again.
-/

namespace BinarySplitting.Splitting

variable {α : Type} [Scalar α]

def Loop.moved (s : System α) (settings : Settings α) (l : Loop α) : Loop α :=
  { l with point := l.point.next s settings l.solver l.rho }

/-- With the residuals of the present point. -/
def Loop.measured (s : System α) (l : Loop α) : Loop α :=
  { l with primal := (l.point.residuals s).primal, dual := (l.point.residuals s).dual }

theorem Loop.of_measured {s : System α} {l l' : Loop α} (h : l' = l.measured s) :
    l'.point = l.point ∧ l'.primal = (l'.point.residuals s).primal ∧
      l'.dual = (l'.point.residuals s).dual := by
  subst h
  exact ⟨rfl, rfl, rfl⟩

section check

variable {factor : Mat α → Option (LinearSolver α)} {s : System α} {settings : Settings α} {elapsed : α}
  {r : Residuals α} {l l' : Loop α} {ending : Ending}

theorem Loop.adapt?_some (h : l.adapt? factor s settings r = some l') :
    l' = l ∨ settings.adaptive = true ∧ settings.changes l.rho (r.stepSize settings l.rho) = true ∧
      ∃ solver, factor (s.matrix settings (r.stepSize settings l.rho)) = some solver ∧
        l' = { l with rho := r.stepSize settings l.rho, solver } := by
  unfold adapt? at h
  dsimp only at h
  split at h
  · next hchanges =>
    obtain ⟨solver, hsolver, rfl⟩ := Option.map_eq_some_iff.1 h
    rw [Bool.and_eq_true] at hchanges
    exact Or.inr ⟨hchanges.1, hchanges.2, solver, hsolver, rfl⟩
  · exact Or.inl (Option.some.inj h).symm

theorem Loop.check_ok (h : l.check factor s settings elapsed = .ok l') :
    (l.measured s).adapt? factor s settings (l.point.residuals s) = some l' := by
  unfold check at h
  split at h
  · cases h
  split at h
  · cases h
  dsimp only at h
  split at h
  · cases h
  split at h
  · cases h
  · next hadapt =>
    cases h
    exact hadapt

theorem Loop.check_point (h : l.check factor s settings elapsed = .ok l') : l'.point = l.point := by
  obtain rfl | ⟨-, -, solver, -, rfl⟩ := adapt?_some (check_ok h)
  · rfl
  · rfl

theorem Loop.check_error (h : l.check factor s settings elapsed = .error (ending, l')) :
    (ending = .timeLimit ∧ l' = l) ∨
      (ending = .certificate ∧ l' = l ∧
        s.constraints.isInfeasibleAlong l.point.dy settings.infeasibility = true) ∨
      (ending = .converged ∧ l' = l.measured s ∧ (l.point.residuals s).areSmall settings = true) ∨
      (ending = .refactorization ∧ l' = l.measured s) := by
  unfold check at h
  split at h
  · cases h
    exact Or.inl ⟨rfl, rfl⟩
  split at h
  · next hcertificate =>
    cases h
    exact Or.inr (Or.inl ⟨rfl, rfl, hcertificate⟩)
  dsimp only at h
  split at h
  · next hsmall =>
    cases h
    exact Or.inr (Or.inr (Or.inl ⟨rfl, rfl, hsmall⟩))
  split at h
  · cases h
    exact Or.inr (Or.inr (Or.inr ⟨rfl, rfl⟩))
  · cases h

theorem Loop.check_error_kept (h : l.check factor s settings elapsed = .error (ending, l')) :
    l'.point = l.point ∧ l'.rho = l.rho := by
  obtain ⟨-, rfl⟩ | ⟨-, rfl, -⟩ | ⟨-, rfl, -⟩ | ⟨-, rfl⟩ := check_error h
  · exact ⟨rfl, rfl⟩
  · exact ⟨rfl, rfl⟩
  · exact ⟨rfl, rfl⟩
  · exact ⟨rfl, rfl⟩

end check

section run

variable (factor : Mat α → Option (LinearSolver α)) (clock : Nat → α) (s : System α)
  (settings : Settings α)

/-- From a loop, the first iterations are made without ending and lead to another loop. -/
inductive Loop.Leads (start : Loop α) : Nat → Loop α → Prop
  | refl : Leads start 0 start
  | unchecked {k : Nat} {l : Loop α} (h : Leads start k l) (hskip : settings.isChecked k = false) :
      Leads start (k + 1) (l.moved s settings)
  | checked {k : Nat} {l next : Loop α} (h : Leads start k l) (hchecked : settings.isChecked k = true)
      (hcheck : (l.moved s settings).check factor s settings (clock k) = .ok next) :
      Leads start (k + 1) next

/-- From a loop, a run ends so within a number of iterations. -/
inductive Loop.Ends (start : Loop α) (n : Nat) : Outcome α → Prop
  | exhausted {l : Loop α} (h : Leads factor clock s settings start n l) :
      Ends start n ⟨.exhausted, n, l⟩
  | stopped {k : Nat} {l l' : Loop α} {ending : Ending} (h : Leads factor clock s settings start k l)
      (hlt : k < n) (hchecked : settings.isChecked k = true)
      (hcheck : (l.moved s settings).check factor s settings (clock k) = .error (ending, l')) :
      Ends start n ⟨ending, k, l'⟩

variable {factor clock s settings} {start l : Loop α} {k fuel : Nat}

theorem Loop.run_ends (h : Leads factor clock s settings start k l) :
    Ends factor clock s settings start (k + fuel) (l.run factor clock s settings fuel k) := by
  induction fuel generalizing k l with
  | zero => exact .exhausted h
  | succ fuel ih =>
    have hcount : k + (fuel + 1) = k + 1 + fuel := by omega
    rw [run, hcount]
    split
    · next hchecked =>
      split
      · next hcheck => exact .stopped h (by omega) hchecked hcheck
      · next hcheck => exact ih (.checked h hchecked hcheck)
    · next hskip => exact ih (.unchecked h (Bool.eq_false_iff.2 hskip))

theorem Loop.run_of_check {ending : Ending} {l' : Loop α} (hchecked : settings.isChecked k = true)
    (hcheck : (l.moved s settings).check factor s settings (clock k) = .error (ending, l')) :
    l.run factor clock s settings (fuel + 1) k = ⟨ending, k, l'⟩ := by
  unfold moved at hcheck
  rw [run, if_pos hchecked, hcheck]

theorem Solver.iterate?_ends {kernels : Kernels α} {solver : Solver α} {o : Outcome α}
    (h : solver.iterate? kernels clock s = some o) :
    ∃ start, Loop.start? kernels.symmetric? s solver.settings = some start ∧
      Loop.Ends kernels.symmetric? clock s solver.settings start solver.settings.iterations o := by
  obtain ⟨start, hstart, rfl⟩ := Option.map_eq_some_iff.1 h
  have hends : Loop.Ends kernels.symmetric? clock s solver.settings start
      (0 + solver.settings.iterations)
      (start.run kernels.symmetric? clock s solver.settings solver.settings.iterations 0) :=
    Loop.run_ends .refl
  rw [Nat.zero_add] at hends
  exact ⟨start, hstart, hends⟩

end run

/-! ## Answers -/

section answers

variable {kernels : Kernels α} {clock : Nat → α} {solver : Solver α} {p : Program α}
  {failure : Failure α}

theorem Solver.solve_cases (kernels : Kernels α) (clock : Nat → α) (solver : Solver α) (p : Program α) :
    (∃ f, check p = .error f ∧ solver.solve kernels clock p = ⟨.none, .error f⟩) ∨
      (check p = .ok () ∧ p.dimension = 0 ∧
        solver.solve kernels clock p =
          ⟨{ Info.none with converged := true }, .ok ⟨Vec.empty, p.constant⟩⟩) ∨
      (check p = .ok () ∧ 0 < p.dimension ∧ ∃ i, (System.ofProgram p).constraints.crossed? = some i ∧
        solver.solve kernels clock p = ⟨.none, .error (.crossedBounds i)⟩) ∨
      (check p = .ok () ∧ 0 < p.dimension ∧ (System.ofProgram p).constraints.crossed? = none ∧
        ((solver.iterate? kernels clock (System.ofProgram p) = none ∧
            solver.solve kernels clock p = ⟨.none, .error .factorization⟩) ∨
          ∃ o, solver.iterate? kernels clock (System.ofProgram p) = some o ∧
            solver.solve kernels clock p =
              o.answer kernels.general (System.ofProgram p) solver.settings)) := by
  unfold solve
  split
  · next f hcheck => exact Or.inl ⟨f, hcheck, rfl⟩
  next hcheck =>
  split
  · next hzero => exact Or.inr (Or.inl ⟨hcheck, hzero, rfl⟩)
  next hpos =>
  dsimp only
  split
  · next i hcrossed => exact Or.inr (Or.inr (Or.inl ⟨hcheck, Nat.pos_of_ne_zero hpos, i, hcrossed, rfl⟩))
  next hcrossed =>
  refine Or.inr (Or.inr (Or.inr ⟨hcheck, Nat.pos_of_ne_zero hpos, hcrossed, ?_⟩))
  split
  · next hnone => exact Or.inl ⟨hnone, rfl⟩
  · next o hsome => exact Or.inr ⟨o, hsome, rfl⟩

theorem check_kind (h : check p = .error failure) : failure.kind = .failed := by
  unfold check at h
  dsimp only at h
  repeat' split at h
  all_goals cases h
  all_goals rfl

/-- The parts of the program do not fit together, are not finite or have bounds that cross. -/
def Failure.isOfData : Failure α → Bool
  | .quadraticShape _ _ _ | .boundSizes _ | .rowShapes _ | .notFinite | .crossedBounds _ => true
  | _ => false

theorem Outcome.answer_isOfData {general : Mat α → LinearSolver α} {s : System α} {settings : Settings α}
    {o : Outcome α} (h : (o.answer general s settings).result = .error failure) : failure.isOfData = false := by
  obtain ⟨ending, iteration, l⟩ := o
  cases ending with
  | certificate => cases h; rfl
  | timeLimit => cases h; rfl
  | refactorization => cases h; rfl
  | converged =>
    simp only [answer, finish] at h
    split at h
    · cases h
    · simp at h
  | exhausted =>
    simp only [answer, finish] at h
    split at h
    · cases h
    · cases h; rfl

/-- A program that passes the check and whose bounds do not cross is never refused for its data. -/
theorem Solver.solve_isOfData (hcheck : check p = .ok ())
    (hcrossed : (System.ofProgram p).constraints.crossed? = none)
    (h : (solver.solve kernels clock p).result = .error failure) : failure.isOfData = false := by
  obtain ⟨f, hrefused, -⟩ | ⟨-, -, hsolve⟩ | ⟨-, -, i, hcrosses, -⟩ | ⟨-, -, -, ⟨-, hsolve⟩ | ⟨o, -, hsolve⟩⟩ :=
    solver.solve_cases kernels clock p
  · cases hcheck.symm.trans hrefused
  · rw [hsolve] at h
    cases h
  · cases hcrossed.symm.trans hcrosses
  · rw [hsolve] at h
    cases h
    rfl
  · rw [hsolve] at h
    exact Outcome.answer_isOfData h

theorem Outcome.answer_infeasible {general : Mat α → LinearSolver α} {s : System α}
    {settings : Settings α} {o : Outcome α} (h : (o.answer general s settings).result = .error failure)
    (hkind : failure.kind = .infeasible) : o.ending = .certificate := by
  obtain ⟨ending, iteration, l⟩ := o
  cases ending with
  | certificate => rfl
  | timeLimit => cases h; cases hkind
  | refactorization => cases h; cases hkind
  | converged =>
    simp only [answer, finish] at h
    split at h
    · cases h
    · simp at h
  | exhausted =>
    simp only [answer, finish] at h
    split at h
    · cases h
    · cases h; cases hkind

theorem Outcome.answer_unpolished {general : Mat α → LinearSolver α} {s : System α}
    {settings : Settings α} {o : Outcome α} {solution : Solution α}
    (h : (o.answer general s settings).result = .ok solution)
    (hpolished : (o.answer general s settings).info.polished = false) :
    o.ending = .converged ∧ solution = ⟨o.loop.point.w, s.program.objective o.loop.point.w⟩ ∧
      (o.answer general s settings).info.primal = o.loop.primal ∧
      (o.answer general s settings).info.dual = o.loop.dual := by
  obtain ⟨ending, iteration, l⟩ := o
  cases ending with
  | certificate => cases h
  | timeLimit => cases h
  | refactorization => cases h
  | converged =>
    refine ⟨rfl, ?_, rfl, rfl⟩
    simp only [answer, finish] at h hpolished
    rw [Option.isSome_eq_false_iff, Option.isNone_iff_eq_none] at hpolished
    rw [hpolished] at h
    simpa using h.symm
  | exhausted =>
    simp only [answer, finish] at h hpolished
    rw [Option.isSome_eq_false_iff, Option.isNone_iff_eq_none] at hpolished
    rw [hpolished] at h
    simp at h

theorem Outcome.answer_polished {general : Mat α → LinearSolver α} {s : System α}
    {settings : Settings α} {o : Outcome α} (h : (o.answer general s settings).info.polished = true) :
    ∃ refined, (o.loop.point.activeSet s.constraints).polish? general s settings = some refined ∧
      (o.answer general s settings).result = .ok ⟨refined.w, s.program.objective refined.w⟩ := by
  have hfinish : o.answer general s settings = o.finish general s settings := by
    obtain ⟨ending, iteration, l⟩ := o
    cases ending with
    | converged => rfl
    | exhausted => rfl
    | certificate => cases h
    | timeLimit => cases h
    | refactorization => cases h
  rw [hfinish] at h ⊢
  simp only [finish] at h ⊢
  obtain ⟨refined, hrefined⟩ := Option.isSome_iff_exists.1 h
  rw [hrefined]
  split at hrefined
  · exact ⟨refined, hrefined, rfl⟩
  · cases hrefined

theorem Solver.solve_infeasible (h : (solver.solve kernels clock p).result = .error failure)
    (hkind : failure.kind = .infeasible) :
    check p = .ok () ∧ 0 < p.dimension ∧
      ((∃ i, (System.ofProgram p).constraints.crossed? = some i) ∨
        ∃ y, (System.ofProgram p).constraints.isInfeasibleAlong y solver.settings.infeasibility = true) := by
  obtain ⟨f, hcheck, hsolve⟩ | ⟨-, -, hsolve⟩ | ⟨hcheck, hpos, i, hcrossed, -⟩ |
    ⟨hcheck, hpos, -, ⟨-, hsolve⟩ | ⟨o, ho, hsolve⟩⟩ := solver.solve_cases kernels clock p
  · rw [hsolve] at h
    cases h
    rw [check_kind hcheck] at hkind
    cases hkind
  · rw [hsolve] at h
    cases h
  · exact ⟨hcheck, hpos, Or.inl ⟨i, hcrossed⟩⟩
  · rw [hsolve] at h
    cases h
    cases hkind
  · rw [hsolve] at h
    have hending := Outcome.answer_infeasible h hkind
    obtain ⟨start, -, hends⟩ := iterate?_ends ho
    refine ⟨hcheck, hpos, Or.inr ?_⟩
    cases hends with
    | exhausted h => cases hending
    | @stopped k l l' ending h hlt hchecked hcheck =>
      obtain ⟨hend, -⟩ | ⟨-, -, hcertificate⟩ | ⟨hend, -⟩ | ⟨hend, -⟩ := Loop.check_error hcheck
      · cases hend.symm.trans hending
      · exact ⟨_, hcertificate⟩
      · cases hend.symm.trans hending
      · cases hend.symm.trans hending

end answers

end BinarySplitting.Splitting
