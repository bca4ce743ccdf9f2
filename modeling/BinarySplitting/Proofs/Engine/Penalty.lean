import BinarySplitting.Proofs.Engine.Completion
import BinarySplitting.Proofs.Params.Penalty

/-!
# Penalties

A pass uses a penalty, records it and computes the next one from it and its two residuals. So the
penalties of a run are one sequence: the record of each pass decides the penalty of the pass after it,
and that of the last one the final penalty (`Leads.recordsPenalties`). This holds in any arithmetic.

What one step of the sequence keeps, all of it keeps (`RecordsPenalties.induct`), so in exact arithmetic
and with finite limits no penalty leaves them and each policy has its law
(`Engine.solveAt_penalties`).
-/

namespace BinarySplitting

variable {α σ : Type} [Scalar α]

/-! ## The sequence -/

/-- The penalty with which a run begins; one that is supplied is moved between the limits. -/
def Params.firstRho (params : Params α) : Option (Iterate α) → α
  | none => params.rhoInitial
  | some it => Scalar.clamp it.rho params.rhoMin params.rhoMax

/-- The penalties of a result: those of its records and the final one. -/
def Result.penalties (r : Result α) : List α := r.history.records.map (·.rho) ++ [r.finalRho]

/-- The penalties of a result are those of its passes, and each follows from the record before it. -/
structure Engine.RecordsPenalties (e : Engine α σ) (start : Iterate α) (st : σ) (r : Result α) :
    Prop where
  first : r.history.records.head?.map (·.rho) = some start.rho
  next : ∀ k record, r.history.records[k]? = some record →
    r.penalties[k + 1]? = some (record.nextRho e.decomposition.params)
  used : ∀ (passes : List (Pass α)) (it : Iterate α) (st₁ : σ), e.Leads start st passes it st₁ →
    passes.length ≤ r.history.size → r.penalties[passes.length]? = some it.rho

/-- The penalties of a result that begins with `first`: they stay within the limits, and each policy
has its law. -/
structure Result.KeepsPenalties (r : Result α) (params : Params α) (first : α) : Prop where
  within : ∀ rho ∈ r.penalties, params.IsPenalty rho
  fixed : params.policy = .fixed → ∀ rho ∈ r.penalties, rho = first
  grow : params.policy = .grow → ∀ k rho, r.penalties[k]? = some rho → rho = params.grownRho first k
  balancing : params.policy = .residualBalancing → ∀ k record next,
    r.history.records[k]? = some record → r.penalties[k + 1]? = some next →
      params.Balances record next

omit [Scalar α] in
theorem Result.getElem?_penalties {r : Result α} {k : ℕ} {record : Record α}
    (h : r.history.records[k]? = some record) : r.penalties[k]? = some record.rho := by
  have hlt : k < r.history.records.length := (List.getElem?_eq_some_iff.1 h).1
  unfold penalties
  rw [List.getElem?_append_left (by rwa [List.length_map]), List.getElem?_map, h]
  rfl

omit [Scalar α] in
theorem Result.exists_record_of_penalties {r : Result α} {k : ℕ} {rho : α}
    (h : r.penalties[k + 1]? = some rho) : ∃ record, r.history.records[k]? = some record := by
  have hlt : k + 1 < r.penalties.length := (List.getElem?_eq_some_iff.1 h).1
  rw [penalties, List.length_append, List.length_map, List.length_singleton] at hlt
  exact ⟨_, List.getElem?_eq_getElem (Nat.lt_of_succ_lt_succ hlt)⟩

theorem Decomposition.startAt_rho {d : Decomposition α} {start : Iterate α}
    {start? : Option (Iterate α)} (h : d.startAt start? = .ok start) :
    start.rho = d.params.firstRho start? := by
  cases start? with
  | none =>
    obtain rfl := Except.ok.inj h
    rfl
  | some it =>
    obtain ⟨-, x, -, rfl⟩ := normalize_ok h
    rfl

namespace Engine

variable {e : Engine α σ} {start it : Iterate α} {st st' : σ} {passes : List (Pass α)}

/-- The penalties along a sequence of passes: that of the start, then what each record decides. -/
theorem Leads.penalties (h : e.Leads start st passes it st') :
    (passes.map Pass.record).map (·.rho) ++ [it.rho] =
      start.rho :: (passes.map Pass.record).map (·.nextRho e.decomposition.params) := by
  induction h with
  | refl => rfl
  | snoc _ hpass ih =>
    -- The pass that is added records the penalty it began with, so the old final one becomes a record.
    rw [List.map_append, List.map_append, List.map_append, ← List.cons_append, ← ih,
      Decomposition.pass_rho hpass]
    rfl

theorem Leads.getElem?_penalties {passes' : List (Pass α)} {it' : Iterate α} {st₁ : σ}
    (h : e.Leads start st passes it st') (h' : e.Leads start st passes' it' st₁)
    (hlength : passes'.length ≤ passes.length) :
    ((passes.map Pass.record).map (·.rho) ++ [it.rho])[passes'.length]? = some it'.rho := by
  induction h with
  | refl =>
    have hnil : passes'.length = 0 := Nat.le_zero.1 hlength
    obtain ⟨-, rfl, -⟩ := h'.unique .refl hnil
    rw [hnil]
    rfl
  | @snoc before it next _ _ h hpass ih =>
    rw [List.length_append, List.length_singleton] at hlength
    rw [List.map_append, List.map_append]
    by_cases hbefore : passes'.length ≤ before.length
    · rw [List.getElem?_append_left (by simp; omega)]
      exact ih hbefore
    · obtain ⟨rfl, rfl, -⟩ := h'.unique (.snoc h hpass) (by simp; omega)
      simp

theorem Leads.recordsPenalties {run : Run α} {stop : Stop}
    (h : e.Leads run.start st run.passes it st') (hpos : 0 < run.passes.length) :
    e.RecordsPenalties run.start st (run.resultAt e.decomposition stop) := by
  have hrecords : (run.resultAt e.decomposition stop).history.records = run.passes.map Pass.record := rfl
  have hpenalties : (run.resultAt e.decomposition stop).penalties =
      (run.passes.map Pass.record).map (·.rho) ++ [it.rho] := by
    rw [Result.penalties, hrecords]
    exact congrArg (fun last => _ ++ [Iterate.rho last]) h.last_eq
  have hsequence := h.penalties
  refine ⟨?_, ?_, ?_⟩
  · obtain ⟨p, rest, hpasses⟩ := List.exists_cons_of_length_pos hpos
    rw [hpasses] at hsequence
    rw [hrecords, hpasses]
    exact congrArg some (List.cons.inj hsequence).1
  · intro k record hrecord
    rw [hrecords] at hrecord
    rw [hpenalties, hsequence, List.getElem?_cons_succ, List.getElem?_map, hrecord]
    rfl
  · intro passes' it' st₁ h' hlength
    rw [History.size, hrecords, List.length_map] at hlength
    rw [hpenalties]
    exact h.getElem?_penalties h' hlength

/-- What holds of the first penalty and passes from each recorded one to the next holds of all. -/
theorem RecordsPenalties.induct {r : Result α} {P : ℕ → α → Prop} (h : e.RecordsPenalties start st r)
    (hfirst : P 0 start.rho)
    (hnext : ∀ k record, r.history.records[k]? = some record → P k record.rho →
      P (k + 1) (record.nextRho e.decomposition.params)) :
    ∀ k rho, r.penalties[k]? = some rho → P k rho := by
  intro k
  induction k with
  | zero =>
    intro rho hrho
    obtain ⟨record, hrecord, hstart⟩ := Option.map_eq_some_iff.1 h.first
    rw [List.head?_eq_getElem?] at hrecord
    rw [Result.getElem?_penalties hrecord, hstart] at hrho
    exact Option.some.inj hrho ▸ hfirst
  | succ k ih =>
    intro rho hrho
    obtain ⟨record, hrecord⟩ := Result.exists_record_of_penalties hrho
    rw [h.next k record hrecord] at hrho
    exact Option.some.inj hrho ▸ hnext k record hrecord (ih _ (Result.getElem?_penalties hrecord))

/-! ## Exact arithmetic -/

theorem firstRho_isPenalty {params : Params Exact} (L : params.Limits) (h : params.Admissible)
    {start? : Option (Iterate Exact)} (hdefined : ∀ it ∈ start?, Scalar.isUndefined it.rho = false) :
    params.IsPenalty (params.firstRho start?) := by
  apply L.isPenalty_of_within h
  cases start? with
  | none => exact h.rhoInitial_within
  | some it =>
    have hrho := Scalar.isUndefined_eq_false_iff.1 (hdefined it rfl)
    exact Scalar.clamp_within h.rhoMin_le_rhoMax (Scalar.clamp_defined h.rhoMin_le_rhoMax hrho)

theorem RecordsPenalties.keepsPenalties {e : Engine Exact σ} {start : Iterate Exact}
    {r : Result Exact} (hrecords : e.RecordsPenalties start st r) (L : e.decomposition.params.Limits)
    (h : e.decomposition.params.Admissible) (hfirst : e.decomposition.params.IsPenalty start.rho) :
    r.KeepsPenalties e.decomposition.params start.rho := by
  have hwithin : ∀ k rho, r.penalties[k]? = some rho → e.decomposition.params.IsPenalty rho :=
    hrecords.induct hfirst fun k record _ hrho => L.nextRho_within h hrho
  refine ⟨?_, ?_, ?_, ?_⟩
  · intro rho hrho
    obtain ⟨k, hk⟩ := List.mem_iff_getElem?.1 hrho
    exact hwithin k rho hk
  · intro hpolicy rho hrho
    have hequal : ∀ k rho, r.penalties[k]? = some rho → rho = start.rho :=
      hrecords.induct rfl fun k record hrecord hrho =>
        (Record.nextRho_fixed hpolicy (hwithin k _ (Result.getElem?_penalties hrecord))).trans hrho
    obtain ⟨k, hk⟩ := List.mem_iff_getElem?.1 hrho
    exact hequal k rho hk
  · intro hpolicy
    refine hrecords.induct (L.grownRho_zero hfirst).symm ?_
    intro k record _ hrho
    exact L.nextRho_grown h hpolicy hfirst hrho
  · intro hpolicy k record next hrecord hnext
    rw [hrecords.next k record hrecord] at hnext
    obtain rfl := Option.some.inj hnext
    exact L.nextRho_balances h hpolicy (hwithin k _ (Result.getElem?_penalties hrecord))

/-- **The penalties of a solve in exact arithmetic with finite limits.** -/
theorem solveAt_penalties {e : Engine Exact σ} {kernels : Kernels Exact} {p : Problem Exact}
    {params : Params Exact} {start? : Option (Iterate Exact)} {r : Result Exact} {st st' : σ}
    (hcreate : Decomposition.create kernels p params = .ok e.decomposition)
    (hmax : Scalar.isFinite params.rhoMax = true) (hsolve : e.solveAt start? st = (.ok r, st')) :
    ∃ start, e.decomposition.startAt start? = .ok start ∧ start.rho = params.firstRho start? ∧
      e.RecordsPenalties start st r ∧
      ((∀ it ∈ start?, Scalar.isUndefined it.rho = false) → r.KeepsPenalties params start.rho) := by
  obtain ⟨-, hparams, -, hvalid⟩ := Decomposition.create_ok hcreate
  rw [← hparams] at hmax ⊢
  have hadmissible := Params.validate_ok_iff.1 hvalid
  obtain ⟨run, stop, hrun, hending, rfl⟩ := solveAt_ok hsolve
  obtain ⟨hstart, hmakes⟩ := runAt_makes hvalid hrun
  rw [hending] at hmakes
  obtain ⟨it, hleads⟩ := hmakes.leads_of_stopped
  have hrecords : e.RecordsPenalties run.start st (run.resultAt e.decomposition stop) :=
    hleads.recordsPenalties hmakes.length_pos
  have hfirst := Decomposition.startAt_rho hstart
  refine ⟨run.start, hstart, hfirst, hrecords, fun hdefined => ?_⟩
  obtain ⟨L⟩ := hadmissible.exists_limits hmax
  exact hrecords.keepsPenalties L hadmissible (hfirst ▸ firstRho_isPenalty L hadmissible hdefined)

/-- The growing penalty of a run from the standard start, with an oracle that always answers one. -/
theorem solveAt_penalties_alwaysOne :
    let e := alwaysOne
    let params : Params Exact := .standard
    Decomposition.create .standard e.decomposition.problem params = .ok e.decomposition ∧
    Scalar.isFinite params.rhoMax = true ∧
    ∃ r st' start, e.solveAt none () = (.ok r, st') ∧ e.decomposition.startAt none = .ok start ∧
      start.rho = params.rhoInitial ∧ e.RecordsPenalties start () r ∧
      ∀ k rho, r.penalties[k]? = some rho → rho = params.grownRho start.rho k := by
  intro e params
  have hmax : Scalar.isFinite params.rhoMax = true := Exact.isFinite_iff.2 ⟨_, rfl⟩
  have hvalid : e.decomposition.params.validate = .ok () := by
    rw [alwaysOne_params]
    exact Params.standard_validate
  have haccept : e.decomposition.startAt none = .ok e.decomposition.initial := rfl
  obtain ⟨r, st', hsolve⟩ := alwaysOne_neverFails.exists_result hvalid haccept ()
  obtain ⟨start, hstart, hfirst, hrecords, hkeeps⟩ := solveAt_penalties alwaysOne_create hmax hsolve
  have hgrow := (hkeeps fun it hit => (Option.not_mem_none it hit).elim).grow rfl
  exact ⟨alwaysOne_create, hmax, r, st', start, hsolve, hstart, hfirst, hrecords, hgrow⟩

end Engine

end BinarySplitting
