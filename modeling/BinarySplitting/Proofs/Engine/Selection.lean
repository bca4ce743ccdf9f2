import Mathlib.Data.List.Induction
import BinarySplitting.Proofs.Engine.History

/-!
# Which pass is returned

A converged run returns its last pass. Any other returns the first of the passes whose pair of
primal residual and merit is lexicographically least (`IsFirstBest`): the fold that keeps the
preferred iterate does so after every pass (`exists_bestIterate`), because two records without
undefined values always compare. The result then restates what the record of that pass says
(`Engine.solveAt_selects`).
-/

namespace BinarySplitting

variable {α σ : Type} [Scalar α]

/-! ## Comparing records -/

namespace Record

/-- The primal residual and the merit are defined. -/
def IsDefined (r : Record α) : Prop :=
  Scalar.isUndefined r.primal = false ∧ Scalar.isUndefined r.merit = false

instance (r : Record α) : Decidable r.IsDefined := inferInstanceAs (Decidable (_ ∧ _))

/-- Lexicographically less in primal residual and merit. -/
def Better (a b : Record α) : Prop :=
  a.primal < b.primal ∨ Scalar.same a.primal b.primal = true ∧ a.merit < b.merit

/-- Lexicographically at most in primal residual and merit. -/
def NoWorse (a b : Record α) : Prop :=
  a.primal < b.primal ∨ Scalar.same a.primal b.primal = true ∧ a.merit ≤ b.merit

variable {a b c : Record α}

theorem NoWorse.refl (ha : a.IsDefined) : a.NoWorse a := by
  have hprimal := Scalar.isUndefined_eq_false_iff.1 ha.1
  exact Or.inr ⟨Scalar.same_iff.2 ⟨hprimal, hprimal⟩, Scalar.isUndefined_eq_false_iff.1 ha.2⟩

variable [OrderedScalar α]

theorem Better.noWorse (h : a.Better b) : a.NoWorse b := by
  rcases h with hprimal | ⟨hsame, hmerit⟩
  · exact Or.inl hprimal
  · exact Or.inr ⟨hsame, OrderedScalar.le_of_lt hmerit⟩

theorem Better.trans_noWorse (hab : a.Better b) (hbc : b.NoWorse c) : a.Better c := by
  rcases hab with hab | ⟨hab, hmerit⟩
  · rcases hbc with hbc | ⟨hbc, -⟩
    · exact Or.inl (OrderedScalar.lt_of_lt_of_le hab (OrderedScalar.le_of_lt hbc))
    · exact Or.inl (OrderedScalar.lt_of_lt_of_le hab (Scalar.same_iff.1 hbc).1)
  · rcases hbc with hbc | ⟨hbc, hmerit'⟩
    · exact Or.inl (OrderedScalar.lt_of_le_of_lt (Scalar.same_iff.1 hab).1 hbc)
    · exact Or.inr ⟨Scalar.same_trans hab hbc, OrderedScalar.lt_of_lt_of_le hmerit hmerit'⟩

theorem noWorse_of_not_better (ha : a.IsDefined) (hb : b.IsDefined) (h : ¬ b.Better a) :
    a.NoWorse b := by
  have hpa := Scalar.isUndefined_eq_false_iff.1 ha.1
  have hpb := Scalar.isUndefined_eq_false_iff.1 hb.1
  rcases OrderedScalar.lt_or_le hpa hpb with hlt | hba
  · exact Or.inl hlt
  · have hab : a.primal ≤ b.primal := by
      rcases OrderedScalar.lt_or_le hpb hpa with hlt | hab
      · exact absurd (Or.inl hlt) h
      · exact hab
    refine Or.inr ⟨Scalar.same_iff.2 ⟨hab, hba⟩, ?_⟩
    rcases OrderedScalar.lt_or_le (Scalar.isUndefined_eq_false_iff.1 hb.2)
      (Scalar.isUndefined_eq_false_iff.1 ha.2) with hlt | hle
    · exact absurd (Or.inr ⟨Scalar.same_iff.2 ⟨hba, hab⟩, hlt⟩) h
    · exact hle

theorem NoWorse.primal_le (h : a.NoWorse b) : a.primal ≤ b.primal := by
  rcases h with hlt | ⟨hsame, -⟩
  · exact OrderedScalar.le_of_lt hlt
  · exact (Scalar.same_iff.1 hsame).1

end Record

theorem Pass.isBetter_iff {p q : Pass α} :
    p.iterate.measures.isBetter q.iterate.measures = true ↔ p.record.Better q.record := by
  simp [Measures.isBetter, Record.Better, Pass.record]

/-! ## The first of the best records -/

/-- A record is no worse than any other and better than those before it. -/
structure IsFirstBest (records : List (Record α)) (k : ℕ) (r : Record α) : Prop where
  getElem? : records[k]? = some r
  least : ∀ other ∈ records, r.NoWorse other
  first : ∀ (j : ℕ) (other : Record α), j < k → records[j]? = some other → r.Better other

section snoc

variable [OrderedScalar α] {records : List (Record α)} {k : ℕ} {r new : Record α}

theorem IsFirstBest.append_better (h : IsFirstBest records k r) (hnew : new.IsDefined)
    (hbetter : new.Better r) : IsFirstBest (records ++ [new]) records.length new := by
  refine ⟨by simp, ?_, ?_⟩
  · intro other hother
    rcases List.mem_append.1 hother with hold | hlast
    · exact (hbetter.trans_noWorse (h.least other hold)).noWorse
    · rw [List.mem_singleton.1 hlast]
      exact .refl hnew
  · intro j other hj hother
    rw [List.getElem?_append_left hj] at hother
    exact hbetter.trans_noWorse (h.least other (List.mem_of_getElem? hother))

theorem IsFirstBest.append_other (h : IsFirstBest records k r) (hr : r.IsDefined)
    (hnew : new.IsDefined) (hbetter : ¬ new.Better r) : IsFirstBest (records ++ [new]) k r := by
  have hk : k < records.length := (List.getElem?_eq_some_iff.1 h.getElem?).1
  refine ⟨?_, ?_, ?_⟩
  · rw [List.getElem?_append_left hk]
    exact h.getElem?
  · intro other hother
    rcases List.mem_append.1 hother with hold | hlast
    · exact h.least other hold
    · rw [List.mem_singleton.1 hlast]
      exact Record.noWorse_of_not_better hr hnew hbetter
  · intro j other hj hother
    rw [List.getElem?_append_left (by omega)] at hother
    exact h.first j other hj hother

omit [OrderedScalar α] in
theorem bestIterate_append_singleton (first : Iterate α) (passes : List (Pass α)) (p : Pass α) :
    bestIterate first (passes ++ [p]) =
      if p.iterate.measures.isBetter (bestIterate first passes).measures then p.iterate
      else bestIterate first passes := by
  unfold bestIterate
  rw [List.foldl_append]
  rfl

/-- The preferred iterate is that of the first best pass, by induction on the passes from the last
one on. -/
theorem exists_bestIterate (p : Pass α) (rest : List (Pass α))
    (hdefined : ∀ q ∈ p :: rest, q.record.IsDefined) :
    ∃ k q, (p :: rest)[k]? = some q ∧ bestIterate p.iterate rest = q.iterate ∧
      IsFirstBest ((p :: rest).map Pass.record) k q.record := by
  induction rest using List.reverseRecOn with
  | nil =>
    have hp := hdefined p (by simp)
    refine ⟨0, p, rfl, rfl, rfl, ?_, ?_⟩
    · simpa using Record.NoWorse.refl hp
    · omega
  | append_singleton rest new ih =>
    have hold : ∀ q ∈ p :: rest, q.record.IsDefined := by
      intro q hq
      refine hdefined q ?_
      rw [← List.cons_append]
      exact List.mem_append_left _ hq
    have hnew : new.record.IsDefined := hdefined new (by simp)
    obtain ⟨k, q, hq, hbest, hfirst⟩ := ih hold
    have hqdefined := hold q (List.mem_of_getElem? hq)
    rw [bestIterate_append_singleton, hbest, ← List.cons_append, List.map_append]
    by_cases hbetter : new.record.Better q.record
    · rw [if_pos (Pass.isBetter_iff.2 hbetter)]
      refine ⟨((p :: rest).map Pass.record).length, new, by simp, rfl, ?_⟩
      exact hfirst.append_better hnew hbetter
    · rw [if_neg (mt Pass.isBetter_iff.1 hbetter)]
      refine ⟨k, q, ?_, rfl, hfirst.append_other hqdefined hnew hbetter⟩
      rw [List.getElem?_append_left (List.getElem?_eq_some_iff.1 hq).1]
      exact hq

end snoc

/-! ## The least primal residual -/

theorem foldl_smaller_spec [OrderedScalar α] (values : List α) {first : α} (hfirst : first ≤ first) :
    values.foldl Scalar.smaller first ≤ first ∧
    (∀ a ∈ values, a ≤ a → values.foldl Scalar.smaller first ≤ a) ∧
    (values.foldl Scalar.smaller first = first ∨ values.foldl Scalar.smaller first ∈ values) := by
  induction values generalizing first with
  | nil => simpa using hfirst
  | cons b rest ih =>
    rw [List.foldl_cons]
    have hsmaller : Scalar.smaller first b ≤ first ∧ (b ≤ b → Scalar.smaller first b ≤ b) ∧
        (Scalar.smaller first b = first ∨ Scalar.smaller first b = b) := by
      unfold Scalar.smaller
      by_cases hlt : b < first
      · rw [if_pos hlt]
        exact ⟨OrderedScalar.le_of_lt hlt, id, Or.inr rfl⟩
      · rw [if_neg hlt]
        refine ⟨hfirst, fun hb => ?_, Or.inl rfl⟩
        exact (OrderedScalar.lt_or_le hb hfirst).resolve_left hlt
    obtain ⟨hle, hleb, hone⟩ := hsmaller
    obtain ⟨hrest, hleast, hmem⟩ := ih (OrderedScalar.refl_of_le _ _ hle).1
    refine ⟨OrderedScalar.trans _ _ _ hrest hle, ?_, ?_⟩
    · intro a ha hdefined
      rcases List.mem_cons.1 ha with rfl | ha
      · exact OrderedScalar.trans _ _ _ hrest (hleb hdefined)
      · exact hleast a ha hdefined
    · rcases hmem with heq | hmem
      · rcases hone with hone | hone
        · exact Or.inl (heq.trans hone)
        · rw [heq, hone]
          exact Or.inr List.mem_cons_self
      · exact Or.inr (List.mem_cons_of_mem _ hmem)

theorem IsFirstBest.same_best [OrderedScalar α] {h : History α} {k : ℕ} {r : Record α}
    (hbest : IsFirstBest h.records k r) : Scalar.same r.primal h.best = true := by
  have hmem := List.mem_of_getElem? hbest.getElem?
  have hdefined : r.primal ≤ r.primal := (hbest.least r hmem).primal_le
  have hinfinity : r.primal ≤ Scalar.infinity := OrderedScalar.le_infinity _ hdefined
  obtain ⟨-, hleast, hone⟩ :=
    foldl_smaller_spec h.primals (OrderedScalar.refl_of_le _ _ hinfinity).2
  refine Scalar.same_iff.2 ⟨?_, hleast _ (List.mem_map_of_mem hmem) hdefined⟩
  rcases hone with hone | hone
  · unfold History.best
    rw [hone]
    exact hinfinity
  · obtain ⟨other, hother, heq⟩ := List.mem_map.1 hone
    unfold History.best
    rw [← heq]
    exact (hbest.least other hother).primal_le

/-! ## Runs -/

theorem Run.exists_best [OrderedScalar α] {run : Run α} (hpos : 0 < run.passes.length)
    (hdefined : ∀ r ∈ run.history.records, r.IsDefined) :
    ∃ k q, run.passes[k]? = some q ∧ run.best = q.iterate ∧
      IsFirstBest run.history.records k q.record := by
  rcases hpasses : run.passes with _ | ⟨p, rest⟩
  · rw [hpasses] at hpos
    exact absurd hpos (by simp)
  · have hrecords : run.history.records = (p :: rest).map Pass.record := by
      rw [Run.history, hpasses]
    have hall : ∀ q ∈ p :: rest, q.record.IsDefined := fun q hq =>
      hdefined _ (hrecords ▸ List.mem_map_of_mem hq)
    obtain ⟨k, q, hq, hbest, hfirst⟩ := exists_bestIterate p rest hall
    refine ⟨k, q, hq, ?_, hrecords ▸ hfirst⟩
    rw [← hbest, Run.best, hpasses]

/-- A result restates an iterate and its record. -/
structure Result.IsOf (params : Params α) (r : Result α) (it : Iterate α) (record : Record α) :
    Prop where
  x : r.x = it.x
  u : r.u = it.u
  objective : r.objective = record.objective
  violation : r.violation = record.violation
  feasible : r.feasible = true ↔ record.violation ≤ params.feasibilityTolerance
  solution : r.solution = r.x ++ r.u

namespace Engine

variable {e : Engine α σ} {it : Iterate α} {st st' : σ} {passes : List (Pass α)} {ending : Ending α}

/-- What a result says of the iterate it is made from is what the record of the pass says. -/
theorem Makes.isOf {run : Run α} {stop : Stop} (h : e.Makes run.start st run.passes ending st')
    (hu : run.start.u.size = e.decomposition.problem.numContinuous) {p : Pass α} (hp : p ∈ run.passes)
    (hselected : run.selected stop = p.iterate) :
    (run.resultAt e.decomposition stop).IsOf e.decomposition.params p.iterate p.record := by
  obtain ⟨before, st₁, st₂, hpass⟩ := h.exists_pass p hp
  have hobjective := Decomposition.pass_objective hpass
  have hviolation := Decomposition.pass_violation hpass
  have hsize : p.iterate.u.size = e.decomposition.problem.numContinuous :=
    h.forall_passes (fun _ _ _ _ hit hpass => Decomposition.pass_size_u hit hpass) hu p hp
  unfold Run.resultAt
  rw [hselected]
  refine ⟨rfl, rfl, hobjective.symm, hviolation.symm, ?_, ?_⟩
  · rw [show p.record.violation = p.iterate.measures.violation from rfl, hviolation]
    exact decide_eq_true_iff
  · show (if _ then _ else _) = _
    split
    · next hl => exact (Vec.append_of_size_zero_right _ (hsize.trans hl)).symm
    · rfl

/-- **A result is that of its last pass or of its first best pass**: of the last one if the run
converged, else of the first one whose primal residual and merit are lexicographically least. -/
theorem solveAt_selects [OrderedScalar α] {kernels : Kernels α} {p : Problem α} {params : Params α}
    {start? : Option (Iterate α)} {r : Result α}
    (hcreate : Decomposition.create kernels p params = .ok e.decomposition)
    (hdefined : ∀ record ∈ r.history.records, record.IsDefined)
    (hsolve : e.solveAt start? st = (.ok r, st')) :
    ∃ run k pass record, e.runAt start? st = (.ok run, st') ∧ run.passes[k]? = some pass ∧
      r.history.records[k]? = some record ∧ r.IsOf params pass.iterate record ∧
      (r.stop = .converged → k + 1 = run.passes.length ∧ k + 1 = r.history.size) ∧
      (r.stop ≠ .converged → IsFirstBest r.history.records k record ∧
        Scalar.same record.primal r.history.best = true) := by
  obtain ⟨haccepted, hvalid, hd⟩ := Decomposition.create_eq_ok_iff.1 hcreate
  have hparams : e.decomposition.params = params := by rw [hd, Decomposition.ofProblem_params]
  have hproblem : e.decomposition.problem = p := by rw [hd, Decomposition.ofProblem_problem]
  rw [← hparams] at hvalid ⊢
  rw [← hproblem] at haccepted
  obtain ⟨run, stop, hrun, hending, rfl⟩ := solveAt_ok hsolve
  obtain ⟨hstart, hmakes⟩ := runAt_makes hvalid hrun
  rw [hending] at hmakes
  have hu := Decomposition.startAt_size_u haccepted hstart
  have hpos := hmakes.length_pos
  have hrecord : ∀ {k : ℕ} {pass : Pass α}, run.passes[k]? = some pass →
      run.history.records[k]? = some pass.record := fun hk => by
    rw [Run.history, List.getElem?_map, hk, Option.map_some]
  have hsize : (run.resultAt e.decomposition stop).history.size = run.passes.length := run.size_history
  by_cases hstop : stop = .converged
  · obtain ⟨pass, hlast, hlast?, -, -⟩ := hmakes.getElem?_last
    have hselected : run.selected stop = pass.iterate := by
      rw [Run.selected, if_pos hstop, Run.last, hlast?]
      rfl
    have hisOf := hmakes.isOf hu (List.mem_of_getElem? hlast) hselected
    refine ⟨run, _, pass, pass.record, hrun, hlast, hrecord hlast, hisOf, ?_, ?_⟩
    · intro _
      rw [hsize]
      omega
    · exact fun hother => absurd hstop hother
  · obtain ⟨k, pass, hk, hbest, hfirst⟩ := Run.exists_best hpos hdefined
    have hselected : run.selected stop = pass.iterate := by
      rw [Run.selected, if_neg hstop, hbest]
    have hisOf := hmakes.isOf hu (List.mem_of_getElem? hk) hselected
    refine ⟨run, k, pass, pass.record, hrun, hk, hrecord hk, hisOf, ?_, ?_⟩
    · exact fun hother => absurd hother hstop
    · intro _
      exact ⟨hfirst, hfirst.same_best⟩

/-- Machine numbers: of three passes the second has the least primal residual. -/
theorem solveAt_selects_second :
    let p : Problem Float := .unconstrained (Mat.ofFn 1 1 fun _ _ => 0.0) ⟨#[-1.0]⟩
    let params : Params Float := { Params.standard with maxIterations := 3 }
    let e := Engine.prepared p params
    let start : Iterate Float := { e.decomposition.initial with y := ⟨#[20000.0]⟩ }
    let answers := [.ok ⟨#[0.0]⟩, .ok ⟨#[1.0]⟩, .ok ⟨#[0.0]⟩]
    Decomposition.create .standard p params = .ok e.decomposition ∧
      ∃ r st', (∀ record ∈ r.history.records, record.IsDefined) ∧ r.stop ≠ .converged ∧
        e.solveAt (some start) answers = (.ok r, st') ∧
        ∃ run k pass record, e.runAt (some start) answers = (.ok run, st') ∧
          run.passes[k]? = some pass ∧ r.history.records[k]? = some record ∧
          r.IsOf params pass.iterate record ∧
          (r.stop = .converged → k + 1 = run.passes.length ∧ k + 1 = r.history.size) ∧
          (r.stop ≠ .converged → IsFirstBest r.history.records k record ∧
            Scalar.same record.primal r.history.best = true) := by
  intro p params e start answers
  have hrun : (e.solveAt (some start) answers).1.toOption.any (fun r =>
      decide (∀ record ∈ r.history.records, record.IsDefined) && decide (r.stop ≠ .converged)) =
        true := by
    decide +kernel +revert
  have hcreate : Decomposition.create .standard p params = .ok e.decomposition :=
    Decomposition.create_of_isOk (by decide +kernel +revert)
  obtain ⟨r, st', hsolve, hcheck⟩ := exists_result hrun
  simp only [Bool.and_eq_true, decide_eq_true_eq] at hcheck
  exact ⟨hcreate, r, st', hcheck.1, hcheck.2, hsolve, solveAt_selects hcreate hcheck.1 hsolve⟩

end Engine

end BinarySplitting
