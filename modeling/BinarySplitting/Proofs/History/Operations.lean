import BinarySplitting.Result
import BinarySplitting.Proofs.Engine.Selection

/-!
# Histories under operations

A caller may offer records and freeze in any order, and goes on with the history it had when a record
is refused (`History.perform`). Whatever it does, the history tells the records that were offered
before the first freeze (`History.Tells`): one step adds a record or leaves everything as it is, so a
sequence of operations is settled by the list of those records and by whether there was a freeze
(`History.after_eq`). The best primal residual is a fold that only goes down.

A result is made with the history frozen, so what it tells does not change any more
(`Result.assemble_tells`).
-/

namespace BinarySplitting

variable {α : Type}

namespace History

/-- What a caller may do to a history. -/
inductive Operation (α : Type) where
  | record (r : Record α)
  | freeze

/-- One operation: its outcome, and the history with which the caller goes on. -/
def perform (h : History α) : Operation α → Except Frozen Unit × History α
  | .record r =>
    match h.record r with
    | .ok h' => (.ok (), h')
    | .error e => (.error e, h)
  | .freeze => (.ok (), h.freeze)

def after (h : History α) (ops : List (Operation α)) : History α :=
  ops.foldl (fun h op => (h.perform op).2) h

/-- The records that are offered before the first freeze. -/
def offered : List (Operation α) → List (Record α)
  | [] => []
  | .record r :: ops => r :: offered ops
  | .freeze :: _ => []

/-! ## Steps -/

theorem perform_record_of_frozen {h : History α} (hf : h.frozen = true) (r : Record α) :
    h.perform (.record r) = (.error ⟨r.iteration⟩, h) := by
  simp [perform, record, hf]

theorem perform_record_of_not_frozen {h : History α} (hf : h.frozen = false) (r : Record α) :
    h.perform (.record r) = (.ok (), { h with records := h.records ++ [r] }) := by
  simp [perform, record, hf]

theorem perform_of_frozen {h : History α} (hf : h.frozen = true) (op : Operation α) :
    (h.perform op).2 = h := by
  cases op with
  | record r => rw [perform_record_of_frozen hf]
  | freeze =>
    show { h with frozen := true } = h
    rw [← hf]

/-! ## Sequences of operations -/

theorem after_of_frozen {h : History α} (hf : h.frozen = true) (ops : List (Operation α)) :
    h.after ops = h := by
  induction ops with
  | nil => rfl
  | cons op ops ih =>
    show ((h.perform op).2).after ops = h
    rw [perform_of_frozen hf op]
    exact ih

theorem after_eq {h : History α} (hf : h.frozen = false) (ops : List (Operation α)) :
    (h.after ops).records = h.records ++ offered ops ∧
      ((h.after ops).frozen = true ↔ .freeze ∈ ops) := by
  induction ops generalizing h with
  | nil => simp [after, offered, hf]
  | cons op ops ih =>
    cases op with
    | record r =>
      have hstep : h.after (.record r :: ops) =
          History.after { h with records := h.records ++ [r] } ops := by
        show ((h.perform (.record r)).2).after ops = _
        rw [perform_record_of_not_frozen hf]
      obtain ⟨hrecords, hfrozen⟩ := @ih { h with records := h.records ++ [r] } hf
      rw [hstep]
      refine ⟨?_, ?_⟩
      · rw [hrecords, offered, List.append_assoc, List.singleton_append]
      · rw [hfrozen]
        simp
    | freeze =>
      have hstep : h.after (.freeze :: ops) = h.freeze := after_of_frozen (h := h.freeze) rfl ops
      rw [hstep]
      simp [freeze, offered]

theorem offered_append (ops more : List (Operation α)) : offered ops <+: offered (ops ++ more) := by
  induction ops with
  | nil => exact List.nil_prefix
  | cons op ops ih =>
    cases op with
    | record r => exact (List.prefix_cons_inj r).2 ih
    | freeze => exact List.nil_prefix

/-! ## The best primal residual -/

section best

variable [Scalar α]

/-- The best primal residual of records, infinite if none has a defined one. -/
structure IsBest (best : α) (rs : List (Record α)) : Prop where
  least : ∀ r ∈ rs, r.primal ≤ r.primal → best ≤ r.primal
  attained : (∃ r ∈ rs, r.primal ≤ r.primal) → ∃ r ∈ rs, Scalar.same best r.primal = true
  none : (∀ r ∈ rs, Scalar.isUndefined r.primal = true) → best = Scalar.infinity

variable [OrderedScalar α]

theorem foldl_smaller_of_undefined {values : List α} (first : α)
    (h : ∀ a ∈ values, Scalar.isUndefined a = true) : values.foldl Scalar.smaller first = first := by
  induction values with
  | nil => rfl
  | cons a rest ih =>
    have ha : ¬ a < first := fun hlt => by
      have hdefined := (OrderedScalar.refl_of_le _ _ (OrderedScalar.le_of_lt hlt)).1
      have hundefined := h a List.mem_cons_self
      rw [Scalar.isUndefined_eq_false_iff.2 hdefined] at hundefined
      exact Bool.false_ne_true hundefined
    rw [List.foldl_cons, Scalar.smaller, if_neg ha]
    exact ih fun b hb => h b (List.mem_cons_of_mem _ hb)

theorem isBest (h : History α) : IsBest h.best h.records := by
  have hinfinity {r : Record α} (hr : r.primal ≤ r.primal) : (Scalar.infinity : α) ≤ Scalar.infinity :=
    (OrderedScalar.refl_of_le _ _ (OrderedScalar.le_infinity _ hr)).2
  refine ⟨?_, ?_, ?_⟩
  · intro r hr hdefined
    exact (foldl_smaller_spec h.primals (hinfinity hdefined)).2.1 _ (List.mem_map_of_mem hr) hdefined
  · rintro ⟨r, hr, hdefined⟩
    obtain ⟨hle, hleast, hone⟩ := foldl_smaller_spec h.primals (hinfinity hdefined)
    rcases hone with hone | hone
    · -- a fold that stays infinite has met only infinite values
      have hbest := hleast _ (List.mem_map_of_mem hr) hdefined
      refine ⟨r, hr, Scalar.same_iff.2 ⟨hbest, ?_⟩⟩
      unfold best
      rw [hone]
      exact OrderedScalar.le_infinity _ hdefined
    · obtain ⟨other, hother, heq⟩ := List.mem_map.1 hone
      have hbest := (OrderedScalar.refl_of_le _ _ hle).1
      rw [← heq] at hbest
      refine ⟨other, hother, Scalar.same_iff.2 ?_⟩
      unfold best
      rw [← heq]
      exact ⟨hbest, hbest⟩
  · intro hundefined
    refine foldl_smaller_of_undefined _ fun a ha => ?_
    obtain ⟨r, hr, rfl⟩ := List.mem_map.1 ha
    exact hundefined r hr

theorem not_best_lt_of_prefix {h h' : History α} (hbefore : h.records <+: h'.records) :
    ¬ h.best < h'.best := by
  intro hlt
  obtain ⟨more, hmore⟩ := hbefore
  have hdefined : h.best ≤ h.best := (OrderedScalar.refl_of_le _ _ (OrderedScalar.le_of_lt hlt)).1
  have hbest : h'.best = (more.map (·.primal)).foldl Scalar.smaller h.best := by
    simp only [best, primals, ← hmore, List.map_append, List.foldl_append]
  refine OrderedScalar.not_le_of_lt hlt ?_
  rw [hbest]
  exact (foldl_smaller_spec _ hdefined).1

end best

/-! ## What a history tells -/

variable [Scalar α]

/-- Everything that can be read from a history, as it follows from a list of records. -/
structure Tells (h : History α) (rs : List (Record α)) : Prop where
  records : h.records = rs
  size : h.size = rs.length
  primals : h.primals = rs.map (·.primal)
  duals : h.duals = rs.map (·.dual)
  best : IsBest h.best rs

theorem tells [OrderedScalar α] (h : History α) : h.Tells h.records :=
  ⟨rfl, rfl, rfl, rfl, h.isBest⟩

/-- The history is one that operations led to. -/
structure Follows (h : History α) (ops : List (Operation α)) : Prop where
  tells : h.Tells (offered ops)
  frozen : h.frozen = true ↔ .freeze ∈ ops
  refuses : .freeze ∈ ops → ∀ r, h.perform (.record r) = (.error ⟨r.iteration⟩, h)
  takes : .freeze ∉ ops →
    ∀ r, h.perform (.record r) = (.ok (), { h with records := h.records ++ [r] })

theorem after_follows [OrderedScalar α] (ops : List (Operation α)) :
    ((empty : History α).after ops).Follows ops := by
  obtain ⟨hrecords, hfrozen⟩ := after_eq (h := (empty : History α)) rfl ops
  have hoffered : ((empty : History α).after ops).records = offered ops := hrecords
  refine ⟨hoffered ▸ tells _, hfrozen, ?_, ?_⟩
  · exact fun hfreeze r => perform_record_of_frozen (hfrozen.2 hfreeze) r
  · intro hopen r
    exact perform_record_of_not_frozen (Bool.eq_false_iff.2 (mt hfrozen.1 hopen)) r

theorem not_best_lt_after [OrderedScalar α] (ops more : List (Operation α)) :
    ¬ ((empty : History α).after ops).best < ((empty : History α).after (ops ++ more)).best := by
  refine not_best_lt_of_prefix ?_
  rw [(after_eq (h := (empty : History α)) rfl ops).1, (after_eq (h := (empty : History α)) rfl (ops ++ more)).1]
  exact offered_append ops more

end History

/-! ## Results -/

namespace Result

variable [Scalar α] {p : Problem α} {params : Params α} {it : Iterate α} {h : History α} {r : Result α}

theorem assemble_ok_iff :
    (∃ r, assemble p params it h = .ok r) ↔ ∃ stop, it.status = .stopped stop := by
  unfold assemble
  cases it.status <;> simp

theorem history_of_assemble (hr : assemble p params it h = .ok r) :
    r.history = h.freeze ∧ r.iterations = h.size := by
  unfold assemble at hr
  split at hr
  · obtain rfl := Except.ok.inj hr
    exact ⟨rfl, rfl⟩
  · cases hr

/-- **After any operations a history tells the records that were offered before the first freeze**, and
its best primal residual is never above what it was before. A result made from it tells the same
records; its history is frozen for good and as long as its number of passes. -/
theorem assemble_tells [OrderedScalar α] (ops : List (History.Operation α)) (p : Problem α)
    (params : Params α) (it : Iterate α) :
    let h := (History.empty : History α).after ops
    h.Follows ops ∧ (∀ more, ¬ h.best < ((History.empty : History α).after (ops ++ more)).best) ∧
      ((∃ r, assemble p params it h = .ok r) ↔ ∃ stop, it.status = .stopped stop) ∧
      ∀ r, assemble p params it h = .ok r →
        r.history.Tells (History.offered ops) ∧ r.history.frozen = true ∧
          r.iterations = r.history.size ∧
          (∀ record, r.history.perform (.record record) = (.error ⟨record.iteration⟩, r.history)) ∧
          ∀ more, r.history.after more = r.history := by
  intro h
  refine ⟨History.after_follows ops, History.not_best_lt_after ops, assemble_ok_iff, ?_⟩
  intro r hr
  obtain ⟨hhistory, hiterations⟩ := history_of_assemble hr
  have hfrozen : r.history.frozen = true := by rw [hhistory, History.freeze]
  have hrecords : r.history.records = History.offered ops := by
    rw [hhistory]
    exact (History.after_follows ops).tells.records
  refine ⟨hrecords ▸ r.history.tells, hfrozen, ?_, ?_, ?_⟩
  · rw [hiterations, hhistory]
    rfl
  · exact fun record => History.perform_record_of_frozen hfrozen record
  · exact fun more => History.after_of_frozen hfrozen more

/-- Machine numbers: of four records, one of them undefined, the last comes after the freeze. -/
theorem assemble_tells_three :
    let record (k : Int) (primal : Float) : Record Float := ⟨k, primal, 1.0, 10.0, 0.0, 0.0, 0.0⟩
    let ops : List (History.Operation Float) := [.record (record 0 0.5), .record (record 1 (0.0 / 0.0)),
      .record (record 2 0.25), .freeze, .record (record 3 0.125)]
    let p : Problem Float := .unconstrained (Mat.ofFn 1 1 fun _ _ => 0.0) ⟨#[-1.0]⟩
    let it : Iterate Float := { Iterate.blank with x := ⟨#[1.0]⟩, status := .stopped .iterationLimit }
    ∃ r, assemble p Params.standard it (History.empty.after ops) = .ok r ∧ r.iterations = 3 ∧
      r.history.best = 0.25 ∧ r.history.Tells [record 0 0.5, record 1 (0.0 / 0.0), record 2 0.25] ∧
      r.history.perform (.record (record 3 0.125)) = (.error ⟨3⟩, r.history) := by
  intro record ops p it
  obtain ⟨-, -, hiff, htells⟩ := assemble_tells ops p Params.standard it
  obtain ⟨r, hr⟩ := hiff.2 ⟨.iterationLimit, rfl⟩
  obtain ⟨htold, -, hiterations, hrefuses, -⟩ := htells r hr
  refine ⟨r, hr, ?_, ?_, htold, hrefuses _⟩
  · rw [hiterations, htold.size]
    rfl
  · rw [History.best, htold.primals]
    show [(0.5 : Float), 0.0 / 0.0, 0.25].foldl Scalar.smaller Scalar.infinity = 0.25
    decide +kernel

end Result

end BinarySplitting
