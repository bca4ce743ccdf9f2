import Mathlib.Data.List.Dedup
import Mathlib.Data.List.FinRange
import Std.Data.String.ToNat
import BinarySplitting.Linear.Standard
import BinarySplitting.Report
import BinarySplitting.Proofs.Json.Members
import BinarySplitting.Proofs.Problem.Unconstrained

/-!
# The labels of the variables

In the document of a result each label has one entry, with the value of the last variable that has
the label (`document_variables`). So no variable is lost exactly if the labels are distinct, and
this is a condition on the names alone (`label_injective_iff`): no two variables are given one name,
and no name is the letter and index of a variable without a name. Letters and indices themselves
never clash (`generated_injective`).
-/

namespace BinarySplitting.Report

/-! ## Variables -/

inductive Variable (p : Problem Float) where
  | binary (i : Fin p.numBinary)
  | continuous (j : Fin p.numContinuous)

variable {p : Problem Float} {r : Result Float}

namespace Variable

/-- The name that is given to a variable; the empty text is none. -/
def name? : Variable p → Option String
  | .binary i => p.binaryNames[i.val]?.filter (· ≠ "")
  | .continuous j => p.continuousNames[j.val]?.filter (· ≠ "")

/-- The letter and the index of a variable. -/
def generated : Variable p → String
  | .binary i => "x" ++ i.val.repr
  | .continuous j => "u" ++ j.val.repr

/-- The label of a variable: its name if it has one, else its letter and index. -/
def label (v : Variable p) : String := v.name?.getD v.generated

def value (r : Result Float) : Variable p → Float
  | .binary i => r.x i.val
  | .continuous j => r.u j.val

/-- The place of a variable, the binary ones first. -/
def position : Variable p → ℕ
  | .binary i => i.val
  | .continuous j => p.numBinary + j.val

def all (p : Problem Float) : List (Variable p) :=
  (List.finRange p.numBinary).map .binary ++ (List.finRange p.numContinuous).map .continuous

theorem mem_all (v : Variable p) : v ∈ all p := by
  cases v <;> simp [all]

theorem length_all (p : Problem Float) : (all p).length = p.numBinary + p.numContinuous := by
  simp [all]

theorem pairwise_position (p : Problem Float) :
    (all p).Pairwise fun v w => v.position < w.position := by
  refine List.pairwise_append.2 ⟨?_, ?_, ?_⟩
  · exact List.pairwise_map.2 (List.pairwise_lt_finRange _)
  · exact List.pairwise_map.2
      ((List.pairwise_lt_finRange _).imp fun h => Nat.add_lt_add_left h _)
  · intro v hv w hw
    obtain ⟨i, -, rfl⟩ := List.mem_map.1 hv
    obtain ⟨j, -, rfl⟩ := List.mem_map.1 hw
    exact i.isLt.trans_le (Nat.le_add_right _ _)

theorem nodup_all (p : Problem Float) : (all p).Nodup :=
  (pairwise_position p).imp fun h e => by simp [e] at h

/-! ## Distinct labels -/

theorem generated_injective : Function.Injective (generated (p := p)) := by
  intro v w h
  cases v with
  | binary i =>
    cases w with
    | binary k => exact congrArg _ (Fin.ext (Nat.repr_injective ((String.append_right_inj "x").1 h)))
    | continuous j => exact absurd (congrArg String.toList h) (by simp [generated])
  | continuous j =>
    cases w with
    | binary k => exact absurd (congrArg String.toList h) (by simp [generated])
    | continuous k =>
      exact congrArg _ (Fin.ext (Nat.repr_injective ((String.append_right_inj "u").1 h)))

theorem label_of_name {v : Variable p} {s : String} (h : v.name? = some s) : v.label = s := by
  simp [label, h]

theorem label_of_unnamed {v : Variable p} (h : v.name? = none) : v.label = v.generated := by
  simp [label, h]

end Variable

/-- The names do not make two labels equal: no two variables are given one name, and no name is the
letter and index of a variable without a name. -/
structure DistinctNames (p : Problem Float) : Prop where
  names : ∀ (v w : Variable p) (s : String), v.name? = some s → w.name? = some s → v = w
  generated : ∀ v w : Variable p, w.name? = none → v.name? ≠ some w.generated

theorem label_injective_iff : Function.Injective (Variable.label (p := p)) ↔ DistinctNames p := by
  constructor
  · intro h
    refine ⟨fun v w s hv hw => h ?_, fun v w hw hv => ?_⟩
    · rw [Variable.label_of_name hv, Variable.label_of_name hw]
    · have hvw : v = w := h (by rw [Variable.label_of_name hv, Variable.label_of_unnamed hw])
      rw [hvw, hw] at hv
      cases hv
  · intro h v w hlabel
    cases hv : v.name? with
    | some s =>
      rw [Variable.label_of_name hv] at hlabel
      cases hw : w.name? with
      | some s' =>
        rw [Variable.label_of_name hw] at hlabel
        exact h.names v w s hv (hw.trans (congrArg some hlabel.symm))
      | none =>
        rw [Variable.label_of_unnamed hw] at hlabel
        exact absurd (hv.trans (congrArg some hlabel)) (h.generated v w hw)
    | none =>
      rw [Variable.label_of_unnamed hv] at hlabel
      cases hw : w.name? with
      | some s' =>
        rw [Variable.label_of_name hw] at hlabel
        exact absurd (hw.trans (congrArg some hlabel.symm)) (h.generated w v hv)
      | none =>
        rw [Variable.label_of_unnamed hw] at hlabel
        exact Variable.generated_injective hlabel

/-! ## The entries -/

theorem label_eq (names : List String) (letter : String) (i : ℕ) :
    label names letter i = (names[i]?.filter (· ≠ "")).getD (letter ++ i.repr) := by
  unfold label
  rcases names[i]? with _ | name
  · rfl
  · by_cases h : name = "" <;> simp [Option.filter, h]

theorem valuesByLabel_eq (hx : r.x.size = p.numBinary) (hu : r.u.size = p.numContinuous) :
    valuesByLabel p r = (Variable.all p).map fun v => (v.label, .number (v.value r)) := by
  simp only [valuesByLabel, labelled, hx, hu, Variable.all, List.map_append, List.map_map,
    ← List.map_coe_finRange_eq_range, label_eq]
  rfl

/-- An entry of the document is a label with the value of the last variable that has it. -/
theorem mem_entriesOf_valuesByLabel (hx : r.x.size = p.numBinary)
    (hu : r.u.size = p.numContinuous) {key : String} {value : Json} :
    (key, value) ∈ Json.entriesOf (valuesByLabel p r) ↔
      ∃ v : Variable p, v.label = key ∧ value = .number (v.value r) ∧
        ∀ w : Variable p, w.label = key → w.position ≤ v.position := by
  rw [Json.mem_entriesOf_iff, valuesByLabel_eq hx hu]
  constructor
  · rintro ⟨before, after, heq, hkey⟩
    obtain ⟨vs, rest, hall, rfl, hrest⟩ := List.map_eq_append_iff.1 heq
    obtain ⟨v, ws, rfl, hv, rfl⟩ := List.map_eq_cons_iff.1 hrest
    obtain ⟨rfl, rfl⟩ := Prod.mk.inj hv
    refine ⟨v, rfl, rfl, fun w hw => ?_⟩
    have hpositions := Variable.pairwise_position p
    have hmem := Variable.mem_all w
    rw [hall] at hpositions hmem
    rcases List.mem_append.1 hmem with hbefore | hfrom
    · exact ((List.pairwise_append.1 hpositions).2.2 w hbefore v (by simp)).le
    · rcases List.mem_cons.1 hfrom with rfl | hafter
      · exact le_rfl
      · refine absurd ?_ hkey
        simp only [Json.keys, List.map_map]
        exact List.mem_map.2 ⟨w, hafter, hw⟩
  · rintro ⟨v, rfl, rfl, hlast⟩
    obtain ⟨vs, ws, hall⟩ := List.append_of_mem (Variable.mem_all v)
    refine ⟨_, _, by rw [hall, List.map_append, List.map_cons], fun hkey => ?_⟩
    obtain ⟨w, hw, hlabel⟩ : ∃ w ∈ ws, w.label = v.label := by
      simpa [Json.keys] using hkey
    have hpositions := Variable.pairwise_position p
    rw [hall] at hpositions
    have hlater := (List.pairwise_cons.1 (List.pairwise_append.1 hpositions).2.1).1 w hw
    exact absurd (hlast w hlabel) (not_le.2 hlater)

theorem nodup_keys_valuesByLabel_iff (hx : r.x.size = p.numBinary)
    (hu : r.u.size = p.numContinuous) :
    (Json.keys (valuesByLabel p r)).Nodup ↔ Function.Injective (Variable.label (p := p)) := by
  have hkeys : Json.keys (valuesByLabel p r) = (Variable.all p).map Variable.label := by
    rw [valuesByLabel_eq hx hu, Json.keys, List.map_map]
    rfl
  rw [hkeys, List.nodup_map_iff_inj_on (Variable.nodup_all p)]
  exact ⟨fun h v w hlabel => h v (Variable.mem_all v) w (Variable.mem_all w) hlabel,
    fun h v _ w _ hlabel => h hlabel⟩

theorem document_member_variables (p : Problem Float) (r : Result Float) :
    (document p r).member? "variables" = some (.object (Json.entriesOf (valuesByLabel p r))) := by
  unfold document
  rw [Json.ofMembers_eq, Json.member?, Json.lookup_entriesOf]
  rfl

/-- The variables in the document of a result that has a value for each variable. The labels stand
in their order, each once, with the value of the last variable that has the label. There is an entry
for every variable exactly if the names are distinct, and then each variable has its own value. -/
theorem document_variables (hx : r.x.size = p.numBinary) (hu : r.u.size = p.numContinuous) :
    ∃ entries, (document p r).member? "variables" = some (.object entries) ∧
      (Json.keys entries).Pairwise (· < ·) ∧
      (∀ key value, (key, value) ∈ entries ↔ ∃ v : Variable p, v.label = key ∧
        value = .number (v.value r) ∧ ∀ w : Variable p, w.label = key → w.position ≤ v.position) ∧
      (entries.length = p.numBinary + p.numContinuous ↔ DistinctNames p) ∧
      (DistinctNames p → ∀ v : Variable p,
        Json.lookup v.label entries = some (.number (v.value r))) := by
  have hsorted := Json.sorted_entriesOf (valuesByLabel p r)
  refine ⟨_, document_member_variables p r, hsorted,
    fun key value => mem_entriesOf_valuesByLabel hx hu, ?_, fun hnames v => ?_⟩
  · have hlength : (valuesByLabel p r).length = p.numBinary + p.numContinuous := by
      rw [valuesByLabel_eq hx hu, List.length_map, Variable.length_all]
    rw [← hlength, Json.length_entriesOf_iff, nodup_keys_valuesByLabel_iff hx hu,
      label_injective_iff]
  · rw [Json.lookup_eq_some_iff_mem hsorted.nodup, mem_entriesOf_valuesByLabel hx hu]
    refine ⟨v, rfl, rfl, fun w hlabel => ?_⟩
    rw [label_injective_iff.2 hnames hlabel]

/-! ## Two variables -/

/-- A problem in two binary variables with the given names. -/
def pairNamed (names : List String) : Problem Float :=
  { Problem.unconstrained (.zero 2 2) ⟨#[1.0, 1.0]⟩ with binaryNames := names }

/-- The result of a run that ended at the first of the two variables. -/
def pairResult (names : List String) : Result Float :=
  Result.ofIterate (pairNamed names) .standard
    { Iterate.blank with x := ⟨#[1.0, 0.0]⟩ } .converged ⟨[], false⟩

/-- A variable with a name and one without have their own entries. -/
theorem document_variables_pair :
    ((pairResult ["a", ""]).x.size = (pairNamed ["a", ""]).numBinary ∧
      (pairResult ["a", ""]).u.size = (pairNamed ["a", ""]).numContinuous) ∧
    DistinctNames (pairNamed ["a", ""]) ∧
    ∀ v : Variable (pairNamed ["a", ""]),
      Json.lookup v.label [("a", .number 1.0), ("x1", .number 0.0)] =
        some (.number (v.value (pairResult ["a", ""]))) := by
  obtain ⟨entries, hmember, -, -, hlength, hlookup⟩ :=
    document_variables (p := pairNamed ["a", ""]) (r := pairResult ["a", ""]) rfl rfl
  have hentries : (document (pairNamed ["a", ""]) (pairResult ["a", ""])).member? "variables" =
      some (.object [("a", .number 1.0), ("x1", .number 0.0)]) := by rfl
  obtain rfl := Json.object.inj (Option.some.inj (hmember.symm.trans hentries))
  have hnames := hlength.1 rfl
  exact ⟨⟨rfl, rfl⟩, hnames, hlookup hnames⟩

/-- A variable is lost that is named like the letter and index of another one; the problem is
accepted. -/
theorem document_loses_variable :
    ((pairNamed ["x1", ""]).validate Kernels.standard.spectrum).isOk = true ∧
    ((pairResult ["x1", ""]).x 0, (pairResult ["x1", ""]).x 1) = (1.0, 0.0) ∧
    (document (pairNamed ["x1", ""]) (pairResult ["x1", ""])).member? "variables" =
      some (.object [("x1", .number 0.0)]) :=
  ⟨by decide +kernel, by rfl, by rfl⟩

end BinarySplitting.Report
