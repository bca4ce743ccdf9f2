import Mathlib.Data.List.Basic
import BinarySplitting.Params.Document

/-!
# Parameters, field by field

The setters are applied one after another to the standard parameters. `fields` lists what they set:
each field with its key, its kind of value and its place in the parameters. Two fields do not
interfere, so the outcome of all setters is known from each field alone: the parameters are those
that overlay the standard ones (`overlay_eq_ok_iff`), and of the fields that cannot be read the
first decides (`overlay_eq_error_iff`).
-/

namespace BinarySplitting.Params

/-! ## Fields -/

inductive FieldKind where
  | number
  | count
  | flag
  | policy

@[reducible] def FieldKind.Value : FieldKind → Type
  | .number => Float
  | .count => Int
  | .flag => Bool
  | .policy => PenaltyPolicy

/-- What a document's value is converted to where a kind of value is wanted. -/
def FieldKind.convert : (kind : FieldKind) → Json → Except DocumentError kind.Value
  | .number, v => orWrongType (number? v)
  | .count, v => orWrongType (count? v)
  | .flag, v => orWrongType (flag? v)
  | .policy, v => policyOf v

theorem orWrongType_eq_ok_iff {β : Type} {o : Option β} {b : β} :
    orWrongType o = .ok b ↔ o = some b := by
  cases o <;> simp [orWrongType]

structure Field where
  key : String
  kind : FieldKind
  get : Params Float → kind.Value
  put : kind.Value → Params Float → Params Float

def Field.setter (f : Field) : Setter := ⟨f.key, fun v p => (f.kind.convert v).map (f.put · p)⟩

/-- The fields in the order in which they are read. -/
def fields : List Field :=
  [⟨"rho_initial", .number, (·.rhoInitial), fun x p => { p with rhoInitial := x }⟩,
   ⟨"beta", .number, (·.beta), fun x p => { p with beta := x }⟩,
   ⟨"factor_c", .number, (·.equalityWeight), fun x p => { p with equalityWeight := x }⟩,
   ⟨"maxiter", .count, (·.maxIterations), fun n p => { p with maxIterations := n }⟩,
   ⟨"tol", .number, (·.tolerance), fun x p => { p with tolerance := x }⟩,
   ⟨"three_block", .flag, (·.threeBlock), fun b p => { p with threeBlock := b }⟩,
   ⟨"rho_policy", .policy, (·.policy), fun k p => { p with policy := k }⟩,
   ⟨"rho_growth", .number, (·.rhoGrowth), fun x p => { p with rhoGrowth := x }⟩,
   ⟨"tau_incr", .number, (·.raiseFactor), fun x p => { p with raiseFactor := x }⟩,
   ⟨"tau_decr", .number, (·.lowerFactor), fun x p => { p with lowerFactor := x }⟩,
   ⟨"mu_res", .number, (·.balanceRatio), fun x p => { p with balanceRatio := x }⟩,
   ⟨"rho_min", .number, (·.rhoMin), fun x p => { p with rhoMin := x }⟩,
   ⟨"rho_max", .number, (·.rhoMax), fun x p => { p with rhoMax := x }⟩,
   ⟨"check_dual_residual", .flag, (·.checkDual), fun b p => { p with checkDual := b }⟩,
   ⟨"dual_tol", .number, (·.dualTolerance), fun x p => { p with dualTolerance := x }⟩,
   ⟨"mu_merit", .number, (·.meritWeight), fun x p => { p with meritWeight := x }⟩,
   ⟨"feasibility_tol", .number, (·.feasibilityTolerance),
    fun x p => { p with feasibilityTolerance := x }⟩,
   ⟨"max_time_seconds", .number, (·.timeLimit), fun x p => { p with timeLimit := x }⟩,
   ⟨"verbose", .flag, (·.verbose), fun b p => { p with verbose := b }⟩]

theorem setters_eq : setters = fields.map Field.setter := rfl

/-! ## Fields do not interfere -/

/-- A field holds what was put there. -/
def Field.IsLawful (f : Field) : Prop := ∀ b p, f.get (f.put b p) = b

/-- A field is not changed through another one. -/
def Field.IsKeptBy (f g : Field) : Prop := ∀ b p, f.get (g.put b p) = f.get p

/-- Neither field is changed through the other one. -/
def Field.Apart (f g : Field) : Prop := f.IsKeptBy g ∧ g.IsKeptBy f

theorem fields_isLawful : ∀ f ∈ fields, f.IsLawful := by
  simp [fields, Field.IsLawful]

theorem fields_apart : fields.Pairwise Field.Apart := by
  simp [fields, Field.Apart, Field.IsKeptBy]

theorem eq_of_fields {p q : Params Float} (h : ∀ f ∈ fields, f.get p = f.get q) : p = q := by
  simp only [fields, List.forall_mem_cons] at h
  cases p
  cases q
  simp_all

/-! ## One field -/

section field

variable {members : List (String × Json)} {f g : Field} {p q q' : Params Float}

/-- The field in `q` is what its key gives, or what it is in `p` if the key is absent. -/
def Field.Given (f : Field) (members : List (String × Json)) (p q : Params Float) : Prop :=
  match Json.lookup f.key members with
  | none => f.get q = f.get p
  | some v => f.kind.convert v = .ok (f.get q)

/-- Why the field cannot be read, if it cannot. -/
def Field.defect? (f : Field) (members : List (String × Json)) : Option DocumentError :=
  match Json.lookup f.key members with
  | none => none
  | some v =>
    match f.kind.convert v with
    | .ok _ => none
    | .error e => some e

theorem Field.Given.congr (h : f.Given members p q) (hp : f.get p = f.get q')
    {r : Params Float} (hr : f.get r = f.get q) : f.Given members q' r := by
  unfold Field.Given at *
  split at h
  · rw [hr, h, hp]
  · rw [hr, h]

theorem Field.Given.convert_eq (h : f.Given members p q) {v : Json}
    (hv : Json.lookup f.key members = some v) : f.kind.convert v = .ok (f.get q) := by
  unfold Field.Given at h
  rw [hv] at h
  exact h

theorem Field.Given.defect?_eq_none (h : f.Given members p q) : f.defect? members = none := by
  unfold Field.Given at h
  unfold Field.defect?
  split at h
  · rfl
  · simp [h]

theorem Field.Given.unique (h : f.Given members p q) (h' : f.Given members p q') :
    f.get q = f.get q' := by
  unfold Field.Given at h h'
  cases hv : Json.lookup f.key members with
  | none =>
    rw [hv] at h h'
    rw [h, h']
  | some v =>
    rw [hv] at h h'
    exact Except.ok.inj (h.symm.trans h')

theorem Field.apply_ok (hf : f.IsLawful) (h : f.setter.apply members p = .ok q) :
    f.Given members p q ∧ ∀ g : Field, g.IsKeptBy f → g.get q = g.get p := by
  unfold Setter.apply at h
  unfold Field.Given
  dsimp only [Field.setter] at h
  split at h
  · next v hv =>
    rw [hv]
    rcases hb : f.kind.convert v with e | b
    · simp [hb, Except.map] at h
    · simp only [hb, Except.map, Except.ok.injEq] at h
      subst h
      exact ⟨hb.trans (by rw [hf b p]), fun g hg => hg b p⟩
  · next hnone =>
    rw [hnone]
    cases h
    exact ⟨rfl, fun _ _ => rfl⟩

theorem Field.apply_error {e : DocumentError} :
    f.setter.apply members p = .error e ↔ f.defect? members = some e := by
  unfold Setter.apply Field.defect?
  dsimp only [Field.setter]
  cases Json.lookup f.key members with
  | none => simp
  | some v =>
    rcases hb : f.kind.convert v with e' | b
    · simp [hb, Except.map]
    · simp [hb, Except.map]

end field

/-! ## All fields -/

section run

variable {members : List (String × Json)} {list : List Field} {p q : Params Float}

theorem foldlM_ok (hlawful : ∀ f ∈ list, f.IsLawful) (hapart : list.Pairwise Field.Apart)
    (h : (list.map Field.setter).foldlM (Setter.apply members) p = .ok q) :
    (∀ f ∈ list, f.Given members p q) ∧
      ∀ g : Field, (∀ f ∈ list, g.IsKeptBy f) → g.get q = g.get p := by
  induction list generalizing p with
  | nil =>
    cases h
    exact ⟨by simp, fun _ _ => rfl⟩
  | cons f rest ih =>
    have hfirst := List.pairwise_cons.1 hapart
    rw [List.map_cons, List.foldlM_cons] at h
    rcases hstep : f.setter.apply members p with e | p'
    · simp [hstep, bind, Except.bind] at h
    · rw [hstep] at h
      obtain ⟨hgiven, hframe⟩ := Field.apply_ok (hlawful f (by simp)) hstep
      obtain ⟨hrest, hkept⟩ := ih (fun g hg => hlawful g (by simp [hg])) hfirst.2 h
      refine ⟨fun g hg => ?_, fun g hg => ?_⟩
      · rcases List.mem_cons.1 hg with rfl | hg
        -- the later setters keep the first field, and the first setter keeps the later ones
        · exact hgiven.congr rfl (hkept g fun f hf => (hfirst.1 f hf).1)
        · exact (hrest g hg).congr (hframe g (hfirst.1 g hg).2) rfl
      · rw [hkept g fun f hf => hg f (by simp [hf]), hframe g (hg f (by simp))]

theorem foldlM_error {e : DocumentError} :
    (list.map Field.setter).foldlM (Setter.apply members) p = .error e ↔
      list.findSome? (·.defect? members) = some e := by
  induction list generalizing p with
  | nil => simp [pure, Except.pure]
  | cons f rest ih =>
    rw [List.map_cons, List.foldlM_cons, List.findSome?_cons]
    rcases hstep : f.setter.apply members p with e' | p'
    · rw [Field.apply_error.1 hstep]
      simp [bind, Except.bind]
    · have hnone : f.defect? members = none := by
        refine Option.eq_none_iff_forall_ne_some.2 fun e' h => ?_
        rw [Field.apply_error.2 h] at hstep
        cases hstep
      rw [hnone]
      exact ih

/-- The parameters in which each field is what its key gives, or the standard one. -/
def Overlays (members : List (String × Json)) (p : Params Float) : Prop :=
  ∀ f ∈ fields, f.Given members standard p

theorem Overlays.unique (h : Overlays members p) (h' : Overlays members q) : p = q :=
  eq_of_fields fun f hf => (h f hf).unique (h' f hf)

theorem overlay_eq_error_iff {e : DocumentError} :
    overlay members = .error e ↔ fields.findSome? (·.defect? members) = some e := by
  rw [overlay, setters_eq]
  exact foldlM_error

theorem overlay_eq_ok_iff : overlay members = .ok p ↔ Overlays members p := by
  have hoverlays : ∀ {q}, overlay members = .ok q → Overlays members q := fun h => by
    rw [overlay, setters_eq] at h
    exact (foldlM_ok fields_isLawful fields_apart h).1
  refine ⟨hoverlays, fun h => ?_⟩
  rcases hread : overlay members with e | q
  · obtain ⟨f, hf, he⟩ := List.exists_of_findSome?_eq_some (overlay_eq_error_iff.1 hread)
    rw [(h f hf).defect?_eq_none] at he
    cases he
  · rw [h.unique (hoverlays hread)]

end run

end BinarySplitting.Params
