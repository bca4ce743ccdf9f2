import BinarySplitting.Proofs.Json.Members
import BinarySplitting.Proofs.Params.Admissible
import BinarySplitting.Proofs.Params.Overlay

/-!
# What a document gives

`ReadsAs` states the rules by which a document gives parameters or an error: where the parameters
stand, the fields in their order, and only then the requirements in theirs. Reading follows these
rules (`ofJson_eq_iff`). They look at the place of the parameters and at the keys of the fields
only, so other keys, the order of keys and the form of the document have no effect.
-/

namespace BinarySplitting.Params

/-! ## The rules -/

/-- A field can be read: its key is absent, or its value is of the wanted kind. -/
def Field.IsReadable (f : Field) (members : List (String × Json)) : Prop :=
  ∀ v, Json.lookup f.key members = some v → ∃ b, f.kind.convert v = .ok b

/-- What a document gives. -/
inductive ReadsAs (doc : Json) : Except DocumentError (Params Float) → Prop
  /-- There is no object where the parameters are looked for. -/
  | notObject (hplace : ∀ members, place doc ≠ .object members) : ReadsAs doc (.error .notObject)
  /-- A field has a value that is not converted, and the fields before it can be read. -/
  | unreadable {members : List (String × Json)} {before after : List Field} {f : Field} {v : Json}
      {e : DocumentError} (hplace : place doc = .object members)
      (horder : fields = before ++ f :: after) (hbefore : ∀ g ∈ before, g.IsReadable members)
      (hv : Json.lookup f.key members = some v) (he : f.kind.convert v = .error e) :
      ReadsAs doc (.error e)
  /-- All fields are read, a requirement fails, and the requirements before it hold. -/
  | notAdmissible {members : List (String × Json)} {p : Params Float}
      {before after : List (Check Float)} {c : Check Float} (hplace : place doc = .object members)
      (hread : Overlays members p) (horder : p.checks = before ++ c :: after)
      (hbefore : ∀ b ∈ before, b.holds = true) (hc : c.holds = false) :
      ReadsAs doc (.error (.notAdmissible ⟨c.requirement, c.value⟩))
  /-- All fields are read and all requirements hold. -/
  | admissible {members : List (String × Json)} {p : Params Float}
      (hplace : place doc = .object members) (hread : Overlays members p)
      (hadmissible : p.Admissible) : ReadsAs doc (.ok p)

variable {doc doc' : Json} {members members' : List (String × Json)} {f : Field}

theorem Field.defect?_eq_none_iff : f.defect? members = none ↔ f.IsReadable members := by
  unfold Field.defect? Field.IsReadable
  cases Json.lookup f.key members with
  | none => simp
  | some v => rcases hv : f.kind.convert v with e | b <;> simp [hv]

theorem Field.defect?_eq_some_iff {e : DocumentError} :
    f.defect? members = some e ↔
      ∃ v, Json.lookup f.key members = some v ∧ f.kind.convert v = .error e := by
  unfold Field.defect?
  cases Json.lookup f.key members with
  | none => simp
  | some v => rcases hv : f.kind.convert v with e' | b <;> simp [hv]

/-! ## Reading follows the rules -/

theorem ofJson_of_object (hplace : place doc = .object members) :
    ofJson doc = (overlay members).bind fun p =>
      match p.validate with
      | .ok () => .ok p
      | .error d => .error (.notAdmissible d) := by
  unfold ofJson
  rw [hplace]
  rfl

theorem ofJson_of_not_object (hplace : ∀ members, place doc ≠ .object members) :
    ofJson doc = .error .notObject := by
  unfold ofJson
  split
  · next h => exact absurd h (hplace _)
  · rfl

theorem ReadsAs.eq {r : Except DocumentError (Params Float)} (h : ReadsAs doc r) :
    ofJson doc = r := by
  cases h with
  | notObject hplace => exact ofJson_of_not_object hplace
  | unreadable hplace horder hbefore hv he =>
    have hfirst := overlay_eq_error_iff.2 <| List.findSome?_eq_some_iff.2
      ⟨_, _, _, horder, Field.defect?_eq_some_iff.2 ⟨_, hv, he⟩,
        fun g hg => Field.defect?_eq_none_iff.2 (hbefore g hg)⟩
    rw [ofJson_of_object hplace, hfirst]
    rfl
  | notAdmissible hplace hread horder hbefore hc =>
    have hdefect := validate_error_iff.2 ⟨_, _, _, horder, hbefore, hc, rfl⟩
    rw [ofJson_of_object hplace, overlay_eq_ok_iff.2 hread]
    simp only [Except.bind, hdefect]
  | admissible hplace hread hadmissible =>
    rw [ofJson_of_object hplace, overlay_eq_ok_iff.2 hread]
    simp only [Except.bind, validate_ok_iff.2 hadmissible]

theorem exists_readsAs (doc : Json) : ∃ r, ReadsAs doc r := by
  by_cases hplace : ∃ members, place doc = .object members
  · obtain ⟨members, hplace⟩ := hplace
    rcases hread : overlay members with e | p
    · obtain ⟨before, f, after, horder, hf, hbefore⟩ :=
        List.findSome?_eq_some_iff.1 (overlay_eq_error_iff.1 hread)
      obtain ⟨v, hv, he⟩ := Field.defect?_eq_some_iff.1 hf
      exact ⟨_, .unreadable hplace horder
        (fun g hg => Field.defect?_eq_none_iff.1 (hbefore g hg)) hv he⟩
    · have hoverlays := overlay_eq_ok_iff.1 hread
      rcases hvalid : p.validate with d | ⟨⟩
      · obtain ⟨before, c, after, horder, hbefore, hc, -⟩ := validate_error_iff.1 hvalid
        exact ⟨_, .notAdmissible hplace hoverlays horder hbefore hc⟩
      · exact ⟨_, .admissible hplace hoverlays (validate_ok_iff.1 hvalid)⟩
  · exact ⟨_, .notObject fun members h => hplace ⟨members, h⟩⟩

theorem ofJson_eq_iff {r : Except DocumentError (Params Float)} :
    ofJson doc = r ↔ ReadsAs doc r := by
  constructor
  · rintro rfl
    obtain ⟨r, hr⟩ := exists_readsAs doc
    rwa [hr.eq]
  · exact ReadsAs.eq

theorem ofJson_ok {p : Params Float} (h : ofJson doc = .ok p) :
    ∃ members, place doc = .object members ∧ Overlays members p ∧ p.Admissible := by
  cases ofJson_eq_iff.1 h with
  | admissible hplace hread hadmissible => exact ⟨_, hplace, hread, hadmissible⟩

/-! ## What has no effect -/

/-- The documents have the parameters in objects that agree in the keys of the fields. -/
def SameFields (doc doc' : Json) : Prop :=
  ∃ members members', place doc = .object members ∧ place doc' = .object members' ∧
    ∀ f ∈ fields, Json.lookup f.key members = Json.lookup f.key members'

theorem Field.given_congr (h : Json.lookup f.key members = Json.lookup f.key members')
    {p q : Params Float} : f.Given members p q ↔ f.Given members' p q := by
  unfold Field.Given
  rw [h]

theorem Field.isReadable_congr (h : Json.lookup f.key members = Json.lookup f.key members') :
    f.IsReadable members ↔ f.IsReadable members' := by
  unfold Field.IsReadable
  rw [h]

theorem overlays_congr (h : ∀ f ∈ fields, Json.lookup f.key members = Json.lookup f.key members')
    {p : Params Float} : Overlays members p ↔ Overlays members' p :=
  forall₂_congr fun f hf => Field.given_congr (h f hf)

theorem ofJson_of_sameFields (h : SameFields doc doc') : ofJson doc = ofJson doc' := by
  obtain ⟨members, members', hplace, hplace', hsame⟩ := h
  obtain ⟨r, hr⟩ := exists_readsAs doc'
  rw [hr.eq, ofJson_eq_iff]
  cases hr with
  | notObject hnone => exact absurd hplace' (hnone _)
  | unreadable hobject horder hbefore hv he =>
    obtain rfl := Json.object.inj (hplace'.symm.trans hobject)
    refine .unreadable hplace horder (fun g hg => ?_) (?_ : _ = some _) he
    · exact (Field.isReadable_congr (hsame g (by simp [horder, hg]))).2 (hbefore g hg)
    · rw [hsame _ (by simp [horder]), hv]
  | notAdmissible hobject hread horder hbefore hc =>
    obtain rfl := Json.object.inj (hplace'.symm.trans hobject)
    exact .notAdmissible hplace ((overlays_congr hsame).2 hread) horder hbefore hc
  | admissible hobject hread hadmissible =>
    obtain rfl := Json.object.inj (hplace'.symm.trans hobject)
    exact .admissible hplace ((overlays_congr hsame).2 hread) hadmissible

theorem ofJson_of_place (h : place doc = place doc') : ofJson doc = ofJson doc' := by
  unfold ofJson
  rw [h]

theorem place_object (members : List (String × Json)) :
    place (.object members) = (Json.lookup "admm" members).getD (.object members) := rfl

/-- Objects that agree in the keys of the fields, and in the key of the place, are read in the same
way. -/
theorem ofJson_object_congr (hplace : Json.lookup "admm" members = Json.lookup "admm" members')
    (h : ∀ f ∈ fields, Json.lookup f.key members = Json.lookup f.key members') :
    ofJson (.object members) = ofJson (.object members') := by
  cases hadmm : Json.lookup "admm" members' with
  | none =>
    refine ofJson_of_sameFields ⟨members, members', ?_, ?_, h⟩
    · rw [place_object, hplace, hadmm, Option.getD_none]
    · rw [place_object, hadmm, Option.getD_none]
  | some v =>
    apply ofJson_of_place
    rw [place_object, place_object, hplace, hadmm, Option.getD_some, Option.getD_some]

theorem DocumentError.reportedAs_eq (e : DocumentError) : e.reportedAs = .runtime := by
  cases e <;> rfl

/-! ## The law of reading -/

/-- A document gives what the rules say; keys without a field, the order of keys and the form of
the document have no effect, and every error is reported as the reader's own. -/
theorem ofJson_reads :
    (∀ doc r, ofJson doc = r ↔ ReadsAs doc r) ∧
    (∀ doc doc', SameFields doc doc' → ofJson doc = ofJson doc') ∧
    (∀ members key v, key ≠ "admm" → (∀ f ∈ fields, key ≠ f.key) →
      ofJson (.object (Json.insert key v members)) = ofJson (.object members)) ∧
    (∀ members members', (Json.keys members).Nodup → members.Perm members' →
      ofJson (.object members) = ofJson (.object members')) ∧
    (∀ members, Json.lookup "admm" members = none →
      ofJson (.object [("admm", .object members)]) = ofJson (.object members)) ∧
    (∀ doc e, ofJson doc = .error e → e.reportedAs = .runtime) := by
  refine ⟨fun doc r => ofJson_eq_iff, fun doc doc' => ofJson_of_sameFields, ?_, ?_, ?_, ?_⟩
  · intro members key v hplace hfields
    exact ofJson_object_congr (Json.lookup_insert_of_ne v hplace.symm members)
      fun f hf => Json.lookup_insert_of_ne v (hfields f hf).symm members
  · intro members members' hkeys hperm
    exact ofJson_object_congr (Json.lookup_of_perm hkeys hperm)
      fun f _ => Json.lookup_of_perm hkeys hperm
  · intro members hnone
    apply ofJson_of_place
    simp [place_object, hnone, Json.lookup]
  · intro doc e _
    exact e.reportedAs_eq

/-- Parameters in a member `admm` are read past a key that has no field, two members may be
exchanged, and of two fields with values of the wrong type the first decides. -/
theorem ofJson_reads_nested :
    ReadsAs (.object [("admm", .object [("maxiter", .integer 7), ("note", .null),
      ("verbose", .bool true)])])
      (.ok { standard with maxIterations := 7, verbose := true }) ∧
    ofJson (.object [("verbose", .bool true), ("maxiter", .integer 7)]) =
      ofJson (.object [("maxiter", .integer 7), ("verbose", .bool true)]) ∧
    ReadsAs (.object [("beta", .string "high"), ("maxiter", .null)]) (.error .wrongType) :=
  ⟨(ofJson_reads.1 _ _).1 (by rfl),
    ofJson_reads.2.2.2.1 _ _ (by decide) (List.Perm.swap _ _ _),
    (ofJson_reads.1 _ _).1 (by rfl)⟩

end BinarySplitting.Params
