import BinarySplitting.Proofs.Engine.Pass
import BinarySplitting.Proofs.Qubo.Minimiser

/-!
# Snapping to binary vectors

What is accepted as a binary vector is one after the entries near zero and one have been moved
there, and in exact arithmetic a vector that is binary already is accepted as it is.
-/

namespace BinarySplitting

theorem mapM_eq_some {β : Type} {f : β → Option β} {entries : List β}
    (h : ∀ a ∈ entries, f a = some a) : entries.mapM f = some entries := by
  induction entries with
  | nil => rfl
  | cons a rest ih =>
    rw [List.mapM_cons, h a List.mem_cons_self, ih fun b hb => h b (List.mem_cons_of_mem a hb)]
    rfl

theorem snapTolerance_bounds : ∃ δ : ℝ, (snapTolerance : Exact) = .real δ ∧ 0 ≤ δ ∧ δ < 1 := by
  refine ⟨1e-9, rfl, ?_, ?_⟩ <;> norm_num

theorem snap?_of_binary {a : Exact} (h : a = 0.0 ∨ a = 1.0) : snap? a = some a := by
  obtain ⟨δ, hδ, hnonneg, hlt⟩ := snapTolerance_bounds
  unfold snap?
  rw [hδ]
  rcases h with rfl | rfl
  · rw [Exact.zero_literal, Exact.real_abs, abs_zero, if_pos (Exact.real_le_real.2 hnonneg)]
  · have hone : ¬ Exact.real |(1 : ℝ)| ≤ .real δ := by
      rw [Exact.real_le_real, abs_one]
      exact not_le.2 hlt
    rw [Exact.one_literal, Exact.real_abs, if_neg hone, Exact.real_sub, sub_self, Exact.real_abs,
      abs_zero, if_pos (Exact.real_le_real.2 hnonneg)]

theorem Vec.mem_toList {α : Type} [Scalar α] {v : Vec α} {a : α} :
    a ∈ v.toList ↔ ∃ i < v.size, v i = a := by
  unfold toList
  rw [Array.mem_toList_iff, Array.mem_iff_getElem]
  constructor
  · rintro ⟨i, hi, rfl⟩
    refine ⟨i, hi, ?_⟩
    simp [get, Array.getD, hi]
  · rintro ⟨i, hi, rfl⟩
    have hlt : i < v.entries.size := hi
    exact ⟨i, hlt, by simp [get, Array.getD, hlt]⟩

theorem Vec.IsBinary.snap?_eq {n : ℕ} {x : Vec Exact} (hx : x.IsBinary n) : x.snap? = some x := by
  have hentries : x.toList.mapM BinarySplitting.snap? = some x.toList := by
    apply mapM_eq_some
    intro a ha
    obtain ⟨i, hi, rfl⟩ := Vec.mem_toList.1 ha
    exact snap?_of_binary (hx.2 i (hx.1 ▸ hi))
  unfold Vec.snap?
  rw [hentries]
  rfl

/-! ## What is accepted is binary -/

section snapped

variable {α : Type} [Scalar α]

theorem mapM_some_forall {β γ : Type} {f : β → Option γ} {P : γ → Prop}
    (hf : ∀ a b, f a = some b → P b) {entries : List β} {out : List γ}
    (h : entries.mapM f = some out) : out.length = entries.length ∧ ∀ b ∈ out, P b := by
  induction entries generalizing out with
  | nil =>
    obtain rfl := Option.some.inj h
    exact ⟨rfl, nofun⟩
  | cons a rest ih =>
    rw [List.mapM_cons] at h
    obtain ⟨b, hb, h⟩ := Option.bind_eq_some_iff.1 h
    obtain ⟨tail, htail, h⟩ := Option.bind_eq_some_iff.1 h
    obtain rfl := Option.some.inj h
    obtain ⟨hlength, htail⟩ := ih htail
    refine ⟨by rw [List.length_cons, List.length_cons, hlength], ?_⟩
    intro c hc
    rcases List.mem_cons.1 hc with rfl | hc
    · exact hf a c hb
    · exact htail c hc

theorem snap?_eq_some {a b : α} (h : snap? a = some b) : b = 0.0 ∨ b = 1.0 := by
  unfold snap? at h
  split at h
  · exact Or.inl (Option.some.inj h).symm
  · split at h
    · exact Or.inr (Option.some.inj h).symm
    · cases h

theorem Vec.isBinary_of_snap? {v x : Vec α} (h : v.snap? = some x) : x.IsBinary v.size := by
  obtain ⟨entries, hentries, rfl⟩ := Option.map_eq_some_iff.1 h
  obtain ⟨hlength, hbinary⟩ := mapM_some_forall (fun _ _ => snap?_eq_some) hentries
  have hsize : (⟨entries.toArray⟩ : Vec α).size = v.size := by
    rw [Vec.size, List.size_toArray, hlength]
    exact Array.length_toList
  refine ⟨hsize, ?_⟩
  intro i hi
  apply hbinary
  have hmem : (⟨entries.toArray⟩ : Vec α) i ∈ (⟨entries.toArray⟩ : Vec α).toList :=
    Vec.mem_toList.2 ⟨i, hsize ▸ hi, rfl⟩
  simpa [Vec.toList] using hmem

theorem acceptBinary_isBinary {n : ℕ} {answer : Except (SolverFailure α) (Vec α)} {x : Vec α}
    (h : acceptBinary n answer = .ok x) : x.IsBinary n := by
  obtain ⟨v, -, hsize, hsnap⟩ := acceptBinary_ok h
  exact hsize ▸ Vec.isBinary_of_snap? hsnap

end snapped

end BinarySplitting
