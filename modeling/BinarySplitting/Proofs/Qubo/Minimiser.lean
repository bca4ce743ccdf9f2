import BinarySplitting.Qubo.Basic
import BinarySplitting.Proofs.Linear.Real

/-!
# Minimisers of quadratic binary problems

What it means to solve a quadratic binary problem: a binary vector whose value is at most that of
every binary vector. A finite problem with a square quadratic form is a problem over the reals, on
which the value is the polynomial it stands for (`Qubo.value_ofReal`).
-/

namespace BinarySplitting

open Matrix

section generic

variable {α : Type} [Scalar α]

def Vec.IsBinary (n : ℕ) (x : Vec α) : Prop :=
  x.size = n ∧ ∀ i < n, x i = 0.0 ∨ x i = 1.0

def Qubo.IsMinimiser (q : Qubo α) (x : Vec α) : Prop :=
  x.IsBinary q.numVariables ∧ ∀ x', x'.IsBinary q.numVariables → q.value x ≤ q.value x'

def Qubo.isFinite (q : Qubo α) : Bool :=
  q.quadratic.allFinite && q.linear.allFinite && Scalar.isFinite q.constant

end generic

variable {n : ℕ}

theorem Vec.isBinary_ofReal {f : Fin n → ℝ} (hf : ∀ i, f i = 0 ∨ f i = 1) :
    (Vec.ofReal f).IsBinary n := by
  refine ⟨by simp, ?_⟩
  intro i hi
  rw [Vec.get_ofReal f hi, Exact.zero_literal, Exact.one_literal, Exact.real_inj, Exact.real_inj]
  exact hf ⟨i, hi⟩

theorem Vec.IsBinary.exists_ofReal {x : Vec Exact} (hx : x.IsBinary n) :
    ∃ f : Fin n → ℝ, (∀ i, f i = 0 ∨ f i = 1) ∧ x = Vec.ofReal f := by
  obtain ⟨hsize, hentry⟩ := hx
  have hreal : ∀ i : Fin n, ∃ r : ℝ, (r = 0 ∨ r = 1) ∧ x i = .real r := by
    intro i
    rcases hentry i i.isLt with h | h
    · exact ⟨0, Or.inl rfl, by rw [h, Exact.zero_literal]⟩
    · exact ⟨1, Or.inr rfl, by rw [h, Exact.one_literal]⟩
  choose f hf hx using hreal
  refine ⟨f, hf, Vec.ext (by simp [hsize]) fun i hi => ?_⟩
  rw [Vec.get_ofReal f (hsize ▸ hi)]
  exact hx ⟨i, hsize ▸ hi⟩

namespace Qubo

noncomputable def ofReal (Q : Matrix (Fin n) (Fin n) ℝ) (l : Fin n → ℝ) (c : ℝ) : Qubo Exact :=
  ⟨Mat.ofReal Q, Vec.ofReal l, .real c⟩

variable (Q : Matrix (Fin n) (Fin n) ℝ) (l : Fin n → ℝ) (c : ℝ)

@[simp] theorem numVariables_ofReal : (ofReal Q l c).numVariables = n :=
  Vec.size_ofReal l

theorem isSquare_ofReal : (ofReal Q l c).isSquare = true := by
  simp [isSquare, Mat.hasShape, ofReal, numVariables]

theorem isFinite_ofReal : (ofReal Q l c).isFinite = true := by
  simp only [isFinite, Bool.and_eq_true]
  exact ⟨⟨Mat.allFinite_ofReal Q, Vec.allFinite_ofReal l⟩, Exact.isFinite_iff.2 ⟨c, rfl⟩⟩

theorem value_ofReal (x : Fin n → ℝ) :
    (ofReal Q l c).value (Vec.ofReal x) = .real (x ⬝ᵥ Q *ᵥ x + l ⬝ᵥ x + c) := by
  simp [value, ofReal]

theorem eq_ofReal {q : Qubo Exact} (hsquare : q.isSquare = true) (hfin : q.isFinite = true) :
    ∃ (Q : Matrix (Fin q.numVariables) (Fin q.numVariables) ℝ) (l : Fin q.numVariables → ℝ) (c : ℝ),
      q = ofReal Q l c := by
  simp only [isFinite, Bool.and_eq_true] at hfin
  obtain ⟨Q, hQ⟩ := Mat.eq_ofReal hsquare hfin.1.1
  obtain ⟨l, hl⟩ := Vec.eq_ofReal (n := q.numVariables) rfl hfin.1.2
  obtain ⟨c, hc⟩ := Exact.isFinite_iff.1 hfin.2
  exact ⟨Q, l, c, by rw [ofReal, ← hQ, ← hl, ← hc]⟩

end Qubo

end BinarySplitting
