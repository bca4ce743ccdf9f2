import Mathlib.Data.List.Basic
import BinarySplitting.Json.Reader

/-!
# Numbers that are too large

Reading a document fails in two ways. It reports a number that is too large exactly when the tokens
up to such a number can begin a document in which a value comes next (`ofTokens_overflow_iff`);
anything else that is no document is malformed.
-/

namespace BinarySplitting.Json

/-! ## One token -/

def Expectation.AwaitsValue : Expectation → Prop
  | .value _ => True
  | .firstItem _ => True
  | _ => False

theorem Expectation.startValue_overflow_iff {frames : List Frame} {token : Token} :
    startValue frames token = .error .overflow ↔ token = .overflow := by
  cases token <;> simp [startValue]

/-- A step reports a number that is too large where a value may stand, and nowhere else. -/
theorem Expectation.step_overflow_iff {e : Expectation} {token : Token} :
    e.step token = .error .overflow ↔ token = .overflow ∧ e.AwaitsValue := by
  cases e with
  | value frames => simp [step, AwaitsValue, startValue_overflow_iff]
  | firstItem frames =>
    cases token <;> simp [step, AwaitsValue, startValue]
  | firstKey frames => cases token <;> simp [step, AwaitsValue]
  | key members frames => cases token <;> simp [step, AwaitsValue]
  | colon members name frames => cases token <;> simp [step, AwaitsValue]
  | after v frames =>
    rcases frames with _ | ⟨_ | _, frames⟩ <;> cases token <;> simp [step, AwaitsValue]

/-! ## A sequence of tokens -/

/-- The tokens reach, from an expectation, a number that is too large where a value may stand. -/
def OverflowsFrom (e : Expectation) (tokens : List Token) : Prop :=
  ∃ before after e', tokens = before ++ .overflow :: after ∧
    before.foldlM Expectation.step e = .ok e' ∧ e'.AwaitsValue

/-- The tokens reach a number that is too large where a value may stand. -/
def Overflows (tokens : List Token) : Prop := OverflowsFrom (.value []) tokens

theorem overflowsFrom_cons {e : Expectation} {token : Token} {rest : List Token} :
    OverflowsFrom e (token :: rest) ↔
      token = .overflow ∧ e.AwaitsValue ∨ ∃ e', e.step token = .ok e' ∧ OverflowsFrom e' rest := by
  constructor
  · rintro ⟨before, after, e', heq, hbefore, hawaits⟩
    cases before with
    | nil =>
      cases heq
      cases hbefore
      exact .inl ⟨rfl, hawaits⟩
    | cons first before =>
      obtain ⟨rfl, rfl⟩ := List.cons.inj heq
      rw [List.foldlM_cons] at hbefore
      rcases hstep : e.step token with failure | next
      · simp [hstep, bind, Except.bind] at hbefore
      · rw [hstep] at hbefore
        exact .inr ⟨next, rfl, before, after, e', rfl, hbefore, hawaits⟩
  · rintro (⟨rfl, hawaits⟩ | ⟨next, hstep, before, after, e', rfl, hbefore, hawaits⟩)
    · exact ⟨[], rest, e, rfl, rfl, hawaits⟩
    · refine ⟨token :: before, after, e', rfl, ?_, hawaits⟩
      rw [List.foldlM_cons, hstep]
      exact hbefore

/-- The machine stops at the first token that may not stand where it stands, so a number that is too
large is reported only if everything before it is in order. -/
theorem foldlM_overflow_iff {tokens : List Token} {e : Expectation} :
    tokens.foldlM Expectation.step e = .error .overflow ↔ OverflowsFrom e tokens := by
  induction tokens generalizing e with
  | nil => simp [OverflowsFrom, pure, Except.pure]
  | cons token rest ih =>
    rw [List.foldlM_cons, overflowsFrom_cons, ← Expectation.step_overflow_iff]
    rcases hstep : e.step token with failure | next
    · simp [bind, Except.bind]
    · simp [bind, Except.bind, ih]

theorem ofTokens_overflow_iff {tokens : List Token} :
    ofTokens tokens = .error .overflow ↔ Overflows tokens := by
  rw [Overflows, ← foldlM_overflow_iff]
  unfold ofTokens
  rcases tokens.foldlM Expectation.step (.value []) with failure | e
  · simp [bind, Except.bind]
  · simp only [bind, Except.bind, reduceCtorEq, iff_false]
    split
    · exact nofun
    · exact nofun

end BinarySplitting.Json
