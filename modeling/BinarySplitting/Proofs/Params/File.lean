import BinarySplitting.Proofs.Json.Overflow
import BinarySplitting.Proofs.Params.Document

/-!
# What a file gives

Whatever bytes a file has, and if there is none, loading gives admissible parameters or an error.
Every error is reported as the reader's own but one: while the file is read only errors of syntax
are handled, so a number that is too large is reported as the error of the document format in which
it arises (`load_ok_or_error`).
-/

namespace BinarySplitting.Params

/-- What was read gives admissible parameters, or an error of the reader's own, unless a number was
too large. -/
theorem ofRead_ok_or_error (read : Except Json.ReadError Json) :
    (∃ p, ofRead read = .ok p ∧ p.validate = .ok ()) ∨
    ∃ e, ofRead read = .error e ∧
      (e.reportedAs = .runtime ∧ read ≠ .error .overflow ∨
        e.reportedAs = .outOfRange ∧ read = .error .overflow) := by
  rcases read with (_ | _) | doc
  · exact .inr ⟨.malformed, rfl, .inl ⟨rfl, nofun⟩⟩
  · exact .inr ⟨.overflow, rfl, .inr ⟨rfl, rfl⟩⟩
  · rcases hread : ofJson doc with e | p
    · exact .inr ⟨.document e, by simp [ofRead, hread, Except.mapError],
        .inl ⟨e.reportedAs_eq, nofun⟩⟩
    · obtain ⟨-, -, -, hadmissible⟩ := ofJson_ok hread
      exact .inl ⟨p, by simp [ofRead, hread, Except.mapError], validate_ok_iff.2 hadmissible⟩

/-- Every file, whatever its bytes, and a missing file give parameters that validation accepts or an
error. The error is the reader's own, unless the file exists and its tokens reach a number that is
too large where a value may stand: this is reported as a number out of range, and only this. -/
theorem load_ok_or_error (content : Option ByteArray) :
    (∃ p, load content = .ok p ∧ p.validate = .ok ()) ∨
    ∃ e, load content = .error e ∧
      (e.reportedAs = .runtime ∧
          (∀ bytes, content = some bytes → ¬ Json.Overflows (Json.Token.ofBytes bytes)) ∨
        e.reportedAs = .outOfRange ∧
          ∃ bytes, content = some bytes ∧ Json.Overflows (Json.Token.ofBytes bytes)) := by
  cases content with
  | none => exact .inr ⟨.missing, rfl, .inl ⟨rfl, nofun⟩⟩
  | some bytes =>
    rcases ofRead_ok_or_error (Json.readBytes bytes) with ⟨p, hp, hvalid⟩ | ⟨e, he, hclass⟩
    · exact .inl ⟨p, hp, hvalid⟩
    · refine .inr ⟨e, he, ?_⟩
      rcases hclass with ⟨hruntime, hread⟩ | ⟨hrange, hread⟩
      · refine .inl ⟨hruntime, ?_⟩
        intro bytes' hbytes hoverflows
        cases hbytes
        exact hread (Json.ofTokens_overflow_iff.2 hoverflows)
      · exact .inr ⟨hrange, bytes, rfl, Json.ofTokens_overflow_iff.1 hread⟩

/-- A tolerance of `1e999` is not reported as the reader's own error. -/
theorem load_overflow :
    ∃ e, load (some (String.toUTF8 "\x7b\"tol\": 1e999\x7d")) = .error e ∧
      e.reportedAs ≠ .runtime := by
  refine ⟨.overflow, ?_, by decide⟩
  rw [load, Json.readBytes, Json.Token.ofBytes_toUTF8]
  rfl

end BinarySplitting.Params
