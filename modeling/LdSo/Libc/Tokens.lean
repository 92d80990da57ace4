import LdSo.Lib.Runs
import LdSo.Libc.String

open cmodel

namespace ldso.string

/-- An iteration over a string returns its maximal runs of bytes that are no
delimiters exactly when the string is not empty and no delimiter of it is first,
last or next to another one. In every other string some piece between the
delimiters is empty, and is returned as a token. -/
theorem strtok_tokens_runs_iff (s delim : CString) :
    Runs (· ∈ delim.chars) s.chars ((strtok_tokens s delim).map CString.chars) ↔
      NoEmptyPiece (· ∈ delim.chars) s.chars := by
  rw [strtok_tokens_eq_splitOnP]
  exact runs_splitOnP_iff

/-- A delimiter in front and a doubled one each give an empty token. -/
theorem strtok_tokens_not_runs :
    ¬ Runs (· ∈ (CString.lit ":").chars) (CString.lit ":/a::/b").chars
      ((strtok_tokens (.lit ":/a::/b") (.lit ":")).map CString.chars) := by
  rw [runs_iff_pieces]
  decide +kernel

/-- The empty string gives one empty token, not NULL at once. -/
example : strtok_tokens (.lit "") (.lit ":") = [.lit ""] := by decide +kernel

end ldso.string
