/-!
# Lines

Lines end at a separator; the last one may do without.

* `lines_append_separator` — a line in front is cut off at its separator.
-/

namespace VersionChain.Text

variable {α : Type} [BEq α]

/-- The lines of a text without their separators. -/
def lines (separator : α) : List α → List (List α)
  | [] => []
  | c :: rest =>
    (c :: rest).takeWhile (· != separator) ::
      lines separator (((c :: rest).dropWhile (· != separator)).drop 1)
  termination_by text => text.length
  decreasing_by
    have h := (List.dropWhile_sublist (l := c :: rest) (· != separator)).length_le
    simp only [List.length_drop, List.length_cons] at *
    omega

theorem lines_append_separator [LawfulBEq α] (separator : α) (line rest : List α)
    (h : separator ∉ line) :
    lines separator (line ++ separator :: rest) = line :: lines separator rest := by
  have hline : ∀ c ∈ line, (c != separator) = true := fun c hc => by
    rw [bne_iff_ne]
    rintro rfl
    exact h hc
  have htake : (line ++ separator :: rest).takeWhile (· != separator) = line := by
    rw [List.takeWhile_append_of_pos hline]
    simp
  have hdrop : (line ++ separator :: rest).dropWhile (· != separator) = separator :: rest := by
    rw [List.dropWhile_append_of_pos hline]
    simp
  cases hl : line ++ separator :: rest with
  | nil => simp at hl
  | cons c tail => rw [lines, ← hl, htake, hdrop, List.drop_one, List.tail_cons]

end VersionChain.Text
