/-!
# Blanks, words and trimming

A blank is a character with the Unicode property `White_Space`. Lines are cut into words
at blanks, and trimmed of blanks at both ends.

* `words_eq_nil_iff` — a line has no words exactly if it is blank throughout.
-/

namespace VersionChain.Text

/-- Whether a character is a blank. -/
def isBlank (c : Char) : Bool :=
  let n := c.toNat
  (9 ≤ n ∧ n ≤ 13) ∨ n = 0x20 ∨ n = 0x85 ∨ n = 0xA0 ∨ n = 0x1680 ∨
    (0x2000 ≤ n ∧ n ≤ 0x200A) ∨ n = 0x2028 ∨ n = 0x2029 ∨ n = 0x202F ∨ n = 0x205F ∨ n = 0x3000

/-- The text without the blanks it starts with. -/
def trimStart (text : List Char) : List Char := text.dropWhile isBlank

/-- The text without the blanks it ends with. -/
def trimEnd (text : List Char) : List Char := (text.reverse.dropWhile isBlank).reverse

/-- The text without the blanks at both ends. -/
def trim (text : List Char) : List Char := trimEnd (trimStart text)

/-- The first word of a text that does not start with a blank, and what follows the blank
after it. -/
def splitWord (text : List Char) : List Char × List Char :=
  (text.takeWhile (!isBlank ·), (text.dropWhile (!isBlank ·)).drop 1)

theorem length_dropWhile_le (p : Char → Bool) (text : List Char) :
    (text.dropWhile p).length ≤ text.length :=
  (List.dropWhile_sublist p).length_le

theorem trimStart_eq_nil_iff (text : List Char) :
    trimStart text = [] ↔ ∀ c ∈ text, isBlank c = true := by
  induction text with
  | nil => simp [trimStart]
  | cons c rest ih =>
    by_cases h : isBlank c = true
    · rw [show trimStart (c :: rest) = trimStart rest from List.dropWhile_cons_of_pos h, ih]
      simp [h]
    · simp [trimStart, h]

/-- The words of a text: its longest stretches without blanks. -/
def words (text : List Char) : List (List Char) :=
  match _h : trimStart text with
  | [] => []
  | c :: rest =>
    (c :: rest).takeWhile (!isBlank ·) :: words ((c :: rest).dropWhile (!isBlank ·))
  termination_by text.length
  decreasing_by
    have hlen : (c :: rest).length ≤ text.length := _h ▸ length_dropWhile_le isBlank text
    have hc : isBlank c = false := by
      have := List.head?_dropWhile_not isBlank text
      rw [show text.dropWhile isBlank = c :: rest from _h] at this
      simpa using this
    have := length_dropWhile_le (!isBlank ·) rest
    simp only [List.dropWhile_cons, hc, Bool.not_false, if_true]
    simp only [List.length_cons] at hlen
    omega

/-- A text without words is blank throughout. -/
theorem words_eq_nil_iff (text : List Char) : words text = [] ↔ ∀ c ∈ text, isBlank c = true := by
  rw [← trimStart_eq_nil_iff, words]
  split <;> simp_all

end VersionChain.Text
