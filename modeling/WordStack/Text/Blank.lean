/-!
# Blank characters

Blanks are the characters with the Unicode property White_Space. They separate the words of a
program, and they are dropped at both ends of a text before it is read as a number or a truth
value.
-/

namespace WordStack

/-- A character with the property White_Space. -/
def isBlank (c : Char) : Bool :=
  let n := c.toNat
  (9 ≤ n && n ≤ 13) || n == 0x20 || n == 0x85 || n == 0xA0 || n == 0x1680 ||
    (0x2000 ≤ n && n ≤ 0x200A) || n == 0x2028 || n == 0x2029 || n == 0x202F || n == 0x205F ||
    n == 0x3000

/-- The characters left when the blanks at both ends are dropped. -/
def trimBlanks (cs : List Char) : List Char :=
  ((cs.dropWhile isBlank).reverse.dropWhile isBlank).reverse

theorem isBlank_of_isWhitespace {c : Char} (h : c.isWhitespace = true) : isBlank c = true := by
  simp only [Char.isWhitespace, Bool.or_eq_true, decide_eq_true_eq] at h
  rcases h with ((rfl | rfl) | rfl) | rfl <;> decide

theorem trimBlanks_nil : trimBlanks [] = [] := rfl

/-- A text whose first and last characters are no blanks is left alone. -/
theorem trimBlanks_of_bare {cs : List Char} (hd : ∀ c ∈ cs.head?, isBlank c = false)
    (lt : ∀ c ∈ cs.getLast?, isBlank c = false) : trimBlanks cs = cs := by
  have keep : ∀ l : List Char, (∀ c ∈ l.head?, isBlank c = false) → l.dropWhile isBlank = l := by
    intro l h
    cases l with
    | nil => rfl
    | cons a l => simp [h a (by simp)]
  rw [trimBlanks, keep cs hd, keep cs.reverse (by simpa using lt), List.reverse_reverse]

end WordStack
