import WordStack.Delimiters
import WordStack.Number.FloatRead
import WordStack.Value

/-!
# Lexemes

A program text is a row of words, quoted texts and delimiters, with blanks between them where they
are needed. Each comes with the byte at which it starts. A quoted text runs to the next double
quote, or to the end; a word runs as far as it can.
-/

namespace WordStack

/-- A literal or a word as a value, or a single delimiter. -/
inductive Lexeme where
  | value (v : Value)
  | delimiter (c : Char)
  deriving Inhabited

/-- A word is an integer if it reads as one, else a double if it holds a digit and reads as one,
else a symbol. -/
def readWord (cs : List Char) : Value :=
  match readInt64? cs with
  | some n => .integer n
  | none =>
    match if cs.any Char.isDigit then readFloat? cs else none with
    | some x => .float x
    | none => .symbol (String.ofList cs)

/-- How many bytes the characters take in UTF-8. -/
def byteLength (cs : List Char) : Nat := cs.foldr (fun c n => c.utf8Size + n) 0

/-- A character that can stand in a word. -/
def Delimiters.inWord (d : Delimiters) (c : Char) : Bool :=
  !isBlank c && c != '"' && !d.isDelimiter c

/-- The lexemes of a text, the first character of which is at byte `offset`. -/
def scan (d : Delimiters) (offset : Nat) : List Char → List (Nat × Lexeme)
  | [] => []
  | c :: cs =>
    if isBlank c then scan d (offset + c.utf8Size) cs
    else if c = '"' then
      let body := cs.takeWhile (· != '"')
      (offset, .value (.text (String.ofList body))) ::
        scan d (offset + byteLength body + 2) ((cs.dropWhile (· != '"')).drop 1)
    else if d.isDelimiter c then (offset, .delimiter c) :: scan d (offset + c.utf8Size) cs
    else
      let word := c :: cs.takeWhile d.inWord
      (offset, .value (readWord word)) ::
        scan d (offset + byteLength word) (cs.dropWhile d.inWord)
termination_by cs => cs.length
decreasing_by
  · simp
  · have := (cs.dropWhile_suffix (· != '"')).length_le
    simp only [List.length_drop, List.length_cons]
    omega
  · simp
  · exact Nat.lt_succ_of_le (List.dropWhile_suffix _).length_le

end WordStack
