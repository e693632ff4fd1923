import WordStack.Text.Blank

/-!
# Delimiters

Which characters open a list, close one, or do either in turn. Blanks and the double quote keep
their own meaning and can be no delimiters. The set is the same for the lexer and the parser.
-/

namespace WordStack

/-- What a delimiter does. A toggle opens a list, and closes one where it opened one before. -/
inductive DelimiterRole where
  | opens
  | closes
  | toggles
  deriving DecidableEq, Repr, Inhabited

/-- The delimiters of a language variant. -/
structure Delimiters where
  roles : List (Char × DelimiterRole)
  deriving Repr, DecidableEq

namespace Delimiters

/-- Round brackets alone. -/
def parentheses : Delimiters := ⟨[('(', .opens), (')', .closes)]⟩

/-- Round brackets, and a bar that toggles. -/
def standard : Delimiters := ⟨[('(', .opens), (')', .closes), ('|', .toggles)]⟩

instance : Inhabited Delimiters := ⟨standard⟩

/-- What a character does, if it is a delimiter. -/
def role? (d : Delimiters) (c : Char) : Option DelimiterRole :=
  (d.roles.find? fun r => r.1 == c).map (·.2)

def isDelimiter (d : Delimiters) (c : Char) : Bool := (d.role? c).isSome

/-- Give a role to a character, in the place of any role that it has. Blanks and the double quote
get none. -/
def assign (d : Delimiters) (c : Char) (role : DelimiterRole) : Delimiters :=
  if c == '"' || isBlank c then d
  else if d.isDelimiter c then ⟨d.roles.map fun r => if r.1 == c then (c, role) else r⟩
  else ⟨d.roles ++ [(c, role)]⟩

/-- Angle brackets in addition. -/
def withAngles (d : Delimiters) : Delimiters := (d.assign '<' .opens).assign '>' .closes

/-- An apostrophe that toggles in addition. -/
def withApostrophe (d : Delimiters) : Delimiters := d.assign '\'' .toggles

/-- No delimiter is a blank or a double quote. -/
def Proper (d : Delimiters) : Prop := ∀ c, d.isDelimiter c = true → c ≠ '"' ∧ isBlank c = false

end Delimiters

end WordStack
