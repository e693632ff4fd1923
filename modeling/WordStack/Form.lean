import WordStack.Delimiters
import WordStack.Store
import WordStack.Token

/-!
# Forms

A parsed program is a tree: lists inside of lists, with values at the leaves. Parsing never fails.
A delimiter closes the innermost open list whatever opened it, a list that is not closed ends with
the text, and a closing delimiter outside of all lists ends the program. A toggle closes where the
same toggle opened before and was not yet closed. The tokens of a loaded file are parsed alone.
-/

namespace WordStack

/-- A parsed tree. -/
inductive Form where
  | atom (v : Value)
  | list (forms : List Form)
  deriving Inhabited

/-- What a delimiter does at the place where it is read. -/
inductive BracketStep where
  | opens
  | closes
  deriving DecidableEq, Repr

/-- What a character does when the toggles in `closing` are open, and the toggles that are open
after it; nothing for a character that is no delimiter. -/
def Delimiters.step? (d : Delimiters) (closing : List Char) (c : Char) :
    Option (BracketStep × List Char) :=
  match d.role? c with
  | none => none
  | some .opens => some (.opens, closing)
  | some .closes => some (.closes, closing)
  | some .toggles =>
    if closing.contains c then some (.closes, closing.erase c) else some (.opens, c :: closing)

/-- The symbol that a stray character stands for. -/
def strayForm (c : Char) : Form := .atom (.symbol (String.singleton c))

/-- The elements of a list, whether a delimiter closed it, and what is left for the list around
it: the open toggles and the tokens, which are no more than those of `whole`. -/
structure ParsedList (whole : List Token) where
  forms : Array Form
  closed : Bool
  closing : List Char
  rest : List Token
  rest_le : sizeOf rest ≤ sizeOf whole

theorem ParsedList.rest_lt {ts : List Token} (p : ParsedList ts) (t : Token) :
    sizeOf p.rest < sizeOf (t :: ts) := by
  have := p.rest_le
  simp only [List.cons.sizeOf_spec]
  omega

theorem le_of_tokens_cons {t : Token} {ts whole : List Token}
    (h : sizeOf (t :: ts) ≤ sizeOf whole) : sizeOf ts ≤ sizeOf whole := by
  simp only [List.cons.sizeOf_spec] at h
  omega

/-- Parse the rest of a list of which the elements `out` are read. -/
def parseList (d : Delimiters) {whole : List Token} (tokens : List Token)
    (h : sizeOf tokens ≤ sizeOf whole) (closing : List Char) (out : Array Form) :
    ParsedList whole :=
  match tokens with
  | [] => ⟨out, false, closing, [], h⟩
  | .value v :: ts => parseList d ts (le_of_tokens_cons h) closing (out.push (.atom v))
  | .splice inner :: ts =>
    parseList d ts (le_of_tokens_cons h) closing
      (out ++ (parseList d inner (Nat.le_refl _) [] #[]).forms)
  | .delimiter c :: ts =>
    match d.step? closing c with
    | none => parseList d ts (le_of_tokens_cons h) closing (out.push (strayForm c))
    | some (.closes, closing) => ⟨out, true, closing, ts, le_of_tokens_cons h⟩
    | some (.opens, closing) =>
      let nested := parseList d ts (Nat.le_refl _) closing #[]
      let out := out.push (.list nested.forms.toList)
      have rest_le := Nat.le_trans (Nat.le_of_lt (nested.rest_lt (.delimiter c))) h
      if nested.closed then parseList d nested.rest rest_le nested.closing out
      else ⟨out, false, nested.closing, nested.rest, rest_le⟩
termination_by sizeOf tokens
decreasing_by
  · simp only [List.cons.sizeOf_spec]; omega
  · simp only [List.cons.sizeOf_spec, Token.splice.sizeOf_spec]; omega
  · simp only [List.cons.sizeOf_spec]; omega
  · simp only [List.cons.sizeOf_spec]; omega
  · simp only [List.cons.sizeOf_spec]; omega
  · exact nested.rest_lt _

/-- The forms of a program. -/
def parseForms (d : Delimiters) (tokens : List Token) : List Form :=
  (parseList d tokens (Nat.le_refl _) [] #[]).forms.toList

mutual

/-- The value of a form, with new lists for its lists, the inner ones first. -/
def Form.allocate : Form → Store → Value × Store
  | .atom v, s => (v, s)
  | .list forms, s =>
    let (vs, s) := Form.allocateAll forms s
    let (l, s) := s.newList vs.toArray
    (.list l, s)

/-- The values of several forms. -/
def Form.allocateAll : List Form → Store → List Value × Store
  | [], s => ([], s)
  | f :: fs, s =>
    let (v, s) := f.allocate s
    let (vs, s) := Form.allocateAll fs s
    (v :: vs, s)

end

/-- A new list that holds the values of the forms. -/
def Store.newProgram (s : Store) (forms : List Form) : ListId × Store :=
  let (vs, s) := Form.allocateAll forms s
  s.newList vs.toArray

end WordStack
