import WordStack.Error
import WordStack.Lexeme
import WordStack.Store.Text

/-!
# Directives

The word `pragma` in a program text is followed by a directive, which loads a file in its place or
imports the types of a host module. `Directive.read` takes a directive from the front of a row of
lexemes and leaves the rest.
-/

namespace WordStack

inductive Directive where
  | loadFile (name : String)
  | reference (module : String) (namespaces : List String)
  deriving DecidableEq, Repr, Inhabited

/-- The word that announces a directive. -/
def Lexeme.isAnnouncement : Lexeme → Bool
  | .value (.symbol name) => name == "pragma"
  | _ => false

/-- The text of a value that the lexer makes: the characters of texts and symbols, and numbers as
they are printed. -/
def Value.literalText (v : Value) : String := ({} : Store).textOf v

/-- The delimiter `c` closes a group that `opener` opened: the same character for a toggle, else
any closing one. -/
def Delimiters.closesGroup (d : Delimiters) (opener c : Char) : Bool :=
  if d.role? opener = some .toggles then c == opener else d.role? c = some .closes

/-- The names up to the end of a group, and what follows it. -/
def readGroup (d : Delimiters) (opener : Char) :
    List (Nat × Lexeme) → Option (List String × List (Nat × Lexeme))
  | [] => none
  | (_, .value v) :: rest => (readGroup d opener rest).map fun r => (v.literalText :: r.1, r.2)
  | (_, .delimiter c) :: rest =>
    if d.closesGroup opener c then some ([], rest) else readGroup d opener rest

/-- The namespaces of a reference: a single one, or a group of them. -/
def readNamespaces (d : Delimiters) :
    List (Nat × Lexeme) → Except DirectiveError (List String × List (Nat × Lexeme))
  | [] => .error (.missingArgument "reference")
  | (_, .value v) :: rest => .ok ([v.literalText], rest)
  | (_, .delimiter opener) :: rest =>
    if d.role? opener = some .closes then .error (.missingArgument "reference")
    else
      match readGroup d opener rest with
      | some r => .ok r
      | none => .error .unclosedGroup

/-- The text of a value at the front, as the argument of a directive. -/
def readArgument (directive : String) :
    List (Nat × Lexeme) → Except DirectiveError (String × List (Nat × Lexeme))
  | (_, .value v) :: rest => .ok (v.literalText, rest)
  | _ => .error (.missingArgument directive)

/-- The directive at the front of a row of lexemes, and what follows it. -/
def Directive.read (d : Delimiters) :
    List (Nat × Lexeme) → Except DirectiveError (Directive × List (Nat × Lexeme))
  | (_, .value (.symbol "load-file")) :: rest =>
    (readArgument "load-file" rest).map fun (name, rest) => (.loadFile name, rest)
  | (_, .value (.symbol "reference")) :: rest =>
    match readArgument "reference" rest with
    | .error e => .error e
    | .ok (module, rest) =>
      (readNamespaces d rest).map fun (namespaces, rest) => (.reference module namespaces, rest)
  | (_, .value keyword) :: _ => .error (.unknown keyword.literalText)
  | _ => .error (.missingArgument "pragma")

/-! ## A directive takes lexemes away -/

theorem readGroup_length {d : Delimiters} {opener : Char} {ls : List (Nat × Lexeme)}
    {r : List String × List (Nat × Lexeme)} (h : readGroup d opener ls = some r) :
    r.2.length < ls.length := by
  induction ls generalizing r with
  | nil => simp [readGroup] at h
  | cons l rest ih =>
    rcases l with ⟨_, v | c⟩
    · simp only [readGroup, Option.map_eq_some_iff] at h
      obtain ⟨_, h', rfl⟩ := h
      have := ih h'
      exact Nat.lt_succ_of_lt this
    · simp only [readGroup] at h
      split at h
      · cases h; simp
      · exact Nat.lt_succ_of_lt (ih h)

theorem readNamespaces_length {d : Delimiters} {ls : List (Nat × Lexeme)}
    {r : List String × List (Nat × Lexeme)} (h : readNamespaces d ls = .ok r) :
    r.2.length < ls.length := by
  rcases ls with _ | ⟨⟨_, v | c⟩, rest⟩
  · cases h
  · cases h; simp
  · simp only [readNamespaces] at h
    split at h
    · cases h
    · split at h
      · next r' hr => cases h; exact Nat.lt_succ_of_lt (readGroup_length hr)
      · cases h

theorem readArgument_length {directive : String} {ls : List (Nat × Lexeme)}
    {r : String × List (Nat × Lexeme)} (h : readArgument directive ls = .ok r) :
    r.2.length < ls.length := by
  rcases ls with _ | ⟨⟨_, v | c⟩, rest⟩
  · cases h
  · cases h; simp
  · cases h

theorem Directive.read_length {d : Delimiters} {ls : List (Nat × Lexeme)}
    {r : Directive × List (Nat × Lexeme)} (h : Directive.read d ls = .ok r) :
    r.2.length < ls.length := by
  unfold Directive.read at h
  split at h
  · next rest =>
    cases ha : readArgument "load-file" rest with
    | error e => simp [ha, Except.map] at h
    | ok a =>
      have := readArgument_length ha
      simp only [ha, Except.map, Except.ok.injEq] at h
      subst h
      simpa using Nat.lt_succ_of_lt this
  · next rest =>
    cases ha : readArgument "reference" rest with
    | error e => simp [ha] at h
    | ok a =>
      have h1 := readArgument_length ha
      cases hn : readNamespaces d a.2 with
      | error e => simp [ha, hn, Except.map] at h
      | ok n =>
        have h2 := readNamespaces_length hn
        simp only [ha, hn, Except.map, Except.ok.injEq] at h
        subst h
        simp only [List.length_cons]
        omega
  · cases h
  · cases h

end WordStack
