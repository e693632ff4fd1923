import WordStack.Directive

/-!
# Tokens

Tokens are the lexemes of a text after its directives have been followed. A loaded file becomes
one token that holds its own tokens. Directives are answered by a `DirectiveHandler`, whose state
goes through the text from left to right and outlives a failure.
-/

namespace WordStack

inductive Token where
  | value (v : Value)
  | delimiter (c : Char)
  | splice (tokens : List Token)
  deriving Inhabited

def Lexeme.token : Lexeme → Token
  | .value v => .value v
  | .delimiter c => .delimiter c

/-- What answers directives: the text of a file, and the import of a module's namespaces. Failures
are worded. -/
structure DirectiveHandler (σ : Type) where
  loadFile : String → σ → Except String String × σ
  reference : String → List String → σ → Except String Unit × σ

/-- Answers no directive. -/
def DirectiveHandler.none : DirectiveHandler Unit where
  loadFile _ s := (.error "pragmas are not available here", s)
  reference _ _ s := (.error "pragmas are not available here", s)

variable {σ : Type}

/-- The tokens `out`, and after them those of the given lexemes, with files loaded inside of files
up to `depth` more levels. `limit` is the depth that was allowed at first. -/
def expand (d : Delimiters) (h : DirectiveHandler σ) (limit depth : Nat)
    (ls : List (Nat × Lexeme)) (out : Array Token) (s : σ) :
    Except LexError (Array Token) × σ :=
  match ls with
  | [] => (.ok out, s)
  | (offset, l) :: rest =>
    if l.isAnnouncement then
      match _hr : Directive.read d rest with
      | .error e => (.error ⟨offset, e⟩, s)
      | .ok (.loadFile name, rest') =>
        match depth with
        | 0 => (.error ⟨offset, .nestedTooDeep limit⟩, s)
        | deeper + 1 =>
          match h.loadFile name s with
          | (.error m, s) => (.error ⟨offset, .failed "load-file" m⟩, s)
          | (.ok text, s) =>
            match expand d h limit deeper (scan d 0 text.toList) #[] s with
            | (.error e, s) => (.error e, s)
            | (.ok inner, s) =>
              expand d h limit (deeper + 1) rest' (out.push (.splice inner.toList)) s
      | .ok (.reference module namespaces, rest') =>
        match h.reference module namespaces s with
        | (.error m, s) => (.error ⟨offset, .failed "reference" m⟩, s)
        | (.ok (), s) => expand d h limit depth rest' out s
    else expand d h limit depth rest (out.push l.token) s
termination_by (depth, ls.length)
decreasing_by
  · exact Prod.Lex.left _ _ (Nat.lt_succ_self _)
  · exact Prod.Lex.right _ (Nat.lt_succ_of_lt (Directive.read_length _hr))
  · exact Prod.Lex.right _ (Nat.lt_succ_of_lt (Directive.read_length _hr))
  · exact Prod.Lex.right _ (Nat.lt_succ_self _)

/-- How deep files may load files, where nothing else is said. -/
def defaultLoadDepth : Nat := 32

/-- The tokens of a text, with files loaded inside of files up to `limit` levels. -/
def tokenize (d : Delimiters) (h : DirectiveHandler σ) (limit : Nat) (source : String) (s : σ) :
    Except LexError (Array Token) × σ :=
  expand d h limit limit (scan d 0 source.toList) #[] s

end WordStack
