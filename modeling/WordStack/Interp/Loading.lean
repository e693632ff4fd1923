import WordStack.Form
import WordStack.Interp

/-!
# Loading programs

A program text is read into a new list. Its directives act on the interpreter while it is read:
files come from the folder, and references bind words at once. Nothing is evaluated.
-/

namespace WordStack.Interp

/-- Answers directives with the interpreter's folder and registry. -/
def directives : DirectiveHandler Interp where
  loadFile name i := ((i.setting.folder.read name).mapError EvalError.message, i)
  reference module spaces i :=
    let (r, i) := importTypes module spaces i
    (r.mapError EvalError.message, i)

/-- The forms of a program text. -/
def readForms (source : String) : Eval (List Form) := fun i =>
  match tokenize i.setting.delimiters directives i.setting.loadDepth source i with
  | (.ok tokens, i) => (.ok (parseForms i.setting.delimiters tokens.toList), i)
  | (.error e, i) => (.error (.lex e), i)

/-- A new list of the values that a program text stands for. -/
def parse (source : String) : Eval ListId := do
  let forms ← readForms source
  modifyGet fun i =>
    let (l, store) := i.store.newProgram forms
    (l, { i with store })

def setCode (code : String) (i : Interp) : Interp := { i with code }

/-- Make the current text the current program; the old program stays if the text cannot be read. -/
def loadRoot : Eval ListId := do
  let l ← parse (← get).code
  modify fun i => { i with root := l }
  pure l

end WordStack.Interp
