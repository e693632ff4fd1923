import WordStack.Host.Registry
import WordStack.Text.Case

/-!
# Texts of the core module

The types `String` and `StringBuilder`. Positions count characters.
-/

namespace WordStack.CoreModule

open HostProgram

/-- The texts of values one after the other. -/
def concatenated (s : Store) (values : Array Value) : String :=
  String.join (values.toList.map s.textOf)

/-- The number of characters of a text. -/
def charCount (t : String) : Value := .integer (Int64.ofInt t.length)

/-- A row of characters occurs in another one. -/
def occursIn (part : List Char) : List Char → Bool
  | [] => part.isEmpty
  | c :: cs => part.isPrefixOf (c :: cs) || occursIn part cs

def substring : MemberBody := fun inv => do
  let t ← inv.thisText
  let start ← inv.position 0
  let rest := t.toList.drop start
  if inv.args.size > 1 then
    let count ← inv.position 1
    pure (some (.text (String.ofList (rest.take count))))
  else pure (some (.text (String.ofList rest)))

def string : TypeDescriptor :=
  { type := .core "String" : TypeDescriptor }
    |>.method "Concat" .ofType none (fun inv => do
      let t ← query (concatenated · inv.args)
      pure (some (.text t)))
    |>.property "Length" .ofInstance (fun inv => do
      let t ← inv.thisText
      pure (some (charCount t)))
    |>.method "ToUpper" .ofInstance (some 0) (fun inv => do
      let t ← inv.thisText
      pure (some (.text (upperText t))))
    |>.method "ToLower" .ofInstance (some 0) (fun inv => do
      let t ← inv.thisText
      pure (some (.text (lowerText t))))
    |>.method "Substring" .ofInstance none substring
    |>.method "Contains" .ofInstance (some 1) (fun inv => do
      let t ← inv.thisText
      let part ← inv.text 0
      pure (some (.boolean (occursIn part.toList t.toList))))

/-- The contents of a text that grows. -/
def bufferContents? : Payload → Option String
  | .buffer contents => some contents
  | _ => none

def stringBuilder : TypeDescriptor :=
  { type := .core "StringBuilder" : TypeDescriptor }
    |>.constructor none (fun inv => do
      let t ← query (concatenated · inv.args)
      some <$> newObject (.core "StringBuilder") (.buffer t))
    |>.procedure "Append" .ofInstance (some 1) (fun inv => do
      let (o, contents) ← inv.thisObject "StringBuilder" bufferContents?
      let v ← inv.arg 0
      let t ← query (·.textOf v)
      modifyStore (·.setPayload o (.buffer (contents ++ t)))
      pure none)
    |>.method "ToString" .ofInstance (some 0) (fun inv => do
      let (_, contents) ← inv.thisObject "StringBuilder" bufferContents?
      pure (some (.text contents)))
    |>.property "Length" .ofInstance (fun inv => do
      let (_, contents) ← inv.thisObject "StringBuilder" bufferContents?
      pure (some (charCount contents)))

end WordStack.CoreModule
