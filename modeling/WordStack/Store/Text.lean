import WordStack.Number.FloatText
import WordStack.Store

/-!
# Printed forms

A list is printed as the printed forms of its elements between parentheses, with a space between
two of them; a text is printed bare. Lists are followed through the store, as many levels deep as
the store has lists: a list that does not contain itself is never deeper than that.

`Store.printTo` says what is printed. `Store.print` writes it from left to right and copies
nothing, so that deep lists take no longer than wide ones; `Store.print_eq_printTo` says that it
comes to the same.
-/

namespace WordStack

/-- The printed form of what an object holds. -/
def Payload.print : Payload → String
  | .buffer contents => contents
  | .handlers callbacks => "Signal(" ++ countText callbacks.size ++ " handlers)"
  | .reflection => "runtime"
  | .plain printed => printed

/-- What is seen of a value before one looks into its elements. -/
inductive Outline where
  /-- A value that is printed as it stands. -/
  | whole (text : String)
  /-- Elements between parentheses, after a word that tells what they are. -/
  | row (head : String) (elements : List Value)

/-- Printed elements as a list is printed. -/
def parenthesized (elements : List String) : String :=
  "(" ++ String.intercalate " " elements ++ ")"

/-- Write elements after `out`, each after a space. -/
def writeRest (write : String → Value → String) (out : String) : List Value → String
  | [] => out
  | v :: vs => writeRest write (write (out ++ " ") v) vs

/-- Write elements after `out` as a list is printed. -/
def writeRow (write : String → Value → String) (out : String) : List Value → String
  | [] => out ++ parenthesized []
  | v :: vs => writeRest write (write (out ++ "(") v) vs ++ ")"

namespace Store

def outline (s : Store) : Value → Outline
  | .integer n => .whole (integerText n.toInt)
  | .float x => .whole (floatText x)
  | .boolean b => .whole (if b then "true" else "false")
  | .text t => .whole t
  | .symbol name => .whole name
  | .list l => .row "" (s.items l).toList
  | .action a => .whole a.text
  | .hostType type => .whole type.name
  | .object o => .whole (((s.payload o).map Payload.print).getD "")
  | .callback c => .row "callback" (s.items c.body).toList

/-- The printed form of a value whose lists are at most `depth` deep. -/
def printTo (s : Store) : Nat → Value → String
  | 0, v =>
    match s.outline v with
    | .whole text => text
    | .row head _ => head ++ parenthesized []
  | depth + 1, v =>
    match s.outline v with
    | .whole text => text
    | .row head vs => head ++ parenthesized (vs.map (s.printTo depth))

/-- Write the printed form of a value after `out`. -/
def writeTo (s : Store) : Nat → String → Value → String
  | 0, out, v =>
    match s.outline v with
    | .whole text => out ++ text
    | .row head _ => out ++ head ++ parenthesized []
  | depth + 1, out, v =>
    match s.outline v with
    | .whole text => out ++ text
    | .row head vs => writeRow (s.writeTo depth) (out ++ head) vs

/-- The printed form of a value. -/
def print (s : Store) (v : Value) : String :=
  match s.outline v with
  | .whole text => text
  | .row head vs => writeRow (s.writeTo s.lists.size) head vs

/-- The printed form of a list. -/
def printList (s : Store) (l : ListId) : String := s.print (.list l)

/-- The characters of texts and symbols, the printed form of anything else. -/
def textOf (s : Store) (v : Value) : String := v.name?.getD (s.print v)

/-- The printed form with the name of the type after it. -/
def describe (s : Store) (v : Value) : String := s.print v ++ " [" ++ v.typeName ++ "]"

end Store

/-! ## Writing is printing -/

theorem writeRest_eq {write : String → Value → String} {text : Value → String}
    (h : ∀ out v, write out v = out ++ text v) (out : String) (v : Value) (vs : List Value) :
    writeRest write (out ++ text v) vs =
      out ++ String.intercalate " " ((v :: vs).map text) := by
  induction vs generalizing out v with
  | nil => simp [writeRest]
  | cons w ws ih =>
    rw [writeRest, h, ih]
    simp [String.append_assoc]

theorem writeRow_eq {write : String → Value → String} {text : Value → String}
    (h : ∀ out v, write out v = out ++ text v) (out : String) (vs : List Value) :
    writeRow write out vs = out ++ parenthesized (vs.map text) := by
  cases vs with
  | nil => rfl
  | cons v vs => rw [writeRow, h, writeRest_eq h]; simp [parenthesized, String.append_assoc]

theorem Store.writeTo_eq (s : Store) (depth : Nat) (out : String) (v : Value) :
    s.writeTo depth out v = out ++ s.printTo depth v := by
  induction depth generalizing out v with
  | zero =>
    rw [writeTo, printTo]
    cases s.outline v with
    | whole text => rfl
    | row head vs => exact String.append_assoc ..
  | succ depth ih =>
    rw [writeTo, printTo]
    cases s.outline v with
    | whole text => rfl
    | row head vs => simp [writeRow_eq ih, String.append_assoc]

/-- What is printed, with the levels that the store can have. -/
theorem Store.print_eq_printTo (s : Store) (v : Value) :
    s.print v = s.printTo (s.lists.size + 1) v := by
  rw [print, printTo]
  cases s.outline v with
  | whole text => rfl
  | row head vs => exact writeRow_eq (s.writeTo_eq s.lists.size) head vs

end WordStack
