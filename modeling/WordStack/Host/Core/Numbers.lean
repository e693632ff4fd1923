import WordStack.Conversion
import WordStack.Host.Registry

/-!
# Numbers of the core module

The types `Math`, `Int64`, `Double` and `Boolean`.
-/

namespace WordStack.CoreModule

open HostProgram

/-- The greater of two doubles: the second if neither is greater, as of two zeros, and the one that
is a number if the other is not. -/
def greaterFloat (x y : Float) : Float := if y.isNaN || y < x then x else y

/-- The lesser of two doubles: the second if neither is less, as of two zeros, and the one that is
a number if the other is not. -/
def lesserFloat (x y : Float) : Float := if y.isNaN || x < y then x else y

/-- Two integers stay integers; any other two numbers are taken as doubles. -/
def numericPair (onIntegers : Int64 → Int64 → Int64) (onFloats : Float → Float → Float) :
    MemberBody := fun inv => do
  match ← inv.arg 0, ← inv.arg 1 with
  | .integer a, .integer b => pure (some (.integer (onIntegers a b)))
  | _, _ =>
    let x ← inv.float 0
    let y ← inv.float 1
    pure (some (.float (onFloats x y)))

def absolute : MemberBody := fun inv => do
  match ← inv.arg 0 with
  | .integer n =>
    if FitsInt64 n.toInt.natAbs then pure (some (.integer (Int64.ofInt n.toInt.natAbs)))
    else .fail (.failed "Abs overflows Int64")
  | _ =>
    let x ← inv.float 0
    pure (some (.float x.abs))

def math : TypeDescriptor :=
  { type := .core "Math" : TypeDescriptor }
    |>.method "Abs" .ofType (some 1) absolute
    |>.method "Max" .ofType (some 2)
      (numericPair (fun a b => if a < b then b else a) greaterFloat)
    |>.method "Min" .ofType (some 2)
      (numericPair (fun a b => if b < a then b else a) lesserFloat)
    |>.method "Pow" .ofType (some 2) (fun inv => do
      let x ← inv.float 0
      let y ← inv.float 1
      pure (some (.float (x.pow y))))
    |>.method "Sqrt" .ofType (some 1) (fun inv => do
      let x ← inv.float 0
      pure (some (.float x.sqrt)))
    |>.field "PI" .ofType (fun _ => pure (some (.float 3.141592653589793)))

/-- Read a text as a value of the named type. -/
def parse (type : String) : MemberBody := fun inv => do
  let t ← inv.text 0
  let s ← getStore
  match s.convertBuiltin? (.text t) type with
  | some (.ok v) => pure (some v)
  | _ => .fail (.conversion t type)

/-- A type of numbers: read from a text, with its greatest and its least. -/
def numberType (name : String) (greatest least : Value) : TypeDescriptor :=
  { type := .core name : TypeDescriptor }
    |>.method "Parse" .ofType (some 1) (parse name)
    |>.field "MaxValue" .ofType (fun _ => pure (some greatest))
    |>.field "MinValue" .ofType (fun _ => pure (some least))

def int64 : TypeDescriptor :=
  numberType "Int64" (.integer Int64.maxValue) (.integer Int64.minValue)

/-- The bits of the greatest finite double. -/
def greatestMagnitude : Nat := Binary64.infiniteMagnitude - 1

def double : TypeDescriptor :=
  numberType "Double" (.float (Binary64.ofMagnitude false greatestMagnitude))
    (.float (Binary64.ofMagnitude true greatestMagnitude))

def boolean : TypeDescriptor :=
  { type := .core "Boolean" : TypeDescriptor }
    |>.method "Parse" .ofType (some 1) (parse "Boolean")

end WordStack.CoreModule
