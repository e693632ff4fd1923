import WordStack.Arithmetic
import WordStack.Number.FloatRead

/-!
# Conversions

The types that the language knows can be converted to: a text is read as the type demands, without
the blanks around it, and any value has a text.
-/

namespace WordStack

/-- The integer part of a double, where it fits 64 bits. -/
def floatInt64? (x : Float) : Option Int64 :=
  match Binary64.ofFloat? x with
  | some b =>
    let n := signed b.negative (b.mantissa <<< b.scale.toNat >>> (-b.scale).toNat)
    if FitsInt64 n then some (Int64.ofInt n) else none
  | none => none

/-- The integer that a value converts to. -/
def Value.toInteger? : Value → Option Int64
  | integer n => some n
  | boolean b => some (if b then 1 else 0)
  | float x => floatInt64? x
  | text t => readInt64? (trimBlanks t.toList)
  | _ => none

/-- The double that a value converts to. -/
def Value.toFloat? : Value → Option Float
  | float x => some x
  | integer n => some n.toFloat
  | text t => readFloat? (trimBlanks t.toList)
  | _ => none

/-- The truth value that a value converts to. -/
def Value.toBoolean? : Value → Option Bool
  | text t =>
    match String.ofList ((trimBlanks t.toList).map Char.toLower) with
    | "true" => some true
    | "false" => some false
    | _ => none
  | v => v.truth?

/-- The types with a conversion of the language's own. -/
inductive NativeType where
  | integer
  | float
  | text
  | boolean
  | symbol
  deriving DecidableEq, Repr

/-- The native type of that name. -/
def NativeType.ofName? : String → Option NativeType
  | "Int64" | "Int32" => some integer
  | "Double" | "Single" => some float
  | "String" => some text
  | "Boolean" => some boolean
  | "Symbol" => some symbol
  | _ => none

/-- A converted value, or the error for a value that does not convert. -/
def Store.convertedOr (s : Store) (v : Value) (type : String) :
    Option Value → Except EvalError Value
  | some u => .ok u
  | none => .error (s.mismatch type v)

/-- The value as one of a native type. -/
def Store.convertNative (s : Store) (v : Value) : NativeType → Except EvalError Value
  | .integer => s.convertedOr v "Int64" (v.toInteger?.map .integer)
  | .float => s.convertedOr v "Double" (v.toFloat?.map .float)
  | .text => .ok (.text (s.textOf v))
  | .boolean => s.convertedOr v "Boolean" (v.toBoolean?.map .boolean)
  | .symbol => .ok (.symbol (s.textOf v))

/-- The value as one of the named type, or `none` where the language has no conversion to it. -/
def Store.convertBuiltin? (s : Store) (v : Value) (type : String) :
    Option (Except EvalError Value) :=
  (NativeType.ofName? type).map (s.convertNative v)

end WordStack
