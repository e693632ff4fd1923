import WordStack.Error
import WordStack.Store.Equal
import WordStack.Store.Text

/-!
# Operators on values

What each operator does is chosen by the kinds of its operands. Integers are exact: a result that
does not fit 64 bits is an error. An integer beside a double becomes a double. A text can be added
to any value, which is then printed. All other kinds can at most be compared.
-/

namespace WordStack

/-- The answer of a comparison word about a total order; `none` for any other operator. -/
def Operator.holds? : Operator → Ordering → Option Bool
  | .equal, o => some o.isEq
  | .notEqual, o => some o.isNe
  | .less, o => some o.isLT
  | .lessOrEqual, o => some o.isLE
  | .greater, o => some o.isGT
  | .greaterOrEqual, o => some o.isGE
  | _, _ => none

/-- The error for operands that an operator is not made for. -/
def Operator.refuse (op : Operator) (lhs rhs : Value) : Except EvalError Value :=
  .error (.operandTypes op (lhs.typeName ++ " and " ++ rhs.typeName))

/-- The answer of a comparison word, or the error if `op` is none. -/
def Operator.compareOr (op : Operator) (o : Ordering) (lhs rhs : Value) : Except EvalError Value :=
  match op.holds? o with
  | some b => .ok (.boolean b)
  | none => op.refuse lhs rhs

/-- An integer result, if it fits. -/
def Operator.exact (op : Operator) (n : Int) : Except EvalError Value :=
  if FitsInt64 n then .ok (.integer (Int64.ofInt n)) else .error (.overflow op)

/-- The operators on two integers. Division goes toward zero, the remainder has the sign of the
dividend, and a shift counts its places modulo 64. -/
def Operator.onIntegers (op : Operator) (a b : Int64) : Except EvalError Value :=
  match op with
  | .add => op.exact (a.toInt + b.toInt)
  | .subtract => op.exact (a.toInt - b.toInt)
  | .multiply => op.exact (a.toInt * b.toInt)
  | .divide => if b = 0 then .error .divisionByZero else op.exact (a.toInt.tdiv b.toInt)
  | .modulo =>
    if b = 0 then .error .divisionByZero
    else (op.exact (a.toInt.tdiv b.toInt)).map fun _ =>
      .integer (Int64.ofInt (a.toInt.tmod b.toInt))
  | .and => .ok (.integer (a &&& b))
  | .or => .ok (.integer (a ||| b))
  | .exclusiveOr => .ok (.integer (a ^^^ b))
  | .leftShift => .ok (.integer (a <<< (b &&& 63)))
  | .rightShift => .ok (.integer (a >>> (b &&& 63)))
  | _ => op.compareOr (compare a.toInt b.toInt) (.integer a) (.integer b)

/-- The operators on two doubles. -/
def Operator.onFloats (op : Operator) (a b : Float) : Except EvalError Value :=
  match op with
  | .add => .ok (.float (a + b))
  | .subtract => .ok (.float (a - b))
  | .multiply => .ok (.float (a * b))
  | .divide => .ok (.float (a / b))
  | .modulo => .ok (.float (Binary64.remainder a b))
  | .equal => .ok (.boolean (a == b))
  | .notEqual => .ok (.boolean (a != b))
  | .less => .ok (.boolean (a < b))
  | .lessOrEqual => .ok (.boolean (a ≤ b))
  | .greater => .ok (.boolean (b < a))
  | .greaterOrEqual => .ok (.boolean (b ≤ a))
  | _ => op.refuse (.float a) (.float b)

/-- The operators on two truth values. -/
def Operator.onBooleans (op : Operator) (a b : Bool) : Except EvalError Value :=
  match op with
  | .and => .ok (.boolean (a && b))
  | .or => .ok (.boolean (a || b))
  | .exclusiveOr => .ok (.boolean (a ^^ b))
  | .equal => .ok (.boolean (a == b))
  | .notEqual => .ok (.boolean (a != b))
  | _ => op.refuse (.boolean a) (.boolean b)

/-- The operators on two values that can only be told apart. -/
def Operator.onEquality (op : Operator) (s : Store) (lhs rhs : Value) : Except EvalError Value :=
  match op with
  | .equal => .ok (.boolean (s.equal lhs rhs))
  | .notEqual => .ok (.boolean (!s.equal lhs rhs))
  | _ => op.refuse lhs rhs

/-- A handle of the host: a type or an object. -/
def Value.isHandle : Value → Bool
  | hostType _ | object _ => true
  | _ => false

/-- The operators on two values of other kinds, or of different kinds. -/
def Operator.onOthers (op : Operator) (s : Store) (lhs rhs : Value) : Except EvalError Value :=
  match lhs, rhs with
  | .symbol _, .symbol _ => op.onEquality s lhs rhs
  | .list _, .list _ => op.onEquality s lhs rhs
  | _, _ => if lhs.isHandle && rhs.isHandle then op.onEquality s lhs rhs else op.refuse lhs rhs

/-- `lhs op rhs`. -/
def Operator.binary (op : Operator) (s : Store) (lhs rhs : Value) : Except EvalError Value :=
  match lhs, rhs with
  | .integer a, .integer b => op.onIntegers a b
  | .float a, .float b => op.onFloats a b
  | .integer a, .float b => op.onFloats a.toFloat b
  | .float a, .integer b => op.onFloats a b.toFloat
  | .boolean a, .boolean b => op.onBooleans a b
  | .text a, .text b =>
    if op = .add then .ok (.text (a ++ b)) else op.compareOr (compare a b) lhs rhs
  | .text a, _ => if op = .add then .ok (.text (a ++ s.print rhs)) else op.onOthers s lhs rhs
  | _, .text b => if op = .add then .ok (.text (s.print lhs ++ b)) else op.onOthers s lhs rhs
  | _, _ => op.onOthers s lhs rhs

/-- `op operand`. -/
def Operator.unary (op : Operator) (operand : Value) : Except EvalError Value :=
  match op, operand with
  | .negate, .integer n => op.exact (-n.toInt)
  | .negate, .float x => .ok (.float (-x))
  | .not, .boolean b => .ok (.boolean !b)
  | .not, .integer n => .ok (.integer (~~~n))
  | .onesComplement, .integer n => .ok (.integer (~~~n))
  | _, _ => .error (.operandTypes op operand.typeName)

/-- The error for a value of the wrong kind. -/
def Store.mismatch (s : Store) (expected : String) (found : Value) : EvalError :=
  .typeMismatch expected (s.describe found)

/-- The truth of a condition. -/
def Store.isTrue (s : Store) (v : Value) : Except EvalError Bool :=
  match v.truth? with
  | some b => .ok b
  | none => .error (s.mismatch "condition" v)

end WordStack
