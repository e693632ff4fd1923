import WordStack.Store

/-!
# Equality of values

Values of one kind are compared by what they hold, objects and callbacks by identity. Two lists
are equal when they are the same list or when their elements are, one by one; lists are followed
as many levels deep as the store has lists.
-/

namespace WordStack

/-- Two rows of the same length that agree one by one. -/
def pairwiseEqual (eq : Value → Value → Bool) : List Value → List Value → Bool
  | [], [] => true
  | a :: as, b :: bs => eq a b && pairwiseEqual eq as bs
  | _, _ => false

namespace Store

/-- Equality of values whose lists are at most `depth` deep. -/
def equalTo (s : Store) : Nat → Value → Value → Bool
  | _, .integer a, .integer b => a == b
  | _, .float a, .float b => a == b
  | _, .boolean a, .boolean b => a == b
  | _, .text a, .text b => a == b
  | _, .symbol a, .symbol b => a == b
  | 0, .list a, .list b => a == b
  | depth + 1, .list a, .list b =>
    a == b || pairwiseEqual (s.equalTo depth) (s.items a).toList (s.items b).toList
  | _, .action a, .action b => a == b
  | _, .hostType a, .hostType b => a == b
  | _, .object a, .object b => a.index == b.index
  | _, .callback a, .callback b => a.index == b.index
  | _, _, _ => false

/-- Equality of values. -/
def equal (s : Store) (a b : Value) : Bool := s.equalTo (s.lists.size + 1) a b

end Store

end WordStack
