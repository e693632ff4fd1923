import WordStack.Text.CaseTable

/-!
# Upper and lower case

The full case mappings of Unicode: a letter may become several, and the Greek sigma has a form of
its own at the end of a word.
-/

namespace WordStack

/-- The counterpart of a letter in a table of runs. -/
def caseShift? (runs : Array CaseRun) (n : Nat) : Option Nat :=
  (runs.find? fun r => r.first ≤ n && n ≤ r.last && (n - r.first) % r.step == 0).map fun r =>
    ((n : Int) + r.shift).toNat

/-- A letter in the other case: the group of letters if it has one, else the single letter. -/
def mapCase (groups : Array (Nat × List Nat)) (runs : Array CaseRun) (c : Char) : List Char :=
  match groups.find? fun g => g.1 == c.toNat with
  | some g => g.2.map Char.ofNat
  | none => [((caseShift? runs c.toNat).map Char.ofNat).getD c]

def inRanges (ranges : Array (Nat × Nat)) (c : Char) : Bool :=
  ranges.any fun r => r.1 ≤ c.toNat && c.toNat ≤ r.2

/-- The first character that is not passed over has a case. -/
def casedNext (cs : List Char) : Bool :=
  match cs.dropWhile (inRanges ignorableRanges) with
  | [] => false
  | c :: _ => inRanges casedRanges c

/-- Lower case of what follows the characters `before`, which are listed from the last one. A
capital sigma after a letter and before none is a final one. -/
def lowerAfter (before : List Char) : List Char → List Char
  | [] => []
  | c :: cs =>
    let lower :=
      if c = 'Σ' then if casedNext before && !casedNext cs then ['ς'] else ['σ']
      else mapCase lowerGroups lowerRuns c
    lower ++ lowerAfter (c :: before) cs

/-- The text in upper case. -/
def upperText (s : String) : String :=
  String.ofList (s.toList.flatMap (mapCase upperGroups upperRuns))

/-- The text in lower case. -/
def lowerText (s : String) : String := String.ofList (lowerAfter [] s.toList)

end WordStack
