import Mathlib.Data.List.Nodup
import WordStack.Form.Brackets

/-!
# How tokens are grouped

The parser calls itself at each delimiter that opens a list, and its caller goes on unless the text
has ended inside. That is the bracket machine: `runBrackets_eq` says where a run of the machine
stands once the parser has come to the end of a list. The tree that results, written out with a
bracket at both ends of each list, is what was read, token by token (`marksAll_runBrackets`).
-/

namespace WordStack

/-! ## The parser and the machine -/

namespace Brackets

variable {d : Delimiters} {closing closing' : List Char} {c : Char} {current : Array Form}
  {around : List (Array Form)}

/-- The state of the machine where the parser keeps a row of toggles that close. -/
def ofRow (current : Array Form) (around : List (Array Form)) (closing : List Char) : Brackets :=
  ⟨current, around, fun c => closing.contains c⟩

theorem start_eq_ofRow : start = ofRow #[] [] [] := by simp [start, ofRow]

theorem append_ofRow (forms : Array Form) :
    (ofRow current around closing).append forms = ofRow (current ++ forms) around closing := rfl

theorem openList_ofRow :
    (ofRow current around closing).openList = ofRow #[] (current :: around) closing := rfl

theorem setToggle_true_ofRow :
    (ofRow current around closing).setToggle c true = ofRow current around (c :: closing) := by
  simp only [setToggle, ofRow, mk.injEq, true_and]
  funext x
  by_cases hx : x = c <;> simp [hx]

/-- A row of toggles is a set as long as none is in it twice. -/
theorem setToggle_false_ofRow (hn : closing.Nodup) :
    (ofRow current around closing).setToggle c false =
      ofRow current around (closing.erase c) := by
  simp only [setToggle, ofRow, mk.injEq, true_and]
  funext x
  have hx : x ∈ closing.erase c ↔ x ≠ c ∧ x ∈ closing := hn.mem_erase_iff
  by_cases he : x = c <;> simp_all

theorem setToggle_closeList? (b : Brackets) (closes : Bool) :
    b.closeList?.map (·.setToggle c closes) = (b.setToggle c closes).closeList? := by
  obtain ⟨current, _ | ⟨outer, around⟩, closing⟩ := b <;> rfl

theorem delimiter?_of_stray (h : d.step? closing c = none) :
    (ofRow current around closing).delimiter? d c =
      some (ofRow (current.push (strayForm c)) around closing) := by
  unfold Delimiters.step? at h
  unfold delimiter?
  rcases hr : d.role? c with _ | _ | _ | _ <;> simp only [hr] at h ⊢
  · rw [append_ofRow, Array.push_eq_append]
  · cases h
  · cases h
  · split at h <;> cases h

/-- No toggle gets into the row twice. -/
theorem nodup_of_step? {step : BracketStep} (hn : closing.Nodup)
    (h : d.step? closing c = some (step, closing')) : closing'.Nodup := by
  unfold Delimiters.step? at h
  rcases hr : d.role? c with _ | _ | _ | _ <;> simp only [hr] at h
  · cases h
  · cases h
    exact hn
  · cases h
    exact hn
  · split at h
    · cases h
      exact hn.erase c
    · next hc =>
      cases h
      exact List.nodup_cons.2 ⟨by simpa using hc, hn⟩

theorem delimiter?_of_opens (h : d.step? closing c = some (.opens, closing')) :
    (ofRow current around closing).delimiter? d c =
      some (ofRow #[] (current :: around) closing') := by
  unfold Delimiters.step? at h
  unfold delimiter?
  rcases hr : d.role? c with _ | _ | _ | _ <;> simp only [hr] at h ⊢
  · cases h
  · cases h
    rw [openList_ofRow]
  · cases h
  · split at h
    · cases h
    · next hc =>
      cases h
      have hopen : ¬ (ofRow current around closing).closing c = true := hc
      rw [if_neg hopen, openList_ofRow, setToggle_true_ofRow]

theorem delimiter?_of_closes (hn : closing.Nodup)
    (h : d.step? closing c = some (.closes, closing')) :
    (ofRow current around closing).delimiter? d c =
      (ofRow current around closing').closeList? := by
  unfold Delimiters.step? at h
  unfold delimiter?
  rcases hr : d.role? c with _ | _ | _ | _ <;> simp only [hr] at h ⊢
  · cases h
  · cases h
  · cases h
    rfl
  · split at h
    · next hc =>
      cases h
      have hclose : (ofRow current around closing).closing c = true := hc
      rw [if_pos hclose, setToggle_closeList?, setToggle_false_ofRow hn]
    · cases h

end Brackets

open Brackets

/-- What the machine gives from where the parser has come to the end of a list inside of the lists
`around`. -/
def ParsedList.result {whole : List Token} (d : Delimiters) (p : ParsedList whole)
    (around : List (Array Form)) : Array Form :=
  if p.closed then
    match around with
    | [] => p.forms
    | outer :: around =>
      runBrackets d p.rest (ofRow (outer.push (.list p.forms.toList)) around p.closing)
  else (ofRow p.forms around p.closing).finish

/-- Outside of all lists the rest does not count, whether a delimiter or the end has come. -/
theorem ParsedList.result_nil {whole : List Token} (d : Delimiters) (p : ParsedList whole) :
    p.result d [] = p.forms := by
  unfold result
  split <;> rfl

/-- The parser reads a list as the machine does, whatever lists are around it. -/
theorem runBrackets_eq (d : Delimiters) {whole : List Token} (tokens : List Token)
    (h : sizeOf tokens ≤ sizeOf whole) (closing : List Char) (out : Array Form)
    (hn : closing.Nodup) :
    (parseList d tokens h closing out).closing.Nodup ∧ ∀ around,
      runBrackets d tokens (ofRow out around closing) =
        (parseList d tokens h closing out).result d around := by
  -- along the parser's own recursion; a list inside is read with `out` around it
  fun_induction parseList d tokens h closing out with
  | case1 whole closing out h =>
    refine ⟨hn, fun around => ?_⟩
    rw [runBrackets]
    rfl
  | case2 whole closing out v ts h _ ih =>
    refine ⟨(ih hn).1, fun around => ?_⟩
    rw [runBrackets, append_ofRow, ← (ih hn).2]
    simp
  | case3 whole closing out inner ts h _ ihInner _ ih =>
    refine ⟨(ih hn).1, fun around => ?_⟩
    have hinner := (ihInner List.nodup_nil).2 []
    rw [ParsedList.result_nil, ← start_eq_ofRow] at hinner
    rw [runBrackets, append_ofRow, ← (ih hn).2, hinner]
  | case4 whole closing out c ts h hs _ ih =>
    refine ⟨(ih hn).1, fun around => ?_⟩
    rw [runBrackets, delimiter?_of_stray hs, ← (ih hn).2]
  | case5 whole closing out c ts h closing' hs =>
    refine ⟨nodup_of_step? hn hs, fun around => ?_⟩
    rw [runBrackets, delimiter?_of_closes hn hs]
    cases around <;> rfl
  | case6 whole closing out c ts h closing' hs nested forms rest_le hclosed _ ihNested _ ih =>
    obtain ⟨hnested, hrun⟩ := ihNested (nodup_of_step? hn hs)
    refine ⟨(ih hnested).1, fun around => ?_⟩
    rw [runBrackets, delimiter?_of_opens hs, ← (ih hnested).2]
    dsimp only
    rw [hrun, ParsedList.result, if_pos hclosed]
  | case7 whole closing out c ts h closing' hs nested forms rest_le hclosed _ ihNested _ =>
    obtain ⟨hnested, hrun⟩ := ihNested (nodup_of_step? hn hs)
    refine ⟨hnested, fun around => ?_⟩
    rw [runBrackets, delimiter?_of_opens hs]
    dsimp only
    rw [hrun, ParsedList.result, if_neg hclosed]
    rfl

theorem runBrackets_start (d : Delimiters) (tokens : List Token) :
    runBrackets d tokens .start = (parseList d tokens (Nat.le_refl _) [] #[]).forms := by
  rw [start_eq_ofRow, (runBrackets_eq d tokens (Nat.le_refl _) [] #[] List.nodup_nil).2,
    ParsedList.result_nil]

/-! ## Trees written out -/

/-- What a tree is written out with: its leaves, and a bracket at both ends of each list. -/
inductive Mark where
  | opens
  | closes
  | leaf (v : Value)

mutual

def Form.marks : Form → List Mark
  | .atom v => [.leaf v]
  | .list forms => .opens :: (Form.marksAll forms ++ [.closes])

def Form.marksAll : List Form → List Mark
  | [] => []
  | f :: fs => f.marks ++ Form.marksAll fs

end

theorem Form.marksAll_append (fs gs : List Form) :
    Form.marksAll (fs ++ gs) = Form.marksAll fs ++ Form.marksAll gs := by
  induction fs with
  | nil => rfl
  | cons f fs ih => simp [Form.marksAll, ih]

/-- What is read of tokens inside of `depth` lists, with the toggles that close: a mark for each
token up to the delimiter that ends the program, those of a loaded file in its place, and at the
end of the text a closing bracket for each list that is open. -/
def readMarks (d : Delimiters) : List Token → Nat → (Char → Bool) → List Mark
  | [], depth, _ => List.replicate depth .closes
  | .value v :: ts, depth, closing => .leaf v :: readMarks d ts depth closing
  | .splice inner :: ts, depth, closing =>
    readMarks d inner 0 (fun _ => false) ++ readMarks d ts depth closing
  | .delimiter c :: ts, depth, closing =>
    match d.role? c with
    | none => .leaf (.symbol (String.singleton c)) :: readMarks d ts depth closing
    | some .opens => .opens :: readMarks d ts (depth + 1) closing
    | some .closes =>
      match depth with
      | 0 => []
      | depth + 1 => .closes :: readMarks d ts depth closing
    | some .toggles =>
      if closing c then
        match depth with
        | 0 => []
        | depth + 1 => .closes :: readMarks d ts depth fun x => if x = c then false else closing x
      else .opens :: readMarks d ts (depth + 1) fun x => if x = c then true else closing x
termination_by ts => sizeOf ts

/-- What is written of lists that are open, the innermost first. -/
def marksAround : List (Array Form) → List Mark
  | [] => []
  | outer :: around => marksAround around ++ Form.marksAll outer.toList ++ [.opens]

namespace Brackets

/-- What is written of the lists that are open. -/
def marks (b : Brackets) : List Mark := marksAround b.around ++ Form.marksAll b.current.toList

theorem marks_append (b : Brackets) (forms : Array Form) :
    (b.append forms).marks = b.marks ++ Form.marksAll forms.toList := by
  simp [marks, append, Form.marksAll_append]

theorem marks_openList (b : Brackets) : b.openList.marks = b.marks ++ [.opens] := by
  simp [marks, openList, marksAround, Form.marksAll]

theorem marks_setToggle (b : Brackets) (c : Char) (closes : Bool) :
    (b.setToggle c closes).marks = b.marks := rfl

theorem marks_closeList {b b' : Brackets} (h : b.closeList? = some b') :
    b'.marks = b.marks ++ [.closes] ∧ b.around.length = b'.around.length + 1 ∧
      b'.closing = b.closing := by
  obtain ⟨current, _ | ⟨outer, around⟩, closing⟩ := b
  · cases h
  · cases h
    simp [marks, marksAround, Form.marksAll_append, Form.marksAll, Form.marks]

theorem marksAll_finish (b : Brackets) :
    Form.marksAll b.finish.toList = b.marks ++ List.replicate b.around.length .closes := by
  obtain ⟨current, around, closing⟩ := b
  unfold finish
  induction around generalizing current with
  | nil => simp [marks, marksAround]
  | cons outer around ih =>
    simp only [List.foldl_cons]
    rw [ih]
    simp [marks, marksAround, Form.marksAll_append, Form.marksAll, Form.marks, List.replicate_succ]

theorem closeList?_eq_none {b : Brackets} (h : b.closeList? = none) : b.around = [] := by
  obtain ⟨current, _ | ⟨outer, around⟩, closing⟩ := b
  · rfl
  · cases h

theorem delimiter?_none {d : Delimiters} {b : Brackets} {c : Char} (ts : List Token)
    (h : b.delimiter? d c = none) :
    b.around = [] ∧ readMarks d (.delimiter c :: ts) b.around.length b.closing = [] := by
  unfold delimiter? at h
  rw [readMarks.eq_def d (.delimiter c :: ts)]
  dsimp only
  rcases hr : d.role? c with _ | _ | _ | _ <;> simp only [hr] at h ⊢
  · cases h
  · cases h
  · simp [closeList?_eq_none h]
  · split at h
    · next hclose => simp [closeList?_eq_none (Option.map_eq_none_iff.1 h), hclose]
    · cases h

theorem delimiter?_some {d : Delimiters} {b b' : Brackets} {c : Char} (ts : List Token)
    (h : b.delimiter? d c = some b') :
    b'.marks ++ readMarks d ts b'.around.length b'.closing =
      b.marks ++ readMarks d (.delimiter c :: ts) b.around.length b.closing := by
  unfold delimiter? at h
  rw [readMarks.eq_def d (.delimiter c :: ts)]
  dsimp only
  rcases hr : d.role? c with _ | _ | _ | _ <;> simp only [hr] at h ⊢
  · cases h
    rw [marks_append]
    simp [append, strayForm, Form.marksAll, Form.marks]
  · cases h
    rw [marks_openList]
    simp [openList]
  · obtain ⟨hm, hl, hc⟩ := marks_closeList h
    rw [hl, hm, hc]
    simp
  · split at h
    · next hclose =>
      obtain ⟨b₁, h₁, rfl⟩ := Option.map_eq_some_iff.1 h
      obtain ⟨hm, hl, hc⟩ := marks_closeList h₁
      rw [hl, marks_setToggle, hm]
      simp [hclose, setToggle, hc]
    · next hopen =>
      cases h
      rw [marks_setToggle, marks_openList]
      simp [hopen, setToggle, openList]

end Brackets

/-- The machine loses no token before the end of the program, and has none twice or in another
place. -/
theorem marksAll_runBrackets (d : Delimiters) (tokens : List Token) (b : Brackets) :
    Form.marksAll (runBrackets d tokens b).toList =
      b.marks ++ readMarks d tokens b.around.length b.closing := by
  fun_induction runBrackets d tokens b with
  | case1 b => rw [marksAll_finish, readMarks]
  | case2 v ts b ih =>
    rw [ih, marks_append, readMarks]
    simp [append, Form.marksAll, Form.marks]
  | case3 inner ts b ihInner ih =>
    rw [ih, marks_append, readMarks, ihInner]
    simp [append, marks, start, marksAround, Form.marksAll]
  | case4 c ts b h =>
    obtain ⟨ha, hr⟩ := delimiter?_none ts h
    rw [hr]
    simp [marks, ha, marksAround]
  | case5 c ts b b' h ih => rw [ih, delimiter?_some ts h]

/-- A program is grouped by the bracket machine, and what is read of it, token by token, is the tree
written out. -/
theorem grouped_by_brackets (d : Delimiters) (tokens : List Token) :
    parseForms d tokens = (runBrackets d tokens .start).toList ∧
      Form.marksAll (parseForms d tokens) = readMarks d tokens 0 fun _ => false := by
  have hp : parseForms d tokens = (runBrackets d tokens .start).toList := by
    rw [runBrackets_start, parseForms]
  refine ⟨hp, ?_⟩
  rw [hp, marksAll_runBrackets]
  simp [marks, start, marksAround, Form.marksAll]

end WordStack
