import WordStack.Proofs.Grouping
import WordStack.Proofs.Trees

/-!
# Loaded files in the tree of a program

The tokens of a loaded file are grouped alone, and what they are grouped into is put where the file
was loaded. So the tree of a program is a tree with a hole in it, a `Place`, filled with the forms
of the file, and the hole depends on the tokens around the file alone (`place_of_tokens`). While the
bracket machine reads what comes after the file, the hole moves outward with the lists that close:
`Hollow` is a state of the machine with the hole in one of its rows, and each step keeps it there.
-/

namespace WordStack

/-! ## Places -/

/-- A row of forms with a hole. -/
inductive Place where
  /-- What is put here is not read. -/
  | nowhere (forms : List Form)
  | among (before after : List Form)
  /-- The hole is in a list that is an element of the row. -/
  | within (before : List Form) (place : Place) (after : List Form)

namespace Place

/-- The row with forms in the hole. -/
def fill : Place → List Form → List Form
  | nowhere forms, _ => forms
  | among before after, fs => before ++ fs ++ after
  | within before place after, fs => before ++ .list (place.fill fs) :: after

/-- The row with more behind it. -/
def append : Place → List Form → Place
  | nowhere forms, more => nowhere (forms ++ more)
  | among before after, more => among before (after ++ more)
  | within before place after, more => within before place (after ++ more)

/-- The list that closes is the last element of the one around it. -/
@[simp] theorem toArray_fill_within (row : Array Form) (p : Place) (fs : List Form) :
    ((within row.toList p []).fill fs).toArray = row.push (.list (p.fill fs)) :=
  Array.toList_inj.1 (by simp [fill])

@[simp] theorem fill_append (p : Place) (more fs : List Form) :
    (p.append more).fill fs = p.fill fs ++ more := by
  cases p <;> simp [append, fill]

/-- The row with what `inner` is filled with in the hole. -/
def comp : Place → Place → Place
  | nowhere forms, _ => nowhere forms
  | among before after, .nowhere forms => nowhere (before ++ forms ++ after)
  | among before after, .among before' after' => among (before ++ before') (after' ++ after)
  | among before after, .within before' place after' =>
    within (before ++ before') place (after' ++ after)
  | within before place after, inner => within before (place.comp inner) after

@[simp] theorem fill_comp (p inner : Place) (fs : List Form) :
    (p.comp inner).fill fs = p.fill (inner.fill fs) := by
  induction p with
  | nowhere forms => rfl
  | among before after => cases inner <;> simp [comp, fill]
  | within before place after ih => simp [comp, fill, ih]

end Place

/-! ## The machine with a hole in its state -/

/-- A state of the bracket machine with a hole in one of its rows, in front of which are the rows of
the lists that have been opened since. -/
structure Hollow where
  inner : List (Array Form)
  place : Place
  outer : List (Array Form)
  closing : Char → Bool

/-- The state with forms in the hole. -/
def Hollow.fill (h : Hollow) (fs : List Form) : Brackets :=
  let row := (h.place.fill fs).toArray
  match h.inner with
  | [] => ⟨row, h.outer, h.closing⟩
  | current :: inner => ⟨current, inner ++ row :: h.outer, h.closing⟩

namespace Brackets

/-- What is put in the hole of the states does not change their shape. -/
def Uniform (b : List Form → Brackets) : Prop := ∃ h : Hollow, ∀ fs, b fs = h.fill fs

variable {b : List Form → Brackets}

theorem uniform_append_hole (b : Brackets) : Uniform fun fs => b.append fs.toArray :=
  ⟨⟨[], .among b.current.toList [], b.around, b.closing⟩,
    fun fs => by simp [append, Hollow.fill, Place.fill]⟩

theorem Uniform.append (h : Uniform b) (forms : Array Form) :
    Uniform fun fs => (b fs).append forms := by
  obtain ⟨⟨inner, place, outer, closing⟩, hb⟩ := h
  cases inner with
  | nil =>
    refine ⟨⟨[], place.append forms.toList, outer, closing⟩, fun fs => ?_⟩
    simp [hb, Hollow.fill, Brackets.append]
  | cons current inner =>
    refine ⟨⟨(current ++ forms) :: inner, place, outer, closing⟩, fun fs => ?_⟩
    simp [hb, Hollow.fill, Brackets.append]

theorem Uniform.openList (h : Uniform b) : Uniform fun fs => (b fs).openList := by
  obtain ⟨⟨inner, place, outer, closing⟩, hb⟩ := h
  refine ⟨⟨#[] :: inner, place, outer, closing⟩, fun fs => ?_⟩
  cases inner <;> simp [hb, Hollow.fill, Brackets.openList]

theorem Uniform.setToggle (h : Uniform b) (c : Char) (closes : Bool) :
    Uniform fun fs => (b fs).setToggle c closes := by
  obtain ⟨⟨inner, place, outer, closing⟩, hb⟩ := h
  refine ⟨⟨inner, place, outer, fun x => if x = c then closes else closing x⟩, fun fs => ?_⟩
  cases inner <;> simp [hb, Hollow.fill, Brackets.setToggle]

/-- Whether there is a list to close does not depend on what is in the hole. -/
theorem Uniform.closeList? (h : Uniform b) :
    (∀ fs, (b fs).closeList? = none) ∨
      ∃ b', Uniform b' ∧ ∀ fs, (b fs).closeList? = some (b' fs) := by
  obtain ⟨⟨inner, place, outer, closing⟩, hb⟩ := h
  match inner, outer with
  | [], [] => exact .inl fun fs => by simp [hb, Hollow.fill, Brackets.closeList?]
  | [], row :: outer =>
    -- the list with the hole closes, and becomes the last element of the one around it
    refine .inr ⟨_, ⟨⟨[], .within row.toList place [], outer, closing⟩, fun _ => rfl⟩, fun fs => ?_⟩
    simp [hb, Hollow.fill, Brackets.closeList?]
  | [current], outer =>
    refine .inr ⟨_, ⟨⟨[], place.append [.list current.toList], outer, closing⟩, fun _ => rfl⟩,
      fun fs => ?_⟩
    simp [hb, Hollow.fill, Brackets.closeList?]
  | current :: row :: inner, outer =>
    refine .inr ⟨_, ⟨⟨row.push (.list current.toList) :: inner, place, outer, closing⟩,
      fun _ => rfl⟩, fun fs => ?_⟩
    simp [hb, Hollow.fill, Brackets.closeList?]

theorem Uniform.delimiter? (h : Uniform b) (d : Delimiters) (c : Char) :
    (∀ fs, (b fs).delimiter? d c = none) ∨
      ∃ b', Uniform b' ∧ ∀ fs, (b fs).delimiter? d c = some (b' fs) := by
  have hclosing : ∃ closing, ∀ fs, (b fs).closing = closing := by
    obtain ⟨⟨inner, place, outer, closing⟩, hb⟩ := h
    refine ⟨closing, fun fs => ?_⟩
    cases inner <;> simp [hb, Hollow.fill]
  obtain ⟨closing, hclosing⟩ := hclosing
  unfold Brackets.delimiter?
  rcases d.role? c with _ | _ | _ | _ <;> simp only [hclosing]
  · exact .inr ⟨_, h.append _, fun _ => rfl⟩
  · exact .inr ⟨_, h.openList, fun _ => rfl⟩
  · exact h.closeList?
  · cases closing c with
    | true =>
      rcases h.closeList? with hnone | ⟨b', hb', hsome⟩
      · exact .inl fun fs => by simp [hnone]
      · exact .inr ⟨_, hb'.setToggle c false, fun fs => by simp [hsome]⟩
    | false => exact .inr ⟨_, h.openList.setToggle c true, fun _ => rfl⟩

/-- Where the outermost list closes, the hole is in it, or in none. -/
theorem Uniform.current (h : Uniform b) : ∃ p : Place, ∀ fs, (b fs).current.toList = p.fill fs := by
  obtain ⟨⟨inner, place, outer, closing⟩, hb⟩ := h
  cases inner with
  | nil => exact ⟨place, fun fs => by simp [hb, Hollow.fill]⟩
  | cons current inner =>
    exact ⟨.nowhere current.toList, fun fs => by simp [hb, Hollow.fill, Place.fill]⟩

/-- Every open list ends at the end of the text. -/
theorem Uniform.finish (h : Uniform b) : ∃ p : Place, ∀ fs, (b fs).finish.toList = p.fill fs := by
  obtain ⟨⟨inner, place, outer, closing⟩, hb⟩ := h
  have closed (outer : List (Array Form)) (place : Place) : ∃ p : Place, ∀ fs,
      (Brackets.mk (place.fill fs).toArray outer closing).finish.toList = p.fill fs := by
    induction outer generalizing place with
    | nil => exact ⟨place, fun fs => by simp [Brackets.finish]⟩
    | cons row outer ih =>
      obtain ⟨p, hp⟩ := ih (.within row.toList place [])
      refine ⟨p, fun fs => ?_⟩
      rw [← hp]
      simp [Brackets.finish]
  have open_rows (inner : List (Array Form)) (current : Array Form) (place : Place) :
      ∃ p : Place, ∀ fs,
        (Brackets.mk current (inner ++ (place.fill fs).toArray :: outer) closing).finish.toList =
          p.fill fs := by
    induction inner generalizing current with
    | nil =>
      obtain ⟨p, hp⟩ := closed outer (place.append [.list current.toList])
      refine ⟨p, fun fs => ?_⟩
      rw [← hp]
      simp [Brackets.finish]
    | cons row inner ih =>
      obtain ⟨p, hp⟩ := ih (row.push (.list current.toList))
      refine ⟨p, fun fs => ?_⟩
      rw [← hp]
      simp [Brackets.finish]
  cases inner with
  | nil =>
    obtain ⟨p, hp⟩ := closed outer place
    exact ⟨p, fun fs => by rw [hb, ← hp]; rfl⟩
  | cons current inner =>
    obtain ⟨p, hp⟩ := open_rows inner current place
    exact ⟨p, fun fs => by rw [hb, ← hp]; rfl⟩

end Brackets

open Brackets

variable {d : Delimiters}

/-- What comes after the hole is grouped in the same way whatever is put in it. -/
theorem Brackets.Uniform.run {b : List Form → Brackets} (h : Uniform b) (ts : List Token) :
    ∃ p : Place, ∀ fs, (runBrackets d ts (b fs)).toList = p.fill fs := by
  induction ts generalizing b with
  | nil =>
    obtain ⟨p, hp⟩ := h.finish
    exact ⟨p, fun fs => by rw [runBrackets, hp]⟩
  | cons t ts ih =>
    cases t with
    | value v =>
      obtain ⟨p, hp⟩ := ih (h.append #[.atom v])
      exact ⟨p, fun fs => by rw [runBrackets, hp]⟩
    | splice inner =>
      obtain ⟨p, hp⟩ := ih (h.append (runBrackets d inner .start))
      exact ⟨p, fun fs => by rw [runBrackets, hp]⟩
    | delimiter c =>
      rcases h.delimiter? d c with hnone | ⟨b', hb', hsome⟩
      · obtain ⟨p, hp⟩ := h.current
        exact ⟨p, fun fs => by rw [runBrackets, hnone]; exact hp fs⟩
      · obtain ⟨p, hp⟩ := ih hb'
        exact ⟨p, fun fs => by rw [runBrackets, hsome]; exact hp fs⟩

/-- The machine comes to the end of some tokens, or it stops among them and reads no others. -/
theorem runBrackets_front (ts : List Token) (b : Brackets) :
    (∃ out, ∀ more, runBrackets d (ts ++ more) b = out) ∨
      ∃ b', ∀ more, runBrackets d (ts ++ more) b = runBrackets d more b' := by
  induction ts generalizing b with
  | nil => exact .inr ⟨b, fun _ => rfl⟩
  | cons t ts ih =>
    cases t with
    | value v => simpa only [List.cons_append, runBrackets] using ih (b.append #[.atom v])
    | splice inner =>
      simpa only [List.cons_append, runBrackets] using ih (b.append (runBrackets d inner .start))
    | delimiter c =>
      simp only [List.cons_append, runBrackets]
      cases b.delimiter? d c with
      | none => exact .inl ⟨b.current, fun _ => rfl⟩
      | some b' => exact ih b'

theorem runBrackets_values (vs : List Value) (more : List Token) (b : Brackets) :
    runBrackets d (vs.map .value ++ more) b =
      runBrackets d more (b.append (vs.map Form.atom).toArray) := by
  induction vs generalizing b with
  | nil => simp [append]
  | cons v vs ih =>
    rw [List.map_cons, List.cons_append, runBrackets, ih]
    simp [append]

theorem parseForms_eq (ts : List Token) : parseForms d ts = (runBrackets d ts .start).toList := by
  rw [runBrackets_start, parseForms]

/-- The tokens around a file say where its forms are put, and so they do with values in its
place. -/
theorem place_of_tokens (d : Delimiters) (before after : List Token) :
    ∃ p : Place, (∀ file, parseForms d (before ++ .splice file :: after) =
        p.fill (parseForms d file)) ∧
      ∀ vs : List Value, parseForms d (before ++ (vs.map .value ++ after)) =
        p.fill (vs.map .atom) := by
  simp only [parseForms_eq]
  rcases runBrackets_front (d := d) before .start with ⟨out, hout⟩ | ⟨b, hb⟩
  · exact ⟨.nowhere out.toList, fun file => by rw [hout, Place.fill],
      fun vs => by rw [hout, Place.fill]⟩
  · obtain ⟨p, hp⟩ := (uniform_append_hole b).run (d := d) after
    refine ⟨p, fun file => ?_, fun vs => ?_⟩
    · rw [hb, runBrackets, ← hp, Array.toArray_toList]
    · rw [hb, runBrackets_values, ← hp]

/-! ## Files inside of files -/

/-- The tokens of a program with a hole for those of a file, which the program loads or one of its
files does. -/
inductive FilePlace where
  | here (before after : List Token)
  | inside (before : List Token) (place : FilePlace) (after : List Token)

/-- The program with the tokens of the file. -/
def FilePlace.fill : FilePlace → List Token → List Token
  | here before after, file => before ++ .splice file :: after
  | inside before place after, file => before ++ .splice (place.fill file) :: after

/-- However deep a file is loaded, the program around it is grouped in one way. -/
theorem FilePlace.exists_place (d : Delimiters) (t : FilePlace) :
    ∃ p : Place, ∀ file, parseForms d (t.fill file) = p.fill (parseForms d file) := by
  induction t with
  | here before after =>
    obtain ⟨p, hp, -⟩ := place_of_tokens d before after
    exact ⟨p, hp⟩
  | inside before place after ih =>
    obtain ⟨q, hq⟩ := ih
    obtain ⟨p, hp, -⟩ := place_of_tokens d before after
    exact ⟨p.comp q, fun file => by rw [FilePlace.fill, hp, hq, Place.fill_comp]⟩

/-! ## Values in the place of a file -/

/-- A row is related to the same row filled with related forms. -/
theorem Place.fill_related {R : Form → Form → Prop} (refl : ∀ f, R f f)
    (list : ∀ fs gs, List.Forall₂ R fs gs → R (.list fs) (.list gs)) {fs gs : List Form}
    (h : List.Forall₂ R fs gs) (p : Place) : List.Forall₂ R (p.fill fs) (p.fill gs) := by
  have same (hs : List Form) : List.Forall₂ R hs hs := List.forall₂_same.2 fun f _ => refl f
  induction p with
  | nowhere forms => exact same forms
  | among before after => exact List.rel_append (List.rel_append (same before) h) (same after)
  | within before place after ih =>
    exact List.rel_append (same before) (.cons (list _ _ ih) (same after))

/-- What stands for a row with values in the hole stands for the row with the forms that the values
stand for. -/
theorem Place.stands_fill {s : Store} {fs : List Form} {vs : List Value}
    (h : List.Forall₂ (fun f v => f.Stands s v) fs vs) (p : Place) {v : Value}
    (hv : (Form.list (p.fill (vs.map .atom))).Stands s v) : (Form.list (p.fill fs)).Stands s v := by
  let Implies (g f : Form) : Prop := ∀ u, g.Stands s u → f.Stands s u
  have elementwise {gs fs : List Form} (himp : List.Forall₂ Implies gs fs) {us : List Value}
      (hgs : List.Forall₂ (fun g u => g.Stands s u) gs us) :
      List.Forall₂ (fun f u => f.Stands s u) fs us := by
    induction himp generalizing us with
    | nil => cases hgs; exact .nil
    | cons hgf _ ih =>
      obtain _ | ⟨hg, hgs⟩ := hgs
      exact .cons (hgf _ hg) (ih hgs)
  have list (gs fs : List Form) (himp : List.Forall₂ Implies gs fs) :
      Implies (.list gs) (.list fs) := by
    rintro u hu
    obtain ⟨l, rfl, hlive, hitems⟩ := Form.stands_list.1 hu
    exact Form.stands_list.2 ⟨l, rfl, hlive, elementwise himp hitems⟩
  have leaves : List.Forall₂ Implies (vs.map .atom) fs := by
    refine List.forall₂_map_left_iff.2 (h.flip.imp fun v f hf u hu => ?_)
    rwa [Form.stands_atom.1 hu]
  exact list _ _ (p.fill_related (fun _ _ => id) list leaves) v hv

/-- The tokens of a file are grouped alone: the program around it is grouped in one way, whatever
the file is, and the values of the file's forms have the same place as the file. -/
theorem loaded_files_hygienic (d : Delimiters) :
    (∀ (before file after : List Token) (s : Store),
      let whole := parseForms d (before ++ [.splice file] ++ after)
      let elements := Form.allocateAll (parseForms d file) s
      let loaded := s.newProgram whole
      let spelled := elements.2.newProgram
        (parseForms d (before ++ elements.1.map .value ++ after))
      (Form.list whole).Stands loaded.2 (.list loaded.1) ∧
        (Form.list whole).Stands spelled.2 (.list spelled.1)) ∧
    ∀ t : FilePlace, ∃ p : Place, ∀ file,
      parseForms d (t.fill file) = p.fill (parseForms d file) := by
  refine ⟨fun before file after s => ⟨?_, ?_⟩, FilePlace.exists_place d⟩
  · exact (s.newProgram_stands fun f _ => f.allocate_stands).2
  · obtain ⟨p, hfile, hvalues⟩ := place_of_tokens d before after
    have allocated (f : Form) (s : Store) := f.allocate_stands s
    obtain ⟨-, hfs⟩ := Form.allocateAll_stands (fun f (_ : f ∈ parseForms d file) => allocated f) s
    set elements := Form.allocateAll (parseForms d file) s
    obtain ⟨hext, hspelled⟩ := elements.2.newProgram_stands fun f
      (_ : f ∈ parseForms d (before ++ elements.1.map .value ++ after)) => allocated f
    rw [List.append_assoc, hvalues] at hext hspelled
    simp only [List.append_assoc, List.singleton_append, hfile, hvalues]
    exact p.stands_fill (hfs.imp fun f u hf => hf.extend hext) hspelled

end WordStack
