import WordStack.Machine.Evaluation
import WordStack.Proofs.Directives
import WordStack.Proofs.Imports
import WordStack.Proofs.Sessions

/-!
# What the reading of a program changes

Directives are followed while a text is read, in the interpreter that reads it, and a directive that
fails ends the reading in the middle. All that can have happened by then are references: the state
at the end is the one that the references leave which have been followed, performed one after the
other (`referAll_of_asked`). A reference binds set words and makes lists, so that is all that
reading does (`Interp.Grown`). The program that is made of the text is made of new lists, and it
takes the place of the old one only after the whole text has been read.
-/

namespace WordStack

/-! ## Interpreters with more words and lists -/

/-- `i'` is `i` with other set words and with more lists. -/
structure Interp.Grown (i i' : Interp) : Prop where
  rest : i' = { i with store := i'.store, setWords := i'.setWords }
  store : i'.store = { i.store with lists := i'.store.lists }
  lists : i.store.Extends i'.store

theorem Imported.grown {types : List HostType} {names : List String} {i i' : Interp}
    (h : Imported types names i i') : i.Grown i' :=
  ⟨h.rest, h.store, h.lists⟩

theorem Form.allocateAll_rest {fs : List Form}
    (h : ∀ f ∈ fs, ∀ s, (f.allocate s).2 = { s with lists := (f.allocate s).2.lists })
    (s : Store) :
    (Form.allocateAll fs s).2 = { s with lists := (Form.allocateAll fs s).2.lists } := by
  induction fs generalizing s with
  | nil => rfl
  | cons f fs ih =>
    have hf := h f (by simp) s
    have hfs := ih (fun f hf => h f (by simp [hf])) (f.allocate s).2
    simp only [allocateAll]
    rw [hfs, hf]

/-- To allocate a form is to make lists. -/
theorem Form.allocate_rest (f : Form) (s : Store) :
    (f.allocate s).2 = { s with lists := (f.allocate s).2.lists } := by
  induction f using Form.induction generalizing s with
  | atom v => rfl
  | list fs ih =>
    have hfs := Form.allocateAll_rest ih s
    simp only [allocate, Store.newList, Store.addList]
    rw [hfs]

theorem Store.newProgram_rest (s : Store) (fs : List Form) :
    (s.newProgram fs).2 = { s with lists := (s.newProgram fs).2.lists } := by
  have hfs := Form.allocateAll_rest (fun f (_ : f ∈ fs) => f.allocate_rest) s
  simp only [newProgram, newList, addList]
  rw [hfs]

/-- A program is a list that was not there before. -/
theorem Store.newProgram_fresh (s : Store) (fs : List Form) : ¬ s.Live (s.newProgram fs).1 := by
  intro hlive
  have hext := (Form.allocateAll_stands (fun f (_ : f ∈ fs) => f.allocate_stands) s).1
  exact Nat.lt_irrefl _ (hext.live _ hlive)

namespace Interp

variable {i j k : Interp} {module : String} {spaces : List String}
  {refs : List (String × List String)} {vs : List (Visit Interp)}

theorem Grown.refl (i : Interp) : i.Grown i := ⟨rfl, rfl, .refl _⟩

theorem Grown.trans (h : i.Grown j) (h' : j.Grown k) : i.Grown k where
  rest := by rw [h'.rest, h.rest]
  store := by rw [h'.store, h.store]
  lists := h.lists.trans h'.lists

theorem grown_newProgram (i : Interp) (forms : List Form) :
    i.Grown { i with store := (i.store.newProgram forms).2 } where
  rest := rfl
  store := i.store.newProgram_rest forms
  lists := (i.store.newProgram_stands fun f _ => f.allocate_stands).1

/-! ## References, one after the other -/

/-- References to the types of modules, up to one that fails. -/
def referAll (refs : List (String × List String)) : Eval Unit :=
  refs.forM fun (module, spaces) => importTypes module spaces

/-- A reference that fails changes nothing. -/
theorem importTypes_cases (module : String) (spaces : List String) (i : Interp) :
    (∃ e, importTypes module spaces i = (.error e, i)) ∨
      ∃ i', importTypes module spaces i = (.ok (), i') ∧ i.Grown i' := by
  cases hm : i.setting.registry.module? module with
  | none =>
    refine .inl ⟨.host ("reference(" ++ module ++ ", " ++ String.intercalate " " spaces ++ ")")
      (.unknownModule module), ?_⟩
    rw [importTypes_apply, Registry.types, Registry.module, hm]
    rfl
  | some m =>
    obtain ⟨i', hrun, himported⟩ := importTypes_of_module hm spaces
    exact .inr ⟨i', hrun, himported.grown⟩

theorem referAll_cons (r : String × List String) (refs : List (String × List String)) :
    referAll (r :: refs) = (do importTypes r.1 r.2; referAll refs) := rfl

theorem grown_of_referAll (h : referAll refs i = (.ok (), j)) : i.Grown j := by
  induction refs generalizing i with
  | nil =>
    cases h
    exact .refl _
  | cons r refs ih =>
    rw [referAll_cons, bind_apply] at h
    rcases importTypes_cases r.1 r.2 i with ⟨e, he⟩ | ⟨i', hrun, hgrown⟩
    · rw [he] at h
      cases h
    · rw [hrun] at h
      exact hgrown.trans (ih h)

/-- The reference that a question asks for, if the types could be imported. -/
def followed? (v : Visit Interp) : Option (String × List String) :=
  match v.directive with
  | .loadFile _ => none
  | .reference module spaces =>
    match importTypes module spaces v.state with
    | (.ok _, _) => some (module, spaces)
    | (.error _, _) => none

/-- What questions have made of the interpreter their references make of it alone, those of them
that have been followed. -/
theorem referAll_of_asked (h : Asked directives i vs j) :
    referAll (vs.filterMap followed?) i = (.ok (), j) := by
  induction vs generalizing i with
  | nil =>
    cases h
    rfl
  | cons v vs ih =>
    obtain ⟨place, x, s⟩ := v
    obtain ⟨rfl, hrest⟩ := h
    cases x with
    | loadFile name => exact ih hrest
    | reference module spaces =>
      have hafter : directives.after (.reference module spaces) s =
          (importTypes module spaces s).2 := rfl
      rw [hafter] at hrest
      rcases importTypes_cases module spaces s with ⟨e, he⟩ | ⟨i', hrun, -⟩
      · have hskipped : followed? ⟨place, .reference module spaces, s⟩ = none := by
          simp only [followed?, he]
        rw [List.filterMap_cons_none hskipped]
        rw [he] at hrest
        exact ih hrest
      · have hfollowed :
            followed? ⟨place, .reference module spaces, s⟩ = some (module, spaces) := by
          simp only [followed?, hrun]
        rw [List.filterMap_cons_some hfollowed, referAll_cons, bind_apply, hrun]
        rw [hrun] at hrest
        exact ih hrest

/-! ## What reading leaves -/

/-- The questions `vs` are those that the reading of a text asks, in the order of the source and
into each file where it is loaded. They come to the tokens or the error `r`, and an error is that of
a directive after which nothing is asked. The references that have been followed are what has made
`j` of `i`. -/
structure Follows (source : String) (i : Interp) (vs : List (Visit Interp))
    (r : Except LexError (List Token)) (j : Interp) : Prop where
  tour : Tour i.setting.delimiters directives i.setting.loadDepth i.setting.loadDepth
    (scan i.setting.delimiters 0 source.toList) i vs r j
  stands : ∀ v ∈ vs, v.Stands i.setting.delimiters directives source vs
  ordered : vs.Pairwise (·.place < ·.place)
  fails : ∀ e, r = .error e → FailsAt i.setting.delimiters directives i.setting.loadDepth
    i.setting.loadDepth (scan i.setting.delimiters 0 source.toList) source vs e j
  refers : referAll (vs.filterMap followed?) i = (.ok (), j)

theorem exists_follows (source : String) (i : Interp) : ∃ vs r j, Follows source i vs r j := by
  obtain ⟨vs, r, j, ht⟩ := exists_tour i.setting.delimiters directives i.setting.loadDepth
    i.setting.loadDepth (scan i.setting.delimiters 0 source.toList) i
  have hsource := List.suffix_refl (scan i.setting.delimiters 0 source.toList)
  exact ⟨vs, r, j, ht, ht.stands hsource, ht.ordered (scan_sorted _ 0 _),
    fun _ => ht.fails_at hsource, referAll_of_asked ht.asked⟩

theorem readForms_of_follows {source : String} {r : Except LexError (List Token)}
    (h : Follows source i vs r j) : readForms source i =
      ((r.map (parseForms i.setting.delimiters)).mapError EvalError.lex, j) := by
  have hends : tokenize i.setting.delimiters directives i.setting.loadDepth source i =
      (r.map (·.toArray), j) := h.tour.expands
  have hsetting : j.setting = i.setting := by rw [(grown_of_referAll h.refers).rest]
  rw [readForms, hends]
  cases r with
  | error e => rfl
  | ok ts => simp [Except.map, Except.mapError, hsetting]

theorem parse_apply (source : String) (i : Interp) : parse source i =
    match readForms source i with
    | (.ok forms, j) => (.ok (j.store.newProgram forms).1,
        { j with store := (j.store.newProgram forms).2 })
    | (.error e, j) => (.error e, j) := by
  rw [parse, bind_apply]
  rcases readForms source i with ⟨e | forms, j⟩ <;> rfl

theorem loadRoot_apply (i : Interp) : loadRoot i =
    match parse i.code i with
    | (.ok l, j) => (.ok l, { j with root := l })
    | (.error e, j) => (.error e, j) := by
  rw [parse_apply]
  rcases hread : readForms i.code i with ⟨e | forms, j⟩
  · exact loadRoot_of_unread hread
  · exact loadRoot_of_read hread

/-- `i` has become `i'` by the reading of a text, of which `r` has come: its references have been
followed, up to the end or to a directive that fails, and on success there is a new list of what
the text stands for. -/
structure LeftByReading (source : String) (i : Interp) (r : Except EvalError ListId) (i' : Interp) :
    Prop where
  grown : i.Grown i'
  words : ∃ vs tokens j, Follows source i vs tokens j ∧ i'.setWords = j.setWords ∧
    match r with
    | .ok l => ∃ ts, tokens = .ok ts ∧ ¬ i.store.Live l ∧
        (Form.list (parseForms i.setting.delimiters ts)).Stands i'.store (.list l)
    | .error e => ∃ e', tokens = .error e' ∧ e = .lex e'

theorem parse_leaves (source : String) (i : Interp) :
    LeftByReading source i (parse source i).1 (parse source i).2 := by
  obtain ⟨vs, tokens, j, h⟩ := exists_follows source i
  have hgrown := grown_of_referAll h.refers
  rw [parse_apply, readForms_of_follows h]
  cases tokens with
  | error e => exact ⟨hgrown, vs, _, j, h, rfl, e, rfl, rfl⟩
  | ok ts =>
    let forms := parseForms i.setting.delimiters ts
    have hnew : ¬ i.store.Live (j.store.newProgram forms).1 := fun hlive =>
      j.store.newProgram_fresh forms (hgrown.lists.live _ hlive)
    have hstands := (j.store.newProgram_stands fun f (_ : f ∈ forms) => f.allocate_stands).2
    exact ⟨hgrown.trans (grown_newProgram j forms), vs, _, j, h, rfl, ts, rfl, hnew, hstands⟩

/-- The text of the program stays, and so does the program itself if the text cannot be read. -/
theorem loadRoot_of_parse {r : Except EvalError ListId} (h : parse i.code i = (r, j)) :
    loadRoot i = (r, { j with code := i.code, root := r.toOption.getD i.root }) := by
  have hgrown : i.Grown j := by
    have hleaves := (parse_leaves i.code i).grown
    rwa [h] at hleaves
  have hcode : j.code = i.code := by rw [hgrown.rest]
  have hroot : j.root = i.root := by rw [hgrown.rest]
  rw [loadRoot_apply, h, ← hcode, ← hroot]
  cases r <;> rfl

end Interp

namespace Machine

/-- To read a text is to follow its references, and nothing is evaluated: whether the reading fails
or not, set words are bound and lists are made, and all the rest of the machine is as it was. The
text of the program stays, and there is another program only when the text has been read. -/
theorem reading_only_refers (m : Machine) :
    (∀ source, ∃ r i', m.onInterp (Interp.parse source) = (r, { m with interp := i' }) ∧
      Interp.LeftByReading source m.interp r i') ∧
    ∃ r i', m.onInterp Interp.loadRoot = (r, { m with
        interp := { i' with code := m.interp.code, root := r.toOption.getD m.interp.root } }) ∧
      Interp.LeftByReading m.interp.code m.interp r i' := by
  refine ⟨fun source => ⟨_, _, rfl, Interp.parse_leaves source m.interp⟩, ?_⟩
  have hleaves := Interp.parse_leaves m.interp.code m.interp
  rcases hparse : Interp.parse m.interp.code m.interp with ⟨r, i'⟩
  rw [hparse] at hleaves
  exact ⟨r, i', by rw [onInterp, Interp.loadRoot_of_parse hparse], hleaves⟩

end Machine

end WordStack
