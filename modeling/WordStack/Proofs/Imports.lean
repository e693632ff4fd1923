import WordStack.Proofs.Edits
import WordStack.Proofs.Trees

/-!
# Imports of host types

A reference binds the exported types of some namespaces to their short names, and then each member
name that has no binding yet to a list that calls the member. What the words mean afterwards is told
by the types and the member names alone (`Imported`): the last type of a name, else the binding that
was there, else a new list, else nothing. Imports that follow one another are one import of
everything (`Imported.trans`), and two imports of the same types and names differ in the identity of
the new lists at most (`Imported.agree`). So neither the order of the member names nor that of two
references matters, and a second reference to the same types finds everything bound.
-/

namespace WordStack

namespace TypeDescriptor

/-- A name that is imported with the type: that of a member which is no constructor, no event and
not the accessor of one. -/
def Exports (d : TypeDescriptor) (w : String) : Prop :=
  ∃ m ∈ d.members, m.name = w ∧ m.hidden = false ∧ m.kind ≠ .constructor ∧ m.kind ≠ .event

theorem mem_exportedNames {d : TypeDescriptor} {w : String} :
    w ∈ d.exportedNames ↔ d.Exports w := by
  have from_here (members : List Member) (seen : List String) :
      w ∈ members.foldl (fun seen m => if seen.contains m.name then seen else seen ++ [m.name])
        seen ↔ w ∈ seen ∨ ∃ m ∈ members, m.name = w := by
    induction members generalizing seen with
    | nil => simp
    | cons m members ih =>
      rw [List.foldl_cons, ih]
      split
      · next hm =>
        have hseen : m.name ∈ seen := by simpa using hm
        constructor
        · rintro (h | ⟨x, hx, rfl⟩)
          · exact .inl h
          · exact .inr ⟨x, List.mem_cons_of_mem m hx, rfl⟩
        · rintro (h | ⟨x, hx, rfl⟩)
          · exact .inl h
          · rcases List.mem_cons.1 hx with rfl | hx
            · exact .inl hseen
            · exact .inr ⟨x, hx, rfl⟩
      · simp [or_assoc, eq_comm]
  rw [exportedNames, from_here]
  simp [Exports, and_assoc, and_comm, and_left_comm]

end TypeDescriptor

/-- The types of a module that live in one of the namespaces, in the order of the module. -/
def HostModule.typesIn (m : HostModule) (spaces : List String) : List TypeDescriptor :=
  m.types.toList.filter fun d => spaces.contains d.type.space

/-- The last of the types with that short name. -/
def lastNamed (types : List HostType) (w : String) : Option HostType :=
  types.findRev? (·.name == w)

theorem lastNamed_append (ts us : List HostType) (w : String) :
    lastNamed (ts ++ us) w = (lastNamed us w).or (lastNamed ts w) := by
  simp [lastNamed, List.findRev?_eq_find?_reverse]

/-- The elements of a list that calls the member of a name. -/
def callByName (w : String) : Array Value := #[.text w, .symbol "execute"]

/-! ## Bindings in their scopes -/

namespace Scopes

variable {b b' : Scopes} {w : String}

theorem get?_congr (ho : b'.outer = b.outer) (hw : b'.innermost.own[w]? = b.innermost.own[w]?) :
    b'.get? w = b.get? w := by
  rw [get?_eq_own, get?_eq_own, ho, hw]

theorem get?_of_own {v : Value} (h : b.innermost.own[w]? = some v) : b.get? w = some v := by
  rw [get?_eq_own, h]
  rfl

/-- The same bindings in the same scopes. -/
structure Same (b b' : Scopes) : Prop where
  outer : b'.outer = b.outer
  own : ∀ w : String, b'.innermost.own[w]? = b.innermost.own[w]?

end Scopes

/-! ## What an import leaves -/

/-- What `i` has become in two ways, which differ in the identity of new lists at most, those that
call members. -/
structure Interp.Agree (i j k : Interp) : Prop where
  rest : k = { j with store := k.store, setWords := k.setWords }
  store : k.store = { j.store with lists := k.store.lists }
  lists : ∀ l, i.store.Live l → k.store.items l = j.store.items l
  outer : k.setWords.outer = j.setWords.outer
  words : ∀ w : String, k.setWords.innermost.own[w]? = j.setWords.innermost.own[w]? ∨
    ∃ l l', j.setWords.innermost.own[w]? = some (.list l) ∧
      k.setWords.innermost.own[w]? = some (.list l') ∧ ¬ i.store.Live l ∧ ¬ i.store.Live l' ∧
      j.store.items l = callByName w ∧ k.store.items l' = callByName w

/-- What words mean in `i'`, after a reference to the types in `i`. -/
structure Interp.Refers (ds : List TypeDescriptor) (i i' : Interp) : Prop where
  rest : i' = { i with store := i'.store, setWords := i'.setWords }
  lists : i.store.Extends i'.store
  typed : ∀ w t, lastNamed (ds.map (·.type)) w = some t → i'.setWords.get? w = some (.hostType t)
  bound : ∀ w v, lastNamed (ds.map (·.type)) w = none → i.setWords.get? w = some v →
    i'.setWords.get? w = some v
  member : ∀ w, lastNamed (ds.map (·.type)) w = none → i.setWords.get? w = none →
    (∃ d ∈ ds, d.Exports w) →
    ∃ l, i'.setWords.get? w = some (.list l) ∧ ¬ i.store.Live l ∧ i'.store.items l = callByName w
  unbound : ∀ w, lastNamed (ds.map (·.type)) w = none → i.setWords.get? w = none →
    (¬ ∃ d ∈ ds, d.Exports w) → i'.setWords.get? w = none

/-- What `i` becomes where types are bound to their names, and then member names to calls. -/
structure Imported (types : List HostType) (names : List String) (i i' : Interp) : Prop where
  rest : i' = { i with store := i'.store, setWords := i'.setWords }
  store : i'.store = { i.store with lists := i'.store.lists }
  lists : i.store.Extends i'.store
  outer : i'.setWords.outer = i.setWords.outer
  typed : ∀ w t, lastNamed types w = some t →
    i'.setWords.innermost.own[w]? = some (.hostType t)
  kept : ∀ w, lastNamed types w = none → (w ∈ names → (i.setWords.get? w).isSome = true) →
    i'.setWords.innermost.own[w]? = i.setWords.innermost.own[w]?
  made : ∀ w ∈ names, lastNamed types w = none → i.setWords.get? w = none →
    ∃ l, i'.setWords.innermost.own[w]? = some (.list l) ∧ ¬ i.store.Live l ∧ i'.store.Live l ∧
      i'.store.items l = callByName w
  /-- No list is made where all of the names have bindings. -/
  frugal : (∀ w ∈ names, (i.setWords.get? w).isSome = true) → i'.store = i.store

namespace Imported

variable {types us : List HostType} {names ms : List String} {i j k : Interp} {w : String}

theorem refl (i : Interp) : Imported [] [] i i where
  rest := rfl
  store := rfl
  lists := .refl _
  outer := rfl
  typed _ _ h := by cases h
  kept _ _ _ := rfl
  made _ h := by cases h
  frugal _ := rfl

/-- What an import is depends on the last types and the set of names alone. -/
theorem congr (h : Imported types names i j) (ht : ∀ w, lastNamed us w = lastNamed types w)
    (hn : ∀ w, w ∈ ms ↔ w ∈ names) : Imported us ms i j where
  rest := h.rest
  store := h.store
  lists := h.lists
  outer := h.outer
  typed w t hw := h.typed w t (by rwa [← ht])
  kept w hw hold := h.kept w (by rwa [← ht]) fun hm => hold ((hn w).2 hm)
  made w hm hw := h.made w ((hn w).1 hm) (by rwa [← ht])
  frugal hbound := h.frugal fun w hw => hbound w ((hn w).2 hw)

/-- A word that has a binding keeps it, unless a type has its name. -/
theorem get?_kept (h : Imported types names i j) (hw : lastNamed types w = none)
    (hold : w ∈ names → (i.setWords.get? w).isSome = true) :
    j.setWords.get? w = i.setWords.get? w :=
  Scopes.get?_congr h.outer (h.kept w hw hold)

theorem isSome_kept (h : Imported types names i j) (hold : (i.setWords.get? w).isSome = true) :
    (j.setWords.get? w).isSome = true := by
  cases hw : lastNamed types w with
  | some t => rw [Scopes.get?_of_own (h.typed w t hw), Option.isSome_some]
  | none => rwa [h.get?_kept hw fun _ => hold]

/-- Two imports, one after the other, are one import of everything. -/
theorem trans (h : Imported types names i j) (h' : Imported us ms j k) :
    Imported (types ++ us) (names ++ ms) i k where
  rest := by rw [h'.rest, h.rest]
  store := by rw [h'.store, h.store]
  lists := h.lists.trans h'.lists
  outer := h'.outer.trans h.outer
  typed w t hw := by
    rw [lastNamed_append] at hw
    cases hu : lastNamed us w with
    | some u =>
      rw [hu] at hw
      exact h'.typed w t (hu.trans hw)
    | none =>
      rw [hu] at hw
      have hj := h.typed w t hw
      rw [h'.kept w hu fun _ => by rw [Scopes.get?_of_own hj]; rfl, hj]
  kept w hw hold := by
    rw [lastNamed_append, Option.or_eq_none_iff] at hw
    have holdj := h.get?_kept hw.2 fun hm => hold (List.mem_append_left _ hm)
    rw [h'.kept w hw.1 fun hm => ?_, h.kept w hw.2 fun hm => hold (List.mem_append_left _ hm)]
    rw [holdj]
    exact hold (List.mem_append_right _ hm)
  made w hm hw hnew := by
    rw [lastNamed_append, Option.or_eq_none_iff] at hw
    by_cases hn : w ∈ names
    · obtain ⟨l, hown, hfresh, hlive, hitems⟩ := h.made w hn hw.2 hnew
      have hkept := h'.kept w hw.1 fun _ => by rw [Scopes.get?_of_own hown]; rfl
      exact ⟨l, hkept.trans hown, hfresh, h'.lists.live l hlive,
        (h'.lists.items l hlive).trans hitems⟩
    · have hnewj := (h.get?_kept hw.2 fun hm => absurd hm hn).trans hnew
      obtain ⟨l, hown, hfresh, hlive, hitems⟩ :=
        h'.made w ((List.mem_append.1 hm).resolve_left hn) hw.1 hnewj
      exact ⟨l, hown, fun hl => hfresh (h.lists.live l hl), hlive, hitems⟩
  frugal hbound := by
    have hfirst := h.frugal fun w hw => hbound w (List.mem_append_left _ hw)
    have hsecond := h'.frugal fun w hw => h.isSome_kept (hbound w (List.mem_append_right _ hw))
    exact hsecond.trans hfirst

/-- A single type, bound to its name. -/
theorem bindType (t : HostType) (i : Interp) :
    Imported [t] [] i { i with setWords := i.setWords.set t.name (.hostType t) } where
  rest := rfl
  store := rfl
  lists := .refl _
  outer := rfl
  typed w u hw := by
    have hu : t.name = w ∧ t = u := by
      simpa [lastNamed, List.findRev?_eq_find?_reverse] using hw
    rw [Scopes.own_set, if_pos hu.1, hu.2]
  kept w hw _ := by
    have hne : t.name ≠ w := by
      simpa [lastNamed, List.findRev?_eq_find?_reverse] using hw
    rw [Scopes.own_set, if_neg hne]
  made _ h := by cases h
  frugal _ := rfl

/-- A single member name that has a binding already. -/
theorem bound (h : i.setWords.contains w = true) : Imported [] [w] i i where
  rest := rfl
  store := rfl
  lists := .refl _
  outer := rfl
  typed _ _ ht := by cases ht
  kept _ _ _ := rfl
  made x hx _ hnew := by
    rw [List.mem_singleton.1 hx] at hnew
    rw [Scopes.contains, hnew] at h
    cases h
  frugal _ := rfl

/-- A single member name that has no binding yet. -/
theorem unbound (h : i.setWords.get? w = none) :
    Imported [] [w] i { i with
      store := i.store.addList (callByName w)
      setWords := i.setWords.set w (.list i.store.nextList) } where
  rest := rfl
  store := rfl
  lists := i.store.extends_newList (callByName w)
  outer := rfl
  typed _ _ ht := by cases ht
  kept x _ hold := by
    have hne : w ≠ x := by
      rintro rfl
      have hsome := hold (List.mem_singleton_self w)
      rw [h] at hsome
      cases hsome
    rw [Scopes.own_set, if_neg hne]
  made x hx _ _ := by
    obtain rfl := List.mem_singleton.1 hx
    refine ⟨i.store.nextList, ?_, Nat.lt_irrefl _, i.store.live_newList_fst _,
      i.store.items_newList_fst _⟩
    rw [Scopes.own_set, if_pos rfl]
  frugal hbound := by
    have hsome := hbound w (List.mem_singleton_self w)
    rw [h] at hsome
    cases hsome

/-- After an import all of its names have bindings. -/
theorem isSome_of_mem (h : Imported types names i j) (hw : w ∈ names) :
    (j.setWords.get? w).isSome = true := by
  cases ht : lastNamed types w with
  | some t => rw [Scopes.get?_of_own (h.typed w t ht), Option.isSome_some]
  | none =>
    cases hold : i.setWords.get? w with
    | some v => exact h.isSome_kept (by rw [hold, Option.isSome_some])
    | none =>
      obtain ⟨l, hown, -⟩ := h.made w hw ht hold
      rw [Scopes.get?_of_own hown, Option.isSome_some]

/-- The same import once more changes nothing. -/
theorem again (h : Imported types names i j) (h' : Imported types names j k) :
    k = { j with setWords := k.setWords } ∧ j.setWords.Same k.setWords := by
  have hstore : k.store = j.store := h'.frugal fun w hw => h.isSome_of_mem hw
  refine ⟨by rw [h'.rest, hstore], h'.outer, fun w => ?_⟩
  cases ht : lastNamed types w with
  | some t => rw [h'.typed w t ht, h.typed w t ht]
  | none => exact h'.kept w ht fun hw => h.isSome_of_mem hw

/-- The imports of the same types and names from one state agree. -/
theorem agree (h : Imported types names i j) (h' : Imported types names i k) : i.Agree j k where
  rest := by rw [h'.rest, h.rest]
  store := by rw [h'.store, h.store]
  lists l hl := (h'.lists.items l hl).trans (h.lists.items l hl).symm
  outer := h'.outer.trans h.outer.symm
  words w := by
    cases ht : lastNamed types w with
    | some t => exact .inl (by rw [h'.typed w t ht, h.typed w t ht])
    | none =>
      by_cases hold : w ∈ names → (i.setWords.get? w).isSome = true
      · exact .inl (by rw [h'.kept w ht hold, h.kept w ht hold])
      · obtain ⟨hw, hnew⟩ := Classical.not_imp.1 hold
        have hnone : i.setWords.get? w = none := by simpa using hnew
        obtain ⟨l, hown, hfresh, -, hitems⟩ := h.made w hw ht hnone
        obtain ⟨l', hown', hfresh', -, hitems'⟩ := h'.made w hw ht hnone
        exact .inr ⟨l, l', hown, hown', hfresh, hfresh', hitems, hitems'⟩

end Imported

/-! ## What imports -/

/-- From any state the action succeeds, and it imports the types and the names. -/
def Imports (act : Eval Unit) (types : List HostType) (names : List String) : Prop :=
  ∀ i, ∃ i', act i = (.ok (), i') ∧ Imported types names i i'

namespace Imports

variable {x y : Eval Unit} {types us : List HostType} {names ms : List String}

theorem andThen (hx : Imports x types names) (hy : Imports y us ms) :
    Imports (x >>= fun _ => y) (types ++ us) (names ++ ms) := by
  intro i
  obtain ⟨j, hj, hfirst⟩ := hx i
  obtain ⟨k, hk, hsecond⟩ := hy j
  refine ⟨k, ?_, hfirst.trans hsecond⟩
  rw [Interp.bind_apply, hj]
  exact hk

theorem bindType (t : HostType) : Imports (Interp.bindSet t.name (.hostType t)) [t] [] := fun i =>
  ⟨_, rfl, .bindType t i⟩

theorem bindMember (w : String) : Imports (Interp.bindMember w) [] [w] := by
  intro i
  have hreads : Interp.bindMember w i =
      (if (!i.setWords.contains w) = true then do
        let l ← Interp.newList (callByName w)
        Interp.bindSet w (.list l)
      else pure () : Eval Unit) i := rfl
  rw [hreads]
  cases h : i.setWords.contains w with
  | true => exact ⟨i, rfl, .bound h⟩
  | false =>
    have hnew : i.setWords.get? w = none := by simpa [Scopes.contains] using h
    exact ⟨_, rfl, .unbound hnew⟩

theorem bindTypes (ts : List HostType) :
    Imports (ts.forM fun t => Interp.bindSet t.name (.hostType t)) ts [] := by
  induction ts with
  | nil => exact fun i => ⟨i, rfl, .refl i⟩
  | cons t ts ih => exact (bindType t).andThen ih

theorem bindMembers (ws : List String) : Imports (ws.forM Interp.bindMember) [] ws := by
  induction ws with
  | nil => exact fun i => ⟨i, rfl, .refl i⟩
  | cons w ws ih => exact (bindMember w).andThen ih

theorem bindExportedTypes (es : List (HostType × List String)) :
    Imports (es.forM fun (type, _) => Interp.bindSet type.name (.hostType type))
      (es.map (·.1)) [] := by
  induction es with
  | nil => exact fun i => ⟨i, rfl, .refl i⟩
  | cons e es ih => exact (bindType e.1).andThen ih

/-- The member names are gone through as they are exported, one type after the other. -/
theorem bindExportedMembers (es : List (HostType × List String)) :
    Imports (es.forM fun (_, members) => members.forM Interp.bindMember) []
      (es.map (·.2)).flatten := by
  induction es with
  | nil => exact fun i => ⟨i, rfl, .refl i⟩
  | cons e es ih => exact (bindMembers e.2).andThen ih

end Imports

namespace Interp

/-- An import that goes through the member names in an order of its own. -/
def importInOrder (types : List HostType) (names : List String) : Eval Unit := do
  types.forM fun t => bindSet t.name (.hostType t)
  names.forM bindMember

theorem imports_importInOrder (types : List HostType) (names : List String) :
    Imports (importInOrder types names) types names := by
  have h := (Imports.bindTypes types).andThen (.bindMembers names)
  rwa [List.append_nil, List.nil_append] at h

variable {i : Interp} {module : String} {m : HostModule}

theorem importTypes_apply (module : String) (spaces : List String) (i : Interp) :
    importTypes module spaces i = (do
      let exports ← hostResult
        ("reference(" ++ module ++ ", " ++ String.intercalate " " spaces ++ ")")
        (i.setting.registry.types module spaces)
      exports.forM fun (type, _) => bindSet type.name (.hostType type)
      exports.forM fun (_, members) => members.forM bindMember : Eval Unit) i := rfl

theorem importTypes_of_module (hm : i.setting.registry.module? module = some m)
    (spaces : List String) : ∃ i', importTypes module spaces i = (.ok (), i') ∧
      Imported ((m.typesIn spaces).map (·.type)) ((m.typesIn spaces).flatMap (·.exportedNames))
        i i' := by
  let exports := (m.typesIn spaces).map fun d => (d.type, d.exportedNames)
  have himports := (Imports.bindExportedTypes exports).andThen (.bindExportedMembers exports)
  obtain ⟨i', hrun, himported⟩ := himports i
  refine ⟨i', ?_, by simpa [exports, List.flatMap, Function.comp_def] using himported⟩
  have htypes : i.setting.registry.types module spaces = .ok exports := by
    rw [Registry.types, Registry.module, hm]
    rfl
  rw [importTypes_apply, htypes]
  exact hrun

theorem mem_exported {ds : List TypeDescriptor} {w : String} :
    w ∈ ds.flatMap (·.exportedNames) ↔ ∃ d ∈ ds, d.Exports w := by
  simp [TypeDescriptor.mem_exportedNames]

theorem refers_of_imported {ds : List TypeDescriptor} {i' : Interp}
    (h : Imported (ds.map (·.type)) (ds.flatMap (·.exportedNames)) i i') : i.Refers ds i' where
  rest := h.rest
  lists := h.lists
  typed w t hw := Scopes.get?_of_own (h.typed w t hw)
  bound w v hw hold := by
    rw [h.get?_kept hw fun _ => by rw [hold, Option.isSome_some], hold]
  member w hw hnew hexports := by
    obtain ⟨l, hown, hfresh, -, hitems⟩ := h.made w (mem_exported.2 hexports) hw hnew
    exact ⟨l, Scopes.get?_of_own hown, hfresh, hitems⟩
  unbound w hw hnew hexports := by
    rw [h.get?_kept hw fun hm => absurd (mem_exported.1 hm) hexports, hnew]

theorem lastNamed_eq_none {ds : List TypeDescriptor} {w : String} :
    lastNamed (ds.map (·.type)) w = none ↔ ∀ d ∈ ds, d.type.name ≠ w := by
  simp [lastNamed, List.findRev?_eq_find?_reverse]

/-- Types without a common name can be imported in either order. -/
theorem lastNamed_append_comm {ds es : List TypeDescriptor}
    (hapart : ∀ d ∈ ds, ∀ e ∈ es, d.type.name ≠ e.type.name) (w : String) :
    lastNamed (ds.map (·.type) ++ es.map (·.type)) w =
      lastNamed (es.map (·.type) ++ ds.map (·.type)) w := by
  rw [lastNamed_append, lastNamed_append]
  by_cases h : ∀ d ∈ ds, d.type.name ≠ w
  · rw [lastNamed_eq_none.2 h, Option.or_none, Option.none_or]
  · obtain ⟨d, hd, hname⟩ : ∃ d ∈ ds, d.type.name = w := by simpa using h
    rw [lastNamed_eq_none.2 fun e he => hname ▸ (hapart d hd e he).symm, Option.or_none,
      Option.none_or]

/-- A reference means the same whichever way the member names are gone through, means nothing more
where it is repeated, and trades places with a reference to types of other names. Where there is no
such module it changes nothing. -/
theorem reference_well_defined (i : Interp) (module : String) (spaces : List String) :
    (i.setting.registry.module? module = none → importTypes module spaces i =
      (.error (.host ("reference(" ++ module ++ ", " ++ String.intercalate " " spaces ++ ")")
        (.unknownModule module)), i)) ∧
    ∀ m, i.setting.registry.module? module = some m →
      let ds := m.typesIn spaces
      ∃ i', importTypes module spaces i = (.ok (), i') ∧ i.Refers ds i' ∧
        (∀ names, (∀ w, w ∈ names ↔ ∃ d ∈ ds, d.Exports w) →
          ∃ j, importInOrder (ds.map (·.type)) names i = (.ok (), j) ∧ i.Agree i' j) ∧
        (∃ j, importTypes module spaces i' = (.ok (), j) ∧
          j = { i' with setWords := j.setWords } ∧ i'.setWords.Same j.setWords) ∧
        ∀ other others m', i.setting.registry.module? other = some m' →
          (∀ d ∈ ds, ∀ e ∈ m'.typesIn others, d.type.name ≠ e.type.name) →
          ∃ j k, (do importTypes module spaces; importTypes other others : Eval Unit) i =
              (.ok (), j) ∧
            (do importTypes other others; importTypes module spaces : Eval Unit) i = (.ok (), k) ∧
            i.Agree j k := by
  refine ⟨fun hnone => ?_, fun m hm => ?_⟩
  · rw [importTypes_apply, Registry.types, Registry.module, hnone]
    rfl
  intro ds
  have settled {j : Interp} {types : List HostType} {names : List String}
      (h : Imported types names i j) : j.setting = i.setting := by rw [h.rest]
  obtain ⟨i', hrun, himported⟩ := importTypes_of_module hm spaces
  have hsetting : i'.setting = i.setting := settled himported
  refine ⟨i', hrun, refers_of_imported himported, fun names hnames => ?_, ?_, ?_⟩
  · obtain ⟨j, hj, himportedj⟩ := imports_importInOrder (ds.map (·.type)) names i
    refine ⟨j, hj, himported.agree (himportedj.congr (fun _ => rfl) fun w => ?_)⟩
    rw [mem_exported, hnames]
  · obtain ⟨j, hj, hagain⟩ := importTypes_of_module (i := i') (by rwa [hsetting]) spaces
    exact ⟨j, hj, himported.again hagain⟩
  · intro other others m' hm' hapart
    obtain ⟨k', hrun', himported'⟩ := importTypes_of_module hm' others
    obtain ⟨j, hj, hfirst⟩ := importTypes_of_module (i := i') (by rwa [hsetting]) others
    have hmk : k'.setting.registry.module? module = some m := by rwa [settled himported']
    obtain ⟨k, hk, hsecond⟩ := importTypes_of_module hmk spaces
    refine ⟨j, k, by rw [bind_apply, hrun]; exact hj, by rw [bind_apply, hrun']; exact hk, ?_⟩
    refine (himported.trans hfirst).agree ((himported'.trans hsecond).congr
      (lastNamed_append_comm hapart) fun w => ?_)
    rw [List.mem_append, List.mem_append, or_comm]

/-- Two types of one short name, in two namespaces, with a member each. -/
def lamps : HostModule :=
  ⟨"demo", #[.field { type := ⟨"demo", "Desk", "Lamp"⟩ } "Glow" .ofInstance fun _ => .done none,
    .event { type := ⟨"demo", "Floor", "Lamp"⟩ } "Lit" fun _ => .done none]⟩

/-- A fresh interpreter with the lamps in its registry. -/
def withLamps : Interp where
  setting := { registry := .ofModules [lamps], folder := default, loadDepth := 0 }
  root := ⟨0⟩

theorem reference_well_defined_of_lamps :
    withLamps.setting.registry.module? "demo" = some lamps ∧
    ∃ i', importTypes "demo" ["Desk", "Floor"] withLamps = (.ok (), i') ∧
      i'.setWords.get? "Lamp" = some (.hostType ⟨"demo", "Floor", "Lamp"⟩) ∧
      (∃ l, i'.setWords.get? "Glow" = some (.list l) ∧ i'.store.items l = callByName "Glow") ∧
      i'.setWords.get? "Lit" = none := by
  have hm : withLamps.setting.registry.module? "demo" = some lamps := rfl
  obtain ⟨i', hrun, hrefers, -⟩ :=
    (reference_well_defined withLamps "demo" ["Desk", "Floor"]).2 lamps hm
  refine ⟨hm, i', hrun, hrefers.typed _ _ rfl, ?_, hrefers.unbound _ rfl rfl ?_⟩
  · obtain ⟨l, hl, -, hitems⟩ := hrefers.member "Glow" rfl rfl
      (mem_exported.1 (by decide))
    exact ⟨l, hl, hitems⟩
  · rw [← mem_exported]
    decide

end Interp

end WordStack
