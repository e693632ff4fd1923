import WordStack.Host.Registry

/-!
# What a registry knows of its types

The index of a registry says for each type where its descriptor is. `Sound` says that it leads to a
descriptor of that very type, however modules have been registered and replaced (`sound_ofModules`).
A type that some module lists is in the index as well, as long as no module carries the types of
another (`listed_resolves`): an entry belongs to the module that registered the type last, and goes
with it, even if another module has registered the type before (`shared_type_lost`).
-/

namespace WordStack

/-- All the types of the module are said to be its own. -/
def HostModule.OwnsTypes (mod : HostModule) : Prop := ∀ d ∈ mod.types, d.type.module = mod.name

namespace Registry

/-- No two modules have one name, and an entry of the index leads to a descriptor of its type. -/
structure Sound (r : Registry) : Prop where
  names : (r.modules.map (·.name)).Nodup
  entries : ∀ e ∈ r.index, ∃ mod ∈ r.modules, mod.name = e.2.1 ∧
    ∃ d, mod.types[e.2.2]? = some d ∧ d.type = e.1

/-- The index has an entry for the type. -/
def Indexed (r : Registry) (type : HostType) : Prop := ∃ e ∈ r.index, e.1 = type

/-- Every type that a module lists is in the index. -/
def Complete (r : Registry) : Prop := ∀ mod ∈ r.modules, ∀ d ∈ mod.types, r.Indexed d.type

variable {r : Registry} {mod : HostModule} {type : HostType}

/-! ## Lookups -/

theorem find?_name_eq {modules : List HostModule} (hnames : (modules.map (·.name)).Nodup)
    (hm : mod ∈ modules) : modules.find? (·.name == mod.name) = some mod := by
  induction modules with
  | nil => cases hm
  | cons other modules ih =>
    obtain ⟨hother, hnames⟩ := List.nodup_cons.1 hnames
    rw [List.find?_cons]
    rcases List.mem_cons.1 hm with rfl | hm
    · simp
    · have hne : other.name ≠ mod.name := fun he => hother (List.mem_map.2 ⟨mod, hm, he.symm⟩)
      rw [beq_eq_false_iff_ne.2 hne]
      exact ih hnames hm

theorem Sound.module?_eq (h : r.Sound) (hm : mod ∈ r.modules) :
    r.module? mod.name = some mod := find?_name_eq h.names hm

/-- In a sound registry a type has a descriptor, and it is one of that type, if the index has an
entry for it. -/
theorem Sound.descriptor_of_indexed (h : r.Sound) (ht : r.Indexed type) :
    ∃ d, r.descriptor? type = some d ∧ d.type = type := by
  obtain ⟨e, he, heq⟩ := ht
  unfold descriptor?
  split
  · next t name i hfind =>
    obtain ⟨mod, hm, hname, d, hd, hdt⟩ := h.entries _ (List.mem_of_find?_eq_some hfind)
    have htype : t = type := by simpa using List.find?_some hfind
    obtain rfl : mod.name = name := hname
    rw [h.module?_eq hm]
    exact ⟨d, hd, hdt.trans htype⟩
  · next hfind =>
    have hnone := List.find?_eq_none.1 hfind e he
    simp [heq] at hnone

/-! ## Registering -/

section Index

variable (name : String)

/-- The index after the types of the module `name` have been entered one after the other. -/
abbrev enterAll (index : List (HostType × String × Nat)) (types : List (TypeDescriptor × Nat)) :
    List (HostType × String × Nat) :=
  types.foldl (fun index (d, i) => (d.type, name, i) :: index.filter (·.1 != d.type)) index

theorem mem_of_mem_enterAll {index : List (HostType × String × Nat)}
    {types : List (TypeDescriptor × Nat)} {e : HostType × String × Nat}
    (h : e ∈ enterAll name index types) : e ∈ index ∨ ∃ p ∈ types, e = (p.1.type, name, p.2) := by
  induction types generalizing index with
  | nil => exact .inl h
  | cons p types ih =>
    obtain hmem | ⟨q, hq, rfl⟩ := ih h
    · obtain rfl | hmem := List.mem_cons.1 hmem
      · exact .inr ⟨p, List.mem_cons_self, rfl⟩
      · exact .inl (List.mem_filter.1 hmem).1
    · exact .inr ⟨q, List.mem_cons_of_mem p hq, rfl⟩

/-- No type is lost while types are entered. -/
theorem exists_mem_enterAll {index : List (HostType × String × Nat)}
    {types : List (TypeDescriptor × Nat)}
    (h : (∃ e ∈ index, e.1 = type) ∨ ∃ p ∈ types, p.1.type = type) :
    ∃ e ∈ enterAll name index types, e.1 = type := by
  induction types generalizing index with
  | nil => simpa using h
  | cons p types ih =>
    refine ih ?_
    by_cases hp : p.1.type = type
    · exact .inl ⟨(p.1.type, name, p.2), List.mem_cons_self, hp⟩
    · rcases h with ⟨e, he, rfl⟩ | ⟨q, hq, hqt⟩
      · have hkept : e ∈ index.filter (·.1 != p.1.type) :=
          List.mem_filter.2 ⟨he, by simpa using Ne.symm hp⟩
        exact .inl ⟨e, List.mem_cons_of_mem _ hkept, rfl⟩
      · rcases List.mem_cons.1 hq with rfl | hq
        · exact absurd hqt hp
        · exact .inr ⟨q, hq, hqt⟩

end Index

theorem mem_modules_register {other : HostModule} :
    other ∈ (r.register mod).modules ↔ other ∈ r.modules ∧ other.name ≠ mod.name ∨ other = mod := by
  simp [register]

theorem sound_register (h : r.Sound) (mod : HostModule) : (r.register mod).Sound := by
  constructor
  · simp only [register, List.map_append, List.map_cons, List.map_nil]
    refine List.nodup_append.2 ⟨?_, by simp, ?_⟩
    · exact (List.filter_sublist.map _).nodup h.names
    · rintro name hname name' hname' rfl
      obtain ⟨other, hother, rfl⟩ := List.mem_map.1 hname
      have hne := (List.mem_filter.1 hother).2
      simp [List.mem_singleton.1 hname'] at hne
  · intro e he
    obtain hmem | ⟨⟨d, i⟩, hp, rfl⟩ := mem_of_mem_enterAll mod.name he
    · obtain ⟨hmem, hne⟩ := List.mem_filter.1 hmem
      obtain ⟨other, hother, hname, hd⟩ := h.entries e hmem
      refine ⟨other, mem_modules_register.2 (.inl ⟨hother, ?_⟩), hname, hd⟩
      simpa [hname] using hne
    · refine ⟨mod, mem_modules_register.2 (.inr rfl), rfl, d, ?_, rfl⟩
      simpa using List.mem_zipIdx_iff_getElem?.1 hp

/-- However modules are registered, and replaced by others of their name, the index leads to
descriptors of its types. -/
theorem sound_ofModules (modules : List HostModule) : (ofModules modules).Sound := by
  have from_here (r : Registry) (hr : r.Sound) : (modules.foldl register r).Sound := by
    induction modules generalizing r with
    | nil => exact hr
    | cons mod modules ih => exact ih _ (sound_register hr mod)
  exact from_here {} ⟨by simp, by simp⟩

/-! ## Types that are listed -/

/-- An entry belongs to the module that the type is said to be of. -/
theorem Sound.owner_eq (h : r.Sound) (hown : ∀ mod ∈ r.modules, mod.OwnsTypes)
    {e : HostType × String × Nat} (he : e ∈ r.index) : e.2.1 = e.1.module := by
  obtain ⟨mod, hm, hname, d, hd, ht⟩ := h.entries e he
  rw [← hname, ← hown mod hm d (Array.mem_of_getElem? hd), ht]

theorem complete_register (h : r.Sound) (hc : r.Complete) (hown : ∀ mod ∈ r.modules, mod.OwnsTypes)
    (mod : HostModule) : (r.register mod).Complete := by
  intro other hother d hd
  refine exists_mem_enterAll mod.name ?_
  obtain ⟨hother, hne⟩ | rfl := mem_modules_register.1 hother
  · obtain ⟨e, he, heq⟩ := hc other hother d hd
    have howner : e.2.1 = other.name := by
      rw [h.owner_eq hown he, heq, hown other hother d hd]
    exact .inl ⟨e, List.mem_filter.2 ⟨he, by simpa [howner] using hne⟩, heq⟩
  · obtain ⟨i, hi⟩ := Array.mem_iff_getElem?.1 hd
    exact .inr ⟨(d, i), List.mem_zipIdx_iff_getElem?.2 (by simpa using hi), rfl⟩

theorem complete_ofModules {modules : List HostModule}
    (h : ∀ mod ∈ modules, mod.OwnsTypes) : (ofModules modules).Complete := by
  have from_here (r : Registry) (hr : r.Sound ∧ r.Complete ∧ ∀ mod ∈ r.modules, mod.OwnsTypes) :
      (modules.foldl register r).Complete := by
    induction modules generalizing r with
    | nil => exact hr.2.1
    | cons mod modules ih =>
      obtain ⟨hs, hc, hown⟩ := hr
      obtain ⟨hmod, hrest⟩ := List.forall_mem_cons.1 h
      refine ih hrest _ ⟨sound_register hs mod, complete_register hs hc hown mod, ?_⟩
      rintro other hother
      obtain ⟨hother, -⟩ | rfl := mem_modules_register.1 hother
      · exact hown other hother
      · exact hmod
  exact from_here {} ⟨⟨by simp, by simp⟩, by simp [Complete], by simp⟩

theorem mem_of_module {name : String} (h : r.module name = .ok mod) : mod ∈ r.modules := by
  unfold module at h
  split at h
  · next m hm =>
    cases h
    exact List.mem_of_find?_eq_some hm
  · cases h

theorem mem_of_types {name : String} {spaces : List String}
    {exports : List (HostType × List String)} (h : r.types name spaces = .ok exports)
    (ht : type ∈ exports.map (·.1)) : ∃ mod ∈ r.modules, ∃ d ∈ mod.types, d.type = type := by
  unfold types at h
  cases hm : r.module name with
  | error e =>
    rw [hm] at h
    cases h
  | ok mod =>
    rw [hm] at h
    cases h
    simp only [List.map_map, List.mem_map, List.mem_filter] at ht
    obtain ⟨d, ⟨hd, -⟩, rfl⟩ := ht
    exact ⟨mod, mem_of_module hm, d, by simpa using hd, rfl⟩

theorem mem_of_findType {name short : String} (h : r.findType name short = .ok type) :
    ∃ mod ∈ r.modules, ∃ d ∈ mod.types, d.type = type := by
  unfold findType at h
  split at h
  · cases h
  · next mod hm =>
    split at h
    · next d hd =>
      cases h
      exact ⟨mod, mem_of_module hm, d, by simpa using List.mem_of_find?_eq_some hd, rfl⟩
    · cases h

/-- What a module lists, in its namespaces or by a name, has a descriptor, which is of that type. -/
theorem listed_resolves {modules : List HostModule} (h : ∀ mod ∈ modules, mod.OwnsTypes)
    {name : String}
    (hlisted : (∃ spaces exports, (ofModules modules).types name spaces = .ok exports ∧
        type ∈ exports.map (·.1)) ∨
      ∃ short, (ofModules modules).findType name short = .ok type) :
    ∃ d, (ofModules modules).descriptor? type = some d ∧ d.type = type := by
  have hmem : ∃ mod ∈ (ofModules modules).modules, ∃ d ∈ mod.types, d.type = type := by
    obtain ⟨spaces, exports, hexports, ht⟩ | ⟨short, hfound⟩ := hlisted
    · exact mem_of_types hexports ht
    · exact mem_of_findType hfound
  obtain ⟨mod, hm, d, hd, rfl⟩ := hmem
  exact (sound_ofModules modules).descriptor_of_indexed (complete_ofModules h mod hm d hd)

/-- A type of the module `a`, which the module `b` carries too, and then does not any more. -/
def sharing : List HostModule :=
  let type : HostType := ⟨"a", "", "T"⟩
  [⟨"a", #[{ type }]⟩, ⟨"b", #[{ type }]⟩, ⟨"b", #[]⟩]

/-- The module `a` still lists its type, but nothing leads to it any more. -/
theorem shared_type_lost : (ofModules sharing).findType "a" "T" = .ok ⟨"a", "", "T"⟩ ∧
    (ofModules sharing).descriptor? ⟨"a", "", "T"⟩ = none :=
  ⟨rfl, rfl⟩

end Registry

end WordStack
