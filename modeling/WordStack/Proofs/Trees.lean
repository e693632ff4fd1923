import Mathlib.Data.Fintype.Card
import Mathlib.Data.List.Forall2
import WordStack.Form
import WordStack.Store.Equal

/-!
# Trees in the store

A list holds its elements by way of the store, where lists may be shared. As long as no list is
inside of itself, a value unfolds to a form, and it stands for that form (`Form.Stands`). Printing
and comparing look only as many levels deep as the store has lists, which is deep enough for each
such value: along a branch the lists have forms of different heights (`Form.Stands.height_le`).

The leaves are integers and symbols here, the values that are printed as they are written.
-/

namespace WordStack

/-! ## Forms -/

/-- Induction on forms, the elements of a list all at once. -/
theorem Form.induction {P : Form → Prop} (atom : ∀ v, P (.atom v))
    (list : ∀ forms, (∀ f ∈ forms, P f) → P (.list forms)) (f : Form) : P f :=
  @Form.rec P (fun forms => ∀ f ∈ forms, P f) atom list (fun _ h => absurd h List.not_mem_nil)
    (fun _ _ hf hfs _ h => (List.mem_cons.1 h).elim (fun e => e ▸ hf) (hfs _)) f

/-- The values at the leaves, from left to right. -/
def Form.leaves : Form → List Value
  | .atom v => [v]
  | .list forms => forms.flatMap fun f => f.leaves

/-- How many lists are inside of each other. -/
def Form.height : Form → Nat
  | .atom _ => 0
  | .list forms => (forms.map fun f => f.height).foldr max 0 + 1

/-- The printed form. -/
def Form.text : Form → String
  | .atom v => v.literalText
  | .list forms => parenthesized (forms.map fun f => f.text)

/-- An integer or a symbol. -/
def Value.isPlain : Value → Bool
  | .integer _ | .symbol _ => true
  | _ => false

/-- Each leaf is an integer or a symbol. -/
def Form.Plain (f : Form) : Prop := ∀ u ∈ f.leaves, u.isPlain = true

theorem Form.leaves_mem {forms : List Form} {f : Form} (hf : f ∈ forms) {u : Value}
    (hu : u ∈ f.leaves) : u ∈ (Form.list forms).leaves := by
  rw [leaves]
  exact List.mem_flatMap.2 ⟨f, hf, hu⟩

theorem Form.Plain.element {forms : List Form} (hp : (Form.list forms).Plain) {f : Form}
    (hf : f ∈ forms) : f.Plain := fun _ hu => hp _ (leaves_mem hf hu)

theorem Form.height_lt {forms : List Form} {f : Form} (hf : f ∈ forms) :
    f.height < (Form.list forms).height := by
  rw [height.eq_2, Nat.lt_succ_iff]
  induction forms with
  | nil => cases hf
  | cons g forms ih =>
    rcases List.mem_cons.1 hf with rfl | hf
    · exact Nat.le_max_left _ _
    · exact Nat.le_trans (ih hf) (Nat.le_max_right _ _)

/-- Some element of a list is as high as the list allows. -/
theorem Form.exists_height (forms : List Form) :
    (Form.list forms).height = 1 ∨ ∃ f ∈ forms, f.height + 1 = (Form.list forms).height := by
  simp only [height.eq_2, Nat.add_right_cancel_iff]
  induction forms with
  | nil => exact .inl rfl
  | cons g forms ih =>
    simp only [List.map_cons, List.foldr_cons]
    rcases Nat.le_total g.height ((forms.map fun f => f.height).foldr max 0) with hle | hle
    · rw [Nat.max_eq_right hle]
      rcases ih with h0 | ⟨f, hf, h⟩
      · exact .inl h0
      · exact .inr ⟨f, List.mem_cons_of_mem _ hf, h⟩
    · rw [Nat.max_eq_left hle]
      exact .inr ⟨g, List.mem_cons_self, rfl⟩

/-! ## What a value stands for -/

mutual

/-- The value stands for the form: it is the leaf, or a list of values that stand for the
elements. -/
def Form.Stands (s : Store) : Form → Value → Prop
  | .atom v, u => u = v
  | .list forms, u => ∃ l, u = .list l ∧ s.Live l ∧ Form.StandAll s forms (s.items l).toList

/-- The values stand for the forms, one by one. -/
def Form.StandAll (s : Store) : List Form → List Value → Prop
  | [], vs => vs = []
  | f :: fs, vs => ∃ u us, vs = u :: us ∧ f.Stands s u ∧ Form.StandAll s fs us

end

theorem Form.standAll_iff {s : Store} {fs : List Form} {vs : List Value} :
    Form.StandAll s fs vs ↔ List.Forall₂ (fun f v => f.Stands s v) fs vs := by
  induction fs generalizing vs with
  | nil => simp [StandAll]
  | cons f fs ih =>
    rw [StandAll, List.forall₂_cons_left_iff]
    constructor
    · rintro ⟨u, us, rfl, hu, hus⟩
      exact ⟨u, us, hu, ih.1 hus, rfl⟩
    · rintro ⟨u, us, hu, hus, rfl⟩
      exact ⟨u, us, rfl, hu, ih.2 hus⟩

theorem Form.stands_list {s : Store} {forms : List Form} {v : Value} :
    (Form.list forms).Stands s v ↔ ∃ l, v = .list l ∧ s.Live l ∧
      List.Forall₂ (fun f u => f.Stands s u) forms (s.items l).toList := by
  rw [Stands]
  simp only [standAll_iff]

theorem Form.stands_atom {s : Store} {v u : Value} : (Form.atom v).Stands s u ↔ u = v := by
  rw [Stands]

section Stands

variable {s s' : Store} {f g : Form} {u v : Value}

/-- Each element stands for one of the forms. -/
theorem exists_stands {fs : List Form} {vs : List Value}
    (h : List.Forall₂ (fun f u => f.Stands s u) fs vs) (hf : f ∈ fs) : ∃ u ∈ vs, f.Stands s u := by
  induction h with
  | nil => cases hf
  | cons hfu _ ih =>
    rcases List.mem_cons.1 hf with rfl | hf
    · exact ⟨_, List.mem_cons_self, hfu⟩
    · obtain ⟨u, hu, hs⟩ := ih hf
      exact ⟨u, List.mem_cons_of_mem _ hu, hs⟩

/-- Forms that are each determined by a value are determined by a row of values. -/
theorem eq_of_forall₂ {R : Form → Value → Prop} {fs gs : List Form} {us : List Value}
    (hf : List.Forall₂ (fun f u => ∀ g, R g u → f = g) fs us) (hg : List.Forall₂ R gs us) :
    fs = gs := by
  induction hf generalizing gs with
  | nil =>
    cases hg
    rfl
  | cons hfu _ ih =>
    cases hg with
    | cons hgu hg => rw [hfu _ hgu, ih hg]

/-- A value stands for one form only. -/
theorem Form.Stands.unique (hf : f.Stands s v) (hg : g.Stands s v) (hpf : f.Plain)
    (hpg : g.Plain) : f = g := by
  induction f using Form.induction generalizing g v with
  | atom u =>
    obtain rfl := stands_atom.1 hf
    cases g with
    | atom w => rw [stands_atom.1 hg]
    | list gs =>
      obtain ⟨l, rfl, -, -⟩ := stands_list.1 hg
      cases hpf (.list l) (by simp [leaves])
  | list fs ih =>
    obtain ⟨l, rfl, -, hfs⟩ := stands_list.1 hf
    cases g with
    | atom w =>
      obtain rfl := stands_atom.1 hg
      cases hpg (.list l) (by simp [leaves])
    | list gs =>
      obtain ⟨l', hl, -, hgs⟩ := stands_list.1 hg
      cases hl
      have hpfs : ∀ f ∈ fs, f.Plain := fun f hf => hpf.element hf
      have hpgs : ∀ g ∈ gs, g.Plain := fun g hg => hpg.element hg
      have hf : List.Forall₂ (fun f u => ∀ g, g.Plain ∧ g.Stands s u → f = g) fs
          (s.items l).toList :=
        ((List.forall₂_and_left _ _).2 ⟨fun f hf => And.intro hf (hpfs f hf), hfs⟩).imp
          fun f u h g hg => ih f h.1.1 h.2 hg.2 h.1.2 hg.1
      rw [eq_of_forall₂ hf ((List.forall₂_and_left _ _).2 ⟨hpgs, hgs⟩)]

/-! ## Levels -/

/-- Below a value there are lists of each height up to its own. -/
theorem Form.Stands.exists_height (hf : f.Stands s v) (hp : f.Plain) {k : Nat} (hk : 0 < k)
    (hle : k ≤ f.height) :
    ∃ (g : Form) (l : ListId), g.Stands s (.list l) ∧ s.Live l ∧ g.Plain ∧ g.height = k := by
  induction f using Form.induction generalizing v with
  | atom u =>
    rw [height] at hle
    omega
  | list fs ih =>
    obtain ⟨l, rfl, hlive, hfs⟩ := stands_list.1 hf
    by_cases heq : (Form.list fs).height = k
    · exact ⟨_, l, hf, hlive, hp, heq⟩
    · rcases Form.exists_height fs with hone | ⟨f, hmem, hheight⟩
      · omega
      · obtain ⟨u, -, hu⟩ := exists_stands hfs hmem
        exact ih f hmem hu (hp.element hmem) (by omega)

/-- A value has no more levels than the store has lists. -/
theorem Form.Stands.height_le (hf : f.Stands s v) (hp : f.Plain) : f.height ≤ s.lists.size := by
  have hlevel (k : Fin f.height) : ∃ l : ListId, s.Live l ∧
      ∃ g : Form, g.Stands s (.list l) ∧ g.Plain ∧ g.height = k + 1 := by
    obtain ⟨g, l, hg, hlive, hpg, hk⟩ := hf.exists_height hp (Nat.succ_pos k) k.isLt
    exact ⟨l, hlive, g, hg, hpg, hk⟩
  choose level hlive form hstands hplain hheight using hlevel
  -- a list stands for one form only, so lists with forms of different heights differ
  have hinj : Function.Injective fun k => (⟨(level k).index, hlive k⟩ : Fin s.lists.size) := by
    intro i j hij
    have hlist : level i = level j := by
      cases hi : level i
      cases hj : level j
      simpa [hi, hj] using hij
    have hform : form i = form j :=
      (hstands i).unique (by rw [hlist]; exact hstands j) (hplain i) (hplain j)
    have hk : (i : Nat) + 1 = j + 1 := by rw [← hheight, ← hheight, hform]
    exact Fin.ext (Nat.succ_injective hk)
  simpa using Fintype.card_le_of_injective _ hinj

/-! ## Printing -/

theorem Value.printTo_of_isPlain (h : v.isPlain = true) (n : Nat) :
    s.printTo n v = v.literalText := by
  cases v with
  | integer m => cases n <;> rfl
  | symbol name => cases n <;> rfl
  | _ => cases h

theorem Form.Stands.printTo (hf : f.Stands s v) (hp : f.Plain) {n : Nat} (hn : f.height ≤ n) :
    s.printTo n v = f.text := by
  induction f using Form.induction generalizing v n with
  | atom u =>
    obtain rfl := stands_atom.1 hf
    rw [Value.printTo_of_isPlain (hp v (by simp [leaves])), text]
  | list fs ih =>
    obtain ⟨l, rfl, -, hfs⟩ := stands_list.1 hf
    cases n with
    | zero =>
      rw [height] at hn
      omega
    | succ n =>
      have helement : ∀ f ∈ fs, ∀ u, f.Stands s u → f.text = s.printTo n u := by
        intro f hmem u hu
        have hlt := height_lt hmem
        exact (ih f hmem hu (hp.element hmem) (by omega)).symm
      have hrow : fs.map Form.text = (s.items l).toList.map (s.printTo n) := by
        rw [← List.forall₂_eq_eq_eq, List.forall₂_map_left_iff, List.forall₂_map_right_iff]
        exact ((List.forall₂_and_left _ _).2 ⟨helement, hfs⟩).imp fun f u h => h.1 u h.2
      rw [Store.printTo, text]
      simp only [Store.outline]
      rw [← hrow, String.empty_append]

/-- A value is printed as its form is. -/
theorem Form.Stands.print (hf : f.Stands s v) (hp : f.Plain) : s.print v = f.text := by
  rw [Store.print_eq_printTo]
  exact hf.printTo hp (Nat.le_succ_of_le (hf.height_le hp))

/-! ## Equality -/

theorem Value.equalTo_self_of_isPlain (h : v.isPlain = true) (n : Nat) :
    s.equalTo n v v = true := by
  cases v with
  | integer m => simp [Store.equalTo]
  | symbol name => simp [Store.equalTo]
  | _ => cases h

theorem pairwiseEqual_of_forall₂ {R : Form → Value → Prop} {eq : Value → Value → Bool}
    {fs : List Form} {us vs : List Value}
    (hu : List.Forall₂ (fun f u => ∀ v, R f v → eq u v = true) fs us)
    (hv : List.Forall₂ R fs vs) : pairwiseEqual eq us vs = true := by
  induction hu generalizing vs with
  | nil =>
    cases hv
    rfl
  | cons hfu _ ih =>
    cases hv with
    | cons hfv hv => rw [pairwiseEqual, hfu _ hfv, ih hv, Bool.and_self]

theorem Form.Stands.equalTo (hu : f.Stands s u) (hv : f.Stands s v) (hp : f.Plain) {n : Nat}
    (hn : f.height ≤ n) : s.equalTo n u v = true := by
  induction f using Form.induction generalizing u v n with
  | atom w =>
    obtain rfl := stands_atom.1 hu
    obtain rfl := stands_atom.1 hv
    exact Value.equalTo_self_of_isPlain (hp v (by simp [leaves])) n
  | list fs ih =>
    obtain ⟨l, rfl, -, hus⟩ := stands_list.1 hu
    obtain ⟨l', rfl, -, hvs⟩ := stands_list.1 hv
    cases n with
    | zero =>
      rw [height] at hn
      omega
    | succ n =>
      have helement : ∀ f ∈ fs, ∀ u, f.Stands s u →
          ∀ v, f.Stands s v → s.equalTo n u v = true := by
        intro f hmem u hu v hv
        have hlt := height_lt hmem
        exact ih f hmem hu hv (hp.element hmem) (by omega)
      have hrow : pairwiseEqual (s.equalTo n) (s.items l).toList (s.items l').toList = true :=
        pairwiseEqual_of_forall₂
          (((List.forall₂_and_left _ _).2 ⟨helement, hus⟩).imp fun f u h => h.1 u h.2) hvs
      rw [Store.equalTo, hrow, Bool.or_true]

/-- Values that stand for one form are equal. -/
theorem Form.Stands.equal (hu : f.Stands s u) (hv : f.Stands s v) (hp : f.Plain) :
    s.equal u v = true :=
  hu.equalTo hv hp (Nat.le_succ_of_le (hu.height_le hp))

/-! ## Allocation -/

/-- Every list of `s` is in `s'`, with the same elements. -/
structure Store.Extends (s s' : Store) : Prop where
  live : ∀ l, s.Live l → s'.Live l
  items : ∀ l, s.Live l → s'.items l = s.items l

theorem Store.Extends.refl (s : Store) : s.Extends s := ⟨fun _ h => h, fun _ _ => rfl⟩

theorem Store.Extends.trans {s₁ s₂ s₃ : Store} (h₁ : s₁.Extends s₂) (h₂ : s₂.Extends s₃) :
    s₁.Extends s₃ where
  live l h := h₂.live l (h₁.live l h)
  items l h := (h₂.items l (h₁.live l h)).trans (h₁.items l h)

theorem Store.live_newList {l : ListId} (h : s.Live l) (vs : Array Value) :
    (s.newList vs).2.Live l := by
  have h : l.index < s.lists.size := h
  simp only [Live, newList, addList, Array.size_push]
  omega

theorem Store.live_newList_fst (s : Store) (vs : Array Value) :
    (s.newList vs).2.Live (s.newList vs).1 := by
  simp [Live, newList, nextList, addList]

theorem Store.extends_newList (s : Store) (vs : Array Value) : s.Extends (s.newList vs).2 where
  live _ h := live_newList h vs
  items _ h := items_newList_of_live h

theorem Form.Stands.extend (hf : f.Stands s v) (h : s.Extends s') : f.Stands s' v := by
  induction f using Form.induction generalizing v with
  | atom u => exact hf
  | list fs ih =>
    obtain ⟨l, rfl, hlive, hfs⟩ := stands_list.1 hf
    refine stands_list.2 ⟨l, rfl, h.live l hlive, ?_⟩
    rw [h.items l hlive]
    exact ((List.forall₂_and_left _ _).2 ⟨fun f hf => @ih f hf, hfs⟩).imp fun f u h => h.1 h.2

/-- What is allocated for forms, one after the other, stands for them at the end. -/
theorem Form.allocateAll_stands {fs : List Form}
    (h : ∀ f ∈ fs, ∀ s, s.Extends (f.allocate s).2 ∧ f.Stands (f.allocate s).2 (f.allocate s).1)
    (s : Store) :
    s.Extends (Form.allocateAll fs s).2 ∧
      List.Forall₂ (fun f u => f.Stands (Form.allocateAll fs s).2 u) fs
        (Form.allocateAll fs s).1 := by
  induction fs generalizing s with
  | nil => exact ⟨.refl s, .nil⟩
  | cons f fs ih =>
    obtain ⟨hf, hstands⟩ := h f (by simp) s
    obtain ⟨hfs, hrest⟩ := ih (fun f hf => h f (by simp [hf])) (f.allocate s).2
    simp only [allocateAll]
    exact ⟨hf.trans hfs, .cons (hstands.extend hfs) hrest⟩

/-- New lists with values that stand for the forms: the list of them all is one such. -/
theorem Store.newProgram_stands {fs : List Form}
    (h : ∀ f ∈ fs, ∀ s, s.Extends (f.allocate s).2 ∧ f.Stands (f.allocate s).2 (f.allocate s).1)
    (s : Store) :
    s.Extends (s.newProgram fs).2 ∧
      (Form.list fs).Stands (s.newProgram fs).2 (.list (s.newProgram fs).1) := by
  obtain ⟨hext, hstands⟩ := Form.allocateAll_stands h s
  have hnew := extends_newList (Form.allocateAll fs s).2 (Form.allocateAll fs s).1.toArray
  simp only [newProgram]
  refine ⟨hext.trans hnew, Form.stands_list.2 ⟨_, rfl, live_newList_fst _ _, ?_⟩⟩
  rw [items_newList_fst]
  exact hstands.imp fun f u hu => hu.extend hnew

/-- A form is allocated as a value that stands for it, and no list changes. -/
theorem Form.allocate_stands (f : Form) (s : Store) :
    s.Extends (f.allocate s).2 ∧ f.Stands (f.allocate s).2 (f.allocate s).1 := by
  induction f using Form.induction generalizing s with
  | atom v => exact ⟨.refl s, stands_atom.2 rfl⟩
  | list fs ih =>
    rw [allocate]
    exact s.newProgram_stands ih

end Stands

end WordStack
