import Mathlib.Data.List.Forall2
import WordStack.Proofs.Concatenation

/-!
# Where directives are followed

A handler is asked from somewhere: from the source, or from a text that was loaded from there, and
so on. The place of a question is the row of bytes at which the directives stand that lead to it.
`Tour` describes the reading of lexemes together with the questions on the way, each at its place.
There is a tour of every row of lexemes, whatever the handler answers (`exists_tour`), and it is
what `expand` does (`Tour.expands`). What holds of questions and tokens is then shown along the
tour: the places go up, in the order of rows (`Tour.ordered`), no file is loaded from too deep
(`Tour.bounded`), and where reading fails, it fails at the place of a directive that no question
comes after (`Tour.fails_at`).
-/

namespace WordStack

/-! ## Words in a text -/

section Words

variable {d : Delimiters} {w : String} {pre post front cs : List Char} {start offset : Nat}

/-- The word `w` between two parts of a text, out of quotes; what is beside it is in no word. -/
structure Bare (d : Delimiters) (w : String) (pre post : List Char) : Prop where
  quotes : Even (pre.count '"')
  before : ∀ c ∈ pre.getLast?, d.inWord c = false
  after : ∀ c ∈ post.head?, d.inWord c = false
  chars : ∀ c ∈ w.toList, d.inWord c = true
  nonempty : w.toList ≠ []

/-- The word stands in the text at that byte. -/
def BareAt (d : Delimiters) (text : List Char) (offset : Nat) (w : String) : Prop :=
  ∃ pre post, text = pre ++ w.toList ++ post ∧ byteLength pre = offset ∧ Bare d w pre post

theorem Bare.behind (h : Bare d w pre post) (hquotes : Even (front.count '"'))
    (hlast : pre = [] → ∀ c ∈ front.getLast?, d.inWord c = false) :
    Bare d w (front ++ pre) post where
  quotes := by
    rw [List.count_append]
    exact hquotes.add h.quotes
  before := by
    rcases List.eq_nil_or_concat pre with rfl | ⟨init, c, rfl⟩
    · simpa using hlast rfl
    · simpa using h.before
  after := h.after
  chars := h.chars
  nonempty := h.nonempty

theorem readWord_eq_symbol {word : List Char} (h : readWord word = .symbol w) :
    w.toList = word := by
  unfold readWord at h
  split at h
  · cases h
  · split at h
    · cases h
    · cases h
      simp

variable (front) in
/-- What is found behind a lexeme is found in the whole text. -/
theorem found_behind {rest : List Char}
    (h : ∃ pre post, rest = pre ++ w.toList ++ post ∧
      start + byteLength front + byteLength pre = offset ∧ Bare d w pre post)
    (hquotes : Even (front.count '"'))
    (hlast : (∀ c ∈ rest.head?, d.inWord c = false) ∨ ∀ c ∈ front.getLast?, d.inWord c = false) :
    ∃ pre post, front ++ rest = pre ++ w.toList ++ post ∧ start + byteLength pre = offset ∧
      Bare d w pre post := by
  obtain ⟨pre, post, rfl, hoffset, hbare⟩ := h
  refine ⟨front ++ pre, post, by simp, ?_, hbare.behind hquotes fun hpre => ?_⟩
  · rw [byteLength_append, ← hoffset, Nat.add_assoc]
  · subst hpre
    refine hlast.resolve_left fun hhead => ?_
    obtain ⟨c, word, hw⟩ := List.exists_cons_of_ne_nil hbare.nonempty
    have hc := hbare.chars c (by simp [hw])
    rw [hhead c (by simp [hw])] at hc
    cases hc

/-- A symbol that has been scanned stands in the text as a bare word. -/
theorem bare_of_scan (h : (offset, Lexeme.value (.symbol w)) ∈ scan d start cs) :
    ∃ pre post, cs = pre ++ w.toList ++ post ∧ start + byteLength pre = offset ∧
      Bare d w pre post := by
  fun_induction scan d start cs with
  | case1 => cases h
  | case2 start c cs hb ih =>
    refine found_behind [c] (ih h) ?_ (.inr (by simp [Delimiters.inWord, hb]))
    have hq : c ≠ '"' := by
      rintro rfl
      exact absurd hb (by decide)
    simp [hq]
  | case3 start cs body hb ih =>
    have hscanned := (List.mem_cons.1 h).resolve_left (by simp)
    rcases hrest : cs.dropWhile (· != '"') with _ | ⟨c, rest⟩
    · -- nothing comes after a text that is not closed
      rw [hrest, List.drop_nil, scan] at hscanned
      cases hscanned
    · obtain rfl : c = '"' := by simpa [hrest] using List.head?_dropWhile_not (· != '"') cs
      have hnone : '"' ∉ body := fun hm => by simpa using List.mem_takeWhile_imp hm
      have hcs : '"' :: cs = ('"' :: body ++ ['"']) ++ rest := by
        have hparts := cs.takeWhile_append_dropWhile (p := (· != '"'))
        rw [hrest] at hparts
        rw [List.append_assoc, List.cons_append, List.cons_append, List.nil_append, hparts]
      have hone : Char.utf8Size '"' = 1 := rfl
      have hlength : byteLength ('"' :: body ++ ['"']) = byteLength body + 2 := by
        simp only [byteLength_append, byteLength_cons, hone]
        simp only [byteLength, List.foldr_nil]
        omega
      have hfound := ih hscanned
      rw [hrest, List.drop_one, List.tail_cons, Nat.add_assoc, ← hlength] at hfound
      rw [hcs]
      refine found_behind _ hfound ?_ (.inr ?_)
      · rw [List.count_append, List.count_cons_self, List.count_eq_zero.2 hnone,
          List.count_singleton_self]
        exact ⟨1, rfl⟩
      · rw [List.getLast?_concat]
        simp [Delimiters.inWord]
  | case4 start c cs hb hq hd ih =>
    have hfound := ih ((List.mem_cons.1 h).resolve_left (by simp))
    exact found_behind [c] hfound (by simp [hq]) (.inr (by simp [Delimiters.inWord, hd]))
  | case5 start c cs hb hq hd word ih =>
    have hcs : c :: cs = word ++ cs.dropWhile d.inWord := by
      rw [List.cons_append, List.takeWhile_append_dropWhile]
    have hword : ∀ x ∈ word, d.inWord x = true :=
      List.forall_mem_cons.2 ⟨inWord_eq_true.2 ⟨hb, hq, hd⟩, fun x hx => List.mem_takeWhile_imp hx⟩
    have hrest : ∀ x ∈ (cs.dropWhile d.inWord).head?, d.inWord x = false := fun x hx => by
      have hhead := List.head?_dropWhile_not d.inWord cs
      rw [Option.mem_def.1 hx] at hhead
      simpa using hhead
    rw [hcs]
    rcases List.mem_cons.1 h with h | h
    · simp only [Prod.mk.injEq, Lexeme.value.injEq] at h
      have hw := readWord_eq_symbol h.2.symm
      refine ⟨[], _, by rw [hw, List.nil_append], h.1.symm, ?_⟩
      exact ⟨by simp, by simp, hrest, by rwa [hw], by simp [hw, word]⟩
    · have hnone : '"' ∉ word := fun hm => (inWord_eq_true.1 (hword _ hm)).2.1 rfl
      exact found_behind word (ih h) (by simp [List.count_eq_zero.2 hnone]) (.inl hrest)

theorem scan_ge (d : Delimiters) (start : Nat) (cs : List Char) :
    ∀ l ∈ scan d start cs, start ≤ l.1 := by
  fun_induction scan d start cs with
  | case1 => simp
  | case2 start c cs hb ih => exact fun l hl => Nat.le_trans (Nat.le_add_right _ _) (ih l hl)
  | case3 start cs body hb ih =>
    refine List.forall_mem_cons.2 ⟨Nat.le_refl _, fun l hl => ?_⟩
    exact Nat.le_trans (by omega) (ih l hl)
  | case4 start c cs hb hq hd ih =>
    refine List.forall_mem_cons.2 ⟨Nat.le_refl _, fun l hl => ?_⟩
    exact Nat.le_trans (Nat.le_add_right _ _) (ih l hl)
  | case5 start c cs hb hq hd word ih =>
    refine List.forall_mem_cons.2 ⟨Nat.le_refl _, fun l hl => ?_⟩
    exact Nat.le_trans (Nat.le_add_right _ _) (ih l hl)

/-- Lexemes are scanned from left to right. -/
theorem scan_sorted (d : Delimiters) (start : Nat) (cs : List Char) :
    (scan d start cs).Pairwise (·.1 < ·.1) := by
  have later {first next : Nat} {rest : List Char} (hnext : first < next) (l : Nat × Lexeme)
      (hl : l ∈ scan d next rest) : first < l.1 :=
    Nat.lt_of_lt_of_le hnext (scan_ge d next rest l hl)
  fun_induction scan d start cs with
  | case1 => exact .nil
  | case2 start c cs hb ih => exact ih
  | case3 start cs body hb ih => exact .cons (fun l hl => later (by omega) l hl) ih
  | case4 start c cs hb hq hd ih =>
    have := c.utf8Size_pos
    exact .cons (fun l hl => later (by omega) l hl) ih
  | case5 start c cs hb hq hd word ih =>
    have hpos : 0 < byteLength word := by
      have := c.utf8Size_pos
      rw [byteLength_cons]
      omega
    exact .cons (fun l hl => later (by omega) l hl) ih

end Words

/-! ## What directives leave -/

section Rest

variable {d : Delimiters} {opener : Char} {directive : String} {ls : List (Nat × Lexeme)}

theorem readGroup_suffix {r : List String × List (Nat × Lexeme)}
    (h : readGroup d opener ls = some r) : r.2 <:+ ls := by
  induction ls generalizing r with
  | nil => cases h
  | cons l ls ih =>
    obtain ⟨offset, v | c⟩ := l
    · simp only [readGroup, Option.map_eq_some_iff] at h
      obtain ⟨r', h', rfl⟩ := h
      exact (ih h').trans (List.suffix_cons _ _)
    · simp only [readGroup] at h
      split at h
      · cases h
        exact List.suffix_cons _ _
      · exact (ih h).trans (List.suffix_cons _ _)

theorem readNamespaces_suffix {r : List String × List (Nat × Lexeme)}
    (h : readNamespaces d ls = .ok r) : r.2 <:+ ls := by
  rcases ls with _ | ⟨⟨offset, v | c⟩, ls⟩
  · cases h
  · cases h
    exact List.suffix_cons _ _
  · simp only [readNamespaces] at h
    split at h
    · cases h
    · split at h
      · next r' hg =>
        cases h
        exact (readGroup_suffix hg).trans (List.suffix_cons _ _)
      · cases h

theorem readArgument_suffix {r : String × List (Nat × Lexeme)}
    (h : readArgument directive ls = .ok r) : r.2 <:+ ls := by
  rcases ls with _ | ⟨⟨offset, v | c⟩, ls⟩
  · cases h
  · cases h
    exact List.suffix_cons _ _
  · cases h

/-- What a directive leaves is the end of the row that it has been read from. -/
theorem Directive.read_suffix {r : Directive × List (Nat × Lexeme)}
    (h : Directive.read d ls = .ok r) : r.2 <:+ ls := by
  unfold Directive.read at h
  split at h
  · next offset rest =>
    cases ha : readArgument "load-file" rest with
    | error e => simp [ha, Except.map] at h
    | ok a =>
      simp only [ha, Except.map, Except.ok.injEq] at h
      subst h
      exact (readArgument_suffix ha).trans (List.suffix_cons _ _)
  · next offset rest =>
    cases ha : readArgument "reference" rest with
    | error e => simp [ha] at h
    | ok a =>
      cases hn : readNamespaces d a.2 with
      | error e => simp [ha, hn, Except.map] at h
      | ok n =>
        simp only [ha, hn, Except.map, Except.ok.injEq] at h
        subst h
        exact ((readNamespaces_suffix hn).trans (readArgument_suffix ha)).trans
          (List.suffix_cons _ _)
  · cases h
  · cases h

end Rest

/-! ## Tours -/

variable {σ : Type}

/-- A question to the handler: the directive, what the handler is when it is asked, and the place,
the bytes of the directives that lead there, those in the source first. -/
structure Visit (σ : Type) where
  place : List Nat
  directive : Directive
  state : σ

namespace Visit

/-- The visit as it is seen from the text that loads the one it is in. -/
def under (offset : Nat) (v : Visit σ) : Visit σ := { v with place := offset :: v.place }

@[simp] theorem under_directive (offset : Nat) (v : Visit σ) :
    (v.under offset).directive = v.directive := rfl

@[simp] theorem under_state (offset : Nat) (v : Visit σ) : (v.under offset).state = v.state := rfl

@[simp] theorem under_place (offset : Nat) (v : Visit σ) :
    (v.under offset).place = offset :: v.place := rfl

end Visit

/-- A directive that ends the reading by itself, with the questions that it asks: where `rest`
follows it, and files can be loaded so many more levels deep. -/
inductive Stops (d : Delimiters) (h : DirectiveHandler σ) (limit offset : Nat)
    (rest : List (Nat × Lexeme)) (s : σ) :
    Nat → List (Visit σ) → DirectiveError → σ → Prop
  | unread {depth : Nat} {e : DirectiveError} (hr : Directive.read d rest = .error e) :
      Stops d h limit offset rest s depth [] e s
  | tooDeep {name : String} {rest' : List (Nat × Lexeme)}
      (hr : Directive.read d rest = .ok (.loadFile name, rest')) :
      Stops d h limit offset rest s 0 [] (.nestedTooDeep limit) s
  | unloaded {deeper : Nat} {name m : String} {rest' : List (Nat × Lexeme)} {s' : σ}
      (hr : Directive.read d rest = .ok (.loadFile name, rest'))
      (hload : h.loadFile name s = (.error m, s')) :
      Stops d h limit offset rest s (deeper + 1) [⟨[offset], .loadFile name, s⟩]
        (.failed "load-file" m) s'
  | unimported {depth : Nat} {module m : String} {spaces : List String}
      {rest' : List (Nat × Lexeme)} {s' : σ}
      (hr : Directive.read d rest = .ok (.reference module spaces, rest'))
      (hrefer : h.reference module spaces s = (.error m, s')) :
      Stops d h limit offset rest s depth [⟨[offset], .reference module spaces, s⟩]
        (.failed "reference" m) s'

/-- The reading of lexemes, from one state of the handler to another: the questions on the way, and
the tokens or the error that come of it. -/
inductive Tour (d : Delimiters) (h : DirectiveHandler σ) (limit : Nat) :
    Nat → List (Nat × Lexeme) → σ → List (Visit σ) → Except LexError (List Token) → σ → Prop
  | done (depth : Nat) (s : σ) : Tour d h limit depth [] s [] (.ok []) s
  | plain {depth offset : Nat} {l : Lexeme} {rest : List (Nat × Lexeme)} {s s' : σ}
      {vs : List (Visit σ)} {r : Except LexError (List Token)} (hl : ¬ l.isAnnouncement = true)
      (hrest : Tour d h limit depth rest s vs r s') :
      Tour d h limit depth ((offset, l) :: rest) s vs (r.map (l.token :: ·)) s'
  | stopped {depth offset : Nat} {l : Lexeme} {rest : List (Nat × Lexeme)} {s s' : σ}
      {vs : List (Visit σ)} {e : DirectiveError} (hl : l.isAnnouncement = true)
      (hstop : Stops d h limit offset rest s depth vs e s') :
      Tour d h limit depth ((offset, l) :: rest) s vs (.error ⟨offset, e⟩) s'
  | broken {deeper offset : Nat} {l : Lexeme} {rest rest' : List (Nat × Lexeme)}
      {name text : String} {s s₁ s' : σ} {vs : List (Visit σ)} {e : LexError}
      (hl : l.isAnnouncement = true) (hr : Directive.read d rest = .ok (.loadFile name, rest'))
      (hload : h.loadFile name s = (.ok text, s₁))
      (hinner : Tour d h limit deeper (scan d 0 text.toList) s₁ vs (.error e) s') :
      Tour d h limit (deeper + 1) ((offset, l) :: rest) s
        (⟨[offset], .loadFile name, s⟩ :: vs.map (.under offset)) (.error e) s'
  | loaded {deeper offset : Nat} {l : Lexeme} {rest rest' : List (Nat × Lexeme)}
      {name text : String} {s s₁ s₂ s' : σ} {vs us : List (Visit σ)} {inner : List Token}
      {r : Except LexError (List Token)}
      (hl : l.isAnnouncement = true) (hr : Directive.read d rest = .ok (.loadFile name, rest'))
      (hload : h.loadFile name s = (.ok text, s₁))
      (hinner : Tour d h limit deeper (scan d 0 text.toList) s₁ vs (.ok inner) s₂)
      (hrest : Tour d h limit (deeper + 1) rest' s₂ us r s') :
      Tour d h limit (deeper + 1) ((offset, l) :: rest) s
        (⟨[offset], .loadFile name, s⟩ :: (vs.map (.under offset) ++ us))
        (r.map (.splice inner :: ·)) s'
  | imported {depth offset : Nat} {l : Lexeme} {rest rest' : List (Nat × Lexeme)} {module : String}
      {spaces : List String} {s s₁ s' : σ} {us : List (Visit σ)} {r : Except LexError (List Token)}
      (hl : l.isAnnouncement = true)
      (hr : Directive.read d rest = .ok (.reference module spaces, rest'))
      (hrefer : h.reference module spaces s = (.ok (), s₁))
      (hrest : Tour d h limit depth rest' s₁ us r s') :
      Tour d h limit depth ((offset, l) :: rest) s
        (⟨[offset], .reference module spaces, s⟩ :: us) r s'

section Tours

variable {d : Delimiters} {h : DirectiveHandler σ} {limit depth : Nat}
  {ls : List (Nat × Lexeme)} {s s' : σ} {vs : List (Visit σ)} {r : Except LexError (List Token)}

/-- Whatever the handler answers, the reading ends. -/
theorem exists_tour (d : Delimiters) (h : DirectiveHandler σ) (limit depth : Nat)
    (ls : List (Nat × Lexeme)) (s : σ) : ∃ vs r s', Tour d h limit depth ls s vs r s' := by
  induction depth using Nat.strong_induction_on generalizing ls s with
  | _ depth hdeeper =>
  induction ls using expand_induction d generalizing s with
  | nil => exact ⟨_, _, _, .done depth s⟩
  | plain offset l rest hl ih =>
    obtain ⟨vs, r, s', hrest⟩ := ih s
    exact ⟨_, _, _, .plain hl hrest⟩
  | unread offset l rest e hl hr => exact ⟨_, _, _, .stopped hl (.unread hr)⟩
  | read offset l rest x rest' hl hr ih =>
    cases x with
    | loadFile name =>
      cases depth with
      | zero => exact ⟨_, _, _, .stopped hl (.tooDeep hr)⟩
      | succ deeper =>
        rcases hload : h.loadFile name s with ⟨m | text, s₁⟩
        · exact ⟨_, _, _, .stopped hl (.unloaded hr hload)⟩
        · obtain ⟨vs, e | inner, s₂, hinner⟩ :=
            hdeeper deeper (Nat.lt_succ_self _) (scan d 0 text.toList) s₁
          · exact ⟨_, _, _, .broken hl hr hload hinner⟩
          · obtain ⟨us, r, s', hrest⟩ := ih s₂
            exact ⟨_, _, _, .loaded hl hr hload hinner hrest⟩
    | reference module spaces =>
      rcases hrefer : h.reference module spaces s with ⟨m | _, s₁⟩
      · exact ⟨_, _, _, .stopped hl (.unimported hr hrefer)⟩
      · obtain ⟨us, r, s', hrest⟩ := ih s₁
        exact ⟨_, _, _, .imported hl hr hrefer hrest⟩

theorem obey_load {name text : String} {deeper offset : Nat} {s₁ : σ}
    (hload : h.loadFile name s = (.ok text, s₁)) :
    obey d h limit (deeper + 1) offset (.loadFile name) s =
      Reading.andThen (expand d h limit deeper (scan d 0 text.toList) #[] s₁) fun inner s =>
        (.ok #[.splice inner.toList], s) := by
  simp [obey, refusal, hload, Except.mapError, Reading.andThen]

theorem obey_reference {module : String} {spaces : List String} {offset : Nat} {s₁ : σ}
    (hrefer : h.reference module spaces s = (.ok (), s₁)) :
    obey d h limit depth offset (.reference module spaces) s = (.ok #[], s₁) := by
  simp [obey, refusal, hrefer, Except.mapError, Reading.andThen]

theorem recording_loadFile {name : String} {answer : Except String String}
    (hload : h.loadFile name s = (answer, s')) (log : List Directive) :
    h.recording.loadFile name (s, log) = (answer, s', log ++ [.loadFile name]) := by
  simp [DirectiveHandler.recording, hload]

theorem recording_reference {module : String} {spaces : List String} {answer : Except String Unit}
    (hrefer : h.reference module spaces s = (answer, s')) (log : List Directive) :
    h.recording.reference module spaces (s, log) =
      (answer, s', log ++ [.reference module spaces]) := by
  simp [DirectiveHandler.recording, hrefer]

/-- The questions of the tour are those that are recorded, and its end is that of `expand`. -/
theorem Tour.recorded (ht : Tour d h limit depth ls s vs r s') (log : List Directive) :
    expand d h.recording limit depth ls #[] (s, log) =
      (r.map (·.toArray), s', log ++ vs.map (·.directive)) := by
  induction ht generalizing log with
  | done depth s => simp [expand, Except.map]
  | @plain _ _ l _ _ _ _ r hl hrest ih =>
    rw [expand_plain hl, expand_out, ih]
    cases r <;> simp [Except.map]
  | stopped hl hstop =>
    cases hstop with
    | unread hr => simp [expand_unread hl hr, Except.map]
    | tooDeep hr => simp [expand_read hl hr, obey, Reading.andThen, Except.map]
    | unloaded hr hload =>
      simp [expand_read hl hr, obey, refusal, recording_loadFile hload log, Except.mapError,
        Reading.andThen, Except.map]
    | unimported hr hrefer =>
      simp [expand_read hl hr, obey, refusal, recording_reference hrefer log, Except.mapError,
        Reading.andThen, Except.map]
  | broken hl hr hload hinner ih =>
    rw [expand_read hl hr, obey_load (recording_loadFile hload log), ih]
    simp [Reading.andThen, Except.map, Function.comp_def]
  | @loaded _ _ _ _ _ _ _ _ _ _ _ _ _ _ r hl hr hload hinner hrest ihinner ih =>
    rw [expand_read hl hr, obey_load (recording_loadFile hload log), ihinner]
    simp only [Reading.andThen, Except.map]
    rw [expand_out, ih]
    cases r <;> simp [Except.map, Function.comp_def]
  | imported hl hr hrefer hrest ih =>
    rw [expand_read hl hr, obey_reference (recording_reference hrefer log)]
    simp only [Reading.andThen, Array.append_empty]
    rw [ih]
    simp

theorem Tour.expands (ht : Tour d h limit depth ls s vs r s') :
    expand d h limit depth ls #[] s = (r.map (·.toArray), s') := by
  obtain ⟨calls, hc⟩ := expand_records d h limit depth ls #[] s
  have hrecorded := (hc []).symm.trans (ht.recorded [])
  simp only [Prod.mk.injEq] at hrecorded
  exact Prod.ext hrecorded.1 hrecorded.2.1

/-! ## The questions of a tour -/

/-- What the handler is after a directive. -/
def DirectiveHandler.after (h : DirectiveHandler σ) : Directive → σ → σ
  | .loadFile name, s => (h.loadFile name s).2
  | .reference module spaces, s => (h.reference module spaces s).2

/-- Each question finds the handler as the one before has left it, from `s` to `s'`. -/
def Asked (h : DirectiveHandler σ) : σ → List (Visit σ) → σ → Prop
  | s, [], s' => s' = s
  | s, v :: vs, s' => v.state = s ∧ Asked h (h.after v.directive s) vs s'

theorem Asked.append {us : List (Visit σ)} {s₁ : σ} (hvs : Asked h s vs s₁)
    (hus : Asked h s₁ us s') : Asked h s (vs ++ us) s' := by
  induction vs generalizing s with
  | nil =>
    obtain rfl : s₁ = s := hvs
    exact hus
  | cons v vs ih => exact ⟨hvs.1, ih hvs.2⟩

theorem Asked.under (offset : Nat) (hvs : Asked h s vs s') :
    Asked h s (vs.map (.under offset)) s' := by
  induction vs generalizing s with
  | nil => exact hvs
  | cons v vs ih => exact ⟨hvs.1, ih hvs.2⟩

theorem Tour.asked (ht : Tour d h limit depth ls s vs r s') : Asked h s vs s' := by
  induction ht with
  | done depth s => rfl
  | plain hl hrest ih => exact ih
  | stopped hl hstop =>
    cases hstop with
    | unread hr => rfl
    | tooDeep hr => rfl
    | unloaded hr hload => exact ⟨rfl, by simp [DirectiveHandler.after, hload, Asked]⟩
    | unimported hr hrefer => exact ⟨rfl, by simp [DirectiveHandler.after, hrefer, Asked]⟩
  | broken hl hr hload hinner ih =>
    refine ⟨rfl, ?_⟩
    rw [DirectiveHandler.after, hload]
    exact ih.under _
  | loaded hl hr hload hinner hrest ihinner ih =>
    refine ⟨rfl, ?_⟩
    rw [DirectiveHandler.after, hload]
    exact (ihinner.under _).append ih
  | imported hl hr hrefer hrest ih =>
    refine ⟨rfl, ?_⟩
    rw [DirectiveHandler.after, hrefer]
    exact ih

theorem Stops.place {offset : Nat} {rest : List (Nat × Lexeme)} {e : DirectiveError}
    (hs : Stops d h limit offset rest s depth vs e s') : ∀ v ∈ vs, v.place = [offset] := by
  cases hs <;> simp

/-- Files are loaded from texts only that are not as deep as can be. -/
theorem Tour.bounded (ht : Tour d h limit depth ls s vs r s') :
    ∀ v ∈ vs, ∀ name, v.directive = .loadFile name → v.place.length ≤ depth := by
  have inside {deeper offset : Nat} {us : List (Visit σ)}
      (hus : ∀ v ∈ us, ∀ name, v.directive = .loadFile name → v.place.length ≤ deeper) :
      ∀ v ∈ us.map (Visit.under offset), ∀ name, v.directive = .loadFile name →
        v.place.length ≤ deeper + 1 :=
    List.forall_mem_map.2 fun v hv name hname => Nat.succ_le_succ (hus v hv name hname)
  induction ht with
  | done depth s => simp
  | plain hl hrest ih => exact ih
  | stopped hl hstop => cases hstop <;> simp
  | broken hl hr hload hinner ih =>
    exact List.forall_mem_cons.2 ⟨fun _ _ => by simp, inside ih⟩
  | loaded hl hr hload hinner hrest ihinner ih =>
    exact List.forall_mem_cons.2 ⟨fun _ _ => by simp,
      List.forall_mem_append.2 ⟨inside ihinner, ih⟩⟩
  | imported hl hr hrefer hrest ih =>
    exact List.forall_mem_cons.2 ⟨fun name hname => (by cases hname), ih⟩

/-- A place that one of the lexemes leads to. -/
def StartsIn (ls : List (Nat × Lexeme)) (place : List Nat) : Prop :=
  ∃ l ∈ ls, ∃ q, place = l.1 :: q

theorem StartsIn.mono {more : List (Nat × Lexeme)} {place : List Nat} (hp : StartsIn ls place)
    (hsub : ls ⊆ more) : StartsIn more place := by
  obtain ⟨l, hl, hq⟩ := hp
  exact ⟨l, hsub hl, hq⟩

theorem startsIn_cons (offset : Nat) (l : Lexeme) (rest : List (Nat × Lexeme)) (q : List Nat) :
    StartsIn ((offset, l) :: rest) (offset :: q) :=
  ⟨(offset, l), List.mem_cons_self .., q, rfl⟩

/-- What lexemes lead to comes after all that the lexemes before them lead to. -/
theorem StartsIn.lt {l : Nat × Lexeme} {rest : List (Nat × Lexeme)} {place : List Nat}
    (hp : StartsIn ls place) (hsorted : (l :: rest).Pairwise (·.1 < ·.1)) (hsub : ls ⊆ rest)
    (q : List Nat) : l.1 :: q < place := by
  obtain ⟨m, hm, q', rfl⟩ := hp
  exact List.cons_lt_cons_iff.2 (.inl ((List.pairwise_cons.1 hsorted).1 m (hsub hm)))

theorem StartsIn.nil_lt {place : List Nat} (hp : StartsIn ls place) : [] < place := by
  obtain ⟨l, -, q, rfl⟩ := hp
  exact List.nil_lt_cons _ _

theorem cons_lt_cons_self {p q : List Nat} (n : Nat) (hpq : p < q) : n :: p < n :: q :=
  List.cons_lt_cons_iff.2 (.inr ⟨rfl, hpq⟩)

/-- Each question comes from one of the lexemes, or from a text that is loaded there. -/
theorem Tour.startsIn (ht : Tour d h limit depth ls s vs r s') :
    ∀ v ∈ vs, StartsIn ls v.place := by
  have later {l : Nat × Lexeme} {rest rest' : List (Nat × Lexeme)} {us : List (Visit σ)}
      (hsub : rest' ⊆ rest) (hus : ∀ v ∈ us, StartsIn rest' v.place) :
      ∀ v ∈ us, StartsIn (l :: rest) v.place :=
    fun v hv => (hus v hv).mono (List.subset_cons_of_subset l hsub)
  have inside {offset : Nat} {l : Lexeme} {rest : List (Nat × Lexeme)} (us : List (Visit σ)) :
      ∀ v ∈ us.map (Visit.under offset), StartsIn ((offset, l) :: rest) v.place :=
    List.forall_mem_map.2 fun v _ => startsIn_cons offset l rest v.place
  induction ht with
  | done depth s => simp
  | plain hl hrest ih => exact later (List.Subset.refl _) ih
  | stopped hl hstop =>
    intro v hv
    rw [hstop.place v hv]
    exact startsIn_cons _ _ _ []
  | broken hl hr hload hinner ih =>
    exact List.forall_mem_cons.2 ⟨startsIn_cons _ _ _ [], inside _⟩
  | loaded hl hr hload hinner hrest ihinner ih =>
    exact List.forall_mem_cons.2 ⟨startsIn_cons _ _ _ [],
      List.forall_mem_append.2 ⟨inside _, later (Directive.read_suffix hr).subset ih⟩⟩
  | imported hl hr hrefer hrest ih =>
    exact List.forall_mem_cons.2 ⟨startsIn_cons _ _ _ [],
      later (Directive.read_suffix hr).subset ih⟩

/-- What comes of the text that a directive loads comes after the directive. -/
theorem Tour.after_load (ht : Tour d h limit depth ls s vs r s') (offset : Nat) :
    ∀ v ∈ vs.map (Visit.under offset), [offset] < v.place :=
  List.forall_mem_map.2 fun v hv => cons_lt_cons_self offset (ht.startsIn v hv).nil_lt

/-- Questions are asked in the order of the source, those that a directive leads to behind it. -/
theorem Tour.ordered (ht : Tour d h limit depth ls s vs r s') (hls : ls.Pairwise (·.1 < ·.1)) :
    vs.Pairwise (·.place < ·.place) := by
  have inside {offset : Nat} {us : List (Visit σ)} (hus : us.Pairwise (·.place < ·.place)) :
      (us.map (Visit.under offset)).Pairwise (·.place < ·.place) := by
    rw [List.pairwise_map]
    exact hus.imp fun hlt => cons_lt_cons_self offset hlt
  induction ht with
  | done depth s => exact .nil
  | plain hl hrest ih => exact ih (List.pairwise_cons.1 hls).2
  | stopped hl hstop => cases hstop <;> simp
  | broken hl hr hload hinner ih =>
    exact .cons (hinner.after_load _) (inside (ih (scan_sorted d 0 _)))
  | loaded hl hr hload hinner hrest ihinner ih =>
    have hrest' := Directive.read_suffix hr
    have hlater := fun q v hv => (hrest.startsIn v hv).lt hls hrest'.subset q
    refine .cons (List.forall_mem_append.2 ⟨hinner.after_load _, hlater []⟩) ?_
    refine List.pairwise_append.2 ⟨inside (ihinner (scan_sorted d 0 _)),
      ih ((List.pairwise_cons.1 hls).2.sublist hrest'.sublist), ?_⟩
    exact List.forall_mem_map.2 fun v _ => hlater v.place
  | imported hl hr hrefer hrest ih =>
    have hrest' := Directive.read_suffix hr
    exact .cons (fun v hv => (hrest.startsIn v hv).lt hls hrest'.subset [])
      (ih ((List.pairwise_cons.1 hls).2.sublist hrest'.sublist))

/-! ## The texts that questions come from -/

/-- At the place of a question that has loaded a file, the text of the file; at none the source. -/
def TextAt (h : DirectiveHandler σ) (source : String) (vs : List (Visit σ)) (place : List Nat)
    (text : String) : Prop :=
  (place = [] ∧ text = source) ∨ ∃ v ∈ vs, v.place = place ∧
    ∃ name, v.directive = .loadFile name ∧ (h.loadFile name v.state).1 = .ok text

/-- The word that announces a directive is at that byte of the text, and `rest` follows it. -/
def Announces (d : Delimiters) (text : String) (offset : Nat) (rest : List (Nat × Lexeme)) : Prop :=
  (offset, Lexeme.value (.symbol "pragma")) :: rest <:+ scan d 0 text.toList

/-- The visit stands in the source or in a text that has been loaded, where its directive does. -/
def Visit.Stands (d : Delimiters) (h : DirectiveHandler σ) (source : String) (vs : List (Visit σ))
    (v : Visit σ) : Prop :=
  ∃ place offset text rest rest', v.place = place ++ [offset] ∧ TextAt h source vs place text ∧
    Announces d text offset rest ∧ Directive.read d rest = .ok (v.directive, rest')

theorem announces_of_suffix {source : String} {offset : Nat} {l : Lexeme}
    {rest : List (Nat × Lexeme)} (hl : l.isAnnouncement = true)
    (hsuffix : (offset, l) :: rest <:+ scan d 0 source.toList) :
    Announces d source offset rest := by
  have hword : l = .value (.symbol "pragma") := by
    unfold Lexeme.isAnnouncement at hl
    split at hl
    · rw [beq_iff_eq.1 hl]
    · cases hl
  rwa [Announces, ← hword]

/-- A directive stands at a bare word. -/
theorem Announces.bareAt {text : String} {offset : Nat} {rest : List (Nat × Lexeme)}
    (ha : Announces d text offset rest) : BareAt d text.toList offset "pragma" := by
  obtain ⟨pre, post, htext, hoffset, hbare⟩ := bare_of_scan (ha.subset (List.mem_cons_self ..))
  exact ⟨pre, post, htext, by rwa [Nat.zero_add] at hoffset, hbare⟩

theorem TextAt.mono {source text : String} {us : List (Visit σ)} {place : List Nat}
    (ht : TextAt h source vs place text) (hsub : vs ⊆ us) : TextAt h source us place text :=
  ht.imp_right fun ⟨v, hv, hplace⟩ => ⟨v, hsub hv, hplace⟩

/-- A text that is loaded from a text that is loaded is loaded from there. -/
theorem TextAt.under {source text inner : String} {us : List (Visit σ)} {place : List Nat}
    {offset : Nat} {name : String} {s₁ : σ} (hload : h.loadFile name s = (.ok inner, s₁))
    (hv : ⟨[offset], .loadFile name, s⟩ ∈ us) (hsub : vs.map (.under offset) ⊆ us)
    (ht : TextAt h inner vs place text) : TextAt h source us (offset :: place) text := by
  rcases ht with ⟨rfl, rfl⟩ | ⟨v, hmem, rfl, name', hname, htext⟩
  · exact .inr ⟨_, hv, rfl, name, rfl, by simp [hload]⟩
  · exact .inr ⟨v.under offset, hsub (List.mem_map_of_mem hmem), rfl, name', hname, htext⟩

theorem Visit.Stands.mono {source : String} {us : List (Visit σ)} {v : Visit σ}
    (hv : v.Stands d h source vs) (hsub : vs ⊆ us) : v.Stands d h source us := by
  obtain ⟨place, offset, text, rest, rest', hplace, ht, hstands⟩ := hv
  exact ⟨place, offset, text, rest, rest', hplace, ht.mono hsub, hstands⟩

theorem Visit.Stands.under {source inner : String} {us : List (Visit σ)} {v : Visit σ}
    {offset : Nat} {name : String} {s₁ : σ} (hload : h.loadFile name s = (.ok inner, s₁))
    (hmem : ⟨[offset], .loadFile name, s⟩ ∈ us) (hsub : vs.map (.under offset) ⊆ us)
    (hv : v.Stands d h inner vs) : (v.under offset).Stands d h source us := by
  obtain ⟨place, byte, text, rest, rest', hplace, ht, hstands⟩ := hv
  exact ⟨offset :: place, byte, text, rest, rest', by simp [hplace], ht.under hload hmem hsub,
    hstands⟩

theorem suffix_of_cons {l : Nat × Lexeme} {rest rest' more : List (Nat × Lexeme)}
    (hls : l :: rest <:+ more) (hsuffix : rest' <:+ rest) : rest' <:+ more :=
  (hsuffix.trans (List.suffix_cons l rest)).trans hls

/-- Each question stands in its text, where reading goes through the end of the source. -/
theorem Tour.stands {source : String} (ht : Tour d h limit depth ls s vs r s')
    (hls : ls <:+ scan d 0 source.toList) : ∀ v ∈ vs, v.Stands d h source vs := by
  have first {source : String} {offset : Nat} {l : Lexeme} {rest rest' : List (Nat × Lexeme)}
      {x : Directive} {s : σ} (us : List (Visit σ)) (hl : l.isAnnouncement = true)
      (hls : (offset, l) :: rest <:+ scan d 0 source.toList)
      (hr : Directive.read d rest = .ok (x, rest')) :
      Visit.Stands d h source us ⟨[offset], x, s⟩ :=
    ⟨[], offset, source, rest, rest', rfl, .inl ⟨rfl, rfl⟩, announces_of_suffix hl hls, hr⟩
  induction ht generalizing source with
  | done depth s => simp
  | plain hl hrest ih => exact ih (suffix_of_cons hls (List.suffix_refl _))
  | stopped hl hstop =>
    cases hstop with
    | unread hr => simp
    | tooDeep hr => simp
    | unloaded hr hload => simpa using first _ hl hls hr
    | unimported hr hrefer => simpa using first _ hl hls hr
  | broken hl hr hload hinner ih =>
    refine List.forall_mem_cons.2 ⟨first _ hl hls hr, List.forall_mem_map.2 fun v hv => ?_⟩
    exact (ih (List.suffix_refl _) v hv).under hload (List.mem_cons_self ..)
      (List.subset_cons_self ..)
  | loaded hl hr hload hinner hrest ihinner ih =>
    refine List.forall_mem_cons.2 ⟨first _ hl hls hr, List.forall_mem_append.2
      ⟨List.forall_mem_map.2 fun v hv => ?_, fun v hv => ?_⟩⟩
    · refine (ihinner (List.suffix_refl _) v hv).under hload (List.mem_cons_self ..) ?_
      exact List.subset_cons_of_subset _ (List.subset_append_left ..)
    · refine (ih (suffix_of_cons hls (Directive.read_suffix hr)) v hv).mono ?_
      exact List.subset_cons_of_subset _ (List.subset_append_right ..)
  | imported hl hr hrefer hrest ih =>
    refine List.forall_mem_cons.2 ⟨first _ hl hls hr, fun v hv => ?_⟩
    exact (ih (suffix_of_cons hls (Directive.read_suffix hr)) v hv).mono (List.subset_cons_self ..)

/-! ## Where reading fails -/

/-- A directive that one of the lexemes leads to ends the reading with the error, and no question
comes after it. -/
def FailsAt (d : Delimiters) (h : DirectiveHandler σ) (limit depth : Nat)
    (ls : List (Nat × Lexeme)) (source : String) (vs : List (Visit σ)) (e : LexError) (s' : σ) :
    Prop :=
  ∃ place text rest s₀ us, TextAt h source vs place text ∧ Announces d text e.offset rest ∧
    Stops d h limit e.offset rest s₀ (depth - place.length) us e.cause s' ∧
    StartsIn ls (place ++ [e.offset]) ∧
    ∀ v ∈ vs, v.place < place ++ [e.offset] ∨ v.place = place ++ [e.offset]

/-- A failure in what comes later is one of the whole, after all that has been asked before. -/
theorem FailsAt.behind {l : Nat × Lexeme} {rest : List (Nat × Lexeme)} {source : String}
    {e : LexError} (hf : FailsAt d h limit depth ls source vs e s') (us : List (Visit σ))
    (hsub : ls ⊆ rest) (hus : ∀ p, StartsIn ls p → ∀ v ∈ us, v.place < p) :
    FailsAt d h limit depth (l :: rest) source (us ++ vs) e s' := by
  obtain ⟨place, text, after, s₀, asked, htext, hannounces, hstops, hstarts, hlast⟩ := hf
  refine ⟨place, text, after, s₀, asked, htext.mono (List.subset_append_right ..), hannounces,
    hstops, hstarts.mono (List.subset_cons_of_subset l hsub), ?_⟩
  exact List.forall_mem_append.2 ⟨fun v hv => .inl (hus _ hstarts v hv), hlast⟩

/-- A failure in a text that a directive loads is one of the text that the directive is in. -/
theorem FailsAt.under {offset : Nat} {l : Lexeme} {rest : List (Nat × Lexeme)}
    {source inner name : String} {s₁ : σ} {e : LexError}
    (hf : FailsAt d h limit depth ls inner vs e s') (hload : h.loadFile name s = (.ok inner, s₁)) :
    FailsAt d h limit (depth + 1) ((offset, l) :: rest) source
      (⟨[offset], .loadFile name, s⟩ :: vs.map (.under offset)) e s' := by
  obtain ⟨place, text, after, s₀, asked, htext, hannounces, hstops, hstarts, hlast⟩ := hf
  refine ⟨offset :: place, text, after, s₀, asked, ?_, hannounces, ?_,
    startsIn_cons offset l rest _, ?_⟩
  · exact htext.under hload (List.mem_cons_self ..) (List.subset_cons_self ..)
  · rwa [List.length_cons, Nat.add_sub_add_right]
  · refine List.forall_mem_cons.2 ⟨.inl (cons_lt_cons_self offset hstarts.nil_lt), ?_⟩
    exact List.forall_mem_map.2 fun v hv =>
      (hlast v hv).imp (cons_lt_cons_self offset) (congrArg (offset :: ·))

theorem error_of_map {α β : Type} {f : α → β} {r : Except LexError α} {e : LexError}
    (hr : r.map f = .error e) : r = .error e := by
  cases r with
  | ok a => cases hr
  | error e' => exact congrArg _ (Except.error.inj hr)

theorem ok_of_map {α β : Type} {f : α → β} {r : Except LexError α} {b : β}
    (hr : r.map f = .ok b) : ∃ a, r = .ok a ∧ f a = b := by
  cases r with
  | ok a => exact ⟨a, rfl, Except.ok.inj hr⟩
  | error e' => cases hr

theorem Tour.fails_at {source : String} (ht : Tour d h limit depth ls s vs r s')
    (hls : ls <:+ scan d 0 source.toList) {e : LexError} (hr : r = .error e) :
    FailsAt d h limit depth ls source vs e s' := by
  induction ht generalizing source with
  | done depth s => cases hr
  | plain hl hrest ih =>
    exact (ih (suffix_of_cons hls (List.suffix_refl _)) (error_of_map hr)).behind []
      (List.Subset.refl _) fun p _ => by simp
  | @stopped _ offset l rest s _ _ _ hl hstop =>
    cases hr
    exact ⟨[], source, rest, s, _, .inl ⟨rfl, rfl⟩, announces_of_suffix hl hls, hstop,
      startsIn_cons offset l rest [], fun v hv => .inr (hstop.place v hv)⟩
  | broken hl hr' hload hinner ih => exact (ih (List.suffix_refl _) hr).under hload
  | loaded hl hr' hload hinner hrest ihinner ih =>
    have hrest' := Directive.read_suffix hr'
    have hsorted := (scan_sorted d 0 source.toList).sublist hls.sublist
    exact (ih (suffix_of_cons hls hrest') (error_of_map hr)).behind _ hrest'.subset fun p hp =>
      List.forall_mem_cons.2 ⟨hp.lt hsorted hrest'.subset [],
        List.forall_mem_map.2 fun v _ => hp.lt hsorted hrest'.subset v.place⟩
  | imported hl hr' hrefer hrest ih =>
    have hrest' := Directive.read_suffix hr'
    have hsorted := (scan_sorted d 0 source.toList).sublist hls.sublist
    exact (ih (suffix_of_cons hls hrest') hr).behind _ hrest'.subset fun p hp =>
      List.forall_mem_singleton.2 (hp.lt hsorted hrest'.subset [])

/-! ## The tokens of a tour -/

/-- The tokens of the files that are loaded in tokens, and in their tokens, from the left, each
together with the number of loads that lead there. -/
def splices (level : Nat) : List Token → List (Nat × List Token)
  | [] => []
  | .splice inner :: ts => (level, inner) :: (splices (level + 1) inner ++ splices level ts)
  | .value _ :: ts => splices level ts
  | .delimiter _ :: ts => splices level ts
termination_by ts => sizeOf ts

theorem splices_succ (level : Nat) (ts : List Token) :
    splices (level + 1) ts = (splices level ts).map fun x => (x.1 + 1, x.2) := by
  fun_induction splices level ts with
  | case1 level => simp [splices]
  | case2 level inner ts ihinner ih => simp [splices, ihinner, ih]
  | case3 level v ts ih => simpa [splices] using ih
  | case4 level c ts ih => simpa [splices] using ih

theorem splices_token (level : Nat) (l : Lexeme) (ts : List Token) :
    splices level (l.token :: ts) = splices level ts := by
  cases l <;> simp [splices, Lexeme.token]

/-- The questions that load files. -/
def loads (vs : List (Visit σ)) : List (Visit σ) :=
  vs.filter fun v => v.directive matches .loadFile _

/-- The tokens are those of the text that the question loads, read alone with the levels that are
left. -/
def Visit.Gives (d : Delimiters) (h : DirectiveHandler σ) (levels : Nat) (x : Nat × List Token)
    (v : Visit σ) : Prop :=
  x.1 = v.place.length ∧ ∃ name text s₁ s₂, v.directive = .loadFile name ∧
    h.loadFile name v.state = (.ok text, s₁) ∧
    tokenize d h (levels - v.place.length) text s₁ = (.ok x.2.toArray, s₂)

/-- What comes of a reading without errors does not depend on what a failure would say. -/
theorem Tour.relimit (ht : Tour d h limit depth ls s vs r s') (limit' : Nat) {ts : List Token}
    (hr : r = .ok ts) : Tour d h limit' depth ls s vs r s' := by
  induction ht generalizing ts with
  | done depth s => exact .done depth s
  | plain hl hrest ih =>
    obtain ⟨ts', hr', -⟩ := ok_of_map hr
    exact .plain hl (ih hr')
  | stopped hl hstop => cases hr
  | broken hl hread hload hinner ih => cases hr
  | loaded hl hread hload hinner hrest ihinner ih =>
    obtain ⟨ts', hr', -⟩ := ok_of_map hr
    exact .loaded hl hread hload (ihinner rfl) (ih hr')
  | imported hl hread hrefer hrest ih => exact .imported hl hread hrefer (ih hr)

theorem loads_append (us : List (Visit σ)) : loads (vs ++ us) = loads vs ++ loads us :=
  List.filter_append ..

theorem loads_under (offset : Nat) (vs : List (Visit σ)) :
    loads (vs.map (.under offset)) = (loads vs).map (.under offset) := by
  rw [loads, loads, List.filter_map]
  rfl

theorem Visit.Gives.under {levels : Nat} {x : Nat × List Token} {v : Visit σ}
    (hv : v.Gives d h levels x) (offset : Nat) :
    (v.under offset).Gives d h (levels + 1) (x.1 + 1, x.2) := by
  obtain ⟨hlevel, name, text, s₁, s₂, hname, hload, hgives⟩ := hv
  refine ⟨by simp [hlevel], name, text, s₁, s₂, hname, hload, ?_⟩
  rwa [Visit.under_place, List.length_cons, Nat.add_sub_add_right]

/-- The files whose tokens come of a reading are those that are loaded, in the same order. -/
theorem Tour.gives {ts : List Token} (ht : Tour d h limit depth ls s vs r s') (hr : r = .ok ts) :
    List.Forall₂ (fun x v => v.Gives d h depth x) (splices 1 ts) (loads vs) := by
  induction ht generalizing ts with
  | done depth s =>
    cases hr
    simp [splices, loads]
  | plain hl hrest ih =>
    obtain ⟨ts', hr', rfl⟩ := ok_of_map hr
    rw [splices_token]
    exact ih hr'
  | stopped hl hstop => cases hr
  | broken hl hread hload hinner ih => cases hr
  | loaded hl hread hload hinner hrest ihinner ih =>
    obtain ⟨ts', hr', rfl⟩ := ok_of_map hr
    rw [splices, splices_succ]
    refine .cons ⟨rfl, _, _, _, _, rfl, hload, (hinner.relimit _ rfl).expands⟩ ?_
    rw [← loads, loads_append, loads_under]
    refine List.rel_append ?_ (ih hr')
    rw [List.forall₂_map_left_iff, List.forall₂_map_right_iff]
    exact (ihinner rfl).imp fun x v hv => hv.under _
  | imported hl hread hrefer hrest ih => exact ih hr

/-- No word is left that announces a directive. -/
theorem Tour.unannounced {ts : List Token} (ht : Tour d h limit depth ls s vs r s')
    (hr : r = .ok ts) :
    ∀ inner ∈ ts :: (splices 1 ts).map (·.2), .value (.symbol "pragma") ∉ inner := by
  induction ht generalizing ts with
  | done depth s =>
    cases hr
    simp [splices]
  | @plain _ _ l _ _ _ _ _ hl hrest ih =>
    obtain ⟨ts', hr', rfl⟩ := ok_of_map hr
    rw [splices_token]
    have hword : Token.value (.symbol "pragma") ≠ l.token := by
      cases l with
      | value v =>
        rintro ⟨⟩
        exact hl rfl
      | delimiter c => rintro ⟨⟩
    have hts := ih hr'
    rw [List.forall_mem_cons] at hts ⊢
    exact ⟨List.not_mem_cons_of_ne_of_not_mem hword hts.1, hts.2⟩
  | stopped hl hstop => cases hr
  | broken hl hread hload hinner ih => cases hr
  | @loaded _ _ _ _ _ _ _ _ _ _ _ _ _ inner _ hl hread hload hinner hrest ihinner ih =>
    obtain ⟨ts', hr', rfl⟩ := ok_of_map hr
    have hinner' := ihinner rfl
    have hts := ih hr'
    rw [List.forall_mem_cons] at hts
    have hwithin : ((splices 2 inner).map (·.2)) = (splices 1 inner).map (·.2) := by
      rw [splices_succ, List.map_map]
      rfl
    rw [splices, List.map_cons, List.map_append, hwithin, List.forall_mem_cons,
      ← List.cons_append, List.forall_mem_append]
    exact ⟨List.not_mem_cons_of_ne_of_not_mem (by rintro ⟨⟩) hts.1, hinner', hts.2⟩
  | imported hl hread hrefer hrest ih => exact ih hr

theorem mem_of_loads {v : Visit σ} (hv : v ∈ loads vs) : v ∈ vs := (List.mem_filter.1 hv).1

/-- As deep as files are loaded, so deep are their tokens. -/
theorem Tour.level_le {ts : List Token} (ht : Tour d h limit depth ls s vs r s') (hr : r = .ok ts) :
    ∀ x ∈ splices 1 ts, x.1 ≤ depth := by
  intro x hx
  obtain ⟨i, hi, rfl⟩ := List.mem_iff_getElem.1 hx
  obtain ⟨hlength, hgives⟩ := List.forall₂_iff_get.1 (ht.gives hr)
  have hi' : i < (loads vs).length := hlength ▸ hi
  obtain ⟨hlevel, name, -, -, -, hname, -⟩ := hgives i hi hi'
  refine Nat.le_trans (Nat.le_of_eq hlevel) (ht.bounded _ (mem_of_loads ?_) name hname)
  exact List.getElem_mem hi'

end Tours

/-- Whatever the handler answers, reading a text ends, as a tour does. The handler is asked in the
order of the source, into each file where it is loaded, and for no file from too deep. Without an
error no word is left that announces a directive, and the tokens of each file are those of its text
alone. An error is that of a directive, at a word of the source or of a file, and nothing is asked
after it. -/
theorem directives_followed (d : Delimiters) (h : DirectiveHandler σ) (limit : Nat)
    (source : String) (s : σ) :
    ∃ vs : List (Visit σ),
      Tour d h limit limit (scan d 0 source.toList) s vs
        ((tokenize d h limit source s).1.map (·.toList)) (tokenize d h limit source s).2 ∧
      callsOf d h limit source s = vs.map (·.directive) ∧
      Asked h s vs (tokenize d h limit source s).2 ∧
      (∀ v ∈ vs, v.Stands d h source vs) ∧
      vs.Pairwise (·.place < ·.place) ∧
      (∀ v ∈ vs, ∀ name, v.directive = .loadFile name → v.place.length ≤ limit) ∧
      (∀ tokens, (tokenize d h limit source s).1 = .ok tokens →
        (∀ x ∈ splices 1 tokens.toList, x.1 ≤ limit) ∧
        (∀ inner ∈ tokens.toList :: (splices 1 tokens.toList).map (·.2),
          .value (.symbol "pragma") ∉ inner) ∧
        List.Forall₂ (fun x v => v.Gives d h limit x) (splices 1 tokens.toList) (loads vs)) ∧
      ∀ e, (tokenize d h limit source s).1 = .error e →
        ∃ place text rest s₀ us, TextAt h source vs place text ∧
          BareAt d text.toList e.offset "pragma" ∧ Announces d text e.offset rest ∧
          Stops d h limit e.offset rest s₀ (limit - place.length) us e.cause
            (tokenize d h limit source s).2 ∧
          ∀ v ∈ vs, v.place < place ++ [e.offset] ∨ v.place = place ++ [e.offset] := by
  obtain ⟨vs, r, s', ht⟩ := exists_tour d h limit limit (scan d 0 source.toList) s
  have hsource := List.suffix_refl (scan d 0 source.toList)
  have hends : tokenize d h limit source s = (r.map (·.toArray), s') := ht.expands
  have hcalls : callsOf d h limit source s = vs.map (·.directive) := by
    rw [callsOf, tokenize, ht.recorded [], List.nil_append]
  have hlists : (r.map (·.toArray)).map (·.toList) = r := by cases r <;> rfl
  rw [hends]
  refine ⟨vs, by rwa [hlists], hcalls, ht.asked, ht.stands hsource, ht.ordered (scan_sorted d 0 _),
    ht.bounded, fun tokens hok => ?_, fun e herror => ?_⟩
  · obtain ⟨ts, hr, rfl⟩ := ok_of_map hok
    exact ⟨ht.level_le hr, ht.unannounced hr, ht.gives hr⟩
  · obtain ⟨place, text, rest, s₀, us, htext, hannounces, hstops, -, hlast⟩ :=
      ht.fails_at hsource (error_of_map herror)
    exact ⟨place, text, rest, s₀, us, htext, hannounces.bareAt, hannounces, hstops, hlast⟩

end WordStack
