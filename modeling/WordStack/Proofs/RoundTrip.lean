import WordStack.Proofs.Concatenation
import WordStack.Proofs.Grouping
import WordStack.Proofs.Trees

/-!
# Printing and reading back

The printed form of a tree of integers and symbols is read as that tree. Four pieces are put
together: the printed form is the text of a form (`Form.Stands.print`), its lexemes are those of the
form (`lexemes_text`), which the bracket machine groups again (`runBrackets_lexemes`), and what is
allocated for the form is equal to the value that was printed. The statements about rows of lexemes
and tokens are about what stands at the front of a longer row, so that they can be used at each
element of a list.
-/

namespace WordStack

/-! ## Values that can be read back -/

/-- A leaf that is printed as a single word, and read from it: an integer, or a symbol that is no
number and announces no directive. No character of the word is a delimiter. -/
inductive Leaf (d : Delimiters) : Value → Prop
  | integer (n : Int64) (plain : ∀ c ∈ (integerText n.toInt).toList, ¬ d.isDelimiter c = true) :
    Leaf d (.integer n)
  | symbol (name : String) (ne : name ≠ "") (announces : name ≠ "pragma")
    (word : ∀ c ∈ name.toList, ¬ isBlank c = true ∧ c ≠ '"' ∧ ¬ d.isDelimiter c = true)
    (number : readWord name.toList = .symbol name) : Leaf d (.symbol name)

/-- A value of any depth and width that is a tree of lists with such leaves. -/
inductive Readable (d : Delimiters) (s : Store) : Value → Prop
  | leaf {v : Value} (leaf : Leaf d v) : Readable d s v
  | list {l : ListId} (live : s.Live l) (elements : ∀ v ∈ s.items l, Readable d s v) :
    Readable d s (.list l)

section Leaf

variable {d : Delimiters} {v : Value}

theorem Leaf.isPlain (h : Leaf d v) : v.isPlain = true := by
  cases h <;> rfl

theorem isBlank_of_isDigit {c : Char} (h : c.isDigit = true) : isBlank c = false := by
  simp only [Char.isDigit, Bool.and_eq_true, decide_eq_true_eq] at h
  have h₀ : '0'.toNat ≤ c.toNat := h.1
  have h₉ : c.toNat ≤ '9'.toNat := h.2
  have h₀ : 48 ≤ c.toNat := h₀
  have h₉ : c.toNat ≤ 57 := h₉
  simp only [isBlank, Bool.or_eq_false_iff, Bool.and_eq_false_iff, decide_eq_false_iff_not,
    beq_eq_false_iff_ne]
  omega

/-- A digit or a sign can stand in a word, unless it is a delimiter. -/
theorem inWord_of_integerChars {n : Int} {c : Char} (h : c ∈ integerChars n)
    (hd : ¬ d.isDelimiter c = true) : d.inWord c = true := by
  rw [inWord_eq_true]
  rcases mem_integerChars h with rfl | hdigit
  · exact ⟨by decide, by decide, hd⟩
  · refine ⟨by simp [isBlank_of_isDigit hdigit], ?_, hd⟩
    rintro rfl
    cases hdigit

/-- The text of a leaf is a word. -/
theorem Leaf.inWord (h : Leaf d v) :
    v.literalText.toList ≠ [] ∧ ∀ c ∈ v.literalText.toList, d.inWord c = true := by
  cases h with
  | integer n plain =>
    have htext : (Value.integer n).literalText.toList = integerChars n.toInt :=
      String.toList_ofList
    rw [htext]
    refine ⟨integerChars_ne_nil _, fun c hc => inWord_of_integerChars hc (plain c ?_)⟩
    rwa [integerText, String.toList_ofList]
  | symbol name ne announces word number =>
    exact ⟨mt String.toList_eq_nil_iff.1 ne, fun c hc => inWord_eq_true.2 (word c hc)⟩

theorem Leaf.readWord (h : Leaf d v) : readWord v.literalText.toList = v := by
  cases h with
  | integer n plain =>
    have htext : (Value.integer n).literalText.toList = integerChars n.toInt :=
      String.toList_ofList
    rw [htext, WordStack.readWord, readInt64?_integerChars]
  | symbol name ne announces word number => exact number

theorem Leaf.not_isAnnouncement (h : Leaf d v) : ¬ (Lexeme.value v).isAnnouncement = true := by
  cases h with
  | integer n plain => exact Bool.false_ne_true
  | symbol name ne announces word number => simpa [Lexeme.isAnnouncement] using announces

/-- The leaves of the form can all be read back. -/
def Form.Readable (d : Delimiters) (f : Form) : Prop := ∀ u ∈ f.leaves, Leaf d u

theorem Form.Readable.plain {f : Form} (h : f.Readable d) : f.Plain := fun u hu => (h u hu).isPlain

theorem Form.Readable.element {forms : List Form} (h : (Form.list forms).Readable d) {f : Form}
    (hf : f ∈ forms) : f.Readable d := fun _ hu => h _ (leaves_mem hf hu)

theorem exists_forms {s : Store} {vs : List Value}
    (h : ∀ v ∈ vs, ∃ f : Form, f.Stands s v ∧ f.Readable d) :
    ∃ fs : List Form, List.Forall₂ (fun f u => f.Stands s u) fs vs ∧ ∀ f ∈ fs, f.Readable d := by
  induction vs with
  | nil => exact ⟨[], .nil, by simp⟩
  | cons v vs ih =>
    obtain ⟨f, hf, hr⟩ := h v (by simp)
    obtain ⟨fs, hfs, hrs⟩ := ih fun v hv => h v (by simp [hv])
    exact ⟨f :: fs, .cons hf hfs, List.forall_mem_cons.2 ⟨hr, hrs⟩⟩

/-- A readable value is no list inside of itself, so it stands for a form. -/
theorem Readable.exists_stands {s : Store} (h : Readable d s v) :
    ∃ f : Form, f.Stands s v ∧ f.Readable d := by
  induction h with
  | @leaf v hleaf => exact ⟨.atom v, Form.stands_atom.2 rfl, by simpa [Form.Readable, Form.leaves]⟩
  | @list l live elements ih =>
    obtain ⟨fs, hfs, hr⟩ := exists_forms fun v hv => ih v (Array.mem_toList_iff.1 hv)
    refine ⟨.list fs, Form.stands_list.2 ⟨l, rfl, live, hfs⟩, fun u hu => ?_⟩
    rw [Form.leaves] at hu
    obtain ⟨f, hf, hu⟩ := List.mem_flatMap.1 hu
    exact hr f hf u hu

end Leaf

/-! ## Lexemes -/

/-- The lexemes of a text, wherever it begins. -/
def lexemes (d : Delimiters) (cs : List Char) : List Lexeme := (scan d 0 cs).map (·.2)

/-- The lexemes of the text of a form. -/
def Form.lexemes : Form → List Lexeme
  | .atom v => [.value v]
  | .list forms => .delimiter '(' :: (forms.flatMap (fun f => f.lexemes) ++ [.delimiter ')'])

section Lexemes

variable {d : Delimiters} {c : Char} {cs more word : List Char}

theorem lexemes_of_scan (offset : Nat) : (scan d offset cs).map (·.2) = lexemes d cs := by
  have h := scan_shift d offset 0 cs
  rw [Nat.add_zero] at h
  rw [h, List.map_map]
  rfl

theorem lexemes_blank (hb : isBlank c = true) : lexemes d (c :: cs) = lexemes d cs := by
  rw [lexemes, scan_blank hb, lexemes_of_scan]

theorem lexemes_delimiter (hb : ¬ isBlank c = true) (hq : c ≠ '"') (hd : d.isDelimiter c = true) :
    lexemes d (c :: cs) = .delimiter c :: lexemes d cs := by
  rw [lexemes, scan_delimiter hb hq hd, List.map_cons, lexemes_of_scan]

theorem lexemes_word (hne : word ≠ []) (hw : ∀ c ∈ word, d.inWord c = true)
    (hmore : ∀ c ∈ more.head?, d.inWord c = false) :
    lexemes d (word ++ more) = .value (readWord word) :: lexemes d more := by
  rw [lexemes, scan_word hne hw hmore, List.map_cons, lexemes_of_scan]

theorem isDelimiter_of_role {role : DelimiterRole} (h : d.role? c = some role) :
    d.isDelimiter c = true := by
  rw [Delimiters.isDelimiter, h]
  rfl

theorem inWord_of_delimiter (hd : d.isDelimiter c = true) : d.inWord c = false := by
  simp [Delimiters.inWord, hd]

/-- A row of texts with blanks between them, before a closing bracket. -/
theorem lexemes_row (hcloses : d.isDelimiter ')' = true) {fs : List Form}
    (h : ∀ f ∈ fs, ∀ more, (∀ c ∈ more.head?, d.inWord c = false) →
      lexemes d (f.text.toList ++ more) = f.lexemes ++ lexemes d more) :
    lexemes d ((String.intercalate " " (fs.map Form.text)).toList ++ ')' :: more) =
      fs.flatMap Form.lexemes ++ .delimiter ')' :: lexemes d more := by
  have hend : lexemes d (')' :: more) = .delimiter ')' :: lexemes d more :=
    lexemes_delimiter (by decide) (by decide) hcloses
  induction fs with
  | nil => simpa using hend
  | cons f fs ih =>
    cases fs with
    | nil =>
      have hstop : ∀ c ∈ (')' :: more).head?, d.inWord c = false := by
        simpa using inWord_of_delimiter hcloses
      have hone := h f (by simp) (')' :: more) hstop
      simpa [hend] using hone
    | cons g fs =>
      have hrest := ih fun f hf => h f (by simp [hf])
      have hone := h f (by simp)
        (' ' :: ((String.intercalate " " ((g :: fs).map Form.text)).toList ++ ')' :: more))
        (by simp [Delimiters.inWord, isBlank])
      rw [lexemes_blank (by decide), hrest] at hone
      simpa using hone

variable (hopen : d.role? '(' = some .opens) (hclose : d.role? ')' = some .closes)

include hopen hclose

/-- The text of a form at the front, before anything that can stand in no word, gives the lexemes
of the form. -/
theorem lexemes_text {f : Form} (hf : f.Readable d)
    (hmore : ∀ c ∈ more.head?, d.inWord c = false) :
    lexemes d (f.text.toList ++ more) = f.lexemes ++ lexemes d more := by
  induction f using Form.induction generalizing more with
  | atom v =>
    have hleaf : Leaf d v := hf v (by simp [Form.leaves])
    obtain ⟨hne, hw⟩ := hleaf.inWord
    rw [Form.text, Form.lexemes, lexemes_word hne hw hmore, hleaf.readWord]
    rfl
  | list fs ih =>
    have hrow : lexemes d ((String.intercalate " " (fs.map Form.text)).toList ++ ')' :: more) =
        fs.flatMap Form.lexemes ++ .delimiter ')' :: lexemes d more :=
      lexemes_row (isDelimiter_of_role hclose) fun f hmem _ hm => ih f hmem (hf.element hmem) hm
    have hfront : lexemes d ('(' :: ((String.intercalate " " (fs.map Form.text)).toList ++
        ')' :: more)) = .delimiter '(' :: (fs.flatMap Form.lexemes ++
          .delimiter ')' :: lexemes d more) := by
      rw [lexemes_delimiter (by decide) (by decide) (isDelimiter_of_role hopen), hrow]
    rw [Form.text, Form.lexemes, parenthesized]
    simpa using hfront

end Lexemes

/-! ## Tokens -/

section Tokens

variable {σ : Type} {d : Delimiters} {h : DirectiveHandler σ} {limit depth : Nat}

/-- Lexemes that announce no directive are taken over as tokens, and no handler is asked. -/
theorem expand_of_plain {ls : List (Nat × Lexeme)}
    (hls : ∀ l ∈ ls.map (·.2), ¬ Lexeme.isAnnouncement l = true) (out : Array Token) (t : σ) :
    expand d h limit depth ls out t =
      (.ok (out ++ ((ls.map (·.2)).map Lexeme.token).toArray), t) := by
  induction ls generalizing out with
  | nil => simp [expand]
  | cons l ls ih =>
    have hl : ¬ l.2.isAnnouncement = true := hls l.2 (by simp)
    rw [expand_plain hl,
      ih fun l hl => hls l (by simp only [List.map_cons, List.mem_cons, hl, or_true])]
    simp

theorem Form.not_isAnnouncement_of_lexemes {f : Form} (hf : f.Readable d) :
    ∀ l ∈ f.lexemes, ¬ Lexeme.isAnnouncement l = true := by
  induction f using Form.induction with
  | atom v =>
    have hleaf : Leaf d v := hf v (by simp [leaves])
    simpa [lexemes] using hleaf.not_isAnnouncement
  | list fs ih =>
    intro l hl
    simp only [lexemes, List.mem_cons, List.mem_append, List.mem_flatMap, List.not_mem_nil,
      or_false] at hl
    rcases hl with rfl | ⟨f, hmem, hl⟩ | rfl
    · exact Bool.false_ne_true
    · exact ih f hmem (hf.element hmem) l hl
    · exact Bool.false_ne_true

/-- The tokens of a form, read from its text. -/
def Form.tokens (f : Form) : List Token := f.lexemes.map Lexeme.token

theorem Form.tokens_list (fs : List Form) :
    (Form.list fs).tokens = .delimiter '(' :: (fs.flatMap Form.tokens ++ [.delimiter ')']) := by
  simp only [Form.tokens, Form.lexemes, List.map_cons, List.map_append, List.map_flatMap]
  rfl

/-- The tokens of a row of forms at the front are read as so many more elements. -/
theorem runBrackets_row {fs : List Form}
    (h : ∀ f ∈ fs, ∀ (more : List Token) (b : Brackets),
      runBrackets d (f.tokens ++ more) b = runBrackets d more (b.append #[f]))
    (more : List Token) (b : Brackets) :
    runBrackets d (fs.flatMap Form.tokens ++ more) b =
      runBrackets d more (b.append fs.toArray) := by
  induction fs generalizing b with
  | nil => simp [Brackets.append]
  | cons f fs ih =>
    rw [List.flatMap_cons, List.append_assoc, h f (by simp), ih fun f hf => h f (by simp [hf])]
    simp [Brackets.append]

variable (hopen : d.role? '(' = some .opens) (hclose : d.role? ')' = some .closes)

include hopen hclose

theorem tokenize_text {f : Form} (hf : f.Readable d) (h : DirectiveHandler σ) (limit : Nat)
    (t : σ) :
    tokenize d h limit f.text t = (.ok f.tokens.toArray, t) := by
  have hscan : (scan d 0 f.text.toList).map (·.2) = f.lexemes := by
    have hnil : lexemes d [] = [] := by simp [lexemes, scan]
    have htext : lexemes d (f.text.toList ++ []) = f.lexemes ++ lexemes d [] :=
      lexemes_text hopen hclose hf (by simp)
    rw [List.append_nil, hnil, List.append_nil] at htext
    exact htext
  have hplain := Form.not_isAnnouncement_of_lexemes hf
  rw [tokenize, expand_of_plain (by rw [hscan]; exact hplain), hscan]
  simp [Form.tokens]

/-- The tokens of a form at the front are read as one more element of the current list. -/
theorem runBrackets_tokens (f : Form) (more : List Token) (b : Brackets) :
    runBrackets d (f.tokens ++ more) b = runBrackets d more (b.append #[f]) := by
  induction f using Form.induction generalizing more b with
  | atom v =>
    simp only [Form.tokens, Form.lexemes, List.map_cons, List.map_nil, Lexeme.token]
    rw [List.singleton_append, runBrackets]
  | list fs ih =>
    rw [Form.tokens_list, List.cons_append, List.append_assoc, runBrackets]
    simp only [Brackets.delimiter?, hopen]
    rw [runBrackets_row ih, List.singleton_append, runBrackets]
    simp only [Brackets.delimiter?, hclose]
    simp [Brackets.openList, Brackets.append, Brackets.closeList?]

/-- The text of a form is parsed as that form. -/
theorem parseForms_tokens (f : Form) : parseForms d f.tokens = [f] := by
  have hrun := runBrackets_tokens hopen hclose f [] .start
  rw [List.append_nil, runBrackets_start, runBrackets] at hrun
  rw [parseForms, hrun]
  simp [Brackets.append, Brackets.start, Brackets.finish]

/-- Forms of one text are the same form, since the text is parsed as either. -/
theorem eq_of_text {f g : Form} (hf : f.Readable d) (hg : g.Readable d) (htext : f.text = g.text) :
    f = g := by
  have htokens : f.tokens = g.tokens := by
    have hone := tokenize_text hopen hclose hf .none 0 ()
    rw [htext, tokenize_text hopen hclose hg] at hone
    simpa using hone.symm
  have hone := parseForms_tokens hopen hclose f
  rw [htokens, parseForms_tokens hopen hclose g] at hone
  simpa using hone.symm

end Tokens

/-! ## There and back -/

/-- A program of one form holds one value, which stands for the form. -/
theorem newProgram_singleton (s : Store) (f : Form) :
    s.Extends (s.newProgram [f]).2 ∧ ∃ u, f.Stands (s.newProgram [f]).2 u ∧
      (s.newProgram [f]).2.items (s.newProgram [f]).1 = #[u] := by
  obtain ⟨hext, hnew⟩ := s.newProgram_stands fun g (_ : g ∈ [f]) => g.allocate_stands
  obtain ⟨l, hl, -, hitems⟩ := Form.stands_list.1 hnew
  cases hl
  rw [List.forall₂_cons_left_iff] at hitems
  obtain ⟨u, us, hu, hus, heq⟩ := hitems
  rw [List.forall₂_nil_left_iff] at hus
  exact ⟨hext, u, hu, Array.toList_inj.1 (by rw [heq, hus])⟩

/-- The printed form of a readable value is read, with no question to the handler, as a program of
one element, which unfolds to the form of the value and is equal to it. A readable value with the
same printed form unfolds to the same form, in any store, and is equal to it too. -/
theorem printed_reads_back {σ : Type} {d : Delimiters} {s : Store} {v : Value}
    (hopen : d.role? '(' = some .opens) (hclose : d.role? ')' = some .closes)
    (hv : Readable d s v) (h : DirectiveHandler σ) (limit : Nat) (t : σ) :
    ∃ (f : Form) (tokens : Array Token) (l : ListId) (s' : Store) (u : Value),
      f.Stands s v ∧
      tokenize d h limit (s.print v) t = (.ok tokens, t) ∧
      parseForms d tokens.toList = [f] ∧
      s.newProgram (parseForms d tokens.toList) = (l, s') ∧
      s.Extends s' ∧ s'.items l = #[u] ∧ f.Stands s' u ∧ s'.equal u v = true ∧
      (∀ (r : Store) (w : Value), Readable d r w → r.print w = s.print v → f.Stands r w) ∧
      ∀ w, Readable d s w → s.print w = s.print v → s.equal w v = true := by
  obtain ⟨f, hf, hr⟩ := hv.exists_stands
  have hprint : s.print v = f.text := hf.print hr.plain
  have hparse : parseForms d f.tokens.toArray.toList = [f] := parseForms_tokens hopen hclose f
  obtain ⟨hext, u, hu, hitems⟩ := newProgram_singleton s f
  have hdetermined : ∀ (r : Store) (w : Value), Readable d r w → r.print w = s.print v →
      f.Stands r w := by
    intro r w hw hwv
    obtain ⟨g, hg, hgr⟩ := hw.exists_stands
    have htext : g.text = f.text := by rw [← hg.print hgr.plain, hwv, hprint]
    rw [← eq_of_text hopen hclose hgr hr htext]
    exact hg
  refine ⟨f, f.tokens.toArray, (s.newProgram [f]).1, (s.newProgram [f]).2, u, hf, ?_, hparse, ?_,
    hext, hitems, hu, ?_, hdetermined, ?_⟩
  · rw [hprint]
    exact tokenize_text hopen hclose hr h limit t
  · rw [hparse]
  · exact hu.equal (hf.extend hext) hr.plain
  · intro w hw hwv
    exact (hdetermined s w hw hwv).equal hf hr.plain

/-- A list that is twice an element of another one. -/
def twiceHeld : Store :=
  { lists := #[#[.integer Int64.minValue, .symbol "x-1"], #[.list ⟨0⟩, .list ⟨0⟩]] }

theorem twiceHeld_readable : Readable .standard twiceHeld (.list ⟨1⟩) := by
  have hplain : (integerText Int64.minValue.toInt).toList.all
      (fun c => !Delimiters.standard.isDelimiter c) = true := by decide
  have hword : "x-1".toList.all (Delimiters.inWord .standard) = true := by decide
  have hinteger : Leaf .standard (.integer Int64.minValue) :=
    .integer _ fun c hc => by simpa using List.all_eq_true.1 hplain c hc
  have hsymbol : Leaf .standard (.symbol "x-1") :=
    .symbol _ (by decide) (by decide) (fun c hc => inWord_eq_true.1 (List.all_eq_true.1 hword c hc))
      rfl
  have hinner : Readable .standard twiceHeld (.list ⟨0⟩) := by
    refine .list (by decide) fun v hv => ?_
    rcases (by simpa [twiceHeld, Store.items] using hv) with rfl | rfl
    · exact .leaf hinteger
    · exact .leaf hsymbol
  refine .list (by decide) fun v hv => ?_
  obtain rfl : v = .list ⟨0⟩ := by simpa [twiceHeld, Store.items] using hv
  exact hinner

theorem printed_reads_back_of_twiceHeld :
    Delimiters.standard.role? '(' = some .opens ∧ Delimiters.standard.role? ')' = some .closes ∧
      Readable .standard twiceHeld (.list ⟨1⟩) ∧
      twiceHeld.print (.list ⟨1⟩) = "((-9223372036854775808 x-1) (-9223372036854775808 x-1))" ∧
      ∃ (f : Form) (tokens : Array Token) (l : ListId) (s' : Store) (u : Value),
        tokenize .standard .none 0 "((-9223372036854775808 x-1) (-9223372036854775808 x-1))" () =
          (.ok tokens, ()) ∧
        parseForms .standard tokens.toList = [f] ∧
        twiceHeld.newProgram [f] = (l, s') ∧ s'.items l = #[u] ∧
        s'.equal u (.list ⟨1⟩) = true := by
  have hprint : twiceHeld.print (.list ⟨1⟩) =
      "((-9223372036854775808 x-1) (-9223372036854775808 x-1))" := by rfl
  obtain ⟨f, tokens, l, s', u, -, htokens, hparse, hnew, -, hitems, -, hequal, -⟩ :=
    printed_reads_back rfl rfl twiceHeld_readable DirectiveHandler.none 0 ()
  rw [hprint] at htokens
  rw [hparse] at hnew
  exact ⟨rfl, rfl, twiceHeld_readable, hprint, f, tokens, l, s', u, htokens, hparse, hnew, hitems,
    hequal⟩

end WordStack
