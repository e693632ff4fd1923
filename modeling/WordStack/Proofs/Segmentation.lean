import Mathlib.Data.String.Basic
import WordStack.Proofs.Literals

/-!
# A text as the row of its lexemes

A text splits into lexemes with blanks between them, in one way. What a lexeme is in front of the
rest of the text says `Written`: a word goes on as far as it can and a quoted text ends at the first
double quote, so where one begins its end is fixed. What splits a text so is `Segmentation`, and
the scanner gives the one that there is (`Segmentation.scan_eq`, `Segmentation.unique`).
-/

namespace WordStack

/-! ## Sets of delimiters that can be built -/

/-- The sets of delimiters that begin with one of those at hand and give roles to characters. -/
inductive Delimiters.Built : Delimiters → Prop
  | parentheses : Built parentheses
  | standard : Built standard
  | assign {d : Delimiters} (h : d.Built) (c : Char) (role : DelimiterRole) :
    Built (d.assign c role)

namespace Delimiters

variable {d : Delimiters}

theorem Built.withAngles (h : d.Built) : d.withAngles.Built := (h.assign _ _).assign _ _

theorem Built.withApostrophe (h : d.Built) : d.withApostrophe.Built := h.assign _ _

theorem isDelimiter_iff {c : Char} : d.isDelimiter c = true ↔ ∃ r ∈ d.roles, r.1 = c := by
  simp [isDelimiter, role?]

/-- A character with a role had it before, or got it and may have one. -/
theorem isDelimiter_of_assign {c x : Char} {role : DelimiterRole}
    (h : (d.assign c role).isDelimiter x = true) :
    d.isDelimiter x = true ∨ x = c ∧ c ≠ '"' ∧ isBlank c = false := by
  unfold assign at h
  split at h
  · exact .inl h
  · next hc =>
    have hc : c ≠ '"' ∧ isBlank c = false := by simpa using hc
    split at h
    · obtain ⟨r, hr, rfl⟩ := isDelimiter_iff.1 h
      obtain ⟨r, hmem, rfl⟩ := List.mem_map.1 hr
      split
      · exact .inr ⟨rfl, hc⟩
      · exact .inl (isDelimiter_iff.2 ⟨r, hmem, rfl⟩)
    · obtain ⟨r, hr, rfl⟩ := isDelimiter_iff.1 h
      rcases List.mem_append.1 hr with hr | hr
      · exact .inl (isDelimiter_iff.2 ⟨r, hr, rfl⟩)
      · obtain rfl := List.mem_singleton.1 hr
        exact .inr ⟨rfl, hc⟩

theorem Built.proper (h : d.Built) : d.Proper := by
  induction h with
  | parentheses =>
    intro c hc
    obtain ⟨r, hr, rfl⟩ := isDelimiter_iff.1 hc
    revert r
    decide
  | standard =>
    intro c hc
    obtain ⟨r, hr, rfl⟩ := isDelimiter_iff.1 hc
    revert r
    decide
  | assign _ c role ih =>
    intro x hx
    rcases isDelimiter_of_assign hx with hx | ⟨rfl, hc⟩
    · exact ih x hx
    · exact hc

end Delimiters

/-! ## Lexemes as they are written -/

variable {d : Delimiters}

/-- How a lexeme is written in front of the rest of the text. -/
inductive Written (d : Delimiters) : List Char → List Char → Lexeme → Prop
  | quoted {body : List Char} (rest : List Char) (hbody : '"' ∉ body) :
    Written d ('"' :: (body ++ ['"'])) rest (.value (.text (String.ofList body)))
  /-- A quoted text may end with the text. -/
  | unclosed {body : List Char} (hbody : '"' ∉ body) :
    Written d ('"' :: body) [] (.value (.text (String.ofList body)))
  | delimiter {c : Char} (rest : List Char) (h : d.isDelimiter c = true) :
    Written d [c] rest (.delimiter c)
  /-- A word goes on to a blank, a double quote, a delimiter or the end. -/
  | word {cs rest : List Char} {v : Value} (hne : cs ≠ [])
    (hcs : ∀ c ∈ cs, isBlank c = false ∧ c ≠ '"' ∧ d.isDelimiter c = false)
    (hrest : ∀ c ∈ rest.head?, isBlank c = true ∨ c = '"' ∨ d.isDelimiter c = true)
    (hv : WordReads cs v) : Written d cs rest (.value v)

/-- A lexeme with the characters it is written with and the byte where they begin. -/
structure Span where
  start : Nat
  chars : List Char
  lexeme : Lexeme

/-- The byte behind the last character. -/
def Span.stop (s : Span) : Nat := s.start + byteLength s.chars

/-- The text, the first character of which is at byte `offset`, is these spans with blanks between
them and at both ends. -/
inductive Segmentation (d : Delimiters) : Nat → List Char → List Span → Prop
  | done {offset : Nat} {blanks : List Char} (hb : ∀ c ∈ blanks, isBlank c = true) :
    Segmentation d offset blanks []
  | next {blanks rest : List Char} {offset : Nat} {s : Span} {spans : List Span}
    (hb : ∀ c ∈ blanks, isBlank c = true) (hs : s.start = offset + byteLength blanks)
    (hw : Written d s.chars rest s.lexeme) (hrest : Segmentation d s.stop rest spans) :
    Segmentation d offset (blanks ++ (s.chars ++ rest)) (s :: spans)

/-- What the scanner tells of a span. -/
def Span.scanned (s : Span) : Nat × Lexeme := (s.start, s.lexeme)

/-! ## One span -/

section Written

variable {chars rest chars' rest' : List Char} {l l' : Lexeme}

theorem Written.ne_nil (h : Written d chars rest l) : chars ≠ [] := by
  cases h with
  | word hne => exact hne
  | quoted => simp
  | unclosed => simp
  | delimiter => simp

/-- No span begins with a blank. -/
theorem Written.head (hd : d.Proper) (h : Written d chars rest l) :
    ∀ c ∈ (chars ++ rest).head?, isBlank c = false := by
  cases h with
  | quoted => simp; decide
  | unclosed => simp; decide
  | @delimiter c _ h => simpa using (hd c h).2
  | word hne hcs =>
    obtain ⟨c, cs, rfl⟩ := List.exists_cons_of_ne_nil hne
    simpa using (hcs c (by simp)).1

theorem ne_quote_of_not_mem {body : List Char} (hbody : '"' ∉ body) :
    ∀ c ∈ body, (c != '"') = true :=
  fun c hc => bne_iff_ne.2 (by rintro rfl; exact hbody hc)

theorem inWord_eq_true_iff {c : Char} :
    d.inWord c = true ↔ isBlank c = false ∧ c ≠ '"' ∧ d.isDelimiter c = false := by
  simp [inWord_eq_true]

theorem inWord_eq_false_iff {c : Char} :
    d.inWord c = false ↔ isBlank c = true ∨ c = '"' ∨ d.isDelimiter c = true := by
  rw [← Bool.not_eq_true, inWord_eq_true]
  tauto

/-- The scanner takes a span as it is written. -/
theorem scan_written (hd : d.Proper) (h : Written d chars rest l) (offset : Nat) :
    scan d offset (chars ++ rest) = (offset, l) :: scan d (offset + byteLength chars) rest := by
  cases h with
  | @quoted body _ hbody =>
    have hquote : byteLength ['"'] = 1 := rfl
    have hbytes : byteLength ('"' :: (body ++ ['"'])) = byteLength body + 2 := by
      rw [← List.singleton_append, byteLength_append, byteLength_append, hquote]
      omega
    rw [hbytes, ← Nat.add_assoc, ← scan_quoted hbody]
    simp
  | @unclosed body hbody =>
    have hall := ne_quote_of_not_mem hbody
    rw [List.append_nil, scan_quote, List.takeWhile_eq_self_iff.2 hall,
      List.dropWhile_eq_nil_iff.2 hall]
    simp [scan]
  | @delimiter c _ h =>
    obtain ⟨hq, hb⟩ := hd c h
    rw [List.singleton_append, scan_delimiter (by simp [hb]) hq h]
    rfl
  | word hne hcs hrest hv =>
    rw [scan_word hne (fun c hc => inWord_eq_true_iff.2 (hcs c hc))
      fun c hc => inWord_eq_false_iff.2 (hrest c hc)]
    rw [(wordReads_readWord chars).unique hv]

/-- The characters of the span that a text begins with. -/
def extent (d : Delimiters) : List Char → List Char
  | [] => []
  | c :: cs =>
    if c = '"' then c :: (cs.takeWhile (· != '"') ++ (cs.dropWhile (· != '"')).take 1)
    else if d.isDelimiter c then [c]
    else (c :: cs).takeWhile d.inWord

theorem Written.extent_eq (hd : d.Proper) (h : Written d chars rest l) :
    extent d (chars ++ rest) = chars := by
  cases h with
  | @quoted body _ hbody =>
    have hall := ne_quote_of_not_mem hbody
    rw [List.cons_append, List.append_assoc, extent, if_pos rfl,
      takeWhile_append_all hall (by simp), dropWhile_append_all hall (by simp)]
    rfl
  | @unclosed body hbody =>
    have hall := ne_quote_of_not_mem hbody
    rw [List.cons_append, extent, if_pos rfl, takeWhile_append_all hall (by simp),
      dropWhile_append_all hall (by simp)]
    simp
  | @delimiter c _ h => rw [List.singleton_append, extent, if_neg (hd c h).1, if_pos h]
  | word hne hcs hrest =>
    obtain ⟨c, cs, rfl⟩ := List.exists_cons_of_ne_nil hne
    obtain ⟨-, hq, hdelim⟩ := hcs c (by simp)
    rw [List.cons_append, extent, if_neg hq, if_neg (by simp [hdelim]), ← List.cons_append]
    exact takeWhile_append_all (fun c hc => inWord_eq_true_iff.2 (hcs c hc))
      fun c hc => inWord_eq_false_iff.2 (hrest c hc)

/-- A text begins with one span. -/
theorem Written.unique (hd : d.Proper) (h : Written d chars rest l)
    (h' : Written d chars' rest' l') (he : chars ++ rest = chars' ++ rest') :
    chars = chars' ∧ rest = rest' ∧ l = l' := by
  have hchars : chars = chars' := by rw [← h.extent_eq hd, he, h'.extent_eq hd]
  subst hchars
  obtain rfl := List.append_cancel_left he
  have hscan := (scan_written hd h 0).symm.trans (scan_written hd h' 0)
  exact ⟨rfl, rfl, congrArg Prod.snd (List.cons.inj hscan).1⟩

/-- Any text that begins with no blank begins with a span. -/
theorem exists_written (d : Delimiters) {c : Char} (hc : isBlank c = false) (cs : List Char) :
    ∃ chars rest l, c :: cs = chars ++ rest ∧ Written d chars rest l := by
  by_cases hq : c = '"'
  · subst hq
    by_cases hmem : '"' ∈ cs
    · obtain ⟨body, rest, rfl, hbody⟩ := List.eq_append_cons_of_mem hmem
      exact ⟨_, rest, _, by simp, .quoted rest hbody⟩
    · exact ⟨_, [], _, by simp, .unclosed hmem⟩
  by_cases hdelim : d.isDelimiter c = true
  · exact ⟨[c], cs, _, rfl, .delimiter cs hdelim⟩
  · have hw : d.inWord c = true := inWord_eq_true.2 ⟨by simp [hc], hq, hdelim⟩
    obtain ⟨word, rest, he, hne, hword, hrest⟩ := exists_word hw cs
    exact ⟨word, rest, _, he, .word hne (fun c hc => inWord_eq_true_iff.1 (hword c hc))
      (fun c hc => inWord_eq_false_iff.1 (hrest c hc)) (wordReads_readWord word)⟩

end Written

/-! ## All spans -/

namespace Segmentation

variable {offset : Nat} {text : List Char} {spans spans' : List Span}

theorem scan_eq (hd : d.Proper) (h : Segmentation d offset text spans) :
    scan d offset text = spans.map Span.scanned := by
  induction h with
  | @done offset blanks hb =>
    rw [← List.append_nil blanks, scan_blanks hb, scan, List.map_nil]
  | @next blanks rest offset s spans hb hs hw hrest ih =>
    rw [scan_blanks hb, ← hs, scan_written hd hw, List.map_cons, ← ih]
    rfl

/-- The blanks that a text begins with. -/
theorem blanks_eq (hd : d.Proper) {blanks chars rest : List Char} {l : Lexeme}
    (hb : ∀ c ∈ blanks, isBlank c = true) (hw : Written d chars rest l) :
    (blanks ++ (chars ++ rest)).takeWhile isBlank = blanks ∧
      (blanks ++ (chars ++ rest)).dropWhile isBlank = chars ++ rest :=
  ⟨takeWhile_append_all hb (hw.head hd), dropWhile_append_all hb (hw.head hd)⟩

theorem unique (hd : d.Proper) (h : Segmentation d offset text spans)
    (h' : Segmentation d offset text spans') : spans = spans' := by
  induction h generalizing spans' with
  | @done offset blanks hb =>
    cases h' with
    | done => rfl
    | @next blanks' rest _ s _ _ hs hw _ =>
      obtain ⟨c, cs, hchars⟩ := List.exists_cons_of_ne_nil hw.ne_nil
      have hc := hw.head hd c (by simp [hchars])
      exact absurd (hb c (by simp [hchars])) (by simp [hc])
  | @next blanks rest offset s spans hb hs hw hrest ih =>
    generalize htext : blanks ++ (s.chars ++ rest) = text at h'
    cases h' with
    | done hb' =>
      obtain ⟨c, cs, hchars⟩ := List.exists_cons_of_ne_nil hw.ne_nil
      have hc := hw.head hd c (by simp [hchars])
      exact absurd (hb' c (by simp [← htext, hchars])) (by simp [hc])
    | @next blanks' rest' _ s' spans' hb' hs' hw' hrest' =>
      obtain ⟨htake, hdrop⟩ := blanks_eq hd hb hw
      obtain ⟨htake', hdrop'⟩ := blanks_eq hd hb' hw'
      rw [htext] at htake hdrop
      obtain rfl := htake.symm.trans htake'
      obtain ⟨hchars, rfl, hl⟩ := hw.unique hd hw' (hdrop.symm.trans hdrop')
      have hspan : s = s' := by
        cases s
        cases s'
        simp_all
      subst hspan
      rw [ih hrest']

theorem exists_segmentation (d : Delimiters) (offset : Nat) (text : List Char) :
    ∃ spans, Segmentation d offset text spans := by
  induction hn : text.length using Nat.strong_induction_on generalizing offset text with
  | _ n ih =>
  subst hn
  have htext : text = text.takeWhile isBlank ++ text.dropWhile isBlank :=
    List.takeWhile_append_dropWhile.symm
  have hb (c : Char) (hc : c ∈ text.takeWhile isBlank) : isBlank c = true :=
    List.mem_takeWhile_imp hc
  cases hmore : text.dropWhile isBlank with
  | nil =>
    rw [hmore, List.append_nil] at htext
    exact ⟨[], .done fun c hc => hb c (htext ▸ hc)⟩
  | cons c cs =>
    have hc : isBlank c = false := by
      have := List.head?_dropWhile_not isBlank text
      rw [hmore] at this
      simpa using this
    obtain ⟨chars, rest, l, he, hw⟩ := exists_written d hc cs
    have hlength : rest.length < text.length := by
      have hpos := List.length_pos_iff.2 hw.ne_nil
      rw [htext, hmore, he]
      simp only [List.length_append]
      omega
    obtain ⟨spans, hspans⟩ := ih _ hlength
      (offset + byteLength (text.takeWhile isBlank) + byteLength chars) rest rfl
    let s : Span := ⟨offset + byteLength (text.takeWhile isBlank), chars, l⟩
    have hsplit : text = text.takeWhile isBlank ++ (s.chars ++ rest) :=
      htext.trans (by rw [hmore, he])
    rw [hsplit]
    exact ⟨s :: spans, .next hb rfl hw hspans⟩

/-- Each span begins where the one before it has ended, or behind. -/
theorem le_start (h : Segmentation d offset text spans) : ∀ s ∈ spans, offset ≤ s.start := by
  induction h with
  | done => simp
  | next hb hs hw hrest ih =>
    refine List.forall_mem_cons.2 ⟨by omega, fun t ht => ?_⟩
    have := ih t ht
    rw [Span.stop] at this
    omega

theorem pairwise (h : Segmentation d offset text spans) :
    spans.Pairwise fun s t => s.stop ≤ t.start := by
  induction h with
  | done => exact .nil
  | next hb hs hw hrest ih => exact .cons hrest.le_start ih

/-- The characters of a span are in the text, at its first byte. -/
theorem place (h : Segmentation d offset text spans) : ∀ s ∈ spans, ∃ before after,
    text = before ++ s.chars ++ after ∧ s.start = offset + byteLength before ∧ s.chars ≠ [] := by
  induction h with
  | done => simp
  | @next blanks rest offset s spans hb hs hw hrest ih =>
    refine List.forall_mem_cons.2 ⟨⟨blanks, rest, by simp, hs, hw.ne_nil⟩, fun t ht => ?_⟩
    obtain ⟨before, after, rfl, hstart, hne⟩ := ih t ht
    refine ⟨blanks ++ s.chars ++ before, after, by simp, ?_, hne⟩
    rw [hstart, Span.stop, hs, byteLength_append, byteLength_append]
    omega

end Segmentation

/-! ## Delimiters -/

section Delimiters

variable {chars rest before after : List Char} {c : Char} {l : Lexeme}

theorem mem_or_behind {cs : List Char} (h : chars ++ rest = before ++ c :: cs) :
    (∃ after, chars = before ++ c :: after) ∨ ∃ more, before = chars ++ more ∧
      rest = more ++ c :: cs := by
  rcases List.append_eq_append_iff.1 h with ⟨more, hbefore, hrest⟩ | ⟨more, hchars, hc⟩
  · exact .inr ⟨more, hbefore, hrest⟩
  · rcases List.append_eq_cons_iff.1 hc.symm with ⟨rfl, hrest⟩ | ⟨after, rfl, -⟩
    · exact .inr ⟨[], by simpa using hchars.symm, by simpa using hrest⟩
    · exact .inl ⟨after, hchars⟩

/-- A span has an even number of double quotes, unless the text ends with it. -/
theorem Written.even_count (hd : d.Proper) (h : Written d chars rest l) (hrest : rest ≠ []) :
    Even (chars.count '"') := by
  cases h with
  | quoted _ hbody =>
    rw [List.count_cons_self, List.count_append, List.count_eq_zero.2 hbody]
    exact ⟨1, rfl⟩
  | unclosed => exact absurd rfl hrest
  | @delimiter c _ h => simp [(hd c h).1]
  | word hne hcs =>
    have hnone : '"' ∉ chars := fun hm => (hcs _ hm).2.1 rfl
    simp [List.count_eq_zero.2 hnone]

/-- Within a span, a delimiter behind an even number of double quotes is the span itself. -/
theorem Written.delimiter_of_even (hd : d.Proper) (h : Written d (before ++ c :: after) rest l)
    (hdelim : d.isDelimiter c = true) (heven : Even (before.count '"')) :
    before = [] ∧ after = [] ∧ l = .delimiter c := by
  have hc := (hd c hdelim).1
  have inside {body more : List Char} (hbody : '"' ∉ body)
      (he : '"' :: body = before ++ c :: more) : False := by
    rcases List.cons_eq_append_iff.1 he with ⟨-, hcons⟩ | ⟨front, rfl, rfl⟩
    · exact hc (List.cons.inj hcons).1
    · have hfront : '"' ∉ front := fun hm => hbody (by simp [hm])
      simp [List.count_eq_zero.2 hfront] at heven
  generalize hchars : before ++ c :: after = chars at h
  cases h with
  | @quoted body _ hbody =>
    rw [← List.cons_append] at hchars
    rcases mem_or_behind hchars.symm with ⟨more, he⟩ | ⟨more, rfl, he⟩
    · exact (inside hbody he).elim
    · have hmem : c ∈ ['"'] := by simp [he]
      exact absurd (List.mem_singleton.1 hmem) hc
  | unclosed hbody => exact (inside hbody hchars.symm).elim
  | @delimiter x _ h =>
    rcases List.cons_eq_append_iff.1 hchars.symm with ⟨rfl, hcons⟩ | ⟨front, -, hnil⟩
    · obtain ⟨rfl, rfl⟩ := List.cons.inj hcons
      exact ⟨rfl, rfl, rfl⟩
    · simp at hnil
  | word hne hcs => exact absurd hdelim (by simp [(hcs c (by simp [← hchars])).2.2])

/-- There is a delimiter where a character that is one stands behind an even number of double
quotes, and nowhere else. -/
theorem Segmentation.delimiter_iff {offset start : Nat} {text : List Char} {spans : List Span}
    (hd : d.Proper) (h : Segmentation d offset text spans) :
    (start, .delimiter c) ∈ spans.map Span.scanned ↔
      ∃ before after, text = before ++ c :: after ∧ start = offset + byteLength before ∧
        Even (before.count '"') ∧ d.isDelimiter c = true := by
  induction h with
  | @done offset blanks hb =>
    simp only [List.map_nil, List.not_mem_nil, false_iff]
    rintro ⟨before, after, rfl, -, -, hdelim⟩
    exact absurd (hb c (by simp)) (by simp [(hd c hdelim).2])
  | @next blanks rest offset s spans hb hs hw hrest ih =>
    have hblanks : '"' ∉ blanks := fun hm => absurd (hb _ hm) (by decide)
    have hstop (before : List Char) : s.stop + byteLength before =
        offset + byteLength (blanks ++ (s.chars ++ before)) := by
      rw [Span.stop, hs, byteLength_append, byteLength_append]
      omega
    rw [List.map_cons, List.mem_cons, ih]
    constructor
    · rintro (hscanned | ⟨before, after, rfl, hstart, heven, hdelim⟩)
      · -- the span is the delimiter
        obtain ⟨rfl, hl⟩ : start = s.start ∧ Lexeme.delimiter c = s.lexeme :=
          Prod.ext_iff.1 hscanned
        obtain ⟨chars, hchars⟩ : ∃ chars, chars = s.chars := ⟨_, rfl⟩
        rw [← hl, ← hchars] at hw
        cases hw with
        | delimiter _ h =>
          exact ⟨blanks, rest, by simp [← hchars], hs, by simp [List.count_eq_zero.2 hblanks], h⟩
      · have heven' := hw.even_count hd (by simp)
        refine ⟨blanks ++ (s.chars ++ before), after, by simp, hstart.trans (hstop before), ?_,
          hdelim⟩
        simpa [List.count_eq_zero.2 hblanks] using heven'.add heven
    · rintro ⟨before, after, htext, hstart, heven, hdelim⟩
      rcases mem_or_behind htext with ⟨more, rfl⟩ | ⟨before, rfl, hbehind⟩
      · exact absurd (hb c (by simp)) (by simp [(hd c hdelim).2])
      rw [List.count_append, List.count_eq_zero.2 hblanks, Nat.zero_add] at heven
      rcases mem_or_behind hbehind with ⟨more, hchars⟩ | ⟨before, rfl, rfl⟩
      · obtain ⟨rfl, -, hl⟩ := (hchars ▸ hw).delimiter_of_even hd hdelim heven
        refine .inl (Prod.ext ?_ hl.symm)
        rw [hstart, List.append_nil]
        exact hs.symm
      · have heven' := hw.even_count hd (by simp)
        rw [List.count_append] at heven
        exact .inr ⟨before, after, rfl, hstart.trans (hstop before).symm,
          (Nat.even_add.1 heven).1 heven', hdelim⟩

end Delimiters

/-! ## The text of a program -/

theorem utf8Len_eq_byteLength (cs : List Char) : String.utf8Len cs = byteLength cs := by
  induction cs with
  | nil => rfl
  | cons c cs ih => rw [String.utf8Len_cons, ih, byteLength_cons, Nat.add_comm]

/-- The characters of a span are those of the text from its first byte to its end. -/
theorem Segmentation.extract {text : String} {spans : List Span}
    (h : Segmentation d 0 text.toList spans) {s : Span} (hs : s ∈ spans) :
    s.start < s.stop ∧ (String.Pos.Raw.mk s.start).IsValid text ∧
      (String.Pos.Raw.mk s.stop).IsValid text ∧
      (String.Pos.Raw.mk s.start).extract text ⟨s.stop⟩ = String.ofList s.chars := by
  obtain ⟨before, after, htext, hstart, hne⟩ := h.place s hs
  have hstart : s.start = String.utf8Len before := by
    rw [hstart, utf8Len_eq_byteLength, Nat.zero_add]
  have hstop : s.stop = String.utf8Len before + String.utf8Len s.chars := by
    rw [Span.stop, hstart, utf8Len_eq_byteLength s.chars]
  have hpos : 0 < String.utf8Len s.chars := by
    obtain ⟨c, cs, hchars⟩ := List.exists_cons_of_ne_nil hne
    have := c.utf8Size_pos
    rw [hchars, String.utf8Len_cons]
    omega
  obtain rfl : text = String.ofList (before ++ s.chars ++ after) := by
    rw [← htext, String.ofList_toList]
  have valid {front more : List Char} {n : Nat} (hn : n = String.utf8Len front) :
      (String.Pos.Raw.mk n).IsValid (String.ofList (front ++ more)) := by
    refine String.Pos.Raw.isValid_iff_exists_append.2
      ⟨String.ofList front, String.ofList more, String.ofList_append, ?_⟩
    rw [hn, ← String.utf8ByteSize_ofList]
    rfl
  refine ⟨by omega, ?_, valid (by rw [hstop, String.utf8Len_append]), ?_⟩
  · rw [List.append_assoc]
    exact valid hstart
  · rw [hstart, hstop]
    exact String.extract_of_valid before s.chars after

/-- A text splits into lexemes with blanks between them in one way, and the scanner gives the
lexemes with their bytes: no character is lost, and each delimiter outside of the quoted texts is a
lexeme. -/
theorem scan_segments {d : Delimiters} (hd : d.Built) (text : String) :
    ∃ spans, (∀ others, Segmentation d 0 text.toList others ↔ others = spans) ∧
      scan d 0 text.toList = spans.map Span.scanned ∧
      (scan d 0 text.toList).Pairwise (fun l m => l.1 < m.1) ∧
      (spans.Pairwise fun s t => s.stop ≤ t.start) ∧
      (∀ s ∈ spans, s.start < s.stop ∧ (String.Pos.Raw.mk s.start).IsValid text ∧
        (String.Pos.Raw.mk s.stop).IsValid text ∧
        (String.Pos.Raw.mk s.start).extract text ⟨s.stop⟩ = String.ofList s.chars) ∧
      ∀ start c, (start, .delimiter c) ∈ scan d 0 text.toList ↔
        ∃ before after, text.toList = before ++ c :: after ∧ start = byteLength before ∧
          Even (before.count '"') ∧ d.isDelimiter c = true := by
  obtain ⟨spans, h⟩ := Segmentation.exists_segmentation d 0 text.toList
  have hd := hd.proper
  have hscan := h.scan_eq hd
  refine ⟨spans, fun others => ⟨fun h' => h'.unique hd h, fun he => he ▸ h⟩, hscan, ?_, h.pairwise,
    fun s hs => h.extract hs, fun start c => ?_⟩
  · rw [hscan, List.pairwise_map]
    exact h.pairwise.imp_of_mem fun hs _ hle => Nat.lt_of_lt_of_le (h.extract hs).1 hle
  · simpa [hscan] using h.delimiter_iff hd

/-- A word, a toggle and a quoted text that does not end, with no blanks between them. -/
theorem scan_segments_of_adjacent : Delimiters.standard.withApostrophe.Built ∧
    ∃ spans, (∀ others, Segmentation Delimiters.standard.withApostrophe 0 "é'\"b (c".toList others ↔
        others = spans) ∧
      spans.map Span.scanned =
        [(0, .value (.symbol "é")), (2, .delimiter '\''), (3, .value (.text "b (c"))] := by
  have hd : Delimiters.standard.withApostrophe.Built := Delimiters.Built.standard.withApostrophe
  obtain ⟨spans, honly, hscan, -⟩ := scan_segments hd "é'\"b (c"
  refine ⟨hd, spans, honly, hscan.symm.trans ?_⟩
  have hword : ∀ c ∈ ['é'], Delimiters.standard.withApostrophe.inWord c = true :=
    List.forall_mem_singleton.2 (by decide)
  have hstop : ∀ c ∈ ['\'', '"', 'b', ' ', '(', 'c'].head?,
      Delimiters.standard.withApostrophe.inWord c = false := by
    rintro c ⟨⟩
    decide
  have hread : readWord ['é'] = .symbol "é" := rfl
  have hbytes : byteLength ['é'] = 2 := by decide
  change scan _ 0 (['é'] ++ ['\'', '"', 'b', ' ', '(', 'c']) = _
  rw [scan_word (by decide) hword hstop, scan_delimiter (by decide) (by decide) (by decide),
    scan_quote, hread, hbytes]
  simp [scan]
  rfl

end WordStack
