import Mathlib.Algebra.Group.Nat.Even
import Mathlib.Data.List.TakeWhile
import WordStack.Lexeme

/-!
# Scanning texts in parts

Where the scanner stands between two lexemes it knows nothing of what came before, but for the byte
that it has come to (`scan_shift`). So a text can be cut where a blank follows an even number of
double quotes: no quoted text runs over the cut, and no word does (`scan_append`).
-/

namespace WordStack

/-! ## Rows of characters up to a stop -/

section Stop

variable {p : Char → Bool} {cs more : List Char}

/-- All of `cs` is taken, and the row stops behind it. -/
theorem takeWhile_append_all (hall : ∀ c ∈ cs, p c = true)
    (hmore : ∀ c ∈ more.head?, p c = false) : (cs ++ more).takeWhile p = cs := by
  rw [List.takeWhile_append_of_pos hall]
  cases more with
  | nil => simp
  | cons c more => simp [hmore c (by simp)]

theorem dropWhile_append_all (hall : ∀ c ∈ cs, p c = true)
    (hmore : ∀ c ∈ more.head?, p c = false) : (cs ++ more).dropWhile p = more := by
  rw [List.dropWhile_append_of_pos hall]
  cases more with
  | nil => rfl
  | cons c more => simp [hmore c (by simp)]

end Stop

theorem byteLength_cons (c : Char) (cs : List Char) :
    byteLength (c :: cs) = c.utf8Size + byteLength cs := rfl

theorem byteLength_append (cs ds : List Char) :
    byteLength (cs ++ ds) = byteLength cs + byteLength ds := by
  induction cs with
  | nil => simp [byteLength]
  | cons c cs ih => rw [List.cons_append, byteLength_cons, ih, byteLength_cons, Nat.add_assoc]

variable {d : Delimiters} {offset : Nat} {c : Char} {cs : List Char}

/-! ## One lexeme -/

theorem scan_blank (hb : isBlank c = true) :
    scan d offset (c :: cs) = scan d (offset + c.utf8Size) cs := by
  rw [scan, if_pos hb]

theorem scan_quote :
    scan d offset ('"' :: cs) =
      (offset, .value (.text (String.ofList (cs.takeWhile (· != '"'))))) ::
        scan d (offset + byteLength (cs.takeWhile (· != '"')) + 2)
          ((cs.dropWhile (· != '"')).drop 1) := by
  rw [scan, if_neg (by decide), if_pos rfl]

/-- A quoted text ends at the next double quote. -/
theorem scan_quoted {body more : List Char} (hbody : '"' ∉ body) :
    scan d offset ('"' :: (body ++ '"' :: more)) =
      (offset, .value (.text (String.ofList body))) ::
        scan d (offset + byteLength body + 2) more := by
  have hall : ∀ c ∈ body, (c != '"') = true := fun c hc => by
    rw [bne_iff_ne]
    rintro rfl
    exact hbody hc
  rw [scan_quote, takeWhile_append_all hall (by simp), dropWhile_append_all hall (by simp)]
  rfl

theorem scan_delimiter (hb : ¬ isBlank c = true) (hq : c ≠ '"') (hd : d.isDelimiter c = true) :
    scan d offset (c :: cs) = (offset, .delimiter c) :: scan d (offset + c.utf8Size) cs := by
  rw [scan, if_neg hb, if_neg hq, if_pos hd]

theorem inWord_eq_true : d.inWord c = true ↔
    ¬ isBlank c = true ∧ c ≠ '"' ∧ ¬ d.isDelimiter c = true := by
  simp [Delimiters.inWord, and_assoc]

/-- A word ends where the text does, and before a character that can stand in none. -/
theorem scan_word {word more : List Char} (hne : word ≠ []) (hw : ∀ c ∈ word, d.inWord c = true)
    (hmore : ∀ c ∈ more.head?, d.inWord c = false) :
    scan d offset (word ++ more) =
      (offset, .value (readWord word)) :: scan d (offset + byteLength word) more := by
  cases word with
  | nil => exact absurd rfl hne
  | cons c cs =>
    obtain ⟨hb, hq, hd⟩ := inWord_eq_true.1 (hw c (by simp))
    have hcs : ∀ c ∈ cs, d.inWord c = true := fun c h => hw c (by simp [h])
    rw [List.cons_append, scan, if_neg hb, if_neg hq, if_neg hd, takeWhile_append_all hcs hmore,
      dropWhile_append_all hcs hmore]

/-- A text that begins with a character of a word begins with the word. -/
theorem exists_word (hc : d.inWord c = true) (cs : List Char) :
    ∃ word more, c :: cs = word ++ more ∧ word ≠ [] ∧ (∀ c ∈ word, d.inWord c = true) ∧
      ∀ c ∈ more.head?, d.inWord c = false := by
  refine ⟨(c :: cs).takeWhile d.inWord, (c :: cs).dropWhile d.inWord,
    List.takeWhile_append_dropWhile.symm, by simp [hc], fun x hx => List.mem_takeWhile_imp hx, ?_⟩
  intro x hx
  have := List.head?_dropWhile_not d.inWord (c :: cs)
  rw [Option.mem_def.1 hx] at this
  simpa using this

/-! ## Texts in parts -/

theorem scan_blanks {blanks : List Char} (hb : ∀ c ∈ blanks, isBlank c = true) :
    scan d offset (blanks ++ cs) = scan d (offset + byteLength blanks) cs := by
  induction blanks generalizing offset with
  | nil => simp [byteLength]
  | cons c blanks ih =>
    rw [List.cons_append, scan_blank (hb c (by simp)), ih fun c h => hb c (by simp [h]),
      byteLength_cons, Nat.add_assoc]

/-- Where the scan begins is added to each byte that it gives. -/
theorem scan_shift (d : Delimiters) (start offset : Nat) (cs : List Char) :
    scan d (start + offset) cs = (scan d offset cs).map fun l => (start + l.1, l.2) := by
  fun_induction scan d offset cs with
  | case1 => simp [scan]
  | case2 offset c cs hb ih => rw [scan_blank hb, Nat.add_assoc, ih]
  | case3 offset cs body hb ih =>
    rw [scan_quote, List.map_cons, ← ih]
    simp only [body, Nat.add_assoc]
  | case4 offset c cs hb hq hd ih =>
    rw [scan_delimiter hb hq hd, List.map_cons, ← ih, Nat.add_assoc]
  | case5 offset c cs hb hq hd word ih =>
    rw [scan, if_neg hb, if_neg hq, if_neg hd, List.map_cons, ← ih]
    simp only [word, Nat.add_assoc]

/-- A text in which every quoted text ends is scanned alone, if a blank follows it. -/
theorem scan_append (d : Delimiters) (offset : Nat) {cs : List Char} {b : Char} (more : List Char)
    (heven : Even (cs.count '"')) (hb : isBlank b = true) :
    scan d offset (cs ++ b :: more) =
      scan d offset cs ++ scan d (offset + byteLength cs) (b :: more) := by
  induction hn : cs.length using Nat.strong_induction_on generalizing cs offset with
  | _ n ih =>
  subst hn
  cases cs with
  | nil => simp [scan, byteLength]
  | cons c cs =>
  by_cases hc : isBlank c = true
  · have hq : c ≠ '"' := by rintro rfl; exact absurd hc (by decide)
    rw [List.cons_append, scan_blank hc, scan_blank hc,
      ih _ (by simp) _ (by simpa [hq] using heven) rfl, byteLength_cons, Nat.add_assoc]
  by_cases hq : c = '"'
  · subst hq
    have hodd : ¬ Even (cs.count '"') := by simpa [Nat.even_add_one] using heven
    have hmem : '"' ∈ cs := by
      by_contra hn
      exact hodd (by simp [List.count_eq_zero.2 hn])
    obtain ⟨body, rest, rfl, hbody⟩ := List.eq_append_cons_of_mem hmem
    have hrest : Even (rest.count '"') := by
      simpa [List.count_eq_zero.2 hbody, Nat.even_add_one] using hodd
    have hbytes : byteLength ('"' :: (body ++ '"' :: rest)) =
        byteLength body + 2 + byteLength rest := by
      have hone : Char.utf8Size '"' = 1 := rfl
      simp only [byteLength_cons, byteLength_append, hone]
      omega
    rw [List.cons_append, List.append_assoc, List.cons_append, scan_quoted hbody,
      scan_quoted hbody, ih _ (by simp; omega) _ hrest rfl, hbytes]
    simp only [List.cons_append, Nat.add_assoc]
  by_cases hd : d.isDelimiter c = true
  · rw [List.cons_append, scan_delimiter hc hq hd, scan_delimiter hc hq hd,
      ih _ (by simp) _ (by simpa [hq] using heven) rfl, byteLength_cons, Nat.add_assoc]
    rfl
  · obtain ⟨word, rest, hsplit, hne, hw, hrest⟩ := exists_word (inWord_eq_true.2 ⟨hc, hq, hd⟩) cs
    have hnone : word.count '"' = 0 := List.count_eq_zero.2 fun hm =>
      (inWord_eq_true.1 (hw _ hm)).2.1 rfl
    have hlength : rest.length < (c :: cs).length := by
      have := List.length_pos_iff.2 hne
      rw [hsplit, List.length_append]
      omega
    rw [hsplit] at heven ⊢
    have hmore : ∀ c ∈ (rest ++ b :: more).head?, d.inWord c = false := by
      cases rest with
      | nil => simpa [Delimiters.inWord] using fun hn _ => absurd hb (by simp [hn])
      | cons x rest => simpa using hrest
    rw [List.append_assoc, scan_word hne hw hmore, scan_word hne hw hrest,
      ih _ hlength _ (by simpa [hnone] using heven) rfl, byteLength_append, Nat.add_assoc]
    rfl

end WordStack
