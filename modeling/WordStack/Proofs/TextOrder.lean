import Mathlib

/-!
# The order of texts

Texts are compared by their characters, the first difference deciding. It comes to the same to
compare the bytes of their encoding (`lex_chars_iff_bytes`): a character is encoded as a leading
byte, which tells how many bytes follow, and six bits in each of those (`utf8EncodeChar_eq`). Of two
characters the greater one has the greater leading byte, or the same one and greater bits after it.
-/

namespace WordStack

/-- The order of characters by their code points. -/
def charBelow (c d : Char) : Prop := c.toNat < d.toNat

/-- The order of bytes as numbers. -/
def byteBelow (x y : UInt8) : Prop := x.toNat < y.toNat

/-- The bytes of a text in its encoding. -/
def textBytes (t : String) : List UInt8 := t.toUTF8.data.toList

instance : Std.Trichotomous charBelow where
  trichotomous c d hcd hdc := by
    have hle : c.toNat = d.toNat := Nat.le_antisymm (Nat.le_of_not_lt hdc) (Nat.le_of_not_lt hcd)
    exact Char.toNat_inj.1 hle

instance : Std.Asymm byteBelow where
  asymm _ _ hxy hyx := Nat.lt_asymm hxy hyx

/-! ## The bytes of a character -/

/-- How many bytes follow the leading one. -/
def followers (v : Nat) : Nat :=
  if v ≤ 0x7f then 0 else if v ≤ 0x7ff then 1 else if v ≤ 0xffff then 2 else 3

/-- The mark of a leading byte that so many others follow. The first bits are added to it. -/
def leadingMark : Nat → Nat
  | 0 => 0
  | 1 => 0xc0
  | 2 => 0xe0
  | 3 => 0xf0
  | _ => 0xf8

/-- The last `k` bytes of a character, each with six of its bits. -/
def followingBytes (v : Nat) : Nat → List UInt8
  | 0 => []
  | k + 1 => UInt8.ofNat (v / 64 ^ k % 64 + 0x80) :: followingBytes v k

def leadingByte (v : Nat) : Nat := v / 64 ^ followers v + leadingMark (followers v)

theorem toNat_le (c : Char) : c.toNat ≤ 0x10ffff := by
  have hvalid : c.val.isValidChar := c.valid
  simp only [UInt32.isValidChar, Nat.isValidChar] at hvalid
  have hval : c.val.toNat = c.toNat := rfl
  omega

/-- The four lengths of encodings. -/
theorem followers_cases {v : Nat} (h : v ≤ 0x10ffff) :
    (followers v = 0 ∧ v ≤ 0x7f) ∨ (followers v = 1 ∧ 0x7f < v ∧ v ≤ 0x7ff) ∨
      (followers v = 2 ∧ 0x7ff < v ∧ v ≤ 0xffff) ∨
      (followers v = 3 ∧ 0xffff < v ∧ v ≤ 0x10ffff) := by
  unfold followers
  split_ifs <;> omega

theorem utf8EncodeChar_eq (c : Char) :
    String.utf8EncodeChar c =
      UInt8.ofNat (leadingByte c.toNat) :: followingBytes c.toNat (followers c.toNat) := by
  have hval : c.val.toNat = c.toNat := rfl
  have hcases := followers_cases (toNat_le c)
  unfold String.utf8EncodeChar leadingByte
  rw [hval]
  rcases hcases with ⟨hf, h⟩ | ⟨hf, h, h'⟩ | ⟨hf, h, h'⟩ | ⟨hf, h, h'⟩
  · simp [hf, h, followingBytes, leadingMark]
  · have hlead : c.toNat / 64 % 32 = c.toNat / 64 := by omega
    simp [hf, h.not_ge, h', hlead, followingBytes, leadingMark]
  · have hlead : c.toNat / 4096 % 16 = c.toNat / 4096 := by omega
    have h1 : ¬ c.toNat ≤ 0x7f := by omega
    simp [hf, h1, h.not_ge, h', hlead, followingBytes, leadingMark]
  · have hlead : c.toNat / 262144 % 8 = c.toNat / 262144 := by omega
    have h1 : ¬ c.toNat ≤ 0x7f := by omega
    have h2 : ¬ c.toNat ≤ 0x7ff := by omega
    simp [hf, h1, h2, h.not_ge, hlead, followingBytes, leadingMark]

theorem leadingMark_mono : Monotone leadingMark := by
  refine monotone_nat_of_le_succ fun k => ?_
  match k with
  | 0 | 1 | 2 | 3 => decide
  | _ + 4 => exact le_rfl

/-- The first bits do not reach the mark of longer encodings. -/
theorem leadingByte_lt_mark {v k : Nat} (h : v ≤ 0x10ffff) (hk : followers v < k) :
    leadingByte v < leadingMark k := by
  refine lt_of_lt_of_le ?_ (leadingMark_mono (Nat.succ_le_of_lt hk))
  unfold leadingByte
  rcases followers_cases h with ⟨hf, h⟩ | ⟨hf, -, h⟩ | ⟨hf, -, h⟩ | ⟨hf, -, h⟩ <;>
    rw [hf] <;> simp only [leadingMark, Nat.succ_eq_add_one, Nat.reduceAdd, Nat.reducePow] <;> omega

theorem leadingByte_lt (c : Char) : leadingByte c.toNat < 256 := by
  have hfollowers : followers c.toNat < 4 := by
    unfold followers
    split_ifs <;> decide
  exact (leadingByte_lt_mark (toNat_le c) hfollowers).trans (by decide)

/-! ## The first difference -/

/-- The greater byte decides, and of two equal ones what follows them. -/
theorem lex_cons_ofNat {m n : Nat} {xs ys : List UInt8} (hm : m < 256) (hn : n < 256)
    (h : m < n ∨ m = n ∧ List.Lex byteBelow xs ys) :
    List.Lex byteBelow (UInt8.ofNat m :: xs) (UInt8.ofNat n :: ys) := by
  rcases h with h | ⟨rfl, h⟩
  · refine .rel ?_
    simpa [byteBelow, Nat.mod_eq_of_lt hm, Nat.mod_eq_of_lt hn] using h
  · exact .cons h

/-- A number is less if it is less without its last digits, or if only they differ and are less. -/
theorem div_lt_or_mod_lt {v w : Nat} (k : Nat) (h : v < w) :
    v / k < w / k ∨ v / k = w / k ∧ v % k < w % k := by
  rcases Nat.lt_or_ge (v / k) (w / k) with hlt | hge
  · exact .inl hlt
  · have heq : v / k = w / k := Nat.le_antisymm (Nat.div_le_div_right h.le) hge
    refine .inr ⟨heq, ?_⟩
    have hv := Nat.div_add_mod v k
    have hw := Nat.div_add_mod w k
    rw [heq] at hv
    omega

theorem lex_followingBytes {v w : Nat} (k : Nat) (h : v % 64 ^ k < w % 64 ^ k)
    (xs ys : List UInt8) :
    List.Lex byteBelow (followingBytes v k ++ xs) (followingBytes w k ++ ys) := by
  induction k with
  | zero => simp [Nat.mod_one] at h
  | succ k ih =>
    refine lex_cons_ofNat (by omega) (by omega) ?_
    have hbits (u : Nat) : u % 64 ^ (k + 1) / 64 ^ k = u / 64 ^ k % 64 := by
      rw [Nat.pow_succ, Nat.mod_mul_right_div_self]
    have hlast (u : Nat) : u % 64 ^ (k + 1) % 64 ^ k = u % 64 ^ k :=
      Nat.mod_mod_of_dvd _ (Nat.pow_dvd_pow 64 (Nat.le_succ k))
    have hdiv := div_lt_or_mod_lt (64 ^ k) h
    rw [hbits, hbits, hlast, hlast] at hdiv
    exact hdiv.imp (by omega) fun ⟨heq, hlt⟩ => ⟨by rw [heq], ih hlt⟩

/-- The leading byte tells the smaller of two characters, unless it is the same one. -/
theorem leadingByte_lt_or {v w : Nat} (hw : w ≤ 0x10ffff) (h : v < w) :
    leadingByte v < leadingByte w ∨
      leadingByte v = leadingByte w ∧ followers v = followers w ∧
        v % 64 ^ followers v < w % 64 ^ followers v := by
  have hmono : followers v ≤ followers w := by
    unfold followers
    split_ifs <;> omega
  rcases hmono.lt_or_eq with hlt | heq
  · have hmark := leadingByte_lt_mark (h.le.trans hw) hlt
    exact .inl (hmark.trans_le (Nat.le_add_left _ _))
  · unfold leadingByte
    rw [← heq]
    exact (div_lt_or_mod_lt _ h).imp (by omega) fun ⟨hdiv, hmod⟩ => ⟨by rw [hdiv], rfl, hmod⟩

theorem lex_utf8EncodeChar {c d : Char} (h : charBelow c d) (xs ys : List UInt8) :
    List.Lex byteBelow (String.utf8EncodeChar c ++ xs) (String.utf8EncodeChar d ++ ys) := by
  rw [utf8EncodeChar_eq, utf8EncodeChar_eq]
  refine lex_cons_ofNat (leadingByte_lt c) (leadingByte_lt d) ?_
  refine (leadingByte_lt_or (toNat_le d) h).imp_right fun ⟨hlead, hf, hlt⟩ => ⟨hlead, ?_⟩
  rw [← hf]
  exact lex_followingBytes _ hlt xs ys

/-! ## Texts -/

theorem textBytes_eq (t : String) : textBytes t = t.toList.flatMap String.utf8EncodeChar := by
  rw [textBytes, String.toUTF8_eq_toByteArray, ← String.utf8Encode_toList, List.utf8Encode,
    List.data_toByteArray]

theorem lex_bytes_of_chars {cs ds : List Char} (h : List.Lex charBelow cs ds) :
    List.Lex byteBelow (cs.flatMap String.utf8EncodeChar) (ds.flatMap String.utf8EncodeChar) := by
  induction h with
  | nil =>
    rw [List.flatMap_nil, List.flatMap_cons, utf8EncodeChar_eq]
    exact .nil
  | cons _ ih => exact .append_left _ ih _
  | rel h => exact lex_utf8EncodeChar h _ _

/-- Texts are in the same order by their characters and by their bytes. -/
theorem lex_chars_iff_bytes {t u : String} :
    List.Lex charBelow t.toList u.toList ↔ List.Lex byteBelow (textBytes t) (textBytes u) := by
  rw [textBytes_eq, textBytes_eq]
  refine ⟨lex_bytes_of_chars, fun h => ?_⟩
  by_contra hne
  have hback : ¬ List.Lex charBelow u.toList t.toList := fun h' =>
    Std.Asymm.asymm _ _ h (lex_bytes_of_chars h')
  rw [Std.Trichotomous.trichotomous _ _ hne hback] at h
  exact Std.Asymm.asymm _ _ h h

end WordStack
