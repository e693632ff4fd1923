import WordStack.Host.Core
import WordStack.Proofs.HostRuns
import WordStack.Proofs.Literals
import WordStack.Proofs.RoundTrip

/-!
# Conversions and the readers of integers

A conversion gives a value of its type (`holds_of_convertNative`), and a value of the type converts
to itself (`NativeType.Holds.convertNative`), so to convert twice is to convert once. What is printed
converts back. Three readers take a text as an integer: the scanner, the conversion to `Int64` and
the member `Parse` of that type. All of them rest on `readInt64?`, which reads the literals whose
value fits and no others (`IntegerLiteral.readInt64?_eq`), so they agree; where the value does not
fit the scanner alone goes on to read a double.
-/

namespace WordStack

open HostProgram (CallbackContext)

/-! ## What a conversion gives -/

/-- The value converts to that one. -/
def Store.Converts (s : Store) (v : Value) (type : String) (u : Value) : Prop :=
  s.convertBuiltin? v type = some (.ok u)

/-- The value converts to one that converts back to it. -/
def Store.RoundTrips (s : Store) (v : Value) (type back : String) : Prop :=
  ∃ u, s.Converts v type u ∧ s.Converts u back v

/-- The value is one of the native type. -/
inductive NativeType.Holds : NativeType → Value → Prop
  | integer (n : Int64) : Holds integer (.integer n)
  | float (x : Float) : Holds float (.float x)
  | text (t : String) : Holds text (.text t)
  | boolean (b : Bool) : Holds boolean (.boolean b)
  | symbol (name : String) : Holds symbol (.symbol name)

section Idempotence

variable {s : Store} {u v : Value} {type : String} {target : NativeType}

theorem converts_iff : s.Converts v type u ↔
    ∃ target, NativeType.ofName? type = some target ∧ s.convertNative v target = .ok u :=
  Option.map_eq_some_iff

theorem convertedOr_eq_ok {o : Option Value} : s.convertedOr v type o = .ok u ↔ o = some u := by
  cases o <;> simp [Store.convertedOr]

theorem holds_of_convertNative (h : s.convertNative v target = .ok u) : target.Holds u := by
  cases target with
  | integer =>
    obtain ⟨n, -, rfl⟩ := Option.map_eq_some_iff.1 (convertedOr_eq_ok.1 h)
    exact .integer n
  | float =>
    obtain ⟨x, -, rfl⟩ := Option.map_eq_some_iff.1 (convertedOr_eq_ok.1 h)
    exact .float x
  | text =>
    obtain rfl := Except.ok.inj h
    exact .text _
  | boolean =>
    obtain ⟨b, -, rfl⟩ := Option.map_eq_some_iff.1 (convertedOr_eq_ok.1 h)
    exact .boolean b
  | symbol =>
    obtain rfl := Except.ok.inj h
    exact .symbol _

/-- A value of the type is what it converts to, in any store. -/
theorem NativeType.Holds.convertNative (h : target.Holds u) (s : Store) :
    s.convertNative u target = .ok u := by
  cases h <;> rfl

theorem Store.Converts.again (h : s.Converts v type u) : s.Converts u type u := by
  obtain ⟨target, htarget, hu⟩ := converts_iff.1 h
  exact converts_iff.2 ⟨target, htarget, (holds_of_convertNative hu).convertNative s⟩

end Idempotence

/-! ## Blanks around a text -/

theorem trimBlanks_between {before cs after : List Char} (hbefore : ∀ c ∈ before, isBlank c = true)
    (hne : cs ≠ []) (hcs : ∀ c ∈ cs, isBlank c = false) (hafter : ∀ c ∈ after, isBlank c = true) :
    trimBlanks (before ++ cs ++ after) = cs := by
  have hfront : ∀ c ∈ (cs ++ after).head?, isBlank c = false := by
    obtain ⟨c, rest, rfl⟩ := List.exists_cons_of_ne_nil hne
    simpa using hcs c (by simp)
  have hback : ∀ c ∈ cs.reverse.head?, isBlank c = false := fun c hc =>
    hcs c (List.mem_reverse.1 (List.mem_of_mem_head? hc))
  rw [trimBlanks, List.append_assoc, dropWhile_append_all hbefore hfront, List.reverse_append,
    dropWhile_append_all (by simpa using hafter) hback, List.reverse_reverse]

theorem trimBlanks_of_noBlanks {cs : List Char} (hne : cs ≠ [])
    (hcs : ∀ c ∈ cs, isBlank c = false) : trimBlanks cs = cs := by
  have hbare : trimBlanks ([] ++ cs ++ []) = cs := trimBlanks_between (by simp) hne hcs (by simp)
  simpa using hbare

/-! ## Integers among the words -/

/-- A row of characters that can stand in one word. -/
structure Delimiters.Word (d : Delimiters) (cs : List Char) : Prop where
  ne : cs ≠ []
  inWord : ∀ c ∈ cs, d.inWord c = true

/-- Where the scanner comes to this text as a whole word, it reads it as the value. -/
def Delimiters.Reads (d : Delimiters) (cs : List Char) (v : Value) : Prop :=
  ∀ offset more, (∀ c ∈ more.head?, d.inWord c = false) →
    scan d offset (cs ++ more) = (offset, .value v) :: scan d (offset + byteLength cs) more

section Words

variable {d : Delimiters} {s : Store} {cs : List Char} {v : Value} {n : Int64}

/-- A text that is one word is one lexeme. -/
theorem Delimiters.Reads.alone (h : d.Reads cs v) (offset : Nat) :
    scan d offset cs = [(offset, .value v)] := by
  have hend := h offset [] (by simp)
  rwa [List.append_nil, scan] at hend

theorem Delimiters.Word.reads (h : d.Word cs) : d.Reads cs (readWord cs) :=
  fun _ _ hmore => scan_word h.ne h.inWord hmore

theorem Delimiters.Word.reads_iff (h : d.Word cs) : d.Reads cs v ↔ readWord cs = v := by
  constructor
  · intro hv
    have hsame := (h.reads.alone 0).symm.trans (hv.alone 0)
    simpa using hsame
  · rintro rfl
    exact h.reads

theorem Delimiters.Word.trimBlanks_eq (h : d.Word cs) : trimBlanks cs = cs :=
  trimBlanks_of_noBlanks h.ne fun c hc => by simpa using (inWord_eq_true.1 (h.inWord c hc)).1

theorem readWord_eq_integer_iff : readWord cs = .integer n ↔ readInt64? cs = some n := by
  constructor
  · intro h
    have hreads := wordReads_readWord cs
    rw [h] at hreads
    cases hreads with
    | integer hn => exact readInt64?_eq_some_iff.2 hn
  · intro h
    rw [readWord, h]

theorem convertNative_text_integer :
    s.convertNative (.text (String.ofList cs)) .integer =
      s.convertedOr (.text (String.ofList cs)) "Int64"
        ((readInt64? (trimBlanks cs)).map .integer) := by
  rw [Store.convertNative, Value.toInteger?, String.toList_ofList]

theorem converts_integer_iff : s.Converts (.text (String.ofList cs)) "Int64" (.integer n) ↔
    readInt64? (trimBlanks cs) = some n := by
  have hname : NativeType.ofName? "Int64" = some .integer := rfl
  simp [converts_iff, hname, convertNative_text_integer, convertedOr_eq_ok]

/-- The scanner reads a word as an integer exactly when its text converts to it. -/
theorem Delimiters.Word.reads_integer_iff (h : d.Word cs) : d.Reads cs (.integer n) ↔
    s.Converts (.text (String.ofList cs)) "Int64" (.integer n) := by
  rw [h.reads_iff, readWord_eq_integer_iff, converts_integer_iff, h.trimBlanks_eq]

end Words

/-! ## Literals of any length -/

namespace IntegerLiteral

variable {d : Delimiters} {s : Store} {cs : List Char} {n : Int} {c : Char}

theorem exists_isDigit (h : IntegerLiteral cs n) : ∃ c ∈ cs, c.isDigit = true := by
  obtain ⟨hsigned, hds⟩ := h
  obtain ⟨c, rest, rfl, hc⟩ := head_of_isDigits hds
  refine ⟨c, ?_, hc⟩
  cases hsigned <;> simp

theorem sign_or_isDigit (h : IntegerLiteral cs n) (hc : c ∈ cs) :
    c = '+' ∨ c = '-' ∨ c.isDigit = true := by
  obtain ⟨hsigned, hds⟩ := h
  have hall := List.all_eq_true.1 (isDigits_iff.1 hds).2
  cases hsigned with
  | bare => exact .inr (.inr (hall c hc))
  | plus => exact (List.mem_cons.1 hc).imp_right fun hc => .inr (hall c hc)
  | minus => exact .inr ((List.mem_cons.1 hc).imp_right (hall c))

theorem not_isBlank (h : IntegerLiteral cs n) (hc : c ∈ cs) : isBlank c = false := by
  rcases h.sign_or_isDigit hc with rfl | rfl | hdigit
  · rfl
  · rfl
  · exact isBlank_of_isDigit hdigit

theorem ne_nil (h : IntegerLiteral cs n) : cs ≠ [] := by
  obtain ⟨c, hc, -⟩ := h.exists_isDigit
  exact List.ne_nil_of_mem hc

/-- A literal stands in a word, where none of its characters is a delimiter. -/
theorem word (h : IntegerLiteral cs n) (hd : ∀ c ∈ cs, ¬ d.isDelimiter c = true) : d.Word cs where
  ne := h.ne_nil
  inWord c hc := by
    have hquote : c ≠ '"' := by
      rintro rfl
      rcases h.sign_or_isDigit hc with hc | hc | hc <;> cases hc
    exact inWord_eq_true.2 ⟨by simp [h.not_isBlank hc], hquote, hd c hc⟩

/-- An integer is read as one exactly when it fits. -/
theorem readInt64?_eq (h : IntegerLiteral cs n) :
    readInt64? cs = if FitsInt64 n then some (Int64.ofInt n) else none := by
  rw [WordStack.readInt64?_eq, readInteger?_eq_some_iff.2 h, Option.bind_some]

theorem trimBlanks_eq (h : IntegerLiteral cs n) : trimBlanks cs = cs :=
  trimBlanks_of_noBlanks h.ne_nil fun _ hc => h.not_isBlank hc

/-- Digits behind a sign are a double too. -/
theorem floatLiteral (h : IntegerLiteral cs n) : FloatLiteral cs := by
  obtain @⟨negative, ds, hsigned, hds⟩ := h
  have hwhole : SignedText cs negative (ds ++ []) := by simpa using hsigned
  exact .decimal hwhole (.whole hds) .absent

theorem readWord_of_not_fits (h : IntegerLiteral cs n) (hn : ¬ FitsInt64 n) :
    ∃ x, readWord cs = .float x := by
  obtain ⟨x, hx⟩ := Option.isSome_iff_exists.1 (isSome_readFloat?_iff.2 h.floatLiteral)
  have hdigit : cs.any Char.isDigit = true := List.any_eq_true.2 h.exists_isDigit
  refine ⟨x, ?_⟩
  rw [readWord, h.readInt64?_eq, if_neg hn, if_pos hdigit, hx]

end IntegerLiteral

theorem integerLiteral_integerChars (n : Int) : IntegerLiteral (integerChars n) n :=
  readInteger?_eq_some_iff.1 (readInteger?_integerChars n)

/-! ## There and back -/

section RoundTrips

variable (s : Store)

theorem converts_integerText (n : Int64) :
    s.Converts (.integer n) "String" (.text (integerText n.toInt)) := rfl

/-- The text of an integer converts back to it, with any blanks around it. -/
theorem converts_blank_integerText (n : Int64) {before after : List Char}
    (hbefore : ∀ c ∈ before, isBlank c = true) (hafter : ∀ c ∈ after, isBlank c = true) :
    s.Converts (.text (String.ofList (before ++ (integerText n.toInt).toList ++ after))) "Int64"
      (.integer n) := by
  have hliteral := integerLiteral_integerChars n.toInt
  rw [converts_integer_iff, integerText, String.toList_ofList,
    trimBlanks_between hbefore hliteral.ne_nil (fun _ hc => hliteral.not_isBlank hc) hafter]
  exact readInt64?_eq_some_iff.2 hliteral

theorem roundTrips_boolean_text (b : Bool) : s.RoundTrips (.boolean b) "String" "Boolean" := by
  refine ⟨.text (if b then "true" else "false"), rfl, ?_⟩
  cases b <;> rfl

theorem roundTrips_boolean_integer (b : Bool) : s.RoundTrips (.boolean b) "Int64" "Boolean" := by
  refine ⟨.integer (if b then 1 else 0), rfl, ?_⟩
  cases b <;> rfl

theorem roundTrips_text_symbol (t : String) : s.RoundTrips (.text t) "Symbol" "String" :=
  ⟨.symbol t, rfl, rfl⟩

end RoundTrips

/-! ## The member that parses -/

/-- A call of the member `Parse` of a type of the core module. -/
def HostCall.parse (type : String) (v : Value) : HostCall :=
  ⟨.core type, "Parse", .forAccess (.method true) .ofType 1, none, #[v]⟩

section Parse

variable {r : Registry} {σ : Type} (ctx : CallbackContext σ) (s : Store) (x : σ)
  {type t : String} {v u : Value}

theorem invoke_parse (hr : r.descriptor? (.core "Int64") = some CoreModule.int64) (v : Value) :
    r.invoke (.parse "Int64" v) = CoreModule.parse "Int64" ⟨none, #[v]⟩ := by
  have hf : (HostCall.parse "Int64" v).flags.Seeks false :=
    AccessFlags.seeks_forAccess_method true .ofType 1
  have hreached : r.Reaches (.parse "Int64" v) _ _ := Registry.reaches_of_seeks hr hf rfl
  exact hreached.runs fun h => by cases h

/-- The member gives what the text converts to, and changes nothing. -/
theorem runWith_parse_of_converts {target : Option Value} (hv : v.name? = some t)
    (h : s.Converts (.text t) type u) :
    (CoreModule.parse type ⟨target, #[v]⟩).runWith ctx s x = (.ok (some u), s, x) := by
  have htext : (Invocation.text ⟨target, #[v]⟩ 0).runWith ctx s x = (.ok t, s, x) :=
    Invocation.runWith_argAs_of_some "String" rfl hv
  have h : s.convertBuiltin? (.text t) type = some (.ok u) := h
  rw [CoreModule.parse, HostProgram.runWith_bind_of_ok htext,
    HostProgram.runWith_bind_of_ok (HostProgram.runWith_getStore ctx s x), h,
    HostProgram.runWith_pure]

theorem runWith_parse_of_refused {target : Option Value} {e : EvalError} (hv : v.name? = some t)
    (h : s.convertBuiltin? (.text t) type = some (.error e)) :
    (CoreModule.parse type ⟨target, #[v]⟩).runWith ctx s x =
      (.error (.conversion t type), s, x) := by
  have htext : (Invocation.text ⟨target, #[v]⟩ 0).runWith ctx s x = (.ok t, s, x) :=
    Invocation.runWith_argAs_of_some "String" rfl hv
  rw [CoreModule.parse, HostProgram.runWith_bind_of_ok htext,
    HostProgram.runWith_bind_of_ok (HostProgram.runWith_getStore ctx s x), h,
    HostProgram.runWith_fail]

end Parse

/-! ## Three readers -/

/-- The scanner, the conversion to `Int64` and its member `Parse` read the text as the integer. -/
structure Registry.ReadsInteger (r : Registry) (cs : List Char) (n : Int64) : Prop where
  scanned : ∀ d : Delimiters, (∀ c ∈ cs, ¬ d.isDelimiter c = true) → d.Reads cs (.integer n)
  converted : ∀ s : Store, s.Converts (.text (String.ofList cs)) "Int64" (.integer n)
  parsed : ∀ {σ : Type} (ctx : CallbackContext σ) (s : Store) (x : σ) (v : Value),
    v.name? = some (String.ofList cs) →
      (r.invoke (.parse "Int64" v)).runWith ctx s x = (.ok (some (.integer n)), s, x)

/-- The scanner reads the text as a double, and the other two fail and change nothing. -/
structure Registry.ReadsNoInteger (r : Registry) (cs : List Char) : Prop where
  scanned : ∃ y, ∀ d : Delimiters, (∀ c ∈ cs, ¬ d.isDelimiter c = true) → d.Reads cs (.float y)
  refused : ∀ s : Store, s.convertBuiltin? (.text (String.ofList cs)) "Int64" =
    some (.error (s.mismatch "Int64" (.text (String.ofList cs))))
  failed : ∀ {σ : Type} (ctx : CallbackContext σ) (s : Store) (x : σ) (v : Value),
    v.name? = some (String.ofList cs) → (r.invoke (.parse "Int64" v)).runWith ctx s x =
      (.error (.conversion (String.ofList cs) "Int64"), s, x)

section Readers

variable {r : Registry} {cs : List Char} {n : Int}
  (hr : r.descriptor? (.core "Int64") = some CoreModule.int64)

include hr

theorem readsInteger_of_fits (h : IntegerLiteral cs n) (hn : FitsInt64 n) :
    r.ReadsInteger cs (Int64.ofInt n) := by
  have hread : readInt64? cs = some (Int64.ofInt n) := by rw [h.readInt64?_eq, if_pos hn]
  have hconverted (s : Store) :
      s.Converts (.text (String.ofList cs)) "Int64" (.integer (Int64.ofInt n)) := by
    rw [converts_integer_iff, h.trimBlanks_eq, hread]
  refine ⟨fun d hd => ?_, hconverted, fun ctx s x v hv => ?_⟩
  · exact (h.word hd).reads_iff.2 (readWord_eq_integer_iff.2 hread)
  · rw [invoke_parse hr, runWith_parse_of_converts ctx s x hv (hconverted s)]

theorem readsNoInteger_of_not_fits (h : IntegerLiteral cs n) (hn : ¬ FitsInt64 n) :
    r.ReadsNoInteger cs := by
  have hrefused (s : Store) : s.convertBuiltin? (.text (String.ofList cs)) "Int64" =
      some (.error (s.mismatch "Int64" (.text (String.ofList cs)))) := by
    have hname : NativeType.ofName? "Int64" = some .integer := rfl
    rw [Store.convertBuiltin?, hname, Option.map_some, convertNative_text_integer,
      h.trimBlanks_eq, h.readInt64?_eq, if_neg hn]
    rfl
  obtain ⟨y, hy⟩ := h.readWord_of_not_fits hn
  refine ⟨⟨y, fun d hd => (h.word hd).reads_iff.2 hy⟩, hrefused, fun ctx s x v hv => ?_⟩
  rw [invoke_parse hr, runWith_parse_of_refused ctx s x hv (hrefused s)]

end Readers

/-- Conversions to the types that the language knows. To convert again changes nothing. An integer
converts to a text that converts back to it, also with blanks around it; a truth value converts back
from its text and from its integer, and a text from its symbol. A text of digits, of any length and
with or without a sign, is read as the integer that it stands for by the scanner, the conversion and
the member `Parse` if that fits 64 bits, and else as a double by the scanner and by no other. And
any word is read as an integer by the scanner just if its text converts to that integer. -/
theorem conversions_agree {r : Registry}
    (hr : r.descriptor? (.core "Int64") = some CoreModule.int64) :
    (∀ (s : Store) (v u : Value) (type : String), s.Converts v type u → s.Converts u type u) ∧
    (∀ (s : Store) (n : Int64), ∃ t : String, s.Converts (.integer n) "String" (.text t) ∧
      ∀ before after : List Char, (∀ c ∈ before, isBlank c = true) →
        (∀ c ∈ after, isBlank c = true) →
          s.Converts (.text (String.ofList (before ++ t.toList ++ after))) "Int64" (.integer n)) ∧
    (∀ (s : Store) (b : Bool), s.RoundTrips (.boolean b) "String" "Boolean" ∧
      s.RoundTrips (.boolean b) "Int64" "Boolean") ∧
    (∀ (s : Store) (t : String), s.RoundTrips (.text t) "Symbol" "String") ∧
    (∀ (cs : List Char) (n : Int), IntegerLiteral cs n →
      (FitsInt64 n → ∃ m : Int64, m.toInt = n ∧ r.ReadsInteger cs m) ∧
      (¬ FitsInt64 n → r.ReadsNoInteger cs)) ∧
    ∀ (d : Delimiters) (s : Store) (word : List Char) (n : Int64), d.Word word →
      (d.Reads word (.integer n) ↔
        s.Converts (.text (String.ofList word)) "Int64" (.integer n)) := by
  refine ⟨fun _ _ _ _ h => h.again, fun s n => ?_, fun s b => ?_, roundTrips_text_symbol,
    fun cs n h => ⟨fun hn => ?_, ?_⟩, fun _ _ _ _ h => h.reads_integer_iff⟩
  · exact ⟨integerText n.toInt, converts_integerText s n,
      fun _ _ hbefore hafter => converts_blank_integerText s n hbefore hafter⟩
  · exact ⟨roundTrips_boolean_text s b, roundTrips_boolean_integer s b⟩
  · exact ⟨Int64.ofInt n, toInt_ofInt hn, readsInteger_of_fits hr h hn⟩
  · exact readsNoInteger_of_not_fits hr h

/-- The least integer has no positive counterpart that fits. -/
theorem conversions_agree_at_the_least :
    let r := Registry.ofModules [coreModule]
    let least := "-09223372036854775808".toList
    let beyond := "+09223372036854775808".toList
    r.descriptor? (.core "Int64") = some CoreModule.int64 ∧
      (∃ m : Int64, m.toInt = -9223372036854775808 ∧ r.ReadsInteger least m ∧
        scan .standard 0 least = [(0, .value (.integer m))]) ∧
      r.ReadsNoInteger beyond := by
  intro r least beyond
  have hr : r.descriptor? (.core "Int64") = some CoreModule.int64 := rfl
  obtain ⟨-, -, -, -, hread, -⟩ := conversions_agree hr
  have hleast : IntegerLiteral least (-9223372036854775808) :=
    readInteger?_eq_some_iff.1 (by decide)
  have hbeyond : IntegerLiteral beyond 9223372036854775808 :=
    readInteger?_eq_some_iff.1 (by decide)
  have hbare : least.all (fun c => !Delimiters.standard.isDelimiter c) = true := by decide
  obtain ⟨m, hm, hm'⟩ := (hread least _ hleast).1 (by decide)
  have hscan := (hm'.scanned .standard (by simpa using hbare)).alone 0
  exact ⟨hr, ⟨m, hm, hm', hscan⟩, (hread beyond _ hbeyond).2 (by decide)⟩

end WordStack
