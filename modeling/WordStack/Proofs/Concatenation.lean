import WordStack.Proofs.Scanning
import WordStack.Token

/-!
# Texts one after the other

The tokens of two texts with a blank between them are those of the first and then those of the
second, directives and all: a directive of the first text that has been followed has looked at no
lexeme behind it, and what the handler has become is all that the second text sees of the first.

`obey` is what a directive does by itself, so that `expand` is opened once, in `expand_cons`. The
calls that a handler gets are read off one that records them.
-/

namespace WordStack

/-! ## What directives take -/

section Read

variable {d : Delimiters} {opener : Char} {directive : String} {ls more : List (Nat × Lexeme)}

theorem readGroup_append {r : List String × List (Nat × Lexeme)}
    (h : readGroup d opener ls = some r) :
    readGroup d opener (ls ++ more) = some (r.1, r.2 ++ more) := by
  induction ls generalizing r with
  | nil => cases h
  | cons l ls ih =>
    obtain ⟨offset, v | c⟩ := l
    · simp only [readGroup, Option.map_eq_some_iff] at h
      obtain ⟨r', h', rfl⟩ := h
      simp [readGroup, ih h']
    · simp only [readGroup] at h
      split at h
      · next hc =>
        cases h
        simp [readGroup, hc]
      · next hc => simp [readGroup, hc, ih h]

theorem readNamespaces_append {r : List String × List (Nat × Lexeme)}
    (h : readNamespaces d ls = .ok r) :
    readNamespaces d (ls ++ more) = .ok (r.1, r.2 ++ more) := by
  rcases ls with _ | ⟨⟨offset, v | c⟩, ls⟩
  · cases h
  · cases h
    rfl
  · simp only [readNamespaces, List.cons_append] at h ⊢
    split at h
    · cases h
    · next hc =>
      split at h
      · next r' hg =>
        cases h
        rw [if_neg hc, readGroup_append hg]
      · cases h

theorem readArgument_append {r : String × List (Nat × Lexeme)}
    (h : readArgument directive ls = .ok r) :
    readArgument directive (ls ++ more) = .ok (r.1, r.2 ++ more) := by
  rcases ls with _ | ⟨⟨offset, v | c⟩, ls⟩
  · cases h
  · cases h
    rfl
  · cases h

/-- A directive that has been read has not looked behind its last lexeme. -/
theorem Directive.read_append {r : Directive × List (Nat × Lexeme)}
    (h : Directive.read d ls = .ok r) :
    Directive.read d (ls ++ more) = .ok (r.1, r.2 ++ more) := by
  unfold Directive.read at h
  split at h
  · next offset rest =>
    cases ha : readArgument "load-file" rest with
    | error e => simp [ha, Except.map] at h
    | ok a =>
      simp only [ha, Except.map, Except.ok.injEq] at h
      subst h
      simp [Directive.read, readArgument_append ha, Except.map]
  · next offset rest =>
    cases ha : readArgument "reference" rest with
    | error e => simp [ha] at h
    | ok a =>
      cases hn : readNamespaces d a.2 with
      | error e => simp [ha, hn, Except.map] at h
      | ok n =>
        simp only [ha, hn, Except.map, Except.ok.injEq] at h
        subst h
        simp [Directive.read, readArgument_append ha, readNamespaces_append hn, Except.map]
  · cases h
  · cases h

/-- Lexemes at other places. -/
def relocate (f : Nat → Nat) (ls : List (Nat × Lexeme)) : List (Nat × Lexeme) :=
  ls.map fun l => (f l.1, l.2)

variable (f : Nat → Nat)

variable (d opener) in
theorem readGroup_relocate (ls : List (Nat × Lexeme)) :
    readGroup d opener (relocate f ls) =
      (readGroup d opener ls).map fun r => (r.1, relocate f r.2) := by
  induction ls with
  | nil => rfl
  | cons l ls ih =>
    simp only [relocate, List.map_cons] at ih ⊢
    obtain ⟨offset, v | c⟩ := l
    · simp [readGroup, ih, Function.comp_def]
    · simp only [readGroup]
      split
      · rfl
      · exact ih

theorem readNamespaces_relocate (ls : List (Nat × Lexeme)) :
    readNamespaces d (relocate f ls) =
      (readNamespaces d ls).map fun r => (r.1, relocate f r.2) := by
  rcases ls with _ | ⟨⟨offset, v | c⟩, ls⟩
  · rfl
  · rfl
  · have hg := readGroup_relocate d c f ls
    simp only [relocate, List.map_cons, readNamespaces] at hg ⊢
    rw [hg]
    split
    · rfl
    · cases readGroup d c ls <;> rfl

variable (directive) in
theorem readArgument_relocate (ls : List (Nat × Lexeme)) :
    readArgument directive (relocate f ls) =
      (readArgument directive ls).map fun r => (r.1, relocate f r.2) := by
  rcases ls with _ | ⟨⟨offset, v | c⟩, ls⟩ <;> rfl

/-- What directives say does not depend on where their lexemes are. -/
theorem Directive.read_relocate (ls : List (Nat × Lexeme)) :
    Directive.read d (relocate f ls) =
      (Directive.read d ls).map fun r => (r.1, relocate f r.2) := by
  rw [Directive.read.eq_def d ls]
  split
  · next offset rest =>
    have ha := readArgument_relocate "load-file" f rest
    simp only [relocate, List.map_cons, Directive.read] at ha ⊢
    rw [ha]
    cases readArgument "load-file" rest <;> rfl
  · next offset rest =>
    have ha := readArgument_relocate "reference" f rest
    simp only [relocate, List.map_cons, Directive.read] at ha ⊢
    rw [ha]
    cases ha' : readArgument "reference" rest with
    | error e => rfl
    | ok a =>
      have hn := readNamespaces_relocate (d := d) f a.2
      simp only [relocate, Except.map] at hn ⊢
      rw [hn]
      cases readNamespaces d a.2 <;> rfl
  · next offset keyword rest hl hr => exact Directive.read.eq_3 d _ keyword _ hl hr
  · next hv =>
    rcases ls with _ | ⟨⟨offset, v | c⟩, ls⟩
    · rfl
    · exact absurd rfl (hv _ _ _)
    · rfl

end Read

/-! ## Readings -/

section Reading

variable {σ α β : Type}

/-- What has come of reading, and what the handler has become; it outlives an error. -/
abbrev Reading (σ α : Type) := Except LexError α × σ

namespace Reading

/-- Go on reading, unless there was an error. -/
def andThen (r : Reading σ α) (k : α → σ → Reading σ β) : Reading σ β :=
  match r with
  | (.error e, s) => (.error e, s)
  | (.ok a, s) => k a s

theorem andThen_eq_ok {r : Reading σ α} {k : α → σ → Reading σ β} {b : β} {s' : σ} :
    r.andThen k = (.ok b, s') ↔ ∃ a s, r = (.ok a, s) ∧ k a s = (.ok b, s') := by
  obtain ⟨e | a, s⟩ := r
  · simp [andThen]
  · refine ⟨fun h => ⟨a, s, rfl, h⟩, ?_⟩
    rintro ⟨a', s₁, hr, h⟩
    cases hr
    exact h

/-- The reading without the place of its error. -/
def kind (r : Reading σ α) : Except DirectiveError α × σ := (r.1.mapError (·.cause), r.2)

theorem kind_andThen {r r' : Reading σ α} {k k' : α → σ → Reading σ β} (hr : r.kind = r'.kind)
    (hk : ∀ a s, (k a s).kind = (k' a s).kind) : (r.andThen k).kind = (r'.andThen k').kind := by
  obtain ⟨e | a, s⟩ := r <;> obtain ⟨e' | a', s'⟩ := r' <;>
    simp [kind, Except.mapError] at hr <;> obtain ⟨he, rfl⟩ := hr
  · simp [andThen, kind, Except.mapError, he]
  · subst he
    exact hk a s

/-- A reading by a handler that keeps a record does the same, and adds `calls` to the record. -/
def Records (r : Reading σ α) (calls : List Directive)
    (act : List Directive → Reading (σ × List Directive) α) : Prop :=
  ∀ log, act log = (r.1, r.2, log ++ calls)

theorem Records.andThen {r : Reading σ α} {calls : List Directive}
    {act : List Directive → Reading (σ × List Directive) α} {k : α → σ → Reading σ β}
    {k' : α → σ × List Directive → Reading (σ × List Directive) β} (hr : r.Records calls act)
    (hk : ∀ a s, ∃ calls', (k a s).Records calls' fun log => k' a (s, log)) :
    ∃ calls', (r.andThen k).Records calls' fun log => (act log).andThen k' := by
  obtain ⟨e | a, s⟩ := r
  · refine ⟨calls, fun log => ?_⟩
    dsimp only
    rw [hr log]
    rfl
  · obtain ⟨calls', hc⟩ := hk a s
    refine ⟨calls ++ calls', fun log => ?_⟩
    dsimp only
    rw [hr log, ← List.append_assoc]
    exact hc (log ++ calls)

end Reading

end Reading

/-! ## One directive at a time -/

variable {σ : Type}

/-- The error of a directive that the handler has refused. -/
def refusal {α : Type} (offset : Nat) (directive : String) (r : Except String α × σ) :
    Reading σ α :=
  (r.1.mapError fun m => ⟨offset, .failed directive m⟩, r.2)

/-- What a directive gives in its place, where files can be loaded `depth` more levels deep. -/
def obey (d : Delimiters) (h : DirectiveHandler σ) (limit depth offset : Nat) :
    Directive → σ → Reading σ (Array Token)
  | .loadFile name, s =>
    match depth with
    | 0 => (.error ⟨offset, .nestedTooDeep limit⟩, s)
    | deeper + 1 =>
      (refusal offset "load-file" (h.loadFile name s)).andThen fun text s =>
        Reading.andThen (expand d h limit deeper (scan d 0 text.toList) #[] s) fun inner s =>
          (.ok #[.splice inner.toList], s)
  | .reference module namespaces, s =>
    (refusal offset "reference" (h.reference module namespaces s)).andThen fun _ s => (.ok #[], s)

section Expand

variable {d : Delimiters} {h : DirectiveHandler σ} {limit depth offset : Nat}

theorem expand_plain {l : Lexeme} (hl : ¬ l.isAnnouncement = true) (rest : List (Nat × Lexeme))
    (out : Array Token) (s : σ) :
    expand d h limit depth ((offset, l) :: rest) out s =
      expand d h limit depth rest (out.push l.token) s := by
  rw [expand, if_neg hl]

theorem expand_unread {l : Lexeme} {rest : List (Nat × Lexeme)} {e : DirectiveError}
    (hl : l.isAnnouncement = true) (hr : Directive.read d rest = .error e) (out : Array Token)
    (s : σ) :
    expand d h limit depth ((offset, l) :: rest) out s = (.error ⟨offset, e⟩, s) := by
  rw [expand, if_pos hl]
  split <;> simp_all

theorem expand_read {l : Lexeme} {rest rest' : List (Nat × Lexeme)} {x : Directive}
    (hl : l.isAnnouncement = true) (hr : Directive.read d rest = .ok (x, rest'))
    (out : Array Token) (s : σ) :
    expand d h limit depth ((offset, l) :: rest) out s =
      (obey d h limit depth offset x s).andThen fun inner s =>
        expand d h limit depth rest' (out ++ inner) s := by
  rw [expand, if_pos hl]
  split
  · simp_all
  · next name rest'' hr' =>
    obtain ⟨rfl, rfl⟩ : x = .loadFile name ∧ rest' = rest'' := by simpa [hr] using hr'
    cases depth with
    | zero => rfl
    | succ deeper =>
      simp only [obey]
      rcases h.loadFile name s with ⟨m | text, s⟩
      · rfl
      · simp only [refusal, Except.mapError, Reading.andThen]
        rcases expand d h limit deeper (scan d 0 text.toList) #[] s with ⟨e | inner, s⟩
        · rfl
        · simp
  · next module namespaces rest'' hr' =>
    obtain ⟨rfl, rfl⟩ : x = .reference module namespaces ∧ rest' = rest'' := by
      simpa [hr] using hr'
    simp only [obey]
    rcases h.reference module namespaces s with ⟨m | _, s⟩
    · rfl
    · simp [refusal, Except.mapError, Reading.andThen]

/-- Induction on a row of lexemes as `expand` goes through it. -/
theorem expand_induction {P : List (Nat × Lexeme) → Prop} (d : Delimiters) (nil : P [])
    (plain : ∀ offset l rest, ¬ Lexeme.isAnnouncement l = true → P rest → P ((offset, l) :: rest))
    (unread : ∀ offset l rest e, Lexeme.isAnnouncement l = true →
      Directive.read d rest = .error e → P ((offset, l) :: rest))
    (read : ∀ offset l rest x rest', Lexeme.isAnnouncement l = true →
      Directive.read d rest = .ok (x, rest') → P rest' → P ((offset, l) :: rest))
    (ls : List (Nat × Lexeme)) : P ls := by
  induction hn : ls.length using Nat.strong_induction_on generalizing ls with
  | _ n ih =>
  subst hn
  cases ls with
  | nil => exact nil
  | cons l rest =>
  obtain ⟨offset, l⟩ := l
  by_cases hl : l.isAnnouncement = true
  · cases hr : Directive.read d rest with
    | error e => exact unread offset l rest e hl hr
    | ok r =>
      have hlength : r.2.length < ((offset, l) :: rest).length :=
        Nat.lt_succ_of_lt (Directive.read_length hr)
      exact read offset l rest r.1 r.2 hl hr (ih _ hlength r.2 rfl)
  · exact plain offset l rest hl (ih _ (by simp) rest rfl)

/-- After lexemes that have been followed, the rest is. -/
theorem expand_append {ls more : List (Nat × Lexeme)} {out out' : Array Token} {s s' : σ}
    (hs : expand d h limit depth ls out s = (.ok out', s')) :
    expand d h limit depth (ls ++ more) out s = expand d h limit depth more out' s' := by
  induction ls using expand_induction d generalizing out s with
  | nil =>
    obtain ⟨rfl, rfl⟩ : out = out' ∧ s = s' := by simpa [expand] using hs
    rfl
  | plain offset l rest hl ih =>
    rw [expand_plain hl] at hs
    rw [List.cons_append, expand_plain hl, ih hs]
  | unread offset l rest e hl hr =>
    rw [expand_unread hl hr] at hs
    cases hs
  | read offset l rest x rest' hl hr ih =>
    rw [expand_read hl hr, Reading.andThen_eq_ok] at hs
    obtain ⟨inner, s₁, hx, hs⟩ := hs
    rw [List.cons_append, expand_read hl (Directive.read_append hr), hx]
    exact ih hs

/-- What has been read before stands in front, and changes nothing else. -/
theorem expand_out (ls : List (Nat × Lexeme)) (out : Array Token) (s : σ) :
    expand d h limit depth ls out s =
      ((expand d h limit depth ls #[] s).1.map (out ++ ·),
        (expand d h limit depth ls #[] s).2) := by
  induction ls using expand_induction d generalizing out s with
  | nil => simp [expand, Except.map]
  | plain offset l rest hl ih =>
    rw [expand_plain hl, expand_plain hl, ih, ih (#[].push l.token)]
    rcases expand d h limit depth rest #[] s with ⟨e | tokens, s₁⟩ <;> simp [Except.map]
  | unread offset l rest e hl hr => rw [expand_unread hl hr, expand_unread hl hr]; rfl
  | read offset l rest x rest' hl hr ih =>
    rw [expand_read hl hr, expand_read hl hr]
    rcases obey d h limit depth offset x s with ⟨e | inner, s₁⟩
    · rfl
    · simp only [Reading.andThen]
      rw [ih (out ++ inner), ih (#[] ++ inner)]
      rcases expand d h limit depth rest' #[] s₁ with ⟨e | tokens, s₂⟩ <;> simp [Except.map]

theorem refusal_kind {α : Type} (offset offset' : Nat) (directive : String)
    (r : Except String α × σ) :
    (refusal offset directive r).kind = (refusal offset' directive r).kind := by
  obtain ⟨m | a, s⟩ := r <;> rfl

theorem obey_kind (offset offset' : Nat) (x : Directive) (s : σ) :
    (obey d h limit depth offset x s).kind = (obey d h limit depth offset' x s).kind := by
  cases x with
  | loadFile name =>
    cases depth with
    | zero => rfl
    | succ deeper => exact Reading.kind_andThen (refusal_kind _ _ _ _) fun _ _ => rfl
  | reference module namespaces =>
    exact Reading.kind_andThen (refusal_kind _ _ _ _) fun _ _ => rfl

/-- Lexemes at other places are followed alike. -/
theorem expand_relocate (f : Nat → Nat) (ls : List (Nat × Lexeme)) (out : Array Token) (s : σ) :
    Reading.kind (expand d h limit depth (relocate f ls) out s) =
      Reading.kind (expand d h limit depth ls out s) := by
  have hcons (l : Nat × Lexeme) (ls : List (Nat × Lexeme)) :
      relocate f (l :: ls) = (f l.1, l.2) :: relocate f ls := rfl
  induction ls using expand_induction d generalizing out s with
  | nil => rfl
  | plain offset l rest hl ih => rw [hcons, expand_plain hl, expand_plain hl, ih]
  | unread offset l rest e hl hr =>
    have hr' : Directive.read d (relocate f rest) = .error e := by
      rw [Directive.read_relocate, hr]
      rfl
    rw [hcons, expand_unread hl hr, expand_unread hl hr']
    rfl
  | read offset l rest x rest' hl hr ih =>
    have hr' : Directive.read d (relocate f rest) = .ok (x, relocate f rest') := by
      rw [Directive.read_relocate, hr]
      rfl
    rw [hcons, expand_read hl hr, expand_read hl hr']
    exact Reading.kind_andThen (obey_kind _ _ x s) fun _ _ => ih _ _

end Expand

/-! ## The calls that a handler gets -/

/-- A handler that also keeps the directives it has been asked, in their order. -/
def DirectiveHandler.recording (h : DirectiveHandler σ) :
    DirectiveHandler (σ × List Directive) where
  loadFile name s :=
    let (r, t) := h.loadFile name s.1
    (r, t, s.2 ++ [.loadFile name])
  reference module namespaces s :=
    let (r, t) := h.reference module namespaces s.1
    (r, t, s.2 ++ [.reference module namespaces])

/-- What a handler is asked while a text is read. -/
def callsOf (d : Delimiters) (h : DirectiveHandler σ) (limit : Nat) (source : String) (s : σ) :
    List Directive :=
  (tokenize d h.recording limit source (s, [])).2.2

section Record

variable {d : Delimiters} {h : DirectiveHandler σ} {limit : Nat}

/-- Reading lexemes with a record differs from reading them without it in the record alone. -/
def ExpandRecords (d : Delimiters) (h : DirectiveHandler σ) (limit depth : Nat) : Prop :=
  ∀ ls out s, ∃ calls, Reading.Records (expand d h limit depth ls out s) calls fun log =>
    expand d h.recording limit depth ls out (s, log)

theorem obey_records {depth : Nat} (offset : Nat)
    (hdeeper : ∀ deeper < depth, ExpandRecords d h limit deeper) (x : Directive) (s : σ) :
    ∃ calls, (obey d h limit depth offset x s).Records calls fun log =>
      obey d h.recording limit depth offset x (s, log) := by
  cases x with
  | loadFile name =>
    cases depth with
    | zero => exact ⟨[], fun log => by simp [obey]⟩
    | succ deeper =>
      have hload : (refusal offset "load-file" (h.loadFile name s)).Records [.loadFile name]
          fun log => refusal offset "load-file" (h.recording.loadFile name (s, log)) :=
        fun _ => rfl
      refine hload.andThen fun text s => ?_
      obtain ⟨calls, hc⟩ := hdeeper deeper (Nat.lt_succ_self _) (scan d 0 text.toList) #[] s
      exact hc.andThen fun inner s => ⟨[], fun log => by simp⟩
  | reference module namespaces =>
    have hrefer : (refusal offset "reference" (h.reference module namespaces s)).Records
        [.reference module namespaces] fun log =>
          refusal offset "reference" (h.recording.reference module namespaces (s, log)) :=
      fun _ => rfl
    exact hrefer.andThen fun _ s => ⟨[], fun log => by simp⟩

theorem expand_records (d : Delimiters) (h : DirectiveHandler σ) (limit depth : Nat) :
    ExpandRecords d h limit depth := by
  induction depth using Nat.strong_induction_on with
  | _ depth hdeeper =>
  intro ls out s
  induction ls using expand_induction d generalizing out s with
  | nil => exact ⟨[], fun log => by simp [expand]⟩
  | plain offset l rest hl ih => simpa only [expand_plain hl] using ih (out.push l.token) s
  | unread offset l rest e hl hr =>
    exact ⟨[], fun log => by simp [expand_unread hl hr]⟩
  | read offset l rest x rest' hl hr ih =>
    obtain ⟨calls, hc⟩ := obey_records offset hdeeper x s
    simp only [expand_read hl hr]
    exact hc.andThen fun inner s => ih (out ++ inner) s

/-- A record goes on where it was, and nothing else depends on it. -/
theorem tokenize_recording (source : String) (s : σ) (log : List Directive) :
    tokenize d h.recording limit source (s, log) =
      ((tokenize d h limit source s).1, (tokenize d h limit source s).2,
        log ++ callsOf d h limit source s) := by
  obtain ⟨calls, hc⟩ := expand_records d h limit limit (scan d 0 source.toList) #[] s
  have hcalls : callsOf d h limit source s = calls := by
    have h₀ := congrArg (·.2.2) (hc [])
    exact h₀
  rw [hcalls]
  exact hc log

end Record

/-! ## Two texts -/

section Parts

variable {d : Delimiters} {h : DirectiveHandler σ} {limit : Nat} {source blanks : String}
  {s s₁ : σ} {tokens : Array Token}

/-- Behind a text that has been read, and blanks, the next one is read as it is alone. -/
theorem tokenize_append (more : String) (heven : Even (source.toList.count '"')) (hne : blanks ≠ "")
    (hb : ∀ c ∈ blanks.toList, isBlank c = true)
    (hs : tokenize d h limit source s = (.ok tokens, s₁)) :
    Reading.kind (tokenize d h limit (source ++ blanks ++ more) s) =
      Reading.kind ((tokenize d h limit more s₁).1.map (tokens ++ ·),
        (tokenize d h limit more s₁).2) := by
  obtain ⟨b, bs, hbs⟩ := List.exists_cons_of_ne_nil (mt String.toList_eq_nil_iff.1 hne)
  have hscan : scan d 0 (source ++ blanks ++ more).toList = scan d 0 source.toList ++
      relocate (byteLength (source ++ blanks).toList + ·) (scan d 0 more.toList) := by
    rw [String.toList_append, String.toList_append, hbs, List.append_assoc, List.cons_append,
      scan_append d 0 _ heven (hb b (by simp [hbs])), ← List.cons_append, ← hbs, scan_blanks hb,
      Nat.zero_add, ← byteLength_append]
    congr 1
    exact scan_shift d _ 0 _
  rw [tokenize, hscan, expand_append hs, expand_relocate, expand_out]
  rfl

/-- A text followed by blanks and another one: the handler is asked what the first text asks, and
then what the second one asks of what the handler has become; the tokens are those of the first and
then those of the second; and an error of the second is one of both together. -/
theorem tokenized_in_parts (more : String) (heven : Even (source.toList.count '"'))
    (hne : blanks ≠ "") (hb : ∀ c ∈ blanks.toList, isBlank c = true)
    (hs : tokenize d h limit source s = (.ok tokens, s₁)) :
    callsOf d h limit (source ++ blanks ++ more) s =
        callsOf d h limit source s ++ callsOf d h limit more s₁ ∧
      (tokenize d h limit (source ++ blanks ++ more) s).2 = (tokenize d h limit more s₁).2 ∧
      (∀ rest, (tokenize d h limit more s₁).1 = .ok rest →
        (tokenize d h limit (source ++ blanks ++ more) s).1 = .ok (tokens ++ rest)) ∧
      ∀ e, (tokenize d h limit more s₁).1 = .error e →
        ∃ e', (tokenize d h limit (source ++ blanks ++ more) s).1 = .error e' ∧
          e'.cause = e.cause := by
  have happend := tokenize_append more heven hne hb hs
  simp only [Reading.kind, Prod.mk.injEq] at happend
  obtain ⟨hkind, hstate⟩ := happend
  refine ⟨?_, hstate, fun rest hrest => ?_, fun e he => ?_⟩
  · have hrecord : tokenize d h.recording limit source (s, []) =
        (.ok tokens, s₁, callsOf d h limit source s) := by
      rw [tokenize_recording, hs, List.nil_append]
    have hcalls := congrArg (·.2.2) (tokenize_append more heven hne hb hrecord)
    rw [tokenize_recording (h := h) more] at hcalls
    exact hcalls
  · rw [hrest] at hkind
    cases hr : (tokenize d h limit (source ++ blanks ++ more) s).1 with
    | error e => simp [hr, Except.mapError, Except.map] at hkind
    | ok all => simpa [hr, Except.mapError, Except.map] using hkind
  · rw [he] at hkind
    cases hr : (tokenize d h limit (source ++ blanks ++ more) s).1 with
    | error e' => exact ⟨e', rfl, by simpa [hr, Except.mapError, Except.map] using hkind⟩
    | ok all => simp [hr, Except.mapError, Except.map] at hkind

end Parts

/-- Answers with the name of a file as its text, and counts the files. -/
def countingFiles : DirectiveHandler Nat where
  loadFile name n := (.ok name, n + 1)
  reference _ _ n := (.ok (), n)

theorem tokenized_in_parts_with_files :
    tokenize .standard countingFiles 1 "\"|\" pragma load-file a" 0 =
        (.ok #[.value (.text "|"), .splice [.value (.symbol "a")]], 1) ∧
      callsOf .standard countingFiles 1 ("\"|\" pragma load-file a" ++ " " ++ "b") 0 =
        callsOf .standard countingFiles 1 "\"|\" pragma load-file a" 0 ++
          callsOf .standard countingFiles 1 "b" 1 ∧
      (tokenize .standard countingFiles 1 ("\"|\" pragma load-file a" ++ " " ++ "b") 0).1 =
        .ok #[.value (.text "|"), .splice [.value (.symbol "a")], .value (.symbol "b")] := by
  have hscan : scan .standard 0 "\"|\" pragma load-file a".toList =
      [(0, .value (.text "|")), (4, .value (.symbol "pragma")), (11, .value (.symbol "load-file")),
        (21, .value (.symbol "a"))] := by
    simp [scan, isBlank, Delimiters.isDelimiter, Delimiters.role?, Delimiters.standard,
      Delimiters.inWord, readWord, readInt64?, splitSign, isDigits]
    decide
  have hname (c : Char) (hc : c = 'a' ∨ c = 'b') :
      scan .standard 0 [c] = [(0, .value (.symbol (String.singleton c)))] := by
    rcases hc with rfl | rfl <;>
      simp [scan, isBlank, Delimiters.isDelimiter, Delimiters.role?, Delimiters.standard, readWord,
        readInt64?, splitSign, isDigits]
  have hread : Directive.read .standard [(11, .value (.symbol "load-file")),
      (21, .value (.symbol "a"))] = .ok (.loadFile "a", []) := rfl
  have hs : tokenize .standard countingFiles 1 "\"|\" pragma load-file a" 0 =
      (.ok #[.value (.text "|"), .splice [.value (.symbol "a")]], 1) := by
    rw [tokenize, hscan, expand_plain (by decide), expand_read rfl hread]
    simp [obey, refusal, countingFiles, Except.mapError, Reading.andThen, hname, expand,
      Lexeme.isAnnouncement, Lexeme.token]
  have hmore : (tokenize .standard countingFiles 1 "b" 1).1 = .ok #[.value (.symbol "b")] := by
    simp [tokenize, hname, expand, Lexeme.isAnnouncement, Lexeme.token]
  have hblank : " ".toList.all isBlank = true := by decide
  obtain ⟨hcalls, -, hok, -⟩ :=
    tokenized_in_parts "b" (by decide) (show " " ≠ "" by decide) (List.all_eq_true.1 hblank) hs
  exact ⟨hs, hcalls, hok _ hmore⟩

end WordStack
