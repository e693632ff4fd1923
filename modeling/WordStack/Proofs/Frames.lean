import WordStack.Proofs.Control

/-!
# Frames after a run

A walk has a frame, which goes when the walk is over; an error leaves it, and a callback that ends
with an error drops what is above the frames it began with. So the frames are the ones from before
the run, then those of the lists that are being walked, and while an error unwinds the run those
that it has left: `Framed`. The second half follows the element that each walk is at back to the
machine that began it (`Traced`), to say of the last frame that is left which element failed.
-/

namespace WordStack

/-- The lists that are being walked, from the innermost out. -/
def walked : List Task → List ListId
  | [] => []
  | .walk items _ :: ts => items :: walked ts
  | _ :: ts => walked ts

/-- A callback drops to the frames of the walks around it, beside `base` of them from before. -/
def Anchored (base : Nat) : List Task → Prop
  | [] => True
  | .callback _ depth _ _ :: ts => depth = base + (walked ts).length ∧ Anchored base ts
  | _ :: ts => Anchored base ts

/-! ## Walks among tasks -/

theorem walked_append (ts us : List Task) : walked (ts ++ us) = walked ts ++ walked us := by
  fun_induction walked ts with
  | case1 => rfl
  | case2 items p ts ih => rw [List.cons_append, walked, ih, List.cons_append]
  | case3 t ts ht ih => rw [List.cons_append, walked.eq_3 _ _ ht, ih]

theorem Task.Plain.walked_cons {t : Task} (h : t.Plain) (ts : List Task) :
    walked (t :: ts) = walked ts := by
  cases t <;> first | rfl | exact absurd h id

theorem walked_plain {more : List Task} (h : ∀ t ∈ more, t.Plain) : walked more = [] := by
  induction more with
  | nil => rfl
  | cons t more ih =>
    rw [(h t (by simp)).walked_cons]
    exact ih fun u hu => h u (by simp [hu])

theorem Task.Plain.anchored_cons {t : Task} (h : t.Plain) (base : Nat) (ts : List Task) :
    Anchored base (t :: ts) = Anchored base ts := by
  cases t <;> first | rfl | exact absurd h id

theorem anchored_plain {more : List Task} (h : ∀ t ∈ more, t.Plain) (base : Nat) (ts : List Task) :
    Anchored base (more ++ ts) = Anchored base ts := by
  induction more with
  | nil => rfl
  | cons t more ih =>
    rw [List.cons_append, (h t (by simp)).anchored_cons]
    exact ih fun u hu => h u (by simp [hu])

/-- A walk behind tasks that walk nothing is behind them in all that follows. -/
theorem walk_behind {more ts us vs : List Task} {items : ListId} {p : Nat} (hm : walked more = [])
    (h : more ++ ts = us ++ .walk items p :: vs) : ∃ us', ts = us' ++ .walk items p :: vs := by
  obtain ⟨us', -, rfl⟩ | ⟨_ | ⟨t, us'⟩, rfl, ht⟩ := List.append_eq_append_iff.1 h
  · exact ⟨us', rfl⟩
  · exact ⟨[], by simpa using ht.symm⟩
  · obtain ⟨rfl, -⟩ := List.cons.inj ht
    simp [walked_append, walked] at hm

namespace CallStack

theorem setCursor_toList {c : CallStack} {fs : List Frame} {f : Frame}
    (h : c.frames.toList = fs ++ [f]) (v : Value) :
    (c.setCursor v).frames.toList = fs ++ [{ f with cursor := some v }] := by
  have hsize : c.frames.size - 1 = fs.length := by simp [← Array.length_toList, h]
  rw [setCursor, Array.toList_modify, hsize, h]
  exact List.modifyTailIdx_add _ 0 fs [f]

theorem eq_of_toList {c c' : CallStack} (hf : c.frames.toList = c'.frames.toList)
    (hl : c.limit = c'.limit) : c = c' := by
  cases c
  cases c'
  simp only [CallStack.mk.injEq]
  exact ⟨Array.toList_inj.1 hf, hl⟩

theorem current?_of_depth {c : CallStack} {n : Nat} (h : c.depth = n + 1) :
    c.current? = c.frames[n]? := by
  rw [current?, Array.back?_eq_getElem?, show c.frames.size = n + 1 from h, Nat.add_sub_cancel]

theorem head?_innermostFirst (c : CallStack) : c.innermostFirst.head? = c.current? := by
  rw [innermostFirst, List.head?_reverse, Array.getLast?_toList, current?]

theorem current_of_toList {c : CallStack} {fs : List Frame} {f : Frame}
    (h : c.frames.toList = fs ++ [f]) : c.current? = some f := by
  rw [current?, Array.back?_eq_getElem?, ← Array.getElem?_toList, h, ← Array.length_toList, h]
  simp

theorem pop_toList {c : CallStack} {fs : List Frame} {f : Frame}
    (h : c.frames.toList = fs ++ [f]) : c.pop.frames.toList = fs := by
  rw [pop, Array.toList_pop, h, List.dropLast_concat]

theorem truncate_toList {c : CallStack} {fs gs : List Frame}
    (h : c.frames.toList = fs ++ gs) : (c.truncate fs.length).frames.toList = fs := by
  simp [truncate, h]

theorem push_toList {c c' : CallStack} {items : ListId} {putScope : Nat}
    (h : c.push items putScope = (.ok (), c')) :
    c'.frames.toList = c.frames.toList ++ [⟨items, none, putScope⟩] := by
  rw [(push_eq_ok h).1, Array.toList_push]

end CallStack

namespace Control

/-! ## Frames of walks -/

/-- Above the frames `old` there is one for each list that is being walked, and no other unless an
error is unwinding the run. -/
structure Framed (old : List Frame) (k : Control) : Prop where
  frames : ∃ inner left : List Frame, k.calls.frames.toList = old ++ inner ++ left ∧
    inner.map Frame.items = (walked k.tasks).reverse ∧ (left ≠ [] → ∃ e, k.phase = .raising e)
  anchored : Anchored old.length k.tasks

variable {old : List Frame} {k k' : Control} {after : List Task}

/-- Unless an error is unwinding the run, every frame is one of a walk. -/
theorem Framed.exact (h : k.Framed old) (hp : ∀ e, k.phase ≠ .raising e) :
    ∃ inner : List Frame, k.calls.frames.toList = old ++ inner ∧
      inner.map Frame.items = (walked k.tasks).reverse := by
  obtain ⟨⟨inner, left, hf, hi, hl⟩, -⟩ := h
  cases left with
  | nil => exact ⟨inner, by simpa using hf, hi⟩
  | cons f left =>
    obtain ⟨e, he⟩ := hl (List.cons_ne_nil f left)
    exact absurd he (hp e)

theorem framed_of_exact {inner : List Frame} (hf : k.calls.frames.toList = old ++ inner)
    (hi : inner.map Frame.items = (walked k.tasks).reverse) (ha : Anchored old.length k.tasks) :
    k.Framed old :=
  ⟨⟨inner, [], by simpa using hf, hi, fun h => absurd rfl h⟩, ha⟩

/-- The frame of the innermost walk is the last one. -/
theorem inner_concat {inner : List Frame} {items : ListId} {ls : List ListId}
    (h : inner.map Frame.items = (items :: ls).reverse) :
    ∃ fs f, inner = fs ++ [f] ∧ fs.map Frame.items = ls.reverse ∧ f.items = items := by
  rw [List.reverse_cons, List.map_eq_append_iff] at h
  obtain ⟨fs, gs, rfl, hfs, hgs⟩ := h
  obtain ⟨f, rfl, hf⟩ := List.map_eq_singleton_iff.1 hgs
  exact ⟨fs, f, rfl, hfs, hf⟩

theorem length_of_items {fs : List Frame} {ls : List ListId}
    (h : fs.map Frame.items = ls.reverse) : fs.length = ls.length := by
  rw [← List.length_map, h, List.length_reverse]

theorem Prepares.phase_eq (hp : k.Prepares after k') : k'.phase = k.phase := by
  cases hp <;> rfl

theorem Prepares.walked (hp : k.Prepares after k') : walked after = [] := by
  cases hp with
  | word _ ha => exact walked_plain ha
  | procedure => rfl
  | callback hm =>
    have := walked_plain hm
    exact this

theorem Prepares.anchored (hp : k.Prepares after k') {base : Nat}
    (hd : k.calls.depth = base + (WordStack.walked k.tasks).length) (h : Anchored base k.tasks) :
    Anchored base (after ++ k.tasks) := by
  cases hp with
  | word _ ha => rwa [anchored_plain ha]
  | procedure => exact h
  | @callback returns reply serving more hm =>
    refine ⟨?_, (anchored_plain hm base k.tasks).mpr h⟩
    have hw := walked_append more k.tasks
    rw [walked_plain hm, List.nil_append] at hw
    rw [hd, ← hw]
    rfl

/-- The frames are as many as the walks, beside the old ones. -/
theorem depth_of_exact {inner : List Frame} (hf : k.calls.frames.toList = old ++ inner)
    (hi : inner.map Frame.items = (walked k.tasks).reverse) :
    k.calls.depth = old.length + (walked k.tasks).length := by
  rw [CallStack.depth, ← Array.length_toList, hf, List.length_append, length_of_items hi]

theorem Aftermath.framed (ha : k.Aftermath k') (h : k.Framed old) (hp : k.phase = .proceeding) :
    k'.Framed old := by
  obtain ⟨inner, hf, hi⟩ := h.exact (by simp [hp])
  have hd := depth_of_exact hf hi
  cases ha with
  | plain _ hm =>
    refine framed_of_exact hf ?_ (by rw [anchored_plain hm]; exact h.anchored)
    rw [walked_append, walked_plain hm, List.nil_append, hi]
  | @enter k₁ after items calls hprep hpush =>
    have hf' := CallStack.push_toList hpush
    rw [hprep.calls_eq, hf, List.append_assoc] at hf'
    refine framed_of_exact hf' ?_ (hprep.anchored hd h.anchored)
    simp [walked, walked_append, hprep.walked, hi]
  | refuse hprep _ =>
    refine framed_of_exact (by rw [hprep.calls_eq, hf]) ?_ (hprep.anchored hd h.anchored)
    simp [walked_append, hprep.walked, hi]

/-- A plain task says nothing about frames. -/
theorem Framed.tail {t : Task} (ht : t.Plain)
    (h : Framed old { k with tasks := t :: k.tasks }) : k.Framed old := by
  obtain ⟨⟨inner, left, hf, hi, hl⟩, ha⟩ := h
  rw [ht.walked_cons] at hi
  rw [ht.anchored_cons] at ha
  exact ⟨⟨inner, left, hf, hi, hl⟩, ha⟩

/-- The frame of the innermost walk is the last one, unless an error is unwinding the run. -/
theorem Framed.last {items : ListId} {p : Nat}
    (h : Framed old { k with tasks := .walk items p :: k.tasks })
    (hp : ∀ e, k.phase ≠ .raising e) :
    ∃ fs f, k.calls.frames.toList = old ++ fs ++ [f] ∧
      fs.map Frame.items = (walked k.tasks).reverse ∧ f.items = items := by
  obtain ⟨inner, hf, hi⟩ := h.exact hp
  obtain ⟨fs, f, rfl, hfs, hfi⟩ := inner_concat hi
  exact ⟨fs, f, by rw [List.append_assoc]; exact hf, hfs, hfi⟩

/-- Whatever a move does, walks have their frames. -/
theorem Change.framed (hc : k.Change k') (h : k.Framed old) : k'.Framed old := by
  cases hc with
  | idle => exact h
  | woken hw =>
    obtain ⟨inner, hf, hi⟩ := h.exact (by simp [hw])
    exact framed_of_exact hf hi h.anchored
  | begun hw ht =>
    obtain ⟨inner, hf, hi⟩ := h.exact (by simp [hw])
    refine framed_of_exact hf ?_ (by rw [ht.anchored_cons]; exact h.anchored)
    rw [ht.walked_cons, hi]
  | task ht hp ha => exact ha.framed (h.tail ht) hp
  | next v hp =>
    obtain ⟨fs, f, hf, hi, rfl⟩ := h.last (by simp [hp])
    have hf' := CallStack.setCursor_toList hf v
    rw [List.append_assoc] at hf'
    exact framed_of_exact hf' (by simp [walked, hi]) h.anchored
  | ended hp =>
    obtain ⟨fs, f, hf, hi, -⟩ := h.last (by simp [hp])
    exact framed_of_exact (CallStack.pop_toList hf) hi h.anchored
  | leave _ => exact ⟨h.frames, h.anchored⟩
  | answer hp _ hm =>
    obtain ⟨inner, hf, hi⟩ := h.exact (by simp [hp])
    refine framed_of_exact hf ?_ (by rw [anchored_plain hm]; exact h.anchored.2)
    rw [walked_append, walked_plain hm, List.nil_append]
    exact hi
  | @caught k returns depth servingBefore reply more putWords _ _ hm =>
    obtain ⟨inner, left, hf, hi, -⟩ := h.frames
    have hd : depth = (old ++ inner).length := by
      rw [h.anchored.1, List.length_append, length_of_items hi]
      rfl
    have hf' := CallStack.truncate_toList hf
    rw [← hd] at hf'
    refine framed_of_exact hf' ?_ (by rw [anchored_plain hm]; exact h.anchored.2)
    rw [walked_append, walked_plain hm, List.nil_append]
    exact hi
  | @unwind k t e he hl hcb =>
    obtain ⟨⟨inner, left, hf, hi, hleft⟩, ha⟩ := h
    cases t with
    | walk items p =>
      obtain ⟨fs, f, rfl, hfs, -⟩ := inner_concat hi
      exact ⟨⟨fs, f :: left, by simpa using hf, hfs, fun _ => ⟨e, he⟩⟩, ha⟩
    | leaveScope => exact absurd rfl hl
    | callback returns depth serving reply => exact absurd rfl (hcb _ _ _ _)
    | _ => exact ⟨⟨inner, left, hf, hi, hleft⟩, ha⟩

/-! ## Walks that are at an element -/

theorem length_behind {ts us vs : List Task} {items : ListId} {p : Nat}
    (h : ts = us ++ .walk items p :: vs) : (walked vs).length + 1 ≤ (walked ts).length := by
  rw [h, walked_append, List.length_append, walked, List.length_cons]
  omega

/-- The walk behind `us` is at an element that was begun before the move, and the frames up to its
own have not changed. -/
def Keeps (old : List Frame) (k k' : Control) (items : ListId) (p : Nat) (vs : List Task) : Prop :=
  ∃ us, k.tasks = us ++ .walk items p :: vs ∧ (us ≠ [] ∨ k.phase = .waiting) ∧
    k'.calls.frames.toList.take (old.length + (walked vs).length + 1) =
      k.calls.frames.toList.take (old.length + (walked vs).length + 1)

/-- The move has brought the walk to its next element. -/
def Brings (old : List Frame) (k' : Control) (us : List Task) (items : ListId) (vs : List Task) :
    Prop :=
  ∃ x f, us = [.element x] ∧ k'.phase = .proceeding ∧ k'.calls.current? = some f ∧
    f.items = items ∧ f.cursor = some x ∧
    k'.calls.depth = old.length + (walked vs).length + 1

variable {us vs : List Task} {items : ListId} {p : Nat}

/-- A walk that is behind tasks which take the place of `t` has been behind `t`. -/
theorem keeps_of_calls {t : Task} {ts : List Task} (more : List Task) (hk : k.tasks = t :: ts)
    (hm : walked more = []) (ht : more ++ ts = us ++ .walk items p :: vs)
    (hc : k'.calls = k.calls) : Keeps old k k' items p vs := by
  obtain ⟨us', hus⟩ := walk_behind hm ht
  exact ⟨t :: us', by rw [hk, hus]; rfl, .inl (List.cons_ne_nil _ _), by rw [hc]⟩

theorem keeps_of_frames {t : Task} {ts : List Task} {fs gs gs' : List Frame} (more : List Task)
    (hk : k.tasks = t :: ts) (hm : walked more = []) (ht : more ++ ts = us ++ .walk items p :: vs)
    (hf : k.calls.frames.toList = fs ++ gs) (hf' : k'.calls.frames.toList = fs ++ gs')
    (hl : fs.length = old.length + (walked ts).length) : Keeps old k k' items p vs := by
  obtain ⟨us', hus⟩ := walk_behind hm ht
  have hle := length_behind hus
  refine ⟨t :: us', by rw [hk, hus]; rfl, .inl (List.cons_ne_nil _ _), ?_⟩
  rw [hf, hf', List.take_append_of_le_length (by omega), List.take_append_of_le_length (by omega)]

theorem Aftermath.keeps {t : Task} (ha : k.Aftermath k') (h : k.Framed old)
    (hp : k.phase = .proceeding) (ht : k'.tasks = us ++ .walk items p :: vs)
    (hu : us ≠ [] ∨ k'.phase = .waiting) :
    Keeps old { k with tasks := t :: k.tasks } k' items p vs := by
  cases ha with
  | plain _ hm => exact keeps_of_calls _ rfl (walked_plain hm) ht rfl
  | @enter k₁ after l calls hprep hpush =>
    obtain ⟨inner, hf, hi⟩ := h.exact (by simp [hp])
    have hf' := CallStack.push_toList hpush
    rw [hprep.calls_eq, hf] at hf'
    cases us with
    | nil => simp [hprep.phase_eq, hp] at hu
    | cons u us =>
      refine keeps_of_frames _ rfl hprep.walked (List.cons.inj ht).2
        (by rw [List.append_nil, hf]) hf' ?_
      rw [← hf, Array.length_toList]
      exact depth_of_exact hf hi
  | refuse hprep _ => exact keeps_of_calls _ rfl hprep.walked ht hprep.calls_eq

/-- Where a walk is at an element after a move, either it was at that element before, or the move
has brought it there. -/
theorem Change.keeps_or_brings (hc : k.Change k') (h : k.Framed old)
    (ht : k'.tasks = us ++ .walk items p :: vs) (hu : us ≠ [] ∨ k'.phase = .waiting) :
    Keeps old k k' items p vs ∨ Brings old k' us items vs := by
  cases hc with
  | idle => exact .inl ⟨us, ht, hu, rfl⟩
  | woken hw => exact .inl ⟨us, ht, .inr hw, rfl⟩
  | @begun k t hw hp =>
    have hm : walked [t] = [] := hp.walked_cons []
    obtain ⟨us', hus⟩ := walk_behind hm ht
    exact .inl ⟨us', hus, .inr hw, rfl⟩
  | task hp hk ha => exact .inl (ha.keeps (h.tail hp) hk ht hu)
  | @next k l q v hp =>
    obtain ⟨fs, f, hf, hi, rfl⟩ := h.last (by simp [hp])
    have hf' := CallStack.setCursor_toList hf v
    have hl : (old ++ fs).length = old.length + (walked k.tasks).length := by
      rw [List.length_append, length_of_items hi]
    rcases us with _ | ⟨u, _ | ⟨u', us⟩⟩
    · cases ht
    · obtain ⟨rfl, ht'⟩ := List.cons.inj ht
      have ht' : Task.walk f.items (q + 1) :: k.tasks = .walk items p :: vs := ht'
      obtain ⟨hw, rfl⟩ := List.cons.inj ht'
      obtain ⟨rfl, -⟩ := Task.walk.inj hw
      refine .inr ⟨v, _, rfl, hp, CallStack.current_of_toList hf', rfl, rfl, ?_⟩
      rw [CallStack.depth, ← Array.length_toList, hf', List.length_append, hl]
      rfl
    · obtain ⟨-, ht'⟩ := List.cons.inj ht
      obtain ⟨-, ht'⟩ := List.cons.inj ht'
      exact .inl (keeps_of_frames [] rfl rfl ht' hf hf' hl)
  | ended hp =>
    obtain ⟨fs, f, hf, hi, -⟩ := h.last (by simp [hp])
    have hf' := CallStack.pop_toList hf
    refine .inl (keeps_of_frames [] rfl rfl ht hf (by rw [List.append_nil, hf']) ?_)
    rw [List.length_append, length_of_items hi]
  | leave _ => exact .inl (keeps_of_calls [] rfl rfl ht rfl)
  | answer _ _ hm => exact .inl (keeps_of_calls _ rfl (walked_plain hm) ht rfl)
  | @caught k returns depth servingBefore reply more putWords _ _ hm =>
    obtain ⟨inner, left, hf, hi, -⟩ := h.frames
    have hl : (old ++ inner).length = old.length + (walked k.tasks).length := by
      rw [List.length_append, length_of_items hi]
      rfl
    have hf' := CallStack.truncate_toList hf
    rw [hl, ← h.anchored.1] at hf'
    exact .inl (keeps_of_frames _ rfl (walked_plain hm) ht hf
      (by rw [List.append_nil]; exact hf') hl)
  | unwind _ _ _ => exact .inl (keeps_of_calls [] rfl rfl ht rfl)

/-! ## Elements that fail -/

/-- While an error unwinds the run: it has left frames, or the next walk to drop is one whose
element has failed. -/
def Failing (old : List Frame) (k : Control) : Prop :=
  old.length + (walked k.tasks).length < k.calls.depth ∨ ∃ items p vs, k.tasks = .walk items p :: vs

/-- The error has come to the walk behind `us`, whose frame is the last one. -/
def Reaches (old : List Frame) (k k' : Control) : Prop :=
  ∃ items p us vs, k.tasks = us ++ .walk items p :: vs ∧ us ≠ [] ∧
    k'.tasks = .walk items p :: vs ∧ k'.calls = k.calls ∧
    k'.calls.depth = old.length + (walked vs).length + 1

variable {e : EvalError}

theorem Framed.depth_le (h : k.Framed old) :
    old.length + (walked k.tasks).length ≤ k.calls.depth := by
  obtain ⟨inner, left, hf, hi, -⟩ := h.frames
  rw [CallStack.depth, ← Array.length_toList, hf, List.length_append, List.length_append,
    length_of_items hi]
  omega

/-- Where the frames are as many as the walks, an error is at a walk only when it reaches it. -/
theorem reaches_of_exact {t : Task} {ts : List Task} (more : List Task) (hk : k.tasks = t :: ts)
    (hk' : k'.tasks = more ++ ts) (hm : walked more = []) (hc : k'.calls = k.calls)
    (hd : k'.calls.depth = old.length + (walked ts).length) (hf : k'.Failing old) :
    Reaches old k k' := by
  rcases hf with hlt | ⟨items, p, vs, hvs⟩
  · rw [hk', walked_append, hm, List.nil_append] at hlt
    omega
  · have hts : more ++ ts = [] ++ .walk items p :: vs := hk'.symm.trans hvs
    obtain ⟨us, hus⟩ := walk_behind hm hts
    have hw : (walked (more ++ ts)).length = (walked ts).length := by
      rw [walked_append, hm, List.nil_append]
    rw [← hk', hvs, walked, List.length_cons] at hw
    exact ⟨items, p, t :: us, vs, by rw [hk, hus]; rfl, List.cons_ne_nil _ _, hvs, hc, by omega⟩

theorem Aftermath.reaches {t : Task} (ha : k.Aftermath k') (h : k.Framed old)
    (hp : k.phase = .proceeding) (hr : k'.phase = .raising e) (hf : k'.Failing old) :
    Reaches old { k with tasks := t :: k.tasks } k' := by
  obtain ⟨inner, hfr, hi⟩ := h.exact (by simp [hp])
  have hd := depth_of_exact hfr hi
  cases ha with
  | plain _ hm => exact reaches_of_exact _ rfl rfl (walked_plain hm) rfl hd hf
  | enter hprep _ =>
    rw [hprep.phase_eq, hp] at hr
    cases hr
  | refuse hprep _ =>
    exact reaches_of_exact _ rfl rfl hprep.walked hprep.calls_eq (hprep.calls_eq ▸ hd) hf

/-- An error that goes on unwinding has been at the failed element before, or reaches the walk that
was at it. -/
theorem failing_or_reaches_of_tail {t : Task} {ts : List Task} (h : k.Framed old)
    (hf : k'.Failing old) (hk : k.tasks = t :: ts) (hk' : k'.tasks = ts)
    (hw : walked (t :: ts) = walked ts) (hc : k'.calls = k.calls) :
    k.Failing old ∨ Reaches old k k' := by
  by_cases hd : old.length + (walked k.tasks).length < k.calls.depth
  · exact .inl (.inl hd)
  · have hle := h.depth_le
    rw [hk, hw] at hd hle
    exact .inr (reaches_of_exact [] hk hk' rfl hc (by rw [hc]; omega) hf)

theorem Change.failing_or_reaches (hc : k.Change k') (h : k.Framed old)
    (hr : k'.phase = .raising e) (hf : k'.Failing old) :
    k.phase = .raising e ∧ k'.calls = k.calls ∧ k.Failing old ∨ Reaches old k k' := by
  cases hc with
  | idle => exact .inl ⟨hr, rfl, hf⟩
  | woken _ => cases hr
  | begun _ _ => cases hr
  | task hp hk ha => exact .inr (ha.reaches (h.tail hp) hk hr hf)
  | next v hp => simp [hp] at hr
  | ended hp => simp [hp] at hr
  | leave _ =>
    obtain hk | hk := failing_or_reaches_of_tail h hf rfl rfl rfl rfl
    · exact .inl ⟨hr, rfl, hk⟩
    · exact .inr hk
  | answer hp _ _ => simp [hp] at hr
  | caught _ _ _ => cases hr
  | @unwind k t e he hl hcb =>
    cases t with
    | walk items p => exact .inl ⟨hr, rfl, .inr ⟨items, p, _, rfl⟩⟩
    | leaveScope => exact absurd rfl hl
    | callback returns depth serving reply => exact absurd rfl (hcb _ _ _ _)
    | _ =>
      obtain hk | hk := failing_or_reaches_of_tail h hf rfl rfl rfl rfl
      · exact .inl ⟨hr, rfl, hk⟩
      · exact .inr hk

end Control

namespace Machine

variable {rest : List Task} {old : List Frame} {start m m' : Machine} {xs : List Move}
  {items : ListId} {p : Nat} {below : List Task} {v : Value} {r : Except EvalError Unit}

/-! ## The element at which a walk is -/

/-- A run from `start` has come to the machine `m`, where the element of a walk is next, with its
frame noting the element. -/
structure Begins (rest : List Task) (start : Machine) (items : ListId) (p : Nat)
    (below : List Task) (v : Value) (m : Machine) : Prop where
  run : ∃ ys, Run rest start ys m
  status : m.status = .proceeding
  tasks : m.tasks = .element v :: .walk items p :: below
  current : ∃ f, m.interp.calls.current? = some f ∧ f.items = items ∧ f.cursor = some v

/-- In a run from `start` the element of a list was begun with the frames of `m`, what there was to
be done for it ended with the error, and the run went on to `m`. -/
def ElementFailed (rest : List Task) (start m : Machine) (items : ListId) (v : Value)
    (e : EvalError) : Prop :=
  ∃ m₁ m₂ p below, Begins rest start items p below v m₁ ∧ m₁.interp.calls = m.interp.calls ∧
    (∃ zs, Run (.walk items p :: below) m₁ zs m₂) ∧
    m₂.Returned (.walk items p :: below) (.error e) ∧ ∃ ws, Run rest m₂ ws m

/-- The walk, with the tasks `below` after it, is at an element that was begun with the first
`depth` frames of `m`. -/
def AtElement (rest : List Task) (start m : Machine) (items : ListId) (p : Nat) (below : List Task)
    (depth : Nat) : Prop :=
  ∃ v m₁, Begins rest start items p below v m₁ ∧ (∃ zs, Run (.walk items p :: below) m₁ zs m) ∧
    m.interp.calls.frames.toList.take depth = m₁.interp.calls.frames.toList

/-- The machine has come by a run from `start`; it has the frames of its walks, and each walk is at
an element that was begun in the run, or has failed. -/
structure Traced (rest : List Task) (start : Machine) (old : List Frame) (ts : List Task)
    (m : Machine) : Prop where
  run : ∃ ys, Run rest start ys m
  tasks : m.tasks = ts ++ rest
  framed : (m.control ts).Framed old
  walks : ∀ us items p vs, ts = us ++ .walk items p :: vs →
    (us ≠ [] ∨ m.status.phase = .waiting) →
    AtElement rest start m items p (vs ++ rest) (old.length + (walked vs).length + 1)
  failed : ∀ e, m.status.phase = .raising e → (m.control ts).Failing old →
    ∃ items v, ElementFailed rest start m items v e

theorem ElementFailed.move {e : EvalError} {x : Move}
    (h : ElementFailed rest start m items v e) (hn : ∀ r, ¬ m.Returned rest r)
    (hc : (m.move x).interp.calls = m.interp.calls) :
    ElementFailed rest start (m.move x) items v e := by
  obtain ⟨m₁, m₂, p, below, hb, hcalls, hrun, hret, ws, hws⟩ := h
  exact ⟨m₁, m₂, p, below, hb, by rw [hc, hcalls], hrun, hret, ws ++ [x], .snoc x hws hn⟩

/-- A walk stays at its element while there are tasks before it, or the machine waits. -/
theorem AtElement.move {x : Move} {depth : Nat} {us : List Task}
    (h : AtElement rest start m items p below depth) (ht : m.tasks = us ++ .walk items p :: below)
    (hu : us ≠ [] ∨ m.status.phase = .waiting)
    (hf : (m.move x).interp.calls.frames.toList.take depth =
      m.interp.calls.frames.toList.take depth) :
    AtElement rest start (m.move x) items p below depth := by
  obtain ⟨v, m₁, hb, ⟨zs, hz⟩, hd⟩ := h
  refine ⟨v, m₁, hb, ⟨zs ++ [x], .snoc x hz fun r hr => ?_⟩, by rw [hf, hd]⟩
  rcases hu with hne | hw
  · obtain rfl : us = [] := by simpa using ht.symm.trans hr.1
    exact hne rfl
  · exact Returned.phase hr hw

/-- Where the error reaches the walk, the element that the walk is at has failed. -/
theorem AtElement.failed {e : EvalError} {depth : Nat}
    (h : AtElement rest start m items p below depth)
    (hret : m.Returned (.walk items p :: below) (.error e)) (hd : m.interp.calls.depth = depth) :
    ∃ v, ElementFailed rest start m items v e := by
  obtain ⟨v, m₁, hb, ⟨zs, hz⟩, hf⟩ := h
  have hl : m.interp.calls.frames.toList.length = depth := by rw [← hd]; simp [CallStack.depth]
  rw [← hl, List.take_length] at hf
  have hc : m₁.interp.calls = m.interp.calls :=
    CallStack.eq_of_toList hf.symm hz.persists.limit.symm
  exact ⟨v, m₁, m, p, below, hb, hc, ⟨zs, hz⟩, hret, [], .refl m⟩

theorem Traced.move {ts : List Task} (h : Traced rest start old ts m) (x : Move)
    (hn : ∀ r, ¬ m.Returned rest r) : ∃ ts', Traced rest start old ts' (m.move x) := by
  obtain ⟨ys, hy⟩ := h.run
  obtain ⟨ts', ht', hc⟩ := move_change x h.tasks hn
  have hrun : Run rest start (ys ++ [x]) (m.move x) := .snoc x hy hn
  refine ⟨ts', ⟨_, hrun⟩, ht', hc.framed h.framed, ?_, ?_⟩
  · intro us items p vs hus hu
    obtain ⟨us₀, hus₀, hu₀, hf⟩ | ⟨v, f, rfl, hp, hcur, hi, hv, hd⟩ :=
      hc.keeps_or_brings h.framed hus hu
    · have ht : m.tasks = us₀ ++ .walk items p :: (vs ++ rest) := by
        rw [h.tasks, show ts = _ from hus₀]
        simp
      exact (h.walks us₀ items p vs hus₀ hu₀).move ht hu₀ hf
    · refine ⟨v, m.move x, ⟨⟨_, hrun⟩, status_of_proceeding hp, ?_, f, hcur, hi, hv⟩,
        ⟨[], .refl _⟩, ?_⟩
      · rw [ht', hus]
        rfl
      · rw [← hd, CallStack.depth, ← Array.length_toList]
        exact List.take_length
  · intro e he hf
    obtain ⟨he₀, hcalls, hf₀⟩ | ⟨items, p, us, vs, hus, hne, hvs, hcalls, hd⟩ :=
      hc.failing_or_reaches h.framed he hf
    · obtain ⟨items, v, hfail⟩ := h.failed e he₀ hf₀
      exact ⟨items, v, hfail.move hn hcalls⟩
    · have ht : m.tasks = us ++ .walk items p :: (vs ++ rest) := by
        rw [h.tasks, show ts = _ from hus]
        simp
      have hcalls : (m.move x).interp.calls = m.interp.calls := hcalls
      have hat := (h.walks us items p vs hus (.inl hne)).move ht (.inl hne) (by rw [hcalls])
      refine ⟨items, hat.failed ⟨?_, status_of_raising he⟩ hd⟩
      rw [ht', show ts' = _ from hvs]
      rfl

/-! ## Runs of words -/

/-- At the beginning no walk is at an element. -/
theorem Follows.traced (h : Follows rest (m.control []) m') (hp : m.status = .proceeding) :
    ∃ ts, Traced rest m' m.interp.calls.frames.toList ts m' := by
  obtain ⟨ts, ht, ha⟩ := h
  have hk : (m.control []).Framed m.interp.calls.frames.toList :=
    Control.framed_of_exact (List.append_nil _).symm rfl trivial
  have hp : (m.control []).phase = .proceeding := by simp [control, hp, Status.phase]
  have none_before {us items p vs} (h : [Task.makeDelegate] = us ++ .walk items p :: vs) :
      False := by
    have hw := congrArg walked h
    simp [walked_append, walked] at hw
  refine ⟨ts, ⟨[], .refl _⟩, ht, ha.framed hk hp, ?_, ?_⟩
  · intro us items p vs hus hu
    obtain ⟨us₀, hus₀, -⟩ := ha.keeps hk hp hus hu
    exact (none_before hus₀).elim
  · intro e he hf
    obtain ⟨items, p, us, vs, hus, -⟩ := ha.reaches hk hp he hf
    exact (none_before hus).elim

theorem Run.traced {ts : List Task} (h : Run rest m xs m') (hm : Traced rest start old ts m) :
    ∃ ts', Traced rest start old ts' m' :=
  h.induct (P := fun m => ∃ ts, Traced rest start old ts m) ⟨ts, hm⟩
    fun _ x ⟨_, h₁⟩ hn => h₁.move x hn

/-- What a run has left of frames once its tasks are over: nothing if it has succeeded, and else the
last of them notes the element that has failed. -/
theorem Traced.frames_left (h : Traced rest start old [] m) {r : Except EvalError Unit}
    (hret : m.Returned rest r) :
    ∃ left : List Frame, m.interp.calls.frames.toList = old ++ left ∧ (r = .ok () → left = []) ∧
      ∀ e, r = .error e → ∀ f, left.getLast? = some f → ∃ u, f.cursor = some u ∧
        ElementFailed rest start m f.items u e := by
  obtain ⟨inner, left, hf, hi, hleft⟩ := h.framed.frames
  obtain rfl : inner = [] := List.map_eq_nil_iff.1 hi
  rw [List.append_nil] at hf
  refine ⟨left, hf, ?_, ?_⟩
  · rintro rfl
    have hs : (m.control []).phase = .proceeding := congrArg Status.phase hret.2
    by_cases hn : left = []
    · exact hn
    · obtain ⟨e, he⟩ := hleft hn
      cases hs.symm.trans he
  · rintro e rfl f hlast
    obtain ⟨fs, rfl⟩ := List.getLast?_eq_some_iff.1 hlast
    have hmore : (m.control []).Failing old := by
      refine .inl ?_
      rw [CallStack.depth, ← Array.length_toList, hf]
      simp [walked]
    obtain ⟨items, u, hfail⟩ := h.failed e (by rw [hret.2]; rfl) hmore
    have hcur : m.interp.calls.current? = some f :=
      CallStack.current_of_toList (hf.trans (List.append_assoc _ _ _).symm)
    have hfail' := hfail
    obtain ⟨_, _, _, _, hb, hcalls, _⟩ := hfail'
    obtain ⟨f', hf', rfl, hu⟩ := hb.current
    rw [hcalls, hcur, Option.some.injEq] at hf'
    subst hf'
    exact ⟨u, hu, hfail⟩

/-- An evaluation that succeeds leaves the frames exactly as they were. One that fails leaves those
from before at the bottom; where it leaves frames of its own above them, the last of these notes the
element that has failed. -/
theorem frames_disciplined (h : m.Evaluates v xs r m') :
    (r = .ok () → m'.interp.calls = m.interp.calls) ∧
    ∀ e, r = .error e → m'.interp.calls.limit = m.interp.calls.limit ∧
      ∃ left : List Frame, m'.interp.calls.frames.toList = m.interp.calls.frames.toList ++ left ∧
        ∀ f, left.getLast? = some f → ∃ u, f.cursor = some u ∧
          ElementFailed m.tasks (m.act (Interp.walkValue v [])) m' f.items u e := by
  have hv := Interp.edits_start v m.interp
  have hw : Follows m.tasks (m.control []) (m.act (Interp.walkValue v [])) := follows_act hv rfl
  have hl : m'.interp.calls.limit = m.interp.calls.limit :=
    ((m.act_persists hv.1.persists).trans h.run.persists).limit
  obtain ⟨_, hts⟩ := hw.traced h.ready
  obtain ⟨ts, htr⟩ := h.run.traced hts
  obtain rfl : ts = [] := by simpa using htr.tasks.symm.trans h.returned.1
  obtain ⟨left, hf, hok, herror⟩ := htr.frames_left h.returned
  refine ⟨fun hr => ?_, fun e hr => ⟨hl, left, hf, herror e hr⟩⟩
  rw [hok hr, List.append_nil] at hf
  exact CallStack.eq_of_toList hf hl

theorem frames_disciplined_of_failing :
    ∃ xs m', failing.Evaluates (.symbol "f") xs (.error .stackUnderflow) m' ∧
      ∃ left : List Frame, m'.interp.calls.frames.toList = left ∧
        ∀ f, left.getLast? = some f → ∃ u, f.cursor = some u ∧
          ElementFailed [] (failing.act (Interp.walkValue (.symbol "f") [])) m' f.items u
            .stackUnderflow := by
  have hf : (failing.evaluate 20 (.symbol "f")).1 = some (.error .stackUnderflow) := rfl
  obtain ⟨xs, m', -, h, -⟩ := evaluates_of_evaluate rfl rfl hf
  obtain ⟨-, left, hleft, hlast⟩ := (frames_disciplined h).2 .stackUnderflow rfl
  exact ⟨xs, m', h, left, hleft, hlast⟩

end Machine

end WordStack
