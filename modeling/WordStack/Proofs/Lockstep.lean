import Mathlib.Data.List.Forall2
import WordStack.Proofs.Bindings
import WordStack.Proofs.Frames
import WordStack.Proofs.Pauses
import WordStack.Proofs.Sessions

/-!
# Frames and put-scopes in step

A procedure has a frame and a scope, a walked list only a frame. They are pushed together and
dropped apart, and both again differently after an error. What relates them is the walk: each walk
of a run was begun by a machine of that run and has been there ever since (`WalkBegun`), so the run
from there on is one that ends before the walk does, and what holds of runs says of the scope that
was innermost then that it is still in its place, below one more for each procedure that has begun
inside. Where a word acts there is no such procedure inside of the innermost walk, and so frames and
scopes are in step: `Lockstep`.
-/

namespace WordStack

/-! ## Scopes in their places -/

theorem Scopes.exists_scope {b : Scopes} {n : Nat} (h : n < b.depth) :
    ∃ scope, b.scope? n = some scope := by
  unfold scope?
  split
  · exact ⟨_, rfl⟩
  · next hne =>
    have hlt : n < b.outer.size := by
      simp only [depth] at h
      omega
    exact ⟨_, by rw [Array.getElem?_eq_getElem hlt]; rfl⟩

theorem Scopes.scope?_innermost {b : Scopes} {n : Nat} (h : n + 1 = b.depth) :
    b.scope? n = some b.innermost.own := by
  rw [scope?, if_pos (Nat.succ.inj h)]

/-- In the order of their names, and without any name twice. -/
theorem Scope.toList_sorted (scope : Scope) :
    scope.toList.Pairwise fun a b => a.1 < b.1 := by
  have hordered : scope.toList.Pairwise fun a b => compare a.1 b.1 = .lt :=
    Std.TreeMap.ordered_keys_toList
  exact hordered.imp fun h => compareOfLessAndEq_eq_lt.mp h

/-! ## Tasks in front of a walk -/

/-- There is a walk for each position among the frames. -/
theorem exists_walk {ts : List Task} {i : Nat} (h : i < (walked ts).length) :
    ∃ us items p vs, ts = us ++ .walk items p :: vs ∧ (walked vs).length = i := by
  fun_induction walked ts with
  | case1 => exact absurd h (Nat.not_lt_zero i)
  | case2 items p ts ih =>
    by_cases hi : i < (walked ts).length
    · obtain ⟨us, items', p', vs, rfl, hvs⟩ := ih hi
      exact ⟨.walk items p :: us, items', p', vs, rfl, hvs⟩
    · exact ⟨[], items, p, ts, rfl, by rw [List.length_cons] at h; omega⟩
  | case3 t ts _ ih =>
    obtain ⟨us, items, p, vs, rfl, hvs⟩ := ih h
    exact ⟨t :: us, items, p, vs, rfl, hvs⟩

theorem openScopes_append (ts us : List Task) :
    openScopes (ts ++ us) = openScopes ts + openScopes us := by
  fun_induction openScopes ts with
  | case1 => simp
  | case2 ts ih => rw [List.cons_append, openScopes, ih]; omega
  | case3 t ts ht ih => rw [List.cons_append, openScopes.eq_3 _ _ ht, ih]

theorem openScopes_of_plain {ts : List Task} (h : ∀ t ∈ ts, t.Plain) : openScopes ts = 0 := by
  have hts := openScopes_plain h []
  rwa [List.append_nil] at hts

/-- Of two walks the outer one has no fewer procedures in front of it. -/
theorem openScopes_le {us us' vs vs' : List Task} {items items' : ListId} {p p' : Nat}
    (h : us ++ .walk items p :: vs = us' ++ .walk items' p' :: vs')
    (hw : (walked vs).length < (walked vs').length) : openScopes us' ≤ openScopes us := by
  obtain ⟨as, rfl, has⟩ | ⟨as, rfl, -⟩ := List.append_eq_append_iff.1 h
  · have hlen := congrArg (fun ts => (walked ts).length) has
    simp only [walked_append, walked, List.length_append, List.length_cons] at hlen
    omega
  · rw [openScopes_append]
    omega

theorem CallStack.truncate_getElem? (c : CallStack) {depth i : Nat} (h : i < depth) :
    (c.truncate depth).frames[i]? = c.frames[i]? := by
  rw [truncate, ← Array.getElem?_toList, ← Array.getElem?_toList]
  simp [h]

namespace Control

variable {k k' : Control} {us vs : List Task} {items : ListId} {p i : Nat} {f : Frame}

/-! ## One move -/

theorem Aftermath.frame_stays (ha : k.Aftermath k') (hf : k.calls.frames[i]? = some f) :
    k'.calls.frames[i]? = some f := by
  cases ha with
  | plain _ _ => exact hf
  | enter hprep hpush =>
    have hi : i < k.calls.frames.size := (Array.getElem?_eq_some_iff.1 hf).1
    rw [(CallStack.push_eq_ok hpush).1, hprep.calls_eq, Array.getElem?_push_lt hi]
    rw [← hf, Array.getElem?_eq_getElem hi]
  | refuse hprep _ => rw [hprep.calls_eq, hf]

/-- A frame that a move does not drop stays what it is, but for the element that it notes. -/
theorem Change.frame_stays (hc : k.Change k') (hf : k.calls.frames[i]? = some f)
    (hi : i < k'.calls.depth) : ∃ c, k'.calls.frames[i]? = some { f with cursor := c } := by
  cases hc with
  | idle => exact ⟨f.cursor, hf⟩
  | woken _ => exact ⟨f.cursor, hf⟩
  | begun _ _ => exact ⟨f.cursor, hf⟩
  | task _ _ ha => exact ⟨f.cursor, ha.frame_stays hf⟩
  | next v _ =>
    simp only [CallStack.setCursor, Array.getElem?_modify]
    split
    · exact ⟨some v, by rw [hf]; rfl⟩
    · exact ⟨f.cursor, hf⟩
  | ended _ =>
    simp only [CallStack.depth, CallStack.pop, Array.size_pop] at hi
    refine ⟨f.cursor, ?_⟩
    simp only [CallStack.pop, Array.getElem?_pop]
    rw [if_pos hi, hf]
  | leave _ => exact ⟨f.cursor, hf⟩
  | answer _ _ _ => exact ⟨f.cursor, hf⟩
  | @caught k returns depth _ _ _ _ _ _ _ =>
    have hlt : i < depth := by
      simp only [CallStack.depth, CallStack.truncate, Array.take_eq_extract,
        Array.size_extract] at hi
      omega
    exact ⟨f.cursor, by rw [CallStack.truncate_getElem? _ hlt, hf]⟩
  | unwind _ _ _ => exact ⟨f.cursor, hf⟩

/-- A walk has begun, with its frame, which notes the innermost scope. -/
structure Begun (k : Control) (items : ListId) (vs : List Task) : Prop where
  tasks : k.tasks = .walk items 0 :: vs
  phase : k.phase = .proceeding
  frame : ∃ fs : List Frame,
    k.calls.frames.toList = fs ++ [⟨items, none, k.putWords.depth - 1⟩]

/-- A walk that is there after a move was there before, or the move has begun it. -/
theorem Aftermath.stays_or_begun (ha : k.Aftermath k') (hp : k.phase = .proceeding)
    (ht : k'.tasks = us ++ .walk items p :: vs) :
    (∃ us, k.tasks = us ++ .walk items p :: vs) ∨ k'.Begun items vs := by
  cases ha with
  | plain _ hm => exact .inl (walk_behind (walked_plain hm) ht)
  | @enter k₁ after l calls hprep hpush =>
    cases us with
    | nil =>
      obtain ⟨hwalk, rfl⟩ := List.cons.inj ht
      obtain ⟨rfl, -⟩ := Task.walk.inj hwalk
      exact .inr ⟨rfl, hprep.phase_eq.trans hp, _, CallStack.push_toList hpush⟩
    | cons u us => exact .inl (walk_behind hprep.walked (List.cons.inj ht).2)
  | refuse hprep _ => exact .inl (walk_behind hprep.walked ht)

theorem Change.stays_or_begun (hc : k.Change k') (ht : k'.tasks = us ++ .walk items p :: vs) :
    (∃ us p, k.tasks = us ++ .walk items p :: vs) ∨ k'.Begun items vs := by
  have behind {t : Task} {ts : List Task} (hk : k.tasks = t :: ts)
      (h : ∃ us, ts = us ++ .walk items p :: vs) : ∃ us p, k.tasks = us ++ .walk items p :: vs := by
    obtain ⟨us, rfl⟩ := h
    exact ⟨t :: us, p, hk⟩
  cases hc with
  | idle => exact .inl ⟨us, p, ht⟩
  | woken _ => exact .inl ⟨us, p, ht⟩
  | @begun k t _ hp =>
    have hm : walked [t] = [] := hp.walked_cons []
    obtain ⟨us', hus⟩ := walk_behind hm ht
    exact .inl ⟨us', p, hus⟩
  | task _ hp ha => exact (ha.stays_or_begun hp ht).imp (behind rfl) id
  | @next k l q v _ =>
    cases us with
    | nil => cases (List.cons.inj ht).1
    | cons u us =>
      cases us with
      | nil =>
        obtain ⟨hwalk, rfl⟩ := List.cons.inj (List.cons.inj ht).2
        obtain ⟨rfl, -⟩ := Task.walk.inj hwalk
        exact .inl ⟨[], q, rfl⟩
      | cons u' us => exact .inl (behind rfl ⟨us, (List.cons.inj (List.cons.inj ht).2).2⟩)
  | ended _ => exact .inl (behind rfl ⟨us, ht⟩)
  | leave _ => exact .inl (behind rfl ⟨us, ht⟩)
  | answer _ _ hm => exact .inl (behind rfl (walk_behind (walked_plain hm) ht))
  | caught _ _ hm => exact .inl (behind rfl (walk_behind (walked_plain hm) ht))
  | unwind _ _ _ => exact .inl (behind rfl ⟨us, ht⟩)

end Control

namespace Machine

/-! ## Walks that go on -/

/-- The walk, with the tasks `below` after it, was begun by the machine `m₁` of the run from
`start`, with its frame at position `i`. In `m`, after the moves `zs`, it still goes on, and so it
did all the way. -/
structure WalkBegun (rest : List Task) (start : Machine) (items : ListId) (below : List Task)
    (i : Nat) (m₁ : Machine) (zs : List Move) (m : Machine) : Prop where
  before : ∃ ys, Run rest start ys m₁
  tasks : m₁.tasks = .walk items 0 :: below
  pushed : ∃ fs : List Frame, fs.length = i ∧
    m₁.interp.calls.frames.toList = fs ++ [⟨items, none, m₁.interp.putWords.depth - 1⟩]
  run : Run rest m₁ zs m
  inside : Run below m₁ zs m
  stays : Throughout (fun m₂ => (∃ us p, m₂.tasks = us ++ .walk items p :: below) ∧
    i < m₂.interp.calls.depth) m₁ zs
  frame : ∃ c, m.interp.calls.frames[i]? = some ⟨items, c, m₁.interp.putWords.depth - 1⟩

variable {rest below us ts : List Task} {start m m₁ m' : Machine} {items : ListId} {p i : Nat}
  {zs xs : List Move} {f : Frame}

/-- The scopes of a walk that goes on are those with which it began, and one more for each procedure
in front of it. -/
theorem putDepth_of_inside (h : Run below m₁ zs m) (h₁ : m₁.tasks = .walk items 0 :: below)
    (ht : m.tasks = us ++ .walk items p :: below) :
    m.interp.putWords.depth = m₁.interp.putWords.depth + openScopes us := by
  have hscoped : m₁.Scoped below m₁.interp.putWords.outer :=
    ⟨[.walk items 0], h₁, [], (List.append_nil _).symm, rfl⟩
  obtain ⟨ts, hts, inner, houter, hinner⟩ := h.scoped hscoped
  obtain rfl : ts = us ++ [.walk items p] := by
    rw [ht, List.append_cons] at hts
    exact (List.append_cancel_right hts).symm
  have hone : openScopes [.walk items p] = 0 := rfl
  have hsize := congrArg List.length houter
  simp only [control, openScopes_append, hone, Array.length_toList,
    List.length_append] at hsize hinner
  simp only [Scopes.depth]
  omega

theorem WalkBegun.move {x : Move} {us' : List Task} {p' : Nat} {k' : Control}
    (h : WalkBegun rest start items below i m₁ zs m) (hn : ∀ r, ¬ m.Returned rest r)
    (hc : (m.control ts).Change k') (hcalls : (m.move x).interp.calls = k'.calls)
    (ht : m.tasks = us ++ .walk items p :: below)
    (ht' : (m.move x).tasks = us' ++ .walk items p' :: below)
    (hi : i < (m.move x).interp.calls.depth) :
    WalkBegun rest start items below i m₁ (zs ++ [x]) (m.move x) where
  before := h.before
  tasks := h.tasks
  pushed := h.pushed
  run := .snoc x h.run hn
  inside := by
    refine .snoc x h.inside fun r hr => ?_
    have hlen := congrArg List.length (ht.symm.trans hr.1)
    simp only [List.length_append, List.length_cons] at hlen
    omega
  stays := by
    rw [throughout_snoc, ← h.run.eq_foldl]
    exact ⟨h.stays, ⟨us', p', ht'⟩, hi⟩
  frame := by
    obtain ⟨c, hf⟩ := h.frame
    rw [hcalls] at hi ⊢
    exact hc.frame_stays hf hi

/-! ## Runs -/

/-- The machine has come by a run from `start`, which had no frames; it has the frames of its walks,
each of which was begun in the run, and words act where they should. -/
structure Tracked (rest : List Task) (start : Machine) (ts : List Task) (m : Machine) : Prop where
  traced : Traced rest start [] ts m
  placed : Placed ts
  begun : ∀ us items p vs, ts = us ++ .walk items p :: vs →
    ∃ m₁ zs, WalkBegun rest start items (vs ++ rest) (walked vs).length m₁ zs m

/-- The frame of each walk is there. -/
theorem Traced.lt_depth {vs : List Task} (h : Traced rest start [] ts m)
    (ht : ts = us ++ .walk items p :: vs) : (walked vs).length < m.interp.calls.depth := by
  have hle := h.framed.depth_le
  have hlt := Control.length_behind ht
  simp only [List.length_nil, control_tasks, Nat.zero_add] at hle
  exact Nat.lt_of_lt_of_le hlt hle

/-- A walk that has just begun. -/
theorem Traced.walkBegun {vs : List Task} (h : Traced rest start [] ts m)
    (hb : (m.control ts).Begun items vs) :
    WalkBegun rest start items (vs ++ rest) (walked vs).length m [] m := by
  obtain ⟨fs, hfs⟩ := hb.frame
  have hfs : m.interp.calls.frames.toList =
      fs ++ [⟨items, none, m.interp.putWords.depth - 1⟩] := hfs
  have hts : ts = [] ++ .walk items 0 :: vs := hb.tasks
  have ht : m.tasks = .walk items 0 :: (vs ++ rest) := by rw [h.tasks, hts]; rfl
  have hlength : fs.length = (walked vs).length := by
    obtain ⟨inner, hf, hi⟩ := h.framed.exact (by simp [hb.phase])
    have hdepth := Control.depth_of_exact hf hi
    rw [CallStack.depth, ← Array.length_toList, control_tasks, hts, List.nil_append,
      walked] at hdepth
    have hsize := congrArg List.length hfs
    simp only [control, List.length_append, List.length_cons, List.length_nil] at hdepth hsize
    omega
  refine ⟨h.run, ht, ⟨fs, hlength, hfs⟩, .refl m, .refl m, ⟨⟨[], 0, ht⟩, ?_⟩, none, ?_⟩
  · exact h.lt_depth hts
  · rw [← Array.getElem?_toList, hfs, ← hlength]
    simp

theorem Tracked.move (h : Tracked rest start ts m) (x : Move) (hn : ∀ r, ¬ m.Returned rest r) :
    ∃ ts', Tracked rest start ts' (m.move x) := by
  obtain ⟨ts', htraced⟩ := h.traced.move x hn
  obtain ⟨ts₁, ht₁, hc⟩ := move_change x h.traced.tasks hn
  obtain rfl : ts₁ = ts' := List.append_cancel_right (ht₁.symm.trans htraced.tasks)
  obtain ⟨ts₂, ht₂, hplaced⟩ := PlacedOn.move ⟨ts, h.traced.tasks, h.placed⟩ x hn
  obtain rfl : ts₂ = ts₁ := List.append_cancel_right (ht₂.symm.trans ht₁)
  refine ⟨ts₂, htraced, hplaced, fun us items p vs hus => ?_⟩
  rcases hc.stays_or_begun hus with ⟨us₀, p₀, hus₀⟩ | hbegun
  · have hus₀ : ts = us₀ ++ .walk items p₀ :: vs := hus₀
    obtain ⟨m₁, zs, hwalk⟩ := h.begun us₀ items p₀ vs hus₀
    have ht : m.tasks = us₀ ++ .walk items p₀ :: (vs ++ rest) := by
      rw [h.traced.tasks, hus₀]
      simp
    have ht' : (m.move x).tasks = us ++ .walk items p :: (vs ++ rest) := by
      rw [ht₂, hus]
      simp
    exact ⟨m₁, zs ++ [x], hwalk.move hn hc rfl ht ht' (htraced.lt_depth hus)⟩
  · exact ⟨m.move x, [], htraced.walkBegun hbegun⟩

/-! ## Frames and scopes -/

/-- The frame was pushed at position `i` by a machine of the run from `start` whose innermost scope
was the one that the frame notes, and on the way from there to `m` neither the frame nor the scope
was dropped. -/
def PushedInScope (rest : List Task) (start m : Machine) (i : Nat) (f : Frame) : Prop :=
  ∃ m₁ ys zs, Run rest start ys m₁ ∧ Run rest m₁ zs m ∧ m₁.interp.calls.depth = i + 1 ∧
    m₁.interp.calls.current? = some { f with cursor := none } ∧
    m₁.interp.putWords.depth = f.putScope + 1 ∧
    Throughout (fun m₂ => i < m₂.interp.calls.depth ∧ f.putScope < m₂.interp.putWords.depth) m₁ zs

/-- The frames of a machine that has come by a run from `start`, which had none, with its
put-scopes. -/
structure Lockstep (rest : List Task) (start m : Machine) : Prop where
  nonempty : 0 < m.interp.calls.depth
  cursors : ∀ f ∈ m.interp.calls.frames, ∃ v, f.cursor = some v
  ordered : m.interp.calls.frames.toList.Pairwise fun f g => f.putScope ≤ g.putScope
  below : ∀ f ∈ m.interp.calls.frames, f.putScope < m.interp.putWords.depth
  innermost : ∀ f, m.interp.calls.current? = some f →
    f.putScope + 1 = m.interp.putWords.depth
  pushed : ∀ i f, m.interp.calls.frames[i]? = some f → PushedInScope rest start m i f

theorem WalkBegun.pushedInScope {f : Frame}
    (h : WalkBegun rest start items below i m₁ zs m) (hf : m.interp.calls.frames[i]? = some f) :
    f.putScope + 1 = m₁.interp.putWords.depth ∧ PushedInScope rest start m i f := by
  obtain ⟨c, hc⟩ := h.frame
  obtain rfl : f = ⟨items, c, m₁.interp.putWords.depth - 1⟩ := Option.some.inj (hf.symm.trans hc)
  obtain ⟨ys, hys⟩ := h.before
  obtain ⟨fs, hlength, hpushed⟩ := h.pushed
  have hpos := m₁.interp.putWords.depth_pos
  have hscope : m₁.interp.putWords.depth - 1 + 1 = m₁.interp.putWords.depth :=
    Nat.sub_add_cancel hpos
  refine ⟨hscope, m₁, ys, zs, hys, h.run, ?_, CallStack.current_of_toList hpushed, hscope.symm, ?_⟩
  · rw [CallStack.depth, ← Array.length_toList, hpushed, ← hlength, List.length_append]
    rfl
  · refine h.inside.throughout h.stays fun ys m₂ hrun hm₂ => ⟨hm₂.2, ?_⟩
    obtain ⟨⟨us, p, ht⟩, -⟩ := hm₂
    have hdepth := putDepth_of_inside hrun h.tasks ht
    dsimp only
    omega

/-- The scope of a walk's frame is below one for each procedure in front of the walk. -/
theorem Tracked.frame_of_walk {vs : List Task} (h : Tracked rest start ts m)
    (hus : ts = us ++ .walk items p :: vs)
    (hf : m.interp.calls.frames[(walked vs).length]? = some f) :
    m.interp.putWords.depth = f.putScope + 1 + openScopes us ∧
      PushedInScope rest start m (walked vs).length f := by
  obtain ⟨m₁, zs, hwalk⟩ := h.begun us items p vs hus
  obtain ⟨hscope, hpushed⟩ := hwalk.pushedInScope hf
  have ht : m.tasks = us ++ .walk items p :: (vs ++ rest) := by
    rw [h.traced.tasks, hus]
    simp
  have hput := putDepth_of_inside hwalk.inside hwalk.tasks ht
  exact ⟨by rw [hput, hscope], hpushed⟩

/-- Unless an error is unwinding the run, each frame is that of a walk. -/
theorem Tracked.walk_of_frame (h : Tracked rest start ts m) (hp : ∀ e, m.status.phase ≠ .raising e)
    (hf : m.interp.calls.frames[i]? = some f) :
    ∃ us items p vs, ts = us ++ .walk items p :: vs ∧ (walked vs).length = i := by
  obtain ⟨inner, hframes, hitems⟩ := h.traced.framed.exact hp
  have hdepth := Control.depth_of_exact hframes hitems
  have hi : i < m.interp.calls.depth := (Array.getElem?_eq_some_iff.1 hf).1
  rw [List.length_nil, Nat.zero_add, control_tasks] at hdepth
  have hi : i < (walked ts).length := Nat.lt_of_lt_of_eq hi hdepth
  exact exists_walk hi

/-- A walk with tasks in front of it has noted the element at which it is. -/
theorem Traced.cursor {vs : List Task} (h : Traced rest start [] ts m)
    (ht : ts = us ++ .walk items p :: vs) (hu : us ≠ [])
    (hf : m.interp.calls.frames[(walked vs).length]? = some f) : ∃ v, f.cursor = some v := by
  obtain ⟨v, m₁, hbegins, -, htake⟩ := h.walks us items p vs ht (.inl hu)
  obtain ⟨g, hcurrent, -, hcursor⟩ := hbegins.current
  have hi := (Array.getElem?_eq_some_iff.1 hf).1
  rw [List.length_nil, Nat.zero_add] at htake
  have hsize : m₁.interp.calls.frames.size = (walked vs).length + 1 := by
    have hlength := congrArg List.length htake
    simp only [List.length_take, Array.length_toList] at hlength
    omega
  have hg : m₁.interp.calls.frames[(walked vs).length]? = some g := by
    rwa [CallStack.current?_of_depth hsize] at hcurrent
  have hsame : m₁.interp.calls.frames[(walked vs).length]? =
      m.interp.calls.frames[(walked vs).length]? := by
    rw [← Array.getElem?_toList, ← htake, List.getElem?_take, if_pos (Nat.lt_succ_self _),
      Array.getElem?_toList]
  obtain rfl : g = f := by
    rw [hg, hf] at hsame
    exact Option.some.inj hsame
  exact ⟨v, hcursor⟩

/-- Where a word acts, frames and put-scopes are in step. -/
theorem Tracked.lockstep {t : Task} (h : Tracked rest start (t :: ts) m)
    (hs : m.status = .proceeding) (ha : t.Acts) : Lockstep rest start m := by
  have hp : ∀ e, m.status.phase ≠ .raising e := fun e => by simp [hs, Status.phase]
  obtain ⟨us, items, p, vs, hts, hus⟩ := h.placed.1 ha
  have hresting : t :: ts = (t :: us) ++ .walk items p :: vs := by rw [hts]; rfl
  have hplain : ∀ u ∈ t :: us, u.Plain := fun u hu => by
    rcases List.mem_cons.1 hu with rfl | hu
    · exact ha.plain
    · exact (hus u hu).plain
  have hlast : m.interp.calls.depth = (walked vs).length + 1 := by
    obtain ⟨inner, hframes, hitems⟩ := h.traced.framed.exact hp
    have hdepth := Control.depth_of_exact hframes hitems
    rw [List.length_nil, Nat.zero_add, control_tasks, hresting, walked_append,
      walked_plain hplain] at hdepth
    exact hdepth
  refine ⟨by omega, fun f hf => ?_, ?_, fun f hf => ?_, fun f hf => ?_, fun i f hf => ?_⟩
  · obtain ⟨i, hi⟩ := Array.getElem?_of_mem hf
    obtain ⟨us', items', p', vs', hus', rfl⟩ := h.walk_of_frame hp hi
    refine h.traced.cursor hus' ?_ hi
    rintro rfl
    obtain ⟨rfl, -⟩ := List.cons.inj hus'
    exact ha
  · -- the frame further out belongs to the walk further out, with more procedures in front of it
    rw [List.pairwise_iff_getElem]
    intro i j hi hj hij
    have hfi : m.interp.calls.frames[i]? = some m.interp.calls.frames.toList[i] := by simp
    have hfj : m.interp.calls.frames[j]? = some m.interp.calls.frames.toList[j] := by simp
    obtain ⟨us₁, items₁, p₁, vs₁, hus₁, rfl⟩ := h.walk_of_frame hp hfi
    obtain ⟨us₂, items₂, p₂, vs₂, hus₂, rfl⟩ := h.walk_of_frame hp hfj
    have hle := openScopes_le (hus₁.symm.trans hus₂) hij
    have hd₁ := (h.frame_of_walk hus₁ hfi).1
    have hd₂ := (h.frame_of_walk hus₂ hfj).1
    omega
  · obtain ⟨i, hi⟩ := Array.getElem?_of_mem hf
    obtain ⟨us', items', p', vs', hus', rfl⟩ := h.walk_of_frame hp hi
    have hdepth := (h.frame_of_walk hus' hi).1
    omega
  · -- in front of the innermost walk there are only tasks that let words act, and no procedure
    have hi : m.interp.calls.frames[(walked vs).length]? = some f := by
      rwa [CallStack.current?_of_depth hlast] at hf
    have hdepth := (h.frame_of_walk hresting hi).1
    rw [openScopes_of_plain hplain] at hdepth
    exact hdepth.symm
  · obtain ⟨us', items', p', vs', hus', rfl⟩ := h.walk_of_frame hp hf
    exact (h.frame_of_walk hus' hf).2

/-- What a move leaves as it was of frames and scopes stays in step. -/
theorem Lockstep.move {x : Move} (h : Lockstep rest start m) (hn : ∀ r, ¬ m.Returned rest r)
    (hcalls : (m.move x).interp.calls = m.interp.calls)
    (houter : (m.move x).interp.putWords.outer = m.interp.putWords.outer) :
    Lockstep rest start (m.move x) := by
  have hdepth : (m.move x).interp.putWords.depth = m.interp.putWords.depth := by
    rw [Scopes.depth, Scopes.depth, houter]
  refine ⟨?_, ?_, ?_, ?_, ?_, fun i f hf => ?_⟩
  · rw [hcalls]; exact h.nonempty
  · rw [hcalls]; exact h.cursors
  · rw [hcalls]; exact h.ordered
  · rw [hcalls, hdepth]; exact h.below
  · rw [hcalls, hdepth]; exact h.innermost
  · rw [hcalls] at hf
    obtain ⟨m₁, ys, zs, hys, hzs, hsize, hcurrent, hscope, hkept⟩ := h.pushed i f hf
    refine ⟨m₁, ys, zs ++ [x], hys, .snoc x hzs hn, hsize, hcurrent, hscope, ?_⟩
    rw [throughout_snoc, ← hzs.eq_foldl, hcalls, hdepth]
    exact ⟨hkept, (Array.getElem?_eq_some_iff.1 hf).1, h.below f (Array.mem_of_getElem? hf)⟩

/-! ## Snapshots -/

/-- The snapshot shows each frame of the interpreter, from the innermost one out, with the present
contents of the scope that it notes, in the order of their names and without any name twice; with
the innermost frame it shows the innermost scope. -/
structure ShowsScopes (s : Snapshot) (i : Interp) : Prop where
  frames : List.Forall₂ (fun view f => view.items = f.items ∧ view.cursor = f.cursor ∧
    ∃ scope, i.putWords.scope? f.putScope = some scope ∧ view.put = scope.toList ∧
      view.put.Pairwise fun a b => a.1 < b.1) s.frames i.calls.innermostFirst
  innermost : ∃ view, s.frames.head? = some view ∧ view.put = i.putWords.innermost.own.toList

theorem Lockstep.showsScopes (h : Lockstep rest start m) (running paused : Bool) :
    ShowsScopes (m.interp.snapshot running paused) m.interp where
  frames := by
    rw [Interp.snapshot, List.forall₂_map_left_iff, List.forall₂_same]
    intro f hf
    have hmem : f ∈ m.interp.calls.frames := by
      simpa [CallStack.innermostFirst] using hf
    obtain ⟨scope, hscope⟩ := Scopes.exists_scope (h.below f hmem)
    refine ⟨rfl, rfl, scope, hscope, ?_, ?_⟩
    · simp [Interp.viewFrame, hscope]
    · simp only [Interp.viewFrame, hscope, Option.map_some, Option.getD_some]
      exact scope.toList_sorted
  innermost := by
    obtain ⟨f, hf⟩ : ∃ f, m.interp.calls.current? = some f := by
      have hne : m.interp.calls.frames ≠ #[] := Array.ne_empty_of_size_pos h.nonempty
      exact Option.ne_none_iff_exists'.1 fun hnone => hne (Array.back?_eq_none_iff.1 hnone)
    refine ⟨m.interp.viewFrame f, ?_, ?_⟩
    · rw [Interp.snapshot, List.head?_map, CallStack.head?_innermostFirst, hf]
      rfl
    · simp [Interp.viewFrame, Scopes.scope?_innermost (h.innermost f hf)]

/-! ## Runs that begin without frames -/

/-- How a run begins: with the walk of a list or of a value, or with a callback. -/
inductive Starts (m : Machine) : Machine → Prop where
  | list (items : ListId) : Starts m (m.enter items [])
  | value (v : Value) : Starts m (m.act (Interp.walkValue v []))
  | callback (c : Callback) (args : Array Value) (reply : Reply) (serving : Bool) :
    Starts m (m.callback c args reply serving)

/-- A value is walked as a list: itself, or a new one of the value alone. -/
theorem act_walkValue (m : Machine) (v : Value) :
    ∃ i items, m.act (Interp.walkValue v []) = { m with interp := i }.enter items [] := by
  cases v <;> exact ⟨_, _, rfl⟩

theorem Starts.follows (h : m.Starts start) : Follows m.tasks (m.control []) start := by
  cases h with
  | list items =>
    exact follows_enter [] items (prepares_word ⟨rfl, rfl, rfl⟩ rfl (by simp)) rfl
  | value v => exact follows_act (Interp.edits_start v m.interp) rfl
  | callback c args reply serving => exact follows_callback [] c args reply serving (by simp) rfl

theorem Starts.placedOn (h : m.Starts start) : start.PlacedOn m.tasks := by
  have hnone : Placed ([] ++ []) := trivial
  cases h with
  | list items => exact placed_enter items hnone rfl
  | value v =>
    obtain ⟨i, items, hact⟩ := m.act_walkValue v
    rw [hact]
    exact placed_enter items hnone rfl
  | callback c args reply serving => exact placed_callback c args reply serving hnone rfl

theorem Starts.quiet (h : m.Starts start) (hm : m.status = .proceeding) : m.Quiet start := by
  have hp := not_atPause_of_proceeding hm
  cases h with
  | list items => exact quiet_enter hp items []
  | value v =>
    obtain ⟨i, items, hact⟩ := m.act_walkValue v
    have hq := quiet_enter (m := { m with interp := i }) hp items []
    rw [hact]
    exact ⟨hq.published, hq.running, hq.goesOn⟩
  | callback c args reply serving => exact quiet_callback hp c args reply serving

/-- A run that begins without frames. -/
theorem Starts.tracked (h : m.Starts start) (hm : m.status = .proceeding)
    (hf : m.interp.calls.frames = #[]) : ∃ ts, Tracked m.tasks start ts start := by
  obtain ⟨ts, htraced⟩ := h.follows.traced hm
  obtain ⟨ts₁, ht₁, ha⟩ := h.follows
  obtain ⟨ts₂, ht₂, hplaced⟩ := h.placedOn
  obtain rfl : ts₁ = ts := List.append_cancel_right (ht₁.symm.trans htraced.tasks)
  obtain rfl : ts₂ = ts₁ := List.append_cancel_right (ht₂.symm.trans ht₁)
  rw [hf] at htraced
  have hproceeding : (m.control []).phase = .proceeding := by simp [control, hm, Status.phase]
  refine ⟨ts₂, htraced, hplaced, fun us items p vs hus => ?_⟩
  rcases ha.stays_or_begun hproceeding hus with ⟨us₀, hus₀⟩ | hbegun
  · have hnone : [] = us₀ ++ .walk items p :: vs := hus₀
    simp at hnone
  · exact ⟨start, [], htraced.walkBegun hbegun⟩

/-- The machine has come by a run from `start`. Where it pauses, frames and scopes are in step, and
the snapshot that others see is that of the machine; else it is the one from before the run, or that
of a machine of the run where they were in step. -/
structure Observed (rest : List Task) (start : Machine) (earlier : Snapshot) (m : Machine) :
    Prop where
  tracked : ∃ ts, Tracked rest start ts m
  atPause : m.AtPause → Lockstep rest start m ∧ m.published = m.interp.snapshot m.running true
  published : m.published = earlier ∨ ∃ m₁ ys zs, Run rest start ys m₁ ∧ Run rest m₁ zs m ∧
    Lockstep rest start m₁ ∧ m.published = m₁.interp.snapshot m₁.running true

theorem Observed.move {earlier : Snapshot} (h : Observed rest start earlier m) (x : Move)
    (hn : ∀ r, ¬ m.Returned rest r) : Observed rest start earlier (m.move x) := by
  obtain ⟨ts, htracked⟩ := h.tracked
  obtain ⟨ts', htracked'⟩ := htracked.move x hn
  cases m.move_shows x with
  | same hpublished hrunning hwaits =>
    refine ⟨⟨ts', htracked'⟩, fun hp => ?_, ?_⟩
    · obtain ⟨hp, hinterp⟩ := hwaits hp
      obtain ⟨hstep, hshown⟩ := h.atPause hp
      refine ⟨hstep.move hn (by rw [hinterp]) (by rw [hinterp]), ?_⟩
      rw [hpublished, hshown, hinterp, hrunning]
    · rw [hpublished]
      rcases h.published with hsame | ⟨m₁, ys, zs, hys, hzs, hstep, hshown⟩
      · exact .inl hsame
      · exact .inr ⟨m₁, ys, zs ++ [x], hys, .snoc x hzs hn, hstep, hshown⟩
  | @paused t ts₀ hs ht ha hshown =>
    have hne : ts ≠ [] := by
      rintro rfl
      exact hn (.ok ()) ⟨htracked.traced.tasks, hs⟩
    obtain ⟨t', ts₁, rfl⟩ := List.exists_cons_of_ne_nil hne
    obtain ⟨rfl, -⟩ := List.cons.inj (ht.symm.trans htracked.traced.tasks)
    have hstep := (htracked.lockstep hs ha).move hn hshown.calls hshown.outer
    obtain ⟨ys, hys⟩ := htracked'.traced.run
    exact ⟨⟨ts', htracked'⟩, fun _ => ⟨hstep, hshown.published⟩,
      .inr ⟨m.move x, ys, [], hys, .refl _, hstep, hshown.published⟩⟩

theorem Starts.observed (hstart : m.Starts start) (hm : m.status = .proceeding)
    (hf : m.interp.calls.frames = #[]) (h : Run m.tasks start xs m') :
    Observed m.tasks start m.published m' := by
  have hquiet := hstart.quiet hm
  have hfirst : Observed m.tasks start m.published start :=
    ⟨hstart.tracked hm hf, fun hp => absurd hp hquiet.goesOn, .inl hquiet.published⟩
  exact h.induct hfirst fun _ x h₁ hn => h₁.move x hn

/-- In a run that begins without frames, frames and put-scopes are in step wherever it pauses, and
the snapshot that is published there shows each frame with its own scope. Any snapshot that is left
by the run is of a place where they were in step. -/
theorem frames_in_step (hstart : m.Starts start) (hm : m.status = .proceeding)
    (hf : m.interp.calls.frames = #[]) (h : Run m.tasks start xs m') :
    (m'.AtPause → Lockstep m.tasks start m' ∧
      m'.published = m'.interp.snapshot m'.running true ∧
      ShowsScopes m'.published m'.interp) ∧
    (m'.published = m.published ∨ ∃ m₁ ys zs, Run m.tasks start ys m₁ ∧ Run m.tasks m₁ zs m' ∧
      Lockstep m.tasks start m₁ ∧ m'.published = m₁.interp.snapshot m₁.running true ∧
      ShowsScopes m'.published m₁.interp) := by
  have hobserved := hstart.observed hm hf h
  refine ⟨fun hp => ?_, ?_⟩
  · obtain ⟨hstep, hshown⟩ := hobserved.atPause hp
    refine ⟨hstep, hshown, ?_⟩
    rw [hshown]
    exact hstep.showsScopes _ _
  · rcases hobserved.published with hsame | ⟨m₁, ys, zs, hys, hzs, hstep, hshown⟩
    · exact .inl hsame
    · refine .inr ⟨m₁, ys, zs, hys, hzs, hstep, hshown, ?_⟩
      rw [hshown]
      exact hstep.showsScopes _ _

/-- What a run finds after a reset. -/
theorem frames_reset (m : Machine) : m.reset.interp.calls.frames = #[] := rfl

/-- A machine whose procedure `f` puts a name and pauses. -/
def pausing : Machine := withProcedure [.put, .pause]
  #[.integer 1, .symbol "x", .symbol "put", .symbol "break"] .observer

theorem frames_in_step_of_pausing : ∃ start xs m',
    start = pausing.reset.act (Interp.walkValue (.symbol "f") []) ∧ Run [] start xs m' ∧
      m'.AtPause ∧ m'.interp.calls.frames.toList.map Frame.putScope = [0, 1] ∧
      Lockstep [] start m' ∧ ShowsScopes m'.published m'.interp ∧
      (m'.published.frames.map fun view => view.put.map (·.1)) = [["x"], []] := by
  have hframes : pausing.reset.interp.calls.frames = #[] := frames_reset pausing
  have hrun : Run [] (pausing.reset.act (Interp.walkValue (.symbol "f") []))
      (List.replicate 10 .step) _ := run_of_stopsInTime rfl
  have hpause : ((List.replicate 10 Move.step).foldl move
      (pausing.reset.act (Interp.walkValue (.symbol "f") []))).AtPause := .inr ⟨.breaking, rfl⟩
  obtain ⟨hstep, -, hshows⟩ := (frames_in_step (.value (.symbol "f")) rfl hframes hrun).1 hpause
  exact ⟨_, _, _, rfl, hrun, hpause, rfl, hstep, hshows, rfl⟩

end Machine

/-- Wherever the run of a session is paused, whatever has been done to the session before, others
see each frame with its own scope. -/
theorem Session.paused_in_step {s s₀ s' : Session} {fuel : Nat} {thread : ThreadId}
    {code : Option String} {xs : List Intervention} (hi : s.Idle)
    (h : s.start fuel thread code true = .ok s₀)
    (hx : xs.foldl (Session.intervene fuel) s₀ = s') (hbusy : s'.busy.isSome = true)
    (hp : s'.machine.AtPause) :
    (∃ start, Machine.Lockstep [] start s'.machine) ∧
      s'.snapshot = s'.machine.interp.snapshot s'.machine.running true ∧
      Machine.ShowsScopes s'.snapshot s'.machine.interp := by
  obtain ⟨m, items, htasks, hstatus, hframes, hruns⟩ := start_runs hi h
  have hruns' := hx ▸ hruns.interventions xs
  obtain ⟨⟨ys, hrun⟩, -⟩ := hruns' hbusy
  have hobserved := (Machine.Starts.list items).observed hstatus hframes (by rwa [htasks])
  obtain ⟨hstep, hshown⟩ := hobserved.atPause hp
  rw [htasks] at hstep
  rw [snapshot_of_busy hbusy, hshown]
  exact ⟨⟨_, hstep⟩, rfl, hstep.showsScopes _ _⟩

end WordStack
