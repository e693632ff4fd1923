import WordStack.Interp.Start
import WordStack.Proofs.Performing

/-!
# What no move changes

Whatever a run does, the setting of the interpreter, its program, the limit of its frames and the
scopes around the innermost set-scope stay, and a word that is set stays set: `Persists`, for one
move in `move_persists` and for a run in `Run.persists`.
-/

namespace WordStack

/-- What stays of an interpreter while a program runs. -/
structure Interp.Persists (i i' : Interp) : Prop where
  setting : i'.setting = i.setting
  root : i'.root = i.root
  code : i'.code = i.code
  limit : i'.calls.limit = i.calls.limit
  setOuter : i'.setWords.outer = i.setWords.outer
  isSet : ∀ name, i.setWords.contains name = true → i'.setWords.contains name = true

namespace Interp

theorem Persists.refl (i : Interp) : Persists i i := ⟨rfl, rfl, rfl, rfl, rfl, fun _ h => h⟩

theorem Persists.trans {i j k : Interp} (h : Persists i j) (h' : Persists j k) : Persists i k :=
  ⟨h'.setting.trans h.setting, h'.root.trans h.root, h'.code.trans h.code,
    h'.limit.trans h.limit, h'.setOuter.trans h.setOuter,
    fun name hn => h'.isSet name (h.isSet name hn)⟩

end Interp

theorem Scopes.contains_set {b : Scopes} {name other : String} {v : Value}
    (h : b.contains other = true) : (b.set name v).contains other = true := by
  unfold contains at *
  rw [get?_set]
  split
  · rfl
  · exact h

theorem CallStack.push_limit (c : CallStack) (items : ListId) (putScope : Nat) :
    (c.push items putScope).2.limit = c.limit := by
  unfold push
  split <;> rfl

theorem Edits.persists {i i' : Interp} (h : Edits i i') : i.Persists i' :=
  h.keeps Interp.Persists.refl Interp.Persists.trans fun he => by
    cases he with
    | setWord name v => exact ⟨rfl, rfl, rfl, rfl, rfl, fun _ h => Scopes.contains_set h⟩
    | _ => exact ⟨rfl, rfl, rfl, rfl, rfl, fun _ h => h⟩

/-- An element is processed, and what stays, stays. -/
theorem Interp.resolve_persists (v : Value) (i : Interp) : i.Persists (resolve v i).2 := by
  obtain ⟨name, body, -, -, -, hr⟩ | ⟨he, -⟩ := resolve_cases v i
  · rw [hr]
    exact ⟨rfl, rfl, rfl, rfl, rfl, fun _ h => h⟩
  · exact he.persists

namespace Interp

/-! ## A new interpreter -/

theorem persists_bind {α β : Type} {x : Eval α} {f : α → Eval β}
    (hx : ∀ i, Persists i (x i).2) (hf : ∀ a i, Persists i (f a i).2) (i : Interp) :
    Persists i ((x >>= f) i).2 := by
  have h := hx i
  rw [bind_apply]
  split
  · next a i' hi =>
    rw [hi] at h
    exact h.trans (hf a i')
  · next e i' hi =>
    rw [hi] at h
    exact h

theorem bindWords_persists (i : Interp) : i.Persists (bindWords i).2 := by
  have edits {α : Type} {act : Eval α} (h : JustEdits act) (i : Interp) : i.Persists (act i).2 :=
    (h i).1.persists
  refine persists_bind (edits (edits_forM (fun p => edits_bindSet _ _) _)) (fun _ => ?_) i
  refine persists_bind (edits (edits_forM (fun op => edits_bindSet _ _) _)) fun _ => ?_
  refine persists_bind (edits (edits_bindSet _ _)) fun _ => ?_
  refine persists_bind (edits (edits_bindSet _ _)) fun _ => ?_
  refine persists_bind (edits JustEdits.get) fun _ => ?_
  refine persists_bind (fun _ => ⟨rfl, rfl, rfl, rfl, rfl, fun _ h => h⟩) fun _ => ?_
  refine persists_bind (edits (edits_bindSet _ _)) fun _ => ?_
  refine persists_bind (edits (edits_bindSet _ _)) fun _ => ?_
  exact edits (edits_forM edits_bindMember _)

theorem new_persists {c : Config} {store : Store} {i : Interp} (h : new c store = .ok i) :
    (blank c store).Persists i := by
  have ht (r : String × List String) : JustEdits (importTypes r.1 r.2) := edits_importTypes r.1 r.2
  have hr : JustEdits (c.references.forM fun r => importTypes r.1 r.2) := edits_forM ht _
  have hs := persists_bind bindWords_persists (fun _ i => (hr i).1.persists) (blank c store)
  unfold new at h
  dsimp only at h
  generalize he : (bindWords >>= fun _ => c.references.forM fun r => importTypes r.1 r.2)
    (blank c store) = out at hs h
  obtain ⟨e | ⟨⟨⟩⟩, i'⟩ := out
  · cases h
  · cases h
    exact hs

/-- A new interpreter has a single scope for the words that are set. -/
theorem new_setDepth {c : Config} {store : Store} {i : Interp} (h : new c store = .ok i) :
    i.setWords.depth = 1 := by
  rw [Scopes.depth, (new_persists h).setOuter]
  rfl

end Interp

namespace Machine

variable (m : Machine)

/-! ## What a task leaves of the interpreter -/

theorem enter_interp (items : ListId) (after : List Task) :
    (m.enter items after).interp =
      { m.interp with calls := (m.interp.calls.push items (m.interp.putWords.depth - 1)).2 } := by
  unfold enter
  rcases m.interp.calls.push items (m.interp.putWords.depth - 1) with ⟨_ | _, calls⟩ <;> rfl

theorem enter_persists (items : ListId) (after : List Task) :
    m.interp.Persists (m.enter items after).interp := by
  rw [enter_interp]
  exact ⟨rfl, rfl, rfl, CallStack.push_limit _ _ _, rfl, fun _ h => h⟩

theorem pause_interp (e : Event) : (m.pause e).interp = m.interp := by
  obtain ⟨_, _, _, serving, _, ⟨dispatch, listening, _⟩, _, _, _, _⟩ := m
  cases serving <;> cases listening <;> cases dispatch <;> rfl

theorem notify_interp (e : Event) : (m.notify e).interp = m.interp := by
  obtain ⟨_, _, _, serving, _, ⟨dispatch, listening, _⟩, _, _, _, _⟩ := m
  cases serving <;> cases listening <;> cases dispatch <;> rfl

theorem marshal_interp (call : HostCall) (keep : Bool) :
    (m.marshal call keep).interp = m.interp := by
  unfold marshal
  dsimp only
  split <;> rfl

theorem follow_persists (next : Next) : m.interp.Persists (m.follow next).interp := by
  cases next with
  | done => exact .refl _
  | walk items after => exact m.enter_persists items after
  | pause => rw [follow, pause_interp]; exact .refl _
  | write channel message => rw [follow, notify_interp]; exact .refl _
  | call call keep => rw [follow, marshal_interp]; exact .refl _

theorem act_persists {word : Eval Next} (h : m.interp.Persists (word m.interp).2) :
    m.interp.Persists (m.act word).interp := by
  unfold act
  split
  · next next i hw =>
    rw [hw] at h
    exact h.trans (follow_persists { m with interp := i } next)
  · next e i hw =>
    rw [hw] at h
    exact h

theorem deliver_interp (r : Except EvalError (Option Value)) (reply : Reply) :
    (m.deliver r reply).interp = m.interp := by
  cases reply <;> rfl

theorem callback_persists (c : Callback) (args : Array Value) (reply : Reply) (serving : Bool) :
    m.interp.Persists (m.callback c args reply serving).interp := by
  unfold callback
  split
  · dsimp only
    rw [enter_interp]
    exact ⟨rfl, rfl, rfl, CallStack.push_limit _ _ _, rfl, fun _ h => h⟩
  · rw [deliver_interp]
    exact .refl _

theorem serve_persists (r : Request) : m.interp.Persists (m.serve r).interp :=
  m.callback_persists _ _ _ _

theorem endCallback_persists (depth : Nat) (servingBefore : Bool) (reply : Reply)
    (r : Except EvalError (Option Value)) :
    m.interp.Persists (m.endCallback depth servingBefore reply r).interp := by
  unfold endCallback
  rw [deliver_interp]
  exact ⟨rfl, rfl, rfl, by cases r <;> rfl, rfl, fun _ h => h⟩

theorem member_persists (site : CallSite) (program : HostProgram (Option Value)) :
    m.interp.Persists (m.member site program).interp := by
  unfold member
  split
  · split <;> exact ⟨rfl, rfl, rfl, rfl, rfl, fun _ h => h⟩
  · exact .refl _
  · exact .refl _
  · exact ⟨rfl, rfl, rfl, rfl, rfl, fun _ h => h⟩
  · exact callback_persists _ _ _ _ _
  · unfold callbackFromMember
    split
    · exact .refl _
    · split
      · exact .refl _
      · split
        · exact .refl _
        · exact callback_persists _ _ _ _ _

/-! ## Moves and runs -/

variable {m} in
theorem word_persists {t : Task} {word : Eval Next} (h : m.word? t = some word) (i : Interp) :
    i.Persists (word i).2 :=
  word_cases (Q := fun word => i.Persists (word i).2) h
    (fun v => Interp.resolve_persists v i) fun _ hw => (hw i).1.persists

theorem perform_persists (t : Task) : m.interp.Persists (m.perform t).interp := by
  have hp := m.performs t
  generalize m.perform t = m' at hp ⊢
  cases hp with
  | word hw => exact m.act_persists (word_persists hw m.interp)
  | @served _ r requests => exact serve_persists ({ m with requests }.before t) r
  | breaks =>
    rw [pause_interp]
    exact .refl _
  | next => exact ⟨rfl, rfl, rfl, rfl, rfl, fun _ h => h⟩
  | ended => exact ⟨rfl, rfl, rfl, rfl, rfl, fun _ h => h⟩
  | left => exact ⟨rfl, rfl, rfl, rfl, rfl, fun _ h => h⟩
  | @answer returns =>
    exact (Interp.edits_callbackResult returns m.interp).1.persists.trans
      (endCallback_persists { m with interp := (Interp.callbackResult returns m.interp).2 } _ _ _ _)
  | @member site program => exact m.member_persists site program

theorem unwind_persists (e : EvalError) (t : Task) :
    m.interp.Persists (m.unwind e t).interp := by
  unfold unwind
  split
  · exact ⟨rfl, rfl, rfl, rfl, rfl, fun _ h => h⟩
  · exact m.endCallback_persists _ _ _ _
  · exact .refl _

theorem move_persists (x : Move) : m.interp.Persists (m.move x).interp := by
  cases x with
  | step =>
    simp only [move, step]
    split
    · next t tasks _ _ => exact perform_persists { m with tasks } t
    · next e t tasks _ _ => exact unwind_persists { m with tasks } e t
    · exact .refl _
  | receive =>
    simp only [move, receive, take]
    split
    · exact .refl _
    · split <;> exact .refl _
  | resume stepNext => exact .refl _
  | request r => exact .refl _
  | dropObserver =>
    simp only [move, dropObserver]
    split <;> exact .refl _

theorem Run.persists {rest : List Task} {m m' : Machine} {xs : List Move}
    (h : Run rest m xs m') : m.interp.Persists m'.interp :=
  h.induct (P := fun m₁ => m.interp.Persists m₁.interp) (.refl _)
    fun m₁ x h _ => h.trans (m₁.move_persists x)

end Machine

end WordStack
