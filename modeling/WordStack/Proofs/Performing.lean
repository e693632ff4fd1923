import WordStack.Proofs.Edits
import WordStack.Proofs.Run

/-!
# What performing a task does

A task lets a word act, or it does one of the few other things that `Performs` lists: a request is
served before it, the debugger comes in before an element, a walk goes on or ends, a scope is left,
a callback is answered, or a host program runs on. Which word acts tells `word?`, and what holds of
elements and of words that leave tasks in order holds of it (`word_cases`). What a step keeps is
shown by these cases.
-/

namespace WordStack.Machine

/-- The debugger pauses the run before the next element. -/
def breaksIn (m : Machine) : Bool := m.requests.isEmpty && !m.serving && m.gate.stepNext

theorem breaksIn_iff {m : Machine} :
    m.breaksIn = true ↔ m.requests = [] ∧ m.serving = false ∧ m.gate.stepNext = true := by
  simp [breaksIn, and_assoc]

section Element

variable {m : Machine} (v : Value)

theorem element_of_request {r : Request} {requests : List Request}
    (hr : m.requests = r :: requests) :
    m.element v = ({ m with requests }.before (.element v)).serve r := by
  unfold element
  rw [hr]

theorem element_of_not_breaksIn (hr : m.requests = []) (h : m.breaksIn = false) :
    m.element v = m.act (Interp.resolve v) := by
  simp only [breaksIn, hr, List.isEmpty_nil, Bool.true_and] at h
  unfold element
  rw [hr, if_neg (by simp [h])]

/-- The debugger comes in before an element, and the element is processed after the pause. -/
theorem element_of_breaksIn (h : m.breaksIn = true) :
    m.element v = ({ m with gate := { m.gate with stepNext := false } }.before (.resolve v)).pause
      .stepping := by
  obtain ⟨hrequests, hserving, hstep⟩ := breaksIn_iff.1 h
  unfold element
  rw [hrequests, if_pos (by simp [hserving, hstep])]

end Element

variable {m : Machine} {t : Task} {word : Eval Next}

/-- The word that acts when the task is performed, if one does. -/
def word? (m : Machine) : Task → Option (Eval Next)
  | .element v => if m.requests.isEmpty && !m.breaksIn then some (Interp.resolve v) else none
  | .resolve v => some (Interp.resolve v)
  | .branch body => some (Interp.branchOn body)
  | .loop condition body => some (Interp.loopOn condition body)
  | .again condition body => some (Interp.walkValue condition [.loop condition body])
  | .countAbove height => some (Interp.countAbove height)
  | .execute name => some (Interp.executeCounted name)
  | .makeDelegate => some Interp.delegateCounted
  | .walk _ _ | .leaveScope | .callback _ _ _ _ | .member _ _ => none

/-- All that performing a task can do. -/
inductive Performs (m : Machine) : Task → Machine → Prop where
  | word {t : Task} {word : Eval Next} (h : m.word? t = some word) : Performs m t (m.act word)
  /-- Who asks is served first. -/
  | served {t : Task} {r : Request} {requests : List Request} (h : m.requests = r :: requests) :
      Performs m t (({ m with requests }.before t).serve r)
  | breaks {v : Value} (h : m.breaksIn = true) :
      Performs m (.element v)
        (({ m with gate := { m.gate with stepNext := false } }.before (.resolve v)).pause .stepping)
  | next {items : ListId} {position : Nat} (v : Value) :
      Performs m (.walk items position)
        { m with
          interp := { m.interp with calls := m.interp.calls.setCursor v }
          tasks := .element v :: .walk items (position + 1) :: m.tasks }
  | ended {items : ListId} {position : Nat} :
      Performs m (.walk items position)
        { m with interp := { m.interp with calls := m.interp.calls.pop } }
  | left : Performs m .leaveScope
      { m with interp := { m.interp with putWords := m.interp.putWords.leave } }
  | answer {returns : Option HostType} {depth : Nat} {servingBefore : Bool} {reply : Reply} :
      Performs m (.callback returns depth servingBefore reply)
        ({ m with interp := (Interp.callbackResult returns m.interp).2 }.endCallback depth
          servingBefore reply (Interp.callbackResult returns m.interp).1)
  | member {site : CallSite} {program : HostProgram (Option Value)} :
      Performs m (.member site program) (m.member site program)

theorem element_of_word {v : Value} (h : m.word? (.element v) = some word) :
    word = Interp.resolve v ∧ m.element v = m.act (Interp.resolve v) := by
  simp only [word?, Option.ite_none_right_eq_some, Bool.and_eq_true, Bool.not_eq_true',
    List.isEmpty_iff, Option.some.injEq] at h
  exact ⟨h.2.symm, element_of_not_breaksIn v h.1.1 h.1.2⟩

theorem perform_of_word (h : m.word? t = some word) : m.perform t = m.act word := by
  cases t with
  | element v =>
    obtain ⟨rfl, he⟩ := element_of_word h
    exact he
  | walk | leaveScope | callback | member => cases h
  | _ =>
    obtain rfl := Option.some.inj h
    rfl

theorem step_of_word (hs : m.status = .proceeding) {ts : List Task} (ht : m.tasks = t :: ts)
    (hw : m.word? t = some word) : m.step = { m with tasks := ts }.act word := by
  rw [step_of_proceeding hs ht, perform_of_word (m := { m with tasks := ts }) hw]

theorem performs (m : Machine) (t : Task) : m.Performs t (m.perform t) := by
  cases t with
  | element v =>
    simp only [perform, element]
    split
    · next r requests hr => exact .served hr
    · next hr =>
      split
      · next hb => exact .breaks (by simpa [breaksIn, hr] using hb)
      · next hb => exact .word (by simpa [word?, breaksIn, hr] using hb)
  | walk items position =>
    simp only [perform]
    split
    · next v _ => exact .next v
    · exact .ended
  | leaveScope => exact .left
  | callback returns depth servingBefore reply => exact .answer
  | member site program =>
    simp only [perform]
    split
    · next r requests _ hr => exact .served hr
    · exact .member
  | _ =>
    simp only [perform]
    exact .word rfl

/-- What holds of all words that leave tasks in order, and of the processing of elements, holds of
each word that acts. -/
theorem word_cases {Q : Eval Next → Prop} (h : m.word? t = some word)
    (hresolve : ∀ v, Q (Interp.resolve v)) (hw : ∀ word, ByEdits word Next.Orderly → Q word) :
    Q word := by
  cases t with
  | element v =>
    rw [(element_of_word h).1]
    exact hresolve v
  | resolve v => exact Option.some.inj h ▸ hresolve v
  | branch body => exact Option.some.inj h ▸ hw _ (Interp.edits_branchOn body)
  | loop condition body => exact Option.some.inj h ▸ hw _ (Interp.edits_loopOn condition body)
  | again condition body =>
    refine Option.some.inj h ▸ hw _ (Interp.edits_walkValue condition ?_)
    simp [Task.FollowsUp]
  | countAbove height => exact Option.some.inj h ▸ hw _ (Interp.edits_countAbove height)
  | execute name => exact Option.some.inj h ▸ hw _ (Interp.edits_executeCounted name)
  | makeDelegate => exact Option.some.inj h ▸ hw _ Interp.edits_delegateCounted
  | walk | leaveScope | callback | member => cases h

/-- What follows the walk that a word begins: what the word has left to be done, or the end of a
procedure. -/
theorem word_after (h : m.word? t = some word) {i : Interp} {items : ListId} {after : List Task}
    (ha : (word i).1 = .ok (.walk items after)) : ∀ u ∈ after, u.FollowsUp ∨ u = .leaveScope := by
  refine word_cases (Q := fun word => (word i).1 = .ok (.walk items after) →
    ∀ u ∈ after, u.FollowsUp ∨ u = .leaveScope) h (fun v ha u hu => ?_) (fun _ hw ha u hu => ?_) ha
  · obtain ⟨name, body, rfl, -, -, hb⟩ | ⟨-, ho⟩ := Interp.resolve_cases v i
    · rw [hb] at ha
      cases ha
      exact .inr (List.mem_singleton.1 hu)
    · exact .inl ((ho _ ha : Next.Orderly (.walk items after)) u hu)
  · exact .inl (((hw i).2 _ ha : Next.Orderly (.walk items after)) u hu)

end WordStack.Machine
