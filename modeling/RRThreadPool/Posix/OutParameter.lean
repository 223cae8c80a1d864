import RRThreadPool.Posix.Contract

/-!
# The `message` out-parameter is never read

`pop(message, blocking)` writes `message` when it takes a message and otherwise leaves it as it
was; no operation of `MessageQueuePosix` reads it.  So two worlds that differ only in the
`message` variables of their threads stay so under every step: the deque, the flag, where each
thread stands, every `ret` and the log of returned calls never depend on those variables.

The one place the old value could leak is a return with a positive count that did not write
`message`: the `break` on a cancelled queue after a wake-up returns the `ret` of the call in
progress.  The invariant keeps that `ret` at `0`.
-/

namespace RRThreadPool

/-- A thread's locals without its `message` variable. -/
def Thread.erase (th : Thread α) : Thread Unit := ⟨th.phase, (), th.ret⟩

theorem Thread.erase_eq_iff {th th' : Thread α} :
    th.erase = th'.erase <-> th.phase = th'.phase ∧ th.ret = th'.ret := by
  simp [Thread.erase]

namespace MessageQueuePosix

/-- Two runs of a critical section that leave the same shared state, threads that differ at
most in `message`, and the same reply. -/
def SameCall (r r' : MessageQueuePosix α × Thread α) : Prop :=
  r.1 = r'.1 ∧ r.2.erase = r'.2.erase ∧ r.2.reply = r'.2.reply

section SameCall

variable (q : MessageQueuePosix α) {th th' : Thread α}

theorem loopHead_sameCall (h : th.erase = th'.erase) (hret : th.ret = 0) :
    SameCall (q.loopHead th) (q.loopHead th') := by
  obtain ⟨p, m, r⟩ := th
  obtain ⟨p', m', r'⟩ := th'
  obtain ⟨rfl, -, rfl⟩ := Thread.mk.inj h
  obtain rfl : r = 0 := hret
  unfold loopHead
  split
  · exact ⟨rfl, rfl, rfl⟩
  · split <;> exact ⟨rfl, rfl, rfl⟩

theorem pop_sameCall (h : th.erase = th'.erase) (blocking : Bool) :
    SameCall (q.pop th blocking) (q.pop th' blocking) := by
  cases blocking
  · obtain ⟨p, m, r⟩ := th
    obtain ⟨p', m', r'⟩ := th'
    obtain ⟨rfl, -, rfl⟩ := Thread.mk.inj h
    show SameCall (q.popNonBlocking _) (q.popNonBlocking _)
    unfold popNonBlocking
    split <;> exact ⟨rfl, rfl, rfl⟩
  · exact loopHead_sameCall q (by simp [Thread.erase] at h ⊢; exact h.1) rfl

theorem resume_sameCall (h : th.erase = th'.erase) (hret : th.ret = 0) :
    SameCall (q.resume th) (q.resume th') := by
  unfold resume
  split
  · obtain ⟨p, m, r⟩ := th
    obtain ⟨p', m', r'⟩ := th'
    obtain ⟨rfl, -, rfl⟩ := Thread.mk.inj h
    obtain rfl : r = 0 := hret
    exact ⟨rfl, rfl, rfl⟩
  · exact loopHead_sameCall q h hret

end SameCall

end MessageQueuePosix

namespace World

/-!
# Worlds equal up to the callers' `message` variables
-/

structure EqUpToMessages (w w' : World n α) : Prop where
  shared : w.toMessageQueuePosix = w'.toMessageQueuePosix
  log : w.log = w'.log
  threads : forall t, (w.threads t).erase = (w'.threads t).erase

section Wakes

variable {ts ts' : Fin n -> Thread α}

theorem erase_wake_congr (h : forall u, (ts u).erase = (ts' u).erase) (v u : Fin n) :
    (wake ts v u).erase = (wake ts' v u).erase := by
  by_cases hu : u = v
  · subst hu
    simp [wake, Thread.erase, (Thread.erase_eq_iff.1 (h u)).2]
  · simpa [wake, Function.update_noteq hu] using h u

theorem erase_signal_congr (h : forall u, (ts u).erase = (ts' u).erase) (pick u : Fin n) :
    (signal ts pick u).erase = (signal ts' pick u).erase := by
  have hp : forall u, (ts u).phase = (ts' u).phase := fun u => (Thread.erase_eq_iff.1 (h u)).1
  unfold signal
  simp only [hp]
  split
  · exact erase_wake_congr h pick u
  · cases (List.finRange n).find? (fun v => (ts' v).phase = .waiting) with
    | none => exact h u
    | some v => exact erase_wake_congr h v u

theorem erase_broadcast_congr (h : forall u, (ts u).erase = (ts' u).erase) (u : Fin n) :
    (broadcast ts u).erase = (broadcast ts' u).erase := by
  obtain ⟨hp, hr⟩ := Thread.erase_eq_iff.1 (h u)
  unfold broadcast
  rw [hp]
  split
  · simp [Thread.erase, hr]
  · exact h u

end Wakes

namespace EqUpToMessages

variable {w w' w'' : World n α}

theorem refl (w : World n α) : w.EqUpToMessages w :=
  ⟨rfl, rfl, fun _ => rfl⟩

theorem of_eq (h : w = w') : w.EqUpToMessages w' :=
  h ▸ refl w

theorem symm (h : w.EqUpToMessages w') : w'.EqUpToMessages w :=
  ⟨h.shared.symm, h.log.symm, fun t => (h.threads t).symm⟩

theorem trans (h : w.EqUpToMessages w') (h' : w'.EqUpToMessages w'') : w.EqUpToMessages w'' :=
  ⟨h.shared.trans h'.shared, h.log.trans h'.log, fun t => (h.threads t).trans (h'.threads t)⟩

theorem phase (h : w.EqUpToMessages w') (t : Fin n) :
    (w.threads t).phase = (w'.threads t).phase :=
  (Thread.erase_eq_iff.1 (h.threads t)).1

theorem update_message (w : World n α) (t : Fin n) (m : α) :
    w.EqUpToMessages
      { w with threads := Function.update w.threads t { w.threads t with message := m } } := by
  refine ⟨rfl, rfl, fun u => ?_⟩
  by_cases hu : u = t
  · subst hu
    simp [Thread.erase]
  · simp [Function.update_noteq hu]

theorem call (h : w.EqUpToMessages w') {t : Fin n} {blocking : Bool} {f}
    (hf : MessageQueuePosix.SameCall (f w.toMessageQueuePosix (w.threads t))
      (f w'.toMessageQueuePosix (w'.threads t))) :
    (w.call t blocking f).EqUpToMessages (w'.call t blocking f) := by
  obtain ⟨hq, hth, hreply⟩ := hf
  have hp := (Thread.erase_eq_iff.1 hth).1
  refine ⟨hq, by rw [call_log, call_log, hp, hreply, h.log], fun u => ?_⟩
  by_cases hu : u = t
  · subst hu
    simpa using hth
  · simpa [Function.update_noteq hu] using h.threads u

theorem pushBy (h : w.EqUpToMessages w') (t : Fin n) (message : α) (pick : Fin n) :
    (w.pushBy t message pick).EqUpToMessages (w'.pushBy t message pick) := by
  refine ⟨by simp [h.shared], by simp [h.log, h.shared], fun u => ?_⟩
  by_cases hu : u = t
  · subst hu
    simp [Thread.erase, h.shared, h.phase u]
  · rw [pushBy_threads_ne w t message pick hu, pushBy_threads_ne w' t message pick hu,
      ← h.shared]
    split
    · exact erase_signal_congr h.threads pick u
    · exact h.threads u

/-- One step of any thread keeps two worlds equal up to message variables, when the threads
inside the blocking loop of the first hold `ret = 0`. -/
theorem step (h : w.EqUpToMessages w')
    (hret : forall t, (w.threads t).phase ≠ .running -> (w.threads t).ret = 0) (a : Action n α) :
    (w.step a).EqUpToMessages (w'.step a) := by
  refine if hg : (w.threads a.thread).phase = a.guard then ?_ else by
    rwa [step_of_not_guard hg, step_of_not_guard (h.phase _ ▸ hg)]
  have hg' : (w'.threads a.thread).phase = a.guard := h.phase _ ▸ hg
  cases a
  all_goals simp only [Action.thread, Action.guard] at hg hg'
  case push t message pick =>
    rw [step_push hg, step_push hg']
    exact h.pushBy t message pick
  case pop t blocking =>
    rw [step_pop hg, step_pop hg']
    exact h.call (h.shared ▸ MessageQueuePosix.pop_sameCall _ (h.threads t) blocking)
  case resume t =>
    rw [step_resume hg, step_resume hg']
    exact h.call (h.shared ▸ MessageQueuePosix.resume_sameCall _ (h.threads t)
      (hret t (by simp [hg])))
  case spurious t =>
    simp only [World.step, if_pos hg, if_pos hg']
    exact ⟨h.shared, h.log, erase_wake_congr h.threads t⟩
  case cancel t =>
    rw [step_cancel hg, step_cancel hg']
    exact ⟨by rw [h.shared], by rw [h.log], erase_broadcast_congr h.threads⟩
  case size t =>
    rw [step_size hg, step_size hg']
    refine ⟨h.shared, by rw [h.log, h.shared], fun u => ?_⟩
    by_cases hu : u = t
    · subst hu
      simp [Thread.erase, h.shared, h.phase u]
    · simpa [Function.update_noteq hu] using h.threads u

end EqUpToMessages

end World

/-!
# Every run

Along every interleaving from a reachable world, the callers' `message` variables decide
nothing: changing them changes no deque, flag, phase, `ret` or logged reply.
-/

theorem message_variables_never_read {w w' : World n α} (hw : Reachable w)
    (h : w.EqUpToMessages w') (acts : List (Action n α)) :
    (w.run acts).EqUpToMessages (w'.run acts) := by
  induction acts generalizing w w' with
  | nil => exact h
  | cons a acts ih => exact ih (hw.step a) (h.step (fun t => (hw.invariant.threads t).1) a)

theorem message_variables_never_read_handoff :
    Reachable handoff ∧
    handoff.EqUpToMessages
      { handoff with
        threads := Function.update handoff.threads 0 { handoff.threads 0 with message := 5 } } ∧
    forall acts, (handoff.run acts).EqUpToMessages
      ({ handoff with
        threads := Function.update handoff.threads 0 { handoff.threads 0 with message := 5 } }.run
          acts) :=
  ⟨reachable_handoff, World.EqUpToMessages.update_message handoff 0 5,
    message_variables_never_read reachable_handoff
      (World.EqUpToMessages.update_message handoff 0 5)⟩

end RRThreadPool
