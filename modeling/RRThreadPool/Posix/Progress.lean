import RRThreadPool.Posix.LostWakeup

/-!
# No queued message is out of reach

A lost wake-up (`Posix/LostWakeup.lean`) can leave a message queued while a consumer sleeps,
but it never leaves the queue stuck.  In every reachable world some thread is awake while a
message is queued, and that thread alone delivers every queued message, in order: a `resume` if
it stands woken, then one non-blocking `pop` per message.

The schedule is built from what the invariant already gives: a `pop` step accepts nothing, so it
only moves messages from the deque to the delivered ones (`delivered ++ queue = accepted`).
-/

namespace RRThreadPool

namespace World

variable {s : World n α} {t : Fin n} {blocking : Bool} {a : Action n α}

theorem popStep_accepted (ha : PopStep s t blocking a) : (s.step a).accepted = s.accepted := by
  rw [accepted, accepted, popStep_log ha]
  split <;> simp [BoundedFifo.pushedMessages]

theorem popStep_delivered_append_queue (h : Invariant s) (ha : PopStep s t blocking a) :
    (s.step a).delivered ++ (s.step a).queue = s.delivered ++ s.queue := by
  rw [(h.step a).delivered_append_queue, h.delivered_append_queue, popStep_accepted ha]

theorem popStep_running (h : Invariant s) (ha : PopStep s t blocking a) (hq : s.queue ≠ []) :
    ((s.step a).threads t).phase = .running := by
  rcases popStep_cases h ha with ⟨_, _, _, -, -, -, hth⟩ | ⟨-, -, -, hnil, -⟩
  · rw [hth]
  · exact absurd hnil hq

theorem popStep_length_queue_le (h : Invariant s) (ha : PopStep s t blocking a) :
    (s.step a).queue.length ≤ s.queue.length := by
  rcases popStep_cases h ha with ⟨f, f', r, hf, hpop, hf', -⟩ | ⟨-, -, -, -, hq⟩
  · rcases BoundedFifo.pop_cases hpop with ⟨-, rfl⟩ | ⟨m, -, hcons, -⟩
    · rw [← hf'.2.1, hf.2.1]
    · simp [← hf'.2.1, ← hf.2.1, hcons]
  · rw [hq]

theorem popStep_nonBlocking_cons {m : α} {rest : List α} (h : Invariant s)
    (ha : PopStep s t false a) (hq : s.queue = m :: rest) : (s.step a).queue = rest := by
  rcases popStep_cases h ha with ⟨f, f', r, hf, hpop, hf', -⟩ | ⟨-, hb, -⟩
  · rw [BoundedFifo.pop_of_cons (by simp) (hf.2.1.trans hq)] at hpop
    cases hpop
    exact hf'.2.1.symm
  · cases hb

end World

open World

variable {s : World n α} {t : Fin n}

/-- A running thread empties the deque with one non-blocking `pop` per message, and the
messages are delivered in order. -/
theorem Reachable.drain (hs : Reachable s) (hrun : (s.threads t).phase = .running) :
    (s.run (List.replicate s.queue.length (.pop t false))).queue = [] ∧
      (s.run (List.replicate s.queue.length (.pop t false))).delivered =
        s.delivered ++ s.queue := by
  generalize hq : s.queue = q
  induction q generalizing s with
  | nil => simpa using hq
  | cons m rest ih =>
      have ha : PopStep s t false (.pop t false) := ⟨rfl, rfl, hrun⟩
      have hrest := popStep_nonBlocking_cons hs.invariant ha hq
      have hmoved := popStep_delivered_append_queue hs.invariant ha
      rw [hrest, hq] at hmoved
      rw [List.length_cons, List.replicate_succ, run_cons, ← hmoved]
      exact ih (hs.step _) (popStep_nonBlocking ha) hrest

theorem queued_messages_always_deliverable (hs : Reachable s) (hq : s.queue ≠ []) :
    exists t, exists acts : List (Action n α), (forall a, a ∈ acts -> a.thread = t) ∧
      acts.length ≤ s.queue.length + 1 ∧
      (s.run acts).queue = [] ∧ (s.run acts).delivered = s.delivered ++ s.queue := by
  obtain ⟨t, ht⟩ : exists t, (s.threads t).phase ≠ .waiting :=
    not_forall.1 fun hall => hq (hs.queue_nil_of_all_waiting hall).1
  cases hp : (s.threads t).phase with
  | waiting => exact absurd hp ht
  | running => exact ⟨t, _, by simp [Action.thread], by simp, hs.drain hp⟩
  | woken =>
      have h := hs.invariant
      have ha : PopStep s t true (.resume t) := ⟨rfl, rfl, hp⟩
      obtain ⟨hnil, hdel⟩ := (hs.step (.resume t)).drain (popStep_running h ha hq)
      refine ⟨t, .resume t :: List.replicate (s.step (.resume t)).queue.length (.pop t false),
        by simp [Action.thread], by simpa using popStep_length_queue_le h ha, hnil, ?_⟩
      rw [run_cons, hdel, popStep_delivered_append_queue h ha]

theorem queued_messages_always_deliverable_lostWakeup :
    Reachable lostWakeup ∧ lostWakeup.queue ≠ [] ∧
      exists t, exists acts : List (Action 3 Nat), (forall a, a ∈ acts -> a.thread = t) ∧
        acts.length ≤ lostWakeup.queue.length + 1 ∧
        (lostWakeup.run acts).queue = [] ∧
        (lostWakeup.run acts).delivered = lostWakeup.delivered ++ lostWakeup.queue :=
  ⟨(Reachable.init _ _ _).run _, by decide,
    queued_messages_always_deliverable ((Reachable.init _ _ _).run _) (by decide)⟩

end RRThreadPool
