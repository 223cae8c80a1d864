import RRThreadPool.Posix.Contract

/-!
# Lost wake-ups

`push` signals `m_cond` only when the deque goes from empty to one message.  A waiter is
released by nothing else than such a push, a `cancel`, or a spurious wake-up.  So with two
consumers waiting, a second push that lands before the first woken consumer has taken the
mutex back releases no one: once that consumer has taken its message, the other one waits
on while a message sits in the deque of an uncancelled queue.

With one consumer no wake-up is lost: it checks the deque before every wait, and the push that
makes the deque non-empty releases it, the only waiter there is.
-/

namespace RRThreadPool

namespace World

/-- Consumers released from `m_cond.wait` that have not yet taken the mutex back. -/
def wokenCount (s : World n α) : Nat :=
  (List.finRange n).countP fun t => (s.threads t).phase = .woken

theorem push_signals_iff {q : MessageQueuePosix α} (message : α) :
    (q.push message).2 = 1 <-> q.queue = [] ∧ 0 < q.maxCapacity := by
  by_cases hlt : q.queue.length < q.maxCapacity
  · rw [MessageQueuePosix.push_of_lt message hlt]
    constructor
    · intro h
      have hnil : q.queue = [] := List.eq_nil_of_length_eq_zero (by simpa using h)
      exact ⟨hnil, by simpa [hnil] using hlt⟩
    · rintro ⟨hnil, -⟩
      simp [hnil]
  · rw [MessageQueuePosix.push_of_not_lt message hlt]
    simp only [Nat.zero_ne_one, false_iff, not_and]
    rintro hnil hpos
    simp [hnil, hpos] at hlt

end World

/-- Two consumers wait on an empty queue; a producer pushes `10`, which releases consumer
`0`, and pushes `11` before consumer `0` takes the mutex back; consumer `0` then takes `10`. -/
def lostWakeup : World 3 Nat :=
  (World.init sizeMax (Nat.le_refl _) fun _ => 0).run
    [.pop 0 true, .pop 1 true, .push 2 10 0, .push 2 11 0, .resume 0]

theorem lostWakeup_strands_message :
    Reachable lostWakeup ∧ lostWakeup.cancelled = false ∧
      (lostWakeup.threads 1).phase = .waiting ∧ lostWakeup.queue = [11] ∧
      lostWakeup.wokenCount = 0 ∧ lostWakeup.wokenCount < lostWakeup.queue.length :=
  ⟨(Reachable.init _ _ _).run _, by decide⟩

/-!
# One consumer

The invariant of a run whose blocking pops are all made by one thread `u`: no other thread
waits, and `u` waits only on an empty deque.  Each kind of step keeps it, so every such run
from a fresh queue does.
-/

namespace World

/-- Only `u` waits in `pop`: every other thread runs, and `u` waits only on an empty deque. -/
def SoleConsumer (u : Fin n) (s : World n α) : Prop :=
  (forall t, t ≠ u -> (s.threads t).phase = .running) ∧
    ((s.threads u).phase = .waiting -> s.queue = [])

namespace SoleConsumer

variable {s : World n α} {u : Fin n}

theorem eq_of_not_running (h : SoleConsumer u s) {v : Fin n}
    (hv : (s.threads v).phase ≠ .running) : v = u :=
  Decidable.byContradiction fun hne => hv (h.1 v hne)

theorem pushBy (h : SoleConsumer u s) {t : Fin n} (ht : (s.threads t).phase = .running)
    (message : α) (pick : Fin n) : SoleConsumer u (s.pushBy t message pick) := by
  have hw := wakes_pushSignal s message pick
  refine ⟨fun v hv => ?_, fun hwait => ?_⟩
  · by_cases hvt : v = t
    · subst hvt
      simpa using ht
    · rw [pushBy_threads_ne s t message pick hvt, hw.eq_of_not_waiting (by simp [h.1 v hv])]
      exact h.1 v hv
  · have hut : u ≠ t := fun hut => by simp [hut, ht] at hwait
    rw [pushBy_threads_ne s t message pick hut] at hwait
    have hu : (s.threads u).phase = .waiting := by rwa [hw.eq_of_waiting hwait] at hwait
    have hnil := h.2 hu
    by_cases hsig : (s.toMessageQueuePosix.push message).2 = 1
    · rw [if_pos hsig, signal_sole_waiter hu (fun v hv => h.eq_of_not_running (by simp [hv]))]
        at hwait
      simp at hwait
    · have hcap : ¬ 0 < s.maxCapacity := fun hcap =>
        hsig ((push_signals_iff message).2 ⟨hnil, hcap⟩)
      rw [pushBy_toMessageQueuePosix,
        MessageQueuePosix.push_of_not_lt message (by simpa [hnil] using hcap)]
      exact hnil

theorem popStep (hinv : Invariant s) (h : SoleConsumer u s) {t : Fin n} {blocking : Bool}
    {a : Action n α} (ha : PopStep s t blocking a) (hb : t = u ∨ blocking = false) :
    SoleConsumer u (s.step a) := by
  refine ⟨fun v hv => ?_, fun hwait => ?_⟩
  · by_cases hvt : v = t
    · subst hvt
      obtain rfl := hb.resolve_left hv
      exact popStep_nonBlocking ha
    · rw [popStep_threads_ne ha hvt]
      exact h.1 v hv
  · by_cases hut : u = t
    · subst hut
      obtain ⟨hnil, hq, -⟩ := popStep_waits hinv ha hwait
      rw [hq, hnil]
    · rw [popStep_threads_ne ha hut] at hwait
      exact popStep_nil hinv ha (h.2 hwait)

theorem step (hinv : Invariant s) (h : SoleConsumer u s) (a : Action n α)
    (ha : forall t, a = .pop t true -> t = u) : SoleConsumer u (s.step a) := by
  cases a with
  | push t message pick =>
      by_cases ht : (s.threads t).phase = .running
      · rw [step_push ht]
        exact h.pushBy ht message pick
      · simpa only [World.step, if_neg ht] using h
  | pop t blocking =>
      by_cases ht : (s.threads t).phase = .running
      · refine h.popStep hinv ⟨rfl, rfl, ht⟩ ?_
        cases blocking
        · exact .inr rfl
        · exact .inl (ha t rfl)
      · simpa only [World.step, if_neg ht] using h
  | resume t =>
      by_cases ht : (s.threads t).phase = .woken
      · exact h.popStep hinv ⟨rfl, rfl, ht⟩ (.inl (h.eq_of_not_running (by simp [ht])))
      · simpa only [World.step, if_neg ht] using h
  | spurious t =>
      by_cases ht : (s.threads t).phase = .waiting
      · obtain rfl := h.eq_of_not_running (show (s.threads t).phase ≠ .running by simp [ht])
        simp only [World.step, if_pos ht]
        refine ⟨fun v hv => ?_, fun hw => ?_⟩
        · simpa [wake, Function.update_noteq hv] using h.1 v hv
        · simp [wake] at hw
      · simpa only [World.step, if_neg ht] using h
  | cancel t =>
      by_cases ht : (s.threads t).phase = .running
      · rw [step_cancel ht]
        exact ⟨fun v hv => by simp [broadcast, h.1 v hv],
          fun hw => absurd hw (broadcast_not_waiting _ u)⟩
      · simpa only [World.step, if_neg ht] using h
  | size t =>
      by_cases ht : (s.threads t).phase = .running
      · rw [step_size ht]
        refine ⟨fun v hv => ?_, fun hw => h.2 ?_⟩
        · by_cases hvt : v = t
          · subst hvt
            simpa using ht
          · simpa [Function.update_noteq hvt] using h.1 v hv
        · by_cases hut : u = t
          · subst hut
            simp [ht] at hw
          · simpa [Function.update_noteq hut] using hw
      · simpa only [World.step, if_neg ht] using h

theorem run (hs : Reachable s) (h : SoleConsumer u s) (acts : List (Action n α))
    (hacts : forall t, Action.pop t true ∈ acts -> t = u) : SoleConsumer u (s.run acts) := by
  induction acts generalizing s with
  | nil => exact h
  | cons a acts ih =>
      have hstep := h.step hs.invariant a fun t ht =>
        hacts t (by rw [← ht]; exact List.mem_cons_self _ _)
      exact ih (hs.step a) hstep fun t ht => hacts t (List.mem_cons_of_mem _ ht)

theorem init (u : Fin n) (maxCapacity : Nat) (hc : maxCapacity ≤ sizeMax)
    (messages : Fin n -> α) :
    SoleConsumer u (World.init maxCapacity hc messages) :=
  ⟨fun _ _ => rfl, fun h => by simp [World.init] at h⟩

end SoleConsumer

end World

theorem sole_consumer_never_stranded (maxCapacity : Nat) (hc : maxCapacity ≤ sizeMax)
    (messages : Fin n -> α) (u : Fin n) (acts : List (Action n α))
    (hacts : forall t, Action.pop t true ∈ acts -> t = u) :
    (forall t, t ≠ u ->
      (((World.init maxCapacity hc messages).run acts).threads t).phase = .running) ∧
    ((((World.init maxCapacity hc messages).run acts).threads u).phase = .waiting ->
      ((World.init maxCapacity hc messages).run acts).queue = []) :=
  (World.SoleConsumer.init u maxCapacity hc messages).run (Reachable.init _ _ _) acts hacts

/-- Consumer `1` waits, takes the two messages that thread `0` pushes, and waits again. -/
def soleConsumerActs : List (Action 2 Nat) :=
  [.pop 1 true, .push 0 7 0, .push 0 8 0, .resume 1, .pop 1 true, .pop 1 true]

theorem sole_consumer_never_stranded_soleConsumerActs :
    (forall t, Action.pop t true ∈ soleConsumerActs -> t = 1) ∧
    (((World.init sizeMax (Nat.le_refl _) fun _ => 0).run soleConsumerActs).threads 1).phase =
      .waiting ∧
    (forall t, t ≠ 1 ->
      (((World.init sizeMax (Nat.le_refl _) fun _ => 0).run soleConsumerActs).threads t).phase =
        .running) ∧
    ((((World.init sizeMax (Nat.le_refl _) fun _ => 0).run soleConsumerActs).threads 1).phase =
        .waiting ->
      ((World.init sizeMax (Nat.le_refl _) fun _ => 0).run soleConsumerActs).queue = []) :=
  ⟨by decide, by decide, sole_consumer_never_stranded _ _ _ 1 soleConsumerActs (by decide)⟩

/-!
# Every thread asleep

A thread goes to sleep only on an empty deque of an uncancelled queue, and a sleeping thread
changes nothing.  So when every thread is blocked in `m_cond.wait`, the last one to go found the
deque empty, no message has come in since, and the queue is not cancelled: a lost wake-up can
strand a message only while some thread is awake.
-/

theorem Reachable.queue_nil_of_all_waiting {s : World n α} (hs : Reachable s)
    (hall : forall t, (s.threads t).phase = .waiting) : s.queue = [] ∧ s.cancelled = false := by
  induction hs with
  | init => exact ⟨rfl, rfl⟩
  | step a hs ih =>
      rcases World.step_stutters_or_leaves_wait_or_popStep _ a with hst | hnw | ⟨b, ha⟩
      · rw [hst] at hall ⊢
        exact ih hall
      · exact absurd (hall _) hnw
      · rcases World.popStep_cases hs.invariant ha with
          ⟨_, _, _, -, -, -, hth⟩ | ⟨-, -, hnc, hnil, hq⟩
        · have hw := hall a.thread
          rw [hth] at hw
          cases hw
        · rw [hq]
          exact ⟨hnil, hnc⟩

theorem all_waiting_only_on_empty_queue {s : World n α} (hs : Reachable s)
    (hall : forall t, (s.threads t).phase = .waiting) : s.queue = [] ∧ s.cancelled = false :=
  hs.queue_nil_of_all_waiting hall

/-- Two consumers wait on an empty queue. -/
def bothWaiting : World 2 Nat :=
  (World.init sizeMax (Nat.le_refl _) fun _ => 0).run [.pop 0 true, .pop 1 true]

theorem all_waiting_only_on_empty_queue_bothWaiting :
    Reachable bothWaiting ∧ (forall t, (bothWaiting.threads t).phase = .waiting) ∧
      bothWaiting.queue = [] ∧ bothWaiting.cancelled = false :=
  ⟨(Reachable.init _ _ _).run _, by decide,
    all_waiting_only_on_empty_queue ((Reachable.init _ _ _).run _) (by decide)⟩

end RRThreadPool
