import RRThreadPool.Posix.Invariant

/-!
# The contract of `IMessageQueue`, in every interleaving

The documented contract of `push` and `pop` (`src/MessageQueue.h`) and the guarantees the
spec gives for capacity, cancellation and FIFO order, each proved of every reachable world of
`MessageQueuePosix`.  A `pop` call is observed at each of its critical sections: the call
itself, and every return from a wake-up.
-/

namespace RRThreadPool

open MessageQueuePosix

namespace World

/-- `a` runs a critical section of a `pop` call of thread `t` with the given `blocking`: the
call, by a running thread, or the return from `m_cond.wait`, by a woken one. -/
def PopStep (s : World n α) (t : Fin n) (blocking : Bool) : Action n α -> Prop
  | .pop u b => u = t ∧ b = blocking ∧ (s.threads t).phase = .running
  | .resume u => u = t ∧ blocking = true ∧ (s.threads t).phase = .woken
  | _ => False

variable {s : World n α} {t : Fin n} {blocking : Bool} {a : Action n α}

theorem ret_zero_of_woken (h : Invariant s) (hw : (s.threads t).phase = .woken) :
    { s.threads t with ret := 0 } = s.threads t := by
  rw [← (h.threads t).1 (by simp [hw])]

theorem popStep_log (ha : PopStep s t blocking a) :
    (s.step a).log =
      if ((s.step a).threads t).phase = .running then
        s.log ++ [(.pop blocking, ((s.step a).threads t).reply)]
      else s.log := by
  cases a with
  | pop u b =>
      obtain ⟨rfl, rfl, hrun⟩ := ha
      simp [step_pop hrun]
  | resume u =>
      obtain ⟨rfl, rfl, hw⟩ := ha
      simp [step_resume hw]
  | _ => exact ha.elim

theorem popStep_refines (h : Invariant s) (ha : PopStep s t blocking a) {f : BoundedFifo α}
    (hf : Abstracts s.toMessageQueuePosix f) :
    PopRefines s.toMessageQueuePosix f blocking { s.threads t with ret := 0 }
      ((s.step a).toMessageQueuePosix, (s.step a).threads t) := by
  cases a with
  | pop u b =>
      obtain ⟨rfl, rfl, hrun⟩ := ha
      rw [step_pop hrun]
      simpa using pop_refines hf b hrun
  | resume u =>
      obtain ⟨rfl, rfl, hw⟩ := ha
      have ho := resume_refines hf (s.threads u)
      rw [ret_zero_of_woken h hw] at ho ⊢
      rw [step_resume hw]
      simpa using ho
  | _ => exact ha.elim

/-- What a `pop` step can do: return with what the FIFO of `s` answers, or wait, as a blocking
call on an empty deque that is not cancelled, leaving the shared state and the caller's
`message` as they were. -/
theorem popStep_cases (h : Invariant s) (ha : PopStep s t blocking a) :
    (exists f f' r, Abstracts s.toMessageQueuePosix f ∧ f.pop blocking = some (f', r) ∧
      Abstracts (s.step a).toMessageQueuePosix f' ∧
      (s.step a).threads t =
        { s.threads t with
          phase := .running
          message := r.message.getD (s.threads t).message
          ret := r.count }) ∨
    ((s.step a).threads t = { s.threads t with phase := .waiting, ret := 0 } ∧ blocking = true ∧
      s.cancelled = false ∧ s.queue = [] ∧
      (s.step a).toMessageQueuePosix = s.toMessageQueuePosix) := by
  obtain ⟨f, -, hf⟩ := h.replays
  have ho := popStep_refines h ha hf
  generalize hp : ((s.step a).toMessageQueuePosix, (s.step a).threads t) = p at ho
  obtain ⟨hq, hth⟩ := Prod.mk.inj hp
  cases ho with
  | returns hpop habs => exact .inl ⟨f, _, _, hf, hpop, hq ▸ habs, hth⟩
  | waits hpop =>
      obtain ⟨hb, hnc, hnil⟩ := BoundedFifo.pop_eq_none hpop
      exact .inr ⟨hth, hb, hf.2.2.symm.trans hnc, hf.2.1.symm.trans hnil, hq⟩

theorem popStep_returns (h : Invariant s) (ha : PopStep s t blocking a)
    (hrun : ((s.step a).threads t).phase = .running) :
    exists f f' r, Abstracts s.toMessageQueuePosix f ∧ f.pop blocking = some (f', r) ∧
      Abstracts (s.step a).toMessageQueuePosix f' ∧
      (s.step a).threads t =
        { s.threads t with
          phase := .running
          message := r.message.getD (s.threads t).message
          ret := r.count } :=
  (popStep_cases h ha).resolve_right fun hw => by simp [hw.1] at hrun

theorem popStep_result (h : Invariant s) (ha : PopStep s t blocking a)
    (hrun : ((s.step a).threads t).phase = .running) :
    (0 < ((s.step a).threads t).ret ∧
        s.queue = ((s.step a).threads t).message :: (s.step a).queue ∧
        ((s.step a).threads t).ret = s.queue.length) ∨
      (((s.step a).threads t).ret = 0 ∧ (s.step a).queue = s.queue ∧
        ((s.step a).threads t).message = (s.threads t).message) := by
  obtain ⟨f, f', r, hf, hpop, hf', hth⟩ := popStep_returns h ha hrun
  rw [hth]
  rcases BoundedFifo.pop_cases hpop with ⟨rfl, rfl⟩ | ⟨m, hm, hcons, hcount⟩
  · exact .inr ⟨rfl, by rw [← hf'.2.1, hf.2.1], rfl⟩
  · have hpos : 0 < r.count := by simp [hcount, hcons]
    exact .inl ⟨hpos, by simp [hm, ← hf.2.1, ← hf'.2.1, hcons], by simp [hcount, hf.2.1]⟩

theorem popStep_waits (h : Invariant s) (ha : PopStep s t blocking a)
    (hw : ((s.step a).threads t).phase = .waiting) :
    s.queue = [] ∧ (s.step a).queue = s.queue ∧
      ((s.step a).threads t).message = (s.threads t).message := by
  rcases popStep_cases h ha with ⟨_, _, _, -, -, -, hth⟩ | ⟨hth, -, -, hnil, hq⟩
  · simp [hth] at hw
  · exact ⟨hnil, by rw [hq], by rw [hth]⟩

theorem popStep_cancelled (h : Invariant s) (ha : PopStep s t true a) (hc : s.cancelled = true) :
    ((s.step a).threads t).phase = .running ∧ ((s.step a).threads t).ret = 0 ∧
      (s.step a).queue = s.queue := by
  rcases popStep_cases h ha with ⟨f, f', r, hf, hpop, hf', hth⟩ | ⟨-, -, hnc, -⟩
  · rw [BoundedFifo.pop_of_cancelled (hf.2.2.trans hc), Option.some.injEq, Prod.mk.injEq] at hpop
    obtain ⟨rfl, rfl⟩ := hpop
    rw [hth]
    exact ⟨rfl, rfl, by rw [← hf'.2.1, hf.2.1]⟩
  · simp [hc] at hnc

theorem popStep_nil (h : Invariant s) (ha : PopStep s t blocking a) (hnil : s.queue = []) :
    (s.step a).queue = [] := by
  rcases popStep_cases h ha with ⟨f, f', r, hf, hpop, hf', -⟩ | ⟨-, -, -, -, hq⟩
  · rcases BoundedFifo.pop_cases hpop with ⟨-, rfl⟩ | ⟨m, -, hcons, -⟩
    · rw [← hf'.2.1, hf.2.1, hnil]
    · simp [hf.2.1, hnil] at hcons
  · rw [hq, hnil]

theorem popStep_nonBlocking (ha : PopStep s t false a) :
    ((s.step a).threads t).phase = .running := by
  cases a with
  | pop u b =>
      obtain ⟨rfl, rfl, hrun⟩ := ha
      rw [step_pop hrun, call_threads, Function.update_same]
      show (MessageQueuePosix.popNonBlocking _ _).2.phase = _
      unfold MessageQueuePosix.popNonBlocking
      split <;> exact hrun
  | resume u => exact absurd ha.2.1 Bool.false_ne_true
  | _ => exact ha.elim

theorem popStep_threads_ne (ha : PopStep s t blocking a) {u : Fin n} (hu : u ≠ t) :
    (s.step a).threads u = s.threads u := by
  cases a with
  | pop v b =>
      obtain ⟨rfl, rfl, hrun⟩ := ha
      rw [step_pop hrun, call_threads, Function.update_noteq hu]
  | resume v =>
      obtain ⟨rfl, rfl, hw⟩ := ha
      rw [step_resume hw, call_threads, Function.update_noteq hu]
  | _ => exact ha.elim

theorem step_stutters_or_leaves_wait_or_popStep (s : World n α) (a : Action n α) :
    s.step a = s ∨ ((s.step a).threads a.thread).phase ≠ .waiting ∨
      exists blocking, PopStep s a.thread blocking a := by
  refine if hg : (s.threads a.thread).phase = a.guard then ?_ else .inl (step_of_not_guard hg)
  cases a
  all_goals simp only [Action.thread, Action.guard] at hg ⊢
  case push => exact .inr (.inl (by simp [step_push hg, hg]))
  case pop blocking => exact .inr (.inr ⟨blocking, rfl, rfl, hg⟩)
  case resume => exact .inr (.inr ⟨true, rfl, rfl, hg⟩)
  case spurious => exact .inr (.inl (by simp [step, hg, wake]))
  case cancel t => exact .inr (.inl (by rw [step_cancel hg]; exact broadcast_not_waiting _ t))
  case size => exact .inr (.inl (by simp [step_size hg, hg]))

end World

open World

/-!
# Runs

The spec's hand-off scenario: thread `1` blocks in `pop` on an empty queue of default
capacity, thread `0` pushes `7`, which wakes it, and the woken consumer takes it.  A cancel that
releases a waiting consumer.  And a queue of capacity `2` filled by two pushes.
-/

def wokenConsumer : World 2 Nat :=
  (World.init sizeMax (Nat.le_refl _) fun _ => 0).run [.pop 1 true, .push 0 7 1]

def handoff : World 2 Nat :=
  (World.init sizeMax (Nat.le_refl _) fun _ => 0).run [.pop 1 true, .push 0 7 1, .resume 1]

def cancelledWait : World 2 Nat :=
  (World.init sizeMax (Nat.le_refl _) fun _ => 0).run [.pop 1 true, .cancel 0]

def fullQueue : World 2 Nat :=
  (World.init 2 (by decide) fun _ => 0).run [.push 0 10 0, .push 0 11 0]

theorem reachable_wokenConsumer : Reachable wokenConsumer :=
  (Reachable.init _ _ _).run _

theorem reachable_handoff : Reachable handoff :=
  (Reachable.init _ _ _).run _

theorem reachable_cancelledWait : Reachable cancelledWait :=
  (Reachable.init _ _ _).run _

theorem reachable_fullQueue : Reachable fullQueue :=
  (Reachable.init _ _ _).run _

/-!
# Refinement

Every interleaving is linearizable at its critical sections: the calls that have returned, in
lock order, are a history of the bounded FIFO, and the FIFO it reaches is the shared state.
-/

theorem posix_queue_refines_bounded_fifo {s : World n α} (hs : Reachable s) :
    exists f, (BoundedFifo.empty s.maxCapacity).Replays s.log f ∧
      f.capacity = s.maxCapacity ∧ f.contents = s.queue ∧ f.cancelled = s.cancelled :=
  hs.invariant.replays

theorem posix_queue_refines_bounded_fifo_handoff :
    Reachable handoff ∧
    exists f, (BoundedFifo.empty handoff.maxCapacity).Replays handoff.log f ∧
      f.capacity = handoff.maxCapacity ∧ f.contents = handoff.queue ∧
      f.cancelled = handoff.cancelled :=
  ⟨reachable_handoff, posix_queue_refines_bounded_fifo reachable_handoff⟩

/-!
# FIFO order, capacity, cancellation and blocking failure
-/

theorem Invariant.delivered_append_queue {s : World n α} (h : Invariant s) :
    s.delivered ++ s.queue = s.accepted := by
  obtain ⟨f, hrep, hf⟩ := h.replays
  simpa [← hf.2.1] using hrep.fifo

theorem pops_deliver_pushes_in_order {s : World n α} (hs : Reachable s) :
    s.delivered ++ s.queue = s.accepted ∧
      forall t blocking a, PopStep s t blocking a ->
        (((s.step a).threads t).phase = .running ->
          (0 < ((s.step a).threads t).ret ->
            s.queue = ((s.step a).threads t).message :: (s.step a).queue ∧
              ((s.step a).threads t).ret = s.queue.length) ∧
          (((s.step a).threads t).ret = 0 ->
            (s.step a).queue = s.queue ∧
              ((s.step a).threads t).message = (s.threads t).message)) ∧
        (((s.step a).threads t).phase = .waiting ->
          (s.step a).queue = s.queue ∧
            ((s.step a).threads t).message = (s.threads t).message) := by
  have h := hs.invariant
  refine ⟨h.delivered_append_queue, fun t blocking a ha =>
    ⟨fun hrun => ?_, fun hw => (popStep_waits h ha hw).2⟩⟩
  rcases popStep_result h ha hrun with ⟨hpos, hq, hret⟩ | ⟨hz, hq, hm⟩
  · exact ⟨fun _ => ⟨hq, hret⟩, fun hz => absurd hz (Nat.pos_iff_ne_zero.mp hpos)⟩
  · exact ⟨fun hpos => absurd hz (Nat.pos_iff_ne_zero.mp hpos), fun _ => ⟨hq, hm⟩⟩

theorem pops_deliver_pushes_in_order_fullQueue :
    Reachable fullQueue ∧ PopStep fullQueue 1 true (.pop 1 true) ∧
    ((fullQueue.step (.pop 1 true)).threads 1).ret = 2 ∧
    fullQueue.delivered ++ fullQueue.queue = fullQueue.accepted ∧
      forall t blocking a, PopStep fullQueue t blocking a ->
        (((fullQueue.step a).threads t).phase = .running ->
          (0 < ((fullQueue.step a).threads t).ret ->
            fullQueue.queue = ((fullQueue.step a).threads t).message :: (fullQueue.step a).queue ∧
              ((fullQueue.step a).threads t).ret = fullQueue.queue.length) ∧
          (((fullQueue.step a).threads t).ret = 0 ->
            (fullQueue.step a).queue = fullQueue.queue ∧
              ((fullQueue.step a).threads t).message = (fullQueue.threads t).message)) ∧
        (((fullQueue.step a).threads t).phase = .waiting ->
          (fullQueue.step a).queue = fullQueue.queue ∧
            ((fullQueue.step a).threads t).message = (fullQueue.threads t).message) :=
  ⟨reachable_fullQueue, ⟨rfl, rfl, by decide⟩, by decide,
    pops_deliver_pushes_in_order reachable_fullQueue⟩

theorem push_respects_capacity {s : World n α} (hs : Reachable s) :
    s.queue.length ≤ s.maxCapacity ∧ s.maxCapacity ≤ sizeMax ∧
      forall t message pick, (s.threads t).phase = .running ->
        let s' := s.step (.push t message pick)
        ((s'.threads t).ret = 0 <-> s.queue.length = s.maxCapacity) ∧
        ((s'.threads t).ret = 0 -> s'.queue = s.queue ∧ s'.cancelled = s.cancelled) ∧
        (0 < (s'.threads t).ret ->
          s'.queue = s.queue ++ [message] ∧ (s'.threads t).ret = s.queue.length + 1 ∧
            sizeT (s.queue.length + 1) = s.queue.length + 1) := by
  have hle := hs.invariant.length_le
  refine ⟨hle, s.maxCapacity_le, fun t message pick hrun => ?_⟩
  simp only [step_push hrun, pushBy_threads_self, pushBy_toMessageQueuePosix]
  by_cases hlt : s.queue.length < s.maxCapacity
  · have hwrap : s.queue.length + 1 ≤ sizeMax := Nat.le_trans hlt s.maxCapacity_le
    simp [MessageQueuePosix.push_of_lt message hlt, sizeT_of_le_sizeMax hwrap]
    omega
  · simp [MessageQueuePosix.push_of_not_lt message hlt]
    omega

theorem push_respects_capacity_fullQueue :
    Reachable fullQueue ∧ (fullQueue.threads 0).phase = .running ∧
    ((fullQueue.step (.push 0 12 0)).threads 0).ret = 0 ∧
    fullQueue.queue.length ≤ fullQueue.maxCapacity ∧ fullQueue.maxCapacity ≤ sizeMax ∧
      forall t message pick, (fullQueue.threads t).phase = .running ->
        let s' := fullQueue.step (.push t message pick)
        ((s'.threads t).ret = 0 <-> fullQueue.queue.length = fullQueue.maxCapacity) ∧
        ((s'.threads t).ret = 0 ->
          s'.queue = fullQueue.queue ∧ s'.cancelled = fullQueue.cancelled) ∧
        (0 < (s'.threads t).ret ->
          s'.queue = fullQueue.queue ++ [message] ∧
            (s'.threads t).ret = fullQueue.queue.length + 1 ∧
            sizeT (fullQueue.queue.length + 1) = fullQueue.queue.length + 1) :=
  ⟨reachable_fullQueue, by decide, by decide, push_respects_capacity reachable_fullQueue⟩

/-- The spec's scenario on a queue of capacity `2`: three pushes, the last one rejected, then
three non-blocking pops, the last one on the empty deque. -/
example :
    let w : World 1 Nat :=
      (World.init 2 (by decide) fun _ => 0).run
        [.push 0 1 0, .push 0 2 0, .push 0 3 0, .pop 0 false, .pop 0 false, .pop 0 false]
    w.log = [(.push 1, ⟨none, 1⟩), (.push 2, ⟨none, 2⟩), (.push 3, ⟨none, 0⟩),
      (.pop false, ⟨some 1, 2⟩), (.pop false, ⟨some 2, 1⟩),
      (.pop false, ⟨none, 0⟩)] := by
  decide

theorem cancel_releases_every_waiter {s : World n α} (hs : Reachable s) :
    (forall t acts, (s.threads t).phase = .running ->
      ((s.step (.cancel t)).run acts).toMessageQueuePosix.isCancelled = true) ∧
    (s.cancelled = true -> forall acts, (s.run acts).toMessageQueuePosix.isCancelled = true) ∧
    (s.cancelled = true -> forall t, (s.threads t).phase ≠ .waiting) ∧
    (s.cancelled = true -> forall t a, PopStep s t true a ->
      ((s.step a).threads t).phase = .running ∧ ((s.step a).threads t).ret = 0 ∧
        (s.step a).queue = s.queue) := by
  have h := hs.invariant
  exact ⟨fun t acts hrun => run_cancelled (by simp [step_cancel hrun, cancel]) acts,
    fun hc acts => run_cancelled hc acts, fun hc t => (h.threads t).2 hc,
    fun hc t a ha => popStep_cancelled h ha hc⟩

theorem cancel_releases_every_waiter_cancelledWait :
    Reachable cancelledWait ∧
    (forall t acts, (cancelledWait.threads t).phase = .running ->
      ((cancelledWait.step (.cancel t)).run acts).toMessageQueuePosix.isCancelled = true) ∧
    (cancelledWait.cancelled = true ->
      forall acts, (cancelledWait.run acts).toMessageQueuePosix.isCancelled = true) ∧
    (cancelledWait.cancelled = true -> forall t, (cancelledWait.threads t).phase ≠ .waiting) ∧
    (cancelledWait.cancelled = true -> forall t a, PopStep cancelledWait t true a ->
      ((cancelledWait.step a).threads t).phase = .running ∧
        ((cancelledWait.step a).threads t).ret = 0 ∧
        (cancelledWait.step a).queue = cancelledWait.queue) :=
  ⟨reachable_cancelledWait, cancel_releases_every_waiter reachable_cancelledWait⟩

theorem blocking_pop_fails_only_when_cancelled {s : World n α} (hs : Reachable s) :
    (forall u, (s.threads u).phase ≠ .running -> (s.threads u).ret = 0) ∧
      forall t a, PopStep s t true a ->
        let th := (s.step a).threads t
        (th.phase = .running ∨ (th.phase = .waiting ∧ s.cancelled = false ∧ s.queue = [])) ∧
        (s.cancelled = true -> th.phase = .running ∧ th.ret = 0) ∧
        (th.phase = .running ->
          (th.ret = 0 <-> s.cancelled = true) ∧
          (0 < th.ret ->
            th.ret = s.queue.length ∧ s.queue = th.message :: (s.step a).queue)) := by
  have h := hs.invariant
  refine ⟨fun u => (h.threads u).1,
    fun t a ha => ⟨?_, fun hc => ?_, fun hrun => ⟨?_, ?_⟩⟩⟩
  · rcases popStep_cases h ha with ⟨_, _, _, -, -, -, hth⟩ | ⟨hth, -, hnc, hnil, -⟩
    · exact .inl (by rw [hth])
    · exact .inr ⟨by rw [hth], hnc, hnil⟩
  · exact (popStep_cancelled h ha hc).imp_right And.left
  · obtain ⟨f, f', r, hf, hpop, -, hth⟩ := popStep_returns h ha hrun
    rw [hth, ← hf.2.2]
    exact BoundedFifo.pop_true_count_eq_zero_iff hpop
  · intro hpos
    rcases popStep_result h ha hrun with ⟨-, hq, hret⟩ | ⟨hz, -⟩
    · exact ⟨hret, hq⟩
    · exact absurd hz (Nat.pos_iff_ne_zero.mp hpos)

theorem blocking_pop_fails_only_when_cancelled_woken :
    Reachable wokenConsumer ∧ PopStep wokenConsumer 1 true (.resume 1) ∧
    ((forall u, (wokenConsumer.threads u).phase ≠ .running ->
        (wokenConsumer.threads u).ret = 0) ∧
      forall t a, PopStep wokenConsumer t true a ->
        let th := (wokenConsumer.step a).threads t
        (th.phase = .running ∨
          (th.phase = .waiting ∧ wokenConsumer.cancelled = false ∧
            wokenConsumer.queue = [])) ∧
        (wokenConsumer.cancelled = true -> th.phase = .running ∧ th.ret = 0) ∧
        (th.phase = .running ->
          (th.ret = 0 <-> wokenConsumer.cancelled = true) ∧
          (0 < th.ret -> th.ret = wokenConsumer.queue.length ∧
            wokenConsumer.queue = th.message :: (wokenConsumer.step a).queue))) ∧
    Reachable cancelledWait ∧ PopStep cancelledWait 1 true (.resume 1) ∧
    ((forall u, (cancelledWait.threads u).phase ≠ .running ->
        (cancelledWait.threads u).ret = 0) ∧
      forall t a, PopStep cancelledWait t true a ->
        let th := (cancelledWait.step a).threads t
        (th.phase = .running ∨
          (th.phase = .waiting ∧ cancelledWait.cancelled = false ∧
            cancelledWait.queue = [])) ∧
        (cancelledWait.cancelled = true -> th.phase = .running ∧ th.ret = 0) ∧
        (th.phase = .running ->
          (th.ret = 0 <-> cancelledWait.cancelled = true) ∧
          (0 < th.ret -> th.ret = cancelledWait.queue.length ∧
            cancelledWait.queue = th.message :: (cancelledWait.step a).queue))) :=
  ⟨reachable_wokenConsumer, ⟨rfl, rfl, by decide⟩,
    blocking_pop_fails_only_when_cancelled reachable_wokenConsumer,
    reachable_cancelledWait, ⟨rfl, rfl, by decide⟩,
    blocking_pop_fails_only_when_cancelled reachable_cancelledWait⟩

example :
    let w : World 2 Nat :=
      (World.init sizeMax (Nat.le_refl _) fun _ => 0).run [.pop 1 true, .push 0 7 1, .resume 1]
    (w.threads 1).phase = .running ∧ (w.threads 1).ret = 1 ∧ (w.threads 1).message = 7 ∧
      w.delivered = [7] := by
  decide

end RRThreadPool
