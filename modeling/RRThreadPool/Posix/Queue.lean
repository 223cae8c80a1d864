import RRThreadPool.Abstract.BoundedFifo

/-!
# The POSIX message queue

`MessageQueuePosix` (`src/MessageQueue.cpp`) keeps a `std::deque` of messages, the capacity
given at construction and the cancellation flag, all guarded by one mutex.  This module gives
that shared state and, for every operation, the critical section it runs with the mutex held,
as a pure function of the shared state and of the calling thread's locals.

Blocking `pop` is the one operation that runs more than one critical section: its loop waits on
`m_cond`, which releases the mutex.  Its body is cut at the wait into `loopHead` (from
`while (!m_cancelled)` down to `m_cond.wait`) and `resume` (the mutex taken back after a
wake-up and the `if (m_cancelled) break;` that follows).

`std::deque::size` never exceeds `max_size() < SIZE_MAX`, so sizes are exact naturals; the one
`std::size_t` addition, `ret++` in `push`, is taken modulo `2 ^ 64`.
-/

namespace RRThreadPool

/-- `std::numeric_limits<std::size_t>::max()`, that is `2 ^ 64 - 1`, on the LP64 targets of
the POSIX backend. -/
def sizeMax : Nat := 18446744073709551615

/-- Unsigned `std::size_t` arithmetic, modulo `2 ^ 64`. -/
def sizeT (n : Nat) : Nat := n % (sizeMax + 1)

theorem sizeT_of_le_sizeMax {n : Nat} (h : n ≤ sizeMax) : sizeT n = n :=
  Nat.mod_eq_of_lt (Nat.lt_succ_of_le h)

/-- The members of `MessageQueuePosix` that its operations read and write; `m_mutex` and
`m_cond` are the scheduling that `World` makes explicit. -/
structure MessageQueuePosix (α : Type) where
  maxCapacity : Nat
  cancelled : Bool
  queue : List α
  maxCapacity_le : maxCapacity ≤ sizeMax

/-- Where a thread stands with respect to `m_cond`. -/
inductive Phase where
  | running
  | waiting
  | woken
  deriving DecidableEq, Repr

/-- A calling thread's locals: the `message` it passed to `pop` by reference, and `ret`, the
local of the call in progress or the value the last call returned. -/
structure Thread (α : Type) where
  phase : Phase
  message : α
  ret : Nat

/-- What a returning call hands back: `message` when it returns a positive count. -/
def Thread.reply (th : Thread α) : Reply α :=
  ⟨if 0 < th.ret then some th.message else none, th.ret⟩

namespace MessageQueuePosix

/-- `IMessageQueue::create`: an empty, uncancelled queue. -/
def create (maxCapacity : Nat) (h : maxCapacity ≤ sizeMax) : MessageQueuePosix α :=
  ⟨maxCapacity, false, [], h⟩

/-- `push`: append when `m_queue.size() < m_max_capacity`.  The result is `ret`: the new size,
or `0` on failure.  The caller's `m_cond.signal()` when `ret == 1` is in `World.step`. -/
def push (q : MessageQueuePosix α) (message : α) : MessageQueuePosix α × Nat :=
  let ret := q.queue.length
  if ret < q.maxCapacity then
    ({ q with queue := q.queue ++ [message] }, sizeT (ret + 1))
  else
    (q, 0)

/-- The non-blocking branch of `pop`: take the front when `ret = m_queue.size()` is positive. -/
def popNonBlocking (q : MessageQueuePosix α) (th : Thread α) :
    MessageQueuePosix α × Thread α :=
  match q.queue with
  | [] => (q, { th with ret := 0 })
  | message :: rest =>
      ({ q with queue := rest }, { th with message := message, ret := q.queue.length })

/-- The blocking loop from `while (!m_cancelled)` to `m_cond.wait`: leave with the current
`ret` when cancelled, take the front when `ret = m_queue.size()` is positive, else wait. -/
def loopHead (q : MessageQueuePosix α) (th : Thread α) : MessageQueuePosix α × Thread α :=
  if q.cancelled then
    (q, { th with phase := .running })
  else
    match q.queue with
    | [] => (q, { th with phase := .waiting, ret := 0 })
    | message :: rest =>
        ({ q with queue := rest },
          { th with phase := .running, message := message, ret := q.queue.length })

/-- `pop`: the blocking branch starts the loop with `ret = 0`. -/
def pop (q : MessageQueuePosix α) (th : Thread α) (blocking : Bool) :
    MessageQueuePosix α × Thread α :=
  if blocking then loopHead q { th with ret := 0 } else popNonBlocking q th

/-- Back from `m_cond.wait` with the mutex held: `if (m_cancelled) break;`, else the loop. -/
def resume (q : MessageQueuePosix α) (th : Thread α) : MessageQueuePosix α × Thread α :=
  if q.cancelled then (q, { th with phase := .running }) else loopHead q th

/-- `cancel`: set the flag; its `m_cond.broadcast()` is in `World.step`. -/
def cancel (q : MessageQueuePosix α) : MessageQueuePosix α :=
  { q with cancelled := true }

/-- `is_cancelled`. -/
def isCancelled (q : MessageQueuePosix α) : Bool := q.cancelled

/-- `size`. -/
def size (q : MessageQueuePosix α) : Nat := q.queue.length

/-- `f` is the FIFO that the shared state `q` stands for. -/
def Abstracts (q : MessageQueuePosix α) (f : BoundedFifo α) : Prop :=
  f.capacity = q.maxCapacity ∧ f.contents = q.queue ∧ f.cancelled = q.cancelled

theorem Abstracts.length_le {q : MessageQueuePosix α} {f : BoundedFifo α} (hq : Abstracts q f) :
    q.queue.length ≤ q.maxCapacity := by
  rw [← hq.1, ← hq.2.1]
  exact f.length_le

/-!
# Push

Below capacity the increment cannot wrap: the new size is at most `m_max_capacity`, itself a
`std::size_t`.  So `push` answers as the FIFO does.
-/

theorem push_of_lt {q : MessageQueuePosix α} (message : α)
    (h : q.queue.length < q.maxCapacity) :
    q.push message = ({ q with queue := q.queue ++ [message] }, q.queue.length + 1) := by
  have hle : q.queue.length + 1 ≤ sizeMax := Nat.le_trans h q.maxCapacity_le
  simp [push, h, sizeT_of_le_sizeMax hle]

theorem push_of_not_lt {q : MessageQueuePosix α} (message : α)
    (h : ¬ q.queue.length < q.maxCapacity) : q.push message = (q, 0) := by
  simp [push, h]

@[simp] theorem push_maxCapacity (q : MessageQueuePosix α) (message : α) :
    (q.push message).1.maxCapacity = q.maxCapacity := by
  by_cases h : q.queue.length < q.maxCapacity <;> simp [push, h]

@[simp] theorem push_cancelled (q : MessageQueuePosix α) (message : α) :
    (q.push message).1.cancelled = q.cancelled := by
  by_cases h : q.queue.length < q.maxCapacity <;> simp [push, h]

theorem push_refines {q : MessageQueuePosix α} {f : BoundedFifo α} (hq : Abstracts q f)
    (message : α) :
    Abstracts (q.push message).1 (f.push message).1 ∧
      (f.push message).2 = ⟨none, (q.push message).2⟩ := by
  obtain ⟨hcap, hlen, hc⟩ := hq
  by_cases hlt : q.queue.length < q.maxCapacity
  · have hlt' : f.contents.length < f.capacity := by rwa [hcap, hlen]
    simp [push_of_lt message hlt, BoundedFifo.push, hlt', Abstracts, hcap, hlen, hc, hlt]
  · have hlt' : ¬ f.contents.length < f.capacity := by rwa [hcap, hlen]
    simp [push_of_not_lt message hlt, BoundedFifo.push, hlt', Abstracts, hcap, hlen, hc, hlt]

theorem cancel_refines {q : MessageQueuePosix α} {f : BoundedFifo α} (hq : Abstracts q f) :
    Abstracts q.cancel f.cancel :=
  ⟨hq.1, hq.2.1, rfl⟩

/-!
# Pop

Every critical section of `pop`, on a thread whose `ret` is `0`, does what the FIFO's `pop`
does: it answers as the FIFO answers and leaves the FIFO's next state, or it goes to sleep
exactly where the FIFO cannot answer.
-/

inductive PopRefines (q : MessageQueuePosix α) (f : BoundedFifo α) (blocking : Bool)
    (th : Thread α) : MessageQueuePosix α × Thread α -> Prop where
  | returns {f' : BoundedFifo α} {r : Reply α} {q' : MessageQueuePosix α}
      (hf : f.pop blocking = some (f', r)) (hq : Abstracts q' f') :
      PopRefines q f blocking th
        (q', { th with phase := .running, message := r.message.getD th.message, ret := r.count })
  | waits (hf : f.pop blocking = none) :
      PopRefines q f blocking th (q, { th with phase := .waiting })

theorem abstracts_tail {q : MessageQueuePosix α} {f : BoundedFifo α} (hq : Abstracts q f)
    {message : α} {rest : List α} (h : f.contents = message :: rest) :
    Abstracts { q with queue := rest }
      ⟨f.capacity, rest, f.cancelled, BoundedFifo.length_le_of_cons h⟩ :=
  ⟨hq.1, rfl, hq.2.2⟩

theorem loopHead_refines {q : MessageQueuePosix α} {f : BoundedFifo α} (hq : Abstracts q f)
    (th : Thread α) :
    PopRefines q f true { th with ret := 0 } (q.loopHead { th with ret := 0 }) := by
  unfold loopHead
  split
  · exact .returns (BoundedFifo.pop_of_cancelled (hq.2.2.trans ‹_›)) hq
  · have hnc : ¬ (true = true ∧ f.cancelled = true) := by
      simpa [hq.2.2] using ‹¬q.cancelled = true›
    split
    · exact .waits (by rw [BoundedFifo.pop_of_nil hnc (hq.2.1.trans ‹_›), if_pos rfl])
    · rename_i message rest hcons
      have hf := hq.2.1.trans hcons
      have hpop : f.pop true = some (⟨f.capacity, rest, f.cancelled,
          BoundedFifo.length_le_of_cons hf⟩, ⟨some message, q.queue.length⟩) := by
        rw [BoundedFifo.pop_of_cons hnc hf, hq.2.1]
      exact .returns hpop (abstracts_tail hq hf)

theorem popNonBlocking_refines {q : MessageQueuePosix α} {f : BoundedFifo α}
    (hq : Abstracts q f) {th : Thread α} (h : th.phase = .running) :
    PopRefines q f false { th with ret := 0 } (q.popNonBlocking th) := by
  have hnc : ¬ (false = true ∧ f.cancelled = true) := by simp
  cases th
  subst h
  unfold popNonBlocking
  split
  · have hpop : f.pop false = some (f, ⟨none, 0⟩) := by
      rw [BoundedFifo.pop_of_nil hnc (hq.2.1.trans ‹_›), if_neg Bool.false_ne_true]
    exact .returns hpop hq
  · rename_i message rest hcons
    have hf := hq.2.1.trans hcons
    have hpop : f.pop false = some (⟨f.capacity, rest, f.cancelled,
        BoundedFifo.length_le_of_cons hf⟩, ⟨some message, q.queue.length⟩) := by
      rw [BoundedFifo.pop_of_cons hnc hf, hq.2.1]
    exact .returns hpop (abstracts_tail hq hf)

theorem pop_refines {q : MessageQueuePosix α} {f : BoundedFifo α} (hq : Abstracts q f)
    {th : Thread α} (blocking : Bool) (h : th.phase = .running) :
    PopRefines q f blocking { th with ret := 0 } (q.pop th blocking) := by
  cases blocking
  · exact popNonBlocking_refines hq h
  · exact loopHead_refines hq th

theorem resume_refines {q : MessageQueuePosix α} {f : BoundedFifo α} (hq : Abstracts q f)
    (th : Thread α) :
    PopRefines q f true { th with ret := 0 } (q.resume { th with ret := 0 }) := by
  unfold resume
  split
  · exact .returns (BoundedFifo.pop_of_cancelled (hq.2.2.trans ‹_›)) hq
  · exact loopHead_refines hq th

/-- A returning call hands back exactly the FIFO's reply. -/
theorem reply_of_pop {f f' : BoundedFifo α} {blocking : Bool} {r : Reply α}
    (hf : f.pop blocking = some (f', r)) (th : Thread α) :
    ({ th with phase := .running, message := r.message.getD th.message, ret := r.count } :
      Thread α).reply = r := by
  rcases BoundedFifo.pop_cases hf with ⟨rfl, -⟩ | ⟨m, hm, hcons, hcount⟩
  · rfl
  · have hpos : 0 < r.count := by simp [hcount, hcons]
    cases r
    simp_all [Thread.reply]

/-!
# Frames

A critical section of `pop` changes the deque and nothing else of the shared state.
-/

theorem loopHead_fst (q : MessageQueuePosix α) (th : Thread α) :
    exists l, (q.loopHead th).1 = { q with queue := l } := by
  unfold loopHead
  split
  · exact ⟨q.queue, rfl⟩
  · split
    · exact ⟨q.queue, rfl⟩
    · exact ⟨_, rfl⟩

theorem pop_fst (q : MessageQueuePosix α) (th : Thread α) (blocking : Bool) :
    exists l, (q.pop th blocking).1 = { q with queue := l } := by
  cases blocking
  · show exists l, (q.popNonBlocking th).1 = _
    unfold popNonBlocking
    split
    · exact ⟨q.queue, rfl⟩
    · exact ⟨_, rfl⟩
  · exact loopHead_fst q _

theorem resume_fst (q : MessageQueuePosix α) (th : Thread α) :
    exists l, (q.resume th).1 = { q with queue := l } := by
  unfold resume
  split
  · exact ⟨q.queue, rfl⟩
  · exact loopHead_fst q th

@[simp] theorem pop_maxCapacity (q : MessageQueuePosix α) (th : Thread α) (blocking : Bool) :
    (q.pop th blocking).1.maxCapacity = q.maxCapacity := by
  obtain ⟨l, hl⟩ := pop_fst q th blocking
  rw [hl]

@[simp] theorem pop_cancelled (q : MessageQueuePosix α) (th : Thread α) (blocking : Bool) :
    (q.pop th blocking).1.cancelled = q.cancelled := by
  obtain ⟨l, hl⟩ := pop_fst q th blocking
  rw [hl]

@[simp] theorem resume_maxCapacity (q : MessageQueuePosix α) (th : Thread α) :
    (q.resume th).1.maxCapacity = q.maxCapacity := by
  obtain ⟨l, hl⟩ := resume_fst q th
  rw [hl]

@[simp] theorem resume_cancelled (q : MessageQueuePosix α) (th : Thread α) :
    (q.resume th).1.cancelled = q.cancelled := by
  obtain ⟨l, hl⟩ := resume_fst q th
  rw [hl]

end MessageQueuePosix

end RRThreadPool
