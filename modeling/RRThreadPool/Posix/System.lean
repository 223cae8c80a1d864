import RRThreadPool.Posix.Queue
import Mathlib.Data.List.FinRange
import Mathlib.Logic.Function.Basic

/-!
# The queue and its threads

Any number of threads share one `MessageQueuePosix`.  A step is one critical section run by
one thread with the mutex held, or the wake-up of one waiter; every interleaving is a list of
steps.  A step that its thread cannot take where it stands (a `push` from inside a wait, a
`resume` by a thread that was never woken) leaves the world as it was.

`m_cond` is modelled by the threads' phases: `m_cond.signal()` releases one waiter, the one
named by the step when it waits and otherwise the first one, `m_cond.broadcast()` releases them
all, and a spurious wake-up may release any waiter at any time.

A history variable logs, in lock order, every call that has returned and what it returned.
-/

namespace RRThreadPool

structure World (n : Nat) (α : Type) extends MessageQueuePosix α where
  threads : Fin n -> Thread α
  log : List (Op α × Reply α)

/-- One atomic step of thread `t`.  `pick` is the waiter that the `m_cond.signal()` of a
`push` releases when it is waiting. -/
inductive Action (n : Nat) (α : Type) where
  | push (t : Fin n) (message : α) (pick : Fin n)
  | pop (t : Fin n) (blocking : Bool)
  | resume (t : Fin n)
  | spurious (t : Fin n)
  | cancel (t : Fin n)
  | size (t : Fin n)
  deriving DecidableEq

/-- The thread that takes the step. -/
def Action.thread : Action n α -> Fin n
  | .push t _ _ | .pop t _ | .resume t | .spurious t | .cancel t | .size t => t

/-- Where the thread must stand for the step to run: inside `m_cond.wait` for a spurious
wake-up, woken for taking the mutex back, and running for a call. -/
def Action.guard : Action n α -> Phase
  | .resume _ => .woken
  | .spurious _ => .waiting
  | _ => .running

namespace World

/-!
# Waking waiters
-/

def wake (ts : Fin n -> Thread α) (u : Fin n) : Fin n -> Thread α :=
  Function.update ts u { ts u with phase := .woken }

/-- `m_cond.signal()`. -/
def signal (ts : Fin n -> Thread α) (pick : Fin n) : Fin n -> Thread α :=
  if (ts pick).phase = .waiting then wake ts pick
  else
    match (List.finRange n).find? (fun u => (ts u).phase = .waiting) with
    | some u => wake ts u
    | none => ts

/-- `m_cond.broadcast()`. -/
def broadcast (ts : Fin n -> Thread α) : Fin n -> Thread α := fun u =>
  if (ts u).phase = .waiting then { ts u with phase := .woken } else ts u

/-- `ts'` is `ts` with some waiters released and nothing else changed. -/
def Wakes (ts ts' : Fin n -> Thread α) : Prop :=
  forall u, ts' u = ts u ∨ ((ts u).phase = .waiting ∧ ts' u = { ts u with phase := .woken })

theorem wakes_wake {ts : Fin n -> Thread α} {u : Fin n} (h : (ts u).phase = .waiting) :
    Wakes ts (wake ts u) := by
  intro v
  by_cases hv : v = u
  · subst hv
    exact .inr ⟨h, Function.update_same _ _ _⟩
  · exact .inl (Function.update_noteq hv _ _)

theorem wakes_signal (ts : Fin n -> Thread α) (pick : Fin n) : Wakes ts (signal ts pick) := by
  unfold signal
  split
  · exact wakes_wake ‹_›
  · split
    · rename_i u hu
      exact wakes_wake (by simpa using List.find?_some hu)
    · exact fun _ => .inl rfl

theorem wakes_broadcast (ts : Fin n -> Thread α) : Wakes ts (broadcast ts) := by
  intro u
  unfold broadcast
  split
  · exact .inr ⟨‹_›, rfl⟩
  · exact .inl rfl

theorem broadcast_not_waiting (ts : Fin n -> Thread α) (u : Fin n) :
    (broadcast ts u).phase ≠ .waiting := by
  unfold broadcast
  split
  · simp
  · assumption

section Wakes

variable {ts ts' : Fin n -> Thread α} {u : Fin n}

theorem Wakes.eq_of_not_waiting (hw : Wakes ts ts') (hu : (ts u).phase ≠ .waiting) :
    ts' u = ts u :=
  (hw u).resolve_right fun h => hu h.1

theorem Wakes.eq_of_waiting (hw : Wakes ts ts') (hu : (ts' u).phase = .waiting) : ts' u = ts u :=
  (hw u).resolve_right fun h => by simp [h.2] at hu

theorem signal_sole_waiter (hu : (ts u).phase = .waiting)
    (hsole : forall v, (ts v).phase = .waiting -> v = u) (pick : Fin n) :
    signal ts pick u = { ts u with phase := .woken } := by
  unfold signal
  split
  · rw [hsole pick ‹_›]
    exact Function.update_same _ _ _
  · cases hf : (List.finRange n).find? (fun v => (ts v).phase = .waiting) with
    | none => exact absurd (List.find?_eq_none.1 hf u (List.mem_finRange u)) (by simpa using hu)
    | some v =>
        rw [hsole v (by simpa using List.find?_some hf)]
        exact Function.update_same _ _ _

end Wakes

/-!
# Steps
-/

/-- Thread `t` runs `f`, a critical section of a `pop` call with the given `blocking`; the
call is logged when it returns. -/
def call (s : World n α) (t : Fin n) (blocking : Bool)
    (f : MessageQueuePosix α -> Thread α -> MessageQueuePosix α × Thread α) : World n α :=
  let r := f s.toMessageQueuePosix (s.threads t)
  { s with
    toMessageQueuePosix := r.1
    threads := Function.update s.threads t r.2
    log := if r.2.phase = .running then s.log ++ [(.pop blocking, r.2.reply)] else s.log }

/-- Thread `t` runs `push`, and signals `m_cond` when the new size is `1`. -/
def pushBy (s : World n α) (t : Fin n) (message : α) (pick : Fin n) : World n α :=
  let r := s.toMessageQueuePosix.push message
  { s with
    toMessageQueuePosix := r.1
    threads := Function.update (if r.2 = 1 then signal s.threads pick else s.threads) t
      { s.threads t with ret := r.2 }
    log := s.log ++ [(.push message, ⟨none, r.2⟩)] }

def step (s : World n α) : Action n α -> World n α
  | .push t message pick =>
      if (s.threads t).phase = .running then s.pushBy t message pick else s
  | .pop t blocking =>
      if (s.threads t).phase = .running then s.call t blocking (fun q th => q.pop th blocking)
      else s
  | .resume t =>
      if (s.threads t).phase = .woken then s.call t true MessageQueuePosix.resume else s
  | .spurious t =>
      if (s.threads t).phase = .waiting then { s with threads := wake s.threads t } else s
  | .cancel t =>
      if (s.threads t).phase = .running then
        { s with
          toMessageQueuePosix := s.toMessageQueuePosix.cancel
          threads := broadcast s.threads
          log := s.log ++ [(.cancel, ⟨none, 0⟩)] }
      else s
  | .size t =>
      if (s.threads t).phase = .running then
        { s with
          threads := Function.update s.threads t
            { s.threads t with ret := s.toMessageQueuePosix.size }
          log := s.log ++ [(.size, ⟨none, s.toMessageQueuePosix.size⟩)] }
      else s

/-!
# Field lemmas
-/

section Fields

variable (s : World n α) (t : Fin n)

@[simp] theorem call_toMessageQueuePosix (blocking : Bool) (f) :
    (s.call t blocking f).toMessageQueuePosix = (f s.toMessageQueuePosix (s.threads t)).1 := rfl

@[simp] theorem call_threads (blocking : Bool) (f) :
    (s.call t blocking f).threads =
      Function.update s.threads t (f s.toMessageQueuePosix (s.threads t)).2 := rfl

@[simp] theorem call_log (blocking : Bool) (f) :
    (s.call t blocking f).log =
      if (f s.toMessageQueuePosix (s.threads t)).2.phase = .running then
        s.log ++ [(.pop blocking, (f s.toMessageQueuePosix (s.threads t)).2.reply)]
      else s.log := rfl

@[simp] theorem pushBy_toMessageQueuePosix (message : α) (pick : Fin n) :
    (s.pushBy t message pick).toMessageQueuePosix = (s.toMessageQueuePosix.push message).1 := rfl

@[simp] theorem pushBy_threads_self (message : α) (pick : Fin n) :
    (s.pushBy t message pick).threads t =
      { s.threads t with ret := (s.toMessageQueuePosix.push message).2 } := by
  simp [pushBy]

theorem pushBy_threads_ne (message : α) (pick : Fin n) {u : Fin n} (hu : u ≠ t) :
    (s.pushBy t message pick).threads u =
      (if (s.toMessageQueuePosix.push message).2 = 1 then signal s.threads pick else s.threads) u :=
  Function.update_noteq hu _ _

theorem wakes_pushSignal (message : α) (pick : Fin n) :
    Wakes s.threads
      (if (s.toMessageQueuePosix.push message).2 = 1 then signal s.threads pick
        else s.threads) := by
  split
  · exact wakes_signal _ _
  · exact fun _ => .inl rfl

@[simp] theorem pushBy_log (message : α) (pick : Fin n) :
    (s.pushBy t message pick).log =
      s.log ++ [(.push message, ⟨none, (s.toMessageQueuePosix.push message).2⟩)] := rfl

end Fields

/-!
# Enabled steps
-/

section Enabled

variable {s : World n α} {t : Fin n}

theorem step_push (hrun : (s.threads t).phase = .running) (message : α) (pick : Fin n) :
    s.step (.push t message pick) = s.pushBy t message pick := if_pos hrun

theorem step_pop (hrun : (s.threads t).phase = .running) (blocking : Bool) :
    s.step (.pop t blocking) = s.call t blocking (fun q th => q.pop th blocking) := if_pos hrun

theorem step_resume (hw : (s.threads t).phase = .woken) :
    s.step (.resume t) = s.call t true MessageQueuePosix.resume := if_pos hw

theorem step_cancel (hrun : (s.threads t).phase = .running) :
    s.step (.cancel t) =
      { s with
        toMessageQueuePosix := s.toMessageQueuePosix.cancel
        threads := broadcast s.threads
        log := s.log ++ [(.cancel, ⟨none, 0⟩)] } := if_pos hrun

theorem step_size (hrun : (s.threads t).phase = .running) :
    s.step (.size t) =
      { s with
        threads := Function.update s.threads t
          { s.threads t with ret := s.toMessageQueuePosix.size }
        log := s.log ++ [(.size, ⟨none, s.toMessageQueuePosix.size⟩)] } := if_pos hrun

/-- A step whose thread does not stand where the step needs it leaves the world as it was. -/
theorem step_of_not_guard {a : Action n α} (h : (s.threads a.thread).phase ≠ a.guard) :
    s.step a = s := by
  cases a <;> exact if_neg h

@[simp] theorem step_spurious_log (t : Fin n) : (s.step (.spurious t)).log = s.log := by
  simp only [step]
  split <;> rfl

end Enabled

/-!
# Frames

No step changes `m_max_capacity`, and none clears `m_cancelled`.
-/

@[simp] theorem step_maxCapacity (s : World n α) (a : Action n α) :
    (s.step a).maxCapacity = s.maxCapacity := by
  cases a <;> simp only [step] <;> split <;> simp [MessageQueuePosix.cancel]

theorem step_cancelled {s : World n α} (hc : s.cancelled = true) (a : Action n α) :
    (s.step a).cancelled = true := by
  cases a <;> simp only [step] <;> split <;> simp [MessageQueuePosix.cancel, hc]

/-- The messages of the pushes that returned a positive count, in lock order. -/
def accepted (s : World n α) : List α := BoundedFifo.pushedMessages s.log

/-- The messages that the pops returning a positive count left in `message`, in lock order. -/
def delivered (s : World n α) : List α := BoundedFifo.poppedMessages s.log

def run (s : World n α) (acts : List (Action n α)) : World n α :=
  acts.foldl step s

@[simp] theorem run_nil (s : World n α) : s.run [] = s := rfl

@[simp] theorem run_cons (s : World n α) (a : Action n α) (acts : List (Action n α)) :
    s.run (a :: acts) = (s.step a).run acts := rfl

theorem run_cancelled {s : World n α} (hc : s.cancelled = true) (acts : List (Action n α)) :
    (s.run acts).cancelled = true := by
  induction acts generalizing s with
  | nil => exact hc
  | cons a acts ih => exact ih (step_cancelled hc a)

/-- A freshly created queue; every thread runs, each with its own `message` variable. -/
def init (maxCapacity : Nat) (h : maxCapacity ≤ sizeMax) (messages : Fin n -> α) :
    World n α :=
  { toMessageQueuePosix := MessageQueuePosix.create maxCapacity h
    threads := fun t => ⟨.running, messages t, 0⟩
    log := [] }

end World

/-- The worlds some interleaving reaches from a freshly created queue. -/
inductive Reachable : World n α -> Prop where
  | init (maxCapacity : Nat) (h : maxCapacity ≤ sizeMax) (messages : Fin n -> α) :
      Reachable (World.init maxCapacity h messages)
  | step {s : World n α} (a : Action n α) : Reachable s -> Reachable (s.step a)

theorem Reachable.run {s : World n α} (hs : Reachable s) (acts : List (Action n α)) :
    Reachable (s.run acts) := by
  induction acts generalizing s with
  | nil => exact hs
  | cons a acts ih => exact ih (hs.step a)

end RRThreadPool
