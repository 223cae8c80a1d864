import RRThreadPool.Posix.System

/-!
# The invariant of the POSIX queue

One invariant holds in every reachable world: a thread between entering the blocking loop and
returning holds `ret = 0`, no thread waits on a cancelled queue, and the log of returned calls
is a history of the bounded FIFO that ends in the FIFO the shared state stands for.  It is
proved for each kind of step from the refinement lemmas of `Queue.lean` and from what a wake-up
can change, then for every run.
-/

namespace RRThreadPool

open MessageQueuePosix

/-- A thread inside the blocking loop holds `ret = 0`, and no thread waits once cancelled. -/
def ThreadInv (cancelled : Bool) (th : Thread α) : Prop :=
  (th.phase ≠ .running -> th.ret = 0) ∧ (cancelled = true -> th.phase ≠ .waiting)

structure Invariant (s : World n α) : Prop where
  threads : forall t, ThreadInv s.cancelled (s.threads t)
  replays : exists f, (BoundedFifo.empty s.maxCapacity).Replays s.log f ∧
    Abstracts s.toMessageQueuePosix f

/-!
# Threads
-/

section Threads

variable {c : Bool} {ts ts' : Fin n -> Thread α}

theorem threadInv_update {th : Thread α} {t : Fin n} (h : forall u, ThreadInv c (ts u))
    (hth : ThreadInv c th) : forall u, ThreadInv c (Function.update ts t th u) :=
  (Function.forall_update_iff ts fun _ th => ThreadInv c th).2 ⟨hth, fun u _ => h u⟩

theorem threadInv_running {th : Thread α} (h : th.phase = .running) : ThreadInv c th :=
  ⟨fun hne => absurd h hne, fun _ => by simp [h]⟩

theorem World.Wakes.threadInv (hw : World.Wakes ts ts') (h : forall u, ThreadInv c (ts u)) :
    forall u, ThreadInv c (ts' u) := by
  intro u
  rcases hw u with hu | ⟨hwait, hu⟩
  · exact hu ▸ h u
  · rw [hu]
    exact ⟨fun _ => (h u).1 (by simp [hwait]), fun _ => by simp⟩

end Threads

/-!
# One step
-/

namespace Invariant

variable {s : World n α}

theorem length_le (h : Invariant s) : s.queue.length ≤ s.maxCapacity := by
  obtain ⟨f, -, hf⟩ := h.replays
  exact hf.length_le

/-- A logged call that the FIFO `f` of `s` answers keeps the log a history. -/
theorem replays_snoc {f f' : BoundedFifo α} {op : Op α} {r : Reply α}
    (hrep : (BoundedFifo.empty s.maxCapacity).Replays s.log f)
    (hf : Abstracts s.toMessageQueuePosix f)
    (happ : f.apply op = some (f', r)) :
    (BoundedFifo.empty s.maxCapacity).Replays (s.log ++ [(op, r)]) f' ∧
      f'.capacity = s.maxCapacity := by
  exact ⟨hrep.snoc happ, (BoundedFifo.apply_capacity happ).trans hf.1⟩

theorem call {t : Fin n} {blocking : Bool} {fn} {th : Thread α} (h : Invariant s)
    (hret : th.ret = 0)
    (hfn : forall f, Abstracts s.toMessageQueuePosix f ->
      PopRefines s.toMessageQueuePosix f blocking th (fn s.toMessageQueuePosix (s.threads t))) :
    Invariant (s.call t blocking fn) := by
  obtain ⟨f, hrep, habs⟩ := h.replays
  have ho := hfn f habs
  generalize hr : fn s.toMessageQueuePosix (s.threads t) = r at ho
  cases ho with
  | returns hpop habs' =>
      have happ : f.apply (.pop blocking) = some _ := hpop
      obtain ⟨hrep', hcap⟩ := replays_snoc hrep habs happ
      refine ⟨?_, _, ?_, by simpa [hr] using habs'⟩
      · have hc : s.cancelled = (s.call t blocking fn).cancelled := by
          simp only [World.call_toMessageQueuePosix, hr]
          rw [← habs'.2.2, (BoundedFifo.pop_frame hpop).2, habs.2.2]
        rw [← hc]
        simp only [World.call_threads, hr]
        exact threadInv_update h.threads (threadInv_running rfl)
      · have hmax : (s.call t blocking fn).maxCapacity = s.maxCapacity := by
          simp only [World.call_toMessageQueuePosix, hr]
          exact habs'.1.symm.trans hcap
        rw [hmax, World.call_log, hr, if_pos rfl, reply_of_pop hpop]
        exact hrep'
  | waits hpop =>
      have hnc := (BoundedFifo.pop_eq_none hpop).2.1
      refine ⟨?_, f, by simpa [hr] using hrep, by simpa [hr] using habs⟩
      simp only [World.call_toMessageQueuePosix, World.call_threads, hr]
      exact threadInv_update h.threads ⟨fun _ => hret, by simp [← habs.2.2, hnc]⟩

theorem pushBy {t : Fin n} (message : α) (pick : Fin n) (h : Invariant s)
    (ht : (s.threads t).phase = .running) : Invariant (s.pushBy t message pick) := by
  obtain ⟨f, hrep, habs⟩ := h.replays
  obtain ⟨habs', hreply⟩ := push_refines habs message
  have happ : f.apply (.push message) =
      some ((f.push message).1, ⟨none, (s.toMessageQueuePosix.push message).2⟩) := by
    rw [← hreply]
    rfl
  obtain ⟨hrep', -⟩ := replays_snoc hrep habs happ
  have hth : forall u, ThreadInv s.cancelled ((s.pushBy t message pick).threads u) :=
    threadInv_update ((World.wakes_pushSignal s message pick).threadInv h.threads)
      (threadInv_running ht)
  exact ⟨by simpa using hth, _, by simpa using hrep', habs'⟩

theorem step (h : Invariant s) (a : Action n α) : Invariant (s.step a) := by
  obtain ⟨f, hrep, habs⟩ := h.replays
  cases a with
  | push t message pick =>
      simp only [World.step]
      split
      · exact h.pushBy message pick ‹_›
      · exact h
  | pop t blocking =>
      simp only [World.step]
      split
      · exact h.call rfl fun _ hf => pop_refines hf blocking ‹_›
      · exact h
  | resume t =>
      simp only [World.step]
      split
      · rename_i hw
        have hret : (s.threads t).ret = 0 := (h.threads t).1 (by simp [hw])
        refine h.call hret fun _ hf => ?_
        have ho := resume_refines hf (s.threads t)
        rwa [← hret] at ho
      · exact h
  | spurious t =>
      simp only [World.step]
      split
      · exact ⟨(World.wakes_wake ‹_›).threadInv h.threads, h.replays⟩
      · exact h
  | cancel t =>
      simp only [World.step]
      split
      · have happ : f.apply .cancel = some (f.cancel, ⟨none, 0⟩) := rfl
        obtain ⟨hrep', -⟩ := replays_snoc hrep habs happ
        refine ⟨fun u => ?_, _, hrep', cancel_refines habs⟩
        exact ⟨((World.wakes_broadcast _).threadInv h.threads u).1,
          fun _ => World.broadcast_not_waiting _ u⟩
      · exact h
  | size t =>
      simp only [World.step]
      split
      · have happ : f.apply .size = some (f, ⟨none, s.toMessageQueuePosix.size⟩) := by
          simp [BoundedFifo.apply, MessageQueuePosix.size, habs.2.1]
        obtain ⟨hrep', -⟩ := replays_snoc hrep habs happ
        exact ⟨threadInv_update h.threads (threadInv_running ‹_›), f, hrep', habs⟩
      · exact h

theorem init (maxCapacity : Nat) (hc : maxCapacity ≤ sizeMax) (messages : Fin n -> α) :
    Invariant (World.init maxCapacity hc messages) :=
  ⟨fun _ => threadInv_running rfl, _, rfl, rfl, rfl, rfl⟩

end Invariant

theorem Reachable.invariant {s : World n α} (hs : Reachable s) : Invariant s := by
  induction hs with
  | init maxCapacity hc messages => exact Invariant.init maxCapacity hc messages
  | step a _ ih => exact ih.step a

end RRThreadPool
