import Mathlib.Data.Option.Basic

/-!
# The bounded FIFO with cancellation

What `IMessageQueue` is for, with the threads taken away: a FIFO of messages bounded by a
capacity, and a flag that, once set, makes every blocking pop fail at once.  A call either
answers at once, or, for a blocking pop on an empty queue that is not cancelled, cannot answer
yet.  A log of calls and their replies is a history of this FIFO when the FIFO, run on the
calls in order, gives the logged replies.

`Posix/Invariant.lean` shows that the calls of every interleaving of `MessageQueuePosix`, in
lock order, form such a history.
-/

namespace RRThreadPool

@[ext] structure BoundedFifo (α : Type) where
  capacity : Nat
  contents : List α
  cancelled : Bool
  length_le : contents.length ≤ capacity

inductive Op (α : Type) where
  | push (message : α)
  | pop (blocking : Bool)
  | cancel
  | size
  deriving DecidableEq

/-- What a call hands back: the message it leaves in its out-parameter, if any, and the count
it returns. -/
structure Reply (α : Type) where
  message : Option α
  count : Nat
  deriving DecidableEq

namespace BoundedFifo

def empty (capacity : Nat) : BoundedFifo α :=
  ⟨capacity, [], false, Nat.zero_le _⟩

def push (q : BoundedFifo α) (message : α) : BoundedFifo α × Reply α :=
  if h : q.contents.length < q.capacity then
    (⟨q.capacity, q.contents ++ [message], q.cancelled, by simpa using h⟩,
      ⟨none, q.contents.length + 1⟩)
  else
    (q, ⟨none, 0⟩)

theorem length_le_of_cons {q : BoundedFifo α} {message : α} {rest : List α}
    (h : q.contents = message :: rest) : rest.length ≤ q.capacity := by
  have hle := q.length_le
  rw [h, List.length_cons] at hle
  exact Nat.le_of_succ_le hle

/-- A blocking pop reads the flag first; `none` when it cannot answer yet. -/
def pop (q : BoundedFifo α) (blocking : Bool) : Option (BoundedFifo α × Reply α) :=
  if blocking ∧ q.cancelled then
    some (q, ⟨none, 0⟩)
  else
    match h : q.contents with
    | [] => if blocking then none else some (q, ⟨none, 0⟩)
    | message :: rest =>
        some (⟨q.capacity, rest, q.cancelled, length_le_of_cons h⟩,
          ⟨some message, q.contents.length⟩)

def cancel (q : BoundedFifo α) : BoundedFifo α :=
  { q with cancelled := true }

def apply (q : BoundedFifo α) : Op α -> Option (BoundedFifo α × Reply α)
  | .push message => some (q.push message)
  | .pop blocking => q.pop blocking
  | .cancel => some (q.cancel, ⟨none, 0⟩)
  | .size => some (q, ⟨none, q.contents.length⟩)

/-- `q` answers the calls of `log` in order with the logged replies, and ends in `q'`. -/
def Replays : BoundedFifo α -> List (Op α × Reply α) -> BoundedFifo α -> Prop
  | q, [], q' => q' = q
  | q, (op, r) :: log, q' => exists q1, q.apply op = some (q1, r) ∧ Replays q1 log q'

/-- The messages of the pushes of `log` that returned a positive count. -/
def pushedMessages (log : List (Op α × Reply α)) : List α :=
  log.filterMap fun e =>
    match e.1 with
    | .push message => if 0 < e.2.count then some message else none
    | _ => none

/-- The messages handed back by the pops of `log`. -/
def poppedMessages (log : List (Op α × Reply α)) : List α :=
  log.filterMap fun e =>
    match e.1 with
    | .pop _ => e.2.message
    | _ => none

/-!
# Pop

A pop answers with the front and the old size, or with nothing and `0`; a blocking pop answers
`0` exactly on a cancelled FIFO, and cannot answer only on an empty one that is not cancelled.
-/

theorem pop_cases {q q' : BoundedFifo α} {blocking : Bool} {r : Reply α}
    (h : q.pop blocking = some (q', r)) :
    (r = ⟨none, 0⟩ ∧ q' = q) ∨
      exists message, r.message = some message ∧ q.contents = message :: q'.contents ∧
        r.count = q.contents.length := by
  unfold pop at h
  split at h
  · cases h
    exact .inl ⟨rfl, rfl⟩
  · split at h
    · split at h
      · cases h
      · cases h
        exact .inl ⟨rfl, rfl⟩
    · cases h
      exact .inr ⟨_, rfl, ‹_›, rfl⟩

theorem pop_of_cons {q : BoundedFifo α} {blocking : Bool} {message : α} {rest : List α}
    (hc : ¬ (blocking = true ∧ q.cancelled = true)) (h : q.contents = message :: rest) :
    q.pop blocking =
      some (⟨q.capacity, rest, q.cancelled, length_le_of_cons h⟩,
        ⟨some message, q.contents.length⟩) := by
  unfold pop
  rw [if_neg hc]
  split
  · simp_all
  · rename_i message' rest' h'
    have heq := h.symm.trans h'
    injection heq with hm hr
    subst hm hr
    rfl

theorem pop_of_nil {q : BoundedFifo α} {blocking : Bool}
    (hc : ¬ (blocking = true ∧ q.cancelled = true)) (h : q.contents = []) :
    q.pop blocking = if blocking then none else some (q, ⟨none, 0⟩) := by
  unfold pop
  rw [if_neg hc]
  split
  · rfl
  · simp_all

theorem pop_of_cancelled {q : BoundedFifo α} (hc : q.cancelled = true) :
    q.pop true = some (q, ⟨none, 0⟩) := by
  simp [pop, hc]

theorem pop_true_count_eq_zero_iff {q q' : BoundedFifo α} {r : Reply α}
    (h : q.pop true = some (q', r)) : r.count = 0 <-> q.cancelled = true := by
  cases hc : q.cancelled
  · rcases pop_cases h with ⟨rfl, -⟩ | ⟨m, -, hq, hr⟩
    · simp [pop, hc] at h
      split at h <;> simp_all
    · simp [hr, hq]
  · simp [pop_of_cancelled hc] at h
    simp [← h.2]

theorem pop_eq_none {q : BoundedFifo α} {blocking : Bool} (h : q.pop blocking = none) :
    blocking = true ∧ q.cancelled = false ∧ q.contents = [] := by
  unfold pop at h
  split at h
  · cases h
  · split at h
    · split at h
      · rename_i hnc hq hb
        exact ⟨hb, by simpa [hb] using hnc, hq⟩
      · cases h
    · cases h

/-- A pop leaves the capacity and the flag as they were. -/
theorem pop_frame {q q' : BoundedFifo α} {blocking : Bool} {r : Reply α}
    (h : q.pop blocking = some (q', r)) :
    q'.capacity = q.capacity ∧ q'.cancelled = q.cancelled := by
  unfold pop at h
  split at h
  · cases h
    exact ⟨rfl, rfl⟩
  · split at h
    · split at h <;> cases h
      exact ⟨rfl, rfl⟩
    · cases h
      exact ⟨rfl, rfl⟩

theorem apply_capacity {q q' : BoundedFifo α} {op : Op α} {r : Reply α}
    (h : q.apply op = some (q', r)) : q'.capacity = q.capacity := by
  cases op with
  | push message =>
      simp only [apply, Option.some.injEq] at h
      unfold push at h
      split at h <;> cases h <;> rfl
  | pop blocking => exact (pop_frame h).1
  | cancel => cases h; rfl
  | size => cases h; rfl

/-!
# FIFO order

The popped messages followed by the contents are the contents before followed by the pushed
messages: one call at a time, then along any history.
-/

theorem apply_fifo {q q' : BoundedFifo α} {op : Op α} {r : Reply α}
    (h : q.apply op = some (q', r)) :
    poppedMessages [(op, r)] ++ q'.contents = q.contents ++ pushedMessages [(op, r)] := by
  cases op with
  | push message =>
      simp only [apply, Option.some.injEq] at h
      unfold push at h
      split at h <;> cases h <;> simp [pushedMessages, poppedMessages]
  | pop blocking =>
      rcases pop_cases h with ⟨rfl, rfl⟩ | ⟨m, hm, hq, -⟩
      · simp [pushedMessages, poppedMessages]
      · simp [pushedMessages, poppedMessages, hm, hq]
  | cancel =>
      cases h
      simp [pushedMessages, poppedMessages, cancel]
  | size =>
      cases h
      simp [pushedMessages, poppedMessages]

theorem Replays.fifo : forall {q q' : BoundedFifo α} {log : List (Op α × Reply α)},
    Replays q log q' -> poppedMessages log ++ q'.contents = q.contents ++ pushedMessages log
  | q, q', [], h => by
      cases h
      simp [pushedMessages, poppedMessages]
  | q, q', (op, r) :: log, ⟨q1, happ, hrest⟩ => by
      have hone := apply_fifo happ
      have hlog : forall l : List (Op α × Reply α), (op, r) :: l = [(op, r)] ++ l := fun _ => rfl
      rw [hlog, poppedMessages, pushedMessages, List.filterMap_append, List.filterMap_append]
      calc poppedMessages [(op, r)] ++ poppedMessages log ++ q'.contents
          = poppedMessages [(op, r)] ++ (q1.contents ++ pushedMessages log) := by
            rw [List.append_assoc, Replays.fifo hrest]
        _ = q.contents ++ (pushedMessages [(op, r)] ++ pushedMessages log) := by
            rw [← List.append_assoc, hone, List.append_assoc]

theorem Replays.snoc : forall {q q' q'' : BoundedFifo α} {log : List (Op α × Reply α)}
    {op : Op α} {r : Reply α},
    Replays q log q' -> q'.apply op = some (q'', r) -> Replays q (log ++ [(op, r)]) q''
  | q, q', q'', [], op, r, h, happ => by
      cases h
      exact ⟨q'', happ, rfl⟩
  | q, q', q'', (op1, r1) :: log, op, r, ⟨q1, happ1, hrest⟩, happ =>
      ⟨q1, happ1, Replays.snoc hrest happ⟩

/-!
# Renaming messages

A FIFO of messages renamed by `g` answers the renamed calls with the renamed replies.  When `g`
is injective, a history of the renamed FIFO is the renaming of a history of the original one.
-/

def map (g : α -> β) (q : BoundedFifo α) : BoundedFifo β :=
  ⟨q.capacity, q.contents.map g, q.cancelled,
    Nat.le_trans (Nat.le_of_eq (List.length_map _ _)) q.length_le⟩

@[simp] theorem map_capacity (g : α -> β) (q : BoundedFifo α) :
    (q.map g).capacity = q.capacity :=
  rfl

@[simp] theorem map_contents (g : α -> β) (q : BoundedFifo α) :
    (q.map g).contents = q.contents.map g := rfl

@[simp] theorem map_cancelled (g : α -> β) (q : BoundedFifo α) :
    (q.map g).cancelled = q.cancelled := rfl

theorem map_empty (g : α -> β) (capacity : Nat) : (empty capacity).map g = empty capacity := rfl

end BoundedFifo

def Op.map (g : α -> β) : Op α -> Op β
  | .push message => .push (g message)
  | .pop blocking => .pop blocking
  | .cancel => .cancel
  | .size => .size

def Reply.map (g : α -> β) (r : Reply α) : Reply β :=
  ⟨r.message.map g, r.count⟩

/-- A logged call with its messages renamed by `g`. -/
def mapCall (g : α -> β) (e : Op α × Reply α) : Op β × Reply β :=
  (e.1.map g, e.2.map g)

theorem Reply.map_injective {g : α -> β} (hg : Function.Injective g) :
    Function.Injective (Reply.map g) := by
  rintro ⟨m, c⟩ ⟨m', c'⟩ h
  simp only [Reply.map, Reply.mk.injEq] at h
  rw [Option.map_injective hg h.1, h.2]

namespace BoundedFifo

theorem pop_map (g : α -> β) (q : BoundedFifo α) (blocking : Bool) :
    (q.map g).pop blocking = (q.pop blocking).map fun p => (p.1.map g, p.2.map g) := by
  by_cases hc : blocking = true ∧ q.cancelled = true
  · obtain ⟨rfl, hc⟩ := hc
    have hc' : (q.map g).cancelled = true := hc
    rw [pop_of_cancelled hc, pop_of_cancelled hc']
    rfl
  · have hc' : ¬ (blocking = true ∧ (q.map g).cancelled = true) := hc
    cases h : q.contents with
    | nil =>
        have h' : (q.map g).contents = [] := by simp [h]
        rw [pop_of_nil hc h, pop_of_nil hc' h']
        cases blocking <;> rfl
    | cons message rest =>
        have h' : (q.map g).contents = g message :: rest.map g := by simp [h]
        rw [pop_of_cons hc h, pop_of_cons hc' h']
        simp [Reply.map, BoundedFifo.map, h]

theorem apply_map (g : α -> β) (q : BoundedFifo α) (op : Op α) :
    (q.map g).apply (op.map g) = (q.apply op).map fun p => (p.1.map g, p.2.map g) := by
  cases op with
  | push message =>
      by_cases h : q.contents.length < q.capacity
      · have h' : (q.map g).contents.length < (q.map g).capacity := by simpa using h
        simp [apply, Op.map, push, h, h', BoundedFifo.map, Reply.map]
      · have h' : ¬ (q.map g).contents.length < (q.map g).capacity := by simpa using h
        simp [apply, Op.map, push, h, h', Reply.map]
  | pop blocking => exact pop_map g q blocking
  | cancel => rfl
  | size => simp [apply, Op.map, Reply.map]

theorem Replays.of_map {g : α -> β} (hg : Function.Injective g) :
    forall {q : BoundedFifo α} {log : List (Op α × Reply α)} {q' : BoundedFifo β},
      Replays (q.map g) (log.map (mapCall g)) q' -> exists f, Replays q log f ∧ q' = f.map g
  | q, [], q', h => ⟨q, rfl, h⟩
  | q, (op, r) :: log, q', ⟨q1, happ, hrest⟩ => by
      have happ' : (q.apply op).map (fun p => (p.1.map g, p.2.map g)) = some (q1, r.map g) := by
        rw [← apply_map]
        exact happ
      obtain ⟨⟨f1, r1⟩, hq, hp⟩ := Option.map_eq_some'.1 happ'
      simp only [Prod.mk.injEq] at hp
      obtain ⟨rfl, hr⟩ := hp
      obtain ⟨f, hf, rfl⟩ := Replays.of_map hg hrest
      refine ⟨f, ⟨f1, ?_, hf⟩, rfl⟩
      rw [hq, Reply.map_injective hg hr]

end BoundedFifo

end RRThreadPool
