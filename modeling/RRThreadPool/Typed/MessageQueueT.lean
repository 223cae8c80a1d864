import RRThreadPool.Posix.System

/-!
# The typed queue

`MessageQueueT<M>` (`src/MessageQueue.h`) keeps an untyped queue in `m_impl`.  Its `push` wraps
the value in a new `MessageImpl<M>` and pushes that handle.  Its `pop` pops into a local
`abstract_message`, a null handle at the start of every call; on a positive count it asserts
that the handle is not null and that `std::dynamic_pointer_cast<MessageImpl<M>>` keeps it, and
copies the payload into `dst_message`.  `cancel`, `is_cancelled` and `size` forward to `m_impl`.

The typed world is the untyped one over message handles, the `dst_message` variable of every
caller, and a log of the typed calls that have returned.  A step whose assertion fires has no
result.
-/

namespace RRThreadPool

/-- Modelled from the spec: `IMessage` is declared in `Message.h`, which is not under src/.  The
object a message handle points to: a `MessageImpl<M>` holding its payload, or an object of any
other class derived from `IMessage`, told apart by a class tag. -/
inductive IMessage (M : Type) where
  | messageImpl (payload : M)
  | other (classTag : Nat)
  deriving DecidableEq

/-- Modelled from the spec: `Message`, declared in `Message.h`, is a shared pointer to an
`IMessage`, null or not. -/
abbrev Message (M : Type) := Option (IMessage M)

/-- `IMessageQueue::popT<Derived>` once `pop(abstract_message, blocking)` has returned `th.ret`
and left `abstract_message` as `th.message`: the new value of the caller's `message`, or `none`
when `assert(abstract_message.get() != nullptr)` or `assert(message.get() ==
abstract_message.get())` fires.  `isDerived` says which objects
`std::dynamic_pointer_cast<Derived>` keeps; it makes a null handle of any other. -/
def popT (isDerived : IMessage M -> Bool) (message : Option (IMessage M))
    (th : Thread (Message M)) : Option (Option (IMessage M)) :=
  if 0 < th.ret then
    th.message.bind fun object => if isDerived object then some (some object) else none
  else some message

structure MessageQueueT (n : Nat) (M : Type) where
  impl : World n (Message M)
  dst : Fin n -> M
  log : List (Op M × Reply M)

namespace MessageQueueT

/-- `Message new_message(new MessageImpl<M>(message))`. -/
def newMessage (message : M) : Message M :=
  some (.messageImpl message)

/-- `std::dynamic_pointer_cast<MessageImpl<M>>`, then `->m_payload`. -/
def dynamicPointerCast : IMessage M -> Option M
  | .messageImpl payload => some payload
  | .other _ => none

/-- The payload `pop` copies out of `abstract_message`; `none` when
`assert(nullptr != abstract_message.get())` or
`assert(message.get() == abstract_message.get())` fires. -/
def payloadOf : Message M -> Option M
  | none => none
  | some object => dynamicPointerCast object

/-- The typed queue over a fresh `m_impl`; every caller has its own `dst_message`. -/
def create (maxCapacity : Nat) (h : maxCapacity ≤ sizeMax) (dst : Fin n -> M) :
    MessageQueueT n M :=
  ⟨World.init maxCapacity h fun _ => none, dst, []⟩

/-- `push`: returns what `m_impl->push` returns. -/
def push (s : MessageQueueT n M) (t : Fin n) (message : M) (pick : Fin n) : MessageQueueT n M :=
  let impl := s.impl.step (.push t (newMessage message) pick)
  { s with impl := impl, log := s.log ++ [(.push message, ⟨none, (impl.threads t).ret⟩)] }

/-- `abstract_message`, the null handle `pop` hands to `m_impl->pop`. -/
def freshMessage (w : World n (Message M)) (t : Fin n) : World n (Message M) :=
  { w with threads := Function.update w.threads t { w.threads t with message := none } }

/-- The rest of `pop` once a critical section of `m_impl->pop` has run as `impl`: when the call
returned a positive count, the assertions and `dst_message = message->m_payload`. -/
def popReturn (s : MessageQueueT n M) (impl : World n (Message M)) (t : Fin n)
    (blocking : Bool) : Option (MessageQueueT n M) :=
  let th := impl.threads t
  if th.phase = .running then
    if 0 < th.ret then
      (payloadOf th.message).map fun payload =>
        ⟨impl, Function.update s.dst t payload,
          s.log ++ [(.pop blocking, ⟨some payload, th.ret⟩)]⟩
    else
      some { s with impl := impl, log := s.log ++ [(.pop blocking, ⟨none, th.ret⟩)] }
  else
    some { s with impl := impl }

def step (s : MessageQueueT n M) : Action n M -> Option (MessageQueueT n M)
  | .push t message pick =>
      if (s.impl.threads t).phase = .running then some (s.push t message pick) else some s
  | .pop t blocking =>
      if (s.impl.threads t).phase = .running then
        s.popReturn ((freshMessage s.impl t).step (.pop t blocking)) t blocking
      else some s
  | .resume t =>
      if (s.impl.threads t).phase = .woken then s.popReturn (s.impl.step (.resume t)) t true
      else some s
  | .spurious t => some { s with impl := s.impl.step (.spurious t) }
  | .cancel t =>
      if (s.impl.threads t).phase = .running then
        some { s with impl := s.impl.step (.cancel t), log := s.log ++ [(.cancel, ⟨none, 0⟩)] }
      else some s
  | .size t =>
      if (s.impl.threads t).phase = .running then
        let impl := s.impl.step (.size t)
        some { s with impl := impl, log := s.log ++ [(.size, ⟨none, (impl.threads t).ret⟩)] }
      else some s

def run (s : MessageQueueT n M) : List (Action n M) -> Option (MessageQueueT n M)
  | [] => some s
  | a :: acts => (s.step a).bind fun s' => s'.run acts

/-- The typed worlds that some interleaving reaches with no assertion firing. -/
inductive Reachable : MessageQueueT n M -> Prop where
  | create (maxCapacity : Nat) (h : maxCapacity ≤ sizeMax) (dst : Fin n -> M) :
      Reachable (create maxCapacity h dst)
  | step {s s' : MessageQueueT n M} (a : Action n M) :
      Reachable s -> s.step a = some s' -> Reachable s'

theorem Reachable.run {s s' : MessageQueueT n M} (hs : s.Reachable) :
    forall (acts : List (Action n M)), s.run acts = some s' -> s'.Reachable
  | [], h => by
      cases h
      exact hs
  | a :: acts, h => by
      obtain ⟨s1, h1, hrest⟩ := Option.bind_eq_some.1 h
      exact (hs.step a h1).run acts hrest

end MessageQueueT

end RRThreadPool
