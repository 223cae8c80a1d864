import RRThreadPool.Posix.OutParameter
import RRThreadPool.Typed.MessageQueueT

/-!
# The typed queue refines the bounded FIFO of its payloads

The untyped queue inside `MessageQueueT<M>` sees exactly the typed calls with their values
wrapped by `push`, and returns the same counts.  So every handle in `m_impl` is a
`MessageImpl<M>` made by `push`, no assertion of `pop` fires, and the typed calls that have
returned form a history of the bounded FIFO of payloads, the one whose wrapping the untyped
queue refines.
-/

namespace RRThreadPool

/-- An action with the message of a push renamed by `g`. -/
def Action.map (g : α -> β) : Action n α -> Action n β
  | .push t message pick => .push t (g message) pick
  | .pop t blocking => .pop t blocking
  | .resume t => .resume t
  | .spurious t => .spurious t
  | .cancel t => .cancel t
  | .size t => .size t

namespace MessageQueueT

open MessageQueuePosix World

variable {s : MessageQueueT n M}

theorem newMessage_injective : Function.Injective (newMessage : M -> Message M) := by
  intro a b h
  simpa [newMessage] using h

/-- The untyped queue satisfies its invariant, and its log is the typed log with every value
wrapped by `push`. -/
structure Invariant (s : MessageQueueT n M) : Prop where
  impl : RRThreadPool.Invariant s.impl
  log : s.impl.log = s.log.map (mapCall newMessage)

theorem Invariant.fifo (h : s.Invariant) :
    exists f, (BoundedFifo.empty s.impl.maxCapacity).Replays s.log f ∧
      Abstracts s.impl.toMessageQueuePosix (f.map newMessage) := by
  obtain ⟨F, hrep, habs⟩ := h.impl.replays
  rw [h.log, ← BoundedFifo.map_empty newMessage] at hrep
  obtain ⟨f, hf, rfl⟩ := BoundedFifo.Replays.of_map newMessage_injective hrep
  exact ⟨f, hf, habs⟩

theorem Invariant.boxed (h : s.Invariant) :
    exists vs : List M, s.impl.queue = vs.map newMessage := by
  obtain ⟨f, -, habs⟩ := h.fifo
  exact ⟨f.contents, habs.2.1.symm⟩

theorem invariant_freshMessage {w : World n (Message M)} (hw : RRThreadPool.Invariant w)
    {t : Fin n} (ht : (w.threads t).phase = .running) :
    RRThreadPool.Invariant (freshMessage w t) :=
  ⟨threadInv_update hw.threads (threadInv_running ht), hw.replays⟩

/-!
# The rest of `pop`
-/

theorem front_boxed {vs : List M} {front : Message M} {rest : List (Message M)}
    (h : vs.map newMessage = front :: rest) : exists v, front = newMessage v := by
  cases vs with
  | nil => cases h
  | cons v vs => exact ⟨v, (List.cons.inj h).1.symm⟩

/-- After a critical section of `m_impl->pop` on a deque of wrapped payloads, no assertion
fires, the typed invariant holds, and a return copies the popped payload into `dst_message`,
or leaves it untouched on `0`. -/
theorem popReturn_spec {w : World n (Message M)} {t : Fin n} {blocking : Bool}
    {a : Action n (Message M)} (hw : RRThreadPool.Invariant w)
    (hlog : w.log = s.log.map (mapCall newMessage))
    (hq : exists vs : List M, w.queue = vs.map newMessage) (ha : PopStep w t blocking a) :
    exists s', s.popReturn (w.step a) t blocking = some s' ∧ s'.Invariant ∧
      s'.impl = w.step a ∧
      (((w.step a).threads t).phase = .running ->
        (((w.step a).threads t).ret = 0 -> s'.dst t = s.dst t) ∧
        (0 < ((w.step a).threads t).ret ->
          s'.log =
            s.log ++ [(.pop blocking, ⟨some (s'.dst t), ((w.step a).threads t).ret⟩)])) := by
  have hw' := hw.step a
  have hl := popStep_log ha
  by_cases hrun : ((w.step a).threads t).phase = .running
  · rw [if_pos hrun] at hl
    rcases popStep_result hw ha hrun with ⟨hpos, hcons, -⟩ | ⟨hz, -, -⟩
    · obtain ⟨vs, hvs⟩ := hq
      obtain ⟨v, hv⟩ := front_boxed (hvs.symm.trans hcons)
      refine ⟨⟨w.step a, Function.update s.dst t v,
        s.log ++ [(.pop blocking, ⟨some v, ((w.step a).threads t).ret⟩)]⟩, ?_, ⟨hw', ?_⟩,
        rfl,
        fun _ => ⟨fun hz => absurd hz (Nat.pos_iff_ne_zero.mp hpos), fun _ => by simp⟩⟩
      · simp [popReturn, hrun, hpos, hv, payloadOf, newMessage, dynamicPointerCast]
      · simp [hl, hlog, mapCall, Thread.reply, hpos, hv, Op.map, Reply.map]
    · refine ⟨{ s with impl := w.step a, log := s.log ++ [(.pop blocking, ⟨none, 0⟩)] }, ?_,
        ⟨hw', ?_⟩, rfl,
        fun _ => ⟨fun _ => rfl, fun hpos => absurd hz (Nat.pos_iff_ne_zero.mp hpos)⟩⟩
      · simp [popReturn, hrun, hz]
      · simp [hl, hlog, mapCall, Thread.reply, hz, Op.map, Reply.map]
  · rw [if_neg hrun] at hl
    exact ⟨{ s with impl := w.step a }, by simp [popReturn, hrun], ⟨hw', by rw [hl, hlog]⟩,
      rfl, fun h => absurd h hrun⟩

/-!
# Every step
-/

theorem popStep_fresh {t : Fin n} (ht : (s.impl.threads t).phase = .running) (blocking : Bool) :
    PopStep (freshMessage s.impl t) t blocking (.pop t blocking) :=
  ⟨rfl, rfl, by simp [freshMessage, ht]⟩

theorem step_of_popStep (h : s.Invariant) {t : Fin n} {blocking : Bool} {a : Action n M}
    (ha : PopStep s.impl t blocking (a.map newMessage)) :
    exists w b, PopStep w t blocking b ∧ s.step a = s.popReturn (w.step b) t blocking ∧
      RRThreadPool.Invariant w ∧ w.log = s.impl.log ∧ w.queue = s.impl.queue := by
  cases a with
  | pop u b =>
      obtain ⟨rfl, rfl, ht⟩ := ha
      exact ⟨_, _, popStep_fresh ht b, by simp [step, ht], invariant_freshMessage h.impl ht, rfl,
        rfl⟩
  | resume u =>
      obtain ⟨rfl, rfl, hw⟩ := ha
      exact ⟨_, .resume u, ⟨rfl, rfl, hw⟩, by simp [step, hw], h.impl, rfl, rfl⟩
  | _ => exact ha.elim

theorem Invariant.popStep (h : s.Invariant) {t : Fin n} {blocking : Bool} {a : Action n M}
    (ha : PopStep s.impl t blocking (a.map newMessage)) :
    exists s', s.step a = some s' ∧ s'.Invariant ∧
      ((s'.impl.threads t).phase = .running ->
        ((s'.impl.threads t).ret = 0 -> s'.dst t = s.dst t) ∧
        (0 < (s'.impl.threads t).ret ->
          s'.log =
            s.log ++ [(.pop blocking, ⟨some (s'.dst t), (s'.impl.threads t).ret⟩)])) := by
  obtain ⟨w, b, hb, hstep, hw, hlog, hq⟩ := step_of_popStep h ha
  obtain ⟨vs, hvs⟩ := h.boxed
  obtain ⟨s', hs', hinv, himpl, hdst⟩ :=
    popReturn_spec hw (hlog.trans h.log) ⟨vs, hq.trans hvs⟩ hb
  exact ⟨s', hstep.trans hs', hinv, himpl ▸ hdst⟩

theorem Invariant.step (h : s.Invariant) (a : Action n M) :
    exists s', s.step a = some s' ∧ s'.Invariant := by
  cases a with
  | push t message pick =>
      by_cases ht : (s.impl.threads t).phase = .running
      · refine ⟨_, if_pos ht, h.impl.step (.push t (newMessage message) pick), ?_⟩
        simp [push, World.step_push ht, h.log, mapCall, Op.map, Reply.map]
      · exact ⟨s, if_neg ht, h⟩
  | pop t blocking =>
      by_cases ht : (s.impl.threads t).phase = .running
      · obtain ⟨s', hs', hinv, -⟩ := h.popStep (a := .pop t blocking) ⟨rfl, rfl, ht⟩
        exact ⟨s', hs', hinv⟩
      · exact ⟨s, if_neg ht, h⟩
  | resume t =>
      by_cases hw : (s.impl.threads t).phase = .woken
      · obtain ⟨s', hs', hinv, -⟩ := h.popStep (a := .resume t) ⟨rfl, rfl, hw⟩
        exact ⟨s', hs', hinv⟩
      · exact ⟨s, if_neg hw, h⟩
  | spurious t => exact ⟨_, rfl, h.impl.step (.spurious t), by simp [h.log]⟩
  | cancel t =>
      by_cases ht : (s.impl.threads t).phase = .running
      · refine ⟨_, if_pos ht, h.impl.step (.cancel t), ?_⟩
        simp [World.step_cancel ht, h.log, mapCall, Op.map, Reply.map]
      · exact ⟨s, if_neg ht, h⟩
  | size t =>
      by_cases ht : (s.impl.threads t).phase = .running
      · refine ⟨_, if_pos ht, h.impl.step (.size t), ?_⟩
        simp [World.step_size ht, h.log, mapCall, Op.map, Reply.map]
      · exact ⟨s, if_neg ht, h⟩

theorem Reachable.invariant (hs : s.Reachable) : s.Invariant := by
  induction hs with
  | create maxCapacity hc dst => exact ⟨RRThreadPool.Invariant.init maxCapacity hc _, rfl⟩
  | step a _ hstep ih =>
      obtain ⟨s'', hs'', hinv⟩ := ih.step a
      rw [hstep] at hs''
      cases hs''
      exact hinv

theorem Invariant.step_impl (h : s.Invariant) (a : Action n M) :
    exists s', s.step a = some s' ∧ s'.impl.EqUpToMessages (s.impl.step (a.map newMessage)) := by
  cases a with
  | push t message pick =>
      by_cases ht : (s.impl.threads t).phase = .running
      · exact ⟨_, if_pos ht, .refl _⟩
      · exact ⟨s, if_neg ht, .of_eq (if_neg ht).symm⟩
  | pop t blocking =>
      by_cases ht : (s.impl.threads t).phase = .running
      · obtain ⟨s', hs', -, himpl, -⟩ :=
          popReturn_spec (invariant_freshMessage h.impl ht) h.log h.boxed
            (popStep_fresh ht blocking)
        refine ⟨s', (if_pos ht).trans hs', ?_⟩
        rw [himpl]
        exact (EqUpToMessages.update_message s.impl t none).symm.step
          (fun u => ((invariant_freshMessage h.impl ht).threads u).1) _
      · exact ⟨s, if_neg ht, .of_eq (if_neg ht).symm⟩
  | resume t =>
      by_cases hw : (s.impl.threads t).phase = .woken
      · obtain ⟨s', hs', -, himpl, -⟩ := popReturn_spec h.impl h.log h.boxed
          (show PopStep s.impl t true (.resume t) from ⟨rfl, rfl, hw⟩)
        exact ⟨s', (if_pos hw).trans hs', .of_eq himpl⟩
      · exact ⟨s, if_neg hw, .of_eq (if_neg hw).symm⟩
  | spurious t => exact ⟨_, rfl, .refl _⟩
  | cancel t =>
      by_cases ht : (s.impl.threads t).phase = .running
      · exact ⟨_, if_pos ht, .refl _⟩
      · exact ⟨s, if_neg ht, .of_eq (if_neg ht).symm⟩
  | size t =>
      by_cases ht : (s.impl.threads t).phase = .running
      · exact ⟨_, if_pos ht, .refl _⟩
      · exact ⟨s, if_neg ht, .of_eq (if_neg ht).symm⟩

/-- Thread `1` blocks in the typed `pop` on an empty queue of default capacity, and thread `0`'s
push of `7` wakes it. -/
def typedWoken : MessageQueueT 2 Nat :=
  ((create sizeMax (Nat.le_refl _) fun _ => 0).run
    [.pop 1 true, .push 0 7 1]).getD (create sizeMax (Nat.le_refl _) fun _ => 0)

theorem reachable_typedWoken : typedWoken.Reachable :=
  (Reachable.create sizeMax (Nat.le_refl _) fun _ => 0).run [.pop 1 true, .push 0 7 1] (by rfl)

/-!
# Refinement
-/

example : (typedWoken.step (.resume 1)).map (fun s => (s.dst 1, s.log)) =
    some (7, [(.push 7, ⟨none, 1⟩), (.pop true, ⟨some 7, 1⟩)]) := by
  decide

end MessageQueueT

/-!
# `popT`

`IMessageQueue::popT<Derived>` runs the assertions of the typed `pop` with a cast to `Derived`.
On a queue where every accepted handle points to a `Derived`, in particular on one that only
ever carries messages of one class as its documentation asks, they never fire.
-/

open World

theorem popT_asserts_hold {s : World n (Message M)} (hs : Reachable s)
    (isDerived : IMessage M -> Bool)
    (hderived : forall m, m ∈ s.accepted -> m.any isDerived = true)
    {t : Fin n} {blocking : Bool} {a : Action n (Message M)} (ha : PopStep s t blocking a)
    (hrun : ((s.step a).threads t).phase = .running) (message : Option (IMessage M)) :
    (((s.step a).threads t).ret = 0 ->
      popT isDerived message ((s.step a).threads t) = some message) ∧
    (0 < ((s.step a).threads t).ret -> exists object, isDerived object = true ∧
      s.queue = some object :: (s.step a).queue ∧
      popT isDerived message ((s.step a).threads t) = some (some object)) := by
  have h := hs.invariant
  rcases popStep_result h ha hrun with ⟨hpos, hq, -⟩ | ⟨hz, -⟩
  · refine ⟨fun hz => absurd hz (Nat.pos_iff_ne_zero.mp hpos), fun _ => ?_⟩
    have hmem : ((s.step a).threads t).message ∈ s.accepted := by
      rw [← h.delivered_append_queue, hq]
      exact List.mem_append_right _ (List.mem_cons_self _ _)
    have hd := hderived _ hmem
    cases hm : ((s.step a).threads t).message with
    | none => simp [hm] at hd
    | some object =>
        rw [hm, Option.any_some] at hd
        exact ⟨object, hd, by rw [hq, hm], by simp [popT, hpos, hm, hd]⟩
  · exact ⟨fun _ => by simp [popT, hz], fun hpos => absurd hz (Nat.pos_iff_ne_zero.mp hpos)⟩

/-- Thread `0` pushes a handle to an object of class `3`. -/
def derivedPush : World 2 (Message Nat) :=
  (World.init sizeMax (Nat.le_refl _) fun _ => none).run [.push 0 (some (.other 3)) 0]

theorem reachable_derivedPush : Reachable derivedPush :=
  (Reachable.init _ _ _).run _

theorem popT_asserts_hold_derivedPush :
    Reachable derivedPush ∧
    (forall m, m ∈ derivedPush.accepted ->
      m.any (fun object => decide (object = .other 3)) = true) ∧
    PopStep derivedPush 1 false (.pop 1 false) ∧
    ((derivedPush.step (.pop 1 false)).threads 1).phase = .running ∧
    ((((derivedPush.step (.pop 1 false)).threads 1).ret = 0 ->
      popT (fun object => decide (object = .other 3)) none
        ((derivedPush.step (.pop 1 false)).threads 1) = some none) ∧
    (0 < ((derivedPush.step (.pop 1 false)).threads 1).ret -> exists object,
      decide (object = .other 3) = true ∧
      derivedPush.queue = some object :: (derivedPush.step (.pop 1 false)).queue ∧
      popT (fun object => decide (object = .other 3)) none
        ((derivedPush.step (.pop 1 false)).threads 1) = some (some object))) :=
  have ha : PopStep derivedPush 1 false (.pop 1 false) := ⟨rfl, rfl, by decide⟩
  ⟨reachable_derivedPush, by decide, ha, by decide,
    popT_asserts_hold reachable_derivedPush _ (by decide) ha (by decide) none⟩

/-!
# The untyped queue under the typed one

`push`, `cancel` and `size` hand the wrapped call to `m_impl`, and `pop` hands it a fresh null
`abstract_message`.  So the untyped queue inside a typed one is, up to the callers' message
variables, the untyped queue driven by the same calls with the values wrapped: the typed layer
adds no blocking, no wake-up and no reply of its own, and never fails on the way.
-/

namespace MessageQueueT

variable {s : MessageQueueT n M}

theorem Reachable.run_impl (hs : s.Reachable) {w : World n (Message M)}
    (h : s.impl.EqUpToMessages w) (acts : List (Action n M)) :
    exists s', s.run acts = some s' ∧
      s'.impl.EqUpToMessages (w.run (acts.map (Action.map newMessage))) := by
  induction acts generalizing s w with
  | nil => exact ⟨s, rfl, h⟩
  | cons a acts ih =>
      obtain ⟨s1, hs1, h1⟩ := hs.invariant.step_impl a
      have h1' := h1.trans (h.step (fun t => (hs.invariant.impl.threads t).1) (a.map newMessage))
      obtain ⟨s', hrun, h'⟩ := ih (hs.step a hs1) h1'
      refine ⟨s', ?_, h'⟩
      show (s.step a).bind _ = _
      rw [hs1]
      exact hrun

theorem typed_queue_runs_untyped_queue (maxCapacity : Nat) (hc : maxCapacity ≤ sizeMax)
    (dst : Fin n -> M) (acts : List (Action n M)) :
    exists s', (create maxCapacity hc dst).run acts = some s' ∧
      s'.impl.EqUpToMessages
        ((World.init maxCapacity hc fun _ => none).run (acts.map (Action.map newMessage))) :=
  (Reachable.create maxCapacity hc dst).run_impl (.refl _) acts

theorem typed_queue_runs_untyped_queue_handoff :
    exists s', (create sizeMax (Nat.le_refl _) fun _ => (0 : Nat)).run
        [.pop (1 : Fin 2) true, .push 0 7 1, .resume 1] = some s' ∧
      s'.impl.EqUpToMessages
        ((World.init sizeMax (Nat.le_refl _) fun _ => none).run
          ([.pop (1 : Fin 2) true, .push 0 7 1, .resume 1].map (Action.map newMessage))) :=
  typed_queue_runs_untyped_queue sizeMax (Nat.le_refl _) _ _

end MessageQueueT

end RRThreadPool
