import EventLua.Worker.MessageQueue

/-!
The message queue hands out what was pushed, in order, and leaves a returned message where it
is until the next call. What the rings hold is the rest: first that of the reader, then that
of the writer. The only limit is the size of a ring, which is an `int`.
-/
namespace EventLua.Worker
open List

def waiting (w : World) : List QueueMessage :=
  (w.mq.queue w.mq.reader).toRing.contents ++ (w.mq.queue w.mq.writer).toRing.contents

/-- What was popped and what is waiting are together what was pushed, and the message that
was returned last is still there. -/
structure Fifo (w : World) : Prop where
  fault : w.fault = none
  order : w.pushed = w.popped ++ waiting w
  stable : ∀ slot message, w.last = some (slot, message) → w.mq.deref slot = some message

def Size (cap : Nat) : Prop := ∃ k, k ≤ 27 ∧ cap = 8 * 2 ^ k

theorem Size.le (h : Size cap) : cap ≤ 2 ^ 30 := by
  obtain ⟨k, hk, rfl⟩ := h
  have hpow : 2 ^ k ≤ 2 ^ 27 := Nat.pow_le_pow_right (by decide) hk
  omega

theorem Size.double (h : Size cap) (hlt : cap < 2 ^ 30) : Size (cap * 2) := by
  obtain ⟨k, hk, rfl⟩ := h
  refine ⟨k + 1, ?_, ?_⟩
  · rcases Nat.lt_or_eq_of_le hk with hk | rfl
    · exact hk
    · exact absurd hlt (by decide)
  · rw [Nat.pow_succ, Nat.mul_assoc]

/-- The two rings hold the messages that wait, `xs` for the reader and `ys` behind them. -/
structure Ordered (w : World) (xs ys : List QueueMessage) : Prop where
  fault : w.fault = none
  apart : w.mq.writer ≠ w.mq.reader
  reads : (w.mq.queue w.mq.reader).toRing.Holds xs
  writes : (w.mq.queue w.mq.writer).toRing.Holds ys
  size : ∀ i, Size (w.mq.queue i).cap
  order : w.pushed = w.popped ++ (xs ++ ys)
  found : w.consumer = .locking → xs = []
  last : ∀ slot message, w.last = some (slot, message) →
    w.consumer = .outside ∧ slot.queue = w.mq.reader ∧ w.mq.deref slot = some message

variable {w : World}

theorem Ordered.fifo (h : Ordered w xs ys) : Fifo w := by
  refine ⟨h.fault, ?_, fun slot message hlast => (h.last slot message hlast).2.2⟩
  rw [waiting, h.reads.contents_eq, h.writes.contents_eq, h.order]

section
variable {q : QueueContext} {ys : List QueueMessage}

theorem growWhenFull_ok (message : QueueMessage) (hq : q.toRing.Holds ys)
    (hsize : Size q.cap) (hroom : ys.length + 1 < 2 ^ 30) :
    ∃ t, growWhenFull { q with toRing := q.toRing.put message } = .ok t ∧
      t.toRing.Holds (ys ++ [message]) ∧ Size t.cap := by
  have hspans := hq.put message
  have hfull := hspans.full_iff (append_ne_nil_of_right_ne_nil _ (cons_ne_nil _ _))
  rw [length_append, length_singleton] at hfull
  unfold growWhenFull
  split
  · next hmeet =>
    have hlen := hfull.mp hmeet
    have hcap : q.cap < 2 ^ 30 := by
      rw [← show (q.toRing.put message).cap = q.cap from rfl, ← hlen]
      exact hroom
    have hdouble : (q.toRing.put message).cap * 2 < 2 ^ 31 := by
      omega
    rw [if_pos hdouble]
    refine ⟨_, rfl, hspans.grow ?_, hsize.double hcap⟩
    rw [length_append, length_singleton, hlen]
  · next hmeet =>
    refine ⟨_, rfl, ⟨hspans, ?_⟩, hsize⟩
    refine Nat.lt_of_le_of_ne hspans.le_cap fun hlen => hmeet (hfull.mpr ?_)
    rwa [length_append, length_singleton] at hlen

theorem checkThreshold_ok (hq : q.toRing.Holds ys) (hsize : Size q.cap) :
    ∃ t, checkThreshold q = .ok t ∧ t.toRing = q.toRing ∧ t.generation = q.generation := by
  unfold checkThreshold
  split
  · next hreached =>
    rw [hq.length_eq] at hreached
    have hlen := hq.lt_cap
    have hcap := hsize.le
    rw [if_pos (by omega)]
    exact ⟨_, rfl, rfl, rfl⟩
  · exact ⟨q, rfl, rfl, rfl⟩

end

section
variable {xs ys : List QueueMessage}

theorem Ordered.queuePush_ok (h : Ordered w xs ys) (hroom : ys.length + 1 < 2 ^ 30)
    (message : QueueMessage) : ∃ q, queuePush w.mq message = .ok (w.mq.withQueue w.mq.writer q) ∧
      q.toRing.Holds (ys ++ [message]) ∧ Size q.cap := by
  obtain ⟨grown, hgrown, hholds, hsize⟩ := growWhenFull_ok message h.writes (h.size _) hroom
  obtain ⟨q, hq, hring, -⟩ := checkThreshold_ok hholds hsize
  refine ⟨q, ?_, ?_, ?_⟩
  · simp only [queuePush, if_neg h.apart, hgrown, hq, Outcome.ok_bind]
    rfl
  · rwa [hring]
  · rwa [hring]

theorem Ordered.push (h : Ordered w xs ys) (hroom : ys.length + 1 < 2 ^ 30)
    (message : QueueMessage) : Ordered (push w message) xs (ys ++ [message]) := by
  obtain ⟨q, hpush, hholds, hsize⟩ := h.queuePush_ok hroom message
  have hreader : (w.mq.withQueue w.mq.writer q).queue w.mq.reader = w.mq.queue w.mq.reader :=
    if_neg h.apart.symm
  have hwriter : (w.mq.withQueue w.mq.writer q).queue w.mq.writer = q := if_pos rfl
  simp only [Worker.push, hpush]
  refine ⟨h.fault, h.apart, ?_, ?_, fun i => ?_, ?_, h.found, ?_⟩
  · exact hreader.symm ▸ h.reads
  · exact hwriter.symm ▸ hholds
  · by_cases hi : i = w.mq.writer
    · rw [hi]
      exact hwriter.symm ▸ hsize
    · have hother : (w.mq.withQueue w.mq.writer q).queue i = w.mq.queue i := if_neg hi
      exact hother.symm ▸ h.size i
  · rw [h.order]
    simp
  · intro slot m hlast
    obtain ⟨hout, hslot, hderef⟩ := h.last slot m hlast
    refine ⟨hout, hslot, ?_⟩
    rw [MessageQueue.deref, hslot] at hderef ⊢
    rw [hreader]
    exact hderef

theorem Ordered.push_fault (h : Ordered w xs ys) (hroom : ¬ ys.length + 1 < 2 ^ 30)
    (message : QueueMessage) : (Worker.push w message).fault = some .undefined := by
  have hspans := h.writes.put message
  have hlen := h.writes.lt_cap
  have hcap := (h.size w.mq.writer).le
  have hfull := hspans.full_iff (append_ne_nil_of_right_ne_nil _ (cons_ne_nil _ _))
  rw [length_append, length_singleton] at hfull
  have hmeet := hfull.mpr (show ys.length + 1 = (w.mq.queue w.mq.writer).cap by omega)
  have hbig : ¬ (w.mq.queue w.mq.writer).cap * 2 < 2 ^ 31 := by omega
  have hgrow : growWhenFull { w.mq.queue w.mq.writer with
      toRing := (w.mq.queue w.mq.writer).toRing.put message } = .error .undefined := by
    rw [growWhenFull, if_pos hmeet]
    exact if_neg hbig
  simp [Worker.push, queuePush, if_neg h.apart, hgrow, Outcome.error_bind]

theorem Ordered.returned {message : QueueMessage} (h : Ordered w (message :: xs) ys) :
    ∃ slot mq, takeHead w.mq = some (slot, mq) ∧ Ordered (returned w slot mq) xs ys := by
  obtain ⟨hhead, hdrop⟩ := h.reads.drop
  have hne : ¬ (w.mq.queue w.mq.reader).head = (w.mq.queue w.mq.reader).tail := by
    rw [h.reads.empty_iff]
    exact cons_ne_nil _ _
  refine ⟨_, _, if_neg hne, ?_⟩
  have hreader : ∀ q, (w.mq.withQueue w.mq.reader q).queue w.mq.reader = q := fun q => if_pos rfl
  have hwriter : ∀ q, (w.mq.withQueue w.mq.reader q).queue w.mq.writer = w.mq.queue w.mq.writer :=
    fun q => if_neg h.apart
  refine ⟨h.fault, h.apart, ?_, ?_, fun i => ?_, ?_, fun hlock => (by cases hlock), ?_⟩
  · show ((w.mq.withQueue w.mq.reader _).queue w.mq.reader).toRing.Holds xs
    rw [hreader]
    exact hdrop
  · show ((w.mq.withQueue w.mq.reader _).queue w.mq.writer).toRing.Holds ys
    rw [hwriter]
    exact h.writes
  · show Size ((w.mq.withQueue w.mq.reader _).queue i).cap
    by_cases hi : i = w.mq.reader
    · rw [hi, hreader]
      exact h.size w.mq.reader
    · have hother : ∀ q, (w.mq.withQueue w.mq.reader q).queue i = w.mq.queue i := fun q => if_neg hi
      rw [hother]
      exact h.size i
  · show w.pushed = (w.popped ++ [((w.mq.withQueue w.mq.reader _).queue w.mq.reader).slots _]) ++ _
    rw [hreader, h.order]
    show _ = (w.popped ++ [(w.mq.queue w.mq.reader).slots (w.mq.queue w.mq.reader).head]) ++ _
    rw [hhead]
    simp
  · intro slot m hlast
    cases hlast
    refine ⟨rfl, rfl, if_pos ?_⟩
    show _ = ((w.mq.withQueue w.mq.reader _).queue w.mq.reader).generation
    rw [hreader]

theorem Ordered.takeHead_none (h : Ordered w [] ys) : takeHead w.mq = none :=
  if_pos (h.reads.empty_iff.mpr rfl)

theorem Ordered.clearOverload (h : Ordered w xs ys) :
    Ordered { w with mq := clearOverload w.mq, last := none } xs ys := by
  have hring : ∀ i, ((Worker.clearOverload w.mq).queue i).toRing = (w.mq.queue i).toRing := by
    intro i
    by_cases hi : i = w.mq.reader
    · rw [hi, Worker.clearOverload, MessageQueue.withQueue]
      dsimp only
      rw [if_pos rfl]
    · exact congrArg QueueContext.toRing (if_neg hi)
  refine ⟨h.fault, h.apart, ?_, ?_, fun i => ?_, h.order, h.found, fun _ _ hlast => ?_⟩
  · exact (hring _).symm ▸ h.reads
  · exact (hring _).symm ▸ h.writes
  · exact (hring i).symm ▸ h.size i
  · cases hlast

theorem Ordered.pop (h : Ordered w xs ys) : ∃ xs' ys', Ordered (pop w) xs' ys' := by
  have hclear := h.clearOverload
  unfold Worker.pop
  cases xs with
  | nil =>
    have hnone := hclear.takeHead_none
    simp only at hnone
    simp only [hnone]
    exact ⟨[], ys, hclear.fault, hclear.apart, hclear.reads, hclear.writes, hclear.size,
      hclear.order, fun _ => rfl, fun _ _ hlast => (by cases hlast)⟩
  | cons message xs =>
    obtain ⟨slot, mq, htake, hnext⟩ := hclear.returned
    simp only at htake
    simp only [htake]
    exact ⟨xs, ys, hnext⟩

theorem Ordered.again (h : Ordered w xs ys) (hc : w.consumer = .swapped) :
    ∃ xs' ys', Ordered (again w) xs' ys' := by
  unfold Worker.again
  cases xs with
  | nil =>
    simp only [h.takeHead_none]
    refine ⟨[], ys, h.fault, h.apart, h.reads, h.writes, h.size, h.order,
      fun hlock => (by cases hlock), fun slot message hlast => ?_⟩
    exact absurd (hc.symm.trans (h.last slot message hlast).1) (by decide)
  | cons message xs =>
    obtain ⟨slot, mq, htake, hnext⟩ := h.returned
    simp only [htake]
    exact ⟨xs, ys, hnext⟩

theorem succ_apart {i j : Fin 2} (h : i ≠ j) : i + 1 = j := by
  revert i j
  decide

theorem Ordered.swap (h : Ordered w xs ys) (hc : w.consumer = .locking) :
    Ordered { w with mq := swap w.mq, consumer := .swapped } ys [] := by
  have hnil := h.found hc
  subst hnil
  have hreader : (Worker.swap w.mq).reader = w.mq.writer := succ_apart h.apart.symm
  have hwriter : (Worker.swap w.mq).writer = w.mq.reader := succ_apart h.apart
  refine ⟨h.fault, ?_, ?_, ?_, h.size, ?_, fun hlock => (by cases hlock), fun slot m hlast => ?_⟩
  · rw [hreader, hwriter]
    exact h.apart.symm
  · rw [hreader]
    exact h.writes
  · rw [hwriter]
    exact h.reads
  · rw [h.order]
    simp
  · exact absurd (hc.symm.trans (h.last slot m hlast).1) (by decide)

end

def Room (w : World) : Action → Prop
  | .push _ => (w.mq.queue w.mq.writer).toRing.length + 1 < 2 ^ 30
  | _ => True

instance (w : World) (a : Action) : Decidable (Room w a) := by
  induction a using Action.casesOn <;> delta Room <;> infer_instance

def Good (w : World) : Prop := ∃ xs ys, Ordered w xs ys

theorem Good.fifo (h : Good w) : Fifo w := by
  obtain ⟨xs, ys, h⟩ := h
  exact h.fifo

variable {a : Action}

theorem Good.perform (h : Good w) (henabled : Enabled w a)
    (hroom : Room w a) : Good (perform w a) := by
  obtain ⟨xs, ys, h⟩ := h
  cases a with
  | push message =>
    rw [Room, h.writes.length_eq] at hroom
    exact ⟨xs, ys ++ [message], h.push hroom message⟩
  | pop => exact h.pop
  | swap => exact ⟨ys, [], h.swap henabled.2⟩
  | again => exact h.again henabled.2

theorem Good.perform_fault (h : Good w) (hroom : ¬ Room w a) :
    (Worker.perform w a).fault = some .undefined := by
  obtain ⟨xs, ys, h⟩ := h
  cases a with
  | push message =>
    rw [Room, h.writes.length_eq] at hroom
    exact h.push_fault hroom message
  | pop | swap | again => exact absurd trivial hroom

theorem init_ordered : Ordered machine.init [] [] := by
  have hholds : ∀ i, (queueCreate.queue i).toRing.Holds [] := fun i =>
    ⟨⟨Nat.succ_pos 7, Nat.zero_le 8, rfl, fun j hj => (by cases hj)⟩, Nat.succ_pos 7⟩
  exact ⟨rfl, by decide, hholds 0, hholds 1, fun i => ⟨0, by decide, rfl⟩, rfl,
    fun hlock => (by cases hlock), fun _ _ hlast => (by cases hlast)⟩

/-- In every state of a run the queue is first in first out and the last message is in
place, exactly when no push brings the ring of the writer to 2^30 messages. -/
theorem queue_fifo_iff (actions : List Action) (w : World) (h : machine.run actions = some w) :
    machine.Throughout Fifo actions machine.init ↔ machine.Along Room actions machine.init := by
  refine Machine.throughout_iff_along (fun s => Good.fifo) ?_ ?_ ⟨[], [], init_ordered⟩
    (Machine.along_trivial actions _) h
  · intro s a t hs _ hroom hstep
    obtain ⟨henabled, rfl⟩ := of_guard hstep
    exact hs.perform henabled hroom
  · intro s a t hs _ hroom hstep hfifo
    obtain ⟨-, rfl⟩ := of_guard hstep
    cases (hs.perform_fault hroom).symm.trans hfifo.fault

def numbered (n : Nat) : QueueMessage := ⟨1, n, 0, 8⟩

def busyRun : List Action :=
  [.push (numbered 1), .push (numbered 2), .pop, .push (numbered 3), .swap, .again, .pop, .pop,
    .push (numbered 4)] ++
  (List.range 10).map (fun n => .push (numbered (n + 5))) ++ [.pop, .swap, .again, .pop]

theorem busyRun_fifo :
    ((machine.run busyRun).map (·.popped)) = some ((List.range 5).map (numbered <| · + 1)) ∧
      machine.Throughout Fifo busyRun machine.init := by
  have hrun : ((machine.run busyRun).map (·.popped)) =
      some ((List.range 5).map (numbered <| · + 1)) := by decide +kernel
  obtain ⟨w, hw, -⟩ := Option.map_eq_some_iff.mp hrun
  refine ⟨hrun, (queue_fifo_iff busyRun w hw).mpr ?_⟩
  decide +kernel

variable (message : QueueMessage)

theorem run_push (hrun : machine.run actions = some w) (hw : w.fault = none) :
    machine.run (actions ++ [.push message]) = some (push w message) := by
  rw [Machine.run] at hrun ⊢
  rw [Machine.runFrom_append, hrun]
  show (if Enabled w (.push message) then some (push w message) else none).bind _ = _
  rw [if_pos (show Enabled w (.push message) from hw)]
  rfl

theorem pushes_ordered (n : Nat) (hn : n < 2 ^ 30) :
    ∃ w xs, machine.run (List.replicate n (.push message)) = some w ∧
      Ordered w xs (List.replicate n message) := by
  induction n with
  | zero => exact ⟨machine.init, [], rfl, init_ordered⟩
  | succ n ih =>
    obtain ⟨w, xs, hrun, hw⟩ := ih (Nat.lt_of_succ_lt hn)
    refine ⟨push w message, xs, ?_, ?_⟩
    · rw [replicate_succ']
      exact run_push message hrun hw.fault
    · rw [replicate_succ']
      refine hw.push ?_ message
      rwa [length_replicate]

theorem pushes_fault (n : Nat) (hn : n + 1 = 2 ^ 30) :
    ∃ w, machine.run (List.replicate (n + 1) (.push message)) = some w ∧
      w.fault = some .undefined := by
  obtain ⟨w, xs, hrun, hw⟩ := pushes_ordered message n (by omega)
  refine ⟨push w message, ?_, hw.push_fault ?_ message⟩
  · rw [replicate_succ']
    exact run_push message hrun hw.fault
  · rw [length_replicate, hn]
    exact Nat.lt_irrefl _

/-- 2^30 messages are pushed while the consumer is busy elsewhere. -/
theorem pushes_not_fifo :
    ∃ w, machine.run (List.replicate (2 ^ 30) (.push (numbered 1))) = some w ∧ ¬ Fifo w := by
  have hn : 2 ^ 30 - 1 + 1 = 2 ^ 30 := by decide
  obtain ⟨w, hrun, hw⟩ := pushes_fault (numbered 1) (2 ^ 30 - 1) hn
  rw [hn] at hrun
  refine ⟨w, hrun, fun hfifo => ?_⟩
  cases hw.symm.trans hfifo.fault

end EventLua.Worker
