import EventLua.Event.Mutex

/-!
A call of the main coroutine. It may not wait, so that `event.wait` raises where it would have to;
but then it is in the queue already, where nobody can wake it.
-/
namespace EventLua.Event.Exclusion

def MainFails (w : World) : Prop :=
  w.mutex.currentThread ≠ none ∧ w.mutex.currentThread ≠ some .main

/-- The mutex is as if the main coroutine had not called, and whatever happens next, no coroutine
waits when the holder and those behind it have released the mutex and all timers have fired. -/
structure Harmless (w : World) : Prop where
  current : (call w .main).mutex.currentThread = w.mutex.currentThread
  ref : (call w .main).mutex.ref = w.mutex.ref
  queue : (call w .main).mutex.threadQueue = w.mutex.threadQueue
  served : ∀ actions w', machine.runFrom actions (call w .main) = some w' → w'.mutex.ref = 0 →
    w'.timers = [] → ∀ co, w'.blocked co = false

theorem call_main_queue (h : MainFails w) :
    (call w .main).mutex.threadQueue = w.mutex.threadQueue ++ [.main] := by
  unfold MainFails at h
  rw [call, if_pos h]
  rfl

/-- In every state of the mutex a call of the main coroutine that fails does harm. -/
theorem mainCall_harmless_iff (w : World) : (MainFails w → Harmless w) ↔ ¬ MainFails w := by
  refine ⟨fun himp hfails => ?_, fun hnot hfails => absurd hfails hnot⟩
  have hqueue := (himp hfails).queue
  simp [call_main_queue hfails] at hqueue

/-- Coroutine 0 is in a body when the main coroutine calls. Coroutine 1 queues behind it; when 0
has released the mutex and the timer has fired, 1 waits and nobody will wake it. -/
theorem mainCall_not_harmless :
    ∃ w, machine.run [.fork, .fork, .call (.co 0)] = some w ∧ MainFails w ∧
      (call w .main).mutex.threadQueue = [.main] ∧ ¬ Harmless w ∧
      ∃ w', machine.runFrom [.call (.co 1), .finish (.co 0) true, .fire 1] (call w .main) =
          some w' ∧ w'.mutex.ref = 0 ∧ w'.timers = [] ∧ w'.mutex.currentThread = some .main ∧
          w'.blocked 1 = true := by
  refine ⟨_, rfl, ⟨by decide, by decide⟩, rfl, fun h => ?_, _, rfl, by decide, by decide, by decide,
    by decide⟩
  cases h.queue

end EventLua.Event.Exclusion
