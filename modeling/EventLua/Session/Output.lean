import EventLua.Foundation.Machine
import EventLua.Session.Events

/-!
The output side of a session with its bytes. `ev_session_write` goes to the socket directly
while the write watcher is idle and queues what is left; `_ev_write_cb` sends the queue. What
went out and what is queued is what was accepted, until a `socket_write` fails. Then the
watcher is stopped, and bytes that went out before the failure are not counted.
-/
namespace EventLua.Session.Output
open List

open EventLua.Session

inductive Answer where
  | wrote (n : Nat)
  | interrupted
  | again
  | failed
deriving DecidableEq

/-- The end of a `socket_write`: what it returns, `none` for `-1`, the bytes that went out and
the answers that are left. -/
structure Written where
  result : Option Nat
  sent : Bytes
  answers : List Answer

/-- `socket_write`. Behind its last answer the socket takes nothing more. -/
def socketWrite : List Answer → Bytes → Written
  | [], _ => ⟨some 0, [], []⟩
  | .interrupted :: answers, data => socketWrite answers data
  | .again :: answers, _ => ⟨some 0, [], answers⟩
  | .failed :: answers, _ => ⟨none, [], answers⟩
  | .wrote n :: answers, data =>
    let sz := min n data.length
    if sz = 0 then ⟨none, [], answers⟩
    else if sz = data.length then ⟨some sz, data, answers⟩
    else
      let more := socketWrite answers (data.drop sz)
      ⟨more.result.map (sz + ·), data.take sz ++ more.sent, more.answers⟩

theorem socketWrite_spec (answers : List Answer) (data : Bytes) :
    (socketWrite answers data).sent = data.take (socketWrite answers data).sent.length ∧
      ∀ total, (socketWrite answers data).result = some total →
        total = (socketWrite answers data).sent.length := by
  induction answers generalizing data with
  | nil => exact ⟨rfl, fun total h => (Option.some.inj h).symm⟩
  | cons answer answers ih =>
    cases answer with
    | interrupted => exact ih data
    | again => exact ⟨rfl, fun total h => (Option.some.inj h).symm⟩
    | failed => exact ⟨rfl, fun total h => by cases h⟩
    | wrote n =>
      rw [socketWrite]
      split
      next => exact ⟨rfl, fun total h => by cases h⟩
      next =>
        split
        next hall => exact ⟨(take_length ..).symm, fun total h => by cases h; exact hall⟩
        next =>
          obtain ⟨htake, hresult⟩ := ih (data.drop (min n data.length))
          have hlen : (data.take (min n data.length)).length = min n data.length := by
            rw [length_take]
            omega
          constructor
          · rw [length_append, hlen, take_add, ← htake]
          · intro total h
            obtain ⟨more, hmore, rfl⟩ := Option.map_eq_some_iff.mp h
            rw [length_append, hlen, hresult more hmore]

theorem socketWrite_le (answers : List Answer) (data : Bytes) :
    (socketWrite answers data).sent.length ≤ data.length := by
  have hspec := congrArg List.length (socketWrite_spec answers data).1
  rw [length_take] at hspec
  omega

/-- `rpos` moves on by what went out, which is never more than what was left. -/
def advance (db : DataBuffer) (n : Nat) : DataBuffer :=
  if h : db.rpos + n ≤ db.wpos then { db with rpos := db.rpos + n, rpos_le := h } else db

theorem advance_spec (db : DataBuffer) (h : n ≤ db.left) :
    (advance db n).unread = db.unread.drop n ∧ (advance db n).left = db.left - n := by
  have hle : db.rpos + n ≤ db.wpos := by
    have hpos := db.rpos_le
    rw [DataBuffer.left] at h
    omega
  rw [advance, dif_pos hle]
  constructor
  · simp [DataBuffer.unread]
  · simp only [DataBuffer.left]
    omega

inductive Ending where
  | drained
  | blocked
  | failed
deriving DecidableEq

/-- What the loop of `_ev_write_cb` leaves: the buffers, what it takes off the total, and the
bytes that went out. -/
structure Flushed where
  buffers : List DataBuffer
  count : Nat
  sent : Bytes
  ending : Ending

def writeLoop : List DataBuffer → List Answer → Flushed
  | [], _ => ⟨[], 0, [], .drained⟩
  | wdb :: next, answers =>
    let written := socketWrite answers wdb.unread
    match written.result with
    | none => ⟨wdb :: next, 0, written.sent, .failed⟩
    | some total =>
      if total = wdb.left then
        let rest := writeLoop next written.answers
        ⟨rest.buffers, total + rest.count, written.sent ++ rest.sent, rest.ending⟩
      else ⟨advance wdb total :: next, total, written.sent, .blocked⟩

theorem writeLoop_total (buffers : List DataBuffer) (answers : List Answer) :
    totalLeft buffers - (writeLoop buffers answers).count =
      totalLeft (writeLoop buffers answers).buffers := by
  induction buffers generalizing answers with
  | nil => rfl
  | cons wdb next ih =>
    have hspec := (socketWrite_spec answers wdb.unread).2
    have hle := socketWrite_le answers wdb.unread
    rw [DataBuffer.length_unread] at hle
    rw [writeLoop]
    cases hresult : (socketWrite answers wdb.unread).result with
    | none => rfl
    | some total =>
      have htotal := hspec total hresult
      dsimp only
      split
      next hall =>
        rw [totalLeft_cons, ← ih]
        dsimp only
        omega
      next =>
        dsimp only
        rw [totalLeft_cons, totalLeft_cons, (advance_spec wdb (htotal ▸ hle)).2]
        omega

/-- A session with its output. `accepted` and `sent` keep the bytes of the writes that were
accepted and the bytes that went out, `refused` those of the write whose `socket_write`
failed. -/
structure World where
  alive : Bool
  writing : Bool
  output : EvBuffer
  accepted : Bytes
  sent : Bytes
  refused : Bytes
  fault : Option Fault

def World.fail (w : World) : World := { w with alive := false, writing := false }

/-- `buffer_append`, whose total is an `int`. -/
def World.append (w : World) (db : DataBuffer) : World :=
  if w.output.total + db.left < 2 ^ 31 then { w with output := bufferAppend w.output db }
  else { w with fault := some .undefined }

def evWriteCb (w : World) (answers : List Answer) : World :=
  let flushed := writeLoop w.output.buffers answers
  let w :=
    { w with
      output := ⟨flushed.buffers, w.output.total - flushed.count,
        w.output.total_eq ▸ writeLoop_total w.output.buffers answers⟩
      sent := w.sent ++ flushed.sent }
  match flushed.ending with
  | .failed => w.fail
  | .blocked => w
  | .drained =>
    let w := { w with writing := false }
    if w.output.total = 0 then w else { w with fault := some .aborted }

/-- `ev_session_write` with what it returns. Positions and totals are `int`. -/
def evSessionWrite (w : World) (data : Bytes) (answers : List Answer) : World × Int :=
  if w.alive = false then (w, -1)
  else if 2 ^ 31 ≤ data.length then ({ w with fault := some .undefined }, -1)
  else if w.writing then (w.append (DataBuffer.ofChunk data), 0)
  else
    let written := socketWrite answers data
    let w := { w with sent := w.sent ++ written.sent }
    match written.result with
    | none => (w.fail, -1)
    | some total =>
      if total = data.length then (w, total)
      else ({ w.append (advance (DataBuffer.ofChunk data) total) with writing := true }, total)

inductive Action where
  | write (data : Bytes) (answers : List Answer)
  | writable (answers : List Answer)
deriving DecidableEq

/-- An event comes only to a watcher that is active. -/
def Enabled (w : World) : Action → Prop
  | .write _ _ => w.fault = none
  | .writable _ => w.fault = none ∧ w.writing = true

instance (w : World) (a : Action) : Decidable (Enabled w a) := by
  unfold Enabled
  split <;> infer_instance

def perform (w : World) : Action → World
  | .write data answers =>
    let (w', returned) := evSessionWrite w data answers
    if 0 ≤ returned then { w' with accepted := w'.accepted ++ data }
    else if w.alive then { w' with refused := data }
    else w'
  | .writable answers => evWriteCb w answers

def freshSession : World where
  alive := true
  writing := false
  output := EvBuffer.empty
  accepted := []
  sent := []
  refused := []
  fault := none

def machine : Machine World Action where
  init := freshSession
  step w a := if Enabled w a then some (perform w a) else none

/-- The `int` of the total holds what the write may add. -/
def Fits (w : World) : Action → Prop
  | .write data _ => w.output.total + data.length < 2 ^ 31
  | .writable _ => True

instance (w : World) (a : Action) : Decidable (Fits w a) := by
  unfold Fits
  split <;> infer_instance

/-- What went out is a front of what was accepted, the total is the rest of it, and the
watcher is active as long as there is a rest. -/
structure InOrder (w : World) : Prop where
  ordered : w.sent <+: w.accepted
  total : w.output.total = w.accepted.length - w.sent.length
  watched : 0 < w.accepted.length - w.sent.length → w.writing = true

/-- What holds in every state: while the session lives, what went out and what is queued is
what was accepted, and an idle watcher has nothing queued. -/
structure Inv (w : World) : Prop where
  fault : w.fault = none
  whole : w.alive = true → w.sent ++ w.output.contents = w.accepted
  queued : w.alive = true → w.writing = false → w.output.buffers = []
  stopped : w.alive = false → w.writing = false ∧ w.sent <+: w.accepted ++ w.refused

theorem inv_freshSession : Inv freshSession := by
  refine ⟨rfl, fun _ => rfl, fun _ _ => rfl, fun h => ?_⟩
  cases h

variable {w : World}

theorem Inv.inOrder (h : Inv w) (halive : w.alive = true) : InOrder w := by
  have hwhole := h.whole halive
  have hlen := congrArg List.length hwhole
  rw [length_append, EvBuffer.length_contents] at hlen
  refine ⟨⟨w.output.contents, hwhole⟩, by omega, fun hpos => ?_⟩
  cases hwriting : w.writing with
  | true => rfl
  | false =>
    have htotal := w.output.total_eq
    rw [h.queued halive hwriting] at htotal
    have hzero : totalLeft [] = 0 := rfl
    omega

/-- The bytes that go out and those that stay are the bytes that were queued; a loop that is
not blocked leaves no buffer. -/
theorem writeLoop_spec (buffers : List DataBuffer) (answers : List Answer) :
    (writeLoop buffers answers).sent <+: joined buffers ∧
      ((writeLoop buffers answers).ending ≠ .failed →
        (writeLoop buffers answers).sent ++ joined (writeLoop buffers answers).buffers =
          joined buffers) ∧ ((writeLoop buffers answers).ending = .drained →
        (writeLoop buffers answers).buffers = []) := by
  induction buffers generalizing answers with
  | nil => exact ⟨List.nil_prefix, fun _ => rfl, fun _ => rfl⟩
  | cons wdb next ih =>
    obtain ⟨htake, hspec⟩ := socketWrite_spec answers wdb.unread
    have hle := socketWrite_le answers wdb.unread
    have hleft := wdb.length_unread
    rw [writeLoop, joined_cons]
    cases hresult : (socketWrite answers wdb.unread).result with
    | none =>
      refine ⟨?_, fun h => absurd rfl h, fun h => by cases h⟩
      dsimp only
      rw [htake]
      exact (List.take_prefix _ _).trans (List.prefix_append _ _)
    | some total =>
      have htotal := hspec total hresult
      dsimp only
      split
      next hall =>
        obtain ⟨hfront, hwhole, hempty⟩ := ih (socketWrite answers wdb.unread).answers
        have hsent : (socketWrite answers wdb.unread).sent = wdb.unread := by
          rw [htake, take_of_length_le (by omega)]
        dsimp only
        rw [hsent]
        refine ⟨(List.prefix_append_right_inj _).mpr hfront, fun h => ?_, hempty⟩
        rw [append_assoc, hwhole h]
      next =>
        have hrest := (advance_spec wdb (show total ≤ wdb.left by omega)).1
        dsimp only
        rw [joined_cons, hrest, htotal, ← append_assoc]
        nth_rewrite 1 [htake]
        nth_rewrite 2 [htake]
        rw [take_append_drop]
        have hfront : wdb.unread <+: wdb.unread ++ joined next := List.prefix_append _ _
        exact ⟨(List.take_prefix _ _).trans hfront, fun _ => rfl, fun h => by cases h⟩

theorem Inv.of_alive (hfault : w.fault = none) (halive : w.alive = true)
    (hwhole : w.sent ++ w.output.contents = w.accepted)
    (hqueued : w.writing = false → w.output.buffers = []) : Inv w := by
  refine ⟨hfault, fun _ => hwhole, fun _ => hqueued, fun hdead => ?_⟩
  rw [halive] at hdead
  cases hdead

theorem Inv.of_dead (hfault : w.fault = none) (hdead : w.alive = false)
    (hidle : w.writing = false) (hfront : w.sent <+: w.accepted ++ w.refused) : Inv w := by
  refine ⟨hfault, fun halive => ?_, fun halive => ?_, fun _ => ⟨hidle, hfront⟩⟩
  · rw [hdead] at halive
    cases halive
  · rw [hdead] at halive
    cases halive

theorem Inv.alive_of_writing (h : Inv w) (hwriting : w.writing = true) : w.alive = true := by
  cases halive : w.alive with
  | true => rfl
  | false =>
    rw [(h.stopped halive).1] at hwriting
    cases hwriting

theorem Inv.evWriteCb (h : Inv w) (hwriting : w.writing = true)
    (answers : List Answer) : Inv (evWriteCb w answers) := by
  have halive := h.alive_of_writing hwriting
  have hwhole := h.whole halive
  obtain ⟨hfront, hkept, hempty⟩ := writeLoop_spec w.output.buffers answers
  rw [EvBuffer.contents] at hwhole
  have hnext : (writeLoop w.output.buffers answers).ending ≠ .failed →
      (w.sent ++ (writeLoop w.output.buffers answers).sent) ++
        joined (writeLoop w.output.buffers answers).buffers = w.accepted := by
    intro hending
    rw [append_assoc, hkept hending, hwhole]
  rw [Output.evWriteCb]
  cases hending : (writeLoop w.output.buffers answers).ending with
  | failed =>
    obtain ⟨rest, hrest⟩ := hfront
    refine Inv.of_dead h.fault rfl rfl ⟨rest ++ w.refused, ?_⟩
    simp only [World.fail]
    rw [← hwhole, ← hrest]
    simp
  | blocked =>
    refine Inv.of_alive h.fault halive (hnext (by rw [hending]; simp)) fun hidle => ?_
    rw [show w.writing = false from hidle] at hwriting
    cases hwriting
  | drained =>
    have hnil := hempty hending
    have hzero : w.output.total - (writeLoop w.output.buffers answers).count = 0 := by
      rw [w.output.total_eq, writeLoop_total, hnil]
      rfl
    rw [if_pos hzero]
    exact Inv.of_alive h.fault halive (hnext (by rw [hending]; simp)) fun _ => hnil

theorem append_of_fits (h : w.output.total + db.left < 2 ^ 31) :
    w.append db = { w with output := bufferAppend w.output db } := if_pos h

variable {data : Bytes}

theorem perform_accepted {w w' : World} {answers : List Answer} {total : Nat}
    (h : evSessionWrite w data answers = (w', (total : Int))) :
    perform w (.write data answers) = { w' with accepted := w'.accepted ++ data } := by
  simp [perform, h]

theorem perform_refused {w w' : World} {answers : List Answer}
    (halive : w.alive = true) (h : evSessionWrite w data answers = (w', -1)) :
    perform w (.write data answers) = { w' with refused := data } := by
  have hneg : ¬ (0 : Int) ≤ -1 := by decide
  simp only [perform, h, if_neg hneg, halive, if_true]

section
variable (answers : List Answer) (halive : w.alive = true)
  (hfits : w.output.total + data.length < 2 ^ 31)

include halive hfits

theorem evSessionWrite_queued (hwriting : w.writing = true) : evSessionWrite w data answers =
      ({ w with output := bufferAppend w.output (DataBuffer.ofChunk data) },
        ((0 : Nat) : Int)) := by
  have hsmall : ¬ 2 ^ 31 ≤ data.length := by omega
  have hroom : w.output.total + (DataBuffer.ofChunk data).left < 2 ^ 31 := hfits
  simp only [evSessionWrite, halive, reduceCtorEq, if_false, if_neg hsmall, hwriting, if_true,
    append_of_fits hroom, Int.natCast_zero]

theorem evSessionWrite_direct (hwriting : w.writing = false) :
    let sent := data.take (socketWrite answers data).sent.length
    evSessionWrite w data answers = ({ w with sent := w.sent ++ data }, (data.length : Int)) ∨
      (∃ total ≤ data.length, evSessionWrite w data answers = ({ w with
            sent := w.sent ++ data.take total
            output := bufferAppend w.output (advance (DataBuffer.ofChunk data) total)
            writing := true }, (total : Int))) ∨
      evSessionWrite w data answers = (({ w with sent := w.sent ++ sent } : World).fail, -1) := by
  have hsmall : ¬ 2 ^ 31 ≤ data.length := by omega
  obtain ⟨htake, hspec⟩ := socketWrite_spec answers data
  have hle := socketWrite_le answers data
  dsimp only
  rw [← htake]
  simp only [evSessionWrite, halive, reduceCtorEq, if_false, if_neg hsmall, hwriting,
    Bool.false_eq_true]
  cases hresult : (socketWrite answers data).result with
  | none => exact .inr (.inr rfl)
  | some total =>
    have htotal := hspec total hresult
    rw [htake, ← htotal]
    dsimp only
    by_cases hall : total = data.length
    · rw [if_pos hall, hall, take_length]
      exact .inl rfl
    · have hleft := (advance_spec (DataBuffer.ofChunk data) (n := total)
        (by rw [htotal]; exact hle)).2
      have hwhole : (DataBuffer.ofChunk data).left = data.length := rfl
      have hroom : w.output.total + (advance (DataBuffer.ofChunk data) total).left < 2 ^ 31 := by
        omega
      rw [if_neg hall, append_of_fits (w := { w with
        alive := true, writing := false, sent := w.sent ++ data.take total }) hroom]
      exact .inr (.inl ⟨total, by omega, rfl⟩)

end

theorem Inv.write (h : Inv w)
    (hfits : w.output.total + data.length < 2 ^ 31) (answers : List Answer) :
    Inv (perform w (.write data answers)) := by
  cases halive : w.alive with
  | false =>
    have hsame : perform w (.write data answers) = w := by
      simp [perform, evSessionWrite, halive]
    rw [hsame]
    exact h
  | true =>
    have hwhole := h.whole halive
    cases hwriting : w.writing with
    | true =>
      rw [perform_accepted (evSessionWrite_queued answers halive hfits hwriting)]
      refine Inv.of_alive h.fault halive ?_ fun hidle => ?_
      · rw [contents_bufferAppend, DataBuffer.unread_ofChunk, ← append_assoc, hwhole]
      · rw [show w.writing = false from hidle] at hwriting
        cases hwriting
    | false =>
      have hnone : w.output.contents = [] := by
        rw [EvBuffer.contents, h.queued halive hwriting]
        rfl
      rw [hnone, append_nil] at hwhole
      rcases evSessionWrite_direct answers halive hfits hwriting with
        hsent | ⟨total, hle, hpart⟩ | hfail
      · rw [perform_accepted hsent]
        refine Inv.of_alive h.fault halive ?_ fun _ => h.queued halive hwriting
        rw [hnone, append_nil, hwhole]
      · rw [perform_accepted hpart]
        refine Inv.of_alive h.fault halive ?_ fun hidle => by cases hidle
        have hrest := (advance_spec (DataBuffer.ofChunk data) hle).1
        rw [contents_bufferAppend, hnone, hrest, DataBuffer.unread_ofChunk, nil_append,
          append_assoc, take_append_drop, hwhole]
      · rw [perform_refused halive hfail]
        refine Inv.of_dead h.fault rfl rfl ?_
        simp only [World.fail]
        rw [hwhole]
        exact (List.prefix_append_right_inj _).mpr (List.take_prefix _ _)

theorem Inv.step (h : Inv w) (hfits : Fits w a) (hstep : machine.step w a = some w') : Inv w' := by
  obtain ⟨henabled, rfl⟩ := of_guard hstep
  cases a with
  | write data answers => exact h.write hfits answers
  | writable answers => exact h.evWriteCb henabled.2 answers

/-- In every run in which the queued bytes fit an `int`, whatever the socket answers: no
assert fails, the output is in order as long as the session lives, and a session that failed
has sent a front of the accepted data and of the data of the write that failed. -/
theorem output_in_order {actions : List Action} {w : World}
    (hfits : machine.Along Fits actions machine.init) (h : machine.run actions = some w) :
    w.fault = none ∧ (w.alive = true → InOrder w) ∧
      (w.alive = false → w.writing = false ∧ w.sent <+: w.accepted ++ w.refused) := by
  have hinv : Inv w :=
    Machine.invariant_along (fun _ _ _ hs hc => Inv.step hs hc) inv_freshSession hfits h
  exact ⟨hinv.fault, hinv.inOrder, hinv.stopped⟩

section
variable {Cb : Type}

/-- The session of `Session.Events` keeps of each buffer only how much of it is left. -/
structure Outlines (s : EvSession Cb) (w : World) : Prop where
  alive : s.alive = w.alive
  writing : s.writing = w.writing
  output : s.output = w.output.buffers.map DataBuffer.left

def results : List DataBuffer → List Answer → List (Option Nat)
  | [], _ => []
  | wdb :: next, answers =>
    let written := socketWrite answers wdb.unread
    written.result ::
      if written.result = some wdb.left then results next written.answers else []

theorem flush_results (buffers : List DataBuffer) (answers : List Answer) :
    flush (buffers.map DataBuffer.left) (results buffers answers) =
        ((writeLoop buffers answers).buffers.map DataBuffer.left,
          decide ((writeLoop buffers answers).ending = .failed)) ∧
      ((writeLoop buffers answers).ending = .blocked →
        (writeLoop buffers answers).buffers ≠ []) := by
  induction buffers generalizing answers with
  | nil => exact ⟨rfl, fun h => by cases h⟩
  | cons wdb next ih =>
    have hle := socketWrite_le answers wdb.unread
    rw [DataBuffer.length_unread] at hle
    rw [results, writeLoop, map_cons]
    cases hresult : (socketWrite answers wdb.unread).result with
    | none => exact ⟨by simp [flush], fun h => by cases h⟩
    | some total =>
      have htotal := (socketWrite_spec answers wdb.unread).2 total hresult
      by_cases hall : total = wdb.left
      · obtain ⟨hflush, hblocked⟩ := ih (socketWrite answers wdb.unread).answers
        simp only [flush, if_pos hall, if_pos (congrArg some hall)]
        exact ⟨hflush, hblocked⟩
      · have hleft := (advance_spec wdb (htotal ▸ hle)).2
        simp only [flush, if_neg hall]
        refine ⟨?_, fun _ => cons_ne_nil _ _⟩
        rw [map_cons, hleft]
        rfl

theorem Outlines.evWriteCb (h : Outlines s w) (answers : List Answer) :
    Outlines (Session.evWriteCb s (results w.output.buffers answers)).1 (evWriteCb w answers) := by
  obtain ⟨hflush, hblocked⟩ := flush_results w.output.buffers answers
  rw [Session.evWriteCb, Output.evWriteCb, h.output, hflush]
  cases hending : (writeLoop w.output.buffers answers).ending with
  | failed => exact ⟨rfl, rfl, rfl⟩
  | blocked =>
    have hne : ((writeLoop w.output.buffers answers).buffers.map DataBuffer.left).isEmpty =
        false := by
      simpa using hblocked hending
    simp only [reduceCtorEq, decide_false, Bool.false_eq_true, if_false, hne]
    exact ⟨h.alive, h.writing, rfl⟩
  | drained =>
    have hnil := (writeLoop_spec w.output.buffers answers).2.2 hending
    simp only [reduceCtorEq, decide_false, Bool.false_eq_true, if_false, hnil, map_nil,
      isEmpty_nil, if_true]
    split
    next => exact ⟨h.alive, rfl, rfl⟩
    next => exact ⟨h.alive, rfl, rfl⟩

theorem Outlines.evSessionWrite (h : Outlines s w) (hfits : w.output.total + data.length < 2 ^ 31)
    (answers : List Answer) :
    Outlines (Session.evSessionWrite s data.length (socketWrite answers data).result).1
      (evSessionWrite w data answers).1 := by
  have hsmall : ¬ 2 ^ 31 ≤ data.length := by omega
  have hwhole : (DataBuffer.ofChunk data).left = data.length := rfl
  have hle := socketWrite_le answers data
  unfold Session.evSessionWrite Output.evSessionWrite
  by_cases hdead : w.alive = false
  · rw [if_pos (h.alive.trans hdead), if_pos hdead]
    exact h
  · rw [if_neg fun hs => hdead (h.alive.symm.trans hs), if_neg hdead, if_neg hsmall]
    by_cases hwriting : w.writing = true
    · rw [if_pos (h.writing.trans hwriting), if_pos hwriting,
        append_of_fits (show _ + (DataBuffer.ofChunk data).left < _ from hfits)]
      refine ⟨h.alive, h.writing, ?_⟩
      simp only [bufferAppend, map_append, map_cons, map_nil, h.output, hwhole]
    · rw [if_neg fun hs => hwriting (h.writing.symm.trans hs), if_neg hwriting]
      dsimp only
      cases hresult : (socketWrite answers data).result with
      | none => exact ⟨rfl, rfl, h.output⟩
      | some total =>
        have htotal := (socketWrite_spec answers data).2 total hresult
        dsimp only
        by_cases hall : total = data.length
        · simp only [if_pos hall]
          exact ⟨h.alive, h.writing, h.output⟩
        · have hleft := (advance_spec (DataBuffer.ofChunk data) (n := total)
            (by rw [htotal]; exact hle)).2
          simp only [if_neg hall]
          rw [append_of_fits (show _ + (advance _ total).left < _ by dsimp only; omega)]
          refine ⟨h.alive, rfl, ?_⟩
          simp [bufferAppend, map_append, map_cons, map_nil, h.output, hleft, hwhole]

def outline (s : EvSession Cb) (w : World) : Action → EvSession Cb
  | .write data answers =>
    (Session.evSessionWrite s data.length (socketWrite answers data).result).1
  | .writable answers => (Session.evWriteCb s (results w.output.buffers answers)).1

/-- Both sessions side by side, with the same answers of the socket. -/
def outlined (Cb : Type) : Machine (EvSession Cb × World) Action where
  init := (evSessionBind, freshSession)
  step p a := (machine.step p.2 a).map fun w => (outline p.1 p.2 a, w)

theorem Outlines.perform (h : Outlines s w) (hfits : Fits w a) :
    Outlines (outline s w a) (perform w a) := by
  cases a with
  | writable answers => exact h.evWriteCb answers
  | write data answers =>
    have hwrite := h.evSessionWrite hfits answers
    rw [Output.perform]
    dsimp only
    split
    · exact ⟨hwrite.alive, hwrite.writing, hwrite.output⟩
    · split
      · exact ⟨hwrite.alive, hwrite.writing, hwrite.output⟩
      · exact hwrite

/-- The session that only counts does in every run what the session with the bytes does. -/
theorem counted_refines_output {actions : List Action} {p : EvSession Cb × World}
    (hfits : (outlined Cb).Along (fun p a => Fits p.2 a) actions (outlined Cb).init)
    (h : (outlined Cb).run actions = some p) : Outlines p.1 p.2 := by
  have hkeep : ∀ q a q', Outlines q.1 q.2 → Fits q.2 a → (outlined Cb).step q a = some q' →
      Outlines q'.1 q'.2 := by
    intro q a q' hq hc hstep
    obtain ⟨w, hw, rfl⟩ := Option.map_eq_some_iff.mp hstep
    obtain ⟨-, rfl⟩ := of_guard hw
    exact hq.perform hc
  exact Machine.invariant_along hkeep ⟨rfl, rfl, rfl⟩ hfits h

end

def partialWrites : List Action :=
  [.write [1, 2, 3] [.wrote 1, .again], .write [4, 5] [], .writable [.wrote 2, .interrupted],
    .writable [.wrote 1]]

theorem partialWrites_in_order :
    ∃ w, machine.run partialWrites = some w ∧ w.sent = [1, 2, 3, 4] ∧ w.alive = true ∧
      InOrder w := by
  have hrun : ∃ w ∈ machine.run partialWrites, w.sent = [1, 2, 3, 4] ∧ w.alive = true := by
    decide +kernel
  obtain ⟨w, hw, hsent, halive⟩ := hrun
  have hfits : machine.Along Fits partialWrites machine.init := by decide +kernel
  exact ⟨w, hw, hsent, halive, (output_in_order hfits hw).2.1 halive⟩

theorem partialWrites_counted : ∃ p, (outlined Unit).run partialWrites = some p ∧
    p.1.output = [1] ∧ Outlines p.1 p.2 := by
  have hrun : ∃ p ∈ (outlined Unit).run partialWrites, p.1.output = [1] := by
    decide +kernel
  obtain ⟨p, hp, houtput⟩ := hrun
  exact ⟨p, hp, houtput, counted_refines_output (by decide +kernel) hp⟩

/-- Behind a `socket_write` that fails there are accepted bytes that did not go out, and no
watcher; the bytes that it sent before it failed are not taken off the total; and a write
that is refused may have sent bytes. -/
theorem failed_not_in_order :
    (∃ w, machine.run [.write [1, 2, 3] [.wrote 1, .again], .writable [.wrote 1, .failed]] =
        some w ∧ 0 < w.accepted.length - w.sent.length ∧ w.writing = false ∧
        w.output.total ≠ w.accepted.length - w.sent.length) ∧
      ∃ w, machine.run [.write [1, 2, 3] [.wrote 1, .failed]] = some w ∧
        ¬ w.sent <+: w.accepted := by
  have hqueued : ∃ w ∈ machine.run [.write [1, 2, 3] [.wrote 1, .again],
      .writable [.wrote 1, .failed]], 0 < w.accepted.length - w.sent.length ∧ w.writing = false ∧
        w.output.total ≠ w.accepted.length - w.sent.length := by decide +kernel
  have hdirect : ∃ w ∈ machine.run [.write [1, 2, 3] [.wrote 1, .failed]],
      ¬ w.sent <+: w.accepted := by decide +kernel
  exact ⟨hqueued, hdirect⟩

end EventLua.Session.Output
