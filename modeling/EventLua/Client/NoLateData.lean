import EventLua.Client.ClosedOnce

/-!
Whether a client that was closed gets data. A close outside of its callback frees the client,
one inside marks it, and one with grace stops the reading. But a close with grace inside the
callback does not stop the loop that the callback returns to: it goes on with what is buffered.
-/
namespace EventLua.Client.Lifecycle

open EventLua.Session

section
variable {F : Type} {ops : FloatOps F} {m : Moment F} {w : World F}

def Shut (w : World F) : Prop :=
  w.listed = false ∨ w.client.mark = true ∨ w.client.session.reading = false

structure Keeps (w w' : World F) : Prop where
  gone : w.listed = false → w'.listed = false
  marked : w.client.mark = true → w'.client.mark = true
  muted : w.client.session.reading = false → w'.client.session.reading = false

theorem Keeps.shut (h : Keeps w w') (hw : Shut w) : Shut w' := by
  rcases hw with hgone | hmark | hmuted
  · exact .inl (h.gone hgone)
  · exact .inr (.inl (h.marked hmark))
  · exact .inr (.inr (h.muted hmuted))

theorem Keeps.refl (w : World F) : Keeps w w := ⟨id, id, id⟩

theorem Keeps.trans (h : Keeps w₁ w₂) (h' : Keeps w₂ w₃) : Keeps w₁ w₃ :=
  ⟨fun hg => h'.gone (h.gone hg), fun hm => h'.marked (h.marked hm),
    fun hr => h'.muted (h.muted hr)⟩

theorem Keeps.after (h' : Keeps w₂ w₃) (h : Keeps w₁ w₂) : Keeps w₁ w₃ :=
  h.trans h'

theorem keeps_use (w : World F) : Keeps w w.use := ⟨id, id, id⟩

theorem keeps_closeClient (w : World F) : Keeps w (closeClient w) :=
  ⟨fun _ => rfl, id, id⟩

theorem keeps_errorHappen (w : World F) : Keeps w (errorHappen w) :=
  (keeps_use w).trans (keeps_closeClient w.use)

theorem keeps_leaveLoop (w : World F) : Keeps w (leaveLoop w) := by
  unfold leaveLoop
  split
  next => exact (keeps_closeClient w).trans ⟨id, id, id⟩
  next => exact ⟨id, id, id⟩

theorem keeps_failLoop (w : World F) : Keeps w (failLoop w) :=
  (keeps_errorHappen w).trans ⟨id, id, id⟩

theorem keeps_takeBody (w : World F) : Keeps w (takeBody m w) := by
  unfold takeBody
  split
  next => exact keeps_leaveLoop w
  next =>
    split
    next => exact ⟨id, id, id⟩
    next raw input _ =>
      dsimp only
      split
      next => exact (keeps_failLoop _).after ⟨id, id, id⟩
      next => exact ⟨id, id, id⟩

theorem keeps_readLoop (w : World F) : Keeps w (readLoop m w) := by
  refine (keeps_use w).trans ?_
  unfold readLoop
  dsimp only
  split
  next => exact keeps_leaveLoop w.use
  next =>
    split
    next =>
      split
      next => exact keeps_leaveLoop w.use
      next =>
        split
        next => exact ⟨id, id, id⟩
        next header input _ =>
          split
          next => exact ⟨id, id, id⟩
          next =>
            split
            next => exact (keeps_failLoop _).after ⟨id, id, id⟩
            next => exact (keeps_takeBody _).after ⟨id, id, id⟩
    next => exact keeps_takeBody w.use

theorem keeps_timeout (w : World F) : Keeps w (timeout ops m w) := by
  unfold timeout
  dsimp only
  have hfreq : Keeps w
      (if w.use.client.freq > maxFreq then errorHappen w.use else w.use) := by
    split
    next => exact (keeps_use w).trans (keeps_errorHappen w.use)
    next => exact keeps_use w
  generalize (if w.use.client.freq > maxFreq then errorHappen w.use else w.use) = w₁ at hfreq ⊢
  split
  next => exact (keeps_errorHappen _).after (hfreq.trans ⟨id, id, id⟩)
  next => exact hfreq.trans ⟨id, id, id⟩

theorem keeps_callback (w : World F) (handler : Option Handler) :
    Keeps w (callback m w handler) := by
  cases handler with
  | none => exact .refl w
  | some handler =>
    cases handler with
    | readComplete => exact (keeps_readLoop _).after ⟨id, id, id⟩
    | closeComplete => exact keeps_closeClient w
    | errorHappen => exact keeps_errorHappen w

theorem keeps_withSession {w : World F}
    (h : w.client.session.reading = false → session.reading = false) :
    Keeps w (w.withSession session) := ⟨id, id, h⟩

variable (s : EvSession Handler)

theorem reading_evReadCb (chunk : Option Bytes) (h : s.reading = false) :
    (evReadCb s chunk).1.reading = false := by
  cases chunk with
  | none => rfl
  | some chunk => exact h

theorem reading_evWriteCb (answers : List (Option Nat))
    (h : s.reading = false) : (evWriteCb s answers).1.reading = false := by
  unfold evWriteCb
  dsimp only
  split
  next => rfl
  next =>
    split
    next => exact h
    next => exact h

theorem reading_evSessionWrite (size : Nat) (answer : Option Nat)
    (h : s.reading = false) : (evSessionWrite s size answer).1.reading = false := by
  unfold evSessionWrite
  split
  next => exact h
  next =>
    split
    next => exact h
    next =>
      cases answer with
      | none => rfl
      | some total =>
        dsimp only
        split
        next => exact h
        next => exact h

theorem keeps_close (w : World F) (grace : Bool) : Keeps w (clientManagerClose w grace) := by
  unfold clientManagerClose
  split
  next => exact .refl w
  next =>
    split
    next => exact keeps_withSession fun _ => rfl
    next =>
      split
      next => exact ⟨id, fun _ => rfl, id⟩
      next => exact keeps_closeClient w

theorem keeps_perform (w : World F) (call : Call) : Keeps w (perform ops m w call) := by
  cases call with
  | readable chunk =>
    exact (keeps_withSession (reading_evReadCb _ chunk)).trans (keeps_callback _ _)
  | writable answers =>
    exact (keeps_withSession (reading_evWriteCb _ answers)).trans (keeps_callback _ _)
  | tick => exact keeps_timeout w
  | close grace => exact keeps_close w grace
  | send size answer =>
    rw [perform]
    unfold clientManagerSend
    split
    next => exact .refl w
    next =>
      exact (keeps_withSession (reading_evSessionWrite _ (size + 4) answer)).trans
        (keeps_callback _ _)
  | ret =>
    rw [perform]
    split
    next => exact (keeps_readLoop _).after ⟨id, id, id⟩
    next => exact ⟨id, id, id⟩

theorem shut_close (h : w.listed = true) (grace : Bool) : Shut (clientManagerClose w grace) := by
  have hlisted : ¬ w.listed = false := by simp [h]
  rw [clientManagerClose, if_neg hlisted]
  split
  next => exact .inr (.inr rfl)
  next =>
    split
    next => exact .inr (.inl rfl)
    next => exact .inl rfl

end

section
variable {F : Type} {ops : FloatOps F} {w : World F}

def Passes (m : Moment F) (c : EvClient F) (raw : Bytes) : Prop :=
  checksum (unscramble c.seed raw).1 = 0 ∧
    UInt16.ofNat (halfword ((unscramble c.seed raw).1 ++
      m.stale.drop (unscramble c.seed raw).1.length) 2) = c.order
deriving Decidable

/-- The client is not marked, and the input begins with a whole frame that passes. -/
def Deliverable (m : Moment F) (c : EvClient F) : Prop :=
  let input := c.session.input.contents
  let header := leNat (input.take 2)
  c.mark = false ∧ 2 ≤ input.length ∧ 3 ≤ header ∧ header - 2 ≤ (input.drop 2).length ∧
    Passes m c ((input.drop 2).take (header - 2))
deriving Decidable

variable (w)

theorem control_leaveLoop : (leaveLoop w).control = .loop := rfl

theorem control_failLoop : (failLoop w).control = .loop := rfl

theorem control_takeBody : (takeBody m w).control = .data ↔
      w.client.need ≤ w.client.session.input.contents.length ∧
        Passes m w.client (w.client.session.input.contents.take w.client.need) := by
  have hsize : evSessionInputSize w.client.session.input =
      w.client.session.input.contents.length := (EvBuffer.length_contents _).symm
  rw [takeBody, hsize]
  by_cases hshort : w.client.session.input.contents.length < w.client.need
  · rw [if_pos hshort, control_leaveLoop]
    exact iff_of_false (by simp) fun h => absurd h.1 (Nat.not_le.mpr hshort)
  · have hlong := Nat.le_of_not_lt hshort
    obtain ⟨input, hread, _⟩ := evSessionRead_spec w.client.session.input w.client.need
    simp only [if_neg hshort, hread]
    split
    next hbad =>
      rw [control_failLoop]
      refine iff_of_false (by simp) fun h => ?_
      exact hbad.elim (fun hsum => hsum h.2.1) fun horder => horder h.2.2
    next hgood =>
      rw [not_or, not_not, not_not] at hgood
      exact iff_of_true rfl ⟨hlong, hgood⟩

theorem control_readResume : (readResume m w).control = .data ↔ Deliverable m w.client := by
  have hsize : evSessionInputSize w.client.session.input =
      w.client.session.input.contents.length := (EvBuffer.length_contents _).symm
  rw [Deliverable]
  cases hmark : w.client.mark with
  | true =>
    refine iff_of_false ?_ fun h => (by cases h.1)
    simp [readResume, readLoop, World.use, hmark, control_leaveLoop]
  | false =>
    by_cases hshort : w.client.session.input.contents.length < 2
    · refine iff_of_false ?_ fun h => absurd h.2.1 (Nat.not_le.mpr hshort)
      simp [readResume, readLoop, World.use, hmark, hsize, hshort, control_leaveLoop]
    · have hlong := Nat.le_of_not_lt hshort
      obtain ⟨input, hread, hrest, -⟩ := evSessionRead_spec w.client.session.input 2
      have hlt := leNat_lt (w.client.session.input.contents.take 2)
      rw [List.length_take, Nat.min_eq_left hlong] at hlt
      simp only [readResume, readLoop, World.use, hmark, hsize, hread, if_neg hshort,
        Bool.false_eq_true, if_false, if_true]
      by_cases hsmall : (leNat (w.client.session.input.contents.take 2) : Int) - 2 ≤ 0
      · rw [if_pos hsmall]
        exact iff_of_false (by simp [World.abort]) fun h => by omega
      · have hmax : ¬ (leNat (w.client.session.input.contents.take 2) : Int) - 2 >
            maxSegment := by
          rw [maxSegment]
          omega
        have hneed : ((leNat (w.client.session.input.contents.take 2) : Int) - 2).toNat =
            leNat (w.client.session.input.contents.take 2) - 2 := by omega
        rw [if_neg hsmall, if_neg hmax, control_takeBody]
        dsimp only [World.withInput, World.withSession]
        rw [hneed, hrest]
        exact ⟨fun h => ⟨trivial, hlong, by omega, h⟩, fun h => h.2.2.2⟩

end

/-- A run that keeps whether the client was closed by a call that found it, and whether
`data_func` was called for it after that. -/
structure Watched (F : Type) where
  world : World F
  closed : Bool
  late : Bool

def invokes {F : Type} (call : Call) (w : World F) : Bool :=
  match call with
  | .readable _ | .ret => w.control == .data
  | .writable _ | .tick | .close _ | .send _ _ => false

def isClose : Call → Bool
  | .close _ => true
  | .readable _ | .writable _ | .tick | .send _ _ | .ret => false

def watch {F : Type} (ops : FloatOps F) (s : Watched F) (a : Action F) : Watched F :=
  let w := perform ops a.moment s.world a.call
  { world := w
    closed := s.closed || (isClose a.call && s.world.listed)
    late := s.late || (s.closed && invokes a.call w) }

def watched {F : Type} (ops : FloatOps F) : Machine (Watched F) (Action F) where
  init := ⟨acceptClient ops, false, false⟩
  step s a := if Enabled s.world a.call then some (watch ops s a) else none

/-- When the callback of a closed client returns, its input does not begin with a whole frame
that passes the checks. -/
def Settled {F : Type} (s : Watched F) (a : Action F) : Prop :=
  match a.call with
  | .ret => s.closed = true → s.world.control = .data → ¬ Deliverable a.moment s.world.client
  | .readable _ | .writable _ | .tick | .close _ | .send _ _ => True

instance {F : Type} (s : Watched F) (a : Action F) : Decidable (Settled s a) := by
  rcases a with ⟨_ | _⟩ <;> unfold Settled <;> infer_instance

section
variable {F : Type}

structure Punctual (s : Watched F) : Prop where
  shut : s.closed = true → Shut s.world
  never : s.late = false

theorem shut_watch {s : Watched F} (h : Punctual s) {a : Action F}
    (hclosed : (watch ops s a).closed = true) : Shut (watch ops s a).world := by
  cases hs : s.closed with
  | true => exact (keeps_perform s.world a.call).shut (h.shut hs)
  | false =>
    simp only [watch, hs, Bool.false_or, Bool.and_eq_true] at hclosed
    obtain ⟨hclose, hlisted⟩ := hclosed
    rw [watch]
    cases hcall : a.call with
    | close grace => exact shut_close hlisted grace
    | readable _ | writable _ | tick | send _ _ | ret =>
      rw [hcall] at hclose
      cases hclose

theorem readable_shut (ops : FloatOps F) (h : Shut w) (henabled : Enabled w (.readable chunk)) :
    (perform ops m w (.readable chunk)).control ≠ .data := by
  obtain ⟨hloop, hlisted, hreading⟩ := henabled
  have hmark : w.client.mark = true := by
    rcases h with hgone | hmark | hmuted
    · rw [hlisted] at hgone
      cases hgone
    · exact hmark
    · rw [hreading] at hmuted
      cases hmuted
  rw [perform]
  dsimp only
  generalize evReadCb w.client.session chunk = called
  obtain ⟨session, handler⟩ := called
  cases handler with
  | none =>
    rw [callback]
    simp [World.withSession, hloop]
  | some handler =>
    cases handler with
    | readComplete => simp [callback, readComplete, readLoop, World.use, World.withSession, hmark,
        control_leaveLoop]
    | closeComplete =>
      simp [callback, closeComplete, closeClient, World.withSession, hloop]
    | errorHappen =>
      simp [callback, errorHappen, closeClient, World.use, World.withSession, hloop]

theorem invokes_iff (ops : FloatOps F) {s : Watched F} {a : Action F} (h : Punctual s)
    (hclosed : s.closed = true) (henabled : Enabled s.world a.call) :
    invokes a.call (perform ops a.moment s.world a.call) = true ↔ ¬ Settled s a := by
  obtain ⟨call, m⟩ := a
  cases call with
  | readable chunk =>
    have hnot := readable_shut ops (m := m) (h.shut hclosed) henabled
    simp [invokes, Settled, hnot]
  | writable _ | tick | close _ | send _ _ => simp [invokes, Settled]
  | ret =>
    simp only [invokes, Settled, beq_iff_eq, perform]
    by_cases hdata : s.world.control = .data
    · rw [if_pos hdata, control_readResume]
      simp [hclosed, hdata]
    · rw [if_neg hdata]
      simp [hdata]

/-- A client that was closed gets no data exactly when no callback that closed its client, or
went on after a close, returns to a whole frame that passes the checks. -/
theorem no_late_data_iff (ops : FloatOps F) (actions : List (Action F)) (s : Watched F)
    (h : (watched ops).run actions = some s) :
    (watched ops).Throughout (fun s => s.late = false) actions (watched ops).init ↔
      (watched ops).Along Settled actions (watched ops).init := by
  have hinit : Punctual (watched ops).init := ⟨fun h => (by cases h), rfl⟩
  refine Machine.throughout_iff_along (fun s hs => hs.never) ?_ ?_ hinit
    (Machine.along_trivial actions _) h
  · intro s a t hs _ hsettled hstep
    obtain ⟨henabled, rfl⟩ := of_guard hstep
    refine ⟨shut_watch hs, ?_⟩
    cases hclosed : s.closed with
    | false => simp [watch, hs.never, hclosed]
    | true =>
      have hnot := mt (invokes_iff ops hs hclosed henabled).mp (not_not.mpr hsettled)
      simp [watch, hs.never, hnot]
  · intro s a t hs _ hsettled hstep
    obtain ⟨henabled, rfl⟩ := of_guard hstep
    have hclosed : s.closed = true := by
      by_contra hopen
      refine hsettled ?_
      rw [Settled]
      split
      next => exact fun hclosed => absurd hclosed hopen
      all_goals trivial
    have hinvoked := (invokes_iff ops hs hclosed henabled).mpr hsettled
    simp [watch, hclosed, hinvoked]

end

def twoFrames : Bytes := packAll lpacketNew [(1, [7]), (2, [8])]

def closedInTime : List (Action Int) :=
  [callAt 1 .ret, callAt 1 (.readable (some (twoFrames.take 12))), callAt 1 (.close true),
    callAt 1 .ret, callAt 2 (.writable [])]

theorem closedInTime_no_late_data :
    ((watched wholeOps).run closedInTime).map (fun s => (s.closed, s.late)) = some (true, false) ∧
      (watched wholeOps).Throughout (fun s => s.late = false) closedInTime
        (watched wholeOps).init := by
  have hrun : ((watched wholeOps).run closedInTime).map (fun s => (s.closed, s.late)) =
      some (true, false) := by decide +kernel
  obtain ⟨s, hs, -⟩ := Option.map_eq_some_iff.mp hrun
  refine ⟨hrun, (no_late_data_iff wholeOps closedInTime s hs).mpr ?_⟩
  decide +kernel

def closedTooEarly : List (Action Int) :=
  [callAt 1 .ret, callAt 1 (.readable (some twoFrames)), callAt 1 (.close true), callAt 1 .ret]

theorem closedTooEarly_late_data :
    ((watched wholeOps).run closedTooEarly).map (fun s => (s.closed, s.late)) =
      some (true, true) := by decide +kernel

end EventLua.Client.Lifecycle
