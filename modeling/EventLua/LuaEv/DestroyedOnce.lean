import EventLua.LuaEv.Session

/-!
When the `ev_session` of a `lua_ev_session` is freed once and left alone afterwards. `closed`
keeps Lua from a second destruction, and `mark` puts one off until `read_complete` is done.
A write that fails inside the data callback does not go through `mark`: the loop then goes on
with the freed session, if it has a header.
-/
namespace EventLua.LuaEv

open EventLua.Session

section
variable {w : World}

def Sound (w : World) : Prop := w.life.Sound

/-- The callbacks that are set. Only a session that Lua does not have is connecting, and only
a closed one waits for its output. -/
structure Wired (session : EvSession Handler) (held closed : Bool) : Prop where
  read : session.readCb = none ∨ session.readCb = some .readComplete
  event : session.eventCb = none ∨ session.eventCb = some .errorOccur
  write : session.writeCb = none ∨ session.writeCb = some .connectComplete ∧ held = false ∨
    session.writeCb = some .closeComplete ∧ closed = true

theorem Wired.of_same (hs : Wired s held closed) (h : SameCallbacks s t) : Wired t held closed := by
  obtain ⟨hread, hwrite, hevent⟩ := h
  exact ⟨hread ▸ hs.read, hevent ▸ hs.event, hwrite ▸ hs.write⟩

/-- A session that is there: outside of `read_complete` the flags are down. -/
structure Open (w : World) : Prop where
  born : w.life = .born
  wired : Wired w.lev.session w.held w.lev.closed
  marked : w.lev.mark = true → w.lev.closed = true
  idle : w.control = .loop ∨ w.control = .callback →
    w.lev.execute = false ∧ w.lev.mark = false

structure Gone (w : World) : Prop where
  ended : w.life = .ended
  shut : w.lev.closed = true ∨ w.held = false
  unmarked : w.control = .data → w.lev.mark = false

def Tidy (w : World) : Prop := Open w ∨ Gone w

theorem Tidy.sound (h : Tidy w) : Sound w := by
  unfold Sound
  rcases h with hopen | hgone
  · rw [hopen.born]
    exact Lifetime.born_sound
  · rw [hgone.ended]
    exact Lifetime.ended_sound

theorem Tidy.open_of_allocated (h : Tidy w) (ha : w.allocated = true) : Open w := by
  rcases h with hopen | hgone
  · exact hopen
  · rw [World.allocated, hgone.ended] at ha
    cases ha

theorem use_eq (h : w.life = .born) : w.use = w := by
  rw [World.use, h, Lifetime.use_born, ← h]

theorem sessionDestroy_gone (h : w.life = .born) (hs : w.lev.closed = true ∨ w.held = false)
    (hm : w.control = .data → w.lev.mark = false) : Gone (sessionDestroy w) := by
  refine ⟨?_, hs, hm⟩
  rw [sessionDestroy, h, Lifetime.free_born]

structure Looping (w : World) : Prop where
  born : w.life = .born
  wired : Wired w.lev.session w.held w.lev.closed
  marked : w.lev.mark = true → w.lev.closed = true

theorem Looping.leaveLoop (h : Looping w) : Tidy (leaveLoop w) := by
  unfold LuaEv.leaveLoop
  dsimp only
  split
  · next hmark =>
    refine Or.inr (sessionDestroy_gone h.born (Or.inl (h.marked hmark)) fun hdata => ?_)
    cases hdata
  · next hmark =>
    refine Or.inl ⟨h.born, h.wired, h.marked, fun _ => ⟨rfl, ?_⟩⟩
    exact Bool.not_eq_true _ ▸ hmark

theorem Looping.inside {control : Control} (h : Looping w)
    (hc : control = .data ∨ control = .aborted) : Tidy { w with control := control } := by
  refine Or.inl ⟨h.born, h.wired, h.marked, fun hidle => ?_⟩
  rcases hc with rfl | rfl <;> rcases hidle with hidle | hidle <;> cases hidle

theorem Looping.takeBody (h : Looping w) : Tidy (takeBody w) := by
  unfold LuaEv.takeBody
  rw [use_eq h.born]
  dsimp only
  split
  · exact h.leaveLoop
  · split
    · refine Or.inr ⟨?_, Or.inl rfl, fun hdata => (by cases hdata)⟩
      rw [errorOccur, sessionDestroy, h.born, Lifetime.free_born]
    · split
      · exact h.inside (Or.inr rfl)
      · exact Looping.inside ⟨h.born, h.wired.of_same ⟨rfl, rfl, rfl⟩, h.marked⟩ (Or.inl rfl)

theorem Looping.readLoop (h : Looping w) : Tidy (readLoop w) := by
  unfold LuaEv.readLoop
  split
  · exact h.leaveLoop
  · split
    · exact h.takeBody
    · rw [use_eq h.born]
      dsimp only
      split
      · exact h.leaveLoop
      · split
        · exact h.inside (Or.inr rfl)
        · exact Looping.takeBody ⟨h.born, h.wired.of_same ⟨rfl, rfl, rfl⟩, h.marked⟩

section
variable (h : Open w)
include h

theorem Open.looping : Looping w := ⟨h.born, h.wired, h.marked⟩

theorem Open.readComplete : Tidy (readComplete w) := by
  have hloop : Looping { w with lev := { w.lev with execute := true } } :=
    ⟨h.born, h.wired, h.marked⟩
  unfold LuaEv.readComplete
  dsimp only
  split
  · exact hloop.inside (Or.inl rfl)
  · exact hloop.readLoop

theorem Open.errorOccur (hm : w.control = .data → w.lev.mark = false) : Tidy (errorOccur w) :=
  Or.inr (sessionDestroy_gone h.born (Or.inl rfl) hm)

theorem Open.unmarked_of_open (hc : w.lev.closed = false) : w.lev.mark = false := by
  rw [← Bool.not_eq_true]
  intro hmark
  rw [h.marked hmark] at hc
  cases hc

theorem Open.withSession (hs : SameCallbacks w.lev.session session) :
    Open (w.withSession session) :=
  ⟨h.born, h.wired.of_same hs, h.marked, h.idle⟩

theorem Open.onRead : Tidy (callback connected w w.lev.session.readCb) := by
  rcases h.wired.read with hcb | hcb
  · rw [hcb]
    exact Or.inl h
  · rw [hcb]
    exact h.readComplete

theorem Open.onEvent (hm : w.control = .data → w.lev.mark = false) :
    Tidy (callback connected w w.lev.session.eventCb) := by
  rcases h.wired.event with hcb | hcb
  · rw [hcb]
    exact Or.inl h
  · rw [hcb]
    exact h.errorOccur hm

theorem Open.connectComplete (hloop : w.control = .loop) (hheld : w.held = false) :
    Tidy (connectComplete connected w) := by
  unfold LuaEv.connectComplete
  split
  · exact Or.inl ⟨h.born, ⟨Or.inr rfl, Or.inr rfl, Or.inl rfl⟩, h.marked,
      fun _ => h.idle (Or.inl hloop)⟩
  · refine Or.inr ⟨?_, Or.inr hheld, fun hdata => (by cases hdata)⟩
    rw [sessionDestroy, h.born, Lifetime.free_born]

theorem Open.closeComplete (hloop : w.control = .loop)
    (hclosed : w.lev.closed = true) : Tidy (closeComplete w) := by
  rw [LuaEv.closeComplete, if_pos hclosed]
  refine Or.inr (sessionDestroy_gone h.born (Or.inl hclosed) fun hdata => ?_)
  cases hloop.symm.trans hdata

theorem Open.onWrite (hloop : w.control = .loop) :
    Tidy (callback connected w w.lev.session.writeCb) := by
  rcases h.wired.write with hcb | ⟨hcb, hheld⟩ | ⟨hcb, hclosed⟩
  · rw [hcb]
    exact Or.inl h
  · rw [hcb]
    exact h.connectComplete hloop hheld
  · rw [hcb]
    exact h.closeComplete hloop hclosed

end

end

section
variable {w : World}

theorem Open.write_none (h : Open w) (hheld : w.held = true) (hclosed : w.lev.closed = false) :
    w.lev.session.writeCb = none := by
  rcases h.wired.write with hcb | ⟨-, hnot⟩ | ⟨-, hnot⟩
  · exact hcb
  · cases hnot.symm.trans hheld
  · cases hnot.symm.trans hclosed

theorem Tidy.open_of_usable (h : Tidy w) (hheld : w.held = true) (hclosed : w.lev.closed = false) :
    Open w := by
  rcases h with hopen | hgone
  · exact hopen
  · rcases hgone.shut with hshut | hshut
    · cases hshut.symm.trans hclosed
    · cases hshut.symm.trans hheld

theorem Tidy.sessionWrite (h : Tidy w) (hheld : w.held = true) (size : Nat)
    (answer : Option Nat) : Tidy (sessionWrite w size answer) := by
  unfold LuaEv.sessionWrite
  split
  · exact h
  · next hnot =>
    rw [not_or, Bool.not_eq_true] at hnot
    have hopen := h.open_of_usable hheld hnot.1
    obtain ⟨hsame, hcb⟩ := evSessionWrite_callbacks w.lev.session size answer
    have hnext := hopen.withSession hsame
    dsimp only
    rcases hcb with hcb | hcb | hcb
    · rw [hcb]
      exact Or.inl hnext
    · rw [hcb, hopen.write_none hheld hnot.1]
      exact Or.inl hnext
    · rw [hcb, ← hsame.2.2]
      exact hnext.onEvent fun _ => hopen.unmarked_of_open hnot.1

theorem Tidy.sessionClose (h : Tidy w) (hheld : w.held = true) (immediately : Bool) :
    Tidy (sessionClose w immediately) := by
  unfold LuaEv.sessionClose
  split
  · exact h
  · next hclosed =>
    rw [Bool.not_eq_true] at hclosed
    have hopen := h.open_of_usable hheld hclosed
    have hunmarked := hopen.unmarked_of_open hclosed
    dsimp only
    split
    · exact Or.inl ⟨hopen.born, ⟨Or.inl rfl, Or.inr rfl, Or.inr (Or.inr ⟨rfl, rfl⟩)⟩,
        fun _ => rfl, hopen.idle⟩
    · split
      · next hexecute =>
        refine Or.inl ⟨hopen.born, ⟨hopen.wired.read, hopen.wired.event, Or.inl ?_⟩,
          fun _ => rfl, fun hidle => ?_⟩
        · exact hopen.write_none hheld hclosed
        · cases (hopen.idle hidle).1.symm.trans hexecute
      · exact Or.inr (sessionDestroy_gone hopen.born (Or.inl rfl) fun _ => hunmarked)

theorem Open.consume (h : Open w) (size : Nat) : Tidy (w.consume size) := by
  unfold World.consume
  split
  · exact h.looping.inside (Or.inr rfl)
  · exact Or.inl (h.withSession ⟨rfl, rfl, rfl⟩)

theorem Tidy.sessionRead (h : Tidy w) (hheld : w.held = true) (size : Nat) :
    Tidy (sessionRead w size) := by
  unfold LuaEv.sessionRead
  dsimp only
  split
  · exact h
  · next hnot =>
    rw [not_or, Bool.not_eq_true] at hnot
    exact (h.open_of_usable hheld hnot.1).consume _

theorem Tidy.sessionReadUtil (h : Tidy w) (offset : Option Nat) :
    Tidy (sessionReadUtil w offset) := by
  cases offset with
  | none => exact h
  | some offset =>
    unfold LuaEv.sessionReadUtil
    dsimp only
    split
    · next hallocated => exact (h.open_of_allocated hallocated).consume offset
    · exact h

end

section
variable {w : World}

theorem use_misused (h : w.life.misused = true) : w.use.life.misused = true :=
  Lifetime.misused_use h

theorem sessionDestroy_misused (h : w.life.misused = true) :
    (sessionDestroy w).life.misused = true :=
  Lifetime.misused_free h

theorem leaveLoop_misused (h : w.life.misused = true) : (leaveLoop w).life.misused = true := by
  unfold leaveLoop
  dsimp only
  split
  · exact sessionDestroy_misused h
  · exact h

theorem takeBody_misused (h : w.use.life.misused = true) : (takeBody w).life.misused = true := by
  unfold takeBody
  dsimp only
  split
  · exact leaveLoop_misused h
  · split
    · exact sessionDestroy_misused h
    · split <;> exact h

theorem readLoop_misused (h : w.life = .ended) (hmark : w.lev.mark = false) :
    (readLoop w).life.misused = true := by
  have huse : w.use.life.misused = true := by
    rw [World.use, h, Lifetime.misused_use_ended]
  unfold readLoop
  rw [hmark, if_neg Bool.false_ne_true]
  split
  · exact takeBody_misused huse
  · dsimp only
    split
    · exact leaveLoop_misused huse
    · split
      · exact huse
      · exact takeBody_misused (use_misused huse)

end

/-- The data callback of a session with a header returns while the session is there. -/
def Gentle (w : World) (call : Call) : Prop :=
  call = .ret → w.control = .data → w.lev.header ≠ .none → w.allocated = true
deriving Decidable

theorem create_tidy (origin : Origin) (header : Header) : Tidy (machine origin header).init := by
  refine Or.inl ⟨rfl, ?_, fun h => (by cases h), fun _ => ⟨rfl, rfl⟩⟩
  cases origin with
  | ready => exact ⟨Or.inr rfl, Or.inr rfl, Or.inl rfl⟩
  | connecting => exact ⟨Or.inl rfl, Or.inl rfl, Or.inr (Or.inl ⟨rfl, rfl⟩)⟩

variable {call : Call}

variable {w : World}

theorem Tidy.readable (h : Tidy w) (chunk : Option Bytes)
    (henabled : Enabled w (.readable chunk)) : Tidy (perform w (.readable chunk)) := by
  obtain ⟨hloop, hallocated, -⟩ := henabled
  have hopen := h.open_of_allocated hallocated
  obtain ⟨hsame, hcb⟩ := evReadCb_callbacks w.lev.session chunk
  have hnext := hopen.withSession hsame
  unfold perform
  dsimp only
  rcases hcb with hcb | hcb
  · rw [hcb, ← hsame.1]
    exact hnext.onRead
  · rw [hcb, ← hsame.2.2]
    exact hnext.onEvent fun hdata => (by cases hloop.symm.trans hdata)

theorem Tidy.writable (h : Tidy w) (answers : List (Option Nat)) (connected : Bool)
    (henabled : Enabled w (.writable answers connected)) :
    Tidy (perform w (.writable answers connected)) := by
  obtain ⟨hloop, hallocated, -⟩ := henabled
  have hopen := h.open_of_allocated hallocated
  obtain ⟨hsame, hcb⟩ := evWriteCb_callbacks w.lev.session answers
  have hnext := hopen.withSession hsame
  unfold perform
  dsimp only
  rcases hcb with hcb | hcb | hcb
  · rw [hcb]
    exact Or.inl hnext
  · rw [hcb, ← hsame.2.1]
    exact hnext.onWrite hloop
  · rw [hcb, ← hsame.2.2]
    exact hnext.onEvent fun hdata => (by cases hloop.symm.trans hdata)

theorem Tidy.resume (h : Tidy w) (hdata : w.control = .data)
    (hg : w.lev.header ≠ .none → w.allocated = true) : Tidy (readResume w) := by
  unfold readResume
  split
  · rcases h with hopen | hgone
    · exact hopen.looping.leaveLoop
    · refine Or.inr ?_
      rw [leaveLoop]
      rw [hgone.unmarked hdata, if_neg Bool.false_ne_true]
      exact ⟨hgone.ended, hgone.shut, fun hnot => (by cases hnot)⟩
  · next hheader =>
    have hopen := h.open_of_allocated (hg hheader)
    exact Looping.readLoop ⟨hopen.born, hopen.wired, hopen.marked⟩

theorem Tidy.perform (h : Tidy w) (henabled : Enabled w call)
    (hg : Gentle w call) : Tidy (perform w call) := by
  cases call with
  | readable chunk => exact h.readable chunk henabled
  | writable answers connected => exact h.writable answers connected henabled
  | write size answer => exact h.sessionWrite henabled.2 size answer
  | close immediately => exact h.sessionClose henabled.2 immediately
  | read size => exact h.sessionRead henabled.2 size
  | readUtil offset => exact h.sessionReadUtil offset
  | ret =>
    by_cases hdata : w.control = .data
    · rw [LuaEv.perform, if_pos hdata]
      exact h.resume hdata (hg rfl hdata)
    · rw [LuaEv.perform, if_neg hdata]
      rcases h with hopen | hgone
      · have hidle := hopen.idle (Or.inr (henabled.resolve_right hdata))
        exact Or.inl ⟨hopen.born, hopen.wired, hopen.marked, fun _ => hidle⟩
      · exact Or.inr ⟨hgone.ended, hgone.shut, fun hnot => (by cases hnot)⟩

theorem Tidy.perform_misused (h : Tidy w) (hg : ¬ Gentle w call) :
    (LuaEv.perform w call).life.misused = true := by
  obtain ⟨rfl, hreturn⟩ := Classical.not_imp.mp hg
  obtain ⟨hdata, hframed⟩ := Classical.not_imp.mp hreturn
  obtain ⟨hheader, hfreed⟩ := Classical.not_imp.mp hframed
  rcases h with hopen | hgone
  · refine absurd ?_ hfreed
    rw [World.allocated, hopen.born]
    rfl
  · rw [LuaEv.perform, if_pos hdata, readResume, if_neg hheader]
    exact readLoop_misused hgone.ended (hgone.unmarked hdata)

/-- A run destroys the session at most once and does not use it afterwards exactly when every
data callback of a session with a header leaves it in place. -/
theorem destroyed_once_iff (origin : Origin) (header : Header) (calls : List Call) (w : World)
    (h : (machine origin header).run calls = some w) :
    (machine origin header).Throughout Sound calls (machine origin header).init ↔
      (machine origin header).Along Gentle calls (machine origin header).init := by
  refine Machine.throughout_iff_along (fun _ => Tidy.sound) ?_ ?_ (create_tidy origin header)
    (Machine.along_trivial calls _) h
  · intro s call t hs _ hg hstep
    obtain ⟨henabled, rfl⟩ := of_guard hstep
    exact hs.perform henabled hg
  · intro s call t hs _ hg hstep
    obtain ⟨-, rfl⟩ := of_guard hstep
    exact Lifetime.not_sound (hs.perform_misused hg)

def closeInside : List Call :=
  [.ret, .readable (some [3, 0, 65, 3, 0, 66]), .write 5 (some 2), .ret, .close true, .ret]

theorem closeInside_destroyed_once :
    ((machine .ready .word).run closeInside).map (·.life) = some .ended ∧
      (machine .ready .word).Throughout Sound closeInside (machine .ready .word).init := by
  have hrun : ((machine .ready .word).run closeInside).map (·.life) = some .ended := by
    decide +kernel
  obtain ⟨w, hw, -⟩ := Option.map_eq_some_iff.mp hrun
  refine ⟨hrun, (destroyed_once_iff .ready .word closeInside w hw).mpr ?_⟩
  decide +kernel

def failInside : List Call :=
  [.ret, .readable (some [3, 0, 65]), .write 5 none, .ret]

theorem failInside_misused :
    ((machine .ready .word).run failInside).map (·.life) = some ⟨1, true⟩ := by decide +kernel

end EventLua.LuaEv
