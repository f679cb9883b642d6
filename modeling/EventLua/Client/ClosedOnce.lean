import EventLua.Client.Lifecycle

/-!
When a client is closed once and left alone afterwards. Three places go on after something
that may have closed it: `read_complete` behind its loop and behind `data_func`, and
`timeout` behind the limit of messages.
-/
namespace EventLua.Client.Lifecycle

open EventLua.Session

section
variable {F : Type} {ops : FloatOps F} {m : Moment F} {w : World F}

def Sound (w : World F) : Prop := w.life.Sound

def Wired (session : EvSession Handler) : Prop :=
  session.writeCb ≠ some .readComplete ∧ session.eventCb ≠ some .readComplete

theorem Wired.of_same (hs : Wired s) (h : SameCallbacks s t) : Wired t := by
  obtain ⟨-, hwrite, hevent⟩ := h
  exact ⟨hwrite ▸ hs.1, hevent ▸ hs.2⟩

structure Open (w : World F) : Prop where
  born : w.life = .born
  wired : Wired w.client.session
  idle : w.control = .loop ∨ w.control = .accept →
    w.client.execute = false ∧ w.client.mark = false

def Tidy (w : World F) : Prop := Open w ∨ w.life = .ended

theorem Tidy.sound (h : Tidy w) : Sound w := by
  unfold Sound
  rcases h with hopen | hended
  · rw [hopen.born]
    exact Lifetime.born_sound
  · rw [hended]
    exact Lifetime.ended_sound

theorem Tidy.open_of_listed (h : Tidy w) (hl : w.listed = true) : Open w := by
  rcases h with hopen | hended
  · exact hopen
  · rw [World.listed, hended] at hl
    cases hl

theorem closeClient_tidy (h : w.life = .born) : Tidy (closeClient w) := by
  refine Or.inr ?_
  rw [closeClient, h, Lifetime.free_born]

theorem use_eq (h : w.life = .born) : w.use = w := by
  rw [World.use, h, Lifetime.use_born, ← h]

theorem errorHappen_ended (h : w.life = .born) : (errorHappen w).life = .ended := by
  rw [errorHappen, use_eq h, closeClient, h, Lifetime.free_born]

structure Looping (w : World F) : Prop where
  born : w.life = .born
  wired : Wired w.client.session
  unmarked : w.client.mark = false

theorem Looping.leaveLoop (h : Looping w) : Tidy (leaveLoop w) := by
  refine Or.inl ?_
  have heq : Lifecycle.leaveLoop w =
      { w with client := { w.client with execute := false }, control := .loop } := by
    simp [Lifecycle.leaveLoop, h.unmarked, use_eq h.born]
  rw [heq]
  exact ⟨h.born, h.wired, fun _ => ⟨rfl, h.unmarked⟩⟩

theorem Looping.abort (h : Looping w) : Tidy w.abort := by
  refine Or.inl ⟨h.born, h.wired, ?_⟩
  rintro (hloop | haccept)
  · cases hloop
  · cases haccept

theorem Looping.failLoop (h : Looping w) : Tidy (failLoop w) :=
  Or.inr (errorHappen_ended h.born)

theorem Looping.takeBody (h : Looping w) : Tidy (takeBody m w) := by
  unfold Lifecycle.takeBody
  split
  · exact h.leaveLoop
  · split
    · exact h.abort
    · dsimp only
      split
      · exact Looping.failLoop ⟨h.born, h.wired, h.unmarked⟩
      · refine Or.inl ⟨h.born, h.wired, ?_⟩
        rintro (hloop | haccept)
        · cases hloop
        · cases haccept

theorem Looping.readLoop (h : Looping w) : Tidy (readLoop m w) := by
  unfold Lifecycle.readLoop
  rw [use_eq h.born]
  dsimp only
  rw [h.unmarked, if_neg Bool.false_ne_true]
  split
  · split
    · exact h.leaveLoop
    · split
      · exact h.abort
      · split
        · exact Looping.abort ⟨h.born, h.wired, h.unmarked⟩
        · split
          · exact Looping.failLoop ⟨h.born, h.wired, h.unmarked⟩
          · exact Looping.takeBody ⟨h.born, h.wired, h.unmarked⟩
  · exact h.takeBody

theorem Open.callback (h : Open w)
    (hne : handler ≠ some .readComplete) : Tidy (callback m w handler) := by
  cases handler with
  | none => exact Or.inl h
  | some handler =>
    cases handler with
    | readComplete => exact absurd rfl hne
    | closeComplete => exact closeClient_tidy h.born
    | errorHappen => exact Or.inr (errorHappen_ended h.born)

theorem Open.withSession (h : Open w) (hs : SameCallbacks w.client.session session) :
    Open (w.withSession session) :=
  ⟨h.born, h.wired.of_same hs, h.idle⟩

theorem Open.event (h : Open w) (hloop : w.control = .loop) :
    Tidy (Lifecycle.callback m w handler) := by
  by_cases hread : handler = some .readComplete
  · rw [hread, Lifecycle.callback, readComplete, use_eq h.born]
    exact Looping.readLoop ⟨h.born, h.wired, (h.idle (Or.inl hloop)).2⟩
  · exact h.callback hread

theorem Tidy.close (h : Tidy w) (grace : Bool) : Tidy (clientManagerClose w grace) := by
  unfold clientManagerClose
  split
  · exact h
  · next hlisted =>
    have hopen := h.open_of_listed (Bool.not_eq_false _ ▸ hlisted)
    split
    · exact Or.inl ⟨hopen.born, ⟨fun h => (by cases h), fun h => (by cases h)⟩, hopen.idle⟩
    · split
      · next hexecute =>
        refine Or.inl ⟨hopen.born, hopen.wired, fun hidle => ?_⟩
        rw [(hopen.idle hidle).1] at hexecute
        cases hexecute
      · exact closeClient_tidy hopen.born

theorem Tidy.send (h : Tidy w) (size : Nat) (answer : Option Nat) :
    Tidy (clientManagerSend m w size answer) := by
  unfold clientManagerSend
  split
  · exact h
  · next hlisted =>
    rw [not_or, Bool.not_eq_false] at hlisted
    have hopen := h.open_of_listed hlisted.1
    obtain ⟨hsame, hcb⟩ := evSessionWrite_callbacks w.client.session (size + 4) answer
    refine (hopen.withSession hsame).callback fun hread => ?_
    rcases hcb with hcb | hcb | hcb
    · cases hcb.symm.trans hread
    · exact hopen.wired.1 (hcb.symm.trans hread)
    · exact hopen.wired.2 (hcb.symm.trans hread)

theorem Open.timeout (h : Open w) (hfreq : w.client.freq ≤ maxFreq) : Tidy (timeout ops m w) := by
  unfold Lifecycle.timeout
  rw [use_eq h.born]
  dsimp only
  rw [if_neg (Nat.not_lt.mpr hfreq), use_eq h.born]
  split
  · exact Or.inr (errorHappen_ended h.born)
  · exact Or.inl ⟨h.born, h.wired, h.idle⟩

theorem Open.resume (h : Open w) (hmark : w.client.mark = false) : Tidy (readResume m w) := by
  rw [readResume, use_eq h.born]
  exact Looping.readLoop ⟨h.born, h.wired, hmark⟩

end

section
variable {F : Type} {m : Moment F} {w : World F}

section
variable (h : w.life.misused = true)
include h

theorem use_misused : w.use.life.misused = true :=
  Lifetime.misused_use h

theorem closeClient_misused : (closeClient w).life.misused = true :=
  Lifetime.misused_free h

theorem errorHappen_misused : (errorHappen w).life.misused = true :=
  closeClient_misused (use_misused h)

theorem leaveLoop_misused : (leaveLoop w).life.misused = true := by
  unfold leaveLoop
  split
  · exact use_misused (closeClient_misused h)
  · exact use_misused h

theorem takeBody_misused : (takeBody m w).life.misused = true := by
  unfold takeBody
  split
  · exact leaveLoop_misused h
  · split
    · exact h
    · dsimp only
      split
      · exact errorHappen_misused h
      · exact h

theorem readLoop_misused : (readLoop m w).life.misused = true := by
  have huse := use_misused h
  unfold readLoop
  dsimp only
  split
  · exact leaveLoop_misused huse
  · split
    · split
      · exact leaveLoop_misused huse
      · split
        · exact huse
        · split
          · exact huse
          · split
            · exact errorHappen_misused huse
            · exact takeBody_misused huse
    · exact takeBody_misused huse

end

theorem use_ended_misused (h : w.life = .ended) : w.use.life.misused = true := by
  rw [World.use, h, Lifetime.misused_use_ended]

theorem readLoop_marked (h : w.life = .born) (hmark : w.client.mark = true) :
    (readLoop m w).life.misused = true := by
  have hended : (closeClient w).life = .ended := by
    rw [closeClient, h, Lifetime.free_born]
  simp only [readLoop, use_eq h, hmark, if_true, leaveLoop]
  exact use_ended_misused hended

theorem readResume_misused (h : Tidy w) (hbad : ¬ (w.listed = true ∧ w.client.mark = false)) :
    (readResume m w).life.misused = true := by
  rcases h with hopen | hended
  · have hlisted : w.listed = true := by rw [World.listed, hopen.born]; rfl
    have hmark : w.client.mark = true := by
      rw [← Bool.not_eq_false]
      exact fun hmark => hbad ⟨hlisted, hmark⟩
    rw [readResume, use_eq hopen.born]
    exact readLoop_marked hopen.born hmark
  · exact readLoop_misused (use_ended_misused hended)

theorem timeout_misused (h : w.life = .born) (hfreq : ¬ w.client.freq ≤ maxFreq) :
    (timeout ops m w).life.misused = true := by
  have hended := use_ended_misused (errorHappen_ended h)
  simp only [timeout, use_eq h, if_pos (Nat.not_le.mp hfreq)]
  split
  · exact errorHappen_misused hended
  · exact hended

end

/-- When `data_func` returns, its client is still there and not marked, and no tick of the
timer finds the client above the limit. -/
def Gentle {F : Type} (w : World F) (a : Action F) : Prop :=
  match a.call with
  | .ret => w.control = .data → w.listed = true ∧ w.client.mark = false
  | .tick => w.client.freq ≤ maxFreq
  | _ => True

instance {F : Type} (w : World F) (a : Action F) : Decidable (Gentle w a) := by
  unfold Gentle
  split <;> infer_instance

theorem Tidy.perform (h : Tidy w) (henabled : Enabled w call) (hg : Gentle w ⟨call, m⟩) :
    Tidy (perform ops m w call) := by
  cases call with
  | readable chunk =>
    obtain ⟨hloop, hlisted, -⟩ := henabled
    have hsame := (evReadCb_callbacks w.client.session chunk).1
    exact ((h.open_of_listed hlisted).withSession hsame).event hloop
  | writable answers =>
    obtain ⟨hloop, hlisted, -⟩ := henabled
    have hsame := (evWriteCb_callbacks w.client.session answers).1
    exact ((h.open_of_listed hlisted).withSession hsame).event hloop
  | tick => exact (h.open_of_listed henabled.2).timeout hg
  | close grace => exact h.close grace
  | send size answer => exact h.send size answer
  | ret =>
    by_cases hdata : w.control = .data
    · obtain ⟨hlisted, hmark⟩ := hg hdata
      rw [Lifecycle.perform, if_pos hdata]
      exact (h.open_of_listed hlisted).resume hmark
    · rw [Lifecycle.perform, if_neg hdata]
      rcases h with hopen | hended
      · have hidle := hopen.idle (Or.inr (henabled.resolve_right hdata))
        exact Or.inl ⟨hopen.born, hopen.wired, fun _ => hidle⟩
      · exact Or.inr hended

theorem Tidy.perform_misused (h : Tidy w) (henabled : Enabled w call) (hg : ¬ Gentle w ⟨call, m⟩) :
    (Lifecycle.perform ops m w call).life.misused = true := by
  cases call with
  | tick => exact timeout_misused (h.open_of_listed henabled.2).born hg
  | ret =>
    obtain ⟨hdata, hbad⟩ := Classical.not_imp.mp hg
    rw [Lifecycle.perform, if_pos hdata]
    exact readResume_misused h hbad
  | readable _ | writable _ | close _ | send _ _ => exact absurd trivial hg

/-- A run closes the client at most once and no handler uses it afterwards exactly when
every data callback leaves it alone and every tick finds it within the limit. -/
theorem closed_once_iff {F : Type} (ops : FloatOps F) (actions : List (Action F)) (w : World F)
    (h : (machine ops).run actions = some w) :
    (machine ops).Throughout Sound actions (machine ops).init ↔
      (machine ops).Along Gentle actions (machine ops).init := by
  refine Machine.throughout_iff_along (fun _ => Tidy.sound) ?_ ?_
    (.inl ⟨rfl, ⟨fun h => (by cases h), fun h => (by cases h)⟩, fun _ => ⟨rfl, rfl⟩⟩)
    (Machine.along_trivial actions _) h
  · intro s a t hs _ hg hstep
    obtain ⟨henabled, rfl⟩ := of_guard hstep
    exact hs.perform henabled hg
  · intro s a t hs _ hg hstep
    obtain ⟨henabled, rfl⟩ := of_guard hstep
    exact Lifetime.not_sound (hs.perform_misused henabled hg)

def callAt (now : Int) (call : Call) : Action Int := ⟨call, ⟨now, []⟩⟩

def frame : Bytes := (lpacketPack lpacketNew 1 [7]).1

def politeRun : List (Action Int) :=
  [callAt 1 .ret, callAt 1 (.readable (some frame)), callAt 1 (.send 3 (some 5)), callAt 1 .ret,
    callAt 2 .tick, callAt 2 (.close true), callAt 3 (.writable [some 2]), callAt 3 (.close false)]

theorem politeRun_closed_once : ((machine wholeOps).run politeRun).map (·.life) = some .ended ∧
      (machine wholeOps).Throughout Sound politeRun (machine wholeOps).init := by
  have hrun : ((machine wholeOps).run politeRun).map (·.life) = some .ended := by decide +kernel
  obtain ⟨w, hw, -⟩ := Option.map_eq_some_iff.mp hrun
  refine ⟨hrun, (closed_once_iff wholeOps politeRun w hw).mpr ?_⟩
  decide +kernel

def closeInside : List (Action Int) :=
  [callAt 1 .ret, callAt 1 (.readable (some frame)), callAt 1 (.close false), callAt 1 .ret]

def sendInside : List (Action Int) :=
  [callAt 1 .ret, callAt 1 (.readable (some frame)), callAt 1 (.send 3 none), callAt 1 .ret]

def messages : Nat → Packet → List (Action Int)
  | 0, _ => []
  | n + 1, packet =>
    let (bytes, packet) := lpacketPack packet 1 []
    callAt 1 (.readable (some bytes)) :: callAt 1 .ret :: messages n packet

def flood : List (Action Int) := callAt 1 .ret :: messages 101 lpacketNew ++ [callAt 2 .tick]

/-- A client closed in its own callback, one that is answered on a broken connection, and one
above the limit of messages. -/
theorem careless_misused : ((machine wholeOps).run closeInside).map (·.life) = some ⟨1, true⟩ ∧
    ((machine wholeOps).run sendInside).map (·.life) = some ⟨1, true⟩ ∧
    ((machine wholeOps).run flood).map (·.life) = some ⟨1, true⟩ := by
  refine ⟨?_, ?_, ?_⟩
  · decide +kernel
  · decide +kernel
  · decide +kernel

end EventLua.Client.Lifecycle
