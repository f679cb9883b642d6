import EventLua.Foundation.Machine
import EventLua.Foundation.Table

/-!
`enter` and `leave` of `world_server`. The load of a `world_user` waits once for each of its
fields, and meanwhile the user may be released and replaced. Behind the load `enter` looks up the
user again by its uid, and has to find the user which was loaded, or nobody.
-/
namespace EventLua.WorldServer
open List

abbrev Uid := Nat

abbrev AgentId := Nat

abbrev Serial := Nat

/-- A `world_user`. `left` is the number of fields that its load has still to bring. -/
structure WorldUser where
  uid : Uid
  agentId : AgentId
  loading : Bool
  alive : Bool
  left : Nat
deriving DecidableEq

structure Entrance where
  user : Serial
  loaded : Bool
  alive : Bool
deriving DecidableEq

/-- `bound` are the users that are bound with a uid, `saved` the users that `leave` has saved. -/
structure World where
  users : Table Serial WorldUser
  bound : Uid → Option Serial
  serial : Serial
  entrances : List Entrance
  saved : List Serial

def initial : World where
  users := .empty
  bound _ := none
  serial := 0
  entrances := []
  saved := []

def saveFields : Nat := 2

def World.setUser (w : World) (s : Serial) (x : WorldUser) : World :=
  { w with users := w.users.set s x }

def World.bind (w : World) (uid : Uid) (s : Option Serial) : World :=
  { w with bound := Function.update w.bound uid s }

def release (w : World) (s : Serial) : World :=
  match w.users.get s with
  | none => w
  | some x => (w.setUser s { x with alive := false }).bind x.uid none

def create (w : World) (uid : Uid) (agentId : AgentId) : World :=
  { (w.setUser w.serial ⟨uid, agentId, true, true, saveFields⟩).bind uid (some w.serial) with
    serial := w.serial + 1 }

def enter (w : World) (uid : Uid) (agentId : AgentId) : World :=
  match w.bound uid with
  | none => create w uid agentId
  | some old => create (release w old) uid agentId

def callEnter (w : World) (s : Serial) : World :=
  match w.users.get s with
  | none => w
  | some x => { w with entrances := w.entrances ++ [⟨s, decide (x.left = 0), x.alive⟩] }

def loadEnds (w : World) (s : Serial) (x : WorldUser) : World :=
  let w := w.setUser s { x with loading := false, left := 0 }
  match w.bound x.uid with
  | none => w
  | some user => callEnter w user

/-- The answer to a `findOne` of a load. The next field is asked for if the user is alive. -/
def answer (w : World) (s : Serial) : World :=
  match w.users.get s with
  | none => w
  | some x =>
    if x.alive = true ∧ 1 < x.left then w.setUser s { x with left := x.left - 1 }
    else loadEnds w s x

def leave (w : World) (uid : Uid) : World :=
  match w.bound uid with
  | none => w
  | some s =>
    match w.users.get s with
    | none => w
    | some x =>
      if x.loading = true then release w s
      else release { w with saved := w.saved ++ [s] } s

inductive Action where
  | enter (uid : Uid) (agentId : AgentId)
  | leave (uid : Uid)
  | answer (s : Serial)
deriving DecidableEq

def Enabled (w : World) : Action → Prop
  | .enter _ _ | .leave _ => True
  | .answer s => ∃ x ∈ w.users.get s, 0 < x.left

instance (w : World) (a : Action) : Decidable (Enabled w a) := by
  unfold Enabled
  split <;> infer_instance

def perform (w : World) : Action → World
  | .enter uid agentId => enter w uid agentId
  | .leave uid => leave w uid
  | .answer s => answer w s

def machine : Machine World Action where
  init := initial
  step w a := if Enabled w a then some (perform w a) else none

def World.entered (w : World) : List Serial := w.entrances.map Entrance.user

/-- `enter` is called once at most on each user, after its load, and on nobody that is released. -/
structure EntersOnce (w : World) : Prop where
  once : w.entered.Nodup
  loaded : ∀ e ∈ w.entrances, e.loaded = true
  alive : ∀ e ∈ w.entrances, e.alive = true

/-- When an answer comes for a user that was released, nobody else has its uid. -/
def Unreplaced (w : World) : Action → Prop
  | .enter _ _ | .leave _ => True
  | .answer s => ∀ x ∈ w.users.get s, x.alive = false → w.bound x.uid = none

instance (w : World) (a : Action) : Decidable (Unreplaced w a) := by
  unfold Unreplaced
  split <;> infer_instance

variable {w : World} {s t : Serial} {x : WorldUser}

structure Inv (w : World) : Prop where
  bound : ∀ uid s, w.bound uid = some s →
    ∃ x, w.users.get s = some x ∧ x.uid = uid ∧ x.alive = true
  alive : ∀ s x, w.users.get s = some x → x.alive = true → w.bound x.uid = some s
  loading : ∀ s x, w.users.get s = some x → 0 < x.left → s ∉ w.entered
  done : ∀ s x, w.users.get s = some x → x.alive = true → x.left = 0 → s ∈ w.entered
  fresh : ∀ s, w.serial ≤ s → w.users.get s = none ∧ s ∉ w.entered
  good : EntersOnce w

theorem initial_inv : Inv initial :=
  ⟨fun _ _ hb => (by cases hb), fun _ _ hx => (by cases hx), fun _ _ hx => (by cases hx),
    fun _ _ hx => (by cases hx), fun _ _ => ⟨rfl, fun hm => (by cases hm)⟩,
    ⟨nodup_nil, fun _ he => (by cases he), fun _ he => (by cases he)⟩⟩

theorem bind_self (w : World) (uid : Uid) (s : Option Serial) : (w.bind uid s).bound uid = s :=
  Function.update_self _ _ _

theorem bind_of_ne (w : World) (s : Option Serial) (h : other ≠ uid) :
    (w.bind uid s).bound other = w.bound other := Function.update_of_ne h _ _

theorem Inv.release (h : Inv w) (hx : w.users.get s = some x) (hbound : w.bound x.uid = some s) :
    Inv (release w s) := by
  have hrelease : WorldServer.release w s =
      (w.setUser s { x with alive := false }).bind x.uid none := by
    rw [WorldServer.release, hx]
  rw [hrelease]
  have hself := w.users.get_set_self s { x with alive := false }
  have hother : ∀ t y, t ≠ s → (w.setUser s { x with alive := false }).users.get t = some y →
      w.users.get t = some y := fun t y hne hy => (w.users.get_set_of_ne _ hne).symm.trans hy
  refine ⟨fun uid t ht => ?_, fun t y hy halive => ?_, fun t y hy hleft => ?_,
    fun t y hy halive hleft => ?_, fun t ht => ?_, ⟨h.good.once, h.good.loaded, h.good.alive⟩⟩
  · have hne : uid ≠ x.uid := by
      rintro rfl
      rw [bind_self] at ht
      cases ht
    rw [bind_of_ne _ none hne] at ht
    obtain ⟨y, hy, huid, halive⟩ := h.bound uid t ht
    have hts : t ≠ s := by
      rintro rfl
      cases hx.symm.trans hy
      exact hne huid.symm
    exact ⟨y, (w.users.get_set_of_ne _ hts).trans hy, huid, halive⟩
  · by_cases hts : t = s
    · subst hts
      cases hself.symm.trans hy
      cases halive
    · have hold := h.alive t y (hother t y hts hy) halive
      have hne : y.uid ≠ x.uid := by
        intro heq
        rw [heq, hbound] at hold
        exact hts (Option.some.inj hold).symm
      exact (bind_of_ne _ none hne).trans hold
  · by_cases hts : t = s
    · subst hts
      cases hself.symm.trans hy
      exact h.loading t x hx hleft
    · exact h.loading t y (hother t y hts hy) hleft
  · by_cases hts : t = s
    · subst hts
      cases hself.symm.trans hy
      cases halive
    · exact h.done t y (hother t y hts hy) halive hleft
  · obtain ⟨hnone, hentered⟩ := h.fresh t ht
    have hts : t ≠ s := by
      rintro rfl
      cases hx.symm.trans hnone
    exact ⟨(w.users.get_set_of_ne _ hts).trans hnone, hentered⟩

theorem Inv.create (h : Inv w) (hnone : w.bound uid = none) (agentId : AgentId) :
    Inv (create w uid agentId) := by
  obtain ⟨hfresh, hentered⟩ := h.fresh w.serial (Nat.le_refl _)
  let x : WorldUser := ⟨uid, agentId, true, true, saveFields⟩
  have hself := w.users.get_set_self w.serial x
  have hne : ∀ t y, w.users.get t = some y → t ≠ w.serial := by
    rintro t y hy rfl
    cases hfresh.symm.trans hy
  have hother : ∀ t y, t ≠ w.serial → (WorldServer.create w uid agentId).users.get t = some y →
      w.users.get t = some y := fun t y hts hy => (w.users.get_set_of_ne _ hts).symm.trans hy
  refine ⟨fun uid' t ht => ?_, fun t y hy halive => ?_, fun t y hy hleft => ?_,
    fun t y hy halive hleft => ?_, fun t ht => ?_, ⟨h.good.once, h.good.loaded, h.good.alive⟩⟩
  · by_cases heq : uid' = uid
    · subst heq
      cases (bind_self _ _ _).symm.trans ht
      exact ⟨x, hself, rfl, rfl⟩
    · obtain ⟨y, hy, huid, halive⟩ := h.bound uid' t ((bind_of_ne _ _ heq).symm.trans ht)
      exact ⟨y, (w.users.get_set_of_ne _ (hne t y hy)).trans hy, huid, halive⟩
  · by_cases hts : t = w.serial
    · subst hts
      cases hself.symm.trans hy
      exact bind_self _ _ _
    · have hold := h.alive t y (hother t y hts hy) halive
      have huid : y.uid ≠ uid := by
        intro heq
        rw [heq, hnone] at hold
        cases hold
      exact (bind_of_ne _ _ huid).trans hold
  · by_cases hts : t = w.serial
    · rw [hts]
      exact hentered
    · exact h.loading t y (hother t y hts hy) hleft
  · by_cases hts : t = w.serial
    · subst hts
      cases hself.symm.trans hy
      cases hleft
    · exact h.done t y (hother t y hts hy) halive hleft
  · have hlt : w.serial < t := ht
    obtain ⟨hold, hold'⟩ := h.fresh t (Nat.le_of_lt hlt)
    exact ⟨(w.users.get_set_of_ne _ (Nat.ne_of_gt hlt)).trans hold, hold'⟩

theorem callEnter_of_some (hx : w.users.get s = some x) : callEnter w s =
      { w with entrances := w.entrances ++ [⟨s, decide (x.left = 0), x.alive⟩] } := by
  rw [callEnter, hx]

theorem loadEnds_of_none (s : Serial) (hnone : w.bound x.uid = none) :
    loadEnds w s x = w.setUser s { x with loading := false, left := 0 } := by
  have hb : (w.setUser s { x with loading := false, left := 0 }).bound x.uid = none := hnone
  rw [loadEnds, hb]

theorem loadEnds_of_some (s : Serial) (ht : w.bound x.uid = some t) :
    loadEnds w s x = callEnter (w.setUser s { x with loading := false, left := 0 }) t := by
  have hb : (w.setUser s { x with loading := false, left := 0 }).bound x.uid = some t := ht
  rw [loadEnds, hb]

section
variable (h : Inv w) (hx : w.users.get s = some x)
include h hx

theorem Inv.ne_of_fresh (ht : w.serial ≤ t) : t ≠ s := by
  rintro rfl
  cases hx.symm.trans (h.fresh t ht).1

theorem Inv.binding (huid : y.uid = x.uid) (halive : y.alive = x.alive) :
    (∀ uid t, w.bound uid = some t →
        ∃ z, (w.users.set s y).get t = some z ∧ z.uid = uid ∧ z.alive = true) ∧
      ∀ t z, (w.users.set s y).get t = some z → z.alive = true → w.bound z.uid = some t := by
  constructor
  · intro uid t ht
    obtain ⟨z, hz, hzuid, hzalive⟩ := h.bound uid t ht
    by_cases hts : t = s
    · subst hts
      cases hx.symm.trans hz
      exact ⟨y, w.users.get_set_self t y, huid.trans hzuid, halive.trans hzalive⟩
    · exact ⟨z, (w.users.get_set_of_ne y hts).trans hz, hzuid, hzalive⟩
  · intro t z hz hzalive
    by_cases hts : t = s
    · subst hts
      cases (w.users.get_set_self t y).symm.trans hz
      rw [huid]
      exact h.alive t x hx (halive.symm.trans hzalive)
    · exact h.alive t z ((w.users.get_set_of_ne y hts).symm.trans hz) hzalive

theorem Inv.setUser (huid : y.uid = x.uid) (halive : y.alive = x.alive)
    (hleft : 0 < y.left → 0 < x.left) (hdone : y.alive = true → 0 < y.left) :
    Inv (w.setUser s y) := by
  obtain ⟨hbound, halive'⟩ := h.binding hx huid halive
  refine ⟨hbound, halive', fun t z hz hzleft => ?_, fun t z hz hzalive hzleft => ?_,
    fun t ht => ?_, ⟨h.good.once, h.good.loaded, h.good.alive⟩⟩
  · by_cases hts : t = s
    · subst hts
      cases (w.users.get_set_self t y).symm.trans hz
      exact h.loading t x hx (hleft hzleft)
    · exact h.loading t z ((w.users.get_set_of_ne y hts).symm.trans hz) hzleft
  · by_cases hts : t = s
    · subst hts
      cases (w.users.get_set_self t y).symm.trans hz
      exact absurd hzleft (Nat.ne_of_gt (hdone hzalive))
    · exact h.done t z ((w.users.get_set_of_ne y hts).symm.trans hz) hzalive hzleft
  · obtain ⟨hnone, hentered⟩ := h.fresh t ht
    exact ⟨(w.users.get_set_of_ne y (h.ne_of_fresh hx ht)).trans hnone, hentered⟩

theorem Inv.loadEnds_of_alive (halive : x.alive = true) (hleft : 0 < x.left) :
    Inv (loadEnds w s x) := by
  let y : WorldUser := { x with loading := false, left := 0 }
  have hself := w.users.get_set_self s y
  have hends : loadEnds w s x =
      { w.setUser s y with entrances := w.entrances ++ [⟨s, true, true⟩] } := by
    have hself : (w.setUser s y).users.get s = some y := hself
    rw [loadEnds_of_some s (h.alive s x hx halive), callEnter_of_some hself]
    have hyalive : y.alive = true := halive
    rw [hyalive]
    rfl
  have hentered : ∀ t, t ∈ (w.entrances ++ [(⟨s, true, true⟩ : Entrance)]).map Entrance.user ↔
      t ∈ w.entered ∨ t = s := by
    intro t
    rw [map_append, mem_append]
    exact or_congr_right mem_singleton
  obtain ⟨hbound, halive'⟩ := h.binding hx (y := y) rfl rfl
  have hnew : s ∉ w.entered := h.loading s x hx hleft
  rw [hends]
  refine ⟨hbound, halive', fun t z hz hzleft hmem => ?_, fun t z hz hzalive hzleft => ?_,
    fun t ht => ?_, ⟨?_, fun e he => ?_, fun e he => ?_⟩⟩
  · have hts : t ≠ s := by
      rintro rfl
      cases hself.symm.trans hz
      exact absurd hzleft (Nat.lt_irrefl 0)
    refine h.loading t z ((w.users.get_set_of_ne y hts).symm.trans hz) hzleft ?_
    exact ((hentered t).mp hmem).resolve_right hts
  · refine (hentered t).mpr ?_
    by_cases hts : t = s
    · exact .inr hts
    · exact .inl (h.done t z ((w.users.get_set_of_ne y hts).symm.trans hz) hzalive hzleft)
  · obtain ⟨hnone, hfresh⟩ := h.fresh t ht
    have hts := h.ne_of_fresh hx ht
    refine ⟨(w.users.get_set_of_ne y hts).trans hnone, fun hmem => ?_⟩
    exact ((hentered t).mp hmem).elim hfresh hts
  · show ((w.entrances ++ [(⟨s, true, true⟩ : Entrance)]).map Entrance.user).Nodup
    rw [map_append]
    exact h.good.once.append (nodup_singleton s) (disjoint_singleton.mpr hnew)
  · cases mem_append.mp he with
    | inl hold => exact h.good.loaded e hold
    | inr hlast => rw [mem_singleton.mp hlast]
  · cases mem_append.mp he with
    | inl hold => exact h.good.alive e hold
    | inr hlast => rw [mem_singleton.mp hlast]

theorem Inv.answer (hleft : 0 < x.left) (hc : Unreplaced w (.answer s)) : Inv (answer w s) := by
  rw [WorldServer.answer, hx]
  dsimp only
  split
  next hmore =>
    refine h.setUser hx rfl rfl (fun _ => hleft) fun _ => ?_
    exact Nat.sub_pos_of_lt hmore.2
  · cases halive : x.alive with
    | true => exact h.loadEnds_of_alive hx halive hleft
    | false =>
      rw [loadEnds_of_none s (hc x hx halive)]
      refine h.setUser hx rfl rfl (fun hpos => absurd hpos (Nat.lt_irrefl 0)) fun hlive => ?_
      cases halive.symm.trans hlive

theorem Inv.answer_breaks (hc : ¬Unreplaced w (.answer s)) :
    ¬EntersOnce (WorldServer.answer w s) := by
  rw [Unreplaced] at hc
  push Not at hc
  obtain ⟨x', hx', halive, hsome⟩ := hc
  cases hx.symm.trans hx'
  obtain ⟨t, ht⟩ := Option.ne_none_iff_exists'.mp hsome
  obtain ⟨z, hz, -, hzalive⟩ := h.bound x.uid t ht
  have hts : t ≠ s := by
    rintro rfl
    cases hx.symm.trans hz
    cases halive.symm.trans hzalive
  let y : WorldUser := { x with loading := false, left := 0 }
  have hget : (w.setUser s y).users.get t = some z := (w.users.get_set_of_ne y hts).trans hz
  have hanswer : WorldServer.answer w s = { w.setUser s y with
      entrances := w.entrances ++ [⟨t, decide (z.left = 0), z.alive⟩] } := by
    rw [WorldServer.answer, hx]
    dsimp only
    rw [if_neg fun hmore => (by cases halive.symm.trans hmore.1), loadEnds_of_some s ht,
      callEnter_of_some hget]
    rfl
  rw [hanswer]
  intro hgood
  by_cases hleft : z.left = 0
  · have honce := hgood.once
    rw [World.entered, map_append] at honce
    exact (nodup_append.mp honce).2.2 t (h.done t z hz hzalive hleft) t mem_cons_self rfl
  · have hloaded := hgood.loaded ⟨t, decide (z.left = 0), z.alive⟩
      (mem_append_right _ mem_cons_self)
    exact hleft (of_decide_eq_true hloaded)

end

theorem Inv.enter (h : Inv w) (uid : Uid) (agentId : AgentId) : Inv (enter w uid agentId) := by
  rw [WorldServer.enter]
  split
  next hnone => exact h.create hnone agentId
  next old hold =>
    obtain ⟨x, hx, rfl, -⟩ := h.bound uid old hold
    refine (h.release hx hold).create ?_ agentId
    rw [WorldServer.release, hx]
    exact bind_self _ _ _

theorem Inv.leave (h : Inv w) (uid : Uid) : Inv (leave w uid) := by
  rw [WorldServer.leave]
  split
  · exact h
  next s hs =>
    obtain ⟨x, hx, rfl, -⟩ := h.bound uid s hs
    have hsaved : Inv { w with saved := w.saved ++ [s] } :=
      ⟨h.bound, h.alive, h.loading, h.done, h.fresh, ⟨h.good.once, h.good.loaded, h.good.alive⟩⟩
    rw [hx]
    dsimp only
    split
    · exact h.release hx hs
    · exact hsaved.release hx hs

/-- In every state of a run `enter` has been called as it should, if and only if no answer comes
for a user that was released while another has its uid. -/
theorem entersOnce_iff_unreplaced {actions : List Action} (h : machine.run actions = some w) :
    machine.Throughout EntersOnce actions machine.init ↔
      machine.Along Unreplaced actions machine.init := by
  refine Machine.throughout_iff_along (fun _ => Inv.good) ?_ ?_ initial_inv
    (Machine.along_trivial actions _) h
  · intro w a w' hw _ hc hs
    obtain ⟨he, rfl⟩ := of_guard hs
    cases a with
    | enter uid agentId => exact hw.enter uid agentId
    | leave uid => exact hw.leave uid
    | answer s =>
      obtain ⟨x, hx, hleft⟩ := he
      exact hw.answer hx hleft hc
  · intro w a w' hw _ hc hs
    obtain ⟨he, rfl⟩ := of_guard hs
    cases a with
    | enter uid agentId | leave uid => exact absurd trivial hc
    | answer s =>
      obtain ⟨x, hx, -⟩ := he
      exact hw.answer_breaks hx hc

def comeBack : List Action :=
  [.enter 7 1, .enter 8 1, .answer 1, .leave 7, .answer 0, .enter 7 2, .answer 2, .answer 2,
    .answer 1, .enter 7 1]

theorem comeBack_entersOnce : ∃ w, machine.run comeBack = some w ∧ w.entered = [2, 1] ∧
      machine.Throughout EntersOnce comeBack machine.init := by
  have heval : ∃ w ∈ machine.run comeBack, w.entered = [2, 1] := by decide +kernel
  obtain ⟨w, hw, hentered⟩ := heval
  exact ⟨w, hw, hentered, (entersOnce_iff_unreplaced hw).mpr (by decide +kernel)⟩

def again : List Action := [.enter 7 1, .enter 7 1, .answer 0, .answer 1, .answer 1]

theorem again_not_entersOnce : ∃ w, machine.run again = some w ∧
      w.entrances = [⟨1, false, true⟩, ⟨1, true, true⟩] ∧ ¬EntersOnce w := by
  have heval : ∃ w ∈ machine.run again, w.entrances = [⟨1, false, true⟩, ⟨1, true, true⟩] := by
    decide +kernel
  obtain ⟨w, hw, hentrances⟩ := heval
  refine ⟨w, hw, hentrances, fun h => ?_⟩
  cases h.loaded ⟨1, false, true⟩ (hentrances ▸ mem_cons_self)

end EventLua.WorldServer
