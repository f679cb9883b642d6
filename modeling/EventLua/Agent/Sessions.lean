import EventLua.Agent.Model

/-!
When the sessions of an agent end as they should: in the runs in which nobody is kicked and no two
sessions share a user or a connection. A kick never comes to `user_leave`, and two sessions of one
uid take each other's user.
-/
namespace EventLua.Agent
open List Function Option

variable {w w' : World} {s t : Serial} {x : Session}

inductive Stage (w : World) (s : Serial) (x : Session) : Prop where
  | inside (entry : w.enterUser x.cid = some s) (bound : w.users x.uid = some s)
      (alive : x.alive = true) (gone : x.gone = false) (line : x.line = [])
      (body : x.isLeaving = false) (saved : w.log.count (.saved s) = 0)
      (left : w.log.count (.leaveAgent s x.account) = 0)
  | waiting (entry : w.enterUser x.cid ≠ some s) (bound : w.users x.uid = some s)
      (alive : x.alive = true) (line : x.line = [s]) (body : x.isLeaving = false)
      (saved : w.log.count (.saved s) = 0) (left : w.log.count (.leaveAgent s x.account) = 0)
  | leaving (entry : w.enterUser x.cid ≠ some s) (bound : w.users x.uid = some s)
      (alive : x.alive = true) (line : x.line = []) (body : x.body = some (.leaving s))
      (saved : w.log.count (.saved s) = 1) (left : w.log.count (.leaveAgent s x.account) = 0)
  | left (entry : w.enterUser x.cid ≠ some s) (alive : x.alive = false) (line : x.line = [])
      (body : x.body = none) (saved : w.log.count (.saved s) = 1)
      (left : w.log.count (.leaveAgent s x.account) = 1)

theorem Stage.mono (h : Stage w s x)
    (hentry : w'.enterUser x.cid = some s ↔ w.enterUser x.cid = some s)
    (hbound : w.users x.uid = some s → w'.users x.uid = some s)
    (hsaved : w'.log.count (.saved s) = w.log.count (.saved s))
    (hleft : w'.log.count (.leaveAgent s x.account) = w.log.count (.leaveAgent s x.account)) :
    Stage w' s x := by
  cases h with
  | inside entry bound alive gone line body saved left =>
    exact .inside (hentry.mpr entry) (hbound bound) alive gone line body (hsaved.trans saved)
      (hleft.trans left)
  | waiting entry bound alive line body saved left =>
    exact .waiting (fun he => entry (hentry.mp he)) (hbound bound) alive line body
      (hsaved.trans saved) (hleft.trans left)
  | leaving entry bound alive line body saved left =>
    exact .leaving (fun he => entry (hentry.mp he)) (hbound bound) alive line body
      (hsaved.trans saved) (hleft.trans left)
  | left entry alive line body saved left =>
    exact .left (fun he => entry (hentry.mp he)) alive line body (hsaved.trans saved)
      (hleft.trans left)

/-- The tables, and the stages of all sessions but one. -/
structure Rest (w : World) (t : Serial) : Prop where
  stage : ∀ s x, s ≠ t → w.sessions.get s = some x → Stage w s x
  entry : ∀ cid s, w.enterUser cid = some s → ∃ x, w.sessions.get s = some x ∧ x.cid = cid
  fresh : ∀ s, w.serial ≤ s → w.sessions.get s = none ∧ w.log.count (.saved s) = 0 ∧
    ∀ account, w.log.count (.leaveAgent s account) = 0

structure Inv (w : World) : Prop where
  stage : ∀ s x, w.sessions.get s = some x → Stage w s x
  entry : ∀ cid s, w.enterUser cid = some s → ∃ x, w.sessions.get s = some x ∧ x.cid = cid
  fresh : ∀ s, w.serial ≤ s → w.sessions.get s = none ∧ w.log.count (.saved s) = 0 ∧
    ∀ account, w.log.count (.leaveAgent s account) = 0

theorem Inv.rest (h : Inv w) (t : Serial) : Rest w t :=
  ⟨fun s x _ hx => h.stage s x hx, h.entry, h.fresh⟩

section
variable (h : Rest w t) (hx : w.sessions.get t = some x)
include h hx

theorem Rest.inv (hstage : Stage w t x) : Inv w := by
  refine ⟨fun s y hy => ?_, h.entry, h.fresh⟩
  by_cases heq : s = t
  · subst heq
    cases hx.symm.trans hy
    exact hstage
  · exact h.stage s y heq hy

theorem Rest.lt_serial : t < w.serial := by
  by_contra hge
  cases hx.symm.trans (h.fresh t (Nat.le_of_not_lt hge)).1

theorem Rest.ne_of_fresh (hs : w.serial ≤ s) :
    s ≠ t := Nat.ne_of_gt (Nat.lt_of_lt_of_le (h.lt_serial hx) hs)

theorem Rest.setSession (y : Session) (hcid : y.cid = x.cid) : Rest (w.setSession t y) t := by
  refine ⟨fun s z hne hz => ?_, fun cid s he => ?_, fun s hs => ?_⟩
  · rw [w.setSession_of_ne y hne] at hz
    exact (h.stage s z hne hz).mono Iff.rfl id rfl rfl
  · obtain ⟨z, hz, rfl⟩ := h.entry cid s he
    by_cases heq : s = t
    · subst heq
      cases hx.symm.trans hz
      exact ⟨y, w.setSession_self s y, hcid⟩
    · exact ⟨z, (w.setSession_of_ne y heq).trans hz, rfl⟩
  · obtain ⟨hnone, hcounts⟩ := h.fresh s hs
    exact ⟨(w.setSession_of_ne y (h.ne_of_fresh hx hs)).trans hnone, hcounts⟩

end

def Concerns (t : Serial) (events : List Event) : Prop :=
  ∀ s, s ≠ t → events.count (.saved s) = 0 ∧ ∀ account, events.count (.leaveAgent s account) = 0

theorem Rest.note (h : Rest w t) (hx : w.sessions.get t = some x) (hevents : Concerns t events) :
    Rest (w.note events) t := by
  have hsaved : ∀ s, s ≠ t →
      (w.note events).log.count (.saved s) = w.log.count (.saved s) := by
    intro s hne
    rw [World.note, count_append, (hevents s hne).1, Nat.add_zero]
  have hleft : ∀ s account, s ≠ t → (w.note events).log.count (.leaveAgent s account) =
      w.log.count (.leaveAgent s account) := by
    intro s account hne
    rw [World.note, count_append, (hevents s hne).2 account, Nat.add_zero]
  refine ⟨fun s y hne hy => ?_, h.entry, fun s hs => ?_⟩
  · exact (h.stage s y hne hy).mono Iff.rfl id (hsaved s hne) (hleft s _ hne)
  · have hne := h.ne_of_fresh hx hs
    obtain ⟨hnone, hzero, hzero'⟩ := h.fresh s hs
    exact ⟨hnone, (hsaved s hne).trans hzero, fun account =>
      (hleft s account hne).trans (hzero' account)⟩

theorem Rest.unbind (h : Rest w t) (hbound : w.users uid = some t) :
    Rest { w with users := update w.users uid none } t := by
  refine ⟨fun s y hne hy => (h.stage s y hne hy).mono Iff.rfl (fun hs => ?_) rfl rfl, h.entry,
    h.fresh⟩
  have huid : y.uid ≠ uid := by
    intro heq
    rw [heq, hbound] at hs
    exact hne (some.inj hs).symm
  exact (update_of_ne huid _ _).trans hs

variable {cid : Cid}

theorem Rest.removeEntry (h : Rest w t) (he : w.enterUser cid = some t) :
    Rest (w.removeEntry cid) t := by
  refine ⟨fun s y hne hy => (h.stage s y hne hy).mono ?_ id rfl rfl, fun cid' s hs => ?_, h.fresh⟩
  · by_cases hcid : y.cid = cid
    · rw [hcid, he, w.removeEntry_self]
      exact iff_of_false (fun hs => (by cases hs)) fun hs => hne (some.inj hs).symm
    · rw [w.removeEntry_of_ne hcid]
  · by_cases hcid : cid' = cid
    · rw [hcid, w.removeEntry_self] at hs
      cases hs
    · rw [w.removeEntry_of_ne hcid] at hs
      exact h.entry cid' s hs

theorem Rest.inv_of_none (h : Rest w t) (hnone : w.sessions.get t = none) : Inv w := by
  refine ⟨fun s y hy => h.stage s y ?_ hy, h.entry, h.fresh⟩
  rintro rfl
  cases hnone.symm.trans hy

section
variable (h : Rest w t) (hx : w.sessions.get t = some x) (entry : w.enterUser x.cid ≠ some t)
  (bound : w.users x.uid = some t)
include h hx entry bound

theorem Rest.userLeave (alive : x.alive = true) (line : x.line = [])
    (saved : w.log.count (.saved t) = 0) (left : w.log.count (.leaveAgent t x.account) = 0) :
    Inv (userLeave w t t) := by
  let events : List Event := [.leaveWorld x.uid, .leaveScene x.uid, .saved t]
  have hevents : Concerns t events := fun s hne => by
    simp [events, Ne.symm hne]
  have hbegin : Agent.userLeave w t t =
      (w.note events).setSession t { x with body := some (.leaving t) } := by
    have hnoted : (w.note events).sessions.get t = some x := hx
    rw [Agent.userLeave, hx]
    exact World.setBody_of_some _ hnoted
  rw [hbegin]
  have hrest := (h.note hx hevents).setSession hx { x with body := some (.leaving t) } rfl
  refine hrest.inv (World.setSession_self _ _ _) ?_
  refine .leaving entry bound alive line rfl ?_ ?_
  · show (w.log ++ events).count (.saved t) = 1
    rw [count_append, saved]
    simp [events]
  · show (w.log ++ events).count (.leaveAgent t x.account) = 0
    rw [count_append, left]
    simp [events]

theorem Rest.mutexLeave (alive : x.alive = true) (line : x.line = [])
    (body : x.isLeaving = false) (saved : w.log.count (.saved t) = 0)
    (left : w.log.count (.leaveAgent t x.account) = 0) : Inv (mutexLeave w t t) := by
  rw [Agent.mutexLeave, hx]
  dsimp only
  split
  · exact h.userLeave hx entry bound alive line saved left
  · have hline : x.line ++ [t] = [t] := by rw [line]; rfl
    have hrest := h.setSession hx { x with line := x.line ++ [t] } rfl
    refine hrest.inv (World.setSession_self _ _ _) ?_
    exact .waiting entry bound alive hline body saved left

theorem Rest.userLeft (line : x.line = []) (saved : w.log.count (.saved t) = 1)
    (left : w.log.count (.leaveAgent t x.account) = 0) : Inv (userLeft w t t) := by
  let events : List Event := [.leaveAgent t x.account]
  have hevents : Concerns t events := fun s hne => by simp [events, Ne.symm hne]
  have hself : (w.release t).sessions.get t = some { x with alive := false } := by
    rw [World.release, hx]
    exact w.setSession_self t _
  have hreleased : Rest (w.release t) t := by
    rw [World.release, hx]
    exact (h.setSession hx { x with alive := false } rfl).unbind bound
  have hends : Agent.userLeft w t t =
      ((w.release t).setSession t { x with alive := false, body := none }).note events := by
    rw [Agent.userLeft, hx]
    rw [World.setBody_of_some none hself]
  have hrest := hreleased.setSession hself { x with alive := false, body := none } rfl
  have hself' := (w.release t).setSession_self t { x with alive := false, body := none }
  have hlog : (w.release t).log = w.log := by rw [World.release, hx]; rfl
  have hentry : (w.release t).enterUser = w.enterUser := by rw [World.release, hx]; rfl
  rw [hends]
  refine (hrest.note hself' hevents).inv hself' (.left ?_ rfl line rfl ?_ ?_)
  · show (w.release t).enterUser x.cid ≠ some t
    rw [hentry]
    exact entry
  · show ((w.release t).log ++ events).count (.saved t) = 1
    rw [hlog, count_append, saved]
    simp [events]
  · show ((w.release t).log ++ events).count (.leaveAgent t x.account) = 1
    rw [hlog, count_append, left]
    simp [events]

end

theorem mark_cid (cid : Cid) (x : Session) : (x.mark cid).cid = x.cid := by
  rw [Session.mark]
  split <;> rfl

theorem lose_sessions (w : World) (cid : Cid) (s : Serial) :
    (w.lose cid).sessions.get s = (w.sessions.get s).map (Session.mark cid) := by
  rw [World.lose, Table.get_filterMap]
  cases w.sessions.get s with
  | none | some x => rfl

theorem Stage.mark (h : Stage w s x)
    (hentry : x.cid = cid → w.enterUser cid ≠ some s) : Stage w s (x.mark cid) := by
  rw [Session.mark]
  split
  next hcid =>
    have hne := hentry hcid
    rw [← hcid] at hne
    cases h with
    | inside entry => exact absurd entry hne
    | waiting entry bound alive line body saved left =>
      exact .waiting entry bound alive line body saved left
    | leaving entry bound alive line body saved left =>
      exact .leaving entry bound alive line body saved left
    | left entry alive line body saved left => exact .left entry alive line body saved left
  · exact h

theorem Inv.lose (h : Inv w) (ht : ∀ s, w.enterUser cid = some s → s = t) :
    Rest (w.lose cid) t := by
  refine ⟨fun s y hne hy => ?_, fun cid' s he => ?_, fun s hs => ?_⟩
  · rw [lose_sessions] at hy
    obtain ⟨x, hx, rfl⟩ := map_eq_some_iff.mp hy
    have hmarked := (h.stage s x hx).mark fun _ he => hne (ht s he)
    exact hmarked.mono Iff.rfl id rfl rfl
  · obtain ⟨x, hx, rfl⟩ := h.entry cid' s he
    exact ⟨x.mark cid, by rw [lose_sessions, hx]; rfl, mark_cid cid x⟩
  · obtain ⟨hnone, hcounts⟩ := h.fresh s hs
    exact ⟨by rw [lose_sessions, hnone]; rfl, hcounts⟩

theorem Inv.lose_of_none (h : Inv w) (hnone : w.enterUser cid = none) : Inv (w.lose cid) := by
  have hrest : Rest (w.lose cid) w.serial := h.lose fun s he => (by cases hnone.symm.trans he)
  refine hrest.inv_of_none ?_
  rw [lose_sessions, (h.fresh _ (Nat.le_refl _)).1]
  rfl

theorem Inv.close (h : Inv w) (hnone : w.enterUser cid = none) : Inv (w.close cid) := by
  rw [World.close]
  split
  · exact h.lose_of_none hnone
  · exact h

theorem leave_of_some (he : w.enterUser cid = some t)
    (hx : ((w.lose cid).removeEntry cid).sessions.get t = some x) (hu : w.users x.uid = some user) :
    leave w cid = mutexLeave ((w.lose cid).removeEntry cid) t user := by
  have he : (w.lose cid).enterUser cid = some t := he
  have hu : ((w.lose cid).removeEntry cid).users x.uid = some user := hu
  rw [leave]
  dsimp only
  rw [he]
  dsimp only
  rw [hx]
  dsimp only
  rw [hu]

theorem Inv.leave (h : Inv w) (cid : Cid) : Inv (leave w cid) := by
  cases he : w.enterUser cid with
  | none =>
    have hlost : (w.lose cid).enterUser cid = none := he
    rw [Agent.leave]
    rw [hlost]
    exact h.lose_of_none he
  | some t =>
    obtain ⟨x, hx, hcid⟩ := h.entry cid t he
    cases h.stage t x hx with
    | waiting entry | leaving entry | left entry => exact absurd (hcid ▸ he) entry
    | inside entry bound alive gone line body saved left =>
      have hlost : Rest (w.lose cid) t := h.lose fun s hs => some.inj (hs.symm.trans he)
      have hmarked : ((w.lose cid).removeEntry cid).sessions.get t =
          some { x with gone := true } := by
        refine (lose_sessions w cid t).trans ?_
        rw [hx, map_some, Session.mark, if_pos hcid]
      have hentry : ((w.lose cid).removeEntry cid).enterUser x.cid ≠ some t := by
        rw [hcid, World.removeEntry_self]
        exact fun hs => (by cases hs)
      rw [leave_of_some he hmarked bound]
      exact (hlost.removeEntry he).mutexLeave hmarked hentry bound alive line body saved left

theorem Inv.newSession (h : Inv w) (hcid : w.enterUser cid = none)
    (huid : w.users info.uid = none) : Inv (Agent.newSession w cid info) := by
  obtain ⟨hnone, hsaved, hleft⟩ := h.fresh w.serial (Nat.le_refl _)
  let x : Session := ⟨cid, info.uid, info.account, some .loadingUser, [], true, false, false⟩
  let w' : World := Agent.newSession w cid info
  have hself : w'.sessions.get w.serial = some x := w.setSession_self w.serial x
  have hother : ∀ s, s ≠ w.serial → w'.sessions.get s = w.sessions.get s :=
    fun s hne => w.setSession_of_ne x hne
  have hne : ∀ s y, w.sessions.get s = some y → s ≠ w.serial := by
    rintro s y hy rfl
    cases hnone.symm.trans hy
  have hentry : w'.enterUser cid = some w.serial := update_self _ _ _
  have hbound : w'.users info.uid = some w.serial := update_self _ _ _
  have hrest : Rest w' w.serial := by
    refine ⟨fun s y hs hy => ?_, fun cid' s he => ?_, fun s hs => ?_⟩
    · rw [hother s hs] at hy
      refine (h.stage s y hy).mono ?_ (fun hold => ?_) rfl rfl
      · by_cases heq : y.cid = cid
        · rw [heq, hentry, hcid]
          exact iff_of_false (fun he => hs (some.inj he).symm) fun he => (by cases he)
        · exact iff_of_eq (congrArg (· = some s) (update_of_ne heq _ _))
      · have heq : y.uid ≠ info.uid := by
          intro heq
          rw [heq, huid] at hold
          cases hold
        exact (update_of_ne heq _ _).trans hold
    · by_cases heq : cid' = cid
      · rw [heq, hentry] at he
        cases he
        exact ⟨x, hself, heq.symm⟩
      · obtain ⟨y, hy, hycid⟩ := h.entry cid' s ((update_of_ne heq _ _).symm.trans he)
        exact ⟨y, (hother s (hne s y hy)).trans hy, hycid⟩
    · have hlt : w.serial < s := hs
      obtain ⟨hfresh, hcounts⟩ := h.fresh s (Nat.le_of_lt hlt)
      exact ⟨(hother s (Nat.ne_of_gt hlt)).trans hfresh, hcounts⟩
  exact hrest.inv hself (.inside hentry hbound rfl rfl rfl rfl hsaved (hleft _))

/-- Nobody is kicked who has a session, and a session begins with a connection and a user that
have none. -/
def Calm (w : World) : Action → Prop
  | .userAuth cid token _ _ => w.enterUser cid = none ∧
      ∀ info ∈ w.userToken.get token, w.users info.uid = none
  | .userKick uid _ => ∀ user ∈ w.users uid, ∀ x ∈ w.sessions.get user, w.enterUser x.cid = none
  | .accept _ | .userRegister _ _ | .userLoaded _ | .fighterLoaded _ | .leave _ | .wake _
  | .leaveAnswer _ => True

instance (w : World) (a : Action) : Decidable (Calm w a) := by
  induction a using Action.casesOn <;> delta Calm <;> infer_instance

theorem Inv.note (h : Inv w) (hsaved : ∀ s, e ≠ .saved s)
    (hleft : ∀ s account, e ≠ .leaveAgent s account) : Inv (w.note [e]) := by
  have hcount : ∀ e', e ≠ e' → (w.log ++ [e]).count e' = w.log.count e' := by
    intro e' hne
    rw [count_append, count_singleton, beq_eq_false_iff_ne.mpr hne]
    rfl
  refine ⟨fun s x hx => ?_, h.entry, fun s hs => ?_⟩
  · exact (h.stage s x hx).mono Iff.rfl id (hcount _ (hsaved s)) (hcount _ (hleft s _))
  · obtain ⟨hnone, hzero, hzero'⟩ := h.fresh s hs
    exact ⟨hnone, (hcount _ (hsaved s)).trans hzero, fun account =>
      (hcount _ (hleft s account)).trans (hzero' account)⟩

theorem Inv.congr (h : Inv w) (hsessions : w'.sessions = w.sessions)
    (hentry : w'.enterUser = w.enterUser) (husers : w'.users = w.users)
    (hserial : w'.serial = w.serial) (hlog : w'.log = w.log) : Inv w' := by
  refine ⟨fun s x hx => ?_, ?_, ?_⟩
  · rw [hsessions] at hx
    refine (h.stage s x hx).mono ?_ ?_ ?_ ?_
    · rw [hentry]
    · rw [husers]
      exact id
    · rw [hlog]
    · rw [hlog]
  · rw [hentry, hsessions]
    exact h.entry
  · rw [hserial, hsessions, hlog]
    exact h.fresh

theorem Inv.userAuth (h : Inv w) (hc : Calm w (.userAuth cid token now decoded)) :
    Inv (userAuth w cid token now decoded) := by
  obtain ⟨hcid, huid⟩ := hc
  rw [Agent.userAuth]
  split
  · exact h.close hcid
  next info hinfo =>
    have herased : Inv { w with userToken := w.userToken.erase token } :=
      h.congr rfl rfl rfl rfl rfl
    split
    · exact herased.close hcid
    · split
      · exact herased
      · split
        · exact herased.close hcid
        · exact herased.newSession hcid (huid info hinfo)

theorem Inv.userKick (h : Inv w) (hc : Calm w (.userKick uid order)) :
    Inv (userKick w uid order) := by
  rw [Agent.userKick]
  split
  · split
    · exact h
    next token info _ =>
      have herased : Inv { w with userToken := w.userToken.erase token } :=
        h.congr rfl rfl rfl rfl rfl
      exact herased.note (fun _ => Event.noConfusion) fun _ _ => Event.noConfusion
  next user hu =>
    split
    · exact h
    next x hx =>
      rw [hc user hu x hx]
      exact h

theorem Inv.setSession (h : Inv w) (hx : w.sessions.get t = some x) (hbody : x.isLeaving = false)
    (halive : x.body ≠ none) (y : Session) (hy : y.isLeaving = false)
    (hsame : y = { x with body := y.body, entered := y.entered }) : Inv (w.setSession t y) := by
  have hrest := (h.rest t).setSession hx y (by rw [hsame])
  refine hrest.inv (World.setSession_self _ _ _) ?_
  rw [hsame]
  cases h.stage t x hx with
  | inside entry bound alive gone line body saved left =>
    exact .inside entry bound alive gone line hy saved left
  | waiting entry bound alive line body saved left =>
    exact .waiting entry bound alive line hy saved left
  | leaving entry bound alive line body =>
    rw [Session.isLeaving, body] at hbody
    cases hbody
  | left entry alive line body => exact absurd body halive

theorem Session.isLeaving_of_body {body : Body} (h : x.body = some body)
    (hb : body = .loadingUser ∨ body = .loadingFighter) : x.isLeaving = false := by
  rw [Session.isLeaving, h]
  cases hb with
  | inl heq | inr heq => rw [heq]

section
variable (h : Inv w) (hx : w.sessions.get t = some x)
include h hx

theorem Inv.userLoaded (hbody : x.body = some .loadingUser) : Inv (userLoaded w t) := by
  have hleaving := Session.isLeaving_of_body hbody (.inl rfl)
  have hsome : x.body ≠ none := hbody ▸ some_ne_none _
  rw [Agent.userLoaded, hx]
  dsimp only
  rw [World.setBody_of_some _ hx, World.setBody_of_some _ hx]
  split
  · have hnext := h.setSession hx hleaving hsome { x with body := some .loadingFighter } rfl rfl
    exact hnext.note (fun _ => Event.noConfusion) fun _ _ => Event.noConfusion
  · exact h.setSession hx hleaving hsome { x with body := none } rfl rfl

theorem Inv.fighterLoaded (hbody : x.body = some .loadingFighter) : Inv (fighterLoaded w t) := by
  have hleaving := Session.isLeaving_of_body hbody (.inr rfl)
  have hsome : x.body ≠ none := hbody ▸ some_ne_none _
  rw [Agent.fighterLoaded, hx]
  have hnext := h.setSession hx hleaving hsome { x with body := none, entered := true } rfl rfl
  exact hnext.note (fun _ => Event.noConfusion) fun _ _ => Event.noConfusion

theorem Inv.wake (hline : x.line ≠ []) : Inv (wake w t) := by
  cases h.stage t x hx with
  | inside entry bound alive gone line | leaving entry bound alive line | left entry alive line =>
    exact absurd line hline
  | waiting entry bound alive line body saved left =>
    rw [Agent.wake, hx]
    dsimp only
    rw [line]
    have hrest := (h.rest t).setSession hx { x with line := [] } rfl
    exact hrest.userLeave (World.setSession_self _ _ _) entry bound alive rfl saved left

theorem Inv.leaveAnswer (hleaving : x.isLeaving = true) : Inv (leaveAnswer w t) := by
  have hnot : x.isLeaving ≠ false := fun hf => (by cases hleaving.symm.trans hf)
  cases h.stage t x hx with
  | inside entry bound alive gone line body | waiting entry bound alive line body =>
    exact absurd body hnot
  | left entry alive line body =>
    rw [Session.isLeaving, body] at hleaving
    cases hleaving
  | leaving entry bound alive line body saved left =>
    rw [Agent.leaveAnswer, hx]
    dsimp only
    rw [body]
    exact (h.rest t).userLeft hx entry bound line saved left

end

theorem perform_inv (h : Inv w) (he : Enabled w a) (hc : Calm w a) : Inv (perform w a) := by
  cases a with
  | accept cid | userRegister token info => exact h.congr rfl rfl rfl rfl rfl
  | userAuth cid token now decoded => exact h.userAuth hc
  | userLoaded s =>
    obtain ⟨x, hx, hbody⟩ := he
    exact h.userLoaded hx hbody
  | fighterLoaded s =>
    obtain ⟨x, hx, hbody⟩ := he
    exact h.fighterLoaded hx hbody
  | leave cid => exact h.leave cid
  | userKick uid order => exact h.userKick hc
  | wake s =>
    obtain ⟨x, hx, -, hline⟩ := he
    exact h.wake hx hline
  | leaveAnswer s =>
    obtain ⟨x, hx, hleaving⟩ := he
    exact h.leaveAnswer hx hleaving

theorem initial_inv : Inv initial :=
  ⟨fun _ _ hx => (by cases hx), fun _ _ he => (by cases he), fun _ _ => ⟨rfl, rfl, fun _ => rfl⟩⟩

theorem Inv.endsOnce (h : Inv w) : EndsOnce w := by
  refine ⟨fun s x hx => ?_, fun hquiet s x hx hentered hgone => ?_, fun s x hx hdead => ?_⟩
  · cases h.stage s x hx with
    | inside _ _ _ _ _ _ saved left | waiting _ _ _ _ _ saved left =>
      rw [saved, left]; exact ⟨Nat.zero_le 1, Nat.zero_le 1⟩
    | leaving _ _ _ _ _ saved left => rw [saved, left]; exact ⟨Nat.le_refl 1, Nat.zero_le 1⟩
    | left _ _ _ _ saved left => rw [saved, left]; exact ⟨Nat.le_refl 1, Nat.le_refl 1⟩
  · obtain ⟨hbody, hline⟩ := hquiet s x hx
    cases h.stage s x hx with
    | inside _ _ _ gone => cases gone.symm.trans hgone
    | waiting _ _ _ line => cases line.symm.trans hline
    | leaving _ _ _ _ body => cases body.symm.trans hbody
    | left _ alive _ _ saved left => exact ⟨alive, saved, left⟩
  · cases h.stage s x hx with
    | inside _ _ alive | waiting _ _ alive | leaving _ _ alive => cases alive.symm.trans hdead
    | left _ _ _ body =>
      rw [body]
      exact ⟨fun heq => (by cases heq), fun heq => (by cases heq)⟩

/-- In a run in which nobody is kicked and no two sessions share a user or a connection, the
sessions end as they should. -/
theorem endsOnce_of_calm {actions : List Action} (h : machine.run actions = some w)
    (hc : machine.Along Calm actions machine.init) : EndsOnce w := by
  have hstep : ∀ w a w', Inv w → Calm w a → machine.step w a = some w' → Inv w' := by
    intro w a w' hw hcalm hs
    obtain ⟨he, rfl⟩ := of_guard hs
    exact perform_inv hw he hcalm
  exact (Machine.invariant_along hstep initial_inv hc h).endsOnce

def visit : List Action :=
  [.accept 1, .userRegister 50 ⟨0, 7, 100⟩, .userRegister 51 ⟨0, 8, 101⟩,
    .userAuth 1 50 10 (some 7), .userLoaded 0, .leave 1, .userKick 7 [51], .userKick 8 [51],
    .fighterLoaded 0, .wake 0, .leaveAnswer 0]

theorem visit_endsOnce : ∃ w, machine.run visit = some w ∧ Quiet w ∧
      w.sessions.get 0 = some ⟨1, 7, 100, none, [], false, true, true⟩ ∧ EndsOnce w := by
  have heval : ∃ w ∈ machine.run visit, Quiet w ∧
      w.sessions.get 0 = some ⟨1, 7, 100, none, [], false, true, true⟩ := by decide +kernel
  obtain ⟨w, hw, hquiet, hsession⟩ := heval
  exact ⟨w, hw, hquiet, hsession, endsOnce_of_calm hw (by decide +kernel)⟩

def kicked : List Action :=
  [.accept 1, .userRegister 50 ⟨0, 7, 100⟩, .userAuth 1 50 10 (some 7), .userLoaded 0,
    .fighterLoaded 0, .userKick 7 []]

def shared : List Action :=
  [.accept 1, .accept 2, .userRegister 50 ⟨0, 7, 100⟩, .userRegister 51 ⟨0, 7, 100⟩,
    .userAuth 1 50 10 (some 7), .userLoaded 0, .fighterLoaded 0, .userAuth 2 51 10 (some 7),
    .leave 1, .leaveAnswer 0]

/-- A user that is kicked does not leave, and a user is released inside its `user_enter`. -/
theorem kicked_shared_not_endsOnce : (∃ w, machine.run kicked = some w ∧ ¬EndsOnce w) ∧
      ∃ w, machine.run shared = some w ∧ ¬EndsOnce w := by
  have hkicked : ∃ w ∈ machine.run kicked, Quiet w ∧
      w.sessions.get 0 = some ⟨1, 7, 100, none, [], true, true, true⟩ := by decide +kernel
  have hshared : ∃ w ∈ machine.run shared, w.sessions.get 1 =
      some ⟨2, 7, 100, some .loadingUser, [], false, false, false⟩ := by decide +kernel
  constructor
  · obtain ⟨w, hw, hquiet, hsession⟩ := hkicked
    refine ⟨w, hw, fun h => ?_⟩
    cases (h.ended hquiet 0 _ hsession rfl rfl).1
  · obtain ⟨w, hw, hsession⟩ := hshared
    exact ⟨w, hw, fun h => (h.held 1 _ hsession rfl).1 rfl⟩

end EventLua.Agent
