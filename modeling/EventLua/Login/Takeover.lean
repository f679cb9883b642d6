import EventLua.Login.Queue

/-!
How a connection takes over an account: by `user_auth`, from the user that is bound, or from the
queue, when the agent gives the account back. `user_auth` never gets past a user that is bound,
and `user_leave_agent` looks at nobody but the last of the queue.
-/
namespace EventLua.Login
open List Option

variable {w : World}

inductive Takeover where
  | userAuth (cid : Cid) (account : Account)
  | userLeaveAgent (account : Account)
deriving DecidableEq

/-- A connection without an account asks for one that is not with an agent, or an agent gives an
account back. -/
def Ready (w : World) : Takeover → Prop
  | .userAuth cid account => w.loginCtx cid = some ⟨none⟩ ∧ w.enterAgentUser.get account = none
  | .userLeaveAgent account => w.enterAgentUser.get account ≠ none

instance (w : World) (t : Takeover) : Decidable (Ready w t) := by
  unfold Ready
  split <;> infer_instance

/-- The account is bound to a user of the connection, whose `auth` has begun. -/
structure Authenticated (w : World) (cid : Cid) (account : Account) : Prop where
  login : w.loginCtx cid = some ⟨some account⟩
  bound : ∃ user ∈ w.loading, w.users account = some user ∧ user.cid = cid

def World.queue (w : World) (account : Account) : List Cid :=
  (w.accountQueue.get account).getD []

def lastConnected (w : World) (queue : List Cid) : Option Cid :=
  queue.reverse.find? fun cid => decide (Connected w cid)

/-- The call comes to its end, the new connection has the account, and those that had it or
waited for it are closed. -/
def Replaces (w : World) : Takeover → Prop
  | .userAuth cid account => ∃ w', userAuth w cid account = .ok w' ∧
      Authenticated w' cid account ∧
      ∀ old ∈ w.users account, old.cid ≠ cid → ¬Connected w' old.cid
  | .userLeaveAgent account => ∃ w', userLeaveAgent w account = .ok w' ∧
      (lastConnected w (w.queue account) = none → w'.users account = none) ∧
      (∀ cid ∈ lastConnected w (w.queue account),
        Authenticated w' cid account ∧ Connected w' cid) ∧
      ∀ cid ∈ w.queue account, lastConnected w (w.queue account) ≠ some cid → ¬Connected w' cid

/-- Nobody has the account. Whoever waits for it and is known is connected; if there is such a
one, then the last of the queue is, and it has asked once. -/
def Clear (w : World) : Takeover → Prop
  | .userAuth _ account => w.users account = none
  | .userLeaveAgent account =>
    (∀ cid ∈ w.queue account, w.loginCtx cid ≠ none → Connected w cid) ∧
    ((∃ cid ∈ w.queue account, Connected w cid) → ∀ last ∈ (w.queue account).getLast?,
      Connected w last ∧ last ∉ (w.queue account).dropLast)

instance (w : World) (t : Takeover) : Decidable (Clear w t) := by
  unfold Clear
  split <;> infer_instance

theorem authenticated_newUser (w : World) (cid : Cid) (account : Account) :
    Authenticated ((w.setLogin cid (some ⟨some account⟩)).newUser cid account) cid account :=
  ⟨w.setLogin_self cid _, ⟨w.serial, cid, account⟩, mem_append_right _ mem_cons_self,
    World.newUser_self _ _ _, rfl⟩

variable {account : Account}

theorem userAuth_replaces_iff (hr : Ready w (.userAuth cid account)) :
    Replaces w (.userAuth cid account) ↔ Clear w (.userAuth cid account) := by
  obtain ⟨hlogin, hentry⟩ := hr
  have hauth : userAuth w cid account =
      (w.users account).elim (.ok ((w.setLogin cid (some ⟨some account⟩)).newUser cid account))
        fun _ => .error (w.setLogin cid (some ⟨some account⟩)) := by
    have hsame : (w.setLogin cid (some ⟨some account⟩)).users account = w.users account := rfl
    rw [userAuth, hlogin]
    rw [hentry]
    dsimp only
    rw [hsame]
    cases w.users account with
    | none | some user => rfl
  constructor
  · rintro ⟨w', hok, -⟩
    cases hu : w.users account with
    | none => exact hu
    | some user =>
      rw [hauth, hu] at hok
      cases hok
  · intro hnone
    rw [hnone] at hauth
    refine ⟨_, hauth, authenticated_newUser w cid account, fun old hold => ?_⟩
    cases hold.symm.trans hnone

theorem closeQueued_spec (w : World) (cids : List Cid) : (∃ w', closeQueued w cids = .ok w' ∧
      (∀ cid ∈ cids, w.loginCtx cid ≠ none → Connected w cid) ∧
      ∀ cid, w'.loginCtx cid = (if cid ∈ cids then none else w.loginCtx cid) ∧ w'.clients cid =
          if cid ∈ cids ∧ w.loginCtx cid ≠ none then none else w.clients cid) ∨
    (∃ w', closeQueued w cids = .error w') ∧
      ∃ cid ∈ cids, w.loginCtx cid ≠ none ∧ ¬Connected w cid := by
  induction cids generalizing w with
  | nil => exact .inl ⟨w, rfl, by simp, by simp⟩
  | cons first rest ih =>
    rw [closeQueued]
    cases hlogin : w.loginCtx first with
    | none =>
      obtain ⟨w', hok, hall, hw'⟩ | ⟨herror, cid, hmem, hgone⟩ := ih w
      · refine .inl ⟨w', hok, fun cid hmem hknown => ?_, fun cid => ?_⟩
        · have hne : cid ≠ first := fun heq => hknown (heq ▸ hlogin)
          exact hall cid ((mem_cons.mp hmem).resolve_left hne) hknown
        · by_cases heq : cid = first
          · simp [hw', heq, hlogin]
          · simp [hw', heq]
      · exact .inr ⟨herror, cid, mem_cons_of_mem _ hmem, hgone⟩
    | some info =>
      cases hclient : w.clients first with
      | none => exact .inr ⟨⟨w, rfl⟩, first, by simp [hlogin, Connected, hclient]⟩
      | some client =>
        have hother : ∀ cid, cid ≠ first →
            ((w.setClient first none).setLogin first none).clients cid = w.clients cid ∧
            ((w.setClient first none).setLogin first none).loginCtx cid = w.loginCtx cid :=
          fun cid hne => ⟨w.setClient_of_ne none hne, World.setLogin_of_ne _ none hne⟩
        have hself : ((w.setClient first none).setLogin first none).clients first = none :=
          w.setClient_self first none
        obtain ⟨w', hok, hall, hw'⟩ | ⟨herror, cid, hmem, hknown, hgone⟩ :=
          ih ((w.setClient first none).setLogin first none)
        · refine .inl ⟨w', hok, fun cid hmem hknown => ?_, fun cid => ?_⟩
          · by_cases heq : cid = first
            · exact heq ▸ connected_of_some hclient
            · have hc := hall cid ((mem_cons.mp hmem).resolve_left heq)
              rw [(hother cid heq).2, Connected, (hother cid heq).1] at hc
              exact hc hknown
          · by_cases heq : cid = first
            · simp [hw', heq, hlogin, hself]
            · simp [hw', heq, hother cid heq]
        · have hne : cid ≠ first := by
            rintro rfl
            exact hknown (World.setLogin_self _ cid none)
          rw [(hother cid hne).2] at hknown
          rw [Connected, (hother cid hne).1] at hgone
          exact .inr ⟨herror, cid, mem_cons_of_mem _ hmem, hknown, hgone⟩

theorem userLeaveAgent_of_queue (h : Sound w) (hentry : w.enterAgentUser.get account ≠ none)
    (hq : w.accountQueue.get account = some (front ++ [last])) :
    (∀ w', userLeaveAgent w account = .ok w' →
        ∀ cid ∈ front, w.loginCtx cid ≠ none → Connected w cid) ∧
      ((∀ cid ∈ front, w.loginCtx cid ≠ none → Connected w cid) →
        ∃ w', userLeaveAgent w account = .ok (authLast w' account (some last)) ∧
          w'.users account = none ∧
          (∀ cid ∈ front, w'.clients cid = none ∧ w'.loginCtx cid = none) ∧ ∀ cid, cid ∉ front →
            w'.clients cid = w.clients cid ∧ w'.loginCtx cid = w.loginCtx cid) := by
  obtain ⟨info, hinfo⟩ := ne_none_iff_exists'.mp hentry
  obtain ⟨agent, count, hleft⟩ := (userLeaveAgent_cases h account).resolve_left
    fun hnone => hentry hnone.1
  obtain ⟨queue, hqueue, heq⟩ := hleft.resolve_left fun hnone => by
    rw [hq] at hnone
    cases hnone.1
  cases hq.symm.trans hqueue
  rw [dropLast_concat, getLast?_concat] at heq
  generalize hw₂ : ({ w with
    enterAgentUser := w.enterAgentUser.erase account
    agents := w.agents.set agent count
    accountQueue := w.accountQueue.erase account } : World) = w₂ at heq
  have hclients : w₂.clients = w.clients := by rw [← hw₂]
  have hlogin : w₂.loginCtx = w.loginCtx := by rw [← hw₂]
  have husers : w₂.users = w.users := by rw [← hw₂]
  have hsame : ∀ cid, Connected w₂ cid ↔ Connected w cid := by
    intro cid
    rw [Connected, hclients]
    exact Iff.rfl
  constructor
  · intro w' hok cid hmem hknown
    obtain ⟨w₃, -, hall, -⟩ | ⟨⟨w₃, herror⟩, -⟩ := closeQueued_spec w₂ front
    · exact (hsame cid).mp (hall cid hmem (hlogin ▸ hknown))
    · rw [heq, herror] at hok
      cases hok
  · intro hfront
    obtain ⟨w₃, hok, -, hw₃⟩ | ⟨-, cid, hmem, hknown, hgone⟩ := closeQueued_spec w₂ front
    · have hcloses := closeQueued_closes w₂ front
      rw [hok] at hcloses
      rw [hclients, hlogin] at hw₃
      refine ⟨w₃, by rw [heq, hok]; rfl, ?_, fun cid hmem => ?_, fun cid hmem => ?_⟩
      · have hnone := h.exclusive account info hinfo
        rw [← husers, ← hcloses.users] at hnone
        exact hnone
      · have hgone : w.loginCtx cid = none → w.clients cid = none := fun hnone =>
          by_contra fun hc => h.known cid hc hnone
        by_cases hnone : w.loginCtx cid = none
        · simp [hw₃, hmem, hnone, hgone]
        · simp [hw₃, hmem, hnone]
      · simp [hw₃, hmem]
    · exact absurd ((hsame cid).mpr (hfront cid hmem (hlogin ▸ hknown))) hgone

theorem lastConnected_concat_of_connected
    (h : Connected w last) : lastConnected w (front ++ [last]) = some last := by
  rw [lastConnected, reverse_concat]
  exact find?_cons_of_pos (decide_eq_true h)

theorem connected_of_lastConnected (h : lastConnected w queue = some cid) : Connected w cid := by
  have hfound := find?_some h
  exact of_decide_eq_true hfound

theorem lastConnected_eq_none : lastConnected w queue = none ↔ ∀ cid ∈ queue, ¬Connected w cid := by
  rw [lastConnected, find?_eq_none]
  simp

theorem authLast_of_none (h : w.loginCtx last = none) : authLast w account (some last) = w := by
  rw [authLast, h]

theorem authLast_of_some (h : w.loginCtx last ≠ none) : authLast w account (some last) =
      (w.setLogin last (some ⟨some account⟩)).newUser last account := by
  obtain ⟨info, hinfo⟩ := ne_none_iff_exists'.mp h
  rw [authLast, hinfo]

theorem eq_last_of_authenticated (hnone : w.users account = none)
    (h : Authenticated (authLast w account (some last)) cid account) :
    cid = last ∧ w.loginCtx last ≠ none := by
  obtain ⟨user, -, huser, hcid⟩ := h.bound
  by_cases hlogin : w.loginCtx last = none
  · rw [authLast_of_none hlogin, hnone] at huser
    cases huser
  · rw [authLast_of_some hlogin, World.newUser_self] at huser
    cases huser
    exact ⟨hcid.symm, hlogin⟩

section
variable (h : Sound w) (hentry : w.enterAgentUser.get account ≠ none)
include h hentry

theorem clear_of_replaces (hq : w.accountQueue.get account = some (front ++ [last]))
    (hr : Replaces w (.userLeaveAgent account)) : Clear w (.userLeaveAgent account) := by
  have hqueue : w.queue account = front ++ [last] := by rw [World.queue, hq]; rfl
  obtain ⟨w', hok, hnobody, hlast, -⟩ := hr
  rw [hqueue] at hnobody hlast
  have hspec := userLeaveAgent_of_queue h hentry hq
  have hfront := hspec.1 w' hok
  obtain ⟨w₃, hok₃, hnone, hclosed, hkept⟩ := hspec.2 hfront
  cases hok.symm.trans hok₃
  rw [Clear, hqueue, dropLast_concat, getLast?_concat]
  -- whoever was chosen is the last, and was not closed before its turn
  have hchosen : ∀ cid, lastConnected w (front ++ [last]) = some cid →
      cid = last ∧ last ∉ front := by
    intro cid hcid
    obtain ⟨heq, hlogin⟩ := eq_last_of_authenticated hnone (hlast cid hcid).1
    exact ⟨heq, fun hmem => hlogin (hclosed last hmem).2⟩
  refine ⟨fun cid hmem hlogin => ?_, fun hsome l hl => ?_⟩
  · by_cases hcid : cid ∈ front
    · exact hfront cid hcid hlogin
    · obtain rfl := mem_singleton.mp ((mem_append.mp hmem).resolve_left hcid)
      have hlogin₃ : w₃.loginCtx cid ≠ none := by
        rw [(hkept cid hcid).2]
        exact hlogin
      cases hfound : lastConnected w (front ++ [cid]) with
      | none =>
        have hbound := hnobody hfound
        rw [authLast_of_some hlogin₃, World.newUser_self] at hbound
        cases hbound
      | some chosen =>
        obtain ⟨rfl, -⟩ := hchosen chosen hfound
        exact connected_of_lastConnected hfound
  · cases hl
    cases hfound : lastConnected w (front ++ [last]) with
    | none =>
      obtain ⟨cid, hmem, hc⟩ := hsome
      exact absurd hc (lastConnected_eq_none.mp hfound cid hmem)
    | some chosen =>
      obtain ⟨rfl, hfront⟩ := hchosen chosen hfound
      exact ⟨connected_of_lastConnected hfound, hfront⟩

theorem replaces_of_clear (hq : w.accountQueue.get account = some (front ++ [last]))
    (hc : Clear w (.userLeaveAgent account)) : Replaces w (.userLeaveAgent account) := by
  have hqueue : w.queue account = front ++ [last] := by rw [World.queue, hq]; rfl
  obtain ⟨hknown, hlast⟩ := hc
  rw [hqueue] at hknown hlast
  rw [dropLast_concat, getLast?_concat] at hlast
  obtain ⟨w₃, hok, hnone, hclosed, hkept⟩ := (userLeaveAgent_of_queue h hentry hq).2
    fun cid hmem => hknown cid (mem_append_left _ hmem)
  refine ⟨_, hok, ?_⟩
  rw [hqueue]
  by_cases hsome : ∃ cid ∈ front ++ [last], Connected w cid
  · obtain ⟨hconnected, hfront⟩ := hlast hsome last rfl
    obtain ⟨hclient, hlogin⟩ := hkept last hfront
    have hlogin₃ : w₃.loginCtx last ≠ none := by
      rw [hlogin]
      exact h.known last hconnected
    rw [lastConnected_concat_of_connected hconnected, authLast_of_some hlogin₃]
    refine ⟨fun hnone => (by cases hnone), fun cid hcid => ?_, fun cid hmem hne hc => ?_⟩
    · cases hcid
      refine ⟨authenticated_newUser w₃ last account, ?_⟩
      show w₃.clients last ≠ none
      rw [hclient]
      exact hconnected
    · have hmem : cid ∈ front := (mem_append.mp hmem).resolve_right fun hlast =>
        hne (congrArg some (mem_singleton.mp hlast).symm)
      exact hc (hclosed cid hmem).1
  · push Not at hsome
    have hlogin : w₃.loginCtx last = none := by
      by_cases hfront : last ∈ front
      · exact (hclosed last hfront).2
      · rw [(hkept last hfront).2]
        by_contra hknows
        have hmem : last ∈ front ++ [last] := mem_append_right _ mem_cons_self
        exact hsome last hmem (hknown last hmem hknows)
    rw [lastConnected_eq_none.mpr hsome, authLast_of_none hlogin]
    refine ⟨fun _ => hnone, fun cid hcid => (by cases hcid), fun cid hmem _ hc => ?_⟩
    by_cases hfront : cid ∈ front
    · exact hc (hclosed cid hfront).1
    · rw [Connected, (hkept cid hfront).1] at hc
      exact hsome cid hmem hc

theorem userLeaveAgent_of_nobody (hq : w.queue account = []) :
    ∃ w', userLeaveAgent w account = .ok w' ∧ w'.users account = none := by
  obtain ⟨info, hinfo⟩ := ne_none_iff_exists'.mp hentry
  have hnone := h.exclusive account info hinfo
  obtain ⟨agent, count, hleft⟩ := (userLeaveAgent_cases h account).resolve_left
    fun hnone => hentry hnone.1
  cases hleft with
  | inl hempty => exact ⟨_, hempty.2, hnone⟩
  | inr hqueue =>
    obtain ⟨queue, hget, heq⟩ := hqueue
    rw [World.queue, hget] at hq
    have hq : queue = [] := hq
    rw [hq] at heq
    exact ⟨_, heq, hnone⟩

end

theorem userLeaveAgent_replaces_iff (h : Sound w) (hr : Ready w (.userLeaveAgent account)) :
    Replaces w (.userLeaveAgent account) ↔ Clear w (.userLeaveAgent account) := by
  have hentry : w.enterAgentUser.get account ≠ none := hr
  cases eq_nil_or_concat (w.queue account) with
  | inl hnil =>
    obtain ⟨w', hok, hnone⟩ := userLeaveAgent_of_nobody h hentry hnil
    refine iff_of_true ⟨w', hok, fun _ => hnone, ?_, ?_⟩ ⟨?_, ?_⟩
    · rw [hnil]
      exact fun cid hcid => (by cases hcid)
    · rw [hnil]
      exact fun cid hmem => (by cases hmem)
    · rw [hnil]
      exact fun cid hmem => (by cases hmem)
    · rw [hnil]
      exact fun _ last hlast => (by cases hlast)
  | inr hconcat =>
    obtain ⟨front, last, heq⟩ := hconcat
    rw [concat_eq_append] at heq
    have hq : w.accountQueue.get account = some (front ++ [last]) := by
      rw [World.queue] at heq
      cases hget : w.accountQueue.get account with
      | none =>
        rw [hget] at heq
        exact absurd heq.symm (append_ne_nil_of_right_ne_nil _ (cons_ne_nil _ _))
      | some queue =>
        rw [hget] at heq
        exact congrArg some heq
    exact ⟨clear_of_replaces h hentry hq, replaces_of_clear h hentry hq⟩

theorem Sound.replaces_iff (h : Sound w) (hr : Ready w t) : Replaces w t ↔ Clear w t := by
  cases t with
  | userAuth cid account => exact userAuth_replaces_iff hr
  | userLeaveAgent account => exact userLeaveAgent_replaces_iff h hr

/-- In every state of a run: a connection takes over an account as it should, if and only if
nobody has the account, or the queue is clear. -/
theorem replaces_iff_clear {actions : List Action} {t : Takeover}
    (h : machine.run actions = some w) (hr : Ready w t) : Replaces w t ↔ Clear w t :=
  (sound_of_run h).replaces_iff hr

def waiting : List Action :=
  [.registerAgentServer 5, .enter 1, .userAuth 1 100, .userEnterAgent 1 7 [5], .enter 2,
    .userAuth 2 100, .enter 3, .userAuth 3 100]

theorem waiting_replaces : ∃ w, machine.run waiting = some w ∧ w.queue 100 = [2, 3] ∧
      Replaces w (.userLeaveAgent 100) := by
  have heval : ∃ w ∈ machine.run waiting, w.queue 100 = [2, 3] ∧
      Ready w (.userLeaveAgent 100) ∧ Clear w (.userLeaveAgent 100) := by decide +kernel
  obtain ⟨w, hw, hqueue, hready, hclear⟩ := heval
  exact ⟨w, hw, hqueue, (replaces_iff_clear hw hready).mpr hclear⟩

theorem not_replaces_of_run (heval : ∃ w ∈ machine.run actions, Ready w t ∧ ¬Clear w t) :
    ∃ w, machine.run actions = some w ∧ Ready w t ∧ ¬Replaces w t := by
  obtain ⟨w, hw, hready, hclear⟩ := heval
  refine ⟨w, hw, hready, fun hr => ?_⟩
  exact hclear (((sound_of_run hw).replaces_iff hready).mp hr)

def secondLogin : List Action := [.enter 1, .userAuth 1 100, .authEnds ⟨0, 1, 100⟩, .enter 2]

/-- The second login raises. A queue is given up when its last one has gone, and when its last
one has asked twice. -/
theorem takeovers_not_replace : (∃ w, machine.run secondLogin = some w ∧ Ready w (.userAuth 2 100) ∧
      ¬Replaces w (.userAuth 2 100)) ∧
    (∃ w, machine.run (waiting ++ [.leave 3]) = some w ∧ Ready w (.userLeaveAgent 100) ∧
      ¬Replaces w (.userLeaveAgent 100)) ∧
    ∃ w, machine.run (waiting ++ [.userAuth 3 100]) = some w ∧ Ready w (.userLeaveAgent 100) ∧
      ¬Replaces w (.userLeaveAgent 100) :=
  ⟨not_replaces_of_run (by decide +kernel), not_replaces_of_run (by decide +kernel),
    not_replaces_of_run (by decide +kernel)⟩

end EventLua.Login
