import EventLua.Login.Model
import EventLua.SceneManager.Ledger

/-!
What holds between the tables of `login_server`. An account never has both a `login_user` and an
entry of an agent. A connection that waits in the queue of an account waits for the agent that has
the account, as long as no agent goes down that has accounts with a queue.
-/
namespace EventLua.Login
open Option

variable {w w' : World}

structure Sound (w : World) : Prop where
  exclusive : w.enterAgentUser.All fun account _ => w.users account = none
  registered : w.enterAgentUser.All fun _ info => w.agents.get info.agentServer ≠ none
  named : ∀ account user, w.users account = some user → user.account = account
  known : ∀ cid, Connected w cid → w.loginCtx cid ≠ none

/-- Who waits in a queue and is connected waits for an agent. -/
def Answered (w : World) : Prop :=
  w.accountQueue.All fun account queue =>
    ∀ cid ∈ queue, Connected w cid → w.enterAgentUser.get account ≠ none
deriving Decidable

/-- An account has a user or an agent, not both, and its queue is answered. -/
def Orderly (w : World) : Prop :=
  (∀ account, w.users account = none ∨ w.enterAgentUser.get account = none) ∧ Answered w

theorem Sound.orderly (h : Sound w) (ha : Answered w) : Orderly w := by
  refine ⟨fun account => ?_, ha⟩
  cases he : w.enterAgentUser.get account with
  | none => exact .inr rfl
  | some info => exact .inl (h.exclusive account info he)

theorem initial_sound : Sound initial :=
  ⟨fun _ _ he => (by cases he), fun _ _ he => (by cases he), fun _ _ hu => (by cases hu),
    fun _ hc => absurd rfl hc⟩

theorem initial_answered : Answered initial := fun _ _ hq => (by cases hq)

section

section
variable (h : Sound w)
include h

theorem Sound.release (account : Account) : Sound (w.release account) := by
  refine ⟨h.exclusive.imp fun other _ hnone => ?_, h.registered, fun other user hu => ?_, h.known⟩
  · by_cases heq : other = account
    · rw [heq, w.release_self]
    · rw [w.release_of_ne heq, hnone]
  · by_cases heq : other = account
    · rw [heq, w.release_self] at hu
      cases hu
    · rw [w.release_of_ne heq] at hu
      exact h.named other user hu

theorem Sound.newUser (cid : Cid) (hnone : w.enterAgentUser.get account = none) :
    Sound (w.newUser cid account) := by
  refine ⟨fun other info he => ?_, h.registered, fun other user hu => ?_, h.known⟩
  · have hne : other ≠ account := by
      rintro rfl
      cases hnone.symm.trans he
    exact (w.newUser_of_ne cid hne).trans (h.exclusive other info he)
  · by_cases heq : other = account
    · rw [heq, w.newUser_self] at hu
      cases hu
      exact heq.symm
    · rw [w.newUser_of_ne cid heq] at hu
      exact h.named other user hu

theorem Sound.setLogin (cid : Cid) (info : LoginInfo) : Sound (w.setLogin cid (some info)) := by
  refine ⟨h.exclusive, h.registered, h.named, fun other hc => ?_⟩
  by_cases heq : other = cid
  · rw [heq, w.setLogin_self]
    exact some_ne_none info
  · rw [w.setLogin_of_ne _ heq]
    exact h.known other hc

theorem Sound.setSent (sent : List Message) : Sound { w with sent := sent } :=
  ⟨h.exclusive, h.registered, h.named, h.known⟩

theorem Sound.setAgent (agent : AgentId) (count : Int) :
    Sound { w with agents := w.agents.set agent count } :=
  ⟨h.exclusive, h.registered.imp fun _ _ hlive => Table.get_set_ne_none _ _ _ hlive, h.named,
    h.known⟩

theorem Sound.setEntry (info : EnterInfo) (hnone : w.users account = none)
    (hlive : w.agents.get info.agentServer ≠ none) :
    Sound { w with enterAgentUser := w.enterAgentUser.set account info } :=
  ⟨h.exclusive.set hnone, h.registered.set hlive, h.named, h.known⟩

theorem Sound.eraseEntry (account : Account) :
    Sound { w with enterAgentUser := w.enterAgentUser.erase account } :=
  ⟨h.exclusive.erase account, h.registered.erase account, h.named, h.known⟩

end

theorem connected_setClient (hc : Connected w cid) :
    Connected (w.setClient cid (some client)) other ↔ Connected w other := by
  by_cases heq : other = cid
  · subst heq
    exact iff_of_true (connected_of_some (w.setClient_self other _)) hc
  · rw [Connected, w.setClient_of_ne _ heq]
    exact Iff.rfl

theorem Sound.setClient (h : Sound w) (client : Client) (hc : Connected w cid) :
    Sound (w.setClient cid (some client)) :=
  ⟨h.exclusive, h.registered, h.named, fun other ho =>
    h.known other ((connected_setClient hc).mp ho)⟩

/-- Connections are closed, and forgotten. -/
structure Closes (w w' : World) : Prop where
  accountQueue : w'.accountQueue = w.accountQueue
  enterAgentUser : w'.enterAgentUser = w.enterAgentUser
  users : w'.users = w.users
  agents : w'.agents = w.agents
  client : ∀ cid, w'.clients cid = none ∨
    w'.clients cid = w.clients cid ∧ w'.loginCtx cid = w.loginCtx cid

theorem Closes.refl (w : World) : Closes w w := ⟨rfl, rfl, rfl, rfl, fun _ => .inr ⟨rfl, rfl⟩⟩

theorem Closes.trans (h : Closes w w') (h' : Closes w' w'') : Closes w w'' := by
  refine ⟨h'.accountQueue.trans h.accountQueue, h'.enterAgentUser.trans h.enterAgentUser,
    h'.users.trans h.users, h'.agents.trans h.agents, fun cid => ?_⟩
  cases h'.client cid with
  | inl hnone => exact .inl hnone
  | inr hsame =>
    rw [hsame.1, hsame.2]
    exact h.client cid

theorem closes_setClient (w : World) (cid : Cid) : Closes w (w.setClient cid none) := by
  refine ⟨rfl, rfl, rfl, rfl, fun other => ?_⟩
  by_cases heq : other = cid
  · rw [heq]
    exact .inl (w.setClient_self cid none)
  · exact .inr ⟨w.setClient_of_ne none heq, rfl⟩

theorem closes_setLogin (hc : w.clients cid = none) : Closes w (w.setLogin cid none) := by
  refine ⟨rfl, rfl, rfl, rfl, fun other => ?_⟩
  by_cases heq : other = cid
  · rw [heq]
    exact .inl hc
  · exact .inr ⟨rfl, w.setLogin_of_ne none heq⟩

theorem Closes.sound (hw : Closes w w') (h : Sound w) : Sound w' := by
  refine ⟨?_, ?_, ?_, fun cid hc => ?_⟩
  · rw [hw.enterAgentUser, hw.users]
    exact h.exclusive
  · rw [hw.enterAgentUser, hw.agents]
    exact h.registered
  · rw [hw.users]
    exact h.named
  · have hsame := (hw.client cid).resolve_left hc
    rw [Connected, hsame.1] at hc
    rw [hsame.2]
    exact h.known cid hc

theorem Closes.answered (hw : Closes w w') (h : Answered w) : Answered w' := by
  rw [Answered, hw.accountQueue, hw.enterAgentUser]
  refine h.imp fun account queue hqueue cid hmem hc => hqueue cid hmem ?_
  have hsame := (hw.client cid).resolve_left hc
  rwa [Connected, hsame.1] at hc

end

theorem closeQueued_closes (w : World) (cids : List Cid) :
    Closes w (.after (closeQueued w cids)) := by
  induction cids generalizing w with
  | nil => exact .refl w
  | cons cid rest ih =>
    rw [closeQueued]
    split
    · exact ih w
    · split
      · exact .refl w
      · have hgone := w.setClient_self cid none
        exact ((closes_setClient w cid).trans (closes_setLogin hgone)).trans (ih _)

variable {account : Account} {info : EnterInfo}

theorem agentDown_get : (agentDown w agent).enterAgentUser.get account = some info ↔
      w.enterAgentUser.get account = some info ∧ info.agentServer ≠ agent := by
  rw [agentDown, Table.get_filterMap, bind_eq_some_iff]
  constructor
  · rintro ⟨old, hold, hf⟩
    split at hf
    · cases hf
    next hne =>
      cases hf
      exact ⟨hold, hne⟩
  · rintro ⟨hold, hne⟩
    exact ⟨info, hold, if_neg hne⟩

section
variable (h : Sound w)
include h

theorem Sound.agentDown (agent : AgentId) : Sound (Login.agentDown w agent) := by
  refine ⟨fun account info he => ?_, fun account info he => ?_, h.named, h.known⟩
  · exact h.exclusive account info (agentDown_get.mp he).1
  · obtain ⟨hold, hne⟩ := agentDown_get.mp he
    rw [Login.agentDown, w.agents.get_erase_of_ne hne]
    exact h.registered account info hold

theorem Sound.enter (cid : Cid) : Sound (enter w cid) := by
  refine ⟨h.exclusive, h.registered, h.named, fun other hc => ?_⟩
  rw [Login.enter]
  by_cases heq : other = cid
  · rw [heq, World.setLogin_self]
    exact some_ne_none _
  · rw [World.setLogin_of_ne _ _ heq]
    refine h.known other fun hnone => hc ?_
    exact (w.setClient_of_ne _ heq).trans hnone

theorem Sound.leave (cid : Cid) : Sound (leave w cid) := by
  have hclosed := (closes_setClient w cid).sound h
  have hgone := w.setClient_self cid none
  have hforgot := (closes_setLogin hgone).sound hclosed
  rw [Login.leave]
  split
  · exact hclosed
  · split
    · exact hforgot
    next user _ =>
      split
      · have hreleased := hclosed.release user.account
        have hgone : ((w.setClient cid none).release user.account).clients cid = none := hgone
        exact (closes_setLogin hgone).sound hreleased
      · exact hforgot

theorem Sound.userAuth (cid : Cid) (account : Account) :
    Sound (.after (userAuth w cid account)) := by
  rw [Login.userAuth]
  split
  · exact h
  · split
    · exact h
    · split
      · split
        · exact h
        · exact ⟨h.exclusive, h.registered, h.named, h.known⟩
      next hnone =>
        dsimp only
        split
        · exact h.setLogin cid _
        · exact (h.setLogin cid _).newUser cid hnone

theorem Sound.authEnds (user : LoginUser) : Sound (authEnds w user) := by
  rw [Login.authEnds]
  split
  · split <;> exact ⟨h.exclusive, h.registered, h.named, h.known⟩
  · exact ⟨h.exclusive, h.registered, h.named, h.known⟩

end

theorem enterAgent_cases (w : World) (user : LoginUser) (uid : Uid) (order : List AgentId) :
    (∃ sent, enterAgent w user uid order = .error { w with sent := sent }) ∨
      ∃ sent agent, enterAgent w user uid order = .ok ({ w with sent := sent }, agent) ∧
        w.agents.get agent ≠ none ∧ Connected w user.cid := by
  rw [enterAgent]
  split
  · exact .inl ⟨w.sent, rfl⟩
  next agent hagent =>
    have hlive := findMin_eq_some hagent
    cases hc : w.clients user.cid with
    | none =>
      refine .inl ⟨w.sent ++ [.userRegister agent uid user.account], ?_⟩
      simp [World.send, hc]
    | some client =>
      refine .inr ⟨(w.sent ++ [.userRegister agent uid user.account]) ++
        [.loginEnter user.cid agent], agent, ?_, hlive, ?_⟩
      · simp [World.send, hc]
      · exact connected_of_some hc

def World.entered (w : World) (user : LoginUser) (info : EnterInfo) (count : Int)
    (sent : List Message) : World :=
  { (w.release user.account).setClient user.cid (some .closing) with
    enterAgentUser := w.enterAgentUser.set user.account info
    agents := w.agents.set info.agentServer count
    sent := sent }

theorem userEnterAgent_cases (w : World) (cid : Cid) (uid : Uid) (order : List AgentId) :
    (∃ sent, World.after (userEnterAgent w cid uid order) = { w with sent := sent }) ∨
      ∃ user info count sent, w.agents.get info.agentServer ≠ none ∧ Connected w user.cid ∧
        World.after (userEnterAgent w cid uid order) = w.entered user info count sent := by
  rw [userEnterAgent]
  split
  · exact .inl ⟨w.sent, rfl⟩
  · split
    · exact .inl ⟨w.sent, rfl⟩
    · split
      · exact .inl ⟨w.sent, rfl⟩
      next user _ =>
        cases enterAgent_cases w user uid order with
        | inl hraised =>
          obtain ⟨sent, heq⟩ := hraised
          exact .inl ⟨sent, by rw [heq]; rfl⟩
        | inr hentered =>
          obtain ⟨sent, agent, heq, hlive, hc⟩ := hentered
          obtain ⟨count, hcount⟩ := ne_none_iff_exists'.mp hlive
          refine .inr ⟨user, ⟨uid, agent⟩, count + 1, sent, hlive, hc, ?_⟩
          rw [heq]
          simp [Except.bind, agentCountAdd, World.release, World.setClient, hcount, World.after,
            World.entered]

theorem Sound.entered (h : Sound w) (hlive : w.agents.get info.agentServer ≠ none)
    (hc : Connected w user.cid) (count : Int) (sent : List Message) :
    Sound (w.entered user info count sent) := by
  have hreleased := (h.release user.account).setClient .closing hc
  have hentry := hreleased.setEntry info (w.release_self user.account) hlive
  exact (hentry.setAgent info.agentServer count).setSent sent

theorem Answered.entered (h : Answered w) (info : EnterInfo) (hc : Connected w user.cid)
    (count : Int) (sent : List Message) : Answered (w.entered user info count sent) := by
  refine h.imp fun account queue hqueue cid hmem hcid => ?_
  exact Table.get_set_ne_none _ _ _ (hqueue cid hmem ((connected_setClient hc).mp hcid))

theorem userLeaveAgent_cases (h : Sound w) (account : Account) :
    w.enterAgentUser.get account = none ∧ userLeaveAgent w account = .error w ∨
      ∃ agent count, let w₁ : World := { w with
          enterAgentUser := w.enterAgentUser.erase account
          agents := w.agents.set agent count }
        w.accountQueue.get account = none ∧ userLeaveAgent w account = .ok w₁ ∨
        ∃ queue, w.accountQueue.get account = some queue ∧
          userLeaveAgent w account =
            (closeQueued { w₁ with accountQueue := w.accountQueue.erase account }
              queue.dropLast).map fun w => authLast w account queue.getLast? := by
  cases he : w.enterAgentUser.get account with
  | none => exact .inl ⟨rfl, by rw [userLeaveAgent, he]⟩
  | some info =>
    obtain ⟨count, hcount⟩ := ne_none_iff_exists'.mp (h.registered account info he)
    refine .inr ⟨info.agentServer, count + 1, ?_⟩
    cases hq : w.accountQueue.get account with
    | none =>
      refine .inl ⟨rfl, ?_⟩
      simp [userLeaveAgent, he, agentCountAdd, hcount, Except.bind, hq]
    | some queue =>
      refine .inr ⟨queue, rfl, ?_⟩
      simp [userLeaveAgent, he, agentCountAdd, hcount, Except.bind, hq]

theorem Sound.authLast (h : Sound w) (last : Option Cid)
    (hnone : w.enterAgentUser.get account = none) : Sound (authLast w account last) := by
  cases last with
  | none => exact h
  | some cid =>
    rw [Login.authLast]
    split
    · exact h
    · exact (h.setLogin cid _).newUser cid hnone

theorem Answered.authLast (h : Answered w) (account : Account) (last : Option Cid) :
    Answered (authLast w account last) := by
  cases last with
  | none => exact h
  | some cid =>
    rw [Login.authLast]
    split <;> exact h

variable {queues : Table Account (List Cid)}

theorem Answered.forget (h : Answered w) (hq : ∀ other queue, queues.get other = some queue →
      other ≠ account ∧ w.accountQueue.get other = some queue) : Answered { w with
      enterAgentUser := w.enterAgentUser.erase account
      accountQueue := queues } := by
  intro other queue hother cid hmem hc
  obtain ⟨hne, hold⟩ := hq other queue hother
  rw [w.enterAgentUser.get_erase_of_ne hne]
  exact h other queue hold cid hmem hc

theorem get_erase_queue (h : (queues.erase account).get other = some queue) :
    other ≠ account ∧ queues.get other = some queue := by
  have hne : other ≠ account := by
    rintro rfl
    rw [queues.get_erase_self] at h
    cases h
  exact ⟨hne, (queues.get_erase_of_ne hne).symm.trans h⟩

theorem userLeaveAgent_after (h : Sound w) (account : Account) :
    .after (userLeaveAgent w account) = w ∨ ∃ agent count queues w' last,
      (∀ other queue, queues.get other = some queue →
        other ≠ account ∧ w.accountQueue.get other = some queue) ∧ Closes { w with
        enterAgentUser := w.enterAgentUser.erase account
        agents := w.agents.set agent count
        accountQueue := queues } w' ∧
      .after (userLeaveAgent w account) = authLast w' account last := by
  obtain ⟨-, hraised⟩ | ⟨agent, count, ⟨hnone, hempty⟩ | ⟨queue, -, hqueue⟩⟩ :=
    userLeaveAgent_cases h account
  · rw [hraised]
    exact .inl rfl
  · rw [hempty]
    refine .inr ⟨agent, count, w.accountQueue, _, none, fun other queue hother => ⟨?_, hother⟩,
      .refl _, rfl⟩
    rintro rfl
    cases hnone.symm.trans hother
  · refine .inr ⟨agent, count, w.accountQueue.erase account, ?_⟩
    have hcloses := closeQueued_closes { w with
      enterAgentUser := w.enterAgentUser.erase account
      agents := w.agents.set agent count
      accountQueue := w.accountQueue.erase account } queue.dropLast
    rw [hqueue]
    cases hresult : closeQueued _ queue.dropLast with
    | error w' =>
      rw [hresult] at hcloses
      exact ⟨w', none, fun _ _ => get_erase_queue, hcloses, rfl⟩
    | ok w' =>
      rw [hresult] at hcloses
      exact ⟨w', queue.getLast?, fun _ _ => get_erase_queue, hcloses, rfl⟩

theorem Sound.userLeaveAgent (h : Sound w) (account : Account) :
    Sound (.after (userLeaveAgent w account)) := by
  obtain hsame | ⟨agent, count, queues, w', last, -, hcloses, heq⟩ := userLeaveAgent_after h account
  · rw [hsame]
    exact h
  · have hw₁ := (h.eraseEntry account).setAgent agent count
    rw [heq]
    refine (hcloses.sound ⟨hw₁.exclusive, hw₁.registered, hw₁.named, hw₁.known⟩).authLast last ?_
    rw [hcloses.enterAgentUser]
    exact w.enterAgentUser.get_erase_self account

theorem Answered.userLeaveAgent (ha : Answered w) (h : Sound w) (account : Account) :
    Answered (.after (userLeaveAgent w account)) := by
  obtain hsame | ⟨agent, count, queues, w', last, hqueues, hcloses, heq⟩ :=
    userLeaveAgent_after h account
  · rw [hsame]
    exact ha
  · rw [heq]
    exact (hcloses.answered (ha.forget hqueues)).authLast account last

theorem Sound.perform (h : Sound w) (a : Action) : Sound (perform w a) := by
  cases a with
  | registerAgentServer agent => exact h.setAgent agent 0
  | agentDown agent => exact h.agentDown agent
  | enter cid => exact h.enter cid
  | leave cid => exact h.leave cid
  | flushed cid => exact (closes_setClient w cid).sound h
  | userAuth cid account => exact h.userAuth cid account
  | authEnds user => exact h.authEnds user
  | userEnterAgent cid uid order =>
    rw [Login.perform]
    cases userEnterAgent_cases w cid uid order with
    | inl hsame =>
      obtain ⟨sent, heq⟩ := hsame
      rw [heq]
      exact h.setSent sent
    | inr hentered =>
      obtain ⟨user, info, count, sent, hlive, hc, heq⟩ := hentered
      rw [heq]
      exact h.entered hlive hc count sent
  | userLeaveAgent account => exact h.userLeaveAgent account

theorem step_sound (w : World) (a : Action) (w' : World) (h : Sound w)
    (hs : machine.step w a = some w') : Sound w' := by
  obtain ⟨-, rfl⟩ := of_guard hs
  exact h.perform a

theorem sound_of_run (h : machine.run actions = some w) : Sound w :=
  Machine.invariant step_sound initial_sound h

/-- In every run an account with an agent has no user here and its agent is registered, a user is
bound under its own account, and a connection is known. -/
theorem books_sound (actions : List Action) : machine.Throughout Sound actions machine.init :=
  Machine.throughout_of_invariant (fun _ h => h) step_sound initial_sound

/-- Nobody that is connected waits for the agent that goes down, and a new connection does not
have the number of one that waits for nobody. -/
def Careful (w : World) : Action → Prop
  | .enter cid => w.accountQueue.All fun account queue =>
    cid ∈ queue → w.enterAgentUser.get account ≠ none
  | .agentDown agent => w.accountQueue.All fun account queue =>
    (∃ info ∈ w.enterAgentUser.get account, info.agentServer = agent) →
      ∀ cid ∈ queue, ¬Connected w cid
  | .registerAgentServer _ | .leave _ | .flushed _ | .userAuth _ _ | .authEnds _
  | .userEnterAgent _ _ _ | .userLeaveAgent _ => True

instance (w : World) (a : Action) : Decidable (Careful w a) := by
  induction a using Action.casesOn <;> delta Careful <;> infer_instance

section
variable (ha : Answered w)
include ha

theorem Answered.agentDown (hcareful : Careful w (.agentDown agent)) :
    Answered (agentDown w agent) := by
  intro account queue hq cid hmem hc
  obtain ⟨info, he⟩ := ne_none_iff_exists'.mp (ha account queue hq cid hmem hc)
  have hne : info.agentServer ≠ agent :=
    fun heq => hcareful account queue hq ⟨info, he, heq⟩ cid hmem hc
  rw [agentDown_get.mpr ⟨he, hne⟩]
  exact some_ne_none info

theorem Answered.enter (hcareful : Careful w (.enter cid)) : Answered (enter w cid) := by
  intro account queue hq other hmem hc
  by_cases heq : other = cid
  · exact hcareful account queue hq (heq ▸ hmem)
  · refine ha account queue hq other hmem fun hnone => hc ?_
    exact (w.setClient_of_ne _ heq).trans hnone

theorem Answered.leave (cid : Cid) : Answered (leave w cid) := by
  have hclosed := (closes_setClient w cid).answered ha
  rw [Login.leave]
  split
  · exact hclosed
  · split
    · exact hclosed
    · split <;> exact hclosed

theorem Answered.userAuth (cid : Cid) (account : Account) :
    Answered (.after (userAuth w cid account)) := by
  rw [Login.userAuth]
  split
  · exact ha
  · split
    · exact ha
    · split
      next info he =>
        split
        · exact ha
        · -- the account is with an agent, whoever is in its queue
          refine Table.All.set ha fun _ _ _ => ?_
          exact he ▸ some_ne_none info
      · dsimp only
        split <;> exact ha

theorem Answered.authEnds (user : LoginUser) : Answered (authEnds w user) := by
  rw [Login.authEnds]
  split
  · split <;> exact ha
  · exact ha

theorem Answered.perform (h : Sound w) (hcareful : Careful w a) : Answered (perform w a) := by
  cases a with
  | registerAgentServer agent => exact ha
  | agentDown agent => exact ha.agentDown hcareful
  | enter cid => exact ha.enter hcareful
  | leave cid => exact ha.leave cid
  | flushed cid => exact (closes_setClient w cid).answered ha
  | userAuth cid account => exact ha.userAuth cid account
  | authEnds user => exact ha.authEnds user
  | userEnterAgent cid uid order =>
    rw [Login.perform]
    cases userEnterAgent_cases w cid uid order with
    | inl hsame =>
      obtain ⟨sent, heq⟩ := hsame
      rw [heq]
      exact ha
    | inr hentered =>
      obtain ⟨user, info, count, sent, -, hc, heq⟩ := hentered
      rw [heq]
      exact ha.entered info hc count sent
  | userLeaveAgent account => exact ha.userLeaveAgent h account

end

theorem not_answered_of_not_careful (hcareful : ¬Careful w a) : ¬Answered (perform w a) := by
  cases a with
  | enter cid =>
    rw [Careful, Table.All] at hcareful
    push Not at hcareful
    obtain ⟨account, queue, hq, hmem, hnone⟩ := hcareful
    intro ha
    have hc : Connected (enter w cid) cid := connected_of_some (w.setClient_self cid _)
    exact ha account queue hq cid hmem hc hnone
  | agentDown agent =>
    rw [Careful, Table.All] at hcareful
    push Not at hcareful
    obtain ⟨account, queue, hq, ⟨info, he, hagent⟩, cid, hmem, hc⟩ := hcareful
    intro ha
    obtain ⟨info', he'⟩ := ne_none_iff_exists'.mp (ha account queue hq cid hmem hc)
    obtain ⟨hold, hne⟩ := agentDown_get.mp he'
    cases he.symm.trans hold
    exact hne hagent
  | registerAgentServer _ | leave _ | flushed _ | userAuth _ _ | authEnds _
  | userEnterAgent _ _ _ | userLeaveAgent _ => exact absurd trivial hcareful

structure Inv (w : World) : Prop where
  sound : Sound w
  answered : Answered w

theorem Inv.orderly (h : Inv w) : Orderly w := h.sound.orderly h.answered

/-- The tables of `login_server` are in order in every state of a run, if and only if no agent
goes down that somebody waits for, and no connection comes that is in such a queue. -/
theorem orderly_iff_careful {actions : List Action} (h : machine.run actions = some w) :
    machine.Throughout Orderly actions machine.init ↔
      machine.Along Careful actions machine.init := by
  refine Machine.throughout_iff_along (fun _ => Inv.orderly) ?_ ?_
    ⟨initial_sound, initial_answered⟩ (Machine.along_trivial actions _) h
  · intro w a w' hw _ hcareful hs
    obtain ⟨-, rfl⟩ := of_guard hs
    exact ⟨hw.sound.perform a, hw.answered.perform hw.sound hcareful⟩
  · intro w a w' hw _ hcareful hs horderly
    obtain ⟨-, rfl⟩ := of_guard hs
    exact not_answered_of_not_careful hcareful horderly.2

/-- The connections 2 and 3 ask for an account that an agent has. The agent gives it back, and
goes down later. -/
def givenBack : List Action :=
  [.registerAgentServer 5, .enter 1, .userAuth 1 100, .authEnds ⟨0, 1, 100⟩,
    .userEnterAgent 1 7 [5], .flushed 1, .enter 2, .userAuth 2 100, .enter 3, .userAuth 3 100,
    .userLeaveAgent 100, .authEnds ⟨1, 3, 100⟩, .leave 3, .agentDown 5]

theorem givenBack_orderly : ∃ w, machine.run givenBack = some w ∧
      machine.Throughout Orderly givenBack machine.init := by
  have heval : (machine.run givenBack).isSome = true := by decide +kernel
  obtain ⟨w, hw⟩ := isSome_iff_exists.mp heval
  exact ⟨w, hw, (orderly_iff_careful hw).mpr (by decide +kernel)⟩

def abandoned : List Action :=
  [.registerAgentServer 5, .enter 1, .userAuth 1 100, .authEnds ⟨0, 1, 100⟩,
    .userEnterAgent 1 7 [5], .flushed 1, .enter 2, .userAuth 2 100, .agentDown 5]

theorem abandoned_not_orderly : ∃ w, machine.run abandoned = some w ∧ Connected w 2 ∧
      w.accountQueue.get 100 = some [2] ∧ ¬Orderly w := by
  have heval : ∃ w ∈ machine.run abandoned, Connected w 2 ∧ w.accountQueue.get 100 = some [2] ∧
      ¬ Answered w := by decide +kernel
  obtain ⟨w, hw, hc, hqueue, hanswered⟩ := heval
  exact ⟨w, hw, hc, hqueue, fun h => hanswered h.2⟩

end EventLua.Login
