import EventLua.Login.Queue

/-!
The counts of the agents. `agent_count_add` follows `_enter_agent_user` when an account enters an
agent, and when the agent goes down both are gone; `user_leave_agent` counts up as well.
-/
namespace EventLua.Login

variable {w w' : World}

def World.enteredOn (w : World) (agent : AgentId) : Nat :=
  w.enterAgentUser.count fun info => info.agentServer = agent

def Exact (w : World) : Prop := w.agents.All fun agent count => count = w.enteredOn agent

/-- The counts are exact, and `find_min_agent` finds an agent with the fewest accounts, in
whatever order `pairs` visits the agents. -/
structure Balanced (w : World) : Prop where
  exact : Exact w
  fewest : ∀ order best, w.agents.Visits order → findMinAgent w.agents order = some best →
    ∀ agent, w.agents.get agent ≠ none → w.enteredOn best ≤ w.enteredOn agent

theorem Exact.balanced (h : Exact w) : Balanced w := by
  refine ⟨h, fun order best hvisits hbest agent hagent => ?_⟩
  obtain ⟨b, hb, rfl⟩ := Option.map_eq_some_iff.mp hbest
  obtain ⟨hfound, hmin⟩ := minCount_le (by simp) hb
  obtain ⟨count, hcount⟩ := Option.ne_none_iff_exists'.mp hagent
  have hle := (hmin b rfl).2 agent ((hvisits.2 agent).mpr hagent) count hcount
  rw [h _ _ (hfound b rfl), h _ _ hcount] at hle
  exact Int.ofNat_le.mp hle

section

theorem enteredOn_eq (w : World) (agent : AgentId) : (w.enteredOn agent : Int) =
      w.enterAgentUser.sum fun _ info => if info.agentServer = agent then 1 else 0 :=
  (Table.sum_ite _ _).symm

theorem Exact.congr (h : Exact w) (hagents : w'.agents = w.agents)
    (hentries : w'.enterAgentUser = w.enterAgentUser) : Exact w' := by
  rw [Exact, hagents]
  intro agent count hcount
  rw [World.enteredOn, hentries]
  exact h agent count hcount

theorem Exact.enter (h : Exact w) (hnone : w.enterAgentUser.get account = none)
    (hcount : w.agents.get info.agentServer = some count)
    (hagents : w'.agents = w.agents.set info.agentServer (count + 1))
    (hentries : w'.enterAgentUser = w.enterAgentUser.set account info) : Exact w' := by
  intro agent count' hcount'
  have hsum := w.enterAgentUser.sum_set
    (fun _ info => if info.agentServer = agent then 1 else 0) account info
  rw [Table.share_of_none _ hnone, Int.add_zero, ← hentries, ← enteredOn_eq, ← enteredOn_eq] at hsum
  rw [hagents] at hcount'
  obtain ⟨rfl, hnew⟩ | ⟨hne, hcount'⟩ := Table.get_set_cases hcount'
  · have hold := h _ _ hcount
    rw [if_pos rfl] at hsum
    omega
  · have hold := h _ _ hcount'
    rw [if_neg (Ne.symm hne)] at hsum
    omega

theorem Exact.agentDown (h : Exact w) (agent : AgentId) : Exact (Login.agentDown w agent) := by
  intro other count hcount
  have hne : other ≠ agent := by
    rintro rfl
    rw [Login.agentDown, Table.get_erase_self] at hcount
    cases hcount
  rw [Login.agentDown, Table.get_erase_of_ne _ hne] at hcount
  rw [h other count hcount, enteredOn_eq, enteredOn_eq, Login.agentDown]
  refine (Table.sum_filterMap _ fun account info _ => ?_).symm
  split
  · next heq => rw [heq, if_neg hne.symm]; rfl
  · rfl

theorem Exact.not_exact_of_leave (h : Exact w) (hentry : w.enterAgentUser.get account = some info)
    (hcount : w.agents.get info.agentServer = some count)
    (hagents : w'.agents = w.agents.set info.agentServer (count + 1))
    (hentries : w'.enterAgentUser = w.enterAgentUser.erase account) : ¬ Exact w' := by
  intro hexact
  have hnew := hexact info.agentServer (count + 1) (by rw [hagents, Table.get_set_self])
  have hold := h _ _ hcount
  have hsum := w.enterAgentUser.sum_erase
    (fun _ i => if i.agentServer = info.agentServer then 1 else 0) account
  rw [Table.share_of_some _ hentry, if_pos rfl, ← hentries, ← enteredOn_eq, ← enteredOn_eq] at hsum
  omega

end

section

def SameBooks (w w' : World) : Prop :=
  w'.agents = w.agents ∧ w'.enterAgentUser = w.enterAgentUser

theorem SameBooks.leave (w : World) (cid : Cid) : SameBooks w (Login.leave w cid) := by
  rw [Login.leave]
  split
  · exact ⟨rfl, rfl⟩
  · split
    · exact ⟨rfl, rfl⟩
    · split <;> exact ⟨rfl, rfl⟩

theorem SameBooks.userAuth (w : World) (cid : Cid) (account : Account) :
    SameBooks w (.after (Login.userAuth w cid account)) := by
  rw [Login.userAuth]
  dsimp only
  repeat' split
  all_goals exact ⟨rfl, rfl⟩

theorem SameBooks.authEnds (w : World) (user : LoginUser) :
    SameBooks w (Login.authEnds w user) := by
  rw [Login.authEnds]
  repeat' split
  all_goals exact ⟨rfl, rfl⟩

theorem SameBooks.authLast (w : World) (account : Account) (last : Option Cid) :
    SameBooks w (Login.authLast w account last) := by
  cases last with
  | none => exact ⟨rfl, rfl⟩
  | some cid =>
    rw [Login.authLast]
    split <;> exact ⟨rfl, rfl⟩

theorem userEnterAgent_books (h : Sound w) (cid : Cid) (uid : Uid) (order : List AgentId) :
    SameBooks w (.after (userEnterAgent w cid uid order)) ∨
      ∃ account info count, w.enterAgentUser.get account = none ∧
        w.agents.get info.agentServer = some count ∧
        (World.after (userEnterAgent w cid uid order)).agents =
          w.agents.set info.agentServer (count + 1) ∧
        (World.after (userEnterAgent w cid uid order)).enterAgentUser =
          w.enterAgentUser.set account info := by
  rw [userEnterAgent]
  split
  · exact .inl ⟨rfl, rfl⟩
  · split
    · exact .inl ⟨rfl, rfl⟩
    · next account _ =>
      split
      · exact .inl ⟨rfl, rfl⟩
      · next user huser =>
        obtain rfl := h.named account user huser
        have hnone : w.enterAgentUser.get user.account = none := by
          refine Option.eq_none_iff_forall_ne_some.mpr fun info hinfo => ?_
          rw [h.exclusive _ info hinfo] at huser
          cases huser
        obtain ⟨sent, heq⟩ | ⟨sent, agent, heq, hlive, -⟩ := enterAgent_cases w user uid order
        · rw [heq]
          exact .inl ⟨rfl, rfl⟩
        · obtain ⟨count, hcount⟩ := Option.ne_none_iff_exists'.mp hlive
          refine .inr ⟨user.account, ⟨uid, agent⟩, count, hnone, hcount, ?_⟩
          rw [heq]
          simp [Except.bind, agentCountAdd, World.release, World.setClient, hcount, World.after]

theorem userLeaveAgent_books (h : Sound w) (hentry : w.enterAgentUser.get account = some info) :
    ∃ count, w.agents.get info.agentServer = some count ∧
      (World.after (userLeaveAgent w account)).agents = w.agents.set info.agentServer (count + 1) ∧
      (World.after (userLeaveAgent w account)).enterAgentUser = w.enterAgentUser.erase account := by
  obtain ⟨count, hcount⟩ := Option.ne_none_iff_exists'.mp (h.registered account info hentry)
  refine ⟨count, hcount, ?_⟩
  cases hq : w.accountQueue.get account with
  | none =>
    simp [userLeaveAgent, hentry, agentCountAdd, hcount, Except.bind, hq, World.after]
  | some queue =>
    simp only [userLeaveAgent, hentry, agentCountAdd, hcount, Except.bind, hq]
    have hcloses := closeQueued_closes { w with
      enterAgentUser := w.enterAgentUser.erase account
      agents := w.agents.set info.agentServer (count + 1)
      accountQueue := w.accountQueue.erase account } queue.dropLast
    generalize closeQueued _ queue.dropLast = result at hcloses ⊢
    cases result with
    | error e => exact ⟨hcloses.agents, hcloses.enterAgentUser⟩
    | ok e =>
      obtain ⟨hagents, hentries⟩ := SameBooks.authLast e account queue.getLast?
      exact ⟨hagents.trans hcloses.agents, hentries.trans hcloses.enterAgentUser⟩

def Stays (w : World) : Action → Prop
  | .userLeaveAgent account => w.enterAgentUser.get account = none
  | _ => True

instance (w : World) (a : Action) : Decidable (Stays w a) := by
  induction a using Action.casesOn <;> delta Stays <;> infer_instance

theorem Exact.perform (hs : Sound w) (h : Exact w) (henabled : Enabled w a) (hstays : Stays w a) :
    Exact (perform w a) := by
  cases a with
  | registerAgentServer agent =>
    intro other count hcount
    obtain ⟨rfl, rfl⟩ | ⟨-, hcount⟩ := Table.get_set_cases hcount
    · have hzero : w.enteredOn other = 0 := by
        refine Finset.card_eq_zero.mpr (Finset.filter_eq_empty_iff.mpr fun account _ => ?_)
        rintro ⟨info, hinfo, hagent⟩
        exact hs.registered account info hinfo (hagent ▸ henabled)
      exact (congrArg Int.ofNat hzero).symm
    · exact h other count hcount
  | agentDown agent => exact h.agentDown agent
  | enter cid | flushed cid => exact h.congr rfl rfl
  | leave cid => exact h.congr (SameBooks.leave w cid).1 (SameBooks.leave w cid).2
  | userAuth cid account =>
    exact h.congr (SameBooks.userAuth w cid account).1 (SameBooks.userAuth w cid account).2
  | authEnds user => exact h.congr (SameBooks.authEnds w user).1 (SameBooks.authEnds w user).2
  | userEnterAgent cid uid order =>
    obtain hsame | ⟨account, info, count, hnone, hcount, hagents, hentries⟩ :=
      userEnterAgent_books hs cid uid order
    · exact h.congr hsame.1 hsame.2
    · exact h.enter hnone hcount hagents hentries
  | userLeaveAgent account =>
    have hnone : w.enterAgentUser.get account = none := hstays
    rw [Login.perform, userLeaveAgent, hnone]
    exact h

end

/-- The counts are exact in all states of a run exactly if no account leaves its agent, other
than by the agent going down. -/
theorem balanced_iff_stays {actions : List Action} (h : machine.run actions = some w) :
    machine.Throughout Balanced actions machine.init ↔
      machine.Along Stays actions machine.init := by
  have hP : ∀ w, Sound w ∧ Exact w → Balanced w := fun w hw => hw.2.balanced
  refine Machine.throughout_iff_along hP (fun w a w' hw _ hstays hstep => ?_)
    (fun w a w' hw _ hstays hstep hbalanced => ?_) ⟨initial_sound, fun _ _ h => by cases h⟩
    (Machine.along_trivial actions machine.init) h
  · obtain ⟨henabled, hw'⟩ := of_guard hstep
    exact hw' ▸ ⟨hw.1.perform a, hw.2.perform hw.1 henabled hstays⟩
  · cases a with
    | userLeaveAgent account =>
      obtain ⟨info, hinfo⟩ := Option.ne_none_iff_exists'.mp hstays
      obtain ⟨count, hcount, hagents, hentries⟩ := userLeaveAgent_books hw.1 hinfo
      cases hstep
      exact hw.2.not_exact_of_leave hinfo hcount hagents hentries hbalanced.exact
    | _ => exact hstays trivial

def comesIn : List Action :=
  [.registerAgentServer 1, .enter 5, .userAuth 5 7, .authEnds ⟨0, 5, 7⟩, .userEnterAgent 5 70 [1]]

theorem comesIn_balanced : ∃ w, machine.run comesIn = some w ∧
    machine.Throughout Balanced comesIn machine.init := by
  have hrun : (machine.run comesIn).isSome := by decide
  obtain ⟨w, hw⟩ := Option.isSome_iff_exists.mp hrun
  exact ⟨w, hw, (balanced_iff_stays hw).mpr (by decide)⟩

/-- The account leaves the agent again, which then has the count 2 and no account. -/
theorem leaves_not_balanced : ∃ w, machine.run (comesIn ++ [.userLeaveAgent 7]) = some w ∧
    w.agents.get 1 = some 2 ∧ w.enteredOn 1 = 0 ∧ ¬ Balanced w := by
  have hrun : ∃ w ∈ machine.run (comesIn ++ [.userLeaveAgent 7]),
      w.agents.get 1 = some 2 ∧ w.enteredOn 1 = 0 := by decide
  obtain ⟨w, hw, hcount, hentered⟩ := hrun
  refine ⟨w, hw, hcount, hentered, fun h => ?_⟩
  have hexact : (2 : Int) = w.enteredOn 1 := h.exact 1 2 hcount
  rw [hentered] at hexact
  exact absurd hexact (by decide)

end EventLua.Login
