import EventLua.SceneManager.Frame

/-!
When a user leaves its scene without an error. `leave_scene` looks whether the user is in a scene
before it has the mutex, and `do_leave_scene` reads the record again when the server has
answered; in between the record can be gone. `agent_down` does not find the user at all.
-/
namespace EventLua.SceneManager
open Option Table

variable {δ π : Type} {w : World δ π}

/-- No call for the user has raised an error, and once all are done it is in no scene. -/
def Departed (u : UserUid) (w : World δ π) : Prop :=
  ∀ info, w.users.get u = some info →
    info.raised = false ∧ (info.Free → info.departing = true → info.place = none)

def Departs (u : UserUid) : Action δ π → Prop
  | .enterScene uid _ _ _ _ _ _ | .transferScene uid _ _ _ _ => uid ≠ u
  | _ => True

/-- The scene can be counted down. If the server of the record is gone and that of the scene is
not, there is nothing to wait for. -/
def CanStart (w : World δ π) (info : UserInfo δ π) : Prop :=
  ∃ p ∈ info.place, ∃ e ∈ w.scenes.get p.key, w.servers.get e.server ≠ none ∧
    (w.servers.get p.server = none → ¬(e.count - 1 = 0 ∧ e.clean = true))
deriving Decidable

def Smooth (u : UserUid) (w : World δ π) : Action δ π → Prop
  | .agentDown agent => ∀ info ∈ w.users.get u, info.userAgent ≠ agent
  | .leaveScene uid =>
    uid = u → ∀ info ∈ w.users.get u, info.Free → info.place = none ∨ CanStart w info
  | .wake uid _ => uid = u → ∀ info ∈ w.users.get u, CanStart w info
  | .leaveAnswer uid result =>
    uid = u → ∀ info ∈ w.users.get u, result.isSome ∧ CanEnd w info
  | _ => True

instance (u : UserUid) (a : Action δ π) : Decidable (Departs u a) := by
  induction a using Action.casesOn <;> delta Departs <;> infer_instance

instance (u : UserUid) (w : World δ π) (a : Action δ π) : Decidable (Smooth u w a) := by
  induction a using Action.casesOn <;> delta Smooth <;> infer_instance

structure Leaving (info : UserInfo δ π) : Prop where
  raised : info.raised = false
  body : ∀ b ∈ info.body, b = .leaving
  line : ∀ op ∈ info.line, op = .leave
  queued : info.line ≠ [] → info.departing = true
  departing : info.departing = true → info.place = none ∨ info.body = some .leaving

def AllLeaving (u : UserUid) (w : World δ π) : Prop :=
  ∀ info, w.users.get u = some info → Leaving info

theorem AllLeaving.departed (h : AllLeaving u w) : Departed u w := by
  intro info hinfo
  have hleaving := h info hinfo
  refine ⟨hleaving.raised, fun hfree hdeparting => ?_⟩
  refine (hleaving.departing hdeparting).resolve_right fun hbody => ?_
  have hnone := hfree.1
  rw [hbody] at hnone
  cases hnone

variable {info : UserInfo δ π}

theorem executeLeave_of_canStart (uid : UserUid) (h : CanStart w info) :
    ∃ w' info', executeLeaveScene w uid info = .ok (w', info') ∧
      (info' = { info with body := some .leaving } ∨
        info' = { info with place := none, body := none }) := by
  obtain ⟨p, hp, e, he, hlive, hgone⟩ := h
  have hp : info.place = some p := hp
  have he : w.scenes.get p.key = some e := he
  obtain ⟨c, hc⟩ := ne_none_iff_exists'.mp hlive
  have hchange := changeCount_of_some he hc (-1)
  generalize hw' : ({ w with
    scenes := w.scenes.set p.key { e with count := e.count + -1 }
    servers := w.servers.set e.server (c + -1) } : World δ π) = w' at hchange
  cases hserver : w'.servers.get p.server with
  | some count =>
    refine ⟨sendScene w' p.server (.leaveScene p.sceneUid uid false),
      { info with body := some .leaving }, ?_, .inl rfl⟩
    simp only [executeLeaveScene, doLeaveScene, hp, subSceneCount, hchange, Except.bind, hserver]
  | none =>
    have hnone : w.servers.get p.server = none := by
      rw [← hw'] at hserver
      by_contra hne
      exact get_set_ne_none _ _ _ hne hserver
    have hscene : w'.scenes.get p.key = some { e with count := e.count + -1 } := by
      rw [← hw']
      exact get_set_self _ _ _
    refine ⟨w', { info with place := none, body := none }, ?_, .inr rfl⟩
    simp only [executeLeaveScene, doLeaveScene, hp, subSceneCount, hchange, Except.bind, hserver]
    rw [leaveEnds_of_some hp hscene (hgone hnone)]
    rfl

theorem executeLeave_of_not (uid : UserUid) (h : ¬CanStart w info) :
    ∃ w', executeLeaveScene w uid info = .error w' := by
  cases hp : info.place with
  | none => exact ⟨w, by simp only [executeLeaveScene, doLeaveScene, hp]⟩
  | some p =>
    cases he : w.scenes.get p.key with
    | none =>
      exact ⟨w, by
        simp only [executeLeaveScene, doLeaveScene, hp, subSceneCount, changeCount, he,
          Except.bind]⟩
    | some e =>
      cases hc : w.servers.get e.server with
      | none =>
        refine ⟨{ w with scenes := w.scenes.set p.key { e with count := e.count + -1 } }, ?_⟩
        simp [executeLeaveScene, doLeaveScene, hp, subSceneCount, changeCount, he, hc, Except.bind]
      | some c =>
        have hchange := changeCount_of_some he hc (-1)
        generalize hw' : ({ w with
          scenes := w.scenes.set p.key { e with count := e.count + -1 }
          servers := w.servers.set e.server (c + -1) } : World δ π) = w' at hchange
        have hgone : w.servers.get p.server = none ∧ e.count - 1 = 0 ∧ e.clean = true := by
          by_contra hne
          refine h ⟨p, hp, e, he, hc ▸ some_ne_none c, fun hnone hempty => ?_⟩
          exact hne ⟨hnone, hempty⟩
        have hserver : w'.servers.get p.server = none := by
          rw [← hw']
          refine (get_set_of_ne _ _ ?_).trans hgone.1
          intro heq
          rw [heq, hc] at hgone
          cases hgone.1
        have hscene : w'.scenes.get p.key = some { e with count := e.count + -1 } := by
          rw [← hw']
          exact get_set_self _ _ _
        refine ⟨{ w' with scenes := w'.scenes.erase p.key }, ?_⟩
        simp only [executeLeaveScene, doLeaveScene, hp, subSceneCount, hchange, Except.bind,
          hserver]
        rw [leaveEnds_of_empty hp hscene hgone.2]
        rfl

theorem leaveEnds_of_not (h : ¬CanEnd w info) : ∃ w', leaveEnds w info = .error w' := by
  cases hp : info.place with
  | none => exact ⟨w, leaveEnds_of_none hp⟩
  | some p =>
    cases he : w.scenes.get p.key with
    | none => exact ⟨w, leaveEnds_of_absent hp he⟩
    | some e =>
      by_cases hempty : e.count = 0 ∧ e.clean = true
      · exact ⟨_, leaveEnds_of_empty hp he hempty⟩
      · exact absurd ⟨p, hp, e, he, hempty⟩ h

variable {w' : World δ π}

theorem AllLeaving.of_get
    (hget : w'.users.get u = some info) (h : Leaving info) : AllLeaving u w' := by
  intro info' hinfo'
  cases hget.symm.trans hinfo'
  exact h

theorem AllLeaving.same (h : AllLeaving u w)
    (hget : w'.users.get u = w.users.get u) : AllLeaving u w' :=
  fun info hinfo => h info (hget ▸ hinfo)

theorem commit_ok_get (u : UserUid) (info info' : UserInfo δ π) (w' : World δ π) :
    (commit u info (.ok (w', info'))).users.get u = some info' := get_set_self _ _ _

theorem commit_error_get (u : UserUid) (info : UserInfo δ π) (w' : World δ π) :
    (commit u info (.error w')).users.get u = some { info with body := none, raised := true } :=
  get_set_self _ _ _

theorem not_departed_of_raised
    (hget : w'.users.get u = some info) (hraised : info.raised = true) : ¬Departed u w' := by
  intro h
  cases (h info hget).1.symm.trans hraised

theorem allLeaving_execute (hraised : info.raised = false)
    (hline : ∀ op ∈ info.line, op = .leave) (hdeparting : info.departing = true)
    (hstart : CanStart w info) : AllLeaving u (commit u info (executeLeaveScene w u info)) := by
  obtain ⟨w', info', hresult, hinfo'⟩ := executeLeave_of_canStart u hstart
  rw [hresult]
  refine .of_get (commit_ok_get u info info' w') ?_
  cases hinfo' with
  | inl heq =>
    subst heq
    exact ⟨hraised, fun b hb => (some.inj hb).symm, hline, fun _ => hdeparting,
      fun _ => .inr rfl⟩
  | inr heq =>
    subst heq
    exact ⟨hraised, fun b hb => (by cases hb), hline, fun _ => hdeparting, fun _ => .inl rfl⟩

theorem not_departed_execute (hstart : ¬CanStart w info) :
    ¬Departed u (commit u info (executeLeaveScene w u info)) := by
  obtain ⟨w', hresult⟩ := executeLeave_of_not u hstart
  rw [hresult]
  exact not_departed_of_raised (commit_error_get u info w') rfl

theorem leaveScene_of_free (hget : w.users.get u = some info) (hp : info.place = some p)
    (hfree : info.Free) : leaveScene w u = commit u { info with departing := true }
      (executeLeaveScene w u { info with departing := true }) := by
  simp only [leaveScene, hget, hp]
  exact if_pos hfree

theorem leaveScene_of_busy (hget : w.users.get u = some info) (hp : info.place = some p)
    (hfree : ¬info.Free) : leaveScene w u = { w with
      users := w.users.set u { info with departing := true, line := info.line ++ [.leave] } } := by
  simp only [leaveScene, hget, hp]
  exact if_neg hfree

theorem leaveScene_of_none (hget : w.users.get u = some info)
    (hp : info.place = none) : leaveScene w u = w := by
  simp [leaveScene, hget, hp]

theorem AllLeaving.leaveScene (h : AllLeaving u w) (hs : Smooth u w (.leaveScene u)) :
    AllLeaving u (leaveScene w u) := by
  cases hget : w.users.get u with
  | none =>
    rw [SceneManager.leaveScene, hget]
    exact h
  | some info =>
    have hinfo := h info hget
    cases hp : info.place with
    | none =>
      rw [leaveScene_of_none hget hp]
      exact h
    | some p =>
      by_cases hfree : info.Free
      · rw [leaveScene_of_free hget hp hfree]
        refine allLeaving_execute hinfo.raised hinfo.line rfl ?_
        exact (hs rfl info hget hfree).resolve_left fun hnone => (by cases hnone.symm.trans hp)
      · rw [leaveScene_of_busy hget hp hfree]
        have hbody : info.body = some .leaving := by
          cases hb : info.body with
          | some b => rw [hinfo.body b hb]
          | none =>
            -- the queue is not empty, so the user has left already
            have hline : info.line ≠ [] := by
              intro hnil
              refine hfree ⟨?_, ?_⟩
              · rw [hb]
                rfl
              · rw [hnil]
                rfl
            cases hinfo.departing (hinfo.queued hline) with
            | inl hnone => cases hnone.symm.trans hp
            | inr hleaving => cases hleaving.symm.trans hb
        refine .of_get (get_set_self _ _ _)
          ⟨hinfo.raised, hinfo.body, fun op hop => ?_, fun _ => rfl, fun _ => .inr hbody⟩
        cases List.mem_append.mp hop with
        | inl hmem => exact hinfo.line op hmem
        | inr hmem => exact List.mem_singleton.mp hmem

theorem not_departed_leaveScene (hs : ¬Smooth u w (.leaveScene u)) :
    ¬Departed u (leaveScene w u) := by
  rw [Smooth] at hs
  push Not at hs
  obtain ⟨-, info, hget, hfree, hp, hstart⟩ := hs
  obtain ⟨p, hp⟩ := ne_none_iff_exists'.mp hp
  rw [leaveScene_of_free hget hp hfree]
  exact not_departed_execute hstart

theorem wake_of_leaving (h : Leaving info)
    (hget : w.users.get u = some info) (hline : info.line ≠ []) (order : Order) :
    ∃ line, (∀ op ∈ line, op = .leave) ∧ wake w u order =
      commit u { info with line := line } (executeLeaveScene w u { info with line := line }) := by
  cases hl : info.line with
  | nil => exact absurd hl hline
  | cons op line =>
    have hop : op = .leave := h.line op (hl ▸ List.mem_cons_self)
    subst hop
    refine ⟨line, fun op hop => h.line op (hl ▸ List.mem_cons_of_mem _ hop), ?_⟩
    simp only [wake, hget, hl]
    rfl

theorem leaveAnswer_of_leaving (h : Leaving info) (hget : w.users.get u = some info)
    (hbody : info.body = some body) (result : Option (Option δ)) :
    leaveAnswer w u result = commit u info (leaveAnswered w info .leaving result) := by
  rw [h.body body hbody] at hbody
  simp [leaveAnswer, hget, hbody]

theorem AllLeaving.leaveAnswer (h : AllLeaving u w)
    (he : w.Calling u false) (hs : Smooth u w (.leaveAnswer u result)) :
    AllLeaving u (leaveAnswer w u result) := by
  obtain ⟨info, hget, body, hbody, -⟩ := he
  have hinfo := h info hget
  obtain ⟨hresult, p, hp, e, he, hne⟩ := hs rfl info hget
  obtain ⟨fighterData, rfl⟩ := isSome_iff_exists.mp hresult
  rw [leaveAnswer_of_leaving hinfo hget hbody, leaveAnswered, leaveEnds_of_some hp he hne]
  exact .of_get (commit_ok_get u info _ w)
    ⟨hinfo.raised, fun b hb => (by cases hb), hinfo.line, hinfo.queued, fun _ => .inl rfl⟩

theorem not_departed_leaveAnswer (h : AllLeaving u w)
    (he : w.Calling u false) (hs : ¬Smooth u w (.leaveAnswer u result)) :
    ¬Departed u (leaveAnswer w u result) := by
  obtain ⟨info, hget, body, hbody, -⟩ := he
  rw [leaveAnswer_of_leaving (h info hget) hget hbody]
  cases result with
  | none => exact not_departed_of_raised (commit_error_get u info w) rfl
  | some fighterData =>
    have hend : ¬CanEnd w info := by
      intro hend
      refine hs fun _ info' hget' => ⟨rfl, ?_⟩
      cases hget.symm.trans hget'
      exact hend
    obtain ⟨w', hw'⟩ := leaveEnds_of_not hend
    rw [leaveAnswered, hw']
    exact not_departed_of_raised (commit_error_get u info w') rfl

theorem AllLeaving.sceneDown (h : AllLeaving u w) (s : ServerId) :
    AllLeaving u (sceneDown w s) := by
  intro info hinfo
  obtain ⟨old, hold, hf⟩ := bind_eq_some_iff.mp hinfo
  have hleaving := h old hold
  split at hf
  · cases hf
    exact ⟨hleaving.raised, hleaving.body, hleaving.line, fun _ => rfl, fun _ => .inl rfl⟩
  · cases hf
    exact hleaving

theorem AllLeaving.agentDown (h : AllLeaving u w) (hs : Smooth u w (.agentDown agent)) :
    AllLeaving u (agentDown w agent) := by
  intro info hinfo
  obtain ⟨old, hold, hf⟩ := bind_eq_some_iff.mp hinfo
  rw [if_neg (hs old hold)] at hf
  cases hf
  exact h _ hold

theorem not_departed_agentDown (hs : ¬Smooth u w (.agentDown agent)) :
    ¬Departed u (agentDown w agent) := by
  rw [Smooth] at hs
  push Not at hs
  obtain ⟨info, hget, hagent⟩ := hs
  have hdown : (agentDown w agent).users.get u =
      some { info with raised := true, departing := true } := by
    rw [SceneManager.agentDown, get_filterMap, hget]
    exact if_pos hagent
  exact not_departed_of_raised hdown rfl

theorem perform_allLeaving (h : AllLeaving u w) (he : Enabled w a) (hd : Departs u a)
    (hs : Smooth u w a) : AllLeaving u (perform w a) := by
  have hother : ∀ uid, a.uid = some uid → u ≠ uid → AllLeaving u (perform w a) :=
    fun uid huid hne => h.same ((touches_perform huid).others u hne)
  cases a with
  | registerSceneServer s | registerAgentServer agent => exact h
  | sceneDown s => exact h.sceneDown s
  | agentDown agent => exact h.agentDown hs
  | deleteScene k =>
    refine h.same ?_
    rw [perform, deleteScene]
    split <;> rfl
  | enterScene uid agent fighterData sceneId sceneUid pos order
  | transferScene uid sceneId sceneUid pos order => exact hother uid rfl (Ne.symm hd)
  | leaveScene uid =>
    by_cases hu : u = uid
    · subst hu
      exact h.leaveScene hs
    · exact hother uid rfl hu
  | wake uid order =>
    by_cases hu : u = uid
    · subst hu
      obtain ⟨⟨info, hget, -, hline⟩, -⟩ := he
      have hinfo := h info hget
      have hline : info.line ≠ [] := fun hnil => hline (hnil ▸ rfl)
      obtain ⟨line, hleave, hwake⟩ := wake_of_leaving hinfo hget hline order
      rw [perform, hwake]
      exact allLeaving_execute hinfo.raised hleave (hinfo.queued hline) (hs rfl info hget)
    · exact hother uid rfl hu
  | connectAnswer uid result =>
    by_cases hu : u = uid
    · subst hu
      obtain ⟨info, hget, body, hbody, hconnecting⟩ := he
      rw [(h info hget).body body hbody] at hconnecting
      cases hconnecting
    · exact hother uid rfl hu
  | leaveAnswer uid result =>
    by_cases hu : u = uid
    · subst hu
      exact h.leaveAnswer he hs
    · exact hother uid rfl hu

theorem perform_not_departed (h : AllLeaving u w) (he : Enabled w a) (hs : ¬Smooth u w a) :
    ¬Departed u (perform w a) := by
  cases a with
  | agentDown agent => exact not_departed_agentDown hs
  | leaveScene uid =>
    by_cases hu : uid = u
    · subst hu
      exact not_departed_leaveScene hs
    · exact absurd (fun heq => absurd heq hu) hs
  | wake uid order =>
    by_cases hu : uid = u
    · subst hu
      obtain ⟨⟨info, hget, -, hline⟩, -⟩ := he
      have hline : info.line ≠ [] := fun hnil => hline (hnil ▸ rfl)
      obtain ⟨line, -, hwake⟩ := wake_of_leaving (h info hget) hget hline order
      rw [perform, hwake]
      refine not_departed_execute fun hstart => hs fun _ info' hget' => ?_
      cases hget.symm.trans hget'
      exact hstart
    · exact absurd (fun heq => absurd heq hu) hs
  | leaveAnswer uid result =>
    by_cases hu : uid = u
    · subst hu
      exact not_departed_leaveAnswer h he hs
    · exact absurd (fun heq => absurd heq hu) hs
  | _ => exact absurd trivial hs

def Settled (u : UserUid) (w : World δ π) : Prop :=
  ∀ info, w.users.get u = some info →
    info.Free ∧ info.raised = false ∧ info.departing = false

theorem Settled.allLeaving (h : Settled u w) : AllLeaving u w := by
  intro info hinfo
  obtain ⟨⟨hbody, hline⟩, hraised, hdeparting⟩ := h info hinfo
  have hbody := isNone_iff_eq_none.mp hbody
  have hline := List.isEmpty_iff.mp hline
  refine ⟨hraised, fun b hb => ?_, fun op hop => ?_, fun hne => absurd hline hne, fun hyes => ?_⟩
  · cases hbody.symm.trans hb
  · rw [hline] at hop
    cases hop
  · cases hdeparting.symm.trans hyes

/-- Whatever else happens, a user that is only asked to leave does so without an error if and
only if every step of its departure finds the record and the scene that it needs. -/
theorem departed_iff {u : UserUid} {actions : List (Action δ π)} {w₀ w : World δ π}
    (h₀ : Settled u w₀) (hd : (machine δ π).Along (fun _ => Departs u) actions w₀)
    (h : (machine δ π).runFrom actions w₀ = some w) :
    (machine δ π).Throughout (Departed u) actions w₀ ↔
      (machine δ π).Along (Smooth u) actions w₀ := by
  refine Machine.throughout_iff_along (fun _ => AllLeaving.departed) ?_ ?_ h₀.allLeaving hd h
  · intro w a w' hinv hdom hs hstep
    obtain ⟨he, hw'⟩ := of_guard hstep
    exact hw' ▸ perform_allLeaving hinv he hdom hs
  · intro w a w' hinv _ hs hstep
    obtain ⟨he, hw'⟩ := of_guard hstep
    exact hw' ▸ perform_not_departed hinv he hs

def arrived : World Unit Unit :=
  let w := perform (perform initial (.registerSceneServer 1)) (.registerAgentServer 5)
  let w := perform w (.enterScene 10 5 (some ()) 7 none none ⟨[], [1]⟩)
  perform w (.connectAnswer 10 (some true))

theorem arrived_settled : Settled 10 arrived := by
  have heval : (arrived.users.get 10).map (fun info => (decide info.Free, info.raised,
      info.departing)) = some (true, false, false) := by decide +kernel
  intro info hinfo
  rw [hinfo] at heval
  obtain ⟨hfree, hrest⟩ := Prod.mk.inj (some.inj heval)
  obtain ⟨hraised, hdeparting⟩ := Prod.mk.inj hrest
  exact ⟨of_decide_eq_true hfree, hraised, hdeparting⟩

/-- The user leaves, and the server goes down when it has answered. -/
theorem arrived_departed :
    ∃ w, (machine Unit Unit).runFrom [.leaveScene 10, .leaveAnswer 10 (some none), .leaveScene 10,
        .sceneDown 1] arrived = some w ∧
      (machine Unit Unit).Throughout (Departed 10) [.leaveScene 10, .leaveAnswer 10 (some none),
        .leaveScene 10, .sceneDown 1] arrived :=
  ⟨_, rfl, (departed_iff arrived_settled (by decide +kernel) rfl).mpr (by decide +kernel)⟩

/-- The agent of the user goes down, and the user stays in its scene; or the user is asked to
leave twice, and the second time finds it gone. -/
theorem arrived_not_departed : Settled 10 arrived ∧
      (∃ w info, (machine Unit Unit).runFrom [.agentDown 5] arrived = some w ∧
        w.users.get 10 = some info ∧ info.Free ∧ info.place ≠ none ∧ ¬Departed 10 w) ∧
      ∃ w, (machine Unit Unit).runFrom [.leaveScene 10, .leaveScene 10,
        .leaveAnswer 10 (some none), .wake 10 ⟨[(7, 1)], [1]⟩] arrived = some w ∧
        ¬Departed 10 w := by
  refine ⟨arrived_settled, ⟨_, _, rfl, rfl, by decide +kernel, by decide +kernel, ?_⟩, ⟨_, rfl, ?_⟩⟩
  · exact not_departed_of_raised rfl rfl
  · exact not_departed_of_raised rfl rfl

end EventLua.SceneManager
