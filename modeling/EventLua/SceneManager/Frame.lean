import EventLua.SceneManager.Ledger

/-!
What the operations leave alone. Whether it ends with an error or not, an operation on one user
does not write the records of the others.
-/
namespace EventLua.SceneManager

variable {δ π : Type} {w : World δ π}

/-- `_user_ctx` is the same. -/
structure Frame (w w' : World δ π) : Prop where
  users : w'.users = w.users

theorem Frame.refl (w : World δ π) : Frame w w := ⟨rfl⟩

theorem Frame.trans (h : Frame w w') (h' : Frame w' w'') : Frame w w'' :=
  ⟨h'.users.trans h.users⟩

/-- The tables of a result, and those of an error, have the property. -/
structure Ends (P : World δ π → Prop) {α : Type} (f : α → World δ π) (r : Result δ π α) :
    Prop where
  ok : ∀ a, r = .ok a → P (f a)
  error : ∀ w, r = .error w → P w

section
variable {P : World δ π → Prop}

theorem Ends.pure (h : P (f a)) : Ends P f (.ok a) :=
  ⟨fun _ heq => (by cases heq; exact h), fun _ heq => (by cases heq)⟩

theorem Ends.raise (h : P w) : Ends P f (.error w) :=
  ⟨fun _ heq => (by cases heq), fun _ heq => (by cases heq; exact h)⟩

theorem Ends.bind (h : Ends P f r) (hk : ∀ a, P (f a) → Ends P g (k a)) : Ends P g (r.bind k) := by
  cases r with
  | ok a => exact hk a (h.ok a rfl)
  | error w => exact .raise (h.error w rfl)

theorem Ends.map (h : Ends P f r) (hm : ∀ a, P (f a) → P (g (m a))) : Ends P g (r.map m) := by
  cases r with
  | ok a => exact .pure (hm a (h.ok a rfl))
  | error w => exact .raise (h.error w rfl)

theorem Ends.after (hw' : Frame w w') (h : Ends (Frame w') f r) : Ends (Frame w) f r :=
  ⟨fun a ha => hw'.trans (h.ok a ha), fun w'' hw'' => hw'.trans (h.error w'' hw'')⟩

end

theorem frame_sendScene (w : World δ π) (server : ServerId) (message : Message δ π) :
    Frame w (sendScene w server message) := by
  rw [sendScene]
  split
  · exact .refl w
  · exact ⟨rfl⟩

theorem frame_changeCount (w : World δ π) (k : SceneKey) (d : Int) :
    Ends (Frame w) id (changeCount w k d) := by
  rw [changeCount]
  split
  · exact .raise (.refl w)
  · dsimp only
    split
    · exact .raise ⟨rfl⟩
    · exact .pure ⟨rfl⟩

theorem frame_doEnterScene (w : World δ π) (sceneId : SceneId) (sceneUid : Option SceneUid)
    (order : Order) : Ends (Frame w) Prod.fst (doEnterScene w sceneId sceneUid order) := by
  rw [doEnterScene]
  split
  · exact (frame_changeCount w _ 1).map fun _ ha => ha
  · dsimp only
    split
    · exact .raise ⟨rfl⟩
    next server _ =>
      let w₁ : World δ π := { w with nextSceneUid := w.nextSceneUid + 1 }
      have hsent := frame_sendScene w₁ server (.createScene sceneId w.nextSceneUid)
      have hadded : Frame w (addScene (sendScene w₁ server (.createScene sceneId w.nextSceneUid))
          (sceneId, w.nextSceneUid) server) := ⟨hsent.users⟩
      exact .after hadded ((frame_changeCount _ _ 1).map fun _ ha => ha)

theorem frame_leaveEnds (w : World δ π) (info : UserInfo δ π) :
    Ends (Frame w) Prod.fst (leaveEnds w info) := by
  rw [leaveEnds]
  split
  · exact .raise (.refl w)
  · split
    · exact .raise (.refl w)
    · split
      · exact .raise ⟨rfl⟩
      · exact .pure (.refl w)

theorem frame_afterLeave (w : World δ π) (info : UserInfo δ π) (body : Body δ π)
    (fighterData : Option δ) : Frame w (afterLeave w info body fighterData).1 := by
  cases body with
  | switching target pos => exact frame_sendScene _ _ _
  | connecting target fighterData pos | leaving => exact .refl w

theorem frame_doLeaveScene (w : World δ π) (uid : UserUid) (info : UserInfo δ π) (switch : Bool)
    (body : Body δ π) : Ends (Frame w) Prod.fst (doLeaveScene w uid info switch body) := by
  rw [doLeaveScene]
  split
  · exact .raise (.refl w)
  · refine (frame_changeCount w _ (-1)).bind fun w' hw' => ?_
    split
    · refine .after hw' ((frame_leaveEnds w' info).map fun r hr => ?_)
      exact hr.trans (frame_afterLeave _ _ _ _)
    · exact .pure (hw'.trans (frame_sendScene _ _ _))

theorem frame_afterConnect (w : World δ π) (uid : UserUid) (info : UserInfo δ π) (target : Place)
    (fighterData : Option δ) (pos : Option π) :
    Ends (Frame w) Prod.fst (afterConnect w uid info target fighterData pos) := by
  rw [afterConnect]
  split
  · exact .pure (frame_sendScene _ _ _)
  · exact frame_doLeaveScene w uid info true _

theorem frame_execute (w : World δ π) (uid : UserUid) (info : UserInfo δ π) (op : Op δ π)
    (order : Order) : Ends (Frame w) Prod.fst (execute w uid info op order) := by
  cases op with
  | leave => exact frame_doLeaveScene w uid info false _
  | enter fighterData sceneId sceneUid pos =>
    refine (frame_doEnterScene w sceneId sceneUid order).bind fun a ha => ?_
    obtain ⟨w', target⟩ := a
    have hw' : Frame w w' := ha
    dsimp only
    split
    · exact .pure (hw'.trans (frame_sendScene _ _ _))
    · split
      · exact .after hw' (frame_afterConnect w' uid info target fighterData pos)
      · split
        · exact .pure hw'
        · exact .raise hw'

theorem frame_connectAnswered (w : World δ π) (uid : UserUid) (info : UserInfo δ π)
    (target : Place) (fighterData : Option δ) (pos : Option π) (result : Option Bool) :
    Ends (Frame w) Prod.fst (connectAnswered w uid info target fighterData pos result) := by
  cases result with
  | none => exact .raise (.refl w)
  | some ok =>
    cases ok with
    | false => exact .pure (.refl w)
    | true =>
      have hconnected : Frame w (w.connected info.userAgent target.server) := ⟨rfl⟩
      exact .after hconnected (frame_afterConnect _ uid info target fighterData pos)

theorem frame_leaveAnswered (w : World δ π) (info : UserInfo δ π) (body : Body δ π)
    (result : Option (Option δ)) : Ends (Frame w) Prod.fst (leaveAnswered w info body result) := by
  cases result with
  | none => exact .raise (.refl w)
  | some fighterData =>
    exact (frame_leaveEnds w info).map fun r hr => hr.trans (frame_afterLeave _ _ _ _)

/-- Only the record of one user is written. -/
structure Touches (uid : UserUid) (w w' : World δ π) : Prop where
  others : ∀ u, u ≠ uid → w'.users.get u = w.users.get u

theorem Touches.refl (uid : UserUid) (w : World δ π) : Touches uid w w :=
  ⟨fun _ _ => rfl⟩

theorem Ends.touches (h : Ends (Frame w) Prod.fst r) : Touches uid w (commit uid info r) := by
  have hset : ∀ {w' : World δ π} (info' : UserInfo δ π), Frame w w' →
      Touches uid w { w' with users := w'.users.set uid info' } := by
    intro w' info' hframe
    refine ⟨fun u hne => ?_⟩
    exact (Table.get_set_of_ne _ _ hne).trans (congrArg (Table.get · u) hframe.users)
  cases r with
  | ok a => exact hset a.2 (h.ok a rfl)
  | error w' => exact hset _ (h.error w' rfl)

theorem touches_mutex (w : World δ π) (uid : UserUid) (info : UserInfo δ π) (op : Op δ π)
    (order : Order) : Touches uid w (mutex w uid info op order) := by
  rw [mutex]
  split
  · exact (frame_execute w uid info op order).touches
  · exact ⟨fun _ hne => Table.get_set_of_ne _ _ hne⟩

def Action.uid : Action δ π → Option UserUid
  | .enterScene uid _ _ _ _ _ _ | .transferScene uid _ _ _ _ | .leaveScene uid | .wake uid _
  | .connectAnswer uid _ | .leaveAnswer uid _ => some uid
  | .registerSceneServer _ | .registerAgentServer _ | .sceneDown _ | .agentDown _
  | .deleteScene _ => none

theorem touches_perform (ha : a.uid = some uid) : Touches uid w (perform w a) := by
  cases a with
  | registerSceneServer s | registerAgentServer agent | sceneDown s | agentDown agent
  | deleteScene k => cases ha
  | enterScene uid agent fighterData sceneId sceneUid pos order =>
    cases ha
    exact touches_mutex w uid _ _ order
  | transferScene uid sceneId sceneUid pos order =>
    cases ha
    rw [perform, transferScene]
    split
    · exact .refl uid w
    · exact touches_mutex w uid _ _ order
  | leaveScene uid =>
    cases ha
    rw [perform, leaveScene]
    split
    · exact .refl uid w
    · split
      · exact .refl uid w
      · exact touches_mutex w uid _ _ _
  | wake uid order =>
    cases ha
    rw [perform, wake]
    split
    · exact .refl uid w
    · split
      · exact .refl uid w
      · exact (frame_execute w uid _ _ order).touches
  | connectAnswer uid result =>
    cases ha
    rw [perform, connectAnswer]
    split
    · exact .refl uid w
    · split
      · exact (frame_connectAnswered w uid _ _ _ _ result).touches
      · exact .refl uid w
  | leaveAnswer uid result =>
    cases ha
    rw [perform, leaveAnswer]
    split
    · exact .refl uid w
    · split
      · exact .refl uid w
      · exact (frame_leaveAnswered w _ _ result).touches

end EventLua.SceneManager
