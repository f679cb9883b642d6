import EventLua.SceneManager.Ledger

/-!
When the counts of the scenes and of the scene servers are exact. A count is lost wherever an
operation ends between counting a scene up and recording it. A transfer inside one server
counts the new scene and leaves the old one as it is.
-/
namespace EventLua.SceneManager
open List Option Table

variable {δ π : Type} {w : World δ π}

def Quiet (w : World δ π) : Prop := ∀ uid info, w.users.get uid = some info → info.Free

structure Exact (w : World δ π) : Prop where
  scene : ∀ k e, w.scenes.get k = some e →
    e.count = w.users.count fun info => info.place.map Place.sceneUid = some k.2
  server : ∀ s c, w.servers.get s = some c →
    c = w.scenes.sum fun _ e => if e.server = s then e.count else 0

theorem quiet_iff (w : World δ π) :
    (∀ uid ∈ w.users.keys, ∀ info ∈ w.users.get uid, info.Free) ↔ Quiet w :=
  ⟨fun h uid info hget => h uid (w.users.mem_keys uid (hget ▸ some_ne_none info)) info hget,
    fun h uid _ info hget => h uid info hget⟩

instance (w : World δ π) : Decidable (Quiet w) := decidable_of_iff _ (quiet_iff w)

variable {info : UserInfo δ π}

theorem held_of_free (h : info.body = none) (k : SceneKey) : info.held k = at? info.place k := by
  rw [UserInfo.held, h]
  exact Int.add_zero _

theorem Ledger.exact (h : Ledger w fun _ => 0) (hq : Quiet w) : Exact w := by
  refine ⟨fun k e he => ?_, h.server⟩
  rw [h.count k e he, Int.add_zero, ← sum_ite]
  refine w.users.sum_congr fun uid info hinfo => ?_
  rw [held_of_free (isNone_iff_eq_none.mp (hq uid info hinfo).1), at?]
  cases hp : info.place with
  | none => rfl
  | some p =>
    have hmem : p ∈ info.places := by
      rw [UserInfo.places, hp]
      exact mem_append_left _ (mem_singleton_self p)
    have hk : k ∈ w.scenes.keys := w.scenes.mem_keys k (he ▸ some_ne_none e)
    have hiff : p.key = k ↔ p.sceneUid = k.2 :=
      ⟨fun heq => heq ▸ rfl, h.distinct _ (h.known uid info hinfo p hmem).1 k hk⟩
    simp [hiff]

def CanLeave (w : World δ π) (info : UserInfo δ π) : Prop :=
  ∀ p ∈ info.place, w.scenes.get p.key ≠ none
deriving Decidable

def Recorded (w : World δ π) (info : UserInfo δ π) : Prop :=
  ∃ p ∈ info.place, w.scenes.get p.key ≠ none
deriving Decidable

/-- The user comes from another server, through an agent that is connected or can be asked. -/
def CanEnter (w : World δ π) (info : UserInfo δ π) (sceneId : SceneId)
    (sceneUid : Option SceneUid) (order : Order) : Prop :=
  ∀ s ∈ chosen w sceneId sceneUid order,
    info.place.map Place.server ≠ some s ∧
      if w.agentServerStatus info.userAgent s = true then CanLeave w info
      else w.agents info.userAgent = true
deriving Decidable

def CanExecute (w : World δ π) (info : UserInfo δ π) (op : Op δ π) (order : Order) : Prop :=
  match op with
  | .enter _ sceneId sceneUid _ => CanEnter w info sceneId sceneUid order
  | .leave => True

/-- The agent connects and the old scene can be left, or the new one is gone already. -/
def ConnectFine (w : World δ π) (info : UserInfo δ π) (result : Option Bool)
    (body : Body δ π) : Prop :=
  (∀ p ∈ body.target, w.scenes.get p.key = none) ∨ (result = some true ∧ CanLeave w info)
deriving Decidable

/-- The server answers, and a user on its way to another scene gets there. -/
def LeaveFine (w : World δ π) (info : UserInfo δ π) (result : Option (Option δ))
    (body : Body δ π) : Prop :=
  (result.isSome ∨ ¬Recorded w info) ∧
    ((∀ p ∈ body.target, w.scenes.get p.key = none) ∨ (result.isSome ∧ CanEnd w info))
deriving Decidable

def Balanced (w : World δ π) : Action δ π → Prop
  | .enterScene uid agent _ sceneId sceneUid _ order =>
    (w.userInfo uid agent).Free → CanEnter w (w.userInfo uid agent) sceneId sceneUid order
  | .transferScene uid sceneId sceneUid _ order =>
    ∀ info ∈ w.users.get uid, info.Free → CanEnter w info sceneId sceneUid order
  | .wake uid order =>
    ∀ info ∈ w.users.get uid, ∀ op ∈ info.line.head?, CanExecute w info op order
  | .connectAnswer uid result =>
    ∀ info ∈ w.users.get uid, ∀ body ∈ info.body, ConnectFine w info result body
  | .leaveAnswer uid result =>
    ∀ info ∈ w.users.get uid, ∀ body ∈ info.body, LeaveFine w info result body
  | _ => True

instance (w : World δ π) (info : UserInfo δ π) (order : Order) (op : Op δ π) :
    Decidable (CanExecute w info op order) := by
  unfold CanExecute
  split <;> infer_instance

instance (w : World δ π) (a : Action δ π) : Decidable (Balanced w a) := by
  induction a using Action.casesOn <;> delta Balanced <;> infer_instance

theorem at?_of_absent (h : ∀ q ∈ p, w.scenes.get q.key = none) (hk : w.scenes.get k ≠ none) :
    at? p k = 0 :=
  at?_eq_zero fun q hq heq => hk (heq ▸ h q hq)

theorem mem_places_of_place (h : info.place = some p) : p ∈ info.places :=
  mem_append_left _ (mem_toList.mpr h)

theorem known_of_free (hbody : info.body = none)
    (h : ∀ p ∈ info.place, Known w.scenes p) : ∀ p ∈ info.places, Known w.scenes p := by
  intro p hp
  rw [UserInfo.places, hbody] at hp
  exact h p (mem_toList.mp (by simpa using hp))

theorem Open.raise (h : Open w uid x) (hx : ∀ k, w.scenes.get k ≠ none → x k = at? info.place k)
    (hknown : ∀ p ∈ info.place, Known w.scenes p) :
    Ledger (commit uid info (.error w)) fun _ => 0 := by
  refine h.close (fun k hk => ?_) (known_of_free rfl hknown)
  rw [hx k hk, held_of_free rfl]

theorem Open.doLeaveScene (h : Open w uid fun k => at? info.place k + at? body.target k)
    (hbody : body.hasLeft = true) (hp : info.place = some p) (hpresent : w.scenes.get p.key ≠ none)
    (hknown : Known w.scenes p) (htarget : ∀ q ∈ body.target, Known w.scenes q) :
    Ledger (commit uid info (doLeaveScene w uid info switch body)) fun _ => 0 := by
  obtain ⟨e, he⟩ := ne_none_iff_exists'.mp hpresent
  obtain ⟨w', hw', hkeeps, hopen⟩ := h.changeCount hpresent (-1)
  have halive : w'.servers.get p.server ≠ none := by
    refine hkeeps.alive _ ?_
    rw [← hknown.2 e he]
    exact h.live p.key e he
  obtain ⟨count, hcount⟩ := ne_none_iff_exists'.mp halive
  have hresult : SceneManager.doLeaveScene w uid info switch body =
      .ok (SceneManager.sendScene w' p.server (.leaveScene p.sceneUid uid switch),
        { info with body := some body }) := by
    simp [SceneManager.doLeaveScene, hp, subSceneCount, hw', Except.bind, hcount]
  rw [hresult]
  have hsent := keeps_sendScene w' p.server (.leaveScene p.sceneUid uid switch)
  refine (hopen.sendScene _ _).close (fun k _ => ?_) fun q hq => ?_
  · have hheld : ({ info with body := some body } : UserInfo δ π).held k = at? body.target k := by
      rw [UserInfo.held]
      simp [hbody]
    rw [hheld, hp, at?_some]
    split <;> omega
  · refine hsent.known q (hkeeps.known q ?_)
    cases mem_append.mp hq with
    | inl hq =>
      have hq : info.place = some q := mem_toList.mp hq
      rw [hp] at hq
      cases hq
      exact hknown
    | inr hq => exact htarget q (mem_toList.mp hq)

theorem Open.enterEnds (h : Open w uid (at? (some target))) (htarget : Known w.scenes target) :
    Ledger (commit uid info' (.ok (enterEnds w info target fighterData pos))) fun _ => 0 := by
  have hsent := keeps_sendScene w target.server
    (.enterScene target.sceneUid pos info.userAgent fighterData)
  refine (h.sendScene _ _).close (fun k _ => ?_) (known_of_free rfl fun p hp => ?_)
  · rw [held_of_free rfl]
    rfl
  · cases hp
    exact hsent.known target htarget

theorem Open.afterConnect (h : Open w uid fun k => at? info.place k + at? (some target) k)
    (hplace : ∀ p ∈ info.place, Known w.scenes p) (htarget : Known w.scenes target)
    (hok : w.scenes.get target.key = none ∨ CanLeave w info) :
    Ledger (commit uid info (afterConnect w uid info target fighterData pos)) fun _ => 0 := by
  cases hp : info.place with
  | none =>
    simp only [SceneManager.afterConnect, hp]
    refine Open.enterEnds (h.congr fun k _ => ?_) htarget
    rw [hp]
    exact (Int.zero_add _).symm
  | some p =>
    simp only [SceneManager.afterConnect, hp]
    have hknown := hplace p hp
    cases hpresent : w.scenes.get p.key with
    | some e =>
      refine h.doLeaveScene rfl hp (hpresent ▸ some_ne_none e) hknown fun q hq => ?_
      cases hq
      exact htarget
    | none =>
      have hgone : w.scenes.get target.key = none :=
        hok.resolve_right fun hleave => hleave p hp hpresent
      have hresult : SceneManager.doLeaveScene w uid info true (.switching target pos) =
          .error w := by
        simp [SceneManager.doLeaveScene, hp, subSceneCount, SceneManager.changeCount, hpresent,
          Except.bind]
      rw [hresult]
      refine h.raise (fun k hk => ?_) hplace
      have hzero : at? (some target) k = 0 :=
        at?_of_absent (w := w) (fun q hq => (by cases hq; exact hgone)) hk
      rw [hzero, Int.add_zero]

theorem held_of_target (hbody : info.body = some body)
    (hleft : body.hasLeft = true) (k : SceneKey) : info.held k = at? body.target k := by
  rw [UserInfo.held, hbody]
  simp [hleft]

theorem Current.known_place (h : Current w uid info) : ∀ p ∈ info.place, Known w.scenes p :=
  fun p hp => h.known p (mem_places_of_place hp)

theorem Current.known_target (h : Current w uid info) (hbody : info.body = some body) :
    ∀ p ∈ body.target, Known w.scenes p := by
  intro p hp
  refine h.known p (mem_append_right _ (mem_toList.mpr ?_))
  rw [hbody]
  exact hp

theorem Ledger.connectAnswered (h : Ledger w fun _ => 0) (hc : Current w uid info)
    (hbody : info.body = some (.connecting target fighterData pos))
    (hfine : ConnectFine w info result (.connecting target fighterData pos)) :
    Ledger (commit uid info (connectAnswered w uid info target fighterData pos result))
      fun _ => 0 := by
  have hopen : Open w uid fun k => at? info.place k + at? (some target) k := by
    refine (h.open hc).congr fun k _ => ?_
    rw [UserInfo.held, hbody]
    rfl
  have hgone : result ≠ some true →
      ∀ k, w.scenes.get k ≠ none → at? info.place k + at? (some target) k = at? info.place k := by
    intro hresult k hk
    have habsent := hfine.resolve_right fun hyes => hresult hyes.1
    have hzero : at? (some target) k = 0 := at?_of_absent habsent hk
    rw [hzero, Int.add_zero]
  have hplace := hc.known_place
  cases result with
  | none => exact hopen.raise (hgone fun h => (by cases h)) hplace
  | some ok =>
    cases ok with
    | false =>
      refine hopen.close (fun k hk => ?_) (known_of_free rfl hplace)
      rw [held_of_free rfl]
      exact hgone (fun h => (by cases h)) k hk
    | true =>
      have hconnected : Open (w.connected info.userAgent target.server) uid
          fun k => at? info.place k + at? (some target) k :=
        Ledger.same hopen rfl rfl rfl rfl
      refine hconnected.afterConnect hplace (hc.known_target hbody target rfl) ?_
      exact hfine.imp (fun hall => hall target rfl) And.right

theorem Known.erase (h : Known scenes p) (k : SceneKey) : Known (scenes.erase k) p := by
  refine ⟨h.1, fun e he => ?_⟩
  by_cases hk : p.key = k
  · rw [hk, get_erase_self] at he
    cases he
  · exact h.2 e ((scenes.get_erase_of_ne hk).symm.trans he)

theorem Ledger.erase (h : Ledger w extra) (he : w.scenes.get k = some e) (hcount : e.count = 0) :
    Ledger { w with scenes := w.scenes.erase k } extra := by
  have hold : ∀ {k' e'}, (w.scenes.erase k).get k' = some e' → w.scenes.get k' = some e' := by
    intro k' e' he'
    by_cases hk : k' = k
    · rw [hk, get_erase_self] at he'
      cases he'
    · exact (w.scenes.get_erase_of_ne hk).symm.trans he'
  refine ⟨fun k' e' he' => h.count k' e' (hold he'), fun s c hc => ?_,
    fun k' e' he' => h.live k' e' (hold he'), h.fresh, h.distinct,
    fun uid info hinfo p hp => (h.known uid info hinfo p hp).erase k⟩
  have hsum := w.scenes.sum_erase (fun _ e => if e.server = s then e.count else 0) k
  rw [w.scenes.share_of_some he, hcount, ite_self, Int.add_zero] at hsum
  exact (h.server s c hc).trans hsum.symm

theorem Ledger.leaveAnswered (h : Ledger w fun _ => 0) (hc : Current w uid info)
    (hbody : info.body = some body) (hleft : body.hasLeft = true)
    (hfine : LeaveFine w info result body) :
    Ledger (commit uid info (leaveAnswered w info body result)) fun _ => 0 := by
  have hopen : Open w uid (at? body.target) :=
    (h.open hc).congr fun k _ => (held_of_target hbody hleft k).symm
  have hplace := hc.known_place
  have htarget := hc.known_target hbody
  have hgone : ¬(result.isSome ∧ CanEnd w info) →
      ∀ k, w.scenes.get k ≠ none → at? body.target k = 0 := by
    intro hcannot k hk
    exact at?_of_absent (hfine.2.resolve_right hcannot) hk
  cases result with
  | none =>
    refine hopen.raise (fun k hk => ?_) hplace
    rw [hgone (fun hyes => (by cases hyes.1)) k hk]
    refine (at?_eq_zero fun q hq heq => ?_).symm
    exact hfine.1.resolve_left (fun h => (by cases h)) ⟨q, hq, heq ▸ hk⟩
  | some fighterData =>
    rw [SceneManager.leaveAnswered]
    cases hp : info.place with
    | none =>
      rw [leaveEnds_of_none hp]
      refine hopen.raise (fun k hk => ?_) hplace
      have hcannot : ¬CanEnd w info := by
        rintro ⟨q, hq, -⟩
        rw [hp] at hq
        cases hq
      rw [hp, hgone (fun hyes => hcannot hyes.2) k hk]
      rfl
    | some p =>
      cases he : w.scenes.get p.key with
      | none =>
        rw [leaveEnds_of_absent hp he]
        refine hopen.raise (fun k hk => ?_) hplace
        have hcannot : ¬CanEnd w info := by
          rintro ⟨q, hq, e, he', -⟩
          rw [hp] at hq
          cases hq
          cases he.symm.trans he'
        rw [hp, hgone (fun hyes => hcannot hyes.2) k hk]
        refine (at?_eq_zero fun q hq heq => hk ?_).symm
        cases hq
        exact heq ▸ he
      | some e =>
        by_cases hempty : e.count = 0 ∧ e.clean = true
        · rw [leaveEnds_of_empty hp he hempty]
          have hcannot : ¬CanEnd w info := by
            rintro ⟨q, hq, e', he', hne⟩
            rw [hp] at hq
            cases hq
            cases he.symm.trans he'
            exact hne hempty
          have hopen' : Open { w with scenes := w.scenes.erase p.key } uid
              (at? body.target) := Ledger.erase hopen he hempty.1
          refine hopen'.raise (fun k hk => ?_) fun q hq => (hplace q hq).erase p.key
          have hne : k ≠ p.key := by
            rintro rfl
            exact hk (get_erase_self _ _)
          have hk' : w.scenes.get k ≠ none := (w.scenes.get_erase_of_ne hne) ▸ hk
          rw [hp, hgone (fun hyes => hcannot hyes.2) k hk', at?_some, if_neg hne]
        · rw [leaveEnds_of_some hp he hempty]
          cases body with
          | connecting target fighterData pos => cases hleft
          | switching target pos => exact hopen.enterEnds (htarget target rfl)
          | leaving =>
            refine hopen.close (fun k _ => ?_) (known_of_free rfl fun p hp => (by cases hp))
            rw [held_of_free rfl]
            rfl

theorem Ledger.executeLeave (h : Ledger w fun _ => 0)
    (hc : Current w uid info) (hbody : info.body = none) :
    Ledger (commit uid info (executeLeaveScene w uid info)) fun _ => 0 := by
  have hopen : Open w uid (at? info.place) :=
    (h.open hc).congr fun k _ => (held_of_free hbody k).symm
  have hplace := hc.known_place
  cases hp : info.place with
  | none =>
    have hresult : executeLeaveScene w uid info = .error w := by
      simp [executeLeaveScene, SceneManager.doLeaveScene, hp]
    rw [hresult]
    exact hopen.raise (fun k _ => rfl) hplace
  | some p =>
    cases he : w.scenes.get p.key with
    | none =>
      have hresult : executeLeaveScene w uid info = .error w := by
        simp [executeLeaveScene, SceneManager.doLeaveScene, hp, subSceneCount,
          SceneManager.changeCount, he, Except.bind]
      rw [hresult]
      exact hopen.raise (fun k _ => rfl) hplace
    | some e =>
      refine Open.doLeaveScene (hopen.congr fun k _ => ?_) rfl hp
        (he ▸ some_ne_none e) (hplace p hp) fun q hq => (by cases hq)
      exact Int.add_zero _

theorem Ledger.executeEnter (h : Ledger w fun _ => 0) (hc : Current w uid info)
    (hbody : info.body = none) (hcan : CanEnter w info sceneId sceneUid order) :
    Ledger (commit uid info
      (executeEnterScene w uid info fighterData sceneId sceneUid pos order)) fun _ => 0 := by
  have hopen : Open w uid (at? info.place) :=
    (h.open hc).congr fun k _ => (held_of_free hbody k).symm
  have hzero : ∀ k, k ∉ w.scenes.keys → at? info.place k = 0 :=
    fun k hk => (held_of_free hbody k).symm.trans (hc.held_eq_zero k hk)
  cases hopen.doEnterScene hzero sceneId sceneUid order with
  | inl hraised =>
    obtain ⟨w', hw', hkeeps, hopen'⟩ := hraised
    rw [executeEnterScene, hw']
    exact hopen'.raise (fun k _ => rfl) fun p hp => hkeeps.known p (hc.known_place p hp)
  | inr hentered =>
    obtain ⟨w', target, hw', hkeeps, hopen', htarget, hchosen⟩ := hentered
    obtain ⟨hother, hagent⟩ := hcan target.server hchosen
    have hplace : ∀ p ∈ info.place, Known w'.scenes p :=
      fun p hp => hkeeps.known p (hc.known_place p hp)
    rw [executeEnterScene, hw']
    simp only [Except.bind, hother, ↓reduceIte]
    rw [hkeeps.status, hkeeps.agents]
    split at hagent
    next hconnected =>
      rw [if_pos hconnected]
      exact hopen'.afterConnect hplace htarget (.inr fun p hp => hkeeps.present _ (hagent p hp))
    next hconnected =>
      rw [if_neg hconnected, if_pos hagent]
      refine hopen'.close (fun k _ => rfl) fun p hp => ?_
      cases mem_append.mp hp with
      | inl hp => exact hplace p (mem_toList.mp hp)
      | inr hp =>
        cases mem_singleton.mp hp
        exact htarget

theorem Ledger.execute (h : Ledger w fun _ => 0) (hc : Current w uid info)
    (hbody : info.body = none) (hcan : CanExecute w info op order) :
    Ledger (commit uid info (execute w uid info op order)) fun _ => 0 := by
  cases op with
  | enter fighterData sceneId sceneUid pos => exact h.executeEnter hc hbody hcan
  | leave => exact h.executeLeave hc hbody

theorem Ledger.mutex (h : Ledger w fun _ => 0) (hc : Current w uid info)
    (hcan : info.Free → CanExecute w info op order) :
    Ledger (mutex w uid info op order) fun _ => 0 := by
  rw [SceneManager.mutex]
  split
  next hfree => exact h.execute hc (isNone_iff_eq_none.mp hfree.1) (hcan hfree)
  · exact (h.open ⟨hc.share, hc.known⟩).close (fun _ _ => rfl) hc.known

theorem Known.filterMap (h : Known scenes p) (hf : ∀ e e', f e = some e' → e' = e) :
    Known (scenes.filterMap f) p := by
  refine ⟨h.1, fun e he => ?_⟩
  obtain ⟨e', he', hfe⟩ := bind_eq_some_iff.mp he
  cases hf e' e hfe
  exact h.2 e he'

theorem get_sceneDown (h : (sceneDown w s).scenes.get k = some e) :
    w.scenes.get k = some e ∧ e.server ≠ s := by
  obtain ⟨e', he', hf⟩ := bind_eq_some_iff.mp h
  split at hf
  · cases hf
  next hne =>
    cases hf
    exact ⟨he', hne⟩

section
variable (h : Ledger w fun _ => 0)
include h

theorem Ledger.sceneDown (s : ServerId) : Ledger (sceneDown w s) fun _ => 0 := by
  refine ⟨fun k e he => ?_, fun s' c hc => ?_, fun k e he => ?_, h.fresh, h.distinct,
    fun uid info hinfo p hp => ?_⟩
  · obtain ⟨hold, hne⟩ := get_sceneDown he
    rw [h.count k e hold]
    refine congrArg (· + 0) (w.users.sum_filterMap fun uid info hinfo => ?_).symm
    split
    next hhere =>
      -- a user of the server does not count for a scene on another one
      have hzero : at? info.place k = 0 := by
        refine at?_eq_zero fun p hp heq => hne ?_
        have hserver : p.server = s := by
          rw [hp] at hhere
          exact some.inj hhere
        rw [← hserver]
        exact (h.known uid info hinfo p (mem_places_of_place hp)).2 e (heq ▸ hold)
      show UserInfo.held { info with place := none, departing := true } k = info.held k
      rw [UserInfo.held, UserInfo.held, hzero]
      rfl
    · rfl
  · have hne : s' ≠ s := by
      rintro rfl
      cases (get_erase_self _ _).symm.trans hc
    have hold : w.servers.get s' = some c := (w.servers.get_erase_of_ne hne).symm.trans hc
    rw [h.server s' c hold]
    refine (w.scenes.sum_filterMap fun k e _ => ?_).symm
    split
    next heq => rw [heq, if_neg (Ne.symm hne)]; rfl
    · rfl
  · obtain ⟨hold, hne⟩ := get_sceneDown he
    exact (w.servers.get_erase_of_ne hne).trans_ne (h.live k e hold)
  · obtain ⟨old, hold, hf⟩ := bind_eq_some_iff.mp hinfo
    refine Known.filterMap (h.known uid old hold p ?_) fun e e' hf' => ?_
    · split at hf
      · cases hf
        exact mem_append_right _ hp
      · cases hf
        exact hp
    · split at hf'
      · cases hf'
      · exact (some.inj hf').symm

theorem Ledger.agentDown (agent : AgentId) : Ledger (agentDown w agent) fun _ => 0 := by
  refine ⟨fun k e he => ?_, h.server, h.live, h.fresh, h.distinct, fun uid info hinfo => ?_⟩
  · rw [h.count k e he]
    refine congrArg (· + 0) (w.users.sum_filterMap fun uid info _ => ?_).symm
    split <;> rfl
  · obtain ⟨old, hold, hf⟩ := bind_eq_some_iff.mp hinfo
    split at hf
    · cases hf
      exact h.known uid old hold
    · cases hf
      exact h.known uid _ hold

theorem Ledger.deleteScene (k : SceneKey) : Ledger (deleteScene w k) fun _ => 0 := by
  rw [SceneManager.deleteScene]
  split
  · exact h
  next e hk =>
    have hkeys : (w.scenes.set k { e with clean := true }).keys = w.scenes.keys :=
      insert_keys_self hk
    have hold : ∀ {k' e'}, (w.scenes.set k { e with clean := true }).get k' = some e' →
        ∃ d, w.scenes.get k' = some d ∧ e'.count = d.count ∧ e'.server = d.server := by
      intro k' e' he'
      obtain ⟨heq, rfl⟩ | ⟨-, he'⟩ := get_set_cases he'
      · exact ⟨e, heq ▸ hk, rfl, rfl⟩
      · exact ⟨e', he', rfl, rfl⟩
    refine ⟨fun k' e' he' => ?_, fun s c hc => ?_, fun k' e' he' => ?_, ?_, ?_,
      fun uid info hinfo p hp => (h.known uid info hinfo p hp).set hk rfl⟩
    · obtain ⟨d, hd, hcount, -⟩ := hold he'
      rw [hcount]
      exact h.count k' d hd
    · rw [sum_server_set { e with clean := true } s hk rfl, Int.sub_self, ite_self, Int.add_zero]
      exact h.server s c hc
    · obtain ⟨d, hd, -, hserver⟩ := hold he'
      rw [hserver]
      exact h.live k' d hd
    · rw [hkeys]
      exact h.fresh
    · rw [hkeys]
      exact h.distinct

theorem Ledger.registerSceneServer (hs : w.servers.get s = none) :
    Ledger { w with servers := w.servers.set s 0 } fun _ => 0 := by
  refine { h with server := fun s' c hc => ?_, live := fun k e he => ?_ }
  · obtain ⟨rfl, rfl⟩ | ⟨-, hc⟩ := get_set_cases hc
    · refine (w.scenes.sum_eq_zero fun k e he => if_neg fun hserver => ?_).symm
      exact h.live k e he (hserver ▸ hs)
    · exact h.server s' c hc
  · exact get_set_ne_none _ _ _ (h.live k e he)

theorem current_userInfo (uid : UserUid) (agent : AgentId) :
    Current w uid (w.userInfo uid agent) := by
  cases hget : w.users.get uid with
  | none =>
    have hnew : w.userInfo uid agent = ⟨agent, none, none, [], false, false⟩ := by
      rw [World.userInfo, hget]
    rw [hnew]
    exact .new hget rfl rfl
  | some info =>
    have hold : w.userInfo uid agent = { info with userAgent := agent } := by
      rw [World.userInfo, hget]
    rw [hold]
    exact .of_get h hget rfl rfl

theorem Ledger.perform (he : Enabled w a) (hb : Balanced w a) :
    Ledger (perform w a) fun _ => 0 := by
  cases a with
  | registerSceneServer s => exact h.registerSceneServer he
  | registerAgentServer agent => exact h.same rfl rfl rfl rfl
  | sceneDown s => exact h.sceneDown s
  | agentDown agent => exact h.agentDown agent
  | enterScene uid agent fighterData sceneId sceneUid pos order =>
    exact h.mutex (current_userInfo h uid agent) hb
  | transferScene uid sceneId sceneUid pos order =>
    rw [SceneManager.perform, transferScene]
    split
    · exact h
    next info hget => exact h.mutex (.of_get h hget rfl rfl) (hb info hget)
  | leaveScene uid =>
    rw [SceneManager.perform, leaveScene]
    split
    · exact h
    next info hget =>
      split
      · exact h
      · exact h.mutex (.of_get h hget rfl rfl) fun _ => trivial
  | deleteScene k => exact h.deleteScene k
  | wake uid order =>
    obtain ⟨⟨info, hget, hbody, -⟩, -⟩ := he
    rw [SceneManager.perform, wake]
    simp only [show w.users.get uid = some info from hget]
    split
    · exact h
    next op line hline =>
      refine h.execute (.of_get h hget rfl rfl) (isNone_iff_eq_none.mp hbody) ?_
      have hcan := hb info hget op (by rw [hline]; rfl)
      cases op with
      | enter fighterData sceneId sceneUid pos => exact hcan
      | leave => trivial
  | connectAnswer uid result =>
    obtain ⟨info, hget, body, hbody, hconnecting⟩ := he
    have hget : w.users.get uid = some info := hget
    have hbody : info.body = some body := hbody
    cases body with
    | connecting target fighterData pos =>
      simp only [SceneManager.perform, connectAnswer, hget, hbody]
      exact h.connectAnswered (.of_get h hget rfl rfl) hbody (hb info hget _ hbody)
    | switching target pos | leaving => cases hconnecting
  | leaveAnswer uid result =>
    obtain ⟨info, hget, body, hbody, hconnecting⟩ := he
    have hget : w.users.get uid = some info := hget
    have hbody : info.body = some body := hbody
    simp only [SceneManager.perform, leaveAnswer, hget, hbody]
    have hleft : body.hasLeft = true := by
      cases body with
      | connecting target fighterData pos => cases hconnecting
      | switching target pos | leaving => rfl
    exact h.leaveAnswered (.of_get h hget rfl rfl) hbody hleft (hb info hget body hbody)

end

theorem initial_ledger : Ledger (initial : World δ π) fun _ => 0 :=
  ⟨fun _ _ he => (by cases he), fun _ _ hc => (by cases hc), fun _ _ he => (by cases he),
    fun _ hk => absurd hk (Finset.notMem_empty _), fun _ hk => absurd hk (Finset.notMem_empty _),
    fun _ _ hinfo => (by cases hinfo)⟩

theorem step_ledger (w : World δ π) (a : Action δ π) (w' : World δ π)
    (h : Ledger w fun _ => 0) (hb : Balanced w a) (hs : (machine δ π).step w a = some w') :
    Ledger w' fun _ => 0 := by
  obtain ⟨he, hw'⟩ := of_guard hs
  exact hw' ▸ h.perform he hb

/-- In every run whose steps lose no count, the counts are exact whenever no operation is in
progress. -/
theorem counters_exact {actions : List (Action δ π)} {w : World δ π}
    (h : (machine δ π).run actions = some w)
    (hb : (machine δ π).Along Balanced actions (machine δ π).init) (hq : Quiet w) : Exact w :=
  (Machine.invariant_along step_ledger initial_ledger hb h).exact hq

def tour : List (Action Unit Unit) :=
  [.registerSceneServer 1, .registerSceneServer 2, .registerAgentServer 5,
    .enterScene 10 5 (some ()) 7 none none ⟨[], [1, 2]⟩, .connectAnswer 10 (some true),
    .enterScene 11 5 (some ()) 7 (some 1) none ⟨[(7, 1)], [1, 2]⟩,
    .transferScene 10 8 none none ⟨[(7, 1)], [2, 1]⟩, .leaveScene 11,
    .connectAnswer 10 (some true), .leaveAnswer 11 (some none), .leaveAnswer 10 (some (some ()))]

theorem tour_exact : ∃ w, (machine Unit Unit).run tour = some w ∧ Quiet w ∧
      w.scenes.get (8, 2) = some ⟨2, 1, false⟩ ∧ Exact w := by
  have heval : ∃ w ∈ (machine Unit Unit).run tour, Quiet w ∧
      w.scenes.get (8, 2) = some ⟨2, 1, false⟩ := by decide +kernel
  obtain ⟨w, hw, hquiet, hscene⟩ := heval
  exact ⟨w, hw, hquiet, hscene, counters_exact hw (by decide +kernel) hquiet⟩

def insideTour : List (Action Unit Unit) :=
  [.registerSceneServer 1, .registerAgentServer 5,
    .enterScene 10 5 (some ()) 7 none none ⟨[], [1]⟩, .connectAnswer 10 (some true),
    .transferScene 10 8 none none ⟨[(7, 1)], [1]⟩]

theorem insideTour_not_exact :
    ∃ w, (machine Unit Unit).run insideTour = some w ∧ Quiet w ∧ ¬Exact w := by
  have heval : ∃ w ∈ (machine Unit Unit).run insideTour, Quiet w ∧
      w.scenes.get (7, 1) = some ⟨1, 1, false⟩ ∧
      (w.users.count fun info => info.place.map Place.sceneUid = some 1) = 0 := by decide +kernel
  obtain ⟨w, hw, hquiet, hscene, hcount⟩ := heval
  refine ⟨w, hw, hquiet, fun h => ?_⟩
  have hone := h.scene (7, 1) ⟨1, 1, false⟩ hscene
  rw [hcount] at hone
  cases hone

end EventLua.SceneManager
