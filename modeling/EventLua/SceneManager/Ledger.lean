import EventLua.SceneManager.Model

/-!
What the counts of the scenes are made of. A user counts for the scene that it is recorded in,
and for the one that it is on its way to, but no more for the one that it has been asked to
leave. `extra` says how far the counts are ahead of the records while a handler runs.
-/
namespace EventLua.SceneManager
open Option Finset Table

variable {δ π : Type} {w : World δ π}

def at? (p : Option Place) (k : SceneKey) : Int := if p.map Place.key = some k then 1 else 0

def Body.target : Body δ π → Option Place
  | .connecting target _ _ | .switching target _ => some target
  | .leaving => none

def Body.hasLeft : Body δ π → Bool
  | .connecting _ _ _ => false
  | .switching _ _ | .leaving => true

def UserInfo.held (info : UserInfo δ π) (k : SceneKey) : Int :=
  (if info.body.any Body.hasLeft then 0 else at? info.place k) +
    at? (info.body.bind Body.target) k

/-- The places that an entry of `_user_ctx` and the operation on it know. -/
def UserInfo.places (info : UserInfo δ π) : List Place :=
  info.place.toList ++ (info.body.bind Body.target).toList

/-- A place was a scene once, and if it is still one it is where the scene is. -/
def Known (scenes : Table SceneKey Scene) (p : Place) : Prop :=
  p.key ∈ scenes.keys ∧ ∀ e, scenes.get p.key = some e → e.server = p.server

structure Ledger (w : World δ π) (extra : SceneKey → Int) : Prop where
  count : ∀ k e, w.scenes.get k = some e → e.count = w.users.sum (fun _ u => u.held k) + extra k
  server : ∀ s c, w.servers.get s = some c →
    c = w.scenes.sum fun _ e => if e.server = s then e.count else 0
  live : ∀ k e, w.scenes.get k = some e → w.servers.get e.server ≠ none
  fresh : ∀ k ∈ w.scenes.keys, k.2 < w.nextSceneUid
  distinct : ∀ k ∈ w.scenes.keys, ∀ k' ∈ w.scenes.keys, k.2 = k'.2 → k = k'
  known : ∀ uid info, w.users.get uid = some info → ∀ p ∈ info.places, Known w.scenes p

theorem Ledger.same (h : Ledger w extra) (hscenes : w'.scenes = w.scenes)
    (husers : w'.users = w.users) (hservers : w'.servers = w.servers)
    (hnext : w'.nextSceneUid = w.nextSceneUid) : Ledger w' extra := by
  refine ⟨?_, ?_, ?_, ?_, ?_, ?_⟩
  · rw [hscenes, husers]
    exact h.count
  · rw [hscenes, hservers]
    exact h.server
  · rw [hscenes, hservers]
    exact h.live
  · rw [hscenes, hnext]
    exact h.fresh
  · rw [hscenes]
    exact h.distinct
  · rw [hscenes, husers]
    exact h.known

theorem Ledger.congr (h : Ledger w extra) (heq : ∀ k, w.scenes.get k ≠ none → extra' k = extra k) :
    Ledger w extra' := by
  refine { h with count := fun k e he => ?_ }
  rw [heq k (he ▸ some_ne_none e)]
  exact h.count k e he

theorem sendScene_eq (w : World δ π) (server : ServerId) (message : Message δ π) :
    ∃ sent, sendScene w server message = { w with sent := sent } := by
  rw [sendScene]
  split
  · exact ⟨w.sent, rfl⟩
  · exact ⟨_, rfl⟩

theorem Ledger.sendScene (h : Ledger w extra) (server : ServerId)
    (message : Message δ π) : Ledger (sendScene w server message) extra := by
  obtain ⟨sent, heq⟩ := sendScene_eq w server message
  rw [heq]
  exact h.same rfl rfl rfl rfl

variable {scenes : Table SceneKey Scene} {k : SceneKey} {p : Place}

theorem Known.set (h : Known scenes p) (hk : scenes.get k = some e) (hs : e'.server = e.server) :
    Known (scenes.set k e') p := by
  refine ⟨mem_insert_of_mem h.1, fun d hd => ?_⟩
  obtain ⟨heq, rfl⟩ | ⟨-, hd⟩ := get_set_cases hd
  · rw [hs]
    exact h.2 e (heq ▸ hk)
  · exact h.2 d hd

variable {e : Scene}

theorem sum_server_set (e' : Scene)
    (s : ServerId) (hk : scenes.get k = some e) (hs : e'.server = e.server) :
    ((scenes.set k e').sum fun _ e => if e.server = s then e.count else 0) =
      (scenes.sum fun _ e => if e.server = s then e.count else 0) +
        if e.server = s then e'.count - e.count else 0 := by
  have hsum := scenes.sum_set (fun _ e => if e.server = s then e.count else 0) k e'
  rw [scenes.share_of_some hk, hs] at hsum
  split at hsum
  next heq => rw [if_pos heq]; omega
  next heq => rw [if_neg heq]; omega

theorem insert_keys_self {κ ν : Type} [DecidableEq κ] {t : Table κ ν} {k : κ} {v : ν}
    (h : t.get k = some v) : insert k t.keys = t.keys :=
  insert_eq_self.mpr (t.mem_keys k (h ▸ some_ne_none v))

structure Keeps (w w' : World δ π) : Prop where
  users : w'.users = w.users
  agents : w'.agents = w.agents
  status : w'.agentServerStatus = w.agentServerStatus
  known : ∀ p, Known w.scenes p → Known w'.scenes p
  present : ∀ k, w.scenes.get k ≠ none → w'.scenes.get k ≠ none
  alive : ∀ s, w.servers.get s ≠ none → w'.servers.get s ≠ none

theorem Keeps.trans (h : Keeps w w') (h' : Keeps w' w'') : Keeps w w'' :=
  ⟨h'.users.trans h.users, h'.agents.trans h.agents, h'.status.trans h.status,
    fun p hp => h'.known p (h.known p hp), fun k hk => h'.present k (h.present k hk),
    fun s hs => h'.alive s (h.alive s hs)⟩

theorem keeps_sendScene (w : World δ π) (server : ServerId) (message : Message δ π) :
    Keeps w (sendScene w server message) := by
  obtain ⟨sent, heq⟩ := sendScene_eq w server message
  rw [heq]
  exact ⟨rfl, rfl, rfl, fun _ => id, fun _ => id, fun _ => id⟩

theorem changeCount_of_some (hk : w.scenes.get k = some e) (hc : w.servers.get e.server = some c)
    (d : Int) : changeCount w k d = .ok { w with
        scenes := w.scenes.set k { e with count := e.count + d }
        servers := w.servers.set e.server (c + d) } := by
  simp [changeCount, hk, hc]

theorem Ledger.changeCount (h : Ledger w extra) (hk : w.scenes.get k = some e) (d : Int) :
    ∃ w', changeCount w k d = .ok w' ∧ Keeps w w' ∧
      Ledger w' fun k' => extra k' + if k' = k then d else 0 := by
  cases hc : w.servers.get e.server with
  | none => exact absurd hc (h.live k e hk)
  | some c =>
    have hkeys : (w.scenes.set k { e with count := e.count + d }).keys = w.scenes.keys :=
      insert_keys_self hk
    refine ⟨{ w with
      scenes := w.scenes.set k { e with count := e.count + d }
      servers := w.servers.set e.server (c + d) }, ?_, ?_, ?_⟩
    · exact changeCount_of_some hk hc d
    · exact ⟨rfl, rfl, rfl, fun p hp => hp.set hk rfl, fun k' => get_set_ne_none _ _ _,
        fun s => get_set_ne_none _ _ _⟩
    · refine ⟨fun k' e' he' => ?_, fun s c' hc' => ?_, fun k' e' he' => ?_, ?_, ?_,
        fun uid info hinfo p hp => (h.known uid info hinfo p hp).set hk rfl⟩
      · obtain ⟨rfl, rfl⟩ | ⟨hne, he'⟩ := get_set_cases he'
        · rw [if_pos rfl, ← Int.add_assoc, ← h.count k' e hk]
        · rw [if_neg hne, Int.add_zero]
          exact h.count k' e' he'
      · rw [sum_server_set { e with count := e.count + d } s hk rfl]
        dsimp only
        obtain ⟨rfl, rfl⟩ | ⟨hne, hc'⟩ := get_set_cases hc'
        · rw [if_pos rfl, h.server e.server c hc]
          omega
        · rw [if_neg fun heq => hne heq.symm, Int.add_zero]
          exact h.server s c' hc'
      · refine get_set_ne_none _ _ _ ?_
        obtain ⟨-, rfl⟩ | ⟨-, he'⟩ := get_set_cases he'
        · exact h.live k e hk
        · exact h.live k' e' he'
      · rw [hkeys]
        exact h.fresh
      · rw [hkeys]
        exact h.distinct

theorem at?_eq_zero {p : Option Place} (h : ∀ q ∈ p, q.key ≠ k) : at? p k = 0 := by
  refine if_neg fun heq => ?_
  obtain ⟨q, hq, hkey⟩ := map_eq_some_iff.mp heq
  exact h q hq hkey

variable {info : UserInfo δ π}

theorem UserInfo.held_eq_zero (h : ∀ p ∈ info.places, p.key ≠ k) : info.held k = 0 := by
  have hplace : at? info.place k = 0 :=
    at?_eq_zero fun p hp => h p (List.mem_append_left _ (mem_toList.mpr hp))
  have htarget : at? (info.body.bind Body.target) k = 0 :=
    at?_eq_zero fun p hp => h p (List.mem_append_right _ (mem_toList.mpr hp))
  rw [held, hplace, htarget, ite_self]
  rfl

variable {server : ServerId}

theorem Ledger.addScene (h : Ledger w extra)
    (hserver : w.servers.get server ≠ none) (hlt : k.2 < w.nextSceneUid)
    (hnew : ∀ k' ∈ w.scenes.keys, k'.2 ≠ k.2) (hextra : extra k = 0) :
    Ledger (addScene w k server) extra := by
  have hk : k ∉ w.scenes.keys := fun hmem => hnew k hmem rfl
  have hnone : w.scenes.get k = none := by
    by_contra hne
    exact hk (w.scenes.mem_keys k hne)
  refine ⟨fun k' e he => ?_, fun s c hc => ?_, fun k' e he => ?_, ?_, ?_, ?_⟩
  · rw [SceneManager.addScene]
    obtain ⟨rfl, rfl⟩ | ⟨-, he⟩ := get_set_cases he
    · rw [hextra, Int.add_zero]
      refine (w.users.sum_eq_zero fun uid info hinfo => ?_).symm
      refine UserInfo.held_eq_zero fun p hp heq => hk ?_
      exact heq ▸ (h.known uid info hinfo p hp).1
    · exact h.count k' e he
  · have hsum := w.scenes.sum_set (fun _ e => if e.server = s then e.count else 0) k
      ⟨server, 0, false⟩
    rw [w.scenes.share_of_none hnone, ite_self, Int.add_zero, Int.add_zero] at hsum
    exact (h.server s c hc).trans hsum.symm
  · obtain ⟨-, rfl⟩ | ⟨-, he⟩ := get_set_cases he
    · exact hserver
    · exact h.live k' e he
  · intro k' hk'
    cases mem_insert.mp hk' with
    | inl heq => exact heq ▸ hlt
    | inr hmem => exact h.fresh k' hmem
  · intro k₁ h₁ k₂ h₂ heq
    cases mem_insert.mp h₁ with
    | inl h₁ =>
      cases mem_insert.mp h₂ with
      | inl h₂ => rw [h₁, h₂]
      | inr h₂ => exact absurd (h₁ ▸ heq).symm (hnew k₂ h₂)
    | inr h₁ =>
      cases mem_insert.mp h₂ with
      | inl h₂ => exact absurd (h₂ ▸ heq) (hnew k₁ h₁)
      | inr h₂ => exact h.distinct k₁ h₁ k₂ h₂ heq
  · intro uid info hinfo p hp
    obtain ⟨hmem, hsame⟩ := h.known uid info hinfo p hp
    refine ⟨mem_insert_of_mem hmem, fun e he => hsame e ?_⟩
    have hne : p.key ≠ k := fun heq => hk (heq ▸ hmem)
    exact (w.scenes.get_set_of_ne _ hne).symm.trans he

theorem keeps_addScene {w : World δ π} (server : ServerId)
    (hk : k ∉ w.scenes.keys) : Keeps w (addScene w k server) := by
  refine ⟨rfl, rfl, rfl, fun p hp => ⟨mem_insert_of_mem hp.1, fun e he => hp.2 e ?_⟩,
    fun k' => get_set_ne_none _ _ _, fun _ => id⟩
  have hne : p.key ≠ k := fun heq => hk (heq ▸ hp.1)
  exact (w.scenes.get_set_of_ne _ hne).symm.trans he

variable {order : List SceneKey} {sceneId : SceneId}

variable {uid : SceneUid}

theorem minScene_eq_some {best : Option (Scene × SceneUid)} {info : Scene}
    (h : minScene scenes sceneId order best = some (info, uid)) :
    best = some (info, uid) ∨ scenes.get (sceneId, uid) = some info := by
  induction order generalizing best with
  | nil => exact .inl h
  | cons k order ih =>
    rw [minScene] at h
    split at h
    · exact ih h
    next info' hget =>
      split at h
      next hbetter =>
        cases ih h with
        | inl heq =>
          cases heq
          refine .inr ?_
          rw [← hbetter.1]
          exact hget
        | inr hfound => exact .inr hfound
      · exact ih h

theorem findMinScene_eq_some (h : findMinScene scenes sceneId order = some (server, uid)) :
    ∃ e, scenes.get (sceneId, uid) = some e ∧ e.server = server := by
  rw [findMinScene] at h
  split at h
  · cases h
  next info uid' hmin =>
    split at h
    · cases h
    · cases h
      exact ⟨info, (minScene_eq_some hmin).resolve_left (by simp), rfl⟩

theorem findScene_eq_some (h : findScene scenes sceneId sceneUid order = some (server, uid)) :
    ∃ e, scenes.get (sceneId, uid) = some e ∧ e.server = server := by
  cases sceneUid with
  | none => exact findMinScene_eq_some h
  | some found =>
    rw [findScene] at h
    split at h
    · exact findMinScene_eq_some h
    next info hget =>
      split at h
      · exact findMinScene_eq_some h
      · cases h
        exact ⟨info, hget, rfl⟩

def chosen (w : World δ π) (sceneId : SceneId) (sceneUid : Option SceneUid) (order : Order) :
    Option ServerId :=
  match findScene w.scenes sceneId sceneUid order.scenes with
  | some (server, _) => some server
  | none => findMinSceneServer w.servers order.servers

/-- The counts when everybody but one user is in order, and that one counts for `x`. -/
def Open (w : World δ π) (uid : UserUid) (x : SceneKey → Int) : Prop :=
  Ledger w fun k => x k - w.users.share (fun _ u => u.held k) uid

variable {uid : UserUid}

theorem Open.congr (h : Open w uid x) (heq : ∀ k, w.scenes.get k ≠ none → y k = x k) :
    Open w uid y :=
  Ledger.congr h fun k hk => by rw [heq k hk]

theorem Open.sendScene (h : Open w uid x) (server : ServerId)
    (message : Message δ π) : Open (sendScene w server message) uid x := by
  have hledger := Ledger.sendScene h server message
  rw [Open, (keeps_sendScene w server message).users]
  exact hledger

theorem Open.changeCount (h : Open w uid x) (hk : w.scenes.get k ≠ none) (d : Int) :
    ∃ w', changeCount w k d = .ok w' ∧ Keeps w w' ∧
      Open w' uid fun k' => x k' + if k' = k then d else 0 := by
  obtain ⟨e, he⟩ := ne_none_iff_exists'.mp hk
  obtain ⟨w', hw', hkeeps, hledger⟩ := Ledger.changeCount h he d
  refine ⟨w', hw', hkeeps, ?_⟩
  rw [Open, hkeeps.users]
  refine hledger.congr fun k' _ => ?_
  omega

theorem at?_some (p : Place) (k : SceneKey) : at? (some p) k = if k = p.key then 1 else 0 := by
  rw [at?, map_some]
  by_cases h : k = p.key
  · rw [if_pos h, if_pos (h ▸ rfl)]
  · rw [if_neg h, if_neg fun heq => h (some.inj heq).symm]

theorem Open.addSceneCount (h : Open w uid x)
    (hp : w.scenes.get p.key = some e) (hserver : e.server = p.server) :
    ∃ w', addSceneCount w p.key = .ok w' ∧ Keeps w w' ∧
      Open w' uid (fun k => x k + at? (some p) k) ∧ Known w'.scenes p := by
  have hknown : Known w.scenes p := by
    refine ⟨w.scenes.mem_keys _ (hp ▸ some_ne_none e), fun d hd => ?_⟩
    rw [hp] at hd
    cases hd
    exact hserver
  obtain ⟨w', hw', hkeeps, hopen⟩ := h.changeCount (hp ▸ some_ne_none e) 1
  refine ⟨w', hw', hkeeps, hopen.congr fun k _ => ?_, hkeeps.known p hknown⟩
  rw [at?_some]

theorem Open.doEnterScene (h : Open w uid x)
    (hx : ∀ k, k ∉ w.scenes.keys → x k = 0) (sceneId : SceneId) (sceneUid : Option SceneUid)
    (order : Order) :
    (∃ w', doEnterScene w sceneId sceneUid order = .error w' ∧ Keeps w w' ∧ Open w' uid x) ∨
    ∃ w' p, doEnterScene w sceneId sceneUid order = .ok (w', p) ∧ Keeps w w' ∧
      Open w' uid (fun k => x k + at? (some p) k) ∧ Known w'.scenes p ∧
      chosen w sceneId sceneUid order = some p.server := by
  cases hfind : findScene w.scenes sceneId sceneUid order.scenes with
  | some found =>
    obtain ⟨server, suid⟩ := found
    obtain ⟨e, he, hserver⟩ := findScene_eq_some hfind
    obtain ⟨w', hw', hkeeps, hopen, hknown⟩ :=
      h.addSceneCount (p := ⟨sceneId, suid, server⟩) he hserver
    refine .inr ⟨w', ⟨sceneId, suid, server⟩, ?_, hkeeps, hopen, hknown, ?_⟩
    · rw [Place.key] at hw'
      simp only [SceneManager.doEnterScene, hfind, hw']
      rfl
    · rw [chosen, hfind]
  | none =>
    let w₁ : World δ π := { w with nextSceneUid := w.nextSceneUid + 1 }
    have hopen₁ : Open w₁ uid x := { h with fresh := fun k hk => Nat.lt_succ_of_lt (h.fresh k hk) }
    have hkeeps₁ : Keeps w w₁ := ⟨rfl, rfl, rfl, fun _ => id, fun _ => id, fun _ => id⟩
    cases hmin : findMinSceneServer w.servers order.servers with
    | none =>
      refine .inl ⟨w₁, ?_, hkeeps₁, hopen₁⟩
      simp only [SceneManager.doEnterScene, hfind, hmin]
      rfl
    | some server =>
      let p : Place := ⟨sceneId, w.nextSceneUid, server⟩
      obtain ⟨sent, hsend⟩ := sendScene_eq w₁ server (.createScene sceneId w.nextSceneUid)
      let w₂ : World δ π := { w₁ with sent := sent }
      have hopen₂ : Open w₂ uid x := Ledger.same hopen₁ rfl rfl rfl rfl
      have hkeeps₂ : Keeps w w₂ := ⟨rfl, rfl, rfl, fun _ => id, fun _ => id, fun _ => id⟩
      have hnew : ∀ k ∈ w.scenes.keys, k.2 ≠ w.nextSceneUid :=
        fun k hk => Nat.ne_of_lt (h.fresh k hk)
      have hkey : p.key ∉ w.scenes.keys := fun hmem => hnew _ hmem rfl
      have hzero : x p.key - w.users.share (fun _ u => u.held p.key) uid = 0 := by
        have hshare : w.users.share (fun _ u => u.held p.key) uid = 0 := by
          cases hu : w.users.get uid with
          | none => exact w.users.share_of_none hu
          | some info =>
            rw [w.users.share_of_some hu]
            refine UserInfo.held_eq_zero fun q hq heq => hkey ?_
            exact heq ▸ (h.known uid info hu q hq).1
        rw [hshare, hx _ hkey]
        rfl
      have hopen₃ : Open (SceneManager.addScene w₂ p.key server) uid x :=
        Ledger.addScene hopen₂ (findMin_eq_some hmin) (Nat.lt_succ_self _) hnew hzero
      obtain ⟨w', hw', hkeeps, hopen, hknown⟩ :=
        hopen₃.addSceneCount (p := p) (w₂.scenes.get_set_self _ _) rfl
      refine .inr ⟨w', p, ?_, ?_, hopen, hknown, ?_⟩
      · have hadd : SceneManager.addScene w₂ p.key server =
            SceneManager.addScene (SceneManager.sendScene w₁ server
              (.createScene sceneId w.nextSceneUid)) (sceneId, w.nextSceneUid) server := by
          rw [hsend]
          rfl
        rw [hadd] at hw'
        simp only [SceneManager.doEnterScene, hfind, hmin]
        exact congrArg (Except.map fun w => (w, p)) hw'
      · exact (hkeeps₂.trans (keeps_addScene server hkey)).trans hkeeps
      · rw [chosen, hfind]
        exact hmin

theorem Open.close (h : Open w uid x) (hx : ∀ k, w.scenes.get k ≠ none → x k = info.held k)
    (hknown : ∀ p ∈ info.places, Known w.scenes p) :
    Ledger { w with users := w.users.set uid info } fun _ => 0 := by
  refine ⟨fun k e he => ?_, h.server, h.live, h.fresh, h.distinct, fun uid' info' hinfo => ?_⟩
  · have hcount := h.count k e he
    have hsum := w.users.sum_set (fun _ u => u.held k) uid info
    rw [hx k (he ▸ some_ne_none e)] at hcount
    dsimp only
    omega
  · obtain ⟨-, rfl⟩ | ⟨-, hinfo⟩ := get_set_cases hinfo
    · exact hknown
    · exact h.known uid' info' hinfo

/-- The record that a handler works with counts as the one in the table does. -/
structure Current (w : World δ π) (uid : UserUid) (info : UserInfo δ π) : Prop where
  share : ∀ k, w.users.share (fun _ u => u.held k) uid = info.held k
  known : ∀ p ∈ info.places, Known w.scenes p

theorem Ledger.open (h : Ledger w fun _ => 0) (hc : Current w uid info) : Open w uid info.held :=
  h.congr fun k _ => by rw [hc.share k, Int.sub_self]

theorem Current.of_get (h : Ledger w fun _ => 0) (hget : w.users.get uid = some old)
    (hplace : info.place = old.place) (hbody : info.body = old.body) : Current w uid info := by
  have hheld : ∀ k, old.held k = info.held k := by
    intro k
    rw [UserInfo.held, UserInfo.held, hplace, hbody]
  have hplaces : info.places = old.places := by
    rw [UserInfo.places, UserInfo.places, hplace, hbody]
  refine ⟨fun k => ?_, fun p hp => h.known uid old hget p (hplaces ▸ hp)⟩
  rw [w.users.share_of_some hget]
  exact hheld k

theorem Current.new (hget : w.users.get uid = none)
    (hplace : info.place = none) (hbody : info.body = none) : Current w uid info := by
  have hplaces : info.places = [] := by
    rw [UserInfo.places, hplace, hbody]
    rfl
  refine ⟨fun k => ?_, fun p hp => (by rw [hplaces] at hp; cases hp)⟩
  rw [w.users.share_of_none hget]
  refine (UserInfo.held_eq_zero fun p hp => ?_).symm
  rw [hplaces] at hp
  cases hp

theorem Current.held_eq_zero (h : Current w uid info)
    (k : SceneKey) (hk : k ∉ w.scenes.keys) : info.held k = 0 :=
  UserInfo.held_eq_zero fun p hp heq => hk (heq ▸ (h.known p hp).1)

/-- The scene is there behind the call, and is not to be removed. -/
def CanEnd (w : World δ π) (info : UserInfo δ π) : Prop :=
  ∃ p ∈ info.place, ∃ e ∈ w.scenes.get p.key, ¬(e.count = 0 ∧ e.clean = true)
deriving Decidable

theorem leaveEnds_of_none (hp : info.place = none) : leaveEnds w info = .error w := by
  simp [leaveEnds, hp]

theorem leaveEnds_of_absent (hp : info.place = some p)
    (he : w.scenes.get p.key = none) : leaveEnds w info = .error w := by
  simp [leaveEnds, hp, he]

theorem leaveEnds_of_empty (hp : info.place = some p) (he : w.scenes.get p.key = some e)
    (hempty : e.count = 0 ∧ e.clean = true) :
    leaveEnds w info = .error { w with scenes := w.scenes.erase p.key } := by
  simp [leaveEnds, hp, he, hempty]

theorem leaveEnds_of_some (hp : info.place = some p) (he : w.scenes.get p.key = some e)
    (hne : ¬(e.count = 0 ∧ e.clean = true)) :
    leaveEnds w info = .ok (w, { info with place := none }) := by
  simp [leaveEnds, hp, he, hne]

end EventLua.SceneManager
