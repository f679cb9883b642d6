import EventLua.Data.Server

/-!
Every load returns what the operations before it amount to, in every run whose
flushes and insertions meet a condition on the state before them. A flush replays
the sets of the log on the cached table once more, so they must change nothing there.
An insertion must not run into the end of a broken list, and no load is sent over a channel.
-/
namespace EventLua.Data
open List Function Option

variable {κ ν : Type}

theorem unload_some {ctx : Int → Option (Record κ ν)} {unloaded : Option Int} {id : Int}
    {data : Record κ ν} (h : unload ctx unloaded id = some data) : ctx id = some data := by
  cases unloaded with
  | none => exact h
  | some id' =>
    rw [unload] at h
    by_cases hid : id = id'
    · rw [hid, update_self] at h; cases h
    · rwa [update_of_ne hid] at h

section
variable (s : Server κ ν) (key : Key) (data : Record κ ν)

theorem cachedCtx_ctx (name : Name) (id : Int) :
    (cachedCtx s name).ctx id = findCached s ⟨name, id⟩ := by
  rw [cachedCtx, findCached]
  cases s.cachedData name <;> rfl

theorem findCached_putCached (h : findCached (putCached s key data).1 key' = some data') :
    key' = key ∧ data' = data ∨ key' ≠ key ∧ findCached s key' = some data' := by
  obtain ⟨name', id'⟩ := key'
  obtain ⟨name, id⟩ := key
  by_cases hname : name' = name
  · subst hname
    simp only [findCached, putCached, update_self, bind_some] at h
    have hput := unload_some h
    by_cases hid : id' = id
    · subst hid
      rw [update_self] at hput
      exact .inl ⟨rfl, (some.inj hput).symm⟩
    · rw [update_of_ne hid, cachedCtx_ctx] at hput
      exact .inr ⟨fun heq => hid (congrArg Key.id heq), hput⟩
  · simp only [findCached, putCached, update_of_ne hname] at h
    exact .inr ⟨fun heq => hname (congrArg Key.name heq), h⟩

theorem putCached_known (h : key' = key ∨ ∃ cached, s.cachedData key'.name = some cached ∧
      cached.lru.known key'.id = true) :
    ∃ cached, (putCached s key data).1.cachedData key'.name = some cached ∧
      cached.lru.known key'.id = true := by
  by_cases hname : key'.name = key.name
  · refine ⟨_, by rw [putCached, hname]; exact update_self _ _ _, ?_⟩
    rw [Lru.insert_known]
    by_cases hid : key'.id = key.id
    · rw [hid, update_self]
    · rw [update_of_ne hid]
      cases h with
      | inl heq => exact absurd (congrArg Key.id heq) hid
      | inr h =>
        obtain ⟨cached, hcached, hknown⟩ := h
        rw [hname] at hcached
        simpa [cachedCtx, hcached] using hknown
  · obtain ⟨cached, hcached, hknown⟩ := h.resolve_left fun heq => hname (congrArg Key.name heq)
    exact ⟨cached, by rw [putCached]; simpa [update_of_ne hname] using hcached, hknown⟩

end

theorem withCache_findCached (s : Server κ ν) : withCache s (findCached s) = s := by
  have hcached : (fun name => (s.cachedData name).map fun cached =>
      { cached with ctx := fun id => findCached s ⟨name, id⟩ }) = s.cachedData := by
    funext name
    cases h : s.cachedData name with
    | none => rfl
    | some cached =>
      have hctx : (fun id => findCached s ⟨name, id⟩) = cached.ctx := by
        funext id
        rw [findCached, h, bind_some]
      rw [map_some, hctx]
  rw [withCache, hcached]

def Op.entry : Op κ ν → Entry κ ν
  | .update data => .own data
  | .set _ => .cached

variable [DecidableEq κ]

def Op.giveTo (data : Record κ ν) : Op κ ν → Record κ ν
  | .update _ => data
  | .set setter => assign data setter

def setsOnto (data : Record κ ν) (ops : List (Op κ ν)) : Record κ ν := ops.foldl Op.giveTo data

/-- A flush of the operations on a key changes neither its cached record nor what
they amount to. -/
def Settled (cached record : Option (Record κ ν)) (ops : List (Op κ ν)) : Prop :=
  match cached with
  | none => Faithful record ops
  | some data => StartsFresh ops ∧ setsOnto data ops = data

def FlushAllowed (c : Codec κ ν) (s : Server κ ν) : Prop :=
  ∃ log, Logged c s.disk log ∧
    ∀ key, Settled (findCached s key) (stored c s.disk key) (opsOf key log)

def Allowed (c : Codec κ ν) (s : Server κ ν) : Request κ ν → Prop
  | .load key _ => findCached s key = none →
      (s.dataInLog key = true → FlushAllowed c s) ∧ (cachedCtx s key.name).lru.CanInsert key.id
  | .sendLoad _ _ => False
  | .update key data => (cachedCtx s key.name).lru.CanInsert key.id ∧ Short c (key, .update data)
  | .set key setter => Short c (key, .set setter)
  | .flush => FlushAllowed c s

def Meets (c : Codec κ ν) (pairs : Pairs) : Server κ ν → List (Request κ ν) → Prop
  | _, [] => True
  | s, request :: requests =>
    Allowed c s request ∧ Meets c pairs (serve c pairs s request).1 requests

def effect (value : Key → Option (Record κ ν)) :
    Request κ ν × Response κ ν → Key → Option (Record κ ν)
  | (.update key data, .done) => Function.update value key ((Op.update data).apply (value key))
  | (.set key setter, .done) => Function.update value key ((Op.set setter).apply (value key))
  | _ => value

def Answers (record : Option (Record κ ν)) (field : List κ) (response : Response κ ν) : Prop :=
  match record with
  | some data => response = .answer (project field data)
  | none => ∃ fault, response = .failed fault

structure Coherent (c : Codec κ ν) (s : Server κ ν) (value : Key → Option (Record κ ν))
    (log : List (Key × Op κ ν)) : Prop where
  logged : Logged c s.disk log
  handle : s.logFile ≠ .closed
  unopened : s.logFile = .unopened → log = []
  values : ∀ key, value key = (opsOf key log).foldl Op.apply (stored c s.disk key)
  cached : ∀ key data, findCached s key = some data → value key = some data
  inLog : ∀ key, opsOf key log ≠ [] → s.dataInLog key = true
  known : ∀ key data, findCached s key = some data →
    ∃ cached, s.cachedData key.name = some cached ∧ cached.lru.known key.id = true

theorem slotSteps_cached (loaded : Outcome (Record κ ν)) (data : Record κ ν)
    {ops : List (Op κ ν)} (h : StartsFresh ops) : slotSteps loaded (none, some data) ops =
      .ok (ops.getLast?.map Op.entry, some (setsOnto data ops)) := by
  induction ops using List.reverseRecOn with
  | nil => rfl
  | append_singleton ops op ih =>
    obtain ⟨hops, hop⟩ := (startsFresh_append ops op).mp h
    have hsets : setsOnto data (ops ++ [op]) = op.giveTo (setsOnto data ops) := by
      simp [setsOnto]
    rw [slotSteps_append, ih hops, Outcome.ok_bind, getLast?_concat, hsets]
    cases op with
    | update data => rfl
    | set setter =>
      rw [getLast?_eq_some_getLast (hop rfl)]
      rfl

theorem collected_cached {record : Option (Record κ ν)} {data : Record κ ν} {ops : List (Op κ ν)}
    (h : some data = ops.foldl Op.apply record) :
    (match Slot.collected (ops.getLast?.map Op.entry, some data) with
      | some data => some data
      | none => record) = some data := by
  induction ops using List.reverseRecOn with
  | nil => exact h.symm
  | append_singleton ops op _ =>
    rw [getLast?_concat]
    cases op with
    | update last =>
      rw [foldl_append] at h
      exact h.symm
    | set setter => rfl

variable {value : Key → Option (Record κ ν)} {log : List (Key × Op κ ν)} {s : Server κ ν}
  {c : Codec κ ν}

theorem slotSteps_settled (hs : Coherent c s value log) {key : Key}
    (h : Settled (findCached s key) (stored c s.disk key) (opsOf key log)) :
    ∃ slot, slotSteps (load c s.disk key) (none, findCached s key) (opsOf key log) = .ok slot ∧
      slot.2 = findCached s key ∧ (match Slot.collected slot with
        | some data => some data
        | none => stored c s.disk key) = value key := by
  have hvalue := hs.values key
  cases hcached : findCached s key with
  | none =>
    rw [hcached] at h
    obtain ⟨hreplay, hafter⟩ := (faithful_iff _).mp h
    refine ⟨_, slotSteps_uncached _ _ hreplay, rfl, ?_⟩
    rw [hvalue, ← hafter]
    by_cases hne : opsOf key log = []
    · rw [hne]; rfl
    · obtain ⟨data, hdata⟩ := lastWord_isSome hreplay hne
      rw [afterRecovery_of_lastWord hdata]
      rw [stored] at hdata
      rw [hdata]
      rfl
  | some data =>
    rw [hcached] at h
    obtain ⟨hfresh, hsets⟩ := h
    refine ⟨_, slotSteps_cached _ _ hfresh, by rw [hsets], ?_⟩
    have hdata := hs.cached key data hcached
    rw [hdata] at hvalue
    rw [hsets, hdata]
    exact collected_cached hvalue

theorem logFlush_coherent (pairs : Pairs) (hs : Coherent c s value log) (h : FlushAllowed c s) :
    (logFlush c pairs s).2 = none ∧ Coherent c (logFlush c pairs s).1 value [] ∧
      ∀ name, (cachedCtx (logFlush c pairs s).1 name).lru = (cachedCtx s name).lru := by
  obtain ⟨log', hlogged, hsettled⟩ := h
  cases hlogged.unique hs.logged
  cases hfile : s.logFile with
  | closed => exact absurd hfile hs.handle
  | unopened =>
    cases hs.unopened hfile
    simp only [logFlush, hfile]
    exact ⟨trivial, hs, fun _ => trivial⟩
  | opened =>
    have hslots := fun key => slotSteps_settled hs (hsettled key)
    choose slots hsteps hcache hcollected using hslots
    obtain ⟨disk', hrecover, hremoved, hload⟩ :=
      logRecover_ok false pairs (findCached s) hs.logged hsteps
    have hcaches : (fun key => (slots key).2) = findCached s := funext hcache
    rw [hcaches] at hrecover
    have hflush : logFlush c pairs s = ({ s with
        disk := openLog disk'
        dataInLog := if (s.disk .log).getD [] = [] then s.dataInLog else fun _ => false },
        none) := by
      simp [logFlush, hfile, hrecover, withCache_findCached]
    have hopen : ∀ key, stored c (openLog disk') key = value key := by
      intro key
      have hcongr : load c (openLog disk') key = load c disk' key :=
        load_congr c (update_of_ne (by simp) _ _) (update_of_ne (by simp) _ _)
      rw [stored, hcongr, hload key, ← hcollected key]
      cases Slot.collected (slots key) <;> rfl
    rw [hflush]
    refine ⟨rfl, ⟨⟨.inl ?_, forall_mem_nil _⟩, hs.handle, fun _ => rfl,
      fun key => (hopen key).symm, hs.cached, fun key hne => absurd rfl hne, hs.known⟩,
      fun name => rfl⟩
    change update disk' Path.log (some ((disk' .log).getD [])) Path.log = _
    rw [update_self, hremoved]
    rfl

section
variable {c : Codec κ ν}
  {log : List (Key × Op κ ν)} (hs : Coherent c s value log)
include hs

theorem known_putCached {key key' : Key} {data data' : Record κ ν}
    (hfind : findCached (putCached s key data).1 key' = some data') :
    ∃ cached, (putCached s key data).1.cachedData key'.name = some cached ∧
      cached.lru.known key'.id = true := by
  refine putCached_known s key data ?_
  cases findCached_putCached s key data hfind with
  | inl hput => exact .inl hput.1
  | inr hold => exact .inr (hs.known key' data' hold.2)

theorem putCached_coherent {key : Key} (h : value key = some data) :
    Coherent c (putCached s key data).1 value log := by
  refine ⟨hs.logged, hs.handle, hs.unopened, hs.values, fun key' data' hfind => ?_, hs.inLog,
    fun key' data' hfind => known_putCached hs hfind⟩
  cases findCached_putCached s key data hfind with
  | inl hput => rw [hput.1, hput.2, h]
  | inr hold => exact hs.cached key' data' hold.2

theorem logData_coherent {key : Key} {op : Op κ ν} (h : op.apply (value key) = some data)
    (hshort : Short c (key, op)) :
    (logData c (putCached s key data).1 key op).2 = none ∧
      Coherent c (logData c (putCached s key data).1 key op).1
        (update value key (op.apply (value key))) (log ++ [(key, op)]) := by
  have hlog : logData c (putCached s key data).1 key op =
      ({ (putCached s key data).1 with
          logFile := .opened, disk := appendLog c s.disk (key, op)
          dataInLog := update s.dataInLog key true }, none) := by
    have hhandle : (putCached s key data).1.logFile ≠ .closed := hs.handle
    unfold logData
    cases hfile : (putCached s key data).1.logFile with
    | closed => exact absurd hfile hhandle
    | unopened | opened => rfl
  have hvalues : ∀ key', update value key (op.apply (value key)) key' =
      (opsOf key' (log ++ [(key, op)])).foldl Op.apply
        (stored c (appendLog c s.disk (key, op)) key') := by
    intro key'
    rw [stored, load_appendLog, ← stored, opsOf_append, foldl_append, ← hs.values key']
    by_cases hkey : key' = key
    · subst hkey
      rw [update_self, opsOf_cons_self]
      rfl
    · rw [update_of_ne hkey, opsOf_cons_ne (Ne.symm hkey)]
      rfl
  rw [hlog]
  refine ⟨rfl, logged_appendLog c hs.logged hshort, by simp, by simp, hvalues,
    fun key' data' hfind => ?_,
    fun key' hne => ?_, fun key' data' hfind => known_putCached hs hfind⟩
  · have hfind' : findCached (putCached s key data).1 key' = some data' := hfind
    cases findCached_putCached s key data hfind' with
    | inl hput => rw [hput.1, hput.2, update_self, h]
    | inr hold => rw [update_of_ne hold.1, hs.cached key' data' hold.2]
  · by_cases hkey : key' = key
    · rw [hkey]; exact update_self _ _ _
    · rw [opsOf_append, opsOf_cons_ne (Ne.symm hkey)] at hne
      exact (update_of_ne hkey _ _).trans (hs.inLog key' (by simpa [opsOf] using hne))

variable (pairs : Pairs)

variable (key : Key)

theorem loadMissing_coherent (hmissing : findCached s key = none) (h : Allowed c s (.load key [])) :
    ∃ log', Coherent c (loadMissing c pairs s key).1 value log' ∧ match value key with
      | some data => (loadMissing c pairs s key).2 = .ok data
      | none => ∃ fault, (loadMissing c pairs s key).2 = .error fault := by
  obtain ⟨hflush, hroom⟩ := h hmissing
  -- after the flush, if there is one, the record of the key is the one on disk
  obtain ⟨s', log', hfirst, hs', hvalue, hlru⟩ : ∃ s' log',
      (if s.dataInLog key = true then logFlush c pairs s else (s, none)) = (s', none) ∧
        Coherent c s' value log' ∧ value key = stored c s'.disk key ∧
          (cachedCtx s' key.name).lru = (cachedCtx s key.name).lru := by
    by_cases hin : s.dataInLog key = true
    · obtain ⟨hnone, hs', hlru⟩ := logFlush_coherent pairs hs (hflush hin)
      refine ⟨(logFlush c pairs s).1, [], ?_, hs', hs'.values key, hlru key.name⟩
      rw [if_pos hin, ← hnone]
    · have hops : opsOf key log = [] := by
        by_contra hne
        exact hin (hs.inLog key hne)
      have hvalue := hs.values key
      rw [hops] at hvalue
      exact ⟨s, log, if_neg hin, hs, hvalue, rfl⟩
  rw [hvalue, stored, loadMissing, hfirst]
  cases hload : load c s'.disk key with
  | error fault => exact ⟨log', by simpa only [hload] using hs', ⟨fault, by simp only [hload]⟩⟩
  | ok data =>
    have hdata : value key = some data := by rw [hvalue, stored, hload]; rfl
    have hput := putCached_coherent hs' hdata
    have hfault : (putCached s' key data).2 = none := Lru.insert_fault (by rw [hlru]; exact hroom)
    have hupdate : updateCached s' key data = ((putCached s' key data).1, none) := by
      rw [updateCached, ← hfault]
    simp only [hload, hupdate]
    exact ⟨log', hput, rfl⟩

theorem serveLoad_coherent (field : List κ) (h : Allowed c s (.load key field)) :
    (∃ log', Coherent c (serveLoad c pairs s key field).1 value log') ∧
      Answers (value key) field (serveLoad c pairs s key field).2 := by
  unfold serveLoad
  cases hfind : findCached s key with
  | some data =>
    rw [hs.cached key data hfind]
    exact ⟨⟨log, hs⟩, rfl⟩
  | none =>
    obtain ⟨log', hs', hresult⟩ := loadMissing_coherent hs pairs key hfind h
    generalize loadMissing c pairs s key = result at hs' hresult
    obtain ⟨s', outcome⟩ := result
    cases hvalue : value key with
    | none =>
      rw [hvalue] at hresult
      obtain ⟨fault, hfault⟩ := hresult
      cases hfault
      exact ⟨⟨log', hs'⟩, fault, rfl⟩
    | some data =>
      rw [hvalue] at hresult
      cases hresult
      exact ⟨⟨log', hs'⟩, rfl⟩

theorem thenLog_coherent {key : Key} {op : Op κ ν}
    (h : op.apply (value key) = some data) (hshort : Short c (key, op))
    (hfault : (putCached s key data).2 = none) :
    (thenLog c key op (putCached s key data)).2 = .done ∧
      Coherent c (thenLog c key op (putCached s key data)).1
        (update value key (op.apply (value key))) (log ++ [(key, op)]) := by
  obtain ⟨hlog, hs'⟩ := logData_coherent hs h hshort
  generalize putCached s key data = put at hfault hlog hs'
  obtain ⟨s₁, fault⟩ := put
  cases hfault
  generalize hlogged : logData c s₁ key op = logged at hlog hs'
  obtain ⟨s₂, fault⟩ := logged
  cases hlog
  simp only [thenLog, hlogged]
  exact ⟨trivial, hs'⟩

theorem serveUpdate_coherent (data : Record κ ν) (h : Allowed c s (.update key data)) :
    ∃ log', Coherent c (serveUpdate c s key data).1
      (effect value (.update key data, (serveUpdate c s key data).2)) log' := by
  have hfault : (putCached s key data).2 = none := Lru.insert_fault h.1
  obtain ⟨hdone, hs'⟩ := thenLog_coherent hs (show (Op.update data).apply (value key) = _ from rfl)
    h.2 hfault
  refine ⟨log ++ [(key, .update data)], ?_⟩
  rw [serveUpdate, updateCached, hdone]
  exact hs'

theorem serveSet_coherent (setter : Record κ ν) (h : Allowed c s (.set key setter)) :
    ∃ log', Coherent c (serveSet c s key setter).1
      (effect value (.set key setter, (serveSet c s key setter).2)) log' := by
  cases hfind : findCached s key with
  | none =>
    refine ⟨log, ?_⟩
    rw [serveSet, setCached, hfind]
    exact hs
  | some data =>
    obtain ⟨cached, hcached, hknown⟩ := hs.known key data hfind
    have happly : (Op.set setter).apply (value key) = some (assign data setter) := by
      rw [hs.cached key data hfind]
      rfl
    have hfault : (putCached s key (assign data setter)).2 = none :=
      Lru.insert_fault (.inl (by simpa [cachedCtx, hcached] using hknown))
    obtain ⟨hdone, hs'⟩ := thenLog_coherent hs happly h hfault
    refine ⟨log ++ [(key, .set setter)], ?_⟩
    simp only [serveSet, setCached, hfind]
    rw [hdone]
    exact hs'

theorem serveFlush_coherent (h : FlushAllowed c s) : ∃ log', Coherent c (serveFlush c pairs s).1
      (effect value (.flush, (serveFlush c pairs s).2)) log' := by
  obtain ⟨_, hs', _⟩ := logFlush_coherent pairs hs h
  refine ⟨[], ?_⟩
  unfold serveFlush
  split
  · next s' _ heq => rw [heq] at hs'; exact hs'
  · next s' heq => rw [heq] at hs'; exact hs'

theorem serve_coherent (request : Request κ ν) (h : Allowed c s request) :
    ∃ log', Coherent c (serve c pairs s request).1
      (effect value (request, (serve c pairs s request).2)) log' := by
  cases request with
  | load key field => exact (serveLoad_coherent hs pairs key field h).1
  | sendLoad key field => exact h.elim
  | update key data => exact serveUpdate_coherent hs key data h
  | set key setter => exact serveSet_coherent hs key setter h
  | flush => exact serveFlush_coherent hs pairs h

end

theorem start_coherent (c : Codec κ ν) {disk : Disk} (h : disk .log = none) :
    Coherent c (Server.start disk) (stored c disk) [] where
  logged := logged_nil c h
  handle := by simp [Server.start]
  unopened _ := rfl
  values _ := rfl
  cached _ _ hfind := by cases hfind
  inLog _ hne := absurd rfl hne
  known _ _ hfind := by cases hfind

theorem history_answers (pairs : Pairs) (hs : Coherent c s value log)
    (requests : List (Request κ ν)) (hmeets : Meets c pairs s requests)
    {before after : List (Request κ ν × Response κ ν)} {key : Key} {field : List κ}
    {asked : Request κ ν} (hasked : asked.asks = some (key, field))
    (h : history c pairs s requests = before ++ (asked, response) :: after) :
    Answers (before.foldl effect value key) field response := by
  induction requests generalizing s value log before with
  | nil => cases before <;> cases h
  | cons request requests ih =>
    obtain ⟨hallowed, hrest⟩ := hmeets
    cases before with
    | nil =>
      obtain ⟨hfirst, _⟩ := List.cons.inj h
      obtain ⟨hrequest, hresponse⟩ := Prod.mk.inj hfirst
      subst hrequest
      rw [← hresponse]
      cases request with
      | load key' field' =>
        cases hasked
        exact (serveLoad_coherent hs pairs key field hallowed).2
      | sendLoad key' field' => exact hallowed.elim
      | update key' data | set key' setter | flush => cases hasked
    | cons first before =>
      obtain ⟨hfirst, hlater⟩ := List.cons.inj h
      obtain ⟨log', hs'⟩ := serve_coherent hs pairs request hallowed
      rw [foldl_cons, ← hfirst]
      exact ih hs' hrest hlater

/-- Read your writes: in a run that meets the conditions every load is answered with
what the requests before it that succeeded made of the record on disk. -/
theorem load_reads_writes (c : Codec DataKey (Datum 30)) (pairs : Pairs) (disk : Disk)
    (requests : List (Request DataKey (Datum 30))) (hnew : disk .log = none)
    (hmeets : Meets c pairs (Server.start disk) requests)
    (before after : List (Request DataKey (Datum 30) × Response DataKey (Datum 30))) (key : Key)
    (field : List DataKey) (asked : Request DataKey (Datum 30))
    (hasked : asked.asks = some (key, field)) (response : Response DataKey (Datum 30))
    (h : history c pairs (Server.start disk) requests = before ++ (asked, response) :: after) :
    Answers (before.foldl effect (stored c disk) key) field response :=
  history_answers pairs (start_coherent c hnew) requests hmeets hasked h

theorem settled_of_updates (cached record : Option (Record κ ν)) (h : ∀ op ∈ ops, op.isSet = false)
    : Settled cached record ops := by
  cases cached with
  | none => exact .inl h
  | some data =>
    refine ⟨fun op hop => h op (mem_of_mem_head? hop), ?_⟩
    induction ops with
    | nil => rfl
    | cons op ops ih =>
      cases op with
      | set setter => exact absurd (h _ mem_cons_self) (by simp [Op.isSet])
      | update data' => exact ih fun op hop => h op (mem_cons_of_mem _ hop)

/-- The load behind an update and a flush reads the update. -/
theorem load_reads_flushed_update :
    Answers ([((.update sampleKey (flags (some false) none) : Request DataKey (Datum 30)),
        (.done : Response DataKey (Datum 30))), (.flush, .done)].foldl effect
          (stored flagCodec (sampleDisk (flags (some true) none))) sampleKey)
      [] (.answer (flags (some false) none)) := by
  refine load_reads_writes flagCodec inOrder (sampleDisk (flags (some true) none))
    [.update sampleKey (flags (some false) none), .flush, .load sampleKey []] rfl ?_ _ [] sampleKey
    [] (.load sampleKey []) rfl (.answer (flags (some false) none)) (by decide +kernel)
  refine ⟨⟨.inr (.inl (by decide +kernel)), short_flags _ _ _⟩,
    ⟨[(sampleKey, .update (flags (some false) none))], ⟨.inl (by decide +kernel),
      forall_mem_singleton.mpr (short_flags _ _ _)⟩,
      fun key => settled_of_updates _ _ fun op hop => ?_⟩, ?_, trivial⟩
  · obtain ⟨entry, hentry, rfl⟩ := mem_map.mp hop
    rw [mem_singleton.mp (mem_of_mem_filter hentry)]
    rfl
  · intro hmissing
    exact absurd hmissing (by decide +kernel)

/-- A set before the last update comes back with a flush, and a load over a channel fails. -/
theorem flush_revives_set : (history flagCodec inOrder (Server.start fun _ => none)
        [.update sampleKey (flags none none), .set sampleKey (flags none (some true)),
          .update sampleKey (flags (some true) none), .load sampleKey [], .flush,
          .load sampleKey [], .sendLoad sampleKey []]).map Prod.snd =
      [.done, .done, .done, .answer (flags (some true) none), .done,
        .answer (flags (some true) (some true)),
        .failed (.raised "attempt to index a nil value (local 'db')")] ∧
      flags (some true) none ≠ flags (some true) (some true) := by decide +kernel

end EventLua.Data
