import EventLua.LuaEv.ReadPath

/-!
Framed payloads come back. What a reader has not yet taken is at every turn the frames of the
payloads that it has not yet delivered, less a header when it waits for a packet.
-/
namespace EventLua.LuaEv.ReadPath
open List

open EventLua.Session

inductive PackArg where
  | text (data : Bytes)
  | block (data : Bytes)
  | other (typename : String)

/-- The length is an `int`, which has to hold the payload and itself. -/
def packBuffer (data : Bytes) : Outcome (Bytes × Int) :=
  let total := data.length + 4
  if total < 2 ^ 31 then .ok (leBytes 4 total ++ data, total) else .error .undefined

def lrpcPack : PackArg → Outcome (Bytes × Int)
  | .text data => packBuffer data
  | .block data => packBuffer data
  | .other typename => .error (.raised ("unkown type:" ++ typename))

def lrpcPackAll : List PackArg → Outcome Bytes
  | [] => .ok []
  | arg :: args => do
      let (buffer, _) ← lrpcPack arg
      let rest ← lrpcPackAll args
      .ok (buffer ++ rest)

def PackArg.data : PackArg → Bytes
  | .text data => data
  | .block data => data
  | .other _ => []

def frame (payload : Bytes) : Bytes := leBytes 4 (payload.length + 4) ++ payload

def frames (payloads : List Bytes) : Bytes := payloads.flatMap frame

theorem frames_cons (payload : Bytes) (payloads : List Bytes) : frames (payload :: payloads) =
      leBytes 4 (payload.length + 4) ++ (payload ++ frames payloads) := by
  rw [frames, flatMap_cons, frame, append_assoc, ← frames]

theorem lrpcPack_eq (h : lrpcPack arg = .ok (buffer, total)) : buffer = frame arg.data := by
  have hbuffer : ∀ data, packBuffer data = .ok (buffer, total) → buffer = frame data := by
    intro data hpack
    rw [packBuffer] at hpack
    split at hpack
    next => cases hpack; rfl
    next => cases hpack
  cases arg with
  | text data | block data => exact hbuffer data h
  | other typename => cases h

theorem lrpcPackAll_eq (h : lrpcPackAll args = .ok stream) :
    stream = frames (args.map PackArg.data) := by
  induction args generalizing stream with
  | nil => cases h; rfl
  | cons arg args ih =>
    obtain ⟨⟨buffer, total⟩, hpack, hrest⟩ := Outcome.bind_eq_ok.mp h
    obtain ⟨rest, hall, hok⟩ := Outcome.bind_eq_ok.mp hrest
    cases hok
    rw [lrpcPack_eq hpack, ih hall]
    rfl

def Sendable (payload : Bytes) : Prop := payload.length ≤ 16 * 1024 * 1024 - 4

def delivery (payload : Bytes) : Event := .data payload payload.length

/-- What is still to be read are the frames of what is still to be delivered. -/
def Expects (c : Reader) (unread : Bytes) (pending : List Bytes) : Prop :=
  match c.state with
  | .head => unread = frames pending
  | .body => ∃ payload rest, pending = payload :: rest ∧ c.need = payload.length ∧
      unread = payload ++ frames rest

structure Reads (c : Reader) (unread : Bytes) (pending : List Bytes) : Prop where
  live : c.Live
  header : c.header = .dword
  sendable : ∀ payload ∈ pending, Sendable payload
  expects : Expects c unread pending

theorem front_of_append {contents more front back : Bytes} (h : contents ++ more = front ++ back)
    (hle : front.length ≤ contents.length) :
    contents.take front.length = front ∧ contents.drop front.length ++ more = back := by
  have htake := congrArg (List.take front.length) h
  have hdrop := congrArg (List.drop front.length) h
  rw [take_append_of_le_length hle, take_left] at htake
  rw [drop_append_of_le_length hle, drop_left] at hdrop
  exact ⟨htake, hdrop⟩

variable {payload : Bytes}

theorem need_of_frame (h : Sendable payload) :
    toSigned 32 (toSigned 32 (leNat (leBytes 4 (payload.length + 4))) - (4 : Nat)) =
      payload.length := by
  rw [Sendable] at h
  have hint : toSigned 32 ((payload.length + 4 : Nat) : Int) = payload.length + 4 :=
    toSigned_of_range 31 _ (by omega) (by omega)
  rw [leNat_leBytes_of_lt 4 _ (by omega), hint, toSigned_of_range 31 _ (by omega) (by omega)]
  omega

theorem size_of_need (h : Sendable payload) :
    toUnsigned 64 (payload.length : Int) = payload.length := by
  rw [Sendable] at h
  rw [toUnsigned_of_range 64 _ (by omega) (by omega), Int.toNat_natCast]

theorem not_large (h : Sendable payload) : ¬ (payload.length : Int) > maxPacketSize := by
  rw [Sendable] at h
  rw [maxPacketSize]
  omega

section
variable {closes : Nat → Bool} (hopen : ∀ n, closes n = false)

include hopen

variable {pending : List Bytes} {more : Bytes}

theorem Reads.turn {c c' : Reader} {b b' : EvBuffer} (h : Reads c (b.contents ++ more) pending)
    (hturn : readTurn closes c b = some (c', b', events)) :
    ∃ pending', Reads c' (b'.contents ++ more) pending' ∧
      pending.map delivery = events ++ pending'.map delivery := by
  obtain ⟨hlive, hheader, hsendable, hexpects⟩ := h
  obtain ⟨_, hcases⟩ := readTurn_cases closes hturn
  rcases hcases with ⟨hstate, hlong, rfl, hcontents, rfl⟩ | ⟨hstate, _, hlarge, _⟩ |
    ⟨hstate, hlong, _, rfl, hcontents, rfl⟩
  · rw [Expects, hstate] at hexpects
    rw [hheader, Header.size] at hlong hcontents
    cases pending with
    | nil =>
      rw [(append_eq_nil_iff.mp hexpects).1] at hlong
      cases hlong
    | cons payload rest =>
      have hpayload := hsendable payload mem_cons_self
      rw [frames_cons] at hexpects
      obtain ⟨htake, hdrop⟩ := front_of_append hexpects (by rw [length_leBytes]; exact hlong)
      rw [length_leBytes] at htake hdrop
      refine ⟨payload :: rest, ⟨hlive, hheader, hsendable, ?_⟩, rfl⟩
      refine ⟨payload, rest, rfl, ?_, by rw [hcontents, hdrop]⟩
      simp only [takeHeader, hheader, Header.size, htake]
      exact need_of_frame hpayload
  · rw [Expects, hstate] at hexpects
    obtain ⟨payload, rest, rfl, hneed, _⟩ := hexpects
    rw [hneed] at hlarge
    exact absurd hlarge (not_large (hsendable payload mem_cons_self))
  · rw [Expects, hstate] at hexpects
    obtain ⟨payload, rest, rfl, hneed, hunread⟩ := hexpects
    rw [hneed, size_of_need (hsendable payload mem_cons_self)] at hlong hcontents
    obtain ⟨htake, hdrop⟩ := front_of_append hunread hlong
    refine ⟨rest, ⟨⟨hlive.1, hopen c.calls⟩, hheader, fun p hp => ?_, ?_⟩, ?_⟩
    · exact hsendable p (mem_cons_of_mem _ hp)
    · rw [hcontents]
      exact hdrop
    · rw [hneed, size_of_need (hsendable payload mem_cons_self), htake]
      rfl

variable {c : Reader} {b : EvBuffer}

theorem Reads.turns (fuel : Nat) (h : Reads c (b.contents ++ more) pending) :
    ∃ pending', Reads (readTurns closes fuel c b).1
        ((readTurns closes fuel c b).2.1.contents ++ more) pending' ∧
      pending.map delivery = (readTurns closes fuel c b).2.2 ++ pending'.map delivery := by
  induction fuel generalizing c b pending with
  | zero => exact ⟨pending, h, rfl⟩
  | succ fuel ih =>
    cases hturn : readTurn closes c b with
    | none =>
      simp only [readTurns, hturn]
      exact ⟨pending, h, rfl⟩
    | some t =>
      obtain ⟨c', b', events⟩ := t
      obtain ⟨pending', hreads, hout⟩ := Reads.turn hopen h hturn
      obtain ⟨pending'', hreads', hout'⟩ := ih hreads
      simp only [readTurns, hturn]
      exact ⟨pending'', hreads', by rw [hout, hout', append_assoc]⟩

omit hopen in
theorem settle_of_live (h : c.Live) : c.settle = c := by
  have hmark : ¬ (c.status = .running ∧ c.mark = true) := by
    rw [h.2]
    simp
  rw [Reader.settle, if_neg hmark]

theorem Reads.arrive (h : Reads c (b.contents ++ (chunk ++ more)) pending) :
    ∃ pending', Reads (arrive closes c b chunk).1
        ((arrive closes c b chunk).2.1.contents ++ more) pending' ∧
      pending.map delivery = (arrive closes c b chunk).2.2 ++ pending'.map delivery ∧
      readTurn closes (arrive closes c b chunk).1 (arrive closes c b chunk).2.1 = none := by
  have hheader : c.header ≠ .none := by
    rw [h.header]
    simp
  have hcontents : (bufferAppend b (DataBuffer.ofChunk chunk)).contents = b.contents ++ chunk := by
    rw [contents_bufferAppend, DataBuffer.unread_ofChunk]
  rw [← append_assoc, ← hcontents] at h
  have hquiet := readTurns_quiet closes
    (rank c (bufferAppend b (DataBuffer.ofChunk chunk)) + 1) hheader (Nat.lt_succ_self _)
  obtain ⟨pending', hreads, hout⟩ :=
    Reads.turns hopen (rank c (bufferAppend b (DataBuffer.ofChunk chunk)) + 1) h
  rw [ReadPath.arrive, if_pos h.live.1, readComplete, if_neg hheader]
  simp only [settle_of_live hreads.live]
  exact ⟨pending', hreads, hout, hquiet⟩

theorem Reads.arriveAll (chunks : List Bytes)
    (h : Reads c (b.contents ++ chunks.flatten) pending) (hquiet : readTurn closes c b = none) :
    ∃ pending', Reads (arriveAll closes chunks c b).1
        (arriveAll closes chunks c b).2.1.contents pending' ∧
      pending.map delivery = (arriveAll closes chunks c b).2.2 ++ pending'.map delivery ∧
      readTurn closes (arriveAll closes chunks c b).1 (arriveAll closes chunks c b).2.1 = none := by
  induction chunks generalizing c b pending with
  | nil =>
    rw [flatten_nil, append_nil] at h
    exact ⟨pending, h, rfl, hquiet⟩
  | cons chunk chunks ih =>
    obtain ⟨pending', hreads, hout, hquiet'⟩ := Reads.arrive hopen h
    obtain ⟨pending'', hreads', hout', hquiet''⟩ := ih hreads hquiet'
    refine ⟨pending'', hreads', ?_, hquiet''⟩
    rw [hout, hout', ← append_assoc]
    rfl

omit hopen in
theorem Reads.finished (h : Reads c b.contents pending) (hquiet : readTurn closes c b = none) :
    pending = [] ∧ c.state = .head ∧ b.contents = [] := by
  obtain ⟨hlive, hheader, hsendable, hexpects⟩ := h
  by_cases hstate : c.state = .head
  · rw [Expects, hstate] at hexpects
    cases pending with
    | nil => exact ⟨rfl, hstate, hexpects⟩
    | cons payload rest =>
      have hlong : c.header.size ≤ b.contents.length := by
        rw [hexpects, frames_cons, hheader, length_append, length_leBytes, Header.size]
        omega
      obtain ⟨b', hturn, _⟩ := readTurn_header closes hlive hstate hlong
      cases hquiet.symm.trans hturn
  · have hbody := state_body hstate
    rw [Expects, hbody] at hexpects
    obtain ⟨payload, rest, rfl, hneed, hunread⟩ := hexpects
    have hpayload := hsendable payload mem_cons_self
    have hlong : toUnsigned 64 c.need ≤ b.contents.length := by
      rw [hneed, size_of_need hpayload, hunread, length_append]
      omega
    obtain ⟨b', hturn, _⟩ :=
      readTurn_packet closes hlive hbody hlong (by rw [hneed]; exact not_large hpayload)
    cases hquiet.symm.trans hturn

end

/-- Whatever is packed and however its bytes are split, a session with a four-byte header
delivers the payloads in order, empty ones included, and is left between two frames with
nothing in its buffer. -/
theorem rpc_delivered (closes : Nat → Bool) (args : List PackArg) (chunks : List Bytes)
    (hopen : ∀ n, closes n = false) (hsize : ∀ arg ∈ args, arg.data.length ≤ 16 * 1024 * 1024 - 4)
    (hpack : lrpcPackAll args = .ok chunks.flatten) : (runChunks closes .dword chunks).2.2 =
        args.map (fun arg => .data arg.data arg.data.length) ∧
      (runChunks closes .dword chunks).1.status = .running ∧
      (runChunks closes .dword chunks).1.state = .head ∧
      evSessionInputSize (runChunks closes .dword chunks).2.1 = 0 := by
  have hsendable : ∀ payload ∈ args.map PackArg.data, Sendable payload := by
    intro payload hmem
    obtain ⟨arg, harg, rfl⟩ := mem_map.mp hmem
    exact hsize arg harg
  have hstart : Reads (Reader.fresh .dword) (EvBuffer.empty.contents ++ chunks.flatten)
      (args.map PackArg.data) := by
    refine ⟨⟨rfl, rfl⟩, rfl, hsendable, ?_⟩
    exact lrpcPackAll_eq hpack
  obtain ⟨pending, hreads, hout, hquiet⟩ :=
    Reads.arriveAll hopen chunks hstart (readTurn_head_wait closes ⟨rfl, rfl⟩ rfl (by decide))
  obtain ⟨rfl, hstate, hempty⟩ := hreads.finished hquiet
  rw [map_nil, append_nil, map_map] at hout
  refine ⟨hout.symm, hreads.live.1, hstate, ?_⟩
  rw [evSessionInputSize, ← EvBuffer.length_contents]
  exact congrArg List.length hempty

/-- An empty payload between two others, in chunks that cut a header and a payload. -/
theorem rpc_delivered_split : (runChunks (fun _ => false) .dword
        [[6, 0], [0, 0, 1, 2, 4, 0, 0], [0, 7, 0, 0, 0, 3], [4, 5]]).2.2 =
      [.data [1, 2] 2, .data [] 0, .data [3, 4, 5] 3] :=
  (rpc_delivered (fun _ => false) [.text [1, 2], .block [], .text [3, 4, 5]]
    [[6, 0], [0, 0, 1, 2, 4, 0, 0], [0, 7, 0, 0, 0, 3], [4, 5]] (fun _ => rfl)
    (by decide) (by decide)).1

end EventLua.LuaEv.ReadPath
