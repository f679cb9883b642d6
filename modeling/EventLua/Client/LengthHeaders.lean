import EventLua.Client.ReadMachine
import EventLua.Foundation.HeaderFrames

/-!
The length headers of the packets in both directions. `lpacket_pack` and
`client_manager_send` copy the two low bytes of a `size_t` and refuse no size, so
the header wraps around for the sizes that do not fit.
-/
namespace EventLua.Client
open List Outcome

/-- The argument a message is taken from: a string, a pointer with a size that it covers, or a
value of another type. -/
inductive Payload where
  | string (data : Bytes)
  | lightuserdata (data : Bytes)
  | other (typename : String)

def Payload.data : Payload → Outcome Bytes
  | .string data | .lightuserdata data => .ok data
  | .other typename => .error (.raised ("unkown type:" ++ typename))

/-- `lpacket_pack` with the type of its argument. -/
def lpacketPackArgument (packet : Packet) (id : Int) (payload : Payload) :
    Outcome (Bytes × Packet) := do
  let data ← payload.data
  return lpacketPack packet id data

def clientManagerSend (messageId : Int) (data : Bytes) : Bytes :=
  let total := data.length + 4
  leBytes 2 total ++ leBytes 2 (toUnsigned 32 messageId) ++ data

def lclientManagerSend (listed : Int → Bool) (clientId messageId : Int) (payload : Payload) :
    Outcome Bytes :=
  if listed clientId = false then
    .error (.raised ("client manager send failed,no such client:" ++ toString clientId))
  else do
    let data ← payload.data
    if data.length = 0 then
      .error (.raised "client manager send failed,size is zero")
    else
      return clientManagerSend messageId data

inductive Request where
  | pack (id : Int) (payload : Payload)
  | send (clientId messageId : Int) (payload : Payload)

def Request.perform (listed : Int → Bool) (packet : Packet) : Request → Outcome (Bytes × Packet)
  | .pack id payload => lpacketPackArgument packet id payload
  | .send clientId messageId payload => do
      let mb ← lclientManagerSend listed clientId messageId payload
      return (mb, packet)

def sent (listed : Int → Bool) : Packet → List Request → List Bytes
  | _, [] => []
  | packet, request :: requests =>
    match request.perform listed packet with
    | .error _ => sent listed packet requests
    | .ok (mb, packet) => mb :: sent listed packet requests

def Request.Fits (listed : Int → Bool) : Request → Prop
  | .pack _ payload => ∀ data, payload.data = .ok data → data.length + 8 ≤ 65535
  | .send clientId _ payload =>
    listed clientId = true → ∀ data, payload.data = .ok data → data.length + 4 ≤ 65535

variable (packet : Packet)

theorem length_lpacketPack (id : Int) (data : Bytes) :
    (lpacketPack packet id data).1.length = data.length + 8 := by
  simp only [lpacketPack, length_append, length_leBytes, length_scramble, length_packetPlain]
  omega

theorem header_lpacketPack (id : Int) (data : Bytes) :
    leNat ((lpacketPack packet id data).1.take 2) = (data.length + 8) % 65536 :=
  header_leBytes 2 _ _

theorem headed_lpacketPack (id : Int) (data : Bytes) :
    Headed 2 (lpacketPack packet id data).1 ↔ data.length + 8 ≤ 65535 := by
  rw [Headed, header_lpacketPack, length_lpacketPack]
  omega

variable (messageId : Int)

variable (data : Bytes)

theorem length_clientManagerSend : (clientManagerSend messageId data).length = data.length + 4 := by
  simp only [clientManagerSend, length_append, length_leBytes]
  omega

theorem header_clientManagerSend :
    leNat ((clientManagerSend messageId data).take 2) = (data.length + 4) % 65536 := by
  rw [clientManagerSend, append_assoc]
  exact header_leBytes 2 _ _

theorem headed_clientManagerSend :
    Headed 2 (clientManagerSend messageId data) ↔ data.length + 4 ≤ 65535 := by
  rw [Headed, header_clientManagerSend, length_clientManagerSend]
  omega

section
variable {packet} {mb : Bytes}

theorem lclientManagerSend_eq_ok {clientId messageId : Int} {payload : Payload} :
    lclientManagerSend listed clientId messageId payload = .ok mb ↔
      listed clientId = true ∧ ∃ data, payload.data = .ok data ∧ data ≠ [] ∧
        clientManagerSend messageId data = mb := by
  rw [lclientManagerSend]
  cases listed clientId with
  | false => simp
  | true =>
    rw [if_neg (by decide), bind_eq_ok]
    refine ⟨?_, ?_⟩
    · rintro ⟨data, hdata, hmb⟩
      split at hmb
      next => cases hmb
      next hsize =>
        exact ⟨rfl, data, hdata, fun hnil => hsize (by rw [hnil]; rfl), Except.ok.inj hmb⟩
    · rintro ⟨-, data, hdata, hne, hmb⟩
      exact ⟨data, hdata, by rw [if_neg (mt length_eq_zero_iff.mp hne), ← hmb]; rfl⟩

theorem fits_iff (packet : Packet) (request : Request) : request.Fits listed ↔
      ∀ mb next, request.perform listed packet = .ok (mb, next) → Headed 2 mb := by
  cases request with
  | pack id payload =>
    simp only [Request.Fits, Request.perform, lpacketPackArgument, bind_eq_ok]
    refine ⟨?_, ?_⟩
    · rintro h mb next ⟨data, hdata, hpack⟩
      obtain rfl : (lpacketPack packet id data).1 = mb := congrArg Prod.fst (Except.ok.inj hpack)
      exact (headed_lpacketPack packet id data).mpr (h data hdata)
    · intro h data hdata
      exact (headed_lpacketPack packet id data).mp (h _ _ ⟨data, hdata, rfl⟩)
  | send clientId messageId payload =>
    simp only [Request.Fits, Request.perform, bind_eq_ok, lclientManagerSend_eq_ok]
    refine ⟨?_, ?_⟩
    · rintro h mb next ⟨mb', ⟨hlisted, data, hdata, -, rfl⟩, hpair⟩
      obtain rfl := congrArg Prod.fst (Except.ok.inj hpair)
      exact (headed_clientManagerSend messageId data).mpr (h hlisted data hdata)
    · intro h hlisted data hdata
      cases data with
      | nil => decide
      | cons b bs =>
        exact (headed_clientManagerSend messageId (b :: bs)).mp
          (h _ packet ⟨_, ⟨hlisted, _, hdata, cons_ne_nil b bs, rfl⟩, rfl⟩)

theorem headed_sent_iff (packet : Packet) (requests : List Request) :
    (∀ mb ∈ sent listed packet requests, Headed 2 mb) ↔
      ∀ request ∈ requests, request.Fits listed := by
  induction requests generalizing packet with
  | nil => simp [sent]
  | cons request requests ih =>
    rw [forall_mem_cons, fits_iff packet, sent]
    cases hperform : request.perform listed packet with
    | error fault => simp [ih]
    | ok made =>
      obtain ⟨mb, next⟩ := made
      rw [forall_mem_cons, ih]
      refine and_congr_left fun _ => ⟨?_, fun h => h mb next rfl⟩
      rintro hmb _ _ ⟨rfl, rfl⟩
      exact hmb

theorem long_of_mem_sent {requests : List Request}
    (h : mb ∈ sent listed packet requests) : 3 ≤ mb.length := by
  induction requests generalizing packet with
  | nil => cases h
  | cons request requests ih =>
    rw [sent] at h
    cases hperform : request.perform listed packet with
    | error fault =>
      rw [hperform] at h
      exact ih h
    | ok made =>
      obtain ⟨first, next⟩ := made
      rw [hperform] at h
      rcases mem_cons.mp h with rfl | hlater
      · cases request with
        | pack id payload =>
          obtain ⟨data, _, hpack⟩ := bind_eq_ok.mp hperform
          obtain rfl := congrArg Prod.fst (Except.ok.inj hpack)
          rw [length_lpacketPack]
          omega
        | send clientId messageId payload =>
          obtain ⟨mb', hsend, hpair⟩ := bind_eq_ok.mp hperform
          obtain rfl := congrArg Prod.fst (Except.ok.inj hpair)
          obtain ⟨_, data, _, _, rfl⟩ := lclientManagerSend_eq_ok.mp hsend
          rw [length_clientManagerSend]
          omega
      · exact ih hlater

end

section
variable (env : Surroundings)

/-- In front of a packet with an honest header, `read_complete` takes the header and then the
packet: it is gone, or it is in front of what follows. -/
theorem drain_headed (c : EvClient) (hrun : c.status = .running) (hmark : c.mark = false)
    (hneed : c.need = 0) (hmb : Headed 2 mb) (hlong : 3 ≤ mb.length) (rest : Bytes) :
    ∃ next out, (machine env).drain c (mb ++ rest) =
        (Progress.mk next rest out).andThen (machine env).drain ∧
      (next.status = .running → next.need = 0) := by
  obtain ⟨hwidth, hhead⟩ := hmb
  have hlt := leNat_lt (mb.take 2)
  rw [length_take, Nat.min_eq_left hwidth] at hlt
  have hwanted : c.wanted = 2 := if_pos hneed
  let waiting : EvClient := { c with need := mb.length - 2 }
  have htake : take env c (mb.take 2) = (waiting, []) := by
    have hpos : ¬ (leNat (mb.take 2) : Int) - 2 ≤ 0 := by omega
    have hmax : ¬ (leNat (mb.take 2) : Int) - 2 > maxSegment := by rw [maxSegment]; omega
    have hnat : ((leNat (mb.take 2) : Int) - 2).toNat = mb.length - 2 := by omega
    rw [take, if_pos hneed]
    simp only [takeHeader, if_neg hpos, if_neg hmax, hnat, waiting]
  have hheader := machine_step_append env c (mb.take 2) (mb.drop 2 ++ rest) hrun hmark
    (by rw [length_take, Nat.min_eq_left hwidth, hwanted])
  rw [← append_assoc, take_append_drop, htake] at hheader
  have hbody : (mb.drop 2).length = waiting.wanted := by
    rw [length_drop, EvClient.wanted, if_neg (by simp only [waiting]; omega)]
  have hframe := machine_step_append env waiting (mb.drop 2) rest hrun hmark hbody
  refine ⟨(take env waiting (mb.drop 2)).1, (take env waiting (mb.drop 2)).2, ?_, ?_⟩
  · rw [(machine env).drain_of_some hheader, Progress.mk_andThen,
      (machine env).drain_of_some hframe]
  · rw [take, if_neg (by simp only [waiting]; omega), takeFrame]
    dsimp only
    split
    next => exact fun h => by cases h
    next => exact fun _ => rfl

theorem drain_headed_all (packets : List Bytes) (c : EvClient)
    (hneed : c.status = .running → c.need = 0) (h : ∀ mb ∈ packets, Headed 2 mb ∧ 3 ≤ mb.length) :
    ∃ n, ((machine env).drain c packets.flatten).rest = (packets.drop n).flatten := by
  induction packets generalizing c with
  | nil =>
    refine ⟨0, ?_⟩
    rw [flatten_nil, (machine env).drain_of_none (machine_stuck env c [] fun _ _ => wanted_pos c)]
    rfl
  | cons mb packets ih =>
    by_cases hhalt : c.Halted
    · exact ⟨0, by rw [(machine env).drain_of_none (machine_halted env c _ hhalt)]; rfl⟩
    · obtain ⟨hrun, hmark⟩ := not_halted hhalt
      obtain ⟨hmb, hlong⟩ := h mb mem_cons_self
      obtain ⟨next, out, hdrain, hnext⟩ :=
        drain_headed env c hrun hmark (hneed hrun) hmb hlong packets.flatten
      obtain ⟨n, hrest⟩ := ih next hnext fun b hb => h b (mem_cons_of_mem _ hb)
      exact ⟨n + 1, by rw [flatten_cons, hdrain, Progress.andThen, hrest]; rfl⟩

end

/-- Every header is the length of its packet, a reader of headers finds the packets, and
`read_complete`, which may give up on a packet, gives up between two packets. -/
structure Aligned (packets : List Bytes) : Prop where
  headers : ∀ mb ∈ packets, leNat (mb.take 2) = mb.length
  found : (headerReader 2).drain () packets.flatten = ⟨(), [], packets⟩
  stops : ∀ env, ∃ n,
    ((machine env).drain EvClient.fresh packets.flatten).rest = (packets.drop n).flatten

/-- The headers of a sequence of packets are honest, and its readers stay aligned, exactly when
the length of every packet fits into 16 bits. -/
theorem headers_honest_iff (listed : Int → Bool) (packet : Packet) (requests : List Request) :
    Aligned (sent listed packet requests) ↔ ∀ request ∈ requests, request.Fits listed := by
  rw [← headed_sent_iff packet]
  refine ⟨?_, ?_⟩
  · intro h mb hmem
    have hout := headed_of_mem_drain 2 () (sent listed packet requests).flatten
    rw [h.found] at hout
    exact hout mb hmem
  · intro h
    refine ⟨fun mb hmem => (h mb hmem).2, headerReader_drain (by decide) _ h, fun env => ?_⟩
    exact drain_headed_all env _ EvClient.fresh (fun _ => rfl) fun mb hmem =>
      ⟨h mb hmem, long_of_mem_sent hmem⟩

theorem packed_headed_zero (h : data.length = 65528) :
    ∃ mb next, lpacketPackArgument lpacketNew 1 (.string data) = .ok (mb, next) ∧
      mb.length = 65536 ∧ leNat (mb.take 2) = 0 :=
  ⟨(lpacketPack lpacketNew 1 data).1, (lpacketPack lpacketNew 1 data).2, rfl,
    by rw [length_lpacketPack, h], by rw [header_lpacketPack, h]⟩

theorem sent_headed_zero (h : data.length = 65532) :
    ∃ mb, lclientManagerSend (fun _ => true) 1 1 (.string data) = .ok mb ∧
      mb.length = 65536 ∧ leNat (mb.take 2) = 0 := by
  have hne : data ≠ [] := by
    intro hnil
    rw [hnil, length_nil] at h
    omega
  exact ⟨clientManagerSend 1 data, lclientManagerSend_eq_ok.mpr ⟨rfl, data, rfl, hne, rfl⟩,
    by rw [length_clientManagerSend, h], by rw [header_clientManagerSend, h]⟩

/-- The smallest payloads whose packets do not fit: both get the header 0. -/
theorem long_payloads_headed_zero :
    (∃ mb next, lpacketPackArgument lpacketNew 1 (.string (List.replicate 65528 0)) =
        .ok (mb, next) ∧ mb.length = 65536 ∧ leNat (mb.take 2) = 0) ∧
      ∃ mb, lclientManagerSend (fun _ => true) 1 1 (.string (List.replicate 65532 0)) = .ok mb ∧
        mb.length = 65536 ∧ leNat (mb.take 2) = 0 :=
  ⟨packed_headed_zero _ length_replicate, sent_headed_zero _ length_replicate⟩

end EventLua.Client
