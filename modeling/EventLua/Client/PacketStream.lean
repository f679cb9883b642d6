import EventLua.Client.ReadMachine

/-!
Packed messages come back. A client whose seed and order agree with those of the
packet object takes one packed message in two turns of its loop and agrees again.
-/
namespace EventLua.Client
open List

theorem halfword_append (front : Bytes) (v : Nat) (back : Bytes) :
    halfword (front ++ (leBytes 2 v ++ back)) front.length = v % 65536 := by
  have low : (UInt8.ofNat v).toNat = v % 256 := by simp
  have high : (UInt8.ofNat (v / 256)).toNat = v / 256 % 256 := by simp
  have hlow : (front ++ (leBytes 2 v ++ back)).getD front.length 0 = UInt8.ofNat v := by
    simp [leBytes]
  have hhigh : (front ++ (leBytes 2 v ++ back)).getD (front.length + 1) 0 =
      UInt8.ofNat (v / 256) := by
    simp [leBytes, getD_eq_getElem?_getD]
  rw [halfword, hlow, hhigh, low, high]
  omega

def delivery (message : Int × Bytes) : Event :=
  .data message.1.toNat message.2 (message.2.length + 6) message.2.length

structure Sendable (message : Int × Bytes) : Prop where
  id_nonneg : 0 ≤ message.1
  id_lt : message.1 < 65536
  fits : message.2.length + 8 ≤ 65535

theorem takeHeader_pack (c : EvClient) (size : Nat) (h : size + 8 ≤ 65535) :
    takeHeader c (leBytes 2 (size + 8)) = ({ c with need := size + 6 }, []) := by
  have hneed : ((leNat (leBytes 2 (size + 8)) : Nat) : Int) - 2 = size + 6 := by
    rw [leNat_leBytes_of_lt 2 _ (by omega)]
    omega
  have hpos : ¬ (size : Int) + 6 ≤ 0 := by omega
  have hmax : ¬ (size : Int) + 6 > maxSegment := by rw [maxSegment]; omega
  have hnat : ((size : Int) + 6).toNat = size + 6 := by omega
  simp [takeHeader, hneed, if_neg hpos, if_neg hmax, hnat]

theorem packetPlain_fields (packet : Packet) {id : Int} {data : Bytes} (back : Bytes)
    (h : Sendable (id, data)) :
    halfword (packetPlain packet id data ++ back) 2 = packet.worder.toNat ∧
      halfword (packetPlain packet id data ++ back) 4 = id.toNat ∧
      ((packetPlain packet id data ++ back).drop 6).take data.length = data := by
  have hid := h.id_nonneg
  have hlt := h.id_lt
  have hworder := packet.worder.toNat_lt
  have hsum := halfword_append (leBytes 2 (checksum (packetBody packet id data)))
    packet.worder.toNat (leBytes 2 (toUnsigned 32 id) ++ data ++ back)
  have hnum := halfword_append
    (leBytes 2 (checksum (packetBody packet id data)) ++ leBytes 2 packet.worder.toNat)
    (toUnsigned 32 id) (data ++ back)
  have hword : toUnsigned 32 id = id.toNat :=
    toUnsigned_of_range 32 id hid (by simp only at hlt; omega)
  refine ⟨?_, ?_, ?_⟩
  · rw [length_leBytes, Nat.mod_eq_of_lt hworder] at hsum
    simpa only [packetPlain, packetBody, append_assoc] using hsum
  · rw [length_append, length_leBytes, length_leBytes, hword,
      Nat.mod_eq_of_lt (by simp only at hid hlt; omega)] at hnum
    simpa only [packetPlain, packetBody, hword, append_assoc] using hnum
  · simp [packetPlain, packetBody, leBytes]

variable (env : Surroundings)

theorem takeFrame_pack (packet : Packet) (id : Int) (data : Bytes)
    (calls : Nat) (h : Sendable (id, data)) :
    takeFrame env { idle packet.wseed packet.worder calls with need := data.length + 6 }
        (scramble packet.wseed (packetPlain packet id data)).1 =
      ({ idle (lpacketPack packet id data).2.wseed (lpacketPack packet id data).2.worder (calls + 1)
          with mark := env.closes calls }, [delivery (id, data)]) := by
  have hfits := h.fits
  obtain ⟨horder, hid, hpayload⟩ := packetPlain_fields packet
    ((env.stale calls).drop (packetPlain packet id data).length) h
  have hsum : checksum (packetPlain packet id data) = 0 :=
    checksum_sealed _ (by simp only [length_packetBody] at hfits ⊢; omega)
  have hsize : toUnsigned 64 (((data.length + 6 : Nat) : Int) - 6) = data.length := by
    rw [toUnsigned_of_range 64 _ (by omega) (by simp only at hfits; omega)]
    omega
  simp only [takeFrame, idle, unscramble_scramble, horder, hid, hsum, hsize, hpayload, delivery,
    lpacketPack, UInt16.ofNat_toNat, ne_eq, not_true_eq_false, or_self, if_false]

theorem drain_pack (packet : Packet) (id : Int) (data rest : Bytes)
    (calls : Nat) (h : Sendable (id, data)) :
    (machine env).drain (idle packet.wseed packet.worder calls)
        ((lpacketPack packet id data).1 ++ rest) = (Progress.mk
        { idle (lpacketPack packet id data).2.wseed (lpacketPack packet id data).2.worder
            (calls + 1) with mark := env.closes calls }
        rest [delivery (id, data)]).andThen (machine env).drain := by
  let waiting := { idle packet.wseed packet.worder calls with need := data.length + 6 }
  let mb := (scramble packet.wseed (packetPlain packet id data)).1
  have hbytes : (lpacketPack packet id data).1 ++ rest =
      leBytes 2 (data.length + 8) ++ (mb ++ rest) := by
    simp [lpacketPack, mb]
  have hheader : (machine env).step (idle packet.wseed packet.worder calls)
      (leBytes 2 (data.length + 8) ++ (mb ++ rest)) = some ⟨waiting, mb ++ rest, []⟩ := by
    rw [machine_step_append env _ _ _ rfl rfl (by rw [length_leBytes]; rfl), take_idle,
      takeHeader_pack _ _ h.fits]
  have hframe : (machine env).step waiting (mb ++ rest) =
      some ⟨{ idle (lpacketPack packet id data).2.wseed (lpacketPack packet id data).2.worder
        (calls + 1) with mark := env.closes calls }, rest, [delivery (id, data)]⟩ := by
    have hlen : mb.length = waiting.wanted := by
      simp only [mb, length_scramble, length_packetPlain, waiting, EvClient.wanted]
      rfl
    rw [machine_step_append env waiting mb rest rfl rfl hlen, take, if_neg (by simp [waiting]),
      takeFrame_pack env packet id data calls h]
  rw [hbytes, (machine env).drain_of_some hheader, Progress.mk_andThen,
    (machine env).drain_of_some hframe]

theorem drain_packAll (messages : List (Int × Bytes)) (packet : Packet)
    (calls : Nat) (hopen : ∀ n, env.closes n = false) (h : ∀ message ∈ messages, Sendable message) :
    ((machine env).drain (idle packet.wseed packet.worder calls) (packAll packet messages)).out =
        messages.map delivery ∧ ∃ seed order calls',
        ((machine env).drain (idle packet.wseed packet.worder calls)
          (packAll packet messages)).state = idle seed order calls' := by
  induction messages generalizing packet calls with
  | nil =>
    have hquiet : (machine env).step (idle packet.wseed packet.worder calls) [] = none :=
      machine_stuck env _ _ fun _ _ => Nat.zero_lt_two
    rw [packAll, (machine env).drain_of_none hquiet]
    exact ⟨rfl, _, _, _, rfl⟩
  | cons message messages ih =>
    obtain ⟨id, data⟩ := message
    obtain ⟨hout, hstate⟩ := ih (lpacketPack packet id data).2 (calls + 1)
      fun m hm => h m (mem_cons_of_mem _ hm)
    have hsend := h (id, data) mem_cons_self
    have hnext := drain_pack env packet id data (packAll (lpacketPack packet id data).2 messages)
      calls hsend
    rw [hopen calls] at hnext
    rw [packAll, hnext]
    exact ⟨congrArg (delivery (id, data) :: ·) hout, hstate⟩

/-- Whatever is packed in order by one packet object and however its bytes are
split, a fresh client delivers the messages in order and stays open. -/
theorem packets_delivered (env : Surroundings) (messages : List (Int × Bytes))
    (chunks : List Bytes) (hopen : ∀ n, env.closes n = false)
    (hmessages : ∀ message ∈ messages, Sendable message)
    (hchunks : chunks.flatten = packAll lpacketNew messages) :
    (runChunks env chunks).2 = messages.map delivery ∧
      (runChunks env chunks).1.status = .running := by
  obtain ⟨hout, seed, order, calls, hstate⟩ :=
    drain_packAll env messages lpacketNew 0 hopen hmessages
  have hfresh : EvClient.fresh = idle lpacketNew.wseed lpacketNew.worder 0 := rfl
  rw [runChunks_drain, hchunks, hfresh, hstate]
  exact ⟨hout, rfl⟩

/-- Two messages in three chunks, the second cut inside the first header. -/
theorem packets_delivered_split : (runChunks ⟨fun _ => false, fun _ => []⟩
        [(packAll lpacketNew [(7, [1, 2, 3]), (300, [])]).take 1, [],
          (packAll lpacketNew [(7, [1, 2, 3]), (300, [])]).drop 1]).2 =
      [.data 7 [1, 2, 3] 9 3, .data 300 [] 6 0] := by
  have hsend : ∀ message ∈ [((7 : Int), ([1, 2, 3] : Bytes)), (300, [])], Sendable message := by
    simp only [forall_mem_cons]
    exact ⟨⟨by decide, by decide, by decide⟩, ⟨by decide, by decide, by decide⟩, by simp⟩
  exact (packets_delivered ⟨fun _ => false, fun _ => []⟩ [(7, [1, 2, 3]), (300, [])] _
    (fun _ => rfl) hsend (by simp only [flatten_cons, flatten_nil, nil_append, append_nil,
      take_append_drop])).1

end EventLua.Client
