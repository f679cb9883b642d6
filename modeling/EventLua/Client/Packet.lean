import EventLua.Foundation.MachineInteger
import EventLua.Foundation.OnesComplement

/-!
Packing client messages. A packet is a length header in the clear, then checksum,
order, id and payload scrambled with a seed that every plain byte advances.
-/
namespace EventLua.Client

def checksum (data : Bytes) : Nat :=
  let sum := wordSum data % 2 ^ 32
  (2 ^ 32 - 1 - foldCarry sum sum) % 2 ^ 16

/-- The loop of `lpacket_pack`: the seed advances by the byte before it is changed. -/
def scramble : UInt8 → Bytes → Bytes × UInt8
  | seed, [] => ([], seed)
  | seed, tmp :: mb =>
    let (rest, last) := scramble (seed + tmp) mb
    ((tmp ^^^ seed) :: rest, last)

/-- The loop of `read_complete`: the seed advances by the byte after it is changed. -/
def unscramble : UInt8 → Bytes → Bytes × UInt8
  | seed, [] => ([], seed)
  | seed, byte :: data =>
    let (rest, last) := unscramble (seed + (byte ^^^ seed)) data
    ((byte ^^^ seed) :: rest, last)

structure Packet where
  worder : UInt16
  wseed : UInt8

def lpacketNew : Packet := ⟨0, 0⟩

def packetBody (packet : Packet) (id : Int) (data : Bytes) : Bytes :=
  leBytes 2 packet.worder.toNat ++ leBytes 2 (toUnsigned 32 id) ++ data

def packetPlain (packet : Packet) (id : Int) (data : Bytes) : Bytes :=
  leBytes 2 (checksum (packetBody packet id data)) ++ packetBody packet id data

def lpacketPack (packet : Packet) (id : Int) (data : Bytes) : Bytes × Packet :=
  let total := data.length + 8
  let (mb, wseed) := scramble packet.wseed (packetPlain packet id data)
  (leBytes 2 total ++ mb, ⟨packet.worder + 1, wseed⟩)

def packAll : Packet → List (Int × Bytes) → Bytes
  | _, [] => []
  | packet, (id, data) :: messages =>
    let (bytes, packet) := lpacketPack packet id data
    bytes ++ packAll packet messages

theorem checksum_eq (data : Bytes) (h : data.length ≤ 65536) :
    ∃ folded, Folded (wordSum data) folded ∧ checksum data = 65535 - folded := by
  have hle := wordSum_le data
  have hsum : wordSum data % 2 ^ 32 = wordSum data := Nat.mod_eq_of_lt (by omega)
  have hfold := foldCarry_folded _ _ (Nat.le_refl (wordSum data))
  have hlt := hfold.lt
  refine ⟨_, hfold, ?_⟩
  rw [checksum, hsum]
  omega

theorem checksum_sealed (body : Bytes) (h : body.length ≤ 65534) :
    checksum (leBytes 2 (checksum body) ++ body) = 0 := by
  obtain ⟨folded, hfolded, hsum⟩ := checksum_eq body (by omega)
  obtain ⟨total, htotal, hzero⟩ := checksum_eq (leBytes 2 (checksum body) ++ body) (by simp; omega)
  rw [wordSum_leBytes_append, hsum, Nat.mod_eq_of_lt (by omega)] at htotal
  rw [hzero, hfolded.complement htotal]

@[simp] theorem length_scramble (seed : UInt8) (bs : Bytes) :
    (scramble seed bs).1.length = bs.length := by
  induction bs generalizing seed with
  | nil => rfl
  | cons b bs ih => simp [scramble, ih]

theorem unscramble_scramble (seed : UInt8) (bs : Bytes) :
    unscramble seed (scramble seed bs).1 = (bs, (scramble seed bs).2) := by
  induction bs generalizing seed with
  | nil => rfl
  | cons b bs ih =>
    have hback : b ^^^ seed ^^^ seed = b := by
      rw [UInt8.xor_assoc, UInt8.xor_self, UInt8.xor_zero]
    simp only [scramble, unscramble, hback, ih]

@[simp] theorem length_packetBody (packet : Packet) (id : Int) (data : Bytes) :
    (packetBody packet id data).length = data.length + 4 := by
  simp [packetBody]; omega

@[simp] theorem length_packetPlain (packet : Packet) (id : Int) (data : Bytes) :
    (packetPlain packet id data).length = data.length + 6 := by
  simp [packetPlain]; omega

end EventLua.Client
