import EventLua.Foundation.LittleEndian
import EventLua.Foundation.MachineInteger

/-!
The table in which the protocol parser finds protocols by name. The chains grow at the front
and are linked anew into twice as many when one gets long. A query compares no more bytes than
it has itself, so a name that begins with the queried one is taken for it when both lead to the
same chain.
-/
namespace EventLua.ProtocolParser
open List

structure CString where
  bytes : Bytes
  ended : (0 : UInt8) ∉ bytes
deriving DecidableEq

/-- The loop of `strhash`; `even` tells the bytes with an even number from the others. -/
def hashLoop (even : Bool) (hash : BitVec 64) : Bytes → BitVec 64
  | [] => hash
  | byte :: str =>
    let ch := byte.toBitVec.signExtend 64
    hashLoop (!even)
      (if even then hash ^^^ (hash <<< 7 ^^^ ch ^^^ hash >>> 3)
      else hash ^^^ ~~~(hash <<< 11 ^^^ ch ^^^ hash >>> 5)) str

def strhash (str : CString) : Nat := (hashLoop true 0 str.bytes).toNat

structure ProtocolTable (π : Type) where
  size : Nat
  pos : 0 < size
  /-- The chain of each slot. -/
  slots : Nat → List π

variable {π : Type}

def ProtocolTable.chain (t : ProtocolTable π) (name : CString) : List π :=
  t.slots (strhash name % t.size)

section
variable (name : π → CString)

def link (size : Nat) (slots : Nat → List π) (proto : π) : Nat → List π :=
  Function.update slots (strhash (name proto) % size)
    (proto :: slots (strhash (name proto) % size))

def rehashTable (t : ProtocolTable π) (nsize : Nat) (pos : 0 < nsize) : ProtocolTable π :=
  ⟨nsize, pos, (List.range t.size).foldl
    (fun nslots i => (t.slots i).foldl (link name nsize) nslots) fun _ => []⟩

/-- The size is an `int`. -/
def addProtocol (t : ProtocolTable π) (proto : π) : Outcome (ProtocolTable π) :=
  let linked := { t with slots := link name t.size t.slots proto }
  if t.chain (name proto) = [] then .ok linked
  else if (linked.chain (name proto)).length < t.size / 8 then .ok linked
  else if 2 ^ 31 ≤ t.size * 2 then .error .undefined
  else .ok (rehashTable name linked (t.size * 2) (Nat.mul_pos t.pos Nat.two_pos))

end

/-- Each of the protocols is in the chain of its name, and there is nothing else. -/
def Holds (name : π → CString) (t : ProtocolTable π) (protos : List π) : Prop :=
  ∀ i p, p ∈ t.slots i ↔ p ∈ protos ∧ strhash (name p) % t.size = i

variable {name : π → CString} {t t' : ProtocolTable π} {protos : List π}

variable {p : π} {i size : Nat}

theorem mem_link : p ∈ link name size slots proto i ↔
      p ∈ slots i ∨ p = proto ∧ strhash (name p) % size = i := by
  rw [link, Function.update_apply]
  split
  · next hi =>
    rw [mem_cons, ← hi, or_comm]
    exact or_congr_right ⟨fun hp => ⟨hp, hp ▸ hi.symm⟩, And.left⟩
  · next hi =>
    refine (or_iff_left ?_).symm
    rintro ⟨rfl, hp⟩
    exact hi hp.symm

theorem mem_foldl_link : p ∈ protos.foldl (link name size) slots i ↔
      p ∈ slots i ∨ p ∈ protos ∧ strhash (name p) % size = i := by
  induction protos generalizing slots with
  | nil => simp
  | cons proto protos ih =>
    rw [foldl_cons, ih, mem_link, mem_cons, or_and_right, or_assoc]

section
variable (h : Holds name t protos)
include h

theorem Holds.link (proto : π) :
    Holds name { t with slots := link name t.size t.slots proto } (proto :: protos) := by
  intro i p
  rw [mem_link, h, mem_cons, or_and_right, or_comm]

theorem Holds.rehashTable (pos : 0 < nsize) : Holds name (rehashTable name t nsize pos) protos := by
  intro i p
  rw [ProtocolParser.rehashTable, ← foldl_flatMap, mem_foldl_link, mem_flatMap]
  simp only [not_mem_nil, false_or, List.mem_range, h _ p]
  refine and_congr_left fun _ => ⟨fun ⟨_, _, hp, _⟩ => hp, fun hp => ?_⟩
  exact ⟨_, Nat.mod_lt _ t.pos, hp, rfl⟩

theorem Holds.addProtocol (hadd : addProtocol name t proto = .ok t') :
    Holds name t' (proto :: protos) := by
  have hlinked := h.link proto
  simp only [ProtocolParser.addProtocol] at hadd
  split at hadd
  · exact Except.ok.inj hadd ▸ hlinked
  split at hadd
  · exact Except.ok.inj hadd ▸ hlinked
  split at hadd
  · cases hadd
  · exact Except.ok.inj hadd ▸ hlinked.rehashTable _

theorem Holds.foldlM {more : List π}
    (hadd : more.foldlM (ProtocolParser.addProtocol name) t = .ok t') :
    Holds name t' (more.reverse ++ protos) := by
  induction more generalizing t protos with
  | nil => exact Except.ok.inj hadd ▸ h
  | cons proto more ih =>
    rw [foldlM_cons, Outcome.bind_eq_ok] at hadd
    obtain ⟨mid, hmid, hrest⟩ := hadd
    rw [reverse_cons, append_assoc]
    exact ih (h.addProtocol hmid) hrest

end

def other : CString := ⟨[98], by decide⟩

end EventLua.ProtocolParser
