import EventLua.Data.Recovery

/-!
A log whose last bytes are missing, as after a crash within an append. The loop of
`log_recover` has no notion of an incomplete record: it reads what is left behind the
complete ones as one more. Where the content is missing or its digest is wrong the whole
recovery fails; a record that lacks only its last newline is applied.
-/
namespace EventLua.Data
open List

variable {κ ν : Type}

variable (c : Codec κ ν)

variable [DecidableEq κ]

section
variable (validate : Bool) (loaded : Key → Outcome (Record κ ν))

end

section
variable {c : Codec κ ν} {disk : Disk} {pairs : Pairs} {disk' : Disk}

end

end EventLua.Data
