import EventLua.Serialize.Unpack

/-!
Reading back what was packed, value by value. `Reads` is the counterpart of `Writes`:
a decoder that stands before certain bytes takes exactly these and returns a good
value, unless there is no room for it.
-/
namespace EventLua.Serialize
open List

def Crowded : Stop → Prop
  | .luaStack => True
  | .cStack => True
  | .memory => True
  | _ => False

def Reads {α : Type} (room : Prop) (bytes : Bytes) (d : Decode α) (good : α → Prop) : Prop :=
  ∀ rest,
    (room ∧ ∃ a, d.scan (bytes ++ rest) = .ok (a, rest) ∧ good a) ∨
    (¬ room ∧ ∃ reason, Crowded reason ∧ d.scan (bytes ++ rest) = .error reason)

section
variable {α β : Type} {room room' : Prop} {good : α → Prop}

theorem reads_ret (a : α) (h : good a) : Reads True [] (.ret a) good :=
  fun _ => .inl ⟨trivial, a, rfl, h⟩

theorem Reads.congr (h : Reads room bytes d good) (hroom : room ↔ room') :
    Reads room' bytes d good :=
  propext hroom ▸ h

theorem Reads.imp {good' : α → Prop} (h : Reads room bytes d good)
    (himp : ∀ a, good a → good' a) : Reads room bytes d good' := by
  intro rest
  rcases h rest with ⟨hroom, a, hscan, ha⟩ | hcrowded
  · exact .inl ⟨hroom, a, hscan, himp a ha⟩
  · exact .inr hcrowded

variable {good' : β → Prop}

theorem Reads.bind (h : Reads room bytes d good)
    (hf : ∀ a, good a → Reads room' bytes' (f a) good') :
    Reads (room ∧ room') (bytes ++ bytes') (d >>= f) good' := by
  intro rest
  rw [Decode.scan_bind, append_assoc]
  rcases h (bytes' ++ rest) with ⟨hroom, a, hscan, ha⟩ | ⟨hno, reason, hcrowded, hscan⟩
  · rw [hscan]
    rcases hf a ha rest with ⟨hroom', b, hb, hgood⟩ | ⟨hno, reason, hcrowded, hstop⟩
    · exact .inl ⟨⟨hroom, hroom'⟩, b, hb, hgood⟩
    · exact .inr ⟨fun hr => hno hr.2, reason, hcrowded, hstop⟩
  · rw [hscan]
    exact .inr ⟨fun hr => hno hr.1, reason, hcrowded, rfl⟩

theorem Reads.map {f : α → β} (h : Reads room bytes d good)
    (hf : ∀ a, good a → good' (f a)) : Reads room bytes (d >>= fun a => pure (f a)) good' := by
  have hbind := h.bind fun a ha => reads_ret (f a) (hf a ha)
  rw [append_nil] at hbind
  exact hbind.congr (iff_of_eq (and_true room))

end

end EventLua.Serialize
