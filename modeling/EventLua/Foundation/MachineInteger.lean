import Mathlib.Tactic.Positivity
import Mathlib.Tactic.Ring

/-!
Conversions between the integer types of C and the outcomes of a C function called from
Lua. A conversion to an unsigned type reduces modulo the width, one to a signed type picks
the representative of the two's complement range. Undefined behaviour is an outcome of its
own, so no theorem can rest on a value that the machine does not promise.
-/
namespace EventLua

def toUnsigned (bits : Nat) (n : Int) : Nat := (n % 2 ^ bits).toNat

def toSigned (bits : Nat) (n : Int) : Int := n.bmod (2 ^ bits)

theorem toUnsigned_of_range (bits : Nat) (n : Int) (h : 0 ≤ n) (hn : n < 2 ^ bits) :
    toUnsigned bits n = n.toNat := by
  rw [toUnsigned, Int.emod_eq_of_lt h hn]

theorem toUnsigned_lt (bits : Nat) (n : Int) : toUnsigned bits n < 2 ^ bits := by
  have hpos : (0 : Int) < 2 ^ bits := by positivity
  have hcast : ((2 ^ bits : Nat) : Int) = 2 ^ bits := by push_cast; rfl
  rw [toUnsigned]
  omega

theorem toUnsigned_mod (wide bits : Nat) (n : Int) (h : bits ≤ wide) :
    toUnsigned wide n % 2 ^ bits = toUnsigned bits n := by
  have hdvd : (2 : Int) ^ bits ∣ 2 ^ wide := pow_dvd_pow 2 h
  have hpos : (0 : Int) < 2 ^ wide := by positivity
  have hnn : 0 ≤ n % 2 ^ wide := Int.emod_nonneg n hpos.ne'
  have key : ((toUnsigned wide n % 2 ^ bits : Nat) : Int) = n % 2 ^ bits := by
    rw [toUnsigned, Int.natCast_mod, Int.toNat_of_nonneg hnn]
    push_cast
    exact Int.emod_emod_of_dvd n hdvd
  have narrow : toUnsigned bits n = (n % 2 ^ bits).toNat := rfl
  rw [narrow, ← key, Int.toNat_natCast]

theorem toSigned_of_range (bits : Nat) (n : Int) (h : -(2 ^ bits) ≤ n) (hn : n < 2 ^ bits) :
    toSigned (bits + 1) n = n := by
  have hp : ((2 ^ (bits + 1) : Nat) : Int) = 2 * 2 ^ bits := by push_cast; ring
  apply Int.bmod_eq_of_le <;> omega

theorem toSigned_lt (bits : Nat) (n : Int) : toSigned (bits + 1) n < 2 ^ bits := by
  have hp : ((2 ^ (bits + 1) : Nat) : Int) = 2 * 2 ^ bits := by push_cast; ring
  have hlt := Int.bmod_lt (x := n) (m := 2 ^ (bits + 1)) (by positivity)
  rw [toSigned]
  omega

theorem toSigned_toUnsigned (bits : Nat) (n : Int) (h : -(2 ^ bits) ≤ n) (hn : n < 2 ^ bits) :
    toSigned (bits + 1) (toUnsigned (bits + 1) n) = n := by
  have hpos : (0 : Int) < 2 ^ (bits + 1) := by positivity
  have hcast : (toUnsigned (bits + 1) n : Int) = n % ((2 ^ (bits + 1) : Nat) : Int) := by
    rw [toUnsigned, Int.toNat_of_nonneg (Int.emod_nonneg n hpos.ne')]
    push_cast
    rfl
  rw [toSigned, hcast, Int.emod_bmod]
  exact toSigned_of_range bits n h hn

/-- How a C function called from Lua can fail: `luaL_error` with its message, a
failed `assert`, or behaviour that the C language does not define. -/
inductive Fault where
  | raised (message : String)
  | aborted
  | undefined
deriving DecidableEq, Repr

abbrev Outcome (α : Type) := Except Fault α

instance {α : Type} [DecidableEq α] : DecidableEq (Outcome α)
  | .ok a, .ok b => decidable_of_iff (a = b) (by simp)
  | .error e, .error f => decidable_of_iff (e = f) (by simp)
  | .ok _, .error _ => isFalse (by simp)
  | .error _, .ok _ => isFalse (by simp)

variable {α β : Type}

@[simp] theorem Outcome.ok_bind (a : α) (f : α → Outcome β) :
    ((.ok a : Outcome α) >>= f) = f a := rfl

@[simp] theorem Outcome.error_bind (e : Fault) (f : α → Outcome β) :
    ((.error e : Outcome α) >>= f) = .error e := rfl

variable {f : α → Outcome β} {x : Outcome α}

theorem Outcome.bind_eq_ok : (x >>= f) = .ok b ↔ ∃ a, x = .ok a ∧ f a = .ok b := by
  cases x with
  | error e | ok a => simp [bind, Except.bind]

theorem Outcome.bind_ne_aborted
    (hx : x ≠ .error .aborted) (hf : ∀ a, x = .ok a → f a ≠ .error .aborted) :
    (x >>= f) ≠ .error .aborted := by
  cases x with
  | error e =>
    rw [Outcome.error_bind]
    intro h
    exact hx (congrArg _ (Except.error.inj h))
  | ok a => exact hf a rfl

end EventLua
