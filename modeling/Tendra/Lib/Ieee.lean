import Mathlib.Algebra.Order.Floor.Semiring
import Mathlib.Data.Rat.Floor
import Mathlib.Tactic.Linarith
import Mathlib.Tactic.Ring

/-!
# The binary interchange formats of IEEE 754

A word of a format is a sign bit, a biased exponent and a fraction. Its datum is
a rational number, an infinity or not a number.
-/

namespace Tendra.Ieee

/-- A format: the widths of the exponent and of the fraction. -/
structure Format where
  ebits : Nat
  fbits : Nat
deriving DecidableEq, Repr

def single : Format := ⟨8, 23⟩

def double : Format := ⟨11, 52⟩

namespace Format

def bias (F : Format) : Nat := 2 ^ (F.ebits - 1) - 1

/-- The number of significant bits, with the hidden one. -/
def precision (F : Format) : Nat := F.fbits + 1

/-- The distance between two neighbouring subnormal numbers. -/
def grid (F : Format) : ℚ := 2 ^ (1 - (F.bias : Int) - F.fbits)

end Format

/-- What a word stands for. -/
inductive Datum
  | finite (q : ℚ)
  | inf (neg : Bool)
  | nan
deriving DecidableEq, Repr

def signed (neg : Bool) (q : ℚ) : ℚ := if neg then -q else q

/-- The datum of a word. -/
def decode (F : Format) (w : Nat) : Datum :=
  let neg : Bool := w / 2 ^ (F.ebits + F.fbits) % 2 = 1
  let e := w / 2 ^ F.fbits % 2 ^ F.ebits
  let m := w % 2 ^ F.fbits
  if e = 2 ^ F.ebits - 1 then if m = 0 then .inf neg else .nan
  else if e = 0 then .finite (signed neg (m * F.grid))
  else .finite (signed neg ((2 ^ F.fbits + m) * 2 ^ ((e : Int) - F.bias - F.fbits)))

/-- A rational number moved towards zero to a multiple of `u`. -/
def truncTo (u q : ℚ) : ℚ := if q < 0 then -(⌊-q / u⌋ * u) else ⌊q / u⌋ * u

/-- A word put together from its fields. -/
def pack (F : Format) (neg : Bool) (e m : Nat) : Nat :=
  (if neg then 1 else 0) * 2 ^ (F.ebits + F.fbits) + e * 2 ^ F.fbits + m

variable {F : Format} {neg : Bool} {e m : Nat}

theorem pack_fields (neg : Bool) (he : e < 2 ^ F.ebits) (hm : m < 2 ^ F.fbits) :
    pack F neg e m / 2 ^ (F.ebits + F.fbits) % 2 = (if neg then 1 else 0) ∧
      pack F neg e m / 2 ^ F.fbits % 2 ^ F.ebits = e ∧ pack F neg e m % 2 ^ F.fbits = m := by
  have hf : 0 < 2 ^ F.fbits := Nat.two_pow_pos _
  have hfirst : pack F neg e m / 2 ^ F.fbits = (if neg then 1 else 0) * 2 ^ F.ebits + e := by
    rw [pack, pow_add, ← Nat.mul_assoc, ← Nat.add_mul, Nat.add_comm (_ * _) m,
      Nat.add_mul_div_right _ _ hf, Nat.div_eq_of_lt hm, Nat.zero_add]
  refine ⟨?_, ?_, ?_⟩
  · rw [pow_add, Nat.mul_comm (2 ^ F.ebits), ← Nat.div_div_eq_div_mul, hfirst,
      Nat.add_comm, Nat.add_mul_div_right _ _ (Nat.two_pow_pos _), Nat.div_eq_of_lt he]
    cases neg <;> rfl
  · rw [hfirst, Nat.add_comm, Nat.add_mul_mod_self_right, Nat.mod_eq_of_lt he]
  · rw [pack, pow_add, ← Nat.mul_assoc, ← Nat.add_mul, Nat.add_comm,
      Nat.add_mul_mod_self_right, Nat.mod_eq_of_lt hm]

theorem decode_sign : decide ((if neg then 1 else 0 : Nat) = 1) = neg := by cases neg <;> rfl

/-- A normal number. -/
theorem decode_pack_normal (hpos : 0 < e) (he : e < 2 ^ F.ebits - 1) (hm : m < 2 ^ F.fbits) :
    decode F (pack F neg e m) =
      .finite (signed neg ((2 ^ F.fbits + m) * 2 ^ ((e : Int) - F.bias - F.fbits))) := by
  obtain ⟨h1, h2, h3⟩ := pack_fields (F := F) neg (show e < 2 ^ F.ebits by omega) hm
  simp only [decode, h1, h2, h3, decode_sign]
  rw [if_neg (by omega), if_neg (by omega)]

/-- A subnormal number, or zero. -/
theorem decode_pack_subnormal (hF : 1 ≤ F.ebits) (hm : m < 2 ^ F.fbits) :
    decode F (pack F neg 0 m) = .finite (signed neg (m * F.grid)) := by
  have htwo : 2 ≤ 2 ^ F.ebits := Nat.le_self_pow (by omega) 2
  obtain ⟨h1, h2, h3⟩ := pack_fields (F := F) neg (e := 0) (by omega) hm
  simp only [decode, h1, h2, h3, decode_sign]
  rw [if_neg (by omega)]
  simp

/-- An infinity. -/
theorem decode_pack_inf : decode F (pack F neg (2 ^ F.ebits - 1) 0) = .inf neg := by
  have hpos : 0 < 2 ^ F.ebits := Nat.two_pow_pos _
  obtain ⟨h1, h2, h3⟩ := pack_fields (F := F) neg (e := 2 ^ F.ebits - 1) (by omega)
    (Nat.two_pow_pos F.fbits)
  simp only [decode, h1, h2, h3, decode_sign]
  rw [if_pos trivial, if_pos trivial]

end Tendra.Ieee
