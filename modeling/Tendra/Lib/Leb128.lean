import Mathlib.Algebra.Group.Int.Defs
import Mathlib.Algebra.Group.Nat.Defs
import Mathlib.Tactic.Common

/-!
# Numbers of variable length: LEB128

A number is written in groups of seven bits, the lowest first, a group in the low bits of a
byte. The eighth bit says that another byte follows. Without sign the groups are the digits
of the number in base 128; with sign the last group is a digit from -64 to 63, so that its
sign is the sign of the number.
-/

namespace Tendra.Leb128

/-! ## Reading -/

/-- The number without sign at the start of some bytes, and the bytes after it. -/
@[grind =] def decodeU : List Nat → Option (Nat × List Nat)
  | [] => none
  | b :: bs =>
      if b < 128 then some (b, bs)
      else (decodeU bs).map fun r => (b - 128 + 128 * r.1, r.2)

/-- The number with sign at the start of some bytes, and the bytes after it. -/
@[grind =] def decodeS : List Nat → Option (Int × List Nat)
  | [] => none
  | b :: bs =>
      if b < 64 then some (b, bs)
      else if b < 128 then some ((b : Int) - 128, bs)
      else (decodeS bs).map fun r => ((b : Int) - 128 + 128 * r.1, r.2)

/-! ## Writing -/

def encodeU (n : Nat) : List Nat :=
  if n < 128 then [n] else (n % 128 + 128) :: encodeU (n / 128)

/-- The last byte has a group from -64 to 63. -/
def Short (x : Int) : Prop := -64 ≤ x ∧ x < 64

instance (x : Int) : Decidable (Short x) := inferInstanceAs (Decidable (_ ∧ _))

def encodeS (x : Int) : List Nat :=
  if Short x then [(x % 128).toNat] else ((x % 128).toNat + 128) :: encodeS (x / 128)
termination_by x.natAbs
decreasing_by
  rename_i h
  unfold Short at h
  omega

/-- What is written is read back. -/
theorem decodeU_encodeU (n : Nat) (rest : List Nat) :
    decodeU (encodeU n ++ rest) = some (n, rest) := by
  induction n using Nat.strongRecOn with
  | ind n ih =>
    rw [encodeU]
    split
    case isTrue h => simp [decodeU, h]
    case isFalse h =>
      have hnext := ih (n / 128) (by omega)
      simp only [List.cons_append, decodeU, hnext, Option.map_some]
      rw [if_neg (by omega)]
      simp only [Option.some.injEq, Prod.mk.injEq, and_true]
      omega

theorem decodeS_encodeS (x : Int) (rest : List Nat) :
    decodeS (encodeS x ++ rest) = some (x, rest) := by
  induction h : x.natAbs using Nat.strongRecOn generalizing x with
  | ind k ih =>
    subst h
    rw [encodeS]
    split
    case isTrue hs =>
      unfold Short at hs
      simp only [List.cons_append, List.nil_append, decodeS]
      split
      case isTrue hlow =>
        simp only [Option.some.injEq, Prod.mk.injEq, and_true]
        omega
      case isFalse hlow =>
        rw [if_pos (by omega)]
        simp only [Option.some.injEq, Prod.mk.injEq, and_true]
        omega
    case isFalse hs =>
      unfold Short at hs
      have hnext := ih (x / 128).natAbs (by omega) (x / 128) rfl
      simp only [List.cons_append, decodeS, hnext, Option.map_some]
      rw [if_neg (by omega), if_neg (by omega)]
      simp only [Option.some.injEq, Prod.mk.injEq, and_true]
      omega

/-! ## Bytes -/

theorem encodeU_byte {n b : Nat} (h : b ∈ encodeU n) : b < 256 := by
  induction n using Nat.strongRecOn with
  | ind n ih =>
    rw [encodeU] at h
    split at h
    case isTrue hn =>
      have := List.mem_singleton.1 h
      omega
    case isFalse hn =>
      cases List.mem_cons.1 h with
      | inl he => omega
      | inr hm => exact ih (n / 128) (by omega) hm

theorem encodeS_byte {x : Int} {b : Nat} (h : b ∈ encodeS x) : b < 256 := by
  induction hk : x.natAbs using Nat.strongRecOn generalizing x with
  | ind k ih =>
    subst hk
    rw [encodeS] at h
    split at h
    case isTrue hs =>
      have := List.mem_singleton.1 h
      omega
    case isFalse hs =>
      unfold Short at hs
      cases List.mem_cons.1 h with
      | inl he => omega
      | inr hm => exact ih (x / 128).natAbs (by omega) hm rfl

/-! ## How long -/

theorem encodeU_pos (n : Nat) : 0 < (encodeU n).length := by
  rw [encodeU]
  split
  · exact Nat.one_pos
  · exact Nat.succ_pos _

theorem encodeS_pos (x : Int) : 0 < (encodeS x).length := by
  rw [encodeS]
  split
  · exact Nat.one_pos
  · exact Nat.succ_pos _

/-- A number of `k` groups takes no more than `k` bytes. -/
theorem encodeU_length {k n : Nat} (h : n < 128 ^ (k + 1)) : (encodeU n).length ≤ k + 1 := by
  induction k generalizing n with
  | zero =>
    rw [encodeU, if_pos (by simpa using h)]
    exact Nat.le_refl 1
  | succ k ih =>
    rw [encodeU]
    split
    · exact Nat.succ_le_succ (Nat.zero_le _)
    · have hnext : n / 128 < 128 ^ (k + 1) :=
        Nat.div_lt_of_lt_mul (by rw [Nat.mul_comm, ← Nat.pow_succ]; exact h)
      simpa using ih hnext

theorem encodeS_length {k : Nat} {x : Int} (h : -(64 * 128 ^ k) ≤ x) (h' : x < 64 * 128 ^ k) :
    (encodeS x).length ≤ k + 1 := by
  induction k generalizing x with
  | zero =>
    rw [encodeS, if_pos ⟨by simpa using h, by simpa using h'⟩]
    exact Nat.le_refl 1
  | succ k ih =>
    rw [encodeS]
    split
    · exact Nat.succ_le_succ (Nat.zero_le _)
    · rw [pow_succ] at h h'
      have hnext := @ih (x / 128) (by omega) (by omega)
      simpa using hnext

end Tendra.Leb128
