import Mathlib.Algebra.Order.Ring.Nat
import Mathlib.Data.List.Basic
import Mathlib.Data.List.GetD
import Mathlib.Tactic.Ring

/-!
# Numbers as lists of digits, most significant first

A fixed-length array of digits in some base, read as a number, and the loops
that long arithmetic runs over two such arrays from the last digit to the
first. A list of length `n` with every digit below the base is the same thing
as a number below `B ^ n`: `val` is injective on such lists, so a loop is
specified by what it does to the number and by the length of its result.

The recursions follow the loops: the tail is done first and hands its carry
(borrow) to the head.
-/

namespace Tendra.Digits

variable {s : List Char}

/-- The number written by a list of digits, most significant first. -/
@[grind =] def val (B : Nat) : List Nat → Nat
  | [] => 0
  | d :: ds => d * B ^ ds.length + val B ds

/-- Every digit is a digit. -/
def Bounded (B : Nat) (ds : List Nat) : Prop := ∀ d ∈ ds, d < B

/-- The `n` digits of a number, the higher ones dropped. -/
def ofNat (B : Nat) : Nat → Nat → List Nat
  | 0, _ => []
  | n + 1, v => v / B ^ n % B :: ofNat B n v

/-- Addition with carry, last digit first: the digits of the sum and the carry
out of the first. -/
@[grind =] def add (B : Nat) : List Nat → List Nat → List Nat × Nat
  | x :: xs, y :: ys =>
      let r := add B xs ys
      let t := x + y + r.2
      (t % B :: r.1, t / B)
  | _, _ => ([], 0)

/-- Subtraction with borrow, last digit first. -/
@[grind =] def sub (B : Nat) : List Nat → List Nat → List Nat × Nat
  | x :: xs, y :: ys =>
      let r := sub B xs ys
      if x < y + r.2 then ((x + B - (y + r.2)) :: r.1, 1) else ((x - (y + r.2)) :: r.1, 0)
  | _, _ => ([], 0)

/-- Adding a number below the last digit's weight: the carry `c` goes into the
last digit. -/
@[grind =] def addCarry (B c : Nat) : List Nat → List Nat × Nat
  | [] => ([], c)
  | x :: xs =>
      let r := addCarry B c xs
      let t := x + r.2
      (t % B :: r.1, t / B)

/-- Comparison, first difference first. -/
def cmp : List Nat → List Nat → Ordering
  | x :: xs, y :: ys => if x < y then .lt else if y < x then .gt else cmp xs ys
  | _, _ => .eq

variable {B : Nat}
variable {d n : Nat} {ds xs ys : List Nat}

@[simp] theorem val_nil : val B [] = 0 := rfl

@[simp] theorem val_cons (d : Nat) (ds : List Nat) :
    val B (d :: ds) = d * B ^ ds.length + val B ds := rfl

@[simp] theorem bounded_nil : Bounded B [] := by simp [Bounded]

@[simp] theorem bounded_cons : Bounded B (d :: ds) ↔ d < B ∧ Bounded B ds := by simp [Bounded]

theorem bounded_append : Bounded B (xs ++ ys) ↔ Bounded B xs ∧ Bounded B ys := by
  simp only [Bounded, List.mem_append]
  exact ⟨fun h => ⟨fun d hd => h d (.inl hd), fun d hd => h d (.inr hd)⟩,
    fun h d hd => hd.elim (h.1 d) (h.2 d)⟩

theorem bounded_replicate_zero (hB : 0 < B) (n : Nat) : Bounded B (List.replicate n 0) := by
  intro d hd
  rw [List.eq_of_mem_replicate hd]
  exact hB

theorem Bounded.take (h : Bounded B ds) (n : Nat) : Bounded B (ds.take n) :=
  fun d hd => h d (List.mem_of_mem_take hd)

theorem Bounded.drop (h : Bounded B ds) (n : Nat) : Bounded B (ds.drop n) :=
  fun d hd => h d (List.mem_of_mem_drop hd)

theorem val_append (xs ys : List Nat) :
    val B (xs ++ ys) = val B xs * B ^ ys.length + val B ys := by
  induction xs with
  | nil => simp
  | cons x xs ih =>
      simp only [List.cons_append, val_cons, List.length_append, ih, pow_add]
      ring

@[simp] theorem val_replicate_zero (n : Nat) : val B (List.replicate n 0) = 0 := by
  induction n with
  | zero => rfl
  | succ n ih => simp [List.replicate_succ, ih]

theorem val_lt (h : Bounded B ds) : val B ds < B ^ ds.length := by
  induction ds with
  | nil => simp
  | cons d ds ih =>
      obtain ⟨hd, hds⟩ := bounded_cons.1 h
      have htail := ih hds
      calc val B (d :: ds) < d * B ^ ds.length + B ^ ds.length := by
            rw [val_cons]; omega
        _ = (d + 1) * B ^ ds.length := by ring
        _ ≤ B * B ^ ds.length := Nat.mul_le_mul_right _ hd
        _ = B ^ (d :: ds).length := by rw [List.length_cons, pow_succ]; ring

/-- The first digit of a number is its quotient by the weight of that digit. -/
theorem val_div (h : Bounded B ds) : val B (d :: ds) / B ^ ds.length = d := by
  have hlt := val_lt h
  have hpos : 0 < B ^ ds.length := by omega
  rw [val_cons, Nat.add_comm, Nat.add_mul_div_right _ _ hpos, Nat.div_eq_of_lt hlt, Nat.zero_add]

theorem val_mod (h : Bounded B ds) : val B (d :: ds) % B ^ ds.length = val B ds := by
  rw [val_cons, Nat.add_comm, Nat.add_mul_mod_self_right, Nat.mod_eq_of_lt (val_lt h)]

/-- Digit lists of one length are determined by their number. -/
theorem val_inj (hx : Bounded B xs) (hy : Bounded B ys) (hlen : xs.length = ys.length)
    (h : val B xs = val B ys) : xs = ys := by
  induction xs generalizing ys with
  | nil =>
      cases ys with
      | nil => rfl
      | cons y ys => simp at hlen
  | cons x xs ih =>
      cases ys with
      | nil => simp at hlen
      | cons y ys =>
          have hlen' : xs.length = ys.length := by simpa using hlen
          obtain ⟨-, hxs⟩ := bounded_cons.1 hx
          obtain ⟨-, hys⟩ := bounded_cons.1 hy
          have hhead : x = y := by
            rw [← val_div hxs (d := x), ← val_div hys (d := y), h, hlen']
          have htail : val B xs = val B ys := by
            rw [← val_mod hxs (d := x), ← val_mod hys (d := y), h, hlen']
          rw [hhead, ih hxs hys hlen' htail]

theorem val_append_zeros (ds : List Nat) (n : Nat) :
    val B (ds ++ List.replicate n 0) = val B ds * B ^ n := by
  rw [val_append, val_replicate_zero, List.length_replicate, Nat.add_zero]

theorem val_one (a : Nat) : val B [a] = a := by simp

theorem val_two (a b : Nat) : val B [a, b] = a * B + b := by simp

theorem val_three (a b c : Nat) : val B [a, b, c] = (a * B + b) * B + c := by
  simp
  ring

theorem val_four (a b c d : Nat) : val B [a, b, c, d] = ((a * B + b) * B + c) * B + d := by
  simp
  ring

/-- Cutting digits off at the end divides. -/
theorem val_take (h : Bounded B ds) (hn : n ≤ ds.length) :
    val B (ds.take n) = val B ds / B ^ (ds.length - n) := by
  have hlt := val_lt (h.drop n)
  rw [List.length_drop] at hlt
  have hpos : 0 < B ^ (ds.length - n) := by omega
  conv_rhs => rw [← List.take_append_drop n ds]
  rw [val_append, List.length_append, List.length_drop, List.length_take,
    show min n ds.length + (ds.length - n) - n = ds.length - n by omega,
    Nat.add_comm, Nat.add_mul_div_right _ _ hpos, Nat.div_eq_of_lt hlt, Nat.zero_add]

/-- The digits after the first `n` are the remainder. -/
theorem val_drop (h : Bounded B ds) (n : Nat) :
    val B (ds.drop n) = val B ds % B ^ (ds.length - n) := by
  have hlt := val_lt (h.drop n)
  rw [List.length_drop] at hlt
  conv_rhs => rw [← List.take_append_drop n ds]
  rw [val_append, List.length_append, List.length_drop, List.length_take]
  by_cases hn : n ≤ ds.length
  · rw [show min n ds.length + (ds.length - n) - n = ds.length - n by omega, Nat.add_comm,
      Nat.add_mul_mod_self_right, Nat.mod_eq_of_lt hlt]
  · rw [List.drop_eq_nil_of_le (by omega),
      show min n ds.length + (ds.length - n) - n = 0 by omega]
    simp [Nat.mod_one]

theorem val_take_succ (hn : n < ds.length) :
    val B (ds.take (n + 1)) = val B (ds.take n) * B + ds.getD n 0 := by
  rw [List.take_add_one, List.getElem?_eq_getElem hn, val_append, Option.toList_some,
    List.getD_eq_getElem _ _ hn]
  simp

theorem Bounded.getD (h : Bounded B ds) (hB : 0 < B) (n : Nat) : ds.getD n 0 < B := by
  by_cases hn : n < ds.length
  · rw [List.getD_eq_getElem _ _ hn]
    exact h _ (List.getElem_mem hn)
  · rw [List.getD_eq_default _ _ (by omega)]
    exact hB

/-- A number is zero only if all its digits are. -/
theorem eq_zero_of_val_eq_zero (hB : 0 < B) (h : val B ds = 0) : ∀ d ∈ ds, d = 0 := by
  induction ds with
  | nil => simp
  | cons d ds ih =>
      rw [val_cons] at h
      have hpow : 0 < B ^ ds.length := Nat.pow_pos hB
      have hd : d = 0 := by
        have : d * B ^ ds.length = 0 := by omega
        rcases Nat.mul_eq_zero.1 this with h0 | h0
        · exact h0
        · omega
      have htail := ih (by omega)
      simpa [hd] using htail

theorem getD_eq_zero_of_val_eq_zero (hB : 0 < B) (h : val B ds = 0) (n : Nat) :
    ds.getD n 0 = 0 := by
  by_cases hn : n < ds.length
  · rw [List.getD_eq_getElem _ _ hn]
    exact eq_zero_of_val_eq_zero hB h _ (List.getElem_mem hn)
  · exact List.getD_eq_default _ _ (by omega)

/-- The first digit is not zero exactly when the number needs all the places. -/
theorem headD_ne_zero_iff (h : Bounded B ds) (hlen : ds ≠ []) :
    ds.headD 0 ≠ 0 ↔ B ^ (ds.length - 1) ≤ val B ds := by
  cases ds with
  | nil => exact absurd rfl hlen
  | cons d ds =>
      have hlt := val_lt (bounded_cons.1 h).2
      simp only [List.headD_cons, List.length_cons, Nat.add_sub_cancel, val_cons]
      constructor
      · intro hd
        have : 1 * B ^ ds.length ≤ d * B ^ ds.length := Nat.mul_le_mul_right _ (by omega)
        omega
      · rintro hle rfl
        omega

theorem headD_eq (h : Bounded B ds) (hlen : ds ≠ []) :
    ds.headD 0 = val B ds / B ^ (ds.length - 1) := by
  cases ds with
  | nil => exact absurd rfl hlen
  | cons d ds =>
      rw [List.headD_cons, List.length_cons, Nat.add_sub_cancel, val_div (bounded_cons.1 h).2]

theorem headD_lt (hB : 0 < B) (h : Bounded B ds) : ds.headD 0 < B := by
  cases ds with
  | nil => exact hB
  | cons d ds => exact (bounded_cons.1 h).1

/-- Moving a leading zero to the end multiplies by the base. -/
theorem val_rotate_zero (h : ds.headD 0 = 0) : val B (ds.drop 1 ++ [0]) = val B ds * B := by
  cases ds with
  | nil => simp
  | cons d ds =>
      have hd : d = 0 := by simpa using h
      subst hd
      simp [val_append]

/-- Changing one digit. -/
theorem val_set {i : Nat} (hi : i < ds.length) (d : Nat) :
    val B (ds.set i d) + ds.getD i 0 * B ^ (ds.length - 1 - i) =
      val B ds + d * B ^ (ds.length - 1 - i) := by
  induction ds generalizing i with
  | nil => simp at hi
  | cons x xs ih =>
      cases i with
      | zero => simp; ring
      | succ i =>
          have hi' : i < xs.length := by simpa using hi
          have htail := ih hi'
          have hexp : xs.length + 1 - 1 - (i + 1) = xs.length - 1 - i := by omega
          simp only [List.set_cons_succ, val_cons, List.length_set, List.getD_cons_succ,
            List.length_cons, hexp]
          omega

theorem Bounded.set (h : Bounded B ds) (i : Nat) (hd : d < B) : Bounded B (ds.set i d) := by
  intro x hx
  rcases List.mem_or_eq_of_mem_set hx with hx | rfl
  · exact h x hx
  · exact hd

/-! ## Addition -/

theorem length_addCarry (c : Nat) (xs : List Nat) : (addCarry B c xs).1.length = xs.length := by
  induction xs with
  | nil => rfl
  | cons x xs ih => simp [addCarry, ih]

theorem bounded_addCarry (hB : 0 < B) (c : Nat) (xs : List Nat) :
    Bounded B (addCarry B c xs).1 := by
  induction xs with
  | nil => exact bounded_nil
  | cons x xs ih => exact bounded_cons.2 ⟨Nat.mod_lt _ hB, ih⟩

theorem addCarry_append (c : Nat) (xs ys : List Nat) :
    addCarry B c (xs ++ ys) =
      ((addCarry B (addCarry B c ys).2 xs).1 ++ (addCarry B c ys).1,
        (addCarry B (addCarry B c ys).2 xs).2) := by
  induction xs with
  | nil => rfl
  | cons x xs ih => simp only [List.cons_append, addCarry, ih]

theorem val_addCarry (c : Nat) (xs : List Nat) :
    val B (addCarry B c xs).1 + (addCarry B c xs).2 * B ^ xs.length = val B xs + c := by
  induction xs with
  | nil => simp [addCarry]
  | cons x xs ih =>
      have hdm := Nat.mod_add_div (x + (addCarry B c xs).2) B
      simp only [addCarry, val_cons, List.length_cons, length_addCarry, pow_succ]
      calc (x + (addCarry B c xs).2) % B * B ^ xs.length + val B (addCarry B c xs).1 +
            (x + (addCarry B c xs).2) / B * (B ^ xs.length * B)
          = ((x + (addCarry B c xs).2) % B + B * ((x + (addCarry B c xs).2) / B)) *
              B ^ xs.length + val B (addCarry B c xs).1 := by ring
        _ = x * B ^ xs.length +
              (val B (addCarry B c xs).1 + (addCarry B c xs).2 * B ^ xs.length) := by
            rw [hdm]; ring
        _ = x * B ^ xs.length + val B xs + c := by rw [ih]; ring

theorem length_add (xs ys : List Nat) (h : xs.length = ys.length) :
    (add B xs ys).1.length = xs.length := by
  induction xs generalizing ys with
  | nil => cases ys <;> rfl
  | cons x xs ih =>
      cases ys with
      | nil => simp at h
      | cons y ys => simp [add, ih ys (by simpa using h)]

theorem bounded_add (hB : 0 < B) (xs ys : List Nat) : Bounded B (add B xs ys).1 := by
  induction xs generalizing ys with
  | nil => cases ys <;> exact bounded_nil
  | cons x xs ih =>
      cases ys with
      | nil => exact bounded_nil
      | cons y ys => exact bounded_cons.2 ⟨Nat.mod_lt _ hB, ih ys⟩

/-- The digits of a sum and its carry are the sum. -/
theorem val_add (xs ys : List Nat) (h : xs.length = ys.length) :
    val B (add B xs ys).1 + (add B xs ys).2 * B ^ xs.length = val B xs + val B ys := by
  induction xs generalizing ys with
  | nil =>
      cases ys with
      | nil => simp [add]
      | cons y ys => simp at h
  | cons x xs ih =>
      cases ys with
      | nil => simp at h
      | cons y ys =>
          have h' : xs.length = ys.length := by simpa using h
          have htail := ih ys h'
          have hdm := Nat.mod_add_div (x + y + (add B xs ys).2) B
          simp only [add, val_cons, List.length_cons, length_add xs ys h', ← h', pow_succ]
          calc (x + y + (add B xs ys).2) % B * B ^ xs.length + val B (add B xs ys).1 +
                (x + y + (add B xs ys).2) / B * (B ^ xs.length * B)
              = ((x + y + (add B xs ys).2) % B + B * ((x + y + (add B xs ys).2) / B)) *
                  B ^ xs.length + val B (add B xs ys).1 := by ring
            _ = (x + y) * B ^ xs.length +
                  (val B (add B xs ys).1 + (add B xs ys).2 * B ^ xs.length) := by rw [hdm]; ring
            _ = x * B ^ xs.length + val B xs + (y * B ^ xs.length + val B ys) := by
                rw [htail]; ring

/-! ## Subtraction -/

theorem length_sub (xs ys : List Nat) (h : xs.length = ys.length) :
    (sub B xs ys).1.length = xs.length := by
  induction xs generalizing ys with
  | nil => cases ys <;> rfl
  | cons x xs ih =>
      cases ys with
      | nil => simp at h
      | cons y ys =>
          have htail := ih ys (by simpa using h)
          simp only [sub]
          split <;> simp [htail]

theorem sub_borrow_le (xs ys : List Nat) : (sub B xs ys).2 ≤ 1 := by
  cases xs with
  | nil => cases ys <;> simp [sub]
  | cons x xs =>
      cases ys with
      | nil => simp [sub]
      | cons y ys =>
          simp only [sub]
          split <;> simp

theorem bounded_sub (hx : Bounded B xs) (hy : Bounded B ys) : Bounded B (sub B xs ys).1 := by
  induction xs generalizing ys with
  | nil => cases ys <;> exact bounded_nil
  | cons x xs ih =>
      cases ys with
      | nil => exact bounded_nil
      | cons y ys =>
          obtain ⟨hx0, hxs⟩ := bounded_cons.1 hx
          obtain ⟨hy0, hys⟩ := bounded_cons.1 hy
          have htail := ih hxs hys
          simp only [sub]
          split
          · exact bounded_cons.2 ⟨by omega, htail⟩
          · exact bounded_cons.2 ⟨by omega, htail⟩

/-- The digits of a difference, less its borrow, are the difference. -/
theorem val_sub (h : xs.length = ys.length) (hy : Bounded B ys) :
    val B (sub B xs ys).1 + val B ys = val B xs + (sub B xs ys).2 * B ^ xs.length := by
  induction xs generalizing ys with
  | nil =>
      cases ys with
      | nil => simp [sub]
      | cons y ys => simp at h
  | cons x xs ih =>
      cases ys with
      | nil => simp at h
      | cons y ys =>
          have h' : xs.length = ys.length := by simpa using h
          obtain ⟨hy0, hys⟩ := bounded_cons.1 hy
          have htail := ih h' hys
          have hb := sub_borrow_le (B := B) xs ys
          have hlen := length_sub (B := B) xs ys h'
          simp only [sub]
          split
          · next hlt =>
              have hd : x + B - (y + (sub B xs ys).2) + y + (sub B xs ys).2 = x + B := by omega
              simp only [val_cons, hlen, ← h', List.length_cons, pow_succ]
              generalize x + B - (y + (sub B xs ys).2) = d at *
              calc d * B ^ xs.length + val B (sub B xs ys).1 + (y * B ^ xs.length + val B ys)
                  = (d + y) * B ^ xs.length + (val B (sub B xs ys).1 + val B ys) := by ring
                _ = (d + y + (sub B xs ys).2) * B ^ xs.length + val B xs := by rw [htail]; ring
                _ = x * B ^ xs.length + val B xs + 1 * (B ^ xs.length * B) := by rw [hd]; ring
          · next hge =>
              have hd : x - (y + (sub B xs ys).2) + y + (sub B xs ys).2 = x := by omega
              simp only [val_cons, hlen, ← h', List.length_cons, zero_mul, Nat.add_zero]
              generalize x - (y + (sub B xs ys).2) = d at *
              calc d * B ^ xs.length + val B (sub B xs ys).1 + (y * B ^ xs.length + val B ys)
                  = (d + y) * B ^ xs.length + (val B (sub B xs ys).1 + val B ys) := by ring
                _ = (d + y + (sub B xs ys).2) * B ^ xs.length + val B xs := by rw [htail]; ring
                _ = x * B ^ xs.length + val B xs := by rw [hd]

/-- A borrow comes out exactly when the subtrahend is larger. -/
theorem sub_borrow_iff (h : xs.length = ys.length) (hx : Bounded B xs) (hy : Bounded B ys) :
    (sub B xs ys).2 = 1 ↔ val B xs < val B ys := by
  have hval := val_sub h hy
  have hle := sub_borrow_le (B := B) xs ys
  have hlt := val_lt (bounded_sub hx hy)
  have hlt' := val_lt hy
  rw [length_sub _ _ h] at hlt
  rw [← h] at hlt'
  rcases Nat.le_one_iff_eq_zero_or_eq_one.1 hle with h0 | h1
  · rw [h0] at hval ⊢
    constructor <;> omega
  · rw [h1] at hval ⊢
    constructor <;> omega

/-! ## Comparison -/

theorem cmp_eq_iff (h : xs.length = ys.length) : cmp xs ys = .eq ↔ xs = ys := by
  induction xs generalizing ys with
  | nil =>
      cases ys with
      | nil => simp [cmp]
      | cons y ys => simp at h
  | cons x xs ih =>
      cases ys with
      | nil => simp at h
      | cons y ys =>
          have htail := @ih ys (by simpa using h)
          simp only [cmp, List.cons.injEq]
          split
          · simp only [reduceCtorEq, false_iff]; omega
          · split
            · simp only [reduceCtorEq, false_iff]; omega
            · rw [htail]
              constructor
              · exact fun ht => ⟨by omega, ht⟩
              · exact fun ht => ht.2

theorem cmp_lt_iff (h : xs.length = ys.length) (hx : Bounded B xs) (hy : Bounded B ys) :
    cmp xs ys = .lt ↔ val B xs < val B ys := by
  induction xs generalizing ys with
  | nil =>
      cases ys with
      | nil => simp [cmp]
      | cons y ys => simp at h
  | cons x xs ih =>
      cases ys with
      | nil => simp at h
      | cons y ys =>
          have h' : xs.length = ys.length := by simpa using h
          obtain ⟨-, hxs⟩ := bounded_cons.1 hx
          obtain ⟨-, hys⟩ := bounded_cons.1 hy
          have htail := ih h' hxs hys
          have hvx := val_lt hxs
          have hvy := val_lt hys
          rw [← h'] at hvy
          simp only [cmp, val_cons, ← h']
          split
          · next hlt =>
              have hmul : (x + 1) * B ^ xs.length ≤ y * B ^ xs.length :=
                Nat.mul_le_mul_right _ hlt
              rw [Nat.add_mul, Nat.one_mul] at hmul
              simp only [true_iff]
              omega
          · split
            · next hgt =>
                have hmul : (y + 1) * B ^ xs.length ≤ x * B ^ xs.length :=
                  Nat.mul_le_mul_right _ hgt
                rw [Nat.add_mul, Nat.one_mul] at hmul
                simp only [reduceCtorEq, false_iff]
                omega
            · next h1 h2 =>
                have hxy : x = y := by omega
                rw [htail, hxy]
                omega

end Tendra.Digits

/-!
## Numbers in text

Decimal numbers as `Nat.toDigits` writes them, read back from a text that goes on with
something other than a digit.
-/

namespace Tendra.Numeral

/-- No digit comes next. -/
def Ends (s : List Char) : Prop := ∀ c ∈ s.head?, c.isDigit = false

theorem ends_nil : Ends [] := by
  intro c h
  cases h

theorem ends_cons {c : Char} : Ends (c :: s) ↔ c.isDigit = false :=
  ⟨fun h => h c rfl, fun h d hd => by rw [← Option.some.inj hd]; exact h⟩

/-- The number at the start of a text, and the text behind it. -/
def read (s : List Char) : Nat × List Char :=
  (Nat.ofDigitChars 10 (s.takeWhile Char.isDigit) 0, s.dropWhile Char.isDigit)

theorem isDigit_of_mem {n : Nat} {c : Char} (h : c ∈ Nat.toDigits 10 n) : c.isDigit = true :=
  Nat.isDigit_of_mem_toDigits (by decide) (by decide) h

theorem takeWhile_ends (h : Ends s) : s.takeWhile Char.isDigit = [] := by
  cases s with
  | nil => rfl
  | cons c s => rw [List.takeWhile_cons, if_neg (by rw [ends_cons.1 h]; exact Bool.false_ne_true)]

theorem dropWhile_ends (h : Ends s) : s.dropWhile Char.isDigit = s := by
  cases s with
  | nil => rfl
  | cons c s => rw [List.dropWhile_cons, if_neg (by rw [ends_cons.1 h]; exact Bool.false_ne_true)]

theorem takeWhile_append {ds : List Char} (hds : ∀ c ∈ ds, c.isDigit = true) (h : Ends s) :
    (ds ++ s).takeWhile Char.isDigit = ds := by
  rw [List.takeWhile_append_of_pos hds, takeWhile_ends h, List.append_nil]

theorem dropWhile_append {ds : List Char} (hds : ∀ c ∈ ds, c.isDigit = true) (h : Ends s) :
    (ds ++ s).dropWhile Char.isDigit = s := by
  rw [List.dropWhile_append_of_pos hds, dropWhile_ends h]

/-- A number is read back. -/
theorem read_toDigits (n : Nat) (h : Ends s) : read (Nat.toDigits 10 n ++ s) = (n, s) := by
  rw [read, takeWhile_append (fun _ => isDigit_of_mem) h,
    dropWhile_append (fun _ => isDigit_of_mem) h,
    Nat.ofDigitChars_ten_toDigits]

/-- A number below 10 is one digit. -/
theorem toDigits_lt_ten {n : Nat} (h : n < 10) :
    ∃ c, Nat.toDigits 10 n = [c] ∧ c.isDigit = true ∧ c.toNat - '0'.toNat = n := by
  have hd : Nat.toDigits 10 n = [n.digitChar] := Nat.toDigits_of_lt_base h
  refine ⟨n.digitChar, hd, isDigit_of_mem (n := n) ?_, Nat.toNat_digitChar_sub_48_of_lt_ten h⟩
  rw [hd]
  exact List.mem_singleton_self _

/-- A number that is not below 10 has two digits or more. -/
theorem two_le_length {n : Nat} (h : 10 ≤ n) : 2 ≤ (Nat.toDigits 10 n).length := by
  by_contra hlt
  have hle : n < 10 ^ 1 :=
    (Nat.length_toDigits_le_iff (by decide) Nat.one_pos).1 (Nat.le_of_lt_succ (Nat.not_le.1 hlt))
  omega

theorem exists_digit (n : Nat) : ∃ c s, Nat.toDigits 10 n = c :: s ∧ c.isDigit = true := by
  cases h : Nat.toDigits 10 n with
  | nil => exact absurd h Nat.toDigits_ne_nil
  | cons c s => exact ⟨c, s, rfl, isDigit_of_mem (n := n) (by rw [h]; exact List.mem_cons_self ..)⟩

/-! ## Hexadecimal numbers -/

/-- The value of a hexadecimal digit. -/
def hexDigit (c : Char) : Nat := if c.isDigit then c.toNat - '0'.toNat else c.toNat - 'a'.toNat + 10

/-- The value of hexadecimal digits. -/
def hexValue (s : List Char) : Nat := s.foldl (fun n c => 16 * n + hexDigit c) 0

theorem hexDigit_digitChar : ∀ n < 16, hexDigit n.digitChar = n := by decide

theorem hexValue_toDigits (n : Nat) : hexValue (Nat.toDigits 16 n) = n := by
  induction n using Nat.base_induction 16 (by decide) with
  | single m hm => rw [Nat.toDigits_of_lt_base hm, hexValue]; simp [hexDigit_digitChar m hm]
  | digit m k hk hm ih =>
      have ih' : List.foldl (fun n c => 16 * n + hexDigit c) 0 (Nat.toDigits 16 m) = m := ih
      rw [← Nat.toDigits_append_toDigits (by decide) hm hk, hexValue, List.foldl_append, ih',
        Nat.toDigits_of_lt_base hk, List.foldl_cons, List.foldl_nil, hexDigit_digitChar k hk]

theorem underscore_not_mem_hex (n : Nat) : '_' ∉ Nat.toDigits 16 n := by
  have hdig : ∀ k < 16, Nat.digitChar k ≠ '_' := by decide
  induction n using Nat.base_induction 16 (by decide) with
  | single m hm =>
      rw [Nat.toDigits_of_lt_base hm, List.mem_singleton]
      exact (hdig m hm).symm
  | digit m k hk hm ih =>
      rw [← Nat.toDigits_append_toDigits (by decide) hm hk, Nat.toDigits_of_lt_base hk,
        List.mem_append, List.mem_singleton]
      exact fun h => h.elim ih (hdig k hk).symm

end Tendra.Numeral
