/-!
# Shifts and rotations of a number in two halves

What a shift or a rotation of a number of two words makes of each of them: a word is
shifted and filled from the other, or taken in place of it.
-/

namespace Tendra

variable {w : Nat}

/-- A number is known by the bits of its halves. -/
theorem eq_append {z : BitVec (w + w)} {hi lo : BitVec w}
    (hlo : ∀ i < w, z.getLsbD i = lo.getLsbD i)
    (hhi : ∀ i < w, z.getLsbD (w + i) = hi.getLsbD i) : z = hi ++ lo := by
  refine BitVec.eq_of_getLsbD_eq fun i hi' => ?_
  rw [BitVec.getLsbD_append]
  split
  · next h => exact hlo i h
  · next h =>
      have := hhi (i - w) (by omega)
      rwa [show w + (i - w) = i from by omega] at this

section

variable {hi lo : BitVec w} {n : Nat}

theorem append_shiftLeft (h : n ≤ w) :
    (hi ++ lo) <<< n = (hi <<< n ||| lo >>> (w - n)) ++ lo <<< n := by
  refine eq_append (fun i hi' => ?_) fun i hi' => ?_
  · simp only [BitVec.getLsbD_shiftLeft, BitVec.getLsbD_append]
    grind
  · simp only [BitVec.getLsbD_shiftLeft, BitVec.getLsbD_append, BitVec.getLsbD_or,
      BitVec.getLsbD_ushiftRight]
    have := lo.getLsbD_of_ge (w - n + i)
    grind

theorem append_shiftLeft_of_ge (h : w ≤ n) : (hi ++ lo) <<< n = lo <<< (n - w) ++ 0#w := by
  refine eq_append (fun i hi' => ?_) fun i hi' => ?_
  · simp only [BitVec.getLsbD_shiftLeft, BitVec.getLsbD_append, BitVec.getLsbD_zero]
    grind
  · simp only [BitVec.getLsbD_shiftLeft, BitVec.getLsbD_append]
    grind

theorem append_ushiftRight (h : n ≤ w) :
    (hi ++ lo) >>> n = hi >>> n ++ (lo >>> n ||| hi <<< (w - n)) := by
  refine eq_append (fun i hi' => ?_) fun i hi' => ?_
  · simp only [BitVec.getLsbD_shiftLeft, BitVec.getLsbD_append, BitVec.getLsbD_or,
      BitVec.getLsbD_ushiftRight]
    have := lo.getLsbD_of_ge (n + i)
    grind
  · simp only [BitVec.getLsbD_append, BitVec.getLsbD_ushiftRight]
    grind

theorem append_ushiftRight_of_ge (h : w ≤ n) : (hi ++ lo) >>> n = 0#w ++ hi >>> (n - w) := by
  refine eq_append (fun i hi' => ?_) fun i hi' => ?_
  · simp only [BitVec.getLsbD_append, BitVec.getLsbD_ushiftRight]
    grind
  · simp only [BitVec.getLsbD_append, BitVec.getLsbD_ushiftRight, BitVec.getLsbD_zero]
    have := hi.getLsbD_of_ge (n + i)
    grind

theorem append_sshiftRight (h : n ≤ w) (hw : 0 < w) :
    (hi ++ lo).sshiftRight n = hi.sshiftRight n ++ (lo >>> n ||| hi <<< (w - n)) := by
  have hmsb : (hi ++ lo).msb = hi.msb := by
    rw [BitVec.msb_append, if_neg (by omega)]
  refine eq_append (fun i hi' => ?_) fun i hi' => ?_
  · simp only [BitVec.getLsbD_sshiftRight, BitVec.getLsbD_shiftLeft, BitVec.getLsbD_append,
      BitVec.getLsbD_or, BitVec.getLsbD_ushiftRight]
    have := lo.getLsbD_of_ge (n + i)
    grind
  · simp only [BitVec.getLsbD_append, BitVec.getLsbD_sshiftRight, hmsb]
    grind

theorem append_sshiftRight_of_ge (h : w ≤ n) (hw : 0 < w) :
    (hi ++ lo).sshiftRight n = hi.sshiftRight (w - 1) ++ hi.sshiftRight (n - w) := by
  have hmsb : (hi ++ lo).msb = hi.msb := by
    rw [BitVec.msb_append, if_neg (by omega)]
  refine eq_append (fun i hi' => ?_) fun i hi' => ?_
  · simp only [BitVec.getLsbD_append, BitVec.getLsbD_sshiftRight, hmsb]
    grind
  · simp only [BitVec.getLsbD_append, BitVec.getLsbD_sshiftRight, hmsb]
    have htop : hi.msb = hi.getLsbD (w - 1) := BitVec.msb_eq_getLsbD_last hi
    grind

theorem append_rotateRight (h : n < w) :
    (hi ++ lo).rotateRight n = (hi >>> n ||| lo <<< (w - n)) ++ (lo >>> n ||| hi <<< (w - n)) := by
  refine eq_append (fun i hi' => ?_) fun i hi' => ?_
  · simp only [BitVec.getLsbD_rotateRight, Nat.mod_eq_of_lt (show n < w + w from by omega),
      BitVec.getLsbD_shiftLeft, BitVec.getLsbD_append, BitVec.getLsbD_or,
      BitVec.getLsbD_ushiftRight]
    have := lo.getLsbD_of_ge (n + i)
    grind
  · simp only [BitVec.getLsbD_rotateRight, Nat.mod_eq_of_lt (show n < w + w from by omega),
      BitVec.getLsbD_shiftLeft, BitVec.getLsbD_append, BitVec.getLsbD_or,
      BitVec.getLsbD_ushiftRight]
    have := hi.getLsbD_of_ge (n + i)
    grind

theorem append_rotateLeft (h : n < w) :
    (hi ++ lo).rotateLeft n = (hi <<< n ||| lo >>> (w - n)) ++ (lo <<< n ||| hi >>> (w - n)) := by
  refine eq_append (fun i hi' => ?_) fun i hi' => ?_
  · simp only [BitVec.getLsbD_rotateLeft, Nat.mod_eq_of_lt (show n < w + w from by omega),
      BitVec.getLsbD_shiftLeft, BitVec.getLsbD_append, BitVec.getLsbD_or,
      BitVec.getLsbD_ushiftRight]
    have := hi.getLsbD_of_ge (w - n + i)
    grind
  · simp only [BitVec.getLsbD_rotateLeft, Nat.mod_eq_of_lt (show n < w + w from by omega),
      BitVec.getLsbD_shiftLeft, BitVec.getLsbD_append, BitVec.getLsbD_or,
      BitVec.getLsbD_ushiftRight]
    have := lo.getLsbD_of_ge (w - n + i)
    grind

end

theorem append_inj {hi hi' lo lo' : BitVec w} :
    hi ++ lo = hi' ++ lo' ↔ hi = hi' ∧ lo = lo' := by
  refine ⟨fun h => ⟨?_, ?_⟩, fun h => by rw [h.1, h.2]⟩
  · have := congrArg (BitVec.extractLsb' w w) h
    rwa [BitVec.extractLsb'_append_eq_left, BitVec.extractLsb'_append_eq_left] at this
  · have := congrArg (BitVec.setWidth w) h
    rwa [BitVec.setWidth_append_eq_right, BitVec.setWidth_append_eq_right] at this

/-- A word is filled on the left in the same way from two others. -/
theorem fillLeft_eq_iff {a b c : BitVec w} {n : Nat} (h : n ≤ w) :
    a >>> n ||| b <<< (w - n) = a >>> n ||| c <<< (w - n) ↔
      ∀ i < n, b.getLsbD i = c.getLsbD i := by
  refine ⟨fun heq i hi => ?_, fun hbits => BitVec.eq_of_getLsbD_eq fun i hi => ?_⟩
  · have := congrArg (fun v => v.getLsbD (w - n + i)) heq
    simp only [BitVec.getLsbD_or, BitVec.getLsbD_ushiftRight, BitVec.getLsbD_shiftLeft] at this
    have := a.getLsbD_of_ge (n + (w - n + i))
    grind
  · simp only [BitVec.getLsbD_or, BitVec.getLsbD_ushiftRight, BitVec.getLsbD_shiftLeft]
    have := hbits (i - (w - n))
    grind

/-- A word is filled on the right in the same way from two others. -/
theorem fillRight_eq_iff {a b c : BitVec w} {n : Nat} (h : n ≤ w) :
    a <<< n ||| b >>> (w - n) = a <<< n ||| c >>> (w - n) ↔
      ∀ i, w - n ≤ i → i < w → b.getLsbD i = c.getLsbD i := by
  refine ⟨fun heq i hle hi => ?_, fun hbits => BitVec.eq_of_getLsbD_eq fun i hi => ?_⟩
  · have := congrArg (fun v => v.getLsbD (i - (w - n))) heq
    simp only [BitVec.getLsbD_or, BitVec.getLsbD_ushiftRight, BitVec.getLsbD_shiftLeft] at this
    grind
  · simp only [BitVec.getLsbD_or, BitVec.getLsbD_ushiftRight, BitVec.getLsbD_shiftLeft]
    have := hbits (w - n + i)
    have := b.getLsbD_of_ge (w - n + i)
    have := c.getLsbD_of_ge (w - n + i)
    grind

theorem rotateRight_eq_rotateLeft {x : BitVec w} {n : Nat} (h0 : 0 < n) (h : n < w) :
    x.rotateRight n = x.rotateLeft (w - n) := by
  refine BitVec.eq_of_getLsbD_eq fun i hi => ?_
  simp only [BitVec.getLsbD_rotateRight, BitVec.getLsbD_rotateLeft, Nat.mod_eq_of_lt h,
    Nat.mod_eq_of_lt (show w - n < w from by omega)]
  grind

/-- A rotation by half the length. -/
theorem append_rotateRight_half (hw : 0 < w) (hi lo : BitVec w) :
    (hi ++ lo).rotateRight w = lo ++ hi := by
  have hmod : w % (w + w) = w := Nat.mod_eq_of_lt (by omega)
  refine eq_append (fun i hi' => ?_) fun i hi' => ?_
  · simp only [BitVec.getLsbD_rotateRight, BitVec.getLsbD_append, hmod]
    grind
  · simp only [BitVec.getLsbD_rotateRight, BitVec.getLsbD_append, hmod]
    grind

end Tendra
