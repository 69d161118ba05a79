import Mathlib.Data.List.Forall2
import Tendra.Ref.Basicread

/-!
# The reader is a view of the capsule

At any time the reader is at a bit position of the file: that of `crt_ptr`, less the
bits of `crt_bits` that are left. The packet in the buffer, and the memory of a place,
are pieces of the file that begin with a whole word, so all of the words that the
reader comes to are words of the file. A word may have bytes behind the end of the
file; they are never read.
-/

namespace Tendra.Ref.Basicread

open Tendra.Bits Reader

variable {file : List (BitVec 8)} {bits : List Bool} {pos x n off k fuel : Nat} {s : Reader}

/-- The `k` low bits of `x` are those from a position of the file on, as far as it has them. -/
def Shows (bits : List Bool) (pos k x : Nat) : Prop :=
  ∀ i < k, pos + i < bits.length → bits[pos + i]? = some (x.testBit (k - 1 - i))

theorem Shows.drop (h : Shows bits pos k x) (n : Nat) : Shows bits (pos + n) (k - n) x := by
  intro i hi hlen
  rw [Nat.add_assoc] at hlen ⊢
  rw [h (n + i) (by omega) hlen]
  congr 2
  omega

theorem Shows.take (h : Shows bits pos k x) (hn : n ≤ k) : Shows bits pos n (x >>> (k - n)) := by
  intro i hi hlen
  rw [h i (by omega) hlen, Nat.testBit_shiftRight]
  congr 2
  omega

theorem Shows.lowBits_eq (h : Shows bits pos k x) (hlen : pos + k ≤ bits.length) :
    lowBits k x = (bits.drop pos).take k := by
  refine List.ext_getElem? fun i => ?_
  by_cases hi : i < k
  · rw [getElem?_lowBits _ hi, List.getElem?_take_of_lt hi, List.getElem?_drop, h i hi (by omega)]
  · rw [List.getElem?_eq_none (by simp; omega), List.getElem?_eq_none (by simp; omega)]

theorem shows_zero (bits : List Bool) (pos x : Nat) : Shows bits pos 0 x :=
  fun _ hi => absurd hi (Nat.not_lt_zero _)

/-! ## Words -/

/-- Whatever the byte order of the machine, the word is read with the first byte on top. -/
theorem word_word (little : Bool) {a b c d : Nat} (ha : a < 256) (hb : b < 256) (hc : c < 256)
    (hd : d < 256) :
    word little (word little a b c d >>> 24 &&& 0xff) (word little a b c d >>> 16 &&& 0xff)
      (word little a b c d >>> 8 &&& 0xff) (word little a b c d >>> 0 &&& 0xff) =
      ((a * 256 + b) * 256 + c) * 256 + d := by
  have hand : ∀ x : Nat, x &&& 0xff = x % 256 := fun x => Nat.and_two_pow_sub_one_eq_mod x 8
  have hbytes : ∀ {p q r t : Nat}, p < 256 → q < 256 → r < 256 → t < 256 →
      (p + q * 256 + r * 65536 + t * 16777216) / 16777216 % 256 = t ∧
      (p + q * 256 + r * 65536 + t * 16777216) / 65536 % 256 = r ∧
      (p + q * 256 + r * 65536 + t * 16777216) / 256 % 256 = q ∧
      (p + q * 256 + r * 65536 + t * 16777216) % 256 = p := by
    intro p q r t hp hq hr ht
    have h1 : (p + q * 256 + r * 65536 + t * 16777216) / 256 = q + r * 256 + t * 65536 := by omega
    have h2 : (p + q * 256 + r * 65536 + t * 16777216) / 65536 = r + t * 256 := by omega
    have h3 : (p + q * 256 + r * 65536 + t * 16777216) / 16777216 = t := by omega
    rw [h1, h2, h3]
    omega
  cases little <;>
    simp only [word, hand, Nat.shiftRight_eq_div_pow, Nat.shiftLeft_eq, Bool.false_eq_true,
      if_false,
      if_true, Nat.reducePow, Nat.div_one]
  · obtain ⟨h3, h2, h1, h0⟩ := hbytes hd hc hb ha
    rw [h3, h2, h1, h0]
    omega
  · obtain ⟨h3, h2, h1, h0⟩ := hbytes ha hb hc hd
    rw [h3, h2, h1, h0]
    omega

/-- The four bytes of a word. -/
theorem shows_word {a b c d : BitVec 8} (ha : n < file.length → file[n]? = some a)
    (hb : n + 1 < file.length → file[n + 1]? = some b)
    (hc : n + 2 < file.length → file[n + 2]? = some c)
    (hd : n + 3 < file.length → file[n + 3]? = some d) :
    Shows (ofBytes file) (8 * n) 32
      (((a.toNat * 256 + b.toNat) * 256 + c.toNat) * 256 + d.toNat) := by
  have hbyte : ∀ {x : BitVec 8} {y r : Nat}, r < 8 →
      (y * 256 + x.toNat).testBit r = x.toNat.testBit r := by
    intro x y r hr
    rw [Nat.mul_comm, show (256 : Nat) = 2 ^ 8 from rfl, Nat.testBit_two_pow_mul_add _ x.isLt,
      if_pos hr]
  have hrest : ∀ {x : BitVec 8} {y r : Nat}, 8 ≤ r →
      (y * 256 + x.toNat).testBit r = y.testBit (r - 8) := by
    intro x y r hr
    rw [Nat.mul_comm, show (256 : Nat) = 2 ^ 8 from rfl, Nat.testBit_two_pow_mul_add _ x.isLt,
      if_neg (by omega)]
  intro i hi hlen
  rw [length_ofBytes] at hlen
  obtain ⟨j, r, hr, rfl⟩ : ∃ j r, r < 8 ∧ i = 8 * j + r :=
    ⟨i / 8, i % 8, Nat.mod_lt _ (by decide), (Nat.div_add_mod _ _).symm⟩
  rw [show 8 * n + (8 * j + r) = 8 * (n + j) + r by omega, getElem?_ofBytes _ _ hr]
  match j, (by omega : j < 4) with
  | 0, _ =>
      rw [Nat.add_zero, ha (by omega), hrest (by omega), hrest (by omega), hrest (by omega),
        Option.map_some]
      congr 2
      omega
  | 1, _ =>
      rw [hb (by omega), hrest (by omega), hrest (by omega), hbyte (by omega), Option.map_some]
      congr 2
      omega
  | 2, _ =>
      rw [hc (by omega), hrest (by omega), hbyte (by omega), Option.map_some]
      congr 2
      omega
  | 3, _ =>
      rw [hd (by omega), hbyte (by omega), Option.map_some]
      congr 2
      omega

/-- A piece of memory has the bytes of the file from a place on. -/
def Piece (file : List (BitVec 8)) (first : Nat) (mem : List (BitVec 8)) : Prop :=
  ∀ i < mem.length, first + i < file.length → mem[i]? = file[first + i]?

theorem Reader.fetch_spec (little : Bool) {first : Nat} (hpiece : Piece file first s.line)
    (hptr : s.crtPtr = off) (hoff : off + 4 ≤ s.line.length) :
    ∃ x, s.fetch little = some { s with crtBits := x, crtPtr := (off + 4 : Nat) } ∧
      Shows (ofBytes file) (8 * (first + off)) 32 x := by
  obtain ⟨a, b, c, d, rest, hdrop⟩ : ∃ a b c d rest,
      s.line.drop off = a :: b :: c :: d :: rest := by
    have hlen : 4 ≤ (s.line.drop off).length := by
      rw [List.length_drop]
      omega
    match s.line.drop off, hlen with
    | a :: b :: c :: d :: rest, _ => exact ⟨a, b, c, d, rest, rfl⟩
  have hget : ∀ {j : Nat} {x : BitVec 8}, (a :: b :: c :: d :: rest)[j]? = some x → j < 4 →
      first + off + j < file.length → file[first + off + j]? = some x := by
    intro j x hx hj hlen
    rw [← hdrop, List.getElem?_drop] at hx
    rw [Nat.add_assoc, ← hpiece (off + j) (by omega) (by omega), hx]
  refine ⟨_, ?_, shows_word (hget (j := 0) rfl (by decide)) (hget (j := 1) rfl (by decide))
    (hget (j := 2) rfl (by decide)) (hget (j := 3) rfl (by decide))⟩
  rw [fetch, hptr, Int.toNat_natCast, hdrop]
  simp only
  rw [if_neg (by omega), word_word little a.isLt b.isLt c.isLt d.isLt]
  rfl

/-! ## Places in the capsule -/

/-- A place in the capsule: the first byte of the memory if it is read from there, the position,
and the end of what may be read, all counted in the file. -/
structure Spot where
  memory : Option Nat
  pos : Nat
  limit : Nat
deriving DecidableEq, Repr

/-- The first byte of the memory, or of the file. -/
def Spot.first (t : Spot) : Nat := t.memory.getD 0

/-- The packet that is in the buffer after the bit `last` has been looked at. -/
def Spot.advance (t : Spot) (k last : Nat) : Nat :=
  if t.memory.isNone then max k (last / bppkt) else k

/-- The places of a capsule. -/
structure Spot.Ok (file : List (BitVec 8)) (t : Spot) : Prop where
  pos_le : t.pos ≤ t.limit
  limit_le : t.limit ≤ 8 * file.length
  bytes : t.limit % 8 = 0
  whole : t.memory = none → t.limit = 8 * file.length

/-- The side of the file: the packet `k` is in the buffer. -/
structure Buffered (file : List (BitVec 8)) (k : Nat) (s : Reader) : Prop where
  size : s.buff.length = 256
  piece : Piece file (256 * k) s.buff
  rest : s.fpin = file.drop (256 * (k + 1))
  packet : s.filePkt = int k

/-- The position in the line that begins with the byte `first`. -/
structure Within (file : List (BitVec 8)) (first pos : Nat) (s : Reader) (off : Nat) : Prop where
  ptr : s.crtPtr = off
  le : off ≤ s.line.length
  aligned : off % 4 = 0 ∧ first % 4 = 0 ∧ s.line.length % 4 = 0
  piece : Piece file first s.line
  small : s.getcodeBitposn < 32
  loaded : s.getcodeBitposn > 0 → 4 ≤ off
  pos_eq : pos + s.getcodeBitposn = 8 * (first + off)
  shows : Shows (ofBytes file) pos s.getcodeBitposn s.crtBits

/-- The line that the reader reads from. -/
structure Lined (t : Spot) (k : Nat) (s : Reader) (first : Nat) : Prop where
  flag : s.tableFlag = t.memory.isSome
  inFile : t.memory = none → s.crtLine = none ∧ first = 256 * k ∧ s.pktIndex = int k
  inMemory : ∀ b, t.memory = some b → s.crtLine = some s.currentPlace.plMem ∧ first = b ∧
    t.limit ≤ 8 * (b + s.line.length)

/-- The reader is at a place of the capsule, and has the packet `k` in its buffer. -/
structure At (file : List (BitVec 8)) (k : Nat) (s : Reader) (t : Spot) : Prop where
  ok : t.Ok file
  buffered : Buffered file k s
  reads : ∃ first off, Lined t k s first ∧ Within file first t.pos s off

/-- What `keep_place` makes of a place of the capsule. -/
structure Place.Is (file : List (BitVec 8)) (pl : Place) (t : Spot) : Prop where
  ok : t.Ok file
  flag : pl.flag = t.memory.isSome
  bits : pl.bitsOn = ((t.pos - 8 * t.first : Nat) : Int)
  first_le : 8 * t.first ≤ t.pos
  small : t.pos - 8 * t.first < 2 ^ 31
  memory : ∀ b, t.memory = some b → b % 4 = 0 ∧ pl.plMem.length % 4 = 0 ∧
    t.limit ≤ 8 * (b + pl.plMem.length) ∧ Piece file b pl.plMem

/-! ## Packets -/

theorem int_eq {x : Int} (h0 : 0 ≤ x) (h : x < 2 ^ 31) : int x = x := by
  rw [int, Int.bmod_eq_of_le] <;> omega

theorem int_int_add (x y : Int) : int (int x + y) = int (x + y) := Int.bmod_add_bmod

theorem int_int_sub (x y : Int) : int (int x - y) = int (x - y) := Int.bmod_sub_bmod

theorem int_add_int (x y : Int) : int (x + int y) = int (x + y) := Int.add_bmod_bmod

theorem int_int_mul (x y : Int) : int (int x * y) = int (x * y) := Int.bmod_mul_bmod

theorem line_none (h : s.crtLine = none) : s.line = s.buff := by
  rw [line, h]
  rfl

/-- The next packet, or what stands for it at the end of the file. -/
theorem readLine_spec (h : Buffered file k s) (hpkt : s.pktIndex = int k) (complain : Bool)
    (hmore : complain = true → 256 * (k + 1) < file.length) :
    ∃ s', readLine complain s = some s' ∧ Buffered file (k + 1) s' ∧
    s'.pktIndex = int (k + 1 : Nat) ∧
      s'.crtLine = none ∧
      s' = { s with
        buff := s'.buff
        fpin := s'.fpin
        pktIndex := s'.pktIndex
        filePkt := s'.filePkt
        crtLine := none } := by
  have hlen : (s.fpin.take cppkt).length = min 256 (file.length - 256 * (k + 1)) := by
    rw [List.length_take, h.rest, List.length_drop]
  have hsize := h.size
  rw [readLine, if_neg]
  · refine ⟨_, rfl, ⟨?_, ?_, ?_, ?_⟩, ?_, rfl, rfl⟩
    · rw [List.length_append, List.length_drop]
      omega
    · intro i hi hfile
      simp only [List.length_append, List.length_drop] at hi
      show (s.fpin.take cppkt ++ s.buff.drop _)[i]? = _
      rw [List.getElem?_append_left (by omega), List.getElem?_take_of_lt (show i < 256 by omega),
        h.rest, List.getElem?_drop]
    · show s.fpin.drop cppkt = _
      rw [h.rest, List.drop_drop]
      congr 1
    · show int (s.filePkt + 1) = _
      rw [h.packet, int_int_add]
      rfl
    · show int (s.pktIndex + 1) = _
      rw [hpkt, int_int_add]
      rfl
  · rintro ⟨hzero, hc⟩
    have hm := hmore hc
    rw [hlen] at hzero
    omega

/-- A packet is read if the position is at the end of the one in the buffer. -/
theorem refill_spec (h : Buffered file k s) {t : Spot} {first : Nat} (hlined : Lined t k s first)
    (hptr : s.crtPtr = off) (hoff : off ≤ s.line.length) (hpiece : Piece file first s.line)
    (hmore : t.memory = none → off = 256 → first + off < file.length) :
    ∃ s' k' first' off',
      s.refill = some s' ∧ Buffered file k' s' ∧ Lined t k' s' first' ∧ Piece file first' s'.line ∧
      s'.crtPtr = (off' : Nat) ∧
      off' ≤ s'.line.length ∧ first' + off' = first + off ∧ (t.memory = none → off' < 256) ∧
      (t.memory ≠ none → k' = k) ∧ (off % 4 = 0 → off' % 4 = 0) ∧ (first % 4 = 0 → first' % 4 = 0) ∧
      (s.line.length % 4 = 0 → s'.line.length % 4 = 0) ∧
      s' = { s with
        crtPtr := s'.crtPtr
        buff := s'.buff
        fpin := s'.fpin
        pktIndex := s'.pktIndex
        filePkt := s'.filePkt
        crtLine := s'.crtLine } := by
  by_cases hend : s.atEnd = true
  · rw [atEnd, Bool.and_eq_true, Option.isNone_iff_eq_none, decide_eq_true_eq, hptr] at hend
    obtain ⟨hnone, hoff256⟩ := hend
    have hmem : t.memory = none := by
      cases hm : t.memory with
      | none => rfl
      | some b =>
          have hsome := (hlined.inMemory b hm).1
          rw [hnone] at hsome
          nomatch hsome
    obtain ⟨_, hfirst, hpkt⟩ := hlined.inFile hmem
    have hoffn : off = 256 := by exact_mod_cast hoff256
    have hlt := hmore hmem hoffn
    obtain ⟨s', hread, hbuf, hpkt', hline, hframe⟩ := readLine_spec h hpkt true fun _ => by omega
    have hline0 : line { s' with crtPtr := 0 } = s'.buff := line_none hline
    refine ⟨{ s' with crtPtr := 0 }, k + 1, 256 * (k + 1), 0, ?_, ⟨hbuf.size, hbuf.piece, hbuf.rest,
      hbuf.packet⟩, ⟨?_, fun _ => ⟨hline, rfl, hpkt'⟩, fun b hb => ?_⟩, ?_, rfl,
      Nat.zero_le _, by omega,
      fun _ => by decide, fun hne => absurd hmem hne, fun _ => rfl, fun _ => by omega, fun _ => ?_,
      ?_⟩
    · have : s.atEnd = true := by simp [atEnd, hnone, hptr, hoffn]
      rw [refill, if_pos this, hread]
      rfl
    · rw [← hlined.flag, hframe]
    · rw [hmem] at hb
      nomatch hb
    · rw [hline0]
      exact hbuf.piece
    · rw [hline0, hbuf.size]
    · rw [hframe]
  · refine ⟨s, k, first, off, if_neg hend, h, hlined, hpiece, hptr, hoff, rfl, fun hm => ?_,
      fun _ => rfl,
      id, id, id, rfl⟩
    obtain ⟨hnone, _, _⟩ := hlined.inFile hm
    rw [line_none hnone, h.size] at hoff
    refine Nat.lt_of_le_of_ne hoff fun heq => hend ?_
    simp [atEnd, hnone, hptr, heq]

/-! ## Reading -/

/-- The number that the two parts of a code are joined to. -/
theorem lowBits_code {p c m : Nat} (hc : Shows bits pos p c) (hx : Shows bits (pos + p) m x)
    (hlen : pos + (p + m) ≤ bits.length) :
    lowBits (p + m) (c % 2 ^ p * 2 ^ m + x % 2 ^ m) = (bits.drop pos).take (p + m) := by
  rw [← lowBits_append p m (Nat.mod_lt _ (Nat.two_pow_pos m)), lowBits_mod, lowBits_mod,
    hc.lowBits_eq (by omega), hx.lowBits_eq (by omega), List.take_add, List.drop_drop]

theorem and_lsbMask (x n : Nat) : x &&& lsbMask n = x % 2 ^ n :=
  Nat.and_two_pow_sub_one_eq_mod x n

section

variable {little : Bool} {w : Nat} {wide : Nat → Nat → Nat} {t : Spot}

/-- The parts of a code are added up without loss, and no shift has to be undefined. -/
theorem code_value (hw : 32 ≤ w) (wide : Nat → Nat → Nat) {p m : Nat} (hpm : p + m ≤ 32)
    (hm : m < w)
    (hpos : 0 < m) (c x : Nat) :
    (shiftLeft w wide (c &&& lsbMask p) m % 2 ^ 32 + (shiftRight wide x (32 - m) &&& lsbMask m)) %
        2 ^ 32 = c % 2 ^ p * 2 ^ m + (x >>> (32 - m)) % 2 ^ m ∧
      c % 2 ^ p * 2 ^ m + (x >>> (32 - m)) % 2 ^ m < 2 ^ (p + m) := by
  have hfit : c % 2 ^ p * 2 ^ m + (x >>> (32 - m)) % 2 ^ m < 2 ^ (p + m) := by
    rw [Nat.pow_add]
    calc c % 2 ^ p * 2 ^ m + (x >>> (32 - m)) % 2 ^ m
        < c % 2 ^ p * 2 ^ m + 2 ^ m := Nat.add_lt_add_left (Nat.mod_lt _ (Nat.two_pow_pos m)) _
      _ = (c % 2 ^ p + 1) * 2 ^ m := by ring
      _ ≤ 2 ^ p * 2 ^ m := Nat.mul_le_mul_right _ (Nat.mod_lt _ (Nat.two_pow_pos p))
  have h32 : 2 ^ (p + m) ≤ 2 ^ 32 := Nat.pow_le_pow_right (by decide) hpm
  have hwide : (2 : Nat) ^ 32 ≤ 2 ^ w := Nat.pow_le_pow_right (by decide) hw
  refine ⟨?_, hfit⟩
  rw [shiftLeft, if_pos (by omega), shiftRight, if_pos (by omega), and_lsbMask, and_lsbMask,
    Nat.shiftLeft_eq]
  generalize c % 2 ^ p * 2 ^ m = q at hfit ⊢
  rw [Nat.mod_eq_of_lt (a := q) (by omega), Nat.mod_eq_of_lt (a := q) (by omega),
    Nat.mod_eq_of_lt (by omega)]

/-- The packet in the buffer is the one that the position is in, or comes to the end of. -/
theorem At.packet_le (h : At file k s t) (hm : t.memory = none) :
    bppkt * k ≤ t.pos := by
  obtain ⟨_, _, first, off, hlined, hin⟩ := h
  obtain ⟨_, hfirst, _⟩ := hlined.inFile hm
  have heq := hin.pos_eq
  have hsmall := hin.small
  have hloaded := hin.loaded
  show 2048 * k ≤ t.pos
  omega

/-- A step forward within the word that is loaded. -/
theorem At.skip (h : At file k s t) (hn : n ≤ s.getcodeBitposn) (hlimit : t.pos + n ≤ t.limit) :
    At file k { s with getcodeBitposn := s.getcodeBitposn - n } { t with pos := t.pos + n } := by
  obtain ⟨⟨_, hle, hbytes, hwhole⟩, hbuf, first, off, hlined, hin⟩ := h
  refine ⟨⟨hlimit, hle, hbytes, hwhole⟩, ⟨hbuf.size, hbuf.piece, hbuf.rest, hbuf.packet⟩, first,
    off,
    ⟨hlined.flag, hlined.inFile, hlined.inMemory⟩,
    ⟨hin.ptr, hin.le, hin.aligned, hin.piece, ?_, ?_, ?_,
      hin.shows.drop n⟩⟩
  · exact Nat.lt_of_le_of_lt (Nat.sub_le _ _) hin.small
  · exact fun hpos => hin.loaded (Nat.lt_of_lt_of_le hpos (Nat.sub_le _ _))
  · have heq := hin.pos_eq
    show t.pos + n + (s.getcodeBitposn - n) = _
    omega

theorem getcode_spec (little : Bool) (hw : 32 ≤ w) (wide : Nat → Nat → Nat) (h : At file k s t)
    (hn : 1 ≤ n ∧ n ≤ 32) (hlimit : t.pos + n ≤ t.limit)
    (hclear : n = 32 → t.pos % 32 = 0 → 32 < w) :
    ∃ code, getcode little w wide n s = some code ∧ code.value < 2 ^ n ∧
      lowBits n code.value = ((ofBytes file).drop t.pos).take n ∧
      (¬(n = 32 ∧ t.pos % 32 = 0) → 32 ∉ code.counts) ∧
      At file (t.advance k (t.pos + n - 1)) code.next { t with pos := t.pos + n } := by
  have hall := h
  obtain ⟨⟨_, hle, hbytes, hwhole⟩, hbuf, first, off, hlined, hin⟩ := hall
  have hfile : t.pos + n ≤ (ofBytes file).length := by
    rw [length_ofBytes]
    omega
  have hsmall := hin.small
  have heq := hin.pos_eq
  have hoff := hin.le
  obtain ⟨hoff4, hfirst4, hlen4⟩ := hin.aligned
  rw [getcode]
  split
  · rename_i hge
    have hpacket : t.advance k (t.pos + n - 1) = k := by
      rw [Spot.advance]
      split
      · rename_i hnone
        have hm := Option.isNone_iff_eq_none.1 hnone
        obtain ⟨hline, hfirst, _⟩ := hlined.inFile hm
        rw [line_none hline, hbuf.size] at hoff
        show max k ((t.pos + n - 1) / 2048) = k
        omega
      · rfl
    rw [hpacket]
    refine ⟨_, rfl, ?_, ?_, ?_, h.skip hge hlimit⟩
    · rw [and_lsbMask]
      exact Nat.mod_lt _ (Nat.two_pow_pos n)
    · rw [and_lsbMask, lowBits_mod, shiftRight, if_pos (by omega)]
      exact (hin.shows.take hge).lowBits_eq hfile
    · intro _
      simp only [List.mem_singleton]
      omega
  · rename_i hlt
    have hshows := hin.shows
    generalize s.getcodeBitposn = p at hlt hshows heq hsmall ⊢
    obtain ⟨m, rfl⟩ : ∃ m, n = p + m := ⟨n - p, by omega⟩
    have hm : m < w := by omega
    have hmpos : 0 < m := by omega
    obtain ⟨s', k', first', off', href, hbuf', hlined', hpiece', hptr', hoff', hsum, h256, hk', h4,
        hf4,
      hl4, -⟩ := refill_spec hbuf hlined hin.ptr hin.le hin.piece fun _ _ => by omega
    have h4 := h4 hoff4
    have hf4 := hf4 hfirst4
    have hl4 := hl4 hlen4
    have hroom : off' + 4 ≤ s'.line.length := by
      cases hmem : t.memory with
      | none =>
          have hlt := h256 hmem
          rw [line_none (hlined'.inFile hmem).1, hbuf'.size]
          omega
      | some b =>
          obtain ⟨_, hb, hl⟩ := hlined'.inMemory b hmem
          omega
    have hpacket : t.advance k (t.pos + (p + m) - 1) = k' := by
      rw [Spot.advance]
      split
      · rename_i hnone
        have hm := Option.isNone_iff_eq_none.1 hnone
        obtain ⟨hline, hfirst, _⟩ := hlined.inFile hm
        obtain ⟨_, hfirst', _⟩ := hlined'.inFile hm
        have hlt := h256 hm
        rw [line_none hline, hbuf.size] at hoff
        show max k ((t.pos + (p + m) - 1) / 2048) = k'
        omega
      · rename_i hsome
        exact (hk' fun hm => hsome (by rw [hm]; rfl)).symm
    rw [hpacket]
    obtain ⟨x, hfetch, hx⟩ := fetch_spec little hpiece' hptr' hroom
    have hstart : t.pos + p = 8 * (first' + off') := by omega
    rw [← hstart] at hx
    obtain ⟨hval, hfit⟩ := code_value hw wide hn.2 hm hmpos s.crtBits x
    refine ⟨⟨(shiftLeft w wide (s.crtBits &&& lsbMask p) m % 2 ^ 32 +
        (shiftRight wide x (32 - m) &&& lsbMask m)) % 2 ^ 32, [m, 24, 16, 8, 0, 32 - m], { s' with
      crtBits := x
      crtPtr := (off' + 4 : Nat)
      getcodeBitposn := 32 - m }⟩, ?_, ?_, ?_, ?_, ⟨⟨hlimit, hle, hbytes, hwhole⟩,
        ⟨hbuf'.size, hbuf'.piece, hbuf'.rest, hbuf'.packet⟩, first', off' + 4,
        ⟨hlined'.flag, hlined'.inFile, hlined'.inMemory⟩,
        ⟨rfl, hroom, ⟨?_, hf4, hl4⟩, hpiece', ?_, fun _ => Nat.le_add_left _ _, ?_, ?_⟩⟩⟩
    · simp only [Nat.add_sub_cancel_left, href, Option.bind_eq_bind, Option.bind_some, hfetch]
    · rw [hval]
      exact hfit
    · rw [hval]
      exact lowBits_code hshows (hx.take (by omega)) hfile
    · intro hne
      show 32 ∉ [m, 24, 16, 8, 0, 32 - m]
      simp only [List.mem_cons, List.not_mem_nil, or_false, not_or]
      omega
    · omega
    · show 32 - m < 32
      omega
    · show t.pos + (p + m) + (32 - m) = _
      omega
    · have hrest := hx.drop m
      rw [Nat.add_assoc] at hrest
      exact hrest

/-- The one undefined shift. -/
theorem getcode_counts (hs : s.getcodeBitposn = 0) {code : Code}
    (h : getcode little w wide 32 s = some code) : 32 ∈ code.counts := by
  rw [getcode, if_neg (by omega), hs] at h
  simp only [Option.bind_eq_bind, Option.bind_eq_some_iff] at h
  obtain ⟨s1, _, s2, _, hcode⟩ := h
  rw [← Option.some.inj hcode]
  exact List.mem_cons_self

theorem toBoundary_spec (h : At file k s t) :
    At file k s.toBoundary { t with pos := (t.pos + 7) / 8 * 8 } := by
  obtain ⟨hle, _, hbytes, _⟩ := h.ok
  obtain ⟨_, _, first, off, _, hin⟩ := id h
  have heq := hin.pos_eq
  have hskip := h.skip (n := s.getcodeBitposn % 8) (Nat.mod_le _ _) (by omega)
  rw [show t.pos + s.getcodeBitposn % 8 = (t.pos + 7) / 8 * 8 by omega] at hskip
  exact hskip

/-! ## Places -/

/-- The position in the line. -/
theorem Within.bits_eq {first : Nat} (h : Within file first pos s off) :
    8 * first ≤ pos ∧ (off : Int) * 8 - s.getcodeBitposn = ((pos - 8 * first : Nat) : Int) := by
  have heq := h.pos_eq
  have hsmall := h.small
  have hloaded := h.loaded
  omega

theorem keepPlace_spec (h : At file k s t)
    (hclear : t.pos - 8 * t.first < 2 ^ 31) : (keepPlace s).Is file t := by
  obtain ⟨hok, hbuf, first, off, hlined, hin⟩ := h
  obtain ⟨hle, hbits⟩ := hin.bits_eq
  have hflag := hlined.flag
  rw [keepPlace, hin.ptr, int_int_sub, hbits]
  cases hm : t.memory with
  | none =>
      obtain ⟨_, hfirst, hpkt⟩ := hlined.inFile hm
      have hzero : t.first = 0 := by
        rw [Spot.first, hm]
        rfl
      rw [hm] at hflag
      rw [if_neg (by simp [hflag]), hpkt, int_int_mul, int_int_add, int_add_int]
      have hsum : ((t.pos - 8 * first : Nat) : Int) + (k : Int) * (bppkt : Nat) =
          (t.pos : Nat) := by
        show _ + (k : Int) * 2048 = _
        omega
      rw [hsum, int_eq (by omega) (by rw [hzero] at hclear; omega)]
      refine ⟨hok, by rw [hm]; rfl, ?_, ?_, hclear, fun b hb => ?_⟩
      · rw [hzero]
        rfl
      · rw [hzero]
        exact Nat.zero_le _
      · rw [hm] at hb
        nomatch hb
  | some b =>
      obtain ⟨hline, rfl, hlimit⟩ := hlined.inMemory _ hm
      have hfirst : t.first = first := by
        rw [Spot.first, hm]
        rfl
      rw [hm] at hflag
      rw [hfirst] at hclear
      rw [if_pos (by simp [hflag]), int_eq (by omega) (by omega)]
      refine ⟨hok, by rw [hm]; rfl, ?_, ?_, ?_, fun b' hb' => ?_⟩
      · rw [hfirst]
      · rw [hfirst]
        exact hle
      · rw [hfirst]
        exact hclear
      · rw [hm] at hb'
        obtain rfl := Option.some.inj hb'
        exact ⟨hin.aligned.2.1, hin.aligned.2.2, hlimit, hin.piece⟩

theorem readLines_spec (j : Nat) : ∀ {k : Nat} {s : Reader}, Buffered file k s →
    s.pktIndex = int k →
    s.crtLine = none → ∃ s', readLines j s = some s' ∧ Buffered file (k + j) s' ∧
      s'.pktIndex = int (k + j : Nat) ∧ s'.crtLine = none ∧ s'.crtPtr = s.crtPtr ∧
      s'.tableFlag = s.tableFlag := by
  induction j with
  | zero => exact fun {k s} h hpkt hline => ⟨s, rfl, h, hpkt, hline, rfl, rfl⟩
  | succ j ih =>
      intro k s h hpkt _
      obtain ⟨s', hread, hbuf, hpkt', hline, hframe⟩ :=
        readLine_spec h hpkt false (fun hc => nomatch hc)
      obtain ⟨s'', hreads, hbuf', hpkt'', hline', hptr, hflag⟩ := ih hbuf hpkt' hline
      refine ⟨s'', ?_, ?_, ?_, hline', ?_, ?_⟩
      · rw [readLines, hread]
        exact hreads
      · rw [show k + (j + 1) = k + 1 + j by omega]
        exact hbuf'
      · rw [show k + (j + 1) = k + 1 + j by omega]
        exact hpkt''
      · rw [hptr, hframe]
      · rw [hflag, hframe]

/-- The end of `set_place`: a word that is begun is loaded. -/
theorem load_spec (little : Bool) (hok : t.Ok file) {first : Nat} (hbuf : Buffered file k s)
    (hlined : Lined t k s first) (hpiece : Piece file first s.line)
    (haligned : first % 4 = 0 ∧ s.line.length % 4 = 0) (hx : t.pos = 8 * first + x)
    (hptr : s.crtPtr = (x / 32 * 4 : Nat)) (hroom : x ≤ 8 * s.line.length)
    (hbit : s.getcodeBitposn = (32 - x % 32) % 32) :
    ∃ s', (if s.getcodeBitposn > 0 then s.fetch little else some s) = some s' ∧ At file k s' t := by
  split
  · rename_i hpos
    obtain ⟨y, hfetch, hy⟩ := fetch_spec little hpiece hptr (by omega)
    refine ⟨_, hfetch, hok, ⟨hbuf.size, hbuf.piece, hbuf.rest, hbuf.packet⟩, first, x / 32 * 4 + 4,
      ⟨hlined.flag, hlined.inFile, hlined.inMemory⟩, ⟨rfl, ?_, ⟨by omega, haligned⟩, hpiece, ?_,
        fun _ => Nat.le_add_left _ _, ?_, ?_⟩⟩
    · show x / 32 * 4 + 4 ≤ s.line.length
      omega
    · show s.getcodeBitposn < 32
      omega
    · show t.pos + s.getcodeBitposn = _
      omega
    · have hrest := hy.drop (x % 32)
      rw [show 8 * (first + x / 32 * 4) + x % 32 = t.pos by omega,
        show 32 - x % 32 = s.getcodeBitposn by omega] at hrest
      exact hrest
  · rename_i hzero
    have hz : s.getcodeBitposn = 0 := by omega
    refine ⟨s, rfl, hok, hbuf, first, x / 32 * 4, hlined,
      ⟨hptr, by omega, ⟨by omega, haligned⟩, hpiece,
      by omega, fun hpos => absurd hpos hzero, by omega, ?_⟩⟩
    rw [hz]
    exact shows_zero _ _ _

/-- The line that a place is in. -/
theorem placeLine_spec (hbuf : Buffered file k s) {pl : Place}
    (hpl : pl.Is file t) (hbefore : t.memory = none → bppkt * k ≤ t.pos) :
    ∃ s' first x, s.placeLine pl = some s' ∧ Buffered file (t.advance k t.pos) s' ∧
      Lined t (t.advance k t.pos) s' first ∧ Piece file first s'.line ∧
      (first % 4 = 0 ∧ s'.line.length % 4 = 0) ∧ t.pos = 8 * first + x ∧
      x % 32 = (t.pos - 8 * t.first) % 32 ∧ s'.crtPtr = (x / 32 * 4 : Nat) ∧
      x ≤ 8 * s'.line.length := by
  obtain ⟨hok, hflag, hbits, hfirst, hsmall, hmemory⟩ := hpl
  obtain ⟨hpos, hlimit, _, _⟩ := hok
  have hdiv : ∀ n : Nat, pl.bitsOn.tdiv n = ((t.pos - 8 * t.first) / n : Nat) := fun n => by
    rw [hbits, Int.tdiv_eq_ediv_of_nonneg (by omega)]
    rfl
  have h32 := hdiv 32
  have hpkt := hdiv bppkt
  cases hm : t.memory with
  | none =>
      have hzero : t.first = 0 := by
        rw [Spot.first, hm]
        rfl
      have hbefore : 2048 * k ≤ t.pos := hbefore hm
      have hflag : pl.flag = false := by
        rw [hflag, hm]
        rfl
      rw [hzero] at hsmall h32 hpkt ⊢
      have hpkt : pl.bitsOn.tdiv bppkt = (t.pos / 2048 : Nat) := hpkt
      have h32 : pl.bitsOn.tdiv 32 = (t.pos / 32 : Nat) := h32
      have hk : s.filePkt = k := by
        rw [hbuf.packet]
        exact int_eq (by omega) (by omega)
      have hlast : t.advance k t.pos = k + (t.pos / 2048 - k) := by
        rw [Spot.advance, hm]
        show max k (t.pos / 2048) = _
        omega
      rw [placeLine, hflag, if_pos (by decide)]
      simp only [hpkt, h32, hk, hlast]
      obtain ⟨s', hread, hbuf', hpkt', hline, hptr, htable⟩ :=
          readLines_spec (t.pos / 2048 - k) (k := k)
        (s := { s with
          tableFlag := false
          crtLine := none
          crtPtr := (t.pos / 32 : Nat) * 4 - (t.pos / 2048 : Nat) * (cppkt : Nat)
          pktIndex := (k : Int) })
        ⟨hbuf.size, hbuf.piece, hbuf.rest, hbuf.packet⟩ (hk.symm.trans hbuf.packet) rfl
      refine ⟨s', 256 * (k + (t.pos / 2048 - k)), t.pos - 2048 * (t.pos / 2048), ?_, hbuf',
        ⟨?_, fun _ => ⟨hline, rfl, hpkt'⟩, fun b hb => ?_⟩, ?_, ?_, ?_, ?_, ?_, ?_⟩
      · rw [show ((t.pos / 2048 : Nat) : Int) - k = (t.pos / 2048 - k : Nat) by omega,
          Int.toNat_natCast]
        rw [hk] at hread
        exact hread
      · rw [htable, hm]
        rfl
      · rw [hm] at hb
        nomatch hb
      · rw [line_none hline]
        exact hbuf'.piece
      · rw [line_none hline, hbuf'.size]
        omega
      · omega
      · omega
      · rw [hptr]
        show ((t.pos / 32 : Nat) : Int) * 4 - (t.pos / 2048 : Nat) * 256 = _
        omega
      · rw [line_none hline, hbuf'.size]
        omega
  | some b =>
      have hfirst' : t.first = b := by
        rw [Spot.first, hm]
        rfl
      obtain ⟨hb4, hlen4, hend, hpiece⟩ := hmemory b hm
      have hflag : pl.flag = true := by
        rw [hflag, hm]
        rfl
      rw [hfirst'] at hfirst h32 ⊢
      have h32 : pl.bitsOn.tdiv 32 = ((t.pos - 8 * b) / 32 : Nat) := h32
      have hlast : t.advance k t.pos = k := by
        rw [Spot.advance, hm]
        rfl
      rw [placeLine, hflag, if_neg (by decide), h32, hlast]
      refine ⟨_, b, t.pos - 8 * b, rfl, ⟨hbuf.size, hbuf.piece, hbuf.rest, hbuf.packet⟩,
        ⟨by rw [hm]; rfl, fun hn => ?_, fun b' hb' => ?_⟩, hpiece, ⟨hb4, hlen4⟩, by omega, rfl, ?_,
        ?_⟩
      · rw [hm] at hn
        nomatch hn
      · rw [hm] at hb'
        exact ⟨rfl, Option.some.inj hb', Option.some.inj hb' ▸ hend⟩
      · show (((t.pos - 8 * b) / 32 : Nat) : Int) * 4 = _
        omega
      · show t.pos - 8 * b ≤ 8 * pl.plMem.length
        omega

theorem setPlace_spec (little : Bool) (hbuf : Buffered file k s) {pl : Place}
    (hpl : pl.Is file t) (hbefore : t.memory = none → bppkt * k ≤ t.pos) :
    ∃ s', setPlace little pl s = some s' ∧ At file (t.advance k t.pos) s' t := by
  obtain ⟨s', first, x, hline, hbuf', hlined, hpiece, haligned, hx, hmod, hptr, hroom⟩ :=
    placeLine_spec hbuf hpl hbefore
  have hbitposn :
      (if (32 - pl.bitsOn.tmod 32).toNat = 32 then 0 else (32 - pl.bitsOn.tmod 32).toNat) =
      (32 - x % 32) % 32 := by
    rw [hpl.bits, Int.tmod_eq_emod_of_nonneg (by omega)]
    split <;> omega
  rw [setPlace, hline]
  simp only [Option.bind_eq_bind, Option.bind_some, hbitposn]
  exact load_spec little (s := { s' with getcodeBitposn := (32 - x % 32) % 32 }) hpl.ok
    ⟨hbuf'.size, hbuf'.piece, hbuf'.rest, hbuf'.packet⟩
    ⟨hlined.flag, hlined.inFile, hlined.inMemory⟩
    hpiece haligned hx hptr hroom rfl

/-! ## Bitstreams -/

/-- The place of a bitstream of `length` bits: a copy of the words that it is in, or the memory that
is read from already. -/
def Spot.bitstream (t : Spot) (length : Nat) : Spot :=
  match t.memory with
  | none => ⟨some (t.pos / 32 * 4), t.pos, min t.limit ((t.pos + length + 31) / 32 * 32)⟩
  | some _ => t

/-- The copy goes on over packets as long as there is more of the file at their ends. -/
theorem copyChars_spec (cnt : Nat) : ∀ {k off : Nat} {s : Reader} {t : Spot}, t.memory = none →
    Buffered file k s → Lined t k s (256 * k) → s.crtPtr = (off : Nat) → off ≤ 256 →
    (∀ j < cnt, 0 < off + j → (off + j) % 256 = 0 → 256 * k + off + j < file.length) →
    ∃ mem s' k' off', copyChars cnt s = some (mem, s') ∧ Buffered file k' s' ∧ mem.length = cnt ∧
      Piece file (256 * k + off) mem ∧ 256 * k' + off' = 256 * k + off + cnt ∧ off' ≤ 256 ∧
      (cnt = 0 → k' = k) ∧ (cnt ≠ 0 → 0 < off') ∧ s'.crtPtr = (off' : Nat) ∧
      s'.crtLine = none := by
  induction cnt with
  | zero =>
      intro k off s t hm hbuf hlined hptr hoff _
      exact ⟨[], s, k, off, rfl, hbuf, rfl, fun i hi => absurd hi (Nat.not_lt_zero i), rfl, hoff,
        fun _ => rfl, fun h => absurd rfl h, hptr, (hlined.inFile hm).1⟩
  | succ cnt ih =>
      intro k off s t hm hbuf hlined hptr hoff hwords
      have hline := line_none (hlined.inFile hm).1
      obtain ⟨s1, k1, first1, off1, href, hbuf1, hlined1, hpiece1, hptr1, hle1, hsum, h256, _, _, _,
          _, -⟩ :=
        refill_spec hbuf hlined hptr (by rw [hline, hbuf.size]; exact hoff)
          (by rw [hline]; exact hbuf.piece) fun _ hend => by
            exact hwords 0 (Nat.zero_lt_succ _) (by omega) (by omega)
      obtain ⟨hnone1, hfirst1, hpkt1⟩ := hlined1.inFile hm
      have hlt := h256 hm
      have hline1 := line_none hnone1
      have hc : off1 < s1.line.length := by
        rw [hline1, hbuf1.size]
        exact hlt
      obtain ⟨mem, s2, k2, off2, hcopy, hbuf2, hlen, hpiece, hsum2, hoff2, hzero2, hpos2, hend⟩ :=
        @ih k1 (off1 + 1) { s1 with crtPtr := s1.crtPtr + 1 } t hm
          ⟨hbuf1.size, hbuf1.piece, hbuf1.rest, hbuf1.packet⟩
          ⟨hlined1.flag, fun _ => ⟨hnone1, rfl, hpkt1⟩, fun b hb => by rw [hm] at hb; nomatch hb⟩
          (by rw [hptr1]; rfl) hlt fun j hj hpos hend => by
            have hword := hwords (j + 1) (Nat.succ_lt_succ hj) (by omega) (by omega)
            omega
      refine ⟨s1.line[off1] :: mem, s2, k2, off2, ?_, hbuf2, by rw [List.length_cons, hlen],
        ?_, by omega,
        hoff2, fun h => absurd h (Nat.succ_ne_zero _), fun _ => ?_, hend⟩
      · rw [copyChars, href]
        simp only [Option.bind_eq_bind, Option.bind_some]
        rw [hptr1, if_neg (by omega), Int.toNat_natCast, List.getElem?_eq_getElem hc,
          Option.bind_some,
          ← hptr1, hcopy]
        rfl
      · intro i hi hfile
        cases i with
        | zero =>
            have hget := hpiece1 off1 hc (by omega)
            rw [List.getElem?_cons_zero, ← List.getElem?_eq_getElem hc, hget, hsum, Nat.add_zero]
        | succ i =>
            rw [List.getElem?_cons_succ, hpiece i (Nat.lt_of_succ_lt_succ hi) (by omega)]
            congr 1
            omega
      · by_cases hz : cnt = 0
        · have hk2 := hzero2 hz
          omega
        · exact hpos2 hz

/-- The bits of the first word before the position, as `new_place` counts them. -/
theorem Within.bitsOn_eq {first : Nat} (h : Within file first pos s off) :
    (if s.getcodeBitposn = 0 then (0 : Int) else 32 - s.getcodeBitposn) = (pos % 32 : Nat) := by
  have heq := h.pos_eq
  have hsmall := h.small
  obtain ⟨hoff4, hfirst4, _⟩ := h.aligned
  split <;> omega

/-- The characters of the words that so many bits are in. -/
theorem noChars_eq {on length : Nat} (h : on + length + 31 < 2 ^ 31) :
    int ((int (int ((on : Int) + (length : Int)) + 31)).tdiv 32 * 4) =
      ((on + length + 31) / 32 * 4 : Nat) := by
  rw [int_eq (x := (on : Int) + (length : Int)) (by omega) (by omega),
    int_eq (x := _ + 31) (by omega) (by omega), Int.tdiv_eq_ediv_of_nonneg (by omega),
    int_eq (by omega) (by omega)]
  omega

theorem newPlace_spec (h : At file k s t) {length : Nat}
    (hlimit : t.pos + length ≤ t.limit) (hfirst : t.pos - 8 * t.first < 2 ^ 31)
    (hclear : t.memory = none → t.pos % 32 + length + 31 < 2 ^ 31) :
    ∃ pl s' k', newPlace length s = some (pl, s') ∧ pl.Is file (t.bitstream length) ∧
      Buffered file k' s' ∧ (t.memory = none → bppkt * k' ≤ t.pos + length) ∧
      (t.memory ≠ none → k' = k) ∧
      (t.memory = none → pl.plMem.length = (t.pos % 32 + length + 31) / 32 * 4) := by
  obtain ⟨⟨hpos, hle, hbytes, hwhole⟩, hbuf, first, off, hlined, hin⟩ := h
  obtain ⟨hfirst_le, hbits⟩ := hin.bits_eq
  have hflag := hlined.flag
  have heq := hin.pos_eq
  have hsmall := hin.small
  have hloaded := hin.loaded
  obtain ⟨hoff4, hfirst4, hlen4⟩ := hin.aligned
  rw [newPlace, Spot.bitstream]
  cases hm : t.memory with
  | none =>
      obtain ⟨hnone, hfirst', hpkt⟩ := hlined.inFile hm
      have hclear := hclear hm
      have hflag : s.tableFlag = false := by
        rw [hflag, hm]
        rfl
      have hoff := hin.le
      rw [line_none hnone, hbuf.size] at hoff
      rw [if_pos (by rw [hflag]; rfl)]
      simp only [hin.bitsOn_eq, noChars_eq hclear, Int.toNat_natCast]
      obtain ⟨mem, s', k', off', hcopy, hbuf', hlen, hpiece, hsum, hoff', hzero, hpos', _⟩ :=
        @copyChars_spec file ((t.pos % 32 + length + 31) / 32 * 4) k
          (off - if s.getcodeBitposn > 0 then 4 else 0)
          (if s.getcodeBitposn > 0 then { s with crtPtr := s.crtPtr - 4 } else s) t hm
          (by split; exacts [⟨hbuf.size, hbuf.piece, hbuf.rest, hbuf.packet⟩, hbuf])
          (by
            rw [← hfirst']
            split
            exacts [⟨hlined.flag, hlined.inFile, hlined.inMemory⟩, hlined])
          (by
            split
            · rename_i hload
              have h4 := hloaded hload
              show s.crtPtr - 4 = _
              rw [hin.ptr]
              omega
            · exact hin.ptr)
          (by omega) (by
            intro j hj _ hend
            split at hend <;> split <;> omega)
      have hstart : 256 * k + (off - if s.getcodeBitposn > 0 then 4 else 0) = t.pos / 32 * 4 := by
        split <;> omega
      rw [hstart] at hpiece hsum
      refine ⟨⟨true, mem, (t.pos % 32 : Nat)⟩, s', k', ?_,
        ⟨⟨?_, ?_, ?_, fun hn => absurd hn (by simp)⟩,
        rfl, ?_, ?_, ?_, fun b hb => ?_⟩, hbuf',
        fun _ => ?_, fun hne => absurd rfl hne, fun _ => hlen⟩
      · rw [hcopy]
        rfl
      · show t.pos ≤ min t.limit ((t.pos + length + 31) / 32 * 32)
        omega
      · show min t.limit ((t.pos + length + 31) / 32 * 32) ≤ _
        omega
      · show min t.limit ((t.pos + length + 31) / 32 * 32) % 8 = 0
        omega
      · show ((t.pos % 32 : Nat) : Int) = ((t.pos - 8 * (t.pos / 32 * 4) : Nat) : Int)
        omega
      · show 8 * (t.pos / 32 * 4) ≤ t.pos
        omega
      · show t.pos - 8 * (t.pos / 32 * 4) < 2 ^ 31
        omega
      · obtain rfl := Option.some.inj hb
        refine ⟨by omega, ?_, ?_, hpiece⟩
        · show mem.length % 4 = 0
          omega
        · show min t.limit ((t.pos + length + 31) / 32 * 32) ≤ 8 * (t.pos / 32 * 4 + mem.length)
          omega
      · show 2048 * k' ≤ t.pos + length
        by_cases hz : (t.pos % 32 + length + 31) / 32 * 4 = 0
        · have hk := hzero hz
          omega
        · have hp := hpos' hz
          omega
  | some b =>
      obtain ⟨hline, rfl, hend⟩ := hlined.inMemory _ hm
      have hf : t.first = first := by
        rw [Spot.first, hm]
        rfl
      have hflag : s.tableFlag = true := by
        rw [hflag, hm]
        rfl
      have hmem : s.line = s.currentPlace.plMem := by
        rw [line, hline]
        rfl
      rw [hf] at hfirst
      rw [if_neg (by rw [hflag]; decide), hin.ptr, int_int_sub, hbits, int_eq (by omega) (by omega)]
      refine ⟨_, s, k, rfl, ⟨⟨hpos, hle, hbytes, hwhole⟩, by rw [hm]; rfl, ?_, ?_, ?_,
        fun b' hb' => ?_⟩,
        hbuf, fun hn => absurd hn (by simp), fun _ => rfl, fun hn => absurd hn (by simp)⟩
      · rw [hf]
      · rw [hf]
        exact hfirst_le
      · rw [hf]
        exact hfirst
      · rw [hm] at hb'
        obtain rfl := Option.some.inj hb'
        rw [hmem] at hlen4 hend
        have hpiece := hin.piece
        rw [hmem] at hpiece
        exact ⟨hfirst4, hlen4, hend, hpiece⟩

/-- A number that is written in octal digits, with 8 added to the last of them, and the bits that it
takes. -/
def announced : Nat → List Bool → Option (Nat × Nat)
  | total, b3 :: b2 :: b1 :: b0 :: rest =>
      let total := 8 * total + (4 * b2.toNat + 2 * b1.toNat + b0.toNat)
      if b3 then some (total, 4) else (announced total rest).map fun res => (res.1, res.2 + 4)
  | _, _ => none

/-- What can be read from a place on. -/
def Spot.rest (file : List (BitVec 8)) (t : Spot) : List Bool :=
  ((ofBytes file).take t.limit).drop t.pos

theorem announced_bounds (bits : List Bool) : ∀ {total n used : Nat},
    announced total bits = some (n, used) → total ≤ n ∧ 4 ≤ used ∧ used ≤ bits.length := by
  intro total n used h
  fun_induction announced total bits generalizing n used with
  | case1 =>
      obtain ⟨rfl, rfl⟩ := Prod.mk.inj (Option.some.inj h)
      exact ⟨by omega, Nat.le_refl 4, by simp⟩
  | case2 =>
      rename_i ih
      obtain ⟨⟨n', used'⟩, hrest, heq⟩ := Option.map_eq_some_iff.1 h
      obtain ⟨rfl, rfl⟩ := Prod.mk.inj heq
      obtain ⟨hle, hused, hlen⟩ := ih hrest
      refine ⟨by omega, Nat.le_add_left _ _, ?_⟩
      simp only [List.length_cons]
      omega
  | case3 => nomatch h

/-- The first digit. -/
theorem announced_cons {total used : Nat} (h : announced total bits = some (n, used)) :
    ∃ b3 b2 b1 b0 rest d, bits = b3 :: b2 :: b1 :: b0 :: rest ∧
      d = 4 * b2.toNat + 2 * b1.toNat + b0.toNat ∧
      if b3 then n = 8 * total + d ∧ used = 4
      else ∃ used', announced (8 * total + d) rest = some (n, used') ∧ used = used' + 4 := by
  match bits, h with
  | b3 :: b2 :: b1 :: b0 :: rest, h =>
      refine ⟨b3, b2, b1, b0, rest, _, rfl, rfl, ?_⟩
      rw [announced] at h
      cases b3 with
      | true =>
          obtain ⟨rfl, rfl⟩ := Prod.mk.inj (Option.some.inj h)
          exact ⟨rfl, rfl⟩
      | false =>
          obtain ⟨⟨n', used'⟩, hrest, heq⟩ := Option.map_eq_some_iff.1 h
          obtain ⟨rfl, rfl⟩ := Prod.mk.inj heq
          exact ⟨used', hrest, rfl⟩

/-- A digit is its four bits. -/
theorem digit_eq {v : Nat} {b3 b2 b1 b0 : Bool} (hv : v < 2 ^ 4)
    (h : lowBits 4 v = [b3, b2, b1, b0]) :
    v = 8 * b3.toNat + (4 * b2.toNat + 2 * b1.toNat + b0.toNat) := by
  have hdig : v = 8 * (v.testBit 3).toNat +
      (4 * (v.testBit 2).toNat + 2 * (v.testBit 1).toNat + (v.testBit 0).toNat) := by
    simp only [Nat.toNat_testBit]
    omega
  simp only [lowBits, List.cons.injEq, and_true] at h
  rw [h.1, h.2.1, h.2.2.1, h.2.2.2] at hdig
  exact hdig

theorem Spot.advance_advance (t : Spot) (k : Nat) {y p : Nat} (h : x ≤ y) :
    Spot.advance { t with pos := p } (t.advance k x) y = t.advance k y := by
  unfold Spot.advance
  dsimp only
  split
  · have hdiv : x / bppkt ≤ y / bppkt := Nat.div_le_div_right h
    omega
  · rfl

/-- The next four bits are read as a digit. -/
theorem digit_spec (little : Bool) (hw : 32 ≤ w) (wide : Nat → Nat → Nat)
    (h : At file k s t) {b3 b2 b1 b0 : Bool} {rest : List Bool}
    (hrest : t.rest file = b3 :: b2 :: b1 :: b0 :: rest) :
    ∃ code, getcode little w wide 4 s = some code ∧
      code.value = 8 * b3.toNat + (4 * b2.toNat + 2 * b1.toNat + b0.toNat) ∧
      t.pos + 4 ≤ t.limit ∧ At file (t.advance k (t.pos + 3)) code.next
      { t with pos := t.pos + 4 } ∧
      ({ t with pos := t.pos + 4 } : Spot).rest file = rest := by
  have hlimit : t.pos + 4 ≤ t.limit := by
    have hlen := congrArg List.length hrest
    rw [Spot.rest, List.length_drop, List.length_take] at hlen
    simp only [List.length_cons] at hlen
    omega
  have hbits : ((ofBytes file).drop t.pos).take 4 = [b3, b2, b1, b0] := by
    have htake := congrArg (List.take 4) hrest
    rw [Spot.rest, List.drop_take, List.take_take, Nat.min_eq_left (by omega)] at htake
    exact htake
  obtain ⟨code, hcode, hlt, hlow, _, hat⟩ :=
    getcode_spec little hw wide h (n := 4) (by decide) hlimit (by omega)
  have hdrop := congrArg (List.drop 4) hrest
  rw [Spot.rest, List.drop_drop] at hdrop
  exact ⟨code, hcode, digit_eq hlt (hlow.trans hbits), hlimit, hat, hdrop⟩

theorem digit_lt (b2 b1 b0 : Bool) : 4 * b2.toNat + 2 * b1.toNat + b0.toNat < 8 := by
  cases b2 <;> cases b1 <;> cases b0 <;> decide

theorem dtdfDigits_spec (little : Bool) (hw : 32 ≤ w) (wide : Nat → Nat → Nat) (fuel : Nat) :
    ∀ {k total : Nat} {s : Reader} {t : Spot} {n used : Nat}, At file k s t →
      announced total (t.rest file) = some (n, used) → n < 2 ^ 31 → used ≤ 4 * fuel →
      ∃ s', dtdfDigits little w wide fuel total s = some ((n : Int), s') ∧
        At file (t.advance k (t.pos + used - 1)) s' { t with pos := t.pos + used } := by
  induction fuel with
  | zero =>
      intro k total s t n used _ hann _ hused
      have hbounds := announced_bounds _ hann
      omega
  | succ fuel ih =>
      intro k total s t n used h hann hn hused
      obtain ⟨b3, b2, b1, b0, rest, d, hrest, hd, hcases⟩ := announced_cons hann
      obtain ⟨code, hcode, hval, hlimit, hat, hrest'⟩ := digit_spec little hw wide h hrest
      have hd8 : d < 8 := hd ▸ digit_lt b2 b1 b0
      rw [dtdfDigits, hcode]
      simp only [Option.bind_eq_bind, Option.bind_some]
      cases b3 with
      | true =>
          obtain ⟨rfl, rfl⟩ := hcases
          rw [← hd] at hval
          simp only [Bool.toNat_true, Nat.mul_one] at hval
          rw [if_neg (by omega), hval]
          refine ⟨code.next, ?_, hat⟩
          rw [show (8 * (total : Int) + (((8 + d : Nat) : Int) - 8)) =
            (8 * total + d : Nat) by omega,
            int_eq (by omega) (by omega)]
      | false =>
          obtain ⟨used', hann', rfl⟩ := hcases
          rw [← hd] at hval
          simp only [Bool.toNat_false, Nat.mul_zero, Nat.zero_add] at hval
          have hbounds := announced_bounds _ hann'
          rw [if_pos (by omega), hval,
            show (8 * (total : Int) + (d : Nat)) = (8 * total + d : Nat) by omega,
            int_eq (by omega) (by omega)]
          obtain ⟨s', hdigits, hat'⟩ := ih hat (by rw [hrest']; exact hann') hn (by omega)
          refine ⟨s', hdigits, ?_⟩
          simp only at hat'
          rw [Spot.advance_advance t k (by omega)] at hat'
          rw [show t.pos + (used' + 4) = t.pos + 4 + used' by omega]
          exact hat'

theorem dBitstream_spec (little : Bool) (hw : 32 ≤ w) (wide : Nat → Nat → Nat) (h : At file k s t)
    {used : Nat} (hann : announced 0 (t.rest file) = some (n, used))
    (hfuel : 2 * file.length ≤ fuel) (hlimit : t.pos + used + n ≤ t.limit)
    (hint : t.pos + used - 8 * t.first + n < 2 ^ 31)
    (hround : t.memory = none → (t.pos + used) % 32 + n + 31 < 2 ^ 31) :
    ∃ pl s', dBitstream little w wide fuel s = some (pl, s') ∧
      pl.Is file (({ t with pos := t.pos + used } : Spot).bitstream n) ∧
      At file (t.advance k (t.pos + used + n)) s' { t with pos := t.pos + used + n } ∧
      (t.memory = none → pl.plMem.length = ((t.pos + used) % 32 + n + 31) / 32 * 4) := by
  have hused : used ≤ 4 * fuel := by
    have hlen := (announced_bounds _ hann).2.2
    have hend := h.ok.limit_le
    rw [Spot.rest, List.length_drop, List.length_take, length_ofBytes] at hlen
    omega
  obtain ⟨s1, hdigits, hat⟩ := dtdfDigits_spec little hw wide fuel h hann (by omega) hused
  have hfirst : ({ t with pos := t.pos + used } : Spot).first = t.first := rfl
  have hkeep := keepPlace_spec hat (show t.pos + used - 8 * t.first < 2 ^ 31 by omega)
  obtain ⟨pl, s2, k2, hnew, hpl, hbuf2, hfile2, hmem2, hlen⟩ :=
    newPlace_spec hat hlimit (show t.pos + used - 8 * t.first < 2 ^ 31 by omega) hround
  have hadd : (addPlace s1.keepPlace n).Is file { t with pos := t.pos + used + n } := by
    obtain ⟨⟨_, hle, hbytes, hwhole⟩, hflag, hbits, hfirst_le, _, hmemory⟩ := hkeep
    have hfirst_le : 8 * t.first ≤ t.pos + used := hfirst_le
    refine ⟨⟨hlimit, hle, hbytes, hwhole⟩, hflag, ?_, ?_, ?_, hmemory⟩
    · have hbits : s1.keepPlace.bitsOn = ((t.pos + used - 8 * t.first : Nat) : Int) := hbits
      have hsum : ((t.pos + used + n - 8 * t.first : Nat) : Int) =
          (t.pos + used - 8 * t.first : Nat) + (n : Int) := by omega
      have hend : int ((t.pos + used - 8 * t.first : Nat) + (n : Int)) =
          (t.pos + used - 8 * t.first : Nat) + (n : Int) := int_eq (by omega) (by omega)
      rw [addPlace, hbits, hend]
      exact hsum.symm
    · exact Nat.le_trans hfirst_le (Nat.le_add_right _ _)
    · show t.pos + used + n - 8 * t.first < 2 ^ 31
      omega
  obtain ⟨s3, hset, hat3⟩ := setPlace_spec little hbuf2 hadd hfile2
  refine ⟨pl, s3, ?_, hpl, ?_, hlen⟩
  · rw [dBitstream, smallDtdfint]
    simp only [Option.bind_eq_bind]
    rw [show ((0 : Nat) : Int) = 0 from rfl] at hdigits
    rw [hdigits]
    simp only [Option.bind_some]
    rw [hnew]
    simp only [Option.bind_some]
    rw [hset]
    rfl
  · have hpacket : ({ t with pos := t.pos + used + n } : Spot).advance k2 (t.pos + used + n) =
        t.advance k (t.pos + used + n) := by
      cases hm : t.memory with
      | none =>
          have hk := h.packet_le hm
          have hk2 := hfile2 hm
          unfold Spot.advance
          simp only [hm, Option.isNone_none, if_true]
          have hdiv : ∀ j, 2048 * j ≤ t.pos + used + n → j ≤ (t.pos + used + n) / 2048 :=
              fun j hj =>
            (Nat.le_div_iff_mul_le (by decide)).2 (by omega)
          have hk : 2048 * k ≤ t.pos := hk
          have hk2 : 2048 * k2 ≤ t.pos + used + n := hk2
          have h1 := hdiv k (by omega)
          have h2 := hdiv k2 hk2
          show max k2 ((t.pos + used + n) / 2048) = max k ((t.pos + used + n) / 2048)
          omega
      | some b =>
          have hk2 := hmem2 (by simp [hm])
          unfold Spot.advance at hk2 ⊢
          simp only [hm, Option.isNone_some, Bool.false_eq_true, if_false] at hk2 ⊢
          exact hk2
    rw [hpacket] at hat3
    exact hat3

/-! ## Sequences of calls -/

theorem start_spec (h : initreader file = some s) :
    At file 0 s ⟨none, 0, 8 * file.length⟩ := by
  rw [initreader] at h
  obtain ⟨s1, hread, rfl⟩ := Option.map_eq_some_iff.1 h
  rw [readLine] at hread
  split at hread
  · nomatch hread
  · rw [← Option.some.inj hread]
    have hlen : (file.take cppkt).length = min 256 file.length := List.length_take
    have hsize : (file.take cppkt ++ (List.replicate cppkt 0).drop
        (file.take cppkt).length).length =
        256 := by
      rw [List.length_append, List.length_drop, List.length_replicate]
      show _ + (256 - _) = 256
      omega
    have hpiece : Piece file (256 * 0)
        (file.take cppkt ++ (List.replicate cppkt 0).drop (file.take cppkt).length) := by
      intro i hi hfile
      rw [hsize] at hi
      rw [List.getElem?_append_left (by omega), List.getElem?_take_of_lt hi, Nat.mul_zero,
        Nat.zero_add]
    refine ⟨⟨Nat.zero_le _, Nat.le_refl _, Nat.mul_mod_right _ _, fun _ => rfl⟩,
      ⟨hsize, hpiece, rfl, rfl⟩, 256 * 0, 0,
      ⟨rfl, fun _ => ⟨rfl, rfl, rfl⟩, fun b hb => nomatch hb⟩,
      ⟨rfl, Nat.zero_le _, ⟨rfl, rfl, ?_⟩, hpiece, Nat.zero_lt_succ 31,
        fun hpos => absurd hpos (Nat.lt_irrefl 0), rfl, shows_zero _ _ _⟩⟩
    show (file.take cppkt ++ (List.replicate cppkt 0).drop (file.take cppkt).length).length % 4 = 0
    rw [hsize]

end

/-- Where the reader should be: its place in the capsule, the packet in the buffer, and the places
that have been delivered. -/
structure View where
  spot : Spot
  packet : Nat
  spots : List Spot
deriving DecidableEq, Repr

namespace View

/-- The start of the capsule. -/
def start (file : List (BitVec 8)) : View := ⟨⟨none, 0, 8 * file.length⟩, 0, []⟩

/-- The view after a call. -/
def next (file : List (BitVec 8)) (v : View) : Call → View
  | .getcode n => { v with
      spot := { v.spot with pos := v.spot.pos + n }
      packet := v.spot.advance v.packet (v.spot.pos + n - 1) }
  | .toBoundary => { v with spot := { v.spot with pos := (v.spot.pos + 7) / 8 * 8 } }
  | .keepPlace => { v with spots := v.spots ++ [v.spot] }
  | .dBitstream =>
      match announced 0 (v.spot.rest file) with
      | some (n, used) =>
          let t := { v.spot with pos := v.spot.pos + used }
          { spot := { t with pos := t.pos + n }
            packet := t.advance v.packet (t.pos + n)
            spots := v.spots ++ [t.bitstream n] }
      | none => v
  | .setPlace i =>
      match v.spots[i]? with
      | some t => { v with spot := t, packet := t.advance v.packet t.pos }
      | none => v

/-- The call does not leave the file, or go back behind the packet in the buffer. -/
def Inside (file : List (BitVec 8)) (v : View) : Call → Prop
  | .getcode n => 1 ≤ n ∧ n ≤ 32 ∧ v.spot.pos + n ≤ v.spot.limit
  | .toBoundary => True
  | .keepPlace => True
  | .dBitstream => ∃ n used, announced 0 (v.spot.rest file) = some (n, used) ∧
      v.spot.pos + used + n ≤ v.spot.limit
  | .setPlace i => ∃ t, v.spots[i]? = some t ∧ (t.memory = none → bppkt * v.packet ≤ t.pos)

/-- No code of 32 bits is read from the start of a word, and the positions fit in an `int`. -/
def Clear (file : List (BitVec 8)) (v : View) : Call → Prop
  | .getcode n => ¬(n = 32 ∧ v.spot.pos % 32 = 0)
  | .toBoundary => True
  | .keepPlace => v.spot.pos - 8 * v.spot.first < 2 ^ 31
  | .dBitstream => ∀ n used, announced 0 (v.spot.rest file) = some (n, used) →
      v.spot.pos + used - 8 * v.spot.first + n < 2 ^ 31 ∧
        (v.spot.memory = none → (v.spot.pos + used) % 32 + n + 31 < 2 ^ 31)
  | .setPlace _ => True

/-- What is read: the bits at the position, most significant first, without a shift by 32. -/
def Reads (file : List (BitVec 8)) (v : View) : Call → Option Code → Prop
  | .getcode n, code => ∃ x, code = some x ∧ x.value < 2 ^ n ∧
      lowBits n x.value = ((ofBytes file).drop v.spot.pos).take n ∧ 32 ∉ x.counts
  | _, code => code = none

end View

/-- As long as the calls stay inside of the file, every one of them succeeds and reads what the view
says. -/
def Faithful (little : Bool) (w : Nat) (wide : Nat → Nat → Nat) (fuel : Nat)
    (file : List (BitVec 8)) :
    List Call → Session → View → Prop
  | [], _, _ => True
  | c :: calls, s, v => v.Inside file c → ∃ code s', s.call little w wide fuel c = some (code, s') ∧
      v.Reads file c code ∧ Faithful little w wide fuel file calls s' (v.next file c)

/-- All of the calls are clear, as far as they stay inside of the file. -/
def AllClear (file : List (BitVec 8)) : List Call → View → Prop
  | [], _ => True
  | c :: calls, v => v.Inside file c → v.Clear file c ∧ AllClear file calls (v.next file c)

/-- The session is what the view says. -/
structure Session.Follows (file : List (BitVec 8)) (s : Session) (v : View) : Prop where
  reader : At file v.packet s.reader v.spot
  places : List.Forall₂ (fun pl t => pl.Is file t) s.places v.spots

section

variable {w : Nat} {file : List (BitVec 8)}

theorem call_spec (little : Bool) (hw : 32 ≤ w) (wide : Nat → Nat → Nat)
    (hfuel : 2 * file.length ≤ fuel) {s : Session} {v : View} (h : s.Follows file v) {c : Call}
    (hin : v.Inside file c) (hclear : v.Clear file c) :
    ∃ code s', s.call little w wide fuel c = some (code, s') ∧ v.Reads file c code ∧
      s'.Follows file (v.next file c) := by
  obtain ⟨hreader, hplaces⟩ := h
  cases c with
  | getcode n =>
      obtain ⟨hn1, hn32, hlimit⟩ := hin
      obtain ⟨code, hcode, hlt, hbits, hcounts, hat⟩ :=
        getcode_spec little hw wide hreader ⟨hn1, hn32⟩ hlimit fun h h' => absurd ⟨h, h'⟩ hclear
      refine ⟨some code, { s with reader := code.next }, ?_,
        ⟨code, rfl, hlt, hbits, hcounts hclear⟩, hat,
        hplaces⟩
      rw [Session.call, hcode]
      rfl
  | toBoundary =>
      exact ⟨none, _, rfl, rfl, toBoundary_spec hreader, hplaces⟩
  | keepPlace =>
      refine ⟨none, _, rfl, rfl, hreader, ?_⟩
      exact List.rel_append hplaces (.cons (keepPlace_spec hreader hclear) .nil)
  | dBitstream =>
      obtain ⟨n, used, hann, hlimit⟩ := hin
      obtain ⟨hint, hround⟩ := hclear n used hann
      obtain ⟨pl, r, hcall, hpl, hat, _⟩ :=
        dBitstream_spec little hw wide hreader hann hfuel hlimit hint hround
      refine ⟨none, ⟨r, s.places ++ [pl]⟩, ?_, rfl, ?_⟩
      · rw [Session.call, hcall]
        rfl
      · rw [View.next, hann]
        exact ⟨hat, List.rel_append hplaces (.cons hpl .nil)⟩
  | setPlace i =>
      obtain ⟨t, hget, hbefore⟩ := hin
      obtain ⟨pl, hpl, his⟩ : ∃ pl, s.places[i]? = some pl ∧ pl.Is file t := by
        obtain ⟨hi, rfl⟩ := List.getElem?_eq_some_iff.1 hget
        have hi' : i < s.places.length := hplaces.length_eq ▸ hi
        exact ⟨s.places[i], List.getElem?_eq_getElem hi', hplaces.get hi' hi⟩
      obtain ⟨r, hset, hat⟩ := setPlace_spec little hreader.buffered his hbefore
      refine ⟨none, { s with reader := r }, ?_, rfl, ?_⟩
      · rw [Session.call, hpl]
        simp only [Option.bind_eq_bind, Option.bind_some]
        rw [hset]
        rfl
      · rw [View.next, hget]
        exact ⟨hat, hplaces⟩

theorem faithful_of_follows (little : Bool) (hw : 32 ≤ w) (wide : Nat → Nat → Nat)
    (hfuel : 2 * file.length ≤ fuel) (calls : List Call) : ∀ {s : Session} {v : View},
    s.Follows file v → AllClear file calls v → Faithful little w wide fuel file calls s v := by
  induction calls with
  | nil => exact fun _ _ => True.intro
  | cons c calls ih =>
      intro s v h hall hin
      obtain ⟨hclear, hrest⟩ := hall hin
      obtain ⟨code, s', hcall, hreads, hfollows⟩ := call_spec little hw wide hfuel h hin hclear
      exact ⟨code, s', hcall, hreads, ih hfollows hrest⟩

/-- In every sequence of calls that are clear, the reader is a faithful view of the capsule. -/
theorem faithful_of_clear (little : Bool) (hw : 32 ≤ w) (wide : Nat → Nat → Nat) {fuel : Nat}
    (hfuel : 2 * file.length ≤ fuel) {r : Reader} (hinit : initreader file = some r)
    (calls : List Call) (hclear : AllClear file calls (View.start file)) :
    Faithful little w wide fuel file calls ⟨r, []⟩ (View.start file) :=
  faithful_of_follows little hw wide hfuel calls ⟨start_spec hinit, .nil⟩ hclear

theorem faithful_of_clear_keep : ∃ r, initreader [0xab, 0xcd] = some r ∧
    AllClear [0xab, 0xcd] [.getcode 4, .keepPlace, .getcode 8, .setPlace 0, .getcode 12]
      (View.start [0xab, 0xcd]) ∧
    Faithful true 64 (fun _ _ => 0) 4 [0xab, 0xcd]
      [.getcode 4, .keepPlace, .getcode 8, .setPlace 0, .getcode 12] ⟨r, []⟩
      (View.start [0xab, 0xcd]) := by
  obtain ⟨r, hinit⟩ : ∃ r, initreader [0xab, 0xcd] = some r := ⟨_, rfl⟩
  have hclear : AllClear [0xab, 0xcd]
      [.getcode 4, .keepPlace, .getcode 8, .setPlace 0, .getcode 12] (View.start [0xab, 0xcd]) := by
    simp [AllClear, View.Clear, View.next, View.start, Spot.first]
  exact ⟨r, hinit, hclear, faithful_of_clear true (by decide) _ (by decide) hinit _ hclear⟩

/-- A code of 32 bits at the start of the file. -/
theorem not_faithful : ¬∀ (little : Bool) (w : Nat) (wide : Nat → Nat → Nat) (fuel : Nat)
    (file : List (BitVec 8)) (r : Reader) (calls : List Call), 32 ≤ w → 2 * file.length ≤ fuel →
    initreader file = some r →
    Faithful little w wide fuel file calls ⟨r, []⟩ (View.start file) := by
  intro h
  obtain ⟨r, hinit, hposn⟩ : ∃ r, initreader [0x54, 0x44, 0x46, 0x43] = some r ∧
      r.getcodeBitposn = 0 := ⟨_, rfl, rfl⟩
  have hrun := h true 64 (fun _ _ => 0) 8 _ r [.getcode 32] (by decide) (by decide) hinit
  obtain ⟨code, s, hcall, ⟨x, rfl, _, _, hcounts⟩, _⟩ := hrun ⟨by decide, by decide, by decide⟩
  obtain ⟨y, hcode, heq⟩ := Option.bind_eq_some_iff.1 hcall
  obtain rfl := Option.some.inj (Prod.mk.inj (Option.some.inj heq)).1
  exact hcounts (getcode_counts hposn hcode)

end

end Tendra.Ref.Basicread
