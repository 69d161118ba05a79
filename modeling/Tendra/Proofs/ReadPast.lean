import Tendra.Proofs.Basicread

/-!
# Reading past the end of a capsule

The end of the file is noticed when a packet is asked for and nothing is left, so it is the end
of the last packet that stops a call. The bytes between the two ends are those of the packet
before. A call that keeps away from them either has to do with bits of the file only, or is
stopped.
-/

namespace Tendra.Ref.Basicread

open Tendra.Bits Reader

variable {fuel : Nat} {s : Session}

/-- There is no packet exactly when the last one is at its end and nothing is left of the file. -/
theorem refill_eq_none_iff {s : Reader} : s.refill = none ↔ s.atEnd = true ∧ s.fpin = [] := by
  rw [refill]
  by_cases hend : s.atEnd = true
  · rw [if_pos hend, Option.map_eq_none_iff, readLine]
    have hlen : (s.fpin.take cppkt).length = 0 ↔ s.fpin = [] := by
      rw [List.length_eq_zero_iff, List.take_eq_nil_iff]
      simp
    by_cases hnil : s.fpin = []
    · rw [if_pos ⟨hlen.2 hnil, rfl⟩]
      exact ⟨fun _ => ⟨hend, hnil⟩, fun _ => rfl⟩
    · rw [if_neg fun h => hnil (hlen.1 h.1)]
      exact ⟨fun h => (by cases h), fun h => absurd h.2 hnil⟩
  · rw [if_neg hend]
    exact ⟨fun h => (by cases h), fun h => absurd h.1 hend⟩

/-! ## Calls that are stopped -/

section

variable (little : Bool) (w : Nat) (wide : Nat → Nat → Nat)

/-- `getcode` reports the read past the end. -/
def Reader.getcodeStops (np : Nat) (s : Reader) : Prop := s.getcodeBitposn < np ∧ s.refill = none

/-- The loop of `new_place` does, behind some of the characters. -/
def Reader.copyStops (cnt : Nat) (s : Reader) : Prop :=
  ∃ j < cnt, ∃ mem t, copyChars j s = some (mem, t) ∧ t.refill = none

/-- `new_place` does. -/
def Reader.newPlaceStops (bn : Int) (s : Reader) : Prop :=
  s.tableFlag = false ∧
    let bitsOn : Int := if s.getcodeBitposn = 0 then 0 else 32 - s.getcodeBitposn
    let noChars := int ((int (int (bitsOn + bn) + 31)).tdiv 32 * 4)
    copyStops noChars.toNat (if s.getcodeBitposn > 0 then { s with crtPtr := s.crtPtr - 4 } else s)

/-- The loop of `small_dtdfint` does, at one of the digits. -/
def Reader.digitsStop : Nat → Reader → Prop
  | 0, _ => False
  | fuel + 1, s => s.getcodeStops 4 ∨ ∃ digit, getcode little w wide 4 s = some digit ∧
      digit.value < 8 ∧ digitsStop fuel digit.next

/-- `d_bitstream` does, in the length or in the bits. -/
def Reader.dBitstreamStops (fuel : Nat) (s : Reader) : Prop :=
  digitsStop little w wide fuel s ∨
    ∃ length t, smallDtdfint little w wide fuel s = some (length, t) ∧ t.newPlaceStops length

/-- A call reports the read past the end. -/
def Session.Stops (fuel : Nat) (s : Session) : Call → Prop
  | .getcode n => s.reader.getcodeStops n
  | .dBitstream => dBitstreamStops little w wide fuel s.reader
  | _ => False

end

/-! ## Where calls are stopped -/

/-- The end of the last packet that is read before the end of the file is noticed, in bytes. -/
def lastByte (file : List (BitVec 8)) (k : Nat) : Nat :=
    256 * max (k + 1) ((file.length + 255) / 256)

section

variable {little : Bool} {w : Nat} {wide : Nat → Nat → Nat} {file : List (BitVec 8)} {k : Nat}
  {s : Reader} {t : Spot}

/-- A code that goes over the end of the last packet. -/
theorem getcodeStops_of_lt (h : At file k s t) (hm : t.memory = none) {n : Nat} (hn : n ≤ 32)
    (hpast : 8 * lastByte file k < t.pos + n) : s.getcodeStops n := by
  obtain ⟨hok, hbuf, first, off, hlined, hin⟩ := h
  obtain ⟨hnone, rfl, _⟩ := hlined.inFile hm
  have hoff := hin.le
  have heq := hin.pos_eq
  have hsmall := hin.small
  have haligned := hin.aligned.1
  rw [line_none hnone, hbuf.size] at hoff
  rw [lastByte] at hpast
  have hend : off = 256 := by omega
  refine ⟨by omega, refill_eq_none_iff.2 ⟨?_, ?_⟩⟩
  · simp [atEnd, hnone, hin.ptr, hend]
  · rw [hbuf.rest, List.drop_eq_nil_iff]
    omega

/-- What is read inside of the file does not change the end of the last packet. -/
theorem lastByte_advance (hm : t.memory = none) {last : Nat} (hlast : last < 8 * file.length) :
    lastByte file (t.advance k last) = lastByte file k := by
  rw [Spot.advance, hm]
  change 256 * max (max k (last / 2048) + 1) ((file.length + 255) / 256) =
    256 * max (k + 1) ((file.length + 255) / 256)
  omega

theorem exists_digit {bits : List Bool} (h : 4 ≤ bits.length) :
    ∃ b3 b2 b1 b0 rest, bits = b3 :: b2 :: b1 :: b0 :: rest := by
  obtain _ | ⟨b3, _ | ⟨b2, _ | ⟨b1, _ | ⟨b0, rest⟩⟩⟩⟩ := bits
  · exact absurd h (by decide)
  · exact absurd h (Nat.not_le_of_lt (by decide : 1 < 4))
  · exact absurd h (Nat.not_le_of_lt (by decide : 2 < 4))
  · exact absurd h (Nat.not_le_of_lt (by decide : 3 < 4))
  · exact ⟨b3, b2, b1, b0, rest, rfl⟩

/-- Digits that go over the end of the last packet. -/
theorem digitsStop_of_lt (hw : 32 ≤ w) (wide : Nat → Nat → Nat) {total : Nat} (h : At file k s t)
    (hm : t.memory = none) (hann : announced total (t.rest file) = none)
    (hpast : 8 * lastByte file k < t.pos + (t.rest file).length / 4 * 4 + 4)
    (hfuel : (t.rest file).length < 4 * fuel) : digitsStop little w wide fuel s := by
  induction fuel generalizing k s t total with
  | zero => exact absurd hfuel (Nat.not_lt_zero _)
  | succ fuel ih =>
      by_cases hlen : (t.rest file).length < 4
      · rw [Nat.div_eq_of_lt hlen] at hpast
        exact .inl (getcodeStops_of_lt h hm (by decide) (by omega))
      · obtain ⟨b3, b2, b1, b0, rest, hrest⟩ : ∃ b3 b2 b1 b0 rest,
            t.rest file = b3 :: b2 :: b1 :: b0 :: rest := exists_digit (Nat.le_of_not_lt hlen)
        obtain ⟨code, hcode, hval, hlimit, hat, hrest'⟩ := digit_spec little hw wide h hrest
        have hle := h.ok.limit_le
        rw [hrest, announced] at hann
        rw [hrest] at hpast hfuel
        simp only [List.length_cons] at hpast hfuel
        cases b3 with
        | true => cases hann
        | false =>
            have hlt := digit_lt b2 b1 b0
            rw [Bool.toNat_false] at hval
            refine .inr ⟨code, hcode, by omega, ?_⟩
            refine ih hat hm (by rw [hrest']; exact Option.map_eq_none_iff.1 hann) ?_ ?_
            · rw [lastByte_advance hm (by omega), hrest']
              change _ < t.pos + 4 + rest.length / 4 * 4 + 4
              omega
            · rw [hrest']
              omega

/-- A copy that goes over the end of the last packet comes to it first. -/
theorem copyStops_of_lt {off cnt : Nat} (hm : t.memory = none) (hbuf : Buffered file k s)
    (hlined : Lined t k s (256 * k)) (hptr : s.crtPtr = (off : Nat)) (hoff : off ≤ 256)
    (hpast : lastByte file k < 256 * k + off + cnt) : s.copyStops cnt := by
  have hle : 256 * k + off ≤ lastByte file k := by
    rw [lastByte]
    omega
  have hlast : lastByte file k % 256 = 0 := Nat.mul_mod_right _ _
  have hfile : file.length ≤ lastByte file k := by
    rw [lastByte]
    omega
  have hbelow : ∀ x, 256 * (k + 1) ≤ x → x < lastByte file k → x % 256 = 0 → x < file.length := by
    intro x hx hlt hmod
    rw [lastByte] at hlt
    omega
  obtain ⟨mem, s', k', off', hcopy, hbuf', _, _, hsum, hoff', hzero, hpos, hptr', hline⟩ :=
    copyChars_spec (lastByte file k - (256 * k + off)) hm hbuf hlined hptr hoff
      fun j hj hpos hend => hbelow _ (by omega) (by omega) (by omega)
  have hend : off' = 256 := by
    by_cases hcnt : lastByte file k - (256 * k + off) = 0
    · have hk := hzero hcnt
      have hge : 256 * (k + 1) ≤ lastByte file k := by
        rw [lastByte]
        omega
      omega
    · have := hpos hcnt
      omega
  refine ⟨lastByte file k - (256 * k + off), by omega, mem, s', hcopy,
    refill_eq_none_iff.2 ⟨?_, ?_⟩⟩
  · simp [atEnd, hline, hptr', hend]
  · rw [hbuf'.rest, List.drop_eq_nil_iff]
    omega

/-- A bitstream that goes over the end of the last packet. -/
theorem newPlaceStops_of_lt (h : At file k s t) (hm : t.memory = none) {length : Nat}
    (hround : t.pos % 32 + length + 31 < 2 ^ 31)
    (hpast : lastByte file k < (t.pos + length + 31) / 32 * 4) : s.newPlaceStops length := by
  obtain ⟨hok, hbuf, first, off, hlined, hin⟩ := h
  obtain ⟨hnone, rfl, hpkt⟩ := hlined.inFile hm
  have hoff := hin.le
  have heq := hin.pos_eq
  have hsmall := hin.small
  have hloaded := hin.loaded
  have haligned := hin.aligned.1
  rw [line_none hnone, hbuf.size] at hoff
  refine ⟨?_, ?_⟩
  · rw [hlined.flag, hm]
    rfl
  · simp only [hin.bitsOn_eq, noChars_eq hround, Int.toNat_natCast]
    refine @copyStops_of_lt file k _ t (off - if s.getcodeBitposn > 0 then 4 else 0) _ hm ?_ ?_ ?_
      (by omega) ?_
    · split
      · exact ⟨hbuf.size, hbuf.piece, hbuf.rest, hbuf.packet⟩
      · exact hbuf
    · split
      · exact ⟨hlined.flag, hlined.inFile, hlined.inMemory⟩
      · exact hlined
    · split
      · next hload =>
          have h4 := hloaded hload
          change s.crtPtr - 4 = _
          rw [hin.ptr]
          omega
      · exact hin.ptr
    · split <;> omega

end

/-! ## Sequences of calls -/

namespace View

/-- The call goes over the end of the last packet. -/
def Past (file : List (BitVec 8)) (v : View) : Call → Prop
  | .getcode n => v.spot.memory = none ∧ n ≤ 32 ∧ 8 * lastByte file v.packet < v.spot.pos + n
  | .dBitstream => v.spot.memory = none ∧
      ((announced 0 (v.spot.rest file) = none ∧
          8 * lastByte file v.packet < v.spot.pos + (v.spot.rest file).length / 4 * 4 + 4) ∨
        ∃ n used, announced 0 (v.spot.rest file) = some (n, used) ∧
          (v.spot.pos + used) % 32 + n + 31 < 2 ^ 31 ∧
          lastByte file v.packet < (v.spot.pos + used + n + 31) / 32 * 4)
  | _ => False

/-- The call stays within the file, with the words that are copied, and the positions fit in an
`int`. -/
def Own (w : Nat) (file : List (BitVec 8)) (v : View) : Call → Prop
  | .getcode n => 1 ≤ n ∧ n ≤ 32 ∧ v.spot.pos + n ≤ v.spot.limit ∧
      (n = 32 → v.spot.pos % 32 = 0 → 32 < w)
  | .toBoundary => True
  | .keepPlace => v.spot.pos - 8 * v.spot.first < 2 ^ 31
  | .dBitstream => ∃ n used, announced 0 (v.spot.rest file) = some (n, used) ∧
      v.spot.pos + used + n ≤ v.spot.limit ∧ v.spot.pos + used - 8 * v.spot.first + n < 2 ^ 31 ∧
      (v.spot.memory = none → (v.spot.pos + used) % 32 + n + 31 < 2 ^ 31 ∧
        (v.spot.pos + used + n + 31) / 32 * 4 ≤ file.length)
  | .setPlace i => ∃ t, v.spots[i]? = some t ∧ (t.memory = none → bppkt * v.packet ≤ t.pos)

/-- What is returned, or copied to a new place, is of the file. -/
def Belongs (file : List (BitVec 8)) (v : View) (code : Option Code) (s' : Session) : Call → Prop
  | .getcode n => ∃ x, code = some x ∧ x.value < 2 ^ n ∧ v.spot.pos + n ≤ 8 * file.length ∧
      lowBits n x.value = ((ofBytes file).drop v.spot.pos).take n
  | .dBitstream => code = none ∧ (v.spot.memory = none → ∃ pl first, s'.places.getLast? = some pl ∧
      first + pl.plMem.length ≤ file.length ∧
      pl.plMem = (file.drop first).take pl.plMem.length)
  | _ => code = none

end View

/-- Every call has to do with bits of the file, up to one that is stopped. -/
def Detected (little : Bool) (w : Nat) (wide : Nat → Nat → Nat) (fuel : Nat)
    (file : List (BitVec 8)) : List Call → Session → View → Prop
  | [], _, _ => True
  | c :: calls, s, v => s.Stops little w wide fuel c ∨
      ∃ code s', s.call little w wide fuel c = some (code, s') ∧ v.Belongs file code s' c ∧
        Detected little w wide fuel file calls s' (v.next file c)

/-- No call comes to the bytes between the end of the file and that of the last packet. -/
def Guarded (w : Nat) (file : List (BitVec 8)) : List Call → View → Prop
  | [], _ => True
  | c :: calls, v => v.Past file c ∨ v.Own w file c ∧ Guarded w file calls (v.next file c)

section

variable {w : Nat} {file : List (BitVec 8)}

theorem stops_of_past (little : Bool) (hw : 32 ≤ w) (wide : Nat → Nat → Nat)
    (hfuel : 2 * file.length < fuel) {v : View} (h : s.Follows file v) {c : Call}
    (hpast : v.Past file c) : s.Stops little w wide fuel c := by
  obtain ⟨hreader, _⟩ := h
  have hlimit := hreader.ok.limit_le
  have hlen : (v.spot.rest file).length ≤ 8 * file.length - v.spot.pos := by
    rw [Spot.rest, List.length_drop, List.length_take, length_ofBytes]
    omega
  cases c with
  | getcode n => exact getcodeStops_of_lt hreader hpast.1 hpast.2.1 hpast.2.2
  | dBitstream =>
      obtain ⟨hm, ⟨hann, hlast⟩ | ⟨n, used, hann, hround, hlast⟩⟩ := hpast
      · exact .inl (digitsStop_of_lt hw wide hreader hm hann hlast (by omega))
      · obtain ⟨_, hused4, hused⟩ := announced_bounds _ hann
        obtain ⟨s', hdigits, hat⟩ :=
          dtdfDigits_spec little hw wide fuel hreader hann (by omega) (by omega)
        refine .inr ⟨n, s', hdigits, newPlaceStops_of_lt hat hm hround ?_⟩
        rw [lastByte_advance hm (by omega)]
        exact hlast
  | toBoundary => exact hpast.elim
  | keepPlace => exact hpast.elim
  | setPlace i => exact hpast.elim

/-- A piece that does not go over the end of the file. -/
theorem Piece.eq_take {first : Nat} {mem : List (BitVec 8)} (h : Piece file first mem)
    (hle : first + mem.length ≤ file.length) : mem = (file.drop first).take mem.length := by
  refine List.ext_getElem? fun i => ?_
  by_cases hi : i < mem.length
  · rw [h i hi (by omega), List.getElem?_take_of_lt hi, List.getElem?_drop]
  · rw [List.getElem?_eq_none (Nat.le_of_not_lt hi), List.getElem?_eq_none]
    rw [List.length_take]
    omega

theorem call_of_own (little : Bool) (hw : 32 ≤ w) (wide : Nat → Nat → Nat)
    (hfuel : 2 * file.length ≤ fuel) {v : View} (h : s.Follows file v) {c : Call}
    (hown : v.Own w file c) :
    ∃ code s', s.call little w wide fuel c = some (code, s') ∧ v.Belongs file code s' c ∧
      s'.Follows file (v.next file c) := by
  cases c with
  | getcode n =>
      obtain ⟨hreader, hplaces⟩ := h
      obtain ⟨hn1, hn32, hlimit, hclear⟩ := hown
      obtain ⟨code, hcode, hlt, hbits, _, hat⟩ :=
        getcode_spec little hw wide hreader ⟨hn1, hn32⟩ hlimit hclear
      refine ⟨some code, { s with reader := code.next }, ?_,
        ⟨code, rfl, hlt, Nat.le_trans hlimit hreader.ok.limit_le, hbits⟩, hat, hplaces⟩
      rw [Session.call, hcode]
      rfl
  | toBoundary => exact call_spec little hw wide hfuel h (c := .toBoundary) True.intro True.intro
  | keepPlace => exact call_spec little hw wide hfuel h (c := .keepPlace) True.intro hown
  | dBitstream =>
      obtain ⟨hreader, hplaces⟩ := h
      obtain ⟨n, used, hann, hlimit, hint, hround⟩ := hown
      obtain ⟨pl, r, hcall, hpl, hat, hlen⟩ :=
        dBitstream_spec little hw wide hreader hann hfuel hlimit hint fun hm => (hround hm).1
      refine ⟨none, ⟨r, s.places ++ [pl]⟩, ?_, ⟨rfl, fun hm => ?_⟩, ?_⟩
      · rw [Session.call, hcall]
        rfl
      · have hend := (hround hm).2
        have hlen := hlen hm
        have hpiece := (hpl.memory ((v.spot.pos + used) / 32 * 4) (by
          rw [Spot.bitstream]
          simp only [hm])).2.2.2
        exact ⟨pl, (v.spot.pos + used) / 32 * 4, List.getLast?_concat, by omega,
          hpiece.eq_take (by omega)⟩
      · rw [View.next, hann]
        exact ⟨hat, List.rel_append hplaces (.cons hpl .nil)⟩
  | setPlace i => exact call_spec little hw wide hfuel h (c := .setPlace i) hown True.intro

theorem detected_of_follows (little : Bool) (hw : 32 ≤ w) (wide : Nat → Nat → Nat)
    (hfuel : 2 * file.length < fuel) (calls : List Call) {v : View} (h : s.Follows file v)
    (hguarded : Guarded w file calls v) : Detected little w wide fuel file calls s v := by
  induction calls generalizing s v with
  | nil => exact True.intro
  | cons c calls ih =>
      obtain hpast | ⟨hown, hrest⟩ := hguarded
      · exact .inl (stops_of_past little hw wide hfuel h hpast)
      · obtain ⟨code, s', hcall, hbelongs, hfollows⟩ :=
          call_of_own little hw wide (Nat.le_of_lt hfuel) h hown
        exact .inr ⟨code, s', hcall, hbelongs, ih hfollows hrest⟩

/-- In every run that keeps away from the bytes behind the end of the file, all bits that are
returned or copied belong to it, and a call that needs others is stopped. -/
theorem detected_of_guarded (little : Bool) (hw : 32 ≤ w) (wide : Nat → Nat → Nat) {fuel : Nat}
    (hfuel : 2 * file.length < fuel) {r : Reader} (hinit : initreader file = some r)
    (calls : List Call) (hguarded : Guarded w file calls (View.start file)) :
    Detected little w wide fuel file calls ⟨r, []⟩ (View.start file) :=
  detected_of_follows little hw wide hfuel calls ⟨start_spec hinit, .nil⟩ hguarded

theorem detected_of_guarded_codes : ∃ r, initreader [0x54, 0x44] = some r ∧
    Guarded 64 [0x54, 0x44] [.getcode 4, .keepPlace, .getcode 12] (View.start [0x54, 0x44]) ∧
    Detected true 64 (fun _ _ => 0) 5 [0x54, 0x44] [.getcode 4, .keepPlace, .getcode 12] ⟨r, []⟩
      (View.start [0x54, 0x44]) := by
  obtain ⟨r, hinit⟩ : ∃ r, initreader [0x54, 0x44] = some r := ⟨_, rfl⟩
  have hguarded : Guarded 64 [0x54, 0x44] [.getcode 4, .keepPlace, .getcode 12]
      (View.start [0x54, 0x44]) := by
    simp [Guarded, View.Own, View.next, View.start, Spot.first]
  exact ⟨r, hinit, hguarded, detected_of_guarded true (by decide) _ (by decide) hinit _ hguarded⟩

/-- The last byte of the second code is not in the file. -/
theorem not_detected : ¬∀ (little : Bool) (w : Nat) (wide : Nat → Nat → Nat) (fuel : Nat)
    (file : List (BitVec 8)) (r : Reader) (calls : List Call), 32 ≤ w → 2 * file.length < fuel →
    initreader file = some r →
    Detected little w wide fuel file calls ⟨r, []⟩ (View.start file) := by
  intro h
  obtain ⟨r, first, hinit, hfirst, hptr, hptr'⟩ :
      ∃ r first, initreader [0x54, 0x44, 0x46, 0x43, 0x40] = some r ∧
        getcode true 64 (fun _ _ => 0) 20 r = some first ∧ r.crtPtr = 0 ∧ first.next.crtPtr = 4 :=
    ⟨_, _, rfl, rfl, rfl, rfl⟩
  have hstay : ∀ {s : Reader}, s.crtPtr ≠ 256 → s.refill ≠ none := fun hne hnone => by
    have hend := (refill_eq_none_iff.1 hnone).1
    rw [atEnd, Bool.and_eq_true, decide_eq_true_eq] at hend
    exact hne hend.2
  obtain hstop | ⟨code, s', hcall, -, hstop | ⟨_, _, _, ⟨_, _, _, hle, _⟩, _⟩⟩ :=
    h true 64 (fun _ _ => 0) 11 _ r [.getcode 20, .getcode 28] (by decide) (by decide) hinit
  · exact hstay (by rw [hptr]; decide) hstop.2
  · rw [Session.call, hfirst] at hcall
    cases hcall
    exact hstay (by rw [hptr']; decide) hstop.2
  · exact absurd hle (by decide)

end

end Tendra.Ref.Basicread
