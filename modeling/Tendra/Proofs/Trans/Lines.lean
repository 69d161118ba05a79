import Mathlib.Tactic.Ring
import Tendra.Proofs.Trans.Dwarf
import Tendra.Ref.Trans.Lines

/-!
# The table of lines follows the source marks

The machine that reads the line number program has its registers where the variables `prev_...` say,
after each call. So what `update_statprog` prints takes the registers from one set of current values
to the next one, whichever opcodes it leaves out, and the last opcode appends the row. That fails
where the text is not what was meant: without comments the last opcode is not ended by a newline, a
`long` of 64 bits is shifted wrongly in `sleb128`, the distance of two labels does not fit the 16
bits of `DW_LNS_fixed_advance_pc`, or the count of instructions has gone back.
-/

namespace Tendra.Ref.Trans.Dwarf

open Tendra.Leb128 Tendra.LineProgram

variable {bytes : List Nat}

variable {c : Setup} {adr : Int → Int} {big : Bool}

/-! ## Text and bytes -/

/-- The lines `toks` are assembled to `code`, whatever follows. -/
def Assembles (big : Bool) (adr : Int → Int) (toks : List Tok) (code : List Nat) : Prop :=
  ∀ rest, assemble big adr none (toks ++ rest) =
    (assemble big adr none rest).map fun r => (code ++ r.1, r.2)

theorem Assembles.append {toks toks' : List Tok} {code code' : List Nat}
    (h : Assembles big adr toks code) (h' : Assembles big adr toks' code') :
    Assembles big adr (toks ++ toks') (code ++ code') := by
  intro rest
  rw [List.append_assoc, h, h', Option.map_map]
  congr 1
  funext r
  simp

theorem assemble_vals (w : Width) (ops : List Operand) (rest : List Tok) :
    assemble big adr (some w) (ops.map .val ++ .newline :: rest) =
      (assemble big adr none rest).map fun r =>
        (ops.flatMap (fun o => w.bytes big (o.value adr)) ++ r.1, r.2) := by
  induction ops with
  | nil => simp [assemble]
  | cons o ops ih =>
      rw [List.map_cons, List.cons_append, assemble, ih, Option.map_map]
      congr 1
      funext r
      simp

/-- A directive. -/
theorem assembles_dir (w : Width) (ops : List Operand) :
    Assembles big adr (.out w :: ops.map .val ++ [.newline])
      (ops.flatMap fun o => w.bytes big (o.value adr)) := by
  intro rest
  rw [List.cons_append, List.cons_append, assemble, List.append_assoc]
  exact assemble_vals w ops rest

/-- A directive with one operand. -/
theorem assembles_one (w : Width) (o : Operand) :
    Assembles big adr [.out w, .val o, .newline] (w.bytes big (o.value adr)) := by
  have h : Assembles big adr _ _ := assembles_dir w [o]
  rwa [List.flatMap_singleton] at h

/-- Bytes are printed as they are. -/
theorem flatMap_bytes (h : ∀ b ∈ bytes, b < 256) :
    (bytes.map fun b : Nat => Operand.num b).flatMap
      (fun o => Width.bytes big (o.value adr) .w8) = bytes := by
  induction bytes with
  | nil => rfl
  | cons b bytes ih =>
      have hb := h b (by simp)
      have hbyte : byte b 0 = b := by
        rw [byte]
        omega
      rw [List.map_cons, List.flatMap_cons, ih fun b hb => h b (by simp [hb])]
      simp [Width.bytes, Operand.value, hbyte]

/-- A directive of bytes. -/
theorem assembles_bytes (h : ∀ b ∈ bytes, b < 256) :
    Assembles big adr (.out .w8 :: byteToks bytes ++ [.newline]) bytes := by
  have hdir : Assembles big adr _ _ := assembles_dir .w8 (bytes.map fun b : Nat => .num b)
  rw [flatMap_bytes h, List.map_map] at hdir
  exact hdir

theorem assembles_enter : Assembles big adr [.enterSection] [] := by
  intro rest
  simp [assemble]

theorem assembles_exit : Assembles big adr [.exitSection] [] := by
  intro rest
  simp [assemble]

/-- The lines take the registers of the machine from `r` to `r'` and append `rows`. -/
def Writes (c : Setup) (adr : Int → Int) (toks : List Tok) (r : LineProgram.Regs)
    (rows : List LineProgram.Regs) (r' : LineProgram.Regs) : Prop :=
  ∃ code, Assembles c.header.bigEndian adr toks code ∧ Does c.header code r rows r'

variable {toks toks' : List Tok} {r r' r'' : LineProgram.Regs} {rows rows' : List LineProgram.Regs}

theorem Writes.append (h : Writes c adr toks r rows r') (h' : Writes c adr toks' r' rows' r'') :
    Writes c adr (toks ++ toks') r (rows ++ rows') r'' := by
  obtain ⟨code, ha, hd⟩ := h
  obtain ⟨code', ha', hd'⟩ := h'
  exact ⟨code ++ code', ha.append ha', hd.append hd'⟩

theorem writes_nil (r : LineProgram.Regs) : Writes c adr [] r [] r :=
  ⟨[], fun rest => by simp, .refl r⟩

theorem writes_enter (r : LineProgram.Regs) : Writes c adr [.enterSection] r [] r :=
  ⟨[], assembles_enter, .refl r⟩

theorem writes_exit (r : LineProgram.Regs) : Writes c adr [.exitSection] r [] r :=
  ⟨[], assembles_exit, .refl r⟩

/-! ## Numbers of variable length -/

theorem ulebToks_eq (c : Setup) (v : Int) :
    ulebToks c v = .ok (byteToks (encodeU (BitVec.ofInt c.long.bits v).toNat)) := by
  have hlen : 10 ≤ c.long.bits := by cases c.long <;> decide
  rw [ulebToks, (uleb128_ten hlen _).1]
  rfl

/-- A number with sign is printed where a `long` has 32 bits or it is not negative. -/
theorem slebToks_eq {v : Int} (hv : (BitVec.ofInt c.long.bits v).toInt = v)
    (h : c.long = .long32 ∨ 0 ≤ v) :
    slebToks c v = .ok (byteToks (encodeS v)) := by
  have hlen : (encodeS v).length ≤ c.long.bits := by
    have hlow := BitVec.le_toInt (BitVec.ofInt c.long.bits v)
    have hhigh := @BitVec.toInt_lt _ (BitVec.ofInt c.long.bits v)
    rw [hv] at hlow hhigh
    have hten : (encodeS v).length ≤ 9 + 1 := by
      refine encodeS_length ?_ ?_ <;> cases hl : c.long <;> rw [hl] at hlow hhigh <;>
        simp only [Long.bits] at hlow hhigh <;> omega
    have hbits : 10 ≤ c.long.bits := by cases c.long <;> decide
    omega
  have hs := (@sleb128_eq _ (BitVec.ofInt c.long.bits v) c.copiesSign c.long.bits (by rwa [hv])
    (by rwa [hv])).1
  rw [slebToks, sleb128, hs, hv]
  rfl

/-- A directive with an opcode and a number of variable length. -/
theorem assembles_opcode {op : Nat} (hop : op < 256) (h : ∀ b ∈ bytes, b < 256) :
    Assembles big adr (.out .w8 :: .val (.num op) :: byteToks bytes ++ [.newline])
      (op :: bytes) := by
  have hcons : ∀ b ∈ op :: bytes, b < 256 := by
    intro b hb
    rcases List.mem_cons.mp hb with rfl | hb
    · exact hop
    · exact h b hb
  exact assembles_bytes hcons

theorem extOpcode_eq (c : Setup) (op : Nat) {n : Nat} (hn : n < 100) :
    extOpcode c op n = .ok (.out .w8 :: byteToks (0 :: encodeU (n + 1) ++ [op]) ++ [.newline]) := by
  have hlen : (BitVec.ofInt c.long.bits ((n : Int) + 1)).toNat = n + 1 := by
    rw [BitVec.toNat_ofInt]
    cases c.long <;> simp only [Long.bits] <;> omega
  rw [extOpcode, ulebToks_eq, hlen]
  simp only [byteToks, bind, Except.bind, pure, Except.pure, List.map_cons, List.map_append,
    List.map_nil, List.cons_append, List.append_assoc, List.nil_append]
  rfl

theorem base_le (c : Setup) : 10 ≤ c.header.opcodeBase := Nat.le_refl 10

/-! ## The opcodes of `update_statprog` -/

/-- The machine has in its registers what was current at the last row. -/
structure Tracks (c : Setup) (adr : Int → Int) (s : LineSt) (r : LineProgram.Regs) : Prop where
  address : 0 ≤ s.prevAdLabel →
    r.address = BitVec.ofInt 32 (adr s.prevAdLabel + s.prevAdCount * c.target.minInstrSize)
  file : r.file = (BitVec.ofInt c.long.bits s.prevFile).toNat
  line : BitVec.ofInt c.long.bits r.line = BitVec.ofInt c.long.bits s.prevLine
  column : r.column = (BitVec.ofInt c.long.bits s.prevCol).toNat
  isStmt : r.isStmt = s.prevIsStmt
  endSequence : r.endSequence = false

/-- The row has the current values. -/
structure Shows (c : Setup) (adr : Int → Int) (s : LineSt) (row : LineProgram.Regs) : Prop where
  address : row.address =
    BitVec.ofInt 32 (adr s.currentAdLabel + s.currentAdCount * c.target.minInstrSize)
  file : row.file = (BitVec.ofInt c.long.bits s.currentFile).toNat
  line : BitVec.ofInt c.long.bits row.line = BitVec.ofInt c.long.bits s.currentLine
  column : row.column = (BitVec.ofInt c.long.bits s.currentCol).toNat
  isStmt : row.isStmt = s.currentIsStmt
  endSequence : row.endSequence = false

/-- What is printed can be read as it is meant: comments are printed, a difference of lines for
`sleb128` is not negative unless a `long` has 32 bits, the distance of a new label fits 16 bits, and
with the old label the count has not gone back. -/
structure Fits (c : Setup) (adr : Int → Int) (s : LineSt) : Prop where
  comment : c.doComment = true
  line : c.long = .long32 ∨ c.target.lineBase ≤ s.lineinc c
  distance : 0 ≤ s.prevAdLabel → s.prevAdLabel ≠ s.currentAdLabel →
    0 ≤ adr s.currentAdLabel - adr s.prevAdLabel +
        (s.currentAdCount - s.prevAdCount) * c.target.minInstrSize ∧
      adr s.currentAdLabel - adr s.prevAdLabel +
        (s.currentAdCount - s.prevAdCount) * c.target.minInstrSize < 65536
  count : s.prevAdLabel = s.currentAdLabel → s.prevAdCount ≤ s.currentAdCount

instance (c : Setup) (adr : Int → Int) (s : LineSt) : Decidable (Fits c adr s) :=
  decidable_of_iff (c.doComment = true ∧ (c.long = .long32 ∨ c.target.lineBase ≤ s.lineinc c) ∧
    (0 ≤ s.prevAdLabel → s.prevAdLabel ≠ s.currentAdLabel →
      0 ≤ adr s.currentAdLabel - adr s.prevAdLabel +
          (s.currentAdCount - s.prevAdCount) * c.target.minInstrSize ∧
        adr s.currentAdLabel - adr s.prevAdLabel +
          (s.currentAdCount - s.prevAdCount) * c.target.minInstrSize < 65536) ∧
    (s.prevAdLabel = s.currentAdLabel → s.prevAdCount ≤ s.currentAdCount))
    ⟨fun h => ⟨h.1, h.2.1, h.2.2.1, h.2.2.2⟩, fun h => ⟨h.comment, h.line, h.distance, h.count⟩⟩

theorem addressToks_spec {s : LineSt} (ht : Tracks c adr s r) (hf : Fits c adr s) :
    ∃ toks adInc a, addressToks c s = .ok (toks, adInc) ∧
      Writes c adr toks r [] { r with address := a } ∧ 0 ≤ adInc ∧
      a + BitVec.ofInt 32 (adInc * c.target.minInstrSize) =
        BitVec.ofInt 32 (adr s.currentAdLabel + s.currentAdCount * c.target.minInstrSize) := by
  rw [addressToks]
  split
  · have hext : extOpcode c 2 4 =
        .ok (.out .w8 :: byteToks (0 :: encodeU 5 ++ [2]) ++ [.newline]) :=
      extOpcode_eq c 2 (n := 4) (by omega)
    rw [hext]
    refine ⟨_, _, BitVec.ofInt 32 (adr s.currentAdLabel +
      s.currentAdCount * c.target.minInstrSize), rfl,
      ⟨_, (assembles_bytes ?_).append (assembles_one .w32 _), ?_⟩, le_rfl, ?_⟩
    · simp [encodeU]
    · have hset := does_setAddress (base_le c) r
        (adr s.currentAdLabel + s.currentAdCount * c.target.minInstrSize)
      rwa [List.append_cons] at hset
    · rw [Int.zero_mul]
      exact BitVec.add_zero _
  · next hlab =>
      split
      · next hne =>
          obtain ⟨hlow, hhigh⟩ := hf.distance (by omega) hne
          refine ⟨_, _, _, rfl, ⟨_, (assembles_one .w8 _).append (assembles_one .w16 _),
            does_fixedAdvancePc (base_le c) r hlow hhigh⟩, le_rfl, ?_⟩
          rw [ht.address (by omega), Int.zero_mul, ← BitVec.ofInt_add, ← BitVec.ofInt_add,
            Operand.value]
          congr 1
          ring
      · next heq =>
          have heq' : s.prevAdLabel = s.currentAdLabel := by simpa using heq
          have hcount := hf.count heq'
          refine ⟨_, _, r.address, rfl, writes_nil r, by omega, ?_⟩
          rw [ht.address (by omega), ← BitVec.ofInt_add, heq']
          congr 1
          ring

/-- A register is set where it changes. -/
theorem registerToks_spec (adr : Int → Int) {op : Nat} (hop : op < 256) {current prev : Int}
    (hset : Does c.header (op :: encodeU (BitVec.ofInt c.long.bits current).toNat) r [] r')
    (hsame : current = prev → r' = r) :
    ∃ toks, registerToks c op current prev = .ok toks ∧ Writes c adr toks r [] r' := by
  rw [registerToks]
  split
  · rw [ulebToks_eq]
    exact ⟨_, rfl, _, assembles_opcode hop fun _ => encodeU_byte, hset⟩
  · next h =>
      rw [hsame (by simpa using h)]
      exact ⟨_, rfl, writes_nil r⟩

theorem stmtToks_spec (c : Setup) (adr : Int → Int) (r : LineProgram.Regs) {s : LineSt}
    (hr : r.isStmt = s.prevIsStmt) :
    Writes c adr (stmtToks s) r [] { r with isStmt := s.currentIsStmt } := by
  rw [stmtToks]
  split
  · next h =>
      have hneg : s.currentIsStmt = !r.isStmt := by
        rw [hr]
        exact Bool.eq_not.mpr h
      rw [hneg]
      exact ⟨_, assembles_one .w8 _, does_negateStmt (base_le c) r⟩
  · next h =>
      have heq : s.currentIsStmt = r.isStmt := by
        rw [hr]
        simpa using h
      rw [heq]
      exact writes_nil r

/-- The line is brought so near that a special opcode does the rest. -/
theorem lineToks_spec (adr : Int → Int) (r : LineProgram.Regs) {inc : Int}
    (hinc : (BitVec.ofInt c.long.bits inc).toInt = inc)
    (h : c.long = .long32 ∨ c.target.lineBase ≤ inc) :
    ∃ toks left, lineToks c inc = .ok (toks, left) ∧
      Writes c adr toks r [] { r with line := r.line + (inc - left) } ∧
      c.target.lineBase ≤ left ∧ left < c.target.lineBase + c.target.lineRange := by
  rw [lineToks]
  split
  · next hin =>
      refine ⟨_, _, rfl, ?_, (of_decide_eq_true hin).1, (of_decide_eq_true hin).2⟩
      rw [Int.sub_self, Int.add_zero]
      exact writes_nil r
  · next hin =>
      have hout : ¬ (c.target.lineBase ≤ inc ∧
          inc < c.target.lineBase + c.target.lineRange) := fun hh => hin (decide_eq_true hh)
      have hbase : c.target.lineBase ≤ 0 ∧ 0 < c.target.lineBase + c.target.lineRange := by
        cases c.target <;> decide
      rw [slebToks_eq hinc (h.imp_right fun h => by omega)]
      refine ⟨_, _, rfl, ?_, hbase⟩
      rw [Int.sub_zero]
      exact ⟨_, assembles_opcode (show 3 < 256 by omega) fun _ => encodeS_byte,
        does_advanceLine (base_le c) r _⟩

/-- The address is brought so near that a special opcode does the rest. -/
theorem advanceToks_spec (adr : Int → Int) (r : LineProgram.Regs) {left adInc : Int}
    (hlow : c.target.lineBase ≤ left) (hhigh : left < c.target.lineBase + c.target.lineRange)
    (had : 0 ≤ adInc) :
    ∃ toks a, ∃ n : Nat, advanceToks c left adInc = .ok (toks, c.special left n) ∧
      Writes c adr toks r [] { r with address := a } ∧
      a + BitVec.ofInt 32 (n * c.target.minInstrSize) =
        r.address + BitVec.ofInt 32 (adInc * c.target.minInstrSize) ∧
      10 ≤ c.special left n ∧ c.special left n ≤ 255 := by
  have hrange : c.target.lineRange ≤ 128 := by cases c.target <;> decide
  have hbase : (opcodeBase : Int) = 10 := rfl
  rw [advanceToks]
  split
  · rw [ulebToks_eq]
    refine ⟨_, r.address + BitVec.ofInt 32 (adInc * c.target.minInstrSize), 0, rfl,
      ⟨_, assembles_opcode (show 2 < 256 by omega) fun _ => encodeU_byte, ?_⟩, ?_, ?_, ?_⟩
    · have hadv := does_advancePc (base_le c) r (BitVec.ofInt c.long.bits adInc).toNat
      have hval : BitVec.ofNat 32 ((BitVec.ofInt c.long.bits adInc).toNat * c.target.minInstrSize) =
          BitVec.ofInt 32 (adInc * c.target.minInstrSize) := by
        apply BitVec.eq_of_toNat_eq
        rw [BitVec.toNat_ofNat, BitVec.toNat_ofInt, BitVec.toNat_ofInt]
        cases c.long <;> cases c.target <;> simp only [Long.bits, Target.minInstrSize] <;> omega
      rw [LineProgram.Regs.advance, show c.header.minInstLength = c.target.minInstrSize from rfl,
        hval] at hadv
      exact hadv
    · rw [Nat.cast_zero, Int.zero_mul]
      exact BitVec.add_zero _
    · simp only [Setup.special, hbase, Nat.cast_zero, Int.mul_zero]
      omega
    · simp only [Setup.special, hbase, Nat.cast_zero, Int.mul_zero]
      omega
  · next hle =>
      have hnat : ((adInc.toNat : Nat) : Int) = adInc := Int.toNat_of_nonneg had
      refine ⟨_, r.address, adInc.toNat, by rw [hnat]; rfl, writes_nil r, by rw [hnat], ?_, ?_⟩
      · have hpos : 0 ≤ (c.target.lineRange : Int) * adInc :=
          Int.mul_nonneg (Int.natCast_nonneg _) had
        rw [hnat, Setup.special, hbase]
        omega
      · rw [hnat]
        omega

/-- The last opcode: a special one, or `DW_LNS_copy` where nothing is left to be done. -/
theorem rowToks_spec (adr : Int → Int) (r : LineProgram.Regs) {left : Int} {n : Nat}
    (hcomment : c.doComment = true) (hlow : c.target.lineBase ≤ left)
    (hhigh : left < c.target.lineBase + c.target.lineRange)
    (h10 : 10 ≤ c.special left n) (h255 : c.special left n ≤ 255) :
    ∃ row : LineProgram.Regs, Writes c adr (rowToks c (c.special left n)) r [row] row.appended ∧
      row = { r with
        address := r.address + BitVec.ofInt 32 (n * c.target.minInstrSize)
        line := r.line + left } := by
  have hbase : (opcodeBase : Int) = 10 := rfl
  refine ⟨_, ?_, rfl⟩
  rw [rowToks, hcomment, if_pos rfl]
  split
  · next hcopy =>
      rw [Setup.special] at hcopy
      have hrange : -c.target.lineBase < c.target.lineRange := by cases c.target <;> decide
      have hn : n = 0 := by
        by_contra hne
        have hmul : (c.target.lineRange : Int) * 1 ≤ c.target.lineRange * n :=
          Int.mul_le_mul_of_nonneg_left (by omega) (Int.natCast_nonneg _)
        omega
      have hleft : left = 0 := by
        rw [hn, Nat.cast_zero, Int.mul_zero] at hcopy
        omega
      subst hn hleft
      have hrow : { r with
          address := r.address + BitVec.ofInt 32 (((0 : Nat) : Int) * c.target.minInstrSize)
          line := r.line + 0 } = r := by
        rw [Nat.cast_zero, Int.zero_mul, Int.add_zero]
        rw [show r.address + BitVec.ofInt 32 0 = r.address from BitVec.add_zero _]
      rw [hrow]
      exact ⟨_, assembles_one .w8 _, does_copy (base_le c) r⟩
  · obtain ⟨op, hop⟩ : ∃ op : Nat, c.special left n = op :=
      ⟨_, (Int.toNat_of_nonneg (by omega)).symm⟩
    rw [hop]
    have hspecial := does_special (H := c.header) r (show c.header.opcodeBase ≤ op by
      show 10 ≤ op
      omega)
    have hop' : op - 10 = c.target.lineRange * n + (left - c.target.lineBase).toNat := by
      rw [Setup.special, hbase, ← Nat.cast_mul] at hop
      omega
    have hlt : (left - c.target.lineBase).toNat < c.target.lineRange := by omega
    have hdiv : (op - 10) / c.target.lineRange = n := by
      rw [hop', Nat.mul_add_div (by omega), Nat.div_eq_of_lt hlt, Nat.add_zero]
    have hmod : (op - 10) % c.target.lineRange = (left - c.target.lineBase).toNat := by
      rw [hop', Nat.mul_add_mod, Nat.mod_eq_of_lt hlt]
    have hrow : r.special c.header op = { r with
        address := r.address + BitVec.ofInt 32 (n * c.target.minInstrSize)
        line := r.line + left } := by
      have hline : c.target.lineBase + ((left - c.target.lineBase).toNat : Int) = left := by omega
      simp only [LineProgram.Regs.special, LineProgram.Regs.advance, Setup.header, opcodeBase, hdiv,
        hmod, hline]
      rw [← Nat.cast_mul, BitVec.ofInt_natCast]
    rw [hrow] at hspecial
    refine ⟨_, assembles_one .w8 _, ?_⟩
    have hbyte : byte (op : Int) 0 = op := by
      rw [byte]
      omega
    rw [Operand.value, Width.bytes, hbyte]
    exact hspecial

/-- The update of `s` ends with a special opcode or `DW_LNS_copy` in its place. -/
def EndsSpecial (c : Setup) (s : LineSt) : Prop :=
  ∃ s' front special, updateStatprog c s = .ok s' ∧
    s'.out = s.out ++ front ++ rowToks c special ++ [.exitSection] ∧
      opcodeBase ≤ special ∧ special ≤ 255

/-- One row is appended, with the current values, and the registers are right again. -/
theorem updateStatprog_spec {s : LineSt} (hcur : 0 ≤ s.currentAdLabel) (ht : Tracks c adr s r)
    (hf : Fits c adr s) :
    ∃ s' toks row, updateStatprog c s = .ok s' ∧ s'.out = s.out ++ toks ∧
      Writes c adr toks r [row] row.appended ∧ Shows c adr s row ∧ Tracks c adr s' row.appended ∧
      EndsSpecial c s := by
  obtain ⟨address, adInc, a, haddress, hw1, had, ha⟩ := addressToks_spec ht hf
  obtain ⟨file, (hfile : registerToks c 4 _ _ = _), hw2⟩ := registerToks_spec adr (by decide)
    (does_setFile (base_le c) { r with address := a }
      (BitVec.ofInt c.long.bits s.currentFile).toNat)
    fun h => by rw [h, ← ht.file]
  have hw3 := stmtToks_spec c adr { r with
    address := a
    file := (BitVec.ofInt c.long.bits s.currentFile).toNat } ht.isStmt
  obtain ⟨col, (hcol : registerToks c 5 _ _ = _), hw4⟩ := registerToks_spec adr (by decide)
    (does_setColumn (base_le c) { r with
      address := a
      file := (BitVec.ofInt c.long.bits s.currentFile).toNat
      isStmt := s.currentIsStmt } (BitVec.ofInt c.long.bits s.currentCol).toNat)
    fun h => by rw [h, ← ht.column]
  have hinc : (BitVec.ofInt c.long.bits (s.lineinc c)).toInt = s.lineinc c := by
    rw [LineSt.lineinc, BitVec.ofInt_toInt]
  obtain ⟨line, left, hline, hw5, hlow, hhigh⟩ := lineToks_spec adr { r with
    address := a
    file := (BitVec.ofInt c.long.bits s.currentFile).toNat
    isStmt := s.currentIsStmt
    column := (BitVec.ofInt c.long.bits s.currentCol).toNat } hinc hf.line
  obtain ⟨advance, a', n, hadvance, hw6, ha', h10, h255⟩ := advanceToks_spec adr { r with
    address := a
    file := (BitVec.ofInt c.long.bits s.currentFile).toNat
    isStmt := s.currentIsStmt
    column := (BitVec.ofInt c.long.bits s.currentCol).toNat
    line := r.line + (s.lineinc c - left) } hlow hhigh had
  obtain ⟨row, hw7, hrow⟩ := rowToks_spec adr { r with
    address := a'
    file := (BitVec.ofInt c.long.bits s.currentFile).toNat
    isStmt := s.currentIsStmt
    column := (BitVec.ofInt c.long.bits s.currentCol).toNat
    line := r.line + (s.lineinc c - left) } hf.comment hlow hhigh h10 h255
  have hall := ((((((((writes_enter r).append hw1).append hw2).append hw3).append hw4).append
    hw5).append hw6).append hw7).append (writes_exit _)
  have hrun : updateStatprog c s = .ok { s.print c (.enterSection :: address ++ file ++
      stmtToks s ++ col ++ line ++ advance ++ rowToks c (c.special left n) ++ [.exitSection]) with
      prevAdLabel := s.currentAdLabel
      prevAdCount := s.currentAdCount
      prevFile := s.currentFile
      prevLine := s.currentLine
      prevCol := s.currentCol
      prevIsStmt := s.currentIsStmt } := by
    rw [updateStatprog, if_neg (by omega), haddress]
    simp only [bind, Except.bind, hfile, hcol, hline, hadvance]
    rfl
  have hshows : Shows c adr s row := by
    rw [hrow]
    refine ⟨by rw [← ha, ← ha'], rfl, ?_, rfl, rfl, ht.endSequence⟩
    have hsum : r.line + (s.lineinc c - left) + left = r.line + s.lineinc c := by omega
    rw [hsum, BitVec.ofInt_add, ht.line, LineSt.lineinc, BitVec.ofInt_toInt, ← BitVec.ofInt_add]
    congr 1
    omega
  refine ⟨_, _, row, hrun, rfl, ?_, hshows, ?_, _, .enterSection :: address ++ file ++ stmtToks s ++
    col ++ line ++ advance, _, hrun, ?_, h10, h255⟩
  · simpa using hall
  · exact ⟨fun _ => hshows.address, hshows.file, hshows.line, hshows.column, hshows.isStmt,
      hshows.endSequence⟩
  · simp [LineSt.print]

/-! ## The calls -/

/-- The update of `s`, if it emits. -/
def shown (s : LineSt) : List LineSt := if 0 ≤ s.currentAdLabel then [s] else []

/-- The states in which the calls update the table with a row. -/
@[grind =] def emitted (c : Setup) : List (Place × Call) → LineSt → List LineSt
  | [], _ => []
  | (place, call) :: calls, s =>
      let t := textLabel place.fresh (s.arrive place)
      (if call.updates t.1 t.2 then shown t.2 else []) ++
        match call.run c place.fresh (s.arrive place) with
        | .ok s' => emitted c calls s'
        | .error _ => []

/-- The same with `close_statprog`. -/
def updates (c : Setup) (calls : List (Place × Call)) (last : Place) : List LineSt :=
  emitted c calls .init ++
    match lineCalls c calls .init with
    | .ok s => shown (closeLabel last.fresh (s.arrive last))
    | .error _ => []

/-- What has been printed makes a row for each of `sts`, and the registers are right. -/
def Right (c : Setup) (adr : Int → Int) (s : LineSt) (sts : List LineSt) : Prop :=
  ∃ rows r, Writes c adr s.out c.header.start rows r ∧ Tracks c adr s r ∧
    List.Forall₂ (Shows c adr) sts rows ∧ ∀ t ∈ sts, EndsSpecial c t

variable {s s' : LineSt} {sts : List LineSt}

/-- Only what has been printed and the previous values matter. -/
theorem Right.congr (h : Right c adr s sts) (hout : s'.out = s.out)
    (hlab : s'.prevAdLabel = s.prevAdLabel) (hcount : s'.prevAdCount = s.prevAdCount)
    (hfile : s'.prevFile = s.prevFile) (hline : s'.prevLine = s.prevLine)
    (hcol : s'.prevCol = s.prevCol) (hstmt : s'.prevIsStmt = s.prevIsStmt) :
    Right c adr s' sts := by
  obtain ⟨rows, r, hw, ht, hrest⟩ := h
  refine ⟨rows, r, by rwa [hout], ⟨?_, ?_, ?_, ?_, ?_, ht.endSequence⟩, hrest⟩
  · rw [hlab, hcount]
    exact ht.address
  · rw [hfile]
    exact ht.file
  · rw [hline]
    exact ht.line
  · rw [hcol]
    exact ht.column
  · rw [hstmt]
    exact ht.isStmt

theorem Right.arrive (h : Right c adr s sts) (place : Place) : Right c adr (s.arrive place) sts :=
  h.congr rfl rfl rfl rfl rfl rfl rfl

theorem Right.setDwTextLabel (h : Right c adr s sts) (fresh : Int) :
    Right c adr (setDwTextLabel fresh s).2 sts := by
  unfold Dwarf.setDwTextLabel
  split
  · exact h.congr rfl rfl rfl rfl rfl rfl rfl
  · exact h

theorem Right.textLabel (h : Right c adr s sts) (fresh : Int) :
    Right c adr (textLabel fresh s).2 sts := by
  unfold Dwarf.textLabel
  split
  · exact h.setDwTextLabel fresh
  · exact h

theorem Right.closeLabel (h : Right c adr s sts) (fresh : Int) :
    Right c adr (closeLabel fresh s) sts := by
  unfold Dwarf.closeLabel
  split
  · exact (h.setDwTextLabel fresh).congr rfl rfl rfl rfl rfl rfl rfl
  · exact h.congr rfl rfl rfl rfl rfl rfl rfl

theorem Right.update (h : Right c adr s sts) (hf : ∀ t ∈ shown s, Fits c adr t) :
    ∃ s', updateStatprog c s = .ok s' ∧ Right c adr s' (sts ++ shown s) := by
  rw [shown] at hf ⊢
  split
  · next hcur =>
      rw [if_pos hcur] at hf
      obtain ⟨rows, r, hw, ht, hrows, hends⟩ := h
      obtain ⟨s', toks, row, hrun, hout, hw', hshows, ht', hend⟩ :=
        updateStatprog_spec hcur ht (hf s (by simp))
      refine ⟨s', hrun, rows ++ [row], row.appended, ?_, ht', ?_, ?_⟩
      · rw [hout]
        exact hw.append hw'
      · exact List.rel_append hrows (.cons hshows .nil)
      · simpa [or_imp, forall_and] using ⟨hends, hend⟩
  · next hcur =>
      refine ⟨s, ?_, by rwa [List.append_nil]⟩
      rw [updateStatprog, if_pos (by omega)]
      rfl

theorem Right.finish (h : Right c adr s sts) (newlab : Int) (call : Call) :
    Right c adr (call.finish c newlab s) sts := by
  have hlab : Right c adr (s.setAdLabel newlab) sts := by
    unfold LineSt.setAdLabel
    split
    · exact h.congr rfl rfl rfl rfl rfl rfl rfl
    · exact h
  cases call with
  | sourceMark pos isStmt => exact hlab.congr rfl rfl rfl rfl rfl rfl rfl
  | startBasicBlock =>
      obtain ⟨rows, r, hw, ht, hrest⟩ := hlab
      have hblock : Writes c adr [.enterSection, .out .w8, .val (.num 7), .newline, .exitSection]
          r [] { r with basicBlock := true } :=
        ((writes_enter r).append ⟨_, assembles_one .w8 (.num 7),
          does_setBasicBlock (base_le c) r⟩).append (writes_exit _)
      refine ⟨rows, { r with basicBlock := true }, ?_, ?_, hrest⟩
      · have := hw.append hblock
        rwa [List.append_nil] at this
      · exact ⟨ht.address, ht.file, ht.line, ht.column, ht.isStmt, ht.endSequence⟩

theorem Right.run (h : Right c adr s sts) (fresh : Int) (call : Call)
    (hf : call.updates (Dwarf.textLabel fresh s).1 (Dwarf.textLabel fresh s).2 = true →
      ∀ t ∈ shown (Dwarf.textLabel fresh s).2, Fits c adr t) :
    ∃ s', call.run c fresh s = .ok s' ∧ Right c adr s' (sts ++
      if call.updates (Dwarf.textLabel fresh s).1 (Dwarf.textLabel fresh s).2 then
        shown (Dwarf.textLabel fresh s).2 else []) := by
  have hlab := h.textLabel fresh
  cases hp : Dwarf.textLabel fresh s with
  | mk newlab t =>
      simp only [hp] at hf hlab ⊢
      rw [Call.run, hp]
      by_cases hup : call.updates newlab t = true
      · obtain ⟨s', hrun, hright⟩ := hlab.update (hf hup)
        refine ⟨call.finish c newlab s', ?_, ?_⟩
        · simp only [hup, if_true, hrun, bind, Except.bind]
          rfl
        · rw [if_pos hup]
          exact hright.finish newlab call
      · refine ⟨call.finish c newlab t, ?_, ?_⟩
        · simp only [hup]
          rfl
        · rw [if_neg hup, List.append_nil]
          exact hlab.finish newlab call

theorem Right.calls {calls : List (Place × Call)} (h : Right c adr s sts)
    (hf : ∀ t ∈ emitted c calls s, Fits c adr t) :
    ∃ s', lineCalls c calls s = .ok s' ∧ Right c adr s' (sts ++ emitted c calls s) := by
  induction calls generalizing s sts with
  | nil => exact ⟨s, rfl, by rwa [emitted, List.append_nil]⟩
  | cons e calls ih =>
      obtain ⟨place, call⟩ := e
      rw [emitted] at hf ⊢
      obtain ⟨s', hrun, hright⟩ := (h.arrive place).run place.fresh call fun hup t ht =>
        hf t (by simp [hup, ht])
      simp only [hrun] at hf ⊢
      obtain ⟨s'', hruns, hright'⟩ := ih hright fun t ht => hf t (by simp [ht])
      refine ⟨s'', ?_, by rwa [← List.append_assoc]⟩
      rw [lineCalls]
      simp only [hrun, bind, Except.bind]
      exact hruns

theorem right_init : Right c adr .init [] :=
  ⟨[], c.header.start, writes_nil _, ⟨fun h => absurd h (by decide), by cases c.long <;> rfl, rfl,
    by cases c.long <;> rfl, rfl, rfl⟩, .nil, by simp⟩

/-- Two procedures: a line is passed, one goes back, and the second procedure has another label. -/
def markedCalls : List (Place × Call) :=
  [(⟨-1, 0, 1⟩, .sourceMark ⟨1, 5, 3⟩ true), (⟨3, 1, 2⟩, .sourceMark ⟨1, 9, 3⟩ true),
    (⟨30, 1, 2⟩, .sourceMark ⟨2, 2, 7⟩ false), (⟨-1, 1, 2⟩, .startBasicBlock)]

end Tendra.Ref.Trans.Dwarf
