import Mathlib.Data.BitVec
import Tendra.Lib.Leb128

/-!
# The line number programs of DWARF 2

A line number program is a sequence of opcodes for a machine with a register for each column of
the table of lines. An opcode below the base of the header is a standard one, with operands of
variable length mostly; 0 begins an extended one, whose length is given. The others are special:
each moves the address and the line and appends a row. Addresses have 32 bits.
-/

namespace Tendra.LineProgram

open Leb128

/-- What the prologue says about the opcodes, and the order of the bytes of a number. -/
structure Header where
  bigEndian : Bool
  minInstLength : Nat
  defaultIsStmt : Bool
  lineBase : Int
  lineRange : Nat
  opcodeBase : Nat

/-- The registers, and also a row. -/
structure Regs where
  address : BitVec 32
  file : Nat
  line : Int
  column : Nat
  isStmt : Bool
  basicBlock : Bool
  endSequence : Bool
deriving DecidableEq, Repr

/-- The registers at the start of a sequence. -/
def Header.start (H : Header) : Regs := ⟨0, 1, 1, 0, H.defaultIsStmt, false, false⟩

/-! ## Numbers of fixed length -/

def byte (v : Int) (k : Nat) : Nat := (v / 256 ^ k % 256).toNat

def encodeHalf (big : Bool) (v : Int) : List Nat :=
  if big then [byte v 1, byte v 0] else [byte v 0, byte v 1]

def encodeWord (big : Bool) (v : Int) : List Nat :=
  if big then [byte v 3, byte v 2, byte v 1, byte v 0]
  else [byte v 0, byte v 1, byte v 2, byte v 3]

def decodeHalf (big : Bool) : List Nat → Option (Nat × List Nat)
  | a :: b :: bs => some (if big then 256 * a + b else a + 256 * b, bs)
  | _ => none

def decodeWord (big : Bool) : List Nat → Option (Nat × List Nat)
  | a :: b :: c :: d :: bs =>
      some (if big then 256 * (256 * (256 * a + b) + c) + d
        else a + 256 * (b + 256 * (c + 256 * d)), bs)
  | _ => none

/-! ## The machine -/

/-- `DW_LNS_advance_pc` and the address part of a special opcode. -/
def Regs.advance (H : Header) (r : Regs) (n : Nat) : Regs :=
  { r with address := r.address + BitVec.ofNat 32 (n * H.minInstLength) }

/-- A special opcode, as it moves the registers. -/
def Regs.special (H : Header) (r : Regs) (op : Nat) : Regs :=
  let n := op - H.opcodeBase
  { r.advance H (n / H.lineRange) with line := r.line + (H.lineBase + (n % H.lineRange : Nat)) }

/-- The registers after a row has been appended. -/
def Regs.appended (r : Regs) : Regs := { r with basicBlock := false }

/-- An extended opcode, after its 0. -/
def extended (H : Header) (r : Regs) (bs : List Nat) : Option (List Regs × Regs × List Nat) :=
  match decodeU bs with
  | some (len, 1 :: bs) =>
      if len = 1 then some ([{ r with endSequence := true }], H.start, bs) else none
  | some (len, 2 :: bs) =>
      if len = 5 then
        (decodeWord H.bigEndian bs).map fun a =>
          ([], { r with address := BitVec.ofNat 32 a.1 }, a.2)
      else none
  | some (len + 1, _ :: bs) => some ([], r, bs.drop len)
  | _ => none

/-- A standard opcode. -/
def standard (H : Header) (r : Regs) (bs : List Nat) : Nat → Option (List Regs × Regs × List Nat)
  | 1 => some ([r], r.appended, bs)
  | 2 => (decodeU bs).map fun n => ([], r.advance H n.1, n.2)
  | 3 => (decodeS bs).map fun n => ([], { r with line := r.line + n.1 }, n.2)
  | 4 => (decodeU bs).map fun n => ([], { r with file := n.1 }, n.2)
  | 5 => (decodeU bs).map fun n => ([], { r with column := n.1 }, n.2)
  | 6 => some ([], { r with isStmt := !r.isStmt }, bs)
  | 7 => some ([], { r with basicBlock := true }, bs)
  | 8 => some ([], r.advance H ((255 - H.opcodeBase) / H.lineRange), bs)
  | 9 =>
      (decodeHalf H.bigEndian bs).map fun n =>
        ([], { r with address := r.address + BitVec.ofNat 32 n.1 }, n.2)
  | _ => none

/-- One opcode: the rows it appends, the registers after it and the bytes after it. -/
def step (H : Header) (r : Regs) : List Nat → Option (List Regs × Regs × List Nat)
  | [] => none
  | op :: bs =>
      if H.opcodeBase ≤ op then
        some ([r.special H op], (r.special H op).appended, bs)
      else if op = 0 then extended H r bs
      else standard H r bs op

/-- All opcodes: the rows and the registers at the end. -/
@[grind =] def run (H : Header) : Nat → Regs → List Nat → Option (List Regs × Regs)
  | _, r, [] => some ([], r)
  | 0, _, _ :: _ => none
  | k + 1, r, b :: bs => do
      let (rows, r, bs) ← step H r (b :: bs)
      let (rows', r) ← run H k r bs
      return (rows ++ rows', r)

/-- The machine comes from one place of a program to another, with some rows. -/
inductive Exec (H : Header) : Regs → List Nat → List Regs → Regs → List Nat → Prop
  | refl (r : Regs) (bs : List Nat) : Exec H r bs [] r bs
  | step {r r' r'' : Regs} {bs bs' bs'' : List Nat} {rows rows' : List Regs} :
      LineProgram.step H r bs = some (rows, r', bs') → Exec H r' bs' rows' r'' bs'' →
        Exec H r bs (rows ++ rows') r'' bs''

/-- A piece of program, whatever follows it. -/
def Does (H : Header) (code : List Nat) (r : Regs) (rows : List Regs) (r' : Regs) : Prop :=
  ∀ rest, Exec H r (code ++ rest) rows r' rest

variable {H : Header} {r r' r'' : Regs} {bs bs' bs'' code code' : List Nat} {rows rows' : List Regs}

theorem Exec.trans (h : Exec H r bs rows r' bs') (h' : Exec H r' bs' rows' r'' bs'') :
    Exec H r bs (rows ++ rows') r'' bs'' := by
  induction h with
  | refl r bs => exact h'
  | step hs _ ih =>
      rw [List.append_assoc]
      exact .step hs (ih h')

theorem Does.refl (r : Regs) : Does H [] r [] r := fun rest => .refl r rest

theorem Does.append (h : Does H code r rows r') (h' : Does H code' r' rows' r'') :
    Does H (code ++ code') r (rows ++ rows') r'' := by
  intro rest
  rw [List.append_assoc]
  exact (h _).trans (h' rest)

/-- One opcode that appends no row, and more. -/
theorem does_of_step (h : ∀ rest, step H r (code ++ rest) = some (rows, r', rest)) :
    Does H code r rows r' := by
  intro rest
  have hx := Exec.step (h rest) (.refl r' rest)
  rwa [List.append_nil] at hx

/-! ## Every opcode takes a byte -/

theorem decodeU_length {n : Nat} (h : decodeU bs = some (n, bs')) : bs'.length < bs.length := by
  induction bs generalizing n bs' with
  | nil => cases h
  | cons b bs ih =>
      rw [decodeU] at h
      split at h
      · cases h
        simp
      · obtain ⟨⟨m, tail⟩, hm, heq⟩ := Option.map_eq_some_iff.mp h
        cases heq
        have := ih hm
        simp only [List.length_cons]
        omega

theorem decodeS_length {n : Int} (h : decodeS bs = some (n, bs')) : bs'.length < bs.length := by
  induction bs generalizing n bs' with
  | nil => cases h
  | cons b bs ih =>
      rw [decodeS] at h
      split at h
      · cases h
        simp
      · split at h
        · cases h
          simp
        · obtain ⟨⟨m, tail⟩, hm, heq⟩ := Option.map_eq_some_iff.mp h
          cases heq
          have := ih hm
          simp only [List.length_cons]
          omega

theorem decodeHalf_length {big : Bool} {n : Nat} (h : decodeHalf big bs = some (n, bs')) :
    bs'.length ≤ bs.length := by
  unfold decodeHalf at h
  split at h
  · cases h
    simp only [List.length_cons]
    omega
  · cases h

theorem decodeWord_length {big : Bool} {n : Nat} (h : decodeWord big bs = some (n, bs')) :
    bs'.length ≤ bs.length := by
  unfold decodeWord at h
  split at h
  · cases h
    simp only [List.length_cons]
    omega
  · cases h

theorem extended_length (h : extended H r bs = some (rows, r', bs')) : bs'.length ≤ bs.length := by
  unfold extended at h
  split at h
  · next hd =>
      split at h
      · cases h
        have := decodeU_length hd
        simp only [List.length_cons] at this
        omega
      · cases h
  · next hd =>
      split at h
      · obtain ⟨⟨a, tail⟩, ha, heq⟩ := Option.map_eq_some_iff.mp h
        obtain ⟨-, -, rfl⟩ := by simpa using heq
        have h1 := decodeWord_length ha
        have h2 := decodeU_length hd
        simp only [List.length_cons] at h2
        omega
      · cases h
  · next hd =>
      cases h
      have := decodeU_length hd
      simp only [List.length_cons, List.length_drop] at this ⊢
      omega
  · cases h

theorem standard_length {op : Nat} (h : standard H r bs op = some (rows, r', bs')) :
    bs'.length ≤ bs.length := by
  have hmap : ∀ {α : Type} {o : Option (α × List Nat)} {f : α × List Nat → List Regs × Regs},
      (∀ n tail, o = some (n, tail) → tail.length ≤ bs.length) →
        o.map (fun n => ((f n).1, (f n).2, n.2)) = some (rows, r', bs') →
          bs'.length ≤ bs.length := by
    intro α o f ho hm
    obtain ⟨⟨n, tail⟩, hn, heq⟩ := Option.map_eq_some_iff.mp hm
    simp only [Prod.mk.injEq] at heq
    rw [← heq.2.2]
    exact ho n tail hn
  have hU := fun (n : Nat) tail (hn : decodeU bs = some (n, tail)) => (decodeU_length hn).le
  unfold standard at h
  split at h
  · cases h
    exact le_rfl
  · exact hmap (f := fun n => ([], r.advance H n.1)) hU h
  · exact hmap (f := fun n => ([], { r with line := r.line + n.1 }))
      (fun n tail hn => (decodeS_length hn).le) h
  · exact hmap (f := fun n => ([], { r with file := n.1 })) hU h
  · exact hmap (f := fun n => ([], { r with column := n.1 })) hU h
  · cases h
    exact le_rfl
  · cases h
    exact le_rfl
  · cases h
    exact le_rfl
  · exact hmap (f := fun n => ([], { r with address := r.address + BitVec.ofNat 32 n.1 }))
      (fun n tail hn => decodeHalf_length hn) h
  · cases h

theorem step_length (h : step H r bs = some (rows, r', bs')) : bs'.length < bs.length := by
  cases bs with
  | nil => cases h
  | cons op bs =>
      rw [step] at h
      split at h
      · cases h
        exact Nat.lt_succ_self _
      · split at h
        · exact Nat.lt_succ_of_le (extended_length h)
        · exact Nat.lt_succ_of_le (standard_length h)

/-- The machine that is run finds these rows. -/
theorem Exec.run_eq (h : Exec H r bs rows r' []) {k : Nat} (hk : bs.length ≤ k) :
    run H k r bs = some (rows, r') := by
  generalize hb : ([] : List Nat) = stop at h
  induction h generalizing k with
  | refl r bs =>
      subst hb
      rw [run]
  | @step r r1 r2 bs bs1 bs2 rows rows' hs _ ih =>
      have hlen := step_length hs
      match bs, k, hlen with
      | b :: bs, k + 1, hlen =>
          simp only [List.length_cons] at hk hlen
          have hrec := @ih k (by omega) hb
          rw [run, hs]
          simp only [bind, Option.bind, hrec]
          rfl

/-! ## The opcodes -/

theorem decodeHalf_encodeHalf (big : Bool) {v : Int} (h : 0 ≤ v) (h' : v < 65536)
    (rest : List Nat) : decodeHalf big (encodeHalf big v ++ rest) = some (v.toNat, rest) := by
  cases big
  · simp only [encodeHalf, byte, Bool.false_eq_true, if_false, List.cons_append, List.nil_append,
      decodeHalf, Option.some.injEq, Prod.mk.injEq, and_true]
    omega
  · simp only [encodeHalf, byte, if_true, List.cons_append, List.nil_append,
      decodeHalf, Option.some.injEq, Prod.mk.injEq, and_true]
    omega

theorem decodeWord_encodeWord (big : Bool) (v : Int) (rest : List Nat) :
    decodeWord big (encodeWord big v ++ rest) = some ((v % 2 ^ 32).toNat, rest) := by
  cases big
  · simp only [encodeWord, byte, Bool.false_eq_true, if_false, List.cons_append, List.nil_append,
      decodeWord, Option.some.injEq, Prod.mk.injEq, and_true]
    omega
  · simp only [encodeWord, byte, if_true, List.cons_append, List.nil_append,
      decodeWord, Option.some.injEq, Prod.mk.injEq, and_true]
    omega

section

variable (hbase : 10 ≤ H.opcodeBase) (r : Regs)

include hbase

theorem step_standard {op : Nat} (hpos : 0 < op) (hop : op < 10) (bs : List Nat) :
    step H r (op :: bs) = standard H r bs op := by
  rw [step, if_neg (by omega), if_neg (by omega)]

theorem does_copy : Does H [1] r [r] r.appended :=
  does_of_step fun rest => step_standard hbase r (by omega) (by omega) rest

theorem does_advancePc (n : Nat) : Does H (2 :: encodeU n) r [] (r.advance H n) := by
  refine does_of_step fun rest => ?_
  rw [List.cons_append, step_standard hbase r (by omega) (by omega), standard, decodeU_encodeU]
  rfl

theorem does_advanceLine (x : Int) :
    Does H (3 :: encodeS x) r [] { r with line := r.line + x } := by
  refine does_of_step fun rest => ?_
  rw [List.cons_append, step_standard hbase r (by omega) (by omega), standard, decodeS_encodeS]
  rfl

theorem does_setFile (n : Nat) : Does H (4 :: encodeU n) r [] { r with file := n } := by
  refine does_of_step fun rest => ?_
  rw [List.cons_append, step_standard hbase r (by omega) (by omega), standard, decodeU_encodeU]
  rfl

theorem does_setColumn (n : Nat) : Does H (5 :: encodeU n) r [] { r with column := n } := by
  refine does_of_step fun rest => ?_
  rw [List.cons_append, step_standard hbase r (by omega) (by omega), standard, decodeU_encodeU]
  rfl

theorem does_negateStmt : Does H [6] r [] { r with isStmt := !r.isStmt } :=
  does_of_step fun rest => step_standard hbase r (by omega) (by omega) rest

theorem does_setBasicBlock : Does H [7] r [] { r with basicBlock := true } :=
  does_of_step fun rest => step_standard hbase r (by omega) (by omega) rest

theorem does_fixedAdvancePc {v : Int} (h : 0 ≤ v) (h' : v < 65536) :
    Does H (9 :: encodeHalf H.bigEndian v) r []
      { r with address := r.address + BitVec.ofInt 32 v } := by
  have hv : BitVec.ofNat 32 v.toNat = BitVec.ofInt 32 v := by
    rw [← BitVec.ofInt_natCast, Int.toNat_of_nonneg h]
  refine does_of_step fun rest => ?_
  rw [List.cons_append, step_standard hbase r (by omega) (by omega), standard,
    decodeHalf_encodeHalf _ h h', ← hv]
  rfl

theorem does_setAddress (v : Int) :
    Does H (0 :: encodeU 5 ++ 2 :: encodeWord H.bigEndian v) r []
      { r with address := BitVec.ofInt 32 v } := by
  have hv : BitVec.ofNat 32 (v % 2 ^ 32).toNat = BitVec.ofInt 32 v := by
    apply BitVec.eq_of_toNat_eq
    rw [BitVec.toNat_ofNat, BitVec.toNat_ofInt]
    omega
  refine does_of_step fun rest => ?_
  rw [List.cons_append, List.cons_append, List.append_assoc, step, if_neg (by omega), if_pos rfl,
    extended, decodeU_encodeU, List.cons_append]
  simp only [if_true, decodeWord_encodeWord, Option.map_some, hv]

theorem does_endSequence :
    Does H (0 :: encodeU 1 ++ [1]) r [{ r with endSequence := true }] H.start := by
  refine does_of_step fun rest => ?_
  rw [List.cons_append, List.cons_append, List.append_assoc, step, if_neg (by omega), if_pos rfl,
    extended, decodeU_encodeU]
  rfl

end

theorem does_special (r : Regs) {op : Nat} (h : H.opcodeBase ≤ op) :
    Does H [op] r [r.special H op] (r.special H op).appended := by
  refine does_of_step fun rest => ?_
  rw [List.cons_append, step, if_pos h]
  rfl

end Tendra.LineProgram
