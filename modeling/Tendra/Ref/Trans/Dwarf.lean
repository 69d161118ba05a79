import Mathlib.Data.BitVec

/-!
# Numbers and locations of DWARF: `trans/common/dwarf2/dw2_basic.c`

The functions print numbers for the assembler, with commas between them; a text is modelled by
the list of its numbers. An `int` has 32 bits; a `long` has 32 or 64. A shift by the width of
its operand or more, which C leaves undefined, stops the model. What `>>` gives for a negative
number is left to the compiler: it copies the sign or it does not.
-/

namespace Tendra.Ref.Trans.Dwarf

/-- The sizes of `long`. -/
inductive Long
  | long32
  | long64
deriving DecidableEq, Repr

/-- `sizeof(long) * 8`. -/
def Long.bits : Long → Nat
  | long32 => 32
  | long64 => 64

/-- Why there is no result. -/
inductive Stop
  /-- A shift by the width of its operand or more. -/
  | badShift
  /-- The rounds that were allowed are used up. -/
  | more
  /-- `error(ERR_INTERNAL, bad_refloc)`. -/
  | badRefloc
deriving DecidableEq, Repr

/-! ## Shifts -/

/-- `value >> n` without sign. -/
def ushr {w : Nat} (value : BitVec w) (n : Nat) : Except Stop (BitVec w) :=
  if n < w then .ok (value >>> n) else .error .badShift

/-- `value >> n` with sign. -/
def sshr {w : Nat} (copiesSign : Bool) (value : BitVec w) (n : Nat) : Except Stop (BitVec w) :=
  if n < w then .ok (if copiesSign then value.sshiftRight n else value >>> n)
  else .error .badShift

/-- `value << n`. -/
def shl {w : Nat} (value : BitVec w) (n : Nat) : Except Stop (BitVec w) :=
  if n < w then .ok (value <<< n) else .error .badShift

/-! ## Numbers of variable length

Each loop is given how many rounds it may take. -/

variable {l : Long}

@[grind =] def uleb128 : Nat → BitVec l.bits → Except Stop (List Nat)
  | 0, _ => .error .more
  | rounds + 1, value => do
      let byt := (value &&& 127).toNat
      let value ← ushr value 7
      if value = 0 then
        return [byt]
      else
        return (byt ||| 128) :: (← uleb128 rounds value)

/-- The loop of `uleb128_length`. -/
@[grind =] def uleb128LengthLoop : Nat → Nat → BitVec l.bits → Except Stop Nat
  | 0, _, _ => .error .more
  | rounds + 1, op, value => do
      let value ← ushr value 7
      if value = 0 then
        return op
      else
        uleb128LengthLoop rounds (op + 1) value

def uleb128Length (rounds : Nat) (value : BitVec l.bits) : Except Stop Nat :=
  uleb128LengthLoop rounds 1 value

/-- What a round of the loops with sign makes of `value`: `value >>= 7`, and for a negative
number the sign is copied by hand, with a constant of type `int`. -/
def sleb128Shift (copiesSign negative : Bool) (value : BitVec l.bits) :
    Except Stop (BitVec l.bits) := do
  let value ← sshr copiesSign value 7
  if negative then
    let one ← shl (1 : BitVec 32) (l.bits - 7)
    return value ||| (-one).signExtend l.bits
  else
    return value

/-- `value == - (long)((byt & 0x40) != 0)`. -/
def sleb128Stops (byt : Nat) (value : BitVec l.bits) : Bool :=
  value = if byt &&& 0x40 ≠ 0 then -1 else 0

/-- The loop of `sleb128`. -/
@[grind =]
def sleb128Loop (copiesSign negative : Bool) : Nat → BitVec l.bits → Except Stop (List Nat)
  | 0, _ => .error .more
  | rounds + 1, value => do
      let byt := (value &&& 127).toNat
      let value ← sleb128Shift copiesSign negative value
      if sleb128Stops byt value then
        return [byt]
      else
        return (byt ||| 128) :: (← sleb128Loop copiesSign negative rounds value)

def sleb128 (copiesSign : Bool) (rounds : Nat) (value : BitVec l.bits) :
    Except Stop (List Nat) :=
  sleb128Loop copiesSign (value.toInt < 0) rounds value

/-- The loop of `sleb128_length`. -/
@[grind =] def sleb128LengthLoop (copiesSign negative : Bool) :
    Nat → Nat → BitVec l.bits → Except Stop Nat
  | 0, _, _ => .error .more
  | rounds + 1, op, value => do
      let byt := (value &&& 127).toNat
      let value ← sleb128Shift copiesSign negative value
      if sleb128Stops byt value then
        return op
      else
        sleb128LengthLoop copiesSign negative rounds (op + 1) value

def sleb128Length (copiesSign : Bool) (rounds : Nat) (value : BitVec l.bits) : Except Stop Nat :=
  sleb128LengthLoop copiesSign (value.toInt < 0) rounds 1 value

/-! ## Relative locations -/

/-- The expression of a relative location; an offset counts bits. -/
inductive Refloc (l : Long)
  /-- `id` is `child(e)`, the declaration of the name. -/
  | name (id : Nat) (no : BitVec l.bits)
  | cont (e : Refloc l)
  | reff (no : BitVec l.bits) (e : Refloc l)
  | other
deriving DecidableEq, Repr

/-- An expression that a location is wanted for: `ident` has a name and `next(child(e))`. -/
inductive Located (l : Long)
  | ident (e : Nat) (loc : Refloc l)
  | other
deriving DecidableEq, Repr

def dwOpDeref : Nat := 0x06

def dwOpPlusUconst : Nat := 0x23

def dwOpNop : Nat := 0x96

/-- `(unsigned long)no(e) / 8`. -/
def byteOffset (no : BitVec l.bits) : BitVec l.bits := no / 8

@[grind =] def reflocLength (rounds : Nat) (id : Nat) : Refloc l → Except Stop Nat
  | .name e no =>
      if e ≠ id then .error .badRefloc
      else if no = 0 then .ok 0
      else do return 1 + (← uleb128Length rounds (byteOffset no))
  | .cont e => do return (← reflocLength rounds id e) + 1
  | .reff no e =>
      if no.toInt < 0 then .error .badRefloc
      else do return (← reflocLength rounds id e) + 1 + (← uleb128Length rounds (byteOffset no))
  | .other => .error .badRefloc

@[grind =] def outRefloc (rounds : Nat) (id : Nat) : Refloc l → Except Stop (List Nat)
  | .name e no =>
      if e ≠ id then .error .badRefloc
      else do return dwOpPlusUconst :: (← uleb128 rounds (byteOffset no))
  | .cont e => do return (← outRefloc rounds id e) ++ [dwOpDeref]
  | .reff no e =>
      if no.toInt < 0 then .error .badRefloc
      else do
        let loc ← outRefloc rounds id e
        return loc ++ dwOpPlusUconst :: (← uleb128 rounds (byteOffset no))
  | .other => .error .badRefloc

/-- The length that is printed and what is printed after it. -/
def dwLocateReloffset (rounds : Nat) : Located l → Except Stop (Nat × List Nat)
  | .other => .error .badRefloc
  | .ident e loc => do
      let length ← reflocLength rounds e loc
      if length = 0 then
        return (1, [dwOpNop])
      else
        return (length, ← outRefloc rounds e loc)

end Tendra.Ref.Trans.Dwarf
