import Tendra.Ref.Decode

/-!
# Names in capsules: `tdfc2/src/common/output/encode.c`, `capsule.c`

A capsule has integers, identifiers and external names in it, between its units. Spaces divide a
name into the components of a unique identifier. The characters of the host are those of ASCII.
-/

namespace Tendra.Ref.Tdfc

/-- What `write_capsule_body` writes with `ENC_INT`, with `ENC_IDENT`, and with `enc_name` for a
tag or for something else. -/
inductive Output
  | int (n : Nat)
  | ident (s : List (BitVec 8))
  | name (s : List (BitVec 8)) (tag : Bool)

variable (w : Nat) (junk : Nat → Text) (mangleLength : Nat)

/-- `enc_ident`. -/
def encIdent (s : List (BitVec 8)) (bs : Bitstream) : Option Bitstream := do
  let bs ← bs.encInt w junk byteSize
  let bs ← bs.encInt w junk s.length
  let bs ← bs.encBoundary w junk
  bs.encBytes w junk s

/-- The second loop of `enc_name`. -/
def encIdents : List (List (BitVec 8)) → Bitstream → Option Bitstream
  | [], bs => some bs
  | s :: ss, bs => do
      let bs ← encIdent w junk s bs
      encIdents ss bs

/-- The start of an `EXTERNAL`. -/
def encExternal (type : Nat) (bs : Bitstream) : Option Bitstream := do
  let bs ← bs.encBits w junk 2 type
  bs.encBoundary w junk

/-- The length of a simple identifier. -/
def identLength (s : List (BitVec 8)) (tag : Bool) : Nat :=
  if tag ∧ s.length > mangleLength then mangleLength else s.length

/-- `enc_name`; an `unsigned` counts the components, which `ustrchr` finds. -/
def encName (s : List (BitVec 8)) (tag : Bool) (bs : Bitstream) : Option Bitstream :=
  let ss := s.splitOn 0x20
  if ss.length % 2 ^ 32 = 1 then do
    let bs ← encExternal w junk 1 bs
    encIdent w junk (s.take (identLength mangleLength s tag)) bs
  else do
    let bs ← encExternal w junk 2 bs
    let bs ← bs.encInt w junk (ss.length % 2 ^ 32)
    encIdents w junk ss bs

def Output.encode (bs : Bitstream) : Output → Option Bitstream
  | .int n => bs.encInt w junk n
  | .ident s => encIdent w junk s bs
  | .name s tag => encName w junk mangleLength s tag bs

def encodeOutputs : List Output → Bitstream → Option Bitstream
  | [], bs => some bs
  | o :: os, bs => do
      let bs ← o.encode w junk mangleLength bs
      encodeOutputs os bs

/-- A file with what a producer writes. -/
def outputFile (text : Text) (os : List Output) : Option (List (BitVec 8)) := do
  let bs ← encodeOutputs w junk mangleLength os (Bitstream.start text (some []) none)
  bs.close w junk

end Tendra.Ref.Tdfc
