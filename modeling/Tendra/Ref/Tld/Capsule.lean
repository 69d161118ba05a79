import Mathlib.Logic.Function.Basic
import Tendra.Ref.Tld.Table

/-!
# Reading a capsule: `tld/src/adt/capsule.c`

There is no result where an error is reported, also where the source goes on after it. A capsule
with a unit set `tld2` is such a case, so that set is never read.

The functions give, beside what the source returns, what they have read: identifiers with the
names that were bound to them, and units with the links as they are in the capsule.
-/

namespace Tendra.Ref.Tld

/-- The state while a capsule is read. -/
structure ReadState where
  reader : Reader
  tables : Tables

/-- What is read, and the state after it. -/
abbrev CapsuleM := StateT ReadState Option

/-- A read from the file. -/
def readFile {α : Type} (m : Read α) : CapsuleM α := fun s =>
  (m s.reader).map fun res => (res.1, { s with reader := res.2 })

/-- A change to the entry of a shape that is in the table. -/
def changeShape {α : Type} (key : NString) (f : ShapeEntry → Option (α × ShapeEntry)) :
    CapsuleM α := fun s => do
  let e ← s.tables.shapes.get key
  let (a, e) ← f e
  some (a, { s with tables := { s.tables with shapes := s.tables.shapes.set e } })

/-- A loop over a vector whose turns may change its elements. -/
def loopM {α β : Type} (f : α → CapsuleM β) : List α → CapsuleM (List β)
  | [] => pure []
  | a :: as => do
      let b ← f a
      let bs ← loopM f as
      pure (b :: bs)

/-- The name of the linker information unit set. -/
def tldName : NString := [0x74, 0x6c, 0x64]

/-- The name of its old form. -/
def tld2Name : NString := [0x74, 0x6c, 0x64, 0x32]

/-- The name of the shape of tokens. -/
def tokenName : NString := [0x74, 0x6f, 0x6b, 0x65, 0x6e]

/-- The name of the shape of tags. -/
def tagName : NString := [0x74, 0x61, 0x67]

/-- `MAGIC_NUMBER`. -/
def magicNumber : NString := [0x54, 0x44, 0x46, 0x43]

/-- The versions that `capsule_read_header` keeps. -/
def setVersion (major minor : Nat) (t : Tables) : Tables :=
  if t.majorVersion = 0 then { t with majorVersion := major, minorVersion := minor }
  else if t.minorVersion < minor then { t with minorVersion := minor }
  else t

/-- `capsule_read_header`. -/
def capsuleReadHeader : CapsuleM Unit := do
  let magic ← readFile (tdfReadBytes 4)
  guard (magic = magicNumber)
  let major ← readFile tdfReadInt
  let minor ← readFile tdfReadInt
  guard (4 ≤ major)
  let s ← get
  guard (s.tables.majorVersion = 0 ∨ s.tables.majorVersion = major)
  modify fun s => { s with tables := setVersion major minor s.tables }
  readFile tdfReadAlign

/-- `unit_entry_order`, where the unit set is known. -/
def unitOrder (units : UnitTable) (key : NString) : Option Nat :=
  units.findIdx? fun u => u.key = key

/-- A turn of `capsule_read_unit_set_names`, after the unit sets with the names `previous`. -/
def readUnitSetName (previous : List NString) : CapsuleM NString := do
  let key ← readFile tdfReadString
  let s ← get
  match unitOrder s.tables.units key with
  | none => failure
  | some order => do
      guard (∀ p ∈ previous, p ≠ key ∧ ∀ o, unitOrder s.tables.units p = some o → o ≤ order)
      guard (key ≠ tld2Name)
      pure key

/-- The loop of `capsule_read_unit_set_names`. -/
def readUnitSetNames : Nat → List NString → CapsuleM (List NString)
  | 0, previous => pure previous
  | n + 1, previous => do
      let key ← readUnitSetName previous
      readUnitSetNames n (previous ++ [key])

/-- `ShapeDataT`: a shape, and the identifiers that those of the capsule are mapped to. -/
structure ShapeData where
  entry : NString
  numIds : Nat
  idMaps : Nat → Option Nat

/-- The loop of `capsule_read_shapes`. -/
def readShapes : Nat → List ShapeData → CapsuleM (List ShapeData)
  | 0, shapesVec => pure shapesVec
  | n + 1, shapesVec => do
      let key ← readFile tdfReadString
      let numIds ← readFile tdfReadInt
      modify fun s => { s with tables := { s.tables with shapes := s.tables.shapes.add key } }
      guard (∀ d ∈ shapesVec, d.entry ≠ key)
      readShapes n (shapesVec ++ [⟨key, numIds, fun _ => none⟩])

/-- An external name that was read: the identifier that it is bound to, the name, and the key of
the entry that the source has in `names_vec`. -/
structure NameData where
  id : Nat
  name : NameKey
  entry : NameKey
deriving DecidableEq

/-- A turn of `capsule_read_external_names_1`. -/
def readExternalName (shape : ShapeData) : CapsuleM (NameData × ShapeData) := do
  let id ← readFile tdfReadInt
  let name ← readFile tdfReadName
  guard (id < shape.numIds)
  let entry ← changeShape shape.entry fun e => e.nameTableAdd name
  guard (shape.idMaps id = none)
  let s ← get
  match (s.tables.shapes.get shape.entry).bind (·.getEntry entry) with
  | some (.direct d) =>
      pure (⟨id, name, entry⟩, { shape with idMaps := Function.update shape.idMaps id (some d.id) })
  | _ => failure

/-- The loop of `capsule_read_external_names_1`. -/
def readExternalNames1 : Nat → ShapeData → CapsuleM (List NameData × ShapeData)
  | 0, shape => pure ([], shape)
  | n + 1, shape => do
      let (name, shape) ← readExternalName shape
      let (names, shape) ← readExternalNames1 n shape
      pure (name :: names, shape)

/-- `capsule_read_external_names`. -/
def capsuleReadExternalNames (shapesVec : List ShapeData) :
    CapsuleM (List (List NameData × ShapeData)) := do
  let numNames ← readFile tdfReadInt
  guard (numNames = shapesVec.length)
  loopM (fun shape => do
    let num ← readFile tdfReadInt
    readExternalNames1 num shape) shapesVec

/-- A turn of `capsule_read_usage`. -/
def readUsage (capsule shape : NString) (needDec noMult : Bool) (name : NameData) :
    CapsuleM Unit := do
  let use ← readFile tdfReadInt
  guard (use ≤ uUsed ||| uDecd ||| uDefd ||| uMult)
  guard ¬(noMult ∧ has use uMult)
  guard ¬(needDec ∧ (has use uDefd ∨ has use uMult) ∧ ¬has use uDecd)
  changeShape shape fun e =>
    match e.getEntry name.entry with
    | some (.direct d) =>
        if has use uDefd ∧ has d.use uDefd then none
        else
          let definition :=
            if has use uMult ∧ has d.use uMult ∧ ¬has use uDefd ∧ ¬has d.use uDefd then none
            else if has use uDefd ∨ has use uMult ∧ ¬(has d.use uMult ∨ has d.use uDefd) then
              some capsule
            else d.definition
          some ((), e.setEntry name.entry (.direct { d with definition, use := d.use ||| use }))
    | _ => none

/-- `capsule_read_usage`. -/
def capsuleReadUsage (capsule : NString) (needDec noMult : Bool) (shape : ShapeData)
    (names : List NameData) : CapsuleM Unit := do
  let _ ← loopM (readUsage capsule shape.entry needDec noMult) names

/-- `capsule_read_usage` for a shape, if the capsule has it. -/
def readUsageOf (capsule : NString) (needDec noMult : Bool) :
    Option (List NameData × ShapeData) → CapsuleM Unit
  | some p => capsuleReadUsage capsule needDec noMult p.2 p.1
  | none => pure ()

/-- `capsule_read_tld_type_0_unit`. -/
def capsuleReadTldType0Unit (capsule : NString) (vec : List (List NameData × ShapeData)) :
    CapsuleM Unit := do
  readUsageOf capsule false true (vec.find? fun p => p.2.entry = tokenName)
  readUsageOf capsule true false (vec.find? fun p => p.2.entry = tagName)

/-- `capsule_read_tld_type_1_unit`. -/
def capsuleReadTldType1Unit (capsule : NString) (vec : List (List NameData × ShapeData)) :
    CapsuleM Unit := do
  let _ ← loopM (fun p => capsuleReadUsage capsule (p.2.entry = tagName) (p.2.entry = tokenName)
    p.2 p.1) vec

/-- `capsule_read_tld_unit_header`: the length and the offset of the unit. -/
def capsuleReadTldUnitHeader : CapsuleM (Nat × Nat) := do
  let units ← readFile tdfReadInt
  guard (units = 1)
  let counts ← readFile tdfReadInt
  guard (counts = 0)
  let maps ← readFile tdfReadInt
  guard (maps = 0)
  let length ← readFile tdfReadInt
  readFile tdfReadAlign
  let s ← get
  pure (length, s.reader.byte)

/-- `capsule_read_tld_unit_trailer`. -/
def capsuleReadTldUnitTrailer (length offset : Nat) : CapsuleM Unit := do
  let s ← get
  readFile tdfReadAlign
  guard (offset + length = s.reader.byte)

/-- The call through `capsule_type_jump_table`. -/
def capsuleReadTldType (capsule : NString) (vec : List (List NameData × ShapeData)) :
    Nat → CapsuleM Unit
  | 0 => capsuleReadTldType0Unit capsule vec
  | 1 => capsuleReadTldType1Unit capsule vec
  | _ => failure

/-- `capsule_read_tld_units`. -/
def capsuleReadTldUnits (capsule : NString) (vec : List (List NameData × ShapeData)) :
    CapsuleM Unit := do
  let (length, offset) ← capsuleReadTldUnitHeader
  let unitType ← readFile tdfReadInt
  capsuleReadTldType capsule vec unitType
  capsuleReadTldUnitTrailer length offset

/-- A turn of the inner loop of `capsule_read_unit_maps`: a link as it was read, and the map. -/
def readLink (shape : ShapeData) : CapsuleM ((Nat × Nat) × ShapeData) := do
  let internal ← readFile tdfReadInt
  let external ← readFile tdfReadInt
  guard (external < shape.numIds)
  match shape.idMaps external with
  | some _ => pure ((internal, external), shape)
  | none => do
      let id ← changeShape shape.entry ShapeEntry.nextId
      pure ((internal, external),
        { shape with idMaps := Function.update shape.idMaps external (some id) })

/-- The inner loop of `capsule_read_unit_maps`: the links as they were read and as they are set,
each with the map as it is at its turn. -/
def readLinks : Nat → ShapeData → CapsuleM (List (Nat × Nat) × List (Nat × Nat) × ShapeData)
  | 0, shape => pure ([], [], shape)
  | n + 1, shape => do
      let (link, shape) ← readLink shape
      let (raw, links, shape') ← readLinks n shape
      pure (link :: raw, (link.1, (shape.idMaps link.2).getD uintMax) :: links, shape')

/-- A unit that was read: for each shape its count and its links, where there are counts. -/
structure RawUnit where
  maps : Option (List (Nat × List (Nat × Nat)))
  contents : NString
deriving DecidableEq

/-- `capsule_read_unit_counts`. -/
def capsuleReadUnitCounts (numCounts : Nat) (vec : List (List NameData × ShapeData)) :
    CapsuleM (List Nat) := do
  guard (numCounts = 0 ∨ numCounts = vec.length)
  if numCounts ≠ 0 then loopM (fun _ => readFile tdfReadInt) vec else pure []

/-- The outer loop of `capsule_read_unit_maps`. -/
def readUnitMaps : List Nat → List (List NameData × ShapeData) →
    CapsuleM (List (Nat × List (Nat × Nat)) × List MapEntry × List (List NameData × ShapeData))
  | count :: counts, p :: vec => do
      let numLinks ← readFile tdfReadInt
      let (raw, links, shape) ← readLinks numLinks p.2
      let (raws, entries, vec) ← readUnitMaps counts vec
      pure ((count, raw) :: raws, ⟨shape.entry, count, links⟩ :: entries, (p.1, shape) :: vec)
  | _, vec => pure ([], [], vec)

/-- The unit is the last of its set. -/
def addUnit (units : UnitTable) (key : NString) (unit : TdfUnit) : UnitTable :=
  units.map fun u => if u.key = key then { u with units := u.units ++ [unit] } else u

/-- `capsule_read_unit`. -/
def capsuleReadUnit (set : NString) (vec : List (List NameData × ShapeData)) :
    CapsuleM (RawUnit × List (List NameData × ShapeData)) := do
  let numCounts ← readFile tdfReadInt
  let counts ← capsuleReadUnitCounts numCounts vec
  let numLinkShapes ← readFile tdfReadInt
  guard (numLinkShapes = numCounts)
  let (raws, entries, vec) ← readUnitMaps counts vec
  let size ← readFile tdfReadInt
  let contents ← readFile (tdfReadBytes size)
  let mapTable := if numCounts ≠ 0 then some entries else none
  modify fun s => { s with tables := { s.tables with
    units := addUnit s.tables.units set ⟨mapTable, contents⟩ } }
  pure (⟨if numCounts ≠ 0 then some raws else none, contents⟩, vec)

/-- The loop of `capsule_read_units`. -/
def readUnits (set : NString) : Nat → List (List NameData × ShapeData) →
    CapsuleM (List RawUnit × List (List NameData × ShapeData))
  | 0, vec => pure ([], vec)
  | n + 1, vec => do
      let (unit, vec) ← capsuleReadUnit set vec
      let (units, vec) ← readUnits set n vec
      pure (unit :: units, vec)

/-- The loop of `capsule_read_unit_sets`. -/
def readUnitSets (capsule : NString) : List NString → List (List NameData × ShapeData) →
    CapsuleM (List (NString × List RawUnit) × List (List NameData × ShapeData))
  | [], vec => pure ([], vec)
  | set :: sets, vec => do
      if set = tldName then
        capsuleReadTldUnits capsule vec
        readUnitSets capsule sets vec
      else
        let numUnits ← readFile tdfReadInt
        let (units, vec) ← readUnits set numUnits vec
        let (rest, vec) ← readUnitSets capsule sets vec
        pure ((set, units) :: rest, vec)

/-- What was read from a capsule: the shapes with the names of their identifiers and with what
these are mapped to in the end, and the units. -/
structure CapsuleData where
  shapes : List (List NameData × ShapeData)
  units : List (NString × List RawUnit)

/-- The body of `capsule_read`. -/
def capsuleReadBody (capsule : NString) : CapsuleM CapsuleData := do
  capsuleReadHeader
  let numUnitSets ← readFile tdfReadInt
  let sets ← readUnitSetNames numUnitSets []
  let numShapes ← readFile tdfReadInt
  let shapesVec ← readShapes numShapes []
  let vec ← capsuleReadExternalNames shapesVec
  let numUnits ← readFile tdfReadInt
  guard (numUnits = numUnitSets)
  let (units, vec) ← readUnitSets capsule sets vec
  readFile tdfReadEof
  pure ⟨vec, units⟩

/-- `CapsuleT` for input. -/
structure Capsule where
  name : NString
  contents : NString

/-- `capsule_read`. -/
def capsuleRead (capsule : Capsule) (t : Tables) : Option (CapsuleData × Tables) := do
  let (data, s) ← capsuleReadBody capsule.name ⟨tdfReaderOpen capsule.contents, t⟩
  some (data, s.tables)

/-!
## Library resolution: `linker_resolve_undefined` in `tld/src/frontend/linker.c`

The loops of `linker_resolve_undefined`, `shape_table_iter` and `shape_entry_resolve_undefined`
are one machine: a turn of it takes a name off the list of the current shape, goes on to the
next entry or the next chain, or begins another pass. Entries are added while the table is gone
through, at the ends of the chains.

The capsules of the libraries have numbers, and those that have been loaded are listed in the
order in which they were.
-/

/-- `SHAPE_TABLE_SIZE`. -/
abbrev shapeTableSize : Nat := 11

/-- The state of the loops: the tables, the capsules of libraries that are loaded, the flag
`did_define` of the closure, and the place of `shape_table_iter`. -/
structure LinkState where
  tables : Tables
  loads : List Nat
  didDefine : Bool
  bucket : Nat
  pos : Nat

section

variable (hash : NString → Nat) (lib : List Capsule) (libShapes : ShapeTable)

/-- The capsule that `name_entry_resolve_undefined` loads for a name, if any. -/
def neededCapsule (shape : NString) (key : NameKey) (d : Direct) (loads : List Nat) :
    Option Nat :=
  if has d.use uDefd ∨ ¬has d.use uUsed then none
  else do
    let table ← libShapes.get shape
    let libEntry ← table.nameTableGet key
    let libDef ← libEntry.libDefinition
    if libDef ∉ loads ∧ (¬has d.use uMult ∨ has libEntry.use uDefd) then some libDef else none

/-- `name_entry_resolve_undefined`, and what is done with its result. -/
def nameEntryResolveUndefined (shape : NString) (key : NameKey) (d : Direct) (σ : LinkState) :
    Option LinkState :=
  match neededCapsule libShapes shape key d σ.loads with
  | none => some σ
  | some libDef => do
      let capsule ← lib[libDef]?
      let (_, tables) ← capsuleRead capsule σ.tables
      some { σ with tables, loads := σ.loads ++ [libDef], didDefine := true }

/-- The entry that `shape_table_iter` has come to. -/
def currentEntry (σ : LinkState) : Option ShapeEntry :=
  (chain (fun e : ShapeEntry => hash e.key) shapeTableSize σ.bucket σ.tables.shapes)[σ.pos]?

/-- A turn of `shape_entry_resolve_undefined`, or its end. -/
def shapeEntryResolveUndefined (e : ShapeEntry) (σ : LinkState) : Option LinkState :=
  match e.getFromList with
  | none => some { σ with pos := σ.pos + 1 }
  | some (key, e) =>
      match e.getEntry key with
      | some (.direct d) => nameEntryResolveUndefined lib libShapes e.key key d
          { σ with tables := { σ.tables with shapes := σ.tables.shapes.set e } }
      | _ => none

/-- A turn of the loops. -/
def linkerStep (σ : LinkState) : Option LinkState :=
  if shapeTableSize ≤ σ.bucket then some { σ with didDefine := false, bucket := 0, pos := 0 }
  else
    match currentEntry hash σ with
    | none => some { σ with bucket := σ.bucket + 1, pos := 0 }
    | some e => shapeEntryResolveUndefined lib libShapes e σ

/-- The end of the loops. -/
def LinkState.finished (σ : LinkState) : Bool := shapeTableSize ≤ σ.bucket ∧ ¬σ.didDefine

/-- `linker_resolve_undefined`: the state after so many turns, and whether it is the end. -/
@[grind =] def linkerResolveUndefined : Nat → LinkState → Option (Bool × LinkState)
  | 0, σ => some (σ.finished, σ)
  | fuel + 1, σ =>
      if σ.finished then some (true, σ)
      else (linkerStep hash lib libShapes σ).bind (linkerResolveUndefined fuel)

end

/-- The state before the first pass. -/
def LinkState.init (t : Tables) : LinkState := ⟨t, [], false, 0, 0⟩

/-- `linker_read_capsules`. -/
def linkerReadCapsules : List Capsule → Tables → Option Tables
  | [], t => some t
  | c :: cs, t => do
      let (_, t) ← capsuleRead c t
      linkerReadCapsules cs t

end Tendra.Ref.Tld
