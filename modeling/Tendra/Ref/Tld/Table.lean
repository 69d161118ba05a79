import Tendra.Ref.Tld.Tdf

/-!
# The tables of the linker: `tld/src/adt/name-entry.c`, `name-table.c`, `shape-entry.c`,
`shape-table.c`, `unit-entry.c`, `map-entry.c`

A pointer to an entry is the key of it. The entries of a hash table are listed in the order in
which they were added, and `iter` is the order in which they are gone through: chain by chain,
for any hash function.
-/

namespace Tendra.Ref.Tld

/-- `U_USED`. -/
abbrev uUsed : Nat := 0x01
/-- `U_DECD`. -/
abbrev uDecd : Nat := 0x02
/-- `U_DEFD`. -/
abbrev uDefd : Nat := 0x04
/-- `U_MULT`. -/
abbrev uMult : Nat := 0x08
/-- `U_HIDE`. -/
abbrev uHide : Nat := 0x10

/-- A bit of a usage is set. -/
def has (use bit : Nat) : Bool := use &&& bit ≠ 0

/-- A direct entry. A capsule that defines the name is known by its name, one of a library by its
number among the capsules of the libraries. -/
structure Direct where
  id : Nat
  use : Nat
  definition : Option NString
  libDefinition : Option Nat
deriving DecidableEq

/-- `NameEntryT`, without its key. -/
inductive NameEntry
  | direct (d : Direct)
  | indirect (target : NameKey)
  | place
deriving DecidableEq

/-- `ShapeEntryT`. The list is that of `head` and `tail`. -/
structure ShapeEntry where
  key : NString
  names : List (NameKey × NameEntry)
  idCount : Nat
  nonEmpty : Bool
  list : List NameKey
deriving DecidableEq

/-- The hash chain with a number. -/
def chain {α : Type} (hash : α → Nat) (size : Nat) (i : Nat) (entries : List α) : List α :=
  entries.filter fun e => hash e % size = i

/-- The order of `shape_table_iter` and of `name_table_iter`. -/
def iter {α : Type} (hash : α → Nat) (size : Nat) (entries : List α) : List α :=
  (List.range size).flatMap fun i => chain hash size i entries

namespace ShapeEntry

/-- `shape_entry_create`. -/
def create (key : NString) : ShapeEntry := ⟨key, [], 0, false, []⟩

/-- The entry that a name table has for a key. -/
def getEntry (e : ShapeEntry) (key : NameKey) : Option NameEntry := e.names.lookup key

/-- A change to the entry for a key. -/
def setEntry (e : ShapeEntry) (key : NameKey) (n : NameEntry) : ShapeEntry :=
  { e with names := e.names.map fun p => if p.1 = key then (key, n) else p }

/-- `shape_entry_next_id`. -/
def nextId (e : ShapeEntry) : Option (Nat × ShapeEntry) :=
  if e.idCount = uintMax then none else some (e.idCount, { e with idCount := e.idCount + 1 })

/-- `name_entry_create_direct` and its place in the table. -/
def createDirect (key : NameKey) (e : ShapeEntry) : Option ShapeEntry := do
  let (id, e) ← e.nextId
  some { e with
    names := e.names ++ [(key, .direct ⟨id, 0, none, none⟩)]
    list := e.list ++ [key] }

/-- `name_entry_make_direct`. -/
def makeDirect (key : NameKey) (e : ShapeEntry) : Option ShapeEntry := do
  let (id, e) ← e.nextId
  some { e with
    names := (e.setEntry key (.direct ⟨id, 0, none, none⟩)).names
    list := e.list ++ [key] }

/-- What a key stands for: that to which it was renamed. -/
def resolve (e : ShapeEntry) (key : NameKey) : NameKey :=
  match e.getEntry key with
  | some (.indirect target) => target
  | _ => key

/-- `name_table_add`, for a key that is not indirect. -/
def addResolved (key : NameKey) (e : ShapeEntry) : Option ShapeEntry :=
  match e.getEntry key with
  | none => e.createDirect key
  | some .place => e.makeDirect key
  | some (.direct _) => some e
  | some (.indirect _) => none

/-- `name_table_add`: the entry for a key. -/
def nameTableAdd (key : NameKey) (e : ShapeEntry) : Option (NameKey × ShapeEntry) :=
  (e.addResolved (e.resolve key)).map fun e' => (e.resolve key, e')

/-- `name_table_get`. -/
def nameTableGet (e : ShapeEntry) (key : NameKey) : Option Direct :=
  match e.getEntry (e.resolve key) with
  | some (.direct d) => some d
  | _ => none

/-- `shape_entry_get_from_list`. -/
def getFromList (e : ShapeEntry) : Option (NameKey × ShapeEntry) :=
  match e.list with
  | [] => none
  | key :: list => some (key, { e with list })

end ShapeEntry

/-- `ShapeTableT`. -/
abbrev ShapeTable := List ShapeEntry

namespace ShapeTable

/-- `shape_table_get`. -/
def get (t : ShapeTable) (key : NString) : Option ShapeEntry := t.find? fun e => e.key = key

/-- `shape_table_add`. -/
def add (t : ShapeTable) (key : NString) : ShapeTable :=
  if (t.get key).isSome then t else t ++ [.create key]

/-- A change to the entry for a shape. -/
def set (t : ShapeTable) (e : ShapeEntry) : ShapeTable :=
  t.map fun e' => if e'.key = e.key then e else e'

end ShapeTable

/-- `MapEntryT`. A link is an internal and an external identifier. -/
structure MapEntry where
  key : NString
  count : Nat
  links : List (Nat × Nat)
deriving DecidableEq

/-- `UnitT`. -/
structure TdfUnit where
  mapTable : Option (List MapEntry)
  contents : NString
deriving DecidableEq

/-- `UnitEntryT`. -/
structure UnitEntry where
  key : NString
  units : List TdfUnit
deriving DecidableEq

/-- `UnitTableT`, in the order of the unit sets. -/
abbrev UnitTable := List UnitEntry

/-- The two tables, and the version of the capsules. -/
structure Tables where
  shapes : ShapeTable
  units : UnitTable
  majorVersion : Nat
  minorVersion : Nat
deriving DecidableEq

end Tendra.Ref.Tld
