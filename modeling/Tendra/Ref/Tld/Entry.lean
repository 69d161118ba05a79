import Mathlib.Logic.Function.Basic
import Tendra.Ref.Tld.Table

/-!
# Name entries in memory: `tld/src/adt/name-entry.c`, `shape-entry.c`

The entries with their pointers, as far as the list of the names of a shape and the renamings
use them. There is no result where an assertion fails, where a pointer is null that is followed,
or where an error is fatal.
-/

namespace Tendra.Ref.Tld.Heap

/-- A pointer to a `NameEntryT` that is not null. -/
abbrev Ptr := Nat

/-- A pointer to a `ShapeEntryT`. -/
abbrev Shape := Nat

/-- `NameEntryTypeT`. -/
inductive NameEntryType
  | indirect
  | indirectCycling
  | indirectDone
  | direct
  | placeholder
deriving DecidableEq, Repr

/-- `NameEntryT`, without the link of its hash chain. In the union `indirect` shares its place
with `id` and `use`, which are written before they are read. -/
structure NameEntry where
  key : NameKey
  type : NameEntryType
  id : Nat
  use : Nat
  definition : Option NString
  libDefinition : Option Nat
  listNext : Option Ptr
  indirect : Option Ptr
deriving DecidableEq

/-- What `ALLOCATE` gives, with its key and its type: it clears the memory. -/
def NameEntry.create (key : NameKey) (type : NameEntryType) : NameEntry :=
  ⟨key, type, 0, 0, none, none, none, none⟩

/-- The entries that are allocated. -/
structure Memory where
  cells : List NameEntry
deriving DecidableEq

namespace Memory

def get (m : Memory) (p : Ptr) : Option NameEntry := m.cells[p]?

def set (m : Memory) (p : Ptr) (e : NameEntry) : Memory := ⟨m.cells.set p e⟩

/-- A new entry. -/
def alloc (m : Memory) (e : NameEntry) : Ptr × Memory := (m.cells.length, ⟨m.cells ++ [e]⟩)

end Memory

/-- What `tail` points to: `head`, or the link of an entry. -/
inductive Link
  | head
  | listNext (p : Ptr)
deriving DecidableEq, Repr

/-- The fields of `ShapeEntryT` that the list uses. -/
structure ShapeEntry where
  idCount : Nat
  head : Option Ptr
  tail : Link
deriving DecidableEq

/-- `shape_entry_create`. -/
def ShapeEntry.create : ShapeEntry := ⟨0, none, .head⟩

/-- The entries for names and for shapes. -/
structure State where
  mem : Memory
  shapes : Shape → ShapeEntry

namespace State

/-- Nothing is allocated, and no list has a name. -/
def init : State := ⟨⟨[]⟩, fun _ => .create⟩

def setShape (s : State) (sh : Shape) (e : ShapeEntry) : State :=
  { s with shapes := Function.update s.shapes sh e }

/-- A new entry. -/
def alloc (s : State) (e : NameEntry) : Ptr × State :=
  let (p, mem) := s.mem.alloc e
  (p, { s with mem })

/-- The entry at a pointer is changed. -/
def modify (s : State) (p : Ptr) (f : NameEntry → NameEntry) : Option State :=
  (s.mem.get p).map fun e => { s with mem := s.mem.set p (f e) }

end State

/-- `shape_entry_next_id`. -/
def shapeEntryNextId (sh : Shape) (s : State) : Option (Nat × State) :=
  let e := s.shapes sh
  if e.idCount = uintMax then none
  else some (e.idCount, s.setShape sh { e with idCount := e.idCount + 1 })

/-- `name_entry_list_next`. -/
def nameEntryListNext (p : Ptr) (s : State) : Option (Option Ptr) := do
  let e ← s.mem.get p
  if e.type = .direct then some e.listNext else none

/-- `name_entry_list_next_ref`. -/
def nameEntryListNextRef (p : Ptr) (s : State) : Option Link := do
  let e ← s.mem.get p
  if e.type = .direct then some (.listNext p) else none

/-- An assignment through a pointer to a link. -/
def assign (sh : Shape) (link : Link) (v : Option Ptr) (s : State) : Option State :=
  match link with
  | .head => some (s.setShape sh { s.shapes sh with head := v })
  | .listNext p => s.modify p fun e => { e with listNext := v }

/-- `shape_entry_add_to_list`. -/
def shapeEntryAddToList (sh : Shape) (p : Ptr) (s : State) : Option State := do
  let s ← assign sh (s.shapes sh).tail (some p) s
  let tail ← nameEntryListNextRef p s
  some (s.setShape sh { s.shapes sh with tail })

/-- `shape_entry_get_from_list`. -/
def shapeEntryGetFromList (sh : Shape) (s : State) : Option (Option Ptr × State) :=
  let e := s.shapes sh
  match e.head with
  | none => some (none, s)
  | some p => do
      let head ← nameEntryListNext p s
      some (some p, s.setShape sh { e with
        head
        tail := if head = none then .head else e.tail })

/-- The fields of a direct entry that are set. -/
def NameEntry.toDirect (e : NameEntry) (id : Nat) : NameEntry :=
  { e with type := .direct, id, use := 0, definition := none, libDefinition := none }

/-- `name_entry_create_direct`. -/
def nameEntryCreateDirect (key : NameKey) (sh : Shape) (s : State) : Option (Ptr × State) := do
  let (id, s) ← shapeEntryNextId sh s
  let (p, s) := s.alloc ((NameEntry.create key .direct).toDirect id)
  let s ← shapeEntryAddToList sh p s
  some (p, s)

/-- `name_entry_create_indirect`. -/
def nameEntryCreateIndirect (key : NameKey) (indirect : Ptr) (s : State) : Ptr × State :=
  s.alloc { NameEntry.create key .indirect with indirect := some indirect }

/-- `name_entry_create_place`. -/
def nameEntryCreatePlace (key : NameKey) (s : State) : Ptr × State :=
  s.alloc (.create key .placeholder)

/-- `name_entry_make_direct`. -/
def nameEntryMakeDirect (p : Ptr) (sh : Shape) (s : State) : Option State := do
  let e ← s.mem.get p
  if e.type = .placeholder then
    let (id, s) ← shapeEntryNextId sh s
    let s ← s.modify p fun e => e.toDirect id
    shapeEntryAddToList sh p s
  else none

/-- `name_entry_make_indirect`. -/
def nameEntryMakeIndirect (p indirect : Ptr) (s : State) : Option State := do
  let e ← s.mem.get p
  if e.type = .placeholder then
    s.modify p fun e => { e with type := .indirect, indirect := some indirect }
  else none

/-!
## Renamings: `tld/src/adt/name-table.c`, `name-entry.c`, `name-key.c`

A name table is its chains of entries. An error is reported with the name of the shape and the
key of the entry, and the functions go on after it.
-/

/-- `NAME_TABLE_SIZE`. -/
abbrev nameTableSize : Nat := 31

/-- `NameTableT`: the chain for each hash value. -/
abbrev NameTable := Nat → List Ptr

/-- `name_table_create`. -/
def NameTable.create : NameTable := fun _ => []

/-- `name_key_pair_list_add`. -/
def nameKeyPairListAdd (pairs : List (NameKey × NameKey)) (fromKey toKey : NameKey) :
    Bool × List (NameKey × NameKey) :=
  if pairs.any fun pair => pair.1 = fromKey then (false, pairs)
  else (true, (fromKey, toKey) :: pairs)

/-- The errors of `name_entry_resolve_renames`: "cycle in %S renaming including name '%K'". -/
abbrev Report := NString × NameKey

/-- `name_entry_resolve_renames`, to the depth `fuel`. -/
@[grind =] def nameEntryResolveRenames (shape : NString) (report : Bool) :
    Nat → Ptr → State → Option (Option Ptr × List Report × State)
  | 0, _, _ => none
  | fuel + 1, p, s => do
      let e ← s.mem.get p
      match e.type with
      | .placeholder | .direct => some (some p, [], s)
      | .indirectDone => some (e.indirect, [], s)
      | .indirectCycling => some (none, if report then [(shape, e.key)] else [], s)
      | .indirect => do
          let s ← s.modify p fun e => { e with type := .indirectCycling }
          let q ← e.indirect
          let (r, reports, s) ← nameEntryResolveRenames shape report fuel q s
          let s ← s.modify p fun e => { e with indirect := r, type := .indirectDone }
          some (r, reports, s)

/-- The loop over entries of `name_table_resolve_renames`. -/
def resolveEntries (shape : NString) (report : Bool) (fuel : Nat) :
    List Ptr → State → Option (List Report × State)
  | [], s => some ([], s)
  | p :: ps, s => do
      let (_, reports, s) ← nameEntryResolveRenames shape report fuel p s
      let (reports', s) ← resolveEntries shape report fuel ps s
      some (reports ++ reports', s)

/-- `name_table_resolve_renames`. -/
def nameTableResolveRenames (t : NameTable) (shape : NString) (report : Bool) (fuel : Nat)
    (s : State) : Option (List Report × State) :=
  resolveEntries shape report fuel ((List.range nameTableSize).flatMap t) s

section

variable (hash : NameKey → Nat)

/-- The number of the chain of a key. -/
def bucket (key : NameKey) : Nat := hash key % nameTableSize

/-- The first entry of a chain that has the key. -/
def find (s : State) (key : NameKey) (chain : List Ptr) : Option Ptr :=
  chain.find? fun p => (s.mem.get p).any fun e => e.key = key

/-- An entry is put at the end of the chain of its key. -/
def NameTable.append (t : NameTable) (key : NameKey) (p : Ptr) : NameTable :=
  Function.update t (bucket hash key) (t (bucket hash key) ++ [p])

/-- The entry for the new name of `name_table_add_rename`. -/
def toEntry (key : NameKey) (t : NameTable) (s : State) : Ptr × NameTable × State :=
  match find s key (t (bucket hash key)) with
  | some p => (p, t, s)
  | none =>
      let (p, s) := nameEntryCreatePlace key s
      (p, t.append hash key p, s)

/-- `name_table_add_rename`. -/
def nameTableAddRename (fromKey toKey : NameKey) (t : NameTable) (s : State) :
    Option (NameTable × State) :=
  let (p, t, s) := toEntry hash toKey t s
  match find s fromKey (t (bucket hash fromKey)) with
  | some q => (nameEntryMakeIndirect q p s).map fun s => (t, s)
  | none =>
      let (q, s) := nameEntryCreateIndirect fromKey p s
      some (t.append hash fromKey q, s)

/-- `name_table_add_rename`, for pairs one after the other. -/
def addRenames : List (NameKey × NameKey) → NameTable → State → Option (NameTable × State)
  | [], t, s => some (t, s)
  | (fromKey, toKey) :: pairs, t, s => do
      let (t, s) ← nameTableAddRename hash fromKey toKey t s
      addRenames pairs t s

/-- `name_entry_is_indirect`. -/
def NameEntry.isIndirect (e : NameEntry) : Bool :=
  e.type = .indirect ∨ e.type = .indirectCycling ∨ e.type = .indirectDone

/-- An entry, or the one that it is renamed to. There is none where a null pointer is followed. -/
def target (p : Ptr) (s : State) : Option (Ptr × NameEntry) := do
  let e ← s.mem.get p
  if e.isIndirect then
    let q ← e.indirect
    let e ← s.mem.get q
    some (q, e)
  else some (p, e)

/-- `name_table_add`. -/
def nameTableAdd (key : NameKey) (sh : Shape) (t : NameTable) (s : State) :
    Option (Ptr × NameTable × State) :=
  match find s key (t (bucket hash key)) with
  | some p => do
      let (q, e) ← target p s
      if e.type = .placeholder then
        let s ← nameEntryMakeDirect q sh s
        some (q, t, s)
      else some (q, t, s)
  | none => do
      let (p, s) ← nameEntryCreateDirect key sh s
      some (p, t.append hash key p, s)

/-- `name_table_get`. -/
def nameTableGet (key : NameKey) (t : NameTable) (s : State) : Option (Option Ptr) :=
  match find s key (t (bucket hash key)) with
  | some p => do
      let (q, e) ← target p s
      if e.type = .placeholder then some none else some (some q)
  | none => some none

/-- `name_table_add`, for keys one after the other. -/
def addAll (sh : Shape) : List NameKey → NameTable → State → Option (NameTable × State)
  | [], t, s => some (t, s)
  | key :: keys, t, s => do
      let (_, t, s) ← nameTableAdd hash key sh t s
      addAll sh keys t s

end

end Tendra.Ref.Tld.Heap
