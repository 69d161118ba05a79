import Tendra.Ref.Lexi.Trie

/-!
# Groups: `lexi/src/adt/group.c`, `lexi/src/ast.c`, `lexi/src/out/h.c`, `lexi/src/out/c.c`

No two groups in the list of an `ast` are equal, so a pointer into that list is the group itself.
A `group_name` is told from others by its own pointer. Of an `unsigned long` only the low 32 bits
are ever used.
-/

namespace Tendra.Ref.Lexi

/-- `struct group_name`. The zone is given by its name, and the global zone has none. -/
structure GroupName where
  ptr : Nat
  zone : Option (List Int)
  name : List Int
  g : Group
deriving DecidableEq

/-- `struct zone`, as far as groups go: those of the zone, the zones in it and those beside it. -/
inductive Zones
  | nil
  | zone (groups : List GroupName) (next opt : Zones)

/-- The groups that are declared in a zone, in the zones in it and in those beside it. -/
@[grind =] def Zones.declared : Zones → List GroupName
  | nil => []
  | zone groups next opt => groups ++ (next.declared ++ opt.declared)

/-- `struct ast`: the global zone and the list of all groups. -/
structure Ast where
  global : Zones
  groups : List Group
  distinct : groups.Nodup
  known : ∀ gn ∈ global.declared, gn.g ∈ groups
  once : global.declared.Nodup

/-! ### Definitions -/

/-- `is_group_equal`. -/
def isGroupEqual (a b : Group) : Bool := (a.toList.zip b.toList).all fun p => p.1 = p.2

/-- `tree_find_group`. -/
def treeFindGroup (groups : List Group) (g : Group) : Option Group :=
  groups.find? fun p => isGroupEqual p g

/-- What a value of a definition puts into a group. -/
def addValue (o : Group) : Value → Option Group
  | .char c =>
      if c = eof then none else some (List.Vector.ofFn fun i => o.get i || (i : Int) = c % 256)
  | .group neg g =>
      some (List.Vector.ofFn fun i => o.get i || if neg then !inGroup g i else inGroup g i)

/-- `unescape_string`. -/
def unescapeString (groups : Groups) (s : List Int) : Option Group := do
  let vs ← values groups s.length s
  vs.foldlM addValue (List.Vector.replicate 256 false)

/-- The part of `make_group` that finds or adds the group: what the name is given, and all groups
after it. The names of the zone may not have the name. -/
def makeGroup (own : List GroupName) (visible : Groups) (groups : List Group)
    (name defn : List Int) : Option (Group × List Group) :=
  if own.any fun gn => gn.name = name then none
  else
    (unescapeString visible defn).map fun new =>
      match treeFindGroup groups new with
      | some old => (old, groups)
      | none => (new, new :: groups)

/-! ### Numbers -/

/-- `group_number`, from a group of the list on; an assertion fails where the group is not there. -/
def groupNumber (g : Group) : List Group → Nat → Option (BitVec 32)
  | [], _ => none
  | p :: groups, i =>
      if g = p then some (1#32 <<< i)
      else groupNumber g groups (if !isGroupEmpty p then i + 1 else i)

/-- `count_nonempty_groups`. -/
def countNonemptyGroups (groups : List Group) : Nat := groups.countP (!isGroupEmpty ·)

/-! ### The table -/

/-- An entry of `out_lookup_table`. -/
def lookup (groups : List Group) (c : Nat) : Option (BitVec 32) :=
  groups.foldlM (fun m g =>
    if inGroup g c then (groupNumber g groups 0).map (m ||| ·) else some m) 0

/-- The bits of `lookup_type`. -/
def lookupWidth (t : Nat) : Option Nat :=
  if t ≥ 32 then none else if t > 16 then some 32 else if t > 8 then some 16 else some 8

/-- An entry of `lookup_tab` in the generated lexer. -/
def lookupTab (groups : List Group) (c : Nat) : Option (BitVec 32) := do
  let width ← lookupWidth (countNonemptyGroups groups)
  let m ← lookup groups c
  some ((m.setWidth width).setWidth 32)

/-! ### The enumerators -/

/-- The value of the enumerator for a group. -/
def enumerator (groups : List Group) (g : Group) : Option (BitVec 32) :=
  if isGroupEmpty g then some 0 else groupNumber g groups 0

/-- A line of the enumeration: the name, the value, and whether there is a comma behind them. -/
structure Enumerator where
  name : GroupName
  value : Option (BitVec 32)
  comma : Bool

/-- The rest of the loop of `more_groups`, where there are more groups in `z->next` or not. -/
def moreBeside (below : Bool) : Zones → Bool
  | .nil => false
  | .zone groups _ opt => !groups.isEmpty || below || moreBeside below opt

/-- `more_groups`. -/
def moreGroups : Zones → Bool
  | .nil => false
  | .zone groups next opt =>
      let below := moreGroups next
      !groups.isEmpty || below || moreBeside below opt

/-- The inner loop of `out_macros_zone`, where there are more groups behind those or not. -/
def outGroups (groups : List Group) (more : Bool) : List GroupName → List Enumerator
  | [] => []
  | gn :: gns =>
      ⟨gn, enumerator groups gn.g, !gns.isEmpty || more⟩ :: outGroups groups more gns

/-- The rest of the outer loop, where `below` is what is written for `z->next`. -/
@[grind =] def outBeside (groups : List Group) (below : List Enumerator) : Zones → List Enumerator
  | .nil => []
  | .zone gns next opt =>
      outGroups groups (moreGroups opt || moreGroups next) gns ++
        (below ++ outBeside groups below opt)

/-- `out_macros_zone`. -/
@[grind =] def outMacrosZone (groups : List Group) : Zones → List Enumerator
  | .nil => []
  | .zone gns next opt =>
      let below := outMacrosZone groups next
      outGroups groups (moreGroups opt || moreGroups next) gns ++
        (below ++ outBeside groups below opt)

end Tendra.Ref.Lexi
