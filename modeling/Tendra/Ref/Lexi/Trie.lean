import Mathlib.Data.Vector.Defs

/-!
# Tries: `lexi/src/adt/trie.c`, `zone.c`, `group.c`

A character is its value as a `char` or an `int`; a machine may have negative values
for a `char` or not. A string is the list of its characters. What a trie has at its
nodes is a frame or a mapping, so the type of it is open.

Where the source reports an error or an assertion fails there is no result.
-/

namespace Tendra.Ref.Lexi

/-- `EOF`. -/
abbrev eof : Int := -1

/-- `struct group`: the characters from 0 to 255 that are in it. -/
abbrev Group := List.Vector Bool 256

/-- `in_group`. -/
def inGroup (g : Group) (c : Int) : Bool := 0 ≤ c && (g.toList[c.toNat]?).getD false

/-- `is_group_empty`. -/
def isGroupEmpty (g : Group) : Bool := g.toList.all (!·)

/-- The groups of a zone and those of its parents, in the order in which they are searched. -/
abbrev Groups := List (List Int × Group)

/-- `find_group`. -/
def findGroup (groups : Groups) (name : List Int) : Option Group :=
  (groups.find? fun gn => gn.1 = name).map (·.2)

/-- `enum trie_kind` and `union trie_value`. Equality is `values_equal`. -/
inductive Value
  | char (c : Int)
  | group (neg : Bool) (g : Group)
deriving DecidableEq

/-- `struct trie`. -/
inductive Trie (α : Type)
  | nil
  | node (v : Value) (u : Option α) (next opt : Trie α)
deriving DecidableEq

/-- `find_escape`. -/
def findEscape : Int → Option Int
  | 0x6e => some 0x0a
  | 0x74 => some 0x09
  | 0x76 => some 0x0b
  | 0x66 => some 0x0c
  | 0x72 => some 0x0d
  | 0x3f => some 0x3f
  | 0x22 => some 0x22
  | 0x5b => some 0x5b
  | 0x5c => some 0x5c
  | 0x27 => some 0x27
  | 0x65 => some eof
  | _ => none

/-- A turn of the loop of `add_string`: the value at the front of a string. -/
def nextValue (groups : Groups) : List Int → Option (Value × List Int)
  | [] => none
  | 0x5b :: s =>
      let neg := s.head? = some 0x5e
      let s := if neg then s.tail else s
      if s.contains 0x5d then
        (findGroup groups (s.takeWhile (· ≠ 0x5d))).map fun g =>
          (.group neg g, (s.dropWhile (· ≠ 0x5d)).tail)
      else none
  | 0x5c :: s =>
      match s with
      | [] => none
      | e :: s => (findEscape e).map fun c => (.char c, s)
  | c :: s => some (.char c, s)

/-- The values of a string. A turn takes a character at least, so as many turns as there are
characters are enough. -/
def values (groups : Groups) : Nat → List Int → Option (List Value)
  | _, [] => some []
  | 0, _ => none
  | k + 1, s => do
      let (v, s) ← nextValue groups s
      let vs ← values groups k s
      some (v :: vs)

namespace Trie

variable {α : Type}

/-- The search of `find_or_add`. -/
@[grind =] def has (v : Value) : Trie α → Bool
  | nil => false
  | node v' _ _ opt => v' = v || has v opt

/-- A change to the node with a value. -/
@[grind =] def change (v : Value) (k : Option α → Trie α → Option (Option α × Trie α)) :
    Trie α → Option (Trie α)
  | nil => none
  | node v' u next opt =>
      if v' = v then (k u next).map fun res => node v' res.1 res.2 opt
      else (change v k opt).map (node v' u next)

/-- The assertion of `new_trie`. -/
def newTrieOk : Value → Bool
  | .char c => 0 ≤ c || c = eof
  | .group _ _ => true

/-- `find_or_add`, and what is done to the node that it gives. -/
def findOrAdd (v : Value) (k : Option α → Trie α → Option (Option α × Trie α)) (t : Trie α) :
    Option (Trie α) :=
  if t.has v then t.change v k
  else if newTrieOk v then (k none nil).map fun res => node v res.1 res.2 t
  else none

/-- `add_string` over the values of a string, and the change to the leaf in `add_mainpass` and
`add_prepass`. -/
@[grind =] def addValues (a : α) : List Value → Trie α → Option (Trie α)
  | [], _ => none
  | [v], t => t.findOrAdd v fun u next => if u.isSome then none else some (some a, next)
  | v :: vs, t => t.findOrAdd v fun u next => (addValues a vs next).map fun next => (u, next)

/-- `add_mainpass` and `add_prepass`. -/
def add (groups : Groups) (s : List Int) (a : α) (t : Trie α) : Option (Trie α) := do
  let vs ← values groups s.length s
  t.addValues a vs

/-- A sequence of successful calls. -/
@[grind =] def build (groups : Groups) (t : Trie α) : List (List Int × α) → Option (Trie α)
  | [] => some t
  | (s, a) :: decls => do
      let t ← t.add groups s a
      build groups t decls

/-- `trie_maxlength`. -/
@[grind =] def maxlength : Trie α → Nat
  | nil => 0
  | node _ _ next opt =>
      max (match next with
        | nil => 0
        | node .. => maxlength next + 1) (maxlength opt)

end Trie

end Tendra.Ref.Lexi
