import Tendra.Ref.Fold

/-!
# Commutative and associative operations: `comm_ass` of `refactor/refactor.c`

Expressions are cells that are linked in place: a cell points to its first argument,
an argument to the next one, and the last argument back to the expression it belongs
to, through the same field. `comm_ass` walks through the arguments of nested operations
of the same kind and strings those that stay behind a new cell as it goes.

What `replace`, `retcell` and `refactor` do with the result is left out: `comm_ass`
returns the expression that replaces its argument.
-/

namespace Tendra.Ref

/-- The fields of `exp_t` that are used here; an `exp` is the number of a cell. The last argument
has its father as `next`. -/
structure Cell where
  tag : Tag
  sh : Shape
  no : Int
  props : Nat
  child : Nat
  next : Nat
  last : Bool
deriving DecidableEq, Repr

/-- The record of a cell. -/
def Cell.node (c : Cell) : Node := ⟨c.tag, c.sh, c.no, c.props, none, 0⟩

/-- The cells, of which those from `brk` on have not been handed out. -/
structure Heap where
  cell : Nat → Cell
  brk : Nat

/-- `NULL`. -/
abbrev null : Nat := 0

namespace Heap

/-- Stores a cell. -/
def set (h : Heap) (x : Nat) (c : Cell) : Heap :=
  { h with cell := fun y => if y = x then c else h.cell y }

/-- `getexp`. -/
def getexp (h : Heap) (c : Cell) : Nat × Heap := (h.brk, { h.set h.brk c with brk := h.brk + 1 })

/-- `me_shint`. -/
def meShint (h : Heap) (sh : Shape) (i : Int) : Nat × Heap :=
  h.getexp ⟨.valTag, sh, i, 0, null, null, false⟩

/-- `next(x) = y` and `x->last = l`. -/
def link (h : Heap) (x y : Nat) (l : Bool) : Heap :=
  h.set x { h.cell x with next := y, last := l }

end Heap

/-- The operations that `comm_ass` is called for on integers. -/
inductive AssOp
  | plus | mult | and | or | xor
deriving DecidableEq, Repr

namespace AssOp

/-- The parameter `op_tag`. -/
def tag : AssOp → Tag
  | plus => .plusTag
  | mult => .multTag
  | and => .andTag
  | or => .orTag
  | xor => .xorTag

/-- The parameter `fn`. -/
def fn (o : AssOp) (st : FoldSt) (a b : Node) (et : Nat) : Run (FoldSt × Node) :=
  match o with
  | plus => plusFn st a b et
  | mult => multFn st a b et
  | and => andFn st a b
  | or => orFn st a b
  | xor => xorFn st a b

/-- `all_ones`. -/
def allOnes (sh : Shape) : Int :=
  match sh.size with
  | 8 => 0xff
  | 16 => 0xffff
  | _ => -1

/-- The parameter `one`, for arguments of a shape. -/
def one (o : AssOp) (sh : Shape) : Int :=
  match o with
  | mult => 1
  | and => allOnes sh
  | _ => 0

/-- The parameter `has_zero`. -/
def hasZero (o : AssOp) (sh : Shape) : Bool :=
  match o with
  | mult | and => true
  | or => sh.size ≤ 32
  | _ => false

/-- The parameter `zero`. -/
def zero (o : AssOp) (sh : Shape) : Int :=
  match o with
  | or => allOnes sh
  | _ => 0

end AssOp

/-- The number that `comm_ass` fills in for a unit of 64 bits, over what the entry held. -/
def onesFlt (f : Flt) : Flt := { f.store (List.replicate 4 65535) with sign := 1, exp := 3 }

/-- The accumulated constant at the start. -/
def startCst (st : FoldSt) (h : Heap) (sh : Shape) (one : Int) : FoldSt × Heap × Nat :=
  let (cst, h) := h.meShint sh one
  if one = -1 ∧ sh.size = 64 then
    let (f, p) := st.pool.new
    ({ st with pool := p.set f (onesFlt (p.nos f)) },
      h.set cst { h.cell cst with no := f, props := pset (h.cell cst).props 0x01 }, cst)
  else (st, h, cst)

/-- An argument that is an operation of the same kind. -/
def sameOp (o : AssOp) (c : Cell) : Bool := c.tag = o.tag ∧ optop c.node

/-- A constant. -/
def isConst (c : Cell) : Bool := c.tag = .valTag ∨ c.tag = .realTag

/-- The first loop: whether there is an argument to change. It starts with `t`, and with whether
there is only one argument. -/
def toChange (o : AssOp) (h : Heap) : Nat → Bool → Nat → Run Bool
  | 0, _, _ => .error .loops
  | fuel + 1, changed, t =>
      let changed := changed || sameOp o (h.cell t) || isConst (h.cell t)
      if (h.cell t).last then .ok changed else toChange o h fuel changed (h.cell t).next

/-- The state of the second loop. -/
structure Walk where
  st : FoldSt
  heap : Heap
  t : Nat
  p : Nat

/-- The constant is accumulated, or the item is added at `p`. -/
def Walk.item (o : AssOp) (cst : Nat) (et : Nat) (s : Walk) : Run Walk :=
  if isConst (s.heap.cell s.t) then do
    let (st, c) ← o.fn s.st (s.heap.cell cst).node (s.heap.cell s.t).node et
    return { s with
      st := st
      heap := s.heap.set cst { s.heap.cell cst with no := c.no, props := c.props } }
  else .ok { s with heap := s.heap.link s.p s.t false, p := s.t }

/-- The second loop, with the loops inside it: `climb` is the ascent from an item that is done, and
the test of the outer loop. -/
def walk (o : AssOp) (dive : Bool) (e cst : Nat) (et : Nat) : Nat → Bool → Walk → Run Walk
  | 0, _, _ => .error .loops
  | fuel + 1, climb, s =>
      let c := s.heap.cell s.t
      if climb then
        if c.last ∧ c.next ≠ e then walk o dive e cst et fuel true { s with t := c.next }
        else if c.last then .ok s
        else walk o dive e cst et fuel false { s with t := c.next }
      else if sameOp o c ∧ dive then walk o dive e cst et fuel false { s with t := c.child }
      else do
        let s ← s.item o cst et
        walk o dive e cst et fuel true s

/-- The expression that replaces `e`, and whether it goes through `hold_refactor` first. -/
structure Change where
  exp : Nat
  hold : Bool
deriving DecidableEq, Repr

/-- The parameters of `comm_ass` that are numbers. -/
structure Units where
  one : Int
  hasZero : Bool
  zero : Int

/-- The end of `comm_ass`: the form of the result. -/
def finish (u : Units) (e q cst cstU : Nat) (s : Walk) : Heap × Change :=
  let p := s.p
  let h := s.heap.set q { s.heap.cell q with child := (s.heap.cell q).next }
  let c := h.cell cst
  if p = q then (h, ⟨cst, false⟩)
  else if u.hasZero ∧ c.no = u.zero ∧ !isbigval c.node then
    -- `q` becomes the holder of a sequence
    let h := h.set q { h.cell q with tag := .holderTag, child := (h.cell q).next }
    let h := (h.link p q true).link q cst false
    let (r, h) := h.getexp ⟨.seqTag, (h.cell e).sh, 0, 0, q, null, false⟩
    (h.link cst r true, ⟨r, true⟩)
  else if c.no ≠ u.one ∨ (isbigval c.node ∧ cst ≠ cstU) then
    let h := h.link p cst false
    let h := h.set q { h.cell q with child := (h.cell q).next }
    let h := h.link cst q true
    (h.set q { h.cell q with sh := (h.cell e).sh }, ⟨q, false⟩)
  else if (h.cell q).child = p then
    (h.set p { h.cell p with sh := (h.cell e).sh }, ⟨p, true⟩)
  else
    let h := h.link p q true
    (h.set q { h.cell q with sh := (h.cell e).sh }, ⟨q, false⟩)

/-- `comm_ass`, as `refactor` calls it for an integer operation `e`; only on the x86 `mult_tag`
does not `dive`. There is no change if none is returned. -/
def commAss (o : AssOp) (dive : Bool) (fuel : Nat) (st : FoldSt) (h : Heap) (e : Nat) :
    Run (FoldSt × Heap × Option Change) := do
  let sh := (h.cell e).sh
  let t := (h.cell e).child
  let u : Units := ⟨o.one (h.cell t).sh, o.hasZero sh, o.zero (h.cell t).sh⟩
  let changed := (h.cell t).last
  let (st, h, cst) := startCst st h sh u.one
  let cstU := if u.one = -1 ∧ sh.size = 64 then cst else null
  if !optop (h.cell e).node then return (st, h, none)
  let changed ← toChange o h fuel changed t
  if changed then
    let et := errhandle (h.cell e).node
    let (q, h) := h.getexp ⟨o.tag, sh, 0, et, null, null, false⟩
    let s ← walk o dive e cst et fuel false ⟨st, h, t, q⟩
    let (h, c) := finish u e q cst cstU s
    return (s.st, h, some c)
  else return (st, h, none)

end Tendra.Ref
