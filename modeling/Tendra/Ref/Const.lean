import Tendra.Ref.Refactor

/-!
# Constants that are evaluated early: `refactor/const.c`

A constant that is taken out of a conditional in a loop is evaluated although the condition
may not hold. `safe_eval` copies it with a test of each pointer that it takes the contents
of and of each divisor; where a test fails, control goes to a label behind which the value
is left undefined.

Of the cells there are the trees, the declarations and the label that are made, and the use
count of the label. `copy` is applied to names, to expressions with a name as their only
argument and to reals, and makes a tree of the same records.
-/

namespace Tendra.Ref.Const

/-- What the calls of `safe_eval` share: the numbers of constants, the cells that have been
handed out, the count of the label, and `arg_is_reff`. -/
structure Safe where
  pool : Pool
  brk : Nat
  uses : Nat
  argIsReff : Bool

/-- The `konst` of `safe_arg`. -/
def safeKonst (ptrNull : Int) (sh : Shape) (p : Pool) : Option (Exp × Pool) :=
  match sh.hd with
  | .ptrhd => some (.mk ⟨.nullTag, sh, ptrNull, 0, none, 0⟩ [], p)
  | .scharhd | .ucharhd | .swordhd | .uwordhd | .slonghd | .ulonghd | .s64hd | .u64hd =>
      some (.mk ⟨.valTag, sh, 0, 0, none, 0⟩ [], p)
  | .shrealhd | .realhd | .doublehd =>
      let (f, p) := p.new
      some (.mk ⟨.realTag, sh, f, 0, none, 0⟩ [], p.set f (fltZero (p.nos f)))
  | .offsethd =>
      some (.mk ⟨.valTag, { sh with al1 := sh.align, al2 := sh.align }, 0, 0, none, 0⟩ [], p)
  | _ => none

/-- What `safe_arg` builds: a declaration of `e` and a jump to `esc` if it is `konst`. -/
def safeDecl (esc decl : Nat) (e konst : Exp) : Exp :=
  let name : Exp := .mk ⟨.nameTag, e.sh, 0, 0, none, decl⟩ []
  let tst := makeTest .notEqual (some esc) name konst .testTag
  let z : Exp := .mk ⟨.holderTag, topShape, 0, 0, none, 0⟩ [tst]
  let s : Exp := .mk ⟨.seqTag, e.sh, 0, 0, none, 0⟩ [z, name]
  .mk ⟨.identTag, e.sh, 2, 0, none, decl⟩ [e, s]

/-- `safe_arg`. -/
def safeArg (ptrNull : Int) (esc : Nat) (e : Exp) (s : Safe) : Option (Exp × Safe) := do
  let (konst, pool) ← safeKonst ptrNull e.sh s.pool
  return (safeDecl esc s.brk e konst, { s with pool := pool, brk := s.brk + 1, uses := s.uses + 1 })

/-- The divisions. -/
def isDivision : Tag → Bool
  | .div0Tag | .div1Tag | .div2Tag | .fdivTag | .modTag | .rem2Tag | .rem0Tag | .offsetDivTag
  | .offsetDivByIntTag => true
  | _ => false

/-- `copy` of a `real_tag`. -/
def copyReal (n : Node) (s : Safe) : Exp × Safe :=
  let (f, p) := s.pool.new
  (.mk { n with no := f } [],
    { s with pool := p.set f (fltCopy (p.nos n.no.toNat) (p.nos f)) })

section

variable (decs : Nat → Dec) (ptrNull : Int) (esc : Nat)

mutual

/-- `safe_eval` in a call from itself; `none` is an unanticipated component or shape. -/
@[grind =] def safeEvalIn : Exp → Safe → Option (Exp × Safe)
  | .mk n args, s => do
      let (res, s) ←
        match n.tag, args with
        | .identTag, _ => none
        | .condTag, _ => none
        | .repTag, _ => none
        | .solveTag, _ => none
        | .caseTag, _ => none
        | .nameTag, args => some (.mk n args, s)
        | .envOffsetTag, args => some (.mk n args, s)
        | .generalEnvOffsetTag, args => some (.mk n args, s)
        | .realTag, _ => some (copyReal n s)
        | .contTag, [arg] =>
            if arg.tag = .nameTag ∧ ((decs arg.dec).isglob ∨ (decs arg.dec).isvar) then
              some (.mk n [arg], s)
            else do
              let (arg, s) ← safeEvalIn arg s
              let (arg, s) ← if s.argIsReff then some (arg, s) else safeArg ptrNull esc arg s
              some (.mk n [arg], s)
        | .reffTag, [arg] =>
            if arg.tag = .nameTag ∧ (decs arg.dec).isglob then some (.mk n [arg], s)
            else do
              let (arg, s) ← safeEvalIn arg s
              let (arg, s) ← if s.argIsReff then some (arg, s) else safeArg ptrNull esc arg s
              some (.mk n [arg], s)
        | tag, args =>
            if isDivision tag then
              match args with
              | [arg1, arg2] => do
                  let (arg1, s) ← safeEvalIn arg1 s
                  let (arg2, s) ← safeEvalIn arg2 s
                  let (arg2, s) ← safeArg ptrNull esc arg2 s
                  some (.mk n [arg1, arg2], s)
              | _ => none
            else do
              let (args, s) ← safeEvalArgs args s
              some (.mk n args, s)
      some (res, { s with argIsReff := n.tag = .reffTag })

/-- The loop over the arguments. -/
def safeEvalArgs : List Exp → Safe → Option (List Exp × Safe)
  | [], s => some ([], s)
  | arg :: args, s => do
      let (arg, s) ← safeEvalIn arg s
      let (args, s) ← safeEvalArgs args s
      some (arg :: args, s)

end

variable {decs ptrNull esc} in
theorem safeEvalIn_leaf {n : Node} (hn : n.tag = .nameTag ∨ n.tag = .envOffsetTag ∨
    n.tag = .generalEnvOffsetTag ∨ n.tag = .valTag ∨ n.tag = .nullTag) (s : Safe) :
    safeEvalIn decs ptrNull esc (.mk n []) s = some (.mk n [], { s with argIsReff := false }) := by
  rcases hn with hn | hn | hn | hn | hn <;>
    simp [safeEvalIn, safeEvalArgs, isDivision, hn]

end

/-- `safe_eval` with `NULL` for `escape_route`; `brk` is the next free cell, and `argIsReff`
what the last call left. -/
def safeEval (decs : Nat → Dec) (ptrNull : Int) (e : Exp) (p : Pool) (brk : Nat)
    (argIsReff : Bool) : Option (Exp × Safe) := do
  let esc := brk
  let (res, s) ← safeEvalIn decs ptrNull esc e ⟨p, brk + 1, 0, argIsReff⟩
  if s.uses = 0 then return (res, s)
  else
    let z : Exp := .mk ⟨.clearTag, topShape, s.uses, 0, none, 0⟩ []
    let safe : Exp := .mk ⟨.clearTag, e.sh, 0, 0, none, 0⟩ []
    let escLab : Exp := .mk ⟨.labstTag, e.sh, 0, 0, none, esc⟩ [z, safe]
    return (.mk ⟨.condTag, e.sh, 0, 0, none, 0⟩ [res, escLab], s)

/-- The constant is an entry of `flptnos`. -/
def inPool (n : Node) : Bool := n.tag = .realTag ∨ n.tag = .valTag ∧ isbigval n

mutual

/-- The entries of `flptnos` that an expression holds. -/
def slots : Exp → List Nat
  | .mk n args => (if inPool n then [n.no.toNat] else []) ++ slotsArgs args

def slotsArgs : List Exp → List Nat
  | [] => []
  | arg :: args => slots arg ++ slotsArgs args

end

/-- `kill_exp` on a constant: it returns the entries. -/
def killExp (e : Exp) (p : Pool) : Pool := (slots e).foldl Pool.ret p

end Tendra.Ref.Const
