import Tendra.Lib.Machine
import Tendra.Ref.Refactor

/-!
# Unrolling of loops: `refactor/unroll.c`

`unroller` looks for a loop whose body ends with an assignment that increments a variable
and a test of that variable against a limit. Where `unroll_complex` finds nothing in the
body that forbids it, `unroll_trans` builds a `solve_tag` in its place: preliminary copies
of the body for what the number of rounds leaves modulo `times`, and a loop with `times`
copies, the increment and the test only after the last of them.

The expression that is built is given here by its parts in their order, one instruction for
each statement, jump and label. `jumps_out` is never set in the source, so what it governs
is left out, and so is `simple_unroll`, which keeps the test. `hold_refactor` does not
change the value of what it is applied to, and is left out too. A C `int` has 32 bits.
-/

namespace Tendra.Ref.Unroll

/-- `LIMIT`. -/
def LIMIT : Int := 55

/-- `UNROLL_BY`. -/
def unrollBy : Nat := 4

/-! ## What the body may hold -/

/-- The variables of the file, and the labels with `isunroll`. -/
structure State where
  namesIndex : Nat
  allowDouble : Bool
  unroll : List Nat
deriving DecidableEq, Repr

namespace State

/-- `allow_double = 0`. -/
def noDouble (s : State) : State := { s with allowDouble := false }

/-- A jump to a label. -/
def jump (s : State) (pt : Option Nat) : State :=
  match pt with
  | some l => if l ∈ s.unroll then s else s.noDouble
  | none => s.noDouble

/-- `setunroll`. -/
def setunroll (s : State) (l : Nat) : State := { s with unroll := l :: s.unroll }

/-- `clearunroll`. -/
def clearunroll (s : State) (l : Nat) : State :=
  { s with unroll := s.unroll.filter (· ≠ l) }

end State

/-- Where an expression stands: its fathers, innermost first, each with the arguments that
follow. The expression is `last` where none does, and its `next` is the father then. -/
abbrev Context := List (Node × List Exp)

/-- The use stands in `offset_mult(cont(name), val)`, with a `chvar_tag` in between on the
Alpha. -/
def isOffsetMult (alpha : Bool) : Context → Bool
  | (f, []) :: up =>
      f.tag = .contTag &&
        match alpha, up with
        | false, (g, [k]) :: _ => k.tag = .valTag && g.tag = .offsetMultTag
        | true, (h, []) :: (g, [k]) :: _ =>
            h.tag = .chvarTag && k.tag = .valTag && g.tag = .offsetMultTag
        | _, _ => false
  | _ => false

/-- The expressions whose `child` is not an argument: a declaration, or the text of a string. -/
def hasChild (t : Tag) : Bool :=
  t = .nameTag ∨ t = .envOffsetTag ∨ t = .generalEnvOffsetTag ∨ t = .stringTag

/-- What an operation counts: those on floating point are heavy. -/
def weight : Tag → Int
  | .roundTag | .fplusTag | .fminusTag | .fmultTag | .fdivTag | .fabsTag | .fnegTag
  | .fpowerTag | .fmaxTag | .fminTag | .floatTag | .chflTag => 16
  | _ => 1

section

variable (alpha : Bool) (decs : Nat → Dec) (control : Nat) (lia : Bool) (ul : Option Nat)

/-- The use of a declaration. -/
def State.name (s : State) (dec : Nat) (up : Context) : State :=
  if dec ≠ control then s
  else if isOffsetMult alpha up then { s with namesIndex := s.namesIndex + 1 }
  else s.noDouble

/-- An assignment to `assdest`. -/
def State.assign (s : State) (assdest : Option Exp) : State :=
  match assdest with
  | some d =>
      if d.tag ≠ .nameTag then s
      else
        let s := if some d.dec = ul then s.noDouble else s
        if lia ∧ (¬ (decs d.dec).isvar ∨ ¬ (decs d.dec).iscaonly) then s.noDouble else s
  | none => s

mutual

/-- `unroll_complex`; `n` is what is left of the complexity that is allowed. -/
def unrollComplex : Exp → Context → Int → Int → State → Int × State
  | .mk e args, up, n, decr, s =>
      if n < 0 then (-1, s)
      else if args.isEmpty ∧ ¬ hasChild e.tag then
        (n, if e.tag = .gotoTag then s.noDouble else s)
      else
        match e.tag with
        | .testTag | .testbitTag => ucList e args up (n - decr) decr (s.jump e.pt)
        | .gotoTag => (n - 1, s.jump e.pt)
        | .condTag =>
            match args with
            | [a, l] =>
                let s := s.setunroll l.dec
                let (t, s) :=
                  if a.sh.hd = .bothd then unrollComplex a ((e, [l]) :: up) (n - 4 * decr) 0 s
                  else unrollComplex a ((e, [l]) :: up) (n - decr) decr s
                let (t, s) := unrollComplex l ((e, []) :: up) (t - decr) decr s
                (t, s.clearunroll l.dec)
            | _ => (-1, s)
        | .assTag | .assvolTag =>
            ucList e args up (n - decr) decr (s.assign decs lia ul args.head?)
        | .nameTag => (n - decr, s.name alpha control e.dec up)
        | .applyTag | .solveTag => (-1, s)
        | .caseTag =>
            match args with
            | a :: rest => unrollComplex a ((e, rest) :: up) (n - decr) decr s
            | [] => (-1, s)
        | .stringTag | .envOffsetTag | .generalEnvOffsetTag => (n - decr, s)
        | .topTag | .profTag | .clearTag => (n, s)
        | .labstTag =>
            match args with
            | [_, b] => unrollComplex b ((e, []) :: up) n decr s
            | _ => (-1, s)
        | .seqTag => ucList e args up n decr s
        | t => ucList e args up (n - weight t * decr) decr s

/-- `uc_list`, on the arguments of `e` from one of them on. -/
def ucList (e : Node) : List Exp → Context → Int → Int → State → Int × State
  | [], _, n, _, s => (n, s)
  | a :: rest, up, n, decr, s =>
      let (c, s) := unrollComplex a ((e, rest) :: up) n decr s
      if c < 0 ∨ rest.isEmpty then (c, s) else ucList e rest up c decr s

end

end

/-! ## The loop -/

/-- The parts of a loop: the first statement of the repeated ones and the `others`, the
increment and what comes `after` it, and the test. -/
structure Loop where
  labst : Nat
  body : Exp
  others : List Exp
  inc : Exp
  after : List Exp
  te : Exp
deriving DecidableEq, Repr

namespace Loop

variable (L : Loop)

/-- `dest`, the control variable. -/
def var : Exp := L.inc.args.headD L.inc

/-- The declaration of the control variable. -/
def control : Nat := L.var.dec

/-- `val`, what is assigned. -/
def val : Exp := (L.inc.args.drop 1).headD L.inc

/-- The value added to the control variable. -/
def konst : Exp := (L.val.args.drop 1).headD L.inc

/-- `limit`. -/
def limit : Exp := (L.te.args.drop 1).headD L.te

/-- `nt`. -/
def nt : Nat := testNumber L.te.node

end Loop

/-- The contents of the declaration. -/
def isContOf (dec : Nat) : Exp → Bool
  | .mk n [a] => n.tag = .contTag ∧ a.tag = .nameTag ∧ a.dec = dec
  | _ => false

/-- The tests of `unroller` on the form of a `rep_tag`. -/
def findLoop (decs : Nat → Dec) : Exp → Option Loop
  | .mk rep [start, .mk lab [count, .mk rb [.mk _ (body :: others),
      .mk final [.mk _ (ass :: after), te]]]] =>
      let L : Loop := ⟨lab.dec, body, others, ass, after, te⟩
      match ass.args, te.args with
      | [dest, val], [arg, _] =>
          if rep.tag = .repTag ∧ start.tag = .topTag ∧ lab.tag = .labstTag ∧ count.no = 1 ∧
              rb.tag = .seqTag ∧ final.tag = .seqTag ∧
              ass.tag = .assTag ∧ te.tag = .testTag ∧
              dest.tag = .nameTag ∧ (decs dest.dec).isvar ∧ (decs dest.dec).iscaonly ∧
              val.sh.size = 32 ∧ val.tag = .plusTag ∧
              (val.args.head?.any (isContOf dest.dec)) ∧ L.konst.tag = .valTag ∧
              isContOf dest.dec arg ∧ te.pt = some lab.dec then some L
          else none
      | _, _ => none
  | _ => none

/-- `limit_is_aliased` and `unaliased_limit`. -/
def limitAlias (decs : Nat → Dec) (limit : Exp) : Bool × Option Nat :=
  match limit with
  | .mk n [a] =>
      if n.tag = .contTag ∧ a.tag = .nameTag ∧ (decs a.dec).isvar then
        if (decs a.dec).iscaonly then (false, some a.dec) else (true, none)
      else (false, none)
  | _ => (false, none)

/-- The forms of a limit that are permitted. -/
def permitted (decs : Nat → Dec) (limit : Exp) : Bool :=
  (limit.tag = .nameTag && !(decs limit.dec).isvar) || limit.tag = .valTag ||
    match limit with
    | .mk n [a] => n.tag = .contTag && a.tag = .nameTag && (decs a.dec).isvar
    | _ => false

/-! ## The code that is built -/

/-- The label of the loop, the elements of `branches`, and `lrep`. -/
inductive Label
  | labst
  | branch (i : Nat)
  | lrep
deriving DecidableEq, Repr

/-- The parts of a program. A statement that is executed has the distance from the control
variable to the value that it is executed for. -/
inductive Instr
  | lab (l : Label)
  | goto (l : Label)
  | exec (i : Nat) (e : Exp)
  | assign (e : Exp)
  | test (e : Exp) (l : Label)
  | startId (e : Exp)
  | testId (nt : Ntest) (i : BitVec 32) (l : Label)
deriving DecidableEq, Repr

/-- The loop, before anything is done to it. -/
def Loop.program (L : Loop) : List Instr :=
  [.lab .labst, .exec 0 L.body] ++ L.others.map (.exec 0) ++ [.assign L.inc] ++
    L.after.map (.exec 0) ++ [.test L.te .labst]

/-- A use of the control variable. -/
def isUse (control : Nat) (e : Exp) : Bool := e.tag = .nameTag ∧ e.dec = control

mutual

/-- `replace(next(t), copy(sum), body)` for each use `t` of the control variable; the use is
`last`, so its `next` is what it is an argument of. -/
def replaceUses (control : Nat) (sum : Exp) : Exp → Exp
  | .mk n args =>
      if args.getLast?.any (isUse control) then sum
      else .mk n (replaceUsesList control sum args)

def replaceUsesList (control : Nat) (sum : Exp) : List Exp → List Exp
  | [] => []
  | a :: rest => replaceUses control sum a :: replaceUsesList control sum rest

end

/-- `int_inverse_ntest`. -/
def intInverseNtest : Nat → Nat
  | 1 => 4
  | 2 => 3
  | 3 => 2
  | 4 => 1
  | 5 => 6
  | 6 => 5
  | _ => 0

/-- `settest_number`. -/
def settestNumber (e : Exp) (nt : Nat) : Exp :=
  .mk { e.node with props := (e.node.props - testNumber e.node) + nt } e.args

namespace Loop

variable (L : Loop)

/-- `inc_offset`. -/
def incOffset (namesIndex i : Nat) : Exp :=
  if namesIndex > 0 then
    replaceUses L.control (meB3 L.konst.sh (meU3 L.konst.sh L.var .contTag)
      (meShint L.konst.sh (BitVec.ofInt 32 (i * L.konst.no))) .plusTag) L.body
  else L.body

/-- The assignment with `times * konst` in the place of `konst`. -/
def newInc (times : Nat) : Exp :=
  .mk L.inc.node [L.var, .mk L.val.node [L.val.args.headD L.val,
    meShint L.konst.sh (BitVec.ofInt 32 (times * L.konst.no))]]

/-- The number of rounds modulo `times`, as `id` is declared. -/
def remainder (times : Nat) : Exp :=
  let sha := L.konst.sh
  let limit : Exp := .mk { L.limit.node with sh := sha } L.limit.args
  let temp := meB3 sha limit (meU3 sha L.var .contTag) .minusTag
  let temp := if L.nt = Ntest.greaterThan.code then meB3 sha temp (meShint sha 1) .plusTag else temp
  meB3 sha temp (meShint sha (BitVec.ofNat 32 (times - 1))) .andTag

/-- The tests of `id`. -/
def dispatch (times : Nat) : List Instr :=
  .testId .notEqual 0 (.branch times) ::
    (List.range' 1 (times - 2)).map fun i =>
      .testId .notEqual (BitVec.ofNat 32 i) (.branch (times - i - 1))

/-- A preliminary. -/
def preliminary (i : Nat) : List Instr :=
  [.lab (.branch i), .exec 0 L.body, .assign L.inc, .goto (.branch (i + 1))]

/-- What `unroll_trans` puts in the place of the loop. -/
def unrollTrans (namesIndex times : Nat) : List Instr :=
  .startId (L.remainder times) :: dispatch times ++ [.goto (.branch 0)] ++
    (List.range (times - 1)).flatMap L.preliminary ++
    [.lab (.branch (times - 1)),
      .test (settestNumber L.te (intInverseNtest L.nt)) (.branch (times + 1)),
      .goto (.branch times)] ++
    .lab (.branch times) :: .lab .lrep :: .exec 0 L.body ::
      (List.range' 1 (times - 1)).map (fun i => .exec i (L.incOffset namesIndex i)) ++
    [.assign (L.newInc times), .test L.te .lrep, .goto (.branch (times + 1)),
      .lab (.branch (times + 1))]

end Loop

/-- `unroller` on a loop, as far as the test is eliminated: the loop, and the code that takes its
place. -/
def unroller (alpha : Bool) (decs : Nat → Dec) (candidate : Exp) :
    Option (Loop × List Instr) := do
  let L ← findLoop decs candidate
  let (lia, ul) := limitAlias decs L.limit
  -- the father of the body is the holder of the statements
  let holder : Node := ⟨.holderTag, topShape, 0, 0, none, 0⟩
  let (count, s) := unrollComplex alpha decs L.control lia ul L.body [(holder, L.others)] LIMIT 1
    ⟨0, true, []⟩
  if count ≥ 0 ∧ s.allowDouble ∧ L.konst.no = 1 ∧
      (L.nt = Ntest.greaterThan.code ∨ L.nt = Ntest.greaterThanOrEqual.code) ∧
      permitted decs L.limit then
    some (L, L.unrollTrans s.namesIndex unrollBy)
  else none

/-! ## What the code does -/

/-- The value of an expression on words of 32 bits. -/
@[grind =] def word (vars : Nat → BitVec 32) : Exp → BitVec 32
  | .mk n args =>
      match n.tag, args with
      | .valTag, _ => BitVec.ofInt 32 n.no
      | .nameTag, _ => vars n.dec
      | .contTag, [a] => word vars a
      | .plusTag, [a, b] => word vars a + word vars b
      | .minusTag, [a, b] => word vars a - word vars b
      | .andTag, [a, b] => word vars a &&& word vars b
      | _, _ => 0

/-- What a statement does, put together from what its parts do. A part is an integer where that
is known, and the sum of two integers is taken as one. -/
structure Meaning (V : Type) where
  op : Node → List V → V
  int : BitVec 32 → V
  val_eq : ∀ sh i, op ⟨.valTag, sh, BitVec.toInt i, 0, none, 0⟩ [] = int i
  plus_eq : ∀ sh i j, op ⟨.plusTag, sh, 0, 0, none, 0⟩ [int i, int j] = int (i + j)

mutual

/-- What a statement does where the control variable has the value `x`. -/
def Meaning.eval {V : Type} (M : Meaning V) (control : Nat) (x : BitVec 32) : Exp → V
  | .mk n args =>
      if isContOf control (.mk n args) then M.int x else M.op n (M.evalList control x args)

def Meaning.evalList {V : Type} (M : Meaning V) (control : Nat) (x : BitVec 32) :
    List Exp → List V
  | [] => []
  | a :: rest => M.eval control x a :: M.evalList control x rest

end

/-- The variables, the value of `id`, and what has been executed: for which value of the control
variable, and what it did. -/
structure World (V : Type) where
  vars : Nat → BitVec 32
  id : BitVec 32
  seen : List (BitVec 32 × V)

/-- An instruction is executed. The statements of the loop change neither the control variable
nor the limit. -/
@[grind =] def step {V : Type} (M : Meaning V) (control : Nat) : Instr → World V →
    Option (World V × Next Label)
  | .lab _, s => some (s, .step)
  | .goto l, s => some (s, .jump l)
  | .exec i e, s =>
      let x := s.vars control
      some ({ s with seen := s.seen ++ [(x + BitVec.ofNat 32 i, M.eval control x e)] }, .step)
  | .assign (.mk _ [dest, val]), s =>
      some ({ s with vars := fun d => if d = dest.dec then word s.vars val else s.vars d }, .step)
  | .assign _, _ => none
  | .test (.mk n [a, b]) l, s =>
      (Ntest.ofCode (testNumber n)).map fun nt =>
        (s, if nt.holds (word s.vars a).toInt (word s.vars b).toInt then .step else .jump l)
  | .test _ _, _ => none
  | .startId e, s => some ({ s with id := word s.vars e }, .step)
  | .testId nt i l, s => some (s, if nt.holds s.id.toInt i.toInt then .step else .jump l)

/-- The machine of these programs. -/
def machine {V : Type} (M : Meaning V) (control : Nat) : Machine Instr (World V) Label where
  exec := step M control
  label
    | .lab l => some l
    | _ => none

end Tendra.Ref.Unroll
