import Tendra.Ref.Refactor

/-!
# Loops over arrays: `refactor/foralls.c`

`do_one_rep` looks for counters: variables that a loop only increments and reads. Beside the
increment it keeps a variable X. `weaken` makes one that has the address of an element in it, and
`scale_loopid` one with the scaled counter. Where a test against a limit is the only use that is
left of the counter, `remove_incr` and `remove_incr2` make the test on X instead, and the increment
goes.

What is built is given by its parts: the definition of X, what is assigned to it beside the
increment, the definition of the limit, and the test. A declaration is known by its number. A C
`int` has 32 bits, and so have pointers and offsets.
-/

namespace Tendra.Ref.Foralls

/-- The macros of `local/foralls.h`. -/
structure Target where
  removeUnusedCounters : Bool
  removeUnusedIndexCounters : Bool
  goodIndexFactor : Int → Bool
  goodPointerFactor : Int → Bool

/-- The value of a C `int`. -/
def cInt (v : Int) : Int := (BitVec.ofInt 32 v).toInt

def slongsh : Shape := intShape 32 true

/-- `f_pointer`. -/
def fPointer (al : Nat) : Shape := ⟨.ptrhd, 32, false, 32, al, 1⟩

/-- `f_offset`. -/
def fOffset (al1 al2 : Nat) : Shape := ⟨.offsethd, 32, true, 32, al1, al2⟩

/-- A constant with the number `no`. -/
def valExp (sh : Shape) (no : Int) : Exp := .mk ⟨.valTag, sh, no, 0, none, 0⟩ []

/-- A use of a declaration. -/
def nameExp (sh : Shape) (dec : Nat) : Exp := .mk ⟨.nameTag, sh, 0, 0, none, dec⟩ []

/-- The shape of the `child`. -/
def childSh (e : Exp) : Shape := (e.args.map Exp.sh).headD topShape

/-- The contents of the variable that `ld` is a use of. -/
def isCont (ld : Node) : Exp → Bool
  | .mk n [.mk a _] => n.tag = .contTag ∧ a.tag = .nameTag ∧ a.dec = ld.dec ∧ a.no = ld.no
  | _ => false

/-! ## The variable beside the counter -/

/-- The variable X: its declaration, its definition, and what is assigned to it. -/
structure Reduction where
  x : Nat
  init : Exp
  step : Exp

/-- `extract_addptrs`. -/
def extractAddptrs (x : Nat) (addptr inc : Exp) (inci : Int) (cons : Bool) : Reduction :=
  let cont := meU3 addptr.sh (nameExp (fPointer addptr.sh.align) x) .contTag
  if cons ∨ inc.no ≠ 0 then
    let mult := if cons then cInt (inci * 8) else cInt (inc.no * inci)
    ⟨x, addptr, .mk ⟨.reffTag, addptr.sh, mult, 0, none, 0⟩ [cont]⟩
  else
    let prod :=
      if inci < 0 then
        meU3 inc.sh (meB3 inc.sh (valExp inc.sh (cInt (-inci))) inc .offsetMultTag) .negTag
      else meB3 inc.sh (valExp inc.sh inci) inc .offsetMultTag
    ⟨x, addptr, meB3 addptr.sh cont prod .addptrTag⟩

/-- `scale_loopid`, for a counter whose contents have the shape `shvar`. -/
def scaleLoopid (x : Nat) (offsetMult : Exp) (shvar : Shape) (stride inci : Int) : Reduction :=
  let cont := meU3 offsetMult.sh (nameExp shvar x) .contTag
  let inc := valExp offsetMult.sh (cInt (cInt (stride * 8) * inci))
  ⟨x, offsetMult, meB3 offsetMult.sh cont inc .plusTag⟩

/-- What `weaken` leaves, with `multiplier` and `arraystep`. -/
structure Weakened where
  red : Reduction
  multiplier : Int
  arraystep : Int

/-- `weaken`, for an address whose base is invariant in a loop with one increment. -/
def weaken (x : Nat) (addptr : Exp) (inci : Int) : Option Weakened :=
  match addptr.args with
  | [_, minc] =>
      if minc.tag = .contTag then
        some ⟨extractAddptrs x addptr minc inci true, inci, 1⟩
      else
        match minc.args with
        | [_, inc] =>
            some ⟨extractAddptrs x addptr inc inci false, cInt (inci * (inc.no / 8)), inc.no / 8⟩
        | _ => none
  | _ => none

/-! ## The limit -/

/-- `limexp`, and whether the limit is `last`. -/
def limexp (ld : Node) : Exp → Option (Exp × Bool)
  | .mk _ [lh, rh] =>
      if isCont ld lh then some (rh, true)
      else if isCont ld rh then some (lh, false)
      else none
  | _ => none

/-- `limaddptr`. -/
def limaddptr (arr val : Exp) (m : Int) : Exp :=
  if m = 1 then meB3 arr.sh arr val .addptrTag
  else
    let s := fOffset arr.sh.al1 arr.sh.al1
    meB3 arr.sh arr (meB3 s val (valExp s (cInt (m * 8))) .offsetMultTag) .addptrTag

/-- `limmult`; `sh` is the shape of the `child` of `arr`. -/
def limmult (sh : Shape) (val : Exp) (m : Int) : Exp := meB3 sh val (valExp sh m) .multTag

/-- `limreff`. -/
def limreff (arr : Exp) (bytedisp : Int) : Exp :=
  if bytedisp = 0 then arr else .mk ⟨.reffTag, arr.sh, cInt (bytedisp * 8), 0, none, 0⟩ [arr]

/-- `limconst`. -/
def limconst (bytedisp : Int) : Exp := valExp slongsh bytedisp

/-- The definition that `limdec` puts after that of X, where `arr` is the base. -/
def limdec (arr val : Exp) (mult : Int) : Exp :=
  if val.tag ≠ .valTag then limaddptr arr val mult else limreff arr (cInt (mult * val.no))

/-! ## The test -/

/-- What becomes of the loop: the definition of the limit, if one is declared, and what takes the
place of the test and of the increment. -/
structure Removed where
  limit : Option Exp
  test : Exp
  incr : Exp

/-- `ntestx`; the limit stands where `le` has stood. -/
def ntestx (test : Exp) (last : Bool) (clda ldn : Exp) : Exp :=
  .mk { test.node with dec := 0 } (if last then [clda, ldn] else [ldn, clda])

/-- The increment, when its tag has become `top_tag`. -/
def topOf (incr : Exp) : Exp := .mk { incr.node with tag := .topTag } []

/-- `remove_incr`; `nd` is the declaration of the limit, and `ld` the destination of `incr`. -/
def removeIncr (nd : Nat) (R : Reduction) (ld : Node) (test incr : Exp) (mult : Int) :
    Option Removed :=
  match limexp ld test, R.init.args with
  | some (le, last), arr :: _ =>
      let ninit := limdec arr le mult
      let clda := meU3 R.init.sh (nameExp (fPointer R.init.sh.align) R.x) .contTag
      some ⟨some ninit, ntestx test last clda (nameExp ninit.sh nd), topOf incr⟩
  | _, _ => none

/-- `remove_incr2`. -/
def removeIncr2 (T : Target) (nd : Nat) (R : Reduction) (ld : Node) (test incr : Exp)
    (mult : Int) : Option Removed :=
  match limexp ld test, R.init.args with
  | some (le, last), arr :: _ =>
      let clda := meU3 slongsh (nameExp (fPointer R.init.sh.align) R.x) .contTag
      if le.tag = .valTag then
        some ⟨none, ntestx test last clda (limconst (cInt (mult * le.no))), topOf incr⟩
      else if T.removeUnusedIndexCounters then
        let ninit := limmult (childSh arr) le mult
        some ⟨some ninit, ntestx test last clda (nameExp ninit.sh nd), topOf incr⟩
      else none
  | _, _ => none

/-! ## The tests that are found -/

/-- What a use stands in, innermost first, each with the place among its arguments. -/
abbrev Up := List (Exp × Nat)

mutual

/-- The uses of a declaration. -/
@[grind =] def sites (dec : Nat) : Up → Exp → List (Node × Up)
  | up, .mk n args =>
      (if n.tag = .nameTag ∧ n.dec = dec then [(n, up)] else []) ++
        sitesList dec (.mk n args) 0 up args

@[grind =] def sitesList (dec : Nat) (e : Exp) (i : Nat) : Up → List Exp → List (Node × Up)
  | _, [] => []
  | up, a :: rest => sites dec ((e, i) :: up) a ++ sitesList dec e (i + 1) up rest

end

/-- `usage_in`: 2 for a use in a part of a construct, and 1 for others; a global declaration ends
the search. -/
def usageIn (up : Up) : Nat :=
  if up.dropLast.any fun (q, _) => q.tag = .identTag && ptst q.props 0x40 then 0
  else if up.any fun (q, _) => q.tag = .condTag ∨ q.tag = .repTag ∨ q.tag = .solveTag then 2
  else 1

/-- The test that a use is an operand of, if it leaves the loop with the label `lab`. -/
def testOf (lab : Nat) : Up → Option Exp
  | (.mk c [_], _) :: (dad, _) :: _ =>
      if c.tag = .contTag ∧ dad.tag = .testTag ∧ dad.pt = some lab then some dad else none
  | _ => none

/-- The tests that `find_common_index` and `find_pointer_opt` hand to `collect_loopthings`. -/
def loopTests (ld : Node) (lab : Nat) (body : Exp) : List Exp :=
  ((sites ld.dec [] body).filter fun (p, up) => p.no = ld.no ∧ usageIn up ≠ 0).filterMap
    fun (_, up) => testOf lab up

/-! ## What a loop assigns to -/

/-- A declaration, as the scans read it; `constInLoop` and `subvar` are further properties. -/
structure Decl extends Dec where
  constInLoop : Bool
  subvar : Bool
  init : Exp

/-- The static variables of the scan. An entry of `altered` is a name, with a flag that says whether
it is always assigned to; one of `incrs` has the number of increments besides. -/
structure Scan where
  everytime : Bool
  altered : List (Node × Bool)
  assignAlias : Bool
  jumpOut : Bool
  incrs : List (Exp × Bool × Nat)

/-- `isaltered`. -/
def Scan.isaltered (s : Scan) (ld : Node) (always : Bool) : Scan :=
  if s.altered.any (·.1.dec = ld.dec) then
    { s with altered := s.altered.map fun z =>
        if z.1.dec = ld.dec then (z.1, z.2 && always) else z }
  else { s with altered := (ld, always) :: s.altered }

/-- The use of a field of a declaration. -/
def isName (a : Node) (e : Exp) : Bool := e.tag = .nameTag ∧ e.dec = a.dec ∧ e.no = a.no

/-- The destination of an assignment. -/
def destOf (e : Exp) : Node := (e.args.headD e).node

/-- `collect_incrs`. -/
def Scan.collectIncrs (s : Scan) (incr : Exp) : Scan :=
  let same (z : Exp × Bool × Nat) : Bool :=
    (destOf z.1).dec = (destOf incr).dec ∧ (destOf z.1).no = (destOf incr).no
  if s.incrs.any same then
    { s with incrs := s.incrs.map fun z =>
        if same z then (z.1, z.2.1 && s.everytime, z.2.2 + 1) else z }
  else { s with incrs := (incr, s.everytime, 1) :: s.incrs }

mutual

/-- An expression has a node of a kind in it. -/
def contains (f : Node → Bool) : Exp → Bool
  | .mk n args => f n || containsAny f args

def containsAny (f : Node → Bool) : List Exp → Bool
  | [] => false
  | e :: es => contains f e || containsAny f es

end

/-- `intnl_to`, for a declaration. -/
def declares (d : Nat) : Exp → Bool := contains fun n => n.tag = .identTag ∧ n.dec = d

/-- `intnl_to`, for a label. -/
def labels (l : Nat) : Exp → Bool := contains fun n => n.tag = .labstTag ∧ n.dec = l

/-- `incr_var`. -/
def incrVar : Exp → Bool
  | .mk n [dest, .mk s [a, v]] =>
      n.tag = .assTag ∧ dest.tag = .nameTag ∧ s.tag = .plusTag ∧ v.tag = .valTag ∧
        isName dest.node a
  | _ => false

section

variable (D : Nat → Decl)

/-- The assignment of `scan_for_incr` that increments a counter of `piece`. -/
def isIncr (piece dest src : Exp) : Bool :=
  let v := dest.node
  let other (up : Up) : Bool :=
    match up with
    | (.mk c [_], _) :: _ => c.tag ≠ .contTag
    | (dad, _) :: _ => !incrVar dad
    | [] => true
  match src.args with
  | [la, ra] =>
      dest.tag = .nameTag && (D v.dec).isvar && !(D v.dec).isglob && (D v.dec).iscaonly &&
        src.tag = .plusTag && ra.tag = .valTag && isCont v la && !declares v.dec piece &&
        -- no use but the destination itself
        ((sites v.dec [] piece).filter fun (_, up) => other up).length = 1
  | _ => false

/-- The name that an assignment to `dest` alters, if that is known. -/
def alteredName (dest : Exp) : Option Node :=
  let base (e : Exp) : Option Node :=
    match e.args with
    | a :: _ =>
        if e.tag = .addptrTag ∧ a.tag = .nameTag ∧ (D a.dec).isvar then some a.node else none
    | [] => none
  let under (e : Exp) : Exp := if e.tag = .reffTag then e.args.headD e else e
  if dest.tag = .nameTag then
    if (D dest.dec).isvar then some dest.node
    else if (D dest.dec).constInLoop then (base (under (D dest.dec).init)).map fun _ => dest.node
    else none
  else base (under dest)

mutual

/-- `scan_for_incr`, with `collect_incrs`. -/
def scanForIncr (piece : Exp) : Exp → Scan → Scan
  | .mk n args, s =>
      match n.tag, args with
      | .nameTag, _ | .envOffsetTag, _ => s
      | .assTag, [dest, src] =>
          if isIncr D piece dest src then s.collectIncrs (.mk n [dest, src])
          else
            let s :=
              match alteredName D dest with
              | some ld => s.isaltered ld s.everytime
              | none => { s with assignAlias := true }
            scanForIncr piece src (scanForIncr piece dest s)
      | .caseTag, a :: _ => { scanForIncr piece a s with everytime := false }
      | .gotoTag, as | .testTag, as | .testbitTag, as =>
          let x := n.pt.any (labels · piece)
          let s := scanFirst piece as (if x then s else { s with jumpOut := true })
          { s with everytime := s.everytime && !x }
      | .resTag, as => scanFirst piece as { s with jumpOut := true }
      | .solveTag, as | .repTag, as | .condTag, as =>
          { scanArms piece as s with everytime := s.everytime }
      | .applyTag, as => scanAll piece as { s with assignAlias := true }
      | _, as => scanAll piece as s

/-- The `child` alone. -/
def scanFirst (piece : Exp) : List Exp → Scan → Scan
  | [], s => s
  | a :: _, s => scanForIncr piece a s

def scanArms (piece : Exp) : List Exp → Scan → Scan
  | [], s => s
  | a :: rest, s => scanArms piece rest { scanForIncr piece a s with everytime := false }

def scanAll (piece : Exp) : List Exp → Scan → Scan
  | [], s => s
  | a :: rest, s => scanAll piece rest (scanForIncr piece a s)

end

/-- What `do_one_rep` has from `scan_for_incr`; `everytime` is what an earlier scan has left. -/
def scanLoop (everytime : Bool) (loop body : Exp) : Scan :=
  scanForIncr D loop body ⟨everytime, [], false, false, []⟩

mutual

/-- The shapes of the contents of a variable and of what is assigned to it, if there are no other
uses. -/
def useShapes (a : Node) : Exp → Option (List Shape)
  | .mk n args =>
      if n.tag = .nameTag ∧ n.dec = a.dec then none
      else
        match n.tag, args with
        | .contTag, [e] => if isName a e then some [n.sh] else useShapes a e
        | .assTag, [d, e] =>
            if isName a d then (useShapes a e).map (e.sh :: ·)
            else do return (← useShapes a d) ++ (← useShapes a e)
        | _, as => useShapesAll a as

def useShapesAll (a : Node) : List Exp → Option (List Shape)
  | [] => some []
  | e :: es => do return (← useShapes a e) ++ (← useShapesAll a es)

end

/-- The part of `do_one_rep` that finds a variable for `replace_var`, among those altered in the
loop. What it finds for a variable whose constant definition could be moved into the loop never
applies: that variable would have to be global. -/
def promoted (s : Scan) (loop body : Exp) (a : Node) : Option (List Shape) :=
  let d := D a.dec
  if !s.jumpOut && loop.sh.hd = .tophd && s.altered.any (·.1 = a) && a.tag = .nameTag &&
      (d.isglob || !d.isvar) && !d.subvar && (!s.assignAlias || (d.isvar && d.iscaonly)) &&
      !declares a.dec body &&
      (d.isvar || (sites (alteredBase d.init) [] body).isEmpty) then
    useShapes a body
  else none
where
  /-- The declaration under `addptr` and `reff`. -/
  alteredBase (init : Exp) : Nat :=
    let w := if init.tag = .reffTag then init.args.headD init else init
    (w.args.headD w).dec

end

mutual

/-- The uses of `ld` become uses of the variable `x`. -/
def renameUses (ld : Node) (x : Nat) : Exp → Exp
  | .mk n args =>
      if isName ld (.mk n args) then nameExp n.sh x else .mk n (renameUsesAll ld x args)

def renameUsesAll (ld : Node) (x : Nat) : List Exp → List Exp
  | [] => []
  | e :: es => renameUses ld x e :: renameUsesAll ld x es

end

/-- `replace_var`: what takes the place of the loop. The numbers of uses are left out. -/
def replaceVar (ld : Node) (x : Nat) (loop : Exp) (shcont : Shape) : Exp :=
  let def_ := meU3 shcont (.mk ld []) .contTag
  let contvar := meU3 shcont (nameExp ld.sh x) .contTag
  let ass := meB3 topShape (.mk { ld with props := 0 } []) contvar .assTag
  let seqh : Exp := .mk ⟨.holderTag, topShape, 0, 0, none, 0⟩ [renameUses ld x loop]
  .mk ⟨.identTag, loop.sh, 0, 0x101, none, x⟩ [def_, meB3 topShape seqh ass .seqTag]

/-! ## What the expressions mean -/

/-- The values of declarations and the contents of variables; a variable is known by its
declaration and the field. -/
structure Env where
  name : Nat → Int → Int
  cont : Nat → Int → Int

/-- An assignment. -/
def Env.assign (env : Env) (dec : Nat) (no v : Int) : Env :=
  { env with cont := fun d k => if d = dec ∧ k = no then v else env.cont d k }

/-- The value of an expression. Offsets count bits, and their values bytes. -/
@[grind =] def value (p : Pool) (env : Env) : Exp → Int
  | .mk n args =>
      match n.tag, args with
      | .valTag, _ => if n.sh.hd = .offsethd then n.no / 8 else constVal p n
      | .nameTag, _ => env.name n.dec n.no
      | .contTag, [.mk a _] => env.cont a.dec a.no
      | .plusTag, [a, b] | .addptrTag, [a, b] => n.sh.wrap (value p env a + value p env b)
      | .multTag, [a, b] | .offsetMultTag, [a, b] => n.sh.wrap (value p env a * value p env b)
      | .negTag, [a] => n.sh.wrap (-value p env a)
      | .reffTag, [a] => n.sh.wrap (value p env a + n.no / 8)
      | _, _ => 0

/-- Whether a test holds. It compares in the shape of its first operand. -/
def outcome (p : Pool) (env : Env) : Exp → Option Bool
  | .mk n [a, b] =>
      (Ntest.ofCode (testNumber n)).map fun nt =>
        nt.holds (a.sh.wrap (value p env a)) (a.sh.wrap (value p env b))
  | _ => none

/-! ## Elements that are carried to the next iteration -/

/-- A cell of `contset`: what stands around an occurrence of the address, which is `cont(X)` by now,
and the number in the cell. -/
structure Cell where
  up : Up
  no : Nat

/-- The `cont` that an occurrence is the address of, with the displacement in bits. -/
structure Occ where
  w : Exp
  disp : Int
  no : Nat

/-- What `unwind` finds above an occurrence. -/
def occOf (z : Cell) : Option Occ :=
  match z.up with
  | (.mk w [c], _) :: up =>
      if w.tag = .contTag then some ⟨.mk w [c], 0, z.no⟩
      else
        match up with
        | (.mk v [r], _) :: _ =>
            if w.tag = .reffTag ∧ v.tag = .contTag then some ⟨.mk v [r], w.no, z.no⟩ else none
        | _ => none
  | _ => none

/-- `struct en`; the occurrences are chained, the last one first. -/
structure En where
  e : List Occ
  disp : Int

/-- Puts an occurrence into `s`, which is sorted by the displacements. -/
def place (incval : Int) (z : Occ) : List En → List En
  | [] => [⟨[z], z.disp⟩]
  | s :: rest =>
      if s.disp = z.disp then ⟨z :: s.e, s.disp⟩ :: rest
      else if (incval > 0 ∧ s.disp < z.disp) ∨ (incval < 0 ∧ s.disp > z.disp) then
        ⟨[z], z.disp⟩ :: s :: rest
      else s :: place incval z rest

/-- The array `s`, for the `n` cells of `contset`. -/
def sortConts (incval : Int) (n : Nat) (contset : List Cell) : List En :=
  ((contset.take n).filterMap occOf).foldl (fun s z => place incval z s) []

/-- A variable, for the contents at a displacement. One of `outer_cont` has the number of the
variable `lastid`, which it is assigned from before the increment. -/
structure Carried where
  en : En
  lastid : Option Nat

/-- `no(s[i].e)`. -/
def En.no (s : En) : Nat := (s.e.map Occ.no).headD 0

/-- `s[i].disp - incval*8 == s[i + 1].disp`. -/
def En.linked (incval : Int) (s : En) : List En → Bool
  | t :: _ => s.disp - cInt (incval * 8) = t.disp
  | [] => false

/-- The variables from the `k`-th on: of `inner_cont` or, if there is a `lastid`, `outer_cont`. -/
def carry (incval : Int) : Nat → Option Nat → List En → List Carried
  | _, _, [] => []
  | k, lastid, s :: rest =>
      if lastid ≠ none ∨ s.no > 1 ∨ s.linked incval rest then
        ⟨s, lastid⟩ :: carry incval (k + 1) (if s.linked incval rest then some k else none) rest
      else carry incval k none rest

/-- `unwind`: the variables that are declared, in order. -/
def unwind (incval : Int) (n : Nat) (contset : List Cell) : List Carried :=
  carry incval 0 none (sortConts incval n contset)

end Tendra.Ref.Foralls
