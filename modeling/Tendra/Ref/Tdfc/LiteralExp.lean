import Tendra.Ref.Tdfc.FloatLit
import Tendra.Ref.Tdfc.Range

/-!
# Integer and floating literals: `tdfc2/src/common/parse/literal.c`

The type of an integer literal is looked for in a specification, a list of items; the
specifications come from pragmas, or from the table `int_lit_tok`. Types are known by the
tables that the functions look them up in. Sets of types are lists, of which `uniq_type_set`
keeps one for each set; the memory of these lists is left out.

A floating literal is cut up in place: the text is a list of characters with the null character
behind it, and what is left of it is part of the result.
-/

namespace Tendra.Ref.Tdfc.Literal

/-! ## Tables -/

/-- `BASE_DECIMAL` and so on. -/
inductive Base
  | decimal
  | octal
  | hexadecimal
deriving DecidableEq, Repr

/-- `SUFFIX_NONE` and so on. -/
inductive Suffix
  | none
  | u
  | l
  | ul
  | ll
  | ull
deriving DecidableEq, Repr

/-- `SUFFIX`. -/
def suffix (us : Bool) (ls : Nat) : Suffix :=
  match us, ls with
  | false, 0 => .none
  | true, 0 => .u
  | false, 1 => .l
  | true, 1 => .ul
  | false, _ => .ll
  | true, _ => .ull

/-- `suff < SUFFIX_LL`. -/
def Suffix.isShort : Suffix → Bool
  | .ll | .ull => false
  | _ => true

/-- The built-in types from `ntype_sint` to `ntype_ullong`. -/
inductive Builtin
  | sint
  | uint
  | slong
  | ulong
  | sllong
  | ullong
deriving DecidableEq, Repr

/-- The types from `ntype_sint` on, in the order of the table. -/
def builtins : List Builtin := [.sint, .uint, .slong, .ulong, .sllong, .ullong]

/-- The column `type` of `int_lit_tok`. -/
def intLitType : Base → Suffix → List Nat
  | .decimal, .none => [2, 0, 2, 2, 1, 1]
  | _, .none => [2, 2, 2, 2, 1, 1]
  | _, .u => [0, 2, 0, 2, 0, 1]
  | _, .l => [0, 0, 2, 2, 1, 1]
  | _, .ul => [0, 0, 0, 2, 0, 1]
  | _, .ll => [0, 0, 0, 0, 2, 2]
  | _, .ull => [0, 0, 0, 0, 0, 2]

/-- The column `tok` of `int_lit_tok`, as numbered in `output/tok.h`. -/
def intLitTok : Base → Suffix → Int
  | .decimal, .none => 23
  | _, .none => 24
  | _, .u => 25
  | _, .l => 26
  | _, .ul => 27
  | _, .ll => 28
  | _, .ull => 29

/-- The types of the list for a base and a suffix. -/
def listed (b : Base) (s : Suffix) : List Builtin :=
  ((builtins.zip (intLitType b s)).filter fun p => p.2 = 2).map Prod.fst

/-- What is looked up about types and about the tokens that compute types. -/
structure Tables (T I : Type) where
  size : T → TypeSize
  /-- `basetype_info[ntype_ellipsis].max_bits`. -/
  maxBits : Nat
  builtin : Builtin → T
  isInteger : T → Bool
  /-- `IS_type_error`. -/
  isError : T → Bool
  isArgPromote : T → Bool
  promoteType : T → T
  /-- `itype_cases`. -/
  cases : T → List T
  resolveToken : I → Option I
  builtinToken : I → Int

theorem least_int_lt : 16 < 2 ^ 32 := by decide

theorem least_long_lt : 32 < 2 ^ 32 := by decide

theorem greatest_lt : 0xffffffff < 2 ^ 32 := by decide

/-- The sizes and signs in the table `basetype_info`, before it is changed. -/
def basicSize : Builtin → TypeSize
  | .sint => ⟨16, 0xffffffff, btypeSigned, least_int_lt, greatest_lt⟩
  | .uint => ⟨16, 0xffffffff, btypeUnsigned, least_int_lt, greatest_lt⟩
  | .slong => ⟨32, 0xffffffff, btypeSigned, least_long_lt, greatest_lt⟩
  | .ulong => ⟨32, 0xffffffff, btypeUnsigned, least_long_lt, greatest_lt⟩
  | .sllong => ⟨32, 0xffffffff, btypeSigned, least_long_lt, greatest_lt⟩
  | .ullong => ⟨32, 0xffffffff, btypeUnsigned, least_long_lt, greatest_lt⟩

/-- The tables where there are the built-in types only. -/
def basicTables : Tables Builtin Empty where
  size := basicSize
  maxBits := 0xffffffff
  builtin := id
  isInteger _ := true
  isError _ := false
  isArgPromote _ := true
  promoteType := id
  cases t := [t]
  resolveToken i := i.elim
  builtinToken i := i.elim

/-- `OPT_none`, `OPT_error` and `OPT_warning`. -/
inductive Opt
  | none
  | error
  | warning
deriving DecidableEq, Repr

/-- `LITERAL_INFO`. The type, the bound and the token may be null. -/
structure Info (T I : Type) where
  tag : Nat
  type : Option T
  bound : Option NatConst
  tok : Option I
  tokNo : Int
  opt : Opt

/-- The reports of this file that are made here. -/
inductive Report (T : Type)
  | pragmaLitType (t : T)
  | pragmaLitRange (n : Option NatConst) (t : T)
  | pragmaLitQuestion
  | iconLarge (bound : Option NatConst) (opt : Opt)
  | iconOctal
  | iconLlong
  | literalBad
deriving DecidableEq, Repr

section

variable {T I : Type} (w : Word) (ty : Tables T I)

/-- `max_type_value`, of a type or of the null type. -/
def maxValue (t : Option T) : Option NatConst := maxTypeValue w.bits ty.maxBits ty.size t false

/-! ## Specifications -/

/-- A specification as it is built, and the reports. The last item is `crt_int_lit`. -/
abbrev Spec (T I : Type) := List (Info T I) × List (Report T)

/-- `begin_literal`. -/
def beginLiteral : Spec T I := ([], [])

/-- `add_range_literal`, where `e` is the constant of the literal expression, if it is one. -/
def addRangeLiteral (e : Option NatConst) (n : Nat) (spec : Spec T I) : Spec T I :=
  (spec.1 ++ [⟨n, none, some (e.getD (.small 0)), none, -1, .none⟩], spec.2)

/-- A change of the last item. -/
def Spec.change (spec : Spec T I) (f : Info T I → Info T I × List (Report T)) : Spec T I :=
  match spec.1.getLast? with
  | none => spec
  | some p => (spec.1.dropLast ++ [(f p).1], spec.2 ++ (f p).2)

/-- `add_type_literal`. -/
def addTypeLiteral (t : T) (spec : Spec T I) : Spec T I :=
  spec.change fun p =>
    let r :=
      if ty.isInteger t then
        if ¬ty.isArgPromote t then (ty.promoteType t, [.pragmaLitType t]) else (t, [])
      else (ty.builtin .ulong, if ty.isError t then [] else [.pragmaLitType t])
    let t := r.1
    let n :=
      if p.tag = 2 then
        if (p.bound.map (checkSimpleRange ty.maxBits ty.size t)) ≠ some 0 then
          (maxValue w ty (some t), [.pragmaLitRange p.bound t])
        else (p.bound, [])
      else (maxValue w ty (some t), [])
    ({ p with type := some t, bound := n.1 }, r.2 ++ n.2)

/-- `add_token_literal`. -/
def addTokenLiteral (id : Option I) (sev : Opt) (spec : Spec T I) : Spec T I :=
  spec.change fun p =>
    let id := id.bind ty.resolveToken
    let r := if p.tag = 1 then (3, [.pragmaLitQuestion]) else (p.tag, [])
    ({ p with tag := r.1, tok := id, tokNo := (id.map ty.builtinToken).getD (-1), opt := sev }, r.2)

/-- The specification of a list of types as `init_literal` makes it; `opt` is the severity of
`OPT_int_overflow`. -/
def initSpec (opt : Opt) (ts : List T) : Spec T I :=
  addTokenLiteral ty none opt
    (addRangeLiteral none 0
      (ts.foldl (fun spec t => addTypeLiteral w ty t (addRangeLiteral none 1 spec)) beginLiteral))

/-- The column `cases` of `int_lit_tok`, as `init_literal` makes it. -/
def listedTypes (b : Base) (s : Suffix) : List T := (listed b s).map ty.builtin

/-! ## `find_literal_type` -/

/-- A type of the list, or a literal type. -/
inductive LitType (T I : Type)
  | type (t : T)
  | literal (cases : List T) (lit : NatConst) (tok : Int) (base : Base) (suff : Suffix)
      (id : Option I)

/-- The possible types. -/
def LitType.cases : LitType T I → List T
  | type t => [t]
  | literal cases .. => cases

/-- The variables of the loop. -/
structure Search (T : Type) where
  big : Nat
  haveTok : Nat
  n : Option NatConst
  types : List T
  fit : Bool

variable [DecidableEq T]

/-- `union_type_set`. -/
def unionTypeSet (p q : List T) : List T := q.foldl (fun p t => if t ∈ p then p else t :: p) p

/-- The first part of the body of the loop, which computes `ch`. An item of tag 1 has a type. -/
def checkInfo (lit : NatConst) (pt : Info T I) (st : Search T) : Nat × Search T :=
  match pt.tag with
  | 0 =>
      let ch := checkSimpleRange ty.maxBits ty.size (pt.type.getD (ty.builtin .ulong)) lit
      let big := if ch > 4 then ch else st.big
      (big,
        { st with
          fit := st.fit || ch = 0
          big := big
          n := if big ≠ 0 then maxValue w ty none else st.n })
  | 1 =>
      let ch := (pt.type.map fun s => checkSimpleRange ty.maxBits ty.size s lit).getD 4
      (ch, { st with n := pt.bound, fit := st.fit || ch = 0 })
  | 2 =>
      if (pt.bound.map fun n => decide (compareNat n lit ≥ 0)) = some true then
        (0, { st with n := pt.bound, fit := st.fit || pt.type.isSome })
      else (4, { st with n := pt.bound })
  | _ => (4, st)

/-- The list of types that a token chooses from. -/
def tokenTypes (base : Base) (suff : Suffix) (tokNo : Int) : List T :=
  if tokNo = intLitTok base suff then listedTypes ty base suff
  else if suff.isShort then [Builtin.sint, .uint, .slong, .ulong].map ty.builtin
  else builtins.map ty.builtin

/-- The loop: a type to return, or how the loop ends and the item that it ends at. -/
@[grind =] def findLoop (base : Base) (suff : Suffix) (lit : NatConst) :
    List (Info T I) → Search T → (T × Bool) ⊕ (Search T × Option (Info T I))
  | [], st => .inr (st, none)
  | pt :: rest, st =>
      let c := checkInfo w ty lit pt st
      let ch := c.1
      let st := c.2
      match pt.type with
      | some s =>
          if ch = 0 ∧ st.types = [] then .inl (s, st.fit)
          else
            let st :=
              if ch ≤ 2 ∧ st.haveTok = 0 then
                { st with
                  types := unionTypeSet st.types (ty.cases s)
                  haveTok := if ch = 0 then 1 else 0 }
              else st
            findLoop base suff lit rest { st with big := if ch > 4 then ch else st.big }
      | none =>
          if ch ≤ 2 then
            if st.haveTok = 0 ∧ pt.tok.isSome then
              .inr ({ st with types := tokenTypes ty base suff pt.tokNo, haveTok := 2 }, some pt)
            else .inr (st, some pt)
          else findLoop base suff lit rest { st with big := if ch > 4 then ch else st.big }

/-- `find_literal_type` on a simple constant without a sign: the type, whether the constant is
known to fit, and the report, which is made if `num` is not null. -/
def findSimpleType (spec : List (Info T I)) (base : Base) (suff : Suffix) (lit : NatConst) :
    LitType T I × Bool × List (Report T) :=
  match findLoop w ty base suff lit spec ⟨0, 0, some (.small 0), [], false⟩ with
  | .inl r => (.type r.1, r.2, [])
  | .inr (st, pt) =>
      let qt :=
        if st.haveTok = 2 then st.types
        else if st.types = [] then listedTypes ty base suff else st.types.reverse
      let tid := pt.bind Info.tok
      let opt := (pt.map Info.opt).getD .error
      let t := match qt with
        | [t] => LitType.type t
        | qt => .literal qt lit (intLitTok base suff) base suff tid
      (t, st.fit, if st.fit then [] else [.iconLarge st.n opt])

/-- The type of an expression. -/
def typeOf {T : Type} : Exp T → T
  | .intLit t _ _ => t
  | .cast t _ _ => t

/-- `find_literal_type`. -/
def findLiteralType (spec : Base → Suffix → List (Info T I)) (base : Base) (suff : Suffix) :
    NatValue (Exp (LitType T I)) → LitType T I × Bool × List (Report T)
  | .simple n => findSimpleType w ty (spec base suff) base suff (stripNeg n).1
  | .calc e => (typeOf e, true, [])

end

/-! ## The text -/

/-- `char_dot`. -/
abbrev charDot : UInt8 := 46

/-- `char_plus`. -/
abbrev charPlus : UInt8 := 43

/-- `char_minus`. -/
abbrev charMinus : UInt8 := 45

/-- The character at a place, which is the null character behind the text. -/
def charAt (mem : List UInt8) (i : Nat) : UInt8 := mem.getD i 0

/-- `char_e` or `char_E`. -/
def isExp (c : UInt8) : Bool := c = 101 || c = 69

/-- `char_f` or `char_F`. -/
def isF (c : UInt8) : Bool := c = 102 || c = 70

/-- `char_l` or `char_L`. -/
def isL (c : UInt8) : Bool := c = 108 || c = 76

/-- `char_u` or `char_U`. -/
def isU (c : UInt8) : Bool := c = 117 || c = 85

/-- `char_x` or `char_X`. -/
def isX (c : UInt8) : Bool := c = 120 || c = 88

/-- `char_plus` or `char_minus`. -/
def isSign (c : UInt8) : Bool := c = charPlus || c = charMinus

/-- `check_digits`, on places. -/
def digitsEnd (mem : List UInt8) (base i : Nat) : Nat :=
  mem.length - (checkDigits base (mem.drop i)).length

/-- What `make_literal_exp` finds out before it looks at the suffix. -/
structure Scanned where
  form : Base
  base : Nat
  flt : Bool
  err : Bool
  dotPosn : Option Nat
  expPosn : Nat
  posn : Nat
  octal : Bool
deriving DecidableEq, Repr

/-- The digits before the exponent: `dot_posn`, the place behind them, `err` and `flt`. -/
def scanDigitsDot (mem : List UInt8) (str : Nat) : Option Nat × Nat × Bool × Bool :=
  if charAt mem str = charDot then
    let s := digitsEnd mem 10 (str + 1)
    (some str, s, s = str + 1, true)
  else
    let s := digitsEnd mem 10 str
    if charAt mem s = charDot then (some s, digitsEnd mem 10 (s + 1), s = str, true)
    else (none, s, s = str, false)

/-- The exponent: the place behind it, and whether its digits are missing. -/
def scanExponent (mem : List UInt8) (s : Nat) : Nat × Bool :=
  let r := (if isSign (charAt mem (s + 1)) then s + 1 else s) + 1
  let s := digitsEnd mem 10 r
  (s, s = r)

/-- The first part of `make_literal_exp`, without the signs. -/
def scanLiteral (mem : List UInt8) (str : Nat) : Scanned :=
  let c1 := charAt mem str
  if c1 = charZero ∧ isX (charAt mem (str + 1)) then
    let s := digitsEnd mem 16 (str + 2)
    ⟨.hexadecimal, 16, false, s = str + 2, none, 0, s, false⟩
  else
    let (dotPosn, expPosn, err, flt) := scanDigitsDot mem str
    let (s, err, flt) :=
      if isExp (charAt mem expPosn) then
        let r := scanExponent mem expPosn
        (r.1, err || r.2, true)
      else (expPosn, err, flt)
    if c1 = charZero ∧ ¬flt then
      ⟨.octal, 8, flt, err, dotPosn, expPosn, s, digitsEnd mem 8 str ≠ s⟩
    else ⟨.decimal, 10, flt, err, dotPosn, expPosn, s, false⟩

/-! ## Floating literals -/

/-- `type_float`, `type_double` and `type_ldouble`. -/
inductive FloatType
  | float
  | double
  | ldouble
deriving DecidableEq, Repr

/-- A string: a place in the text, or one of the array `small_number`. -/
inductive Part
  | text (i : Nat)
  | small (n : Nat)
deriving DecidableEq, Repr

/-- `small_number`. -/
def smallNumber (n : Nat) : List UInt8 := if n = 0 then [48] else [49]

/-- The string that begins at a place. -/
def Part.string (mem : List UInt8) : Part → List UInt8
  | text i => (mem.drop i).takeWhile (· ≠ 0)
  | small n => smallNumber n

/-- `get_float`, in the list that `init_float` makes. -/
def getFloat (n : Nat) : Option FloatLit :=
  [⟨smallNumber 0, smallNumber 0, .small 0⟩, ⟨smallNumber 1, smallNumber 0, .small 0⟩][n]?

/-- The place behind the zeros. -/
def zerosEnd (mem : List UInt8) (i : Nat) : Nat :=
  mem.length - ((mem.drop i).dropWhile (· = charZero)).length

/-- The loop that removes trailing zeros, from `frac_zero` back, where `n` have been removed: the
text, `frac_zero` and `trail_zero`. It ends before it leaves the text. -/
@[grind =] def stripZeros : Nat → List UInt8 → Nat → List UInt8 × Nat × Nat
  | 0, mem, n => (mem, 0, n)
  | i + 1, mem, n =>
      if charAt mem (i + 1) = charZero then stripZeros i (mem.set (i + 1) 0) (n + 1)
      else (mem, i + 1, n)

/-- The loop that restores so many trailing zeros, from the place `r` back. -/
@[grind =] def restoreZeros : Nat → Nat → List UInt8 → List UInt8
  | 0, _, mem => mem
  | n + 1, r, mem => restoreZeros n (r - 1) (mem.set r charZero)

/-- The two parts as strings, the text with terminators written to it, and `trail_zero`. -/
def floatParts (mem : List UInt8) (str : Nat) (dotPosn : Option Nat) (expPosn : Nat) :
    List UInt8 × Part × Part × Nat :=
  let int := zerosEnd mem str
  match dotPosn with
  | some dot =>
      let mem := mem.set dot 0
      let intPart := if int = dot then .small 0 else .text int
      if dot + 1 = expPosn then (mem, intPart, .small 0, 0)
      else
        let r := stripZeros (expPosn - 1) mem 0
        (r.1, intPart, if r.2.1 = dot then .small 0 else .text (dot + 1), r.2.2)
  | none => (mem, if int = expPosn then .small 0 else .text int, .small 0, 0)

/-- The exponent, and whether it is zero. -/
def floatExponent (w : Word) (mem : List UInt8) (expPosn suffPosn : Nat) (ep : UInt8) :
    NatConst × Bool :=
  if isExp ep then
    let r := expPosn + 1
    let c2 := charAt mem r
    let r := if isSign c2 then r + 1 else r
    let expon := evalDigits w 10 ((mem.drop r).take (suffPosn - r))
    let expon := if c2 = charMinus then negateNat expon else expon
    (expon, expon = .small 0)
  else (.small 0, true)

/-- The literal, and the text as it is restored. -/
def makeFloatLit (w : Word) (mem : List UInt8) (str : Nat) (dotPosn : Option Nat)
    (expPosn suffPosn : Nat) : FloatLit × List UInt8 :=
  let (mem, intPart, fracPart, trailZero) := floatParts mem str dotPosn expPosn
  let ep := charAt mem expPosn
  let mem := mem.set expPosn 0
  let (expon, zero) := floatExponent w mem expPosn suffPosn ep
  let int := intPart.string mem
  let frac := fracPart.string mem
  let lit :=
    if zero ∧ frac = smallNumber 0 then
      ((List.range 2).find? fun i => int = smallNumber i).bind getFloat
    else none
  let mem := restoreZeros trailZero (expPosn - 1) mem
  let mem := match dotPosn with
    | some dot => mem.set dot charDot
    | none => mem
  let mem := mem.set expPosn ep
  (lit.getD ⟨int, frac, expon⟩, mem)

/-! ## `make_literal_exp` -/

/-- `lex_integer_Hexp` and `lex_floating_Hexp`. -/
inductive LexExp
  | integer
  | floating
deriving DecidableEq, Repr

/-- The expressions of literals. -/
inductive LitExp (T I : Type)
  | int (e : Exp (LitType T I))
  | float (t : FloatType) (lit : FloatLit)
  | uminus (e : LitExp T I)

/-- The expression, what is put to `*ptok`, the text and the reports. -/
structure Made (T I : Type) where
  exp : LitExp T I
  tok : LexExp
  mem : List UInt8
  reports : List (Report T)

/-- `exp_int_lit_tag`. -/
abbrev expIntLitTag : Nat := 4

/-- `exp_null_tag`. -/
abbrev expNullTag : Nat := 9

/-- What `make_literal_exp` depends on: `in_hash_if_exp`, `basetype_info[ntype_sllong].key`, the
argument `force` and the specifications. -/
structure Mode (T I : Type) where
  inHashIf : Bool
  llong : Bool
  force : Bool
  spec : Base → Suffix → List (Info T I)

section

variable {T I : Type} (w : Word) (ty : Tables T I) (mode : Mode T I)

/-- The branch for floating literals. -/
def makeFloating (mem : List UInt8) (str : Nat) (p : Scanned) : Made T I :=
  let c1 := charAt mem p.posn
  let (t, s) :=
    if isF c1 then (.float, p.posn + 1)
    else if isL c1 then (.ldouble, p.posn + 1)
    else (.double, p.posn)
  let r := makeFloatLit w mem str p.dotPosn p.expPosn p.posn
  ⟨.float t r.1, .floating, r.2,
    if charAt mem s ≠ 0 ∨ p.err then [.literalBad] else []⟩

/-- The integer suffix: `us`, `ls`, the place behind it and the report. -/
def integerSuffix (mem : List UInt8) (s : Nat) : Bool × Nat × Nat × List (Report T) :=
  let (us, s) := if isU (charAt mem s) then (true, s + 1) else (false, s)
  let c1 := charAt mem s
  let (ls, s, reports) :=
    if isL c1 then
      if charAt mem (s + 1) = c1 ∧ mode.llong then (2, s + 2, [.iconLlong]) else (1, s + 1, [])
    else (if mode.inHashIf then 1 else 0, s, [])
  if us = false ∧ isU (charAt mem s) then (true, ls, s + 1, reports) else (us, ls, s, reports)

variable [DecidableEq T]

/-- The branch for integer literals. -/
def makeInteger (mem : List UInt8) (str : Nat) (p : Scanned) : Made T I :=
  let r := if p.form = .hexadecimal then str + 2 else str
  let lit := evalDigits w p.base ((mem.drop r).take (p.posn - r))
  let (us, ls, s, reports) := integerSuffix mode mem p.posn
  let bad := if charAt mem s ≠ 0 ∨ p.err then [Report.literalBad] else []
  let (t, fit, large) :=
    if mode.force then (.type (ty.builtin .ulong), true, [])
    else findLiteralType w ty mode.spec p.form (suffix us ls) (.simple lit)
  let e := .intLit t (.simple lit) expIntLitTag
  let e := if fit then e else .intLit t (.calc (.cast t convIntInt e)) expIntLitTag
  ⟨.int e, .integer, mem,
    (if p.octal then [.iconOctal] else []) ++ reports ++ bad ++ large⟩

/-- `make_literal_exp` on a text that does not begin with a sign. -/
def makeUnsigned (mem : List UInt8) (str : Nat) : Made T I :=
  let c1 := charAt mem str
  let c2 := if c1 ≠ 0 then charAt mem (str + 1) else 0
  if c2 = 0 ∧ 48 ≤ c1 ∧ c1 ≤ 57 then
    let n := digitValues c1
    let etag := if n = 0 then expNullTag else expIntLitTag
    ⟨.int (.intLit (.type (ty.builtin .sint)) (.simple (.small n)) etag), .integer, mem, []⟩
  else
    let p := scanLiteral mem str
    if p.flt then makeFloating w mem str p else makeInteger w ty mode mem str p

/-- `make_literal_exp` on the text from the place `str` on, where the characters `s` are left. A
sign is only looked at where there is no digit. -/
def makeLiteralExp (mem : List UInt8) : List UInt8 → Nat → Made T I
  | [], str => makeUnsigned w ty mode mem str
  | c :: s, str =>
      if isSign c then
        let e := makeLiteralExp mem s (str + 1)
        if c = charMinus then { e with exp := .uminus e.exp } else e
      else makeUnsigned w ty mode mem str

end

end Tendra.Ref.Tdfc.Literal
