import Mathlib.Data.Nat.Notation

/-!
# Expressions of the installer: `reader/exp.h`, `tdf/tag.h`, `tdf/shape.h`

An `exp` of the source is a record with a tag, a shape, a number, a word of
properties, a pointer and a list of children threaded through `child` and
`next`. The model keeps the record and makes the list a list. Three pointers
of the record are not children and stay references: a `name_tag` points at the
declaration it uses, a jump points at the `labst_tag` it goes to, and both are
numbered here by what they point at, a declaration number and a label number.

The layout follows the source's own: `seq_tag` has a holder (tag 0) of
statements and a result, `labst_tag` a place and a body, `rep_tag` a start and
a `labst_tag`, `cond_tag` a first part and a `labst_tag`, `ident_tag` a
definition and a body.
-/

namespace Tendra.Ref

/-- The tags of `tdf/tag.h`, with the holder of a sequence's statements, which
the source writes as tag 0. -/
inductive Tag
  | holderTag | identTag | seqTag | condTag | labstTag | repTag | gotoTag | testTag
  | assTag | applyTag | resTag | gotoLvTag | returnToLabelTag | solveTag | assvolTag
  | compoundTag | nofTag | localFreeAllTag | localFreeTag | lastLocalTag | longJumpTag
  | concatnofTag | ncopiesTag | caseTag | movecontTag | testbitTag | allocaTag
  | profTag | ignorableTag | bfassTag | bfassvolTag | condassignTag | applyGeneralTag
  | tailCallTag | untidyReturnTag | sameCalleesTag | plusTag | negTag | shlTag | modTag
  | rem2Tag | absTag | roundTag | offsetPadTag | offsetDivTag | offsetMaxTag
  | minptrTag | fpowerTag | fplusTag | fminusTag | fmultTag | fdivTag | fabsTag
  | fnegTag | floatTag | chflTag | andTag | orTag | xorTag | notTag | componentTag
  | maxTag | minTag | bitfToIntTag | bfcontTag | fmaxTag | shrTag | fminTag | div0Tag
  | bfcontvolTag | absboolTag | addptrTag | chvarTag | minusTag | multTag | subptrTag
  | realpartTag | div1Tag | div2Tag | offsetAddTag | offsetDivByIntTag | offsetMultTag
  | offsetNegateTag | offsetSubtractTag | rem0Tag | rotlTag | rotrTag | powerTag
  | imagTag | makeComplexTag | intToBitfTag | conjTag | holdTag | hold2Tag
  | initialValueTag | contTag | fieldTag | valTag | reffTag | nameTag | procTag
  | topTag | contvolTag | currentEnvTag | envOffsetTag | makeLvTag | clearTag | nullTag
  | realTag | stringTag | generalProcTag | envSizeTag | giveStackLimitTag
  | makeStackLimitTag | generalEnvOffsetTag | callerTag | callerNameTag
  | makeDynamicCalleeTag | makeCalleeListTag | setStackLimitTag | formalCalleeTag
  | trapTag | asmTag
deriving DecidableEq, Repr

/-- The numbers of the enumeration; only their order is used. -/
def Tag.code : Tag → Nat
  | .holderTag => 0 | .identTag => 1 | .seqTag => 3 | .condTag => 4 | .labstTag => 5
  | .repTag => 6 | .gotoTag => 7 | .testTag => 8 | .assTag => 9 | .applyTag => 11
  | .resTag => 12 | .gotoLvTag => 13 | .returnToLabelTag => 14 | .solveTag => 15
  | .assvolTag => 16 | .compoundTag => 17 | .nofTag => 18 | .localFreeAllTag => 19
  | .localFreeTag => 20 | .lastLocalTag => 21 | .longJumpTag => 22
  | .concatnofTag => 23 | .ncopiesTag => 24 | .caseTag => 25 | .movecontTag => 26
  | .testbitTag => 27 | .allocaTag => 28 | .profTag => 30 | .ignorableTag => 31
  | .bfassTag => 32 | .bfassvolTag => 33 | .condassignTag => 34
  | .applyGeneralTag => 35 | .tailCallTag => 36 | .untidyReturnTag => 37
  | .sameCalleesTag => 38 | .plusTag => 39 | .negTag => 40 | .shlTag => 41
  | .modTag => 43 | .rem2Tag => 44 | .absTag => 45 | .roundTag => 46
  | .offsetPadTag => 47 | .offsetDivTag => 48 | .offsetMaxTag => 49 | .minptrTag => 50
  | .fpowerTag => 51 | .fplusTag => 52 | .fminusTag => 53 | .fmultTag => 54
  | .fdivTag => 55 | .fabsTag => 56 | .fnegTag => 57 | .floatTag => 58 | .chflTag => 59
  | .andTag => 60 | .orTag => 61 | .xorTag => 62 | .notTag => 63 | .componentTag => 64
  | .maxTag => 65 | .minTag => 66 | .bitfToIntTag => 67 | .bfcontTag => 68
  | .fmaxTag => 69 | .shrTag => 70 | .fminTag => 71 | .div0Tag => 72
  | .bfcontvolTag => 73 | .absboolTag => 74 | .addptrTag => 75 | .chvarTag => 76
  | .minusTag => 77 | .multTag => 78 | .subptrTag => 79 | .realpartTag => 80
  | .div1Tag => 81 | .div2Tag => 82 | .offsetAddTag => 83 | .offsetDivByIntTag => 84
  | .offsetMultTag => 85 | .offsetNegateTag => 86 | .offsetSubtractTag => 87
  | .rem0Tag => 88 | .rotlTag => 89 | .rotrTag => 90 | .powerTag => 91 | .imagTag => 92
  | .makeComplexTag => 93 | .intToBitfTag => 94 | .conjTag => 95 | .holdTag => 101
  | .hold2Tag => 102 | .initialValueTag => 103 | .contTag => 113 | .fieldTag => 114
  | .valTag => 115 | .reffTag => 116 | .nameTag => 117 | .procTag => 118
  | .topTag => 119 | .contvolTag => 120 | .currentEnvTag => 121 | .envOffsetTag => 122
  | .makeLvTag => 123 | .clearTag => 124 | .nullTag => 125 | .realTag => 126
  | .stringTag => 127 | .generalProcTag => 128 | .envSizeTag => 129
  | .giveStackLimitTag => 130 | .makeStackLimitTag => 131 | .generalEnvOffsetTag => 132
  | .callerTag => 200 | .callerNameTag => 201 | .makeDynamicCalleeTag => 204
  | .makeCalleeListTag => 205 | .setStackLimitTag => 206 | .formalCalleeTag => 207
  | .trapTag => 208 | .asmTag => 209

/-- `is_a`: the constructs that `eq_exp` and `max_const` take as free of side
effects, a range of tag numbers. -/
def isA (t : Tag) : Bool := Tag.plusTag.code ≤ t.code ∧ t.code ≤ Tag.makeStackLimitTag.code

/-- The shape heads of `tdf/shape.h`. -/
inductive ShapeHd
  | bothd | tophd | scharhd | ucharhd | swordhd | uwordhd | slonghd | ulonghd | s64hd | u64hd
  | shcomplexhd | complexhd | complexdoublehd | shrealhd | realhd | doublehd | bitfhd | prokhd
  | ptrhd | offsethd | sizehd | cpdhd | nofhd | tokhd
deriving DecidableEq, Repr

/-- A shape: its head, `shape_size`, `is_signed`, and the three alignments that
`eq_shape` compares. -/
structure Shape where
  hd : ShapeHd
  size : Nat
  isSigned : Bool
  align : Nat
  al1 : Nat
  al2 : Nat
deriving DecidableEq, Repr

/-- `eq_shape`. -/
def eqShape (a b : Shape) : Bool :=
  if a.hd ≠ b.hd then false
  else if a.size ≠ b.size ∨ a.isSigned ≠ b.isSigned ∨ a.align ≠ b.align ∨ a.al1 ≠ b.al1 then false
  else if a.hd = .nofhd then true
  else a.al2 = b.al2

/-- The integer shapes, `scharsh` to `u64sh`. -/
def intShape (size : Nat) (sg : Bool) : Shape :=
  let hd := match size, sg with
    | 8, true => ShapeHd.scharhd
    | 8, false => .ucharhd
    | 16, true => .swordhd
    | 16, false => .uwordhd
    | 32, true => .slonghd
    | 32, false => .ulonghd
    | _, true => .s64hd
    | _, false => .u64hd
  ⟨hd, size, sg, size, 1, 1⟩

/-- `f_top`. -/
def topShape : Shape := ⟨.tophd, 0, false, 1, 1, 1⟩

/-- The fields of an `exp` other than its children. `dec` is the declaration a
`name_tag` uses or an `ident_tag` makes, and the label number of a
`labst_tag`; `pt` is the label a jump goes to. -/
structure Node where
  tag : Tag
  sh : Shape
  no : Int
  props : Nat
  pt : Option Nat
  dec : Nat
deriving DecidableEq, Repr

/-- An expression: a record and its children. -/
inductive Exp
  | mk (n : Node) (args : List Exp)
deriving Repr

namespace Exp

def node : Exp → Node
  | mk n _ => n

def args : Exp → List Exp
  | mk _ as => as

def tag (e : Exp) : Tag := e.node.tag

def sh (e : Exp) : Shape := e.node.sh

def no (e : Exp) : Int := e.node.no

def props (e : Exp) : Nat := e.node.props

def pt (e : Exp) : Option Nat := e.node.pt

def dec (e : Exp) : Nat := e.node.dec

end Exp

/-- `ptst`. -/
def ptst (props mask : Nat) : Bool := props &&& mask ≠ 0

/-- `errhandle`. -/
def errhandle (n : Node) : Nat := n.props &&& 0x7

/-- `optop`. -/
def optop (n : Node) : Bool := errhandle n ≤ 2

/-- `round_number`. -/
def roundNumber (n : Node) : Nat := n.props >>> 3

/-- `test_number`, on the targets where the property word holds nothing else
below its fifth bit. -/
def testNumber (n : Node) : Nat := n.props &&& 0x1f

/-- `isbigval`: the number of the constant is an index into `flptnos`. -/
def isbigval (n : Node) : Bool := ptst n.props 0x01

end Tendra.Ref
