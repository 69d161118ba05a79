import Tendra.Lib.LineProgram
import Tendra.Ref.Trans.Dwarf

/-!
# The table of lines: `trans/common/dwarf2/dw2_lines.c`

What is printed into the section `debug_line` between its prologue and its end. A directive is
begun by `out8`, `out16` or `out32` and ended by a newline, which is printed by `asm_comment` in one
place: that function prints nothing where comments have not been asked for. The lines that change
the section are directives of their own, and so the assembler takes a directive that is not ended
for junk.

`needs_debug_align` is never set. The differences of lines are computed as a `long`. Any line of
output on x86 makes the installer lose the count of instructions.
-/

namespace Tendra.Ref.Trans.Dwarf

/-- The installers that write DWARF 2. -/
inductive Target
  | sparc
  | x86
deriving DecidableEq, Repr

/-- `min_instr_size`. -/
def Target.minInstrSize : Target → Nat
  | sparc => 4
  | x86 => 1

/-- `dw_line_base`. -/
def Target.lineBase : Target → Int
  | sparc => -2
  | x86 => -16

/-- `dw_line_range`. -/
def Target.lineRange : Target → Nat
  | sparc => 16
  | x86 => 128

/-- `opcode_base`. -/
def opcodeBase : Nat := 10

/-- The installer, the size of a `long`, what `>>` does to a sign, and `do_comment`. -/
structure Setup where
  target : Target
  long : Long
  copiesSign : Bool
  doComment : Bool
deriving DecidableEq, Repr

/-! ## The text -/

/-- The directives of `out8`, `out16` and `out32`. -/
inductive Width
  | w8
  | w16
  | w32
deriving DecidableEq, Repr

/-- An operand of a directive. -/
inductive Operand
  | num (v : Int)
  /-- `lab + plus`. -/
  | label (lab plus : Int)
  /-- `hi - lo + plus`. -/
  | diff (hi lo plus : Int)
deriving DecidableEq, Repr

/-- A piece of text; the commas between operands are left out. -/
inductive Tok
  | out (w : Width)
  | val (o : Operand)
  | newline
  | enterSection
  | exitSection
  | setLabel (label : Int)
deriving DecidableEq, Repr

/-- The value of an operand; `adr` gives the addresses of the labels. -/
def Operand.value (adr : Int → Int) : Operand → Int
  | num v => v
  | label lab plus => adr lab + plus
  | diff hi lo plus => adr hi - adr lo + plus

/-- The bytes of a value. -/
def Width.bytes (big : Bool) (v : Int) : Width → List Nat
  | w8 => [LineProgram.byte v 0]
  | w16 => LineProgram.encodeHalf big v
  | w32 => LineProgram.encodeWord big v

/-- What the assembler makes of the text, and the directive that is not ended yet. -/
@[grind =] def assemble (big : Bool) (adr : Int → Int) :
    Option Width → List Tok → Option (List Nat × Option Width)
  | dir, [] => some ([], dir)
  | none, .out w :: toks => assemble big adr (some w) toks
  | none, .val _ :: _ => none
  | none, _ :: toks => assemble big adr none toks
  | some w, .val o :: toks =>
      (assemble big adr (some w) toks).map fun r => (w.bytes big (o.value adr) ++ r.1, r.2)
  | some _, .newline :: toks => assemble big adr none toks
  | some _, _ :: _ => none

/-! ## The state -/

/-- The static variables of `dw2_lines.c`, what has been printed, and `instr_count` and
`last_text_label`. -/
structure LineSt where
  currentAdLabel : Int
  currentAdCount : Int
  currentFile : Int
  currentLine : Int
  currentCol : Int
  currentIsStmt : Bool
  prevAdLabel : Int
  prevAdCount : Int
  prevFile : Int
  prevLine : Int
  prevCol : Int
  prevIsStmt : Bool
  out : List Tok
  instrCount : Int
  lastTextLabel : Int
deriving DecidableEq, Repr

/-- `default_is_stmt`. -/
def defaultIsStmt : Bool := false

/-- The variables as they are initialised. -/
def LineSt.init : LineSt :=
  ⟨-1, -1, 1, 1, 0, false, -1, -1, 1, 1, 0, defaultIsStmt, [], -1, 0⟩

/-- Text is printed, with a newline in it: the hook of x86. -/
def LineSt.print (c : Setup) (s : LineSt) (toks : List Tok) : LineSt :=
  { s with
    out := s.out ++ toks
    instrCount := if c.target = .x86 then -1 else s.instrCount }

/-- `set_dw_text_label`; `fresh` is what `next_dwarf_label` gives. -/
def setDwTextLabel (fresh : Int) (s : LineSt) : Int × LineSt :=
  if s.instrCount ≠ 0 then (fresh, { s with lastTextLabel := fresh, instrCount := 0 })
  else (s.lastTextLabel, s)

/-! ## The opcodes -/

def byteToks (bytes : List Nat) : List Tok := bytes.map fun b : Nat => .val (.num b)

/-- `uleb128((unsigned long)v)`. -/
def ulebToks (c : Setup) (v : Int) : Except Stop (List Tok) :=
  (uleb128 c.long.bits (BitVec.ofInt c.long.bits v)).map byteToks

/-- `sleb128(v)`. -/
def slebToks (c : Setup) (v : Int) : Except Stop (List Tok) :=
  (sleb128 c.copiesSign c.long.bits (BitVec.ofInt c.long.bits v)).map byteToks

/-- `ext_opcode`. -/
def extOpcode (c : Setup) (op argLength : Int) : Except Stop (List Tok) := do
  let length ← ulebToks c (argLength + 1)
  return .out .w8 :: .val (.num 0) :: length ++ [.val (.num op), .newline]

/-- The address in `update_statprog`, and `ad_inc`. -/
def addressToks (c : Setup) (s : LineSt) : Except Stop (List Tok × Int) := do
  if s.prevAdLabel < 0 then
    let opcode ← extOpcode c 2 4
    let plus := s.currentAdCount * c.target.minInstrSize
    return (opcode ++ [.out .w32, .val (.label s.currentAdLabel plus), .newline], 0)
  else if s.prevAdLabel ≠ s.currentAdLabel then
    let plus := (s.currentAdCount - s.prevAdCount) * c.target.minInstrSize
    return ([.out .w8, .val (.num 9), .newline,
      .out .w16, .val (.diff s.currentAdLabel s.prevAdLabel plus), .newline], 0)
  else
    return ([], s.currentAdCount - s.prevAdCount)

/-- `DW_LNS_set_file` and `DW_LNS_set_column`. -/
def registerToks (c : Setup) (op current prev : Int) : Except Stop (List Tok) := do
  if current ≠ prev then
    return .out .w8 :: .val (.num op) :: (← ulebToks c current) ++ [.newline]
  else
    return []

/-- `DW_LNS_negate_stmt`. -/
def stmtToks (s : LineSt) : List Tok :=
  if s.currentIsStmt ≠ s.prevIsStmt then [.out .w8, .val (.num 6), .newline] else []

/-- `lineinc`. -/
def LineSt.lineinc (c : Setup) (s : LineSt) : Int :=
  (BitVec.ofInt c.long.bits (s.currentLine - s.prevLine)).toInt

/-- The difference of lines is one of a special opcode. -/
def Setup.inRange (c : Setup) (lineinc : Int) : Bool :=
  c.target.lineBase ≤ lineinc ∧ lineinc < c.target.lineBase + c.target.lineRange

/-- `DW_LNS_advance_line`, and the `lineinc` that is left. -/
def lineToks (c : Setup) (lineinc : Int) : Except Stop (List Tok × Int) := do
  if c.inRange lineinc then
    return ([], lineinc)
  else
    return (.out .w8 :: .val (.num 3) :: (← slebToks c lineinc) ++ [.newline], 0)

/-- `special` as it is computed first. -/
def Setup.special (c : Setup) (lineinc adInc : Int) : Int :=
  lineinc - c.target.lineBase + c.target.lineRange * adInc + opcodeBase

/-- `DW_LNS_advance_pc`, and the `special` that is left. -/
def advanceToks (c : Setup) (lineinc adInc : Int) : Except Stop (List Tok × Int) := do
  if c.special lineinc adInc > 255 then
    return (.out .w8 :: .val (.num 2) :: (← ulebToks c adInc) ++ [.newline], c.special lineinc 0)
  else
    return ([], c.special lineinc adInc)

/-- The last opcode of `update_statprog`, and the comment. -/
def rowToks (c : Setup) (special : Int) : List Tok :=
  [.out .w8, .val (.num (if special = opcodeBase - c.target.lineBase then 1 else special))] ++
    if c.doComment then [.newline] else []

/-- `update_statprog`. -/
def updateStatprog (c : Setup) (s : LineSt) : Except Stop LineSt := do
  if s.currentAdLabel < 0 then
    return s
  else
    let (address, adInc) ← addressToks c s
    let file ← registerToks c 4 s.currentFile s.prevFile
    let col ← registerToks c 5 s.currentCol s.prevCol
    let (line, lineinc) ← lineToks c (s.lineinc c)
    let (advance, special) ← advanceToks c lineinc adInc
    let s' := s.print c (.enterSection :: address ++ file ++ stmtToks s ++ col ++ line ++ advance ++
      rowToks c special ++ [.exitSection])
    return { s' with
      prevAdLabel := s.currentAdLabel
      prevAdCount := s.currentAdCount
      prevFile := s.currentFile
      prevLine := s.currentLine
      prevCol := s.currentCol
      prevIsStmt := s.currentIsStmt }

/-! ## The calls -/

/-- The first part of each call: a new label in the text segment where the count does not go from
the current one. -/
def textLabel (fresh : Int) (s : LineSt) : Int × LineSt :=
  if s.currentAdLabel < 0 ∨ s.currentAdLabel ≠ s.lastTextLabel ∨ s.instrCount < 0 then
    setDwTextLabel fresh s
  else (0, s)

/-- `if (newlab) current_ad_label = newlab`. -/
def LineSt.setAdLabel (s : LineSt) (newlab : Int) : LineSt :=
  if newlab ≠ 0 then { s with currentAdLabel := newlab } else s

/-- A `short_sourcepos`; the file is its index. -/
structure SourcePos where
  file : Int
  line : Int
  column : Int
deriving DecidableEq, Repr

inductive Call
  | sourceMark (pos : SourcePos) (isStmt : Bool)
  | startBasicBlock
deriving DecidableEq, Repr

/-- The call updates the table first. -/
def Call.updates (newlab : Int) (s : LineSt) : Call → Bool
  | sourceMark pos _ =>
      newlab ≠ 0 ∨ s.instrCount ≠ s.currentAdCount ∨ pos.file ≠ s.currentFile
  | startBasicBlock => newlab ≠ 0 ∨ s.instrCount ≠ 0

/-- The end of `dw2_source_mark` and of `dw2_start_basic_block`. -/
def Call.finish (c : Setup) (newlab : Int) (s : LineSt) : Call → LineSt
  | sourceMark pos isStmt =>
      { s.setAdLabel newlab with
        currentAdCount := s.instrCount
        currentFile := pos.file
        currentLine := pos.line
        currentCol := pos.column
        currentIsStmt := isStmt }
  | startBasicBlock =>
      { s.setAdLabel newlab with currentAdCount := s.instrCount }.print c
        [.enterSection, .out .w8, .val (.num 7), .newline, .exitSection]

/-- `dw2_source_mark` and `dw2_start_basic_block`. -/
def Call.run (c : Setup) (fresh : Int) (call : Call) (s : LineSt) : Except Stop LineSt := do
  let (newlab, s) := textLabel fresh s
  let s ← if call.updates newlab s then updateStatprog c s else pure s
  return call.finish c newlab s

/-- `close_statprog` up to its `update_statprog`. -/
def closeLabel (fresh : Int) (s : LineSt) : LineSt :=
  if s.currentAdLabel < 0 ∨ s.currentAdLabel ≠ s.lastTextLabel ∨ s.instrCount < 0 then
    let (newlab, s) := setDwTextLabel fresh s
    { s with currentAdLabel := newlab, currentAdCount := s.instrCount }
  else
    { s with currentAdCount := s.instrCount }

/-- `close_statprog`. -/
def closeStatprog (c : Setup) (fresh lEnd : Int) (s : LineSt) : Except Stop LineSt := do
  let s ← updateStatprog c (closeLabel fresh s)
  let opcode ← extOpcode c 1 0
  return s.print c (.enterSection :: opcode ++ [.setLabel lEnd, .exitSection])

/-- What the code generator has done since the last call: the count of instructions, the last label
of the text segment, and the next number of a label. -/
structure Place where
  instrCount : Int
  lastTextLabel : Int
  fresh : Int
deriving DecidableEq, Repr

def LineSt.arrive (s : LineSt) (at' : Place) : LineSt :=
  { s with instrCount := at'.instrCount, lastTextLabel := at'.lastTextLabel }

/-- The calls of a compilation. -/
@[grind =] def lineCalls (c : Setup) : List (Place × Call) → LineSt → Except Stop LineSt
  | [], s => .ok s
  | (place, call) :: calls, s => do
      let s ← call.run c place.fresh (s.arrive place)
      lineCalls c calls s

/-- The calls of a compilation and `close_statprog`. -/
def lineProgram (c : Setup) (calls : List (Place × Call)) (last : Place) (lEnd : Int) :
    Except Stop LineSt := do
  let s ← lineCalls c calls .init
  closeStatprog c last.fresh lEnd (s.arrive last)

/-- What the prologue says. -/
def Setup.header (c : Setup) : LineProgram.Header where
  bigEndian := c.target = .sparc
  minInstLength := c.target.minInstrSize
  defaultIsStmt := defaultIsStmt
  lineBase := c.target.lineBase
  lineRange := c.target.lineRange
  opcodeBase := opcodeBase

end Tendra.Ref.Trans.Dwarf
