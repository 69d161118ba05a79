import Mathlib.Algebra.Group.Int.Defs
import Mathlib.Algebra.Group.Nat.Defs

/-!
# Characters and strings: `tdfc2/src/common/parse/literal.c`

The text of a literal is a list of characters; what follows it in memory is the null character
that `token_parts` writes. A pointer into the text is the list of the characters from there on.
The tables are those for ASCII, but that of escape sequences can be changed by a pragma, and is
passed.

A character array holds what has been written to it. To write at a place that it does not have
stops the model, and so does an index of `map` that is too large. `unsigned long` and `size_t`
have 32 or 64 bits. Multibyte input is off.
-/

namespace Tendra.Ref.Tdfc

/-- The sizes of `unsigned long`. -/
inductive Word
  | bits32
  | bits64
deriving DecidableEq, Repr

def Word.bits : Word → Nat
  | bits32 => 32
  | bits64 => 64

/-- What is left of a number in a word. -/
def Word.wrap (w : Word) (n : Nat) : Nat := n % 2 ^ w.bits

/-! ## Tables -/

/-- `NONE`. -/
abbrev noneChar : UInt8 := 0xff

abbrev octe : UInt8 := 0xfe

abbrev hexe : UInt8 := 0xfd

abbrev uni4 : UInt8 := 0xfc

abbrev uni8 : UInt8 := 0xfb

/-- `NO_CHAR`. -/
abbrev noChar : Nat := 256

/-- `char_backslash`. -/
abbrev charBackslash : UInt8 := 92

/-- `digit_values`. -/
def digitValues (c : UInt8) : Nat :=
  let n := c.toNat
  if 48 ≤ n ∧ n ≤ 57 then n - 48
  else if 65 ≤ n ∧ n ≤ 90 then n - 65 + 10
  else if 97 ≤ n ∧ n ≤ 122 then n - 97 + 10
  else noneChar.toNat

/-- `escape_sequences`, as the table is at first. -/
def escapeSequences (c : UInt8) : UInt8 :=
  let n := c.toNat
  if 48 ≤ n ∧ n ≤ 55 then octe
  else if n = 34 ∨ n = 39 ∨ n = 63 ∨ n = 92 then c
  else if n = 97 then 7
  else if n = 98 then 8
  else if n = 102 then 12
  else if n = 110 then 10
  else if n = 114 then 13
  else if n = 116 then 9
  else if n = 118 then 11
  else if n = 120 then hexe
  else if n = 117 then uni4
  else if n = 85 then uni8
  else noneChar

/-! ## Digits -/

/-- `check_digits`. -/
@[grind =] def checkDigits (base : Nat) : List UInt8 → List UInt8
  | [] => []
  | c :: s => if c ≠ 0 ∧ digitValues c < base then checkDigits base s else c :: s

/-- The characters from `r` up to `s`, a place behind it. -/
def upTo (r s : List UInt8) : List UInt8 := r.take (r.length - s.length)

/-- The loop of `eval_char_digits`, with `n` and `overflow`. -/
@[grind =] def evalCharLoop (w : Word) (base : Nat) : List UInt8 → Nat → Bool → Nat × Bool
  | [], n, overflow => (n, overflow)
  | c :: r, m, overflow =>
      let n := w.wrap (base * m + digitValues c)
      evalCharLoop w base r n (overflow || n < m)

/-- `eval_char_digits`, with whether `lex_ccon_large` is reported. -/
def evalCharDigits (w : Word) (base : Nat) (s : List UInt8) : Nat × Bool :=
  evalCharLoop w base s 0 false

/-! ## Characters of several bytes -/

/-- `CHAR_SIMPLE` and the others that a literal makes. -/
inductive CharKind
  | simple
  | octal
  | hex
  | uni4
  | uni8
deriving DecidableEq, Repr

/-- The numbers of the kinds in their `enum`. -/
def CharKind.code : CharKind → Nat
  | simple => 0
  | octal => 2
  | hex => 3
  | uni4 => 4
  | uni8 => 5

/-- `MULTI_WIDTH`. -/
abbrev multiWidth : Nat := 5

/-- The bytes that the loop of `add_multi_char` writes, and what is left of `n`. -/
@[grind =] def multiBytes : Nat → Nat → List Nat × Nat
  | 0, n => ([], n)
  | i + 1, n =>
      let r := multiBytes i (n >>> 8)
      ((n &&& 0xff) :: r.1, r.2)

/-- `add_multi_char`: what is written at `s`, with whether `lex_ccon_large` is reported. -/
def addMultiChar (n : Nat) (ch : CharKind) : List Nat × Bool :=
  let r := multiBytes (multiWidth - 1) n
  (ch.code :: r.1, r.2 ≠ 0)

/-- The loop of `get_multi_char`, from the last byte. -/
@[grind =] def multiValue (w : Word) : List Nat → Nat
  | [] => 0
  | b :: s => w.wrap (w.wrap (multiValue w s <<< 8) + b)

/-- `get_multi_char`. -/
def getMultiChar (w : Word) : List Nat → Nat × Nat
  | [] => (0, 0)
  | ch :: s => (multiValue w (s.take (multiWidth - 1)), ch)

/-! ## Strings -/

/-- What a literal is read under: the option `allow_unicodes`, the table `escape_sequences`, the
mapping `map` of the character set, and the limit on the length of strings. -/
structure LitOptions where
  allowUnicodes : Bool
  escapes : UInt8 → UInt8
  map : Nat → Int
  stringLength : Nat

/-- What stops the model. -/
inductive LitFault
  /-- `map` is indexed with a number of 256 or more. -/
  | map
  /-- Something is written outside an array. -/
  | write
  /-- Something is read that has not been written. -/
  | read
deriving DecidableEq, Repr

/-- A character of the text: its value and kind, the text after it, and whether
`lex_ccon_large` is reported for it. -/
structure CharRead where
  c : Nat
  ch : CharKind
  rest : List UInt8
  large : Bool
deriving DecidableEq, Repr

/-- `eval_unicode`: the value and the text after it. -/
def evalUnicode (w : Word) (n : Nat) (r : List UInt8) : (Nat × Bool) × List UInt8 :=
  let s := checkDigits 16 r
  let m := r.length - s.length
  let s := if m < n then s else r.drop n
  (evalCharDigits w 16 (upTo r s), s)

/-- The escape sequence of `x`, with `s` behind it. -/
def readEscape (w : Word) (o : LitOptions) (x : UInt8) (s : List UInt8) : CharRead :=
  let e := o.escapes x
  if e = octe then
    let r := x :: s
    let s := checkDigits 8 r
    let s := if s.length + 3 < r.length then r.drop 3 else s
    let c := evalCharDigits w 8 (upTo r s)
    ⟨c.1, .octal, s, c.2⟩
  else if e = hexe then
    let r := s
    let s := checkDigits 16 r
    if s.length = r.length then ⟨x.toNat, .hex, s, false⟩
    else
      let c := evalCharDigits w 16 (upTo r s)
      ⟨c.1, .hex, s, c.2⟩
  else if e = uni4 ∧ o.allowUnicodes then
    let c := evalUnicode w 4 s
    ⟨c.1.1, .uni4, c.2, c.1.2⟩
  else if e = uni8 ∧ o.allowUnicodes then
    let c := evalUnicode w 8 s
    ⟨c.1.1, .uni8, c.2, c.1.2⟩
  else if e = uni4 ∨ e = uni8 ∨ e = noneChar then ⟨x.toNat, .simple, s, false⟩
  else ⟨e.toNat, .simple, s, false⟩

/-- The reading part of a round of the loop in `new_string_lit`. -/
def readChar (w : Word) (o : LitOptions) (x : UInt8) (s : List UInt8) : CharRead :=
  if x = charBackslash then
    match s with
    | [] => ⟨x.toNat, .simple, [], false⟩
    | y :: s => readEscape w o y s
  else ⟨x.toNat, .simple, s, false⟩

theorem checkDigits_length (base : Nat) (s : List UInt8) :
    (checkDigits base s).length ≤ s.length := by
  induction s with
  | nil => exact Nat.le_refl 0
  | cons c s ih =>
    rw [checkDigits]
    split
    · exact Nat.le_succ_of_le ih
    · exact Nat.le_refl _

theorem readEscape_length (w : Word) (o : LitOptions) (x : UInt8) (s : List UInt8) :
    (readEscape w o x s).rest.length ≤ s.length + 1 := by
  have hdigits := fun base => checkDigits_length base s
  have hoctal := checkDigits_length 8 (x :: s)
  have huni : ∀ n, (evalUnicode w n s).2.length ≤ s.length := by
    intro n
    simp only [evalUnicode]
    split
    · exact hdigits 16
    · exact Nat.le_trans (by simp) (Nat.sub_le _ n)
  simp only [readEscape]
  split
  · dsimp only
    split
    · simp only [List.length_drop, List.length_cons]
      omega
    · exact hoctal
  split
  · split
    · exact Nat.le_succ_of_le (hdigits 16)
    · exact Nat.le_succ_of_le (hdigits 16)
  split
  · exact Nat.le_succ_of_le (huni 4)
  split
  · exact Nat.le_succ_of_le (huni 8)
  split <;> exact Nat.le_succ _

/-- Each round goes on in the text. -/
theorem readChar_length (w : Word) (o : LitOptions) (x : UInt8) (s : List UInt8) :
    (readChar w o x s).rest.length ≤ s.length := by
  unfold readChar
  split
  · cases s with
    | nil => exact Nat.le_refl 0
    | cons y s => exact readEscape_length w o y s
  · exact Nat.le_refl _

/-- `STRING_WIDE`. -/
abbrev stringWide : Nat := 0x02

/-- `STRING_CHAR`. -/
abbrev stringChar : Nat := 0x01

/-- `STRING_MULTI`. -/
abbrev stringMulti : Nat := 0x04

/-- `STRING_FAT`. -/
abbrev stringFat : Nat := 0x08

/-- The tokens of literals. -/
inductive LitToken
  | char
  | wchar
  | string
  | wstring
deriving DecidableEq, Repr

/-- The kind that `new_string_lit` starts with. -/
def LitToken.kind : LitToken → Nat
  | char => stringChar
  | wchar => stringWide ||| stringChar
  | string => 0
  | wstring => stringWide

/-- A character array that holds nothing yet. -/
def xmalloc (n : Nat) : List (Option Nat) := List.replicate n none

/-- Characters are written from place `i`. -/
@[grind =]
def write (a : List (Option Nat)) (i : Nat) : List Nat → Except LitFault (List (Option Nat))
  | [] => .ok a
  | b :: bs => if i < a.length then write (a.set i (some b)) (i + 1) bs else .error .write

/-- The loop of `make_multi_string`, from place `i` of `t`. -/
@[grind =] def makeMultiLoop (t : List (Option Nat)) :
    Nat → Nat → List (Option Nat) → Except LitFault (List (Option Nat))
  | 0, _, a => .ok a
  | n + 1, i, a =>
      match t.getD i none with
      | none => .error .read
      | some b => do
          let a ← write a (multiWidth * i) (addMultiChar b .simple).1
          makeMultiLoop t n (i + 1) a

/-- The variables of the loop in `new_string_lit`; `large` is set when `lex_ccon_large` is
reported. -/
structure Scan where
  str : List (Option Nat)
  len : Nat
  kind : Nat
  multi : Bool
  overflow : Bool
  large : Bool

/-- The conversion to characters of several bytes, at a character `r`. The string so far has
characters of one byte. -/
def Scan.toMulti (w : Word) (p : Scan) (r : CharRead) : Except LitFault Scan := do
  let a ← makeMultiLoop p.str p.len 0 (xmalloc (w.wrap (p.str.length * multiWidth)))
  let len := w.wrap (p.len * multiWidth)
  let narrow := p.kind &&& stringWide = 0 ∧ r.ch ≠ .uni4 ∧ r.ch ≠ .uni8
  return {
    str := a
    len := len
    kind := (if r.c ≥ 256 then p.kind ||| stringFat else p.kind) ||| stringMulti
    multi := true
    overflow := p.overflow || (p.len ≠ 0 && len = 0)
    large := p.large || (r.c ≥ 256 && narrow) }

/-- The character of the execution character set, if a mapping is loaded. -/
def LitOptions.mapChar (w : Word) (o : LitOptions) (c : Nat) : Except LitFault Nat :=
  if o.map 0 = 0 then
    if c < 256 then .ok (o.map c % 2 ^ w.bits).toNat else .error .map
  else .ok c

/-- The character is mapped and written. -/
def Scan.put (w : Word) (o : LitOptions) (p : Scan) (r : CharRead) : Except LitFault Scan := do
  let c ← o.mapChar w r.c
  if p.multi then
    let m := addMultiChar c r.ch
    let str ← write p.str p.len m.1
    let len := w.wrap (p.len + multiWidth)
    return { p with
      str := str
      len := len
      overflow := p.overflow || len = 0
      large := p.large || m.2 }
  else
    let str ← write p.str p.len [c % 256]
    let len := w.wrap (p.len + 1)
    return { p with
      str := str
      len := len
      overflow := p.overflow || len = 0 }

/-- The storing part of a round of the loop. -/
def Scan.store (w : Word) (o : LitOptions) (p : Scan) (r : CharRead) : Except LitFault Scan := do
  let p : Scan := { p with large := p.large || r.large }
  let p ← if (r.ch ≠ .simple ∨ r.c ≥ 256) ∧ p.multi = false then p.toMulti w r else .ok p
  p.put w o r

/-- The loop of `new_string_lit`. -/
def scanString (w : Word) (o : LitOptions) : List UInt8 → Scan → Except LitFault Scan
  | [], p => .ok p
  | x :: s, p =>
      let r := readChar w o x s
      match p.store w o r with
      | .error e => .error e
      | .ok p => scanString w o r.rest p
termination_by s => s.length
decreasing_by
  have := readChar_length w o x s
  simp only [List.length_cons]
  omega

/-- `str_simple`, and whether `lex_ccon_large` was reported. -/
structure StringLit where
  len : Nat
  str : List (Option Nat)
  kind : Nat
  large : Bool

/-- `new_string_lit`. Literals that are equal are shared; that is left out. -/
def newStringLit (w : Word) (o : LitOptions) (s : List UInt8) (lex : LitToken) :
    Except LitFault StringLit := do
  let sz := w.wrap (s.length + 1)
  let p ← scanString w o s ⟨xmalloc sz, 0, lex.kind, false, false, false⟩
  let str ← write p.str p.len (if p.multi then (addMultiChar 0 .octal).1 else [0])
  let len := if p.multi then p.len / multiWidth else p.len
  let len := if p.overflow then 2 ^ w.bits - 1 else len
  if len ≤ o.stringLength then
    return ⟨len, str, p.kind, p.large⟩
  else
    let len := o.stringLength
    let str ←
      if p.multi then write str (w.wrap (multiWidth * len)) (addMultiChar 0 .octal).1
      else write str len [0]
    return ⟨len, str, p.kind, p.large⟩

/-- `get_string_char`: a character of a literal and its kind. -/
def StringLit.getStringChar (w : Word) (r : StringLit) (i : Nat) : Option (Nat × Nat) :=
  if i < r.len then
    if r.kind &&& stringMulti ≠ 0 then
      (((r.str.drop (w.wrap (multiWidth * i))).take multiWidth).mapM id).map (getMultiChar w)
    else (r.str.getD i none).map fun c => (c, CharKind.simple.code)
  else none

end Tendra.Ref.Tdfc
