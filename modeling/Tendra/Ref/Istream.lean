import Mathlib.Init

/-!
# Input streams: `libexds/src/istream.c`, `syntax.c`, `libexds/include/exds/istream.h`

The buffer ends with a null character, which stands for more of the file or for its end.
A file is what is left to read of it, and `fread` gives as much of that as is asked for.
The places of a buffer are counted from its beginning.
-/

namespace Tendra.Ref

/-- A character constant of the source. -/
abbrev chr (c : Char) : BitVec 8 := BitVec.ofNat 8 c.toNat

/-- `syntax_value`; `SYNTAX_NO_VALUE` is `none`. -/
def syntaxValue (c : BitVec 8) : Option Nat :=
  if chr '0' ≤ c ∧ c ≤ chr '9' then some (c.toNat - (chr '0').toNat)
  else if chr 'A' ≤ c ∧ c ≤ chr 'Z' then some (c.toNat - (chr 'A').toNat + 10)
  else if chr 'a' ≤ c ∧ c ≤ chr 'z' then some (c.toNat - (chr 'a').toNat + 10)
  else none

/-- `ISTREAM_BUFSIZE`. -/
abbrev istreamBufsize : Nat := 8193

/-- `IStreamT`, without the name. -/
structure IStream where
  file : List (BitVec 8)
  buffer : Nat → BitVec 8
  current : Nat
  end_ : Nat
  line : BitVec 32
  readLast : Bool

namespace IStream

/-- `limit`, which is never changed. -/
abbrev limit : Nat := istreamBufsize

abbrev newline : BitVec 8 := 0x0a

/-- `X__istream_fill_buffer`. -/
def fillBuffer (s : IStream) : IStream :=
  let bytes := s.file.take (istreamBufsize - 1)
  { s with
    file := s.file.drop (istreamBufsize - 1)
    buffer := fun i => if h : i < bytes.length then bytes[i] else
      if i = bytes.length then 0 else s.buffer i
    current := 0
    end_ := bytes.length + 1
    readLast := false }

/-- `istream_open`; what the buffer has at first is not read. -/
def istreamOpen (contents : List (BitVec 8)) (garbage : Nat → BitVec 8) : IStream :=
  fillBuffer ⟨contents, garbage, 0, 0, 1, false⟩

/-- `istream_input`, with what the standard input has. -/
def istreamInput (contents : List (BitVec 8)) : IStream :=
  ⟨contents, fun _ => 0, istreamBufsize - 1, istreamBufsize, 1, false⟩

/-- `istream_inc_line`. -/
def incLine (s : IStream) : IStream := { s with line := s.line + 1 }

/-- `ISTREAM_READ_CHAR`. -/
def readRaw (s : IStream) : BitVec 8 × IStream :=
  (s.buffer s.current, { s with readLast := true, current := s.current + 1 })

/-- `ISTREAM_PEEK_CHAR`. -/
def peekRaw (s : IStream) : BitVec 8 × IStream := (s.buffer s.current, { s with readLast := false })

/-- Where `ISTREAM_HANDLE_NULL` goes. -/
inductive Handled
  | redo
  | eof
  | on
deriving DecidableEq

/-- `ISTREAM_HANDLE_NULL`. -/
def handleNull (s : IStream) : Handled × IStream :=
  if s.readLast then
    if s.current = s.end_ then
      if s.end_ = limit then (.redo, s.fillBuffer)
      else (.eof, { s with current := s.current - 1 })
    else (.on, s)
  else if s.current = s.end_ - 1 then
    if s.end_ = limit then (.redo, s.fillBuffer) else (.eof, s)
  else (.on, s)

/-- How often the buffer may be filled again. -/
def refills (s : IStream) : Nat := if s.end_ = limit then s.file.length + 1 else 0

theorem refills_fillBuffer {s : IStream} (h : s.end_ = limit) :
    s.fillBuffer.refills < s.refills := by
  rw [refills, refills, if_pos h]
  simp only [fillBuffer, List.length_take, List.length_drop, limit, istreamBufsize]
  split <;> omega

theorem handleNull_redo {s t : IStream} (h : s.handleNull = (.redo, t)) :
    s.end_ = limit ∧ t = s.fillBuffer := by
  rw [handleNull] at h
  by_cases hend : s.end_ = limit
  · rw [if_pos hend, if_pos hend] at h
    split at h <;> split at h <;> cases h
    · exact ⟨hend, rfl⟩
    · exact ⟨hend, rfl⟩
  · rw [if_neg hend, if_neg hend] at h
    split at h <;> split at h <;> cases h

/-- `ISTREAM_PEEK_CHAR` or `ISTREAM_READ_CHAR`. -/
def raw (peek : Bool) (s : IStream) : BitVec 8 × IStream := if peek then s.peekRaw else s.readRaw

theorem refills_raw (peek : Bool) (s : IStream) : (s.raw peek).2.refills = s.refills := by
  cases peek <;> rfl

/-- What a macro gives with the label `redo` before it and `ISTREAM_HANDLE_NULL` behind it: a
character, or the end of the file. -/
def nextChar (peek : Bool) (s : IStream) : Option (BitVec 8) × IStream :=
  let r := s.raw peek
  if r.1 = 0 then
    match _h : r.2.handleNull with
    | (.redo, t) => nextChar peek t
    | (.eof, t) => (none, t)
    | (.on, t) => (some r.1, t)
  else (some r.1, r.2)
termination_by s.refills
decreasing_by
  obtain ⟨hend, rfl⟩ := handleNull_redo ‹_›
  exact refills_raw peek s ▸ refills_fillBuffer hend

/-- `istream_read_char`; the end of the file is `none`. -/
def istreamReadChar (s : IStream) : Option (BitVec 8) × IStream :=
  let r := s.nextChar false
  if r.1 = some newline then (r.1, r.2.incLine) else r

/-- `istream_peek_char`. -/
def istreamPeekChar (s : IStream) : Option (BitVec 8) × IStream := s.nextChar true

/-- `IStreamStatusT`, with the character that goes with it. -/
inductive Status
  | readChar (c : BitVec 8)
  | noChar
  | syntaxError
deriving DecidableEq

/-- Each of the two halves of `istream_read_hex_char`. -/
def readHexDigit (s : IStream) : Option Nat × IStream :=
  match s.nextChar false with
  | (none, t) => (none, t)
  | (some c, t) =>
      if c = 0 then (none, t)
      else if c = newline then (none, t.incLine)
      else ((syntaxValue c).filter (· < 16), t)

/-- `istream_read_hex_char`. -/
def istreamReadHexChar (s : IStream) : Status × IStream :=
  match s.readHexDigit with
  | (none, t) => (.syntaxError, t)
  | (some tmp, t) =>
      match t.readHexDigit with
      | (none, u) => (.syntaxError, u)
      | (some value, u) => (.readChar (BitVec.ofNat 8 (tmp * 16 + value)), u)

/-- `istream_read_escaped_char`. -/
def istreamReadEscapedChar (s : IStream) : Status × IStream :=
  match s.nextChar false with
  | (none, t) => (.syntaxError, t)
  | (some c, t) =>
      if c = newline then (.noChar, t.incLine)
      else if c = chr '0' then (.readChar 0, t)
      else if c = chr 'f' ∨ c = chr 'F' then (.readChar 0x0c, t)
      else if c = chr 'n' ∨ c = chr 'N' then (.readChar newline, t)
      else if c = chr 'r' ∨ c = chr 'R' then (.readChar 0x0d, t)
      else if c = chr 't' ∨ c = chr 'T' then (.readChar 0x09, t)
      else if c = chr 'x' ∨ c = chr 'X' then istreamReadHexChar t
      else (.readChar c, t)

end IStream

end Tendra.Ref
