import Tendra.Ref.Istream
import Tendra.Ref.Tld.Tdf

/-!
# External names as text: `tld/src/adt/name-key.c`, `tld/src/rename-file.c`

The parsers of `name-key.c` walk over the text of a command line. Such a text is the characters
before its null character, which is what stands at its end. The one of `rename-file.c` reads a
stream, and goes on after an error.
-/

namespace Tendra.Ref.Tld

/-- The text that bytes are when they are taken as a C string. -/
def cstring (bytes : NString) : NString := bytes.takeWhile (· ≠ 0)

/-- How a parser of `name-key.c` gives no key: the text is refused, or the parser steps over the
null character at its end. -/
inductive NoKey
  | refused
  | outside
deriving DecidableEq

/-- `name_key_parse_hex_char`. -/
def nameKeyParseHexChar (name : NString) : Option (BitVec 8) :=
  match syntaxValue (name.headD 0) with
  | none => none
  | some value =>
      let result := BitVec.ofNat 8 (value <<< 4)
      match syntaxValue (name.tail.headD 0) with
      | none => none
      | some value => some (result ||| BitVec.ofNat 8 value)

/-- `name_key_parse_escaped`, for a name that begins with the backslash: the character, and what
is left of the name. -/
def nameKeyParseEscaped (name : NString) : Except NoKey (BitVec 8 × NString) :=
  let name := name.tail
  let c := name.headD 0
  if c = chr 'x' ∨ c = chr 'X' then
    match nameKeyParseHexChar name with
    | none => .error .refused
    | some b => if name.length < 3 then .error .outside else .ok (b, name.drop 3)
  else if c = chr 'n' ∨ c = chr 'N' then .ok (0x0a, name.tail)
  else if c = chr 'r' ∨ c = chr 'R' then .ok (0x0d, name.tail)
  else if c = chr 't' ∨ c = chr 'T' then .ok (0x09, name.tail)
  else if c = chr '0' then .ok (0, name.tail)
  else if c = chr '\\' ∨ c = chr '.' ∨ c = chr '[' ∨ c = chr ']' then .ok (c, name.tail)
  else .error .refused

theorem nameKeyParseEscaped_length {name rest : NString} {c : BitVec 8}
    (h : nameKeyParseEscaped name = .ok (c, rest)) : rest.length ≤ name.tail.length := by
  rw [nameKeyParseEscaped] at h
  by_cases hx : name.tail.headD 0 = chr 'x' ∨ name.tail.headD 0 = chr 'X'
  · rw [if_pos hx] at h
    split at h
    · cases h
    · split at h
      · cases h
      · cases h
        rw [List.length_drop]
        omega
  · rw [if_neg hx] at h
    repeat' split at h
    all_goals cases h
    all_goals
      rw [List.length_tail]
      omega

/-- The characters of a component, and the name from the character behind them on. -/
def parseComponent (name : NString) : Except NoKey (NString × NString) :=
  match name with
  | [] => .error .refused
  | c :: rest =>
      if c = chr '.' ∨ c = chr ']' then .ok ([], c :: rest)
      else if c = chr '[' then .error .refused
      else if c = chr '\\' then
        match _h : nameKeyParseEscaped (c :: rest) with
        | .error e => .error e
        | .ok (b, name) => (parseComponent name).map fun r => (b :: r.1, r.2)
      else (parseComponent rest).map fun r => (c :: r.1, r.2)
termination_by name.length
decreasing_by
  · exact Nat.lt_succ_of_le (nameKeyParseEscaped_length _h)
  · exact Nat.lt_succ_self _

/-- The loop ends at a full stop or a bracket. -/
theorem parseComponent_rest {name rest : NString} {s : NString}
    (h : parseComponent name = .ok (s, rest)) : rest ≠ [] ∧ rest.length ≤ name.length := by
  fun_induction parseComponent name generalizing s with
  | case1 => cases h
  | case2 => cases h; exact ⟨List.cons_ne_nil _ _, Nat.le_refl _⟩
  | case3 => cases h
  | case4 => cases h
  | case5 _ b name _ _ hesc ih =>
      cases hrest : parseComponent name with
      | error e => rw [hrest] at h; cases h
      | ok r =>
          rw [hrest] at h
          cases h
          have hle := nameKeyParseEscaped_length hesc
          exact ⟨(ih hrest).1, Nat.le_trans (ih hrest).2 (Nat.le_trans hle (Nat.le_succ _))⟩
  | case6 c tail _ _ _ ih =>
      cases hrest : parseComponent tail with
      | error e => rw [hrest] at h; cases h
      | ok r =>
          rw [hrest] at h
          cases h
          exact ⟨(ih hrest).1, Nat.le_trans (ih hrest).2 (Nat.le_succ _)⟩

/-- The outer loop of `name_key_parse_cstring_unique`, from behind the bracket or the full stop
on: the components, and the name where it is left. -/
def parseComponents (name : NString) : Except NoKey (List NString × NString) :=
  match _h : parseComponent name with
  | .error e => .error e
  | .ok (s, rest) =>
      if rest.headD 0 = chr ']' then .ok ([s], rest)
      else (parseComponents rest.tail).map fun r => (s :: r.1, r.2)
termination_by name.length
decreasing_by
  obtain ⟨hne, hle⟩ := parseComponent_rest _h
  exact Nat.lt_of_lt_of_le (List.length_tail ▸ Nat.sub_one_lt (mt List.length_eq_zero_iff.1 hne))
    hle

/-- `name_key_parse_cstring_unique`. -/
def nameKeyParseCstringUnique (name : NString) : Except NoKey NameKey :=
  match parseComponents name.tail with
  | .error e => .error e
  | .ok (components, name) =>
      if name.headD 0 ≠ 0 then .error .refused else .ok (.unique components)

/-- The loop of `name_key_parse_cstring_string`. -/
def parseString (name : NString) : Except NoKey NString :=
  match name with
  | [] => .ok []
  | c :: rest =>
      if c = chr '[' ∨ c = chr ']' ∨ c = chr '.' then .error .refused
      else if c = chr '\\' then
        match _h : nameKeyParseEscaped (c :: rest) with
        | .error e => .error e
        | .ok (b, name) => (parseString name).map fun s => b :: s
      else (parseString rest).map fun s => c :: s
termination_by name.length
decreasing_by
  · exact Nat.lt_succ_of_le (nameKeyParseEscaped_length _h)
  · exact Nat.lt_succ_self _

/-- `name_key_parse_cstring_string`. -/
def nameKeyParseCstringString (name : NString) : Except NoKey NameKey :=
  (parseString name).map .string

/-- `name_key_parse_cstring`. -/
def nameKeyParseCstring (name : NString) : Except NoKey NameKey :=
  if name.headD 0 = chr '[' then nameKeyParseCstringUnique name else nameKeyParseCstringString name

/-- A turn of the loop of `write_name_key_1`. -/
def writeNameChar (c : BitVec 8) : NString :=
  if c = chr '[' ∨ c = chr ']' ∨ c = chr '.' ∨ c = chr '\\' then [chr '\\', c] else [c]

/-- `write_name_key_1`. -/
def writeNameKey1 (s : NString) : NString := s.flatMap writeNameChar

/-- The loop of `write_name_key`. -/
def writeComponents (sep : BitVec 8) : List NString → NString
  | [] => []
  | s :: ss => sep :: (writeNameKey1 s ++ writeComponents (chr '.') ss)

/-- `write_name_key`. -/
def writeNameKey : NameKey → NString
  | .string s => writeNameKey1 s
  | .unique ss => writeComponents (chr '[') ss ++ [chr ']']

/-! ### Rename files -/

/-- What `error_posn` is given: the line and the message. -/
abbrev PosnError := BitVec 32 × String

/-- The tokens that a string may come to. -/
inductive RenameToken
  | name (key : NameKey)
  | eof
deriving DecidableEq

/-- How a turn of the loop of `rename_file_read_string` ends: at the second quote, at the end of
the file, or with more of the string to come. -/
inductive StringTurn
  | close (s : IStream)
  | eof (error : PosnError) (s : IStream)
  | more (errors : List PosnError) (chars : NString) (s : IStream)

/-- The `switch` over the status of an escape. -/
def escapeTurn : IStream.Status × IStream → StringTurn
  | (.readChar c, s) => .more [] [c] s
  | (.syntaxError, s) => .more [(s.line, "illegal escape sequence")] [] s
  | (.noChar, s) => .more [] [] s

/-- A turn of the loop of `rename_file_read_string`. -/
def stringTurn (s : IStream) : StringTurn :=
  match s.nextChar false with
  | (none, t) => .eof (t.line, "unexpected end of file") t
  | (some c, t) =>
      if c = 0 then .more [] [0] t
      else if c = IStream.newline then .more [(t.incLine.line, "Unexpected newline")] [] t.incLine
      else if c = chr '"' then .close t
      else if c = chr '[' ∨ c = chr ']' ∨ c = chr '.' then
        .more [(t.line, "illegal character '" ++ String.singleton (Char.ofNat c.toNat) ++ "'")] [] t
      else if c = chr '\\' then escapeTurn t.istreamReadEscapedChar
      else .more [] [c] t

/-- The loop of `rename_file_read_string`, with at most so many turns: the errors, the token and
the stream behind it. -/
@[grind =]
def readStringLoop : Nat → IStream → NString → Option (List PosnError × RenameToken × IStream)
  | 0, _, _ => none
  | n + 1, s, dstring =>
      match stringTurn s with
      | .close t => some ([], .name (.string dstring), t)
      | .eof error t => some ([error], .eof, t)
      | .more errors chars t =>
          (readStringLoop n t (dstring ++ chars)).map fun r => (errors ++ r.1, r.2)

/-- `rename_file_read_string`, with at most so many turns. -/
def renameFileReadString (n : Nat) (s : IStream) :
    Option (List PosnError × RenameToken × IStream) :=
  readStringLoop n s []

end Tendra.Ref.Tld
