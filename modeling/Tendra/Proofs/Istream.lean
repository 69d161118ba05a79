import Mathlib.Algebra.Group.Nat.Defs
import Mathlib.Logic.Basic
import Tendra.Ref.Istream

/-!
# An input stream delivers its file

What a stream is still to deliver is what its buffer has from the current place up to the
last null character, and then the rest of the file. That character is the end of the file
only where the last filling came out short, as then nothing of the file is left.
-/

namespace Tendra.Ref.IStream

/-- The stream is to deliver `rest`. -/
structure Delivers (s : IStream) (rest : List (BitVec 8)) : Prop where
  lt : s.current < s.end_
  le : s.end_ ≤ limit
  sentinel : s.buffer (s.end_ - 1) = 0
  short : s.end_ ≠ limit → s.file = []
  rest : rest = (List.range' s.current (s.end_ - 1 - s.current)).map s.buffer ++ s.file

section

variable {s : IStream} {rest : List (BitVec 8)} {peek : Bool}

theorem fillBuffer_delivers (s : IStream) : s.fillBuffer.Delivers s.file := by
  refine ⟨Nat.succ_pos _, ?_, ?_, fun hend => ?_, ?_⟩
  · simp only [fillBuffer, List.length_take, limit, istreamBufsize]
    omega
  · simp only [fillBuffer, Nat.add_sub_cancel]
    rw [dif_neg (Nat.lt_irrefl _), if_pos trivial]
  · simp only [fillBuffer, List.length_take, limit, istreamBufsize] at hend ⊢
    rw [List.drop_eq_nil_iff]
    omega
  · have hbytes : (List.range' 0 (s.file.take (istreamBufsize - 1)).length).map
        s.fillBuffer.buffer = s.file.take (istreamBufsize - 1) := by
      refine List.ext_getElem (by simp) fun i hi hi' => ?_
      rw [List.getElem_map, List.getElem_range', Nat.zero_add, Nat.one_mul]
      exact dif_pos hi'
    change _ = (List.range' 0 (s.file.take (istreamBufsize - 1)).length).map _ ++ _
    rw [hbytes]
    exact (List.take_append_drop _ _).symm

/-- There is a character before the last null character. -/
theorem Delivers.eq_cons (h : s.Delivers rest) (hlt : s.current < s.end_ - 1) :
    rest = s.buffer s.current ::
      ((List.range' (s.current + 1) (s.end_ - 1 - (s.current + 1))).map s.buffer ++ s.file) := by
  rw [h.rest, show s.end_ - 1 - s.current = (s.end_ - 1 - (s.current + 1)) + 1 from by omega,
    List.range'_succ]
  rfl

/-- The current place is that of the last null character. -/
theorem Delivers.eq_file (h : s.Delivers rest) (heq : s.current = s.end_ - 1) : rest = s.file := by
  rw [h.rest, heq, Nat.sub_self]
  rfl

/-- What is left after a character is taken off, or looked at. -/
def left (peek : Bool) (rest : List (BitVec 8)) : List (BitVec 8) :=
    if peek then rest else rest.tail

theorem nextChar_on (h : (s.raw peek).2.handleNull = (.on, (s.raw peek).2)) :
    s.nextChar peek = (some (s.raw peek).1, (s.raw peek).2) := by
  rw [nextChar]
  split
  · split
    · next heq => rw [h] at heq; cases heq
    · next heq => rw [h] at heq; cases heq
    · next heq => rw [h] at heq; cases heq; rfl
  · rfl

variable (peek) in
theorem nextChar_redo {t : IStream} (hc : (s.raw peek).1 = 0)
    (h : (s.raw peek).2.handleNull = (.redo, t)) : s.nextChar peek = t.nextChar peek := by
  rw [nextChar, if_pos hc]
  split
  · next heq => rw [h] at heq; cases heq; rfl
  · next heq => rw [h] at heq; cases heq
  · next heq => rw [h] at heq; cases heq

variable (peek) in
theorem nextChar_eof {t : IStream} (hc : (s.raw peek).1 = 0)
    (h : (s.raw peek).2.handleNull = (.eof, t)) : s.nextChar peek = (none, t) := by
  rw [nextChar, if_pos hc]
  split
  · next heq => rw [h] at heq; cases heq
  · next heq => rw [h] at heq; cases heq; rfl
  · next heq => rw [h] at heq; cases heq

theorem nextChar_of_lt (h : s.Delivers rest) (hlt : s.current < s.end_ - 1) :
    (s.nextChar peek).1 = rest.head? ∧ (s.nextChar peek).2.Delivers (left peek rest) ∧
      (s.nextChar peek).2.line = s.line := by
  have hcons := h.eq_cons hlt
  cases peek with
  | true =>
      have hon : (s.raw true).2.handleNull = (.on, (s.raw true).2) := if_neg (Nat.ne_of_lt hlt)
      rw [nextChar_on hon, hcons]
      exact ⟨rfl, ⟨h.lt, h.le, h.sentinel, h.short, hcons.symm.trans h.rest⟩, rfl⟩
  | false =>
      have hon : (s.raw false).2.handleNull = (.on, (s.raw false).2) :=
        if_neg (show s.current + 1 ≠ s.end_ from by omega)
      rw [nextChar_on hon, hcons]
      exact ⟨rfl, ⟨show s.current + 1 < s.end_ from by omega, h.le, h.sentinel, h.short, rfl⟩, rfl⟩

/-- At the last null character of a short buffer the stream stays. -/
theorem nextChar_of_end (h : s.Delivers rest) (heq : s.current = s.end_ - 1)
    (hend : s.end_ ≠ limit) :
    (s.nextChar peek).1 = rest.head? ∧ (s.nextChar peek).2.Delivers (left peek rest) ∧
      (s.nextChar peek).2.line = s.line := by
  have hnil : rest = [] := (h.eq_file heq).trans (h.short hend)
  have hzero : s.buffer s.current = 0 := by rw [heq, h.sentinel]
  subst hnil
  cases peek with
  | true =>
      have heof : (s.raw true).2.handleNull = (.eof, (s.raw true).2) :=
        (if_pos heq).trans (if_neg hend)
      rw [nextChar_eof true hzero heof]
      exact ⟨rfl, ⟨h.lt, h.le, h.sentinel, h.short, h.rest⟩, rfl⟩
  | false =>
      have hpos := h.lt
      have heof : (s.raw false).2.handleNull = (.eof, { s with readLast := true }) :=
        (if_pos (show s.current + 1 = s.end_ from by omega)).trans (if_neg hend)
      rw [nextChar_eof false hzero heof]
      exact ⟨rfl, ⟨h.lt, h.le, h.sentinel, h.short, h.rest⟩, rfl⟩

/-- A buffer that was just filled is not filled again before a character is delivered. -/
theorem nextChar_fillBuffer (s : IStream) :
    (s.fillBuffer.nextChar peek).1 = s.file.head? ∧
      (s.fillBuffer.nextChar peek).2.Delivers (left peek s.file) ∧
      (s.fillBuffer.nextChar peek).2.line = s.line := by
  have h := fillBuffer_delivers s
  by_cases hlt : s.fillBuffer.current < s.fillBuffer.end_ - 1
  · exact nextChar_of_lt h hlt
  · have heq : s.fillBuffer.current = s.fillBuffer.end_ - 1 := by
      have := h.lt
      omega
    refine nextChar_of_end h heq fun hend => ?_
    rw [hend] at heq
    exact absurd heq (show 0 ≠ istreamBufsize - 1 from by decide)

variable (peek) in
/-- The next character is the first one that is to be delivered. -/
theorem nextChar_spec (h : s.Delivers rest) :
    (s.nextChar peek).1 = rest.head? ∧ (s.nextChar peek).2.Delivers (left peek rest) ∧
      (s.nextChar peek).2.line = s.line := by
  by_cases hlt : s.current < s.end_ - 1
  · exact nextChar_of_lt h hlt
  have hpos := h.lt
  have heq : s.current = s.end_ - 1 := by omega
  by_cases hend : s.end_ = limit
  · have hzero : s.buffer s.current = 0 := by rw [heq, h.sentinel]
    rw [h.eq_file heq]
    cases peek with
    | true =>
        have hredo : (s.raw true).2.handleNull = (.redo, (s.raw true).2.fillBuffer) :=
          (if_pos heq).trans (if_pos hend)
        rw [nextChar_redo true hzero hredo]
        exact nextChar_fillBuffer (s.raw true).2
    | false =>
        have hredo : (s.raw false).2.handleNull = (.redo, (s.raw false).2.fillBuffer) :=
          (if_pos (show s.current + 1 = s.end_ from by omega)).trans (if_pos hend)
        rw [nextChar_redo false hzero hredo]
        exact nextChar_fillBuffer (s.raw false).2
  · exact nextChar_of_end h heq hend

end

/-! ### Runs -/

/-- What is asked of a stream. -/
inductive Call
  | read
  | peek
deriving DecidableEq

/-- What a call gives, and the stream after it. -/
def call (c : Call) (s : IStream) : Option (BitVec 8) × IStream :=
  match c with
  | .read => s.istreamReadChar
  | .peek => s.istreamPeekChar

/-- What calls give, one after the other. -/
def calls : List Call → IStream → List (Option (BitVec 8)) × IStream
  | [], s => ([], s)
  | c :: cs, s =>
      let (r, t) := call c s
      let (rs, u) := calls cs t
      (r :: rs, u)

/-- What calls are to give of a file, and what is left of it. -/
def delivered : List Call → List (BitVec 8) → List (Option (BitVec 8)) × List (BitVec 8)
  | [], rest => ([], rest)
  | .read :: cs, rest =>
      let (rs, rest') := delivered cs rest.tail
      (rest.head? :: rs, rest')
  | .peek :: cs, rest =>
      let (rs, rest') := delivered cs rest
      (rest.head? :: rs, rest')

/-- The newlines that the reads among calls take. -/
def newlines : List Call → List (BitVec 8) → Nat
  | [], _ => 0
  | .read :: cs, rest => (if rest.head? = some newline then 1 else 0) + newlines cs rest.tail
  | .peek :: cs, rest => newlines cs rest

section

variable {s : IStream} {rest : List (BitVec 8)}

theorem istreamReadChar_spec (h : s.Delivers rest) :
    s.istreamReadChar.1 = rest.head? ∧ s.istreamReadChar.2.Delivers rest.tail ∧
      s.istreamReadChar.2.line = s.line + if rest.head? = some newline then 1 else 0 := by
  obtain ⟨hc, hrest, hline⟩ := nextChar_spec false h
  rw [istreamReadChar]
  rw [← hc]
  by_cases hnew : (s.nextChar false).1 = some newline
  · rw [if_pos hnew, if_pos hnew, ← hline]
    exact ⟨rfl, ⟨hrest.lt, hrest.le, hrest.sentinel, hrest.short, hrest.rest⟩, rfl⟩
  · rw [if_neg hnew, if_neg hnew]
    exact ⟨rfl, hrest, hline.trans (BitVec.add_zero _).symm⟩

theorem calls_spec (cs : List Call) (h : s.Delivers rest) :
    (calls cs s).1 = (delivered cs rest).1 ∧ (calls cs s).2.Delivers (delivered cs rest).2 ∧
      (calls cs s).2.line = s.line + BitVec.ofNat 32 (newlines cs rest) := by
  induction cs generalizing s rest with
  | nil => exact ⟨rfl, h, (BitVec.add_zero _).symm⟩
  | cons c cs ih =>
      cases c with
      | read =>
          obtain ⟨hc, hrest, hline⟩ := istreamReadChar_spec h
          obtain ⟨hcs, hrest', hline'⟩ := ih hrest
          refine ⟨congrArg₂ List.cons hc hcs, hrest', ?_⟩
          change (calls cs s.istreamReadChar.2).2.line = _
          rw [hline', hline, newlines, BitVec.ofNat_add, BitVec.add_assoc]
          congr 2
          split <;> rfl
      | peek =>
          obtain ⟨hc, hrest, hline⟩ := nextChar_spec true h
          obtain ⟨hcs, hrest', hline'⟩ := ih hrest
          exact ⟨congrArg₂ List.cons hc hcs, hrest', hline'.trans (by rw [hline]; rfl)⟩

end

theorem istreamOpen_delivers (contents : List (BitVec 8)) (garbage : Nat → BitVec 8) :
    (istreamOpen contents garbage).Delivers contents :=
  fillBuffer_delivers _

theorem istreamInput_delivers (contents : List (BitVec 8)) :
    (istreamInput contents).Delivers contents :=
  ⟨Nat.lt_succ_self _, Nat.le_refl _, rfl, fun h => absurd (Eq.refl istreamBufsize) h, by
    rw [show (istreamInput contents).end_ - 1 - (istreamInput contents).current = 0 from
      Nat.sub_self 8192]
    rfl⟩

/-- What a stream that begins with line 1 gives is what it is to give, as long as the number of
lines fits. -/
theorem calls_iff {s : IStream} {contents : List (BitVec 8)} (h : s.Delivers contents)
    (hline : s.line = 1) (cs : List Call) :
    ((calls cs s).1 = (delivered cs contents).1 ∧
        (calls cs s).2.line.toNat = 1 + newlines cs contents) ↔
      1 + newlines cs contents < 2 ^ 32 := by
  obtain ⟨hgives, _, hlines⟩ := calls_spec cs h
  rw [hline] at hlines
  rw [hlines, BitVec.toNat_add, BitVec.toNat_ofNat]
  refine ⟨fun h => ?_, fun h => ⟨hgives, ?_⟩⟩
  · have := h.2
    omega
  · change (1 + _) % 2 ^ 32 = _
    omega

/-- A stream delivers its file, and counts the lines as long as their number fits. -/
theorem calls_exact_iff (contents : List (BitVec 8)) (garbage : Nat → BitVec 8) (cs : List Call) :
    (((calls cs (istreamOpen contents garbage)).1 = (delivered cs contents).1 ∧
        (calls cs (istreamOpen contents garbage)).2.line.toNat = 1 + newlines cs contents) ↔
      1 + newlines cs contents < 2 ^ 32) ∧
    (((calls cs (istreamInput contents)).1 = (delivered cs contents).1 ∧
        (calls cs (istreamInput contents)).2.line.toNat = 1 + newlines cs contents) ↔
      1 + newlines cs contents < 2 ^ 32) :=
  ⟨calls_iff (istreamOpen_delivers contents garbage) rfl cs,
    calls_iff (istreamInput_delivers contents) rfl cs⟩

theorem newlines_replicate (n : Nat) :
    newlines (List.replicate n .read) (List.replicate n newline) = n := by
  induction n with
  | zero => rfl
  | succ n ih =>
      rw [List.replicate_succ, List.replicate_succ, newlines, List.head?_cons, if_pos rfl,
        List.tail_cons, ih]
      omega

/-- The line count of a file of so many newlines comes round to 0. -/
theorem not_calls_exact :
    (calls (List.replicate (2 ^ 32 - 1) .read)
      (istreamOpen (List.replicate (2 ^ 32 - 1) newline) fun _ => 0)).2.line.toNat ≠
      1 + newlines (List.replicate (2 ^ 32 - 1) .read) (List.replicate (2 ^ 32 - 1) newline) := by
  generalize hn : 2 ^ 32 - 1 = n
  intro heq
  have hfits := (calls_iff (istreamOpen_delivers (List.replicate n newline) fun _ => 0) rfl
    (List.replicate n .read)).1 ⟨(calls_spec _ (istreamOpen_delivers _ _)).1, heq⟩
  rw [newlines_replicate] at hfits
  omega

end Tendra.Ref.IStream
