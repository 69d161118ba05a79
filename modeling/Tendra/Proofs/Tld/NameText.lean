import Mathlib.Data.List.TakeWhile
import Tendra.Ref.Tld.NameText

/-!
# External names read back

The loop over the components of a unique name reads back what was written, as the one over the
characters of a string does. It is left at the bracket though, and the test behind it takes
that for more of the name, so that no unique name is ever accepted.
-/

namespace Tendra.Ref.Tld

variable {c : BitVec 8}

/-- The characters that are written with a backslash. -/
def Special (c : BitVec 8) : Prop :=
  c = chr '[' ∨ c = chr ']' ∨ c = chr '.' ∨ c = chr '\\'

instance (c : BitVec 8) : Decidable (Special c) := inferInstanceAs (Decidable (_ ∨ _))

theorem writeNameChar_special (h : Special c) : writeNameChar c = [chr '\\', c] :=
  if_pos h

theorem writeNameChar_plain (h : ¬ Special c) : writeNameChar c = [c] := if_neg h

@[simp] theorem writeNameKey1_cons (c : BitVec 8) (s : NString) :
    writeNameKey1 (c :: s) = writeNameChar c ++ writeNameKey1 s := rfl

/-- What is written with a backslash is read with it. -/
theorem nameKeyParseEscaped_special (h : Special c) (rest : NString) :
    nameKeyParseEscaped (chr '\\' :: c :: rest) = .ok (c, rest) := by
  obtain rfl | rfl | rfl | rfl := h <;> rfl

theorem parseString_nil : parseString [] = .ok [] := by rw [parseString]

theorem parseString_escape {rest name : NString} {b : BitVec 8}
    (h : nameKeyParseEscaped (chr '\\' :: rest) = .ok (b, name)) :
    parseString (chr '\\' :: rest) = (parseString name).map fun s => b :: s := by
  rw [parseString, if_neg (by decide), if_pos rfl]
  split
  · next heq => rw [h] at heq; cases heq
  · next heq => rw [h] at heq; cases heq; rfl

theorem parseString_plain (h : ¬ Special c) (rest : NString) :
    parseString (c :: rest) = (parseString rest).map fun s => c :: s := by
  simp only [Special, not_or] at h
  rw [parseString, if_neg (by simp only [h, or_self, not_false_eq_true]), if_neg h.2.2.2]

theorem parseString_writeNameKey1 (s : NString) : parseString (writeNameKey1 s) = .ok s := by
  induction s with
  | nil => exact parseString_nil
  | cons c s ih =>
      rw [writeNameKey1_cons]
      by_cases h : Special c
      · rw [writeNameChar_special h]
        exact (parseString_escape (nameKeyParseEscaped_special h _)).trans (congrArg _ ih)
      · rw [writeNameChar_plain h]
        exact (parseString_plain h _).trans (congrArg _ ih)

theorem parseComponent_special (h : Special c) (rest : NString) :
    parseComponent (chr '\\' :: c :: rest) =
      (parseComponent rest).map fun r => (c :: r.1, r.2) := by
  rw [parseComponent, if_neg (by decide), if_neg (by decide), if_pos rfl]
  split
  · next heq => rw [nameKeyParseEscaped_special h] at heq; cases heq
  · next heq => rw [nameKeyParseEscaped_special h] at heq; cases heq; rfl

theorem parseComponent_plain (h : ¬ Special c) (rest : NString) :
    parseComponent (c :: rest) = (parseComponent rest).map fun r => (c :: r.1, r.2) := by
  simp only [Special, not_or] at h
  rw [parseComponent, if_neg (by simp only [h, or_self, not_false_eq_true]), if_neg h.1,
    if_neg h.2.2.2]

/-- A component is read up to the character behind it. -/
theorem parseComponent_writeNameKey1 (s : NString) {d : BitVec 8} (hd : d = chr '.' ∨ d = chr ']')
    (rest : NString) : parseComponent (writeNameKey1 s ++ d :: rest) = .ok (s, d :: rest) := by
  induction s with
  | nil =>
      change parseComponent (d :: rest) = _
      rw [parseComponent, if_pos hd]
  | cons c s ih =>
      rw [writeNameKey1_cons, List.append_assoc]
      by_cases h : Special c
      · rw [writeNameChar_special h]
        exact (parseComponent_special h _).trans (congrArg _ ih)
      · rw [writeNameChar_plain h]
        exact (parseComponent_plain h _).trans (congrArg _ ih)

/-- The components of a unique name are read back. -/
theorem parseComponents_writeComponents (s : NString) (ss : List NString) (sep : BitVec 8) :
    parseComponents (writeComponents sep (s :: ss) ++ [chr ']']).tail =
      .ok (s :: ss, [chr ']']) := by
  rw [writeComponents, List.cons_append, List.tail_cons, List.append_assoc]
  induction ss generalizing s with
  | nil =>
      have hread := parseComponent_writeNameKey1 s (.inr (Eq.refl (chr ']'))) []
      rw [writeComponents, List.nil_append, parseComponents]
      split
      · next heq => rw [hread] at heq; cases heq
      · next heq => rw [hread] at heq; cases heq; rfl
  | cons s' ss ih =>
      have hread := parseComponent_writeNameKey1 s (.inl (Eq.refl (chr '.')))
        (writeNameKey1 s' ++ (writeComponents (chr '.') ss ++ [chr ']']))
      rw [writeComponents, List.cons_append, List.append_assoc, parseComponents]
      split
      · next heq => rw [hread] at heq; cases heq
      · next heq =>
          rw [hread] at heq
          cases heq
          rw [List.headD_cons, if_neg (by decide), List.tail_cons, ih]
          rfl

/-- The test behind the loop refuses every unique name. -/
theorem nameKeyParseCstringUnique_writeNameKey (s : NString) (ss : List NString) :
    nameKeyParseCstringUnique (writeNameKey (.unique (s :: ss))) = .error .refused := by
  rw [nameKeyParseCstringUnique, writeNameKey, parseComponents_writeComponents]
  exact if_pos (by decide)

/-- The strings of a key. -/
def NameKey.strings : NameKey → List NString
  | .string s => [s]
  | .unique ss => ss

theorem zero_notMem_writeNameKey1 {s : NString} (h : 0 ∉ s) : 0 ∉ writeNameKey1 s := by
  rw [writeNameKey1, List.mem_flatMap]
  rintro ⟨c, hc, hmem⟩
  have hzero : (0 : BitVec 8) ≠ c := fun heq => h (heq ▸ hc)
  by_cases hs : Special c
  · rw [writeNameChar_special hs] at hmem
    simp only [List.mem_cons, List.not_mem_nil, or_false] at hmem
    exact hmem.elim (by decide) hzero
  · rw [writeNameChar_plain hs] at hmem
    exact hzero (List.mem_singleton.1 hmem)

theorem zero_notMem_writeComponents {sep : BitVec 8} (hsep : 0 ≠ sep) {ss : List NString}
    (h : ∀ s ∈ ss, 0 ∉ s) : 0 ∉ writeComponents sep ss := by
  induction ss generalizing sep with
  | nil => exact List.not_mem_nil
  | cons s ss ih =>
      rw [List.forall_mem_cons] at h
      rw [writeComponents, List.mem_cons, List.mem_append, not_or, not_or]
      exact ⟨hsep, zero_notMem_writeNameKey1 h.1, ih (by decide) h.2⟩

/-- The text of a key without null characters is all that is written. -/
theorem cstring_writeNameKey {k : NameKey} (h : ∀ s ∈ k.strings, 0 ∉ s) :
    cstring (writeNameKey k) = writeNameKey k := by
  have hzero : 0 ∉ writeNameKey k := by
    cases k with
    | string s => exact zero_notMem_writeNameKey1 (h s (List.mem_singleton_self s))
    | unique ss =>
        rw [writeNameKey, List.mem_append, not_or]
        exact ⟨zero_notMem_writeComponents (by decide) h, by decide⟩
  rw [cstring, List.takeWhile_eq_self_iff]
  exact fun c hc => decide_eq_true fun heq => hzero (heq ▸ hc)

/-- The text of a string does not begin with a bracket. -/
theorem nameKeyParseCstring_string (s : NString) :
    nameKeyParseCstring (writeNameKey (.string s)) = .ok (.string s) := by
  have hhead : (writeNameKey1 s).headD 0 ≠ chr '[' := by
    cases s with
    | nil => decide
    | cons c s =>
        rw [writeNameKey1_cons]
        by_cases h : Special c
        · rw [writeNameChar_special h]
          exact (by decide : chr '\\' ≠ chr '[')
        · rw [writeNameChar_plain h]
          exact fun heq => h (.inl heq)
  rw [nameKeyParseCstring, writeNameKey, if_neg hhead, nameKeyParseCstringString,
    parseString_writeNameKey1]
  rfl

theorem nameKeyParseCstring_unique (ss : List NString) :
    nameKeyParseCstring (writeNameKey (.unique ss)) = .error .refused := by
  cases ss with
  | nil =>
      change (parseString [chr ']']).map NameKey.string = _
      rw [parseString, if_pos (by decide)]
      rfl
  | cons s ss => exact (if_pos rfl).trans (nameKeyParseCstringUnique_writeNameKey s ss)

/-- A name reads back from the text that is written for it if and only if it is a string. -/
theorem nameKeyParseCstring_writeNameKey_iff (k : NameKey) (h : ∀ s ∈ k.strings, 0 ∉ s) :
    nameKeyParseCstring (cstring (writeNameKey k)) = .ok k ↔ ∃ s, k = .string s := by
  rw [cstring_writeNameKey h]
  cases k with
  | string s => exact ⟨fun _ => ⟨s, rfl⟩, fun _ => nameKeyParseCstring_string s⟩
  | unique ss =>
      rw [nameKeyParseCstring_unique]
      exact ⟨fun heq => (by cases heq), fun ⟨_, heq⟩ => (by cases heq)⟩

/-- `a\.b` is read back. -/
theorem nameKeyParseCstring_writeNameKey_iff_stop :
    nameKeyParseCstring (cstring (writeNameKey (.string [chr 'a', chr '.', chr 'b']))) =
      .ok (.string [chr 'a', chr '.', chr 'b']) :=
  (nameKeyParseCstring_writeNameKey_iff (.string [chr 'a', chr '.', chr 'b']) (by decide)).2
    ⟨_, rfl⟩

/-- `[a]` is not. -/
theorem not_nameKeyParseCstring_writeNameKey :
    nameKeyParseCstring (cstring (writeNameKey (.unique [[chr 'a']]))) ≠
      .ok (.unique [[chr 'a']]) := by
  rw [cstring_writeNameKey (by decide), nameKeyParseCstring_unique]
  exact fun heq => by cases heq

end Tendra.Ref.Tld
