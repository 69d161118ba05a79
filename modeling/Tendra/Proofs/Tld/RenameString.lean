import Tendra.Proofs.Istream
import Tendra.Proofs.Tld.NameText

/-!
# Names of the command line in rename files

The two parsers take the same characters, one at a time, but for hexadecimal escapes. The parser
of a command line begins to read these at the `x`, whose value is 33, and takes the first digit
for the second one. Only `\x11` has the same meaning then.
-/

namespace Tendra.Ref.Tld

open IStream

variable {c b x d : BitVec 8} {rest : NString}

/-- The two characters behind each `\x` of a text. -/
def hexEscapes (t : NString) : List NString :=
  match t with
  | [] => []
  | c :: rest =>
      if c = chr '\\' then
        if rest.headD 0 = chr 'x' ∨ rest.headD 0 = chr 'X' then
          rest.tail.take 2 :: hexEscapes (rest.drop 3)
        else hexEscapes rest.tail
      else hexEscapes rest
termination_by t.length
decreasing_by all_goals simp; try omega

/-- Every hexadecimal escape of a text is `\x11`. -/
def OnlyEleven (t : NString) : Prop := ∀ d ∈ hexEscapes t, d = [chr '1', chr '1']

theorem onlyEleven_nil : OnlyEleven [] := by
  rw [OnlyEleven, hexEscapes]
  exact fun _ h => nomatch h

theorem onlyEleven_plain (h : c ≠ chr '\\') (rest : NString) :
    OnlyEleven (c :: rest) ↔ OnlyEleven rest := by
  rw [OnlyEleven, hexEscapes, if_neg h, OnlyEleven]

theorem onlyEleven_other (h : ¬ (c = chr 'x' ∨ c = chr 'X')) (rest : NString) :
    OnlyEleven (chr '\\' :: c :: rest) ↔ OnlyEleven rest := by
  rw [OnlyEleven, hexEscapes, if_pos rfl, List.headD_cons, if_neg h, OnlyEleven, List.tail_cons]

theorem onlyEleven_hex (h : c = chr 'x' ∨ c = chr 'X') (d₁ d₂ : BitVec 8) (rest : NString) :
    OnlyEleven (chr '\\' :: c :: d₁ :: d₂ :: rest) ↔
      (d₁ = chr '1' ∧ d₂ = chr '1') ∧ OnlyEleven rest := by
  rw [OnlyEleven, hexEscapes, if_pos rfl, List.headD_cons, if_pos h, List.forall_mem_cons,
    OnlyEleven]
  simp

/-! ### The escapes of a command line -/

/-- The escapes that have no digits, with what they stand for. -/
def shortEscapes : List (BitVec 8 × BitVec 8) :=
  [(chr 'n', 0x0a), (chr 'N', 0x0a), (chr 'r', 0x0d), (chr 'R', 0x0d), (chr 't', 0x09),
    (chr 'T', 0x09), (chr '0', 0), (chr '\\', chr '\\'), (chr '.', chr '.'), (chr '[', chr '['),
    (chr ']', chr ']')]

theorem nameKeyParseHexChar_eq (hx : x = chr 'x' ∨ x = chr 'X')
    (h : nameKeyParseHexChar (x :: d :: rest) = some b) :
    ∃ v, syntaxValue d = some v ∧ b = 0x10 ||| BitVec.ofNat 8 v := by
  have hvalue : syntaxValue x = some 33 := by obtain rfl | rfl := hx <;> rfl
  rw [nameKeyParseHexChar, List.headD_cons, hvalue, List.tail_cons, List.headD_cons] at h
  cases hd : syntaxValue d with
  | none => rw [hd] at h; cases h
  | some v => rw [hd] at h; cases h; exact ⟨v, rfl, rfl⟩

/-- What an escape that is accepted looks like. -/
theorem nameKeyParseEscaped_cases {name : NString}
    (h : nameKeyParseEscaped (chr '\\' :: rest) = .ok (b, name)) :
    (∃ x d₁ d₂ v, (x = chr 'x' ∨ x = chr 'X') ∧ rest = x :: d₁ :: d₂ :: name ∧
      syntaxValue d₁ = some v ∧ b = 0x10 ||| BitVec.ofNat 8 v) ∨
    ∃ c, (c, b) ∈ shortEscapes ∧ rest = c :: name := by
  cases rest with
  | nil => cases h
  | cons c rest =>
      rw [nameKeyParseEscaped, List.tail_cons, List.headD_cons] at h
      by_cases hx : c = chr 'x' ∨ c = chr 'X'
      · rw [if_pos hx] at h
        refine .inl ?_
        split at h
        · cases h
        · next hb =>
            split at h
            · cases h
            · next hlen =>
                cases h
                obtain _ | ⟨d₁, _ | ⟨d₂, name⟩⟩ := rest
                · exact absurd (show 1 < 3 from by decide) hlen
                · exact absurd (show 2 < 3 from by decide) hlen
                obtain ⟨v, hv, hb⟩ := nameKeyParseHexChar_eq hx hb
                exact ⟨c, d₁, d₂, v, hx, rfl, hv, hb⟩
      · rw [if_neg hx] at h
        refine .inr ⟨c, ?_⟩
        split at h
        · next hc => cases h; exact ⟨by obtain rfl | rfl := hc <;> decide, rfl⟩
        split at h
        · next hc => cases h; exact ⟨by obtain rfl | rfl := hc <;> decide, rfl⟩
        split at h
        · next hc => cases h; exact ⟨by obtain rfl | rfl := hc <;> decide, rfl⟩
        split at h
        · next hc => cases h; exact ⟨by rw [hc]; decide, rfl⟩
        split at h
        · next hc => cases h; exact ⟨by obtain rfl | rfl | rfl | rfl := hc <;> decide, rfl⟩
        · cases h

/-! ### The turns of the rename file -/

/-- The value of a hexadecimal digit. -/
def hexDigit (d : BitVec 8) : Option Nat := (syntaxValue d).filter (· < 16)

section

variable {s : IStream}

theorem nextChar_cons (h : s.Delivers (c :: rest)) :
    ∃ t, s.nextChar false = (some c, t) ∧ t.Delivers rest := by
  obtain ⟨hc, hrest, _⟩ := nextChar_spec false h
  exact ⟨(s.nextChar false).2, Prod.ext hc rfl, hrest⟩

theorem stringTurn_close (h : s.Delivers (chr '"' :: rest)) : ∃ t, stringTurn s = .close t := by
  obtain ⟨t, ht, _⟩ := nextChar_cons h
  exact ⟨t, by rw [stringTurn, ht]; rfl⟩

theorem stringTurn_plain (h : s.Delivers (c :: rest)) (hzero : c ≠ 0) (hnewline : c ≠ newline)
    (hquote : c ≠ chr '"') (hs : ¬ Special c) :
    ∃ t, stringTurn s = .more [] [c] t ∧ t.Delivers rest := by
  obtain ⟨t, ht, hrest⟩ := nextChar_cons h
  simp only [Special, not_or] at hs
  refine ⟨t, ?_, hrest⟩
  rw [stringTurn, ht]
  simp only [if_neg hzero, if_neg hnewline, if_neg hquote, hs, or_self, if_false]

theorem stringTurn_escape (h : s.Delivers (chr '\\' :: rest)) :
    ∃ t : IStream, stringTurn s = escapeTurn t.istreamReadEscapedChar ∧ t.Delivers rest := by
  obtain ⟨t, ht, hrest⟩ := nextChar_cons h
  exact ⟨t, by rw [stringTurn, ht]; rfl, hrest⟩

theorem istreamReadEscapedChar_short (hc : (c, b) ∈ shortEscapes) (h : s.Delivers (c :: rest)) :
    ∃ t, s.istreamReadEscapedChar = (.readChar b, t) ∧ t.Delivers rest := by
  obtain ⟨t, ht, hrest⟩ := nextChar_cons h
  refine ⟨t, ?_, hrest⟩
  rw [istreamReadEscapedChar, ht]
  simp only [shortEscapes, List.mem_cons, Prod.mk.injEq, List.not_mem_nil, or_false] at hc
  obtain ⟨rfl, rfl⟩ | ⟨rfl, rfl⟩ | ⟨rfl, rfl⟩ | ⟨rfl, rfl⟩ | ⟨rfl, rfl⟩ | ⟨rfl, rfl⟩ | ⟨rfl, rfl⟩ |
    ⟨rfl, rfl⟩ | ⟨rfl, rfl⟩ | ⟨rfl, rfl⟩ | ⟨rfl, rfl⟩ := hc <;> rfl

theorem istreamReadEscapedChar_hex (hx : x = chr 'x' ∨ x = chr 'X') (h : s.Delivers (x :: rest)) :
    ∃ t : IStream, s.istreamReadEscapedChar = t.istreamReadHexChar ∧ t.Delivers rest := by
  obtain ⟨t, ht, hrest⟩ := nextChar_cons h
  refine ⟨t, ?_, hrest⟩
  rw [istreamReadEscapedChar, ht]
  obtain rfl | rfl := hx <;> rfl

theorem readHexDigit_eq (h : s.Delivers (d :: rest)) :
    ∃ t, s.readHexDigit = (hexDigit d, t) ∧ t.Delivers rest := by
  obtain ⟨t, ht, hrest⟩ := nextChar_cons h
  rw [readHexDigit, ht]
  by_cases hzero : d = 0
  · subst hzero
    exact ⟨t, rfl, hrest⟩
  by_cases hnewline : d = newline
  · subst hnewline
    exact ⟨t.incLine, rfl, ⟨hrest.lt, hrest.le, hrest.sentinel, hrest.short, hrest.rest⟩⟩
  · refine ⟨t, ?_, hrest⟩
    simp only [if_neg hzero, if_neg hnewline]
    rfl

/-- A hexadecimal escape comes to an error or to the character of both digits. -/
theorem stringTurn_hex {d₁ d₂ : BitVec 8} (hx : x = chr 'x' ∨ x = chr 'X')
    (h : s.Delivers (chr '\\' :: x :: d₁ :: d₂ :: rest)) :
    (∃ errors chars t, stringTurn s = .more errors chars t ∧ errors ≠ [] ∧
      (hexDigit d₁ = none ∨ hexDigit d₂ = none)) ∨
    ∃ v₁ v₂ t, stringTurn s = .more [] [BitVec.ofNat 8 (v₁ * 16 + v₂)] t ∧ t.Delivers rest ∧
      hexDigit d₁ = some v₁ ∧ hexDigit d₂ = some v₂ := by
  obtain ⟨s₁, hs, h⟩ := stringTurn_escape h
  obtain ⟨s₂, hs₁, h⟩ := istreamReadEscapedChar_hex hx h
  obtain ⟨s₃, hs₂, h⟩ := readHexDigit_eq h
  obtain ⟨s₄, hs₃, h⟩ := readHexDigit_eq h
  rw [hs, hs₁, istreamReadHexChar, hs₂]
  cases hd₁ : hexDigit d₁ with
  | none => exact .inl ⟨_, _, _, rfl, List.cons_ne_nil _ _, .inl rfl⟩
  | some v₁ =>
      simp only [hs₃]
      cases hd₂ : hexDigit d₂ with
      | none => exact .inl ⟨_, _, _, rfl, List.cons_ne_nil _ _, .inr rfl⟩
      | some v₂ => exact .inr ⟨v₁, v₂, s₄, rfl, h, rfl, rfl⟩

end

/-! ### The whole name -/

theorem hexDigit_one_iff : ∀ d, hexDigit d = some 1 ↔ d = chr '1' := by decide

theorem hexDigit_some {v : Nat} (h : hexDigit d = some v) : syntaxValue d = some v ∧ v < 16 := by
  obtain ⟨hd, hv⟩ := Option.filter_eq_some_iff.1 h
  exact ⟨hd, of_decide_eq_true hv⟩

/-- Both ways of reading two digits come to one character for `11` only. -/
theorem hexChar_eq_iff : ∀ v₁ < 16, ∀ v₂ < 16,
    BitVec.ofNat 8 (v₁ * 16 + v₂) = 0x10 ||| BitVec.ofNat 8 v₁ ↔ v₁ = 1 ∧ v₂ = 1 := by
  decide

theorem map_eq_ok {α β : Type} {f : α → β} {r : Except NoKey α} {b : β} (h : r.map f = .ok b) :
    ∃ a, r = .ok a ∧ f a = b := by
  cases r with
  | error e => cases h
  | ok a => cases h; exact ⟨a, rfl, rfl⟩

theorem not_hex_of_mem (h : (c, b) ∈ shortEscapes) : ¬ (c = chr 'x' ∨ c = chr 'X') := by
  rintro (rfl | rfl) <;> revert b <;> decide

section

variable {n : Nat} {s u : IStream} {dstring k : NString} {errors : List PosnError}

/-- Characters are put behind those that are there. -/
theorem prefix_readStringLoop
    (h : readStringLoop n s dstring = some (errors, .name (.string k), u)) : dstring <+: k := by
  induction n generalizing s dstring errors with
  | zero => cases h
  | succ n ih =>
      rw [readStringLoop] at h
      split at h
      · cases h
        exact List.prefix_refl _
      · cases h
      · obtain ⟨⟨_, _, _⟩, hloop, heq⟩ := Option.map_eq_some_iff.1 h
        cases heq
        exact (List.prefix_append _ _).trans (ih hloop)

/-- After a turn without an error, all is as the rest of the loop has it. -/
theorem readStringLoop_more {t : IStream} {chars : NString}
    (h : stringTurn s = .more [] chars t) :
    readStringLoop (n + 1) s dstring = readStringLoop n t (dstring ++ chars) := by
  rw [readStringLoop, h]
  exact Option.map_id'

theorem readStringLoop_error {t : IStream} {chars : NString}
    (h : stringTurn s = .more errors chars t)
    (hne : errors ≠ []) {r : RenameToken × IStream} :
    readStringLoop (n + 1) s dstring ≠ some ([], r) := by
  rw [readStringLoop, h]
  intro heq
  obtain ⟨r', _, heq⟩ := Option.map_eq_some_iff.1 heq
  exact hne (List.append_eq_nil_iff.1 (Prod.mk.inj heq).1).1

end

/-- The loop reads what the parser of a command line has read, if and only if all hexadecimal
escapes are `\x11`. -/
theorem readStringLoop_iff {t k dstring : NString} {s : IStream} {n : Nat}
    (hs : s.Delivers (t ++ chr '"' :: rest)) (hzero : 0 ∉ t) (hnewline : newline ∉ t)
    (hquote : chr '"' ∉ t) (hk : parseString t = .ok k) (hn : t.length < n) :
    (∃ u, readStringLoop n s dstring = some ([], .name (.string (dstring ++ k)), u)) ↔
      OnlyEleven t := by
  fun_induction parseString t generalizing k s n dstring with
  | case1 =>
      obtain ⟨n, rfl⟩ := Nat.exists_eq_add_one_of_ne_zero (Nat.ne_of_gt hn)
      cases hk
      obtain ⟨u, hu⟩ := stringTurn_close hs
      rw [readStringLoop, hu, List.append_nil]
      exact ⟨fun _ => onlyEleven_nil, fun _ => ⟨u, rfl⟩⟩
  | case2 => cases hk
  | case3 => cases hk
  | case4 rest' b name _ hesc ih =>
      obtain ⟨n, rfl⟩ := Nat.exists_eq_add_one_of_ne_zero (Nat.ne_of_gt (Nat.zero_lt_of_lt hn))
      obtain ⟨k', hk', rfl⟩ := map_eq_ok hk
      rw [← List.singleton_append, ← List.append_assoc]
      obtain ⟨x, d₁, d₂, v, hx, rfl, hv, rfl⟩ | ⟨c, hc, rfl⟩ := nameKeyParseEscaped_cases hesc
      · simp only [List.mem_cons, not_or, List.length_cons] at hzero hnewline hquote hn
        rw [onlyEleven_hex hx, ← hexDigit_one_iff, ← hexDigit_one_iff]
        obtain ⟨errors, chars, t, ht, hne, hd⟩ | ⟨v₁, v₂, t, ht, hrest, hd₁, hd₂⟩ :=
          stringTurn_hex hx hs
        · refine ⟨fun ⟨_, hu⟩ => absurd hu (readStringLoop_error ht hne), fun ⟨⟨hd₁, hd₂⟩, _⟩ => ?_⟩
          obtain hd | hd := hd
          · cases hd.symm.trans hd₁
          · cases hd.symm.trans hd₂
        · obtain ⟨hv₁, hlt₁⟩ := hexDigit_some hd₁
          obtain rfl := Option.some.inj (hv.symm.trans hv₁)
          have hchar := hexChar_eq_iff v hlt₁ v₂ (hexDigit_some hd₂).2
          rw [readStringLoop_more ht, hd₁, hd₂]
          by_cases heq : v = 1 ∧ v₂ = 1
          · rw [hchar.2 heq, heq.1, heq.2, and_iff_right ⟨rfl, rfl⟩]
            exact ih hrest hzero.2.2.2.2 hnewline.2.2.2.2 hquote.2.2.2.2 hk' (by omega)
          · refine ⟨fun ⟨_, hu⟩ => absurd ?_ heq, fun ⟨⟨h₁, h₂⟩, _⟩ =>
              absurd ⟨Option.some.inj h₁, Option.some.inj h₂⟩ heq⟩
            have hstart := prefix_readStringLoop hu
            rw [List.append_assoc, List.prefix_append_right_inj] at hstart
            exact hchar.1 (List.cons_prefix_cons.1 hstart).1
      · simp only [List.mem_cons, not_or, List.length_cons] at hzero hnewline hquote hn
        obtain ⟨s₁, hs₁, hrest⟩ := stringTurn_escape hs
        obtain ⟨s₂, hs₂, hrest⟩ := istreamReadEscapedChar_short hc hrest
        rw [hs₂] at hs₁
        rw [readStringLoop_more hs₁, onlyEleven_other (not_hex_of_mem hc)]
        exact ih hrest hzero.2.2 hnewline.2.2 hquote.2.2 hk' (by omega)
  | case5 c rest' hs' hbackslash ih =>
      obtain ⟨n, rfl⟩ := Nat.exists_eq_add_one_of_ne_zero (Nat.ne_of_gt (Nat.zero_lt_of_lt hn))
      obtain ⟨k', hk', rfl⟩ := map_eq_ok hk
      simp only [List.mem_cons, not_or, List.length_cons] at hzero hnewline hquote hn
      have hplain : ¬ Special c := fun h => by
        obtain h | h | h | h := h
        · exact hs' (.inl h)
        · exact hs' (.inr (.inl h))
        · exact hs' (.inr (.inr h))
        · exact hbackslash h
      obtain ⟨t, ht, hrest⟩ := stringTurn_plain hs (Ne.symm hzero.1) (Ne.symm hnewline.1)
        (Ne.symm hquote.1) hplain
      rw [← List.singleton_append, ← List.append_assoc, readStringLoop_more ht,
        onlyEleven_plain hbackslash]
      exact ih hrest hzero.2 hnewline.2 hquote.2 hk' (by omega)

/-- A text that is a string name of the command line is the same name between quotes in a rename
file, if and only if all its hexadecimal escapes are `\x11`. -/
theorem renameFileReadString_iff {t k rest : NString} {s : IStream} {n : Nat}
    (hs : s.Delivers (t ++ chr '"' :: rest)) (hzero : 0 ∉ t) (hnewline : newline ∉ t)
    (hquote : chr '"' ∉ t) (hk : nameKeyParseCstring t = .ok (.string k)) (hn : t.length < n) :
    (∃ u, renameFileReadString n s = some ([], .name (.string k), u)) ↔ OnlyEleven t := by
  rw [nameKeyParseCstring] at hk
  by_cases hunique : t.headD 0 = chr '['
  · rw [if_pos hunique, nameKeyParseCstringUnique] at hk
    split at hk
    · cases hk
    · split at hk <;> cases hk
  · rw [if_neg hunique] at hk
    obtain ⟨k', hk', heq⟩ := map_eq_ok hk
    cases heq
    exact readStringLoop_iff hs hzero hnewline hquote hk' hn

/-- `\x11`, after which the file ends. -/
theorem renameFileReadString_iff_eleven :
    ∃ u, renameFileReadString 5 (istreamOpen ([chr '\\', chr 'x', chr '1', chr '1'] ++ [chr '"'])
      fun _ => 0) = some ([], .name (.string [0x11]), u) :=
  (renameFileReadString_iff (istreamOpen_delivers _ _) (by decide) (by decide) (by decide)
    ((if_neg (by decide)).trans (congrArg _ ((parseString_escape rfl).trans
      (congrArg _ parseString_nil)))) (by decide)).2
    ((onlyEleven_hex (.inl rfl) _ _ _).2 ⟨⟨rfl, rfl⟩, onlyEleven_nil⟩)

/-- `\x41` is the character 0x14 on the command line, and another one in the file. -/
theorem not_renameFileReadString :
    nameKeyParseCstring [chr '\\', chr 'x', chr '4', chr '1'] = .ok (.string [0x14]) ∧
    ¬ ∃ u, renameFileReadString 5 (istreamOpen ([chr '\\', chr 'x', chr '4', chr '1'] ++ [chr '"'])
      fun _ => 0) = some ([], .name (.string [0x14]), u) := by
  have hk : parseString [chr '\\', chr 'x', chr '4', chr '1'] = .ok [0x14] :=
    (parseString_escape rfl).trans (congrArg _ parseString_nil)
  refine ⟨(if_neg (by decide)).trans (congrArg _ hk), fun h => ?_⟩
  have heleven := (readStringLoop_iff (istreamOpen_delivers _ _) (by decide) (by decide) (by decide)
    hk (by decide)).1 h
  exact absurd ((onlyEleven_hex (.inl rfl) _ _ _).1 heleven).1 (by decide)

end Tendra.Ref.Tld
