import Tendra.Ref.Tdfc.Macro

/-!
# Lists of tokens: `concat_pptoks` and `clean_tok_list`

## What `concat_pptoks` makes of two tokens

Where it returns true, the token is one of the language and is spelled as the two were. Where it
returns false nothing has become of them, but that their white space was moved before the cases
were looked at.

Names and numbers are those that the lexer reads: a universal character is left in them as it is
spelled. Which characters are letters depends on a table, and is a parameter.
-/

namespace Tendra.Ref.Tdfc.Macro

/-! ## Spelling -/

/-- How a token is spelled. -/
def Tok.spell : Tok → List Char
  | .ignore => []
  | .identifier name => name
  | .number text => text
  | .charLit wide text => (if wide then ['L'] else []) ++ '\'' :: text ++ ['\'']
  | .stringLit wide text => (if wide then ['L'] else []) ++ '"' :: text ++ ['"']
  | .symbol c => c.name
  | .macroArg name => name
  | .unknown c => [c]
  | .other name => name

/-- The rest of a name: letters, digits and universal characters. -/
inductive NameTail (alpha : Char → Bool) : List Char → Prop
  | nil : NameTail alpha []
  | alphanum {c s} (hc : alpha c = true ∨ c.isDigit = true) (hs : NameTail alpha s) :
      NameTail alpha (c :: s)
  | universal {c s} (hc : c = 'u' ∨ c = 'U') (hs : NameTail alpha s) :
      NameTail alpha ('\\' :: c :: s)

/-- The rest of a number. -/
inductive NumberTail (alpha : Char → Bool) : List Char → Prop
  | nil : NumberTail alpha []
  | alphanum {c s} (hc : alpha c = true ∨ c.isDigit = true) (hs : NumberTail alpha s) :
      NumberTail alpha (c :: s)
  | dot {s} (hs : NumberTail alpha s) : NumberTail alpha ('.' :: s)
  | sign {e c s} (he : e = 'e' ∨ e = 'E') (hc : c = '+' ∨ c = '-') (hs : NumberTail alpha s) :
      NumberTail alpha (e :: c :: s)
  | universal {c s} (hc : c = 'u' ∨ c = 'U') (hs : NumberTail alpha s) :
      NumberTail alpha ('\\' :: c :: s)

/-- A name starts with a letter or a universal character. -/
inductive IsName (alpha : Char → Bool) : List Char → Prop
  | alpha {c s} (hc : alpha c = true) (hs : NameTail alpha s) : IsName alpha (c :: s)
  | universal {c s} (hc : c = 'u' ∨ c = 'U') (hs : NameTail alpha s) :
      IsName alpha ('\\' :: c :: s)

/-- A number starts with a digit or with a dot and a digit. -/
inductive IsNumber (alpha : Char → Bool) : List Char → Prop
  | digit {c s} (hc : c.isDigit = true) (hs : NumberTail alpha s) : IsNumber alpha (c :: s)
  | dot {c s} (hc : c.isDigit = true) (hs : NumberTail alpha s) : IsNumber alpha ('.' :: c :: s)

/-- The text of a literal ends before the first quote that is not escaped. -/
def Closed (quote : Char) : List Char → Prop
  | [] => True
  | ['\\'] => False
  | '\\' :: _ :: s => Closed quote s
  | c :: s => c ≠ quote ∧ Closed quote s

/-- The data of a token is such as the lexer makes. -/
def Tok.Formed (alpha : Char → Bool) : Tok → Prop
  | .identifier name => IsName alpha name
  | .number text => IsNumber alpha text
  | .charLit _ text => Closed '\'' text
  | .stringLit _ text => Closed '"' text
  | _ => True

section

variable {alpha : Char → Bool}
variable {s t : List Char}

theorem NameTail.append (hs : NameTail alpha s) (ht : NameTail alpha t) :
    NameTail alpha (s ++ t) := by
  induction hs with
  | nil => exact ht
  | alphanum hc _ ih => exact .alphanum hc ih
  | universal hc _ ih => exact .universal hc ih

theorem NumberTail.append (hs : NumberTail alpha s) (ht : NumberTail alpha t) :
    NumberTail alpha (s ++ t) := by
  induction hs with
  | nil => exact ht
  | alphanum hc _ ih => exact .alphanum hc ih
  | dot _ ih => exact .dot ih
  | sign he hc _ ih => exact .sign he hc ih
  | universal hc _ ih => exact .universal hc ih

theorem NameTail.number (hs : NameTail alpha s) : NumberTail alpha s := by
  induction hs with
  | nil => exact .nil
  | alphanum hc _ ih => exact .alphanum hc ih
  | universal hc _ ih => exact .universal hc ih

theorem IsName.tail (hs : IsName alpha s) : NameTail alpha s := by
  cases hs with
  | alpha hc hs => exact .alphanum (.inl hc) hs
  | universal hc hs => exact .universal hc hs

theorem IsNumber.tail (hs : IsNumber alpha s) : NumberTail alpha s := by
  cases hs with
  | digit hc hs => exact .alphanum (.inr hc) hs
  | dot hc hs => exact .dot (.alphanum (.inr hc) hs)

theorem IsName.append (hs : IsName alpha s) (ht : NameTail alpha t) : IsName alpha (s ++ t) := by
  cases hs with
  | alpha hc hs => exact .alpha hc (hs.append ht)
  | universal hc hs => exact .universal hc (hs.append ht)

theorem IsNumber.append (hs : IsNumber alpha s) (ht : NumberTail alpha t) :
    IsNumber alpha (s ++ t) := by
  cases hs with
  | digit hc hs => exact .digit hc (hs.append ht)
  | dot hc hs => exact .dot hc (hs.append ht)

/-- The rest of a number without dots and signs is the rest of a name. -/
theorem NumberTail.name (hs : NumberTail alpha s) (h : s.any isPoint = false) :
    NameTail alpha s := by
  induction hs with
  | nil => exact .nil
  | alphanum hc _ ih => exact .alphanum hc (ih (by simp_all))
  | dot _ ih => simp [isPoint] at h
  | sign he hc _ ih =>
      rcases hc with rfl | rfl <;> simp [isPoint] at h
  | universal hc _ ih => exact .universal hc (ih (by simp_all))

/-- A sign can follow the `e` at the end of a number. -/
theorem NumberTail.signed (hs : NumberTail alpha s) {c : Char}
    (hlast : s.getLast? = some 'e' ∨ s.getLast? = some 'E') (hc : c = '+' ∨ c = '-') :
    NumberTail alpha (s ++ [c]) := by
  induction hs with
  | nil => simp at hlast
  | @alphanum d s hd hs ih =>
      cases s with
      | nil =>
          have he : d = 'e' ∨ d = 'E' := by simpa using hlast
          exact .sign he hc .nil
      | cons d' s => exact .alphanum hd (ih (by simpa using hlast))
  | @dot s hs ih =>
      cases s with
      | nil => simp at hlast
      | cons d' s => exact .dot (ih (by simpa using hlast))
  | @sign e d s he hd hs ih =>
      cases s with
      | nil => rcases hd with rfl | rfl <;> simp at hlast
      | cons d' s => exact .sign he hd (ih (by simpa using hlast))
  | @universal d s hd hs ih =>
      cases s with
      | nil => rcases hd with rfl | rfl <;> simp at hlast
      | cons d' s => exact .universal hd (ih (by simpa using hlast))

/-- A digit is no `e`: the number goes on behind its first digit. -/
theorem IsNumber.signed (hs : IsNumber alpha s) {c : Char}
    (hlast : s.getLast? = some 'e' ∨ s.getLast? = some 'E') (hc : c = '+' ∨ c = '-') :
    IsNumber alpha (s ++ [c]) := by
  cases hs with
  | @digit d s hd hs =>
      cases s with
      | nil =>
          have he : d = 'e' ∨ d = 'E' := by simpa using hlast
          rcases he with rfl | rfl <;> exact absurd hd (by decide)
      | cons d' s => exact .digit hd (hs.signed (by simpa using hlast) hc)
  | @dot d s hd hs =>
      cases s with
      | nil =>
          have he : d = 'e' ∨ d = 'E' := by simpa using hlast
          rcases he with rfl | rfl <;> exact absurd hd (by decide)
      | cons d' s => exact .dot hd (hs.signed (by simpa using hlast) hc)

end

/-! ## Pasting -/

/-- A token that the options allow. -/
def Tok.Allowed (o : Options) : Tok → Prop
  | .symbol c => o.allows c = true
  | _ => True

/-- The two together are one token, as far as `concat_pptoks` knows. -/
def pastes (o : Options) : Tok → Tok → Bool
  | .symbol a, .symbol b => Symbol.all.any fun c => a.name ++ b.name = c.name && o.allows c
  | .symbol a, .number s => a = .dot && s.head? ≠ some '.'
  | .identifier _, .identifier _ => true
  | .identifier _, .number n => !n.any isPoint
  | .identifier s, .charLit wide _ => s = ['L'] && !wide
  | .identifier s, .stringLit wide _ => s = ['L'] && !wide
  | .number _, .identifier _ => true
  | .number _, .number _ => true
  | .number s, .symbol b =>
      b = .dot || b = .ellipsis ||
        ((b = .plus || b = .minus) && (s.getLast? = some 'e' || s.getLast? = some 'E'))
  | _, _ => false

/-- The result is what it should be: with true a token that is spelled like the two, and with
false `p` as it was. -/
def Pasted (alpha : Char → Bool) (o : Options) (p : PPToken) (b : Tok) (can : Bool)
    (r : Bool × PPToken) : Prop :=
  r.1 = can ∧ (can = false → r.2 = p) ∧
    (can = true → r.2.tok.spell = p.tok.spell ++ b.spell ∧ r.2.tok.Formed alpha ∧
      r.2.tok.Allowed o)

section

variable {alpha : Char → Bool} {o : Options} {p : PPToken}

theorem symbolLoop_spec {a : Symbol} (hp : p.tok = .symbol a) (s : List Char) (cs : List Symbol) :
    (cs.any (fun c => s = c.name && o.allows c) = false ∧ symbolLoop o a s cs p = (false, p)) ∨
      ∃ c, cs.any (fun c => s = c.name && o.allows c) = true ∧ s = c.name ∧ o.allows c = true ∧
        symbolLoop o a s cs p = (true, { p with tok := .symbol c }) := by
  induction cs with
  | nil => exact .inl ⟨rfl, rfl⟩
  | cons c cs ih =>
    have hsame : ({ p with tok := .symbol a } : PPToken) = p := by rw [← hp]
    rw [symbolLoop, List.any_cons]
    by_cases hs : s = c.name
    · by_cases hc : o.allows c = true
      · exact .inr ⟨c, by simp [hs, hc], hs, hc, by rw [if_pos hs, if_pos hc]⟩
      · rw [if_pos hs, if_neg hc, hsame]
        simpa [hs, hc] using ih
    · rw [if_neg hs]
      simpa [hs] using ih

theorem pasted_no {b : Tok} : Pasted alpha o p b false (false, p) :=
  ⟨rfl, fun _ => rfl, fun h => absurd h Bool.false_ne_true⟩

theorem pasted_yes {b t : Tok} (hspell : t.spell = p.tok.spell ++ b.spell)
    (hformed : t.Formed alpha) (hallowed : t.Allowed o) :
    Pasted alpha o p b true (true, { p with tok := t }) :=
  ⟨rfl, fun h => absurd h.symm Bool.false_ne_true, fun _ => ⟨hspell, hformed, hallowed⟩⟩

/-- A number takes dots, and a sign behind an `e`. -/
theorem concatTok_sign {space : Nat} (hp : IsNumber alpha s) (b : Symbol) :
    Pasted alpha o ⟨.number s, space⟩ (.symbol b) (pastes o (.number s) (.symbol b))
      (concatTok o ⟨.number s, space⟩ (.symbol b)) := by
  simp only [concatTok, pastes]
  by_cases hdot : b = .dot ∨ b = .ellipsis
  · have htail : NumberTail alpha b.name := by
      rcases hdot with rfl | rfl
      · exact .dot .nil
      · exact .dot (.dot (.dot .nil))
    have hcan : (decide (b = .dot) || decide (b = .ellipsis)) = true := by simpa using hdot
    rw [if_pos hdot, hcan, Bool.true_or]
    exact pasted_yes rfl (hp.append htail) trivial
  · have hno : (decide (b = .dot) || decide (b = .ellipsis)) = false := by simpa using hdot
    rw [if_neg hdot, hno, Bool.false_or]
    by_cases hsign : b = .plus ∨ b = .minus
    · have hcan : (decide (b = .plus) || decide (b = .minus)) = true := by simpa using hsign
      rw [if_pos hsign, hcan, Bool.true_and]
      by_cases hlast : s.getLast? = some 'e' ∨ s.getLast? = some 'E'
      · have hexp : (decide (s.getLast? = some 'e') || decide (s.getLast? = some 'E')) = true := by
          simpa using hlast
        rw [if_pos hlast, hexp]
        refine pasted_yes rfl ?_ trivial
        rcases hsign with rfl | rfl
        · exact IsNumber.signed hp hlast (.inl rfl)
        · exact IsNumber.signed hp hlast (.inr rfl)
      · have hexp : (decide (s.getLast? = some 'e') || decide (s.getLast? = some 'E')) =
            false := by simpa using hlast
        rw [if_neg hlast, hexp]
        exact pasted_no
    · have hcan : (decide (b = .plus) || decide (b = .minus)) = false := by simpa using hsign
      rw [if_neg hsign, hcan, Bool.false_and]
      exact pasted_no

theorem concatTok_pasted {b : Tok} (hp : p.tok.Formed alpha) (hb : b.Formed alpha) :
    Pasted alpha o p b (pastes o p.tok b) (concatTok o p b) := by
  obtain ⟨t, space⟩ := p
  cases t with
  | symbol a =>
    cases b with
    | symbol b =>
      have hloop := symbolLoop_spec (o := o) (p := ⟨.symbol a, space⟩) rfl (a.name ++ b.name)
        Symbol.all
      cases hloop with
      | inl h =>
          simp only [pastes, concatTok, h.1, h.2]
          exact pasted_no
      | inr h =>
          obtain ⟨c, hany, hname, hallowed, hloop⟩ := h
          simp only [pastes, concatTok, hany, hloop]
          exact pasted_yes hname.symm trivial hallowed
    | number s =>
      simp only [concatTok, pastes]
      by_cases ha : a = .dot
      · subst ha
        by_cases hs : s.head? = some '.'
        · simpa [hs] using pasted_no
        · simp only [hs, if_true, if_false, decide_true, Bool.true_and, ne_eq, not_false_eq_true]
          refine pasted_yes rfl ?_ trivial
          cases hb with
          | digit hc htail => exact .dot hc htail
          | dot hc htail => exact absurd rfl hs
      · simpa [ha] using pasted_no
    | _ => exact pasted_no
  | identifier s =>
    cases b with
    | identifier s2 => exact pasted_yes rfl (hp.append hb.tail) trivial
    | number n =>
      simp only [concatTok, pastes]
      by_cases hn : n.any isPoint = true
      · simpa [hn] using pasted_no
      · rw [Bool.not_eq_true] at hn
        simp only [hn, Bool.not_false, Bool.false_eq_true, if_false]
        exact pasted_yes rfl (hp.append (hb.tail.name hn)) trivial
    | charLit wide text =>
      cases wide with
      | true => simpa [concatTok, pastes] using pasted_no
      | false =>
        simp only [concatTok, pastes]
        by_cases hs : s = ['L']
        · subst hs
          exact pasted_yes rfl hb trivial
        · simpa [hs] using pasted_no
    | stringLit wide text =>
      cases wide with
      | true => simpa [concatTok, pastes] using pasted_no
      | false =>
        simp only [concatTok, pastes]
        by_cases hs : s = ['L']
        · subst hs
          exact pasted_yes rfl hb trivial
        · simpa [hs] using pasted_no
    | _ => exact pasted_no
  | number s =>
    cases b with
    | identifier s2 => exact pasted_yes rfl (hp.append hb.tail.number) trivial
    | number s2 => exact pasted_yes rfl (hp.append hb.tail) trivial
    | symbol b => exact concatTok_sign hp b
    | _ => exact pasted_no
  | _ => exact pasted_no

/-- What the comment on `concat_pptoks` says. -/
def PasteRight (alpha : Char → Bool) (o : Options) (p q : PPToken) : Prop :=
  let r := concatPptoks o p q
  (r.1 = true → r.2.1.tok.spell = p.tok.spell ++ q.tok.spell ∧ r.2.1.tok.Formed alpha ∧
    r.2.1.tok.Allowed o) ∧
  (r.1 = false → r.2.1 = p ∧ r.2.2 = q)

theorem moved_eq_iff (p q : PPToken) :
    ({ p with space := p.space ||| q.space } = p ∧ { q with space := 0 } = q) ↔ q.space = 0 := by
  refine ⟨fun h => (congrArg PPToken.space h.2).symm, fun h => ?_⟩
  obtain ⟨t, space⟩ := q
  obtain rfl : space = 0 := h
  exact ⟨by rw [Nat.or_zero], rfl⟩

/-- Two tokens are pasted as the comment says, or left as they were, where they are one token or
the second has no white space, and there alone. -/
theorem pasteRight_iff {q : PPToken} (hp : p.tok.Formed alpha) (hq : q.tok.Formed alpha) :
    PasteRight alpha o p q ↔ pastes o p.tok q.tok = true ∨ q.space = 0 := by
  obtain ⟨hcan, hno, hyes⟩ := concatTok_pasted (o := o)
    (p := { p with space := p.space ||| q.space }) hp hq
  simp only [PasteRight, concatPptoks, hcan]
  cases hpaste : pastes o p.tok q.tok with
  | true => exact ⟨fun _ => .inl rfl, fun _ => ⟨fun _ => hyes hpaste, fun h => by cases h⟩⟩
  | false =>
    rw [hno hpaste, moved_eq_iff]
    simp

end

theorem pasteRight_iff_ab : PasteRight Char.isAlpha ⟨false, false, false⟩ ⟨.identifier ['a'], 0⟩
    ⟨.identifier ['b'], 1⟩ ↔
      pastes ⟨false, false, false⟩ (.identifier ['a']) (.identifier ['b']) = true ∨ 1 = 0 :=
  pasteRight_iff (p := ⟨.identifier ['a'], 0⟩) (q := ⟨.identifier ['b'], 1⟩)
    (.alpha (by decide) .nil) (.alpha (by decide) .nil)

/-- `+` and ` -` cannot be pasted; the space goes to the `+`. -/
theorem not_pasteRight : ¬ ∀ (alpha : Char → Bool) (o : Options) (p q : PPToken),
    p.tok.Formed alpha → q.tok.Formed alpha → PasteRight alpha o p q := by
  intro h
  have hbad := h Char.isAlpha ⟨false, false, false⟩ ⟨.symbol .plus, 0⟩ ⟨.symbol .minus, 1⟩
    trivial trivial
  exact absurd (hbad.2 rfl) (by decide)

/-!
## Which tokens `clean_tok_list` keeps

The loop takes a token out and goes on behind the token after it. So the token behind one that
was taken out is never looked at: it stays as it is, an ignored token too, and the white space
of what was taken out goes to the next token that is looked at and kept.
-/

/-- The tokens that are not ignored; `sp` is the white space of the ignored tokens before. -/
@[grind =] def keep : Nat → List PPToken → List PPToken
  | _, [] => []
  | sp, q :: toks =>
      if q.tok = .ignore then keep (sp ||| q.space) toks
      else { q with space := q.space ||| sp } :: keep 0 toks

theorem keep_not_ignored (sp : Nat) (toks : List PPToken) :
    ∀ t ∈ keep sp toks, t.tok ≠ .ignore := by
  induction toks generalizing sp with
  | nil => simp [keep]
  | cons q toks ih =>
    rw [keep]
    split
    case isTrue hq => exact ih _
    case isFalse hq =>
      intro t ht
      cases List.mem_cons.1 ht with
      | inl h =>
          rw [h]
          exact hq
      | inr h => exact ih 0 t h

/-- A token has white space already. -/
def PPToken.Has (q : PPToken) (sp : Nat) : Prop := q.space ||| sp = q.space

instance (q : PPToken) (sp : Nat) : Decidable (q.Has sp) := inferInstanceAs (Decidable (_ = _))

/-- What is asked of the tokens, with the white space `sp` of the tokens taken out before. Behind
an ignored token is one that is not ignored and has its white space already, and the next token
that the loop looks at and keeps has the white space of all that were taken out before it. -/
@[grind =] def CleanedAs : Nat → List PPToken → Prop
  | _, [] => True
  | sp, q :: toks =>
      if q.tok = .ignore then
        match toks with
        | [] => True
        | q' :: toks => q'.tok ≠ .ignore ∧ q'.Has q.space ∧ CleanedAs (sp ||| q.space) toks
      else q.Has sp ∧ CleanedAs 0 toks

theorem withSpace_eq_iff {q : PPToken} {sp : Nat} :
    { q with space := q.space ||| sp } = q ↔ q.Has sp := by
  refine ⟨fun h => congrArg PPToken.space h, fun h => ?_⟩
  rw [PPToken.Has] at h
  rw [h]

theorem cleanLoop_kept {q : PPToken} (hq : q.tok ≠ .ignore) (sp : Nat) (toks : List PPToken) :
    cleanLoop sp (q :: toks) = { q with space := q.space ||| sp } :: cleanLoop 0 toks := by
  rw [cleanLoop.eq_def]
  dsimp only
  rw [if_neg hq]
  split
  case isTrue hsp => rfl
  case isFalse hsp =>
    obtain rfl : sp = 0 := not_not.1 hsp
    rw [Nat.or_zero]

/-- Once the token behind the last one taken out is passed over, its white space is lost to it. -/
theorem cleanLoop_eq_keep_iff (sp : Nat) (toks : List PPToken) :
    cleanLoop sp toks = keep 0 toks ↔ CleanedAs sp toks := by
  induction h : toks.length using Nat.strongRecOn generalizing sp toks with
  | ind n ih =>
    subst h
    cases toks with
    | nil => simp [cleanLoop, keep, CleanedAs]
    | cons q toks =>
      by_cases hq : q.tok = .ignore
      · cases toks with
        | nil => simp [cleanLoop, keep, CleanedAs, hq]
        | cons q' toks =>
          have hlt : toks.length < (q :: q' :: toks).length :=
            Nat.lt_succ_of_lt (Nat.lt_succ_self _)
          have hrest := ih toks.length hlt (sp ||| q.space) toks rfl
          rw [cleanLoop, keep, CleanedAs, if_pos hq, if_pos hq, if_pos hq, Nat.zero_or]
          by_cases hq' : q'.tok = .ignore
          · refine ⟨fun heq => ?_, fun h => absurd hq' h.1⟩
            have hmem : q' ∈ keep q.space (q' :: toks) := heq ▸ List.mem_cons_self
            exact absurd hq' (keep_not_ignored _ _ q' hmem)
          · rw [keep, if_neg hq', List.cons.injEq, eq_comm, withSpace_eq_iff, hrest]
            exact ⟨fun h => ⟨hq', h⟩, fun h => h.2⟩
      · have hrest := ih toks.length (by simp) 0 toks rfl
        rw [cleanLoop_kept hq, keep, CleanedAs.eq_def]
        dsimp only
        rw [if_neg hq, if_neg hq, Nat.or_zero, List.cons.injEq, withSpace_eq_iff, hrest]

/-- The ignored tokens are removed, and nothing else is, where no two of them stand side by side
and the white space of each is that of the tokens behind it, and there alone. -/
theorem cleanTokList_eq_keep_iff (toks : List PPToken) :
    cleanTokList toks = keep 0 toks ↔ CleanedAs 0 toks :=
  cleanLoop_eq_keep_iff 0 toks

/-- Of two ignored tokens side by side the second stays. -/
theorem cleanTokList_ne_keep : cleanTokList [⟨.ignore, 0⟩, ⟨.ignore, 0⟩] ≠
    keep 0 [⟨.ignore, 0⟩, ⟨.ignore, 0⟩] := by
  decide

end Tendra.Ref.Tdfc.Macro
