import Tendra.Proofs.Tdfc.Paste

/-!
# A quoted list of tokens can be read back

In the text that `quote_tok_list` makes a backslash stands before a quote or a backslash, and
this pair stands for the second of the two; or it stands in a universal character, where it is
no more than itself. A quote stands nowhere else. So the check of the text finds nothing, and to
take the first of each pair away gives the spelling of the tokens.
-/

namespace Tendra.Ref.Tdfc.Macro

variable {c : Char}

/-- Two backslashes become one, and a backslash before the quote is taken away. -/
def unescape (quote : Char) : List Char → List Char
  | '\\' :: c :: s =>
      if c = '\\' ∨ c = quote then c :: unescape quote s else '\\' :: unescape quote (c :: s)
  | c :: s => c :: unescape quote s
  | [] => []

/-- The first is what is written for the second. -/
inductive Quotes (quote : Char) : List Char → List Char → Prop
  | nil : Quotes quote [] []
  | plain {c s t} (hc : c ≠ '\\' ∧ c ≠ quote) (h : Quotes quote s t) :
      Quotes quote (c :: s) (c :: t)
  | pair {c s t} (hc : c = '\\' ∨ c = quote) (h : Quotes quote s t) :
      Quotes quote ('\\' :: c :: s) (c :: t)
  | alone {c s t} (hc : c ≠ '\\' ∧ c ≠ quote) (h : Quotes quote s t) :
      Quotes quote ('\\' :: c :: s) ('\\' :: c :: t)

section

variable {quote : Char} {alpha : Char → Bool}

theorem Quotes.append {s t s' t' : List Char} (h : Quotes quote s t) (h' : Quotes quote s' t') :
    Quotes quote (s ++ s') (t ++ t') := by
  induction h with
  | nil => exact h'
  | plain hc _ ih => exact .plain hc ih
  | pair hc _ ih => exact .pair hc ih
  | alone hc _ ih => exact .alone hc ih

theorem unescape_cons (hc : c ≠ '\\') (s : List Char) :
    unescape quote (c :: s) = c :: unescape quote s := by
  rw [unescape.eq_def]
  split
  · rename_i heq
    exact absurd (List.cons.inj heq).1 hc
  · rename_i heq
    obtain ⟨rfl, rfl⟩ := List.cons.inj heq
    rfl
  · rename_i heq
    cases heq

theorem Quotes.unescape {s t : List Char} (h : Quotes quote s t) : unescape quote s = t := by
  induction h with
  | nil => rfl
  | plain hc _ ih => rw [unescape_cons hc.1, ih]
  | pair hc _ ih => rw [Macro.unescape, if_pos hc, ih]
  | @alone c s t hc _ ih =>
      rw [Macro.unescape, if_neg (not_or.2 hc), unescape_cons hc.1, ih]

/-- The check finds no quote that is not escaped, and no backslash at the end. -/
theorem Quotes.check {s t : List Char} (hquote : quote ≠ '\\') (h : Quotes quote s t) (res : Bool) :
    checkQuoted quote false res s = res := by
  have hback : '\\' ≠ quote := Ne.symm hquote
  induction h with
  | nil => rfl
  | plain hc _ ih => simp only [checkQuoted, hc.1, hc.2, decide_false, if_false, ih]
  | pair hc _ ih => simp only [checkQuoted, hback, decide_true, if_false, ih]
  | alone hc _ ih => simp only [checkQuoted, hback, decide_true, if_false, ih]

/-! ## The tokens -/

/-- No letter is a backslash or the quote. -/
def Letters (alpha : Char → Bool) (quote : Char) : Prop :=
  ∀ c, alpha c = true → c ≠ '\\' ∧ c ≠ quote

/-- The quotes of C. -/
def IsQuote (quote : Char) : Prop := quote = '"' ∨ quote = '\''

theorem IsQuote.digit (hquote : IsQuote quote) (hc : c.isDigit = true) : c ≠ '\\' ∧ c ≠ quote := by
  refine ⟨fun h => ?_, fun h => ?_⟩
  · subst h
    cases hc
  · subst h
    rcases hquote with rfl | rfl <;> cases hc

theorem quotes_alphanum (hquote : IsQuote quote) (hletters : Letters alpha quote)
    (hc : alpha c = true ∨ c.isDigit = true) : c ≠ '\\' ∧ c ≠ quote :=
  hc.elim (hletters c) hquote.digit

theorem IsQuote.universal (hquote : IsQuote quote) (hc : c = 'u' ∨ c = 'U') :
    c ≠ '\\' ∧ c ≠ quote := by
  rcases hc with rfl | rfl <;> rcases hquote with rfl | rfl <;> decide

theorem NumberTail.quotes (hquote : IsQuote quote) (hletters : Letters alpha quote)
    {s : List Char} (hs : NumberTail alpha s) : Quotes quote s s := by
  induction hs with
  | nil => exact .nil
  | alphanum hc _ ih => exact .plain (quotes_alphanum hquote hletters hc) ih
  | dot _ ih => exact .plain (by rcases hquote with rfl | rfl <;> decide) ih
  | sign he hc _ ih =>
      refine .plain ?_ (.plain ?_ ih)
      · rcases he with rfl | rfl <;> rcases hquote with rfl | rfl <;> decide
      · rcases hc with rfl | rfl <;> rcases hquote with rfl | rfl <;> decide
  | universal hc _ ih => exact .alone (hquote.universal hc) ih

theorem Symbol.quotes (hquote : IsQuote quote) {c : Symbol} (hc : c ≠ .backslash) :
    Quotes quote c.name c.name := by
  have hplain : ∀ d ∈ c.name, d ≠ '\\' ∧ d ≠ quote := by
    have hall : c.name.all (fun d => d ≠ '\\' && d ≠ quote) = true := by
      rcases hquote with rfl | rfl <;> cases c <;> first | exact absurd rfl hc | rfl
    simpa using hall
  generalize c.name = s at hplain
  induction s with
  | nil => exact .nil
  | cons d s ih =>
      exact .plain (hplain d List.mem_cons_self)
        (ih fun e he => hplain e (List.mem_cons_of_mem d he))

theorem quoteText_quotes (s : List Char) : Quotes quote (quoteText true quote s) s := by
  induction s with
  | nil => exact .nil
  | cons c s ih =>
    rw [quoteText]
    split
    case isTrue h => exact .pair h.1.symm ih
    case isFalse h =>
      rw [and_iff_left rfl, not_or] at h
      exact .plain h.symm ih

/-- A literal, whose own quote is the quote that is escaped or another one. -/
theorem quoteLit_quotes (hquote : IsQuote quote) {q : Char} (hq : IsQuote q) (wide : Bool)
    (s : List Char) :
    Quotes quote (quoteLit true quote wide q s)
      ((if wide then ['L'] else []) ++ q :: s ++ [q]) := by
  have hmark : Quotes quote (if True ∧ q = quote then ['\\', q] else [q]) [q] := by
    split
    case isTrue h => exact .pair (.inr h.2) .nil
    case isFalse h =>
      refine .plain ⟨?_, fun heq => h ⟨trivial, heq⟩⟩ .nil
      rcases hq with rfl | rfl <;> decide
  have hstart : Quotes quote (if wide then ['L'] else []) (if wide then ['L'] else []) := by
    cases wide with
    | true => exact .plain (by rcases hquote with rfl | rfl <;> decide) .nil
    | false => exact .nil
  have hall := ((hstart.append hmark).append (quoteText_quotes s)).append hmark
  simpa [quoteLit] using hall

/-- The kinds of tokens that a string can be made of. -/
def Tok.Quotable (alpha : Char → Bool) : Tok → Prop
  | .ignore => True
  | .identifier name => IsName alpha name
  | .number text => IsNumber alpha text
  | .charLit _ _ => True
  | .stringLit _ _ => True
  | .symbol c => c ≠ .backslash
  | _ => False

theorem quoteTok_quotes (hquote : IsQuote quote) (hletters : Letters alpha quote) {t : Tok}
    (ht : t.Quotable alpha) : Quotes quote (quoteTok true quote t) t.spell := by
  cases t with
  | ignore => exact .nil
  | identifier name => exact ht.tail.number.quotes hquote hletters
  | number text => exact ht.tail.quotes hquote hletters
  | charLit wide text => exact quoteLit_quotes hquote (.inr rfl) wide text
  | stringLit wide text => exact quoteLit_quotes hquote (.inl rfl) wide text
  | symbol c => exact Symbol.quotes hquote ht
  | macroArg name => cases ht
  | unknown c => cases ht
  | other name => cases ht

/-! ## The list -/

/-- A token with a space before it, if it has white space. -/
def spaced (t : PPToken) : List Char := (if t.space ≠ 0 then [' '] else []) ++ t.tok.spell

/-- The spelling of the tokens that are not ignored, with a space before each that has white
space, except the first. -/
def spelling (toks : List PPToken) : List Char :=
  match toks.filter (·.tok ≠ .ignore) with
  | [] => []
  | t :: toks => t.tok.spell ++ toks.flatMap spaced

theorem quoteLoop_started (hquote : IsQuote quote) (hletters : Letters alpha quote)
    {toks : List PPToken} (h : ∀ t ∈ toks, t.tok.Quotable alpha) :
    Quotes quote (quoteLoop true quote true toks)
      ((toks.filter (·.tok ≠ .ignore)).flatMap spaced) := by
  induction toks with
  | nil => exact .nil
  | cons t toks ih =>
    have hrest := ih fun t ht => h t (List.mem_cons_of_mem _ ht)
    have htok := quoteTok_quotes hquote hletters (h t List.mem_cons_self)
    have hspace : Quotes quote (if t.space ≠ 0 then [' '] else [])
        (if t.space ≠ 0 then [' '] else []) := by
      split
      · exact .plain (by rcases hquote with rfl | rfl <;> decide) .nil
      · exact .nil
    rw [quoteLoop]
    by_cases ht : t.tok = .ignore
    · rw [if_pos ht, List.filter_cons_of_neg (by simp [ht])]
      exact hrest
    · rw [if_neg ht, List.filter_cons_of_pos (by simp [ht]), List.flatMap_cons]
      simpa [spaced] using (hspace.append htok).append hrest

theorem quoteLoop_quotes (hquote : IsQuote quote) (hletters : Letters alpha quote)
    {toks : List PPToken} (h : ∀ t ∈ toks, t.tok.Quotable alpha) :
    Quotes quote (quoteLoop true quote false toks) (spelling toks) := by
  induction toks with
  | nil => exact .nil
  | cons t toks ih =>
    have hmem : ∀ t ∈ toks, t.tok.Quotable alpha := fun t ht => h t (List.mem_cons_of_mem _ ht)
    rw [quoteLoop]
    by_cases ht : t.tok = .ignore
    · rw [if_pos ht, spelling, List.filter_cons_of_neg (by simp [ht])]
      exact ih hmem
    · rw [if_neg ht, spelling, List.filter_cons_of_pos (by simp [ht])]
      have htok := quoteTok_quotes hquote hletters (h t List.mem_cons_self)
      simpa using htok.append (quoteLoop_started hquote hletters hmem)

/-- The list of tokens gives a string, and what the string stands for is their spelling. -/
theorem quoteTokList_spelling (hquote : IsQuote quote) (hletters : Letters alpha quote)
    {toks : List PPToken} (h : ∀ t ∈ toks, t.tok.Quotable alpha) :
    (quoteTokList toks true quote).1 = true ∧
      unescape quote (quoteTokList toks true quote).2 = spelling toks := by
  have hquotes := quoteLoop_quotes hquote hletters h
  have hne : quote ≠ '\\' := by rcases hquote with rfl | rfl <;> decide
  exact ⟨hquotes.check hne true, hquotes.unescape⟩

end

theorem quoteTokList_spelling_literal :
    let toks : List PPToken := [⟨.identifier ['a'], 0⟩, ⟨.stringLit false ['\\', '"'], 1⟩]
    (quoteTokList toks true '"').1 = true ∧
      unescape '"' (quoteTokList toks true '"').2 = spelling toks :=
  @quoteTokList_spelling '"' (· = 'a') (.inl rfl)
    (fun c hc => by
      obtain rfl : c = 'a' := of_decide_eq_true hc
      decide)
    _ (fun t ht => by
      rcases List.mem_cons.1 ht with rfl | ht
      · exact .alpha rfl .nil
      · obtain rfl := List.mem_singleton.1 ht
        trivial)

end Tendra.Ref.Tdfc.Macro
