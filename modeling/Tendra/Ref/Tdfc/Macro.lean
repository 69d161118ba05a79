import Mathlib.Data.Nat.Bitwise

/-!
# Lists of preprocessing tokens: `tdfc2/src/common/parse/macro.c`

A token is modelled with its data, of which a kind of token has its own: the name of an
identifier or a macro parameter, the text of a number, the text between the quotes of a literal.
What an identifier stands for is found from its name, and is left out. The options a token was
read under are passed on by no function here, and are left out too. The lists are linked through
the tokens; no token is in two of them, and so they are modelled by lists.

The symbols and their names are those of `symbols.h`.
-/

namespace Tendra.Ref.Tdfc.Macro

/-- The tokens from `FIRST_SYMBOL` to `LAST_SYMBOL`. -/
inductive Symbol
  | and1
  | andEq1
  | arrow
  | assign
  | backslash
  | closeBrace1
  | closeRound
  | closeSquare1
  | colon
  | comma
  | compl1
  | div
  | divEq
  | dot
  | ellipsis
  | eq
  | greater
  | greaterEq
  | hash1
  | hashHash1
  | less
  | lessEq
  | logicalAnd1
  | logicalOr1
  | lshift
  | lshiftEq
  | minus
  | minusEq
  | minusMinus
  | not1
  | notEq1
  | openBrace1
  | openRound
  | openSquare1
  | or1
  | orEq1
  | plus
  | plusEq
  | plusPlus
  | question
  | rem
  | remEq
  | rshift
  | rshiftEq
  | semicolon
  | star
  | starEq
  | xor1
  | xorEq1
  | arrowStar
  | colonColon
  | dotStar
  | abs
  | max
  | min
  | closeBrace2
  | closeSquare2
  | hash2
  | hashHash2
  | openBrace2
  | openSquare2
deriving DecidableEq, Repr

namespace Symbol

/-- The symbols in their order. -/
def all : List Symbol :=
  [.and1, .andEq1, .arrow, .assign, .backslash, .closeBrace1, .closeRound, .closeSquare1, .colon,
   .comma, .compl1, .div, .divEq, .dot, .ellipsis, .eq, .greater, .greaterEq, .hash1, .hashHash1,
   .less, .lessEq, .logicalAnd1, .logicalOr1, .lshift, .lshiftEq, .minus, .minusEq, .minusMinus,
   .not1, .notEq1, .openBrace1, .openRound, .openSquare1, .or1, .orEq1, .plus, .plusEq,
   .plusPlus, .question, .rem, .remEq, .rshift, .rshiftEq, .semicolon, .star, .starEq, .xor1,
   .xorEq1, .arrowStar, .colonColon, .dotStar, .abs, .max, .min, .closeBrace2, .closeSquare2,
   .hash2, .hashHash2, .openBrace2, .openSquare2]

/-- `token_name`. -/
def name : Symbol → List Char
  | and1 => ['&']
  | andEq1 => ['&', '=']
  | arrow => ['-', '>']
  | assign => ['=']
  | backslash => ['\\']
  | closeBrace1 => ['}']
  | closeRound => [')']
  | closeSquare1 => [']']
  | colon => [':']
  | comma => [',']
  | compl1 => ['~']
  | div => ['/']
  | divEq => ['/', '=']
  | dot => ['.']
  | ellipsis => ['.', '.', '.']
  | eq => ['=', '=']
  | greater => ['>']
  | greaterEq => ['>', '=']
  | hash1 => ['#']
  | hashHash1 => ['#', '#']
  | less => ['<']
  | lessEq => ['<', '=']
  | logicalAnd1 => ['&', '&']
  | logicalOr1 => ['|', '|']
  | lshift => ['<', '<']
  | lshiftEq => ['<', '<', '=']
  | minus => ['-']
  | minusEq => ['-', '=']
  | minusMinus => ['-', '-']
  | not1 => ['!']
  | notEq1 => ['!', '=']
  | openBrace1 => ['{']
  | openRound => ['(']
  | openSquare1 => ['[']
  | or1 => ['|']
  | orEq1 => ['|', '=']
  | plus => ['+']
  | plusEq => ['+', '=']
  | plusPlus => ['+', '+']
  | question => ['?']
  | rem => ['%']
  | remEq => ['%', '=']
  | rshift => ['>', '>']
  | rshiftEq => ['>', '>', '=']
  | semicolon => [';']
  | star => ['*']
  | starEq => ['*', '=']
  | xor1 => ['^']
  | xorEq1 => ['^', '=']
  | arrowStar => ['-', '>', '*']
  | colonColon => [':', ':']
  | dotStar => ['.', '*']
  | abs => ['+', '?']
  | max => ['>', '?']
  | min => ['<', '?']
  | closeBrace2 => ['%', '>']
  | closeSquare2 => [':', '>']
  | hash2 => ['%', ':']
  | hashHash2 => ['%', ':', '%', ':']
  | openBrace2 => ['<', '%']
  | openSquare2 => ['<', ':']

/-- From `FIRST_CPP_SYMBOL` to `LAST_CPP_SYMBOL`. -/
def isCpp (c : Symbol) : Bool := c ∈ [arrowStar, colonColon, dotStar]

/-- From `FIRST_EXTRA_SYMBOL` to `LAST_EXTRA_SYMBOL`. -/
def isExtra (c : Symbol) : Bool := c ∈ [abs, max, min]

/-- From `FIRST_DIGRAPH` to `LAST_DIGRAPH`. -/
def isDigraph (c : Symbol) : Bool :=
  c ∈ [closeBrace2, closeSquare2, hash2, hashHash2, openBrace2, openSquare2]

/-- From `FIRST_C_SYMBOL` to `LAST_C_SYMBOL`. -/
def isC (c : Symbol) : Bool := !c.isCpp && !c.isExtra && !c.isDigraph

end Symbol

/-- A token and its data. -/
inductive Tok
  /-- `lex_ignore_token`. -/
  | ignore
  | identifier (name : List Char)
  /-- `lex_integer_Hlit`: integers and floating literals. -/
  | number (text : List Char)
  /-- `lex_char_Hlit` and `lex_wchar_Hlit`. -/
  | charLit (wide : Bool) (text : List Char)
  /-- `lex_string_Hlit` and `lex_wstring_Hlit`. -/
  | stringLit (wide : Bool) (text : List Char)
  | symbol (c : Symbol)
  /-- `lex_macro_Harg`. -/
  | macroArg (name : List Char)
  /-- `lex_unknown`, of a character that is not an escape sequence. -/
  | unknown (c : Char)
  /-- Any other token, which has a name alone. -/
  | other (name : List Char)
deriving DecidableEq, Repr

/-- `PPTOKEN`; `space` is `pp_space`, a field of bits. -/
structure PPToken where
  tok : Tok
  space : Nat
deriving DecidableEq, Repr

/-! ## `clean_tok_list` -/

/-- The loop of `clean_tok_list`, from the token `p->next`. After an ignored token the next token
is passed over. -/
@[grind =] def cleanLoop : Nat → List PPToken → List PPToken
  | _, [] => []
  | sp, q :: toks =>
      if q.tok = .ignore then
        match toks with
        | [] => []
        | q' :: toks => q' :: cleanLoop (sp ||| q.space) toks
      else if sp ≠ 0 then { q with space := q.space ||| sp } :: cleanLoop 0 toks
      else q :: cleanLoop sp toks

/-- `clean_tok_list`. -/
def cleanTokList (toks : List PPToken) : List PPToken := cleanLoop 0 toks

/-! ## `quote_tok_list` -/

/-- What is put into the buffer for the text of a literal. -/
@[grind =] def quoteText (esc : Bool) (quote : Char) : List Char → List Char
  | [] => []
  | c :: st =>
      if (c = quote ∨ c = '\\') ∧ esc then '\\' :: c :: quoteText esc quote st
      else c :: quoteText esc quote st

/-- What is put into the buffer for a literal with the quote `q`. -/
def quoteLit (esc : Bool) (quote : Char) (wide : Bool) (q : Char) (text : List Char) : List Char :=
  let mark : List Char := if esc ∧ q = quote then ['\\', q] else [q]
  (if wide then ['L'] else []) ++ mark ++ quoteText esc quote text ++ mark

/-- What is put into the buffer for a token. -/
def quoteTok (esc : Bool) (quote : Char) : Tok → List Char
  | .ignore => []
  | .identifier name => name
  | .number text => text
  | .charLit wide text => quoteLit esc quote wide '\'' text
  | .stringLit wide text => quoteLit esc quote wide '"' text
  | .symbol c => c.name
  | .macroArg name => name
  | .unknown c => [c]
  | .other name => name

/-- The loop of `quote_tok_list` through the tokens. -/
@[grind =] def quoteLoop (esc : Bool) (quote : Char) : Bool → List PPToken → List Char
  | _, [] => []
  | started, t :: toks =>
      if t.tok = .ignore then quoteLoop esc quote started toks
      else
        (if t.space ≠ 0 ∧ started then [' '] else []) ++ quoteTok esc quote t.tok ++
          quoteLoop esc quote true toks

/-- The check of the string, with `escaped` and `res`. -/
@[grind =] def checkQuoted (quote : Char) : Bool → Bool → List Char → Bool
  | escaped, res, [] => if escaped then false else res
  | true, res, _ :: st => checkQuoted quote false res st
  | false, res, c :: st => checkQuoted quote (c = '\\') (if c = quote then false else res) st

/-- `quote_tok_list`: the result and the text in `token_buff`. -/
def quoteTokList (toks : List PPToken) (esc : Bool) (quote : Char) : Bool × List Char :=
  let text := quoteLoop esc quote false toks
  (checkQuoted quote false true text, text)

/-! ## `concat_pptoks` -/

/-- The options that `concat_pptoks` asks for. -/
structure Options where
  languageCpp : Bool
  allowExtraSymbols : Bool
  allowDigraphs : Bool
deriving DecidableEq, Repr

/-- A symbol can be the result. -/
def Options.allows (o : Options) (c : Symbol) : Bool :=
  c.isC || (o.languageCpp && c.isCpp) || (o.allowExtraSymbols && c.isExtra) ||
    (o.allowDigraphs && c.isDigraph)

/-- The loop through the symbols for the name `s`, when the token `p` was the symbol `a`. -/
@[grind =]
def symbolLoop (o : Options) (a : Symbol) (s : List Char) : List Symbol → PPToken → Bool × PPToken
  | [], p => (false, p)
  | c :: cs, p =>
      if s = c.name then
        if o.allows c then (true, { p with tok := .symbol c })
        else symbolLoop o a s cs { p with tok := .symbol a }
      else symbolLoop o a s cs p

/-- A character that cannot be in the rest of a name. -/
def isPoint (c : Char) : Bool := c = '.' || c = '+' || c = '-'

/-- The cases of `concat_pptoks`: the result and what becomes of `p`, with a token like `b`. -/
def concatTok (o : Options) (p : PPToken) (b : Tok) : Bool × PPToken :=
  match p.tok, b with
  | .symbol a, .symbol b => symbolLoop o a (a.name ++ b.name) Symbol.all p
  | .symbol a, .number s =>
      if a = .dot then
        if s.head? = some '.' then (false, p)
        else (true, { p with tok := .number (a.name ++ s) })
      else (false, p)
  | .identifier s, .identifier s2 => (true, { p with tok := .identifier (s ++ s2) })
  | .identifier s, .number n =>
      if n.any isPoint then (false, p)
      else (true, { p with tok := .identifier (s ++ n) })
  | .identifier s, .charLit false text =>
      if s = ['L'] then (true, { p with tok := .charLit true text }) else (false, p)
  | .identifier s, .stringLit false text =>
      if s = ['L'] then (true, { p with tok := .stringLit true text }) else (false, p)
  | .number s, .identifier s2 => (true, { p with tok := .number (s ++ s2) })
  | .number s, .number s2 => (true, { p with tok := .number (s ++ s2) })
  | .number s, .symbol b =>
      if b = .dot ∨ b = .ellipsis then (true, { p with tok := .number (s ++ b.name) })
      else if b = .plus ∨ b = .minus then
        if s.getLast? = some 'e' ∨ s.getLast? = some 'E' then
          (true, { p with tok := .number (s ++ b.name) })
        else (false, p)
      else (false, p)
  | _, _ => (false, p)

/-- `concat_pptoks`: the result, `p` and `q`. -/
def concatPptoks (o : Options) (p q : PPToken) : Bool × PPToken × PPToken :=
  let r := concatTok o { p with space := p.space ||| q.space } q.tok
  (r.1, r.2, { q with space := 0 })

end Tendra.Ref.Tdfc.Macro
