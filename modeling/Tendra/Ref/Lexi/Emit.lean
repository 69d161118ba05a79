import Mathlib.Data.Stream.Init
import Tendra.Ref.Lexi.Trie

/-!
# The code that lexi writes, and how it is written

The statements are those that `lexi/src/out/c.c` prints, and they are executed as C does:
a case of a switch that does not end in a jump goes on with the next one. The characters that
`lexi_getchar` will return are a stream; after the end of a file they are all `EOF`. The
commands of a frame are not executed but noted, in their order.
-/

namespace Tendra.Ref.Lexi

/-- The labels of a generated function. -/
inductive Label
  | start
  | restart
deriving DecidableEq

/-- The statements, with `lexi_` for the prefix and `c n` for the variable of depth `n`. -/
inductive Stmt (α : Type)
  | skip
  | seq (s t : Stmt α)
  /-- `int cN = lexi_readchar(state);` -/
  | readchar (n : Nat)
  /-- `lexi_push(state, cN);` -/
  | push (n : Nat)
  /-- `if (cN == c) { s }` -/
  | ifChar (n : Nat) (c : Int) (s : Stmt α)
  /-- `if (lexi_group(g, cN)) { s } else t`, with a `!` where `neg` is set -/
  | ifGroup (n : Nat) (neg : Bool) (g : Group) (s t : Stmt α)
  /-- `switch (cN) { s }` -/
  | switch (n : Nat) (s : Stmt α)
  /-- `case c: s`, and the cases after it -/
  | case (c : Int) (s t : Stmt α)
  | brk
  /-- `c0 = c;` -/
  | assign (c : Int)
  | goto (l : Label)
  /-- The commands of a frame. -/
  | cmds (f : α)
  /-- `return c0;` -/
  | returnChar
  /-- `return lexi_unknown;` -/
  | returnUnknown
deriving DecidableEq

/-- The state of a lexer: the characters that were pushed, the last one first, those that are
still to be read from outside, the local variables, and the frames whose commands were
executed. -/
structure Lexer (α : Type) where
  buffer : List Int
  input : Stream' Int
  c : Nat → Int
  log : List α

namespace Lexer

variable {α : Type}

/-- `lexi_readchar` and `lexi_pop`, into a variable. -/
def readchar (n : Nat) (σ : Lexer α) : Lexer α :=
  match σ.buffer with
  | x :: b => { σ with buffer := b, c := Function.update σ.c n x }
  | [] => { σ with input := σ.input.tail, c := Function.update σ.c n σ.input.head }

/-- The characters that will be read. -/
def future (σ : Lexer α) : Stream' Int := σ.buffer ++ₛ σ.input

end Lexer

/-- What the execution of a statement ends in. -/
inductive Outcome (α : Type)
  | next (σ : Lexer α)
  | brk (σ : Lexer α)
  | goto (l : Label) (σ : Lexer α)
  /-- A command of the last frame of the log returned. -/
  | frame (σ : Lexer α)
  | char (c : Int) (σ : Lexer α)
  | unknown (σ : Lexer α)
  /-- The assertion of `lexi_push` failed. -/
  | overflow

namespace Outcome

variable {α : Type}

def andThen (f : Lexer α → Outcome α) : Outcome α → Outcome α
  | next σ => f σ
  | o => o

/-- The end of a switch. -/
def leave : Outcome α → Outcome α
  | brk σ => next σ
  | o => o

end Outcome

section

variable {α : Type} (cap : Nat) (returns : α → Bool)

mutual

/-- The execution of a statement, with a buffer for `cap` characters. -/
@[grind =] def exec : Stmt α → Lexer α → Outcome α
  | .skip, σ => .next σ
  | .seq s t, σ => (exec s σ).andThen (exec t)
  | .readchar n, σ => .next (σ.readchar n)
  | .push n, σ =>
      if σ.buffer.length < cap then .next { σ with buffer := σ.c n :: σ.buffer } else .overflow
  | .ifChar n c s, σ => if σ.c n = c then exec s σ else .next σ
  | .ifGroup n neg g s t, σ => if inGroup g (σ.c n) ^^ neg then exec s σ else exec t σ
  | .switch n s, σ => (enter s (σ.c n) σ).leave
  | .case _ s t, σ => (exec s σ).andThen (exec t)
  | .brk, σ => .brk σ
  | .assign c, σ => .next { σ with c := Function.update σ.c 0 c }
  | .goto l, σ => .goto l σ
  | .cmds f, σ =>
      let σ := { σ with log := σ.log ++ [f] }
      if returns f then .frame σ else .next σ
  | .returnChar, σ => .char (σ.c 0) σ
  | .returnUnknown, σ => .unknown σ

/-- The jump to the case with a label. -/
@[grind =] def enter : Stmt α → Int → Lexer α → Outcome α
  | .case c s t, x, σ => if x = c then (exec s σ).andThen (exec t) else enter t x σ
  | _, _, σ => .next σ

end

/-- The body of a function, from the two labels on. -/
structure Code (α : Type) where
  start : Stmt α
  restart : Stmt α

def Code.at (code : Code α) : Label → Stmt α
  | .start => code.start
  | .restart => code.restart

/-- A call, with as many jumps to a label as `fuel` says. -/
@[grind =] def Code.call (code : Code α) : Nat → Label → Lexer α → Option (Outcome α)
  | 0, _, _ => none
  | fuel + 1, l, σ =>
      match exec cap returns (code.at l) σ with
      | .goto l σ => code.call fuel l σ
      | o => some o

end

/-!
## The passes of a zone: `lexi/src/out/c.c`

A pointer to a trie is null where the trie is `nil`. The two passes have their own ways to
write a leaf, which say also whether control leaves the block there, as far as the writer of
the letters believes.
-/

/-- `char_lit`. -/
def charLit (c : Int) : Int := if c = eof then eof else if 127 < c ∨ c ≤ 0 then 0x3f else c

/-- What a mapping maps to, in `out_mapping`: a character or nothing. -/
def mapResult : List Int → Option (Option Int)
  | [] => some none
  | [0x5c, e] => (findEscape e).map some
  | [c] => if c = 0x5c then none else some (some c)
  | _ => none

/-- A mapping that is written without an error. -/
structure Mapping where
  map : List Int
  ok : (mapResult map).isSome

/-- The character that is put in the place of those that were mapped. -/
def Mapping.result (m : Mapping) : Option Int := (mapResult m.map).get m.ok

section

variable {α β : Type}

/-- `out_mapping`. -/
def outMapping (m : Mapping) : Stmt β :=
  match m.result with
  | none => .goto .start
  | some c => .seq (.assign (charLit c)) (.goto .restart)

/-- `out_leaf` in a prepass. -/
def outLeafPre : Option Mapping → Stmt β × Bool
  | some m => (outMapping m, true)
  | none => (.skip, true)

/-- The commands of a frame; it `returns` where `out_cmds` says so. -/
def outFrame (returns : α → Bool) (f : α) : Stmt α :=
  if returns f then .cmds f else .seq (.cmds f) (.goto .start)

/-- `out_leaf` in a main pass. -/
def outLeafMain (returns : α → Bool) : Option α → Stmt α × Bool
  | some f => (outFrame returns f, true)
  | none => (.skip, false)

/-- The alternatives at one depth: how many are letters, an `if` for a letter, the cases of a
`switch` over the letters, and the chain of `if`s over the groups. -/
structure Alternatives (β : Type) where
  letters : Nat
  single : Stmt β
  cases : Stmt β
  groups : Stmt β

/-- `out_char_letters`. -/
def Alternatives.outCharLetters (a : Alternatives β) (n : Nat) : Stmt β :=
  match a.letters with
  | 0 => .skip
  | 1 => a.single
  | _ => .switch n a.cases

/-- `out_pass` below the first character. -/
def Alternatives.outPass (a : Alternatives β) (n : Nat) : Stmt β :=
  .seq (.readchar n) (.seq (.seq (a.outCharLetters n) a.groups) (.push n))

/-- The loops of `out_char_letters` and of `out_char_groups`. -/
@[grind =] def alternatives (outLeaf : Option α → Stmt β × Bool) : Trie α → Nat → Alternatives β
  | .nil, _ => ⟨0, .skip, .skip, .skip⟩
  | .node v u next opt, n =>
      let others := alternatives outLeaf opt n
      let inner := match next with
        | .nil => .skip
        | .node .. => (alternatives outLeaf next (n + 1)).outPass (n + 1)
      let block := .seq inner (outLeaf u).1
      match v with
      | .char c => {
          letters := others.letters + 1
          single := .ifChar n (charLit c) block
          cases := .case (charLit c) (if (outLeaf u).2 then block else .seq block .brk) others.cases
          groups := others.groups }
      | .group neg g => { others with groups := .ifGroup n neg g block others.groups }

/-- The letters and the groups in `out_pass` at the first character. -/
def outFirst (outLeaf : Option α → Stmt β × Bool) (t : Trie α) : Stmt β :=
  .seq ((alternatives outLeaf t 0).outCharLetters 0) (alternatives outLeaf t 0).groups

/-- The name `white`. -/
def whiteName : List Int := [0x77, 0x68, 0x69, 0x74, 0x65]

/-- The test for a white character in `out_pass`. -/
def outWhite : Option Group → Stmt β
  | none => .skip
  | some g => if isGroupEmpty g then .skip else .ifGroup 0 false g (.goto .start) .skip

/-- `out_zone_pass`, for a zone without a prepass. -/
def outZonePass (returns : α → Bool) (groups : Groups) (main : Trie α) (default : Option α) :
    Code α where
  start :=
    .seq (match main with
      | .nil => .skip
      | .node .. => .seq (.readchar 0)
          (.seq (outWhite (findGroup groups whiteName)) (outFirst (outLeafMain returns) main)))
    (match default with
      | none => .returnUnknown
      | some f => outFrame returns f)
  restart := .skip

/-- `out_zone_prepass`, from the label `restart` on. -/
def outZonePrepassRestart (pre : Trie Mapping) : Stmt β :=
  .seq (outFirst outLeafPre pre)
    (.seq (match pre with
      | .nil => .skip
      | .node _ u _ _ => (outLeafPre u).1) .returnChar)

/-- `out_zone_prepass`. -/
def outZonePrepass (pre : Trie Mapping) : Code β where
  start := .seq (.readchar 0) (outZonePrepassRestart pre)
  restart := outZonePrepassRestart pre

/-- `struct zone`: the two tries, the zones in it and those beside it. -/
inductive Zone (α : Type)
  | nil
  | zone (main : Trie α) (pre : Trie Mapping) (next opt : Zone α)

namespace Zone

/-- `zone_maxlength` of a zone and of those beside it. -/
def maxlength (len : Trie α → Trie Mapping → Nat) : Zone α → Nat
  | nil => 0
  | zone main pre next opt => max (max (len main pre) (maxlength len next)) (maxlength len opt)

/-- A zone with these tries is among those written. -/
inductive Has (main : Trie α) (pre : Trie Mapping) : Zone α → Prop
  | here {next opt} : Has main pre (zone main pre next opt)
  | next {m p next opt} : Has main pre next → Has main pre (zone m p next opt)
  | opt {m p next opt} : Has main pre opt → Has main pre (zone m p next opt)

/-- `buffer_length`, of the global zone. -/
def bufferLength : Zone α → Nat
  | nil => 0
  | zone main pre next opt =>
      let global := zone main pre next opt
      global.maxlength (fun main _ => main.maxlength) +
        match pre with
        | .nil => 0
        | .node .. => global.maxlength fun _ pre => pre.maxlength

end Zone

end

end Tendra.Ref.Lexi
