import Tendra.Ref.Lexi.Emit

/-!
# The whole lexer that lexi writes: `lexi/src/out/c.c`, `h.c`, `adt/cmd.c`, `zone.c`

A zone has a function for its main pass and one for its prepass, if it has one. A frame of
a trie holds the commands of a token, or pushes a zone, or pops one, as `add_cmd_push_zone`
and `add_cmd_pop_zone` make it; commands that are written by hand only return or call actions.
An action is code of its user, which leaves the buffer alone.

In the text of a pass a frame stands with the depth at which `out_cmds` writes it. The
statements are executed as before, but the frames too, with calls of other functions.
-/

namespace Tendra.Ref.Lexi

/-- `enum zone_kind`. -/
inductive Kind
  | pure
  | pseudo
  | general
deriving DecidableEq, Repr

/-- A command of a `cmd-list`; an action `returns` if it has a result. -/
inductive UserCmd
  | ret
  | action (returns : Bool)
  | discard
deriving DecidableEq, Repr

/-- The command is counted by `cmd_return_count`: it leaves the function. -/
def UserCmd.leaves : UserCmd → Bool
  | ret => true
  | action returns => returns
  | discard => false

/-- `struct frame`. -/
inductive Frame (Z : Type)
  | user (cmds : List UserCmd)
  | push (z : Z)
  /-- `closed` is `is_beginendmarker_in_zone`. -/
  | pop (z : Z) (closed : Bool)
deriving DecidableEq, Repr

/-- What `out_cmds` returns. -/
def Frame.returns {Z : Type} : Frame Z → Bool
  | user cmds => cmds.any (· = .ret)
  | push _ => true
  | pop _ _ => true

/-- `struct zone`, without its place among the others. -/
structure ZoneDef (Z : Type) where
  kind : Kind
  main : Trie (Frame Z)
  pre : Trie Mapping
  groups : Groups
  default : Option (List UserCmd)
  enter : List UserCmd
  exit : List UserCmd

/-- The zones in a zone, with those in them. -/
inductive ZoneTree (Z : Type)
  | nil
  | zone (z : Z) (next opt : ZoneTree Z)

namespace ZoneTree

variable {Z : Type}

/-- The zone is in the tree. -/
def Mem (z : Z) : ZoneTree Z → Prop
  | nil => False
  | zone z' next opt => z' = z ∨ Mem z next ∨ Mem z opt

/-- The tries of the zones. -/
def tries (zone : Z → ZoneDef Z) : ZoneTree Z → Zone (Frame Z)
  | nil => .nil
  | .zone z next opt => .zone (zone z).main (zone z).pre (tries zone next) (tries zone opt)

end ZoneTree

/-- `struct ast`: the global zone and the zones in it, which are all there are. -/
structure LexerAst (Z : Type) where
  zone : Z → ZoneDef Z
  global : Z
  next : ZoneTree Z
  mem : ∀ z, z = global ∨ next.Mem z

/-- `buffer_length`. -/
def LexerAst.bufferLength {Z : Type} (ast : LexerAst Z) : Nat :=
  (ZoneTree.tries ast.zone (.zone ast.global ast.next .nil)).bufferLength

/-- The trie with the depth of each of its nodes, the `n` of `out_leaf`. -/
def Trie.withDepth {α : Type} : Trie α → Nat → Trie (α × Nat)
  | nil, _ => .nil
  | node v u next opt, n =>
      .node v (u.map fun a => (a, n)) (withDepth next (n + 1)) (withDepth opt n)

/-- `out_zone_pass`, from the label `start` on. -/
def ZoneDef.code {Z : Type} (z : ZoneDef Z) : Code (Frame Z × Nat) :=
  outZonePass (fun f => f.1.returns) z.groups (z.main.withDepth 0)
    (z.default.map fun cmds => (.user cmds, 1))

/-- The state of the lexer, with the variables of the function that is executed. -/
structure LexerState (Z : Type) where
  buffer : List Int
  input : Stream' Int
  c : Nat → Int
  zone : Z

/-- What an execution comes to. -/
inductive Result (Z : Type)
  | next (σ : LexerState Z)
  | brk (σ : LexerState Z)
  | goto (l : Label) (σ : LexerState Z)
  /-- The function returns. -/
  | ret (σ : LexerState Z)
  /-- The function for a prepass returns a character. -/
  | char (c : Int) (σ : LexerState Z)
  /-- `lexi_push` on a full buffer, or where there is none. -/
  | overflow
  /-- The execution goes on beyond what is looked at. -/
  | going

namespace Result

variable {Z : Type}

def andThen (f : LexerState Z → Result Z) : Result Z → Result Z
  | next σ => f σ
  | o => o

/-- The end of a switch. -/
def leave : Result Z → Result Z
  | brk σ => next σ
  | o => o

end Result

section

variable {Z : Type} (cap : Nat)

/-- `lexi_readchar`. -/
def readchar (σ : LexerState Z) : Result Z :=
  match σ.buffer with
  | x :: b => .char x { σ with buffer := b }
  | [] => .char σ.input.head { σ with input := σ.input.tail }

/-- `lexi_push`. -/
def push (x : Int) (σ : LexerState Z) : Result Z :=
  if σ.buffer.length < cap then .next { σ with buffer := x :: σ.buffer } else .overflow

/-- `lexi_push` for `cn` down to `c0`, for `n + 1` variables. -/
def pushAll : Nat → LexerState Z → Result Z
  | 0, σ => .next σ
  | n + 1, σ => (push cap (σ.c n) σ).andThen (pushAll n)

section

variable {β : Type} (read : LexerState Z → Result Z) (frame : β → LexerState Z → Result Z)

mutual

/-- The execution of a statement. A character is read by `read`, and a frame does what `frame`
says. -/
@[grind =] def run : Stmt β → LexerState Z → Result Z
  | .skip, σ => .next σ
  | .seq s t, σ => (run s σ).andThen (run t)
  | .readchar n, σ =>
      match read σ with
      | .char x σ' => .next { σ' with c := Function.update σ.c n x }
      | o => o
  | .push n, σ => push cap (σ.c n) σ
  | .ifChar n c s, σ => if σ.c n = c then run s σ else .next σ
  | .ifGroup n neg g s t, σ => if inGroup g (σ.c n) ^^ neg then run s σ else run t σ
  | .switch n s, σ => (runCase s (σ.c n) σ).leave
  | .case _ s t, σ => (run s σ).andThen (run t)
  | .brk, σ => .brk σ
  | .assign c, σ => .next { σ with c := Function.update σ.c 0 c }
  | .goto l, σ => .goto l σ
  | .cmds f, σ => frame f σ
  | .returnChar, σ => .char (σ.c 0) σ
  | .returnUnknown, σ => .ret σ

/-- The jump to the case with a label. -/
@[grind =] def runCase : Stmt β → Int → LexerState Z → Result Z
  | .case c s t, x, σ => if x = c then (run s σ).andThen (run t) else runCase t x σ
  | _, _, σ => .next σ

end

end

/-- A call of the function for a prepass. -/
def callAux (pre : Trie Mapping) : Nat → Label → LexerState Z → Result Z
  | 0, _, _ => .going
  | fuel + 1, l, σ =>
      match run cap readchar (fun (_ : Unit) σ => .next σ) ((outZonePrepass pre).at l) σ with
      | .goto l σ => callAux pre fuel l σ
      | .char x σ => .char x σ
      | .overflow => .overflow
      | _ => .going

/-- The initialiser that `out_pass` writes for a character in a main pass. -/
def readPass (pre : Trie Mapping) (fuel : Nat) (σ : LexerState Z) : Result Z :=
  match pre with
  | .nil => readchar σ
  | .node .. => callAux cap pre fuel .start σ

namespace LexerAst

variable (ast : LexerAst Z)

/-- The end of `out_push_zone` and of `out_pop_zone`: another function is called, and its result
returned. -/
def tailCall (call : Z → LexerState Z → Result Z) (z : Z) (σ : LexerState Z) : Result Z :=
  match call z σ with
  | .ret σ => .ret σ
  | .overflow => .overflow
  | _ => .going

/-- `out_cmds`, in the zone `parent`. -/
def frame (call : Z → LexerState Z → Result Z) (parent : Z) :
    Frame Z × Nat → LexerState Z → Result Z
  | (.user cmds, _), σ => if cmds.any UserCmd.leaves then .ret σ else .next σ
  | (.push z, _), σ =>
      let σ := if (ast.zone z).kind = .general then { σ with zone := z } else σ
      if (ast.zone z).enter.any UserCmd.leaves then .ret σ
      else
        match (ast.zone z).kind with
        | .general => tailCall call ast.global σ
        | .pseudo => tailCall call z σ
        | .pure =>
            match call z σ with
            | .ret σ' => .goto .start { σ' with c := σ.c }
            | .overflow => .overflow
            | _ => .going
  | (.pop z closed, n), σ =>
      let σ := if (ast.zone parent).kind = .general then { σ with zone := z } else σ
      (if closed then .next σ else pushAll cap (n + 1) σ).andThen fun σ =>
        if (ast.zone parent).exit.any UserCmd.leaves then .ret σ
        else
          match (ast.zone parent).kind with
          | .general => tailCall call ast.global σ
          | .pure | .pseudo => .ret σ

variable [DecidableEq Z]

/-- A call of the function for a zone, from its label `start` on where `entered` is set. In the
function of the global zone another zone comes first, if there are zones and it is the present
one. -/
def call : Nat → Bool → Z → LexerState Z → Result Z
  | 0, _, _, _ => .going
  | fuel + 1, entered, z, σ =>
      if !entered ∧ z = ast.global ∧ σ.zone ≠ ast.global then call fuel true σ.zone σ
      else
        match run cap (readPass cap (ast.zone z).pre fuel) (ast.frame cap (call fuel false) z)
            (ast.zone z).code.start σ with
        | .goto _ σ => call fuel true z σ
        | o => o

/-- The state after `lexi_init`. -/
def init (input : Stream' Int) (c : Nat → Int) : LexerState Z := ⟨[], input, c, ast.global⟩

/-- So many calls of `lexi_next`, with a buffer for `bufferLength` characters. -/
def calls (fuel : Nat) : Nat → LexerState Z → Result Z
  | 0, σ => .ret σ
  | k + 1, σ =>
      match ast.call ast.bufferLength fuel false ast.global σ with
      | .ret σ => calls fuel k σ
      | o => o

end LexerAst

end

/-! ## The text -/

/-- The text has a call of `lexi_push`, where a frame with `pops` has one. -/
def Stmt.pushes {β : Type} (pops : β → Bool) : Stmt β → Bool
  | .push _ => true
  | .seq s t | .ifGroup _ _ _ s t | .case _ s t => pushes pops s || pushes pops t
  | .ifChar _ _ s | .switch _ s => pushes pops s
  | .cmds f => pops f
  | _ => false

/-- The frame pushes its end marker back. -/
def Frame.pops {Z : Type} : Frame Z → Bool
  | pop _ closed => !closed
  | _ => false

/-- The functions for a zone have a call of `lexi_push`. -/
def ZoneDef.pushes {Z : Type} (z : ZoneDef Z) : Bool :=
  z.code.start.pushes (fun f => f.1.pops) ||
    match z.pre with
    | .nil => false
    | .node .. => (outZonePrepass z.pre).start.pushes fun (_ : Unit) => false

end Tendra.Ref.Lexi
