import Tendra.Ref.Exp

/-!
# What expressions do

An expression is executed on a memory of bytes, with the values of the declarations: the address of
a variable, and the value of another declaration. It has a value, or jumps to a label, and it leaves
a list of what it has read, what it has written, and which other operations it has done. Only the
constructs that pass on control, and contents, assignments and declarations, are given a meaning
here; what the others do with the values of their operands and the memory is a parameter.
-/

namespace Tendra.Ref.Execute

/-- The number of bytes of a shape. -/
def bytes (sh : Shape) : Nat := (sh.size + 7) / 8

/-- What there is to know about the language: how values lie in memory, which tests hold, where a
`case_tag` jumps to, and what the other constructs do. -/
structure Meaning (β : Type) where
  decode : Shape → List β → Int
  encode : Shape → Int → List β
  holds : Node → List Int → Bool
  branch : Node → Int → Option Nat
  prim : Node → List Int → (Int → β) → Int × (Int → β)
  length_encode : ∀ sh v, (encode sh v).length = bytes sh

/-- How an execution ends: with a value, with a jump, or not at all within the given steps. -/
inductive Result
  | value (v : Int)
  | jump (l : Nat)
  | stopped
deriving DecidableEq, Repr

/-- The memory, and the values of the declarations. -/
structure State (β : Type) where
  mem : Int → β
  names : Nat → Int

/-- What is read and written, with the expression that gives the address, and the operations on
the memory as it is then. -/
inductive Event (β : Type)
  | read (via : Exp) (adr : Int) (sh : Shape) (v : Int)
  | write (via : Exp) (adr : Int) (sh : Shape) (v : Int)
  | prim (n : Node) (args : List Int) (mem : Int → β) (v : Int)

/-- An execution. -/
structure Execution (β : Type) where
  res : Result
  st : State β
  events : List (Event β)

variable {β : Type}

/-- The bytes of a region. -/
def bytesAt (mem : Int → β) (adr : Int) (n : Nat) : List β :=
  (List.range n).map fun i : Nat => mem (adr + i)

/-- The memory with other bytes in a region. -/
def putBytes (mem : Int → β) (adr : Int) (bs : List β) (a : Int) : β :=
  if adr ≤ a then bs.getD (a - adr).toNat (mem a) else mem a

/-- What follows a value. -/
def Execution.andThen (r : Execution β) (f : Int → State β → Execution β) : Execution β :=
  match r.res with
  | .value v =>
      let r' := f v r.st
      ⟨r'.res, r'.st, r.events ++ r'.events⟩
  | _ => r

/-- An execution that ends with a value. -/
def done (v : Int) (s : State β) (events : List (Event β)) : Execution β := ⟨.value v, s, events⟩

variable (L : Meaning β)

/-- The contents at an address. -/
def load (via : Exp) (sh : Shape) (adr : Int) (s : State β) : Execution β :=
  let v := L.decode sh (bytesAt s.mem adr (bytes sh))
  done v s [.read via adr sh v]

/-- An assignment. -/
def store (via : Exp) (sh : Shape) (adr v : Int) (s : State β) : Execution β :=
  done 0 { s with mem := putBytes s.mem adr (L.encode sh v) } [.write via adr sh v]

/-- A construct that only computes. -/
def compute (n : Node) (args : List Int) (s : State β) : Execution β :=
  let (v, mem) := L.prim n args s.mem
  done v { s with mem } [.prim n args s.mem v]

/-- A jump, if there is one. -/
def jumpTo (l : Option Nat) (s : State β) : Execution β :=
  match l with
  | some l => ⟨.jump l, s, []⟩
  | none => done 0 s []

/-- What an expression is for its execution. -/
inductive View
  | name (n : Node)
  | cont (sh : Shape) (e : Exp)
  | ass (dest src : Exp)
  | seq (stmts : List Exp) (e : Exp)
  | decl (n : Node) (init body : Exp)
  | lab (body : Exp)
  | arms (e : Exp) (labs : List Exp)
  | loop (start lab : Exp)
  | goto (n : Node)
  | test (n : Node) (args : List Exp)
  | case (n : Node) (e : Exp)
  | other (n : Node) (args : List Exp)

/-- The view of an expression, by its tag. -/
def view : Exp → View
  | .mk n args =>
      match n.tag, args with
      | .nameTag, _ => .name n
      | .contTag, [e] => .cont n.sh e
      | .assTag, [dest, src] => .ass dest src
      | .seqTag, [.mk h stmts, e] =>
          if h.tag = .holderTag then .seq stmts e else .other n [.mk h stmts, e]
      | .identTag, [init, body] => .decl n init body
      | .labstTag, [_, body] => .lab body
      | .condTag, e :: labs | .solveTag, e :: labs => .arms e labs
      | .repTag, [start, lab] => .loop start lab
      | .gotoTag, _ => .goto n
      | .testTag, as | .testbitTag, as => .test n as
      | .caseTag, e :: _ => .case n e
      | _, as => .other n as

mutual

/-- The execution of an expression, with at most `fuel` nested steps. -/
@[grind =] def eval : Nat → Exp → State β → Execution β
  | 0, _, s => ⟨.stopped, s, []⟩
  | fuel + 1, e, s =>
      match view e with
      | .name n => done (s.names n.dec + n.no / 8) s []
      | .cont sh a => (eval fuel a s).andThen fun adr s => load L a sh adr s
      | .ass dest src =>
          (eval fuel dest s).andThen fun adr s =>
            (eval fuel src s).andThen fun v s => store L dest src.sh adr v s
      | .seq stmts a =>
          (evalAll fuel stmts [] s fun _ s => done 0 s []).andThen fun _ s => eval fuel a s
      | .decl n init body =>
          (eval fuel init s).andThen fun v s =>
            if ptst n.props 0x01 then
              -- the place of a variable is known
              (store L (.mk { n with tag := .nameTag } []) init.sh (s.names n.dec) v s).andThen
                fun _ s => eval fuel body s
            else eval fuel body { s with names := fun d => if d = n.dec then v else s.names d }
      | .lab body => eval fuel body s
      | .arms a labs => resume fuel labs (eval fuel a s)
      | .loop start lab =>
          (eval fuel start s).andThen fun _ s => resume fuel [lab] (eval fuel lab s)
      | .goto n => jumpTo n.pt s
      | .test n args =>
          evalAll fuel args [] s fun vs s => if L.holds n vs then done 0 s [] else jumpTo n.pt s
      | .case n a => (eval fuel a s).andThen fun v s => jumpTo (L.branch n v) s
      | .other n args => evalAll fuel args [] s fun vs s => compute L n vs s

/-- One argument after the other, and then `f` on their values; those of the first ones are
known. -/
@[grind =]
def evalAll : Nat → List Exp → List Int → State β → (List Int → State β → Execution β) → Execution β
  | 0, _, _, s, _ => ⟨.stopped, s, []⟩
  | _ + 1, [], vs, s, f => f vs s
  | fuel + 1, e :: es, vs, s, f =>
      (eval fuel e s).andThen fun v s => evalAll fuel es (vs ++ [v]) s f

/-- Jumps to one of the labels go on there. -/
@[grind =] def resume : Nat → List Exp → Execution β → Execution β
  | 0, _, r => ⟨.stopped, r.st, r.events⟩
  | fuel + 1, labs, r =>
      match r.res with
      | .jump l =>
          match labs.find? (·.dec = l) with
          | some lab =>
              let r' := resume fuel labs (eval fuel lab r.st)
              ⟨r'.res, r'.st, r.events ++ r'.events⟩
          | none => r
      | _ => r

end

end Tendra.Ref.Execute
