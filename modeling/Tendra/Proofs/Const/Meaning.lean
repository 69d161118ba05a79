import Mathlib.Data.Rat.Defs
import Tendra.Lib.Outcome
import Tendra.Ref.Const

/-!
# What a constant expression evaluates to

The meaning of the expressions that `safe_eval` is given and of those that it makes. The
arguments of an operation are evaluated in any order. Evaluation fails where the contents
of a null pointer are taken, or of an address that was formed from one, and where something
is divided by zero. What the other operations compute is given by a machine, and so is what
names stand for and what is in memory: every pointer there is null or valid.
-/

namespace Tendra.Ref.Const

variable {n : Node} {args : List Exp} {hd : ShapeHd}

/-- A pointer is null or at an object, with a distance. -/
inductive Val
  | ptr (base : Option Nat) (off : Int)
  | int (i : Int)
  | real (x : Rat)
  | offset (i : Int)
  | other (i : Nat)
deriving DecidableEq

/-- The null pointer. -/
abbrev Val.nil : Val := .ptr none 0

def isInt : ShapeHd → Bool
  | .scharhd | .ucharhd | .swordhd | .uwordhd | .slonghd | .ulonghd | .s64hd | .u64hd => true
  | _ => false

def isReal : ShapeHd → Bool
  | .shrealhd | .realhd | .doublehd => true
  | _ => false

/-- The value is one of the shape. -/
def Val.Fits (hd : ShapeHd) (v : Val) : Prop :=
  (hd = .ptrhd → ∃ b k, v = .ptr b k) ∧ (isInt hd = true → ∃ i, v = .int i) ∧
    (isReal hd = true → ∃ x, v = .real x) ∧ (hd = .offsethd → ∃ i, v = .offset i)

/-- Null or valid, if it is a pointer. -/
def Val.Proper (v : Val) : Prop := ∀ k, v = .ptr none k → k = 0

/-- What the names stand for, what is in memory, and what operations and constants give. -/
structure Machine (decs : Nat → Dec) where
  name : Node → Val
  contents : Node → Nat → Int → Val
  op : Node → List Val → Val
  const : Shape → List Nat → Int → Int → Val
  name_ok : ∀ n, (name n).Fits n.sh.hd ∧ (name n).Proper
  contents_ok : ∀ n o k, (contents n o k).Fits n.sh.hd ∧ (contents n o k).Proper
  op_ok : ∀ n vs, (op n vs).Fits n.sh.hd ∧ (op n vs).Proper
  const_ok : ∀ sh ds s x, (const sh ds s x).Fits sh.hd ∧ (const sh ds s x).Proper
  /-- Variables and global names are addresses. -/
  address : ∀ n, n.sh.hd = .ptrhd → (decs n.dec).isglob ∨ (decs n.dec).isvar →
    ∃ o k, name n = .ptr (some o) k
  zero : ∀ sh, isReal sh.hd = true → const sh (List.replicate mantSize 0) 0 0 = .real 0

namespace Machine

variable {decs : Nat → Dec} (m : Machine decs)

/-- A constant that is an entry of `flptnos`. -/
def constVal (sh : Shape) (f : Flt) : Val := m.const sh f.digits f.sign f.exp

/-- A `val_tag` that is no such entry. -/
def numeral (n : Node) : Val :=
  if isInt n.sh.hd then .int n.no else if n.sh.hd = .offsethd then .offset n.no else m.op n []

def fetch (n : Node) : Val → Outcome Val
  | .ptr none _ => .crash
  | .ptr (some o) k => .ret (m.contents n o k)
  | v => .ret (m.op n [v])

def field (n : Node) : Val → Val
  | .ptr b k => .ptr b (k + n.no)
  | v => m.op n [v]

def add (n : Node) : Val × Val → Val
  | (.ptr b k, .offset i) => .ptr b (k + i)
  | (v, w) => m.op n [v, w]

end Machine

/-- The values that nothing is divided by. -/
def Val.isZero : Val → Bool
  | .int i => i = 0
  | .real x => x = 0
  | .offset i => i = 0
  | _ => false

def Machine.divide {decs : Nat → Dec} (m : Machine decs) (n : Node) (p : Val × Val) : Outcome Val :=
  if p.2.isZero then .crash else .ret (m.op n [p.1, p.2])

/-- A test for inequality goes on or jumps. -/
def testNe (p : Val × Val) : Outcome Val := if p.1 ≠ p.2 then .ret (.other 0) else .leave

/-- The values of the declarations that are made. -/
abbrev Env := Nat → Option Val

def Env.start : Env := fun _ => none

section

variable {decs : Nat → Dec} (m : Machine decs) (nos : Nat → Flt) (junk : Val)

mutual

/-- The outcome of an expression; an undefined value is `junk`. -/
@[grind =] def eval : Exp → Env → Outcome Val
  | .mk n args, env =>
      match n.tag, args with
      | .nameTag, _ => .ret ((env n.dec).getD (m.name n))
      | .nullTag, _ => .ret .nil
      | .realTag, _ => .ret (m.constVal n.sh (nos n.no.toNat))
      | .valTag, _ =>
          .ret (if isbigval n then m.constVal n.sh (nos n.no.toNat) else m.numeral n)
      | .clearTag, _ => .ret junk
      | .identTag, [d, b] =>
          (eval d env).bind fun v => eval b (Function.update env n.dec (some v))
      | .seqTag, [z, r] => (eval z env).bind fun _ => eval r env
      | .holderTag, [t] => eval t env
      | .testTag, [a, k] => ((eval a env).both (eval k env)).bind testNe
      | .labstTag, [_, b] => eval b env
      | .condTag, [a, l] => (eval a env).handle (eval l env)
      | .contTag, [a] => (eval a env).bind (m.fetch n)
      | .bfcontTag, [a] => (eval a env).bind (m.fetch n)
      | .reffTag, [a] => (eval a env).bind fun v => .ret (m.field n v)
      | .addptrTag, [a, b] => ((eval a env).both (eval b env)).bind fun p => .ret (m.add n p)
      | tag, args =>
          if isDivision tag then
            match args with
            | [a, b] => ((eval a env).both (eval b env)).bind (m.divide n)
            | _ => .crash
          else (evalArgs args env).bind fun vs => .ret (m.op n vs)

/-- The arguments of an operation. -/
def evalArgs : List Exp → Env → Outcome (List Val)
  | [], _ => .ret []
  | a :: as, env => ((eval a env).both (evalArgs as env)).bind fun p => .ret (p.1 :: p.2)

end

end

/-! ## The expressions that are extracted -/

/-- The operations that are not treated on their own. -/
def plain (t : Tag) : Bool :=
  isA t && !isDivision t &&
    !decide (t ∈ [.contTag, .contvolTag, .bfcontTag, .bfcontvolTag, .reffTag,
    .nameTag, .valTag, .nullTag, .realTag, .addptrTag, .envOffsetTag, .clearTag])

/-- Numbers, of which a divisor is one. -/
def isNumber (hd : ShapeHd) : Bool := isInt hd || isReal hd || decide (hd = .offsethd)

/-- The expressions that are taken out of loops, with the shapes that they have to have. -/
inductive Extractable : Exp → Prop
  | name {n : Node} (hn : n.tag = .nameTag) : Extractable (.mk n [])
  | env {n : Node} (hn : n.tag = .envOffsetTag ∨ n.tag = .generalEnvOffsetTag) :
      Extractable (.mk n [])
  | real {n : Node} (hn : n.tag = .realTag) : Extractable (.mk n [])
  | val {n : Node} (hn : n.tag = .valTag) : Extractable (.mk n [])
  | null {n : Node} (hn : n.tag = .nullTag) (hsh : n.sh.hd = .ptrhd) : Extractable (.mk n [])
  | cont {n : Node} {a : Exp} (hn : n.tag = .contTag) (ha : Extractable a)
      (hsh : a.sh.hd = .ptrhd) : Extractable (.mk n [a])
  | bfcont {n : Node} {a : Exp} (hn : n.tag = .bfcontTag) (ha : Extractable a)
      (hsh : a.sh.hd = .ptrhd) : Extractable (.mk n [a])
  | reff {n : Node} {a : Exp} (hn : n.tag = .reffTag) (hnsh : n.sh.hd = .ptrhd)
      (ha : Extractable a) (hsh : a.sh.hd = .ptrhd) : Extractable (.mk n [a])
  | addptr {n : Node} {a b : Exp} (hn : n.tag = .addptrTag) (hnsh : n.sh.hd = .ptrhd)
      (ha : Extractable a) (hb : Extractable b) (hash : a.sh.hd = .ptrhd)
      (hbsh : b.sh.hd = .offsethd) : Extractable (.mk n [a, b])
  | div {n : Node} {a b : Exp} (hn : isDivision n.tag = true) (ha : Extractable a)
      (hb : Extractable b) (hsh : isNumber b.sh.hd = true) : Extractable (.mk n [a, b])
  | op {n : Node} {args : List Exp} (hn : plain n.tag = true)
      (hargs : ∀ a ∈ args, Extractable a) : Extractable (.mk n args)

/-- A part of an expression. -/
inductive Part : Exp → Exp → Prop
  | self (e : Exp) : Part e e
  | arg {n : Node} {args : List Exp} {a t : Exp} : a ∈ args → Part a t → Part (.mk n args) t

section

variable {decs : Nat → Dec} (m : Machine decs) (nos : Nat → Flt)

/-- The outcome of an expression that has nothing undefined. -/
def outcome (e : Exp) : Outcome Val := eval m nos .nil e Env.start

/-- Somewhere a field of the null pointer is formed. -/
def NilField (e : Exp) : Prop :=
  ∃ n a, Part e (.mk n [a]) ∧ n.tag = .reffTag ∧ a.tag ≠ .reffTag ∧
    (outcome m nos a).value = some .nil

/-- Somewhere the contents of an address that was formed from null are taken, and nothing
before tells: what is tested is whether it is null, and that only in a `cont_tag` of
something else than a field. -/
def NilContents (e : Exp) : Prop :=
  ∃ n a, Part e (.mk n [a]) ∧ (n.tag = .contTag ∨ n.tag = .bfcontTag) ∧ ¬ NilField m nos a ∧
    ∃ k, (outcome m nos a).value = some (.ptr none k) ∧
      (n.tag = .contTag → a.tag ≠ .reffTag → k ≠ 0)

end

/-! ## Evaluation by forms -/

/-- Induction over the arguments. -/
theorem exp_induction {p : Exp → Prop} (h : ∀ n args, (∀ a ∈ args, p a) → p (.mk n args)) :
    ∀ e, p e := by
  intro e
  refine @Exp.rec p (fun args => ∀ a ∈ args, p a) h ?_ ?_ e
  · exact fun _ ha => nomatch ha
  · intro b args hb hargs a ha
    rcases List.mem_cons.1 ha with rfl | ha
    · exact hb
    · exact hargs a ha

theorem slots_arg {a : Exp} (ha : a ∈ args) {i : Nat} (hi : i ∈ slots a) :
    i ∈ slots (.mk n args) := by
  have hargs : ∀ args : List Exp, a ∈ args → i ∈ slotsArgs args := by
    intro args hmem
    induction args with
    | nil => cases hmem
    | cons b args ih =>
        rw [slotsArgs, List.mem_append]
        rcases List.mem_cons.1 hmem with rfl | hmem
        · exact Or.inl hi
        · exact Or.inr (ih hmem)
  rw [slots, List.mem_append]
  exact Or.inr (hargs args ha)

theorem plain_not_division {t : Tag} (h : plain t = true) : isDivision t = false := by
  unfold plain at h
  simp only [Bool.and_eq_true, Bool.not_eq_true'] at h
  exact h.1.2

section

variable {decs : Nat → Dec} {m : Machine decs} {nos : Nat → Flt} {junk : Val}

theorem evalArgs_eq (args : List Exp) (env : Env) :
    evalArgs m nos junk args env = Outcome.all (args.map fun a => eval m nos junk a env) := by
  induction args with
  | nil => rfl
  | cons a args ih =>
      rw [evalArgs, ih]
      rfl

theorem eval_plain (h : plain n.tag = true) (args : List Exp) (env : Env) :
    eval m nos junk (.mk n args) env =
      (Outcome.all (args.map fun a => eval m nos junk a env)).bind fun vs => .ret (m.op n vs) := by
  rw [← evalArgs_eq, eval.eq_def]
  dsimp only
  split
  case h_16 => rw [if_neg (Bool.eq_false_iff.1 (plain_not_division h))]
  all_goals exact absurd h (by rw [‹n.tag = _›]; decide)

theorem eval_div (h : isDivision n.tag = true) (a b : Exp) (env : Env) :
    eval m nos junk (.mk n [a, b]) env =
      ((eval m nos junk a env).both (eval m nos junk b env)).bind (m.divide n) := by
  rw [eval.eq_def]
  dsimp only
  split
  case h_16 => rw [if_pos h]
  all_goals exact absurd h (by rw [‹n.tag = _›]; decide)

/-- Only the entries that the expression holds count. -/
theorem eval_congr {nos' : Nat → Flt} (e : Exp) (env : Env)
    (h : ∀ i ∈ slots e, nos' i = nos i) : eval m nos' junk e env = eval m nos junk e env := by
  induction e using exp_induction generalizing env with
  | h n args ih =>
      have hargs : ∀ a ∈ args, ∀ env, eval m nos' junk a env = eval m nos junk a env :=
        fun a ha env => ih a ha env fun i hi => h i (slots_arg ha hi)
      have hself : inPool n = true → nos' n.no.toNat = nos n.no.toNat := by
        intro hn
        refine h _ ?_
        rw [slots, if_pos hn]
        exact List.mem_append_left _ List.mem_cons_self
      rw [eval.eq_def, eval.eq_def m nos]
      dsimp only
      split
      case h_3 hn => rw [hself (by simp [inPool, hn])]
      case h_4 hn =>
        split
        · next hbig => rw [hself (by simp [inPool, hn, hbig])]
        · rfl
      case h_16 =>
        split
        · split
          · simp only [List.forall_mem_cons] at hargs
            simp only [hargs]
          · rfl
        · rw [evalArgs_eq, evalArgs_eq, List.map_congr_left fun a ha => hargs a ha env]
      all_goals
        first
          | rfl
          | simp only [List.forall_mem_cons] at hargs
            simp only [hargs]

end

/-! ## Values and shapes -/

/-- The value of each shape that `safe_arg` tests for. -/
def zeroVal (hd : ShapeHd) : Val :=
  if hd = .ptrhd then .nil else if isReal hd then .real 0
  else if hd = .offsethd then .offset 0 else .int 0

theorem Val.Fits.isZero_iff {v : Val} (h : v.Fits hd) (hhd : isNumber hd = true) :
    v.isZero = true ↔ v = zeroVal hd := by
  obtain ⟨-, hint, hreal, hoff⟩ := h
  cases hd with
  | offsethd =>
      obtain ⟨i, rfl⟩ := hoff rfl
      simp [Val.isZero, zeroVal, isReal]
  | shrealhd | realhd | doublehd =>
      obtain ⟨x, rfl⟩ := hreal rfl
      simp [Val.isZero, zeroVal, isReal]
  | scharhd | ucharhd | swordhd | uwordhd | slonghd | ulonghd | s64hd | u64hd =>
      obtain ⟨i, rfl⟩ := hint rfl
      simp [Val.isZero, zeroVal, isReal]
  | _ => cases hhd

theorem not_isReal (h : isInt hd = true) : isReal hd = false := by
  cases hd <;> first | rfl | cases h

theorem Val.fits_ptr (h : hd = .ptrhd) (b : Option Nat) (k : Int) : (Val.ptr b k).Fits hd := by
  subst h
  exact ⟨fun _ => ⟨b, k, rfl⟩, nofun, nofun, nofun⟩

section

variable {decs : Nat → Dec} (m : Machine decs) (nos : Nat → Flt)

theorem numeral_fits (n : Node) : (m.numeral n).Fits n.sh.hd := by
  unfold Machine.numeral
  split
  · next hint =>
      have hne : ∀ hd, isInt hd = false → n.sh.hd ≠ hd := by
        rintro hd hhd rfl
        rw [hhd] at hint
        cases hint
      refine ⟨fun h => absurd h (hne _ rfl), fun _ => ⟨_, rfl⟩, fun h => ?_,
        fun h => absurd h (hne _ rfl)⟩
      rw [not_isReal hint] at h
      cases h
  · split
    · next hoff =>
        rw [hoff]
        exact ⟨nofun, nofun, nofun, fun _ => ⟨_, rfl⟩⟩
    · exact (m.op_ok n []).1

theorem fetch_value {v w : Val} (h : (m.fetch n v).value = some w) :
    w.Fits n.sh.hd ∧ ∀ k, v ≠ .ptr none k := by
  unfold Machine.fetch at h
  split at h
  · cases h
  · obtain rfl := Option.some.inj h
    exact ⟨(m.contents_ok n _ _).1, nofun⟩
  · next hptr hother =>
      obtain rfl := Option.some.inj h
      exact ⟨(m.op_ok n _).1, fun k => hptr k⟩

theorem fetch_fail {v : Val} : (m.fetch n v).fail = true ↔ ∃ k, v = .ptr none k := by
  unfold Machine.fetch
  split
  · exact iff_of_true rfl ⟨_, rfl⟩
  · exact iff_of_false Bool.false_ne_true nofun
  · next hptr hother => exact iff_of_false Bool.false_ne_true fun ⟨k, hk⟩ => hptr k hk

theorem fetch_sure (n : Node) (v : Val) : (m.fetch n v).Sure := by
  unfold Machine.fetch
  split
  · exact Outcome.sure_crash
  · exact Outcome.sure_ret _
  · exact Outcome.sure_ret _

theorem field_fits (hn : n.sh.hd = .ptrhd) (v : Val) : (m.field n v).Fits n.sh.hd := by
  unfold Machine.field
  split
  · exact Val.fits_ptr hn _ _
  · exact (m.op_ok n _).1

theorem add_fits (hn : n.sh.hd = .ptrhd) (p : Val × Val) : (m.add n p).Fits n.sh.hd := by
  unfold Machine.add
  split
  · exact Val.fits_ptr hn _ _
  · exact (m.op_ok n _).1

/-- Values are of the shape of the expression. -/
theorem outcome_fits {e : Exp} (he : Extractable e) {v : Val}
    (h : (outcome m nos e).value = some v) : v.Fits e.sh.hd := by
  cases he with
  | @name n hn =>
      simp only [outcome, eval, hn] at h
      exact Option.some.inj h ▸ (m.name_ok n).1
  | @env n hn =>
      have hout : outcome m nos (.mk n []) = .ret (m.op n []) := by
        rcases hn with hn | hn <;> simp [outcome, eval, hn, isDivision, evalArgs, Outcome.bind,
          Outcome.ret]
      rw [hout] at h
      exact Option.some.inj h ▸ (m.op_ok n []).1
  | @real n hn =>
      simp only [outcome, eval, hn] at h
      exact Option.some.inj h ▸ (m.const_ok n.sh _ _ _).1
  | @val n hn =>
      simp only [outcome, eval, hn, Outcome.ret_value, Option.some.injEq] at h
      subst h
      split
      · exact (m.const_ok n.sh _ _ _).1
      · exact numeral_fits m n
  | @null n hn hsh =>
      simp only [outcome, eval, hn] at h
      exact Option.some.inj h ▸ Val.fits_ptr hsh none 0
  | cont hn _ _ =>
      simp only [outcome, eval, hn] at h
      obtain ⟨w, -, hw⟩ := Outcome.bind_value.1 h
      exact (fetch_value m hw).1
  | bfcont hn _ _ =>
      simp only [outcome, eval, hn] at h
      obtain ⟨w, -, hw⟩ := Outcome.bind_value.1 h
      exact (fetch_value m hw).1
  | reff hn hnsh _ _ =>
      simp only [outcome, eval, hn] at h
      obtain ⟨w, -, hw⟩ := Outcome.bind_value.1 h
      exact Option.some.inj hw ▸ field_fits m hnsh w
  | addptr hn hnsh _ _ _ _ =>
      simp only [outcome, eval, hn] at h
      obtain ⟨p, -, hp⟩ := Outcome.bind_value.1 h
      exact Option.some.inj hp ▸ add_fits m hnsh p
  | @div n a b hn _ _ _ =>
      rw [outcome, eval_div hn] at h
      obtain ⟨p, -, hp⟩ := Outcome.bind_value.1 h
      unfold Machine.divide at hp
      split at hp
      · cases hp
      · exact Option.some.inj hp ▸ (m.op_ok n _).1
  | @op n args hn _ =>
      rw [outcome, eval_plain hn] at h
      obtain ⟨vs, -, hvs⟩ := Outcome.bind_value.1 h
      exact Option.some.inj hvs ▸ (m.op_ok n vs).1

/-! ## Parts -/

theorem part_mk {t : Exp} : Part (.mk n args) t ↔ t = .mk n args ∨ ∃ a ∈ args, Part a t := by
  constructor
  · intro h
    cases h with
    | self => exact Or.inl rfl
    | arg ha h => exact Or.inr ⟨_, ha, h⟩
  · rintro (rfl | ⟨a, ha, h⟩)
    · exact Part.self _
    · exact Part.arg ha h

/-- An operation on one argument, somewhere or here. -/
theorem exists_part_mk {P : Node → Exp → Prop} :
    (∃ n' a, Part (.mk n args) (.mk n' [a]) ∧ P n' a) ↔
      (∃ b ∈ args, ∃ n' a, Part b (.mk n' [a]) ∧ P n' a) ∨ ∃ a, args = [a] ∧ P n a := by
  constructor
  · rintro ⟨n', a, hpart, h⟩
    rcases part_mk.1 hpart with heq | ⟨b, hb, hpart⟩
    · obtain ⟨rfl, rfl⟩ := Exp.mk.inj heq
      exact Or.inr ⟨a, rfl, h⟩
    · exact Or.inl ⟨b, hb, n', a, hpart, h⟩
  · rintro (⟨b, hb, n', a, hpart, h⟩ | ⟨a, rfl, h⟩)
    · exact ⟨n', a, Part.arg hb hpart, h⟩
    · exact ⟨n, a, Part.self _, h⟩

theorem nilField_mk : NilField m nos (.mk n args) ↔
    (∃ a ∈ args, NilField m nos a) ∨ ∃ a, args = [a] ∧ n.tag = .reffTag ∧ a.tag ≠ .reffTag ∧
      (outcome m nos a).value = some .nil := exists_part_mk

theorem nilContents_mk : NilContents m nos (.mk n args) ↔
    (∃ a ∈ args, NilContents m nos a) ∨ ∃ a, args = [a] ∧
      (n.tag = .contTag ∨ n.tag = .bfcontTag) ∧ ¬ NilField m nos a ∧
      ∃ k, (outcome m nos a).value = some (.ptr none k) ∧
        (n.tag = .contTag → a.tag ≠ .reffTag → k ≠ 0) := exists_part_mk

end

end Tendra.Ref.Const
