import Tendra.Proofs.FoldExact
import Tendra.Proofs.IntExp
import Tendra.Ref.Foralls

/-!
# A test on the variable beside the counter

While the counter has the value `v`, the variable X has `base + mult * v` in it, modulo 2^32: the
increment keeps this when what is added to X is computed without loss. The limit is scaled in the
same way. So the new test has the outcome of the old one where `mult` is positive and nothing is
lost: the scaled counter and the scaled limit are values of the shape in which the new test
compares, and the displacement of a constant limit, counted in bits, is a C `int`.
-/

namespace Tendra.Ref.Foralls

open Tendra.Word

/-! ## Values modulo 2^32 -/

/-- The values of a C `int`. -/
def FitsInt (v : Int) : Prop := -2 ^ 31 ≤ v ∧ v < 2 ^ 31

instance (v : Int) : Decidable (FitsInt v) := inferInstanceAs (Decidable (_ ∧ _))

theorem cInt_eq {v : Int} (h : FitsInt v) : cInt v = v :=
  BitVec.toInt_ofInt_eq_self (by decide) h.1 h.2

/-- An integer modulo 2^32. -/
def low (v : Int) : BitVec 32 := BitVec.ofInt 32 v

theorem low_add (a b : Int) : low (a + b) = low a + low b := BitVec.ofInt_add ..

theorem low_mul (a b : Int) : low (a * b) = low a * low b := BitVec.ofInt_mul ..

section

variable {sh : Shape} {p : Pool} {env : Env} {ld : Node} {c e : Exp} {a b m v : Int}

theorem low_wrap (h : sh.size = 32) (v : Int) : low (sh.wrap v) = low v := by
  obtain ⟨_, _, sg, _, _, _⟩ := sh
  cases h
  exact ofInt_decode _

/-- A value of a shape of 32 bits is known modulo 2^32. -/
theorem wrap_eq_of_low (h : sh.size = 32) (hab : low a = low b) (hb : sh.Has b) :
    sh.wrap a = b := by
  obtain ⟨_, _, sg, _, _, _⟩ := sh
  cases h
  have hab : BitVec.ofInt 32 a = BitVec.ofInt 32 b := hab
  rw [Shape.wrap, Word.wrap, hab]
  exact decode_ofInt (Nat.succ_pos 31) hb

/-! ## Values of the expressions -/

theorem value_isCont (h : isCont ld c = true) : value p env c = env.cont ld.dec ld.no := by
  unfold isCont at h
  split at h
  · rename_i n a args
    obtain ⟨hn, -, hdec, hno⟩ := of_decide_eq_true h
    rw [value.eq_def]
    simp only [hn, hdec, hno]
  · cases h

theorem value_nameExp (sh : Shape) (d : Nat) : value p env (nameExp sh d) = env.name d 0 := by
  simp [nameExp, value]

theorem value_contName (sh s : Shape) (d : Nat) :
    value p env (meU3 sh (nameExp s d) .contTag) = env.cont d 0 := by
  simp [meU3, nameExp, value]

theorem value_addptr (sh : Shape) (a b : Exp) :
    value p env (meB3 sh a b .addptrTag) = sh.wrap (value p env a + value p env b) := by
  simp [meB3, value]

theorem value_mult (sh : Shape) (a b : Exp) :
    value p env (meB3 sh a b .multTag) = sh.wrap (value p env a * value p env b) := by
  simp [meB3, value]

theorem value_offsetMult (sh : Shape) (a b : Exp) :
    value p env (meB3 sh a b .offsetMultTag) = sh.wrap (value p env a * value p env b) := by
  simp [meB3, value]

theorem value_plus (sh : Shape) (a b : Exp) :
    value p env (meB3 sh a b .plusTag) = sh.wrap (value p env a + value p env b) := by
  simp [meB3, value]

theorem value_offset (h : sh.hd = .offsethd) (no : Int) : value p env (valExp sh no) = no / 8 := by
  simp [valExp, value, h]

/-- The index of an element: the counter, or its product with a constant offset of whole bytes. -/
inductive Indexes (ld : Node) (m : Int) : Exp → Prop
  | cont {c : Exp} (hc : isCont ld c = true) (hm : m = 1) : Indexes ld m c
  | mult {n k : Node} {c : Exp} (hc : isCont ld c = true) (hn : n.tag = .offsetMultTag)
      (hsize : n.sh.size = 32) (hk : k.tag = .valTag) (hoff : k.sh.hd = .offsethd)
      (hno : k.no = 8 * m) (hint : FitsInt (8 * m)) : Indexes ld m (.mk n [c, .mk k []])

theorem Indexes.low_value (h : Indexes ld m e) :
    low (value p env e) = low (m * env.cont ld.dec ld.no) := by
  cases h with
  | cont hc hm => rw [value_isCont hc, hm, Int.one_mul]
  | mult hc hn hsize hk hoff hno =>
      rw [value.eq_def]
      simp only [hn]
      rw [low_wrap hsize, value_isCont hc, value.eq_def]
      simp only [hk, hoff, if_true, hno]
      rw [Int.mul_ediv_cancel_left _ (by decide), Int.mul_comm]

/-! ## What is assigned to X -/

/-- The constant increments of the counter keep step with X. -/
theorem low_reff {sh s : Shape} {x : Nat} {no d : Int} (hsize : sh.size = 32) (hno : no = 8 * d) :
    low (value p env (.mk ⟨.reffTag, sh, no, 0, none, 0⟩
      [meU3 sh (nameExp s x) .contTag])) = low (env.cont x 0 + d) := by
  rw [value.eq_def]
  dsimp only
  rw [low_wrap hsize, value_contName, hno, Int.mul_ediv_cancel_left _ (by decide)]

variable {x : Nat} {addptr arr idx : Exp} {n : Node} {inci : Int} {w : Weakened}

/-- What `weaken` does to an address of an element. -/
theorem weaken_spec (h : weaken x (.mk n [arr, idx]) inci = some w) (hidx : Indexes ld m idx)
    (hsize : n.sh.size = 32) (hm : 0 < m) (hstep : FitsInt (8 * (m * inci))) :
    w.arraystep = m ∧ w.red.x = x ∧ w.red.init = .mk n [arr, idx] ∧
      low (value p env w.red.step) = low (env.cont x 0 + m * inci) := by
  cases hidx with
  | cont hc hm1 =>
      have htag : idx.tag = .contTag := by
        unfold isCont at hc
        split at hc
        · exact (of_decide_eq_true hc).1
        · cases hc
      simp only [weaken, Exp.args, htag, if_true, Option.some.injEq] at h
      subst h hm1
      refine ⟨rfl, rfl, rfl, ?_⟩
      refine low_reff hsize ?_
      rw [Int.one_mul] at hstep ⊢
      rw [if_pos rfl, Int.mul_comm, cInt_eq hstep]
  | @mult o k c hc ho _ _ _ hno _ =>
      have htag : (Exp.mk o [c, .mk k []]).tag ≠ .contTag := by
        rw [Exp.tag, Exp.node, ho]
        decide
      have hdiv : k.no / 8 = m := by rw [hno, Int.mul_ediv_cancel_left _ (by decide)]
      have hne : (Exp.mk k []).no ≠ 0 := by
        rw [Exp.no, Exp.node, hno]
        omega
      simp only [weaken, if_neg htag, Exp.args, Option.some.injEq] at h
      subst h
      refine ⟨hdiv, ?_⟩
      rw [extractAddptrs, if_pos (.inr hne)]
      refine ⟨rfl, rfl, low_reff hsize ?_⟩
      rw [if_neg (by decide), Exp.no, Exp.node, hno, Int.mul_assoc, cInt_eq hstep]

/-- What `scale_loopid` does to a scaled counter. -/
theorem low_scaleLoopid {shvar : Shape} (hsize : e.sh.size = 32) (hoff : e.sh.hd = .offsethd)
    (hm : FitsInt (8 * m)) (hstep : FitsInt (8 * (m * inci))) :
    low (value p env (scaleLoopid x e shvar m inci).step) = low (env.cont x 0 + m * inci) := by
  rw [scaleLoopid, value_plus, low_wrap hsize, value_contName, value_offset hoff,
    Int.mul_comm m 8, cInt_eq hm, Int.mul_assoc, cInt_eq hstep,
    Int.mul_ediv_cancel_left _ (by decide)]

/-! ## The limit -/

/-- The address that X is compared with. -/
theorem low_limdec {le : Exp} {base lim : Int} (hsize : arr.sh.size = 32)
    (hbase : value p env arr = base) (hlim : value p env le = lim) (hm : FitsInt (8 * m))
    (hconst : le.tag = .valTag → le.no = lim ∧ FitsInt (8 * (m * lim))) :
    low (value p env (limdec arr le m)) = low (base + m * lim) := by
  unfold limdec
  split
  · unfold limaddptr
    split
    · rename_i h1
      rw [value_addptr, low_wrap hsize, hbase, hlim, h1, Int.one_mul]
    · rw [value_addptr, low_wrap hsize, low_add, value_offsetMult, low_wrap rfl, hbase, hlim,
        value_offset rfl, Int.mul_comm m 8, cInt_eq hm, Int.mul_ediv_cancel_left _ (by decide),
        Int.mul_comm, low_add]
  · rename_i hval
    obtain ⟨hno, hfit⟩ := hconst (Decidable.not_not.1 hval)
    have hfit' : FitsInt (m * lim) := by
      unfold FitsInt at *
      omega
    rw [hno, cInt_eq hfit']
    unfold limreff
    split
    · rename_i h0
      rw [hbase, h0, Int.add_zero]
    · rw [value.eq_def]
      dsimp only
      rw [low_wrap hsize, hbase, Int.mul_comm _ 8, cInt_eq hfit,
        Int.mul_ediv_cancel_left _ (by decide)]

/-! ## The test -/

/-- The order of two addresses is that of the counters. -/
theorem holds_scaled (nt : Ntest) {base : Int} (hm : 0 < m) :
    nt.holds (base + m * a) (base + m * b) = nt.holds a b := by
  have hlt : ∀ a b, base + m * a < base + m * b ↔ a < b := fun a b => by
    rw [Int.add_lt_add_iff_left, Int.mul_lt_mul_left hm]
  have hle : ∀ a b, base + m * a ≤ base + m * b ↔ a ≤ b := fun a b => by
    rw [Int.add_le_add_iff_left, Int.mul_le_mul_left hm]
  have heq : base + m * a = base + m * b ↔ a = b := by
    rw [Int.le_antisymm_iff, hle, hle, ← Int.le_antisymm_iff]
  cases nt <;> simp [Ntest.holds, hlt, hle, heq]

theorem limexp_eq {test le : Exp} {last : Bool} (h : limexp ld test = some (le, last)) :
    ∃ n c, isCont ld c = true ∧ test = .mk n (if last then [c, le] else [le, c]) := by
  unfold limexp at h
  split at h
  · rename_i n lh rh
    split at h
    · rename_i hl
      cases h
      exact ⟨n, lh, hl, rfl⟩
    · split at h
      · rename_i hr
        cases h
        exact ⟨n, rh, hr, rfl⟩
      · cases h
  · cases h

/-- The new test has the outcome of the old one, if X and the limit are what they stand for. -/
theorem outcome_ntestx {test le clda ldn : Exp} {last : Bool} {env' : Env} {base lim : Int}
    (hlim : limexp ld test = some (le, last)) (hm : 0 < m) (hint : (childSh test).IsInt)
    (hv : (childSh test).Has (env.cont ld.dec ld.no)) (hle : (childSh test).Has lim)
    (hval : value p env le = lim) (hsize : (childSh (ntestx test last clda ldn)).size = 32)
    (hx : low (value p env' clda) = low (base + m * env.cont ld.dec ld.no))
    (hn : low (value p env' ldn) = low (base + m * lim))
    (hxhas : (childSh (ntestx test last clda ldn)).Has (base + m * env.cont ld.dec ld.no))
    (hnhas : (childSh (ntestx test last clda ldn)).Has (base + m * lim)) :
    outcome p env' (ntestx test last clda ldn) = outcome p env test := by
  obtain ⟨n, c, hc, rfl⟩ := limexp_eq hlim
  have hcont := @value_isCont p env _ _ hc
  have hscaled : ∀ (nt : Ntest) (a b : Int), nt.holds (base + m * a) (base + m * b) =
      nt.holds a b := fun nt a b => holds_scaled nt hm
  cases last with
  | true =>
      simp only [ntestx, childSh, if_true, Exp.args, List.map_cons, List.headD_cons] at *
      rw [outcome, outcome, wrap_eq_of_low hsize hx hxhas, wrap_eq_of_low hsize hn hnhas, hcont,
        hval, hv.wrap_eq hint, hle.wrap_eq hint]
      simp only [hscaled]
      rfl
  | false =>
      simp only [ntestx, childSh, if_false, Bool.false_eq_true, Exp.args, List.map_cons,
        List.headD_cons] at *
      rw [outcome, outcome, wrap_eq_of_low hsize hx hxhas, wrap_eq_of_low hsize hn hnhas, hcont,
        hval, hv.wrap_eq hint, hle.wrap_eq hint]
      simp only [hscaled]
      rfl

/-! ## The tests have a limit -/

/-- The expression stands at the place `up`. -/
def Stands : Exp → Up → Prop
  | _, [] => True
  | e, (f, i) :: up => f.args[i]? = some e ∧ Stands f up

mutual

/-- What `sites` finds are uses, where they stand. -/
theorem stands_of_sites (dec : Nat) (up : Up) (e : Exp) (h : Stands e up)
    {site : Node × Up} (hsite : site ∈ sites dec up e) :
    ∃ args, site.1.tag = .nameTag ∧ site.1.dec = dec ∧ Stands (.mk site.1 args) site.2 := by
  match e with
  | .mk n args =>
      rw [sites, List.mem_append] at hsite
      cases hsite with
      | inl hsite =>
          split at hsite
          · rename_i hn
            rw [List.mem_singleton.1 hsite]
            exact ⟨args, hn.1, hn.2, h⟩
          · cases hsite
      | inr hsite =>
          exact stands_of_sitesList dec (.mk n args) 0 up args h
            (fun j => by simp [Exp.args]) hsite

theorem stands_of_sitesList (dec : Nat) (e : Exp) (i : Nat) (up : Up)
    (args : List Exp) (h : Stands e up) (hargs : ∀ j, args[j]? = e.args[i + j]?)
    {site : Node × Up} (hsite : site ∈ sitesList dec e i up args) :
    ∃ as, site.1.tag = .nameTag ∧ site.1.dec = dec ∧ Stands (.mk site.1 as) site.2 := by
  match args with
  | [] => cases hsite
  | b :: rest =>
      rw [sitesList, List.mem_append] at hsite
      cases hsite with
      | inl hsite => exact stands_of_sites dec ((e, i) :: up) b ⟨(hargs 0).symm, h⟩ hsite
      | inr hsite =>
          refine stands_of_sitesList dec e (i + 1) up rest h (fun j => ?_) hsite
          have hj := hargs (j + 1)
          rw [List.getElem?_cons_succ] at hj
          rw [hj, Nat.add_assoc, Nat.add_comm 1 j]

end

/-- `limexp` finds the limit of every test that is collected. -/
theorem limexp_of_mem {ld : Node} {lab : Nat} {body t : Exp} (ht : t ∈ loopTests ld lab body)
    (hargs : t.args.length = 2) : limexp ld t ≠ none := by
  obtain ⟨⟨a, up⟩, hup, htest⟩ := List.mem_filterMap.1 ht
  obtain ⟨hsite, huse⟩ := List.mem_filter.1 hup
  have hno : a.no = ld.no := (of_decide_eq_true huse).1
  replace htest : testOf lab up = some t := htest
  obtain ⟨as, hname, hdec, hstands⟩ := stands_of_sites _ [] body trivial hsite
  unfold testOf at htest
  split at htest
  · rename_i c u i dad j rest
    split at htest
    · rename_i hc
      cases htest
      obtain ⟨hu, hdad, -⟩ := hstands
      have hu : u = .mk a as := by
        cases i with
        | zero => exact Option.some.inj hu
        | succ i => simp [Exp.args] at hu
      have hcont : isCont ld (.mk c [u]) = true := by
        rw [hu, isCont]
        exact decide_eq_true ⟨hc.1, hname, hdec, hno⟩
      obtain ⟨n, args⟩ := t
      match args, hargs, hdad with
      | [lh, rh], _, hdad =>
          simp only [limexp]
          cases j with
          | zero =>
              obtain rfl : lh = .mk c [u] := Option.some.inj hdad
              simp [hcont]
          | succ j =>
              cases j with
              | zero =>
                  obtain rfl : rh = .mk c [u] := Option.some.inj hdad
                  by_cases hl : isCont ld lh = true <;> simp [hl, hcont]
              | succ j => simp [Exp.args] at hdad
    · cases htest
  · cases htest

/-! ## Runs -/

/-- A loop whose test is replaced: the increment, with the sum that it assigns; X; the declaration
of the limit, and the factor; the test, its limit and whether that is `last`, and what is made. -/
structure Replaced where
  ld : Node
  sum : Exp
  inci : Int
  red : Reduction
  nd : Nat
  mult : Int
  test : Exp
  le : Exp
  last : Bool
  out : Removed

/-- The sum of the counter and a constant, whose number is its value up to the shape. -/
def Sums (p : Pool) (ld : Node) (inci : Int) (sum : Exp) : Prop :=
  ∃ s c k, sum = .mk s [c, .mk k []] ∧ isCont ld c = true ∧ s.tag = .plusTag ∧ s.sh.IsInt ∧
    k.tag = .valTag ∧ k.sh.hd ≠ .offsethd ∧ k.no = inci ∧
    BitVec.ofInt s.sh.size (constVal p k) = BitVec.ofInt s.sh.size inci

theorem Sums.value_eq {sum : Exp} (h : Sums p ld inci sum)
    (hhas : sum.sh.Has (env.cont ld.dec ld.no + inci)) :
    value p env sum = env.cont ld.dec ld.no + inci := by
  obtain ⟨s, c, k, rfl, hc, hs, hint, hk, hoff, -, hval⟩ := h
  rw [value.eq_def]
  simp only [hs]
  rw [value_isCont hc, value.eq_def]
  simp only [hk, if_neg hoff]
  have hsame : s.sh.wrap (env.cont ld.dec ld.no + constVal p k) =
      s.sh.wrap (env.cont ld.dec ld.no + inci) := by
    rw [Shape.wrap, Shape.wrap, Word.wrap, Word.wrap, BitVec.ofInt_add, hval, ← BitVec.ofInt_add]
  rw [hsame]
  exact Shape.Has.wrap_eq hint hhas

namespace Replaced

variable (p : Pool) (W : Replaced)

/-- The value of the counter. -/
def counter (env : Env) : Int := env.cont W.ld.dec W.ld.no

/-- The increment, with the assignment to X before it. -/
def next (env : Env) : Env :=
  let env := env.assign W.red.x 0 (value p env W.red.step)
  env.assign W.ld.dec W.ld.no (value p env W.sum)

/-- The base of the address that X is made from; a scaled counter has none. -/
def base (env : Env) : Int :=
  match W.red.init with
  | .mk n [arr, _] => if n.tag = .addptrTag then value p env arr else 0
  | _ => 0

variable (base lim : Int)

/-- The counter and the scaled counter are values of the shapes in which they are compared. -/
structure Fits (v : Int) : Prop where
  counter : (childSh W.test).Has v
  scaled : (childSh W.out.test).Has (base + W.mult * v)

/-- The states of the loop, where X and the counter are incremented together, and what else happens
leaves them, and the limit, as they are. -/
inductive Run : Env → Prop
  | enter {env : Env} (hx : env.cont W.red.x 0 = value p env W.red.init)
      (hn : ∀ e ∈ W.out.limit, env.name W.nd 0 = value p env e) (hbase : W.base p env = base)
      (hlim : value p env W.le = lim) (hfits : W.Fits base (W.counter env)) : Run env
  | incr {env : Env} (h : Run env) (hsum : W.sum.sh.Has (W.counter env + W.inci))
      (hlim : value p (W.next p env) W.le = lim)
      (hfits : W.Fits base (W.counter (W.next p env))) : Run (W.next p env)
  | other {env env' : Env} (h : Run env) (hv : W.counter env' = W.counter env)
      (hx : env'.cont W.red.x 0 = env.cont W.red.x 0)
      (hn : env'.name W.nd 0 = env.name W.nd 0)
      (hlim : value p env' W.le = value p env W.le) : Run env'

/-- What the test is to be replaced for: nothing is lost of the limit and of the displacements. -/
structure Good : Prop where
  pos : 0 < W.mult
  int : (childSh W.test).IsInt
  disp : FitsInt (8 * W.mult)
  step : FitsInt (8 * (W.mult * W.inci))
  limit : (childSh W.test).Has lim
  scaled : (childSh W.out.test).Has (base + W.mult * lim)
  const : W.le.tag = .valTag → W.le.no = lim

variable {p W base lim}

/-- What an increment leaves in the counter and in X. -/
theorem next_eq (hne : W.red.x ≠ W.ld.dec) (hsum : Sums p W.ld W.inci W.sum)
    (hhas : W.sum.sh.Has (W.counter env + W.inci)) :
    W.counter (W.next p env) = W.counter env + W.inci ∧
      (W.next p env).cont W.red.x 0 = value p env W.red.step := by
  have hcounter : W.counter (env.assign W.red.x 0 (value p env W.red.step)) = W.counter env := by
    simp [counter, Env.assign, Ne.symm hne]
  refine ⟨?_, by simp [next, Env.assign, hne]⟩
  have hsum' := @Sums.value_eq p (env.assign W.red.x 0 (value p env W.red.step)) _ _ _ hsum
    (by rw [← counter, hcounter]; exact hhas)
  rw [← counter, hcounter] at hsum'
  rw [next, counter]
  simp only [Env.assign] at hsum' ⊢
  rw [if_pos ⟨trivial, trivial⟩, hsum']

/-- What holds in a run of the loop. -/
theorem Run.holds (h : W.Run p base lim env) (hne : W.red.x ≠ W.ld.dec)
    (hsum : Sums p W.ld W.inci W.sum)
    (hinit : ∀ env, low (value p env W.red.init) = low (W.base p env + W.mult * W.counter env))
    (hstep : ∀ env, low (value p env W.red.step) =
      low (env.cont W.red.x 0 + W.mult * W.inci))
    (hlimit : ∀ env, W.base p env = base → value p env W.le = lim → ∀ e ∈ W.out.limit,
      low (value p env e) = low (base + W.mult * lim)) :
    low (env.cont W.red.x 0) = low (base + W.mult * W.counter env) ∧ value p env W.le = lim ∧
      W.Fits base (W.counter env) ∧
      ∀ e ∈ W.out.limit, low (env.name W.nd 0) = low (base + W.mult * lim) := by
  induction h with
  | enter hx hn hbase hlim hfits =>
      refine ⟨?_, hlim, hfits, fun e he => ?_⟩
      · rw [hx, hinit, hbase]
      · rw [hn e he, hlimit _ hbase hlim e he]
  | @incr env _ hhas hlim hfits ih =>
      obtain ⟨hx, -, -, hn⟩ := ih
      obtain ⟨hv, hx'⟩ := next_eq hne hsum hhas
      refine ⟨?_, hlim, hfits, hn⟩
      rw [hx', hstep, hv, Int.mul_add, ← Int.add_assoc, low_add, hx, ← low_add]
  | other _ hv hx hn hlim ih =>
      obtain ⟨hx1, hlim1, hfits1, hn1⟩ := ih
      rw [hv, hx, hn, hlim]
      exact ⟨hx1, hlim1, hfits1, hn1⟩

/-- The loop has a pointer beside its counter, and `remove_incr` has been called. -/
structure Pointer (p : Pool) (W : Replaced) (n : Node) (arr idx : Exp) (w : Weakened)
    (incr : Exp) : Prop where
  tag : n.tag = .addptrTag
  size : n.sh.size = 32
  arrSize : arr.sh.size = 32
  indexes : Indexes W.ld W.mult idx
  weaken : weaken W.red.x (.mk n [arr, idx]) W.inci = some w
  red : W.red = w.red
  limexp : limexp W.ld W.test = some (W.le, W.last)
  removed : removeIncr W.nd W.red W.ld W.test incr w.arraystep = some W.out
  sums : Sums p W.ld W.inci W.sum
  fresh : W.red.x ≠ W.ld.dec

/-- The loop has a scaled counter beside its counter, and `remove_incr2` has been called. -/
structure Scaled (p : Pool) (W : Replaced) (T : Target) (n k : Node) (c : Exp) (shvar : Shape)
    (incr : Exp) : Prop where
  tag : n.tag = .offsetMultTag
  hd : n.sh.hd = .offsethd
  size : n.sh.size = 32
  cont : isCont W.ld c = true
  nameSize : (childSh c).size = 32
  nameHd : (childSh c).hd ≠ .offsethd
  factor : k.tag = .valTag ∧ k.sh.hd = .offsethd ∧ k.no = 8 * W.mult
  red : W.red = scaleLoopid W.red.x (.mk n [c, .mk k []]) shvar W.mult W.inci
  limexp : limexp W.ld W.test = some (W.le, W.last)
  removed : removeIncr2 T W.nd W.red W.ld W.test incr W.mult = some W.out
  sums : Sums p W.ld W.inci W.sum
  fresh : W.red.x ≠ W.ld.dec

theorem limdec_sh (arr le : Exp) (m : Int) : (limdec arr le m).sh = arr.sh := by
  unfold limdec limaddptr limreff
  split <;> split <;> rfl

theorem Pointer.outcome_eq {arr idx incr : Exp} {w : Weakened}
    (h : W.Pointer p n arr idx w incr) (hgood : W.Good base lim)
    (hdisp : W.le.tag = .valTag → FitsInt (8 * (W.mult * lim))) (hrun : W.Run p base lim env)
    (k : Int) : outcome p (env.assign W.ld.dec W.ld.no k) W.out.test = outcome p env W.test := by
  obtain ⟨hstepSize, hx, hinit, -⟩ := @weaken_spec p env _ _ _ _ _ _ _ _ h.weaken h.indexes
    h.size hgood.pos hgood.step
  have hbase (env : Env) : W.base p env = value p env arr := by
    rw [Replaced.base, h.red, hinit]
    exact if_pos h.tag
  have hremoved := h.removed
  rw [removeIncr, h.limexp, h.red, hinit, hstepSize] at hremoved
  simp only [Exp.args, Option.some.injEq] at hremoved
  have hlimit (env : Env) (hb : W.base p env = base) (hl : value p env W.le = lim) :
      low (value p env (limdec arr W.le W.mult)) = low (base + W.mult * lim) :=
    low_limdec h.arrSize ((hbase env).symm.trans hb) hl hgood.disp
      fun hval => ⟨hgood.const hval, hdisp hval⟩
  obtain ⟨hX, hle, hfits, hN⟩ := hrun.holds h.fresh h.sums
    (fun env => by
      rw [h.red, hinit, value.eq_def]
      simp only [h.tag]
      rw [low_wrap h.size, low_add, h.indexes.low_value, ← low_add, hbase, counter])
    (fun env => by
      rw [h.red] at hx ⊢
      exact hx ▸ (weaken_spec (h.red ▸ h.weaken) h.indexes h.size hgood.pos hgood.step).2.2.2)
    (fun env hb hl e he => by
      rw [← hremoved] at he
      rw [← Option.mem_some.1 he]
      exact hlimit env hb hl)
  have hscaled := hgood.scaled
  have hfscaled := hfits.scaled
  rw [← hremoved] at hscaled hfscaled hN ⊢
  refine outcome_ntestx h.limexp hgood.pos hgood.int hfits.counter hgood.limit hle ?_ ?_ ?_
    hfscaled hscaled
  · cases W.last with
    | true => exact h.size
    | false => exact (congrArg Shape.size (limdec_sh arr W.le W.mult)).trans h.arrSize
  · have hx : w.red.x ≠ W.ld.dec := h.red ▸ h.fresh
    rw [value_contName]
    simp only [Env.assign, hx, false_and, if_false]
    rw [← h.red]
    exact hX
  · rw [value_nameExp]
    exact hN _ rfl

theorem low_valExp {s : Shape} (hsize : s.size = 32) (hhd : s.hd ≠ .offsethd) (no : Int) :
    low (value p env (valExp s no)) = low no := by
  rw [valExp, value.eq_def]
  simp only [if_neg hhd]
  rw [constVal_plain (by rw [isbigval_eq]; rfl), low_wrap hsize]
  exact ofInt_decode _

theorem low_cInt (v : Int) : low (cInt v) = low v := @ofInt_decode 32 true _

theorem Scaled.outcome_eq {T : Target} {k : Node} {shvar : Shape} {incr : Exp}
    (h : W.Scaled p T n k c shvar incr) (hgood : W.Good 0 lim) (hrun : W.Run p 0 lim env)
    (v : Int) : outcome p (env.assign W.ld.dec W.ld.no v) W.out.test = outcome p env W.test := by
  obtain ⟨hk, hoff, hno⟩ := h.factor
  have hinit : W.red.init = .mk n [c, .mk k []] := by rw [h.red, scaleLoopid]
  have hidx : Indexes W.ld W.mult (.mk n [c, .mk k []]) :=
    .mult h.cont h.tag h.size hk hoff hno hgood.disp
  have hbase (env : Env) : W.base p env = 0 := by
    have htag : n.tag ≠ .addptrTag := by
      rw [h.tag]
      decide
    rw [Replaced.base, hinit]
    exact if_neg htag
  obtain ⟨hX, hle, hfits, hN⟩ := hrun.holds h.fresh h.sums
    (fun env => by rw [hinit, hidx.low_value, hbase, Int.zero_add, counter])
    (fun env => by
      rw [h.red]
      exact low_scaleLoopid h.size h.hd hgood.disp hgood.step)
    (fun env _ hl e he => by
      have hremoved := h.removed
      rw [removeIncr2, h.limexp, hinit] at hremoved
      simp only [Exp.args] at hremoved
      split at hremoved
      · rw [← Option.some.inj hremoved] at he
        cases he
      · split at hremoved
        · rw [← Option.some.inj hremoved] at he
          rw [← Option.mem_some.1 he, limmult, value_mult, low_wrap h.nameSize, low_mul, hl,
            low_valExp h.nameSize h.nameHd, ← low_mul, Int.zero_add, Int.mul_comm]
        · cases hremoved)
  have hscaled := hgood.scaled
  have hfscaled := hfits.scaled
  have hclda : low (value p (env.assign W.ld.dec W.ld.no v)
      (meU3 slongsh (nameExp (fPointer W.red.init.sh.align) W.red.x) .contTag)) =
      low (0 + W.mult * W.counter env) := by
    rw [value_contName]
    simp only [Env.assign, h.fresh, false_and, if_false]
    exact hX
  have hremoved := h.removed
  rw [removeIncr2, h.limexp, hinit] at hremoved
  rw [hinit] at hclda
  simp only [Exp.args] at hremoved
  split at hremoved
  · rename_i hval
    rw [← Option.some.inj hremoved] at hscaled hfscaled ⊢
    refine outcome_ntestx h.limexp hgood.pos hgood.int hfits.counter hgood.limit hle ?_ hclda ?_
      hfscaled hscaled
    · cases W.last <;> rfl
    · rw [limconst, low_valExp rfl (by decide), low_cInt, hgood.const hval, Int.zero_add]
  · split at hremoved
    · rw [← Option.some.inj hremoved] at hscaled hfscaled hN ⊢
      refine outcome_ntestx h.limexp hgood.pos hgood.int hfits.counter hgood.limit hle ?_ hclda ?_
        hfscaled hscaled
      · cases W.last with
        | true => rfl
        | false => exact h.nameSize
      · rw [value_nameExp]
        exact hN _ rfl
    · cases hremoved

/-- The states of the loop, whatever its test: what is done beside the increment leaves X, the
counter and the array as they are. -/
inductive Steps (p : Pool) (W : Replaced) (arr : Exp) : Env → Prop
  | enter {env : Env} (hx : env.cont W.red.x 0 = value p env W.red.init) : Steps p W arr env
  | incr {env : Env} (h : Steps p W arr env) (hsum : W.sum.sh.Has (W.counter env + W.inci))
      (harr : value p (W.next p env) arr = value p env arr) : Steps p W arr (W.next p env)
  | other {env env' : Env} (h : Steps p W arr env) (hv : W.counter env' = W.counter env)
      (hx : env'.cont W.red.x 0 = env.cont W.red.x 0)
      (harr : value p env' arr = value p env arr) : Steps p W arr env'

end Replaced

end

/-- The new test has the outcome of the old one in every state of the loop, whatever is in the
counter, when nothing is lost of the scaled values; and every test that is collected has a limit. -/
theorem removed_test_keeps_outcome (p : Pool) (W : Replaced) (lim : Int) (env : Env) :
    (∀ (lab : Nat) (body : Exp), ∀ t ∈ loopTests W.ld lab body, t.args.length = 2 →
      limexp W.ld t ≠ none) ∧
    (∀ (n : Node) (arr idx incr : Exp) (w : Weakened) (base : Int),
      W.Pointer p n arr idx w incr → W.Good base lim →
      (W.le.tag = .valTag → FitsInt (8 * (W.mult * lim))) → W.Run p base lim env →
      ∀ v, outcome p (env.assign W.ld.dec W.ld.no v) W.out.test = outcome p env W.test) ∧
    ∀ (T : Target) (n k : Node) (c incr : Exp) (shvar : Shape),
      W.Scaled p T n k c shvar incr → W.Good 0 lim → W.Run p 0 lim env →
      ∀ v, outcome p (env.assign W.ld.dec W.ld.no v) W.out.test = outcome p env W.test :=
  ⟨fun _ _ _ ht hargs => limexp_of_mem ht hargs,
    fun _ _ _ _ _ _ h hgood hdisp hrun => h.outcome_eq hgood hdisp hrun,
    fun _ _ _ _ _ _ h hgood hrun => h.outcome_eq hgood hrun⟩

/-! ## A loop over words -/

namespace Words

/-- The counter. -/
def ld : Node := ⟨.nameTag, fPointer 32, 0, 0, none, 1⟩

def counter : Exp := meU3 slongsh (.mk ld []) .contTag

/-- The offset of an element of four bytes. -/
def factor : Exp := valExp (fOffset 32 32) 32

def index : Exp := meB3 (fOffset 32 32) counter factor .offsetMultTag

def array : Exp := nameExp (fPointer 32) 3

def sum : Exp := meB3 slongsh counter (valExp slongsh 1) .plusTag

def incr : Exp := meB3 topShape (.mk ld []) sum .assTag

/-- The loop is left when the counter is not below `limit`. -/
def test (limit : Int) : Exp := makeTest .lessThan (some 0) counter (valExp slongsh limit) .testTag

/-- The declaration 2 has the address of the element. -/
def red : Reduction := extractAddptrs 2 (meB3 (fPointer 32) array index .addptrTag) factor 1 false

/-- What `remove_incr` makes of the test. -/
def loop (limit : Int) : Replaced where
  ld := ld
  sum := sum
  inci := 1
  red := red
  nd := 4
  mult := 4
  test := test limit
  le := valExp slongsh limit
  last := true
  out :=
    let ninit := limdec array (valExp slongsh limit) 4
    ⟨some ninit, ntestx (test limit) true (meU3 (fPointer 32) (nameExp (fPointer 32) 2) .contTag)
      (nameExp ninit.sh 4), topOf incr⟩

/-- The array lies at 1000, and the counter is zero. -/
def start (limit : Int) : Env where
  name d _ := if d = 4 then value (startSt false).pool ⟨fun _ _ => 1000, fun _ _ => 0⟩
    (limdec array (valExp slongsh limit) 4) else 1000
  cont d _ := if d = 2 then 1000 else 0

/-- `scale_loopid`, with the declaration 2, and `remove_incr2`. -/
def scaled (limit : Int) : Replaced where
  ld := ld
  sum := sum
  inci := 1
  red := scaleLoopid 2 index slongsh 4 1
  nd := 4
  mult := 4
  test := test limit
  le := valExp slongsh limit
  last := true
  out := ⟨none, ntestx (test limit) true (meU3 slongsh (nameExp (fPointer 32) 2) .contTag)
    (limconst (cInt (4 * limit))), topOf incr⟩

theorem isCont_counter : isCont ld counter = true := by decide

theorem sums : Sums (startSt false).pool ld 1 sum :=
  ⟨_, _, _, rfl, isCont_counter, rfl, intShape32_isInt true, rfl, by decide, rfl, by decide⟩

theorem pointer (limit : Int) : (loop limit).Pointer (startSt false).pool
    ⟨.addptrTag, fPointer 32, 0, 0, none, 0⟩ array index ⟨red, 4, 4⟩ incr where
  tag := rfl
  size := rfl
  arrSize := rfl
  indexes := .mult isCont_counter rfl rfl rfl rfl rfl (show FitsInt (8 * 4) by decide)
  weaken := rfl
  red := rfl
  limexp := rfl
  removed := rfl
  sums := sums
  fresh := Nat.succ_ne_self 1

theorem scaledLoop (limit : Int) : (scaled limit).Scaled (startSt false).pool
    ⟨true, true, fun _ => true, fun _ => true⟩ ⟨.offsetMultTag, fOffset 32 32, 0, 0, none, 0⟩
    ⟨.valTag, fOffset 32 32, 32, 0, none, 0⟩ counter slongsh incr where
  tag := rfl
  hd := rfl
  size := rfl
  cont := isCont_counter
  nameSize := rfl
  nameHd := by decide
  factor := ⟨rfl, rfl, rfl⟩
  red := rfl
  limexp := rfl
  removed := rfl
  sums := sums
  fresh := Nat.succ_ne_self 1

end Words

open Words in
/-- Ten words, after one round. -/
theorem removed_test_ten :
    limexp ld (test 10) ≠ none ∧
      outcome (startSt false).pool (((loop 10).next (startSt false).pool (start 10)).assign 1 0 0)
          (loop 10).out.test =
        outcome (startSt false).pool ((loop 10).next (startSt false).pool (start 10)) (test 10) ∧
      outcome (startSt false).pool
          (((scaled 10).next (startSt false).pool ⟨fun _ _ => 0, fun _ _ => 0⟩).assign 1 0 0)
          (scaled 10).out.test =
        outcome (startSt false).pool
          ((scaled 10).next (startSt false).pool ⟨fun _ _ => 0, fun _ _ => 0⟩) (test 10) := by
  have hrun : (loop 10).Run (startSt false).pool 1000 10 (start 10) :=
    .enter (by decide) (fun e he => by rw [← Option.mem_some.1 he]; decide) (by decide)
      (by decide) ⟨by decide, by decide⟩
  have hrun' : (scaled 10).Run (startSt false).pool 0 10 ⟨fun _ _ => 0, fun _ _ => 0⟩ :=
    .enter (by decide) (fun e he => by cases he) rfl (by decide) ⟨by decide, by decide⟩
  refine ⟨(removed_test_keeps_outcome (startSt false).pool (loop 10) 10 (start 10)).1 0 (test 10)
      (test 10) (by decide) rfl,
    (removed_test_keeps_outcome _ _ _ _).2.1 _ _ _ _ _ _ (pointer 10)
      ⟨by decide, intShape32_isInt true, by decide, by decide, by decide, by decide,
        fun _ => rfl⟩ (fun _ => by decide)
      (.incr hrun (by decide) (by decide) ⟨by decide, by decide⟩) 0,
    (removed_test_keeps_outcome _ _ _ _).2.2 _ _ _ _ _ _ (scaledLoop 10)
      ⟨by decide, intShape32_isInt true, by decide, by decide, by decide, by decide,
        fun _ => rfl⟩ (.incr hrun' (by decide) (by decide) ⟨by decide, by decide⟩) 0⟩

open Words in
/-- The displacement of a limit of 2^28 words, in bits, is 0 modulo 2^32. -/
theorem not_removed_test_keeps_outcome :
    ¬∀ (p : Pool) (W : Replaced) (n : Node) (arr idx incr : Exp) (w : Weakened) (base lim : Int)
      (env : Env), W.Pointer p n arr idx w incr → W.Run p base lim env →
      ∀ v, outcome p (env.assign W.ld.dec W.ld.no v) W.out.test = outcome p env W.test := by
  intro h
  have hrun : (loop (2 ^ 28)).Run (startSt false).pool 1000 (2 ^ 28) (start (2 ^ 28)) :=
    .enter (by decide) (fun e he => by rw [← Option.mem_some.1 he]; decide) (by decide)
      (by decide) ⟨by decide, by decide⟩
  exact absurd (h _ _ _ _ _ _ _ _ _ _ (pointer (2 ^ 28)) hrun 0) (by decide)

end Tendra.Ref.Foralls
