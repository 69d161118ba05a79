import Mathlib.Algebra.Group.Nat.Defs
import Tendra.Lib.Events
import Tendra.Proofs.Unroll.Body

/-!
# The loop and its unrolled code, round by round

The control variable and what has been executed are all that changes in a run. Before a
test the loop has done one more round and has the control variable one up; the unrolled
code has done four more, after preliminaries for what the first difference of the limit and
the control variable leaves modulo four.
-/

namespace Tendra.Ref.Unroll

variable {V : Type}

/-- What `unroller` has found of a loop. -/
structure Accepted (decs : Nat → Dec) (L : Loop) (namesIndex : Nat) : Prop where
  var : L.var.tag = .nameTag
  isvar : (decs L.control).isvar = true
  inc : ∃ n, L.inc = .mk n [L.var, L.val]
  te : ∃ n arg, L.te = .mk n [arg, L.limit] ∧ isContOf L.control arg = true
  val_tag : L.val.tag = .plusTag
  val_head : L.val.args.head?.any (isContOf L.control) = true
  konst_tag : L.konst.tag = .valTag
  konst_no : L.konst.no = 1
  nt : L.nt = Ntest.greaterThan.code ∨ L.nt = Ntest.greaterThanOrEqual.code
  permitted : permitted decs L.limit = true
  body : formed L.control L.body = true →
    namesIndex = uses L.control L.body ∧ Conts L.control L.body

theorem accepted_of_findLoop {decs : Nat → Dec} {e : Exp} {L : Loop}
    (h : findLoop decs e = some L) :
    L.var.tag = .nameTag ∧ (decs L.control).isvar = true ∧
      (∃ n, L.inc = .mk n [L.var, L.val]) ∧
      (∃ n arg, L.te = .mk n [arg, L.limit] ∧ isContOf L.control arg = true) ∧
      L.val.tag = .plusTag ∧ L.val.args.head?.any (isContOf L.control) = true ∧
      L.konst.tag = .valTag := by
  unfold findLoop at h
  split at h
  · rename_i ass after te
    simp only at h
    split at h
    · rename_i dest val arg lim hass hte
      split at h
      · rename_i hc
        injection h with h
        subst h
        obtain ⟨-, -, -, -, -, -, -, -, hdest, hvar, -, -, hplus, hhead, hkonst, harg, -⟩ := hc
        obtain ⟨n, as⟩ := ass
        obtain ⟨n', ts⟩ := te
        obtain rfl : as = [dest, val] := hass
        obtain rfl : ts = [arg, lim] := hte
        exact ⟨hdest, hvar, ⟨n, rfl⟩, ⟨n', arg, rfl, harg⟩, hplus, hhead, hkonst⟩
      · cases h
    · cases h
  · cases h

theorem accepted_of_unroller {alpha : Bool} {decs : Nat → Dec} {e : Exp} {L : Loop}
    {code : List Instr} (h : unroller alpha decs e = some (L, code)) :
    ∃ k, Accepted decs L k ∧ code = L.unrollTrans k unrollBy := by
  rw [unroller, Option.bind_eq_bind, Option.bind_eq_some_iff] at h
  obtain ⟨L', hfind, h⟩ := h
  simp only at h
  split at h
  · rename_i hc
    injection h with h
    injection h with hL hcode
    subst hL hcode
    obtain ⟨hvar, hisvar, hinc, hte, hval, hhead, hkonst⟩ := accepted_of_findLoop hfind
    obtain ⟨hcount, hdouble, hone, hnt, hlimit⟩ := hc
    refine ⟨_, ⟨hvar, hisvar, hinc, hte, hval, hhead, hkonst, hone, hnt, hlimit, fun hform => ?_⟩,
      rfl⟩
    obtain ⟨-, hnames, -, hconts⟩ := unrollComplex_sees _ _ _ _ _ (by decide) hform hcount hdouble
    exact ⟨by rw [hnames, Nat.zero_add], hconts⟩
  · cases h

/-! ## Values -/

section

variable {c : Nat} {vars : Nat → BitVec 32}

theorem word_of_isContOf {e : Exp} (h : isContOf c e = true) : word vars e = vars c := by
  obtain ⟨n, args⟩ := e
  obtain ⟨htag, ⟨m, as⟩, rfl, huse⟩ := isContOf_iff.1 h
  obtain ⟨hname, hdec⟩ : m.tag = .nameTag ∧ m.dec = c := of_decide_eq_true huse
  simp [word, htag, hname, hdec]

theorem word_meShint (sh : Shape) (i : BitVec 32) : word vars (meShint sh i) = i := by
  simp [meShint, word]

theorem word_meB3 (sh : Shape) (a b : Exp) :
    word vars (meB3 sh a b .plusTag) = word vars a + word vars b ∧
      word vars (meB3 sh a b .minusTag) = word vars a - word vars b ∧
      word vars (meB3 sh a b .andTag) = word vars a &&& word vars b := by
  simp [meB3, word]

theorem word_sh (n : Node) (sh : Shape) (args : List Exp) :
    word vars (.mk { n with sh := sh } args) = word vars (.mk n args) := by
  rw [word.eq_def, word.eq_def]

/-- The variables, with `v` in the place of the control variable. -/
def withControl (c : Nat) (vars : Nat → BitVec 32) (v : BitVec 32) : Nat → BitVec 32 :=
  fun d => if d = c then v else vars d

@[simp] theorem withControl_self (v : BitVec 32) : withControl c vars v c = v := if_pos rfl

theorem withControl_eq : withControl c vars (vars c) = vars := by
  funext d
  rw [withControl]
  split
  · rename_i hd
    rw [hd]
  · rfl

theorem withControl_withControl (v w : BitVec 32) :
    (fun d => if d = c then w else withControl c vars v d) = withControl c vars w := by
  funext d
  simp only [withControl]
  split <;> rfl

end

namespace Accepted

variable {decs : Nat → Dec} {L : Loop} {k : Nat} {vars : Nat → BitVec 32}
  (A : Accepted decs L k)
include A

theorem word_arg {n : Node} {arg : Exp} (h : L.te = .mk n [arg, L.limit]) :
    word vars arg = vars L.control := by
  obtain ⟨n', arg', heq, harg⟩ := A.te
  rw [h] at heq
  injection heq with _ hargs
  injection hargs with harg' _
  rw [harg']
  exact word_of_isContOf harg

/-- The limit does not depend on the control variable. -/
theorem word_limit (hlimit : isContOf L.control L.limit = false) (v : BitVec 32) :
    word (withControl L.control vars v) L.limit = word vars L.limit := by
  have hperm := A.permitted
  generalize L.limit = e at hperm hlimit ⊢
  obtain ⟨n, args⟩ := e
  unfold Unroll.permitted at hperm
  simp only [Bool.or_eq_true] at hperm
  obtain (hname | hval) | hcont := hperm
  · obtain ⟨htag, hvar⟩ := Bool.and_eq_true_iff.1 hname
    have htag' : n.tag = .nameTag := of_decide_eq_true htag
    have hne : n.dec ≠ L.control := by
      intro heq
      rw [show (Exp.mk n args).dec = L.control from heq, A.isvar] at hvar
      cases hvar
    simp [word, htag', withControl, hne]
  · have htag : n.tag = .valTag := of_decide_eq_true hval
    simp [word, htag]
  · obtain _ | ⟨a, _ | ⟨b, rest⟩⟩ := args
    · cases hcont
    · simp only [Bool.and_eq_true_iff, decide_eq_true_eq] at hcont
      obtain ⟨⟨htag, hname⟩, -⟩ := hcont
      obtain ⟨m, as⟩ := a
      have hne : m.dec ≠ L.control := by
        intro heq
        rw [isContOf_iff.2 ⟨htag, _, rfl, decide_eq_true ⟨hname, heq⟩⟩] at hlimit
        cases hlimit
      have hname' : m.tag = .nameTag := hname
      simp [word, htag, hname', withControl, hne]
    · cases hcont

variable (hbin : L.val.args.length = 2)
include hbin

theorem val_eq : ∃ n a, L.val = .mk n [a, L.konst] ∧ n.tag = .plusTag ∧
    isContOf L.control a = true := by
  have htag := A.val_tag
  have hhead := A.val_head
  have hkonst : L.konst = (L.val.args.drop 1).headD L.inc := rfl
  generalize L.val = e at *
  obtain ⟨n, args⟩ := e
  obtain ⟨a, b, rfl⟩ := List.length_eq_two.1 hbin
  exact ⟨n, a, by rw [hkonst]; rfl, htag, hhead⟩

theorem word_val : word vars L.val = vars L.control + 1 := by
  obtain ⟨n, a, hval, htag, ha⟩ := A.val_eq hbin
  have hk : word vars L.konst = 1 := by
    have hkt := A.konst_tag
    have hkn := A.konst_no
    generalize L.konst = e at hkt hkn ⊢
    obtain ⟨m, as⟩ := e
    have htag : m.tag = .valTag := hkt
    have hno : m.no = 1 := hkn
    simp [word, htag, hno]
  rw [hval]
  simp [word, htag, hk, word_of_isContOf ha]

theorem word_newInc (times : Nat) : ∃ n val, L.newInc times = .mk n [L.var, val] ∧
    word vars val = vars L.control + BitVec.ofNat 32 times := by
  obtain ⟨n, a, hval, htag, ha⟩ := A.val_eq hbin
  refine ⟨_, _, rfl, ?_⟩
  rw [hval, A.konst_no]
  change word vars (.mk n [a, _]) = _
  simp [word, htag, word_of_isContOf ha, word_meShint]

end Accepted

/-! ## Steps -/

/-- The value that the control variable has at the end of a loop that counts up to the limit. -/
def lastValue (nt : Nat) (limit : BitVec 32) : BitVec 32 :=
  if nt = Ntest.greaterThan.code then limit + 1 else limit

/-- The test ends the loop. -/
def stops (nt : Nat) (limit v : BitVec 32) : Bool :=
  (Ntest.ofCode nt).any fun t => t.holds v.toInt limit.toInt

/-- The state where the control variable is `v`. -/
def World.now (L : Loop) (vars : Nat → BitVec 32) (v id : BitVec 32) (l : List (BitVec 32 × V)) :
    World V := ⟨withControl L.control vars v, id, l⟩

section

variable {decs : Nat → Dec} {L : Loop} {k : Nat} {vars : Nat → BitVec 32} (M : Meaning V)
  {v id : BitVec 32} {l : List (BitVec 32 × V)}

theorem exec_exec (i : Nat) (e : Exp) :
    (machine M L.control).exec (.exec i e) (.now L vars v id l) =
      some (.now L vars v id (l ++ [(v + BitVec.ofNat 32 i, M.eval L.control v e)]), .step) := by
  simp [machine, step, World.now]

theorem exec_lab (lab : Label) :
    (machine M L.control).exec (.lab lab) (.now L vars v id l) =
      some (.now L vars v id l, .step) := rfl

theorem exec_goto (lab : Label) :
    (machine M L.control).exec (.goto lab) (.now L vars v id l) =
      some (.now L vars v id l, .jump lab) := rfl

theorem exec_first (e : Exp) :
    (machine M L.control).exec (.exec 0 e) (.now L vars v id l) =
      some (.now L vars v id (l ++ [(v, M.eval L.control v e)]), .step) := by
  rw [exec_exec, BitVec.add_zero]

theorem exec_assign {n : Node} {val : Exp} {w : BitVec 32}
    (hval : word (withControl L.control vars v) val = w) :
    (machine M L.control).exec (.assign (.mk n [L.var, val])) (.now L vars v id l) =
      some (.now L vars w id l, .step) := by
  simp only [machine, step, World.now, hval]
  exact congrArg (fun f => some ((⟨f, id, l⟩ : World V), Next.step))
    (withControl_withControl v w)

theorem exec_test {n : Node} {a b : Exp} {nt : Ntest} {x y : BitVec 32} {lab : Label}
    (hnt : Ntest.ofCode (testNumber n) = some nt)
    (ha : word (withControl L.control vars v) a = x)
    (hb : word (withControl L.control vars v) b = y) :
    (machine M L.control).exec (.test (.mk n [a, b]) lab) (.now L vars v id l) =
      some (.now L vars v id l,
        if nt.holds x.toInt y.toInt then .step else .jump lab) := by
  simp only [machine, step, World.now, hnt, ha, hb, Option.map_some]

theorem testNumber_settestNumber (e : Exp) {nt : Nat} (hnt : nt < 32) :
    testNumber (settestNumber e nt).node = nt := by
  change (e.node.props - (e.node.props &&& 0x1f) + nt) &&& 0x1f = nt
  rw [show (0x1f : Nat) = 2 ^ 5 - 1 from rfl, Nat.and_two_pow_sub_one_eq_mod,
    Nat.and_two_pow_sub_one_eq_mod]
  omega

variable {M} (A : Accepted decs L k) (hlimit : isContOf L.control L.limit = false)
include A

theorem Accepted.exec_inc (hbin : L.val.args.length = 2) :
    (machine M L.control).exec (.assign L.inc) (.now L vars v id l) =
      some (.now L vars (v + 1) id l, .step) := by
  obtain ⟨n, hinc⟩ := A.inc
  rw [hinc]
  refine exec_assign M ?_
  rw [A.word_val hbin, withControl_self]

theorem Accepted.exec_newInc (hbin : L.val.args.length = 2) (times : Nat) :
    (machine M L.control).exec (.assign (L.newInc times)) (.now L vars v id l) =
      some (.now L vars (v + BitVec.ofNat 32 times) id l, .step) := by
  obtain ⟨n, val, hinc, hval⟩ := A.word_newInc hbin times
  rw [hinc]
  refine exec_assign M ?_
  rw [hval, withControl_self]

include hlimit

theorem Accepted.exec_te (lab : Label) :
    (machine M L.control).exec (.test L.te lab) (.now L vars v id l) =
      some (.now L vars v id l,
        if stops L.nt (word vars L.limit) v then .step else .jump lab) := by
  obtain ⟨n, arg, hte, -⟩ := A.te
  have hn : testNumber n = L.nt := by
    rw [Loop.nt, hte]
    rfl
  obtain ⟨t, ht⟩ : ∃ t, Ntest.ofCode L.nt = some t := by
    obtain h | h := A.nt <;> rw [h] <;> exact ⟨_, rfl⟩
  rw [hte, exec_test M (by rw [hn, ht]) (A.word_arg hte) (A.word_limit hlimit v), withControl_self,
    stops, ht, Option.any_some]

theorem Accepted.exec_te_of_stops (h : stops L.nt (word vars L.limit) v = true) (lab : Label) :
    (machine M L.control).exec (.test L.te lab) (.now L vars v id l) =
      some (.now L vars v id l, .step) := by
  rw [A.exec_te hlimit, if_pos h]

theorem Accepted.exec_te_of_not (h : ¬ stops L.nt (word vars L.limit) v = true) (lab : Label) :
    (machine M L.control).exec (.test L.te lab) (.now L vars v id l) =
      some (.now L vars v id l, .jump lab) := by
  rw [A.exec_te hlimit, if_neg h]

/-- The test that leads out has the other sense. -/
theorem Accepted.exec_testOut (lab : Label) :
    (machine M L.control).exec (.test (settestNumber L.te (intInverseNtest L.nt)) lab)
        (.now L vars v id l) =
      some (.now L vars v id l,
        if stops L.nt (word vars L.limit) v then .jump lab else .step) := by
  obtain ⟨n, arg, hte, -⟩ := A.te
  have hshape : ∃ n', settestNumber L.te (intInverseNtest L.nt) = .mk n' [arg, L.limit] ∧
      testNumber n' = intInverseNtest L.nt := by
    refine ⟨_, ?_, testNumber_settestNumber L.te ?_⟩
    · rw [settestNumber, Exp.node, hte]
      rfl
    · obtain h | h := A.nt <;> rw [h] <;> decide
  obtain ⟨n', heq, hn'⟩ := hshape
  have hstep : ∀ t t' : Ntest, Ntest.ofCode L.nt = some t →
      Ntest.ofCode (intInverseNtest L.nt) = some t' → (∀ x y, t'.holds x y = !t.holds x y) →
      (machine M L.control).exec (.test (settestNumber L.te (intInverseNtest L.nt)) lab)
        (.now L vars v id l) = some (.now L vars v id l,
          if stops L.nt (word vars L.limit) v then .jump lab else .step) := by
    intro t t' ht ht' hinv
    rw [heq, exec_test M (by rw [hn', ht']) (A.word_arg hte) (A.word_limit hlimit v),
      withControl_self, hinv, stops, ht, Option.any_some]
    cases t.holds v.toInt (word vars L.limit).toInt <;> rfl
  obtain h | h := A.nt
  · refine hstep .greaterThan .lessThanOrEqual (by rw [h]; rfl) (by rw [h]; rfl) fun x y => ?_
    change decide (x ≤ y) = !decide (y < x)
    rw [← decide_not]
    exact decide_eq_decide.2 Int.not_lt.symm
  · refine hstep .greaterThanOrEqual .lessThan (by rw [h]; rfl) (by rw [h]; rfl) fun x y => ?_
    change decide (x < y) = !decide (y ≤ x)
    rw [← decide_not]
    exact decide_eq_decide.2 Int.not_le.symm

omit hlimit in
/-- The copies are the body, for values further on. -/
theorem Accepted.eval_incOffset (hform : formed L.control L.body = true) (i : Nat) :
    M.eval L.control v (L.incOffset k i) = M.eval L.control (v + BitVec.ofNat 32 i) L.body := by
  obtain ⟨hk, hconts⟩ := A.body hform
  rw [Loop.incOffset]
  split
  · refine eval_replaceUses M rfl ?_ L.body hform hconts
    have hcont : M.eval L.control v (meU3 L.konst.sh L.var .contTag) = M.int v := by
      rw [meU3, Meaning.eval, if_pos]
      exact isContOf_iff.2 ⟨rfl, L.var, rfl, decide_eq_true ⟨A.var, rfl⟩⟩
    have hint : M.eval L.control v (meShint L.konst.sh (BitVec.ofInt 32 (i * L.konst.no))) =
        M.int (BitVec.ofNat 32 i) := by
      rw [A.konst_no, Int.mul_one, BitVec.ofInt_natCast, meShint, Meaning.eval,
        if_neg (by simp [isContOf]), Meaning.evalList]
      exact M.val_eq ..
    rw [meB3, Meaning.eval, if_neg (by simp [isContOf]), Meaning.evalList, Meaning.evalList,
      Meaning.evalList, hcont, hint]
    exact M.plus_eq ..
  · rename_i hzero
    exact eval_of_uses M _ _ L.body (by omega)

theorem Accepted.word_remainder :
    word (withControl L.control vars v) (L.remainder unrollBy) =
      (lastValue L.nt (word vars L.limit) - v) &&& 3 := by
  have hlim : word (withControl L.control vars v)
      (.mk { L.limit.node with sh := L.konst.sh } L.limit.args) = word vars L.limit := by
    rw [← A.word_limit hlimit v]
    generalize L.limit = e
    obtain ⟨n, args⟩ := e
    exact word_sh n _ args
  have hcont : word (withControl L.control vars v) (meU3 L.konst.sh L.var .contTag) = v := by
    have hvar : isContOf L.control (meU3 L.konst.sh L.var .contTag) = true :=
      isContOf_iff.2 ⟨rfl, L.var, rfl, decide_eq_true ⟨A.var, rfl⟩⟩
    rw [word_of_isContOf hvar, withControl_self]
  rw [Loop.remainder, lastValue]
  simp only
  split
  · rw [(word_meB3 ..).2.2, (word_meB3 ..).1, (word_meB3 ..).2.1, hlim, hcont, word_meShint,
      word_meShint, BitVec.sub_add_comm]
    rfl
  · rw [(word_meB3 ..).2.2, (word_meB3 ..).2.1, hlim, hcont, word_meShint]
    rfl

end

theorem machine_adds {V : Type} (M : Meaning V) (control : Nat) :
    (machine M control).Adds World.seen := by
  intro i s t n h
  change step M control i s = some (t, n) at h
  unfold step at h
  split at h
  · injection h with h
    injection h with h
    exact .inl (h ▸ rfl)
  · injection h with h
    injection h with h
    exact .inl (h ▸ rfl)
  · injection h with h
    injection h with h
    subst h
    exact .inr ⟨_, rfl⟩
  · injection h with h
    injection h with h
    exact .inl (h ▸ rfl)
  · cases h
  · obtain ⟨nt, -, heq⟩ := Option.map_eq_some_iff.1 h
    injection heq with h
    exact .inl (h ▸ rfl)
  · cases h
  · injection h with h
    injection h with h
    exact .inl (h ▸ rfl)
  · injection h with h
    injection h with h
    exact .inl (h ▸ rfl)

/-! ## The loop -/

section

variable (M : Meaning V) (L : Loop)

/-- What a round of the loop does. -/
def Loop.round (v : BitVec 32) : List (BitVec 32 × V) :=
  (v, M.eval L.control v L.body) :: L.others.map (fun e => (v, M.eval L.control v e)) ++
    L.after.map fun e => (v + 1, M.eval L.control (v + 1) e)

/-- The code of a round. -/
def Loop.again : List Instr :=
  .exec 0 L.body :: (L.others.map (.exec 0) ++
    (.assign L.inc :: (L.after.map (.exec 0) ++ [.test L.te .labst])))

omit M in
theorem Loop.program_eq : L.program = .lab .labst :: L.again := by
  simp [program, again]

/-- What `k` rounds of the loop do. -/
def Loop.rounds (v : BitVec 32) (k : Nat) : List (BitVec 32 × V) :=
  (List.range k).flatMap fun i => L.round M (v + BitVec.ofNat 32 i)

/-- The body alone, for `k` values. -/
def Loop.bodies (v : BitVec 32) (k : Nat) : List (BitVec 32 × V) :=
  (List.range k).map fun i =>
    (v + BitVec.ofNat 32 i, M.eval L.control (v + BitVec.ofNat 32 i) L.body)

theorem Loop.rounds_succ (v : BitVec 32) (k : Nat) :
    L.rounds M v (k + 1) = L.rounds M v k ++ L.round M (v + BitVec.ofNat 32 k) := by
  simp [rounds, List.range_succ]

theorem Loop.bodies_succ (v : BitVec 32) (k : Nat) :
    L.bodies M v (k + 1) = L.bodies M v k ++
      [(v + BitVec.ofNat 32 k, M.eval L.control (v + BitVec.ofNat 32 k) L.body)] := by
  simp [bodies, List.range_succ]

theorem Loop.length_bodies (v : BitVec 32) (k : Nat) : (L.bodies M v k).length = k := by
  simp [bodies]

end

theorem add_ofNat_succ (v : BitVec 32) (k : Nat) :
    v + BitVec.ofNat 32 k + 1 = v + BitVec.ofNat 32 (k + 1) := by
  rw [BitVec.add_assoc, BitVec.ofNat_add]
  rfl

section

variable {decs : Nat → Dec} {L : Loop} {k : Nat} {vars : Nat → BitVec 32} {M : Meaning V}
  {v id : BitVec 32} {l : List (BitVec 32 × V)}

/-- A list of statements is executed one after the other. -/
theorem reaches_execs (prog c : List Instr) (es : List Exp) :
    (machine M L.control).Reaches prog (.inside (es.map (.exec 0) ++ c), .now L vars v id l)
      (.inside c, .now L vars v id (l ++ es.map fun e => (v, M.eval L.control v e))) := by
  induction es generalizing l with
  | nil =>
      rw [List.map_nil, List.map_nil, List.append_nil]
      exact .refl _
  | cons e es ih =>
      rw [List.map_cons, List.map_cons, List.append_cons l, List.cons_append]
      exact (Machine.reaches_step (exec_first M e) _).trans ih

variable (A : Accepted decs L k) (hbin : L.val.args.length = 2)
  (hlimit : isContOf L.control L.limit = false)
include A hbin

/-- One round of the loop, from its label up to the test. -/
theorem Accepted.reaches_round :
    (machine M L.control).Reaches L.program (.inside L.again, .now L vars v id l)
      (.inside [.test L.te .labst], .now L vars (v + 1) id (l ++ L.round M v)) := by
  refine (Machine.reaches_step (exec_first M L.body) _).trans ?_
  refine (reaches_execs L.program _ L.others).trans ?_
  refine (Machine.reaches_step (A.exec_inc hbin) _).trans ?_
  have hround : l ++ L.round M v =
      l ++ [(v, M.eval L.control v L.body)] ++ L.others.map (fun e => (v, M.eval L.control v e)) ++
        L.after.map fun e => (v + 1, M.eval L.control (v + 1) e) := by
    simp [Loop.round]
  rw [hround]
  exact reaches_execs L.program [.test L.te .labst] L.after

/-- The round `n` of the loop. -/
theorem Accepted.reaches_rounds (n : Nat) :
    (machine M L.control).Reaches L.program
      (.inside L.again, .now L vars (v + BitVec.ofNat 32 n) id (L.rounds M v n))
      (.inside [.test L.te .labst],
        .now L vars (v + BitVec.ofNat 32 (n + 1)) id (L.rounds M v (n + 1))) := by
  rw [L.rounds_succ, ← add_ofNat_succ]
  exact A.reaches_round hbin

include hlimit

variable (M vars) in
/-- The loop goes in rounds: it leaves after the first of them after which the test holds. -/
theorem Accepted.program_rounds (v id : BitVec 32) :
    (machine M L.control).Rounds World.seen (fun s => s.vars L.control) L.program
      (.now L vars v id [])
      (fun n a => a = (.inside [.test L.te .labst],
        .now L vars (v + BitVec.ofNat 32 (n + 1)) id (L.rounds M v (n + 1))))
      (fun n => L.rounds M v (n + 1))
      (fun n => stops L.nt (word vars L.limit) (v + BitVec.ofNat 32 (n + 1)) = true)
      fun n => v + BitVec.ofNat 32 (n + 1) where
  begins := by
    have hlab : (machine M L.control).Reaches L.program
        (.inside L.program, .now L vars v id []) (.inside L.again, .now L vars v id []) := by
      nth_rewrite 2 [L.program_eq]
      exact Machine.reaches_step (exec_lab M .labst) L.again
    have hround : (machine M L.control).Reaches L.program
        (.inside L.again, .now L vars (v + BitVec.ofNat 32 0) id (L.rounds M v 0)) _ :=
      A.reaches_rounds hbin 0
    rw [BitVec.add_zero] at hround
    exact ⟨_, hlab.trans hround, rfl⟩
  next := by
    rintro n a rfl hn
    have hafter : (machine M L.control).after .labst L.program = some L.again := by
      rw [L.program_eq]
      rfl
    exact ⟨_, (Machine.reaches_jump (A.exec_te_of_not hlimit hn .labst) hafter []).trans
      (A.reaches_rounds hbin (n + 1)), rfl⟩
  ends := by
    rintro n a rfl hn
    exact ⟨_, Machine.reaches_step (A.exec_te_of_stops hlimit hn .labst) [], rfl, rfl,
      withControl_self _⟩
  seen_eq := by
    rintro n a rfl
    rfl
  longer n := by
    rw [L.rounds_succ M v (n + 1), List.length_append, Loop.round]
    exact Nat.lt_add_of_pos_right (by simp)

end

/-! ## The unrolled code -/

section

variable (L : Loop) (k : Nat)

/-- The end of the unrolled loop, from its test on. -/
def Loop.tail : List Instr :=
  [.test L.te .lrep, .goto (.branch (unrollBy + 1)), .lab (.branch (unrollBy + 1))]

/-- The unrolled loop. -/
def Loop.main : List Instr :=
  .exec 0 L.body :: .exec 1 (L.incOffset k 1) :: .exec 2 (L.incOffset k 2) ::
    .exec 3 (L.incOffset k 3) :: .assign (L.newInc unrollBy) :: L.tail

/-- What follows the preliminaries. -/
def Loop.exit : List Instr :=
  .test (settestNumber L.te (intInverseNtest L.nt)) (.branch (unrollBy + 1)) ::
    .goto (.branch unrollBy) :: .lab (.branch unrollBy) :: .lab .lrep :: L.main k

/-- The code from a preliminary on, with so many of them still to go through. -/
def Loop.arm : Nat → List Instr
  | 0 => L.exit k
  | j + 1 => .exec 0 L.body :: .assign L.inc :: .goto (.branch (3 - j)) ::
      .lab (.branch (3 - j)) :: Loop.arm j

theorem Loop.unrollTrans_eq : L.unrollTrans k unrollBy =
    .startId (L.remainder unrollBy) :: .testId .notEqual 0 (.branch 4) ::
      .testId .notEqual 1 (.branch 2) :: .testId .notEqual 2 (.branch 1) ::
      .goto (.branch 0) :: .lab (.branch 0) :: L.arm k 3 := rfl

variable (M : Meaning V)

theorem after_arm {j : Nat} (hj : j ≤ 3) :
    (machine M L.control).after (.branch (3 - j)) (L.unrollTrans k unrollBy) =
      some (L.arm k j) := by
  obtain _ | _ | _ | _ | j := j
  · rfl
  · rfl
  · rfl
  · rfl
  · omega

theorem after_main :
    (machine M L.control).after .lrep (L.unrollTrans k unrollBy) = some (L.main k) := rfl

theorem after_end : (machine M L.control).after (.branch (unrollBy + 1))
    (L.unrollTrans k unrollBy) = some [] := rfl

/-- The state when the body has been executed for `n` values from `v` on. -/
def World.done (L : Loop) (M : Meaning V) (vars : Nat → BitVec 32) (v id : BitVec 32) (n : Nat) :
    World V := .now L vars (v + BitVec.ofNat 32 n) id (L.bodies M v n)

variable {L k M} {decs : Nat → Dec} {vars : Nat → BitVec 32} {v id : BitVec 32}
  (A : Accepted decs L k) (hbin : L.val.args.length = 2)
  (hlimit : isContOf L.control L.limit = false)

theorem exec_body (c : List Instr) (prog : List Instr) (n : Nat) :
    (machine M L.control).Reaches prog (.inside (.exec 0 L.body :: c), .done L M vars v id n)
      (.inside c, .now L vars (v + BitVec.ofNat 32 n) id (L.bodies M v (n + 1))) := by
  rw [L.bodies_succ]
  exact Machine.reaches_step (exec_first M L.body) c

include A hbin

/-- The preliminaries. -/
theorem Accepted.reaches_arm {j : Nat} (hj : j ≤ 3) (n : Nat) :
    (machine M L.control).Reaches (L.unrollTrans k unrollBy)
      (.inside (L.arm k j), .done L M vars v id n)
      (.inside (L.exit k), .done L M vars v id (n + j)) := by
  induction j generalizing n with
  | zero => exact .refl _
  | succ j ih =>
      have hj' : j ≤ 3 := Nat.le_of_succ_le hj
      refine (exec_body _ _ n).trans ?_
      refine (Machine.reaches_step (A.exec_inc hbin) _).trans ?_
      refine (Machine.reaches_jump (exec_goto M (.branch (3 - j))) (after_arm L k M hj') _).trans ?_
      rw [add_ofNat_succ, show n + (j + 1) = n + 1 + j by omega]
      exact ih hj' (n + 1)

theorem Accepted.reaches_tail (hform : formed L.control L.body = true) (n : Nat) :
    (machine M L.control).Reaches (L.unrollTrans k unrollBy)
      (.inside (L.main k), .done L M vars v id n)
      (.inside L.tail, .done L M vars v id (n + 4)) := by
  have hcopy : ∀ i l, (machine M L.control).exec (.exec i (L.incOffset k i))
      (.now L vars (v + BitVec.ofNat 32 n) id l) =
      some (.now L vars (v + BitVec.ofNat 32 n) id (l ++ [(v + BitVec.ofNat 32 (n + i),
        M.eval L.control (v + BitVec.ofNat 32 (n + i)) L.body)]), .step) := by
    intro i l
    rw [exec_exec, A.eval_incOffset hform, BitVec.add_assoc, BitVec.ofNat_add]
  refine (exec_body _ _ n).trans ?_
  refine (Machine.reaches_step (hcopy 1 _) _).trans ?_
  refine (Machine.reaches_step (hcopy 2 _) _).trans ?_
  refine (Machine.reaches_step (hcopy 3 _) _).trans ?_
  rw [← L.bodies_succ M v (n + 1), ← L.bodies_succ M v (n + 2), ← L.bodies_succ M v (n + 3)]
  refine (Machine.reaches_step (A.exec_newInc hbin unrollBy) _).trans ?_
  rw [BitVec.add_assoc, ← BitVec.ofNat_add]
  exact .refl _

omit A hbin in
theorem and_three (x : BitVec 32) : ∃ r < 4, x &&& 3 = BitVec.ofNat 32 r := by
  refine ⟨(x &&& 3).toNat, ?_, by simp⟩
  rw [BitVec.toNat_and]
  exact Nat.lt_succ_of_le Nat.and_le_right

include hlimit

omit hbin in
/-- The remainder selects the preliminaries. -/
theorem Accepted.reaches_dispatch {r : Nat} (hr : r < 4)
    (hrem : (lastValue L.nt (word vars L.limit) - v) &&& 3 = BitVec.ofNat 32 r) :
    (machine M L.control).Reaches (L.unrollTrans k unrollBy)
      (.inside (L.unrollTrans k unrollBy), .now L vars v id [])
      (.inside (if r = 0 then .lab .lrep :: L.main k else L.arm k r),
        .done L M vars v (BitVec.ofNat 32 r) 0) := by
  have hstart : (machine M L.control).exec (.startId (L.remainder unrollBy))
      (.now L vars v id []) = some (.now L vars v (BitVec.ofNat 32 r) [], .step) := by
    rw [← hrem, ← A.word_remainder hlimit]
    rfl
  nth_rewrite 2 [L.unrollTrans_eq k]
  refine (Machine.reaches_step hstart _).trans ?_
  rw [World.done, BitVec.add_zero]
  obtain _ | _ | _ | _ | r := r
  · exact Machine.reaches_jump rfl rfl _
  · refine (Machine.reaches_step rfl _).trans ?_
    exact Machine.reaches_jump rfl (after_arm L k M (by decide)) _
  · refine (Machine.reaches_step rfl _).trans ?_
    refine (Machine.reaches_step rfl _).trans ?_
    exact Machine.reaches_jump rfl (after_arm L k M (by decide)) _
  · refine (Machine.reaches_step rfl _).trans ?_
    refine (Machine.reaches_step rfl _).trans ?_
    refine (Machine.reaches_step rfl _).trans ?_
    exact Machine.reaches_jump rfl (after_arm L k M (by decide)) _
  · omega

omit hbin in
theorem Accepted.exec_testOut_of_stops (h : stops L.nt (word vars L.limit) v = true)
    (l : List (BitVec 32 × V)) (lab : Label) :
    (machine M L.control).exec (.test (settestNumber L.te (intInverseNtest L.nt)) lab)
      (.now L vars v id l) = some (.now L vars v id l, .jump lab) := by
  rw [A.exec_testOut hlimit, if_pos h]

omit hbin in
theorem Accepted.exec_testOut_of_not (h : ¬ stops L.nt (word vars L.limit) v = true)
    (l : List (BitVec 32 × V)) (lab : Label) :
    (machine M L.control).exec (.test (settestNumber L.te (intInverseNtest L.nt)) lab)
      (.now L vars v id l) = some (.now L vars v id l, .step) := by
  rw [A.exec_testOut hlimit, if_neg h]

/-- How often the body is executed before the first test. -/
def first (r : Nat) : Nat := if r = 0 then 4 else r

variable (M vars v id) in
/-- The unrolled code goes in rounds: after the preliminaries, if there are any, and after each
four copies of the body. -/
theorem Accepted.unrollTrans_rounds (hform : formed L.control L.body = true) {r : Nat} (hr : r < 4)
    (hrem : (lastValue L.nt (word vars L.limit) - v) &&& 3 = BitVec.ofNat 32 r) :
    (machine M L.control).Rounds World.seen (fun s => s.vars L.control)
      (L.unrollTrans k unrollBy) (.now L vars v id [])
      (fun n a => a = (.inside (if n = 0 ∧ r ≠ 0 then L.exit k else L.tail),
        .done L M vars v (BitVec.ofNat 32 r) (first r + 4 * n)))
      (fun n => L.bodies M v (first r + 4 * n))
      (fun n => stops L.nt (word vars L.limit) (v + BitVec.ofNat 32 (first r + 4 * n)) = true)
      fun n => v + BitVec.ofNat 32 (first r + 4 * n) where
  begins := by
    refine ⟨_, (A.reaches_dispatch hlimit hr hrem).trans ?_, rfl⟩
    by_cases hzero : r = 0
    · rw [if_pos hzero, if_neg fun h => h.2 hzero, first, if_pos hzero]
      exact (Machine.reaches_step (exec_lab M .lrep) _).trans (A.reaches_tail hbin hform 0)
    · rw [if_neg hzero, if_pos ⟨rfl, hzero⟩, first, if_neg hzero]
      rw [show r + 4 * 0 = 0 + r by omega]
      exact A.reaches_arm hbin (Nat.le_of_lt_succ hr) 0
  next := by
    rintro n a rfl hn
    rw [if_neg (show ¬ (n + 1 = 0 ∧ r ≠ 0) from fun h => Nat.succ_ne_zero n h.1),
      show first r + 4 * (n + 1) = first r + 4 * n + 4 by omega]
    refine ⟨_, .trans ?_ (A.reaches_tail hbin hform _), rfl⟩
    split
    · refine (Machine.reaches_step (A.exec_testOut_of_not hlimit hn _ _) _).trans ?_
      refine (Machine.reaches_jump (exec_goto M (.branch unrollBy)) rfl _).trans ?_
      exact Machine.reaches_step (exec_lab M .lrep) _
    · exact Machine.reaches_jump (A.exec_te_of_not hlimit hn .lrep) (after_main L k M) _
  ends := by
    rintro n a rfl hn
    split
    · refine ⟨_, Machine.reaches_jump (A.exec_testOut_of_stops hlimit hn _ _)
        (after_end L k M) _, ?_⟩
      exact ⟨rfl, rfl, withControl_self _⟩
    · refine ⟨_, (Machine.reaches_step (A.exec_te_of_stops hlimit hn .lrep) _).trans
        (Machine.reaches_jump (exec_goto M _) (after_end L k M) _), ?_⟩
      exact ⟨rfl, rfl, withControl_self _⟩
  seen_eq := by
    rintro n a rfl
    rfl
  longer n := by
    rw [L.length_bodies, L.length_bodies]
    omega

end

end Tendra.Ref.Unroll
