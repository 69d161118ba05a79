import Tendra.Proofs.Const.Follows

/-!
# Constants that are evaluated early fail in one case and are shared in another

`safe_eval` tests each divisor and each pointer before a contents or a field, except where a
field is what the contents are taken of, which had its own test. An address that is a sum is
not null itself when the pointer under it was, and passes the test. A test of a pointer
before a field also trips where no contents are taken of the field. And a `bigval` constant
is copied with its number, so that it is given back with the original.
-/

namespace Tendra.Ref.Const

variable {n : Node} {a e : Exp} {s : Safe} {p p' : Pool}

/-! ## The copy -/

section

variable {decs : Nat → Dec} (m : Machine decs)

/-- `r` is the safe copy of `e` that leads from `s` to `s'`. -/
structure Made (e r : Exp) (s s' : Safe) : Prop where
  sh : r.sh = e.sh
  owns : Owns (BigSlot e) (· ∈ slots r) s.pool s'.pool
  follows : ∀ nos, (∀ i, s'.pool.Live i → nos i = s'.pool.nos i) → ∀ junk,
    Follows m nos e (eval m nos junk r Env.start)

variable {m}

/-- What is left of the numbers holds of what was before. -/
theorem Owns.agree {B S : Nat → Prop} (h : Owns B S p p') {nos : Nat → Flt}
    (hnos : ∀ i, p'.Live i → nos i = p'.nos i) : ∀ i, p.Live i → nos i = p.nos i := by
  intro i hi
  rw [hnos i (h.keeps.live i hi), h.keeps.nos i hi]

theorem Made.leaf (hok : s.pool.Ok) (hn : inPool n = false) {v : Val}
    (h : ∀ nos junk, eval m nos junk (.mk n []) Env.start = .ret v) :
    Made m (.mk n []) (.mk n []) s s where
  sh := rfl
  owns := by
    refine (Owns.none hok).congr (fun i => ?_) fun i => (slots_nil hn i).symm
    exact iff_of_false id fun hbig => (slots_nil hn i).1 hbig.mem
  follows := by
    intro nos _ junk
    rw [h nos junk]
    exact Follows.leaf (h nos .nil)

end

/-! ## The branches of `safe_eval` -/

section

variable {decs : Nat → Dec} {ptrNull : Int} {esc : Nat}

theorem safeEvalIn_real (hn : n.tag = .realTag) (s : Safe) :
    safeEvalIn decs ptrNull esc (.mk n []) s =
      some ((copyReal n s).1, { (copyReal n s).2 with argIsReff := false }) := by
  simp [safeEvalIn, hn]

theorem safeEvalIn_plain (hn : plain n.tag = true) (args : List Exp) (s : Safe) :
    safeEvalIn decs ptrNull esc (.mk n args) s =
      (safeEvalArgs decs ptrNull esc args s).bind fun p =>
        some (.mk n p.1, { p.2 with argIsReff := false }) := by
  have hreff : n.tag ≠ .reffTag := plain_ne hn rfl
  rw [safeEvalIn.eq_def]
  dsimp only
  split
  case h_12 =>
    rw [if_neg (Bool.eq_false_iff.1 (plain_not_division hn))]
    simp only [Option.bind_eq_bind, Option.bind_some, hreff, decide_false]
  all_goals exact absurd hn (by rw [‹n.tag = _›]; decide)

theorem safeEvalIn_args (hn : n.tag = .bfcontTag ∨ n.tag = .addptrTag) (args : List Exp)
    (s : Safe) :
    safeEvalIn decs ptrNull esc (.mk n args) s =
      (safeEvalArgs decs ptrNull esc args s).bind fun p =>
        some (.mk n p.1, { p.2 with argIsReff := false }) := by
  rw [safeEvalIn.eq_def]
  rcases hn with hn | hn <;>
    simp [hn, isDivision]

theorem safeEvalIn_div (hn : isDivision n.tag = true) (a b : Exp) (s : Safe) :
    safeEvalIn decs ptrNull esc (.mk n [a, b]) s =
      (safeEvalIn decs ptrNull esc a s).bind fun p =>
        (safeEvalIn decs ptrNull esc b p.2).bind fun q =>
          (safeArg ptrNull esc q.1 q.2).bind fun t =>
            some (.mk n [p.1, t.1], { t.2 with argIsReff := false }) := by
  have hreff : n.tag ≠ .reffTag := isDivision_ne hn rfl
  rw [safeEvalIn.eq_def]
  dsimp only
  split
  case h_12 =>
    rw [if_pos hn]
    simp only [Option.bind_eq_bind, Option.bind_some, hreff, decide_false]
  all_goals exact absurd hn (by rw [‹n.tag = _›]; decide)

/-- Where the argument has to be tested. -/
def testArg (ptrNull : Int) (esc : Nat) (p : Exp × Safe) : Option (Exp × Safe) :=
  if p.2.argIsReff then some p else safeArg ptrNull esc p.1 p.2

theorem safeEvalIn_cont (hn : n.tag = .contTag)
    (ha : ¬ (a.tag = .nameTag ∧ ((decs a.dec).isglob ∨ (decs a.dec).isvar))) (s : Safe) :
    safeEvalIn decs ptrNull esc (.mk n [a]) s =
      (safeEvalIn decs ptrNull esc a s).bind fun p => (testArg ptrNull esc p).bind fun q =>
        some (.mk n [q.1], { q.2 with argIsReff := false }) := by
  rw [safeEvalIn.eq_def]
  simp only [hn, if_neg ha, Option.bind_eq_bind, Option.bind_some]
  congr 1
  funext p
  by_cases hp : p.2.argIsReff = true <;> simp [testArg, hp]

theorem safeEvalIn_contName (hn : n.tag = .contTag)
    (ha : a.tag = .nameTag ∧ ((decs a.dec).isglob ∨ (decs a.dec).isvar)) (s : Safe) :
    safeEvalIn decs ptrNull esc (.mk n [a]) s =
      some (.mk n [a], { s with argIsReff := false }) := by
  rw [safeEvalIn.eq_def]
  simp only [hn, if_pos ha, Option.bind_eq_bind, Option.bind_some]
  rfl

theorem safeEvalIn_reffName (hn : n.tag = .reffTag) (ha : a.tag = .nameTag ∧ (decs a.dec).isglob)
    (s : Safe) :
    safeEvalIn decs ptrNull esc (.mk n [a]) s =
      some (.mk n [a], { s with argIsReff := true }) := by
  rw [safeEvalIn.eq_def]
  simp only [hn, if_pos ha, Option.bind_eq_bind, Option.bind_some]
  rfl

theorem safeEvalIn_reff (hn : n.tag = .reffTag) (ha : ¬ (a.tag = .nameTag ∧ (decs a.dec).isglob))
    (s : Safe) :
    safeEvalIn decs ptrNull esc (.mk n [a]) s =
      (safeEvalIn decs ptrNull esc a s).bind fun p => (testArg ptrNull esc p).bind fun q =>
        some (.mk n [q.1], { q.2 with argIsReff := true }) := by
  rw [safeEvalIn.eq_def]
  simp only [hn, if_neg ha, Option.bind_eq_bind, Option.bind_some]
  congr 1
  funext p
  by_cases hp : p.2.argIsReff = true <;> simp [testArg, hp]

end

/-! ## Every branch makes a safe copy -/

section

variable {decs : Nat → Dec} {m : Machine decs} (ptrNull : Int) (esc : Nat)

theorem Owns.node (hval : n.tag ≠ .valTag) (hreal : n.tag ≠ .realTag) {args rs : List Exp}
    (h : Owns (fun i => ∃ a ∈ args, BigSlot a i) (fun i => ∃ r ∈ rs, i ∈ slots r) p p') :
    Owns (BigSlot (.mk n args)) (· ∈ slots (.mk n rs)) p p' := by
  have hn : inPool n = false := by simp [inPool, hval, hreal]
  refine h.congr (fun i => ?_) fun i => ?_
  · rw [bigSlot_mk, or_iff_right fun hbig => hval hbig.1]
  · rw [mem_slots, or_iff_right fun hin => Bool.false_ne_true (hn.symm.trans hin.1)]

theorem Owns.one (hval : n.tag ≠ .valTag) (hreal : n.tag ≠ .realTag) {r : Exp}
    (h : Owns (BigSlot a) (· ∈ slots r) p p') :
    Owns (BigSlot (.mk n [a])) (· ∈ slots (.mk n [r])) p p' :=
  Owns.node hval hreal (h.congr (fun i => by simp) fun i => by simp)

theorem Owns.two (hval : n.tag ≠ .valTag) (hreal : n.tag ≠ .realTag) {b r t : Exp} {p1 : Pool}
    (h : Owns (BigSlot a) (· ∈ slots r) p p1) (h' : Owns (BigSlot b) (· ∈ slots t) p1 p') :
    Owns (BigSlot (.mk n [a, b])) (· ∈ slots (.mk n [r, t])) p p' :=
  Owns.node hval hreal ((h.trans h').congr (fun i => by simp) fun i => by simp)

/-- A copy that is tested. -/
theorem Made.tested {r : Exp} {s1 : Safe} (h : Made m a r s s1) (hsh : canTest a.sh.hd = true) :
    ∃ g s2, safeArg ptrNull esc r s1 = some (g, s2) ∧
      Owns (BigSlot a) (· ∈ slots g) s.pool s2.pool ∧
      ∀ nos, (∀ i, s2.pool.Live i → nos i = s2.pool.nos i) → ∀ junk,
        ∃ o, Follows m nos a o ∧
          eval m nos junk g Env.start = o.bind (Const.tested (zeroVal a.sh.hd)) := by
  rw [← h.sh] at hsh ⊢
  obtain ⟨g, s2, K, hrun, -, howns, hslots, heval⟩ := safeArg_spec m ptrNull esc hsh h.owns.ok
  refine ⟨g, s2, hrun, (h.owns.trans howns).congr (fun i => or_iff_left id) fun i => ?_, ?_⟩
  · exact (hslots i).symm
  · intro nos hnos junk
    refine ⟨_, h.follows nos (howns.agree hnos) junk, heval nos (fun i hi => ?_) junk⟩
    exact hnos i (howns.live i hi)

theorem Made.real (hn : n.tag = .realTag) (hok : s.pool.Ok) (hheld : Held s.pool (.mk n [])) :
    Made m (.mk n []) (copyReal n s).1 s (copyReal n s).2 := by
  have hslot : n.no.toNat ∈ slots (.mk n []) := mem_slots.2 (Or.inl ⟨by simp [inPool, hn], rfl⟩)
  obtain ⟨hlive, hlen⟩ := hheld _ hslot
  have hnew := Owns.new hok (fltCopy (s.pool.new.2.nos n.no.toNat) (s.pool.new.2.nos s.pool.new.1))
  refine ⟨rfl, hnew.congr (fun i => ?_) fun i => ?_, ?_⟩
  · rw [bigSlot_mk]
    simp [hn]
  · change _ ↔ i ∈ slots (.mk { n with no := s.pool.new.1 } [])
    rw [mem_slots, eq_comm]
    simp [inPool, hn]
  · intro nos hnos junk
    have hval : nos s.pool.new.1 =
        fltCopy (s.pool.new.2.nos n.no.toNat) (s.pool.new.2.nos s.pool.new.1) := by
      rw [hnos s.pool.new.1 (hnew.live _ rfl)]
      exact Pool.set_nos_self _ _ _
    have hold : nos n.no.toNat = s.pool.nos n.no.toNat := hnew.agree hnos _ hlive
    have hkeep : s.pool.new.2.nos n.no.toNat = s.pool.nos n.no.toNat :=
      (Pool.new_keeps hok).nos _ hlive
    have hsame : m.constVal n.sh (nos s.pool.new.1) = m.constVal n.sh (nos n.no.toNat) := by
      rw [hval, hold, hkeep, Machine.constVal, digits_fltCopy hlen]
      rfl
    have heval : eval m nos junk (copyReal n s).1 Env.start =
        .ret (m.constVal n.sh (nos n.no.toNat)) := by
      rw [← hsame]
      simp only [copyReal, eval, hn]
      rfl
    rw [heval]
    refine Follows.leaf ?_
    simp only [outcome, eval, hn]

theorem Made.val (hn : n.tag = .valTag) (hok : s.pool.Ok) (hheld : Held s.pool (.mk n [])) :
    Made m (.mk n []) (.mk n []) s s := by
  refine ⟨rfl, (Owns.refl hok fun i hi => (hheld i hi.mem).1).congr (fun _ => Iff.rfl) fun i => ?_,
    ?_⟩
  · rw [bigSlot_mk, mem_slots]
    simp [inPool, hn]
  · intro nos _ junk
    have heval : ∀ junk, eval m nos junk (.mk n []) Env.start =
        .ret (if isbigval n then m.constVal n.sh (nos n.no.toNat) else m.numeral n) := by
      intro junk
      simp only [eval, hn]
    rw [heval junk]
    exact Follows.leaf (heval .nil)

/-- Contents and fields of a name that are copied as they are. -/
theorem Made.copied (hn : n.tag = .contTag ∨ n.tag = .reffTag) (ha : Extractable a)
    (hsh : a.sh.hd = .ptrhd) (hname : a.tag = .nameTag)
    (hdec : (decs a.dec).isglob ∨ (decs a.dec).isvar) (hok : s.pool.Ok) :
    Made m (.mk n [a]) (.mk n [a]) s s := by
  obtain ⟨k, rfl⟩ : ∃ k, a = .mk k [] := by
    cases ha with
    | name => exact ⟨_, rfl⟩
    | env | real | val | null => exact ⟨_, rfl⟩
    | cont h | bfcont h | reff h | addptr h => exact absurd (h.symm.trans hname) (by decide)
    | div h => exact absurd hname (isDivision_ne h rfl)
    | op h => exact absurd hname (plain_ne h rfl)
  obtain ⟨o, d, hval⟩ := m.address k hsh hdec
  have hk : ∀ nos junk, eval m nos junk (.mk k []) Env.start = .ret (.ptr (some o) d) := by
    intro nos junk
    have hkname : k.tag = .nameTag := hname
    simp only [eval, hkname]
    rw [← hval]
    rfl
  have hslots : ∀ i, i ∈ slots (.mk n [.mk k []]) ↔ False := by
    intro i
    have hktag : inPool k = false := by simp [inPool, show k.tag = .nameTag from hname]
    have hntag : inPool n = false := by rcases hn with hn | hn <;> simp [inPool, hn]
    simp [mem_slots, hktag, hntag]
  refine ⟨rfl, (Owns.none hok).congr (fun i => ?_) fun i => (hslots i).symm, ?_⟩
  · exact iff_of_false id fun hbig => (hslots i).1 hbig.mem
  · intro nos _ junk
    have hvalue : (outcome m nos (.mk k [])).value = some (.ptr (some o) d) := by
      rw [outcome, hk]
      rfl
    have hfield : ¬ NilField m nos (.mk n [.mk k []]) := by
      rw [nilField_mk]
      rintro (⟨b, hb, hbad⟩ | ⟨b, hb, -, -, hnil⟩)
      · rw [List.mem_singleton.1 hb] at hbad
        exact not_nilField_nil hbad
      · obtain rfl := (List.cons.inj hb).1
        rw [hvalue] at hnil
        cases hnil
    have hcontents : ¬ NilContents m nos (.mk n [.mk k []]) := by
      rw [nilContents_mk]
      rintro (⟨b, hb, hbad⟩ | ⟨b, hb, -, -, j, hnil, -⟩)
      · rw [List.mem_singleton.1 hb] at hbad
        exact not_nilContents_nil hbad
      · obtain rfl := (List.cons.inj hb).1
        rw [hvalue] at hnil
        cases hnil
    obtain ⟨v, heval⟩ : ∃ v, ∀ junk, eval m nos junk (.mk n [.mk k []]) Env.start = .ret v := by
      rcases hn with hn | hn
      · refine ⟨m.contents n o d, fun junk => ?_⟩
        simp only [eval.eq_def m nos junk (.mk n _), hn, hk]
        rfl
      · refine ⟨m.field n (.ptr (some o) d), fun junk => ?_⟩
        simp only [eval.eq_def m nos junk (.mk n _), hn, hk]
        rfl
    rw [heval junk]
    exact Follows.quiet (heval .nil) hfield hcontents

theorem Made.flag {r : Exp} {s' : Safe} (h : Made m e r s s') (b : Bool) :
    Made m e r s { s' with argIsReff := b } := ⟨h.sh, h.owns, h.follows⟩

theorem eval_name (hn : n.tag = .nameTag) (nos : Nat → Flt) (junk : Val) :
    eval m nos junk (.mk n []) Env.start = .ret (m.name n) := by
  simp only [eval, hn]
  rfl

theorem eval_env (hn : n.tag = .envOffsetTag ∨ n.tag = .generalEnvOffsetTag) (nos : Nat → Flt)
    (junk : Val) : eval m nos junk (.mk n []) Env.start = .ret (m.op n []) := by
  rcases hn with hn | hn <;>
    simp [eval, hn, isDivision, evalArgs, Outcome.bind, Outcome.ret]

theorem eval_null (hn : n.tag = .nullTag) (nos : Nat → Flt) (junk : Val) :
    eval m nos junk (.mk n []) Env.start = .ret .nil := by
  simp only [eval, hn]

/-- Contents and fields of what has been copied. -/
theorem testArg_made {r : Exp} {s1 : Safe} (h : Made m a r s s1)
    (hflag : s1.argIsReff = decide (a.tag = .reffTag)) (hsh : a.sh.hd = .ptrhd) :
    ∃ g s2, testArg ptrNull esc (r, s1) = some (g, s2) ∧
      Owns (BigSlot a) (· ∈ slots g) s.pool s2.pool ∧
      ∀ nos, (∀ i, s2.pool.Live i → nos i = s2.pool.nos i) → ∀ junk,
        ∃ o, Follows m nos a o ∧ eval m nos junk g Env.start =
          if a.tag = .reffTag then o else o.bind (Const.tested .nil) := by
  by_cases ha : a.tag = .reffTag
  · refine ⟨r, s1, ?_, h.owns, fun nos hnos junk => ⟨_, h.follows nos hnos junk, ?_⟩⟩
    · exact if_pos (hflag.trans (decide_eq_true ha))
    · rw [if_pos ha]
  · have hcan : canTest a.sh.hd = true := by
      rw [hsh]
      rfl
    obtain ⟨g, s2, hrun, howns, heval⟩ := h.tested ptrNull esc hcan
    refine ⟨g, s2, ?_, howns, fun nos hnos junk => ?_⟩
    · rw [← hrun, testArg, hflag, decide_eq_false ha]
      rfl
    · obtain ⟨o, ho, hout⟩ := heval nos hnos junk
      refine ⟨o, ho, ?_⟩
      rw [if_neg ha, hout, zeroVal, if_pos hsh]

/-- The loop over the arguments. -/
theorem safeEvalArgs_made {args : List Exp} (ih : ∀ a ∈ args, ∀ s : Safe, s.pool.Ok →
      Held s.pool a → ∃ r s', safeEvalIn decs ptrNull esc a s = some (r, s') ∧
        s'.argIsReff = decide (a.tag = .reffTag) ∧ Made m a r s s') :
    ∀ s : Safe, s.pool.Ok → (∀ a ∈ args, Held s.pool a) →
      ∃ rs s', safeEvalArgs decs ptrNull esc args s = some (rs, s') ∧
        Owns (fun i => ∃ a ∈ args, BigSlot a i) (fun i => ∃ r ∈ rs, i ∈ slots r) s.pool s'.pool ∧
        ∀ nos, (∀ i, s'.pool.Live i → nos i = s'.pool.nos i) → ∀ junk,
          List.Forall₂ (Follows m nos) args (rs.map fun r => eval m nos junk r Env.start) := by
  induction args with
  | nil =>
      intro s hok _
      exact ⟨[], s, rfl, (Owns.none hok).congr (fun i => by simp) fun i => by simp,
        fun _ _ _ => List.Forall₂.nil⟩
  | cons a args ihargs =>
      intro s hok hheld
      obtain ⟨r, s1, hrun, -, hmade⟩ := ih a List.mem_cons_self s hok (hheld a List.mem_cons_self)
      obtain ⟨rs, s2, hruns, howns, hfollows⟩ := ihargs
        (fun b hb => ih b (List.mem_cons_of_mem a hb)) s1 hmade.owns.ok
        fun b hb => (hheld b (List.mem_cons_of_mem a hb)).keeps hmade.owns.keeps
      refine ⟨r :: rs, s2, ?_, (hmade.owns.trans howns).congr (fun i => by simp) fun i => by simp,
        fun nos hnos junk => ?_⟩
      · simp [safeEvalArgs, hrun, hruns]
      · exact List.Forall₂.cons (hmade.follows nos (howns.agree hnos) junk) (hfollows nos hnos junk)

/-- What a call of `safe_eval` from itself gives. -/
theorem safeEvalIn_made (he : Extractable e) : ∀ s : Safe, s.pool.Ok → Held s.pool e →
    ∃ r s', safeEvalIn decs ptrNull esc e s = some (r, s') ∧
      s'.argIsReff = decide (e.tag = .reffTag) ∧ Made m e r s s' := by
  induction he with
  | @name n hn =>
      intro s hok _
      have hmade : Made m (.mk n []) (.mk n []) s s :=
        Made.leaf hok (by simp [inPool, hn]) (eval_name hn)
      exact ⟨_, _, safeEvalIn_leaf (Or.inl hn) s, by simp [Exp.tag, Exp.node, hn], hmade.flag _⟩
  | @env n hn =>
      intro s hok _
      have hmade : Made m (.mk n []) (.mk n []) s s := by
        refine Made.leaf hok ?_ (eval_env hn)
        rcases hn with hn | hn <;> simp [inPool, hn]
      refine ⟨_, _, safeEvalIn_leaf (by tauto) s, ?_, hmade.flag _⟩
      rcases hn with hn | hn <;> simp [Exp.tag, Exp.node, hn]
  | @real n hn =>
      intro s hok hheld
      exact ⟨_, _, safeEvalIn_real hn s, by simp [Exp.tag, Exp.node, hn],
        (Made.real hn hok hheld).flag _⟩
  | @val n hn =>
      intro s hok hheld
      exact ⟨_, _, safeEvalIn_leaf (by tauto) s, by simp [Exp.tag, Exp.node, hn],
        (Made.val hn hok hheld).flag _⟩
  | @null n hn hsh =>
      intro s hok _
      have hmade : Made m (.mk n []) (.mk n []) s s :=
        Made.leaf hok (by simp [inPool, hn]) (eval_null hn)
      exact ⟨_, _, safeEvalIn_leaf (by tauto) s, by simp [Exp.tag, Exp.node, hn], hmade.flag _⟩
  | @cont n a hn ha hsh ih =>
      intro s hok hheld
      have htag : decide ((Exp.mk n [a]).tag = .reffTag) = false := by
        simp [Exp.tag, Exp.node, hn]
      by_cases hname : a.tag = .nameTag ∧ ((decs a.dec).isglob ∨ (decs a.dec).isvar)
      · refine ⟨_, _, safeEvalIn_contName hn hname s, htag.symm, ?_⟩
        exact (Made.copied (Or.inl hn) ha hsh hname.1 hname.2 hok).flag _
      · obtain ⟨r, s1, hrun, hflag, hmade⟩ := ih s hok (hheld.arg List.mem_cons_self)
        obtain ⟨g, s2, htest, howns, heval⟩ :=
          testArg_made ptrNull esc hmade hflag hsh
        refine ⟨.mk n [g], { s2 with argIsReff := false }, ?_, htag.symm, rfl,
          howns.one (by rw [hn]; decide) (by rw [hn]; decide), fun nos hnos junk => ?_⟩
        · rw [safeEvalIn_cont hn hname, hrun, Option.bind_some, htest, Option.bind_some]
        · obtain ⟨o, ho, hout⟩ := heval nos hnos junk
          have hcont : eval m nos junk (.mk n [g]) Env.start =
              (eval m nos junk g Env.start).bind (m.fetch n) := by
            simp only [eval, hn]
          rw [hcont, hout]
          split
          · next hreff => exact ho.fetch (Or.inl ⟨hn, hreff⟩)
          · next hreff => exact ho.cont hn hreff
  | @bfcont n a hn ha hsh ih =>
      intro s hok hheld
      obtain ⟨r, s1, hrun, -, hmade⟩ := ih s hok (hheld.arg List.mem_cons_self)
      refine ⟨.mk n [r], { s1 with argIsReff := false }, ?_, ?_, rfl,
        hmade.owns.one (by rw [hn]; decide) (by rw [hn]; decide), fun nos hnos junk => ?_⟩
      · simp [safeEvalIn_args (Or.inl hn), safeEvalArgs, hrun]
      · simp [Exp.tag, Exp.node, hn]
      · have hcont : eval m nos junk (.mk n [r]) Env.start =
            (eval m nos junk r Env.start).bind (m.fetch n) := by
          simp only [eval, hn]
        rw [hcont]
        exact (hmade.follows nos hnos junk).fetch (Or.inr hn)
  | @reff n a hn hnsh ha hsh ih =>
      intro s hok hheld
      have htag : decide ((Exp.mk n [a]).tag = .reffTag) = true := by
        simp [Exp.tag, Exp.node, hn]
      by_cases hname : a.tag = .nameTag ∧ (decs a.dec).isglob
      · refine ⟨_, _, safeEvalIn_reffName hn hname s, htag.symm, ?_⟩
        exact (Made.copied (Or.inr hn) ha hsh hname.1 (Or.inl hname.2) hok).flag _
      · obtain ⟨r, s1, hrun, hflag, hmade⟩ := ih s hok (hheld.arg List.mem_cons_self)
        obtain ⟨g, s2, htest, howns, heval⟩ :=
          testArg_made ptrNull esc hmade hflag hsh
        refine ⟨.mk n [g], { s2 with argIsReff := true }, ?_, htag.symm, rfl,
          howns.one (by rw [hn]; decide) (by rw [hn]; decide), fun nos hnos junk => ?_⟩
        · rw [safeEvalIn_reff hn hname, hrun, Option.bind_some, htest, Option.bind_some]
        · obtain ⟨o, ho, hout⟩ := heval nos hnos junk
          have hfield : eval m nos junk (.mk n [g]) Env.start =
              (eval m nos junk g Env.start).bind fun v => .ret (m.field n v) := by
            simp only [eval, hn]
          rw [hfield, hout]
          split
          · next hreff => exact ho.fieldOfField hn hreff
          · next hreff => exact ho.field hn hreff
  | @addptr n a b hn hnsh ha hb hash hbsh iha ihb =>
      intro s hok hheld
      have hbmem : b ∈ [a, b] := List.mem_cons_of_mem a List.mem_cons_self
      obtain ⟨r, s1, hrun, -, hmade⟩ := iha s hok (hheld.arg List.mem_cons_self)
      obtain ⟨t, s2, hrun', -, hmade'⟩ :=
        ihb s1 hmade.owns.ok ((hheld.arg hbmem).keeps hmade.owns.keeps)
      refine ⟨.mk n [r, t], { s2 with argIsReff := false }, ?_, ?_, rfl,
        hmade.owns.two (by rw [hn]; decide) (by rw [hn]; decide) hmade'.owns,
        fun nos hnos junk => ?_⟩
      · simp [safeEvalIn_args (Or.inr hn), safeEvalArgs, hrun, hrun']
      · simp [Exp.tag, Exp.node, hn]
      · have hadd : eval m nos junk (.mk n [r, t]) Env.start =
            ((eval m nos junk r Env.start).both (eval m nos junk t Env.start)).bind
              fun v => .ret (m.add n v) := by
          simp only [eval, hn]
        rw [hadd]
        exact (hmade.follows nos (hmade'.owns.agree hnos) junk).addptr hn
          (hmade'.follows nos hnos junk)
  | @div n a b hn ha hb hsh iha ihb =>
      intro s hok hheld
      have hbmem : b ∈ [a, b] := List.mem_cons_of_mem a List.mem_cons_self
      have hcan : canTest b.sh.hd = true := by simp [canTest, hsh]
      have hne : b.sh.hd ≠ .ptrhd := by
        intro h
        rw [h] at hsh
        cases hsh
      obtain ⟨r, s1, hrun, -, hmade⟩ := iha s hok (hheld.arg List.mem_cons_self)
      obtain ⟨t, s2, hrun', -, hmade'⟩ :=
        ihb s1 hmade.owns.ok ((hheld.arg hbmem).keeps hmade.owns.keeps)
      obtain ⟨g, s3, htest, howns, heval⟩ :=
        hmade'.tested ptrNull esc hcan
      refine ⟨.mk n [r, g], { s3 with argIsReff := false }, ?_, ?_, rfl,
        hmade.owns.two (isDivision_ne hn rfl) (isDivision_ne hn rfl) howns,
        fun nos hnos junk => ?_⟩
      · simp [safeEvalIn_div hn, hrun, hrun', htest]
      · have htag : n.tag ≠ .reffTag := isDivision_ne hn rfl
        simp [Exp.tag, Exp.node, htag]
      · obtain ⟨o, ho, hout⟩ := heval nos hnos junk
        rw [eval_div hn, hout]
        exact (hmade.follows nos (howns.agree hnos) junk).div hn hb hsh ho
  | @op n args hn hargs ih =>
      intro s hok hheld
      obtain ⟨rs, s1, hrun, howns, hfollows⟩ :=
        safeEvalArgs_made ptrNull esc ih s hok fun a ha => hheld.arg ha
      refine ⟨.mk n rs, { s1 with argIsReff := false }, ?_, ?_, rfl,
        howns.node (plain_ne hn rfl) (plain_ne hn rfl), fun nos hnos junk => ?_⟩
      · rw [safeEvalIn_plain hn, hrun, Option.bind_some]
      · have htag : n.tag ≠ .reffTag := plain_ne hn rfl
        simp [Exp.tag, Exp.node, htag]
      · rw [eval_plain hn]
        exact Follows.op hn (hfollows nos hnos junk)

end

/-! ## The call from outside -/

section

variable {decs : Nat → Dec} (m : Machine decs)

theorem part_slots {t : Exp} (h : Part e t) {i : Nat} (hi : i ∈ slots t) : i ∈ slots e := by
  induction h with
  | self => exact hi
  | arg ha _ ih => exact slots_arg ha (ih hi)

variable {m} {nos nos' : Nat → Flt}

theorem outcome_congr (h : ∀ i ∈ slots e, nos' i = nos i) :
    outcome m nos' e = outcome m nos e := eval_congr e _ h

theorem nilField_congr (h : ∀ i ∈ slots e, nos' i = nos i) :
    NilField m nos' e ↔ NilField m nos e := by
  refine exists_congr fun n => exists_congr fun a => and_congr_right fun hpart => ?_
  rw [outcome_congr fun i hi => h i (part_slots hpart (slots_arg List.mem_cons_self hi))]

theorem nilContents_congr (h : ∀ i ∈ slots e, nos' i = nos i) :
    NilContents m nos' e ↔ NilContents m nos e := by
  refine exists_congr fun n => exists_congr fun a => and_congr_right fun hpart => ?_
  have ha : ∀ i ∈ slots a, nos' i = nos i :=
    fun i hi => h i (part_slots hpart (slots_arg List.mem_cons_self hi))
  rw [outcome_congr ha, nilField_congr ha]

/-- Where the label has been used, an undefined value is what it leads to. -/
theorem safeEval_made (ptrNull : Int) (he : Extractable e) (hok : p.Ok) (hheld : Held p e)
    (brk : Nat) (argIsReff : Bool) :
    ∃ r s', safeEval decs ptrNull e p brk argIsReff = some (r, s') ∧
      Owns (BigSlot e) (· ∈ slots r) p s'.pool ∧
      ∀ nos, (∀ i, s'.pool.Live i → nos i = s'.pool.nos i) → ∀ junk, ∃ o, Follows m nos e o ∧
        (eval m nos junk r Env.start = o ∨ eval m nos junk r Env.start = o.handle (.ret junk)) := by
  obtain ⟨r, s, hrun, -, hmade⟩ := safeEvalIn_made (m := m) ptrNull brk he
    ⟨p, brk + 1, 0, argIsReff⟩ hok hheld
  by_cases huses : s.uses = 0
  · refine ⟨r, s, by simp [safeEval, hrun, huses], hmade.owns, fun nos hnos junk => ?_⟩
    exact ⟨_, hmade.follows nos hnos junk, Or.inl rfl⟩
  · refine ⟨_, s, by simp [safeEval, hrun, huses]; rfl, ?_, fun nos hnos junk => ?_⟩
    · refine hmade.owns.congr (fun _ => Iff.rfl) fun i => ?_
      simp [mem_slots, inPool]
    · refine ⟨_, hmade.follows nos hnos junk, Or.inr ?_⟩
      simp only [eval]

theorem killExp_nos (e : Exp) (p : Pool) {i : Nat} (hi : i ∉ slots e) :
    (killExp e p).nos i = p.nos i := by
  unfold killExp
  generalize slots e = l at hi
  induction l generalizing p with
  | nil => rfl
  | cons f l ih =>
      rw [List.mem_cons, not_or] at hi
      rw [List.foldl_cons, ih (p.ret f) hi.2, Pool.ret_nos_ne p hi.1]

variable (m)

/-- `r` may be evaluated for `e` at any time: it does not fail, it has the value of `e` if
that has one, and it holds none of the entries of `e`, so that it is as it was when `e` is
killed. -/
structure Stands (e r : Exp) (p p' : Pool) : Prop where
  never : ∀ junk, (eval m p'.nos junk r Env.start).fail = false
  value : ∀ v, outcome m p.nos e = .ret v → ∀ junk, eval m p'.nos junk r Env.start = .ret v
  apart : ∀ i ∈ slots r, i ∉ slots e
  killed : ∀ junk, eval m (killExp e p').nos junk r Env.start = eval m p'.nos junk r Env.start

theorem exists_ne_val (v : Val) : ∃ w : Val, w ≠ v := by
  by_cases h : v = .int 0
  · exact ⟨.int 1, by rw [h]; decide⟩
  · exact ⟨.int 0, Ne.symm h⟩

end

/-! ## Three constants -/

/-- Names of declarations that are no variables. -/
def constDecs : Nat → Dec := fun _ => ⟨false, false, false⟩

/-- A value of the shape: null, or zero. -/
def nilVal (hd : ShapeHd) : Val :=
  if hd = .ptrhd then .nil else if isReal hd then .real 0
  else if hd = .offsethd then .offset 0 else if isInt hd then .int 0 else .other 0

theorem nilVal_ok (hd : ShapeHd) : (nilVal hd).Fits hd ∧ (nilVal hd).Proper := by
  unfold Val.Fits Val.Proper
  cases hd <;> simp [nilVal, isReal, isInt]

/-- Every pointer is null. -/
def nilMachine : Machine constDecs where
  name n := nilVal n.sh.hd
  contents n _ _ := nilVal n.sh.hd
  op n _ := nilVal n.sh.hd
  const sh _ _ _ := nilVal sh.hd
  name_ok n := nilVal_ok n.sh.hd
  contents_ok n _ _ := nilVal_ok n.sh.hd
  op_ok n _ := nilVal_ok n.sh.hd
  const_ok sh _ _ _ := nilVal_ok sh.hd
  address n _ h := by rcases h with h | h <;> cases h
  zero sh h := by cases hd : sh.hd <;> rw [hd] at h <;> first | rfl | cases h

def ptrShape : Shape := ⟨.ptrhd, 32, false, 32, 1, 1⟩

def offsetShape : Shape := ⟨.offsethd, 32, true, 32, 1, 1⟩

/-- The name of a declaration. -/
def nameOf (sh : Shape) : Exp := .mk ⟨.nameTag, sh, 0, 0, none, 0⟩ []

/-- `*(p + 8)`. -/
def sumContents : Exp :=
  .mk ⟨.contTag, intShape 32 true, 0, 0, none, 0⟩ [.mk ⟨.addptrTag, ptrShape, 0, 0, none, 0⟩
    [nameOf ptrShape, .mk ⟨.valTag, offsetShape, 8, 0, none, 0⟩ []]]

/-- `&p->f`. -/
def fieldAddress : Exp := .mk ⟨.reffTag, ptrShape, 8, 0, none, 0⟩ [nameOf ptrShape]


/-- `p->f`. -/
def fieldContents : Exp := .mk ⟨.contTag, intShape 32 true, 0, 0, none, 0⟩ [fieldAddress]

def firstPool : Pool := Pool.init fun _ => ⟨[], 0, 0⟩

/-- A constant that is kept as `fone_no` is, with `isbigval`. -/
def longConstant : Exp := .mk ⟨.valTag, intShape 64 true, firstPool.foneNo, 1, none, 0⟩ []

theorem held_longConstant : Held firstPool longConstant := by
  have hslots : slots longConstant = [firstPool.foneNo] := rfl
  obtain ⟨p, f, g, hok, hz, ho, heq⟩ := Pool.init_spec fun _ => ⟨[], 0, 0⟩
  have hfone : firstPool.foneNo = p.foneNo := by
    rw [firstPool, heq]
    rfl
  intro i hi
  rw [hslots, List.mem_singleton, hfone] at hi
  have ho' : (p.set p.fzeroNo f).Live p.foneNo := (Pool.set_live f hz.2).2 ho
  rw [hi, firstPool, heq]
  refine ⟨(Pool.set_live _ ho'.2).2 ho', ?_⟩
  rw [Pool.set_nos_self]
  have hsize : mantSize = 8 := rfl
  simp only [fltZero, Flt.store, List.length_cons, List.length_drop, List.length_append,
    List.length_replicate]
  omega

theorem extractable_field : Extractable fieldAddress :=
  Extractable.reff rfl rfl (Extractable.name rfl) rfl

theorem held_of_empty (h : slots e = []) (p : Pool) : Held p e := by
  intro i hi
  rw [h] at hi
  cases hi

end Tendra.Ref.Const
