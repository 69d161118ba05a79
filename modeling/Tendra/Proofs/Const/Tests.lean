import Tendra.Proofs.Const.Meaning
import Tendra.Proofs.FltExact
import Tendra.Proofs.Pool

/-!
# The entries of a copy, and the test of an argument

A copy of a constant holds entries of `flptnos` that were free before, but for those of
`bigval` constants. What `safe_arg` makes of an expression evaluates it and jumps if it is
null or zero.
-/

namespace Tendra.Ref.Const

variable {p : Pool} {args : List Exp} {B : Nat → Prop} {n : Node} {sh : Shape}

/-! ## Entries -/

theorem mem_slots {i : Nat} : i ∈ slots (.mk n args) ↔
    inPool n = true ∧ n.no.toNat = i ∨ ∃ a ∈ args, i ∈ slots a := by
  have hargs : ∀ args : List Exp, i ∈ slotsArgs args ↔ ∃ a ∈ args, i ∈ slots a := by
    intro args
    induction args with
    | nil => simp [slotsArgs]
    | cons a args ih => simp [slotsArgs, ih]
  rw [slots, List.mem_append, hargs]
  refine or_congr_left ?_
  split
  · next h => simp [h, eq_comm]
  · next h => simp [h]

/-- The entries of the `bigval` constants. -/
def BigSlot (e : Exp) (i : Nat) : Prop :=
  ∃ n args, Part e (.mk n args) ∧ n.tag = .valTag ∧ isbigval n = true ∧ n.no.toNat = i

theorem bigSlot_mk {i : Nat} : BigSlot (.mk n args) i ↔
    (n.tag = .valTag ∧ isbigval n = true ∧ n.no.toNat = i) ∨ ∃ a ∈ args, BigSlot a i := by
  constructor
  · rintro ⟨n', args', hpart, h⟩
    rcases part_mk.1 hpart with heq | ⟨a, ha, hpart⟩
    · obtain ⟨rfl, rfl⟩ := Exp.mk.inj heq
      exact Or.inl h
    · exact Or.inr ⟨a, ha, n', args', hpart, h⟩
  · rintro (h | ⟨a, ha, n', args', hpart, h⟩)
    · exact ⟨n, args, Part.self _, h⟩
    · exact ⟨n', args', Part.arg ha hpart, h⟩

theorem BigSlot.mem {e : Exp} {i : Nat} (h : BigSlot e i) : i ∈ slots e := by
  induction e using exp_induction with
  | h n args ih =>
      rw [mem_slots]
      rcases bigSlot_mk.1 h with ⟨hn, hbig, hi⟩ | ⟨a, ha, h⟩
      · exact Or.inl ⟨by simp [inPool, hn, hbig], hi⟩
      · exact Or.inr ⟨a, ha, ih a ha h⟩

/-- The entries `S` are in use in `p'`, and those that were before are the entries `B`. -/
structure Owns (B S : Nat → Prop) (p p' : Pool) : Prop where
  ok : p'.Ok
  keeps : p.Keeps p'
  live : ∀ i, S i → p'.Live i
  fresh : ∀ i, S i → p.Live i → B i
  big : ∀ i, B i → S i

theorem Owns.refl (hok : p.Ok) (hB : ∀ i, B i → p.Live i) :
    Owns B B p p := ⟨hok, Pool.Keeps.refl p, hB, fun _ h _ => h, fun _ h => h⟩

theorem Owns.trans {B' S S' : Nat → Prop} {p1 p2 : Pool} (h : Owns B S p p1)
    (h' : Owns B' S' p1 p2) :
    Owns (fun i => B i ∨ B' i) (fun i => S i ∨ S' i) p p2 where
  ok := h'.ok
  keeps := h.keeps.trans h'.keeps
  live := by
    rintro i (hi | hi)
    · exact h'.keeps.live i (h.live i hi)
    · exact h'.live i hi
  fresh := by
    rintro i (hi | hi) hp
    · exact Or.inl (h.fresh i hi hp)
    · exact Or.inr (h'.fresh i hi (h.keeps.live i hp))
  big := by
    rintro i (hi | hi)
    · exact Or.inl (h.big i hi)
    · exact Or.inr (h'.big i hi)

theorem Owns.congr {B' S S' : Nat → Prop} {p' : Pool} (h : Owns B S p p') (hB : ∀ i, B i ↔ B' i)
    (hS : ∀ i, S i ↔ S' i) : Owns B' S' p p' := by
  obtain rfl : B = B' := funext fun i => propext (hB i)
  obtain rfl : S = S' := funext fun i => propext (hS i)
  exact h

/-- A new entry that is stored in. -/
theorem Owns.new (hok : p.Ok) (f : Flt) :
    Owns (fun _ => False) (fun i => i = p.new.1) p (p.new.2.set p.new.1 f) where
  ok := ((Pool.new_took hok).set f).ok
  keeps := ((Pool.new_took hok).set f).keeps
  live := by
    rintro i rfl
    exact ((Pool.new_took hok).set f).live
  fresh := by
    rintro i rfl hlive
    exact (Pool.new_took hok).fresh hlive
  big := fun _ h => h.elim

/-- The entries of an expression are in use and are whole arrays. -/
def Held (p : Pool) (e : Exp) : Prop :=
  ∀ i ∈ slots e, p.Live i ∧ mantSize ≤ (p.nos i).mant.length

theorem Held.keeps {p' : Pool} {e : Exp} (h : Held p e) (hkeeps : p.Keeps p') : Held p' e := by
  intro i hi
  obtain ⟨hlive, hlen⟩ := h i hi
  rw [hkeeps.nos i hlive]
  exact ⟨hkeeps.live i hlive, hlen⟩

theorem Held.arg (h : Held p (.mk n args)) {a : Exp} (ha : a ∈ args) :
    Held p a := fun i hi => h i (slots_arg ha hi)

/-! ## The test of an argument -/

theorem digits_fltCopy {f : Flt} (hf : mantSize ≤ f.mant.length) (res : Flt) :
    (fltCopy f res).digits = f.digits :=
  Flt.digits_store res ((List.length_take).trans (min_eq_left hf))

theorem digits_fltZero (f : Flt) : (fltZero f).digits = List.replicate mantSize 0 :=
  Flt.digits_store f List.length_replicate

/-- What is tested goes on if it is not `z`. -/
def tested (z v : Val) : Outcome Val := if v ≠ z then .ret v else .leave

/-- The shapes that `safe_arg` takes. -/
def canTest (hd : ShapeHd) : Bool := decide (hd = .ptrhd) || isNumber hd

section

variable {decs : Nat → Dec} (m : Machine decs)

theorem slots_nil (h : inPool n = false) (i : Nat) : i ∈ slots (.mk n []) ↔ False := by
  rw [mem_slots, h]
  simp

theorem inPool_numeral (sh : Shape) (k : Int) : inPool ⟨.valTag, sh, k, 0, none, 0⟩ = false := by
  simp [inPool, isbigval, ptst]

theorem Owns.none (hok : p.Ok) : Owns (fun _ => False) (fun _ => False) p p :=
  Owns.refl hok fun _ h => h.elim

theorem safeKonst_int (ptrNull : Int) (h : isInt sh.hd = true) (p : Pool) :
    safeKonst ptrNull sh p = some (.mk ⟨.valTag, sh, 0, 0, none, 0⟩ [], p) := by
  unfold safeKonst
  cases hd : sh.hd <;> rw [hd] at h <;> first | rfl | cases h

theorem safeKonst_real (ptrNull : Int) (h : isReal sh.hd = true) (p : Pool) :
    safeKonst ptrNull sh p = some (.mk ⟨.realTag, sh, p.new.1, 0, none, 0⟩ [],
      p.new.2.set p.new.1 (fltZero (p.new.2.nos p.new.1))) := by
  unfold safeKonst
  cases hd : sh.hd <;> rw [hd] at h <;> first | rfl | cases h

theorem isInt_of_canTest {hd : ShapeHd} (h : canTest hd = true) (hptr : hd ≠ .ptrhd)
    (hreal : isReal hd = false) (hoff : hd ≠ .offsethd) : isInt hd = true := by
  simpa [canTest, isNumber, hptr, hreal, hoff] using h

/-- The constant is made, and it is the one that is tested for. -/
theorem safeKonst_spec (ptrNull : Int) (hsh : canTest sh.hd = true) (hok : p.Ok) :
    ∃ konst p', safeKonst ptrNull sh p = some (konst, p') ∧
      Owns (fun _ => False) (· ∈ slots konst) p p' ∧
      ∀ nos, (∀ i ∈ slots konst, nos i = p'.nos i) → ∀ junk env,
        eval m nos junk konst env = .ret (zeroVal sh.hd) := by
  by_cases hptr : sh.hd = .ptrhd
  · refine ⟨.mk ⟨.nullTag, sh, ptrNull, 0, none, 0⟩ [], p, ?_, ?_, ?_⟩
    · rw [safeKonst, hptr]
    · exact (Owns.none hok).congr (fun _ => Iff.rfl) fun i => (slots_nil rfl i).symm
    · intro nos _ junk env
      simp only [eval, zeroVal, if_pos hptr]
  by_cases hreal : isReal sh.hd = true
  · refine ⟨_, _, safeKonst_real ptrNull hreal p, ?_, ?_⟩
    · refine (Owns.new hok _).congr (fun _ => Iff.rfl) fun i => ?_
      rw [mem_slots, eq_comm]
      exact ⟨fun h => Or.inl ⟨rfl, h⟩, fun h => h.elim And.right fun h => by simp at h⟩
    · intro nos hnos junk env
      have hslot := hnos p.new.1 (mem_slots.2 (Or.inl ⟨rfl, rfl⟩))
      rw [Pool.set_nos_self] at hslot
      have hzero : m.constVal sh (nos p.new.1) = zeroVal sh.hd := by
        rw [hslot, Machine.constVal, digits_fltZero, zeroVal, if_neg hptr, if_pos hreal]
        exact m.zero sh hreal
      simp only [eval, Int.toNat_natCast, hzero]
  by_cases hoff : sh.hd = .offsethd
  · refine ⟨.mk ⟨.valTag, { sh with al1 := sh.align, al2 := sh.align }, 0, 0, none, 0⟩ [], p, ?_,
      ?_, ?_⟩
    · rw [safeKonst, hoff]
    · exact (Owns.none hok).congr (fun _ => Iff.rfl) fun i =>
        (slots_nil (inPool_numeral _ _) i).symm
    · intro nos _ junk env
      simp [eval, isbigval, ptst, Machine.numeral, zeroVal, hoff, isInt, isReal]
  · have hint := isInt_of_canTest hsh hptr (Bool.eq_false_of_not_eq_true hreal) hoff
    refine ⟨_, _, safeKonst_int ptrNull hint p, ?_, ?_⟩
    · exact (Owns.none hok).congr (fun _ => Iff.rfl) fun i =>
        (slots_nil (inPool_numeral _ _) i).symm
    · intro nos _ junk env
      simp [eval, isbigval, ptst, Machine.numeral, zeroVal, hptr, hreal, hoff, hint]

/-- The test of an argument: it is evaluated, and then compared. -/
theorem safeArg_spec (ptrNull : Int) (esc : Nat) {r : Exp} (hsh : canTest r.sh.hd = true)
    {s : Safe} (hok : s.pool.Ok) : ∃ g s' K, safeArg ptrNull esc r s = some (g, s') ∧
      g.sh = r.sh ∧ Owns (fun _ => False) K s.pool s'.pool ∧
      (∀ i, i ∈ slots g ↔ i ∈ slots r ∨ K i) ∧
      ∀ nos, (∀ i, K i → nos i = s'.pool.nos i) → ∀ junk,
        eval m nos junk g Env.start =
          (eval m nos junk r Env.start).bind (tested (zeroVal r.sh.hd)) := by
  obtain ⟨konst, p', hkonst, howns, hzero⟩ := safeKonst_spec m ptrNull hsh hok
  refine ⟨safeDecl esc s.brk r konst,
    { s with pool := p', brk := s.brk + 1, uses := s.uses + 1 }, (· ∈ slots konst), ?_, rfl,
    howns, ?_, ?_⟩
  · rw [safeArg, hkonst]
    rfl
  · intro i
    simp [mem_slots, inPool, safeDecl, makeTest]
  · intro nos hnos junk
    simp only [safeDecl, eval, makeTest, hzero nos hnos, Function.update_self, Option.getD_some]
    congr 1
    funext v
    by_cases hv : v = zeroVal r.sh.hd <;>
      simp [tested, testNe, hv, Outcome.both, Outcome.bind, Outcome.ret, Outcome.leave]

end

end Tendra.Ref.Const
