import Tendra.Proofs.Const.Tests

/-!
# What becomes of an operation whose arguments are tested

One lemma for each way in which `safe_eval` treats an operation: where the copies of the
arguments do what they should, so does the operation of the copies.
-/

namespace Tendra.Ref.Const

/-! ## What the copy does -/

section

variable {decs : Nat → Dec} (m : Machine decs) (nos : Nat → Flt)

/-- The outcome `o` of a copy of `e`: its value is that of `e` unless a field of the null
pointer is formed, and it fails where such contents are taken as are not tested. -/
structure Follows (e : Exp) (o : Outcome Val) : Prop where
  sure : o.Sure
  value : ∀ v, o.value = some v ↔ ¬ NilField m nos e ∧ (outcome m nos e).value = some v
  fail : o.fail = true ↔ NilContents m nos e

variable {m nos}
variable {n : Node} {a : Exp} {args : List Exp} {o : Outcome Val} {os : List (Outcome Val)}

theorem not_nilField_nil : ¬ NilField m nos (.mk n []) := by
  rw [nilField_mk]
  simp

theorem not_nilContents_nil : ¬ NilContents m nos (.mk n []) := by
  rw [nilContents_mk]
  simp

theorem Follows.quiet {e : Exp} {v : Val} (h : outcome m nos e = .ret v)
    (hfield : ¬ NilField m nos e) (hcontents : ¬ NilContents m nos e) :
    Follows m nos e (.ret v) where
  sure := Outcome.sure_ret v
  value := fun w => by rw [h, and_iff_right hfield]
  fail := iff_of_false Bool.false_ne_true hcontents

theorem Follows.leaf {v : Val} (h : outcome m nos (.mk n []) = .ret v) :
    Follows m nos (.mk n []) (.ret v) :=
  Follows.quiet h not_nilField_nil not_nilContents_nil

/-- An argument that has been tested. -/
theorem Follows.tested {e : Exp} (h : Follows m nos e o) (z : Val) :
    (o.bind (tested z)).Sure ∧
    (∀ v, (o.bind (Const.tested z)).value = some v ↔
      (¬ NilField m nos e ∧ (outcome m nos e).value = some v) ∧ v ≠ z) ∧
    ((o.bind (Const.tested z)).fail = true ↔ NilContents m nos e) := by
  have hvalue : ∀ v w, (Const.tested z v).value = some w ↔ v = w ∧ v ≠ z := by
    intro v w
    unfold Const.tested
    split
    · next hv => simp [hv]
    · next hv => simp [hv]
  have hfail : ∀ v, (Const.tested z v).fail = false := by
    intro v
    unfold Const.tested
    split <;> rfl
  refine ⟨h.sure.bind fun v => ?_, ?_, ?_⟩
  · unfold Const.tested
    split
    · exact Outcome.sure_ret v
    · exact Outcome.sure_leave
  · intro v
    rw [Outcome.bind_value]
    constructor
    · rintro ⟨w, hw, hv⟩
      obtain ⟨rfl, hne⟩ := (hvalue w v).1 hv
      exact ⟨(h.value w).1 hw, hne⟩
    · rintro ⟨hv, hne⟩
      exact ⟨v, (h.value v).2 hv, (hvalue v v).2 ⟨rfl, hne⟩⟩
  · rw [Outcome.bind_fail, h.fail]
    constructor
    · rintro (hbad | ⟨v, -, hv⟩)
      · exact hbad
      · rw [hfail v] at hv
        cases hv
    · exact Or.inl

theorem nilField_cont (hn : n.tag ≠ .reffTag) : NilField m nos (.mk n [a]) ↔ NilField m nos a := by
  rw [nilField_mk]
  simp [hn]

/-- Contents, of an argument that is tested for `p`. -/
theorem follows_fetch (hn : n.tag = .contTag ∨ n.tag = .bfcontTag) {p : Val → Prop} (hsure : o.Sure)
    (hvalue : ∀ v, o.value = some v ↔
      (¬ NilField m nos a ∧ (outcome m nos a).value = some v) ∧ p v)
    (hfail : o.fail = true ↔ NilContents m nos a)
    (hfetch : ∀ {v w}, (m.fetch n v).value = some w → p v)
    (hnull : ∀ k, p (.ptr none k) ↔ (n.tag = .contTag → a.tag ≠ .reffTag → k ≠ 0)) :
    Follows m nos (.mk n [a]) (o.bind (m.fetch n)) := by
  have hout : outcome m nos (.mk n [a]) = (outcome m nos a).bind (m.fetch n) := by
    rcases hn with hn | hn <;> simp only [outcome, eval, hn]
  have hne : n.tag ≠ .reffTag := by
    rcases hn with hn | hn <;> simp [hn]
  refine ⟨hsure.bind (fetch_sure m n), ?_, ?_⟩
  · intro v
    rw [hout, nilField_cont hne, Outcome.bind_value, Outcome.bind_value]
    constructor
    · rintro ⟨w, hw, hv⟩
      obtain ⟨⟨hquiet, hw⟩, -⟩ := (hvalue w).1 hw
      exact ⟨hquiet, w, hw, hv⟩
    · rintro ⟨hquiet, w, hw, hv⟩
      exact ⟨w, (hvalue w).2 ⟨⟨hquiet, hw⟩, hfetch hv⟩, hv⟩
  · rw [nilContents_mk, Outcome.bind_fail, hfail]
    constructor
    · rintro (hbad | ⟨w, hw, hv⟩)
      · exact Or.inl ⟨a, List.mem_cons_self, hbad⟩
      · obtain ⟨k, rfl⟩ := (fetch_fail m).1 hv
        obtain ⟨⟨hquiet, hw⟩, hp⟩ := (hvalue _).1 hw
        exact Or.inr ⟨a, rfl, hn, hquiet, k, hw, (hnull k).1 hp⟩
    · rintro (⟨b, hb, hbad⟩ | ⟨b, hab, -, hquiet, k, hk, hp⟩)
      · rw [List.mem_singleton.1 hb] at hbad
        exact Or.inl hbad
      · obtain rfl := (List.cons.inj hab).1
        exact Or.inr ⟨.ptr none k, (hvalue _).2 ⟨⟨hquiet, hk⟩, (hnull k).2 hp⟩,
          (fetch_fail m).2 ⟨k, rfl⟩⟩

/-- Contents of something else than a field: what the argument is tested for is null. -/
theorem Follows.cont (hn : n.tag = .contTag) (ha : a.tag ≠ .reffTag) (h : Follows m nos a o) :
    Follows m nos (.mk n [a]) ((o.bind (Const.tested .nil)).bind (m.fetch n)) := by
  obtain ⟨hsure, hvalue, hfail⟩ := h.tested .nil
  exact follows_fetch (.inl hn) hsure hvalue hfail (fun hv => (fetch_value m hv).2 0)
    fun k => ⟨fun hne _ _ hk => hne (by rw [hk]), fun hne hk => hne hn ha (Val.ptr.inj hk).2⟩

/-- Contents that are not tested: of a field, and those of bits. -/
theorem Follows.fetch (hn : n.tag = .contTag ∧ a.tag = .reffTag ∨ n.tag = .bfcontTag)
    (h : Follows m nos a o) : Follows m nos (.mk n [a]) (o.bind (m.fetch n)) := by
  refine follows_fetch (p := fun _ => True) (hn.imp And.left id) h.sure
    (fun v => by rw [h.value, and_true]) h.fail (fun _ => trivial) fun k =>
    iff_of_true trivial fun hcont hreff => ?_
  rcases hn with ⟨-, ha⟩ | hn
  · exact absurd ha hreff
  · rw [hcont] at hn
    cases hn

theorem nilContents_other (hcont : n.tag ≠ .contTag) (hbfcont : n.tag ≠ .bfcontTag) :
    NilContents m nos (.mk n args) ↔ ∃ a ∈ args, NilContents m nos a := by
  rw [nilContents_mk]
  simp [hcont, hbfcont]

theorem nilField_other (hn : n.tag ≠ .reffTag) :
    NilField m nos (.mk n args) ↔ ∃ a ∈ args, NilField m nos a := by
  rw [nilField_mk]
  simp [hn]

theorem outcome_reff (hn : n.tag = .reffTag) (a : Exp) :
    outcome m nos (.mk n [a]) = (outcome m nos a).bind fun v => .ret (m.field n v) := by
  simp only [outcome, eval, hn]

/-- A field of something else than a field: what the argument is tested for is null. -/
theorem Follows.field (hn : n.tag = .reffTag) (ha : a.tag ≠ .reffTag) (h : Follows m nos a o) :
    Follows m nos (.mk n [a])
      ((o.bind (Const.tested .nil)).bind fun v => .ret (m.field n v)) := by
  obtain ⟨hsure, hvalue, hfail⟩ := h.tested .nil
  refine ⟨hsure.bind fun v => Outcome.sure_ret _, ?_, ?_⟩
  · intro v
    have hquiet : NilField m nos (.mk n [a]) ↔
        NilField m nos a ∨ (outcome m nos a).value = some .nil := by
      rw [nilField_mk]
      simp [hn, ha]
    rw [outcome_reff hn, hquiet, Outcome.bind_value, Outcome.bind_value, not_or]
    constructor
    · rintro ⟨w, hw, hv⟩
      obtain ⟨⟨hquiet, hw⟩, hne⟩ := (hvalue w).1 hw
      refine ⟨⟨hquiet, fun hnil => hne ?_⟩, w, hw, hv⟩
      rw [hw] at hnil
      exact Option.some.inj hnil
    · rintro ⟨⟨hquiet, hne⟩, w, hw, hv⟩
      refine ⟨w, (hvalue w).2 ⟨⟨hquiet, hw⟩, fun hnil => hne ?_⟩, hv⟩
      rw [hw, hnil]
  · rw [nilContents_other (by rw [hn]; decide) (by rw [hn]; decide), Outcome.bind_fail, hfail]
    simp

/-- A field of a field. -/
theorem Follows.fieldOfField (hn : n.tag = .reffTag) (ha : a.tag = .reffTag)
    (h : Follows m nos a o) :
    Follows m nos (.mk n [a]) (o.bind fun v => .ret (m.field n v)) := by
  refine ⟨h.sure.bind fun v => Outcome.sure_ret _, ?_, ?_⟩
  · intro v
    have hquiet : NilField m nos (.mk n [a]) ↔ NilField m nos a := by
      rw [nilField_mk]
      simp [ha]
    rw [outcome_reff hn, hquiet, Outcome.bind_value, Outcome.bind_value, ← exists_and_left]
    refine exists_congr fun w => ?_
    rw [h.value w, and_assoc]
  · rw [nilContents_other (by rw [hn]; decide) (by rw [hn]; decide), Outcome.bind_fail, h.fail]
    simp

/-- Two arguments, in any order, and what is made of their values. -/
theorem Follows.addptr {b : Exp} (hn : n.tag = .addptrTag) {p : Outcome Val}
    (ha : Follows m nos a o) (hb : Follows m nos b p) :
    Follows m nos (.mk n [a, b]) ((o.both p).bind fun v => .ret (m.add n v)) := by
  have hout : outcome m nos (.mk n [a, b]) =
      ((outcome m nos a).both (outcome m nos b)).bind fun v => .ret (m.add n v) := by
    simp only [outcome, eval, hn]
  refine ⟨(ha.sure.both hb.sure).bind fun v => Outcome.sure_ret _, ?_, ?_⟩
  · intro v
    rw [hout, nilField_other (by rw [hn]; decide), Outcome.bind_value, Outcome.bind_value,
      ← exists_and_left]
    refine exists_congr fun w => ?_
    obtain ⟨x, y⟩ := w
    rw [Outcome.both_value, Outcome.both_value, ha.value, hb.value]
    simp only [List.mem_cons, List.not_mem_nil, or_false, exists_eq_or_imp, exists_eq_left, not_or]
    tauto
  · rw [nilContents_other (by rw [hn]; decide) (by rw [hn]; decide), Outcome.bind_fail,
      Outcome.both_fail, ha.fail, hb.fail]
    simp

theorem isDivision_ne {t u : Tag} (ht : isDivision t = true) (hu : isDivision u = false) :
    t ≠ u := by
  rintro rfl
  rw [ht] at hu
  cases hu

/-- A division, with the divisor tested. -/
theorem Follows.div {b : Exp} (hn : isDivision n.tag = true) (hb : Extractable b)
    (hsh : isNumber b.sh.hd = true) {p : Outcome Val} (ha : Follows m nos a o)
    (h : Follows m nos b p) : Follows m nos (.mk n [a, b])
      ((o.both (p.bind (Const.tested (zeroVal b.sh.hd)))).bind (m.divide n)) := by
  obtain ⟨hsure, hvalue, hfail⟩ := h.tested (zeroVal b.sh.hd)
  have hout : outcome m nos (.mk n [a, b]) =
      ((outcome m nos a).both (outcome m nos b)).bind (m.divide n) := eval_div hn a b _
  have hzero : ∀ y, (outcome m nos b).value = some y → (y.isZero = true ↔ y = zeroVal b.sh.hd) :=
    fun y hy => (outcome_fits m nos hb hy).isZero_iff hsh
  refine ⟨(ha.sure.both hsure).bind fun v => ?_, ?_, ?_⟩
  · unfold Machine.divide
    split
    · exact Outcome.sure_crash
    · exact Outcome.sure_ret _
  · intro v
    rw [hout, nilField_other (isDivision_ne hn rfl), Outcome.bind_value, Outcome.bind_value,
      ← exists_and_left]
    refine exists_congr fun w => ?_
    obtain ⟨x, y⟩ := w
    have hdiv : (m.divide n (x, y)).value = some v → y.isZero = false := by
      intro hv
      unfold Machine.divide at hv
      split at hv
      · cases hv
      · next hy => exact Bool.eq_false_of_not_eq_true hy
    have hne : (outcome m nos b).value = some y → (m.divide n (x, y)).value = some v →
        y ≠ zeroVal b.sh.hd := by
      intro hy hv heq
      have hz := (hzero y hy).2 heq
      rw [hdiv hv] at hz
      cases hz
    rw [Outcome.both_value, Outcome.both_value, ha.value, hvalue]
    simp only [List.mem_cons, List.not_mem_nil, or_false, exists_eq_or_imp, exists_eq_left, not_or]
    tauto
  · rw [nilContents_other (isDivision_ne hn rfl) (isDivision_ne hn rfl), Outcome.bind_fail,
      Outcome.both_fail, ha.fail, hfail]
    have hnever : ¬ ∃ v, (o.both (p.bind (Const.tested (zeroVal b.sh.hd)))).value = some v ∧
        (m.divide n v).fail = true := by
      rintro ⟨⟨x, y⟩, hxy, hv⟩
      obtain ⟨-, hy⟩ := Outcome.both_value.1 hxy
      obtain ⟨⟨-, hy⟩, hne⟩ := (hvalue y).1 hy
      unfold Machine.divide at hv
      split at hv
      · next hz => exact hne ((hzero y hy).1 hz)
      · cases hv
    rw [or_iff_left hnever]
    simp

theorem plain_ne {t u : Tag} (ht : plain t = true) (hu : plain u = false) : t ≠ u := by
  rintro rfl
  rw [ht] at hu
  cases hu

theorem follows_values (h : List.Forall₂ (Follows m nos) args os) (vs : List Val) :
    List.Forall₂ (fun o v => o.value = some v) os vs ↔
      (∀ a ∈ args, ¬ NilField m nos a) ∧
        List.Forall₂ (fun o v => o.value = some v) (args.map (outcome m nos)) vs := by
  induction h generalizing vs with
  | nil => simp
  | cons ha hargs ih =>
      cases vs with
      | nil => simp
      | cons v vs =>
          rw [List.map_cons, List.forall₂_cons, List.forall₂_cons, List.forall_mem_cons, ha.value,
            ih]
          tauto

theorem follows_fails (h : List.Forall₂ (Follows m nos) args os) :
    (∃ o ∈ os, o.fail = true) ↔ ∃ a ∈ args, NilContents m nos a := by
  induction h with
  | nil => simp
  | cons ha hargs ih => simp [ha.fail, ih]

theorem follows_sure (h : List.Forall₂ (Follows m nos) args os) : ∀ o ∈ os, o.Sure := by
  induction h with
  | nil => exact fun _ ho => nomatch ho
  | cons ha _ ih => exact List.forall_mem_cons.2 ⟨ha.sure, ih⟩

/-- An operation that is not treated on its own. -/
theorem Follows.op (hn : plain n.tag = true) (h : List.Forall₂ (Follows m nos) args os) :
    Follows m nos (.mk n args) ((Outcome.all os).bind fun vs => .ret (m.op n vs)) := by
  have hout : outcome m nos (.mk n args) =
      (Outcome.all (args.map (outcome m nos))).bind fun vs => .ret (m.op n vs) :=
    eval_plain hn args _
  refine ⟨(Outcome.Sure.all (follows_sure h)).bind fun v => Outcome.sure_ret _, ?_, ?_⟩
  · intro v
    rw [hout, nilField_other (plain_ne hn rfl), Outcome.bind_value, Outcome.bind_value,
      ← exists_and_left]
    refine exists_congr fun vs => ?_
    rw [Outcome.all_value, Outcome.all_value, follows_values h vs, not_exists, and_assoc]
    simp only [not_and]
  · rw [nilContents_other (plain_ne hn rfl) (plain_ne hn rfl), Outcome.bind_fail, Outcome.all_fail,
      follows_fails h]
    simp

end

end Tendra.Ref.Const
