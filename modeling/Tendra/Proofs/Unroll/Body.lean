import Tendra.Ref.Unroll

/-!
# The body of a loop that is unrolled

Where `unroll_complex` leaves `allow_double` set, it has seen every use of the control
variable, and each is the operand of a `cont_tag`. The copies that `inc_offset` makes are
then the body with another value in the place of the control variable.
-/

namespace Tendra.Ref.Unroll

variable {args : List Exp} {n : Node} {up : Context}

section

variable (control : Nat)

mutual

/-- How many uses of the control variable there are. -/
@[grind =] def uses : Exp → Nat
  | .mk n args => (if n.tag = .nameTag ∧ n.dec = control then 1 else 0) + usesList args

@[grind =] def usesList : List Exp → Nat
  | [] => 0
  | a :: rest => uses a + usesList rest

end

/-- The arguments are what the tag asks for, as far as `unroll_complex` relies on it: what it
does not look at holds no use of the control variable. -/
def formedArgs (n : Node) (args : List Exp) : Bool :=
  match n.tag with
  | .contTag => args.length = 1
  | .caseTag => usesList control args.tail = 0
  | .labstTag => usesList control (args.take 1) = 0
  | .nameTag | .gotoTag | .stringTag | .envOffsetTag | .generalEnvOffsetTag
  | .topTag | .profTag | .clearTag => args.isEmpty
  | _ => true

mutual

/-- The expression is formed as the constructs of the language ask for. -/
@[grind =] def formed : Exp → Bool
  | .mk n args => formedArgs control n args && formedList args

@[grind =] def formedList : List Exp → Bool
  | [] => true
  | a :: rest => formed a && formedList rest

end

mutual

/-- The uses of the control variable below an expression are the operands of `cont_tag`s. -/
@[grind =] def Conts : Exp → Prop
  | .mk n args => ContsList n args

@[grind =] def ContsList (n : Node) : List Exp → Prop
  | [] => True
  | a :: rest => (isUse control a = true → n.tag = .contTag ∧ rest = []) ∧ Conts a ∧
      ContsList n rest

end

/-- The expression is no use of the control variable, or the operand of a `cont_tag`. -/
def Sited (up : Context) (e : Exp) : Prop :=
  isUse control e = true → ∃ f up', up = (f, []) :: up' ∧ f.tag = .contTag

end

/-- On the way from `s` to `s'`, `k` uses have been seen. `P` holds if nothing was found that
forbids to eliminate the test. -/
def Sees (s s' : State) (k : Nat) (P : Prop) : Prop :=
  s'.allowDouble = true →
    s.allowDouble = true ∧ s'.namesIndex = s.namesIndex + k ∧ P

namespace Sees

variable {s s' s'' : State} {j k : Nat} {P Q : Prop}

theorem refl (s : State) : Sees s s 0 True := fun h => ⟨h, rfl, trivial⟩

theorem noDouble (s : State) : Sees s s.noDouble k P := fun h => by cases h

theorem trans (h : Sees s s' j P) (h' : Sees s' s'' k Q) : Sees s s'' (j + k) (P ∧ Q) := by
  intro hs
  obtain ⟨hs', hk, hQ⟩ := h' hs
  obtain ⟨hs, hj, hP⟩ := h hs'
  exact ⟨hs, by rw [hk, hj, Nat.add_assoc], hP, hQ⟩

theorem imp (h : Sees s s' j P) (hjk : j = k) (hPQ : P → Q) : Sees s s' k Q :=
  fun hs => let ⟨h₁, h₂, h₃⟩ := h hs; ⟨h₁, hjk ▸ h₂, hPQ h₃⟩

/-- Something is done first that sees no use. -/
theorem before (h : Sees s s' 0 True) (h' : Sees s' s'' k P) : Sees s s'' k P :=
  (h.trans h').imp (Nat.zero_add k) And.right

theorem jump (s : State) (pt : Option Nat) : Sees s (s.jump pt) 0 True := by
  unfold State.jump
  split
  · split
    · exact refl s
    · exact noDouble s
  · exact noDouble s

theorem setunroll (s : State) (l : Nat) : Sees s (s.setunroll l) 0 True :=
  fun h => ⟨h, rfl, trivial⟩

theorem clearunroll (s : State) (l : Nat) : Sees s (s.clearunroll l) 0 True :=
  fun h => ⟨h, rfl, trivial⟩

theorem assign (decs : Nat → Dec) (lia : Bool) (ul : Option Nat) (s : State) (d : Option Exp) :
    Sees s (s.assign decs lia ul d) 0 True := by
  have hif : ∀ (p : Prop) [Decidable p] (s : State),
      Sees s (if p then s.noDouble else s) 0 True := by
    intro p _ s
    split
    · exact noDouble s
    · exact refl s
  unfold State.assign
  split
  · split
    · exact refl s
    · exact before (hif _ s) (hif _ _)
  · exact refl s

end Sees

variable {alpha : Bool} {decs : Nat → Dec} {control : Nat} {lia : Bool} {ul : Option Nat}

theorem sited_of_isOffsetMult (h : isOffsetMult alpha up = true) (e : Exp) :
    Sited control up e := by
  intro _
  unfold isOffsetMult at h
  split at h
  · exact ⟨_, _, rfl, of_decide_eq_true (Bool.and_eq_true_iff.1 h).1⟩
  · cases h

theorem sees_name (hn : n.tag = .nameTag) (up : Context) (s : State) :
    Sees s (s.name alpha control n.dec up) (uses control (.mk n []))
      (Sited control up (.mk n []) ∧ Conts control (.mk n [])) := by
  have hleaf : Conts control (.mk n []) := by
    rw [Conts, ContsList]
    trivial
  have huse : isUse control (.mk n []) = decide (n.dec = control) := by
    simp [isUse, Exp.tag, Exp.dec, Exp.node, hn]
  unfold State.name
  rw [uses, usesList]
  by_cases hdec : n.dec = control
  · rw [if_neg (not_not_intro hdec),
      if_pos (show n.tag = .nameTag ∧ n.dec = control from ⟨hn, hdec⟩)]
    by_cases hoff : isOffsetMult alpha up = true
    · rw [if_pos hoff]
      exact fun h => ⟨h, rfl, sited_of_isOffsetMult hoff _, hleaf⟩
    · rw [if_neg hoff]
      exact Sees.noDouble s
  · rw [if_pos hdec, if_neg (show ¬ (n.tag = .nameTag ∧ n.dec = control) from fun h => hdec h.2)]
    refine fun h => ⟨h, rfl, fun hsite => ?_, hleaf⟩
    rw [huse, decide_eq_true_iff] at hsite
    exact absurd hsite hdec

theorem unrollComplex_neg {n : Int} (hn : n < 0) (e : Exp) (up : Context) (decr : Int)
    (s : State) : (unrollComplex alpha decs control lia ul e up n decr s).1 = -1 := by
  obtain ⟨nd, args⟩ := e
  rw [unrollComplex.eq_def]
  exact congrArg Prod.fst (if_pos hn)

/-- No use of the control variable is below an expression without arguments. -/
theorem sees_leaf {s s' : State} (hn : n.tag ≠ .nameTag) (h : Sees s s' 0 True) :
    Sees s s' (uses control (.mk n []))
      (Sited control up (.mk n []) ∧ Conts control (.mk n [])) := by
  refine h.imp ?_ fun _ => ⟨fun huse => ?_, ?_⟩
  · rw [uses, usesList, if_neg fun h => hn h.1]
  · exact absurd (of_decide_eq_true huse).1 hn
  · rw [Conts, ContsList]
    trivial

/-- An expression that is no use is only looked at inside. -/
theorem sees_inside {s s' : State} (hn : n.tag ≠ .nameTag)
    (h : Sees s s' (usesList control args) (ContsList control n args)) :
    Sees s s' (uses control (.mk n args))
      (Sited control up (.mk n args) ∧ Conts control (.mk n args)) := by
  refine h.imp ?_ fun hconts => ⟨fun huse => ?_, ?_⟩
  · rw [uses, if_neg (show ¬ (n.tag = .nameTag ∧ n.dec = control) from fun h => hn h.1),
      Nat.zero_add]
  · exact absurd (of_decide_eq_true huse).1 hn
  · rw [Conts]
    exact hconts

mutual

/-- What holds no use of the control variable asks for nothing. -/
theorem conts_of_uses (e : Exp) (h : uses control e = 0) :
    isUse control e = false ∧ Conts control e := by
  obtain ⟨n, args⟩ := e
  rw [uses, Nat.add_eq_zero_iff] at h
  refine ⟨?_, ?_⟩
  · refine decide_eq_false fun huse => ?_
    rw [if_pos (show n.tag = .nameTag ∧ n.dec = control from huse)] at h
    exact absurd h.1 Nat.one_ne_zero
  · rw [Conts]
    exact contsList_of_uses n args h.2

theorem contsList_of_uses (n : Node) (args : List Exp) (h : usesList control args = 0) :
    ContsList control n args := by
  cases args with
  | nil =>
      rw [ContsList]
      trivial
  | cons a rest =>
      rw [usesList, Nat.add_eq_zero_iff] at h
      obtain ⟨huse, hconts⟩ := conts_of_uses a h.1
      rw [ContsList, huse]
      exact ⟨fun h => absurd h Bool.false_ne_true, hconts, contsList_of_uses n rest h.2⟩

end

theorem Sited.arg {e : Node} {rest : List Exp} {a : Exp} (h : Sited control ((e, rest) :: up) a)
    (huse : isUse control a = true) : e.tag = .contTag ∧ rest = [] := by
  obtain ⟨f, up', heq, htag⟩ := h huse
  injection heq with hhead htail
  injection hhead with he hrest
  exact ⟨he ▸ htag, hrest⟩

theorem formedList_mem (h : formedList control args = true) :
    ∀ a ∈ args, formed control a = true := by
  induction args with
  | nil => exact fun a ha => absurd ha List.not_mem_nil
  | cons b rest ih =>
      rw [formedList, Bool.and_eq_true_iff] at h
      exact List.forall_mem_cons.2 ⟨h.1, ih h.2⟩

mutual

/-- What `unroll_complex` finds of the uses of the control variable. -/
theorem unrollComplex_sees (e : Exp) (up : Context) (n decr : Int) (s : State)
    (hdecr : 0 ≤ decr) (hform : formed control e = true)
    (hcount : 0 ≤ (unrollComplex alpha decs control lia ul e up n decr s).1) :
    Sees s (unrollComplex alpha decs control lia ul e up n decr s).2 (uses control e)
      (Sited control up e ∧ Conts control e) := by
  match e with
  | .mk nd args =>
      rw [formed, Bool.and_eq_true_iff] at hform
      obtain ⟨hargs, hlist⟩ := hform
      generalize hr : unrollComplex alpha decs control lia ul (.mk nd args) up n decr s = r
        at hcount ⊢
      rw [unrollComplex.eq_def] at hr
      simp only at hr
      split at hr
      · rw [← hr] at hcount
        exact absurd hcount (by simp)
      · split at hr
        · rename_i hleaf
          obtain ⟨hnil, hchild⟩ := hleaf
          obtain rfl := List.isEmpty_iff.1 hnil
          rw [← hr]
          refine sees_leaf (fun hn => hchild (by simp [hasChild, hn])) ?_
          split
          · exact Sees.noDouble s
          · exact Sees.refl s
        · rename_i hleaf
          clear hleaf
          have hlook : ∀ k s', Sees s s' 0 True →
              ucList alpha decs control lia ul nd args up k decr s' = r → nd.tag ≠ .nameTag →
              Sees s r.2 (uses control (.mk nd args))
                (Sited control up (.mk nd args) ∧ Conts control (.mk nd args)) := by
            intro k s' hs' huc hname
            have hin := ucList_sees nd args up k decr s' hdecr hlist
            rw [huc] at hin
            exact sees_inside hname (hs'.before (hin hcount))
          have hskip : nd.tag ≠ .nameTag → formedArgs control nd args = args.isEmpty →
              Sees s s (uses control (.mk nd args))
                (Sited control up (.mk nd args) ∧ Conts control (.mk nd args)) := by
            intro hname hempty
            rw [hempty] at hargs
            rw [List.isEmpty_iff.1 hargs]
            exact sees_leaf hname (Sees.refl s)
          split at hr
          · exact hlook _ _ (Sees.jump s _) hr (by simp [*])
          · exact hlook _ _ (Sees.jump s _) hr (by simp [*])
          · rename_i htag
            rw [formedArgs, htag] at hargs
            obtain rfl := List.isEmpty_iff.1 hargs
            rw [← hr]
            exact sees_leaf (by simp [htag]) (Sees.jump s _)
          · rename_i htag
            split at hr
            · rename_i a l
              generalize hX : (if a.sh.hd = .bothd then _ else _) = X at hr
              have ha : 0 ≤ X.1 → Sees (s.setunroll l.dec) X.2 (uses control a)
                  (Sited control ((nd, [l]) :: up) a ∧ Conts control a) := by
                intro hX0
                split at hX
                · rw [← hX] at hX0 ⊢
                  exact unrollComplex_sees a _ _ _ _ (Int.le_refl 0)
                    (formedList_mem hlist a (by simp)) hX0
                · rw [← hX] at hX0 ⊢
                  exact unrollComplex_sees a _ _ _ _ hdecr (formedList_mem hlist a (by simp)) hX0
              rw [← hr] at hcount ⊢
              have hX0 : 0 ≤ X.1 := by
                by_cases hneg : X.1 - decr < 0
                · rw [unrollComplex_neg hneg] at hcount
                  exact absurd hcount (by simp)
                · omega
              have hl := unrollComplex_sees l ((nd, []) :: up) (X.1 - decr) decr X.2 hdecr
                (formedList_mem hlist l (by simp)) hcount
              refine sees_inside (by simp [htag]) ?_
              refine ((((Sees.setunroll s l.dec).before (ha hX0)).trans hl).trans
                (Sees.clearunroll _ l.dec)).imp ?_ fun h => ?_
              · simp only [usesList, Nat.add_zero]
              · rw [ContsList, ContsList, ContsList]
                exact ⟨h.1.1.1.arg, h.1.1.2, h.1.2.1.arg, h.1.2.2, trivial⟩
            · rw [← hr] at hcount
              exact absurd hcount (by simp)
          · exact hlook _ _ (Sees.assign decs lia ul s args.head?) hr (by simp [*])
          · exact hlook _ _ (Sees.assign decs lia ul s args.head?) hr (by simp [*])
          · rename_i htag
            rw [formedArgs, htag] at hargs
            obtain rfl := List.isEmpty_iff.1 hargs
            rw [← hr]
            exact sees_name htag up s
          · rw [← hr] at hcount
            exact absurd hcount (by simp)
          · rw [← hr] at hcount
            exact absurd hcount (by simp)
          · rename_i htag
            split at hr
            · rename_i a rest
              rw [formedArgs, htag] at hargs
              rw [← hr] at hcount ⊢
              have ha := unrollComplex_sees a ((nd, rest) :: up) (n - decr) decr s hdecr
                (formedList_mem hlist a List.mem_cons_self) hcount
              refine sees_inside (by simp [htag]) (ha.imp ?_ fun h => ?_)
              · rw [usesList, show usesList control rest = 0 from of_decide_eq_true hargs,
                  Nat.add_zero]
              · rw [ContsList]
                exact ⟨h.1.arg, h.2, contsList_of_uses nd rest (of_decide_eq_true hargs)⟩
            · rw [← hr] at hcount
              exact absurd hcount (by simp)
          · rename_i htag
            rw [← hr]
            exact hskip (by simp [htag]) (by rw [formedArgs, htag])
          · rename_i htag
            rw [← hr]
            exact hskip (by simp [htag]) (by rw [formedArgs, htag])
          · rename_i htag
            rw [← hr]
            exact hskip (by simp [htag]) (by rw [formedArgs, htag])
          · rename_i htag
            rw [← hr]
            exact hskip (by simp [htag]) (by rw [formedArgs, htag])
          · rename_i htag
            rw [← hr]
            exact hskip (by simp [htag]) (by rw [formedArgs, htag])
          · rename_i htag
            rw [← hr]
            exact hskip (by simp [htag]) (by rw [formedArgs, htag])
          · rename_i htag
            split at hr
            · rename_i p b
              rw [formedArgs, htag] at hargs
              have hp : uses control p = 0 := (Nat.add_eq_zero_iff.1 (of_decide_eq_true hargs)).1
              rw [← hr] at hcount ⊢
              have hb := unrollComplex_sees b ((nd, []) :: up) n decr s hdecr
                (formedList_mem hlist b (by simp)) hcount
              refine sees_inside (by simp [htag]) (hb.imp ?_ fun h => ?_)
              · rw [usesList, usesList, usesList, hp, Nat.zero_add, Nat.add_zero]
              · obtain ⟨huse, hconts⟩ := conts_of_uses p hp
                rw [ContsList, ContsList, ContsList, huse]
                exact ⟨fun h => absurd h Bool.false_ne_true, hconts, h.1.arg, h.2, trivial⟩
            · rw [← hr] at hcount
              exact absurd hcount (by simp)
          · exact hlook _ _ (Sees.refl s) hr (by simp [*])
          · exact hlook _ _ (Sees.refl s) hr (by assumption)

theorem ucList_sees (e : Node) (args : List Exp) (up : Context) (n decr : Int) (s : State)
    (hdecr : 0 ≤ decr) (hform : formedList control args = true)
    (hcount : 0 ≤ (ucList alpha decs control lia ul e args up n decr s).1) :
    Sees s (ucList alpha decs control lia ul e args up n decr s).2 (usesList control args)
      (ContsList control e args) := by
  cases args with
  | nil =>
      rw [ucList] at hcount ⊢
      exact (Sees.refl s).imp rfl fun _ => by rw [ContsList]; trivial
  | cons a rest =>
      rw [formedList, Bool.and_eq_true_iff] at hform
      rw [usesList, ContsList]
      have ha := unrollComplex_sees a ((e, rest) :: up) n decr s hdecr hform.1
      rw [ucList] at hcount ⊢
      generalize unrollComplex alpha decs control lia ul a ((e, rest) :: up) n decr s = r
        at ha hcount ⊢
      obtain ⟨c, s1⟩ := r
      simp only at ha hcount ⊢
      by_cases hlast : c < 0 ∨ rest.isEmpty = true
      · rw [if_pos hlast] at hcount ⊢
        have hc : ¬ c < 0 := Int.not_lt.2 hcount
        obtain rfl := List.isEmpty_iff.1 (hlast.resolve_left hc)
        refine (ha hcount).imp rfl fun h => ⟨h.1.arg, h.2, ?_⟩
        rw [ContsList]
        trivial
      · rw [if_neg hlast] at hcount ⊢
        have hc : 0 ≤ c := Int.not_lt.1 fun h => hlast (.inl h)
        have hrest := ucList_sees e rest up c decr s1 hdecr hform.2 hcount
        exact ((ha hc).trans hrest).imp rfl fun h => ⟨h.1.1.arg, h.1.2, h.2⟩

end

/-! ## The copies of the body -/

section

variable {V : Type} (M : Meaning V)

theorem isContOf_iff :
    isContOf control (.mk n args) = true ↔
      n.tag = .contTag ∧ ∃ a, args = [a] ∧ isUse control a = true := by
  obtain _ | ⟨a, _ | ⟨b, rest⟩⟩ := args <;> simp [isContOf, isUse]

theorem uses_of_isUse {e : Exp} (h : isUse control e = true) : uses control e ≠ 0 := by
  obtain ⟨n, args⟩ := e
  rw [uses, if_pos (show n.tag = .nameTag ∧ n.dec = control from of_decide_eq_true h)]
  omega

theorem mem_isUse_of_isContOf (h : isContOf control (.mk n args) = true) :
    ∃ a ∈ args, isUse control a = true := by
  obtain ⟨-, a, rfl, huse⟩ := isContOf_iff.1 h
  exact ⟨a, List.mem_singleton_self a, huse⟩

theorem usesList_mem (h : usesList control args = 0) : ∀ a ∈ args, uses control a = 0 := by
  induction args with
  | nil => exact fun a ha => absurd ha List.not_mem_nil
  | cons b rest ih =>
      rw [usesList, Nat.add_eq_zero_iff] at h
      exact List.forall_mem_cons.2 ⟨h.1, ih h.2⟩

mutual

/-- Where there is no use, the value of the control variable makes no difference. -/
theorem eval_of_uses (x y : BitVec 32) (e : Exp) (h : uses control e = 0) :
    M.eval control x e = M.eval control y e := by
  obtain ⟨n, args⟩ := e
  rw [uses, Nat.add_eq_zero_iff] at h
  have hcont : ¬ isContOf control (.mk n args) = true := by
    intro hcont
    obtain ⟨a, ha, huse⟩ := mem_isUse_of_isContOf hcont
    exact uses_of_isUse huse (usesList_mem h.2 a ha)
  rw [Meaning.eval, Meaning.eval, if_neg hcont, if_neg hcont, evalList_of_uses x y args h.2]

theorem evalList_of_uses (x y : BitVec 32) (args : List Exp) (h : usesList control args = 0) :
    M.evalList control x args = M.evalList control y args := by
  cases args with
  | nil => rfl
  | cons a rest =>
      rw [usesList, Nat.add_eq_zero_iff] at h
      rw [Meaning.evalList, Meaning.evalList, eval_of_uses x y a h.1,
        evalList_of_uses x y rest h.2]

end

theorem contsList_mem (h : ContsList control n args) :
    ∀ a ∈ args, isUse control a = true → n.tag = .contTag ∧ args.getLast? = some a := by
  induction args with
  | nil => exact fun a ha => absurd ha List.not_mem_nil
  | cons b rest ih =>
      rw [ContsList] at h
      intro a ha huse
      obtain rfl | hmem := List.mem_cons.1 ha
      · obtain ⟨htag, rfl⟩ := h.1 huse
        exact ⟨htag, rfl⟩
      · obtain ⟨htag, hlast⟩ := ih h.2.2 a hmem huse
        rw [List.getLast?_cons, hlast]
        exact ⟨htag, rfl⟩

/-- Nothing becomes a use that was none. -/
theorem isUse_replaceUses {sum : Exp} (hsum : isUse control sum = false) (e : Exp)
    (h : isUse control (replaceUses control sum e) = true) : isUse control e = true := by
  obtain ⟨n, args⟩ := e
  rw [replaceUses] at h
  split at h
  · rw [hsum] at h
    cases h
  · exact h

theorem mem_replaceUsesList {sum b : Exp} (h : b ∈ replaceUsesList control sum args) :
    ∃ a ∈ args, replaceUses control sum a = b := by
  induction args with
  | nil => cases h
  | cons a rest ih =>
      rw [replaceUsesList] at h
      obtain rfl | hmem := List.mem_cons.1 h
      · exact ⟨a, List.mem_cons_self, rfl⟩
      · obtain ⟨a', ha', heq⟩ := ih hmem
        exact ⟨a', List.mem_cons_of_mem a ha', heq⟩

variable {x y : BitVec 32} {sum : Exp}

mutual

/-- The body with a sum in the place of the control variable is the body for the value of the
sum. -/
theorem eval_replaceUses (hsum : isUse control sum = false)
    (heval : M.eval control x sum = M.int y) (e : Exp) (hform : formed control e = true)
    (hconts : Conts control e) :
    M.eval control x (replaceUses control sum e) = M.eval control y e := by
  obtain ⟨n, args⟩ := e
  rw [formed, Bool.and_eq_true_iff] at hform
  rw [Conts] at hconts
  rw [replaceUses]
  by_cases hlast : args.getLast?.any (isUse control) = true
  · rw [if_pos hlast, heval]
    cases hget : args.getLast? with
    | none =>
        rw [hget] at hlast
        cases hlast
    | some a =>
        rw [hget] at hlast
        obtain ⟨htag, -⟩ := contsList_mem hconts a (List.mem_of_getLast? hget) hlast
        obtain ⟨b, rfl⟩ : ∃ b, args = [b] := by
          have hone := hform.1
          rw [formedArgs, htag] at hone
          exact List.length_eq_one_iff.1 (of_decide_eq_true hone)
        obtain rfl : b = a := Option.some.inj hget
        rw [Meaning.eval, if_pos (isContOf_iff.2 ⟨htag, b, rfl, hlast⟩)]
  · rw [if_neg hlast]
    have hnone : ∀ a ∈ args, isUse control a ≠ true := by
      intro a ha huse
      rw [(contsList_mem hconts a ha huse).2] at hlast
      exact hlast huse
    have hcont : ¬ isContOf control (.mk n args) = true := by
      intro hcont
      obtain ⟨a, ha, huse⟩ := mem_isUse_of_isContOf hcont
      exact hnone a ha huse
    have hcont' : ¬ isContOf control (.mk n (replaceUsesList control sum args)) = true := by
      intro hcont
      obtain ⟨b, hb, huse⟩ := mem_isUse_of_isContOf hcont
      obtain ⟨a, ha, rfl⟩ := mem_replaceUsesList hb
      exact hnone a ha (isUse_replaceUses hsum a huse)
    rw [Meaning.eval, Meaning.eval, if_neg hcont, if_neg hcont',
      evalList_replaceUses hsum heval args n hform.2 hconts]

theorem evalList_replaceUses (hsum : isUse control sum = false)
    (heval : M.eval control x sum = M.int y) (args : List Exp) (n : Node)
    (hform : formedList control args = true)
    (hconts : ContsList control n args) :
    M.evalList control x (replaceUsesList control sum args) = M.evalList control y args := by
  cases args with
  | nil => rfl
  | cons a rest =>
      rw [formedList, Bool.and_eq_true_iff] at hform
      rw [ContsList] at hconts
      rw [replaceUsesList, Meaning.evalList, Meaning.evalList,
        eval_replaceUses hsum heval a hform.1 hconts.2.1,
        evalList_replaceUses hsum heval rest n hform.2 hconts.2.2]

end

end

end Tendra.Ref.Unroll
