import Tendra.Proofs.Lexi.MainPass

/-!
# The pre-pass of a zone

The characters that the function for a pre-pass returns should be those of the input with the
longest declared mapping applied at every position. The leaf of a pre-pass says that control
leaves where it does not, so a letter without a mapping of its own is followed by the letters
written after it, and the mapping of the first node of the trie is written once more at the end.
At the positions where neither shows, `Clear`, a call does what it should.
-/

namespace Tendra.Ref.Lexi

namespace Trie

variable {α : Type}
variable {s s' : Stream' Int} {t : Trie α}

/-- A mapping is found at letters that the input has not: with `entered` at one of those that
control falls into, otherwise behind a part of a mapping that breaks off. -/
@[grind =] def Stray : Bool → Trie α → Stream' Int → Prop
  | _, nil, _ => False
  | true, node _ u next opt, s =>
      u.isSome ∨ (next.pick s.tail).isSome ∨ Stray false next s.tail ∨ Stray true opt s
  | false, node v u next opt, s =>
      if v = .char s.head then
        Stray false next s.tail ∨ next.pick s.tail = none ∧ u = none ∧ Stray true opt s
      else Stray false opt s

theorem walk_literal (ht : t.Literal) (falls : Bool) (s : Stream' Int) :
    walk falls t s = walkLetter falls false t s := by
  have hgroup : walkGroup falls t s = none := by
    induction t with
    | nil => rw [walkGroup]
    | node v u next opt _ ihopt =>
        obtain ⟨⟨c, rfl⟩, -, hopt⟩ := ht
        rw [walkGroup, ihopt hopt]
  rw [walk, hgroup, Option.or_none]

theorem walk_pos (ht : t.Literal) {falls entered : Bool} {a : α} {k : Nat}
    (h : walkLetter falls entered t s = some (a, k)) : 0 < k := by
  induction t generalizing s entered with
  | nil => exact absurd h (by simp [walkLetter])
  | node v u next opt _ ihopt =>
      obtain ⟨⟨c, rfl⟩, -, hopt⟩ := ht
      rw [walkLetter_char] at h
      split at h
      next =>
        rw [Option.or_eq_some_iff, walkNode, Option.or_eq_some_iff, longer, Option.map_eq_some_iff,
          Option.map_eq_some_iff] at h
        obtain (⟨m, -, heq⟩ | ⟨-, b, -, heq⟩) | ⟨-, hfall⟩ := h
        · rw [← (Prod.mk.inj heq).2]
          exact Nat.succ_pos _
        · rw [← (Prod.mk.inj heq).2]
          exact Nat.one_pos
        · split at hfall
          next => exact ihopt hopt hfall
          next => exact absurd hfall (by simp)
      next => exact ihopt hopt h

theorem isSome_longer (r : Option (α × Nat)) : (longer r).isSome = r.isSome := by
  rw [longer, Option.isSome_map]

theorem longer_inj {r r' : Option (α × Nat)} (h : longer r = longer r') : r = r' := by
  refine Option.map_injective (fun m m' heq => ?_) h
  obtain ⟨hfst, hsnd⟩ := Prod.mk.inj heq
  exact Prod.ext hfst (Nat.succ.inj hsnd)

/-- What is found at a letter that was read: the same as should be, or something stray. -/
theorem walkNode_stray {next : Trie α} (hnext : next.Literal) (u : Option α) {r : Option (α × Nat)}
    {inner outer : Prop}
    (hclear : ¬inner → walkLetter true false next s.tail = pickLetter next s.tail)
    (hstray : inner → ∃ m, walkLetter true false next s.tail = some m ∧
      pickLetter next s.tail ≠ some m) (hfall : r.isSome ↔ outer) :
    let found := (walkNode true u next s).or r
    let expected := (longer (pickLetter next s.tail)).or (u.map fun a => (a, 1))
    let stray := inner ∨ pickLetter next s.tail = none ∧ u = none ∧ outer
    (¬stray → found = expected) ∧ (stray → ∃ m, found = some m ∧ expected ≠ some m) := by
  intro found expected stray
  have hwalk : found = ((longer (walkLetter true false next s.tail)).or
      (u.map fun a => (a, 1))).or r := by
    simp only [found, walkNode, walk_literal hnext]
  constructor
  · intro h
    obtain ⟨hinner, houter⟩ := not_or.1 h
    rw [hwalk, hclear hinner]
    cases hpick : pickLetter next s.tail with
    | some m => simp [expected, hpick, longer]
    | none =>
        cases u with
        | some a => simp [expected, hpick, longer]
        | none =>
            have hr : r = none := by
              rw [← Option.not_isSome_iff_eq_none, hfall]
              exact fun ho => houter ⟨hpick, rfl, ho⟩
            simp [expected, hpick, longer, hr]
  · intro h
    by_cases hinner : inner
    · obtain ⟨m, hm, hne⟩ := hstray hinner
      refine ⟨(m.1, m.2 + 1), by rw [hwalk, hm]; rfl, ?_⟩
      cases hpick : pickLetter next s.tail with
      | some m' =>
          rw [hpick] at hne
          have hlonger := fun h => hne (@longer_inj _ (some m') (some m) h)
          simpa [expected, hpick, longer] using hlonger
      | none =>
          have hpos := walk_pos hnext hm
          cases u with
          | none => simp [expected, hpick, longer]
          | some a =>
              simp only [expected, hpick, longer, Option.map_none, Option.none_or, Option.map_some,
                ne_eq, Option.some.injEq, Prod.mk.injEq, not_and]
              omega
    · obtain ⟨hpick, rfl, houter⟩ := h.resolve_left hinner
      obtain ⟨m, rfl⟩ := Option.isSome_iff_exists.1 (hfall.2 houter)
      refine ⟨m, ?_, by simp [expected, hpick, longer]⟩
      rw [hwalk, hclear hinner, hpick]
      rfl

/-- What the code finds is what it should find except where something stray is found. -/
theorem walk_stray (ht : t.Literal) (s : Stream' Int) :
    (¬Stray false t s → walkLetter true false t s = pickLetter t s) ∧
      (Stray false t s → ∃ m, walkLetter true false t s = some m ∧ pickLetter t s ≠ some m) ∧
      ((walkLetter true true t s).isSome ↔ Stray true t s) := by
  induction t generalizing s with
  | nil => simp [Stray, walkLetter, pickLetter]
  | node v u next opt ihnext ihopt =>
      obtain ⟨⟨c, rfl⟩, hnext, hopt⟩ := ht
      obtain ⟨hclear, hstray, -⟩ := ihnext hnext s.tail
      obtain ⟨hclear', hstray', hfall⟩ := ihopt hopt s
      have hfound : (walkLetter true false next s.tail).isSome ↔
          (pickLetter next s.tail).isSome ∨ Stray false next s.tail := by
        by_cases h : Stray false next s.tail
        · obtain ⟨m, hm, -⟩ := hstray h
          simp [hm, h]
        · simp [hclear h, h]
      rw [walkLetter_char, walkLetter_char, pickLetter, pickGroup_literal hnext, Option.or_none]
      simp only [Bool.false_eq_true, false_or, true_or, if_true]
      refine ⟨?_, ?_, ?_⟩
      · by_cases hc : s.head = c
        · subst hc
          rw [if_pos rfl, if_pos rfl, Stray, if_pos rfl, pick_literal hnext]
          exact (walkNode_stray hnext u hclear hstray hfall).1
        · rw [if_neg hc, if_neg hc, Stray, if_neg fun heq => hc (Value.char.inj heq).symm]
          exact hclear'
      · by_cases hc : s.head = c
        · subst hc
          rw [if_pos rfl, if_pos rfl, Stray, if_pos rfl, pick_literal hnext]
          exact (walkNode_stray hnext u hclear hstray hfall).2
        · rw [if_neg hc, if_neg hc, Stray, if_neg fun heq => hc (Value.char.inj heq).symm]
          exact hstray'
      · rw [Option.isSome_or, Bool.or_eq_true, hfall, walkNode, Option.isSome_or, Bool.or_eq_true,
          isSome_longer, walk_literal hnext, hfound, Option.isSome_map, Stray, pick_literal hnext]
        simp only [or_assoc, or_left_comm]

theorem walk_eq_pick_iff (ht : t.Literal) (s : Stream' Int) :
    walk true t s = pick t s ↔ ¬Stray false t s := by
  obtain ⟨hclear, hstray, -⟩ := walk_stray ht s
  rw [walk_literal ht, pick_literal ht]
  refine ⟨fun heq h => ?_, hclear⟩
  obtain ⟨m, hm, hne⟩ := hstray h
  exact hne (heq ▸ hm)

theorem walkLetter_of_find (h : t.find (.char s.head) = none) (falls : Bool) :
    walkLetter falls false t s = none := by
  induction t with
  | nil => rw [walkLetter]
  | node v u next opt _ ihopt =>
      rw [find] at h
      split at h
      next => exact absurd h (by simp)
      next hne =>
        cases v with
        | group neg g => rw [walkLetter, ihopt h]
        | char c =>
            rw [walkLetter_char, if_neg, ihopt h]
            exact not_or.2 ⟨Bool.false_ne_true, fun hc => hne (congrArg _ hc.symm)⟩

end Trie

section

variable {β : Type} {cap : Nat} {returns : β → Bool} {pre : Trie Mapping} {σ : Lexer β}

theorem exec_outMapping (m : Mapping) : exec cap returns (outMapping m) σ =
    match m.result with
    | none => .goto .start σ
    | some c => .goto .restart { σ with c := Function.update σ.c 0 (charLit c) } := by
  rw [outMapping]
  cases m.result with
  | none => rw [exec]
  | some c => rw [exec, exec, Outcome.next_andThen, exec]

theorem leafCode_pre : LeafCode cap returns outLeafPre true where
  none_eq := rfl
  some_snd _ := rfl
  jumps m σ := by
    rw [outLeafPre, exec_outMapping]
    split <;> exact trivial

/-- The mapping of the first node. -/
def headMapping : Trie Mapping → Option Mapping
  | .nil => none
  | .node _ u _ _ => u

/-- A position at which the code finds what it should and does not come to the mapping of the
first node. -/
structure Clear (pre : Trie Mapping) (s : Stream' Int) : Prop where
  match' : ¬pre.Stray false s
  first : headMapping pre = none ∨ ∃ m k, pre.pick s = some (m, k) ∧ m.result = none

/-- One mapping applied, or one character kept: what is put out, if anything, and the rest. -/
@[grind =] def mapStep (pre : Trie Mapping) (s : Stream' Int) : Option Int × Stream' Int :=
  match pre.pick s with
  | some (m, k) => (m.result, s.drop k)
  | none => (some s.head, s.tail)

/-- The next character that is put out, if it comes within `fuel` steps. -/
@[grind =] def mapped (pre : Trie Mapping) : Nat → Stream' Int → Option (Int × Stream' Int)
  | 0, _ => none
  | fuel + 1, s =>
      match mapStep pre s with
      | (some c, s') => some (c, s')
      | (none, s') => mapped pre fuel s'

/-- The first `n` characters put out. -/
def mappedChars (pre : Trie Mapping) (fuel : Nat) :
    Nat → Stream' Int → Option (List Int × Stream' Int)
  | 0, s => some ([], s)
  | n + 1, s => do
      let (c, s) ← mapped pre fuel s
      let (cs, s) ← mappedChars pre fuel n s
      some (c :: cs, s)

/-- The characters that `n` calls return. -/
def Code.chars (code : Code β) (cap : Nat) (returns : β → Bool) (fuel : Nat) :
    Nat → Lexer β → Option (List Int × Lexer β)
  | 0, σ => some ([], σ)
  | n + 1, σ =>
      match code.call cap returns fuel .start σ with
      | some (.char c σ) => (chars code cap returns fuel n σ).map fun r => (c :: r.1, r.2)
      | _ => none

/-- The code from the label `restart` on. -/
theorem exec_restart (hplain : pre.Plain) (hcap : pre.maxlength ≤ cap) (h : σ.At cap 0 s)
    (hfirst : headMapping pre = none ∨ ∃ m, pre.walk true s = some m) :
    ∃ σ', exec cap returns (outZonePrepassRestart pre) σ =
        (match pre.walk true s with
          | none => .char s.head σ'
          | some (m, _) => exec cap returns (outMapping m) σ') ∧
      σ'.future = (match pre.walk true s with
        | none => s.tail
        | some (_, k) => s.drop k) ∧
      σ'.buffer.length ≤ cap := by
  have hrun := Runs.first (@leafCode_pre _ cap returns) hplain hcap h
  rw [outZonePrepassRestart.eq_def, exec]
  cases hwalk : pre.walk true s with
  | some m =>
      rw [hwalk] at hrun
      obtain ⟨σ', ho, hfuture, -, hroom⟩ := hrun
      refine ⟨σ', ?_, hfuture, hroom⟩
      rw [ho, (leafCode_pre.jumps m.1 σ').andThen]
      rfl
  | none =>
      rw [hwalk] at hrun hfirst
      obtain ⟨σ', ho, hback⟩ := hrun
      have hroom := hback.at'.room
      refine ⟨σ', ?_, hback.at'.future, by omega⟩
      have hnone : headMapping pre = none := hfirst.resolve_right (by simp)
      rw [ho, Outcome.next_andThen, exec, ← hback.at'.head]
      cases pre with
      | nil => rfl
      | node v u next opt =>
          obtain rfl : u = none := hnone
          rfl

/-- What the pre-pass is given: no result begins a mapping, and all is written as it is. -/
structure Sound (pre : Trie Mapping) : Prop where
  literal : pre.Literal
  plain : pre.Plain
  result {s : Stream' Int} {m : Mapping} {k : Nat} {c : Int} (h : pre.pick s = some (m, k))
    (hc : m.result = some c) : pre.find (.char c) = none ∧ Trie.PlainChar c

theorem exec_prepass (hpre : Sound pre) (hcap : pre.maxlength ≤ cap) (h : σ.At cap 0 s)
    (hclear : Clear pre s) :
    ∃ σ', exec cap returns (outZonePrepassRestart pre) σ =
        (match pre.pick s with
          | none => .char s.head σ'
          | some (m, _) => exec cap returns (outMapping m) σ') ∧
      σ'.future = (mapStep pre s).2 ∧ σ'.buffer.length ≤ cap := by
  have hwalk := (Trie.walk_eq_pick_iff hpre.literal s).2 hclear.match'
  have hfirst : headMapping pre = none ∨ ∃ m, pre.walk true s = some m :=
    hclear.first.imp_right fun ⟨m, k, hm, _⟩ => ⟨(m, k), hwalk.trans hm⟩
  obtain ⟨σ', ho, hfuture, hroom⟩ := @exec_restart _ cap returns _ _ _ hpre.plain hcap h hfirst
  rw [hwalk] at ho hfuture
  refine ⟨σ', ho, hfuture.trans ?_, hroom⟩
  rw [mapStep]
  cases pre.pick s <;> rfl

/-- A mapping to nothing leads back to the label `start`. -/
theorem turn_none (hpre : Sound pre) (hcap : pre.maxlength ≤ cap) (h : σ.buffer.length ≤ cap)
    (hclear : Clear pre σ.future) (hstep : mapStep pre σ.future = (none, s')) :
    ∃ σ', exec cap returns (outZonePrepass pre).start σ = .goto .start σ' ∧ σ'.future = s' ∧
      σ'.buffer.length ≤ cap := by
  obtain ⟨hat, -⟩ := Lexer.at_readchar h
  obtain ⟨σ', ho, hfuture, hroom⟩ := @exec_prepass _ cap returns _ _ _ hpre hcap hat hclear
  rw [hstep] at hfuture
  refine ⟨σ', ?_, hfuture, hroom⟩
  rw [outZonePrepass, exec, exec, Outcome.next_andThen, ho]
  rw [mapStep] at hstep
  cases hpick : pre.pick σ.future with
  | none =>
      rw [hpick] at hstep
      exact absurd (Prod.mk.inj hstep).1 (by simp)
  | some m =>
      rw [hpick] at hstep
      simp only [exec_outMapping, (Prod.mk.inj hstep).1]

/-- A character that is kept or put in is returned, the latter after a jump to `restart`. -/
theorem turn_some {c : Int} (hpre : Sound pre) (hcap : pre.maxlength ≤ cap)
    (h : σ.buffer.length ≤ cap) (hclear : Clear pre σ.future)
    (hstep : mapStep pre σ.future = (some c, s')) :
    ∃ σ', σ'.future = s' ∧ σ'.buffer.length ≤ cap ∧
      (∀ fuel, (outZonePrepass pre).call cap returns (fuel + 2) .start σ = some (.char c σ')) ∧
      ∀ fuel o, (outZonePrepass pre).call cap returns fuel .start σ = some o → o = .char c σ' := by
  obtain ⟨hat, -⟩ := Lexer.at_readchar h
  obtain ⟨σ', ho, hfuture, hroom⟩ := @exec_prepass _ cap returns _ _ _ hpre hcap hat hclear
  have hstart : exec cap returns ((outZonePrepass pre).at .start) σ =
      exec cap returns (outZonePrepassRestart pre) (σ.readchar 0) := by
    rw [Code.at, outZonePrepass, exec, exec, Outcome.next_andThen]
  rw [hstep] at hfuture
  rw [mapStep] at hstep
  cases hpick : pre.pick σ.future with
  | none =>
      rw [hpick] at hstep ho
      obtain ⟨hc, -⟩ := Prod.mk.inj hstep
      obtain rfl := Option.some.inj hc
      refine ⟨σ', hfuture, hroom, fun fuel => ?_, fun fuel o hcall => ?_⟩
      · rw [Code.call, hstart, ho]
      · cases fuel with
        | zero => exact absurd hcall (by simp [Code.call])
        | succ fuel =>
            rw [Code.call, hstart, ho] at hcall
            exact (Option.some.inj hcall).symm
  | some m =>
      rw [hpick] at hstep ho
      obtain ⟨hc, -⟩ := Prod.mk.inj hstep
      obtain ⟨hfind, hchar⟩ := hpre.result hpick hc
      simp only [exec_outMapping, hc, charLit_of_plain hchar] at ho
      have hat' : Lexer.At { σ' with c := Function.update σ'.c 0 c } cap 0 (Stream'.cons c s') :=
        ⟨show Function.update σ'.c 0 c 0 = c from Function.update_self _ _ _, hfuture, hroom⟩
      have hfirst : headMapping pre = none := by
        refine hclear.first.resolve_right fun hmapped => ?_
        obtain ⟨m', k, hm', hnone⟩ := hmapped
        rw [hpick] at hm'
        obtain rfl := Option.some.inj hm'
        exact absurd (hc.symm.trans hnone) (by simp)
      have hwalk : pre.walk true (Stream'.cons c s') = none := by
        rw [Trie.walk_literal hpre.literal]
        exact Trie.walkLetter_of_find (s := Stream'.cons c s') hfind true
      obtain ⟨σ'', ho', hfuture', hroom'⟩ :=
        @exec_restart _ cap returns _ _ _ hpre.plain hcap hat' (Or.inl hfirst)
      rw [hwalk] at ho' hfuture'
      have hrestart : exec cap returns ((outZonePrepass pre).at .restart)
          { σ' with c := Function.update σ'.c 0 c } = .char c σ'' := ho'
      refine ⟨σ'', hfuture', hroom', fun fuel => ?_, fun fuel o hcall => ?_⟩
      · simp only [Code.call, hstart, ho, hrestart]
      · rcases fuel with _ | _ | fuel
        · exact absurd hcall (by simp [Code.call])
        · rw [Code.call, hstart, ho] at hcall
          exact absurd hcall (by simp [Code.call])
        · simp only [Code.call, hstart, ho, hrestart] at hcall
          exact (Option.some.inj hcall).symm

/-- The position after `n` steps. -/
def mapSteps (pre : Trie Mapping) : Nat → Stream' Int → Stream' Int
  | 0, s => s
  | n + 1, s => mapSteps pre n (mapStep pre s).2

/-- All positions that come from one by applying mappings are clear. -/
def ClearFrom (pre : Trie Mapping) (s : Stream' Int) : Prop := ∀ n, Clear pre (mapSteps pre n s)

theorem ClearFrom.head (h : ClearFrom pre s) : Clear pre s := h 0

theorem ClearFrom.step (h : ClearFrom pre s) : ClearFrom pre (mapStep pre s).2 :=
  fun n => h (n + 1)

theorem ClearFrom.mapped {fuel : Nat} {c : Int} (h : ClearFrom pre s)
    (hmapped : Ref.Lexi.mapped pre fuel s = some (c, s')) : ClearFrom pre s' := by
  induction fuel generalizing s with
  | zero => exact absurd hmapped (by simp [Ref.Lexi.mapped])
  | succ fuel ih =>
      have hstep := h.step
      rw [Ref.Lexi.mapped] at hmapped
      split at hmapped
      next c' s'' heq =>
        obtain ⟨-, rfl⟩ := Prod.mk.inj (Option.some.inj hmapped)
        rwa [heq] at hstep
      next s'' heq =>
        rw [heq] at hstep
        exact ih hstep hmapped

/-- A call returns the next character that is put out. -/
theorem call_of_mapped {c : Int} (hpre : Sound pre) (hcap : pre.maxlength ≤ cap) {fuel : Nat}
    (h : σ.buffer.length ≤ cap) (hclear : ClearFrom pre σ.future)
    (hmapped : mapped pre fuel σ.future = some (c, s')) :
    ∃ σ', (outZonePrepass pre).call cap returns (fuel + 1) .start σ = some (.char c σ') ∧
      σ'.future = s' ∧ σ'.buffer.length ≤ cap := by
  induction fuel generalizing σ with
  | zero => exact absurd hmapped (by simp [mapped])
  | succ fuel ih =>
      have hstep := hclear.step
      rw [mapped] at hmapped
      split at hmapped
      next c' s'' heq =>
        obtain ⟨rfl, rfl⟩ := Prod.mk.inj (Option.some.inj hmapped)
        obtain ⟨σ', hfuture, hroom, hcall, -⟩ :=
          @turn_some _ cap returns _ _ _ _ hpre hcap h hclear.head heq
        exact ⟨σ', hcall fuel, hfuture, hroom⟩
      next s'' heq =>
        obtain ⟨σ', ho, rfl, hroom⟩ := @turn_none _ cap returns _ _ _ hpre hcap h hclear.head heq
        rw [heq] at hstep
        obtain ⟨σ'', hcall, hσ''⟩ := ih hroom hstep hmapped
        refine ⟨σ'', ?_, hσ''⟩
        rw [Code.call, Code.at, ho]
        exact hcall

theorem mapped_of_call {o : Outcome β} (hpre : Sound pre) (hcap : pre.maxlength ≤ cap)
    {fuel : Nat} (h : σ.buffer.length ≤ cap) (hclear : ClearFrom pre σ.future)
    (hcall : (outZonePrepass pre).call cap returns fuel .start σ = some o) :
    ∃ c σ', o = .char c σ' ∧ mapped pre fuel σ.future = some (c, σ'.future) ∧
      σ'.buffer.length ≤ cap := by
  induction fuel generalizing σ with
  | zero => exact absurd hcall (by simp [Code.call])
  | succ fuel ih =>
      have hstep := hclear.step
      rw [mapped]
      split
      next c s'' heq =>
        obtain ⟨σ', rfl, hroom, -, hend⟩ :=
          @turn_some _ cap returns _ _ _ _ hpre hcap h hclear.head heq
        exact ⟨c, σ', hend _ _ hcall, rfl, hroom⟩
      next s'' heq =>
        obtain ⟨σ', ho, rfl, hroom⟩ := @turn_none _ cap returns _ _ _ hpre hcap h hclear.head heq
        rw [heq] at hstep
        rw [Code.call, Code.at, ho] at hcall
        exact ih hroom hstep hcall

/-- Repeated calls return the characters that are put out: every call that ends returns the next
one, and where there is a next one the call ends. -/
structure Applies (cap : Nat) (returns : β → Bool) (pre : Trie Mapping) (σ : Lexer β) : Prop where
  ends {fuel : Nat} {o : Outcome β}
    (h : (outZonePrepass pre).call cap returns fuel .start σ = some o) : ∃ c σ', o = .char c σ'
  sound {fuel n : Nat} {cs : List Int} {σ' : Lexer β}
    (h : (outZonePrepass pre).chars cap returns fuel n σ = some (cs, σ')) :
    mappedChars pre fuel n σ.future = some (cs, σ'.future)
  complete {fuel n : Nat} {cs : List Int} {rest : Stream' Int}
    (h : mappedChars pre fuel n σ.future = some (cs, rest)) :
    ∃ fuel' σ', (outZonePrepass pre).chars cap returns fuel' n σ = some (cs, σ') ∧ σ'.future = rest

theorem applies_of_clear (hpre : Sound pre) (hcap : pre.maxlength ≤ cap)
    (h : σ.buffer.length ≤ cap) (hclear : ClearFrom pre σ.future) :
    Applies cap returns pre σ := by
  constructor
  · intro fuel o hcall
    obtain ⟨c, σ', ho, -⟩ := mapped_of_call hpre hcap h hclear hcall
    exact ⟨c, σ', ho⟩
  · intro fuel n cs σ' hchars
    induction n generalizing σ cs with
    | zero =>
        rw [Code.chars] at hchars
        obtain ⟨rfl, rfl⟩ := Prod.mk.inj (Option.some.inj hchars)
        rfl
    | succ n ih =>
        rw [Code.chars] at hchars
        split at hchars
        next c σ₁ hcall =>
          obtain ⟨r, hr, heq⟩ := Option.map_eq_some_iff.1 hchars
          obtain ⟨rfl, rfl⟩ := Prod.mk.inj heq
          obtain ⟨c', σ₂, ho, hmapped, hroom⟩ := mapped_of_call hpre hcap h hclear hcall
          obtain ⟨rfl, rfl⟩ := Outcome.char.inj ho
          have hrest := ih hroom (hclear.mapped hmapped) hr
          simp only [mappedChars, hmapped, Option.bind_eq_bind, Option.bind_some, hrest]
        next => exact absurd hchars (by simp)
  · intro fuel n cs rest hchars
    refine ⟨fuel + 1, ?_⟩
    induction n generalizing σ cs with
    | zero =>
        rw [mappedChars] at hchars
        obtain ⟨rfl, rfl⟩ := Prod.mk.inj (Option.some.inj hchars)
        exact ⟨σ, rfl, rfl⟩
    | succ n ih =>
        rw [mappedChars, Option.bind_eq_bind, Option.bind_eq_some_iff] at hchars
        obtain ⟨⟨c, s'⟩, hmapped, hchars⟩ := hchars
        obtain ⟨⟨cs', rest'⟩, hrest, heq⟩ := Option.bind_eq_some_iff.1 hchars
        obtain ⟨rfl, rfl⟩ := Prod.mk.inj (Option.some.inj heq)
        obtain ⟨σ₁, hcall, rfl, hroom⟩ :=
          @call_of_mapped β cap returns pre σ _ _ hpre hcap fuel h hclear hmapped
        obtain ⟨σ', hσ', hfuture⟩ := ih hroom (hclear.mapped hmapped) hrest
        refine ⟨σ', ?_, hfuture⟩
        simp only [Code.chars, hcall, hσ', Option.map_some]

end

/-- Where the global zone has a pre-pass the buffer is long enough for that of every zone. -/
theorem Zone.Has.pre_le {α : Type} {main m : Trie α} {pre p : Trie Mapping} {next opt : Zone α}
    (h : (Zone.zone m p next opt).Has main pre) (hp : p ≠ .nil) :
    pre.maxlength ≤ (Zone.zone m p next opt).bufferLength := by
  have hle := h.le_maxlength fun _ pre => pre.maxlength
  cases p with
  | nil => exact absurd rfl hp
  | node v u n o => exact Nat.le_trans hle (Nat.le_add_left _ _)

/-- What is asked of the mappings of a zone: all values are literal, and no result is the first
character of a mapping. -/
structure LiteralMappings (groups : Groups) (decls : List (List Int × Mapping)) : Prop where
  literal {d : List Int × Mapping} (hd : d ∈ decls) {vs : List Value}
    (hvs : Trie.Spells groups d.1 vs) {v : Value} (hv : v ∈ vs) : ∃ c, v = .char c
  first {d d' : List Int × Mapping} (hd : d ∈ decls) (hd' : d' ∈ decls) {c : Int}
    (hc : d.2.result = some c) {vs : List Value} (hvs : Trie.Spells groups d'.1 vs) :
    vs.head? ≠ some (.char c)

/-- The characters of the mappings and of their results are written as themselves. -/
structure PlainMappings (groups : Groups) (decls : List (List Int × Mapping)) : Prop where
  plain {d : List Int × Mapping} (hd : d ∈ decls) {vs : List Value}
    (hvs : Trie.Spells groups d.1 vs) {c : Int} (hc : .char c ∈ vs) : Trie.PlainChar c
  result {d : List Int × Mapping} (hd : d ∈ decls) {c : Int} (hc : d.2.result = some c) :
    Trie.PlainChar c

theorem sound_of_build {groups : Groups} {decls : List (List Int × Mapping)} {pre : Trie Mapping}
    (hbuild : Trie.nil.build groups decls = some pre) (hliteral : LiteralMappings groups decls)
    (hplain : PlainMappings groups decls) : Sound pre where
  literal := Trie.build_all hbuild trivial fun _ hd _ hvs _ hv => hliteral.literal hd hvs hv
  plain := Trie.build_all hbuild trivial fun _ hd _ hvs _ hv _ hc =>
    hplain.plain hd hvs (hc ▸ hv)
  result {s m k c} h hc := by
    have hlongest := picksLongest hbuild (fun d hd vs hvs v hv => hliteral.literal hd hvs hv) s
    obtain ⟨d, hd, -, rfl⟩ := hlongest.declared h
    exact ⟨Trie.build_find hbuild _ (Trie.find_nil _) fun d' hd' vs hvs =>
      hliteral.first hd hd' hc hvs, hplain.result hd hc⟩

/-- At positions that are clear the longest mapping is applied, and the calls return the input
with the mappings applied. -/
theorem prepass_applies {α β : Type} {groups : Groups} {decls : List (List Int × Mapping)}
    {pre : Trie Mapping} (hbuild : Trie.nil.build groups decls = some pre)
    (hliteral : LiteralMappings groups decls) (hplain : PlainMappings groups decls)
    {global : Zone α} (hroom : pre.maxlength ≤ global.bufferLength) (returns : β → Bool)
    {σ : Lexer β} (hbuffer : σ.buffer.length ≤ global.bufferLength)
    (hclear : ClearFrom pre σ.future) :
    (∀ s, PicksLongest groups decls pre s) ∧ Applies global.bufferLength returns pre σ :=
  ⟨picksLongest hbuild fun _ hd _ hvs _ hv => hliteral.literal hd hvs hv,
    applies_of_clear (sound_of_build hbuild hliteral hplain) hroom hbuffer hclear⟩

section

/-- A mapping to `x`. -/
def toX : Mapping := ⟨[0x78], rfl⟩

/-- The one mapping, from `ab` to `x`: nothing stray can be found. -/
theorem prepass_applies_ab :
    let decls := [([0x61, 0x62], toX)]
    let pre : Trie Mapping := .node (.char 0x61) none (.node (.char 0x62) (some toX) .nil .nil) .nil
    (∀ s, PicksLongest [] decls pre s) ∧ Applies 1 (fun _ : Nat => true) pre
      ⟨[], Stream'.cons 0x61 (Stream'.cons 0x62 (Stream'.const eof)), fun _ => 0, []⟩ := by
  intro decls pre
  have hvalues : ∀ d ∈ decls, d.2 = toX ∧
      ∀ vs, Trie.Spells [] d.1 vs → vs = [.char 0x61, .char 0x62] := by
    intro d hd
    obtain rfl := List.mem_singleton.1 hd
    exact ⟨rfl, fun vs hvs => (Option.some.inj hvs).symm⟩
  have hresult : ∀ d ∈ decls, ∀ c, d.2.result = some c → c = 0x78 := by
    intro d hd c hc
    rw [(hvalues d hd).1] at hc
    exact (Option.some.inj hc).symm
  have hclear : ∀ s, Clear pre s := by
    intro s
    refine ⟨?_, Or.inl rfl⟩
    simp [pre, Trie.Stray]
  refine @prepass_applies Nat Nat [] decls pre rfl ⟨?_, ?_⟩ ⟨?_, ?_⟩
    (.zone .nil pre .nil .nil) (Zone.Has.pre_le .here (by simp [pre])) (fun _ => true) _
    (Nat.zero_le _) fun n => hclear _
  · intro d hd vs hvs v hv
    rw [(hvalues d hd).2 vs hvs] at hv
    simp only [List.mem_cons, List.not_mem_nil, or_false] at hv
    obtain rfl | rfl := hv
    · exact ⟨0x61, rfl⟩
    · exact ⟨0x62, rfl⟩
  · intro d d' hd hd' c hc vs hvs
    rw [(hvalues d' hd').2 vs hvs, hresult d hd c hc]
    decide
  · intro d hd vs hvs c hc
    rw [(hvalues d hd).2 vs hvs] at hc
    simp only [List.mem_cons, Value.char.injEq, List.not_mem_nil, or_false] at hc
    obtain rfl | rfl := hc
    · exact .inr (by decide)
    · exact .inr (by decide)
  · intro d hd c hc
    rw [hresult d hd c hc]
    exact .inr (by decide)

/-- A mapping to `y`. -/
def toY : Mapping := ⟨[0x79], rfl⟩

/-- The mappings from `ab` to `x` and from `cd` to `y`. -/
def twoMappings : Trie Mapping :=
  .node (.char 0x63) none (.node (.char 0x64) (some toY) .nil .nil)
    (.node (.char 0x61) none (.node (.char 0x62) (some toX) .nil .nil) .nil)

/-- The input `cb`, to which neither applies and of which the first call makes `x`. -/
theorem not_prepass_applies :
    ¬∀ (groups : Groups) (decls : List (List Int × Mapping)) (pre : Trie Mapping)
      (global : Zone Nat) (σ : Lexer Nat), Trie.nil.build groups decls = some pre →
        LiteralMappings groups decls → global.Has .nil pre →
          σ.buffer.length ≤ global.bufferLength →
            Applies global.bufferLength (fun _ => true) pre σ := by
  intro h
  have hliteral : LiteralMappings [] [([0x61, 0x62], toX), ([0x63, 0x64], toY)] := by
    have hvalues : ∀ d ∈ [([0x61, 0x62], toX), ([0x63, 0x64], toY)], ∀ vs,
        Trie.Spells [] d.1 vs → vs = [.char 0x61, .char 0x62] ∨ vs = [.char 0x63, .char 0x64] := by
      intro d hd vs hvs
      obtain rfl | hd := List.mem_cons.1 hd
      · exact .inl (Option.some.inj hvs).symm
      · obtain rfl := List.mem_singleton.1 hd
        exact .inr (Option.some.inj hvs).symm
    constructor
    · intro d hd vs hvs v hv
      obtain rfl | rfl := hvalues d hd vs hvs
      · obtain ⟨c, -, hc⟩ := List.mem_map.1 (show v ∈ [0x61, 0x62].map Value.char from hv)
        exact ⟨c, hc.symm⟩
      · obtain ⟨c, -, hc⟩ := List.mem_map.1 (show v ∈ [0x63, 0x64].map Value.char from hv)
        exact ⟨c, hc.symm⟩
    · intro d d' hd hd' c hc vs hvs
      have hxy : c = 0x78 ∨ c = 0x79 := by
        obtain rfl | hd := List.mem_cons.1 hd
        · exact .inl (Option.some.inj hc).symm
        · obtain rfl := List.mem_singleton.1 hd
          exact .inr (Option.some.inj hc).symm
      obtain rfl | rfl := hvalues d' hd' vs hvs <;> obtain rfl | rfl := hxy <;> decide
  have happlies := h [] [([0x61, 0x62], toX), ([0x63, 0x64], toY)] twoMappings
    (.zone .nil twoMappings .nil .nil)
    ⟨[], Stream'.cons 0x63 (Stream'.cons 0x62 (Stream'.const eof)), fun _ => 0, []⟩ rfl hliteral
    .here (Nat.zero_le _)
  obtain ⟨σ', hcall⟩ : ∃ σ', (outZonePrepass twoMappings).chars 1 (fun _ : Nat => true) 3 1
      ⟨[], Stream'.cons 0x63 (Stream'.cons 0x62 (Stream'.const eof)), fun _ => 0, []⟩ =
        some ([0x78], σ') := ⟨_, rfl⟩
  have hmapped := congrArg (Option.map (·.1)) (happlies.sound hcall)
  simp only [Option.map_some] at hmapped
  exact absurd hmapped (by decide)

end

end Tendra.Ref.Lexi
