import Tendra.Proofs.Lexi.Pass

/-!
# The main pass of a zone

A call of the function for a zone is a scan: white characters are skipped, then the match of the
trie is taken off the input, over and over until a frame returns. Where all spellings are literal
the match is the longest one that was declared.
-/

namespace Tendra.Ref.Lexi

namespace Trie

variable {α : Type}
variable {t next opt : Trie α} {u : Option α} {v : Value}

mutual

/-- The match by the literal that is equal to the first character: what can be found below it
goes before its own leaf. -/
@[grind =] def pickLetter : Trie α → Stream' Int → Option (α × Nat)
  | nil, _ => none
  | node (.char c) u next opt, s =>
      if s.head = c then
        (longer ((pickLetter next s.tail).or (pickGroup next s.tail))).or (u.map fun a => (a, 1))
      else pickLetter opt s
  | node (.group _ _) _ _ opt, s => pickLetter opt s

/-- The match by the first listed group that has the first character. -/
@[grind =] def pickGroup : Trie α → Stream' Int → Option (α × Nat)
  | nil, _ => none
  | node (.char _) _ _ opt, s => pickGroup opt s
  | node (.group neg g) u next opt, s =>
      if inGroup g s.head ^^ neg then
        (longer ((pickLetter next s.tail).or (pickGroup next s.tail))).or (u.map fun a => (a, 1))
      else pickGroup opt s

end

/-- The frame that is selected, and the number of characters of its token. -/
def pick (t : Trie α) (s : Stream' Int) : Option (α × Nat) := (pickLetter t s).or (pickGroup t s)

theorem walk_false (t : Trie α) (s : Stream' Int) :
    walkLetter false false t s = pickLetter t s ∧ walkGroup false t s = pickGroup t s := by
  induction t generalizing s with
  | nil => exact ⟨by rw [walkLetter, pickLetter], by rw [walkGroup, pickGroup]⟩
  | node v u next opt ihnext ihopt =>
      obtain ⟨hletter, hgroup⟩ := ihopt s
      cases v with
      | char c =>
          rw [walkLetter, pickLetter, walkGroup, pickGroup, hletter, hgroup, (ihnext s.tail).1,
            (ihnext s.tail).2]
          simp
      | group neg g =>
          rw [walkLetter, pickLetter, walkGroup, pickGroup, hletter, hgroup, (ihnext s.tail).1,
            (ihnext s.tail).2]
          exact ⟨rfl, rfl⟩

/-- The first characters of an input, as values. -/
def chars (k : Nat) (s : Stream' Int) : List Value := (s.take k).map .char

/-- No value is a group. -/
abbrev Literal (t : Trie α) : Prop := t.All fun v => ∃ c, v = .char c

theorem pickGroup_literal (ht : t.Literal) (s : Stream' Int) : pickGroup t s = none := by
  induction t with
  | nil => rw [pickGroup]
  | node v u next opt _ ihopt =>
      obtain ⟨⟨c, rfl⟩, -, hopt⟩ := ht
      rw [pickGroup, ihopt hopt]

theorem pick_literal (ht : t.Literal) (s : Stream' Int) : pick t s = pickLetter t s := by
  rw [pick, pickGroup_literal ht, Option.or_none]

theorem chars_succ (k : Nat) (s : Stream' Int) :
    chars (k + 1) s = .char s.head :: chars k s.tail := rfl

theorem chars_ne_nil {k : Nat} (hk : 0 < k) (s : Stream' Int) : chars k s ≠ [] := by
  obtain ⟨k, rfl⟩ := Nat.exists_eq_succ_of_ne_zero (Nat.ne_of_gt hk)
  exact List.cons_ne_nil _ _

/-- What is picked is in the trie. -/
theorem get_of_pickLetter (ht : t.Literal) {s : Stream' Int} {a : α} {k : Nat}
    (h : pickLetter t s = some (a, k)) : 0 < k ∧ t.get (chars k s) = some a := by
  induction t generalizing s k with
  | nil => exact absurd h (by simp [pickLetter])
  | node v u next opt ihnext ihopt =>
      obtain ⟨⟨c, rfl⟩, hnext, hopt⟩ := ht
      rw [pickLetter] at h
      by_cases hc : s.head = c
      · have hfind : (node (.char c) u next opt).find (.char s.head) = some (u, next) :=
          if_pos (by rw [hc])
        rw [if_pos hc, pickGroup_literal hnext, Option.or_none, longer, Option.or_eq_some_iff,
          Option.map_eq_some_iff] at h
        obtain ⟨⟨b, j⟩, hb, heq⟩ | ⟨-, hu⟩ := h
        · obtain ⟨rfl, rfl⟩ := Prod.mk.inj heq
          obtain ⟨hj, hget⟩ := ihnext hnext hb
          refine ⟨Nat.succ_pos j, ?_⟩
          rw [chars_succ, get_cons, if_neg (chars_ne_nil hj _), hfind]
          exact hget
        · obtain ⟨b, rfl, heq⟩ := Option.map_eq_some_iff.1 hu
          obtain ⟨rfl, rfl⟩ := Prod.mk.inj heq
          refine ⟨Nat.one_pos, ?_⟩
          rw [chars_succ, get_cons, hfind]
          rfl
      · rw [if_neg hc] at h
        obtain ⟨hk, hget⟩ := ihopt hopt h
        obtain ⟨j, rfl⟩ := Nat.exists_eq_succ_of_ne_zero (Nat.ne_of_gt hk)
        refine ⟨hk, ?_⟩
        rw [chars_succ, get_cons] at hget ⊢
        rw [find, if_neg fun heq => hc (Value.char.inj heq).symm]
        exact hget

/-- Where the trie has something for the first characters, no less of them is picked. -/
theorem pickLetter_of_get (ht : t.Literal) {s : Stream' Int} {a : α} {k : Nat}
    (h : t.get (chars k s) = some a) : ∃ b j, pickLetter t s = some (b, j) ∧ k ≤ j := by
  induction t generalizing s k with
  | nil => exact absurd h (by simp [get_nil])
  | node v u next opt ihnext ihopt =>
      obtain ⟨⟨c, rfl⟩, hnext, hopt⟩ := ht
      cases k with
      | zero => exact absurd h (by simp [chars, get])
      | succ k =>
          rw [pickLetter]
          by_cases hc : s.head = c
          · have hfind : (node (.char c) u next opt).find (.char s.head) = some (u, next) :=
              if_pos (by rw [hc])
            rw [chars_succ, get_cons, hfind] at h
            rw [if_pos hc, pickGroup_literal hnext, Option.or_none]
            cases hpick : pickLetter next s.tail with
            | some m =>
                refine ⟨m.1, m.2 + 1, rfl, Nat.succ_le_succ ?_⟩
                by_cases hk : chars k s.tail = []
                · cases k with
                  | zero => exact Nat.zero_le _
                  | succ k => exact absurd hk (List.cons_ne_nil _ _)
                · rw [if_neg hk] at h
                  obtain ⟨b, j, hb, hle⟩ := ihnext hnext h
                  rw [hpick] at hb
                  rw [Option.some.inj hb]
                  exact hle
            | none =>
                by_cases hk : chars k s.tail = []
                · rw [if_pos hk] at h
                  have hu : u = some a := h
                  cases k with
                  | zero => exact ⟨a, 1, by rw [hu]; rfl, Nat.le_refl 1⟩
                  | succ k => exact absurd hk (List.cons_ne_nil _ _)
                · rw [if_neg hk] at h
                  obtain ⟨b, j, hb, -⟩ := ihnext hnext h
                  rw [hpick] at hb
                  exact absurd hb (by simp)
          · rw [if_neg hc]
            rw [chars_succ, get_cons, find, if_neg fun heq => hc (Value.char.inj heq).symm] at h
            exact ihopt hopt (k := k + 1) h

end Trie

section

variable {α : Type} {cap : Nat} {returns : α → Bool} {groups : Groups} {t : Trie α}
  {default : Option α} {σ : Lexer α}

/-- How a call ends: with the frames that were selected, the last of which returned unless the
result is `lexi_unknown`, and with the characters that are left. -/
structure End (α : Type) where
  log : List α
  unknown : Bool
  rest : Stream' Int

/-- The end of a call as its execution shows it. -/
def Outcome.ending : Outcome α → Option (End α)
  | frame σ => some ⟨σ.log, false, σ.future⟩
  | unknown σ => some ⟨σ.log, true, σ.future⟩
  | _ => none

/-- The white characters of a zone. -/
def isWhite (groups : Groups) (c : Int) : Bool :=
  match findGroup groups whiteName with
  | none => false
  | some g => inGroup g c

/-- The frame that is selected, which may be that of `DEFAULT`, and the characters after it. -/
def select (t : Trie α) (default : Option α) (s : Stream' Int) : Option α × Stream' Int :=
  match t.pick s with
  | some (f, k) => (some f, s.drop k)
  | none => (default, s.tail)

/-- What a call is for, in as many turns as `fuel` says. -/
def scan (returns : α → Bool) (groups : Groups) (t : Trie α) (default : Option α) :
    Nat → List α → Stream' Int → Option (End α)
  | 0, _, _ => none
  | fuel + 1, log, s =>
      if isWhite groups s.head then scan returns groups t default fuel log s.tail
      else
        match select t default s with
        | (none, rest) => some ⟨log, true, rest⟩
        | (some f, rest) =>
            if returns f then some ⟨log ++ [f], false, rest⟩
            else scan returns groups t default fuel (log ++ [f]) rest

/-- The code of a main pass is a scan, from every state and as long as one looks. -/
def Implements (cap : Nat) (returns : α → Bool) (groups : Groups) (t : Trie α)
    (default : Option α) : Prop :=
  ∀ (fuel : Nat) (σ : Lexer α), σ.buffer.length ≤ cap →
    ((outZonePass returns groups t default).call cap returns fuel .start σ).map Outcome.ending =
      (scan returns groups t default fuel σ.log σ.future).map some

theorem exec_outFrame (f : α) : exec cap returns (outFrame returns f) σ =
    if returns f then .frame { σ with log := σ.log ++ [f] }
    else .goto .start { σ with log := σ.log ++ [f] } := by
  rw [outFrame]
  cases hf : returns f with
  | true => rw [if_pos rfl, if_pos rfl, exec, hf, if_pos rfl]
  | false =>
      rw [if_neg Bool.false_ne_true, if_neg Bool.false_ne_true, exec, exec, hf,
        if_neg Bool.false_ne_true, Outcome.next_andThen, exec]

theorem leafCode_main : LeafCode cap returns (outLeafMain returns) false where
  none_eq := rfl
  some_snd _ := rfl
  jumps f σ := by
    rw [outLeafMain, exec_outFrame]
    split <;> exact trivial

theorem inGroup_of_empty {g : Group} (h : isGroupEmpty g = true) (c : Int) :
    inGroup g c = false := by
  rw [inGroup, Bool.and_eq_false_iff]
  right
  cases hc : g.toList[c.toNat]? with
  | none => rfl
  | some b =>
      have hb := List.all_eq_true.1 h b (List.mem_of_getElem? hc)
      simpa using hb

theorem exec_outWhite : exec cap returns (outWhite (findGroup groups whiteName)) σ =
    if isWhite groups (σ.c 0) then .goto .start σ else .next σ := by
  rw [isWhite]
  cases findGroup groups whiteName with
  | none => rfl
  | some g =>
      rw [outWhite]
      cases hg : isGroupEmpty g with
      | true =>
          rw [if_pos rfl, exec]
          simp only [inGroup_of_empty hg, Bool.false_eq_true, if_false]
      | false => rw [if_neg Bool.false_ne_true, exec, Bool.xor_false, exec, exec]

theorem start_eq (ht : t = .node v u next opt) :
    exec cap returns (outZonePass returns groups t default).start σ =
      ((exec cap returns (outWhite (findGroup groups whiteName)) (σ.readchar 0)).andThen
        (exec cap returns (outFirst (outLeafMain returns) t))).andThen
        (exec cap returns (match default with
          | none => .returnUnknown
          | some f => outFrame returns f)) := by
  subst ht
  cases default with
  | none => rw [outZonePass.eq_def, exec, exec, exec, Outcome.next_andThen, exec]
  | some f => rw [outZonePass.eq_def, exec, exec, exec, Outcome.next_andThen, exec]

/-- A turn over a white character. -/
theorem exec_start_white (ht : t = .node v u next opt) (h : σ.buffer.length ≤ cap)
    (hwhite : isWhite groups σ.future.head = true) :
    ∃ σ', exec cap returns (outZonePass returns groups t default).start σ = .goto .start σ' ∧
      σ'.future = σ.future.tail ∧ σ'.log = σ.log ∧ σ'.buffer.length ≤ cap := by
  obtain ⟨hat, hlog⟩ := Lexer.at_readchar h
  have hroom := hat.room
  refine ⟨σ.readchar 0, ?_, hat.future, hlog, by omega⟩
  rw [start_eq ht, exec_outWhite, hat.head, if_pos hwhite]
  rfl

/-- A turn that selects a frame or comes to the default. -/
theorem exec_start_select (ht : t = .node v u next opt) (hplain : t.Plain)
    (hcap : t.maxlength ≤ cap) (h : σ.buffer.length ≤ cap)
    (hwhite : isWhite groups σ.future.head = false) :
    ∃ σ', exec cap returns (outZonePass returns groups t default).start σ =
        (match (select t default σ.future).1 with
          | none => .unknown σ'
          | some f => exec cap returns (outFrame returns f) σ') ∧
      σ'.future = (select t default σ.future).2 ∧ σ'.log = σ.log ∧ σ'.buffer.length ≤ cap := by
  obtain ⟨hat, hlog⟩ := Lexer.at_readchar h
  have hrun := Runs.first (@leafCode_main _ cap returns) hplain hcap hat
  rw [start_eq ht, exec_outWhite, hat.head, hwhite, if_neg Bool.false_ne_true,
    Outcome.next_andThen, select]
  rw [Trie.walk, (t.walk_false _).1, (t.walk_false _).2, ← Trie.pick] at hrun
  cases hpick : t.pick σ.future with
  | none =>
      rw [hpick] at hrun
      obtain ⟨σ', ho, hback⟩ := hrun
      have hroom := hback.at'.room
      refine ⟨σ', ?_, hback.at'.future, hback.log.trans hlog, by omega⟩
      rw [ho, Outcome.next_andThen]
      cases default with
      | none => rw [exec]
      | some f => rfl
  | some m =>
      rw [hpick] at hrun
      obtain ⟨σ', ho, hfuture, hlog', hroom⟩ := hrun
      refine ⟨σ', ?_, hfuture, hlog'.trans hlog, hroom⟩
      rw [ho, (leafCode_main.jumps m.1 σ').andThen]
      rfl

theorem implements_of_plain (ht : t = .node v u next opt) (hplain : t.Plain)
    (hcap : t.maxlength ≤ cap) : Implements cap returns groups t default := by
  intro fuel
  induction fuel with
  | zero => exact fun σ _ => rfl
  | succ fuel ih =>
      intro σ h
      rw [Code.call, Code.at, scan]
      cases hwhite : isWhite groups σ.future.head with
      | true =>
          obtain ⟨σ', ho, hfuture, hlog, hroom⟩ :=
            @exec_start_white _ cap returns groups t default σ v u next opt ht h hwhite
          rw [ho, if_pos rfl, ← hlog, ← hfuture]
          exact ih σ' hroom
      | false =>
          obtain ⟨σ', ho, hfuture, hlog, hroom⟩ :=
            @exec_start_select _ cap returns groups t default σ v u next opt ht hplain hcap h hwhite
          rw [ho, if_neg Bool.false_ne_true, ← hlog]
          generalize select t default σ.future = selected at hfuture
          obtain ⟨f, rest⟩ := selected
          obtain rfl : σ'.future = rest := hfuture
          cases f with
          | none => rfl
          | some f =>
              simp only [exec_outFrame]
              cases hf : returns f with
              | true => rfl
              | false => exact ih { σ' with log := σ'.log ++ [f] } hroom

/-- The first `k` characters are a spelling that is declared for `f`. -/
def Declared (groups : Groups) (decls : List (List Int × α)) (s : Stream' Int) (f : α) (k : Nat) :
    Prop :=
  ∃ d ∈ decls, Trie.Spells groups d.1 (Trie.chars k s) ∧ d.2 = f

/-- What is selected is the longest declared spelling that begins the input. -/
structure PicksLongest (groups : Groups) (decls : List (List Int × α)) (t : Trie α)
    (s : Stream' Int) : Prop where
  declared {f : α} {k : Nat} (h : t.pick s = some (f, k)) : Declared groups decls s f k
  longest {f : α} {k : Nat} (h : Declared groups decls s f k) :
    ∃ f' k', t.pick s = some (f', k') ∧ k ≤ k'

theorem picksLongest {decls : List (List Int × α)} (hbuild : Trie.nil.build groups decls = some t)
    (hliteral : ∀ d ∈ decls, ∀ vs, Trie.Spells groups d.1 vs → ∀ v ∈ vs, ∃ c, v = .char c)
    (s : Stream' Int) : PicksLongest groups decls t s := by
  have ht : t.Literal := Trie.build_all hbuild trivial hliteral
  have hget : ∀ vs f, t.get vs = some f ↔ ∃ d ∈ decls, Trie.Spells groups d.1 vs ∧ d.2 = f := by
    intro vs f
    rw [Trie.build_get_iff hbuild, Trie.get_nil]
    simp
  constructor
  · intro f k h
    rw [Trie.pick_literal ht] at h
    exact (hget _ f).1 (Trie.get_of_pickLetter ht h).2
  · intro f k h
    rw [Trie.pick_literal ht]
    exact Trie.pickLetter_of_get ht ((hget _ f).2 h)

theorem build_ne_nil {decls : List (List Int × α)} {t₀ : Trie α} (hne : decls ≠ [])
    (hbuild : t₀.build groups decls = some t) : ∃ v u next opt, t = .node v u next opt := by
  cases t with
  | node v u next opt => exact ⟨v, u, next, opt, rfl⟩
  | nil =>
      obtain ⟨d, decls, rfl⟩ := List.exists_cons_of_ne_nil hne
      have hiff := Trie.build_get_iff hbuild
      rw [Trie.build, Option.bind_eq_bind, Option.bind_eq_some_iff] at hbuild
      obtain ⟨t₁, hadd, -⟩ := hbuild
      obtain ⟨vs, hspells, -⟩ := Trie.add_iff.1 hadd
      have hget := (hiff vs d.2).2 (Or.inr ⟨d, List.mem_cons_self, hspells, rfl⟩)
      exact absurd hget (by simp [Trie.get_nil])

/-- A zone with a declaration at least, whose literals are written as themselves. -/
theorem main_pass {decls : List (List Int × α)} (hne : decls ≠ [])
    (hbuild : Trie.nil.build groups decls = some t)
    (hplain : ∀ d ∈ decls, ∀ vs, Trie.Spells groups d.1 vs → ∀ c, .char c ∈ vs → Trie.PlainChar c)
    {global : Zone α} (hzone : global.Has t .nil) (returns : α → Bool) (default : Option α) :
    Implements global.bufferLength returns groups t default ∧
      ((∀ d ∈ decls, ∀ vs, Trie.Spells groups d.1 vs → ∀ v ∈ vs, ∃ c, v = .char c) →
        ∀ s, PicksLongest groups decls t s) := by
  obtain ⟨v, u, next, opt, ht⟩ := build_ne_nil hne hbuild
  have hall : t.Plain := Trie.build_all hbuild trivial fun d hd vs hvs v hv c hc =>
    hplain d hd vs hvs c (hc ▸ hv)
  exact ⟨implements_of_plain ht hall hzone.main_le, fun hliteral => picksLongest hbuild hliteral⟩

/-- The tokens `a` and `ab`, with a space for a white character. -/
theorem main_pass_letters :
    let groups : Groups := [(whiteName, .ofFn fun i => i = 0x20)]
    let decls : List (List Int × Nat) := [([0x61], 0), ([0x61, 0x62], 1)]
    let t : Trie Nat := .node (.char 0x61) (some 0) (.node (.char 0x62) (some 1) .nil .nil) .nil
    Implements 1 (fun _ => true) groups t none ∧ ∀ s, PicksLongest groups decls t s := by
  intro groups decls t
  have hplain : ∀ d ∈ decls, ∀ vs, Trie.Spells groups d.1 vs → ∀ v ∈ vs,
      ∃ c, v = .char c ∧ Trie.PlainChar c := by
    have ha : Trie.PlainChar 0x61 := .inr (by decide)
    have hb : Trie.PlainChar 0x62 := .inr (by decide)
    intro d hd vs hvs v hv
    simp only [decls, List.mem_cons, List.not_mem_nil, or_false] at hd
    obtain rfl | rfl := hd
    · obtain rfl : [Value.char 0x61] = vs := Option.some.inj hvs
      exact ⟨0x61, List.mem_singleton.1 hv, ha⟩
    · obtain rfl : [Value.char 0x61, .char 0x62] = vs := Option.some.inj hvs
      obtain rfl | hv := List.mem_cons.1 hv
      · exact ⟨0x61, rfl, ha⟩
      · exact ⟨0x62, List.mem_singleton.1 hv, hb⟩
  obtain ⟨himpl, hlongest⟩ := @main_pass Nat groups t decls (by simp [decls]) rfl
    (fun d hd vs hvs c hc => by
      obtain ⟨c', hc', h⟩ := hplain d hd vs hvs _ hc
      exact Value.char.inj hc' ▸ h)
    (.zone t .nil .nil .nil) .here (fun _ => true) none
  exact ⟨himpl, hlongest fun d hd vs hvs v hv => by
    obtain ⟨c, hc, -⟩ := hplain d hd vs hvs v hv
    exact ⟨c, hc⟩⟩

/-- A character behind 127 is written as a question mark, and a zone without a declaration skips
no white characters. -/
theorem not_main_pass :
    (¬∀ (groups : Groups) (decls : List (List Int × Nat)) (t : Trie Nat) (global : Zone Nat),
      decls ≠ [] → Trie.nil.build groups decls = some t → global.Has t .nil →
        Implements global.bufferLength (fun _ => true) groups t none) ∧
      ¬∀ (groups : Groups) (decls : List (List Int × Nat)) (t : Trie Nat) (global : Zone Nat),
        (∀ d ∈ decls, ∀ vs, Trie.Spells groups d.1 vs → ∀ c, .char c ∈ vs → Trie.PlainChar c) →
          Trie.nil.build groups decls = some t → global.Has t .nil →
            Implements global.bufferLength (fun _ => true) groups t none := by
  constructor
  · intro h
    have hrun := h [] [([200], 0)] (.node (.char 200) (some 0) .nil .nil)
      (.zone (.node (.char 200) (some 0) .nil .nil) .nil .nil .nil) (by simp) rfl .here
      1 ⟨[], Stream'.const 200, fun _ => 0, []⟩ (Nat.le_refl 0)
    have hlog := congrArg (Option.map (Option.map End.log)) hrun
    exact absurd hlog (by decide)
  · intro h
    have hrun := h [(whiteName, .replicate 256 true)] [] .nil (.zone .nil .nil .nil .nil)
      (fun _ h => absurd h List.not_mem_nil) rfl .here 1 ⟨[], Stream'.const 0x20, fun _ => 0, []⟩
      (Nat.le_refl 0)
    have hlog := congrArg (Option.map (Option.map End.log)) hrun
    exact absurd hlog (by decide)

end

end Tendra.Ref.Lexi
