import Tendra.Proofs.Lexi.Trie
import Tendra.Ref.Lexi.Emit

/-!
# What the code of a pass matches

The code for a trie finds the match that `Trie.walk` describes: of the alternatives at a depth the
letter that was read, or the first group that has it, each with what follows before its own leaf.
Where the writer of a leaf says wrongly that control leaves (`falls`), a letter without a leaf is
followed by the letters written after it.

One lemma over the trie relates the execution to the match; both passes are cases of it.
-/

namespace Tendra.Ref.Lexi

namespace Trie

variable {α : Type}

/-- A match one character longer. -/
def longer (r : Option (α × Nat)) : Option (α × Nat) := r.map fun m => (m.1, m.2 + 1)

mutual

/-- The match of the letters at a depth, and the number of its characters. With `entered`
control has come to them from another one. -/
@[grind =] def walkLetter (falls : Bool) : Bool → Trie α → Stream' Int → Option (α × Nat)
  | _, nil, _ => none
  | entered, node (.char c) u next opt, s =>
      if entered ∨ s.head = c then
        ((longer ((walkLetter falls false next s.tail).or (walkGroup falls next s.tail))).or
          (u.map fun a => (a, 1))).or (if falls then walkLetter falls true opt s else none)
      else walkLetter falls false opt s
  | entered, node (.group _ _) _ _ opt, s => walkLetter falls entered opt s

/-- The match of the groups at a depth. -/
@[grind =] def walkGroup (falls : Bool) : Trie α → Stream' Int → Option (α × Nat)
  | nil, _ => none
  | node (.char _) _ _ opt, s => walkGroup falls opt s
  | node (.group neg g) u next opt, s =>
      if inGroup g s.head ^^ neg then
        (longer ((walkLetter falls false next s.tail).or (walkGroup falls next s.tail))).or
          (u.map fun a => (a, 1))
      else walkGroup falls opt s

end

/-- The match of a trie. -/
def walk (falls : Bool) (t : Trie α) (s : Stream' Int) : Option (α × Nat) :=
  (walkLetter falls false t s).or (walkGroup falls t s)

/-- What is found in a node whose value fits. -/
def walkNode (falls : Bool) (u : Option α) (next : Trie α) (s : Stream' Int) : Option (α × Nat) :=
  (longer (walk falls next s.tail)).or (u.map fun a => (a, 1))

/-- A character that `char_lit` writes as itself. -/
def PlainChar (c : Int) : Prop := c = eof ∨ 1 ≤ c ∧ c ≤ 127

/-- All characters are written as themselves. -/
abbrev Plain (t : Trie α) : Prop := t.All fun v => ∀ c, v = .char c → PlainChar c

theorem walkLetter_char {falls entered : Bool} {c : Int} {u : Option α} {next opt : Trie α}
    {s : Stream' Int} :
    walkLetter falls entered (node (.char c) u next opt) s =
      if entered ∨ s.head = c then
        (walkNode falls u next s).or (if falls then walkLetter falls true opt s else none)
      else walkLetter falls false opt s := by
  rw [walkLetter]
  rfl

theorem walkGroup_group {falls neg : Bool} {g : Group} {u : Option α} {next opt : Trie α}
    {s : Stream' Int} :
    walkGroup falls (node (.group neg g) u next opt) s =
      if inGroup g s.head ^^ neg then walkNode falls u next s else walkGroup falls opt s := by
  rw [walkGroup]
  rfl

theorem maxlength_opt {v : Value} {u : Option α} {next opt : Trie α} :
    opt.maxlength ≤ (node v u next opt).maxlength := by
  cases next with
  | nil =>
      rw [maxlength]
      exact Nat.le_max_right _ _
  | node v' u' next' opt' =>
      rw [maxlength]
      exact Nat.le_max_right _ _

theorem maxlength_next {v v' : Value} {u u' : Option α} {next next' opt opt' : Trie α}
    (h : next = node v' u' next' opt') :
    next.maxlength + 1 ≤ (node v u next opt).maxlength := by
  subst h
  rw [maxlength]
  exact Nat.le_max_left _ _

end Trie

theorem charLit_of_plain {c : Int} (h : Trie.PlainChar c) : charLit c = c := by
  obtain rfl | ⟨hpos, hle⟩ := h
  · rfl
  · have hne : c ≠ eof := by
      intro heof
      rw [heof] at hpos
      exact absurd hpos (by decide)
    rw [charLit, if_neg hne, if_neg]
    omega

namespace Outcome

variable {β : Type}

/-- Control does not come to what is written after the statement. -/
def Jumps : Outcome β → Prop
  | next _ => False
  | brk _ => False
  | _ => True

theorem Jumps.andThen {o : Outcome β} (h : o.Jumps) (f : Lexer β → Outcome β) : o.andThen f =
    o := by
  cases o with
  | next σ => exact h.elim
  | _ => rfl

theorem Jumps.leave {o : Outcome β} (h : o.Jumps) : o.leave = o := by
  cases o with
  | brk σ => exact h.elim
  | _ => rfl

@[simp] theorem next_andThen (σ : Lexer β) (f : Lexer β → Outcome β) : (next σ).andThen f = f σ :=
rfl

end Outcome

section

variable {α β : Type} {cap : Nat} {returns : β → Bool} {outLeaf : Option α → Stmt β × Bool}
variable {u : Option α} {next opt : Trie α} {r : Option (α × Nat)} {o : Outcome β}
  {falls : Bool} {n : Nat} {s : Stream' Int} {σ σ' σ'' : Lexer β}

/-- The block of an alternative. -/
def outBlock (outLeaf : Option α → Stmt β × Bool) (u : Option α) (next : Trie α) (n : Nat) :
    Stmt β :=
  .seq (match next with
    | .nil => .skip
    | .node .. => (alternatives outLeaf next (n + 1)).outPass (n + 1)) (outLeaf u).1

theorem alternatives_char {c : Int} :
    alternatives outLeaf (.node (.char c) u next opt) n = {
      letters := (alternatives outLeaf opt n).letters + 1
      single := .ifChar n (charLit c) (outBlock outLeaf u next n)
      cases := .case (charLit c)
        (if (outLeaf u).2 then outBlock outLeaf u next n else .seq (outBlock outLeaf u next n) .brk)
        (alternatives outLeaf opt n).cases
      groups := (alternatives outLeaf opt n).groups } := by
  cases next <;> rfl

theorem alternatives_group {neg : Bool} {g : Group} :
    alternatives outLeaf (.node (.group neg g) u next opt) n = { alternatives outLeaf opt n with
      groups := .ifGroup n neg g (outBlock outLeaf u next n)
        (alternatives outLeaf opt n).groups } := by
  cases next <;> rfl

/-- What the code of the alternatives needs of the code of a leaf. -/
structure LeafCode (cap : Nat) (returns : β → Bool) (outLeaf : Option α → Stmt β × Bool)
    (falls : Bool) : Prop where
  none_eq : outLeaf none = (.skip, falls)
  some_snd (a : α) : (outLeaf (some a)).2 = true
  jumps (a : α) (σ : Lexer β) : (exec cap returns (outLeaf (some a)).1 σ).Jumps

/-- The character at depth `n` has been read, and is the first one of `s`; there is room to push
it and those before it, except the first. -/
structure Lexer.At (σ : Lexer β) (cap n : Nat) (s : Stream' Int) : Prop where
  head : σ.c n = s.head
  future : σ.future = s.tail
  room : σ.buffer.length + n ≤ cap

/-- A state reached where nothing matched. -/
structure Lexer.Back (σ σ' : Lexer β) (cap n : Nat) (s : Stream' Int) : Prop where
  at' : σ'.At cap n s
  vars : ∀ i ≤ n, σ'.c i = σ.c i
  log : σ'.log = σ.log

/-- The outcome of a statement that looks for a match. -/
def Runs (cap : Nat) (returns : β → Bool) (outLeaf : Option α → Stmt β × Bool) (n : Nat)
    (s : Stream' Int) (σ : Lexer β) (o : Outcome β) : Option (α × Nat) → Prop
  | none => ∃ σ', o = .next σ' ∧ σ.Back σ' cap n s
  | some (a, k) => ∃ σ', o = exec cap returns (outLeaf (some a)).1 σ' ∧ σ'.future = s.drop k ∧
      σ'.log = σ.log ∧ σ'.buffer.length ≤ cap

theorem Lexer.Back.refl (h : σ.At cap n s) : σ.Back σ cap n s := ⟨h, fun _ _ => rfl, rfl⟩

theorem Lexer.Back.trans (h : σ.Back σ' cap n s) (h' : σ'.Back σ'' cap n s) :
    σ.Back σ'' cap n s :=
  ⟨h'.at', fun i hi => (h'.vars i hi).trans (h.vars i hi), h'.log.trans h.log⟩

theorem Runs.of_back (hback : σ.Back σ' cap n s) (h : Runs cap returns outLeaf n s σ' o r) :
    Runs cap returns outLeaf n s σ o r := by
  cases r with
  | none =>
      obtain ⟨σ'', ho, h'⟩ := h
      exact ⟨σ'', ho, hback.trans h'⟩
  | some m =>
      obtain ⟨σ'', ho, hfuture, hlog, hroom⟩ := h
      exact ⟨σ'', ho, hfuture, hlog.trans hback.log, hroom⟩

theorem Runs.skip (h : σ.At cap n s) :
    Runs cap returns outLeaf n s σ (exec cap returns .skip σ) none := by
  rw [exec]
  exact ⟨σ, rfl, .refl h⟩

theorem Runs.andThen (hleaf : LeafCode cap returns outLeaf falls) {f : Lexer β → Outcome β}
    {r' : Option (α × Nat)} (h : Runs cap returns outLeaf n s σ o r)
    (hf : ∀ σ', σ'.At cap n s → Runs cap returns outLeaf n s σ' (f σ') r') :
    Runs cap returns outLeaf n s σ (o.andThen f) (r.or r') := by
  cases r with
  | none =>
      obtain ⟨σ', rfl, hback⟩ := h
      exact (hf σ' hback.at').of_back hback
  | some m =>
      obtain ⟨σ', rfl, hσ'⟩ := h
      rw [(hleaf.jumps m.1 σ').andThen]
      exact ⟨σ', rfl, hσ'⟩

theorem Runs.leave (hleaf : LeafCode cap returns outLeaf falls)
    (h : Runs cap returns outLeaf n s σ o r) : Runs cap returns outLeaf n s σ o.leave r := by
  cases r with
  | none =>
      obtain ⟨σ', rfl, hback⟩ := h
      exact ⟨σ', rfl, hback⟩
  | some m =>
      obtain ⟨σ', rfl, hσ'⟩ := h
      rw [(hleaf.jumps m.1 σ').leave]
      exact ⟨σ', rfl, hσ'⟩

theorem Runs.leaf (hleaf : LeafCode cap returns outLeaf falls) (h : σ.At cap n s) (u : Option α) :
    Runs cap returns outLeaf n s σ (exec cap returns (outLeaf u).1 σ) (u.map fun a => (a, 1)) := by
  cases u with
  | none =>
      rw [hleaf.none_eq]
      exact .skip h
  | some a =>
      have hroom := h.room
      exact ⟨σ, rfl, h.future, rfl, by omega⟩

theorem Lexer.readchar_future (σ : Lexer β) (n : Nat) :
    (σ.readchar n).future = σ.future.tail ∧ (σ.readchar n).c = Function.update σ.c n σ.future.head ∧
      (σ.readchar n).log = σ.log ∧ (σ.readchar n).buffer.length = σ.buffer.length - 1 := by
  obtain ⟨buffer, input, c, log⟩ := σ
  cases buffer with
  | nil => exact ⟨rfl, rfl, rfl, rfl⟩
  | cons x b => exact ⟨rfl, rfl, rfl, rfl⟩

/-- The state behind a character that is read at the next depth. -/
theorem Lexer.At.readchar (h : σ.At cap n s) (hn : n + 1 ≤ cap) :
    (σ.readchar (n + 1)).At cap (n + 1) s.tail ∧ (∀ i ≤ n, (σ.readchar (n + 1)).c i = σ.c i) ∧
      (σ.readchar (n + 1)).log = σ.log := by
  obtain ⟨hfuture, hc, hlog, hlength⟩ := σ.readchar_future (n + 1)
  have hroom := h.room
  rw [h.future] at hfuture hc
  have hhead : (σ.readchar (n + 1)).c (n + 1) = s.tail.head := by
    rw [hc]
    exact Function.update_self _ _ _
  refine ⟨⟨hhead, hfuture, by omega⟩, fun i hi => ?_, hlog⟩
  rw [hc]
  exact Function.update_of_ne (by omega) _ _

/-- A pass below the first character finds what the alternatives find, and if that is nothing
the character is as good as not read. -/
theorem Runs.outPass {a : Alternatives β} {r' : Option (α × Nat)} (h : σ.At cap n s)
    (hleaf : LeafCode cap returns outLeaf falls) (hn : n + 1 ≤ cap)
    (hletters : ∀ σ, σ.At cap (n + 1) s.tail → Runs cap returns outLeaf (n + 1) s.tail σ
      (exec cap returns (a.outCharLetters (n + 1)) σ) r)
    (hgroups : ∀ σ, σ.At cap (n + 1) s.tail → Runs cap returns outLeaf (n + 1) s.tail σ
      (exec cap returns a.groups σ) r') :
    Runs cap returns outLeaf n s σ (exec cap returns (a.outPass (n + 1)) σ)
      (Trie.longer (r.or r')) := by
  obtain ⟨hat, hvars, hlog⟩ := h.readchar hn
  have halts := (hletters _ hat).andThen hleaf hgroups
  rw [Alternatives.outPass, exec, exec, Outcome.next_andThen, exec, exec]
  cases hr : (r.or r') with
  | none =>
      rw [hr] at halts
      obtain ⟨σ', ho, hback⟩ := halts
      have hroom := hback.at'.room
      rw [ho, Outcome.next_andThen, exec, if_pos (by omega)]
      refine ⟨_, rfl, ⟨?_, ?_, ?_⟩, ?_, hback.log.trans hlog⟩
      · exact (hback.vars n (by omega)).trans ((hvars n (Nat.le_refl n)).trans h.head)
      · rw [Lexer.future, Stream'.cons_append_stream, ← Lexer.future, hback.at'.future,
          hback.at'.head]
        exact Stream'.eta s.tail
      · rw [List.length_cons]
        omega
      · exact fun i hi => (hback.vars i (by omega)).trans (hvars i hi)
  | some m =>
      rw [hr] at halts
      obtain ⟨σ', ho, hfuture, hlog', hroom⟩ := halts
      rw [ho, (hleaf.jumps m.1 σ').andThen]
      exact ⟨σ', rfl, hfuture, hlog'.trans hlog, hroom⟩

/-- The block of a case, with the `break` that a leaf makes necessary, and the cases after it. -/
theorem Runs.case (hleaf : LeafCode cap returns outLeaf falls) {block : Stmt β}
    {f : Lexer β → Outcome β}
    (h : Runs cap returns outLeaf n s σ (exec cap returns block σ) (Trie.walkNode falls u next s))
    (hf : falls = true → ∀ σ', σ'.At cap n s → Runs cap returns outLeaf n s σ' (f σ').leave r) :
    Runs cap returns outLeaf n s σ
      ((exec cap returns (if (outLeaf u).2 then block else .seq block .brk) σ).andThen f).leave
      ((Trie.walkNode falls u next s).or (if falls then r else none)) := by
  cases hr : Trie.walkNode falls u next s with
  | some m =>
      rw [hr] at h
      have hleave := h.leave hleaf
      obtain ⟨σ', ho, -⟩ := h
      have hjump : (exec cap returns block σ).Jumps := ho ▸ hleaf.jumps m.1 σ'
      split
      next => rwa [hjump.andThen]
      next => rwa [exec, hjump.andThen, hjump.andThen]
  | none =>
      rw [hr] at h
      obtain ⟨σ', ho, hback⟩ := h
      have hu : u = none := by
        rw [Trie.walkNode, Option.or_eq_none_iff, Option.map_eq_none_iff] at hr
        exact hr.2
      rw [hu, hleaf.none_eq]
      cases falls with
      | true =>
          rw [if_pos rfl, ho]
          exact (hf rfl σ' hback.at').of_back hback
      | false =>
          rw [if_neg Bool.false_ne_true, exec, ho, Outcome.next_andThen, exec]
          exact ⟨σ', rfl, hback⟩

/-- What is proved of the alternatives at a depth. -/
structure AlternativesRun (cap : Nat) (returns : β → Bool) (outLeaf : Option α → Stmt β × Bool)
    (falls : Bool) (t : Trie α) (n : Nat) : Prop where
  enter {s : Stream' Int} {σ : Lexer β} (h : σ.At cap n s) :
    Runs cap returns outLeaf n s σ
      (Ref.Lexi.enter cap returns (alternatives outLeaf t n).cases s.head σ).leave
      (t.walkLetter falls false s)
  fall {s : Stream' Int} {σ : Lexer β} (h : σ.At cap n s) (hfalls : falls = true) :
    Runs cap returns outLeaf n s σ (exec cap returns (alternatives outLeaf t n).cases σ).leave
      (t.walkLetter falls true s)
  none (hletters : (alternatives outLeaf t n).letters = 0) (entered : Bool) (s : Stream' Int) :
    t.walkLetter falls entered s = none
  single {s : Stream' Int} {σ : Lexer β} (h : σ.At cap n s)
    (hletters : (alternatives outLeaf t n).letters = 1) :
    Runs cap returns outLeaf n s σ (exec cap returns (alternatives outLeaf t n).single σ)
      (t.walkLetter falls false s)
  groups {s : Stream' Int} {σ : Lexer β} (h : σ.At cap n s) :
    Runs cap returns outLeaf n s σ (exec cap returns (alternatives outLeaf t n).groups σ)
      (t.walkGroup falls s)

theorem AlternativesRun.letters {t : Trie α} (ht : AlternativesRun cap returns outLeaf falls t n)
    (h : σ.At cap n s) :
    Runs cap returns outLeaf n s σ
      (exec cap returns ((alternatives outLeaf t n).outCharLetters n) σ)
      (t.walkLetter falls false s) := by
  rw [Alternatives.outCharLetters]
  split
  next hzero =>
    rw [ht.none hzero]
    exact .skip h
  next hone => exact ht.single h hone
  next =>
    rw [exec, h.head]
    exact ht.enter h

/-- The block of an alternative: what follows it, then its leaf. -/
theorem AlternativesRun.block {v : Value}
    (hnext : n + 1 + next.maxlength ≤ cap → AlternativesRun cap returns outLeaf falls next (n + 1))
    (hleaf : LeafCode cap returns outLeaf falls)
    (hcap : n + (Trie.node v u next opt).maxlength ≤ cap) (h : σ.At cap n s) :
    Runs cap returns outLeaf n s σ
      (exec cap returns (outBlock outLeaf u next n) σ) (Trie.walkNode falls u next s) := by
  rw [outBlock.eq_def, exec]
  refine Runs.andThen hleaf ?_ fun σ' h' => .leaf hleaf h' u
  cases next with
  | nil => exact .skip h
  | node v' u' next' opt' =>
      have hle := @Trie.maxlength_next α v v' u u' _ next' opt opt' rfl
      have hrun := hnext (by omega)
      exact .outPass h hleaf (by omega) (fun _ hat => hrun.letters hat)
        fun _ hat => hrun.groups hat

theorem alternativesRun (hleaf : LeafCode cap returns outLeaf falls) (t : Trie α) :
    ∀ {n : Nat}, t.Plain → n + t.maxlength ≤ cap →
      AlternativesRun cap returns outLeaf falls t n := by
  induction t with
  | nil =>
      intro n _ _
      exact {
        enter := fun h => by
          rw [alternatives, Trie.walkLetter]
          exact Runs.leave hleaf ⟨_, rfl, .refl h⟩
        fall := fun h _ => by
          rw [alternatives, Trie.walkLetter]
          exact (Runs.skip h).leave hleaf
        none := fun _ _ _ => by rw [Trie.walkLetter]
        single := fun _ hletters => absurd hletters Nat.zero_ne_one
        groups := fun h => by
          rw [alternatives, Trie.walkGroup]
          exact .skip h }
  | node v u next opt ihnext ihopt =>
      intro n hplain hcap
      obtain ⟨hv, hplainnext, hplainopt⟩ := hplain
      have hle := @Trie.maxlength_opt α v u next opt
      have hopt := @ihopt n hplainopt (by omega)
      cases v with
      | char c =>
          have hc := charLit_of_plain (hv c rfl)
          exact {
            enter := fun {s σ} h => by
              rw [alternatives_char, Trie.walkLetter_char, enter, hc]
              by_cases heq : s.head = c
              · rw [if_pos heq, if_pos (Or.inr heq)]
                exact .case hleaf (AlternativesRun.block (ihnext hplainnext) hleaf hcap h)
                  fun hfalls σ' h' =>
                  hopt.fall h' hfalls
              · rw [if_neg heq, if_neg (not_or.2 ⟨Bool.false_ne_true, heq⟩)]
                exact hopt.enter h
            fall := fun h _ => by
              rw [alternatives_char, Trie.walkLetter_char, if_pos (Or.inl rfl), exec]
              exact .case hleaf (AlternativesRun.block (ihnext hplainnext) hleaf hcap h) fun hfalls
                σ' h' =>
                hopt.fall h' hfalls
            none := fun hletters => absurd hletters (Nat.succ_ne_zero _)
            single := fun {s σ} h hletters => by
              have hothers := hopt.none (Nat.succ.inj hletters)
              rw [alternatives_char, Trie.walkLetter_char, exec, h.head, hc, hothers, hothers,
                ite_self,
                Option.or_none]
              by_cases heq : s.head = c
              · rw [if_pos heq, if_pos (Or.inr heq)]
                exact AlternativesRun.block (ihnext hplainnext) hleaf hcap h
              · rw [if_neg heq, if_neg (not_or.2 ⟨Bool.false_ne_true, heq⟩)]
                exact ⟨σ, rfl, .refl h⟩
            groups := fun h => by
              rw [alternatives_char, Trie.walkGroup]
              exact hopt.groups h }
      | group neg g =>
          exact {
            enter := fun h => by
              rw [alternatives_group, Trie.walkLetter]
              exact hopt.enter h
            fall := fun h hfalls => by
              rw [alternatives_group, Trie.walkLetter]
              exact hopt.fall h hfalls
            none := fun hletters entered s => by
              rw [Trie.walkLetter]
              exact hopt.none hletters entered s
            single := fun h hletters => by
              rw [alternatives_group, Trie.walkLetter]
              exact hopt.single h hletters
            groups := fun h => by
              rw [alternatives_group, Trie.walkGroup_group, exec, h.head]
              split
              next => exact AlternativesRun.block (ihnext hplainnext) hleaf hcap h
              next => exact hopt.groups h }

/-- The first character of a match is read before it is looked for. -/
theorem Lexer.at_readchar (h : σ.buffer.length ≤ cap) :
    (σ.readchar 0).At cap 0 σ.future ∧ (σ.readchar 0).log = σ.log := by
  obtain ⟨hfuture, hc, hlog, hlength⟩ := σ.readchar_future 0
  refine ⟨⟨?_, hfuture, by omega⟩, hlog⟩
  rw [hc]
  exact Function.update_self _ _ _

theorem Runs.first (hleaf : LeafCode cap returns outLeaf falls) {t : Trie α} (ht : t.Plain)
    (hcap : t.maxlength ≤ cap) (h : σ.At cap 0 s) :
    Runs cap returns outLeaf 0 s σ (exec cap returns (outFirst outLeaf t) σ) (t.walk falls s) := by
  have hrun := @alternativesRun _ _ _ _ _ _ hleaf t 0 ht (by omega)
  rw [outFirst, exec]
  exact Runs.andThen hleaf (hrun.letters h) fun _ hat => hrun.groups hat

end

namespace Zone

variable {α : Type}

theorem Has.le_maxlength {main : Trie α} {pre : Trie Mapping} {z : Zone α} (h : z.Has main pre)
    (len : Trie α → Trie Mapping → Nat) : len main pre ≤ z.maxlength len := by
  induction h with
  | here =>
      rw [maxlength]
      omega
  | next _ ih =>
      rw [maxlength]
      omega
  | opt _ ih =>
      rw [maxlength]
      omega

/-- The buffer is long enough for the main pass of every zone. -/
theorem Has.main_le {main : Trie α} {pre : Trie Mapping} {z : Zone α} (h : z.Has main pre) :
    main.maxlength ≤ z.bufferLength := by
  have hle := h.le_maxlength fun main _ => main.maxlength
  cases z with
  | nil => exact hle
  | zone m p next opt => exact Nat.le_trans hle (Nat.le_add_right _ _)

end Zone

end Tendra.Ref.Lexi
