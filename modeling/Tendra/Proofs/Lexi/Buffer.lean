import Tendra.Proofs.Lexi.Pass
import Tendra.Ref.Lexi.Lexer

/-!
# The buffer of a lexer

A character that is read comes from the buffer, as long as there is one, or leaves in it what
a prepass has looked at. Behind the variables up to `cn` the buffer has therefore room for
`n + 1` characters more, or else what it holds is the lookahead of the prepass and of the
alternatives that have failed at this place. A pass that fails puts its own characters back,
and an end marker that is not part of its zone puts back all of them.
-/

namespace Tendra.Ref.Lexi

variable {g a : Nat} {pre : Trie Mapping} {Z : Type}

/-- How many characters are read behind one, in the trie that follows it. -/
def Trie.reach {α : Type} : Trie α → Nat
  | nil => 0
  | t => t.maxlength + 1

/-- How many characters are read behind a letter of the trie. -/
def Trie.letterReach {α : Type} : Trie α → Nat
  | nil => 0
  | node (.char _) _ next opt => max next.reach (letterReach opt)
  | node (.group _ _) _ _ opt => letterReach opt

/-- What an alternative finds in the buffer, of what is found by the letters and the groups. -/
def Value.finds : Value → Nat → Nat → Nat
  | char _, a, _ => a
  | group _ _, _, g => g

theorem Value.finds_le (h : a ≤ g) (v : Value) : v.finds a g ≤ g := by
  cases v with
  | char c => exact h
  | group neg gr => exact Nat.le_refl g

/-- What the buffer has to hold, apart from the lookahead of the prepass, where an end marker is
put back that is read up to the depth `n`. The letters at that depth find `a` characters of
failed alternatives in the buffer, and the groups `g`. -/
def Trie.markerLength {Z : Type} : Trie (Frame Z) → Nat → Nat → Nat → Nat
  | nil, _, _, _ => 0
  | node v u next opt, n, a, g =>
      let s := v.finds a g
      max (if u.any Frame.pops then n + 1 + max s next.reach else 0)
        (max (markerLength next (n + 1) (s - 1) (max (s - 1) next.letterReach))
          (markerLength opt n a g))

/-- What the buffer has to hold for a zone. -/
def ZoneDef.need {Z : Type} (z : ZoneDef Z) : Nat :=
  z.pre.maxlength + max z.main.maxlength (z.main.markerLength 0 0 z.main.letterReach)

/-- Where control goes on in the block, the buffer has `k` characters at most, and where it
leaves the block, `e`. -/
def Result.Within {Z : Type} (e k : Nat) : Result Z → Prop
  | next σ | brk σ => σ.buffer.length ≤ k
  | goto _ σ | ret σ | char _ σ => σ.buffer.length ≤ e
  | overflow => False
  | going => True

namespace Result.Within

variable {e k k' : Nat} {r : Result Z}

theorem mono (h : r.Within e k) (hk : k ≤ k') : r.Within e k' := by
  cases r with
  | next σ => exact Nat.le_trans h hk
  | brk σ => exact Nat.le_trans h hk
  | goto l σ => exact h
  | ret σ => exact h
  | char c σ => exact h
  | overflow => exact h
  | going => exact h

theorem andThen {f : LexerState Z → Result Z} (h : r.Within e k) (hk : k ≤ k')
    (hf : ∀ σ : LexerState Z, σ.buffer.length ≤ k → (f σ).Within e k') :
    (r.andThen f).Within e k' := by
  cases r with
  | next σ => exact hf σ h
  | brk σ => exact Nat.le_trans h hk
  | goto l σ => exact h
  | ret σ => exact h
  | char c σ => exact h
  | overflow => exact h
  | going => exact h

theorem leave (h : r.Within e k) : r.leave.Within e k := by
  cases r <;> exact h

end Result.Within

/-- Control does not go on in the block. -/
def Result.Jumps {Z : Type} : Result Z → Prop
  | next _ => False
  | _ => True

theorem Result.jumps_andThen (r : Result Z) {f : LexerState Z → Result Z} (hf : ∀ σ, (f σ).Jumps) :
    (r.andThen f).Jumps := by
  cases r with
  | next σ => exact hf σ
  | _ => trivial

theorem Result.Jumps.andThen {r : Result Z} (h : r.Jumps) (f : LexerState Z → Result Z) :
    r.andThen f = r := by
  cases r with
  | next σ => exact h.elim
  | _ => rfl

section

variable {cap : Nat}
variable {σ : LexerState Z} {n : Nat}

theorem push_within {e k : Nat} (x : Int) (h : σ.buffer.length ≤ k) (hk : k < cap) :
    (push cap x σ).Within e (k + 1) := by
  rw [push, if_pos (Nat.lt_of_le_of_lt h hk)]
  exact Nat.succ_le_succ h

theorem pushAll_next {k : Nat} (h : σ.buffer.length ≤ k) (hk : k + n ≤ cap) :
    ∃ σ', pushAll cap n σ = .next σ' ∧ σ'.buffer.length ≤ k + n := by
  induction n generalizing σ k with
  | zero => exact ⟨σ, rfl, h⟩
  | succ n ih =>
      have hroom : σ.buffer.length < cap := by omega
      have hlength : (σ.c n :: σ.buffer).length ≤ k + 1 := Nat.succ_le_succ h
      rw [pushAll, push, if_pos hroom, Result.andThen]
      obtain ⟨σ', heq, hle⟩ := @ih { σ with buffer := σ.c n :: σ.buffer } (k + 1) hlength (by omega)
      exact ⟨σ', heq, by omega⟩

/-- What is read leaves one character less in the buffer, or the lookahead of a prepass. -/
def Reads (cap p : Nat) (read : LexerState Z → Result Z) : Prop :=
  ∀ σ, σ.buffer.length ≤ cap →
    (∃ x σ', read σ = .char x σ' ∧ σ'.buffer.length ≤ max (σ.buffer.length - 1) p) ∨
      read σ = .going

theorem readchar_reads : Reads cap 0 (readchar (Z := Z)) := by
  intro ⟨buffer, input, c, zone⟩ _
  cases buffer with
  | nil => exact .inl ⟨_, _, rfl, Nat.zero_le _⟩
  | cons x b => exact .inl ⟨x, _, rfl, Nat.le_max_left ..⟩

/-- What the buffer may hold behind `n + 1` characters if it held `l` before them, with lookahead
of `h` characters beyond that of the prepass. -/
def level (l p n h : Nat) : Nat := max (l - (n + 1)) (p + h)

theorem level_mono {l p h h' : Nat} (hle : h ≤ h') : level l p n h ≤ level l p n h' := by
  rw [level, level]
  omega

variable {α β : Type} {e l p : Nat} {read : LexerState Z → Result Z}
  {frame : β → LexerState Z → Result Z} {outLeaf : Option α → Stmt β × Bool} {falls : Bool}

theorem run_readchar_within {m : Nat} (hread : Reads m p read) {k : Nat} (hk : k ≤ m)
    (h : σ.buffer.length ≤ k) : (run cap read frame (.readchar n) σ).Within e (max (k - 1) p) := by
  rw [run]
  obtain ⟨x, σ', hr, hle⟩ | hr := hread σ (Nat.le_trans h hk)
  · rw [hr]
    exact Nat.le_trans hle (by omega)
  · rw [hr]
    trivial

/-! ## The alternatives at a depth -/

/-- Each leaf fits where it stands: `fits` of its depth and of what is found there in the
buffer beyond the lookahead of the prepass. -/
def Trie.LeavesFit (falls : Bool) (fits : Nat → Nat → α → Prop) : Trie α → Nat → Nat → Nat → Prop
  | nil, _, _, _ => True
  | node v u next opt, n, a, g =>
      let s := v.finds a g
      let g' := max (s - 1) next.letterReach
      (∀ x, u = some x → fits n (max s next.reach) x) ∧
        LeavesFit falls fits next (n + 1) (if falls then g' else s - 1) g' ∧
        LeavesFit falls fits opt n a g

@[simp] theorem Trie.reach_node {v : Value} {u : Option α} {next opt : Trie α} :
    (node v u next opt).reach = (node v u next opt).maxlength + 1 := rfl

theorem Trie.letterReach_le (t : Trie α) : t.letterReach ≤ t.maxlength := by
  induction t with
  | nil => exact Nat.le_refl 0
  | node v u next opt _ ih =>
      have hopt : opt.maxlength ≤ (node v u next opt).maxlength := maxlength_opt
      cases v with
      | group neg g => exact Nat.le_trans ih hopt
      | char c =>
          refine Nat.max_le.2 ⟨?_, Nat.le_trans ih hopt⟩
          cases next with
          | nil => exact Nat.zero_le _
          | node v' u' next' opt' => exact maxlength_next rfl

theorem Trie.reach_le {v : Value} {u : Option α} {next opt : Trie α} :
    next.reach ≤ (node v u next opt).maxlength := by
  cases next with
  | nil => exact Nat.zero_le _
  | node v' u' next' opt' => exact maxlength_next rfl

/-- What is proved of the alternatives at a depth: the letters may find `a` characters and leave
`g`, which the groups may find. -/
structure AlternativesWithin (cap e l p : Nat) (read : LexerState Z → Result Z)
    (frame : β → LexerState Z → Result Z) (outLeaf : Option α → Stmt β × Bool) (falls : Bool)
    (t : Trie α) (n a g : Nat) : Prop where
  enter (x : Int) {σ : LexerState Z} (h : σ.buffer.length ≤ level l p n a) :
    (runCase cap read frame (alternatives outLeaf t n).cases x σ).Within e (level l p n g)
  fall {σ : LexerState Z} (hfalls : falls = true) (h : σ.buffer.length ≤ level l p n a) :
    (run cap read frame (alternatives outLeaf t n).cases σ).Within e (level l p n g)
  single {σ : LexerState Z} (h : σ.buffer.length ≤ level l p n a) :
    (run cap read frame (alternatives outLeaf t n).single σ).Within e (level l p n g)
  groups {σ : LexerState Z} (h : σ.buffer.length ≤ level l p n g) :
    (run cap read frame (alternatives outLeaf t n).groups σ).Within e
      (level l p n (max g t.maxlength))

/-- What the code of the alternatives needs of the code of a leaf: only where it may fall through
it goes on. -/
structure LeafRun (cap : Nat) (read : LexerState Z → Result Z)
    (frame : β → LexerState Z → Result Z) (outLeaf : Option α → Stmt β × Bool)
    (falls : Bool) : Prop where
  none_eq : (outLeaf none).1 = .skip
  jumps (hfalls : falls = false) {u : Option α} (hu : (outLeaf u).2 = true) (σ : LexerState Z) :
    (run cap read frame (outLeaf u).1 σ).Jumps

theorem AlternativesWithin.letters {t : Trie α}
    (ht : AlternativesWithin cap e l p read frame outLeaf falls t n a g) (hag : a ≤ g)
    (h : σ.buffer.length ≤ level l p n a) :
    (run cap read frame ((alternatives outLeaf t n).outCharLetters n) σ).Within e
      (level l p n g) := by
  rw [Alternatives.outCharLetters]
  split
  · rw [run]
    exact Nat.le_trans h (level_mono hag)
  · exact ht.single h
  · rw [run]
    exact (ht.enter _ h).leave

/-- What follows an alternative reads a character, and puts it back if nothing fits. -/
theorem outPass_within (hread : Reads cap p read) (hl : l ≤ cap + 1) {t : Trie α} {s : Nat}
    (ha : a ≤ max (s - 1) t.letterReach) (has : s - 1 ≤ a)
    (ht : AlternativesWithin cap e l p read frame outLeaf falls t (n + 1) a
      (max (s - 1) t.letterReach)) (hcap : p + max s (t.maxlength + 1) ≤ cap)
    (h : σ.buffer.length ≤ level l p n s) :
    (run cap read frame ((alternatives outLeaf t (n + 1)).outPass (n + 1)) σ).Within e
      (level l p n (max s (t.maxlength + 1))) := by
  have hletter := t.letterReach_le
  have hk : level l p n s ≤ cap := by
    rw [level]
    omega
  have hchar : max (level l p n s - 1) p ≤ level l p (n + 1) a := by
    rw [level, level]
    omega
  have hback : level l p (n + 1) (max (max (s - 1) t.letterReach) t.maxlength) + 1 ≤
      level l p n (max s (t.maxlength + 1)) := by
    rw [level, level]
    omega
  have hroom : level l p (n + 1) (max (max (s - 1) t.letterReach) t.maxlength) < cap := by
    rw [level]
    omega
  have hmono : level l p (n + 1) a ≤ level l p n (max s (t.maxlength + 1)) := by
    rw [level, level]
    omega
  rw [Alternatives.outPass, run]
  refine (run_readchar_within hread hk h).andThen (Nat.le_trans hchar hmono) fun σ hσ => ?_
  rw [run, run]
  have hletters := ht.letters ha (Nat.le_trans hσ hchar)
  have hgroups := hletters.andThen (level_mono (Nat.le_max_left _ t.maxlength))
    fun σ hσ => ht.groups hσ
  refine hgroups.andThen (Nat.le_trans (Nat.le_succ _) hback) fun σ hσ => ?_
  rw [run]
  exact (push_within (σ.c (n + 1)) hσ hroom).mono hback

/-- The block of an alternative: what follows it, then its leaf. -/
theorem block_within (hread : Reads cap p read) (hl : l ≤ cap + 1)
    (hleaf : LeafRun cap read frame outLeaf falls) {u : Option α} {next : Trie α} {s : Nat}
    (ha : a ≤ max (s - 1) next.letterReach) (has : s - 1 ≤ a)
    (hnext : p + max (max (s - 1) next.letterReach) next.maxlength ≤ cap →
      AlternativesWithin cap e l p read frame outLeaf falls next (n + 1) a
        (max (s - 1) next.letterReach))
    (hfit : ∀ x, u = some x → ∀ σ, σ.buffer.length ≤ level l p n (max s next.reach) →
      (run cap read frame (outLeaf (some x)).1 σ).Within e (level l p n (max s next.reach)))
    (hg : max s next.reach ≤ g) (hcap : p + g ≤ cap) (h : σ.buffer.length ≤ level l p n s) :
    (run cap read frame (outBlock outLeaf u next n) σ).Within e (level l p n g) := by
  have hafter : ∀ σ, σ.buffer.length ≤ level l p n (max s next.reach) →
      (run cap read frame (outLeaf u).1 σ).Within e (level l p n g) := by
    intro σ hσ
    cases u with
    | none =>
        rw [hleaf.none_eq, run]
        exact Nat.le_trans hσ (level_mono hg)
    | some x => exact (hfit x rfl σ hσ).mono (level_mono hg)
  rw [outBlock.eq_def, run]
  cases next with
  | nil =>
      rw [run]
      exact hafter σ (Nat.le_trans h (level_mono (Nat.le_max_left ..)))
  | node v' u' next' opt' =>
      have hletter := (Trie.node v' u' next' opt').letterReach_le
      rw [Trie.reach_node] at hg
      have hpass := outPass_within (p := p) (l := l) hread hl ha has (hnext (by omega)) (by omega) h
      exact hpass.andThen (level_mono hg) hafter

/-- A leaf whose value does not make the buffer overflow. -/
def Fits (cap e l p : Nat) (read : LexerState Z → Result Z) (frame : β → LexerState Z → Result Z)
    (outLeaf : Option α → Stmt β × Bool) (n h : Nat) (x : α) : Prop :=
  ∀ σ, σ.buffer.length ≤ level l p n h →
    (run cap read frame (outLeaf (some x)).1 σ).Within e (level l p n h)

theorem alternativesWithin (hread : Reads cap p read) (hl : l ≤ cap + 1)
    (hleaf : LeafRun cap read frame outLeaf falls) (t : Trie α) :
    ∀ {n a g : Nat}, a ≤ g → (falls = true → a = g) → t.letterReach ≤ g →
      p + max g t.maxlength ≤ cap →
      t.LeavesFit falls (Fits cap e l p read frame outLeaf) n a g →
      AlternativesWithin cap e l p read frame outLeaf falls t n a g := by
  induction t with
  | nil =>
      intro n a g hag _ _ _ _
      have hskip : ∀ σ : LexerState Z, σ.buffer.length ≤ level l p n a →
          σ.buffer.length ≤ level l p n g := fun _ h => Nat.le_trans h (level_mono hag)
      refine ⟨fun x σ h => ?_, fun {σ} _ h => ?_, fun {σ} h => ?_, fun {σ} h => ?_⟩
      · exact hskip σ h
      · rw [alternatives, run]
        exact hskip σ h
      · rw [alternatives, run]
        exact hskip σ h
      · rw [alternatives, run]
        exact Nat.le_trans h (level_mono (Nat.le_max_left ..))
  | node v u next opt ihnext ihopt =>
      intro n a g hag hfalls hreach hcap ⟨hfit, hnext, hopt⟩
      have hoptle : opt.maxlength ≤ (Trie.node v u next opt).maxlength := Trie.maxlength_opt
      have hreachle : next.reach ≤ (Trie.node v u next opt).maxlength := Trie.reach_le
      have hnextle : next.maxlength ≤ next.reach := by
        cases next with
        | nil => exact Nat.le_refl 0
        | node v' u' next' opt' => exact Nat.le_succ _
      have hbelow : ∀ s, s ≤ g → next.LeavesFit falls (Fits cap e l p read frame outLeaf) (n + 1)
          (if falls then max (s - 1) next.letterReach else s - 1) (max (s - 1) next.letterReach) →
          ∃ a', a' ≤ max (s - 1) next.letterReach ∧ s - 1 ≤ a' ∧
            (p + max (max (s - 1) next.letterReach) next.maxlength ≤ cap →
              AlternativesWithin cap e l p read frame outLeaf falls next (n + 1) a'
                (max (s - 1) next.letterReach)) := by
        intro s _ hfits
        refine ⟨_, ?_, ?_, fun hroom => ihnext ?_ ?_ (Nat.le_max_right ..) hroom hfits⟩
        · split <;> omega
        · split <;> omega
        · split <;> omega
        · intro htrue
          rw [if_pos htrue]
      cases v with
      | group neg gr =>
          obtain ⟨a', ha', has', hrun⟩ := hbelow g (Nat.le_refl g) hnext
          have ht := ihopt hag hfalls hreach (by omega) hopt
          refine ⟨?_, ?_, ?_, fun {σ} h => ?_⟩
          · intro x σ h
            rw [alternatives_group]
            exact ht.enter x h
          · intro σ hf h
            rw [alternatives_group]
            exact ht.fall hf h
          · intro σ h
            rw [alternatives_group]
            exact ht.single h
          · rw [alternatives_group, run]
            split
            · exact block_within hread hl hleaf ha' has' hrun hfit (by omega) hcap h
            · exact (ht.groups h).mono (level_mono (by omega))
      | char c =>
          rw [Trie.letterReach] at hreach
          obtain ⟨a', ha', has', hrun⟩ := hbelow a hag hnext
          have ht := ihopt hag hfalls (by omega) (by omega) hopt
          have hblock : ∀ σ, σ.buffer.length ≤ level l p n a →
              (run cap read frame (outBlock outLeaf u next n) σ).Within e (level l p n g) :=
            fun σ h => block_within hread hl hleaf ha' has' hrun hfit (by omega) (by omega) h
          have hcase : ∀ σ, σ.buffer.length ≤ level l p n a →
              ((run cap read frame (if (outLeaf u).2 then outBlock outLeaf u next n
                else .seq (outBlock outLeaf u next n) .brk) σ).andThen
                  (run cap read frame (alternatives outLeaf opt n).cases)).Within e
                (level l p n g) := by
            intro σ h
            split
            next hu =>
              cases falls with
              | false =>
                  have hjumps : (run cap read frame (outBlock outLeaf u next n) σ).Jumps := by
                    rw [outBlock.eq_def, run]
                    exact Result.jumps_andThen _ (hleaf.jumps rfl hu)
                  rw [hjumps.andThen]
                  exact hblock σ h
              | true =>
                  refine (hblock σ h).andThen (Nat.le_refl _) fun σ hσ => ?_
                  rw [hfalls rfl] at ht
                  exact ht.fall rfl hσ
            next =>
              have hbrk : ∀ σ : LexerState Z, (run cap read frame .brk σ).Jumps := by
                intro σ
                rw [run]
                trivial
              rw [run, (Result.jumps_andThen _ hbrk).andThen]
              refine (hblock σ h).andThen (Nat.le_refl _) fun σ hσ => ?_
              rw [run]
              exact hσ
          refine ⟨fun x {σ} h => ?_, fun {σ} hf h => ?_, fun {σ} h => ?_, fun {σ} h => ?_⟩
          · rw [alternatives_char, runCase]
            split
            · exact hcase σ h
            · exact ht.enter x h
          · rw [alternatives_char, run]
            exact hcase σ h
          · rw [alternatives_char, run]
            split
            · exact hblock σ h
            · exact Nat.le_trans h (level_mono hag)
          · rw [alternatives_char]
            exact (ht.groups h).mono (level_mono (by omega))

/-- The alternatives at the first character. -/
theorem outFirst_within {t : Trie α} (ha : a ≤ t.letterReach)
    (ht : AlternativesWithin cap e l p read frame outLeaf falls t 0 a t.letterReach)
    (h : σ.buffer.length ≤ level l p 0 a) :
    (run cap read frame (outFirst outLeaf t) σ).Within e (level l p 0 t.maxlength) := by
  have hgroups : ∀ σ : LexerState Z, σ.buffer.length ≤ level l p 0 t.letterReach →
      (run cap read frame (alternatives outLeaf t 0).groups σ).Within e
        (level l p 0 t.maxlength) := by
    intro σ hσ
    have h := ht.groups hσ
    rwa [Nat.max_eq_right t.letterReach_le] at h
  rw [outFirst, run]
  exact (ht.letters ha h).andThen (level_mono t.letterReach_le) hgroups

/-! ## A prepass -/

theorem Trie.leavesFit_of_le {fits : Nat → Nat → α → Prop} {k : Nat}
    (hfits : ∀ n h x, h ≤ k → fits n h x) (t : Trie α) (hag : a ≤ g) (hk : max g t.maxlength ≤ k) :
    t.LeavesFit falls fits n a g := by
  induction t generalizing n a g with
  | nil => trivial
  | node v u next opt ihnext ihopt =>
      have hopt : opt.maxlength ≤ (node v u next opt).maxlength := maxlength_opt
      have hreach : next.reach ≤ (node v u next opt).maxlength := reach_le
      have hletter := next.letterReach_le
      have hnext : next.maxlength ≤ next.reach := by
        cases next with
        | nil => exact Nat.le_refl 0
        | node v' u' next' opt' => exact Nat.le_succ _
      have hfinds := v.finds_le hag
      refine ⟨fun x _ => hfits _ _ x (by omega), ihnext ?_ (by omega), ihopt hag (by omega)⟩
      split <;> omega

theorem leafRun_pre {read : LexerState Z → Result Z} {frame : Unit → LexerState Z → Result Z} :
    LeafRun cap read frame outLeafPre true :=
  ⟨rfl, fun hfalls => absurd hfalls (by decide)⟩

theorem mapping_within {frame : Unit → LexerState Z → Result Z} {k : Nat} (hk : k ≤ e) (m : Mapping)
    (h : σ.buffer.length ≤ k) : (run cap read frame (outLeafPre (some m)).1 σ).Within e k := by
  rw [outLeafPre, outMapping]
  split
  · rw [run]
    exact Nat.le_trans h hk
  · rw [run, run, Result.andThen, run]
    exact Nat.le_trans h hk

theorem prepassRestart_within {frame : Unit → LexerState Z → Result Z} (hpre : pre.maxlength ≤ e)
    (he : e ≤ cap) (h : σ.buffer.length ≤ e) :
    (run cap readchar frame (outZonePrepassRestart pre) σ).Within e e := by
  have hlevel : ∀ n k, k ≤ e → level (e + 1) 0 n k ≤ e := by
    intro n k hk
    rw [level]
    omega
  have hstart : e ≤ level (e + 1) 0 0 pre.letterReach := by
    rw [level]
    omega
  have hletter := pre.letterReach_le
  have hfit : pre.LeavesFit true (Fits cap e (e + 1) 0 readchar frame outLeafPre) 0
      pre.letterReach pre.letterReach :=
    Trie.leavesFit_of_le (fun n k x hk σ hσ => mapping_within (hlevel n k hk) x hσ) pre
      (Nat.le_refl _) (by omega)
  have ht := alternativesWithin readchar_reads (Nat.succ_le_succ he) leafRun_pre pre
    (Nat.le_refl _) (fun _ => rfl) (Nat.le_refl _) (by omega) hfit
  have hfirst := (outFirst_within (Nat.le_refl _) ht (Nat.le_trans h hstart)).mono
    (hlevel 0 _ hpre)
  rw [outZonePrepassRestart.eq_def, run]
  refine hfirst.andThen (Nat.le_refl _) fun σ hσ => ?_
  have hchar : ∀ σ : LexerState Z, σ.buffer.length ≤ e →
      (run cap readchar frame .returnChar σ).Within e e := by
    intro σ hσ
    rw [run]
    exact hσ
  rw [run]
  refine Result.Within.andThen ?_ (Nat.le_refl _) hchar
  cases pre with
  | nil =>
      rw [run]
      exact hσ
  | node v u next opt =>
      cases u with
      | none =>
          show Result.Within e e (run cap readchar frame .skip σ)
          rw [run]
          exact hσ
      | some m => exact mapping_within (Nat.le_refl e) m hσ

/-- What a call of the function for a prepass leaves in the buffer. -/
theorem callAux_reads (hpre : pre.maxlength ≤ e) (he : e ≤ cap) (fuel : Nat) {lbl : Label}
    (hstart : σ.buffer.length ≤ e + 1) (hrestart : lbl = .restart → σ.buffer.length ≤ e) :
    (∃ x σ', callAux cap pre fuel lbl σ = .char x σ' ∧ σ'.buffer.length ≤ e) ∨
      callAux cap pre fuel lbl σ = .going := by
  induction fuel generalizing lbl σ with
  | zero => exact .inr rfl
  | succ fuel ih =>
      have hrun : (run cap readchar (fun (_ : Unit) σ => .next σ) ((outZonePrepass pre).at lbl)
          σ).Within e e := by
        cases lbl with
        | restart => exact prepassRestart_within hpre he (hrestart rfl)
        | start =>
            have hread : (run cap readchar (fun (_ : Unit) σ => .next σ) (.readchar 0) σ).Within e
                (max (e + 1 - 1) 0) :=
              run_readchar_within readchar_reads (Nat.le_refl (e + 1)) hstart
            rw [Code.at, outZonePrepass, run]
            refine (hread.mono (by omega)).andThen (Nat.le_refl _) fun σ hσ => ?_
            exact prepassRestart_within hpre he hσ
      rw [callAux]
      revert hrun
      cases run cap readchar (fun (_ : Unit) σ => .next σ) ((outZonePrepass pre).at lbl) σ with
      | goto l σ' => exact fun h => ih (Nat.le_succ_of_le h) fun _ => h
      | char x σ' => exact fun h => .inl ⟨x, σ', rfl, h⟩
      | overflow => exact fun h => h.elim
      | next σ' => exact fun _ => .inr rfl
      | brk σ' => exact fun _ => .inr rfl
      | ret σ' => exact fun _ => .inr rfl
      | going => exact fun _ => .inr rfl

theorem readPass_reads (hpre : pre.maxlength ≤ cap) (fuel : Nat) :
    Reads cap pre.maxlength (readPass (Z := Z) cap pre fuel) := by
  cases pre with
  | nil => exact readchar_reads
  | node v u next opt =>
      intro σ h
      have he : max (σ.buffer.length - 1) (Trie.node v u next opt).maxlength ≤ cap := by omega
      have hstart : Label.start = .restart →
          σ.buffer.length ≤ max (σ.buffer.length - 1) (Trie.node v u next opt).maxlength :=
        fun heq => by cases heq
      exact callAux_reads (Nat.le_max_right ..) he fuel (by omega) hstart

end

/-! ## A main pass -/

theorem Trie.reach_withDepth {α : Type} (t : Trie α) (n : Nat) :
    (t.withDepth n).maxlength = t.maxlength ∧ (t.withDepth n).reach = t.reach ∧
      (t.withDepth n).letterReach = t.letterReach := by
  induction t generalizing n with
  | nil => exact ⟨rfl, rfl, rfl⟩
  | node v u next opt ihnext ihopt =>
      obtain ⟨hmax, hreach, hletter⟩ := ihopt n
      obtain ⟨hmax', hreach', hletter'⟩ := ihnext (n + 1)
      have hlength : ((node v u next opt).withDepth n).maxlength =
          (node v u next opt).maxlength := by
        cases next with
        | nil =>
            rw [withDepth, withDepth, maxlength, maxlength, hmax]
        | node v' u' next' opt' =>
            rw [withDepth, withDepth, maxlength, maxlength, hmax, ← withDepth, hmax']
      refine ⟨hlength, ?_, ?_⟩
      · rw [withDepth, reach_node, reach_node, ← hlength, withDepth]
      · cases v with
        | char c => rw [withDepth, letterReach, letterReach, hreach', hletter]
        | group neg g => rw [withDepth, letterReach, letterReach, hletter]

section

variable {cap k : Nat} (ast : LexerAst Z) {call : Z → LexerState Z → Result Z}
variable {σ : LexerState Z} {n : Nat} {f : Frame Z}

theorem tailCall_within (hcall : ∀ z σ, σ.buffer.length ≤ cap → (call z σ).Within cap cap) (z : Z)
    (h : σ.buffer.length ≤ cap) : (LexerAst.tailCall call z σ).Within cap k := by
  have hz := hcall z σ h
  rw [LexerAst.tailCall]
  cases hr : call z σ with
  | ret σ' =>
      rw [hr] at hz
      exact hz
  | overflow =>
      rw [hr] at hz
      exact hz.elim
  | _ => trivial

theorem tailCall_jumps (z : Z) (σ : LexerState Z) : (LexerAst.tailCall call z σ).Jumps := by
  rw [LexerAst.tailCall]
  cases call z σ <;> trivial

theorem setZone_within {c : Prop} [Decidable c] {z : Z} (h : σ.buffer.length ≤ k) :
    (if c then { σ with zone := z } else σ).buffer.length ≤ k := by
  split <;> exact h

/-- The commands of a frame leave the function, or its block as it was; an end marker that is put
back has to fit. -/
theorem frame_within (hcall : ∀ z σ, σ.buffer.length ≤ cap → (call z σ).Within cap cap) (parent : Z)
    (hk : k ≤ cap) (hpops : f.pops = true → k + (n + 1) ≤ cap) (h : σ.buffer.length ≤ k) :
    (ast.frame cap call parent (f, n) σ).Within cap k := by
  cases f with
  | user cmds =>
      rw [LexerAst.frame]
      split
      · exact Nat.le_trans h hk
      · exact h
  | push z =>
      rw [LexerAst.frame]
      have hσ := Nat.le_trans
        (setZone_within (c := (ast.zone z).kind = .general) (z := z) h) hk
      revert hσ
      generalize (if (ast.zone z).kind = .general then { σ with zone := z } else σ) = σ'
      intro hσ
      split
      · exact hσ
      · split
        · exact tailCall_within hcall ast.global hσ
        · exact tailCall_within hcall z hσ
        · have hz := hcall z σ' hσ
          cases hr : call z σ' with
          | ret σ'' =>
              rw [hr] at hz
              exact hz
          | overflow =>
              rw [hr] at hz
              exact hz.elim
          | _ => trivial
  | pop z closed =>
      rw [LexerAst.frame]
      have hσ := setZone_within (c := (ast.zone parent).kind = .general) (z := z) h
      revert hσ
      generalize (if (ast.zone parent).kind = .general then { σ with zone := z } else σ) = σ'
      intro hσ
      have hnext : ∃ σ'', (if closed then Result.next σ' else pushAll cap (n + 1) σ') = .next σ'' ∧
          σ''.buffer.length ≤ cap := by
        cases closed with
        | true => exact ⟨σ', rfl, Nat.le_trans hσ hk⟩
        | false =>
            obtain ⟨σ'', heq, hle⟩ := pushAll_next hσ (hpops rfl)
            exact ⟨σ'', heq, Nat.le_trans hle (hpops rfl)⟩
      obtain ⟨σ'', heq, hle⟩ := hnext
      rw [heq, Result.andThen]
      split
      · exact hle
      · split
        · exact tailCall_within hcall ast.global hle
        · exact hle
        · exact hle

/-- Where `out_cmds` says so the commands leave the block. -/
theorem frame_jumps (parent : Z) (hreturns : f.returns = true) (n : Nat) (σ : LexerState Z) :
    (ast.frame cap call parent (f, n) σ).Jumps := by
  cases f with
  | user cmds =>
      obtain ⟨cmd, hmem, hcmd⟩ := List.any_eq_true.1 hreturns
      rw [of_decide_eq_true hcmd] at hmem
      rw [LexerAst.frame, if_pos (List.any_eq_true.2 ⟨.ret, hmem, rfl⟩)]
      trivial
  | push z =>
      rw [LexerAst.frame]
      split
      · trivial
      · split
        · exact tailCall_jumps ..
        · exact tailCall_jumps ..
        · cases call z _ <;> trivial
  | pop z closed =>
      rw [LexerAst.frame]
      refine Result.jumps_andThen _ fun σ => ?_
      split
      · trivial
      · split
        · exact tailCall_jumps ..
        · trivial
        · trivial

variable {read : LexerState Z → Result Z}

theorem leafRun_main (parent : Z) : LeafRun cap read (ast.frame cap call parent)
    (outLeafMain fun f => f.1.returns) false := by
  refine ⟨rfl, fun _ {u} hu σ => ?_⟩
  cases u with
  | none => exact absurd hu Bool.false_ne_true
  | some f =>
      rw [outLeafMain, outFrame]
      split
      next hreturns =>
        rw [run]
        exact frame_jumps ast parent hreturns f.2 σ
      next =>
        rw [run]
        refine Result.jumps_andThen _ fun σ => ?_
        rw [run]
        trivial

theorem leaf_within (hcall : ∀ z σ, σ.buffer.length ≤ cap → (call z σ).Within cap cap) (parent : Z)
    (hk : k ≤ cap) (hpops : f.pops = true → k + (n + 1) ≤ cap) (h : σ.buffer.length ≤ k) :
    (run cap read (ast.frame cap call parent) (outFrame (fun f => f.1.returns) (f, n)) σ).Within
      cap k := by
  have hframe := frame_within ast hcall parent hk hpops h
  rw [outFrame]
  split
  · rw [run]
    exact hframe
  · rw [run, run]
    refine hframe.andThen (Nat.le_refl k) fun σ hσ => ?_
    rw [run]
    exact Nat.le_trans hσ hk

/-- The leaves of a main pass fit if the end markers among them do. -/
theorem leavesFit_withDepth (hcall : ∀ z σ, σ.buffer.length ≤ cap → (call z σ).Within cap cap)
    (parent : Z) {p : Nat} (t : Trie (Frame Z)) (hag : a ≤ g)
    (hlength : p + max g t.maxlength ≤ cap) (hmarker : p + t.markerLength n a g ≤ cap) :
    (t.withDepth n).LeavesFit false
      (Fits cap cap cap p read (ast.frame cap call parent) (outLeafMain fun f => f.1.returns))
      n a g := by
  induction t generalizing n a g with
  | nil => trivial
  | node v u next opt ihnext ihopt =>
      have hopt : opt.maxlength ≤ (Trie.node v u next opt).maxlength := Trie.maxlength_opt
      have hreach : next.reach ≤ (Trie.node v u next opt).maxlength := Trie.reach_le
      have hletter := next.letterReach_le
      have hnext : next.maxlength ≤ next.reach := by
        cases next with
        | nil => exact Nat.le_refl 0
        | node v' u' next' opt' => exact Nat.le_succ _
      have hfinds := v.finds_le hag
      have hdepth := next.reach_withDepth (n + 1)
      rw [Trie.markerLength] at hmarker
      refine ⟨?_, ?_, ihopt hag (by omega) (by omega)⟩
      · intro f hf σ hσ
        obtain ⟨x, hx, rfl⟩ := Option.map_eq_some_iff.1 hf
        rw [hx] at hmarker
        rw [hdepth.2.1] at hσ ⊢
        refine leaf_within ast hcall parent ?_ (fun hpops => ?_) hσ
        · rw [level]
          omega
        · rw [Option.any_some, if_pos hpops] at hmarker
          rw [level]
          omega
      · rw [hdepth.2.2, if_neg Bool.false_ne_true]
        exact ihnext (Nat.le_max_left ..) (by omega) (by omega)

/-- The white characters are skipped, or the one that was read is left to the trie. -/
theorem outWhite_within {β : Type} {frame : β → LexerState Z → Result Z} (hk : k ≤ cap)
    (g : Option Group) (h : σ.buffer.length ≤ k) :
    (run cap read frame (outWhite g) σ).Within cap k := by
  have hskip : (run cap read frame .skip σ).Within cap k := by
    rw [run]
    exact h
  cases g with
  | none => exact hskip
  | some g =>
      rw [outWhite]
      split
      · exact hskip
      · rw [run]
        split
        · rw [run]
          exact Nat.le_trans h hk
        · exact hskip

/-- The characters at the start of a token, in a main pass. -/
theorem first_within (hcall : ∀ z σ, σ.buffer.length ≤ cap → (call z σ).Within cap cap) (parent : Z)
    {p : Nat} (hread : Reads cap p read) {t : Trie (Frame Z)} (hlength : p + t.maxlength ≤ cap)
    (hmarker : p + t.markerLength 0 0 t.letterReach ≤ cap) (white : Option Group)
    (h : σ.buffer.length ≤ cap) :
    (run cap read (ast.frame cap call parent) (.seq (.readchar 0) (.seq (outWhite white)
      (outFirst (outLeafMain fun f => f.1.returns) (t.withDepth 0)))) σ).Within cap cap := by
  have ⟨hmax, _, hletter⟩ := t.reach_withDepth 0
  have hreach := t.letterReach_le
  have hfits : (t.withDepth 0).LeavesFit false (Fits cap cap cap p read
      (ast.frame cap call parent) (outLeafMain fun f => f.1.returns)) 0 0 t.letterReach :=
    leavesFit_withDepth ast hcall parent t (Nat.zero_le _) (by omega) hmarker
  rw [← hletter] at hfits
  have ht := alternativesWithin hread (Nat.le_succ cap) (leafRun_main ast parent) _ (Nat.zero_le _)
    (fun hfalls => absurd hfalls Bool.false_ne_true) (Nat.le_refl _) (by omega) hfits
  have hlevel : level cap p 0 t.maxlength ≤ cap := by
    rw [level]
    omega
  have hstart : max (cap - 1) p ≤ level cap p 0 0 := Nat.le_refl _
  have hzero : level cap p 0 0 ≤ cap := by
    rw [level]
    omega
  rw [run]
  refine ((run_readchar_within hread (Nat.le_refl cap) h).mono hstart).andThen hzero
    fun σ hσ => ?_
  rw [run]
  refine (outWhite_within hzero white hσ).andThen hzero fun σ hσ => ?_
  have hfirst := outFirst_within (Nat.zero_le _) ht hσ
  rw [hmax] at hfirst
  exact hfirst.mono hlevel

/-- The function for a zone, with enough room for it. -/
theorem code_within (hcall : ∀ z σ, σ.buffer.length ≤ cap → (call z σ).Within cap cap) (z : Z)
    (hneed : (ast.zone z).need ≤ cap) (hread : Reads cap (ast.zone z).pre.maxlength read)
    (h : σ.buffer.length ≤ cap) :
    (run cap read (ast.frame cap call z) (ast.zone z).code.start σ).Within cap cap := by
  rw [ZoneDef.need] at hneed
  rw [ZoneDef.code, outZonePass.eq_def, run]
  refine Result.Within.andThen ?_ (Nat.le_refl cap) fun σ hσ => ?_
  · have hfirst := first_within ast hcall z (t := (ast.zone z).main) hread (by omega) (by omega)
      (findGroup (ast.zone z).groups whiteName) h
    revert hfirst
    cases (ast.zone z).main with
    | nil =>
        intro _
        show Result.Within cap cap (run cap read (ast.frame cap call z) .skip σ)
        rw [run]
        exact h
    | node v u next opt => exact id
  · cases (ast.zone z).default with
    | none =>
        show Result.Within cap cap (run cap read (ast.frame cap call z) .returnUnknown σ)
        rw [run]
        exact hσ
    | some cmds => exact leaf_within ast hcall z (Nat.le_refl cap) (fun hpops => by cases hpops) hσ

variable [DecidableEq Z]

theorem call_within {cap : Nat} (hneed : ∀ z, (ast.zone z).need ≤ cap) (fuel : Nat) :
    ∀ (entered : Bool) (z : Z) (σ : LexerState Z), σ.buffer.length ≤ cap →
      (ast.call cap fuel entered z σ).Within cap cap := by
  induction fuel with
  | zero => exact fun _ _ _ _ => trivial
  | succ fuel ih =>
      intro entered z σ h
      rw [LexerAst.call]
      split
      · exact ih true _ σ h
      · have hpre : (ast.zone z).pre.maxlength ≤ cap := Nat.le_trans (Nat.le_add_right ..) (hneed z)
        have hcode := code_within ast (fun z σ hσ => ih false z σ hσ) z (hneed z)
          (readPass_reads hpre fuel) h
        split
        next l σ' hr =>
          rw [hr] at hcode
          exact ih true z σ' hcode
        next => exact hcode

theorem calls_within (hneed : ∀ z, (ast.zone z).need ≤ ast.bufferLength) (fuel n : Nat)
    (h : σ.buffer.length ≤ ast.bufferLength) :
    (ast.calls fuel n σ).Within ast.bufferLength ast.bufferLength := by
  induction n generalizing σ with
  | zero => exact h
  | succ n ih =>
      have hcall := call_within ast hneed fuel false ast.global σ h
      rw [LexerAst.calls]
      split
      next σ' hr =>
        rw [hr] at hcall
        exact ih hcall
      next => exact hcall

end

/-! ## Where there is no buffer -/

section

variable {α β : Type} {pops : β → Bool} {outLeaf : Option α → Stmt β × Bool} {falls : Bool}

/-- What is written for a trie without lookahead has no push but those of its leaves. -/
theorem alternatives_pushes (hnone : (outLeaf none).1.pushes pops = false) (t : Trie α)
    (hlength : t.maxlength = 0)
    (hleaves : t.LeavesFit falls (fun _ _ x => (outLeaf (some x)).1.pushes pops = false) n a g) :
    (alternatives outLeaf t n).single.pushes pops = false ∧
      (alternatives outLeaf t n).cases.pushes pops = false ∧
      (alternatives outLeaf t n).groups.pushes pops = false := by
  induction t with
  | nil => exact ⟨rfl, rfl, rfl⟩
  | node v u next opt _ ihopt =>
      obtain ⟨hleaf, -, hopt⟩ := hleaves
      have hopt' : opt.maxlength ≤ (Trie.node v u next opt).maxlength := Trie.maxlength_opt
      have hreach : next.reach ≤ (Trie.node v u next opt).maxlength := Trie.reach_le
      obtain ⟨hsingle, hcases, hgroups⟩ := ihopt (by omega) hopt
      have hu : (outLeaf u).1.pushes pops = false := by
        cases u with
        | none => exact hnone
        | some x => exact hleaf x rfl
      have hblock : (outBlock outLeaf u next n).pushes pops = false := by
        cases next with
        | nil => simp [outBlock.eq_def, Stmt.pushes, hu]
        | node v' u' next' opt' =>
            rw [Trie.reach_node] at hreach
            omega
      cases v with
      | group neg gr =>
          rw [alternatives_group]
          refine ⟨hsingle, hcases, ?_⟩
          simp [Stmt.pushes, hblock, hgroups]
      | char c =>
          rw [alternatives_char]
          refine ⟨by simp [Stmt.pushes, hblock], ?_, hgroups⟩
          cases hsnd : (outLeaf u).2 <;> simp [Stmt.pushes, hblock, hcases]

theorem outFirst_pushes (hnone : (outLeaf none).1.pushes pops = false) {t : Trie α}
    (hlength : t.maxlength = 0)
    (hleaves : t.LeavesFit falls (fun _ _ x => (outLeaf (some x)).1.pushes pops = false) 0 a g) :
    (outFirst outLeaf t).pushes pops = false := by
  obtain ⟨hsingle, hcases, hgroups⟩ := alternatives_pushes hnone t hlength hleaves
  have hletters : ((alternatives outLeaf t 0).outCharLetters 0).pushes pops = false := by
    rw [Alternatives.outCharLetters]
    split
    · rfl
    · exact hsingle
    · exact hcases
  rw [outFirst, Stmt.pushes, hletters, hgroups]
  rfl

end

theorem outFrame_pushes {f : Frame Z × Nat} (h : f.1.pops = false) :
    (outFrame (fun f => f.1.returns) f).pushes (fun f : Frame Z × Nat => f.1.pops) = false := by
  rw [outFrame]
  split <;> simp [Stmt.pushes, h]

theorem leaves_of_markerLength (t : Trie (Frame Z)) (h : t.markerLength n a g = 0) :
    (t.withDepth n).LeavesFit false (fun _ _ x => (outLeafMain (fun f => f.1.returns)
      (some x)).1.pushes (fun f : Frame Z × Nat => f.1.pops) = false) n a g := by
  induction t generalizing n a g with
  | nil => trivial
  | node v u next opt ihnext ihopt =>
      have hdepth := next.reach_withDepth (n + 1)
      rw [Trie.markerLength, Nat.max_eq_zero_iff, Nat.max_eq_zero_iff] at h
      obtain ⟨hu, hnext, hopt⟩ := h
      refine ⟨?_, ?_, ihopt hopt⟩
      · intro f hf
        obtain ⟨x, hx, rfl⟩ := Option.map_eq_some_iff.1 hf
        rw [hx, Option.any_some] at hu
        refine outFrame_pushes ?_
        by_contra hpops
        rw [if_pos (by simpa using hpops)] at hu
        omega
      · rw [hdepth.2.2, if_neg Bool.false_ne_true]
        exact ihnext hnext

theorem outMapping_pushes {β : Type} {pops : β → Bool} (m : Mapping) :
    (outMapping m : Stmt β).pushes pops = false := by
  rw [outMapping]
  split <;> rfl

/-- A zone whose functions have a call of `lexi_push` needs a buffer. -/
theorem need_pos {z : ZoneDef Z} (h : z.pushes = true) : 0 < z.need := by
  by_contra hneed
  rw [ZoneDef.need] at hneed
  have hpre : z.pre.maxlength = 0 := by omega
  have hmain : z.main.maxlength = 0 := by omega
  have hmarker : z.main.markerLength 0 0 z.main.letterReach = 0 := by omega
  have hfirst : (outFirst (outLeafMain fun f => f.1.returns) (z.main.withDepth 0)).pushes
      (fun f : Frame Z × Nat => f.1.pops) = false :=
    outFirst_pushes rfl ((z.main.reach_withDepth 0).1.trans hmain)
      (leaves_of_markerLength z.main hmarker)
  have hleaves : z.pre.LeavesFit true
      (fun _ _ m => (outLeafPre (some m)).1.pushes (fun _ : Unit => false) = false) 0 0 0 :=
    Trie.leavesFit_of_le (k := 0) (fun _ _ m _ => outMapping_pushes m) z.pre (Nat.le_refl 0)
      (by omega)
  have hprefirst : (outFirst outLeafPre z.pre).pushes (fun _ : Unit => false) = false :=
    outFirst_pushes rfl hpre hleaves
  have hwhite : (outWhite (findGroup z.groups whiteName)).pushes
      (fun f : Frame Z × Nat => f.1.pops) = false := by
    rw [outWhite.eq_def]
    split
    · rfl
    · split <;> rfl
  have hcode : z.code.start.pushes (fun f => f.1.pops) = false := by
    rw [ZoneDef.code, outZonePass.eq_def, Stmt.pushes, Bool.or_eq_false_iff]
    constructor
    · cases hm : z.main with
      | nil => rfl
      | node v u next opt =>
          rw [hm] at hfirst
          simp [Trie.withDepth, Stmt.pushes, hwhite] at hfirst ⊢
          exact hfirst
    · cases z.default with
      | none => rfl
      | some cmds => exact outFrame_pushes rfl
  rw [ZoneDef.pushes, hcode] at h
  cases hp : z.pre with
  | nil => simp [hp] at h
  | node v u next opt =>
      rw [hp] at hprefirst
      cases u with
      | none =>
          simp [hp, outZonePrepass, outZonePrepassRestart.eq_def, Stmt.pushes, hprefirst,
            outLeafPre] at h
      | some m =>
          simp [hp, outZonePrepass, outZonePrepassRestart.eq_def, Stmt.pushes, hprefirst,
            outLeafPre, outMapping_pushes] at h

/-! ## Every run -/

section

variable [DecidableEq Z]

/-- No run of the lexer calls `lexi_push` without room for a character, and none of its functions
calls it if it has not been written. -/
def LexerAst.Safe (ast : LexerAst Z) : Prop :=
  (∀ (fuel n : Nat) (input : Stream' Int) (c : Nat → Int),
    ast.calls fuel n (ast.init input c) ≠ .overflow) ∧
  ∀ z, (ast.zone z).pushes = true → 0 < ast.bufferLength

/-- With room for what each zone needs, the buffer does not overflow. -/
theorem safe_of_need (ast : LexerAst Z) (hneed : ∀ z, (ast.zone z).need ≤ ast.bufferLength) :
    ast.Safe := by
  refine ⟨fun fuel n input c hover => ?_, fun z hpushes => ?_⟩
  · have hcalls : (ast.calls fuel n (ast.init input c)).Within ast.bufferLength ast.bufferLength :=
      calls_within ast hneed fuel n (Nat.zero_le _)
    rw [hover] at hcalls
    exact hcalls
  · exact Nat.lt_of_lt_of_le (need_pos hpushes) (hneed z)

/-- A zone between round brackets, which is entered from the global one. -/
def bracketZones (closed : Bool) (ident : Trie (Frame Bool)) : LexerAst Bool where
  zone
    | false => {
        kind := .pure, pre := .nil, groups := [], default := none, enter := [], exit := []
        main := .node (.char 0x28) (some (.push true)) .nil ident }
    | true => {
        kind := .pure, pre := .nil, groups := [], default := none, enter := [], exit := []
        main := .node (.char 0x29) (some (.pop false closed)) .nil ident }
  global := false
  next := .zone true .nil .nil
  mem
    | false => .inl rfl
    | true => .inr (.inl rfl)

/-- The token `ab`. -/
def abToken : Trie (Frame Bool) :=
  .node (.char 0x61) none (.node (.char 0x62) (some (.user [.ret])) .nil .nil) .nil

theorem safe_brackets : (bracketZones false abToken).Safe :=
  safe_of_need _ (by decide)

theorem not_safe : ¬ ∀ ast : LexerAst Bool, ast.Safe := fun h =>
  (h (bracketZones false .nil)).1 3 1 (Stream'.cons 0x28 (Stream'.const 0x29)) (fun _ => 0) rfl

end

end Tendra.Ref.Lexi
