import Mathlib.Data.Fin.Basic
import Mathlib.Data.List.Nodup
import Tendra.Lib.LeftRec
import Tendra.Ref.Sid.Lre

/-!
# Left recursion elimination keeps the language, or does not

The matrix of suffixes has a row for each rule of the cycle that an alternative may
start with. `rule_left_cycle_general_case_4` reads its first row only: the rule that
continues from `A j` gets the suffixes by which the rules of the cycle continue from
the first one. The outcome is the intended grammar exactly if all rows are the same,
which a cycle of a single rule cannot miss.
-/

namespace Tendra.Ref.Sid

open Tendra.Cfg

variable {T : Nat}
variable {cycle : List Nat} {n size j r rule : Nat} {alt : Alt T} {g g' : Grammar T}

/-! ## The split of the alternatives -/

/-- The place in the cycle of the rule that an alternative starts with, and the rest. -/
def recSuffix (cycle : List Nat) (alt : Alt T) : Option (Nat × Alt T) :=
  match alt with
  | ⟨.rule r, _, _⟩ :: rest => if r ∈ cycle then some (cycle.idxOf r, rest) else none
  | _ => none

theorem split_alt_some {rest : Alt T} (h : recSuffix cycle alt = some (j, rest)) (i : Nat)
    (s : Split T) : Split.alt cycle i s alt = s.addMatrix (cycle.length * j + i) rest := by
  unfold recSuffix at h
  split at h
  · next r _ _ rest' =>
      split at h
      · next hr =>
          rw [Option.some.injEq, Prod.mk.injEq] at h
          simp [Split.alt, cycleIndex, hr, h.1, h.2]
      · cases h
  · cases h

theorem split_alt_none (h : recSuffix cycle alt = none) (i : Nat) (s : Split T) :
    Split.alt cycle i s alt = s.addVector i alt := by
  unfold Split.alt
  split
  · next r _ _ rest =>
      have hr : r ∉ cycle := by
        intro hr
        simp [recSuffix, hr] at h
      simp [cycleIndex, hr]
  · rfl

/-- What the split of the alternatives `alts` of the `i`-th rule adds. -/
theorem split_alts (cycle : List Nat) (i : Nat) (alts : List (Alt T)) (s : Split T) :
    (∀ m B, B ∈ (alts.foldl (Split.alt cycle i) s).matrix m ↔ B ∈ s.matrix m ∨
      ∃ alt ∈ alts, ∃ j, recSuffix cycle alt = some (j, B) ∧ m = cycle.length * j + i) ∧
    (∀ m alt, alt ∈ (alts.foldl (Split.alt cycle i) s).vector m ↔ alt ∈ s.vector m ∨
      m = i ∧ alt ∈ alts ∧ recSuffix cycle alt = none) ∧
    (alts.foldl (Split.alt cycle i) s).emptyAlt = s.emptyAlt := by
  induction alts generalizing s with
  | nil => simp
  | cons alt alts ih =>
      obtain ⟨hmat, hvec, hempty⟩ := ih (Split.alt cycle i s alt)
      rw [List.foldl_cons]
      cases hrec : recSuffix cycle alt with
      | none =>
          have heq : Split.alt cycle i s alt = s.addVector i alt := split_alt_none hrec i s
          refine ⟨?_, ?_, ?_⟩
          · intro m B
            rw [hmat, heq]
            simp [Split.addVector, hrec]
          · intro m a
            rw [hvec, heq]
            by_cases hm : m = i
            · subst hm
              simp only [Split.addVector, Function.update_self, List.mem_cons, true_and]
              constructor
              · rintro ((rfl | h) | h)
                · exact Or.inr ⟨Or.inl rfl, hrec⟩
                · exact Or.inl h
                · exact Or.inr ⟨Or.inr h.1, h.2⟩
              · rintro (h | ⟨rfl | h, hnone⟩)
                · exact Or.inl (Or.inr h)
                · exact Or.inl (Or.inl rfl)
                · exact Or.inr ⟨h, hnone⟩
            · simp [Split.addVector, hm]
          · rw [hempty, heq]
            rfl
      | some p =>
          obtain ⟨j, rest⟩ := p
          have heq : Split.alt cycle i s alt = s.addMatrix (cycle.length * j + i) rest :=
            split_alt_some hrec i s
          refine ⟨?_, ?_, ?_⟩
          · intro m B
            rw [hmat, heq]
            by_cases hm : m = cycle.length * j + i
            · subst hm
              simp only [Split.addMatrix, Function.update_self, List.mem_cons]
              constructor
              · rintro ((rfl | h) | ⟨a, ha, h⟩)
                · exact Or.inr ⟨alt, Or.inl rfl, j, hrec, rfl⟩
                · exact Or.inl h
                · exact Or.inr ⟨a, Or.inr ha, h⟩
              · rintro (h | ⟨a, rfl | ha, j', hj', h⟩)
                · exact Or.inl (Or.inr h)
                · rw [hrec, Option.some.injEq, Prod.mk.injEq] at hj'
                  exact Or.inl (Or.inl hj'.2.symm)
                · exact Or.inr ⟨a, ha, j', hj', h⟩
            · simp only [Split.addMatrix, Function.update_of_ne hm]
              constructor
              · rintro (h | ⟨a, ha, h⟩)
                · exact Or.inl h
                · exact Or.inr ⟨a, List.mem_cons_of_mem _ ha, h⟩
              · rintro (h | ⟨a, ha, j', hj', h⟩)
                · exact Or.inl h
                · rcases List.mem_cons.1 ha with rfl | ha
                  · rw [hrec, Option.some.injEq, Prod.mk.injEq] at hj'
                    rw [← hj'.1] at h
                    exact absurd h hm
                  · exact Or.inr ⟨a, ha, j', hj', h⟩
          · intro m a
            rw [hvec, heq]
            constructor
            · rintro (h | ⟨hm, ha, hnone⟩)
              · exact Or.inl h
              · exact Or.inr ⟨hm, List.mem_cons_of_mem _ ha, hnone⟩
            · rintro (h | ⟨hm, ha, hnone⟩)
              · exact Or.inl h
              · rcases List.mem_cons.1 ha with rfl | ha
                · rw [hrec] at hnone
                  cases hnone
                · exact Or.inr ⟨hm, ha, hnone⟩
          · rw [hempty, heq]
            rfl

/-- What the split of the `i`-th rule adds. -/
theorem split_rule (cycle : List Nat) (g : Grammar T) (s : Split T) (i r : Nat) :
    (∀ m B, B ∈ (s.rule cycle g i r).matrix m ↔ B ∈ s.matrix m ∨
      ∃ alt ∈ (g.rule r).alts, ∃ j, recSuffix cycle alt = some (j, B) ∧
        m = cycle.length * j + i) ∧
    (∀ m alt, alt ∈ (s.rule cycle g i r).vector m ↔ alt ∈ s.vector m ∨
      m = i ∧ alt ∈ (g.rule r).alts ∧ recSuffix cycle alt = none) ∧
    ∀ m, (s.rule cycle g i r).emptyAlt m = true ↔ s.emptyAlt m = true ∨
      m = i ∧ (g.rule r).hasEmptyAlt = true := by
  unfold Split.rule
  dsimp only
  split
  · next hempty =>
      obtain ⟨hmat, hvec, hemp⟩ := split_alts cycle i (g.rule r).alts
        { s with emptyAlt := Function.update s.emptyAlt i true }
      refine ⟨hmat, hvec, ?_⟩
      intro m
      rw [hemp]
      by_cases hm : m = i
      · simp [hm, hempty]
      · simp [hm]
  · next hempty =>
      obtain ⟨hmat, hvec, hemp⟩ := split_alts cycle i (g.rule r).alts s
      refine ⟨hmat, hvec, ?_⟩
      intro m
      rw [hemp]
      simp [hempty]

/-- What `rule_left_cycle_general_case_1` does with the rules of the list `l`, of which
the first has the place `k`. -/
theorem generalCase1_aux (cycle : List Nat) (l : List Nat) (hl : l.Nodup) (k : Nat) (g : Grammar T)
    (s : Split T) {s' : Split T}
    (hrun : (l.zipIdx k).foldl (generalCase1Turn cycle) (g, s) = (g', s')) :
    g'.size = g.size ∧ (∀ r, g'.rule r = if r ∈ l then (g.rule r).reinit else g.rule r) ∧
    (∀ m B, B ∈ s'.matrix m ↔ B ∈ s.matrix m ∨ ∃ r i, (r, i) ∈ l.zipIdx k ∧
      ∃ alt ∈ (g.rule r).alts, ∃ j, recSuffix cycle alt = some (j, B) ∧
        m = cycle.length * j + i) ∧
    (∀ m alt, alt ∈ s'.vector m ↔ alt ∈ s.vector m ∨ ∃ r, (r, m) ∈ l.zipIdx k ∧
      alt ∈ (g.rule r).alts ∧ recSuffix cycle alt = none) ∧
    ∀ m, s'.emptyAlt m = true ↔ s.emptyAlt m = true ∨ ∃ r, (r, m) ∈ l.zipIdx k ∧
      (g.rule r).hasEmptyAlt = true := by
  induction l generalizing k g s with
  | nil =>
      obtain ⟨rfl, rfl⟩ := Prod.mk.inj hrun
      simp
  | cons r l ih =>
      obtain ⟨hr, hl'⟩ := List.nodup_cons.1 hl
      rw [List.zipIdx_cons, List.foldl_cons] at hrun
      obtain ⟨hsize, hrule, hmat, hvec, hemp⟩ := ih hl' (k + 1) _ _ hrun
      obtain ⟨hmat1, hvec1, hemp1⟩ := split_rule cycle g s k r
      -- the rules that come later are still as they were
      have hkeep : ∀ r' i, (r', i) ∈ l.zipIdx (k + 1) →
          (g.setRule r (g.rule r).reinit).rule r' = g.rule r' := by
        intro r' i hmem
        have hne : r' ≠ r := by
          rintro rfl
          exact hr (List.fst_mem_of_mem_zipIdx hmem)
        exact Function.update_of_ne hne _ _
      refine ⟨hsize, ?_, ?_, ?_, ?_⟩
      · intro r'
        rw [hrule]
        by_cases hr' : r' = r
        · subst hr'
          rw [if_neg hr, if_pos List.mem_cons_self]
          exact Function.update_self _ _ _
        · have hset : (g.setRule r (g.rule r).reinit).rule r' = g.rule r' :=
            Function.update_of_ne hr' _ _
          rw [hset]
          simp [hr']
      · intro m B
        rw [hmat, hmat1, or_assoc]
        refine or_congr_right ?_
        constructor
        · rintro (h | ⟨r', i, hmem, h⟩)
          · exact ⟨r, k, List.mem_cons_self, h⟩
          · rw [hkeep r' i hmem] at h
            exact ⟨r', i, List.mem_cons_of_mem _ hmem, h⟩
        · rintro ⟨r', i, hmem, h⟩
          rcases List.mem_cons.1 hmem with heq | hmem
          · cases heq
            exact Or.inl h
          · rw [← hkeep r' i hmem] at h
            exact Or.inr ⟨r', i, hmem, h⟩
      · intro m alt
        rw [hvec, hvec1, or_assoc]
        refine or_congr_right ?_
        constructor
        · rintro (⟨rfl, h⟩ | ⟨r', hmem, h⟩)
          · exact ⟨r, List.mem_cons_self, h⟩
          · rw [hkeep r' m hmem] at h
            exact ⟨r', List.mem_cons_of_mem _ hmem, h⟩
        · rintro ⟨r', hmem, h⟩
          rcases List.mem_cons.1 hmem with heq | hmem
          · cases heq
            exact Or.inl ⟨rfl, h⟩
          · rw [← hkeep r' m hmem] at h
            exact Or.inr ⟨r', hmem, h⟩
      · intro m
        rw [hemp, hemp1, or_assoc]
        refine or_congr_right ?_
        constructor
        · rintro (⟨rfl, h⟩ | ⟨r', hmem, h⟩)
          · exact ⟨r, List.mem_cons_self, h⟩
          · rw [hkeep r' m hmem] at h
            exact ⟨r', List.mem_cons_of_mem _ hmem, h⟩
        · rintro ⟨r', hmem, h⟩
          rcases List.mem_cons.1 hmem with heq | hmem
          · cases heq
            exact Or.inl ⟨rfl, h⟩
          · rw [← hkeep r' m hmem] at h
            exact Or.inr ⟨r', hmem, h⟩

/-- The `k`-th rule of the cycle has the alternative `B` after the `j`-th one. -/
def Continues (cycle : List Nat) (g : Grammar T) (j k : Nat) (B : Alt T) : Prop :=
  ∃ rj rk, cycle[j]? = some rj ∧ cycle[k]? = some rk ∧
    ∃ item : Item T, item.entry = .rule rj ∧ item :: B ∈ (g.rule rk).alts

/-- The `k`-th rule of the cycle has the alternative `alt`, which is not left recursive;
the empty alternative is the empty list. -/
def Ends (cycle : List Nat) (g : Grammar T) (k : Nat) (alt : Alt T) : Prop :=
  ∃ rk, cycle[k]? = some rk ∧ (alt = [] ∧ (g.rule rk).hasEmptyAlt = true ∨
    alt ∈ (g.rule rk).alts ∧ recSuffix cycle alt = none)

theorem recSuffix_eq_some (hnd : cycle.Nodup) {B : Alt T} :
    recSuffix cycle alt = some (j, B) ↔
      ∃ r, cycle[j]? = some r ∧ ∃ item : Item T, item.entry = .rule r ∧ alt = item :: B := by
  constructor
  · intro h
    unfold recSuffix at h
    split at h
    · next r a b rest =>
        split at h
        · next hr =>
            rw [Option.some.injEq, Prod.mk.injEq] at h
            refine ⟨r, ?_, ⟨.rule r, a, b⟩, rfl, by rw [h.2]⟩
            rw [← h.1]
            exact List.getElem?_idxOf hr
        · cases h
    · cases h
  · rintro ⟨r, hr, ⟨e, a, b⟩, he, rfl⟩
    cases he
    have hmem : r ∈ cycle := List.mem_of_getElem? hr
    obtain ⟨hlt, hget⟩ := List.getElem?_eq_some_iff.1 hr
    have hidx : cycle.idxOf r = j := by
      rw [← hget]
      exact hnd.idxOf_getElem j hlt
    simp [recSuffix, hmem, hidx]

/-- `rule_left_cycle_general_case_1`. -/
theorem generalCase1_spec (hnd : cycle.Nodup) (g : Grammar T) {s : Split T}
    (h : generalCase1 cycle g = (g', s)) :
    g'.size = g.size ∧ (∀ r, g'.rule r = if r ∈ cycle then (g.rule r).reinit else g.rule r) ∧
    (∀ k < cycle.length, ∀ j B, B ∈ s.matrix (cycle.length * j + k) ↔ Continues cycle g j k B) ∧
    ∀ k alt, (alt = [] ∧ s.emptyAlt k = true ∨ alt ∈ s.vector k) ↔ Ends cycle g k alt := by
  obtain ⟨hsize, hrule, hmat, hvec, hemp⟩ := generalCase1_aux cycle cycle hnd 0 g Split.start h
  refine ⟨hsize, hrule, ?_, ?_⟩
  · intro k hk j B
    rw [hmat]
    constructor
    · rintro (h | ⟨r, i, hmem, alt, halt, j', hrec, heq⟩)
      · cases h
      · have hget := List.mk_mem_zipIdx_iff_getElem?.1 hmem
        have hi : i < cycle.length := (List.getElem?_eq_some_iff.1 hget).1
        have hj : j = j' ∧ k = i := by
          have h1 := congrArg (· / cycle.length) heq
          have h2 := congrArg (· % cycle.length) heq
          simp only [Nat.mul_add_div (by omega : 0 < cycle.length), Nat.mul_add_mod,
            Nat.div_eq_of_lt hk, Nat.div_eq_of_lt hi, Nat.mod_eq_of_lt hk, Nat.mod_eq_of_lt hi,
            Nat.add_zero] at h1 h2
          exact ⟨h1, h2⟩
        obtain ⟨rfl, rfl⟩ := hj
        obtain ⟨rj, hrj, item, hitem, rfl⟩ := (recSuffix_eq_some hnd).1 hrec
        exact ⟨rj, r, hrj, hget, item, hitem, halt⟩
    · rintro ⟨rj, rk, hrj, hrk, item, hitem, halt⟩
      exact Or.inr ⟨rk, k, List.mk_mem_zipIdx_iff_getElem?.2 hrk, _, halt, j,
        (recSuffix_eq_some hnd).2 ⟨rj, hrj, item, hitem, rfl⟩, rfl⟩
  · intro k alt
    rw [hvec, hemp]
    constructor
    · rintro (⟨rfl, h | ⟨r, hmem, h⟩⟩ | h | ⟨r, hmem, h⟩)
      · cases h
      · exact ⟨r, List.mk_mem_zipIdx_iff_getElem?.1 hmem, Or.inl ⟨rfl, h⟩⟩
      · cases h
      · exact ⟨r, List.mk_mem_zipIdx_iff_getElem?.1 hmem, Or.inr h⟩
    · rintro ⟨r, hget, ⟨rfl, h⟩ | h⟩
      · exact Or.inl ⟨rfl, Or.inr ⟨r, List.mk_mem_zipIdx_iff_getElem?.2 hget, h⟩⟩
      · exact Or.inr (Or.inr ⟨r, List.mk_mem_zipIdx_iff_getElem?.2 hget, h⟩)

/-! ## The alternatives that are added -/

/-- `g'` has the alternatives of `g`, the alternatives `A` and the empty alternatives `E`. -/
structure Adds (g g' : Grammar T) (A : Nat → Alt T → Prop) (E : Nat → Prop) : Prop where
  alts : ∀ r alt, alt ∈ (g'.rule r).alts ↔ alt ∈ (g.rule r).alts ∨ A r alt
  empty : ∀ r, (g'.rule r).hasEmptyAlt = true ↔ (g.rule r).hasEmptyAlt = true ∨ E r

/-- There are `n` rules and no others. -/
structure Sized (n : Nat) (g : Grammar T) : Prop where
  size : g.size = n
  blank : ∀ r, n ≤ r → g.rule r = ruleCreate

theorem adds_refl (g : Grammar T) : Adds g g (fun _ _ => False) fun _ => False :=
  ⟨fun _ _ => (or_iff_left id).symm, fun _ => (or_iff_left id).symm⟩

theorem Adds.trans {g'' : Grammar T} {A A' : Nat → Alt T → Prop} {E E' : Nat → Prop}
    (h : Adds g g' A E) (h' : Adds g' g'' A' E') :
    Adds g g'' (fun r alt => A r alt ∨ A' r alt) fun r => E r ∨ E' r where
  alts := fun r alt => by rw [h'.alts, h.alts, or_assoc]
  empty := fun r => by rw [h'.empty, h.empty, or_assoc]

theorem Adds.congr {A A' : Nat → Alt T → Prop} {E E' : Nat → Prop} (h : Adds g g' A E)
    (hA : ∀ r alt, A r alt ↔ A' r alt) (hE : ∀ r, E r ↔ E' r) : Adds g g' A' E' :=
  ⟨fun r alt => by rw [h.alts, hA], fun r => by rw [h.empty, hE]⟩

theorem Sized.setRule (h : Sized n g) (hr : r < n) (rule : Rule T) :
    Sized n (g.setRule r rule) where
  size := h.size
  blank := by
    intro r' hr'
    exact (Function.update_of_ne (by omega) _ _).trans (h.blank r' hr')

theorem addAlt_adds (h : Sized n g) (hr : r < n) (alt : Alt T) :
    Sized n (g.addAlt r alt) ∧
      Adds g (g.addAlt r alt) (fun r' alt' => r' = r ∧ alt' = alt) fun _ => False := by
  refine ⟨h.setRule hr _, ?_, ?_⟩
  · intro r' alt'
    by_cases hr' : r' = r
    · subst hr'
      simp [Grammar.addAlt, Grammar.setRule]
    · simp [Grammar.addAlt, Grammar.setRule, hr']
  · intro r'
    by_cases hr' : r' = r
    · subst hr'
      simp [Grammar.addAlt, Grammar.setRule]
    · simp [Grammar.addAlt, Grammar.setRule, hr']

theorem addEmptyAlt_adds (h : Sized n g) (hr : r < n) :
    Sized n (g.addEmptyAlt r) ∧
      Adds g (g.addEmptyAlt r) (fun _ _ => False) fun r' => r' = r := by
  refine ⟨h.setRule hr _, ?_, ?_⟩
  · intro r' alt'
    by_cases hr' : r' = r
    · subst hr'
      simp [Grammar.addEmptyAlt, Grammar.setRule]
    · simp [Grammar.addEmptyAlt, Grammar.setRule, hr']
  · intro r'
    by_cases hr' : r' = r
    · subst hr'
      simp [Grammar.addEmptyAlt, Grammar.setRule]
    · simp [Grammar.addEmptyAlt, Grammar.setRule, hr']

theorem addGeneratedRule_adds (h : Sized n g) :
    Sized (n + 1) g.addGeneratedRule ∧
      Adds g g.addGeneratedRule (fun _ _ => False) fun _ => False := by
  have hsame : ∀ r, g.addGeneratedRule.rule r = g.rule r := by
    intro r
    by_cases hr : r = g.size
    · subst hr
      rw [h.blank _ h.size.ge]
      exact Function.update_self _ _ _
    · exact Function.update_of_ne hr _ _
  refine ⟨⟨congrArg (· + 1) h.size, ?_⟩, ?_, ?_⟩
  · intro r hr
    rw [hsame]
    exact h.blank r (by omega)
  · intro r alt
    rw [hsame, or_iff_left id]
  · intro r
    rw [hsame, or_iff_left id]

/-- A loop whose turns add alternatives. -/
theorem adds_foldl {β : Type} {f : Grammar T → β → Grammar T} {A : β → Nat → Alt T → Prop}
    {E : β → Nat → Prop} {I : Nat → Grammar T → Prop} (l : List β) : ∀ (k : Nat),
    (∀ m b, l[m]? = some b → ∀ g, I (k + m) g →
      I (k + m + 1) (f g b) ∧ Adds g (f g b) (A b) (E b)) →
    ∀ {g : Grammar T}, I k g → I (k + l.length) (l.foldl f g) ∧
      Adds g (l.foldl f g) (fun r alt => ∃ b ∈ l, A b r alt) fun r => ∃ b ∈ l, E b r := by
  induction l with
  | nil =>
      intro k _ g hg
      exact ⟨hg, (adds_refl g).congr (by simp) (by simp)⟩
  | cons b l ih =>
      intro k hstep g hg
      obtain ⟨hinv, hadds⟩ := hstep 0 b rfl g hg
      have hshift : ∀ m, k + 1 + m = k + (m + 1) := fun m => by omega
      obtain ⟨hinv', hadds'⟩ := ih (k + 1) (fun m b' hb' g' hg' => by
        rw [hshift] at hg' ⊢
        exact hstep (m + 1) b' hb' g' hg') hinv
      refine ⟨?_, (hadds.trans hadds').congr (by simp) (by simp)⟩
      rw [List.length_cons, ← hshift]
      exact hinv'

section

variable {s : Split T}

/-- The alternatives of the vector, the empty one included. -/
def Split.Vec (s : Split T) (j : Nat) (c : Alt T) : Prop :=
  c = [] ∧ s.emptyAlt j = true ∨ c ∈ s.vector j

/-- Alternatives that are copied with one more item. -/
theorem foldl_addAlt_adds (h : Sized n g) (hr : r < n) (item : Item T) (cs : List (Alt T)) :
    Sized n (cs.foldl (fun g c => g.addAlt r (c ++ [item])) g) ∧
      Adds g (cs.foldl (fun g c => g.addAlt r (c ++ [item])) g)
        (fun r' alt => r' = r ∧ ∃ c ∈ cs, alt = c ++ [item]) fun _ => False := by
  obtain ⟨hsized, hadds⟩ := adds_foldl (I := fun _ => Sized n)
    (A := fun c r' alt => r' = r ∧ alt = c ++ [item]) (E := fun _ _ => False) cs 0
    (fun _ c _ g hg => addAlt_adds hg hr (c ++ [item])) h
  refine ⟨hsized, hadds.congr ?_ (by simp)⟩
  intro r' alt
  constructor
  · rintro ⟨c, hc, hr', halt⟩
    exact ⟨hr', c, hc, halt⟩
  · rintro ⟨hr', c, hc, halt⟩
    exact ⟨c, hc, hr', halt⟩

theorem generalCase3Turn_adds (h : Sized n g) (hr : rule < n) :
    Sized (n + 1) (generalCase3Turn s rule g j) ∧
      Adds g (generalCase3Turn s rule g j)
        (fun r alt => r = rule ∧ ∃ c, s.Vec j c ∧ alt = c ++ [itemCreate (.rule n)])
        fun _ => False := by
  have hr1 : rule < n + 1 := Nat.lt_succ_of_lt hr
  obtain ⟨hsized1, hadds1⟩ := addGeneratedRule_adds h
  unfold generalCase3Turn
  rw [h.size]
  dsimp only
  by_cases hempty : s.emptyAlt j = true
  · rw [if_pos hempty]
    obtain ⟨hsized2, hadds2⟩ := addAlt_adds hsized1 hr1 [itemCreate (.rule n)]
    obtain ⟨hsized3, hadds3⟩ := foldl_addAlt_adds hsized2 hr1 (itemCreate (.rule n)) (s.vector j)
    refine ⟨hsized3, ((hadds1.trans hadds2).trans hadds3).congr ?_ (by simp)⟩
    intro r alt
    simp only [Split.Vec, false_or, hempty, and_true]
    constructor
    · rintro (⟨rfl, rfl⟩ | ⟨rfl, c, hc, rfl⟩)
      · exact ⟨rfl, [], Or.inl rfl, rfl⟩
      · exact ⟨rfl, c, Or.inr hc, rfl⟩
    · rintro ⟨rfl, c, rfl | hc, rfl⟩
      · exact Or.inl ⟨rfl, rfl⟩
      · exact Or.inr ⟨rfl, c, hc, rfl⟩
  · rw [if_neg hempty]
    obtain ⟨hsized3, hadds3⟩ := foldl_addAlt_adds hsized1 hr1 (itemCreate (.rule n)) (s.vector j)
    refine ⟨hsized3, (hadds1.trans hadds3).congr ?_ (by simp)⟩
    intro r alt
    simp [Split.Vec, hempty]

/-- `rule_left_cycle_general_case_3`. -/
theorem generalCase3_adds (size : Nat) (h : Sized n g) (hr : rule < n) :
    Sized (n + size) (generalCase3 size s rule g).1 ∧
      Adds g (generalCase3 size s rule g).1 (fun r alt => r = rule ∧ ∃ j < size, ∃ c, s.Vec j c ∧
        alt = c ++ [itemCreate (.rule (n + j))]) fun _ => False := by
  obtain ⟨hsized, hadds⟩ := adds_foldl (I := fun k => Sized (n + k))
    (A := fun j r alt => r = rule ∧ ∃ c, s.Vec j c ∧ alt = c ++ [itemCreate (.rule (n + j))])
    (E := fun _ _ => False) (f := generalCase3Turn s rule) (List.range size) 0 (by
      intro m j hj g hg
      obtain ⟨-, rfl⟩ := List.getElem?_eq_some_iff.1 hj
      rw [List.getElem_range, Nat.zero_add] at *
      exact generalCase3Turn_adds hg (Nat.lt_of_lt_of_le hr (Nat.le_add_right n m))) (g := g) h
  rw [List.length_range, Nat.zero_add] at hsized
  refine ⟨hsized, hadds.congr ?_ (by simp)⟩
  intro r alt
  simp only [List.mem_range]
  constructor
  · rintro ⟨j, hj, hr', c, hc, halt⟩
    exact ⟨hr', j, hj, c, hc, halt⟩
  · rintro ⟨hr', j, hj, c, hc, halt⟩
    exact ⟨j, hj, hr', c, hc, halt⟩

theorem mem_zipIdx_range' : (r, j) ∈ (List.range' n size).zipIdx ↔ j < size ∧ r = n + j := by
  rw [List.mk_mem_zipIdx_iff_getElem?, List.getElem?_eq_some_iff]
  constructor
  · rintro ⟨hj, hget⟩
    rw [List.getElem_range'] at hget
    simp only [List.length_range'] at hj
    exact ⟨hj, by omega⟩
  · rintro ⟨hj, rfl⟩
    refine ⟨by simpa using hj, ?_⟩
    simp

theorem generalCase4Turn_adds {m i : Nat} {identity : Option Nat} (h : Sized n g) (hr : rule < n) :
    Sized n (generalCase4Turn identity s (List.range' m size) i g rule j) ∧
      Adds g (generalCase4Turn identity s (List.range' m size) i g rule j)
        (fun r alt => r = rule ∧
          ((i = j ∧ ∃ e, identity = some e ∧ alt = [itemCreate (.rename e)]) ∨
            ∃ k < size, ∃ B ∈ s.matrix k, alt = B ++ [itemCreate (.rule (m + k))]))
        fun r => r = rule ∧ i = j ∧ identity = none := by
  have hident : Sized n (if i = j then addIdentity identity rule g else g) ∧
      Adds g (if i = j then addIdentity identity rule g else g)
        (fun r alt => r = rule ∧ i = j ∧ ∃ e, identity = some e ∧
          alt = [itemCreate (.rename e)])
        fun r => r = rule ∧ i = j ∧ identity = none := by
    by_cases hij : i = j
    · rw [if_pos hij]
      cases identity with
      | none =>
          obtain ⟨hsized, hadds⟩ := addEmptyAlt_adds h hr
          exact ⟨hsized, hadds.congr (by simp) (by simp [hij])⟩
      | some e =>
          obtain ⟨hsized, hadds⟩ := addAlt_adds h hr [itemCreate (.rename e)]
          exact ⟨hsized, hadds.congr (by simp [hij]) (by simp)⟩
    · rw [if_neg hij]
      exact ⟨h, (adds_refl g).congr (by simp [hij]) (by simp [hij])⟩
  obtain ⟨hsized1, hadds1⟩ := hident
  obtain ⟨hsized2, hadds2⟩ := adds_foldl (I := fun _ => Sized n)
    (f := fun g (p : Nat × Nat) => generalCase4Inner s rule g p.1 p.2)
    (A := fun p r alt => r = rule ∧ ∃ B ∈ s.matrix p.2, alt = B ++ [itemCreate (.rule p.1)])
    (E := fun _ _ => False) (List.range' m size).zipIdx 0
    (fun _ p _ g hg => foldl_addAlt_adds hg hr (itemCreate (.rule p.1)) (s.matrix p.2)) hsized1
  refine ⟨hsized2, (hadds1.trans hadds2).congr ?_ (by simp)⟩
  intro r alt
  constructor
  · rintro (⟨hr', hij⟩ | ⟨⟨inner, k⟩, hmem, hr', B, hB, halt⟩)
    · exact ⟨hr', Or.inl hij⟩
    · obtain ⟨hk, rfl⟩ := mem_zipIdx_range'.1 hmem
      exact ⟨hr', Or.inr ⟨k, hk, B, hB, halt⟩⟩
  · rintro ⟨hr', hij | ⟨k, hk, B, hB, halt⟩⟩
    · exact Or.inl ⟨hr', hij⟩
    · exact Or.inr ⟨(m + k, k), mem_zipIdx_range'.2 ⟨hk, rfl⟩, hr', B, hB, halt⟩

/-- `rule_left_cycle_general_case_4`. -/
theorem generalCase4_adds (identity : Option Nat) (i : Nat) {m : Nat} (h : Sized n g)
    (hm : m + size ≤ n) :
    Sized n (generalCase4 identity s (List.range' m size) i g) ∧
      Adds g (generalCase4 identity s (List.range' m size) i g)
        (fun r alt => ∃ j < size, r = m + j ∧
          ((i = j ∧ ∃ e, identity = some e ∧ alt = [itemCreate (.rename e)]) ∨
            ∃ k < size, ∃ B ∈ s.matrix k, alt = B ++ [itemCreate (.rule (m + k))]))
        fun r => ∃ j < size, r = m + j ∧ i = j ∧ identity = none := by
  obtain ⟨hsized, hadds⟩ := adds_foldl (I := fun _ => Sized n)
    (f := fun g (p : Nat × Nat) => generalCase4Turn identity s (List.range' m size) i g p.1 p.2)
    (A := fun p r alt => r = p.1 ∧
      ((i = p.2 ∧ ∃ e, identity = some e ∧ alt = [itemCreate (.rename e)]) ∨
        ∃ k < size, ∃ B ∈ s.matrix k, alt = B ++ [itemCreate (.rule (m + k))]))
    (E := fun p r => r = p.1 ∧ i = p.2 ∧ identity = none) (List.range' m size).zipIdx 0 (by
      rintro k ⟨rule, j⟩ hk g hg
      obtain ⟨hj, rfl⟩ := mem_zipIdx_range'.1 (List.mem_of_getElem? hk)
      exact generalCase4Turn_adds hg (by omega)) h
  refine ⟨hsized, hadds.congr ?_ ?_⟩
  · intro r alt
    constructor
    · rintro ⟨⟨rule, j⟩, hmem, hr, h⟩
      obtain ⟨hj, rfl⟩ := mem_zipIdx_range'.1 hmem
      exact ⟨j, hj, hr, h⟩
    · rintro ⟨j, hj, hr, h⟩
      exact ⟨(m + j, j), mem_zipIdx_range'.2 ⟨hj, rfl⟩, hr, h⟩
  · intro r
    constructor
    · rintro ⟨⟨rule, j⟩, hmem, hr, h⟩
      obtain ⟨hj, rfl⟩ := mem_zipIdx_range'.1 hmem
      exact ⟨j, hj, hr, h⟩
    · rintro ⟨j, hj, hr, h⟩
      exact ⟨(m + j, j), mem_zipIdx_range'.2 ⟨hj, rfl⟩, hr, h⟩

end

/-! ## The new grammar -/

/-- The number of the rule that is made for the `i`-th rule of a cycle and continues from
the `j`-th. -/
def newRule (n size i j : Nat) : Nat := n + i * size + j

theorem newRule_inj {i i' j' : Nat} (hj : j < size) (hj' : j' < size)
    (h : newRule n size i j = newRule n size i' j') : i = i' ∧ j = j' := by
  unfold newRule at h
  have heq : size * i + j = size * i' + j' := by
    rw [Nat.mul_comm size, Nat.mul_comm size]
    omega
  have h1 := congrArg (· / size) heq
  have h2 := congrArg (· % size) heq
  simp only [Nat.mul_add_div (by omega : 0 < size), Nat.mul_add_mod, Nat.div_eq_of_lt hj,
    Nat.div_eq_of_lt hj', Nat.mod_eq_of_lt hj, Nat.mod_eq_of_lt hj', Nat.add_zero] at h1 h2
  exact ⟨h1, h2⟩

/-- What `rule_left_cycle_general_case` adds to the emptied rules. -/
theorem generalCase_adds {s : Split T} (size : Nat) (identity : Option Nat) (cycle : List Nat)
    (h : Sized n g) (hcycle : ∀ r ∈ cycle, r < n) :
    Adds g (cycle.zipIdx.foldl (fun g p => generalCaseTurn identity size s g p.1 p.2) g)
      (fun r alt => ∃ p ∈ cycle.zipIdx,
        (r = p.1 ∧ ∃ j < size, ∃ c, s.Vec j c ∧
          alt = c ++ [itemCreate (.rule (newRule n size p.2 j))]) ∨
        ∃ j < size, r = newRule n size p.2 j ∧
          ((p.2 = j ∧ ∃ e, identity = some e ∧ alt = [itemCreate (.rename e)]) ∨
            ∃ k < size, ∃ B ∈ s.matrix k,
              alt = B ++ [itemCreate (.rule (newRule n size p.2 k))]))
      fun r => ∃ p ∈ cycle.zipIdx, ∃ j < size, r = newRule n size p.2 j ∧ p.2 = j ∧
        identity = none := by
  refine (adds_foldl (I := fun k => Sized (n + k * size))
    (f := fun g (p : Nat × Nat) => generalCaseTurn identity size s g p.1 p.2)
    (A := fun p r alt => (r = p.1 ∧ ∃ j < size, ∃ c, s.Vec j c ∧
          alt = c ++ [itemCreate (.rule (newRule n size p.2 j))]) ∨
        ∃ j < size, r = newRule n size p.2 j ∧
          ((p.2 = j ∧ ∃ e, identity = some e ∧ alt = [itemCreate (.rename e)]) ∨
            ∃ k < size, ∃ B ∈ s.matrix k,
              alt = B ++ [itemCreate (.rule (newRule n size p.2 k))]))
    (E := fun p r => ∃ j < size, r = newRule n size p.2 j ∧ p.2 = j ∧ identity = none)
    cycle.zipIdx 0 ?_ (by simpa using h)).2
  rintro k ⟨rule, i⟩ hk g hg
  rw [Nat.zero_add] at hg
  have hmem := List.mem_of_getElem? hk
  have hi : i = k := by
    rw [List.getElem?_zipIdx] at hk
    obtain ⟨_, _, heq⟩ := Option.map_eq_some_iff.1 hk
    have := congrArg Prod.snd heq
    simpa using this.symm
  subst hi
  have hrule : rule < n + i * size :=
    Nat.lt_of_lt_of_le (hcycle rule (List.fst_mem_of_mem_zipIdx hmem)) (Nat.le_add_right _ _)
  obtain ⟨hsized3, hadds3⟩ := generalCase3_adds (s := s) size hg hrule
  obtain ⟨hsized4, hadds4⟩ := generalCase4_adds (s := s) identity i hsized3
    (Nat.le_refl (n + i * size + size))
  have hrun : generalCaseTurn identity size s g rule i =
      generalCase4 identity s (List.range' (n + i * size) size) i
        (generalCase3 size s rule g).1 := by
    rw [generalCaseTurn, ← hg.size]
    rfl
  rw [hrun]
  refine ⟨?_, (hadds3.trans hadds4).congr (fun _ _ => Iff.rfl) (fun _ => iff_of_eq (false_or _))⟩
  rw [show n + (0 + i + 1) * size = n + i * size + size by rw [Nat.zero_add, Nat.succ_mul]; omega]
  exact hsized4

/-- The outcome of the general case. -/
structure Rewritten (cycle : List Nat) (identity : Option Nat) (g g' : Grammar T) : Prop where
  head : ∀ i r, cycle[i]? = some r → ∀ alt, alt ∈ (g'.rule r).alts ↔ ∃ j < cycle.length, ∃ c,
    Ends cycle g j c ∧ alt = c ++ [itemCreate (.rule (newRule g.size cycle.length i j))]
  head_empty : ∀ r ∈ cycle, (g'.rule r).hasEmptyAlt = false
  tail : ∀ i < cycle.length, ∀ j < cycle.length, ∀ alt,
    alt ∈ (g'.rule (newRule g.size cycle.length i j)).alts ↔
      (i = j ∧ ∃ e, identity = some e ∧ alt = [itemCreate (.rename e)]) ∨
      ∃ k < cycle.length, ∃ B, Continues cycle g 0 k B ∧
        alt = B ++ [itemCreate (.rule (newRule g.size cycle.length i k))]
  tail_empty : ∀ i < cycle.length, ∀ j < cycle.length,
    (g'.rule (newRule g.size cycle.length i j)).hasEmptyAlt = true ↔ i = j ∧ identity = none
  other : ∀ r < g.size, r ∉ cycle → (∀ alt, alt ∈ (g'.rule r).alts ↔ alt ∈ (g.rule r).alts) ∧
    ((g'.rule r).hasEmptyAlt = true ↔ (g.rule r).hasEmptyAlt = true)

theorem generalCase_rewritten (hnd : cycle.Nodup) (hwf : g.Wf) (hcycle : ∀ r ∈ cycle, r < g.size)
    (identity : Option Nat) (hend : ∃ k alt, Ends cycle g k alt) :
    ∃ g', generalCase identity cycle g = some g' ∧ Rewritten cycle identity g g' := by
  obtain ⟨g1, s, hgs⟩ : ∃ g1 s, generalCase1 cycle g = (g1, s) := ⟨_, _, rfl⟩
  obtain ⟨hsize, hrule, hmat, hvec⟩ := generalCase1_spec hnd g hgs
  have hsized : Sized g.size g1 := by
    refine ⟨hsize, ?_⟩
    intro r hr
    rw [hrule, if_neg fun hmem => absurd (hcycle r hmem) (Nat.not_lt.2 hr)]
    exact hwf.blank r hr
  have hfound : generalCase2 cycle.length s = true := by
    obtain ⟨k, alt, hk⟩ := hend
    have hlt : k < cycle.length := by
      obtain ⟨rk, hget, -⟩ := hk
      exact (List.getElem?_eq_some_iff.1 hget).1
    refine List.any_eq_true.2 ⟨k, List.mem_range.2 hlt, ?_⟩
    rcases (hvec k alt).2 hk with ⟨-, hempty⟩ | hmem
    · rw [hempty, Bool.true_or]
    · cases hv : s.vector k with
      | nil =>
          rw [hv] at hmem
          cases hmem
      | cons _ _ => simp
  have hadds := generalCase_adds (s := s) cycle.length identity cycle hsized hcycle
  generalize hg' : cycle.zipIdx.foldl
    (fun g p => generalCaseTurn identity cycle.length s g p.1 p.2) g1 = g' at hadds
  have hrun : generalCase identity cycle g = some g' := by
    rw [generalCase, hgs]
    dsimp only
    rw [if_pos hfound, hg']
  refine ⟨g', hrun, ?_⟩
  -- the two kinds of rules that get alternatives are apart
  have hold : ∀ r ∈ cycle, ∀ i j, r ≠ newRule g.size cycle.length i j := by
    intro r hr i j heq
    have := hcycle r hr
    unfold newRule at heq
    omega
  have hcleared : ∀ r ∈ cycle, (g1.rule r).alts = [] ∧ (g1.rule r).hasEmptyAlt = false := by
    intro r hr
    rw [hrule, if_pos hr]
    exact ⟨rfl, rfl⟩
  have hblank : ∀ i j, (g1.rule (newRule g.size cycle.length i j)).alts = [] ∧
      (g1.rule (newRule g.size cycle.length i j)).hasEmptyAlt = false := by
    intro i j
    rw [hsized.blank _ (by unfold newRule; omega)]
    exact ⟨rfl, rfl⟩
  refine ⟨?_, ?_, ?_, ?_, ?_⟩
  · intro i r hi alt
    have hr : r ∈ cycle := List.mem_of_getElem? hi
    rw [hadds.alts, (hcleared r hr).1]
    constructor
    · rintro (h | ⟨⟨r', i'⟩, hmem, ⟨rfl, j, hj, c, hc, halt⟩ | ⟨j, hj, heq, -⟩⟩)
      · cases h
      · have hi' := List.mk_mem_zipIdx_iff_getElem?.1 hmem
        have hii : i' = i := (List.getElem?_inj (List.getElem?_eq_some_iff.1 hi').1 hnd).1
          (hi'.trans hi.symm)
        rw [hii] at halt
        exact ⟨j, hj, c, (hvec j c).1 hc, halt⟩
      · exact absurd heq (hold r hr i' j)
    · rintro ⟨j, hj, c, hc, halt⟩
      exact Or.inr ⟨(r, i), List.mk_mem_zipIdx_iff_getElem?.2 hi,
        Or.inl ⟨rfl, j, hj, c, (hvec j c).2 hc, halt⟩⟩
  · intro r hr
    by_contra hne
    rcases (hadds.empty r).1 (by simpa using hne) with h | ⟨⟨r', i'⟩, -, j, -, heq, -⟩
    · rw [(hcleared r hr).2] at h
      cases h
    · exact hold r hr i' j heq
  · intro i hi j hj alt
    rw [hadds.alts, (hblank i j).1]
    constructor
    · rintro (h | ⟨⟨r', i'⟩, hmem, ⟨heq, -⟩ | ⟨j', hj', heq, h⟩⟩)
      · cases h
      · exact absurd heq.symm (hold r' (List.fst_mem_of_mem_zipIdx hmem) i j)
      · obtain ⟨rfl, rfl⟩ := newRule_inj hj hj' heq
        rcases h with h | ⟨k, hk, B, hB, halt⟩
        · exact Or.inl h
        · refine Or.inr ⟨k, hk, B, ?_, halt⟩
          rw [← hmat k hk 0 B, Nat.mul_zero, Nat.zero_add]
          exact hB
    · have hmem : (cycle[i], i) ∈ cycle.zipIdx :=
        List.mk_mem_zipIdx_iff_getElem?.2 (List.getElem?_eq_getElem hi)
      rintro (h | ⟨k, hk, B, hB, halt⟩)
      · exact Or.inr ⟨_, hmem, Or.inr ⟨j, hj, rfl, Or.inl h⟩⟩
      · rw [← hmat k hk 0 B, Nat.mul_zero, Nat.zero_add] at hB
        exact Or.inr ⟨_, hmem, Or.inr ⟨j, hj, rfl, Or.inr ⟨k, hk, B, hB, halt⟩⟩⟩
  · intro i hi j hj
    rw [hadds.empty, (hblank i j).2]
    constructor
    · rintro (h | ⟨⟨r', i'⟩, -, j', hj', heq, h⟩)
      · cases h
      · obtain ⟨rfl, rfl⟩ := newRule_inj hj hj' heq
        exact h
    · intro h
      exact Or.inr ⟨(cycle[i], i), List.mk_mem_zipIdx_iff_getElem?.2 (List.getElem?_eq_getElem hi),
        j, hj, rfl, h⟩
  · intro r hr hnot
    have hnew : ∀ i j, r ≠ newRule g.size cycle.length i j := by
      intro i j heq
      unfold newRule at heq
      omega
    have hsame : g1.rule r = g.rule r := by rw [hrule, if_neg hnot]
    refine ⟨fun alt => ?_, ?_⟩
    · rw [hadds.alts, hsame, or_iff_left]
      rintro ⟨⟨r', i'⟩, hmem, ⟨rfl, -⟩ | ⟨j, -, heq, -⟩⟩
      · exact hnot (List.fst_mem_of_mem_zipIdx hmem)
      · exact hnew i' j heq
    · rw [hadds.empty, hsame, or_iff_left]
      rintro ⟨⟨r', i'⟩, -, j, -, heq, -⟩
      exact hnew i' j heq

/-! ## The language -/

/-- The tokens of a string are everything but renames. -/
def notRename : Entry T → Bool
  | .rename _ => false
  | _ => true

/-- The strings of items that a rule generates, renames ignored. -/
def Grammar.Strings (g : Grammar T) (r : Nat) (w : List (Entry T)) : Prop :=
  Gen (g.prods notRename) [.nt r] w

/-- The suffixes by which the rules of the cycle continue do not depend on the rule that
they continue from. -/
def RowsEqual (cycle : List Nat) (g : Grammar T) : Prop :=
  ∀ j < cycle.length, ∀ k < cycle.length, ∀ B, Continues cycle g j k B ↔ Continues cycle g 0 k B

theorem Rewritten.leftRec (hnd : cycle.Nodup) (hwf : g.Wf) (hcycle : ∀ r ∈ cycle, r < g.size)
    {identity : Option Nat} (h : Rewritten cycle identity g g') (hrows : RowsEqual cycle g) :
    LeftRec (g.prods notRename) (g'.prods notRename) (fun i : Fin cycle.length => cycle[i])
      (fun i j => newRule g.size cycle.length i j)
      (fun j k => { B | ∃ B', Continues cycle g j k B' ∧ B = Alt.form notRename B' })
      (fun k => { c | ∃ c', Ends cycle g k c' ∧ c = Alt.form notRename c' })
      { r | r < g.size } where
  rec_iff := by
    intro k body
    have hk : cycle[k.val]? = some cycle[k] := List.getElem?_eq_getElem k.isLt
    constructor
    · rintro (⟨hempty, rfl⟩ | ⟨alt, halt, rfl⟩)
      · exact Or.inl ⟨[], ⟨_, hk, Or.inl ⟨rfl, hempty⟩⟩, rfl⟩
      · cases hrec : recSuffix cycle alt with
        | none => exact Or.inl ⟨alt, ⟨_, hk, Or.inr ⟨halt, hrec⟩⟩, rfl⟩
        | some p =>
            obtain ⟨j, B⟩ := p
            obtain ⟨rj, hrj, item, hitem, rfl⟩ := (recSuffix_eq_some hnd).1 hrec
            obtain ⟨hj, hget⟩ := List.getElem?_eq_some_iff.1 hrj
            refine Or.inr ⟨⟨j, hj⟩, _, ⟨B, ⟨rj, _, hrj, hk, item, hitem, halt⟩, rfl⟩, ?_⟩
            rw [form_cons_rule hitem]
            exact congrArg (Sym.nt · :: _) hget.symm
    · rintro (⟨c, ⟨rk, hrk, hc⟩, rfl⟩ |
        ⟨j, _, ⟨B, ⟨rj, rk, hrj, hrk, item, hitem, halt⟩, rfl⟩, rfl⟩)
      · rw [hk, Option.some.injEq] at hrk
        subst hrk
        rcases hc with ⟨rfl, hempty⟩ | ⟨halt, -⟩
        · exact Or.inl ⟨hempty, rfl⟩
        · exact Or.inr ⟨c, halt, rfl⟩
      · rw [hk, Option.some.injEq] at hrk
        subst hrk
        have hj : cycle[j.val]? = some cycle[j] := List.getElem?_eq_getElem j.isLt
        rw [hj, Option.some.injEq] at hrj
        refine Or.inr ⟨item :: B, halt, ?_⟩
        rw [form_cons_rule hitem, ← hrj]
  head_iff := by
    intro i body
    have hi : cycle[i.val]? = some cycle[i] := List.getElem?_eq_getElem i.isLt
    have hnone := h.head_empty cycle[i] (List.getElem_mem i.isLt)
    constructor
    · rintro (⟨hempty, -⟩ | ⟨alt, halt, rfl⟩)
      · rw [hnone] at hempty
        cases hempty
      · obtain ⟨j, hj, c, hc, rfl⟩ := (h.head i _ hi alt).1 halt
        refine ⟨⟨j, hj⟩, _, ⟨c, hc, rfl⟩, ?_⟩
        rw [form_append, form_itemCreate_rule]
    · rintro ⟨j, _, ⟨c, hc, rfl⟩, rfl⟩
      refine Or.inr ⟨_, (h.head i _ hi _).2 ⟨j, j.isLt, c, hc, rfl⟩, ?_⟩
      rw [form_append, form_itemCreate_rule]
  tail_iff := by
    intro i j body
    constructor
    · rintro (⟨hempty, rfl⟩ | ⟨alt, halt, rfl⟩)
      · obtain ⟨hij, -⟩ := (h.tail_empty i i.isLt j j.isLt).1 hempty
        exact Or.inl ⟨Fin.ext hij, rfl⟩
      · rcases (h.tail i i.isLt j j.isLt alt).1 halt with ⟨hij, e, -, rfl⟩ | ⟨k, hk, B, hB, rfl⟩
        · exact Or.inl ⟨Fin.ext hij, rfl⟩
        · refine Or.inr ⟨⟨k, hk⟩, _, ⟨B, (hrows j j.isLt k hk B).2 hB, rfl⟩, ?_⟩
          rw [form_append, form_itemCreate_rule]
    · rintro (⟨rfl, rfl⟩ | ⟨k, _, ⟨B, hB, rfl⟩, rfl⟩)
      · cases hid : identity with
        | none => exact Or.inl ⟨(h.tail_empty i i.isLt i i.isLt).2 ⟨rfl, hid⟩, rfl⟩
        | some e =>
            exact Or.inr ⟨_, (h.tail i i.isLt i i.isLt _).2 (Or.inl ⟨rfl, e, hid, rfl⟩), rfl⟩
      · refine Or.inr ⟨_, (h.tail i i.isLt j j.isLt _).2 (Or.inr ⟨k, k.isLt, B,
          (hrows j j.isLt k k.isLt B).1 hB, rfl⟩), ?_⟩
        rw [form_append, form_itemCreate_rule]
  other := by
    intro r hr hnot
    have hr' : r ∉ cycle := by
      intro hmem
      obtain ⟨i, hi, hget⟩ := List.getElem_of_mem hmem
      exact hnot ⟨⟨i, hi⟩, hget⟩
    obtain ⟨halts, hempty⟩ := h.other r hr hr'
    ext body
    simp only [Grammar.prods, Set.mem_ofPred_eq, hempty, halts]
  mem_old := fun i => hcycle _ (List.getElem_mem i.isLt)
  closed := by
    rintro r hr body (⟨-, rfl⟩ | ⟨alt, halt, rfl⟩) m hm
    · cases hm
    · obtain ⟨item, hmem, hitem⟩ := nt_mem_form hm
      exact hwf.closed r hr alt halt item hmem m hitem

/-- The general case keeps the language of the cycle, with each suffix in its place,
exactly if the rows of the matrix are the same. -/
theorem generalCase_exact_iff {cycle : List Nat} (hnd : cycle.Nodup) {g : Grammar T} (hwf : g.Wf)
    (hcycle : ∀ r ∈ cycle, r < g.size) (identity : Option Nat)
    (hend : ∃ k alt, Ends cycle g k alt) :
    ∃ g', generalCase identity cycle g = some g' ∧
      (((∀ r ∈ cycle, ∀ w, g'.Strings r w ↔ g.Strings r w) ∧
        ∀ i < cycle.length, ∀ j < cycle.length, ∀ k < cycle.length, ∀ B,
          B ++ [itemCreate (.rule (newRule g.size cycle.length i k))] ∈
            (g'.rule (newRule g.size cycle.length i j)).alts ↔ Continues cycle g j k B) ↔
        RowsEqual cycle g) := by
  obtain ⟨g', hrun, hrew⟩ := generalCase_rewritten hnd hwf hcycle identity hend
  refine ⟨g', hrun, ?_⟩
  have hplace : ∀ i < cycle.length, ∀ j < cycle.length, ∀ k < cycle.length, ∀ B,
      B ++ [itemCreate (.rule (newRule g.size cycle.length i k))] ∈
        (g'.rule (newRule g.size cycle.length i j)).alts ↔ Continues cycle g 0 k B := by
    intro i hi j hj k hk B
    rw [hrew.tail i hi j hj]
    constructor
    · rintro (⟨-, e, -, heq⟩ | ⟨k', hk', B', hB', heq⟩)
      · have hlast := congrArg List.getLast? heq
        rw [List.getLast?_concat, List.getLast?_singleton, Option.some.injEq] at hlast
        cases hlast
      · obtain ⟨rfl, hlast⟩ := List.append_inj' heq rfl
        have hkk : newRule g.size cycle.length i k = newRule g.size cycle.length i k' := by
          simpa [itemCreate] using hlast
        obtain ⟨-, rfl⟩ := newRule_inj hk hk' hkk
        exact hB'
    · intro hB
      exact Or.inr ⟨k, hk, B, hB, rfl⟩
  constructor
  · rintro ⟨-, hstruct⟩ j hj k hk B
    rw [← hstruct j hj j hj k hk B]
    exact hplace j hj j hj k hk B
  · intro hrows
    refine ⟨?_, ?_⟩
    · intro r hr w
      exact (hrew.leftRec hnd hwf hcycle hrows).gen_iff (hcycle r hr) w
    · intro i hi j hj k hk B
      rw [hplace i hi j hj k hk B, hrows j hj k hk B]

/-- `A = A b, c`. -/
def selfCycle : Grammar 2 :=
  tableOf [⟨false, [[itemCreate (.rule 0), itemCreate (.basic 0)], [itemCreate (.basic 1)]],
    none, 0⟩]

theorem generalCase_exact_self :
    ∃ g', generalCase none [0] selfCycle = some g' ∧ g'.Strings 0 [.basic 1, .basic 0] := by
  have hcycle : ∀ r ∈ [0], r < selfCycle.size := by decide
  have hend : ∃ k alt, Ends [0] selfCycle k alt :=
    ⟨0, [itemCreate (.basic 1)], 0, rfl, Or.inr ⟨by decide, rfl⟩⟩
  obtain ⟨g', hrun, hiff⟩ :=
    generalCase_exact_iff (List.nodup_singleton 0) (tableOf_wf rfl) hcycle none hend
  refine ⟨g', hrun, ?_⟩
  have hrows : RowsEqual [0] selfCycle := by
    intro j hj k _ B
    obtain rfl : j = 0 := Nat.lt_one_iff.1 hj
    exact Iff.rfl
  rw [(hiff.2 hrows).1 0 (by decide)]
  -- `A` by `A b`, its `A` by `c`
  have hc : Gen (selfCycle.prods notRename) [.nt 0] [.basic 1] :=
    gen_single.2 ⟨[.tok (.basic 1)], Or.inr ⟨[itemCreate (.basic 1)], by decide, rfl⟩,
      Gen.tok Gen.nil⟩
  refine gen_single.2 ⟨[.nt 0, .tok (.basic 0)], Or.inr
    ⟨[itemCreate (.rule 0), itemCreate (.basic 0)], by decide, rfl⟩, ?_⟩
  exact hc.append (Gen.tok Gen.nil)

/-- `A = B b, c; B = A d, e`. -/
def pairCycle : Grammar 4 :=
  tableOf [⟨false, [[itemCreate (.rule 1), itemCreate (.basic 0)], [itemCreate (.basic 1)]],
      none, 0⟩,
    ⟨false, [[itemCreate (.rule 0), itemCreate (.basic 2)], [itemCreate (.basic 3)]], none, 0⟩]

/-- The strings that are left of `pairCycle`: the rule that continues from `B` never ends. -/
def pairLeft (n : Nat) (w : List (Entry 4)) : Prop :=
  (n = 0 → w = [.basic 1]) ∧ (n = 2 → w = []) ∧ n ≠ 3

theorem pairLeft_closed {g : Grammar 4} (hrun : generalCase none [0, 1] pairCycle = some g)
    (n : Nat) (body : List (Sym Nat (Entry 4))) (hbody : body ∈ g.prods notRename n)
    (w : List (Entry 4)) (hw : Sem pairLeft body w) : pairLeft n w := by
  obtain rfl := Option.some.inj hrun
  refine ⟨?_, ?_, ?_⟩
  · rintro rfl
    rcases hbody with ⟨hempty, -⟩ | ⟨alt, halt, rfl⟩
    · cases hempty
    · have halt' : alt = [itemCreate (.basic 1), itemCreate (.rule 2)] ∨
          alt = [itemCreate (.basic 3), itemCreate (.rule 3)] := by
        have hmem : alt ∈ [[itemCreate (.basic 1), itemCreate (.rule 2)],
          [itemCreate (.basic 3), itemCreate (.rule 3)]] := halt
        simpa using hmem
      rcases halt' with rfl | rfl
      · obtain ⟨v, rfl, hv⟩ := hw
        rw [(sem_single.1 hv).2.1 rfl]
        rfl
      · obtain ⟨v, rfl, hv⟩ := hw
        exact absurd rfl (sem_single.1 hv).2.2
  · rintro rfl
    rcases hbody with ⟨-, rfl⟩ | ⟨alt, halt, rfl⟩
    · exact hw
    · have halt' : alt = [itemCreate (.basic 2), itemCreate (.rule 3)] := by
        have hmem : alt ∈ [[itemCreate (.basic 2), itemCreate (.rule 3)]] := halt
        simpa using hmem
      subst halt'
      obtain ⟨v, rfl, hv⟩ := hw
      exact absurd rfl (sem_single.1 hv).2.2
  · rintro rfl
    rcases hbody with ⟨hempty, -⟩ | ⟨alt, halt, rfl⟩
    · cases hempty
    · have halt' : alt = [itemCreate (.basic 2), itemCreate (.rule 3)] := by
        have hmem : alt ∈ [[itemCreate (.basic 2), itemCreate (.rule 3)]] := halt
        simpa using hmem
      subst halt'
      obtain ⟨v, rfl, hv⟩ := hw
      exact (sem_single.1 hv).2.2 rfl

/-- `A` generates `e b` before, and not after. -/
theorem generalCase_loses :
    pairCycle.Wf ∧ ∃ g', generalCase none [0, 1] pairCycle = some g' ∧
      pairCycle.Strings 0 [.basic 3, .basic 0] ∧ ¬ g'.Strings 0 [.basic 3, .basic 0] := by
  refine ⟨tableOf_wf rfl, _, rfl, ?_, ?_⟩
  · have he : Gen (pairCycle.prods notRename) [.nt 1] [.basic 3] :=
      gen_single.2 ⟨[.tok (.basic 3)], Or.inr ⟨[itemCreate (.basic 3)], by decide, rfl⟩,
        Gen.tok Gen.nil⟩
    refine gen_single.2 ⟨[.nt 1, .tok (.basic 0)], Or.inr
      ⟨[itemCreate (.rule 1), itemCreate (.basic 0)], by decide, rfl⟩, ?_⟩
    exact he.append (Gen.tok Gen.nil)
  · intro h
    have hleft : pairLeft 0 [.basic 3, .basic 0] :=
      sem_single.1 (Gen.sem (pairLeft_closed rfl) h)
    exact absurd (hleft.1 rfl) (by decide)

end Tendra.Ref.Sid
