import Mathlib.Logic.Function.Basic
import Mathlib.Logic.Relation

/-!
# Machines that run lists of instructions

An instruction changes the state and says where control goes: to the next instruction,
past the next one, or to a label further on. Its effect may be undefined. A list of
instructions is run from its first to its last one, and what it does is what its parts do
one after the other, also where control leaves a part by a jump or with an instruction
still to be skipped.
-/

namespace Tendra

variable {I S L : Type}

/-- Where control goes after an instruction: on, past the next instruction, or to a label. -/
inductive Next (L : Type)
  | step
  | null
  | jump (l : L)
deriving DecidableEq, Repr

/-- What the instructions of a machine do, and which of them are labels. -/
structure Machine (I S L : Type) where
  exec : I → S → Option (S × Next L)
  label : I → Option L

namespace Machine

variable [DecidableEq L] (m : Machine I S L)

/-- Runs a list, and gives the state and where control goes at its end. -/
@[grind =] def run : List I → Next L → S → Option (S × Next L)
  | [], n, s => some (s, n)
  | i :: c, .step, s => (m.exec i s).bind fun r => run c r.2 r.1
  | _ :: c, .null, s => run c .step s
  | i :: c, .jump l, s => run c (if m.label i = some l then .step else .jump l) s

/-- The list takes one state to another, from its first instruction past its last one. -/
def Does (c : List I) (s t : S) : Prop := m.run c .step s = some (t, .step)

variable {m}
variable {i : I} {l : L} {s t u : S} {n : Next L} {c d : List I}

theorem run_append (c d : List I) : ∀ (n : Next L) (s : S),
    m.run (c ++ d) n s = (m.run c n s).bind fun r => m.run d r.2 r.1 := by
  induction c with
  | nil => exact fun _ _ => rfl
  | cons i c ih =>
      intro n s
      cases n with
      | step =>
          rw [List.cons_append, run, run, Option.bind_assoc]
          exact congrArg _ (funext fun r => ih r.2 r.1)
      | null =>
          rw [List.cons_append, run, run]
          exact ih .step s
      | jump l =>
          rw [List.cons_append, run, run]
          exact ih _ s

theorem run_cons (h : m.exec i s = some (t, n)) (c : List I) :
    m.run (i :: c) .step s = m.run c n t := by
  rw [run, h]
  rfl

theorem Does.nil (s : S) : m.Does [] s s := rfl

theorem Does.append (hc : m.Does c s t) (hd : m.Does d t u) : m.Does (c ++ d) s u := by
  rw [Does, run_append, hc]
  exact hd

theorem Does.run (h : m.Does c s t) : m.run c .step s = some (t, .step) :=
  h

theorem does_cons (h : m.exec i s = some (t, .step)) : m.Does (i :: c) s u ↔ m.Does c t u := by
  rw [Does, run_cons h, Does]

theorem does_one (h : m.exec i s = some (t, .step)) : m.Does [i] s t :=
  (does_cons h).2 (Does.nil t)

/-- The instruction after one that nullifies is passed over. -/
theorem does_null (h : m.exec i s = some (t, .null)) {j : I} :
    m.Does (i :: j :: c) s u ↔ m.Does c t u := by
  rw [Does, run, h]
  rfl

theorem run_jump (hd : ∀ i ∈ d, m.label i ≠ some l) (c : List I) (s : S) :
    m.run (d ++ c) (.jump l) s = m.run c (.jump l) s := by
  induction d with
  | nil => rfl
  | cons i d ih =>
      rw [List.cons_append, run, if_neg (hd i List.mem_cons_self)]
      exact ih fun j hj => hd j (List.mem_cons_of_mem i hj)

/-- A jump leads past the first place of its label. -/
theorem does_jump {lab : I} (h : m.exec i s = some (t, .jump l)) {d : List I}
    (hd : ∀ j ∈ d, m.label j ≠ some l) (hlab : m.label lab = some l) :
    m.Does (i :: (d ++ lab :: c)) s u ↔ m.Does c t u := by
  rw [Does, run, h, Option.bind_some, run_jump hd, run, if_pos hlab]
  rfl

theorem does_nil : m.Does [] s t ↔ s = t := by
  simp [Does, run]

/-- There is only one state that a list leads to. -/
theorem Does.unique (h : m.Does c s t) (h' : m.Does c s u) : t = u := by
  rw [Does, h] at h'
  injection h' with h'
  injection h'

/-- What is to hold where a list leads is to hold of the state that it leads to. -/
theorem Does.exists_iff (h : m.Does c s t) {P : S → Prop} : (∃ u, m.Does c s u ∧ P u) ↔ P t := by
  constructor
  · rintro ⟨u, hu, hP⟩
    exact h.unique hu ▸ hP
  · exact fun hP => ⟨t, h, hP⟩

end Machine

/-!
## Programs with jumps in both directions

In a program a jump leads to the first place of its label, before it or after it, and
out of the program where the label is not set. A program has ended where it is past its
last instruction or left by a jump, and is stuck where the next instruction has no
effect that is defined.
-/

/-- Where control is: before the rest of the program, or at a label outside of it. -/
inductive Place (I L : Type)
  | inside (rest : List I)
  | outside (l : L)
deriving DecidableEq, Repr

/-- The program has ended there. -/
def Place.Final : Place I L → Prop
  | .inside c => c = []
  | .outside _ => True

namespace Machine

section

variable [DecidableEq L] (m : Machine I S L)

/-- What follows the first place of a label. -/
def after (l : L) : List I → Option (List I)
  | [] => none
  | i :: c => if m.label i = some l then some c else after l c

/-- Where a jump leads. -/
def target (prog : List I) (l : L) : Place I L :=
  match m.after l prog with
  | some c => .inside c
  | none => .outside l

/-- Where control goes after an instruction that `c` follows. -/
def goes (prog c : List I) : Next L → Place I L
  | .step => .inside c
  | .null => .inside c.tail
  | .jump l => m.target prog l

/-- One step of a program. -/
def move (prog : List I) : Place I L × S → Option (Place I L × S)
  | (.inside (i :: c), s) => (m.exec i s).map fun r => (m.goes prog c r.2, r.1)
  | (.inside [], _) => none
  | (.outside _, _) => none

/-- The steps of a program lead from one configuration to another. -/
def Reaches (prog : List I) : Place I L × S → Place I L × S → Prop :=
  Relation.ReflTransGen fun a b => m.move prog a = some b

/-- The program does not go on, and has not ended. -/
def Stuck (prog : List I) (a : Place I L × S) : Prop := m.move prog a = none ∧ ¬ a.1.Final

/-- The steps lead to where something holds. -/
def Leads (prog : List I) (a : Place I L × S) (Q : Place I L × S → Prop) : Prop :=
  ∃ b, m.Reaches prog a b ∧ Q b

/-- The program, run from its first instruction, ends in a place with a state. -/
def Ends (prog : List I) (s : S) (p : Place I L) (t : S) : Prop :=
  m.Reaches prog (.inside prog, s) (p, t) ∧ p.Final

/-- No instruction of the list jumps or skips another. -/
def Plain (c : List I) : Prop := ∀ i ∈ c, ∀ s t n, m.exec i s = some (t, n) → n = .step

end

variable [DecidableEq L] {m : Machine I S L} {prog : List I}
variable {i : I} {l : L} {s t u : S} {n : Next L} {c d : List I} {a b : Place I L × S}

theorem target_of_after (h : m.after l prog = some c) : m.target prog l = .inside c := by
  rw [target, h]

theorem target_of_none (h : m.after l prog = none) : m.target prog l = .outside l := by
  rw [target, h]

theorem after_append (h : ∀ i ∈ d, m.label i ≠ some l) (c : List I) :
    m.after l (d ++ c) = m.after l c := by
  induction d with
  | nil => rfl
  | cons i d ih =>
      rw [List.cons_append, after, if_neg (h i List.mem_cons_self)]
      exact ih fun j hj => h j (List.mem_cons_of_mem i hj)

theorem after_none (h : ∀ i ∈ prog, m.label i ≠ some l) : m.after l prog = none := by
  have := after_append h []
  rwa [List.append_nil] at this

theorem move_step (h : m.exec i s = some (t, n)) (c : List I) :
    m.move prog (.inside (i :: c), s) = some (m.goes prog c n, t) := by
  rw [move, h]
  rfl

theorem move_final (h : a.1.Final) : m.move prog a = none := by
  obtain ⟨p, s⟩ := a
  cases p with
  | inside c =>
      cases h
      rfl
  | outside l => rfl

theorem Reaches.refl (a : Place I L × S) : m.Reaches prog a a := Relation.ReflTransGen.refl

theorem Reaches.trans {c : Place I L × S} (h : m.Reaches prog a b) (h' : m.Reaches prog b c) :
    m.Reaches prog a c :=
  Relation.ReflTransGen.trans h h'

theorem reaches_step (h : m.exec i s = some (t, n)) (c : List I) :
    m.Reaches prog (.inside (i :: c), s) (m.goes prog c n, t) :=
  Relation.ReflTransGen.single (move_step h c)

theorem reaches_jump (h : m.exec i s = some (t, .jump l)) (hl : m.after l prog = some d)
    (c : List I) : m.Reaches prog (.inside (i :: c), s) (.inside d, t) := by
  have hstep : m.Reaches prog _ _ := reaches_step h c
  rwa [goes, target_of_after hl] at hstep

/-- Two configurations that do not go on and are reached from one are the same. -/
theorem Reaches.unique {c : Place I L × S} (h : m.Reaches prog a b) (h' : m.Reaches prog a c)
    (hb : m.move prog b = none) (hc : m.move prog c = none) : b = c := by
  have hright : Relator.RightUnique fun a b => m.move prog a = some b :=
    fun a b c hab hac => Option.some.inj (hab.symm.trans hac)
  have hend : ∀ {x y : Place I L × S}, m.Reaches prog x y → m.move prog x = none → x = y := by
    intro x y hxy hx
    obtain heq | ⟨z, hz, -⟩ := hxy.cases_head
    · exact heq
    · exact absurd (hx.symm.trans hz) (Option.some_ne_none z).symm
  obtain hbc | hcb := Relation.ReflTransGen.total_of_right_unique hright h h'
  · exact hend hbc hb
  · exact (hend hcb hc).symm

theorem Ends.unique {p q : Place I L} (h : m.Ends prog s p t) (h' : m.Ends prog s q u) :
    p = q ∧ t = u := by
  have := h.1.unique h'.1 (move_final h.2) (move_final h'.2)
  exact ⟨congrArg Prod.fst this, congrArg Prod.snd this⟩

/-- A program that gets stuck does not end. -/
theorem Ends.not_stuck {p : Place I L} (h : m.Ends prog s p t)
    (hb : m.Reaches prog (.inside prog, s) b) : ¬ m.Stuck prog b := by
  intro hstuck
  exact hstuck.2 (h.1.unique hb (move_final h.2) hstuck.1 ▸ h.2)

section

variable {a b : Place I L × S} {Q R : Place I L × S → Prop}

theorem Leads.refl (h : Q a) : m.Leads prog a Q := ⟨a, .refl a, h⟩

theorem Reaches.leads (h : m.Reaches prog a b) (hb : m.Leads prog b Q) : m.Leads prog a Q :=
  let ⟨c, hc, hQ⟩ := hb
  ⟨c, h.trans hc, hQ⟩

theorem Leads.bind (h : m.Leads prog a Q) (hQ : ∀ b, Q b → m.Leads prog b R) :
    m.Leads prog a R :=
  let ⟨b, hb, hq⟩ := h
  hb.leads (hQ b hq)

theorem Leads.imp (h : m.Leads prog a Q) (hQ : ∀ b, Q b → R b) : m.Leads prog a R :=
  h.bind fun b hb => .refl (hQ b hb)

end

section

variable {c d : List I} {s t : S}

omit [DecidableEq L] in
theorem Plain.tail (h : m.Plain (i :: c)) : m.Plain c :=
  fun j hj => h j (List.mem_cons_of_mem i hj)

/-- What a plain list does is done in any program. -/
theorem Does.reaches (h : m.Does c s t) (hplain : m.Plain c) :
    m.Reaches prog (.inside (c ++ d), s) (.inside d, t) := by
  induction c generalizing s with
  | nil =>
      obtain rfl := does_nil.1 h
      exact .refl _
  | cons i c ih =>
      obtain ⟨⟨u, n⟩, hu, hrest⟩ := Option.bind_eq_some_iff.1 h
      obtain rfl := hplain i List.mem_cons_self s u n hu
      exact (reaches_step hu (c ++ d)).trans (ih hrest hplain.tail)

/-- A plain list that has no result gets stuck in any program. -/
theorem stuck_of_run (h : m.run c .step s = none) (hplain : m.Plain c) :
    m.Leads prog (.inside (c ++ d), s) (m.Stuck prog) := by
  induction c generalizing s with
  | nil => exact absurd h (Option.some_ne_none _)
  | cons i c ih =>
      rw [List.cons_append]
      cases hi : m.exec i s with
      | none =>
          refine .refl ⟨?_, List.cons_ne_nil i (c ++ d)⟩
          rw [move, hi]
          rfl
      | some r =>
          obtain ⟨u, n⟩ := r
          obtain rfl := hplain i List.mem_cons_self s u n hi
          rw [run_cons hi] at h
          exact (reaches_step hi (c ++ d)).leads (ih h hplain.tail)

end

end Machine

end Tendra
