import Mathlib.Data.List.Forall2

/-!
# Evaluation in no fixed order

An expression whose arguments are evaluated in any order has several outcomes where more
than one of them stops: it may jump or it may fail, as the case may be. What it does is
therefore a value, if there is one, with whether a jump and whether a failure can happen.
An expression that has a value has no other outcome.
-/

namespace Tendra

variable {α β : Type}

/-- What can come of an evaluation. -/
structure Outcome (α : Type) where
  value : Option α
  jump : Bool
  fail : Bool
deriving DecidableEq, Repr

namespace Outcome

variable {o : Outcome α} {os : List (Outcome α)} {p : Outcome β}

def ret (a : α) : Outcome α := ⟨some a, false, false⟩

def leave : Outcome α := ⟨none, true, false⟩

def crash : Outcome α := ⟨none, false, true⟩

/-- One after the other. -/
@[grind =] def bind (o : Outcome α) (f : α → Outcome β) : Outcome β :=
  match o.value with
  | none => ⟨none, o.jump, o.fail⟩
  | some a => ⟨(f a).value, o.jump || (f a).jump, o.fail || (f a).fail⟩

/-- In any order. -/
def both (o : Outcome α) (p : Outcome β) : Outcome (α × β) :=
  ⟨o.value.bind fun a => p.value.map (a, ·), o.jump || p.jump, o.fail || p.fail⟩

/-- All of a list, in any order. -/
def all : List (Outcome α) → Outcome (List α)
  | [] => ret []
  | o :: os => (both o (all os)).bind fun p => ret (p.1 :: p.2)

/-- Where it jumps, `h` is next. -/
def handle (o h : Outcome α) : Outcome α :=
  if o.jump then ⟨h.value, h.jump, o.fail || h.fail⟩ else o

/-- A value is the only outcome. -/
def Sure (o : Outcome α) : Prop := ∀ a, o.value = some a → o.jump = false ∧ o.fail = false

@[simp] theorem ret_value (a : α) : (ret a).value = some a := rfl

@[simp] theorem ret_fail (a : α) : (ret a).fail = false := rfl

@[simp] theorem leave_value : (leave : Outcome α).value = none := rfl

@[simp] theorem leave_fail : (leave : Outcome α).fail = false := rfl

@[simp] theorem crash_value : (crash : Outcome α).value = none := rfl

@[simp] theorem crash_fail : (crash : Outcome α).fail = true := rfl

theorem bind_value {f : α → Outcome β} {b : β} :
    (o.bind f).value = some b ↔ ∃ a, o.value = some a ∧ (f a).value = some b := by
  unfold bind
  cases o.value with
  | none => simp
  | some a => simp

theorem bind_fail {f : α → Outcome β} :
    (o.bind f).fail = true ↔ o.fail = true ∨ ∃ a, o.value = some a ∧ (f a).fail = true := by
  unfold bind
  cases o.value with
  | none => simp
  | some a => simp

theorem both_value {a : α} {b : β} :
    (both o p).value = some (a, b) ↔ o.value = some a ∧ p.value = some b := by
  simp [both, Option.bind_eq_some_iff]

theorem both_fail : (both o p).fail = true ↔ o.fail = true ∨ p.fail = true := by
  simp [both]

theorem all_value {as : List α} :
    (all os).value = some as ↔ List.Forall₂ (fun o a => o.value = some a) os as := by
  induction os generalizing as with
  | nil => simp [all, eq_comm]
  | cons o os ih =>
      cases as with
      | nil => simp [all, bind_value]
      | cons a as => simp [all, bind_value, both_value, ih]

theorem all_fail : (all os).fail = true ↔ ∃ o ∈ os, o.fail = true := by
  induction os with
  | nil => simp [all]
  | cons o os ih => simp [all, bind_fail, both_fail, ih]

theorem sure_ret (a : α) : (ret a).Sure := fun _ _ => ⟨rfl, rfl⟩

theorem sure_leave : (leave : Outcome α).Sure := fun _ h => nomatch h

theorem sure_crash : (crash : Outcome α).Sure := fun _ h => nomatch h

theorem Sure.bind {f : α → Outcome β} (ho : o.Sure) (hf : ∀ a, (f a).Sure) : (o.bind f).Sure := by
  intro b hb
  obtain ⟨a, ha, hb⟩ := bind_value.1 hb
  have hoa := ho a ha
  have hfa := hf a b hb
  simp [Outcome.bind, ha, hoa, hfa]

theorem Sure.both (ho : o.Sure) (hp : p.Sure) : (both o p).Sure := by
  rintro ⟨a, b⟩ hab
  obtain ⟨ha, hb⟩ := both_value.1 hab
  have hoa := ho a ha
  have hpb := hp b hb
  simp [Outcome.both, hoa, hpb]

theorem Sure.all (h : ∀ o ∈ os, o.Sure) : (all os).Sure := by
  induction os with
  | nil => exact sure_ret []
  | cons o os ih =>
      have hos : (Outcome.all os).Sure := ih fun p hp => h p (List.mem_cons_of_mem o hp)
      exact ((h o List.mem_cons_self).both hos).bind fun _ => sure_ret _

/-- A value has not jumped. -/
theorem Sure.eq_ret (ho : o.Sure) {a : α} (h : o.value = some a) : o = ret a := by
  obtain ⟨hjump, hfail⟩ := ho a h
  cases o
  simp_all [ret]

theorem handle_ret (a : α) (h : Outcome α) : handle (ret a) h = ret a := rfl

theorem handle_fail {h : Outcome α} (hh : h.fail = false) : (handle o h).fail = o.fail := by
  unfold handle
  split
  · rw [hh, Bool.or_false]
  · rfl

end Outcome

end Tendra
