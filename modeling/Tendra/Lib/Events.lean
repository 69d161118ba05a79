import Mathlib.Data.List.Basic
import Mathlib.Data.Nat.Find
import Tendra.Lib.Machine

/-!
# What a program is seen to do

Part of the state of a program is a list of what it has done so far, to which a step adds
one item at most. The lists that a run goes through say what the program is seen to do,
also where it never ends.

A run often goes in rounds: each ends at a place where the program either leaves or goes
on to the next round. Its lists are then the prefixes of what the rounds have done.
-/

namespace Tendra.Machine

variable {I S L E R : Type} [DecidableEq L] (m : Machine I S L) (seen : S → List E)

/-- The run goes through a state with this list. -/
def Emits (prog : List I) (s : S) (l : List E) : Prop :=
  ∃ b, m.Reaches prog (.inside prog, s) b ∧ seen b.2 = l

/-- The run ends with this list and this result. -/
def Yields (out : S → R) (prog : List I) (s : S) (l : List E) (r : R) : Prop :=
  ∃ p t, m.Ends prog s p t ∧ seen t = l ∧ out t = r

/-- An instruction adds one item at most. -/
def Adds : Prop :=
  ∀ i s t n, m.exec i s = some (t, n) → seen t = seen s ∨ ∃ e, seen t = seen s ++ [e]

/-- The run goes in rounds. Before it leaves or goes on after the round `n`, it is in one of
the configurations `point n` and has done what `total n` lists. -/
structure Rounds (out : S → R) (prog : List I) (s : S) (point : Nat → Place I L × S → Prop)
    (total : Nat → List E) (leaves : Nat → Prop) (result : Nat → R) : Prop where
  begins : m.Leads prog (.inside prog, s) (point 0)
  next : ∀ n a, point n a → ¬ leaves n → m.Leads prog a (point (n + 1))
  ends : ∀ n a, point n a → leaves n →
    m.Leads prog a fun c => c.1.Final ∧ seen c.2 = total n ∧ out c.2 = result n
  seen_eq : ∀ n a, point n a → seen a.2 = total n
  longer : ∀ n, (total n).length < (total (n + 1)).length

variable {m seen} {prog : List I} {s : S} {a b c : Place I L × S}

theorem Reaches.total (h : m.Reaches prog a b) (h' : m.Reaches prog a c) :
    m.Reaches prog b c ∨ m.Reaches prog c b :=
  Relation.ReflTransGen.total_of_right_unique
    (fun _ _ _ hb hc => Option.some.inj (hb.symm.trans hc)) h h'

theorem Reaches.eq_of_final (h : m.Reaches prog a b) (ha : a.1.Final) : a = b := by
  obtain heq | ⟨c, hc, -⟩ := h.cases_head
  · exact heq
  · rw [move_final ha] at hc
    cases hc

namespace Adds

variable (hadds : m.Adds seen)
include hadds

theorem move (h : m.move prog a = some b) :
    seen b.2 = seen a.2 ∨ ∃ e, seen b.2 = seen a.2 ++ [e] := by
  obtain ⟨p, s⟩ := a
  cases p with
  | outside l => cases h
  | inside code =>
      cases code with
      | nil => cases h
      | cons i code =>
          obtain ⟨⟨t, n⟩, hexec, rfl⟩ := Option.map_eq_some_iff.1 h
          exact hadds i s t n hexec

theorem isPrefix (h : m.Reaches prog a b) : seen a.2 <+: seen b.2 := by
  induction h with
  | refl => exact List.prefix_rfl
  | tail _ hmove ih =>
      obtain heq | ⟨e, heq⟩ := hadds.move hmove
      · rw [heq]
        exact ih
      · rw [heq]
        exact ih.trans (List.prefix_append ..)

/-- The run goes through every list between two of its own. -/
theorem between (h : m.Reaches prog a b) {l : List E} (hal : seen a.2 <+: l)
    (hlb : l <+: seen b.2) : ∃ c, m.Reaches prog a c ∧ seen c.2 = l := by
  induction h with
  | refl => exact ⟨a, .refl a, hal.eq_of_length_le hlb.length_le⟩
  | @tail b d hb hmove ih =>
      obtain heq | ⟨e, heq⟩ := hadds.move hmove
      · exact ih (heq ▸ hlb)
      · rw [heq, List.prefix_concat_iff] at hlb
        obtain rfl | hlb := hlb
        · exact ⟨d, .tail hb hmove, heq⟩
        · exact ih hlb

theorem emits_of_prefix {l : List E} (h : m.Reaches prog (.inside prog, s) b)
    (hs : seen s = []) (hl : l <+: seen b.2) : m.Emits seen prog s l :=
  hadds.between h (hs ▸ List.nil_prefix) hl

theorem emits_total {l l' : List E} (h : m.Emits seen prog s l) (h' : m.Emits seen prog s l') :
    l <+: l' ∨ l' <+: l := by
  obtain ⟨b, hb, rfl⟩ := h
  obtain ⟨c, hc, rfl⟩ := h'
  exact (hb.total hc).imp hadds.isPrefix hadds.isPrefix

/-- Nothing is seen but what has been seen at the end. -/
theorem emits_prefix_of_yields {out : S → R} {l l' : List E} {r : R}
    (h : m.Yields seen out prog s l r) (h' : m.Emits seen prog s l') : l' <+: l := by
  obtain ⟨p, t, hends, rfl, -⟩ := h
  obtain ⟨b, hb, rfl⟩ := h'
  obtain hbt | htb := hb.total hends.1
  · exact hadds.isPrefix hbt
  · exact htb.eq_of_final hends.2 ▸ List.prefix_rfl

end Adds

theorem Yields.unique {out : S → R} {l l' : List E} {r r' : R}
    (h : m.Yields seen out prog s l r) (h' : m.Yields seen out prog s l' r') :
    l = l' ∧ r = r' := by
  obtain ⟨p, t, hends, rfl, rfl⟩ := h
  obtain ⟨p', t', hends', rfl, rfl⟩ := h'
  rw [(hends.unique hends').2]
  exact ⟨rfl, rfl⟩

namespace Rounds

variable {out : S → R} {point : Nat → Place I L × S → Prop} {total : Nat → List E}
  {leaves : Nat → Prop} {result : Nat → R}
  (h : m.Rounds seen out prog s point total leaves result)
include h

theorem reach (n : Nat) (hn : ∀ j < n, ¬ leaves j) :
    m.Leads prog (.inside prog, s) (point n) := by
  induction n with
  | zero => exact h.begins
  | succ n ih =>
      refine (ih fun j hj => hn j (Nat.lt_succ_of_lt hj)).bind fun a ha => ?_
      exact h.next n a ha (hn n (Nat.lt_succ_self n))

theorem le_length (n : Nat) : n ≤ (total n).length := by
  induction n with
  | zero => exact Nat.zero_le _
  | succ n ih => exact Nat.lt_of_le_of_lt ih (h.longer n)

/-- The run ends after the first round after which it leaves. -/
theorem yields_of {n : Nat} (hn : ∀ j < n, ¬ leaves j) (hleaves : leaves n) :
    m.Yields seen out prog s (total n) (result n) := by
  obtain ⟨a, ha, hpoint⟩ := h.reach n hn
  obtain ⟨c, hc, hfinal, hseen, hout⟩ := h.ends n a hpoint hleaves
  exact ⟨c.1, c.2, ⟨ha.trans hc, hfinal⟩, hseen, hout⟩

/-- As far as rounds are gone through, what they have done is seen. -/
theorem emits_of (hadds : m.Adds seen) (hs : seen s = []) {n : Nat} {l : List E}
    (hn : ∀ j < n, ¬ leaves j) (hl : l <+: total n) : m.Emits seen prog s l := by
  obtain ⟨a, ha, hpoint⟩ := h.reach n hn
  exact hadds.emits_of_prefix ha hs (h.seen_eq n a hpoint ▸ hl)

/-- Nothing else is seen. -/
theorem exists_of_emits (hadds : m.Adds seen) {l : List E} (hl : m.Emits seen prog s l) :
    ∃ n, (∀ j < n, ¬ leaves j) ∧ l <+: total n := by
  classical
  by_cases hex : ∃ n, leaves n
  · have hmin : ∀ j < Nat.find hex, ¬ leaves j := fun j hj => Nat.find_min hex hj
    have hyields := h.yields_of hmin (Nat.find_spec hex)
    exact ⟨Nat.find hex, hmin, hadds.emits_prefix_of_yields hyields hl⟩
  · have hnever : ∀ n, ¬ leaves n := fun n hn => hex ⟨n, hn⟩
    obtain ⟨a, ha, hpoint⟩ := h.reach (l.length + 1) fun j _ => hnever j
    have htotal := h.seen_eq _ a hpoint
    refine ⟨l.length + 1, fun j _ => hnever j, ?_⟩
    obtain hpre | hpre := hadds.emits_total hl ⟨a, ha, htotal⟩
    · exact hpre
    · have := hpre.length_le
      have := h.le_length (l.length + 1)
      omega

theorem emits_iff (hadds : m.Adds seen) (hs : seen s = []) {l : List E} :
    m.Emits seen prog s l ↔ ∃ n, (∀ j < n, ¬ leaves j) ∧ l <+: total n :=
  ⟨h.exists_of_emits hadds, fun ⟨_, hn, hl⟩ => h.emits_of hadds hs hn hl⟩

theorem yields_iff (hadds : m.Adds seen) {l : List E} {r : R} :
    m.Yields seen out prog s l r ↔
      ∃ n, (∀ j < n, ¬ leaves j) ∧ leaves n ∧ l = total n ∧ r = result n := by
  classical
  refine ⟨fun hy => ?_, fun ⟨n, hn, hleaves, hl, hr⟩ => hl ▸ hr ▸ h.yields_of hn hleaves⟩
  by_cases hex : ∃ n, leaves n
  · have hmin : ∀ j < Nat.find hex, ¬ leaves j := fun j hj => Nat.find_min hex hj
    obtain ⟨hl, hr⟩ := hy.unique (h.yields_of hmin (Nat.find_spec hex))
    exact ⟨Nat.find hex, hmin, Nat.find_spec hex, hl, hr⟩
  · -- a run that goes on for ever does not end
    have hnever : ∀ n, ¬ leaves n := fun n hn => hex ⟨n, hn⟩
    obtain ⟨a, ha, hpoint⟩ := h.reach (l.length + 1) fun j _ => hnever j
    have hpre := hadds.emits_prefix_of_yields hy ⟨a, ha, h.seen_eq _ a hpoint⟩
    have := hpre.length_le
    have := h.le_length (l.length + 1)
    omega

end Rounds

end Tendra.Machine
