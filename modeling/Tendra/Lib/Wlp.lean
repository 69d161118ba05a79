import Mathlib.Init

/-!
# Weakest liberal preconditions for state and failure

`Wlp m s Q` says that `m` from `s` does not end otherwise than in `Q`; it may fail. There is
one rule for each way to build a program. What every step of a program keeps of the state is a
relation, and the rules for it need no more than that it is reflexive and transitive.
-/

namespace Tendra.Prog

variable {σ : Type} {α β : Type}
variable {s : σ} {m : StateT σ Option α} {Q : α → σ → Prop} {f : α → StateT σ Option β}

/-- Where the program ends, it ends in `Q`. -/
def Wlp (m : StateT σ Option α) (s : σ) (Q : α → σ → Prop) : Prop :=
  ∀ a s', m s = some (a, s') → Q a s'

theorem Wlp.mono {Q' : α → σ → Prop} (h : Wlp m s Q) (hQ : ∀ a s', Q a s' → Q' a s') : Wlp m s Q' :=
  fun a s' hm => hQ a s' (h a s' hm)

theorem bind_eq_some {r : β × σ} :
    (m >>= f) s = some r ↔ ∃ a s', m s = some (a, s') ∧ f a s' = some r := by
  show (m s).bind (fun p => f p.1 p.2) = some r ↔ _
  rw [Option.bind_eq_some_iff]
  simp only [Prod.exists]

@[simp] theorem wlp_pure {a : α} : Wlp (pure a : StateT σ Option α) s Q ↔ Q a s := by
  constructor
  · exact fun h => h a s rfl
  · intro h b s' hb
    obtain ⟨rfl, rfl⟩ := Prod.mk.inj (Option.some.inj hb)
    exact h

@[simp] theorem wlp_bind {Q : β → σ → Prop} :
    Wlp (m >>= f) s Q ↔ Wlp m s fun a s' => Wlp (f a) s' Q := by
  constructor
  · exact fun h a s' hm b s'' hf => h b s'' (bind_eq_some.2 ⟨a, s', hm, hf⟩)
  · intro h b s'' hb
    obtain ⟨a, s', hm, hf⟩ := bind_eq_some.1 hb
    exact h a s' hm b s'' hf

@[simp] theorem wlp_failure : Wlp (failure : StateT σ Option α) s Q := fun _ _ h => nomatch h

@[simp] theorem wlp_guard {p : Prop} [Decidable p] {Q : Unit → σ → Prop} :
    Wlp (guard p : StateT σ Option Unit) s Q ↔ (p → Q () s) := by
  by_cases hp : p
  · show Wlp (if p then pure () else failure) s Q ↔ _
    rw [if_pos hp, wlp_pure]
    exact ⟨fun h _ => h, fun h => h hp⟩
  · show Wlp (if p then pure () else failure) s Q ↔ _
    rw [if_neg hp]
    exact ⟨fun _ h => absurd h hp, fun _ => wlp_failure⟩

@[simp] theorem wlp_get {Q : σ → σ → Prop} : Wlp (get : StateT σ Option σ) s Q ↔ Q s s := by
  constructor
  · exact fun h => h s s rfl
  · intro h a s' ha
    obtain ⟨rfl, rfl⟩ := Prod.mk.inj (Option.some.inj ha)
    exact h

@[simp] theorem wlp_modify {f : σ → σ} {Q : PUnit → σ → Prop} :
    Wlp (modify f : StateT σ Option PUnit) s Q ↔ Q ⟨⟩ (f s) := by
  constructor
  · exact fun h => h _ (f s) rfl
  · intro h a s' ha
    obtain ⟨rfl, rfl⟩ := Prod.mk.inj (Option.some.inj ha)
    exact h

/-- Wherever the program ends, the state is related to that in which it began. -/
def Keeps (R : σ → σ → Prop) (m : StateT σ Option α) : Prop := ∀ s, Wlp m s fun _ s' => R s s'

section

variable {R : σ → σ → Prop} (hrefl : ∀ s, R s s)
  (htrans : ∀ {s s' s''}, R s s' → R s' s'' → R s s'')

include hrefl in
theorem keeps_pure (a : α) : Keeps R (pure a) := fun s => wlp_pure.2 (hrefl s)

include htrans in
theorem keeps_bind (hm : Keeps R m) (hf : ∀ a, Keeps R (f a)) : Keeps R (m >>= f) := fun s =>
  wlp_bind.2 ((hm s).mono fun a s' h => (hf a s').mono fun _ _ h' => htrans h h')

include hrefl in
theorem keeps_guard (p : Prop) [Decidable p] : Keeps R (guard p) :=
  fun s => wlp_guard.2 fun _ => hrefl s

include hrefl in
theorem keeps_get : Keeps R (get : StateT σ Option σ) := fun s => wlp_get.2 (hrefl s)

theorem keeps_failure : Keeps R (failure : StateT σ Option α) := fun _ => wlp_failure

theorem keeps_modify {f : σ → σ} (h : ∀ s, R s (f s)) :
    Keeps R (modify f : StateT σ Option PUnit) :=
  fun s => wlp_modify.2 (h s)

end

end Tendra.Prog
