import Mathlib.Data.Finset.Card
import Tendra.Lib.Scc
import Tendra.Ref.Sid.Cycles

/-!
# The cycle finder finds the components

The first traversal puts the rules in finishing order, and the second one takes
apart the components. A rule that is not the root of the second traversal is listed
when it is done with. The root is listed if the traversal came back to it, which
it does exactly if the root calls a rule that has been seen: if it lies on a cycle.
-/

namespace Tendra.Ref.Sid

open Relation Tendra.Scc

variable {r fuel : Nat}

/-! ## The first traversal -/

section

variable {calls : Nat → List Nat} {roots new new' : List Nat} {src src' : Nat → Prop}
  {st st' st1 st2 : Dfs} {v : Nat}

/-- `u` calls `v`. -/
def Edge (calls : Nat → List Nat) (u v : Nat) : Prop := v ∈ calls u

/-- What a part of the first traversal does that starts from the rules `src`: the rules
`new` are traced. -/
structure Traced (calls : Nat → List Nat) (src : Nat → Prop) (st st' : Dfs) (new : List Nat) :
    Prop where
  list : st'.list = new ++ st.list
  state : ∀ v, st'.state v = if v ∈ new then .traced else st.state v
  fresh : ∀ v ∈ new, st.state v = .untraced
  nodup : new.Nodup
  reach : ∀ v ∈ new, ∃ c, src c ∧ ReflTransGen (Edge calls) c v
  closed : ∀ v ∈ new, ∀ u ∈ calls v, st'.state u ≠ .untraced
  done : ∀ c, src c → st'.state c ≠ .untraced

/-- What holds throughout the first traversal. -/
structure DfsInv (calls : Nat → List Nat) (st : Dfs) : Prop where
  traced : ∀ v, st.state v = .traced ↔ v ∈ st.list
  closed : ∀ v ∈ st.list, ∀ u ∈ calls v, st.state u ≠ .untraced
  order : FinishOrder (Edge calls) st.list
  noCycling : ∀ v, st.state v ≠ .cycling

/-- The rules that are left to trace. -/
def left (roots : List Nat) (st : Dfs) : Finset Nat :=
  roots.toFinset.filter fun v => st.state v = .untraced

theorem mem_left :
    v ∈ left roots st ↔ v ∈ roots ∧ st.state v = .untraced := by
  simp [left]

theorem left_mono (h : ∀ v, st'.state v = .untraced → st.state v = .untraced) :
    left roots st' ⊆ left roots st := by
  intro v hv
  rw [mem_left] at hv ⊢
  exact ⟨hv.1, h v hv.2⟩

/-- A rule that is not untraced any more is left no more. -/
theorem untraced_of_set {s : DfsState} (hs : s ≠ .untraced)
    (hv : (st.set r s).state v = .untraced) : v ≠ r ∧ st.state v = .untraced := by
  have hvr : v ≠ r := by
    rintro rfl
    rw [Dfs.set_state_self] at hv
    exact hs hv
  rw [Dfs.set_state_of_ne st hvr] at hv
  exact ⟨hvr, hv⟩

theorem left_set_lt (hr : r ∈ roots)
    (hst : st.state r = .untraced) {s : DfsState} (hs : s ≠ .untraced) :
    (left roots (st.set r s)).card < (left roots st).card := by
  refine Finset.card_lt_card ⟨left_mono fun v hv => (untraced_of_set hs hv).2, ?_⟩
  intro hsub
  have hmem := mem_left.1 (hsub (mem_left.2 ⟨hr, hst⟩))
  exact (untraced_of_set hs hmem.2).1 rfl

theorem left_card_le (roots : List Nat) (st : Dfs) : (left roots st).card ≤ roots.length :=
  (Finset.card_filter_le _ _).trans roots.toFinset_card_le

/-- A loop over the rules `cs`, from what each turn does, `T`, that can be put together. -/
theorem exists_foldlM (roots : List Nat) {f : Dfs → Nat → Option Dfs} {I : Dfs → Prop}
    {T : (Nat → Prop) → Dfs → Dfs → List Nat → Prop} (hnil : ∀ st, T (· ∈ ([] : List Nat)) st st [])
    (htrans : ∀ {src src' st st1 st2 new new'}, T src st st1 new → T src' st1 st2 new' →
      T (fun c => src c ∨ src' c) st st2 (new' ++ new))
    (huntraced : ∀ {src st st' new v}, T src st st' new → st'.state v = .untraced →
      st.state v = .untraced) (cs : List Nat)
    (hf : ∀ c ∈ cs, ∀ st, I st → (left roots st).card < fuel →
      ∃ st' new, f st c = some st' ∧ T (· = c) st st' new ∧ I st') (hst : I st)
    (hfuel : (left roots st).card < fuel) :
    ∃ st' new, cs.foldlM f st = some st' ∧ T (· ∈ cs) st st' new ∧ I st' := by
  induction cs generalizing st with
  | nil => exact ⟨st, [], rfl, hnil st, hst⟩
  | cons c cs ih =>
      rw [List.forall_mem_cons] at hf
      obtain ⟨st1, new, hrun, htr, hst1⟩ := hf.1 st hst hfuel
      obtain ⟨st2, new', hrun', htr', hst2⟩ := ih hf.2 hst1
        (Nat.lt_of_le_of_lt (Finset.card_le_card (left_mono fun _ => huntraced htr)) hfuel)
      refine ⟨st2, new' ++ new, ?_, ?_, hst2⟩
      · rw [List.foldlM_cons, hrun]
        exact hrun'
      · simp only [List.mem_cons]
        exact htrans htr htr'

theorem Traced.untraced (h : Traced calls src st st' new) (hv : st'.state v = .untraced) :
    st.state v = .untraced := by
  rw [h.state] at hv
  split at hv
  · cases hv
  · exact hv

theorem Traced.refl (h : ∀ c, src c → st.state c ≠ .untraced) :
    Traced calls src st st [] :=
  ⟨rfl, fun _ => rfl, fun _ hv => (by cases hv), List.nodup_nil, fun _ hv => (by cases hv),
    fun _ hv => (by cases hv), h⟩

/-- One part after another. -/
theorem Traced.trans (h : Traced calls src st st1 new) (h' : Traced calls src' st1 st2 new') :
    Traced calls (fun c => src c ∨ src' c) st st2 (new' ++ new) where
  list := by rw [h'.list, h.list, List.append_assoc]
  state := by
    intro v
    rw [h'.state, h.state]
    by_cases hv : v ∈ new'
    · simp [hv]
    · simp [hv]
  fresh := by
    intro v hv
    rcases List.mem_append.1 hv with hv | hv
    · exact h.untraced (h'.fresh v hv)
    · exact h.fresh v hv
  nodup := by
    refine List.nodup_append.2 ⟨h'.nodup, h.nodup, ?_⟩
    rintro v hv' w hw rfl
    have hun := h'.fresh v hv'
    rw [h.state, if_pos hw] at hun
    cases hun
  reach := by
    intro v hv
    rcases List.mem_append.1 hv with hv | hv
    · obtain ⟨c, hc, hcv⟩ := h'.reach v hv
      exact ⟨c, Or.inr hc, hcv⟩
    · obtain ⟨c, hc, hcv⟩ := h.reach v hv
      exact ⟨c, Or.inl hc, hcv⟩
  closed := by
    intro v hv u hu
    rcases List.mem_append.1 hv with hv | hv
    · exact h'.closed v hv u hu
    · exact fun hun => h.closed v hv u hu (h'.untraced hun)
  done := by
    rintro c (hc | hc)
    · exact fun hun => h.done c hc (h'.untraced hun)
    · exact h'.done c hc

theorem DfsInv.setTracing (h : DfsInv calls st)
    (hr : st.state r = .untraced) : DfsInv calls (st.set r .tracing) where
  traced := by
    intro v
    rw [Dfs.set_list, ← h.traced]
    by_cases hv : v = r
    · subst hv
      rw [Dfs.set_state_self, hr]
      decide
    · rw [Dfs.set_state_of_ne st hv]
  closed := by
    intro v hv u hu hun
    exact h.closed v hv u hu (untraced_of_set (by decide) hun).2
  order := h.order
  noCycling := by
    intro v
    by_cases hv : v = r
    · subst hv
      rw [Dfs.set_state_self]
      decide
    · rw [Dfs.set_state_of_ne st hv]
      exact h.noCycling v

/-- The end of the call on a rule. -/
theorem traced_push (hr : st.state r = .untraced)
    (h : Traced calls (· ∈ calls r) (st.set r .tracing) st2 new) :
    Traced calls (· = r) st ((st2.set r .traced).push r) (r :: new) := by
  have hnew : r ∉ new := by
    intro hmem
    have hun := h.fresh r hmem
    rw [Dfs.set_state_self] at hun
    cases hun
  have hstate : ∀ v, ((st2.set r .traced).push r).state v =
      if v ∈ r :: new then .traced else st.state v := by
    intro v
    rw [Dfs.push_state]
    by_cases hv : v = r
    · subst hv
      rw [Dfs.set_state_self, if_pos List.mem_cons_self]
    · rw [Dfs.set_state_of_ne st2 hv, h.state, Dfs.set_state_of_ne st hv]
      simp [hv]
  have hmono : ∀ {u}, st2.state u ≠ .untraced →
      ((st2.set r .traced).push r).state u ≠ .untraced := by
    intro u hu hun
    exact hu (untraced_of_set (by decide) hun).2
  refine ⟨?_, hstate, ?_, List.nodup_cons.2 ⟨hnew, h.nodup⟩, ?_, ?_, ?_⟩
  · rw [Dfs.push_list, Dfs.set_list, h.list, Dfs.set_list, List.cons_append]
  · intro v hv
    rcases List.mem_cons.1 hv with rfl | hv
    · exact hr
    · exact (untraced_of_set (by decide) (h.fresh v hv)).2
  · intro v hv
    rcases List.mem_cons.1 hv with rfl | hv
    · exact ⟨v, rfl, ReflTransGen.refl⟩
    · obtain ⟨c, hc, hcv⟩ := h.reach v hv
      exact ⟨r, rfl, hcv.head hc⟩
  · intro v hv u hu
    rcases List.mem_cons.1 hv with rfl | hv
    · exact hmono (h.done u hu)
    · exact hmono (h.closed v hv u hu)
  · rintro c rfl
    rw [hstate, if_pos List.mem_cons_self]
    decide

theorem dfsInv_push (hst : DfsInv calls st)
    (hr : st.state r = .untraced) (h : Traced calls (· ∈ calls r) (st.set r .tracing) st2 new)
    (hst2 : DfsInv calls st2) : DfsInv calls ((st2.set r .traced).push r) := by
  have hpush := traced_push hr h
  have hlist : st2.list = new ++ st.list := h.list
  refine ⟨?_, ?_, ?_, ?_⟩
  · intro v
    rw [Dfs.push_state, Dfs.push_list, Dfs.set_list, List.mem_cons]
    by_cases hv : v = r
    · subst hv
      rw [Dfs.set_state_self]
      exact iff_of_true rfl (Or.inl rfl)
    · rw [Dfs.set_state_of_ne st2 hv, hst2.traced, or_iff_right hv]
  · intro v hv u hu
    rw [hpush.list] at hv
    rcases List.mem_append.1 hv with hv | hv
    · exact hpush.closed v hv u hu
    · exact fun hun => hst.closed v hv u hu (hpush.untraced hun)
  · rw [Dfs.push_list, Dfs.set_list, hlist]
    refine FinishOrder.cons (hlist ▸ hst2.order) ?_ ?_ ?_
    · intro y hy
      obtain ⟨c, rfl, hcy⟩ := hpush.reach y (List.mem_cons_of_mem _ hy)
      exact hcy
    · rw [← hst.traced, hr]
      decide
    · intro u hu v huv
      exact Or.inr fun hv => hst.closed u hu v huv (hpush.fresh v hv)
  · intro v
    rw [Dfs.push_state]
    by_cases hv : v = r
    · subst hv
      rw [Dfs.set_state_self]
      decide
    · rw [Dfs.set_state_of_ne st2 hv]
      exact hst2.noCycling v

/-- A part of the traversal that comes to an end. -/
def Runs (calls : Nat → List Nat) (src : Nat → Prop) (st : Dfs) (res : Option Dfs) : Prop :=
  ∃ st' new, res = some st' ∧ Traced calls src st st' new ∧ DfsInv calls st'

/-- `rule_compute_dfs`. -/
theorem computeDfs_runs (hclosed : ∀ r ∈ roots, ∀ c ∈ calls r, c ∈ roots)
    (fuel : Nat) : ∀ {r : Nat}, r ∈ roots → ∀ {st : Dfs}, DfsInv calls st →
      (left roots st).card < fuel → Runs calls (· = r) st (computeDfs calls fuel r st) := by
  induction fuel with
  | zero =>
      intro r _ st _ hfuel
      exact absurd hfuel (Nat.not_lt_zero _)
  | succ fuel ih =>
      intro r hr st hst hfuel
      have hrefl : st.state r ≠ .untraced → Runs calls (· = r) st (some st) := by
        intro hne
        exact ⟨st, [], rfl, Traced.refl fun c hc => hc ▸ hne, hst⟩
      rw [computeDfs]
      cases hs : st.state r with
      | untraced =>
          have hless := left_set_lt hr hs (s := .tracing) (by decide)
          obtain ⟨st2, new, hrun, htr, hst2⟩ := exists_foldlM roots
            (fun st => Traced.refl fun c hc => (by cases hc)) Traced.trans Traced.untraced (calls r)
            (fun c hc st hst hlt => ih (hclosed r hr c hc) hst hlt) (hst.setTracing hs)
            (Nat.lt_of_lt_of_le hless (Nat.le_of_lt_succ hfuel))
          refine ⟨(st2.set r .traced).push r, r :: new, ?_, traced_push hs htr,
            dfsInv_push hst hs htr hst2⟩
          dsimp only
          rw [hrun]
          rfl
      | tracing => exact hrefl (by rw [hs]; decide)
      | traced => exact hrefl (by rw [hs]; decide)
      | cycling => exact absurd hs (hst.noCycling r)

end

/-! ## The second traversal -/

section

variable {rev : Nat → List Nat} {root v : Nat} {new new' : List Nat} {src src' : Nat → Prop}
  {st st' st1 st2 : Dfs}

/-- `u` calls `v`, by the reverse lists. -/
def RevEdge (rev : Nat → List Nat) (u v : Nat) : Prop := u ∈ rev v

/-- What a part of the second traversal does, while its root is being traced. -/
structure RevTraced (rev : Nat → List Nat) (root : Nat) (src : Nat → Prop) (st st' : Dfs)
    (new : List Nat) : Prop where
  list : st'.list = new ++ st.list
  traced : ∀ v ∈ new, st'.state v = .traced
  fresh : ∀ v ∈ new, st.state v = .untraced
  kept : ∀ v, v ∉ new →
    st'.state v = st.state v ∨ st.state v = .tracing ∧ st'.state v = .cycling
  nodup : new.Nodup
  reach : ∀ v ∈ new, ∃ c, src c ∧ ReachIn (RevEdge rev) (fun u => st.state u = .untraced) v c
  closed : ∀ v ∈ new, ∀ u ∈ rev v, st'.state u ≠ .untraced
  done : ∀ c, src c → st'.state c ≠ .untraced
  root : st'.state root = .cycling ↔
    st.state root = .cycling ∨ src root ∨ ∃ v ∈ new, root ∈ rev v

/-- The root of the traversal is on the stack. -/
def OnStack (root : Nat) (st : Dfs) : Prop :=
  st.state root = .tracing ∨ st.state root = .cycling

theorem RevTraced.untraced (h : RevTraced rev root src st st' new) (hv : st'.state v = .untraced) :
    st.state v = .untraced := by
  by_cases hmem : v ∈ new
  · rw [h.traced v hmem] at hv
    cases hv
  · rcases h.kept v hmem with heq | ⟨-, hc⟩
    · rw [← heq]
      exact hv
    · rw [hc] at hv
      cases hv

theorem RevTraced.onStack (h : RevTraced rev root src st st' new) (hst : OnStack root st) :
    OnStack root st' := by
  have hnew : root ∉ new := by
    intro hmem
    rcases hst with hs | hs
    · rw [h.fresh root hmem] at hs
      cases hs
    · rw [h.fresh root hmem] at hs
      cases hs
  rcases h.kept root hnew with heq | ⟨-, hc⟩
  · rw [OnStack, heq]
    exact hst
  · exact Or.inr hc

/-- One part after another. -/
theorem RevTraced.trans (h : RevTraced rev root src st st1 new)
    (h' : RevTraced rev root src' st1 st2 new') :
    RevTraced rev root (fun c => src c ∨ src' c) st st2 (new' ++ new) where
  list := by rw [h'.list, h.list, List.append_assoc]
  traced := by
    intro v hv
    by_cases hmem : v ∈ new'
    · exact h'.traced v hmem
    · have hv' := h.traced v ((List.mem_append.1 hv).resolve_left hmem)
      rcases h'.kept v hmem with heq | ⟨htr, -⟩
      · rw [heq, hv']
      · rw [hv'] at htr
        cases htr
  fresh := by
    intro v hv
    rcases List.mem_append.1 hv with hv | hv
    · exact h.untraced (h'.fresh v hv)
    · exact h.fresh v hv
  kept := by
    intro v hv
    rw [List.mem_append, not_or] at hv
    rcases h.kept v hv.2 with heq | ⟨htr, hc⟩ <;> rcases h'.kept v hv.1 with heq' | ⟨htr', hc'⟩
    · exact Or.inl (heq'.trans heq)
    · exact Or.inr ⟨heq ▸ htr', hc'⟩
    · exact Or.inr ⟨htr, heq'.trans hc⟩
    · exact Or.inr ⟨htr, hc'⟩
  nodup := by
    refine List.nodup_append.2 ⟨h'.nodup, h.nodup, ?_⟩
    rintro v hv' w hw rfl
    have hun := h'.fresh v hv'
    rw [h.traced v hw] at hun
    cases hun
  reach := by
    intro v hv
    rcases List.mem_append.1 hv with hv | hv
    · obtain ⟨c, hc, hvc⟩ := h'.reach v hv
      exact ⟨c, Or.inr hc, hvc.mono fun u hu => h.untraced hu⟩
    · obtain ⟨c, hc, hvc⟩ := h.reach v hv
      exact ⟨c, Or.inl hc, hvc⟩
  closed := by
    intro v hv u hu
    rcases List.mem_append.1 hv with hv | hv
    · exact h'.closed v hv u hu
    · exact fun hun => h.closed v hv u hu (h'.untraced hun)
  done := by
    rintro c (hc | hc)
    · exact fun hun => h.done c hc (h'.untraced hun)
    · exact h'.done c hc
  root := by
    rw [h'.root, h.root]
    constructor
    · rintro ((hc | hs | ⟨v, hv, hr⟩) | hs | ⟨v, hv, hr⟩)
      · exact Or.inl hc
      · exact Or.inr (Or.inl (Or.inl hs))
      · exact Or.inr (Or.inr ⟨v, List.mem_append_right _ hv, hr⟩)
      · exact Or.inr (Or.inl (Or.inr hs))
      · exact Or.inr (Or.inr ⟨v, List.mem_append_left _ hv, hr⟩)
    · rintro (hc | (hs | hs) | ⟨v, hv, hr⟩)
      · exact Or.inl (Or.inl hc)
      · exact Or.inl (Or.inr (Or.inl hs))
      · exact Or.inr (Or.inl hs)
      · rcases List.mem_append.1 hv with hv | hv
        · exact Or.inr (Or.inr ⟨v, hv, hr⟩)
        · exact Or.inl (Or.inr (Or.inr ⟨v, hv, hr⟩))

/-- A rule that is on the stack, or has been traced. -/
theorem revTraced_refl (h : ∀ c, src c → st.state c ≠ .untraced)
    (hroot : src root → st.state root = .cycling) : RevTraced rev root src st st [] where
  list := rfl
  traced := fun _ hv => (by cases hv)
  fresh := fun _ hv => (by cases hv)
  kept := fun _ _ => Or.inl rfl
  nodup := List.nodup_nil
  reach := fun _ hv => (by cases hv)
  closed := fun _ hv => (by cases hv)
  done := h
  root := by
    constructor
    · exact Or.inl
    · rintro (hc | hs | ⟨v, hv, -⟩)
      · exact hc
      · exact hroot hs
      · cases hv

/-- A rule that is met again while it is on the stack. -/
theorem revTraced_cycling (hr : st.state r = .tracing) :
    RevTraced rev root (· = r) st (st.set r .cycling) [] where
  list := rfl
  traced := fun _ hv => (by cases hv)
  fresh := fun _ hv => (by cases hv)
  kept := by
    intro v _
    by_cases hv : v = r
    · subst hv
      exact Or.inr ⟨hr, Dfs.set_state_self _ _ _⟩
    · exact Or.inl (Dfs.set_state_of_ne st hv _)
  nodup := List.nodup_nil
  reach := fun _ hv => (by cases hv)
  closed := fun _ hv => (by cases hv)
  done := by
    rintro c rfl
    rw [Dfs.set_state_self]
    decide
  root := by
    by_cases hrr : root = r
    · subst hrr
      rw [Dfs.set_state_self]
      exact iff_of_true rfl (Or.inr (Or.inl rfl))
    · rw [Dfs.set_state_of_ne st hrr]
      simp [hrr]

/-- The end of the call on a rule that is not the root. -/
theorem revTraced_push (hne : r ≠ root) (hr : st.state r = .untraced)
    (h : RevTraced rev root (· ∈ rev r) (st.set r .tracing) st2 new) :
    RevTraced rev root (· = r) st ((st2.push r).set r .traced) (r :: new) := by
  have hnew : r ∉ new := by
    intro hmem
    have hun := h.fresh r hmem
    rw [Dfs.set_state_self] at hun
    cases hun
  have hmono : ∀ {u}, st2.state u ≠ .untraced →
      ((st2.push r).set r .traced).state u ≠ .untraced := by
    intro u hu hun
    exact hu (untraced_of_set (by decide) hun).2
  have hother : ∀ {v}, v ≠ r → ((st2.push r).set r .traced).state v = st2.state v :=
    fun hv => Dfs.set_state_of_ne _ hv _
  refine ⟨?_, ?_, ?_, ?_, List.nodup_cons.2 ⟨hnew, h.nodup⟩, ?_, ?_, ?_, ?_⟩
  · rw [Dfs.set_list, Dfs.push_list, h.list, Dfs.set_list, List.cons_append]
  · intro v hv
    rcases List.mem_cons.1 hv with rfl | hv
    · exact Dfs.set_state_self _ _ _
    · rw [hother fun heq => hnew (heq ▸ hv), h.traced v hv]
  · intro v hv
    rcases List.mem_cons.1 hv with rfl | hv
    · exact hr
    · exact (untraced_of_set (by decide) (h.fresh v hv)).2
  · intro v hv
    rw [List.mem_cons, not_or] at hv
    rw [hother hv.1, ← Dfs.set_state_of_ne st hv.1 .tracing]
    exact h.kept v hv.2
  · intro v hv
    rcases List.mem_cons.1 hv with rfl | hv
    · exact ⟨v, rfl, hr, ReflTransGen.refl⟩
    · obtain ⟨c, hc, hvc⟩ := h.reach v hv
      exact ⟨r, rfl, (hvc.mono fun u hu => (untraced_of_set (by decide) hu).2).tail hc hr⟩
  · intro v hv u hu
    rcases List.mem_cons.1 hv with rfl | hv
    · exact hmono (h.done u hu)
    · exact hmono (h.closed v hv u hu)
  · rintro c rfl
    rw [Dfs.set_state_self]
    decide
  · rw [hother hne.symm, h.root, Dfs.set_state_of_ne st hne.symm]
    refine or_congr_right ?_
    constructor
    · rintro (hs | ⟨v, hv, hs⟩)
      · exact Or.inr ⟨r, List.mem_cons_self, hs⟩
      · exact Or.inr ⟨v, List.mem_cons_of_mem _ hv, hs⟩
    · rintro (hs | ⟨v, hv, hs⟩)
      · exact absurd hs.symm hne
      · rcases List.mem_cons.1 hv with rfl | hv
        · exact Or.inl hs
        · exact Or.inr ⟨v, hv, hs⟩

/-- A part of the second traversal that comes to an end. -/
def RevRuns (rev : Nat → List Nat) (root : Nat) (src : Nat → Prop) (st : Dfs) (res : Option Dfs) :
    Prop :=
  ∃ st' new, res = some st' ∧ RevTraced rev root src st st' new

theorem revRuns_foldlM (roots : List Nat) {f : Dfs → Nat → Option Dfs} (cs : List Nat)
    (hf : ∀ c ∈ cs, ∀ st, OnStack root st → (left roots st).card < fuel →
      RevRuns rev root (· = c) st (f st c)) (hst : OnStack root st)
    (hfuel : (left roots st).card < fuel) : RevRuns rev root (· ∈ cs) st (cs.foldlM f st) := by
  obtain ⟨st', new, hrun, htr, -⟩ := exists_foldlM roots
    (fun st => revTraced_refl (fun c hc => (by cases hc)) fun hc => (by cases hc)) RevTraced.trans
    RevTraced.untraced cs (fun c hc st hst hlt => by
      obtain ⟨st', new, hrun, htr⟩ := hf c hc st hst hlt
      exact ⟨st', new, hrun, htr, htr.onStack hst⟩) hst hfuel
  exact ⟨st', new, hrun, htr⟩

/-- `rule_compute_reverse_dfs` while its root is on the stack. -/
theorem computeReverseDfs_runs {roots : List Nat} (hclosed : ∀ r, ∀ c ∈ rev r, c ∈ roots)
    (fuel : Nat) : ∀ {r : Nat}, r ∈ roots → ∀ {st : Dfs}, OnStack root st →
      (left roots st).card < fuel →
        RevRuns rev root (· = r) st (computeReverseDfs rev root fuel r st) := by
  induction fuel with
  | zero =>
      intro r _ st _ hfuel
      exact absurd hfuel (Nat.not_lt_zero _)
  | succ fuel ih =>
      intro r hr st hst hfuel
      rw [computeReverseDfs]
      cases hs : st.state r with
      | untraced =>
          have hne : r ≠ root := by
            rintro rfl
            rcases hst with h | h <;> rw [hs] at h <;> cases h
          have hst1 : OnStack root (st.set r .tracing) := by
            rw [OnStack, Dfs.set_state_of_ne st hne.symm]
            exact hst
          have hless := left_set_lt hr hs (s := .tracing) (by decide)
          obtain ⟨st2, new, hrun, htr⟩ := revRuns_foldlM roots (rev r)
            (fun c hc st hst hlt => ih (hclosed r c hc) hst hlt) hst1
            (Nat.lt_of_lt_of_le hless (Nat.le_of_lt_succ hfuel))
          refine ⟨(st2.push r).set r .traced, r :: new, ?_, revTraced_push hne hs htr⟩
          dsimp only
          rw [hrun]
          simp [hne]
      | cycling =>
          refine ⟨st, [], rfl, revTraced_refl ?_ ?_⟩
          · rintro c rfl
            rw [hs]
            decide
          · rintro rfl
            exact hs
      | traced =>
          refine ⟨st, [], rfl, revTraced_refl ?_ ?_⟩
          · rintro c rfl
            rw [hs]
            decide
          · rintro rfl
            rcases hst with h | h <;> rw [hs] at h <;> cases h
      | tracing => exact ⟨st.set r .cycling, [], rfl, revTraced_cycling hs⟩

/-- `rule_compute_reverse_dfs` on its root: the rules it traces are those that reach the
root, and the root is listed if it calls one of them. -/
theorem computeReverseDfs_root {roots : List Nat} (hclosed : ∀ r, ∀ c ∈ rev r, c ∈ roots)
    (hroot : root ∈ roots) {state : Nat → DfsState}
    (hstate : ∀ v, state v = .untraced ∨ state v = .traced) (hun : state root = .untraced)
    (hfuel : (left roots ⟨state, []⟩).card < fuel) :
    ∃ st' new, computeReverseDfs rev root fuel root ⟨state, []⟩ = some st' ∧
      (root :: new).Nodup ∧
      (∀ v, v ∈ root :: new ↔ ReachIn (RevEdge rev) (fun u => state u = .untraced) v root) ∧
      (∀ v, st'.state v = if v ∈ root :: new then .traced else state v) ∧
      ((∃ v ∈ root :: new, root ∈ rev v) → st'.list = root :: new) ∧
      ((¬ ∃ v ∈ root :: new, root ∈ rev v) → st'.list = new) := by
  obtain ⟨k, rfl⟩ : ∃ k, fuel = k + 1 := ⟨fuel - 1, by omega⟩
  have hless : (left roots (Dfs.set ⟨state, []⟩ root .tracing)).card <
      (left roots ⟨state, []⟩).card :=
    left_set_lt hroot hun (by decide)
  have honStack : OnStack root (Dfs.set ⟨state, []⟩ root .tracing) :=
    Or.inl (Dfs.set_state_self _ _ _)
  obtain ⟨st2, new, hrun, h⟩ := revRuns_foldlM roots (rev root)
    (fun c hc st hst hlt => computeReverseDfs_runs hclosed k (hclosed root c hc) hst hlt) honStack
    (Nat.lt_of_lt_of_le hless (Nat.le_of_lt_succ hfuel))
  have hnew : root ∉ new := by
    intro hmem
    have hfresh := h.fresh root hmem
    rw [Dfs.set_state_self] at hfresh
    cases hfresh
  have hcycling : st2.state root = .cycling ↔ ∃ v ∈ root :: new, root ∈ rev v := by
    rw [h.root, Dfs.set_state_self]
    constructor
    · rintro (hc | hs | ⟨v, hv, hs⟩)
      · cases hc
      · exact ⟨root, List.mem_cons_self, hs⟩
      · exact ⟨v, List.mem_cons_of_mem _ hv, hs⟩
    · rintro ⟨v, hv, hs⟩
      rcases List.mem_cons.1 hv with rfl | hv
      · exact Or.inr (Or.inl hs)
      · exact Or.inr (Or.inr ⟨v, hv, hs⟩)
  -- rules that are not traced stay as they were
  have hkept : ∀ v, v ∉ root :: new → st2.state v = state v := by
    intro v hv
    rw [List.mem_cons, not_or] at hv
    have hsame : (Dfs.set ⟨state, []⟩ root .tracing).state v = state v :=
      Dfs.set_state_of_ne _ hv.1 _
    rcases h.kept v hv.2 with heq | ⟨htr, -⟩
    · rw [heq, hsame]
    · rw [hsame] at htr
      rcases hstate v with hs | hs <;> rw [hs] at htr <;> cases htr
  refine ⟨(if root = root ∧ st2.state root = .cycling ∨ root ≠ root then st2.push root
    else st2).set root .traced, new, ?_, List.nodup_cons.2 ⟨hnew, h.nodup⟩, ?_, ?_, ?_, ?_⟩
  · rw [computeReverseDfs, show (⟨state, []⟩ : Dfs).state root = .untraced from hun]
    dsimp only
    rw [hrun]
    rfl
  · intro v
    constructor
    · intro hv
      rcases List.mem_cons.1 hv with rfl | hv
      · exact ⟨hun, ReflTransGen.refl⟩
      · obtain ⟨c, hc, hvc⟩ := h.reach v hv
        exact (hvc.mono fun u hu => (untraced_of_set (by decide) hu).2).tail hc hun
    · refine ReachIn.head_induction (P := (· ∈ root :: new)) (fun _ => List.mem_cons_self) ?_
      intro a c ha hac _ hc
      have hseen : st2.state a ≠ .untraced := by
        rcases List.mem_cons.1 hc with rfl | hc
        · exact h.done a hac
        · exact h.closed c hc a hac
      by_contra hout
      exact hseen ((hkept a hout).trans ha)
  · intro v
    by_cases hv : v = root
    · subst hv
      rw [Dfs.set_state_self, if_pos List.mem_cons_self]
    · have hpush : ((if root = root ∧ st2.state root = .cycling ∨ root ≠ root then st2.push root
          else st2).set root .traced).state v = st2.state v := by
        rw [Dfs.set_state_of_ne _ hv]
        split <;> rfl
      rw [hpush]
      by_cases hmem : v ∈ new
      · rw [h.traced v hmem, if_pos (List.mem_cons_of_mem _ hmem)]
      · have hout : v ∉ root :: new := by simp [hv, hmem]
        rw [if_neg hout, hkept v hout]
  · intro hex
    rw [if_pos (Or.inl ⟨rfl, hcycling.2 hex⟩), Dfs.set_list, Dfs.push_list, h.list, Dfs.set_list,
      List.append_nil]
  · intro hno
    have hneg : ¬ (root = root ∧ st2.state root = .cycling ∨ root ≠ root) := by
      rintro (⟨-, hc⟩ | hc)
      · exact hno (hcycling.1 hc)
      · exact hc rfl
    rw [if_neg hneg, Dfs.set_list, h.list, Dfs.set_list, List.append_nil]

end

/-! ## The lists -/

section

variable {rev : Nat → List Nat} {roots : List Nat}

/-- What holds after some turns of the loop; the rules `l` are to come. -/
structure FoundInv (rev : Nat → List Nat) (roots l : List Nat) (st : Found) : Prop where
  states : ∀ v, st.state v = .untraced ∨ st.state v = .traced
  marked : ∀ v, st.noCycles v = true → st.state v = .traced
  gone : ∀ u v, Same (RevEdge rev) u v → st.state u = .traced → st.state v = .traced
  rest : ∀ v ∈ roots, st.state v = .traced ∨ v ∈ l
  component : ∀ c ∈ st.cycles,
    c.Nodup ∧ ∃ v ∈ c, TransGen (RevEdge rev) v v ∧ ∀ u, u ∈ c ↔ Same (RevEdge rev) v u
  listed : ∀ c ∈ st.cycles, ∀ v ∈ c, st.state v = .traced
  complete : ∀ v, st.state v = .traced → TransGen (RevEdge rev) v v → ∃ c ∈ st.cycles, v ∈ c
  disjoint : st.cycles.Pairwise List.Disjoint

/-- A rule that calls a rule of its component lies on a cycle, and so does each rule of a
component with another rule. -/
theorem transGen_self_iff {E : Nat → Nat → Prop} {c : List Nat} (hc : ∀ v, v ∈ c ↔ Same E r v) :
    (∃ v ∈ c, E r v) ↔ TransGen E r r := by
  constructor
  · rintro ⟨v, hv, hrv⟩
    exact TransGen.head' hrv ((hc v).1 hv).2
  · intro h
    obtain ⟨v, hrv, hvr⟩ := TransGen.head'_iff.1 h
    exact ⟨v, (hc v).2 ⟨ReflTransGen.single hrv, hvr⟩, hrv⟩

theorem transGen_of_same_ne {E : Nat → Nat → Prop} {u v : Nat} (h : Same E u v) (hne : u ≠ v) :
    TransGen E u u := by
  rcases reflTransGen_iff_eq_or_transGen.1 h.1 with heq | huv
  · exact absurd heq.symm hne
  · exact huv.trans_left h.2

theorem markCycle_traced {type : CycleType} {l : List Nat} {noCycles : Nat → Bool} {v : Nat}
    (h : markCycle type l noCycles v = true) : noCycles v = true ∨ v ∈ l := by
  cases type with
  | left => simpa [markCycle] using h
  | tail => simpa [markCycle] using h
  | all => exact Or.inl h

/-- One turn of the loop. -/
theorem secondTurn_found (hclosed : ∀ r, ∀ c ∈ rev r, c ∈ roots) (type : CycleType) {x : Nat}
    {l : List Nat} (horder : FinishOrder (RevEdge rev) (x :: l)) (hx : x ∈ roots) {st : Found}
    (hst : FoundInv rev roots (x :: l) st) :
    ∃ st', secondTurn rev type (roots.length + 1) st x = some st' ∧ FoundInv rev roots l st' := by
  -- if the rule has been seen, nothing changes
  have hskip : st.state x = .traced → FoundInv rev roots l st := by
    intro htr
    refine { hst with rest := ?_ }
    intro v hv
    rcases hst.rest v hv with h | h
    · exact Or.inl h
    · rcases List.mem_cons.1 h with rfl | h
      · exact Or.inl htr
      · exact Or.inr h
  rw [secondTurn]
  by_cases hmark : st.noCycles x = true
  · rw [if_pos hmark]
    exact ⟨st, rfl, hskip (hst.marked x hmark)⟩
  rw [if_neg hmark]
  rcases hst.states x with hun | htr
  · have hfuel : (left roots ⟨st.state, []⟩).card < roots.length + 1 :=
      Nat.lt_succ_of_le (left_card_le roots _)
    obtain ⟨dfs, new, hrun, hnodup, hreach, hstate, hyes, hno⟩ :=
      computeReverseDfs_root hclosed hx hst.states hun hfuel
    have hcomp : ∀ v, v ∈ x :: new ↔ Same (RevEdge rev) x v := by
      intro v
      have huntraced : ∀ u, st.state u = .untraced ↔ ¬ st.state u = .traced := by
        intro u
        rcases hst.states u with h | h <;> rw [h] <;> decide
      rw [hreach, ← component_iff horder hst.gone (by rw [hun]; decide) ?_ v]
      · simp only [huntraced]
      · intro u hu hux
        rcases ReflTransGen.cases_head hux with rfl | ⟨c, huc, -⟩
        · exact List.mem_cons_self
        · exact (hst.rest u (hclosed c u huc)).resolve_left hu
    have hgone : ∀ {v}, st.state v = .traced → dfs.state v = .traced := by
      intro v hv
      rw [hstate]
      split
      · rfl
      · exact hv
    have hsplit : ∀ {v}, dfs.state v = .traced → v ∈ x :: new ∨ st.state v = .traced := by
      intro v hv
      rw [hstate] at hv
      split at hv
      · exact Or.inl ‹_›
      · exact Or.inr hv
    have hmem : ∀ {v}, v ∈ x :: new → dfs.state v = .traced := by
      intro v hv
      rw [hstate, if_pos hv]
    -- what holds of the states in both cases
    have hstates' : ∀ v, dfs.state v = .untraced ∨ dfs.state v = .traced := by
      intro v
      rw [hstate]
      split
      · exact Or.inr rfl
      · exact hst.states v
    have hgone' : ∀ u v, Same (RevEdge rev) u v → dfs.state u = .traced →
        dfs.state v = .traced := by
      intro u v huv hu
      rcases hsplit hu with hu | hu
      · exact hmem ((hcomp v).2 (((hcomp u).1 hu).trans huv))
      · exact hgone (hst.gone u v huv hu)
    have hrest' : ∀ v ∈ roots, dfs.state v = .traced ∨ v ∈ l := by
      intro v hv
      rcases hst.rest v hv with h | h
      · exact Or.inl (hgone h)
      · rcases List.mem_cons.1 h with rfl | h
        · exact Or.inl (hmem List.mem_cons_self)
        · exact Or.inr h
    rw [hrun]
    by_cases hcyc : TransGen (RevEdge rev) x x
    · have hlist : dfs.list = x :: new := hyes ((transGen_self_iff hcomp).2 hcyc)
      refine ⟨⟨dfs.state, markCycle type (x :: new) st.noCycles, st.cycles ++ [x :: new]⟩, ?_,
        hstates', ?_, hgone', hrest', ?_, ?_, ?_, ?_⟩
      · simp [hlist]
      · intro v hv
        rcases markCycle_traced hv with h | h
        · exact hgone (hst.marked v h)
        · exact hmem h
      · intro c hc
        rcases List.mem_append.1 hc with hc | hc
        · exact hst.component c hc
        · rw [List.mem_singleton.1 hc]
          exact ⟨hnodup, x, List.mem_cons_self, hcyc, hcomp⟩
      · intro c hc v hv
        rcases List.mem_append.1 hc with hc | hc
        · exact hgone (hst.listed c hc v hv)
        · rw [List.mem_singleton.1 hc] at hv
          exact hmem hv
      · intro v hv hvv
        rcases hsplit hv with hv | hv
        · exact ⟨_, List.mem_append_right _ (List.mem_singleton_self _), hv⟩
        · obtain ⟨c, hc, hvc⟩ := hst.complete v hv hvv
          exact ⟨c, List.mem_append_left _ hc, hvc⟩
      · refine List.pairwise_append.2 ⟨hst.disjoint, List.pairwise_singleton _ _, ?_⟩
        intro c hc c' hc' v hv hv'
        rw [List.mem_singleton.1 hc'] at hv'
        have hvx := hst.gone v x ((hcomp v).1 hv').symm (hst.listed c hc v hv)
        rw [hun] at hvx
        cases hvx
    · have hnew : new = [] := by
        refine List.eq_nil_iff_forall_not_mem.2 fun v hv => ?_
        have hne : x ≠ v := fun heq => (List.nodup_cons.1 hnodup).1 (heq ▸ hv)
        exact hcyc (transGen_of_same_ne ((hcomp v).1 (List.mem_cons_of_mem _ hv)) hne)
      have hlist : dfs.list = [] := by
        rw [hno fun h => hcyc ((transGen_self_iff hcomp).1 h), hnew]
      refine ⟨{ st with state := dfs.state }, ?_, hstates', fun v hv => hgone (hst.marked v hv),
        hgone', hrest', hst.component, fun c hc v hv => hgone (hst.listed c hc v hv), ?_,
        hst.disjoint⟩
      · simp [hlist]
      · intro v hv hvv
        rcases hsplit hv with hv | hv
        · rw [hnew] at hv
          rw [List.mem_singleton.1 hv] at hvv
          exact absurd hvv hcyc
        · exact hst.complete v hv hvv
  · refine ⟨st, ?_, hskip htr⟩
    rw [computeReverseDfs]
    simp [htr]

theorem secondPass_found (hclosed : ∀ r, ∀ c ∈ rev r, c ∈ roots) (type : CycleType)
    (l : List Nat) : FinishOrder (RevEdge rev) l → (∀ r ∈ l, r ∈ roots) → ∀ {st : Found},
      FoundInv rev roots l st → ∃ st',
      l.foldlM (secondTurn rev type (roots.length + 1)) st = some st' ∧
        FoundInv rev roots [] st' := by
  induction l with
  | nil =>
      intro _ _ st hst
      exact ⟨st, rfl, hst⟩
  | cons x l ih =>
      intro horder hl st hst
      obtain ⟨st1, hrun, hst1⟩ := secondTurn_found hclosed type horder (hl x List.mem_cons_self) hst
      obtain ⟨st2, hrun2, hst2⟩ :=
        ih horder.1 (fun r hr => hl r (List.mem_cons_of_mem _ hr)) hst1
      refine ⟨st2, ?_, hst2⟩
      rw [List.foldlM_cons, hrun]
      exact hrun2

end

/-! ## The first pass -/

section

variable {T : Nat} {g : Grammar T} {type : CycleType} {roots : List Nat}

/-- `rule_compute_reverse_list`. -/
theorem mem_computeReverseList {u v : Nat} {rev : Nat → List Nat} :
    u ∈ computeReverseList g type r rev v ↔ u ∈ rev v ∨ u = r ∧ v ∈ ruleCalls g type r := by
  unfold computeReverseList
  generalize ruleCalls g type r = cs
  induction cs generalizing rev with
  | nil => simp
  | cons c cs ih =>
      rw [List.foldl_cons, ih]
      by_cases hv : v = c
      · subst hv
        rw [Function.update_self, mem_addIfMissing]
        simp only [List.mem_cons, true_or, and_true]
        constructor
        · rintro ((h | h) | h)
          · exact Or.inl h
          · exact Or.inr h
          · exact Or.inr h.1
        · rintro (h | h)
          · exact Or.inl (Or.inl h)
          · exact Or.inl (Or.inr h)
      · rw [Function.update_of_ne hv]
        simp [hv]

/-- What holds after the roots `l` have been traversed. -/
structure FirstInv (g : Grammar T) (type : CycleType) (roots l : List Nat)
    (st : (Nat → List Nat) × Dfs) : Prop extends DfsInv (ruleCalls g type) st.2 where
  rev : ∀ u v, u ∈ st.1 v ↔ u ∈ l ∧ v ∈ ruleCalls g type u
  states : ∀ v, st.2.state v = .untraced ∨ st.2.state v = .traced
  listed : ∀ v ∈ l, v ∈ st.2.list
  roots : ∀ v ∈ st.2.list, v ∈ roots

theorem reach_roots (hclosed : ∀ r ∈ roots, ∀ c ∈ ruleCalls g type r, c ∈ roots) {v : Nat}
    (hr : r ∈ roots) (h : ReflTransGen (Edge (ruleCalls g type)) r v) : v ∈ roots := by
  induction h with
  | refl => exact hr
  | tail _ huv ih => exact hclosed _ ih _ huv

/-- The first loop. -/
theorem firstPass_spec (hclosed : ∀ r ∈ roots, ∀ c ∈ ruleCalls g type r, c ∈ roots) :
    ∃ st, firstPass g type (roots.length + 1) roots = some st ∧
      FirstInv g type roots roots st := by
  unfold firstPass
  have hstart : FirstInv g type roots [] (fun _ => [], ⟨fun _ => .untraced, []⟩) := by
    refine ⟨⟨?_, ?_, trivial, ?_⟩, ?_, fun _ => Or.inl rfl, ?_, ?_⟩ <;> simp
  generalize hst0 : ((fun _ => [], ⟨fun _ => .untraced, []⟩) : (Nat → List Nat) × Dfs) = st0 at *
  clear hst0
  -- the roots that have been traversed, and those to come
  suffices hloop : ∀ (l done : List Nat) (st : (Nat → List Nat) × Dfs), (∀ r ∈ l, r ∈ roots) →
      FirstInv g type roots done st → ∃ st', l.foldlM (fun st r => do
        let rev := computeReverseList g type r st.1
        let dfs ← computeDfs (ruleCalls g type) (roots.length + 1) r st.2
        return (rev, dfs)) st = some st' ∧ FirstInv g type roots (done ++ l) st' from
    hloop roots [] st0 (fun _ hr => hr) hstart
  intro l
  induction l with
  | nil =>
      intro done st _ hst
      exact ⟨st, rfl, by rwa [List.append_nil]⟩
  | cons r l ih =>
      intro done st hl hst
      have hr : r ∈ roots := hl r List.mem_cons_self
      obtain ⟨dfs, new, hrun, htr, hinv⟩ := computeDfs_runs hclosed (roots.length + 1) hr
        hst.toDfsInv (Nat.lt_succ_of_le (left_card_le roots _))
      have hstates : ∀ v, dfs.state v = .untraced ∨ dfs.state v = .traced := by
        intro v
        rw [htr.state]
        split
        · exact Or.inr rfl
        · exact hst.states v
      have hnext : FirstInv g type roots (done ++ [r]) (computeReverseList g type r st.1, dfs) := by
        refine ⟨hinv, ?_, hstates, ?_, ?_⟩
        · intro u v
          rw [mem_computeReverseList, hst.rev]
          constructor
          · rintro (⟨hu, hv⟩ | ⟨rfl, hv⟩)
            · exact ⟨List.mem_append_left _ hu, hv⟩
            · exact ⟨List.mem_append_right _ (List.mem_singleton_self _), hv⟩
          · rintro ⟨hu, hv⟩
            rcases List.mem_append.1 hu with hu | hu
            · exact Or.inl ⟨hu, hv⟩
            · obtain rfl := List.mem_singleton.1 hu
              exact Or.inr ⟨rfl, hv⟩
        · intro v hv
          rcases List.mem_append.1 hv with hv | hv
          · rw [htr.list]
            exact List.mem_append_right _ (hst.listed v hv)
          · obtain rfl := List.mem_singleton.1 hv
            rw [← hinv.traced]
            exact (hstates v).resolve_left (htr.done v rfl)
        · intro v hv
          rw [htr.list] at hv
          rcases List.mem_append.1 hv with hv | hv
          · obtain ⟨c, rfl, hcv⟩ := htr.reach v hv
            exact reach_roots hclosed hr hcv
          · exact hst.roots v hv
      obtain ⟨st', hrun', hst'⟩ :=
        ih (done ++ [r]) _ (fun r' hr' => hl r' (List.mem_cons_of_mem _ hr'))
        hnext
      refine ⟨st', ?_, by rwa [List.append_assoc, List.singleton_append] at hst'⟩
      rw [List.foldlM_cons]
      dsimp only
      rw [hrun]
      exact hrun'

theorem foldl_untraced (l : List Nat) (state : Nat → DfsState) (v : Nat) :
    l.foldl (fun state r => Function.update state r .untraced) state v =
      if v ∈ l then .untraced else state v := by
  induction l generalizing state with
  | nil => rfl
  | cons r l ih =>
      rw [List.foldl_cons, ih]
      by_cases hv : v = r
      · subst hv
        simp
      · simp [hv]

/-! ## The cycles -/

theorem mem_altCalls {initial : Bool} {alt : Alt T} {m : Nat}
    (h : m ∈ altCalls g type initial alt) : ∃ item ∈ alt, item.entry = .rule m := by
  induction alt generalizing initial with
  | nil => cases h
  | cons item next ih =>
      have hnext : m ∈ altCalls g type false next → ∃ item' ∈ item :: next,
          item'.entry = .rule m := by
        intro hm
        obtain ⟨item', hitem', hm'⟩ := ih hm
        exact ⟨item', List.mem_cons_of_mem _ hitem', hm'⟩
      rw [altCalls] at h
      split at h
      · next r hr =>
          split at h
          · rcases List.mem_cons.1 h with rfl | h
            · exact ⟨item, List.mem_cons_self, hr⟩
            · exact hnext h
          · exact hnext h
      · exact hnext h

theorem ruleCalls_lt (hwf : g.Wf) {m : Nat} (hr : r < g.size) (h : m ∈ ruleCalls g type r) :
    m < g.size := by
  rcases List.mem_append.1 h with h | h
  · split at h
    · obtain ⟨alt, halt, hm⟩ := List.mem_flatMap.1 h
      obtain ⟨item, hitem, hm'⟩ := mem_altCalls hm
      exact hwf.handler r hr alt (Option.mem_toList.1 halt) item hitem m hm'
    · cases h
  · obtain ⟨alt, halt, hm⟩ := List.mem_flatMap.1 h
    obtain ⟨item, hitem, hm'⟩ := mem_altCalls hm
    exact hwf.closed r hr alt halt item hitem m hm'

theorem ruleCalls_blank (hwf : g.Wf) (hr : g.size ≤ r) : ruleCalls g type r = [] := by
  rw [ruleCalls, hwf.blank r hr]
  simp [ruleCreate]

/-- `grammar_find_cycles` hands the components with a cycle to its handler. -/
theorem findCycles_components (hwf : g.Wf) (type : CycleType)
    (hroots : roots.Perm (List.range g.size)) :
    ∃ cycles, findCycles g type roots = some cycles ∧
      Components (Edge (ruleCalls g type)) cycles := by
  have hmem : ∀ r, r ∈ roots ↔ r < g.size := by
    intro r
    rw [hroots.mem_iff, List.mem_range]
  have hclosed : ∀ r ∈ roots, ∀ c ∈ ruleCalls g type r, c ∈ roots := by
    intro r hr c hc
    rw [hmem] at hr ⊢
    exact ruleCalls_lt hwf hr hc
  obtain ⟨⟨rev, dfs⟩, hfirst, hinv⟩ := firstPass_spec hclosed
  have hedge : Edge (ruleCalls g type) = RevEdge rev := by
    funext u v
    refine propext ?_
    rw [Edge, RevEdge, hinv.rev u v, and_iff_right_of_imp]
    intro huv
    rw [hmem]
    by_contra hout
    rw [ruleCalls_blank hwf (Nat.not_lt.1 hout)] at huv
    cases huv
  have hrev : ∀ r, ∀ c ∈ rev r, c ∈ roots := by
    intro r c hc
    exact ((hinv.rev c r).1 hc).1
  -- all rules are untraced before the second pass
  have huntraced : ∀ v, roots.foldl (fun state r => Function.update state r .untraced)
      dfs.state v = .untraced := by
    intro v
    rw [foldl_untraced]
    split
    · rfl
    · next hv =>
        refine (hinv.states v).resolve_right ?_
        intro htr
        exact hv (hinv.roots v ((hinv.traced v).1 htr))
  have hnot : ∀ v, ¬ roots.foldl (fun state r => Function.update state r .untraced)
      dfs.state v = .traced := by
    intro v hv
    rw [huntraced] at hv
    cases hv
  have hstart : FoundInv rev roots dfs.list
      ⟨roots.foldl (fun state r => Function.update state r .untraced) dfs.state,
        fun _ => false, []⟩ := by
    refine ⟨fun v => Or.inl (huntraced v), ?_, fun u _ _ hu => absurd hu (hnot u),
      fun v hv => Or.inr (hinv.listed v hv), ?_, ?_, fun v hv => absurd hv (hnot v),
      List.Pairwise.nil⟩
    · intro v hv
      cases hv
    · intro c hc
      cases hc
    · intro c hc
      cases hc
  have horder : FinishOrder (RevEdge rev) dfs.list := hedge ▸ hinv.order
  obtain ⟨st, hsecond, hst⟩ := secondPass_found hrev type dfs.list horder hinv.roots hstart
  refine ⟨st.cycles, ?_, ?_⟩
  · rw [findCycles, hfirst, Option.bind_eq_bind, Option.bind_some]
    dsimp only
    rw [hsecond]
    rfl
  · rw [hedge]
    refine ⟨hst.component, ?_, hst.disjoint⟩
    intro v hv
    obtain ⟨c, hvc, -⟩ := TransGen.head'_iff.1 hv
    exact hst.complete v ((hst.rest v (hrev c v hvc)).resolve_right (by simp)) hv

/-- Two rules that start with each other. -/
def mutualCalls : Grammar 1 :=
  ⟨2, fun r => if r < 2 then
    ⟨false, [[itemCreate (.rule (1 - r)), itemCreate (.basic 0)]], none, 0⟩ else ruleCreate⟩

theorem mutualCalls_wf : mutualCalls.Wf where
  blank := by
    intro r hr
    exact if_neg (Nat.not_lt.2 hr)
  closed := by
    intro r hr alt halt item hitem m hm
    have hr2 : r < 2 := hr
    simp only [mutualCalls, if_pos hr2, List.mem_singleton] at halt
    subst halt
    rcases List.mem_pair.1 hitem with rfl | rfl
    · cases hm
      show 1 - r < 2
      omega
    · cases hm
  handler := by
    intro r hr alt halt
    have hr2 : r < 2 := hr
    simp only [mutualCalls, if_pos hr2] at halt
    cases halt
  nonempty := by
    intro r hr alt halt
    have hr2 : r < 2 := hr
    simp only [mutualCalls, if_pos hr2, List.mem_singleton] at halt
    rw [halt]
    exact List.cons_ne_nil _ _

theorem findCycles_mutualCalls :
    ∃ cycles, findCycles mutualCalls .left [1, 0] = some cycles ∧
      Components (Edge (ruleCalls mutualCalls .left)) cycles :=
  findCycles_components mutualCalls_wf .left (List.Perm.swap 0 1 [])

end

end Tendra.Ref.Sid
