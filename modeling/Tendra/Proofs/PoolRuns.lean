import Tendra.Proofs.Pool

/-!
# The pool over a run of calls

The indices in use are those that `init_flpt` and `new_flpt` have returned and `flpt_ret` has not
been given since. Whoever holds one stores into its number, so also into the exponent that
threads the free list. Over every run the free list and the indices in use stay the two halves
of the array: `new_flpt` takes from the one and adds to the other, and the last free index makes
the array grow before its link, which nobody has set, is followed.
-/

namespace Tendra.Ref.Pool

/-! ## Calls -/

/-- The calls, and what the holder of an index stores there. -/
inductive Call
  | init (mem : Nat → Flt)
  | new
  | ret (f : Nat)
  | store (f : Nat) (x : Flt)

/-- The pool, and the indices in use. -/
structure Ledger where
  pool : Pool
  live : List Nat

/-- After `init_flpt`. -/
def Ledger.start (mem : Nat → Flt) : Ledger :=
  ⟨Pool.init mem, [(Pool.init mem).foneNo, (Pool.init mem).fzeroNo]⟩

/-- One call. Only an index in use is returned or stored to. -/
def Call.run (s : Ledger) : Call → Option Ledger
  | init mem => some (.start mem)
  | new => some ⟨s.pool.new.2, s.pool.new.1 :: s.live⟩
  | ret f => if f ∈ s.live then some ⟨s.pool.ret f, s.live.erase f⟩ else none
  | store f x => if f ∈ s.live then some { s with pool := s.pool.set f x } else none

/-- A run of calls. -/
@[grind =] def runs : List Call → Ledger → Option Ledger
  | [], s => some s
  | c :: cs, s => (c.run s).bind (runs cs)

/-- The free list has the length that is kept for it, and goes through the other indices. -/
structure Ledger.Sound (s : Ledger) : Prop where
  length : (s.pool.freeList.length : Int) = s.pool.flptLeft
  nodup : s.pool.freeList.Nodup
  free : ∀ i, i ∈ s.pool.freeList ↔ i < s.pool.tot ∧ i ∉ s.live
  live : s.live.Nodup ∧ ∀ i ∈ s.live, i < s.pool.tot
  new : s.pool.new.1 < s.pool.tot ∧ s.pool.new.1 ∉ s.live

/-! ## The invariant -/

/-- The indices in use are those that are not on the free list. -/
structure Ledger.Ok (s : Ledger) : Prop where
  ok : s.pool.Ok
  nodup : s.live.Nodup
  live : ∀ i, s.pool.Live i ↔ i ∈ s.live

section

variable {p : Pool} {s s' : Ledger}

theorem new_live_iff (h : p.Ok) (i : Nat) : p.new.2.Live i ↔ p.Live i ∨ i = p.new.1 := by
  constructor
  · intro hi
    rcases new_cases h with ⟨hlist, -, htot, -⟩ | ⟨hold, hlist, -, htot, -⟩
    · by_cases heq : i = p.new.1
      · exact .inr heq
      · refine .inl ⟨htot ▸ hi.1, ?_⟩
        rw [hlist]
        exact fun hmem => hi.2 ((List.mem_cons.1 hmem).resolve_left heq)
    · by_cases heq : i = p.new.1
      · exact .inr heq
      · have hlt : i < p.tot := by
          by_contra hge
          refine hi.2 ?_
          have hbound := hi.1
          rw [htot] at hbound
          rw [hlist, List.mem_map]
          exact ⟨i - p.tot, by simp; omega, by omega⟩
        refine .inl ⟨hlt, ?_⟩
        rw [hold]
        exact fun hmem => heq (List.mem_singleton.1 hmem)
  · intro hi
    cases hi with
    | inl hi => exact (new_keeps h).live i hi
    | inr hi => exact hi ▸ new_live h

/-- Two indices are in use at the start. -/
theorem init_live (mem : Nat → Flt) : (init mem).foneNo ≠ (init mem).fzeroNo ∧
    ∀ i, (init mem).Live i ↔ i = (init mem).foneNo ∨ i = (init mem).fzeroNo := by
  unfold init
  generalize hst : (⟨_, initialFlpts, initialFlpts - 1, initialFlpts, 0, 0⟩ : Pool) = start
  have hexp : ∀ j, 0 < j → j < initialFlpts → (start.nos j).exp = (j : Int) - 1 := by
    subst hst
    intro j h1 h2
    simp only [h2, if_true]
    rw [if_neg (by omega)]
  have h0 : start.Ok := by
    subst hst
    exact ok_of_chain rfl rfl rfl hexp
  have hnone (i : Nat) : ¬start.Live i := by
    have hlist : start.freeList = (List.range initialFlpts).reverse.map (0 + ·) := by
      subst hst
      exact freeList_of_chain rfl rfl hexp
    have htot : start.tot = initialFlpts := by rw [← hst]
    intro hi
    have hlt := hi.1
    rw [htot] at hlt
    refine hi.2 ?_
    rw [hlist, List.mem_map]
    exact ⟨i, by simpa using hlt, Nat.zero_add i⟩
  have t1 := new_took h0
  have t2 := new_took t1.ok
  have hne : start.new.2.new.1 ≠ start.new.1 := fun heq => t2.fresh (heq ▸ t1.live)
  refine ⟨hne, fun i => ?_⟩
  have hlive : start.new.2.new.2.Live i ↔ i = start.new.2.new.1 ∨ i = start.new.1 := by
    rw [new_live_iff t1.ok, new_live_iff h0]
    simp [hnone, or_comm]
  refine Iff.trans ?_ hlive
  dsimp only
  rw [set_live, set_live]
  · rfl
  · exact (t2.keeps.live _ t1.live).2
  · rw [set_freeList]
    · exact t2.live.2
    · exact (t2.keeps.live _ t1.live).2
theorem ok_start (mem : Nat → Flt) : (Ledger.start mem).Ok where
  ok := init_ok mem
  nodup := by simpa [Ledger.start] using (init_live mem).1
  live i := by simpa [Ledger.start] using (init_live mem).2 i

/-- Each call keeps the invariant. -/
theorem ok_run (h : s.Ok) {c : Call} (hc : c.run s = some s') : s'.Ok := by
  cases c with
  | init mem =>
      obtain rfl := Option.some.inj hc
      exact ok_start mem
  | new =>
      obtain rfl := Option.some.inj hc
      refine ⟨new_ok h.ok, List.nodup_cons.2 ⟨?_, h.nodup⟩, fun i => ?_⟩
      · rw [← h.live]
        exact new_not_live h.ok
      · rw [new_live_iff h.ok, h.live, List.mem_cons, or_comm]
  | ret f =>
      rw [Call.run] at hc
      split at hc
      · next hf =>
          obtain rfl := Option.some.inj hc
          have hlive := (h.live f).2 hf
          refine ⟨ret_ok h.ok hlive, h.nodup.erase f, fun i => ?_⟩
          rw [ret_live h.ok hlive, h.live, h.nodup.mem_erase_iff, and_comm]
      · cases hc
  | store f x =>
      rw [Call.run] at hc
      split at hc
      · next hf =>
          obtain rfl := Option.some.inj hc
          have hlive := (h.live f).2 hf
          exact ⟨set_ok x h.ok hlive.2, h.nodup, fun i => (set_live x hlive.2).trans (h.live i)⟩
      · cases hc

theorem ok_runs {cs : List Call} (h : s.Ok) (hcs : runs cs s = some s') : s'.Ok := by
  induction cs generalizing s with
  | nil => exact Option.some.inj hcs ▸ h
  | cons c cs ih =>
      rw [runs] at hcs
      obtain ⟨s1, hc, hcs⟩ := Option.bind_eq_some_iff.1 hcs
      exact ih (ok_run h hc) hcs

theorem length_walk (nos : Nat → Flt) (n i : Nat) : (walk nos n i).length = n := by
  induction n generalizing i with
  | zero => rfl
  | succ n ih => rw [walk, List.length_cons, ih]

theorem Ledger.Ok.sound (h : s.Ok) : s.Sound := by
  have hleft := h.ok.left
  have hfree (i : Nat) : i ∈ s.pool.freeList ↔ i < s.pool.tot ∧ i ∉ s.live := by
    rw [← h.live]
    constructor
    · exact fun hi => ⟨h.ok.bound i hi, fun hl => hl.2 hi⟩
    · intro hi
      by_contra hnot
      exact hi.2 ⟨hi.1, hnot⟩
  refine ⟨?_, h.ok.nodup, hfree, ⟨h.nodup, fun i hi => ((h.live i).2 hi).1⟩, ?_⟩
  · rw [freeList, length_walk]
    omega
  · refine (hfree _).1 ?_
    rw [h.ok.freeList_eq]
    exact List.mem_cons_self ..

/-- Over every run of calls that begins with `init_flpt` the free list goes through exactly the
indices that are not in use, and `new_flpt` returns one of them. -/
theorem runs_sound {mem : Nat → Flt} {cs : List Call} (h : runs cs (.start mem) = some s) :
    s.Sound := (ok_runs (ok_start mem) h).sound

end

/-- The first index that is handed out is returned and handed out again. -/
theorem runs_sound_again : ∃ s, runs [.new, .ret (Pool.init fun _ => ⟨[], 0, 0⟩).new.1, .new]
    (.start fun _ => ⟨[], 0, 0⟩) = some s ∧ s.Sound := by
  have hrun : ∃ s, runs [.new, .ret (Pool.init fun _ => ⟨[], 0, 0⟩).new.1, .new]
      (.start fun _ => ⟨[], 0, 0⟩) = some s := by
    simp [runs, Call.run, Ledger.start]
  obtain ⟨s, hs⟩ := hrun
  exact ⟨s, hs, runs_sound hs⟩

end Tendra.Ref.Pool
