import Tendra.Ref.F64

/-!
# The pool hands out free entries and leaves the others alone

The free list is what one reaches from `flptfree` in `flpt_left` steps. As long
as those steps visit distinct entries of the array, an entry is either on the
list or taken, `new_flpt` moves one entry from the list to the taken ones (and
refills an empty list from behind the array), and `flpt_ret` moves one back.
None of them touches a taken entry, so whoever holds one keeps its number.
-/

namespace Tendra.Ref

variable {p : Pool} {i : Nat}

namespace Pool

/-- The entries visited in `n` steps from `i`. -/
@[grind =] def walk (nos : Nat → Flt) : Nat → Nat → List Nat
  | 0, _ => []
  | n + 1, i => i :: walk nos n (nos i).exp.toNat

/-- The free list. -/
def freeList (p : Pool) : List Nat := walk p.nos p.flptLeft.toNat p.flptfree

/-- The free list visits distinct entries of the array, at least one. -/
structure Ok (p : Pool) : Prop where
  left : 0 < p.flptLeft
  nodup : p.freeList.Nodup
  bound : ∀ i ∈ p.freeList, i < p.tot

/-- The entries that are in use. -/
def Live (p : Pool) (i : Nat) : Prop := i < p.tot ∧ i ∉ p.freeList

/-- The pool `p'` still holds what the entries in use in `p` held. -/
structure Keeps (p p' : Pool) : Prop where
  live : ∀ i, p.Live i → p'.Live i
  nos : ∀ i, p.Live i → p'.nos i = p.nos i
  one : p'.foneNo = p.foneNo

theorem Keeps.refl (p : Pool) : p.Keeps p := ⟨fun _ h => h, fun _ _ => rfl, rfl⟩

theorem Keeps.trans {q r : Pool} (h1 : p.Keeps q) (h2 : q.Keeps r) : p.Keeps r where
  live i h := h2.live i (h1.live i h)
  nos i h := (h2.nos i (h1.live i h)).trans (h1.nos i h)
  one := h2.one.trans h1.one

theorem walk_congr {nos nos' : Nat → Flt} {n : Nat} (h : ∀ j ∈ walk nos n i, nos' j = nos j) :
    walk nos' n i = walk nos n i := by
  induction n generalizing i with
  | zero => rfl
  | succ n ih =>
      simp only [walk, List.mem_cons] at h ⊢
      rw [h i (.inl rfl), ih fun j hj => h j (.inr hj)]

/-- The entries that `more_flpts` adds, from the last to the first. -/
theorem walk_fresh (nos : Nat → Flt) {t n : Nat}
    (h : ∀ j, t < j → j < t + n → (nos j).exp = (j : Int) - 1) :
    walk nos n (t + n - 1) = (List.range n).reverse.map (t + ·) := by
  induction n with
  | zero => rfl
  | succ n ih =>
      rw [walk, List.range_succ, List.reverse_append, List.map_append]
      simp only [List.reverse_cons, List.reverse_nil, List.nil_append, List.map_cons,
        List.map_nil, List.cons_append]
      congr 1
      by_cases hn : n = 0
      · subst hn; rfl
      · rw [← ih fun j h1 h2 => h j h1 (by omega)]
        congr 1
        rw [h (t + (n + 1) - 1) (by omega) (by omega)]
        omega

/-- `more_flpts` leaves the entries that were there, and its own are all free. -/
theorem more_freeList (p : Pool) :
    p.more.freeList = (List.range extraFlpts).reverse.map (p.tot + ·) := by
  have h : p.more.freeList = walk p.more.nos extraFlpts (p.tot + extraFlpts - 1) := rfl
  rw [h]
  refine walk_fresh _ fun j h1 h2 => ?_
  simp only [more]
  rw [if_pos ⟨h1, h2⟩]

theorem Ok.freeList_eq (h : p.Ok) :
    p.freeList =
      p.flptfree :: walk p.nos (p.flptLeft - 1).toNat (p.nos p.flptfree).exp.toNat := by
  obtain ⟨n, hn⟩ : ∃ n : Nat, p.flptLeft = n + 1 := ⟨(p.flptLeft - 1).toNat, by
    have := h.left; omega⟩
  rw [freeList, hn]
  simp [walk]

theorem new_foneNo (p : Pool) : p.new.2.foneNo = p.foneNo := by
  simp only [new]
  split <;> rfl

/-- What `new_flpt` does to the free list: its head is taken, and when that was
the last one, the array grows. -/
theorem new_cases (h : p.Ok) :
    (p.freeList = p.new.1 :: p.new.2.freeList ∧ p.new.2.nos = p.nos ∧
      p.new.2.tot = p.tot ∧ 0 < p.new.2.flptLeft) ∨
    (p.freeList = [p.new.1] ∧
      p.new.2.freeList = (List.range extraFlpts).reverse.map (p.tot + ·) ∧
      (∀ i < p.tot, p.new.2.nos i = p.nos i) ∧
      p.new.2.tot = p.tot + extraFlpts ∧ 0 < p.new.2.flptLeft) := by
  have hlist := h.freeList_eq
  have hleft := h.left
  simp only [new]
  split
  · next h0 =>
      right
      refine ⟨?_, ?_, ?_, rfl, ?_⟩
      · rw [hlist, h0]; rfl
      · rw [more_freeList]
      · intro i hi
        simp only [more]
        rw [if_neg (by omega)]
      · simp [more, extraFlpts]
  · next h0 =>
      left
      exact ⟨hlist, rfl, rfl, by dsimp only; omega⟩

theorem new_ok (h : p.Ok) : p.new.2.Ok := by
  have hnodup := h.nodup
  have hbound := h.bound
  rcases new_cases h with ⟨hlist, -, htot, hleft⟩ | ⟨-, hlist, -, htot, hleft⟩
  · rw [hlist] at hnodup hbound
    refine ⟨hleft, (List.nodup_cons.1 hnodup).2, fun i hi => ?_⟩
    rw [htot]
    exact hbound i (List.mem_cons_of_mem _ hi)
  · refine ⟨hleft, ?_, fun i hi => ?_⟩
    · rw [hlist]
      exact (List.nodup_reverse.2 List.nodup_range).map fun a b hab => by simpa using hab
    · rw [hlist] at hi
      obtain ⟨j, hj, rfl⟩ := List.mem_map.1 hi
      have : j < extraFlpts := by simpa using hj
      omega

/-- `new_flpt` returns an entry that was not in use. -/
theorem new_not_live (h : p.Ok) : ¬ p.Live p.new.1 := by
  intro hl
  refine hl.2 ?_
  rw [h.freeList_eq]
  exact List.mem_cons_self ..

theorem new_live (h : p.Ok) : p.new.2.Live p.new.1 := by
  have hnodup := h.nodup
  have hbound := h.bound
  rcases new_cases h with ⟨hlist, -, htot, -⟩ | ⟨hold, hlist, -, htot, -⟩
  · rw [hlist] at hnodup hbound
    refine ⟨?_, (List.nodup_cons.1 hnodup).1⟩
    rw [htot]
    exact hbound _ (List.mem_cons_self ..)
  · rw [hold] at hbound
    have hlt := hbound _ (List.mem_singleton.2 rfl)
    refine ⟨by rw [htot]; omega, fun hmem => ?_⟩
    rw [hlist] at hmem
    obtain ⟨j, -, hj⟩ := List.mem_map.1 hmem
    omega

theorem new_keeps (h : p.Ok) : p.Keeps p.new.2 := by
  rcases new_cases h with ⟨hlist, hnos, htot, -⟩ | ⟨hold, hlist, hnos, htot, -⟩
  · refine ⟨fun i hi => ⟨htot ▸ hi.1, fun hmem => hi.2 ?_⟩, fun i _ => by rw [hnos],
      new_foneNo p⟩
    rw [hlist]
    exact List.mem_cons_of_mem _ hmem
  · refine ⟨fun i hi => ⟨by rw [htot]; exact Nat.lt_add_right _ hi.1, fun hmem => ?_⟩,
      fun i hi => hnos i hi.1, new_foneNo p⟩
    rw [hlist] at hmem
    obtain ⟨j, -, hj⟩ := List.mem_map.1 hmem
    have := hi.1
    omega

/-! ## Storing and returning -/

@[simp] theorem set_nos_self (p : Pool) (i : Nat) (f : Flt) : (p.set i f).nos i = f := by
  simp [set]

theorem set_nos_ne (p : Pool) {j : Nat} (f : Flt) (h : j ≠ i) : (p.set i f).nos j = p.nos j := by
  simp [set, h]

/-- Storing in an entry that is in use changes nothing about the free list. -/
theorem set_freeList (f : Flt) (h : i ∉ p.freeList) : (p.set i f).freeList = p.freeList := by
  refine walk_congr fun j hj => set_nos_ne p f ?_
  rintro rfl
  exact h hj

theorem set_ok (f : Flt) (h : p.Ok) (hi : i ∉ p.freeList) : (p.set i f).Ok := by
  have hfl := set_freeList f hi
  exact ⟨h.left, by rw [hfl]; exact h.nodup, by rw [hfl]; exact h.bound⟩

theorem set_live {j : Nat} (f : Flt) (hi : i ∉ p.freeList) : (p.set i f).Live j ↔ p.Live j := by
  simp only [Live, set_freeList f hi]
  rfl

theorem ret_freeList {f : Nat} (h : p.Ok) (hf : p.Live f) :
    (p.ret f).freeList = f :: p.freeList := by
  have hleft := h.left
  obtain ⟨n, hn⟩ : ∃ n : Nat, p.flptLeft = n := ⟨p.flptLeft.toNat, by omega⟩
  have hwalk : (p.ret f).freeList = walk (p.setExp f p.flptfree).nos (n + 1) f := by
    simp only [freeList, ret, setExp, set, hn]
    rfl
  rw [hwalk, walk]
  congr 1
  have hexp : ((p.setExp f p.flptfree).nos f).exp.toNat = p.flptfree := by simp [setExp]
  have hfl : p.freeList = walk p.nos n p.flptfree := by simp [freeList, hn]
  rw [hexp, hfl]
  refine walk_congr fun j hj => set_nos_ne p _ ?_
  rintro rfl
  exact hf.2 (hfl ▸ hj)

theorem ret_ok {f : Nat} (h : p.Ok) (hf : p.Live f) : (p.ret f).Ok := by
  have hfl := ret_freeList h hf
  refine ⟨?_, ?_, fun i hi => ?_⟩
  · have := h.left
    simp only [ret, setExp, set]
    omega
  · rw [hfl]
    exact List.nodup_cons.2 ⟨hf.2, h.nodup⟩
  · rw [hfl] at hi
    rcases List.mem_cons.1 hi with rfl | hi
    · exact hf.1
    · exact h.bound i hi

theorem ret_live {f : Nat} (h : p.Ok) (hf : p.Live f) : (p.ret f).Live i ↔ p.Live i ∧ i ≠ f := by
  have htot : (p.ret f).tot = p.tot := rfl
  simp only [Live, ret_freeList h hf, htot, List.mem_cons, not_or]
  tauto

theorem ret_nos_ne (p : Pool) {f : Nat} (h : i ≠ f) : (p.ret f).nos i = p.nos i :=
  set_nos_ne p _ h

/-! ## Taking an entry, using it and giving it back -/

/-- The pool `p'` is `p` with the entry `r` taken. -/
structure Took (p p' : Pool) (r : Nat) : Prop where
  ok : p'.Ok
  keeps : p.Keeps p'
  fresh : ¬ p.Live r
  live : p'.Live r

theorem new_took (h : p.Ok) : p.Took p.new.2 p.new.1 :=
  ⟨new_ok h, new_keeps h, new_not_live h, new_live h⟩

/-- Storing in the entry that was taken. -/
theorem Took.set {p' : Pool} {r : Nat} (h : p.Took p' r) (f : Flt) : p.Took (p'.set r f) r where
  ok := set_ok f h.ok h.live.2
  keeps := by
    refine ⟨fun i hi => (set_live f h.live.2).2 (h.keeps.live i hi), fun i hi => ?_, h.keeps.one⟩
    rw [set_nos_ne _ _ (by rintro rfl; exact h.fresh hi), h.keeps.nos i hi]
  fresh := h.fresh
  live := (set_live f h.live.2).2 h.live

/-- Giving back an entry that was free to begin with. -/
theorem Keeps.ret {p' : Pool} {r : Nat} (h : p.Keeps p') (hok : p'.Ok) (hr : p'.Live r)
    (hfresh : ¬ p.Live r) : p.Keeps (p'.ret r) := by
  have hne : ∀ i, p.Live i → i ≠ r := by
    rintro i hi rfl
    exact hfresh hi
  refine ⟨fun i hi => (ret_live hok hr).2 ⟨h.live i hi, hne i hi⟩, fun i hi => ?_, h.one⟩
  rw [ret_nos_ne _ (hne i hi), h.nos i hi]

/-! ## The first pool -/

/-- The array as it starts, all of it free. -/
theorem freeList_of_chain (hleft : p.flptLeft = initialFlpts)
    (hfree : p.flptfree = initialFlpts - 1)
    (hexp : ∀ j, 0 < j → j < initialFlpts → (p.nos j).exp = (j : Int) - 1) :
    p.freeList = (List.range initialFlpts).reverse.map (0 + ·) := by
  rw [freeList, hleft, hfree, Int.toNat_natCast]
  have := walk_fresh p.nos (t := 0) (n := initialFlpts) fun j h1 h2 =>
    hexp j h1 (by omega)
  rwa [Nat.zero_add] at this

theorem ok_of_chain (hleft : p.flptLeft = initialFlpts) (htot : p.tot = initialFlpts)
    (hfree : p.flptfree = initialFlpts - 1)
    (hexp : ∀ j, 0 < j → j < initialFlpts → (p.nos j).exp = (j : Int) - 1) : p.Ok := by
  have hfl := freeList_of_chain hleft hfree hexp
  refine ⟨by rw [hleft]; decide, ?_, fun i hi => ?_⟩
  · rw [hfl]
    exact (List.nodup_reverse.2 List.nodup_range).map fun a b hab => by simpa using hab
  · rw [hfl] at hi
    obtain ⟨j, hj, rfl⟩ := List.mem_map.1 hi
    rw [htot]
    simpa using hj

/-- The pool that `init_flpt` builds: two entries are taken and set. -/
theorem init_spec (mem : Nat → Flt) : ∃ (p : Pool) (f g : Flt), p.Ok ∧ p.Live p.fzeroNo ∧
    p.Live p.foneNo ∧ init mem = (p.set p.fzeroNo f).set p.foneNo
      { fltZero g with mant := 1 :: (fltZero g).mant.drop 1, sign := 1 } := by
  unfold init
  generalize hst : (⟨_, initialFlpts, initialFlpts - 1, initialFlpts, 0, 0⟩ : Pool) = start
  have h0 : start.Ok := by
    subst hst
    refine ok_of_chain rfl rfl rfl fun j h1 h2 => ?_
    simp only [h2, if_true]
    rw [if_neg (by omega)]
  have t1 := new_took h0
  have t2 := new_took t1.ok
  have hk := t2.keeps.live _ t1.live
  -- the two assignments to `fzero_no` and `fone_no` do not enter the invariant
  exact ⟨{ start.new.2.new.2 with fzeroNo := start.new.1, foneNo := start.new.2.new.1 }, _, _,
    ⟨t2.ok.left, t2.ok.nodup, t2.ok.bound⟩, hk, t2.live, rfl⟩

/-- The pool that `init_flpt` builds satisfies the invariant. -/
theorem init_ok (mem : Nat → Flt) : (init mem).Ok := by
  obtain ⟨p, f, g, hok, hz, ho, heq⟩ := init_spec mem
  rw [heq]
  exact set_ok _ (set_ok f hok hz.2) ((set_live f hz.2).2 ho).2

end Pool

end Tendra.Ref
