import Mathlib.Data.List.Perm.Basic
import Tendra.Proofs.Foralls

/-!
# Elements that are carried to the next iteration

The displacements are sorted, each with its occurrences. Before the increment each variable has the
element at its displacement from X: one of `inner_cont` because it has just been read, and one of
`outer_cont` because X has moved by the difference of two displacements when the variable was
assigned to. That needs the assignments to take their values from variables that they do not assign
to: each is put behind the ones made before.
-/

namespace Tendra.Ref.Foralls

/-! ## The displacements -/

/-- The order of the displacements. -/
def En.Before (incval : Int) (s t : En) : Prop :=
  if incval > 0 then t.disp < s.disp else s.disp < t.disp

section

variable {incval : Int} {z : Occ} {s : List En} {t : En}

theorem place_perm : ((place incval z s).flatMap En.e).Perm (z :: s.flatMap En.e) := by
  fun_induction place incval z s with
  | case1 => simp
  | case2 => simp
  | case3 => simp
  | case4 t rest _ _ ih => exact (ih.append_left t.e).trans List.perm_middle

theorem mem_place (h : t ∈ place incval z s) :
    (t.disp = z.disp ∨ ∃ u ∈ s, u.disp = t.disp) ∧
      ((∀ u ∈ s, u.e ≠ [] ∧ ∀ o ∈ u.e, o.disp = u.disp) →
        t.e ≠ [] ∧ ∀ o ∈ t.e, o.disp = t.disp) := by
  fun_induction place incval z s with
  | case1 => simp_all
  | case2 => grind
  | case3 => grind
  | case4 => grind

theorem place_pairwise (hne : incval ≠ 0) (h : s.Pairwise (En.Before incval)) :
    (place incval z s).Pairwise (En.Before incval) := by
  fun_induction place incval z s with
  | case1 => exact List.pairwise_singleton ..
  | case2 t rest =>
      obtain ⟨ht, hrest⟩ := List.pairwise_cons.1 h
      exact List.pairwise_cons.2 ⟨ht, hrest⟩
  | case3 t rest _ hbefore =>
      refine List.pairwise_cons.2 ⟨fun u hu => ?_, h⟩
      have hu : u = t ∨ t.Before incval u :=
        (List.mem_cons.1 hu).imp_right ((List.pairwise_cons.1 h).1 u)
      grind [En.Before]
  | case4 t rest _ hafter ih =>
      obtain ⟨ht, hrest⟩ := List.pairwise_cons.1 h
      refine List.pairwise_cons.2 ⟨fun u hu => ?_, ih hrest⟩
      obtain hz | ⟨v, hv, hdisp⟩ := (mem_place hu).1
      · grind [En.Before]
      · rw [En.Before, ← hdisp]
        exact ht v hv

end

/-- The displacements are in order, each once, with the occurrences, each once. -/
structure Sorted (incval : Int) (occs : List Occ) (s : List En) : Prop where
  pairwise : s.Pairwise (En.Before incval)
  entry : ∀ t ∈ s, t.e ≠ [] ∧ ∀ o ∈ t.e, o.disp = t.disp
  perm : (s.flatMap En.e).Perm occs

theorem sortConts_sorted {incval : Int} (hne : incval ≠ 0) (n : Nat) (contset : List Cell) :
    Sorted incval ((contset.take n).filterMap occOf) (sortConts incval n contset) := by
  have hrun : ∀ (occs done : List Occ) (s : List En), Sorted incval done s →
      Sorted incval (done ++ occs) (occs.foldl (fun s z => place incval z s) s) := by
    intro occs
    induction occs with
    | nil => exact fun done s h => by simpa using h
    | cons z occs ih =>
        intro done s h
        have hstep : Sorted incval (done ++ [z]) (place incval z s) :=
          { pairwise := place_pairwise hne h.pairwise
            entry := fun t ht => (mem_place ht).2 h.entry
            perm := place_perm.trans
              ((h.perm.cons z).trans (List.perm_append_singleton z done).symm) }
        simpa using ih (done ++ [z]) _ hstep
  exact hrun _ [] [] ⟨.nil, by simp, .refl _⟩

/-! ## The variables -/

section

variable {incval : Int} {s : List En} {k j l : Nat} {lastid : Option Nat} {m : Carried}

/-- A displacement has at most one variable. -/
theorem carry_sublist (k : Nat) (lastid : Option Nat) (s : List En) :
    ((carry incval k lastid s).map (·.en)).Sublist s := by
  fun_induction carry incval k lastid s with
  | case1 => exact .slnil
  | case2 _ _ s _ _ ih => exact ih.cons_cons s
  | case3 _ _ s _ _ ih => exact ih.cons s

/-- A variable `lastid` is that of the displacement before. -/
theorem carry_linked (hm : m ∈ carry incval k lastid s) (hl : m.lastid = some l) :
    (lastid = some l ∧ ∃ rest, s = m.en :: rest) ∨
      ∃ i m', l = k + i ∧ (carry incval k lastid s)[i]? = some m' ∧
        m'.en.disp - cInt (incval * 8) = m.en.disp := by
  fun_induction carry incval k lastid s with
  | case1 => cases hm
  | case2 k lastid s rest _ ih =>
      cases hm with
      | head => exact .inl ⟨hl, rest, rfl⟩
      | tail _ hm =>
          right
          obtain ⟨hsome, rest', rfl⟩ | ⟨i, m', hi, hm', hlink⟩ := ih hm
          · split at hsome
            · rename_i hlink
              cases hsome
              exact ⟨0, _, rfl, rfl, of_decide_eq_true hlink⟩
            · cases hsome
          · exact ⟨i + 1, m', by omega, hm', hlink⟩
  | case3 k lastid s rest _ ih =>
      obtain ⟨hsome, -⟩ | h := ih hm
      · cases hsome
      · exact .inr h

end

/-! ## Executions of the loop -/

/-- What is in memory at an address, in the shape that the contents have; X; and the variables. -/
structure Frame where
  mem : Int → Int
  x : Int
  vars : Nat → Int

/-- The element at the displacement of a variable. -/
def Frame.elem (f : Frame) (m : Carried) : Int := f.mem (f.x + m.en.disp / 8)

/-- The start of the body, with the variables of `inner_cont`. -/
def Frame.body (vs : List Carried) (f : Frame) : Frame :=
  { f with vars := fun k =>
      match vs[k]? with
      | some m => if m.lastid = none then f.elem m else f.vars k
      | none => f.vars k }

/-- The assignments of `outer_cont`, one after the other. -/
def assigns : Nat → List Carried → (Nat → Int) → Nat → Int
  | _, [], vars => vars
  | k, m :: ms, vars =>
      assigns (k + 1) ms fun i =>
        match m.lastid with
        | some l => if i = k then vars l else vars i
        | none => vars i

/-- The increment, with the assignments before it. -/
def Frame.incr (vs : List Carried) (incval : Int) (f : Frame) : Frame :=
  ⟨f.mem, f.x + incval, assigns 0 vs f.vars⟩

/-- The states of the loop, `before` the increment and after it. The increment is executed at most
once in an iteration, and memory may change where no variable has been read from. -/
inductive Frames (vs : List Carried) (incval : Int) : Bool → Frame → Prop
  | enter {f : Frame} (h : ∀ k m, vs[k]? = some m → m.lastid ≠ none → f.vars k = f.elem m) :
      Frames vs incval false f
  | body {before : Bool} {f : Frame} (h : Frames vs incval before f) :
      Frames vs incval true (f.body vs)
  | incr {f : Frame} (h : Frames vs incval true f) : Frames vs incval false (f.incr vs incval)
  | other {before : Bool} {f f' : Frame} (h : Frames vs incval before f) (hx : f'.x = f.x)
      (hvars : f'.vars = f.vars)
      (hmem : ∀ m ∈ vs, before = true ∨ m.lastid ≠ none → f'.elem m = f.elem m) :
      Frames vs incval before f'

section

variable {incval : Int} {vs ms : List Carried} {k j l : Nat} {m : Carried} {vars : Nat → Int}

/-- A variable that is not assigned to. -/
theorem assigns_of_none (h : ∀ i m, ms[i]? = some m → k + i = l → m.lastid = none) :
    assigns k ms vars l = vars l := by
  induction ms generalizing k vars with
  | nil => rfl
  | cons m ms ih =>
      rw [assigns, ih fun i m' hm hi => h (i + 1) m' hm (by omega)]
      cases hl : m.lastid with
      | none => rfl
      | some l' =>
          refine if_neg fun hlk => ?_
          rw [h 0 m rfl hlk.symm] at hl
          cases hl

/-- A variable gets the value of one that is not assigned to. -/
theorem assigns_of_some (h : ∀ i m, ms[i]? = some m → k + i = l → m.lastid = none)
    (hm : ms[j]? = some m) (hl : m.lastid = some l) : assigns k ms vars (k + j) = vars l := by
  induction ms generalizing k j vars with
  | nil => cases hm
  | cons m₀ ms ih =>
      rw [assigns]
      cases j with
      | zero =>
          obtain rfl := Option.some.inj hm
          rw [assigns_of_none fun i m' _ hi => absurd hi (by omega)]
          simp [hl]
      | succ j =>
          rw [show k + (j + 1) = k + 1 + j by omega,
            ih (fun i m' hm hi => h (i + 1) m' hm (by omega)) hm]
          cases hl' : m₀.lastid with
          | none => rfl
          | some l' =>
              refine if_neg fun hlk => ?_
              rw [h 0 m₀ rfl hlk.symm] at hl'
              cases hl'

/-- Before the increment each variable has its element, and after it those of `outer_cont`. -/
theorem Frames.vars_eq {before : Bool} {f : Frame} (h : Frames vs incval before f)
    (hint : FitsInt (incval * 8))
    (hlast : ∀ m ∈ vs, ∀ l, m.lastid = some l → ∃ m', vs[l]? = some m' ∧ m'.lastid = none ∧
      m'.en.disp - cInt (incval * 8) = m.en.disp) (hm : vs[k]? = some m)
    (hb : before = true ∨ m.lastid ≠ none) : f.vars k = f.elem m := by
  induction h generalizing k m with
  | enter h => exact h k m hm (hb.resolve_left Bool.false_ne_true)
  | @body before f h ih =>
      simp only [Frame.body, hm]
      split
      · rfl
      · rename_i hne
        exact ih hm (.inr hne)
  | @incr f h ih =>
      cases hl : m.lastid with
      | none => exact absurd hl (hb.resolve_left Bool.false_ne_true)
      | some l =>
          obtain ⟨m', hm', hnone, hlink⟩ := hlast m (List.mem_of_getElem? hm) l hl
          have hvalue := @assigns_of_some vs 0 k l m f.vars (fun i m'' hi hil => by
            obtain rfl : i = l := by omega
            rw [hm'] at hi
            exact Option.some.inj hi ▸ hnone) hm hl
          rw [Nat.zero_add] at hvalue
          refine hvalue.trans ((ih hm' (.inl rfl)).trans ?_)
          have hdisp : m'.en.disp / 8 = incval + m.en.disp / 8 := by
            rw [cInt_eq hint] at hlink
            omega
          rw [Frame.elem, Frame.elem, hdisp, ← Int.add_assoc]
          rfl
  | @other before f f' h hx hvars hmem ih =>
      rw [hvars, hmem m (List.mem_of_getElem? hm) hb]
      exact ih hm hb

end

namespace Words

/-- The contents of a word, with a displacement in bits. -/
def cell (disp : Int) : Cell :=
  let x := meU3 (fPointer 32) array .contTag
  let reff : Exp := .mk ⟨.reffTag, fPointer 32, disp, 0, none, 0⟩ [x]
  ⟨[(reff, 0), (meU3 slongsh reff .contTag, 0)], 1⟩

/-- The first word is made by `inner_cont`, and the second one by `outer_cont`. -/
def words : List Carried := unwind 4 2 [cell 64, cell 32]

end Words

end Tendra.Ref.Foralls
