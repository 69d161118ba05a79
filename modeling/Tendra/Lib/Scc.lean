import Mathlib.Logic.Relation
import Mathlib.Data.List.Nodup

/-!
# Components by two traversals

A list of vertices is in finishing order if each vertex reaches whatever reaches it
by way of the vertices that come after it. A depth first traversal that puts a
vertex in front of the list when it is done with it keeps the list in this order,
and the vertices that reach the first one of the list by way of the list are then
its strongly connected component. The second traversal takes the vertices from
the list in this order and leaves out what it has seen, which is a union of
components at any time.
-/

namespace Tendra.Scc

open Relation

variable {V : Type} {E : V → V → Prop} {S S' : V → Prop}

/-- There is a path from `a` to `b` whose vertices all lie in `S`. -/
def ReachIn (E : V → V → Prop) (S : V → Prop) (a b : V) : Prop :=
  S a ∧ ReflTransGen (fun u v => E u v ∧ S v) a b

/-- Two vertices of one component. -/
def Same (E : V → V → Prop) (a b : V) : Prop := ReflTransGen E a b ∧ ReflTransGen E b a

/-- Every vertex of the list reaches what reaches it by way of the list from there on. -/
def FinishOrder (E : V → V → Prop) : List V → Prop
  | [] => True
  | x :: l => FinishOrder E l ∧ ∀ y, ReachIn E (· ∈ x :: l) y x → ReflTransGen E x y

theorem ReachIn.reach {a b : V} (h : ReachIn E S a b) : ReflTransGen E a b :=
  h.2.lift id fun _ _ huv => huv.1

theorem ReachIn.mono {a b : V} (h : ReachIn E S a b) (hS : ∀ v, S v → S' v) : ReachIn E S' a b :=
  ⟨hS a h.1, h.2.lift id fun _ _ huv => ⟨huv.1, hS _ huv.2⟩⟩

/-- A path is lengthened in front. -/
theorem ReachIn.head {a b c : V} (ha : S a) (hab : E a b) (h : ReachIn E S b c) :
    ReachIn E S a c := ⟨ha, h.2.head ⟨hab, h.1⟩⟩

/-- A path is lengthened at its end. -/
theorem ReachIn.tail {a b c : V} (h : ReachIn E S a b) (hbc : E b c) (hc : S c) :
    ReachIn E S a c := ⟨h.1, h.2.tail ⟨hbc, hc⟩⟩

/-- Induction on a path from its end. -/
theorem ReachIn.head_induction {b : V} {P : V → Prop} (hb : S b → P b)
    (hstep : ∀ a c, S a → E a c → ReachIn E S c b → P c → P a) {a : V} (h : ReachIn E S a b) :
    P a := by
  obtain ⟨ha, hpath⟩ := h
  induction hpath using ReflTransGen.head_induction_on with
  | refl => exact hb ha
  | head hac hcb ih => exact hstep _ _ ha hac.1 ⟨hac.2, hcb⟩ (ih hac.2)

@[refl] theorem Same.refl (a : V) : Same E a a := ⟨ReflTransGen.refl, ReflTransGen.refl⟩

theorem Same.symm {a b : V} (h : Same E a b) : Same E b a := ⟨h.2, h.1⟩

theorem Same.trans {a b c : V} (h : Same E a b) (h' : Same E b c) : Same E a c :=
  ⟨h.1.trans h'.1, h'.2.trans h.2⟩

/-- A path within a component, from a vertex to another one. -/
theorem reachIn_of_same {x y : V} (h : Same E x y) : ReachIn E (Same E x) y x := by
  obtain ⟨hxy, hyx⟩ := h
  induction hyx using ReflTransGen.head_induction_on with
  | refl => exact ⟨Same.refl x, ReflTransGen.refl⟩
  | head hac hcx ih => exact ReachIn.head ⟨hxy, hcx.head hac⟩ hac (ih (hxy.tail hac))

/-- The vertex in front may be added if what was found after it was found from it, and
what was there before has no edge into it. -/
theorem FinishOrder.cons {x : V} {new old : List V} (h : FinishOrder E (new ++ old))
    (hnew : ∀ y ∈ new, ReflTransGen E x y) (hx : x ∉ old)
    (hold : ∀ u ∈ old, ∀ v, E u v → v ∈ old ∨ v ∉ x :: new) :
    FinishOrder E (x :: (new ++ old)) := by
  refine ⟨h, ?_⟩
  intro y hy
  -- a path that starts in `old` stays there
  have hstay : ∀ y, ReachIn E (· ∈ x :: (new ++ old)) y x → y ∉ old := by
    intro y hy
    refine ReachIn.head_induction (P := (· ∉ old)) (fun _ => hx) ?_ hy
    intro a c _ hac hcx hc hold'
    rcases hold a hold' c hac with hin | hout
    · exact hc hin
    · rcases List.mem_cons.1 hcx.1 with rfl | hmem
      · exact hout List.mem_cons_self
      · rcases List.mem_append.1 hmem with hmem | hmem
        · exact hout (List.mem_cons_of_mem _ hmem)
        · exact hc hmem
  rcases List.mem_cons.1 hy.1 with rfl | hmem
  · exact ReflTransGen.refl
  · rcases List.mem_append.1 hmem with hmem | hmem
    · exact hnew y hmem
    · exact absurd hmem (hstay y hy)

/-- The component of the next vertex in finishing order is what reaches it, if what has
been left out before is closed under components. -/
theorem component_iff {x : V} {l : List V} (hl : FinishOrder E (x :: l)) {gone : V → Prop}
    (hgone : ∀ u v, Same E u v → gone u → gone v) (hx : ¬ gone x)
    (hin : ∀ v, ¬ gone v → ReflTransGen E v x → v ∈ x :: l) (y : V) :
    ReachIn E (fun v => ¬ gone v) y x ↔ Same E x y := by
  constructor
  · intro h
    have hpath : ReachIn E (· ∈ x :: l) y x := by
      refine ReachIn.head_induction (P := fun y => ReachIn E (· ∈ x :: l) y x) ?_ ?_ h
      · intro _
        exact ⟨List.mem_cons_self, ReflTransGen.refl⟩
      · intro a c ha hac hcx ih
        exact ih.head (hin a ha (hcx.reach.head hac)) hac
    exact ⟨hl.2 y hpath, h.reach⟩
  · intro h
    refine (reachIn_of_same h).mono fun v hv hg => ?_
    exact hx (hgone v x hv.symm hg)

/-- The lists of `cs` are the components with a cycle, each of them once. -/
structure Components (E : V → V → Prop) (cs : List (List V)) : Prop where
  component : ∀ c ∈ cs, c.Nodup ∧ ∃ v ∈ c, TransGen E v v ∧ ∀ u, u ∈ c ↔ Same E v u
  complete : ∀ v, TransGen E v v → ∃ c ∈ cs, v ∈ c
  disjoint : cs.Pairwise List.Disjoint

end Tendra.Scc
