import Mathlib.Data.List.Basic

/-!
# Spans of numbers with labels

A list of spans that lie one behind the other is a map from numbers to labels. A span is put
between those below it and those above it, and two neighbours of one label that touch may be
joined.
-/

namespace Tendra

/-- The numbers from `lo` to `hi`, with a label. -/
structure Span (α : Type) where
  lo : Int
  hi : Int
  lab : α

namespace Span

variable {α : Type} {a b i r : Span α} {xs ys : List (Span α)} {v : Int} {c : α}

def Covers (r : Span α) (v : Int) : Prop := r.lo ≤ v ∧ v ≤ r.hi

/-- The two have no number in common. -/
def Apart (a b : Span α) : Prop := ∀ v, a.Covers v → ¬ b.Covers v

/-- One of the spans gives `v` the label `c`. -/
def Maps (l : List (Span α)) (v : Int) (c : α) : Prop := ∃ r ∈ l, r.Covers v ∧ r.lab = c

/-- No span is empty, and each lies below the next. -/
structure Sorted (l : List (Span α)) : Prop where
  le : ∀ r ∈ l, r.lo ≤ r.hi
  lt : l.Pairwise fun a b => a.hi < b.lo

/-- From the start of `a` to the end of `b`. -/
def join (a b : Span α) : Span α := ⟨a.lo, b.hi, a.lab⟩

theorem Apart.symm (h : a.Apart b) : b.Apart a := fun v hb ha => h v ha hb

theorem apart_of_lt (h : a.hi < b.lo) : a.Apart b := by
  intro v ha hb
  have h1 := ha.2
  have h2 := hb.1
  omega

theorem apart_of_empty (h : b.hi < b.lo) : a.Apart b := by
  intro v _ hb
  have h1 := hb.1
  have h2 := hb.2
  omega

/-- A span that ends above the start of the other either starts above its end or meets it. -/
theorem Apart.lt (h : a.Apart b) (ha : a.lo ≤ a.hi) (hb : b.lo ≤ b.hi) (hlo : a.lo ≤ b.hi) :
    a.hi < b.lo := by
  by_contra hle
  have hm : a.Covers (max a.lo b.lo) := ⟨by omega, by omega⟩
  exact h _ hm ⟨by omega, by omega⟩

theorem sorted_nil : Sorted ([] : List (Span α)) := ⟨by simp, .nil⟩

theorem not_maps_nil : ¬ Maps ([] : List (Span α)) v c := by simp [Maps]

/-- A span is apart from all of a list if the list maps none of its numbers. -/
theorem forall_apart_iff : (∀ r ∈ xs, i.Apart r) ↔ ∀ v c, i.Covers v → ¬ Maps xs v c := by
  constructor
  · intro h v c hi hm
    obtain ⟨r, hr, hv, -⟩ := hm
    exact h r hr v hi hv
  · intro h r hr v hi hv
    exact h v r.lab hi ⟨r, hr, hv, rfl⟩

theorem maps_append : Maps (xs ++ ys) v c ↔ Maps xs v c ∨ Maps ys v c := by
  simp [Maps, or_and_right, exists_or]

theorem maps_cons : Maps (r :: xs) v c ↔ (r.Covers v ∧ r.lab = c) ∨ Maps xs v c := by
  simp [Maps]

theorem Sorted.right (h : Sorted (xs ++ ys)) : Sorted ys :=
  ⟨fun r hr => h.le r (by simp [hr]), (List.pairwise_append.mp h.lt).2.1⟩

/-- What lies below the first span lies below all. -/
theorem Sorted.above (h : Sorted (r :: xs)) {x : Int} (hx : x < r.lo) :
    ∀ s ∈ r :: xs, x < s.lo := by
  intro s hs
  rcases List.mem_cons.mp hs with rfl | hs
  · exact hx
  · have h1 := (List.pairwise_cons.mp h.lt).1 s hs
    have h2 := h.le r (by simp)
    omega

/-- A span is put between those below it and those above it. -/
theorem Sorted.insert (h : Sorted (xs ++ ys)) (hi : i.lo ≤ i.hi) (hx : ∀ x ∈ xs, x.hi < i.lo)
    (hy : ∀ y ∈ ys, i.hi < y.lo) : Sorted (xs ++ i :: ys) where
  le := by
    intro r hr
    rcases List.mem_append.mp hr with hr | hr
    · exact h.le r (by simp [hr])
    · rcases List.mem_cons.mp hr with rfl | hr
      · exact hi
      · exact h.le r (by simp [hr])
  lt := by
    obtain ⟨h1, h2, h3⟩ := List.pairwise_append.mp h.lt
    refine List.pairwise_append.mpr ⟨h1, List.pairwise_cons.mpr ⟨hy, h2⟩, fun x hxm y hym => ?_⟩
    rcases List.mem_cons.mp hym with rfl | hym
    · exact hx x hxm
    · exact h3 x hxm y hym

theorem maps_insert : Maps (xs ++ i :: ys) v c ↔ Maps (xs ++ ys) v c ∨ i.Covers v ∧ i.lab = c := by
  rw [maps_append, maps_append, maps_cons]
  tauto

/-- Two neighbours are joined. -/
theorem Sorted.join (h : Sorted (xs ++ a :: b :: ys)) : Sorted (xs ++ a.join b :: ys) where
  le := by
    intro r hr
    have hab := (List.pairwise_cons.mp h.right.lt).1 b (by simp)
    have ha := h.le a (by simp)
    have hb := h.le b (by simp)
    rcases List.mem_append.mp hr with hr | hr
    · exact h.le r (by simp [hr])
    · rcases List.mem_cons.mp hr with rfl | hr
      · show a.lo ≤ b.hi
        omega
      · exact h.le r (by simp [hr])
  lt := by
    obtain ⟨h1, h2, h3⟩ := List.pairwise_append.mp h.lt
    obtain ⟨-, h5⟩ := List.pairwise_cons.mp h2
    obtain ⟨h6, h7⟩ := List.pairwise_cons.mp h5
    refine List.pairwise_append.mpr ⟨h1, List.pairwise_cons.mpr ⟨h6, h7⟩, fun x hxm y hym => ?_⟩
    rcases List.mem_cons.mp hym with rfl | hym
    · exact h3 x hxm a (by simp)
    · exact h3 x hxm y (by simp [hym])

/-- Joining neighbours of one label that touch changes no number's label. -/
theorem maps_join (h : Sorted (xs ++ a :: b :: ys)) (ht : a.hi + 1 = b.lo) (hl : a.lab = b.lab) :
    Maps (xs ++ a.join b :: ys) v c ↔ Maps (xs ++ a :: b :: ys) v c := by
  have ha := h.le a (by simp)
  have hb := h.le b (by simp)
  have hcov : (a.join b).Covers v ↔ a.Covers v ∨ b.Covers v := by
    simp only [Covers, Span.join]
    omega
  rw [maps_append, maps_append, maps_cons, maps_cons, maps_cons, hcov, ← hl,
    show (a.join b).lab = a.lab from rfl]
  tauto

/-- If the spans of `l` are sorted, so are those of `l'`, and these map every number as `l` does. -/
def SameMap (l l' : List (Span α)) : Prop :=
  Sorted l → Sorted l' ∧ ∀ v c, Maps l' v c ↔ Maps l v c

theorem SameMap.refl (l : List (Span α)) : SameMap l l := fun h => ⟨h, fun _ _ => Iff.rfl⟩

theorem SameMap.trans {l₁ l₂ l₃ : List (Span α)} (h : SameMap l₁ l₂) (h' : SameMap l₂ l₃) :
    SameMap l₁ l₃ := by
  intro hs
  obtain ⟨hs2, hm2⟩ := h hs
  obtain ⟨hs3, hm3⟩ := h' hs2
  exact ⟨hs3, fun v c => (hm3 v c).trans (hm2 v c)⟩

theorem sameMap_join (ht : a.hi < b.lo → a.hi + 1 = b.lo) (hl : a.lab = b.lab) :
    SameMap (xs ++ a :: b :: ys) (xs ++ a.join b :: ys) := by
  intro h
  have hlt := (List.pairwise_cons.mp h.right.lt).1 b (by simp)
  exact ⟨h.join, fun v c => maps_join h (ht hlt) hl⟩

/-- A span above `xs` that does not start above the first of `ys` is apart from all of them if and
only if it ends below that one. -/
theorem apart_iff (h : Sorted (xs ++ ys)) (hi : i.lo ≤ i.hi) (hx : ∀ x ∈ xs, x.hi < i.lo)
    (hy : ∀ y ∈ ys.head?, i.lo ≤ y.hi) :
    (∀ y ∈ ys.head?, i.hi < y.lo) ↔ ∀ r ∈ xs ++ ys, i.Apart r := by
  cases ys with
  | nil =>
      simp only [List.append_nil, List.head?_nil, Option.mem_def, reduceCtorEq, false_implies,
        implies_true, true_iff]
      exact fun r hr => (apart_of_lt (hx r hr)).symm
  | cons y ys =>
      simp only [List.head?_cons, Option.mem_def, Option.some.injEq, forall_eq'] at hy ⊢
      constructor
      · intro hlt r hr
        rcases List.mem_append.mp hr with hr | hr
        · exact (apart_of_lt (hx r hr)).symm
        · exact apart_of_lt (h.right.above hlt r hr)
      · intro hall
        exact (hall y (by simp)).lt hi (h.le y (by simp)) hy

end Span

end Tendra
