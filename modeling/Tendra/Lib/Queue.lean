import Mathlib.Data.List.Induction

/-!
# Queues and linked lists

What a queue, or several of them with names, says of the elements that are added and of the
answers to those who ask for the next one. And the elements that are reached from a link in
memory, with what becomes of them when a link is changed.
-/

namespace Tendra.Queue

/-! ## Queues -/

section

variable {K α : Type}

/-- Something is added to a queue, or the next element of it is asked for. -/
inductive Event (K α : Type)
  | add (k : K) (a : α)
  | get (k : K) (r : Option α)

variable [DecidableEq K]

/-- What is added to a queue. -/
def adds (k : K) (events : List (Event K α)) : List α :=
  events.filterMap fun e => match e with
    | .add k' a => if k' = k then some a else none
    | .get _ _ => none

/-- What is got from a queue. -/
def gets (k : K) (events : List (Event K α)) : List α :=
  events.filterMap fun e => match e with
    | .add _ _ => none
    | .get k' r => if k' = k then r else none

/-- Every answer is the first of the elements that were added and have not been got, or there
is no such element. -/
def Fifo (events : List (Event K α)) : Prop :=
  ∀ i k r, events[i]? = some (.get k r) →
    r = (adds k (events.take i))[(gets k (events.take i)).length]?

theorem adds_append (k : K) (t u : List (Event K α)) : adds k (t ++ u) = adds k t ++ adds k u :=
  List.filterMap_append

theorem gets_append (k : K) (t u : List (Event K α)) : gets k (t ++ u) = gets k t ++ gets k u :=
  List.filterMap_append

theorem Fifo.nil : Fifo ([] : List (Event K α)) := fun i k r h => by
  rw [List.getElem?_nil] at h
  cases h

theorem Fifo.snoc {t : List (Event K α)} (h : Fifo t) {e : Event K α}
    (he : ∀ k r, e = .get k r → r = (adds k t)[(gets k t).length]?) : Fifo (t ++ [e]) := by
  intro i k r hi
  rcases Nat.lt_or_ge i t.length with hlt | hge
  · rw [List.getElem?_append_left hlt] at hi
    rw [List.take_append_of_le_length (Nat.le_of_lt hlt)]
    exact h i k r hi
  · rw [List.getElem?_append_right hge] at hi
    have hzero : i - t.length = 0 := by
      rcases Nat.eq_zero_or_pos (i - t.length) with h0 | hpos
      · exact h0
      · rw [List.getElem?_eq_none (show [e].length ≤ _ from hpos)] at hi
        cases hi
    rw [hzero] at hi
    obtain rfl : i = t.length := by omega
    rw [List.take_left]
    exact he k r (Option.some.inj hi)

theorem Fifo.left {t u : List (Event K α)} (h : Fifo (t ++ u)) : Fifo t := by
  intro i k r hi
  have hlt : i < t.length := (List.getElem?_eq_some_iff.1 hi).1
  have hget := h i k r (by rwa [List.getElem?_append_left hlt])
  rwa [List.take_append_of_le_length (Nat.le_of_lt hlt)] at hget

/-- What is got is what was added first, in the order in which it was added. -/
theorem Fifo.gets_eq {t : List (Event K α)} (h : Fifo t) (k : K) :
    gets k t = (adds k t).take (gets k t).length := by
  induction t using List.reverseRecOn with
  | nil => rfl
  | append_singleton t e ih =>
      have ih := ih h.left
      have hlen : (gets k t).length ≤ (adds k t).length := by
        rw [ih, List.length_take]
        exact Nat.min_le_right _ _
      rw [adds_append, gets_append]
      cases e with
      | add k' a =>
          rw [show gets k [Event.add k' a] = [] from rfl, List.append_nil,
            List.take_append_of_le_length hlen]
          exact ih
      | get k' r =>
          rw [show adds k [Event.get k' r] = [] from rfl, List.append_nil]
          have hr := h t.length k' r (by simp)
          rw [List.take_left] at hr
          by_cases hk : k' = k
          · subst hk
            cases r with
            | none =>
                rw [show gets k' [Event.get k' (none : Option α)] = [] by simp [gets],
                  List.append_nil]
                exact ih
            | some a =>
                rw [show gets k' [Event.get k' (some a)] = [a] by simp [gets], List.length_append,
                  List.length_singleton, List.take_add_one, ← ih, ← hr]
                rfl
          · rw [show gets k [Event.get k' r] = [] by simp [gets, hk], List.append_nil]
            exact ih

end

/-! ## Linked lists -/

section

variable {P : Type} {next next' : P → Option P}

/-- From one link, through the elements, to another. -/
def Segment (next : P → Option P) : Option P → List P → Option P → Prop
  | l, [], l' => l = l'
  | l, p :: q, l' => l = some p ∧ Segment next (next p) q l'

theorem segment_append {q q' : List P} : ∀ {l l' : Option P},
    Segment next l (q ++ q') l' ↔ ∃ m, Segment next l q m ∧ Segment next m q' l' := by
  induction q with
  | nil =>
      intro l l'
      constructor
      · exact fun h => ⟨l, rfl, h⟩
      · rintro ⟨m, rfl, h⟩
        exact h
  | cons p q ih =>
      intro l l'
      rw [List.cons_append, Segment, ih]
      constructor
      · rintro ⟨hl, m, h, h'⟩
        exact ⟨m, ⟨hl, h⟩, h'⟩
      · rintro ⟨m, ⟨hl, h⟩, h'⟩
        exact ⟨hl, m, h, h'⟩

theorem Segment.congr {q : List P} (hnext : ∀ p ∈ q, next p = next' p) :
    ∀ {l l' : Option P}, Segment next l q l' → Segment next' l q l' := by
  induction q with
  | nil => exact id
  | cons p q ih =>
      rintro l l' ⟨hl, h⟩
      refine ⟨hl, ?_⟩
      rw [← hnext p List.mem_cons_self]
      exact ih (fun r hr => hnext r (List.mem_cons_of_mem p hr)) h

/-- The last link is set to a new element. -/
theorem Segment.snoc {q : List P} {p x : P} {l l' : Option P} (h : Segment next l (q ++ [p]) l')
    (hq : ∀ r ∈ q, next r = next' r) (hp : next' p = some x) :
    Segment next' l (q ++ [p] ++ [x]) (next' x) := by
  obtain ⟨m, hm, hlast, -⟩ := segment_append.1 h
  exact segment_append.2 ⟨some x, segment_append.2 ⟨m, hm.congr hq, hlast, hp⟩, rfl, rfl⟩

end

end Tendra.Queue
