import Mathlib.Data.List.Nodup
import Tendra.Lib.Queue
import Tendra.Ref.Tld.Entry

/-!
# The list of the names of a shape

The entries that are on the list of a shape are linked from `head`, and `tail` is the link of the
last of them. An entry that is not direct has a null link, as it was cleared when it was
allocated and has not been on a list, so it ends the list when it is added.
-/

namespace Tendra.Ref.Tld.Heap

open Queue

variable {e : NameEntry} {s₁ : State}

/-! ## The operations as a run -/

/-- What is done with entries and lists. -/
inductive Action
  | createDirect (key : NameKey) (sh : Shape)
  | createIndirect (key : NameKey) (indirect : Ptr)
  | createPlace (key : NameKey)
  | makeDirect (p : Ptr) (sh : Shape)
  | makeIndirect (p indirect : Ptr)
  | getFromList (sh : Shape)

/-- The state after an action, and what it does with a list. -/
def step (s : State) : Action → Option (State × List (Event Shape Ptr))
  | .createDirect key sh => (nameEntryCreateDirect key sh s).map fun r => (r.2, [.add sh r.1])
  | .createIndirect key indirect => some ((nameEntryCreateIndirect key indirect s).2, [])
  | .createPlace key => some ((nameEntryCreatePlace key s).2, [])
  | .makeDirect p sh => (nameEntryMakeDirect p sh s).map fun s => (s, [.add sh p])
  | .makeIndirect p indirect => (nameEntryMakeIndirect p indirect s).map fun s => (s, [])
  | .getFromList sh => (shapeEntryGetFromList sh s).map fun r => (r.2, [.get sh r.1])

/-- Actions in any order. -/
def run : State → List Action → Option (State × List (Event Shape Ptr))
  | s, [] => some (s, [])
  | s, a :: as => do
      let (s, events) ← step s a
      let (s, events') ← run s as
      some (s, events ++ events')

/-! ## What holds between actions -/

/-- The link of an entry. -/
def next (s : State) (p : Ptr) : Option Ptr := (s.mem.get p).bind NameEntry.listNext

/-- The entry is direct. -/
def Direct (s : State) (p : Ptr) : Prop := ∃ e, s.mem.get p = some e ∧ e.type = .direct

/-- The link that the next entry is put at. -/
def lastLink (q : List Ptr) : Link := q.getLast?.elim .head .listNext

/-- The lists hold what was added and has not been got. -/
structure Inv (s : State) (events : List (Event Shape Ptr)) (q : Shape → List Ptr) : Prop where
  adds_eq : ∀ sh, adds sh events = gets sh events ++ q sh
  linked : ∀ sh, Segment (next s) (s.shapes sh).head (q sh) none
  tail_eq : ∀ sh, (s.shapes sh).tail = lastLink (q sh)
  direct : ∀ sh, ∀ p ∈ adds sh events, Direct s p
  nodup : ∀ sh, (adds sh events).Nodup
  apart : ∀ sh sh' p, p ∈ adds sh events → p ∈ adds sh' events → sh = sh'
  clear : ∀ p e, s.mem.get p = some e → e.type ≠ .direct → e.listNext = none
  fifo : Fifo events

/-! ## What the operations do to memory -/

section

variable {s : State} {p r : Ptr} {sh : Shape}

theorem get_alloc (m : Memory) (e : NameEntry) (r : Ptr) :
    (m.alloc e).2.get r = if r = m.cells.length then some e else m.get r := by
  simp only [Memory.alloc, Memory.get]
  rcases Nat.lt_trichotomy r m.cells.length with hlt | rfl | hgt
  · rw [List.getElem?_append_left hlt, if_neg (Nat.ne_of_lt hlt)]
  · simp
  · rw [if_neg (Nat.ne_of_gt hgt), List.getElem?_eq_none (by
      rw [List.length_append, List.length_singleton]
      exact hgt),
      List.getElem?_eq_none (Nat.le_of_lt hgt)]

theorem get_set (m : Memory) (h : m.get p = some e) (e' : NameEntry) (r : Ptr) :
    (m.set p e').get r = if r = p then some e' else m.get r := by
  have hlt : p < m.cells.length := (List.getElem?_eq_some_iff.1 h).1
  simp only [Memory.set, Memory.get]
  by_cases hr : r = p
  · rw [if_pos hr, hr, List.getElem?_set_self hlt]
  · rw [if_neg hr, List.getElem?_set_ne (Ne.symm hr)]

theorem modify_eq (h : s.mem.get p = some e) (f : NameEntry → NameEntry) :
    s.modify p f = some { s with mem := s.mem.set p (f e) } := by
  rw [State.modify, h, Option.map_some]

theorem next_eq (h : s.mem.get p = some e) : next s p = e.listNext := by
  rw [next, h, Option.bind_some]

theorem get_lt (h : s.mem.get p = some e) : p ≠ s.mem.cells.length :=
  Nat.ne_of_lt (List.getElem?_eq_some_iff.1 h).1

theorem setShape_shapes (s : State) (sh sh' : Shape) (e : ShapeEntry) :
    (s.setShape sh e).shapes sh' = if sh' = sh then e else s.shapes sh' :=
  Function.update_apply _ _ _ _

end

/-! ## What the operations keep -/

section

variable {s s' : State} {events : List (Event Shape Ptr)} {q : Shape → List Ptr} {p : Ptr}
  {sh : Shape}

theorem Inv.init : Inv .init [] fun _ => [] where
  adds_eq _ := rfl
  linked _ := rfl
  tail_eq _ := rfl
  direct _ _ h := absurd h List.not_mem_nil
  nodup _ := List.nodup_nil
  apart _ _ _ h := absurd h List.not_mem_nil
  clear p e h := by
    rw [show State.init.mem.get p = none from List.getElem?_nil] at h
    cases h
  fifo := Fifo.nil

theorem Inv.mem_adds (h : Inv s events q) (hp : p ∈ q sh) : p ∈ adds sh events := by
  rw [h.adds_eq]
  exact List.mem_append_right _ hp

/-- What does not touch a direct entry does not touch a list. -/
theorem Inv.frame (h : Inv s events q)
    (hshapes : ∀ sh, (s'.shapes sh).head = (s.shapes sh).head ∧
      (s'.shapes sh).tail = (s.shapes sh).tail)
    (hmem : ∀ p, Direct s p → s'.mem.get p = s.mem.get p)
    (hclear : ∀ p e, s'.mem.get p = some e → e.type ≠ .direct → e.listNext = none) :
    Inv s' events q where
  adds_eq := h.adds_eq
  linked sh := by
    rw [(hshapes sh).1]
    refine (h.linked sh).congr fun p hp => ?_
    rw [next, next, hmem p (h.direct sh p (h.mem_adds hp))]
  tail_eq sh := (hshapes sh).2.trans (h.tail_eq sh)
  direct sh p hp := by
    obtain ⟨e, he, htype⟩ := h.direct sh p hp
    exact ⟨e, (hmem p ⟨e, he, htype⟩).trans he, htype⟩
  nodup := h.nodup
  apart := h.apart
  clear := hclear
  fifo := h.fifo

theorem Inv.alloc (h : Inv s events q) (he : e.listNext = none) : Inv (s.alloc e).2 events q := by
  refine h.frame (fun _ => ⟨rfl, rfl⟩) (fun p hp => ?_) fun p e' hp htype => ?_
  · obtain ⟨e', he', -⟩ := hp
    exact (get_alloc s.mem e p).trans (if_neg (get_lt he'))
  · rw [show (s.alloc e).2.mem = (s.mem.alloc e).2 from rfl, get_alloc] at hp
    split at hp
    · obtain rfl := Option.some.inj hp
      exact he
    · exact h.clear p e' hp htype

/-- A placeholder is changed, but not its link. -/
theorem Inv.modify (h : Inv s events q) (he : s.mem.get p = some e) (htype : e.type = .placeholder)
    {e' : NameEntry} (hlink : e'.listNext = e.listNext) :
    Inv { s with mem := s.mem.set p e' } events q := by
  have hnone : e.listNext = none := h.clear p e he (by rw [htype]; decide)
  refine h.frame (fun _ => ⟨rfl, rfl⟩) (fun r hr => ?_) fun r e'' hr hdirect => ?_
  · obtain ⟨e'', he'', hdirect⟩ := hr
    refine (get_set s.mem he e' r).trans (if_neg ?_)
    rintro rfl
    obtain rfl := Option.some.inj (he.symm.trans he'')
    rw [htype] at hdirect
    cases hdirect
  · rw [get_set s.mem he] at hr
    split at hr
    · obtain rfl := Option.some.inj hr
      exact hlink.trans hnone
    · exact h.clear r e'' hr hdirect

theorem Inv.nextId (h : Inv s events q) {id : Nat} (hid : shapeEntryNextId sh s = some (id, s')) :
    Inv s' events q ∧ s'.mem = s.mem := by
  rw [shapeEntryNextId] at hid
  split at hid
  · cases hid
  · obtain ⟨-, rfl⟩ := Prod.mk.inj (Option.some.inj hid)
    refine ⟨h.frame (fun sh' => ?_) (fun _ _ => rfl) h.clear, rfl⟩
    rw [setShape_shapes]
    split
    · rename_i heq
      exact heq ▸ ⟨rfl, rfl⟩
    · exact ⟨rfl, rfl⟩

theorem lastLink_snoc (l : List Ptr) (p : Ptr) : lastLink (l ++ [p]) = .listNext p := by
  rw [lastLink, List.getLast?_concat]
  rfl

/-- An entry is at the end of a list, and the other lists are as they were. -/
theorem Inv.added (h : Inv s events q) (hp : Direct s p) (hnew : ∀ sh, p ∉ adds sh events)
    (hlinked : Segment (next s') (s'.shapes sh).head (q sh ++ [p]) none)
    (htail : (s'.shapes sh).tail = .listNext p)
    (hshapes : ∀ sh', sh' ≠ sh → s'.shapes sh' = s.shapes sh')
    (hnext : ∀ sh', sh' ≠ sh → ∀ r ∈ q sh', next s r = next s' r)
    (hdirect : ∀ r, Direct s r → Direct s' r)
    (hclear : ∀ r e, s'.mem.get r = some e → e.type ≠ .direct → e.listNext = none) :
    Inv s' (events ++ [.add sh p]) (Function.update q sh (q sh ++ [p])) := by
  have hadds : ∀ sh', adds sh' (events ++ [.add sh p]) =
      adds sh' events ++ if sh = sh' then [p] else [] := by
    intro sh'
    rw [adds_append]
    congr 1
    split <;> simp [adds, *]
  have hgets : ∀ sh', gets sh' (events ++ [.add sh p]) = gets sh' events := by
    intro sh'
    rw [gets_append]
    exact List.append_nil _
  have hmem : ∀ sh' r, r ∈ adds sh' (events ++ [.add sh p]) →
      r ∈ adds sh' events ∨ sh' = sh ∧ r = p := by
    intro sh' r hr
    rw [hadds, List.mem_append] at hr
    refine hr.imp id fun hr => ?_
    split at hr
    · exact ⟨‹sh = sh'›.symm, List.mem_singleton.1 hr⟩
    · exact absurd hr List.not_mem_nil
  refine ⟨fun sh' => ?_, fun sh' => ?_, fun sh' => ?_, fun sh' r hr => ?_, fun sh' => ?_,
    fun sh' sh'' r hr hr' => ?_, hclear, h.fifo.snoc fun k r heq => by cases heq⟩
  · rw [hadds, hgets]
    by_cases heq : sh' = sh
    · subst heq
      rw [if_pos rfl, Function.update_self, h.adds_eq, List.append_assoc]
    · rw [if_neg (Ne.symm heq), Function.update_of_ne heq, h.adds_eq, List.append_nil]
  · by_cases heq : sh' = sh
    · subst heq
      rwa [Function.update_self]
    · rw [Function.update_of_ne heq, hshapes sh' heq]
      exact (h.linked sh').congr (hnext sh' heq)
  · by_cases heq : sh' = sh
    · subst heq
      rw [Function.update_self, lastLink_snoc, htail]
    · rw [Function.update_of_ne heq, hshapes sh' heq, h.tail_eq]
  · rcases hmem sh' r hr with hr | ⟨-, rfl⟩
    · exact hdirect r (h.direct sh' r hr)
    · exact hdirect r hp
  · rw [hadds]
    split
    · exact List.nodup_append.2 ⟨h.nodup sh', List.nodup_singleton p, fun a ha b hb heq =>
        hnew sh' (List.mem_singleton.1 hb ▸ heq ▸ ha)⟩
    · rw [List.append_nil]
      exact h.nodup sh'
  · rcases hmem sh' r hr with hr | ⟨hsh, rfl⟩
    · rcases hmem sh'' r hr' with hr' | ⟨-, hrp⟩
      · exact h.apart sh' sh'' r hr hr'
      · exact absurd (hrp ▸ hr) (hnew sh')
    · rcases hmem sh'' r hr' with hr' | ⟨hsh', -⟩
      · exact absurd hr' (hnew sh'')
      · rw [hsh, hsh']

theorem listNext_eq (he : s.mem.get p = some e) (htype : e.type = .direct) :
    nameEntryListNext p s = some e.listNext := by
  rw [nameEntryListNext, he, Option.bind_eq_bind, Option.bind_some, if_pos htype]

theorem listNextRef_eq (hp : Direct s p) : nameEntryListNextRef p s = some (.listNext p) := by
  obtain ⟨e, he, htype⟩ := hp
  rw [nameEntryListNextRef, he, Option.bind_eq_bind, Option.bind_some, if_pos htype]

theorem addToList_eq (hassign : assign sh (s.shapes sh).tail (some p) s = some s₁)
    (hp : Direct s₁ p) : shapeEntryAddToList sh p s =
      some (s₁.setShape sh { s₁.shapes sh with tail := .listNext p }) := by
  rw [shapeEntryAddToList, hassign]
  show (nameEntryListNextRef p s₁).bind _ = _
  rw [listNextRef_eq hp]
  rfl

/-- `shape_entry_add_to_list`, for an entry that has just become direct. -/
theorem Inv.addToList (h : Inv s events q) (hp : Direct s p) (hnext : next s p = none)
    (hnew : ∀ sh, p ∉ adds sh events) (sh : Shape) :
    ∃ s', shapeEntryAddToList sh p s = some s' ∧
      Inv s' (events ++ [.add sh p]) (Function.update q sh (q sh ++ [p])) := by
  have hpq : p ∉ q sh := fun hpq => hnew sh (h.mem_adds hpq)
  have hlinked := h.linked sh
  have htail := h.tail_eq sh
  rcases List.eq_nil_or_concat (q sh) with hq | ⟨l, r, hq⟩
  · -- the list is empty, and the entry comes to its head
    rw [hq] at htail
    have hassign : assign sh (s.shapes sh).tail (some p) s =
        some (s.setShape sh { s.shapes sh with head := some p }) := by
      rw [htail]
      rfl
    refine ⟨_, addToList_eq hassign hp, ?_⟩
    refine h.added hp hnew ?_ ?_ (fun sh' hne => ?_) (fun _ _ _ _ => rfl) (fun _ h => h) h.clear
    · rw [setShape_shapes, if_pos rfl, setShape_shapes, if_pos rfl, hq]
      exact ⟨rfl, hnext⟩
    · rw [setShape_shapes, if_pos rfl]
    · rw [setShape_shapes, if_neg hne, setShape_shapes, if_neg hne]
  · -- the link of the last entry is set
    rw [List.concat_eq_append] at hq
    rw [hq] at htail hlinked
    have hr : r ∈ q sh := by
      rw [hq]
      exact List.mem_append_right _ (List.mem_singleton_self r)
    have hrp : r ≠ p := fun heq => hpq (heq ▸ hr)
    obtain ⟨e, he, htype⟩ := h.direct sh r (h.mem_adds hr)
    have hget : ∀ x, (s.mem.set r { e with listNext := some p }).get x =
        if x = r then some { e with listNext := some p } else s.mem.get x :=
      fun x => get_set s.mem he _ x
    have hnexts : ∀ (shapes : Shape → ShapeEntry) (x : Ptr),
        next ⟨s.mem.set r { e with listNext := some p }, shapes⟩ x =
          if x = r then some p else next s x := by
      intro shapes x
      rw [next, hget]
      split
      · rfl
      · rfl
    have hdirect : ∀ (shapes : Shape → ShapeEntry) (x : Ptr), Direct s x →
        Direct ⟨s.mem.set r { e with listNext := some p }, shapes⟩ x := by
      rintro shapes x ⟨e', he', htype'⟩
      by_cases hx : x = r
      · exact ⟨_, (hget x).trans (if_pos hx), htype⟩
      · exact ⟨e', ((hget x).trans (if_neg hx)).trans he', htype'⟩
    have hassign : assign sh (s.shapes sh).tail (some p) s =
        some ⟨s.mem.set r { e with listNext := some p }, s.shapes⟩ := by
      rw [htail, lastLink_snoc, assign, modify_eq he]
    refine ⟨_, addToList_eq hassign (hdirect _ p hp), ?_⟩
    refine h.added hp hnew ?_ ?_ (fun sh' hne => ?_) (fun sh' hne x hx => ?_) (hdirect _) ?_
    · have hnodup : (l ++ [r]).Nodup :=
        hq ▸ ((h.adds_eq sh) ▸ h.nodup sh).of_append_right
      have hsame : ∀ x ∈ l, next s x =
          next ⟨s.mem.set r { e with listNext := some p }, s.shapes⟩ x := by
        intro x hx
        rw [hnexts, if_neg]
        rintro rfl
        exact List.disjoint_of_nodup_append hnodup hx (List.mem_singleton_self x)
      have hseg := hlinked.snoc hsame (x := p) (by rw [hnexts, if_pos rfl])
      rw [hnexts, if_neg (Ne.symm hrp), hnext] at hseg
      rw [setShape_shapes, if_pos rfl, hq]
      exact hseg
    · rw [setShape_shapes, if_pos rfl]
    · rw [setShape_shapes, if_neg hne]
    · rw [State.setShape, hnexts, if_neg]
      rintro rfl
      exact hne (h.apart _ _ x (h.mem_adds hx) (h.mem_adds hr))
    · intro x e' hx hdir
      rw [State.setShape, hget] at hx
      split at hx
      · obtain rfl := Option.some.inj hx
        exact absurd htype hdir
      · exact h.clear x e' hx hdir

theorem Inv.not_added (h : Inv s events q) (hp : ¬Direct s p) (sh : Shape) : p ∉ adds sh events :=
  fun hmem => hp (h.direct sh p hmem)

theorem not_direct_new (s : State) : ¬Direct s s.mem.cells.length := by
  rintro ⟨e, he, -⟩
  exact get_lt he rfl

theorem nextId_eq {s : State} {sh : Shape} (hid : (s.shapes sh).idCount ≠ uintMax) :
    ∃ id s', shapeEntryNextId sh s = some (id, s') :=
  ⟨_, _, by rw [shapeEntryNextId, if_neg hid]⟩

theorem Inv.createDirect (h : Inv s events q) (key : NameKey) {id : Nat}
    (hid : shapeEntryNextId sh s = some (id, s₁)) :
    ∃ p s', nameEntryCreateDirect key sh s = some (p, s') ∧
      ∃ q', Inv s' (events ++ [.add sh p]) q' := by
  obtain ⟨h₁, -⟩ := h.nextId hid
  have hget : (s₁.alloc ((NameEntry.create key .direct).toDirect id)).2.mem.get
      s₁.mem.cells.length = some ((NameEntry.create key .direct).toDirect id) :=
    (get_alloc s₁.mem _ _).trans (if_pos rfl)
  have hp : Direct (s₁.alloc ((NameEntry.create key .direct).toDirect id)).2
      s₁.mem.cells.length := ⟨_, hget, rfl⟩
  obtain ⟨s', hs', h'⟩ := (h₁.alloc rfl).addToList hp (next_eq hget)
    (h₁.not_added (not_direct_new s₁)) sh
  refine ⟨s₁.mem.cells.length, s', ?_, _, h'⟩
  rw [nameEntryCreateDirect, hid]
  show (shapeEntryAddToList sh s₁.mem.cells.length
    (s₁.alloc ((NameEntry.create key .direct).toDirect id)).2).bind _ = _
  rw [hs']
  rfl

theorem Inv.makeDirect (h : Inv s events q) (he : s.mem.get p = some e)
    (htype : e.type = .placeholder) {id : Nat} (hid : shapeEntryNextId sh s = some (id, s₁)) :
    ∃ s', nameEntryMakeDirect p sh s = some s' ∧ ∃ q', Inv s' (events ++ [.add sh p]) q' := by
  obtain ⟨h₁, hmem⟩ := h.nextId hid
  have he₁ : s₁.mem.get p = some e := hmem ▸ he
  have hnone : e.listNext = none := h.clear p e he (by rw [htype]; decide)
  have hnot : ¬Direct s₁ p := by
    rintro ⟨e', he', hdirect⟩
    obtain rfl := Option.some.inj (he₁.symm.trans he')
    rw [htype] at hdirect
    cases hdirect
  have hget : (s₁.mem.set p (e.toDirect id)).get p = some (e.toDirect id) :=
    (get_set s₁.mem he₁ _ p).trans (if_pos rfl)
  have hnext : next { s₁ with mem := s₁.mem.set p (e.toDirect id) } p = none := by
    rw [next, hget]
    exact hnone
  have h₂ : Inv { s₁ with mem := s₁.mem.set p (e.toDirect id) } events q :=
    h₁.modify he₁ htype rfl
  obtain ⟨s', hs', h'⟩ := h₂.addToList (p := p)
    ⟨_, hget, rfl⟩ hnext (h₁.not_added hnot) sh
  refine ⟨s', ?_, _, h'⟩
  rw [nameEntryMakeDirect, he]
  show (if e.type = .placeholder then _ else none) = _
  rw [if_pos htype, hid]
  show (s₁.modify p fun e => e.toDirect id).bind _ = _
  rw [modify_eq he₁]
  exact hs'

/-- `shape_entry_get_from_list`. -/
theorem Inv.getFromList (h : Inv s events q) (sh : Shape) :
    ∃ r s', shapeEntryGetFromList sh s = some (r, s') ∧
      ∃ q', Inv s' (events ++ [.get sh r]) q' := by
  have hadds : ∀ r sh', adds sh' (events ++ [.get sh r]) = adds sh' events := by
    intro r sh'
    rw [adds_append]
    exact List.append_nil _
  have hgets : ∀ r sh', gets sh' (events ++ [.get sh r]) =
      gets sh' events ++ if sh = sh' then r.toList else [] := by
    intro r sh'
    rw [gets_append]
    congr 1
    cases r <;> by_cases heq : sh = sh' <;> simp [gets, heq]
  have hfifo : ∀ r, r = (q sh).head? → Fifo (events ++ [.get sh r]) := by
    rintro r hr
    refine h.fifo.snoc fun k r' heq => ?_
    injection heq with hk hr'
    subst hk hr'
    rw [hr, h.adds_eq, List.getElem?_append_right (Nat.le_refl _), Nat.sub_self,
      List.head?_eq_getElem?]
  have hlinked := h.linked sh
  rw [shapeEntryGetFromList]
  cases hq : q sh with
  | nil =>
      rw [hq] at hlinked
      rw [show (s.shapes sh).head = none from hlinked]
      refine ⟨none, s, rfl, q, fun sh' => ?_, h.linked, h.tail_eq, fun sh' p hp => ?_,
        fun sh' => ?_, fun sh' sh'' p hp hp' => ?_, h.clear, hfifo none (by rw [hq]; rfl)⟩
      · rw [hadds, hgets, h.adds_eq]
        rw [show (none : Option Ptr).toList = [] from rfl, ite_self, List.append_nil]
      · exact h.direct sh' p (hadds none sh' ▸ hp)
      · rw [hadds]
        exact h.nodup sh'
      · exact h.apart sh' sh'' p (hadds none sh' ▸ hp) (hadds none sh'' ▸ hp')
  | cons p l =>
      rw [hq] at hlinked
      obtain ⟨hhead, hlinked⟩ := hlinked
      obtain ⟨e, he, htype⟩ := h.direct sh p (h.mem_adds (hq ▸ List.mem_cons_self))
      rw [hhead]
      refine ⟨some p, s.setShape sh { s.shapes sh with
        head := e.listNext
        tail := if e.listNext = none then .head else (s.shapes sh).tail }, ?_,
        Function.update q sh l, fun sh' => ?_, fun sh' => ?_, fun sh' => ?_, fun sh' r hr => ?_,
        fun sh' => ?_, fun sh' sh'' r hr hr' => ?_, h.clear, hfifo (some p) (by rw [hq]; rfl)⟩
      · show (nameEntryListNext p s).bind _ = _
        rw [listNext_eq he htype]
        rfl
      · rw [hadds, hgets]
        by_cases heq : sh' = sh
        · subst heq
          rw [Function.update_self, if_pos rfl, h.adds_eq, hq, List.append_assoc]
          rfl
        · rw [Function.update_of_ne heq, if_neg (Ne.symm heq), List.append_nil, h.adds_eq]
      · rw [setShape_shapes]
        by_cases heq : sh' = sh
        · subst heq
          rw [if_pos rfl, Function.update_self]
          rwa [next_eq he] at hlinked
        · rw [if_neg heq, Function.update_of_ne heq]
          exact h.linked sh'
      · rw [setShape_shapes]
        by_cases heq : sh' = sh
        · subst heq
          rw [if_pos rfl, Function.update_self, h.tail_eq, hq]
          rw [next_eq he] at hlinked
          cases l with
          | nil =>
              rw [if_pos (show e.listNext = none from hlinked)]
              rfl
          | cons r l =>
              rw [if_neg (by rw [hlinked.1]; exact Option.some_ne_none r), lastLink, lastLink,
                List.getLast?_cons_cons]
        · rw [if_neg heq, Function.update_of_ne heq]
          exact h.tail_eq sh'
      · exact h.direct sh' r (hadds (some p) sh' ▸ hr)
      · rw [hadds]
        exact h.nodup sh'
      · exact h.apart sh' sh'' r (hadds (some p) sh' ▸ hr) (hadds (some p) sh'' ▸ hr')

/-! ## Runs -/

theorem Inv.step (h : Inv s events q) {a : Action} {added : List (Event Shape Ptr)}
    (hstep : step s a = some (s', added)) : ∃ q', Inv s' (events ++ added) q' := by
  cases a with
  | createDirect key sh =>
      obtain ⟨⟨p, s''⟩, hcreate, heq⟩ := Option.map_eq_some_iff.1 hstep
      obtain ⟨rfl, rfl⟩ := Prod.mk.inj heq
      have hid : (s.shapes sh).idCount ≠ uintMax := by
        intro hid
        rw [nameEntryCreateDirect, shapeEntryNextId, if_pos hid] at hcreate
        cases hcreate
      obtain ⟨id, s₁, hs₁⟩ := nextId_eq hid
      obtain ⟨p', s', hs', h'⟩ := h.createDirect key hs₁
      obtain ⟨rfl, rfl⟩ := Prod.mk.inj (Option.some.inj (hcreate.symm.trans hs'))
      exact h'
  | createIndirect key indirect =>
      obtain ⟨rfl, rfl⟩ := Prod.mk.inj (Option.some.inj hstep)
      exact ⟨q, (List.append_nil events).symm ▸ h.alloc rfl⟩
  | createPlace key =>
      obtain ⟨rfl, rfl⟩ := Prod.mk.inj (Option.some.inj hstep)
      exact ⟨q, (List.append_nil events).symm ▸ h.alloc rfl⟩
  | makeDirect p sh =>
      obtain ⟨s'', hmake, heq⟩ := Option.map_eq_some_iff.1 hstep
      obtain ⟨rfl, rfl⟩ := Prod.mk.inj heq
      obtain ⟨e, he, hrest⟩ := Option.bind_eq_some_iff.1 hmake
      split at hrest
      · rename_i htype
        obtain ⟨⟨id, s₁⟩, hs₁, -⟩ := Option.bind_eq_some_iff.1 hrest
        obtain ⟨s', hs', h'⟩ := h.makeDirect he htype hs₁
        obtain rfl := Option.some.inj (hmake.symm.trans hs')
        exact h'
      · cases hrest
  | makeIndirect p indirect =>
      obtain ⟨s'', hmake, heq⟩ := Option.map_eq_some_iff.1 hstep
      obtain ⟨rfl, rfl⟩ := Prod.mk.inj heq
      obtain ⟨e, he, hrest⟩ := Option.bind_eq_some_iff.1 hmake
      split at hrest
      · rename_i htype
        rw [modify_eq he] at hrest
        obtain rfl := Option.some.inj hrest
        exact ⟨q, (List.append_nil events).symm ▸ h.modify he htype rfl⟩
      · cases hrest
  | getFromList sh =>
      obtain ⟨⟨r, s''⟩, hget, heq⟩ := Option.map_eq_some_iff.1 hstep
      obtain ⟨rfl, rfl⟩ := Prod.mk.inj heq
      obtain ⟨r', s', hs', h'⟩ := h.getFromList sh
      obtain ⟨rfl, rfl⟩ := Prod.mk.inj (Option.some.inj (hget.symm.trans hs'))
      exact h'

theorem Inv.run {actions : List Action} : ∀ {s events q} {added : List (Event Shape Ptr)},
    Inv s events q → run s actions = some (s', added) → ∃ q', Inv s' (events ++ added) q' := by
  induction actions with
  | nil =>
      intro s events q added h hrun
      obtain ⟨rfl, rfl⟩ := Prod.mk.inj (Option.some.inj hrun)
      exact ⟨q, (List.append_nil events).symm ▸ h⟩
  | cons a as ih =>
      intro s events q added h hrun
      obtain ⟨⟨s₁, added₁⟩, hstep, hrun⟩ := Option.bind_eq_some_iff.1 hrun
      obtain ⟨⟨s₂, added₂⟩, hrest, heq⟩ := Option.bind_eq_some_iff.1 hrun
      obtain ⟨rfl, rfl⟩ := Prod.mk.inj (Option.some.inj heq)
      obtain ⟨q₁, h₁⟩ := h.step hstep
      rw [← List.append_assoc]
      exact ih h₁ hrest

end

/-- In every run the names that are got from a list are those that were added to it, each once
and in the order in which they were added, and there is none when all have been got. No
assertion fails but that a name that is made direct is a placeholder. -/
theorem lists_exact {actions : List Action} {s : State} {events : List (Event Shape Ptr)}
    (h : run .init actions = some (s, events)) :
    Fifo events ∧
    (∀ sh, (adds sh events).Nodup ∧
      gets sh events = (adds sh events).take (gets sh events).length) ∧
    ∀ sh, (step s (.getFromList sh)).isSome = true ∧
      ((s.shapes sh).idCount ≠ uintMax →
        (∀ key, (step s (.createDirect key sh)).isSome = true) ∧
        ∀ p e, s.mem.get p = some e → e.type = .placeholder →
          (step s (.makeDirect p sh)).isSome = true) := by
  obtain ⟨q, hinv⟩ := Inv.init.run h
  rw [List.nil_append] at hinv
  refine ⟨hinv.fifo, fun sh => ⟨hinv.nodup sh, hinv.fifo.gets_eq sh⟩, fun sh => ⟨?_, ?_⟩⟩
  · obtain ⟨r, s', hs', -⟩ := hinv.getFromList sh
    rw [step, hs']
    rfl
  · intro hid
    obtain ⟨id, s₁, hs₁⟩ := nextId_eq hid
    refine ⟨fun key => ?_, fun p e he htype => ?_⟩
    · obtain ⟨p, s', hs', -⟩ := hinv.createDirect key hs₁
      rw [step, hs']
      rfl
    · obtain ⟨s', hs', -⟩ := hinv.makeDirect he htype hs₁
      rw [step, hs']
      rfl

/-- Two names, of which one was a placeholder, on a list that is emptied. -/
theorem lists_exact_two :
    ∃ s events, run .init [.createPlace (.string []), .createDirect (.unique []) 0,
        .makeDirect 0 0, .getFromList 0, .getFromList 0, .getFromList 0] = some (s, events) ∧
      events = [.add 0 1, .add 0 0, .get 0 (some 1), .get 0 (some 0), .get 0 none] ∧
      Fifo events := by
  have hrun : run .init [.createPlace (.string []), .createDirect (.unique []) 0,
      .makeDirect 0 0, .getFromList 0, .getFromList 0, .getFromList 0] = some (_, _) := rfl
  exact ⟨_, _, hrun, rfl, (lists_exact hrun).1⟩

end Tendra.Ref.Tld.Heap
