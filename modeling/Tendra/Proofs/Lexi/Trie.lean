import Mathlib.Data.Stream.Init
import Tendra.Ref.Lexi.Trie

/-!
# What a trie holds after any sequence of declarations

A trie is read by following the first alternative with each value of a sequence. A declaration
changes what is read for its own values and nothing else, so a trie that was built holds what was
declared.
-/

namespace Tendra.Ref.Lexi.Trie

variable {α : Type} {groups : Groups} {P : Value → Prop} {v : Value} {vs : List Value} {a : α}
  {t t' : Trie α} {decls : List (List Int × α)}
  {k : Option α → Trie α → Option (Option α × Trie α)}

/-- All values in a trie are of a kind. -/
def All (P : Value → Prop) : Trie α → Prop
  | nil => True
  | node v _ next opt => P v ∧ next.All P ∧ opt.All P

/-- The first alternative with a value: its leaf and what follows it. -/
def find (v : Value) : Trie α → Option (Option α × Trie α)
  | nil => none
  | node v' u next opt => if v' = v then some (u, next) else find v opt

/-- What is read for a sequence of values. -/
def get : Trie α → List Value → Option α
  | _, [] => none
  | t, v :: vs =>
      let n := (t.find v).getD (none, nil)
      if vs = [] then n.1 else n.2.get vs

theorem find_nil (v : Value) : (nil : Trie α).find v = none := rfl

theorem get_nil (vs : List Value) : (nil : Trie α).get vs = none := by
  induction vs with
  | nil => rfl
  | cons v vs ih =>
      rw [get, find_nil, Option.getD_none, ih, ite_self]

theorem has_iff : t.has v = true ↔ ∃ n, t.find v = some n := by
  induction t with
  | nil => simp [has, find]
  | node v' u next opt _ ihopt =>
      by_cases h : v' = v
      · simp [has, find, h]
      · simp [has, find, h, ihopt]

theorem change_find (h : t.change v k = some t') :
    ∃ n res, t.find v = some n ∧ k n.1 n.2 = some res ∧ t'.find v = some res ∧
      ∀ v' ≠ v, t'.find v' = t.find v' := by
  induction t generalizing t' with
  | nil => exact absurd h (by simp [change])
  | node w u next opt _ ihopt =>
      rw [change] at h
      by_cases hw : w = v
      · rw [if_pos hw] at h
        obtain ⟨res, hres, rfl⟩ := Option.map_eq_some_iff.1 h
        refine ⟨(u, next), res, if_pos hw, hres, if_pos hw, fun v' hv' => ?_⟩
        have hne : w ≠ v' := fun heq => hv' (heq ▸ hw)
        rw [find, find, if_neg hne, if_neg hne]
      · rw [if_neg hw] at h
        obtain ⟨opt', hopt, rfl⟩ := Option.map_eq_some_iff.1 h
        obtain ⟨n, res, hfind, hres, hfind', hothers⟩ := ihopt hopt
        refine ⟨n, res, (if_neg hw).trans hfind, hres, (if_neg hw).trans hfind', fun v' hv' => ?_⟩
        rw [find, find, hothers v' hv']

/-- `find_or_add`: the alternative with the value is changed, or a new one, and no other. -/
theorem findOrAdd_find (h : t.findOrAdd v k = some t') :
    ∃ res, k ((t.find v).getD (none, nil)).1 ((t.find v).getD (none, nil)).2 = some res ∧
      t'.find v = some res ∧ ∀ v' ≠ v, t'.find v' = t.find v' := by
  rw [findOrAdd] at h
  by_cases hhas : t.has v = true
  · rw [if_pos hhas] at h
    obtain ⟨n, res, hfind, hres, hfind', hothers⟩ := change_find h
    refine ⟨res, ?_, hfind', hothers⟩
    rw [hfind]
    exact hres
  · rw [if_neg hhas] at h
    have hnone : t.find v = none :=
      Option.eq_none_iff_forall_ne_some.2 fun n hn => hhas (has_iff.2 ⟨n, hn⟩)
    split at h
    next =>
      obtain ⟨res, hres, rfl⟩ := Option.map_eq_some_iff.1 h
      refine ⟨res, ?_, if_pos rfl, fun v' hv' => if_neg (Ne.symm hv')⟩
      rw [hnone]
      exact hres
    next => exact absurd h (by simp)

theorem get_cons :
    t.get (v :: vs) = if vs = [] then ((t.find v).getD (none, nil)).1
      else ((t.find v).getD (none, nil)).2.get vs := rfl

/-- A declaration that succeeds has not been made before, and changes its own values only. -/
theorem addValues_get (h : t.addValues a vs = some t') :
    vs ≠ [] ∧ t.get vs = none ∧ ∀ vs', t'.get vs' = if vs' = vs then some a else t.get vs' := by
  induction vs generalizing t t' with
  | nil => exact absurd h (by simp [addValues])
  | cons v vs ih =>
      have hothers : ∀ {res}, t'.find v = some res → (∀ v' ≠ v, t'.find v' = t.find v') →
          (∀ vs', (if vs' = [] then res.1 else res.2.get vs') =
            if vs' = vs then some a else t.get (v :: vs')) →
          ∀ vs', t'.get vs' = if vs' = v :: vs then some a else t.get vs' := by
        intro res hfind hne hres vs'
        cases vs' with
        | nil => rw [if_neg (List.cons_ne_nil v vs).symm, get, get]
        | cons v' vs' =>
            by_cases heq : v' = v
            · subst heq
              rw [get_cons, hfind, Option.getD_some, hres vs']
              simp only [List.cons.injEq, true_and]
            · rw [if_neg fun hcons => heq (List.cons.inj hcons).1, get_cons, hne v' heq, get_cons]
      cases vs with
      | nil =>
          rw [addValues] at h
          obtain ⟨res, hk, hfind, hne⟩ := findOrAdd_find h
          split at hk
          next => exact absurd hk (by simp)
          next hu =>
            obtain rfl := Option.some.inj hk
            refine ⟨List.cons_ne_nil v [], ?_, hothers hfind hne fun vs' => ?_⟩
            · rw [get_cons, if_pos rfl]
              exact Option.not_isSome_iff_eq_none.1 hu
            · by_cases hvs' : vs' = []
              · rw [if_pos hvs', if_pos hvs']
              · rw [if_neg hvs', if_neg hvs', get_cons, if_neg hvs']
      | cons w vs =>
          rw [addValues] at h
          · obtain ⟨res, hk, hfind, hne⟩ := findOrAdd_find h
            obtain ⟨next, hnext, rfl⟩ := Option.map_eq_some_iff.1 hk
            obtain ⟨hcons, hnone, hget⟩ := ih hnext
            refine ⟨List.cons_ne_nil v _, ?_, hothers hfind hne fun vs' => ?_⟩
            · rw [get_cons, if_neg hcons]
              exact hnone
            · by_cases hvs' : vs' = []
              · rw [if_pos hvs', if_neg (hvs' ▸ hcons.symm), get_cons, if_pos hvs']
              · rw [if_neg hvs', hget, get_cons, if_neg hvs']
          · exact List.cons_ne_nil w vs

theorem change_all (h : t.change v k = some t') (ht : t.All P)
    (hk : ∀ u next res, next.All P → k u next = some res → res.2.All P) : t'.All P := by
  induction t generalizing t' with
  | nil => exact absurd h (by simp [change])
  | node w u next opt _ ihopt =>
      rw [change] at h
      split at h
      next =>
        obtain ⟨res, hres, rfl⟩ := Option.map_eq_some_iff.1 h
        exact ⟨ht.1, hk u next res ht.2.1 hres, ht.2.2⟩
      next =>
        obtain ⟨opt', hopt, rfl⟩ := Option.map_eq_some_iff.1 h
        exact ⟨ht.1, ht.2.1, ihopt hopt ht.2.2⟩

theorem findOrAdd_all (h : t.findOrAdd v k = some t') (ht : t.All P) (hv : P v)
    (hk : ∀ u next res, next.All P → k u next = some res → res.2.All P) : t'.All P := by
  rw [findOrAdd] at h
  split at h
  next => exact change_all h ht hk
  next =>
    split at h
    next =>
      obtain ⟨res, hres, rfl⟩ := Option.map_eq_some_iff.1 h
      exact ⟨hv, hk none nil res trivial hres, ht⟩
    next => exact absurd h (by simp)

theorem addValues_all (h : t.addValues a vs = some t')
    (ht : t.All P) (hvs : ∀ v ∈ vs, P v) : t'.All P := by
  induction vs generalizing t t' with
  | nil => exact absurd h (by simp [addValues])
  | cons v vs ih =>
      have hv := hvs v List.mem_cons_self
      cases vs with
      | nil =>
          rw [addValues] at h
          refine findOrAdd_all h ht hv fun u next res hnext hres => ?_
          split at hres
          next => exact absurd hres (by simp)
          next =>
            obtain rfl := Option.some.inj hres
            exact hnext
      | cons w vs =>
          rw [addValues] at h
          · refine findOrAdd_all h ht hv fun u next res hnext hres => ?_
            obtain ⟨next', hnext', rfl⟩ := Option.map_eq_some_iff.1 hres
            exact ih hnext' hnext fun v' hv' => hvs v' (List.mem_cons_of_mem v hv')
          · exact List.cons_ne_nil w vs

/-- The values of a declared string. -/
abbrev Spells (groups : Groups) (s : List Int) (vs : List Value) : Prop :=
  values groups s.length s = some vs

theorem add_iff {s : List Int} :
    t.add groups s a = some t' ↔ ∃ vs, Spells groups s vs ∧ t.addValues a vs = some t' := by
  rw [add, Option.bind_eq_bind, Option.bind_eq_some_iff]

/-- A trie holds what it held before and what was declared since. -/
theorem build_get_iff (h : t.build groups decls = some t') (vs : List Value) (a : α) :
    t'.get vs = some a ↔ t.get vs = some a ∨ ∃ d ∈ decls, Spells groups d.1 vs ∧ d.2 = a := by
  induction decls generalizing t with
  | nil =>
      rw [build] at h
      obtain rfl := Option.some.inj h
      simp
  | cons d decls ih =>
      rw [build, Option.bind_eq_bind, Option.bind_eq_some_iff] at h
      obtain ⟨t₁, hadd, hbuild⟩ := h
      obtain ⟨vs₁, hspells, hvalues⟩ := add_iff.1 hadd
      obtain ⟨-, hnone, hget⟩ := addValues_get hvalues
      rw [ih hbuild, hget]
      simp only [List.mem_cons, exists_eq_or_imp]
      by_cases hvs : vs = vs₁
      · rw [if_pos hvs, Option.some.injEq, hvs, hnone]
        simp [Spells, hspells]
      · rw [if_neg hvs]
        have hne : ¬Spells groups d.1 vs := fun h' => hvs (Option.some.inj (h'.symm.trans hspells))
        simp [hne]

/-- What each declaration keeps holds when a trie is built. -/
theorem build_keeps {Q : Trie α → Prop}
    (h : t.build groups decls = some t') (ht : Q t) (hadd : ∀ d ∈ decls, ∀ {vs t t'},
      Spells groups d.1 vs → t.addValues d.2 vs = some t' → Q t → Q t') : Q t' := by
  induction decls generalizing t with
  | nil =>
      rw [build] at h
      obtain rfl := Option.some.inj h
      exact ht
  | cons d decls ih =>
      rw [build, Option.bind_eq_bind, Option.bind_eq_some_iff] at h
      obtain ⟨t₁, hadd₁, hbuild⟩ := h
      obtain ⟨vs₁, hspells, hvalues⟩ := add_iff.1 hadd₁
      rw [List.forall_mem_cons] at hadd
      exact ih hbuild (hadd.1 hspells hvalues ht) hadd.2

theorem build_all (h : t.build groups decls = some t') (ht : t.All P)
    (hdecls : ∀ d ∈ decls, ∀ vs, Spells groups d.1 vs → ∀ v ∈ vs, P v) : t'.All P :=
  build_keeps h ht fun d hd _ _ _ hvs hadd ht => addValues_all hadd ht (hdecls d hd _ hvs)

theorem addValues_find (h : t.addValues a vs = some t')
    (v : Value) (ht : t.find v = none) (hvs : vs.head? ≠ some v) : t'.find v = none := by
  cases vs with
  | nil => exact absurd h (by simp [addValues])
  | cons w vs =>
      have hne : v ≠ w := fun heq => hvs (heq ▸ rfl)
      cases vs with
      | nil =>
          rw [addValues] at h
          obtain ⟨res, -, -, hothers⟩ := findOrAdd_find h
          exact (hothers v hne).trans ht
      | cons w' vs =>
          rw [addValues] at h
          · obtain ⟨res, -, -, hothers⟩ := findOrAdd_find h
            exact (hothers v hne).trans ht
          · exact List.cons_ne_nil w' vs

/-- A value that begins no declaration begins nothing in the trie. -/
theorem build_find (h : t.build groups decls = some t') (v : Value) (ht : t.find v = none)
    (hdecls : ∀ d ∈ decls, ∀ vs, Spells groups d.1 vs → vs.head? ≠ some v) :
    t'.find v = none :=
  build_keeps h ht fun d hd _ _ _ hvs hadd ht => addValues_find hadd v ht (hdecls d hd _ hvs)

end Tendra.Ref.Lexi.Trie
