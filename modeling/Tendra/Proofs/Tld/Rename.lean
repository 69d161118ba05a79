import Tendra.Lib.Chase
import Tendra.Proofs.Tld.Pending

/-!
# Renamings

While pairs are added, every entry is a placeholder or leads to the entry for its new name. Then
the chains are followed, and what the entries lead to becomes the end of the chain, or nothing
if there is a cycle. From then on a key stands for the end of its chain, whatever is added.
-/

namespace Tendra.Ref.Tld.Heap

open Chase Queue Relation

/-! ## The table -/

/-- The key of an entry. -/
def keyOf (s : State) (p : Ptr) : Option NameKey := (s.mem.get p).map NameEntry.key

/-- The entries are in the chains of their keys, and a key has one entry. -/
structure Table (hash : NameKey → Nat) (t : NameTable) (keys : Ptr → Option NameKey) : Prop where
  listed : ∀ b p, p ∈ t b → ∃ k, keys p = some k ∧ bucket hash k = b
  mem : ∀ p k, keys p = some k → p ∈ t (bucket hash k)
  unique : ∀ p q k, keys p = some k → keys q = some k → p = q

section

variable {hash : NameKey → Nat} {t : NameTable} {s s' : State} {k : NameKey} {p : Ptr}
  {e : NameEntry}

theorem keyOf_eq (h : s.mem.get p = some e) : keyOf s p = some e.key := by rw [keyOf, h]; rfl

theorem exists_of_keyOf (h : keyOf s p = some k) : ∃ e, s.mem.get p = some e ∧ e.key = k :=
  Option.map_eq_some_iff.1 h

theorem Table.init (hash : NameKey → Nat) : Table hash .create (keyOf .init) where
  listed b p h := absurd h List.not_mem_nil
  mem p k h := by
    rw [keyOf, show State.init.mem.get p = none from List.getElem?_nil] at h
    cases h
  unique p q k h := by
    rw [keyOf, show State.init.mem.get p = none from List.getElem?_nil] at h
    cases h

/-- The entry of a key is found. -/
theorem Table.find_eq (h : Table hash t (keyOf s)) (hp : keyOf s p = some k) :
    find s k (t (bucket hash k)) = some p := by
  have hkey : ∀ q, ((s.mem.get q).any fun e => e.key = k) = true ↔ keyOf s q = some k := by
    intro q
    rw [keyOf, Option.map_eq_some_iff, Option.any_eq_true]
    simp only [decide_eq_true_eq]
  cases hfind : find s k (t (bucket hash k)) with
  | none =>
      have hnot := List.find?_eq_none.1 hfind p (h.mem p k hp)
      exact absurd ((hkey p).2 hp) hnot
  | some q =>
      have hq := List.find?_some (show List.find? (fun p => (s.mem.get p).any fun e => e.key = k)
        (t (bucket hash k)) = some q from hfind)
      rw [h.unique p q k hp ((hkey q).1 hq)]

theorem find_eq_none (hk : ∀ p, keyOf s p ≠ some k) (chain : List Ptr) :
    find s k chain = none := by
  rw [find, List.find?_eq_none]
  intro q _ hq
  obtain ⟨e, he, hkey⟩ := (Option.any_eq_true _ _).1 hq
  rw [decide_eq_true_eq] at hkey
  exact hk q (hkey ▸ keyOf_eq he)

theorem keyOf_alloc (s : State) (e : NameEntry) (p : Ptr) :
    keyOf (s.alloc e).2 p = if p = s.mem.cells.length then some e.key else keyOf s p := by
  rw [keyOf, show (s.alloc e).2.mem = (s.mem.alloc e).2 from rfl, get_alloc]
  split <;> rfl

theorem keyOf_length (s : State) : keyOf s s.mem.cells.length = none := by
  rw [keyOf, Memory.get, List.getElem?_eq_none (Nat.le_refl _)]
  rfl

/-- A new entry for a key that has none. -/
theorem Table.alloc (h : Table hash t (keyOf s)) (hk : ∀ p, keyOf s p ≠ some e.key)
    {keys : Ptr → Option NameKey}
    (hkeys : ∀ p, keys p = if p = s.mem.cells.length then some e.key else keyOf s p) :
    Table hash (t.append hash e.key s.mem.cells.length) keys := by
  have hold : ∀ p k, keyOf s p = some k → keys p = some k := by
    intro p k hp
    rw [hkeys, if_neg, hp]
    rintro rfl
    rw [keyOf_length] at hp
    cases hp
  have hcases : ∀ p k, keys p = some k → p = s.mem.cells.length ∧ k = e.key ∨
      keyOf s p = some k := by
    intro p k hp
    rw [hkeys] at hp
    split at hp
    · exact .inl ⟨‹_›, (Option.some.inj hp).symm⟩
    · exact .inr hp
  have happend : ∀ b, t.append hash e.key s.mem.cells.length b =
      if b = bucket hash e.key then t (bucket hash e.key) ++ [s.mem.cells.length] else t b :=
    fun b => Function.update_apply _ _ _ _
  refine ⟨fun b p hp => ?_, fun p k hp => ?_, fun p q k hp hq => ?_⟩
  · rw [happend] at hp
    split at hp
    · subst b
      rcases List.mem_append.1 hp with hp | hp
      · obtain ⟨k, hk, hb⟩ := h.listed _ p hp
        exact ⟨k, hold p k hk, hb⟩
      · rw [List.mem_singleton.1 hp, hkeys, if_pos rfl]
        exact ⟨_, rfl, rfl⟩
    · obtain ⟨k, hk, hb⟩ := h.listed b p hp
      exact ⟨k, hold p k hk, hb⟩
  · rw [happend]
    rcases hcases p k hp with ⟨rfl, rfl⟩ | hp
    · rw [if_pos rfl]
      exact List.mem_append_right _ (List.mem_singleton_self _)
    · split
      · rename_i hb
        exact List.mem_append_left _ (hb ▸ h.mem p k hp)
      · exact h.mem p k hp
  · rcases hcases p k hp with ⟨rfl, rfl⟩ | hp
    · rcases hcases q _ hq with ⟨rfl, -⟩ | hq
      · rfl
      · exact absurd hq (hk q)
    · rcases hcases q k hq with ⟨rfl, rfl⟩ | hq
      · exact absurd hp (hk p)
      · exact h.unique p q k hp hq

end

/-! ## Pairs are added -/

/-- What a key is renamed to. -/
def renames (pairs : List (NameKey × NameKey)) (k : NameKey) : Option NameKey := pairs.lookup k

/-- An entry is a placeholder, or leads to the entry for the new name of its key. -/
def Leads (pairs : List (NameKey × NameKey)) (s : State) (e : NameEntry) : Prop :=
  e.type = .placeholder ∧ renames pairs e.key = none ∨
  e.type = .indirect ∧ ∃ q k', e.indirect = some q ∧ keyOf s q = some k' ∧
    renames pairs e.key = some k'

/-- The state after pairs have been added. -/
structure Renamed (hash : NameKey → Nat) (pairs : List (NameKey × NameKey)) (t : NameTable)
    (s : State) : Prop where
  table : Table hash t (keyOf s)
  lists : ∃ q, Inv s [] q
  entry : ∀ p e, s.mem.get p = some e → Leads pairs s e
  known : ∀ pair ∈ pairs, ∃ p, keyOf s p = some pair.1

section

variable {hash : NameKey → Nat} {t : NameTable} {s s' : State} {k k' : NameKey} {p : Ptr}
  {e : NameEntry} {pairs : List (NameKey × NameKey)}

theorem Renamed.init (hash : NameKey → Nat) : Renamed hash [] .create .init where
  table := Table.init hash
  lists := ⟨_, Inv.init⟩
  entry p e h := by
    rw [show State.init.mem.get p = none from List.getElem?_nil] at h
    cases h
  known _ h := absurd h List.not_mem_nil

theorem renames_append_of_ne (h : k ≠ k') (to' : NameKey) :
    renames (pairs ++ [(k', to')]) k = renames pairs k := by
  rw [renames, List.lookup_append, List.lookup_cons, beq_false_of_ne h, List.lookup_nil,
    Option.or_none]
  rfl

theorem renames_append_self (h : renames pairs k = none) (to' : NameKey) :
    renames (pairs ++ [(k, to')]) k = some to' := by
  rw [renames, List.lookup_append, show pairs.lookup k = none from h, List.lookup_cons,
    beq_self_eq_true, Option.none_or]

theorem renames_eq_none (h : ∀ pair ∈ pairs, pair.1 ≠ k) : renames pairs k = none :=
  List.lookup_eq_none_iff.2 fun pair hp => by
    rw [bne_iff_ne]
    exact (h pair hp).symm

theorem Leads.mono (h : Leads pairs s e) (hkeys : ∀ p k, keyOf s p = some k → keyOf s' p = some k) :
    Leads pairs s' e := by
  refine h.imp id ?_
  rintro ⟨htype, q, k', hq, hk', hren⟩
  exact ⟨htype, q, k', hq, hkeys q k' hk', hren⟩

theorem Leads.cons (h : Leads pairs s e) (hne : e.key ≠ k) (to' : NameKey) :
    Leads (pairs ++ [(k, to')]) s e := by
  rw [Leads, renames_append_of_ne hne]
  exact h

theorem keyOf_alloc_of (h : keyOf s p = some k) (e : NameEntry) :
    keyOf (s.alloc e).2 p = some k := by
  rw [keyOf_alloc, if_neg, h]
  rintro rfl
  rw [keyOf_length] at h
  cases h

theorem get_alloc_cases {e e' : NameEntry} (h : (s.alloc e).2.mem.get p = some e') :
    p = s.mem.cells.length ∧ e' = e ∨ s.mem.get p = some e' := by
  rw [show (s.alloc e).2.mem = (s.mem.alloc e).2 from rfl, get_alloc] at h
  split at h
  · exact .inl ⟨‹_›, (Option.some.inj h).symm⟩
  · exact .inr h

/-- The entry for a new name. -/
theorem Renamed.toEntry (h : Renamed hash pairs t s) (k : NameKey) :
    Renamed hash pairs (toEntry hash k t s).2.1 (toEntry hash k t s).2.2 ∧
      keyOf (toEntry hash k t s).2.2 (toEntry hash k t s).1 = some k := by
  by_cases hk : ∃ p, keyOf s p = some k
  · obtain ⟨p, hp⟩ := hk
    rw [Heap.toEntry, h.table.find_eq hp]
    exact ⟨h, hp⟩
  · have hnone : ∀ p, keyOf s p ≠ some k := fun p hp => hk ⟨p, hp⟩
    rw [Heap.toEntry, find_eq_none hnone]
    show Renamed hash pairs (t.append hash k s.mem.cells.length)
      (s.alloc (.create k .placeholder)).2 ∧ _
    obtain ⟨q, hinv⟩ := h.lists
    refine ⟨⟨h.table.alloc (e := .create k .placeholder) hnone (keyOf_alloc s _),
      ⟨q, hinv.alloc rfl⟩, fun p e hp => ?_, fun pair hpair => ?_⟩, ?_⟩
    · rcases get_alloc_cases hp with ⟨-, rfl⟩ | hp
      · refine .inl ⟨rfl, renames_eq_none fun pair hpair heq => ?_⟩
        obtain ⟨r, hr⟩ := h.known pair hpair
        exact hnone r (hr.trans (congrArg some heq))
      · exact (h.entry p e hp).mono fun r k' hr => keyOf_alloc_of hr _
    · obtain ⟨r, hr⟩ := h.known pair hpair
      exact ⟨r, keyOf_alloc_of hr _⟩
    · exact (keyOf_alloc s _ _).trans (if_pos rfl)

/-- An entry is changed, but not its key. -/
theorem keyOf_set (he : s.mem.get p = some e) {e' : NameEntry} (hkey : e'.key = e.key) (r : Ptr) :
    keyOf { s with mem := s.mem.set p e' } r = keyOf s r := by
  rw [keyOf, get_set s.mem he]
  split
  · subst r
    rw [keyOf_eq he, ← hkey]
    rfl
  · rfl

theorem makeIndirect_eq (he : s.mem.get p = some e) (htype : e.type = .placeholder) (q : Ptr) :
    nameEntryMakeIndirect p q s = some { s with
      mem := s.mem.set p { e with type := .indirect, indirect := some q } } := by
  rw [nameEntryMakeIndirect, he]
  show (if e.type = .placeholder then _ else none) = _
  rw [if_pos htype, modify_eq he]

/-- A pair is added. The entry for the old name is a placeholder, if there is one. -/
theorem Renamed.addRename (h : Renamed hash pairs t s) (hfrom : renames pairs k = none)
    (k' : NameKey) :
    ∃ t' s', nameTableAddRename hash k k' t s = some (t', s') ∧
      Renamed hash (pairs ++ [(k, k')]) t' s' := by
  rw [nameTableAddRename]
  obtain ⟨h₁, hp⟩ := h.toEntry k'
  generalize Heap.toEntry hash k' t s = res at h₁ hp
  obtain ⟨p, t₁, s₁⟩ := res
  dsimp only at h₁ hp ⊢
  have hknown : ∀ s' : State, (∀ p k, keyOf s₁ p = some k → keyOf s' p = some k) →
      (∃ p, keyOf s' p = some k) → ∀ pair ∈ pairs ++ [(k, k')], ∃ p, keyOf s' p = some pair.1 := by
    intro s' hkeys hk pair hpair
    rcases List.mem_append.1 hpair with hpair | hpair
    · obtain ⟨r, hr⟩ := h₁.known pair hpair
      exact ⟨r, hkeys r _ hr⟩
    · rwa [List.mem_singleton.1 hpair]
  obtain ⟨q, hinv⟩ := h₁.lists
  by_cases hk : ∃ p, keyOf s₁ p = some k
  · obtain ⟨r, hr⟩ := hk
    obtain ⟨e, he, hkey⟩ := exists_of_keyOf hr
    have htype : e.type = .placeholder := by
      rcases h₁.entry r e he with ⟨htype, -⟩ | ⟨-, q', k'', -, -, hren⟩
      · exact htype
      · rw [hkey, hfrom] at hren
        cases hren
    have hkeys : ∀ x, keyOf { s₁ with
        mem := s₁.mem.set r { e with type := .indirect, indirect := some p } } x = keyOf s₁ x :=
      keyOf_set he rfl
    rw [h₁.table.find_eq hr]
    dsimp only
    rw [makeIndirect_eq he htype, Option.map_some]
    refine ⟨_, _, rfl, ⟨?_, ⟨q, hinv.modify he htype rfl⟩, fun x e' hx => ?_, ?_⟩⟩
    · rw [funext hkeys]
      exact h₁.table
    · rw [get_set s₁.mem he] at hx
      split at hx
      · obtain rfl := Option.some.inj hx
        refine .inr ⟨rfl, p, k', rfl, (hkeys p).trans hp, ?_⟩
        exact hkey.symm ▸ renames_append_self hfrom k'
      · rename_i hxr
        have hne : e'.key ≠ k := fun heq => hxr (h₁.table.unique x r k (heq ▸ keyOf_eq hx) hr)
        exact ((h₁.entry x e' hx).mono fun y k'' hy => (hkeys y).trans hy).cons hne k'
    · exact hknown _ (fun y k'' hy => (hkeys y).trans hy) ⟨r, (hkeys r).trans hr⟩
  · have hnone : ∀ p, keyOf s₁ p ≠ some k := fun p hp => hk ⟨p, hp⟩
    rw [find_eq_none hnone]
    dsimp only
    have hnew := keyOf_alloc s₁ { NameEntry.create k .indirect with indirect := some p }
    refine ⟨_, _, rfl, ⟨h₁.table.alloc
      (e := { NameEntry.create k .indirect with indirect := some p }) hnone hnew,
      ⟨q, hinv.alloc rfl⟩, fun x e' hx => ?_, ?_⟩⟩
    · rcases get_alloc_cases hx with ⟨-, rfl⟩ | hx
      · exact .inr ⟨rfl, p, k', rfl, keyOf_alloc_of hp _, renames_append_self hfrom k'⟩
      · have hne : e'.key ≠ k := fun heq => hnone x (heq ▸ keyOf_eq hx)
        exact ((h₁.entry x e' hx).mono fun y k'' hy => keyOf_alloc_of hy _).cons hne k'
    · exact hknown _ (fun y k'' hy => keyOf_alloc_of hy _) ⟨_, (hnew _).trans (if_pos rfl)⟩

theorem Renamed.addRenames : ∀ (more pairs : List (NameKey × NameKey)) {t s},
    Renamed hash pairs t s → ((pairs ++ more).map Prod.fst).Nodup →
    ∃ t' s', addRenames hash more t s = some (t', s') ∧ Renamed hash (pairs ++ more) t' s' := by
  intro more
  induction more with
  | nil =>
      intro pairs t s h _
      exact ⟨t, s, rfl, (List.append_nil pairs).symm ▸ h⟩
  | cons pair more ih =>
      intro pairs t s h hnodup
      obtain ⟨k, k'⟩ := pair
      have hfrom : renames pairs k = none := by
        refine renames_eq_none fun pair hpair heq => ?_
        rw [List.map_append, List.map_cons] at hnodup
        exact (List.nodup_append.1 hnodup).2.2 _ (List.mem_map_of_mem hpair) k List.mem_cons_self
          heq
      obtain ⟨t₁, s₁, hadd, h₁⟩ := h.addRename hfrom k'
      rw [List.append_cons] at hnodup ⊢
      obtain ⟨t', s', hrest, h'⟩ := ih (pairs ++ [(k, k')]) h₁ hnodup
      refine ⟨t', s', ?_, h'⟩
      rw [Heap.addRenames, hadd]
      exact hrest

end

end Tendra.Ref.Tld.Heap
