import Tendra.Proofs.Tld.Resolved

/-!
# What the name table gives for a key

When renamings are resolved an entry is a placeholder, or it was indirect and has the end of its
chain. Names that are added make placeholders direct, or new entries, and so the entry for a key
is that for the end of its chain, as soon as a name with this end has been added.
-/

namespace Tendra.Ref.Tld.Heap

open Chase Queue Relation

/-! ## What adding to a list leaves -/

/-- What an entry is, apart from its use and its link. -/
def core (e : NameEntry) : NameKey × NameEntryType × Option Ptr := (e.key, e.type, e.indirect)

def coreOf (s : State) (p : Ptr) : Option (NameKey × NameEntryType × Option Ptr) :=
  (s.mem.get p).map core

section

variable {hash : NameKey → Nat} {t t' : NameTable} {s s' : State} {k z : NameKey} {p q : Ptr}
  {e : NameEntry} {sh : Shape}

theorem keyOf_core (s : State) (p : Ptr) : keyOf s p = (coreOf s p).map Prod.fst := by
  rw [coreOf, Option.map_map]
  rfl

theorem coreOf_eq (h : s.mem.get p = some e) : coreOf s p = some (core e) := by
  rw [coreOf, h, Option.map_some]

theorem exists_of_coreOf {type : NameEntryType} {ind : Option Ptr}
    (h : coreOf s p = some (k, type, ind)) :
    ∃ e, s.mem.get p = some e ∧ e.key = k ∧ e.type = type ∧ e.indirect = ind := by
  obtain ⟨e, he, hcore⟩ := Option.map_eq_some_iff.1 h
  obtain ⟨hk, hrest⟩ := Prod.mk.inj hcore
  obtain ⟨htype, hind⟩ := Prod.mk.inj hrest
  exact ⟨e, he, hk, htype, hind⟩

theorem coreOf_modify {f : NameEntry → NameEntry} (hmod : s.modify q f = some s')
    (hf : ∀ e, core (f e) = core e) (p : Ptr) : coreOf s' p = coreOf s p := by
  obtain ⟨e, he, rfl⟩ := Option.map_eq_some_iff.1 hmod
  rw [coreOf, get_set s.mem he]
  split
  · subst p
    rw [coreOf_eq he, Option.map_some, hf]
  · rfl

theorem coreOf_assign {link : Link} {v : Option Ptr} (hassign : assign sh link v s = some s')
    (p : Ptr) : coreOf s' p = coreOf s p := by
  cases link with
  | head =>
      obtain rfl := Option.some.inj hassign
      rfl
  | listNext q => exact coreOf_modify hassign (fun _ => rfl) p

theorem coreOf_addToList (hadd : shapeEntryAddToList sh q s = some s') (p : Ptr) :
    coreOf s' p = coreOf s p := by
  obtain ⟨s₁, hassign, hrest⟩ := Option.bind_eq_some_iff.1 hadd
  obtain ⟨tail, -, heq⟩ := Option.bind_eq_some_iff.1 hrest
  obtain rfl := Option.some.inj heq
  exact coreOf_assign hassign p

theorem coreOf_nextId {id : Nat} (hid : shapeEntryNextId sh s = some (id, s')) :
    s'.mem = s.mem := by
  rw [shapeEntryNextId] at hid
  split at hid
  · cases hid
  · obtain ⟨-, rfl⟩ := Prod.mk.inj (Option.some.inj hid)
    rfl

/-- `name_entry_create_direct`. -/
theorem coreOf_createDirect (h : nameEntryCreateDirect k sh s = some (q, s')) :
    q = s.mem.cells.length ∧
      ∀ p, coreOf s' p = if p = q then some (k, .direct, none) else coreOf s p := by
  obtain ⟨⟨id, s₁⟩, hid, hrest⟩ := Option.bind_eq_some_iff.1 h
  obtain ⟨s₂, hadd, heq⟩ := Option.bind_eq_some_iff.1 hrest
  obtain ⟨rfl, rfl⟩ := Prod.mk.inj (Option.some.inj heq)
  have hmem := coreOf_nextId hid
  refine ⟨congrArg (fun m => m.cells.length) hmem, fun p => ?_⟩
  rw [coreOf_addToList hadd, coreOf]
  show Option.map core ((s₁.mem.alloc ((NameEntry.create k .direct).toDirect id)).2.get p) = _
  rw [get_alloc]
  split
  · rfl
  · rw [coreOf, hmem]

/-- `name_entry_make_direct`. -/
theorem coreOf_makeDirect (he : s.mem.get q = some e)
    (h : nameEntryMakeDirect q sh s = some s') (p : Ptr) :
    coreOf s' p = if p = q then some (e.key, .direct, e.indirect) else coreOf s p := by
  obtain ⟨e', he', hrest⟩ := Option.bind_eq_some_iff.1 h
  obtain rfl := Option.some.inj (he.symm.trans he')
  split at hrest
  · obtain ⟨⟨id, s₁⟩, hid, hrest⟩ := Option.bind_eq_some_iff.1 hrest
    obtain ⟨s₂, hmod, hadd⟩ := Option.bind_eq_some_iff.1 hrest
    have hmem := coreOf_nextId hid
    have he₁ : s₁.mem.get q = some e := hmem ▸ he
    rw [modify_eq he₁] at hmod
    obtain rfl := Option.some.inj hmod
    rw [coreOf_addToList hadd, coreOf, get_set s₁.mem he₁]
    split
    · rfl
    · rw [coreOf, hmem]
  · cases hrest

end

/-! ## The table after renamings are resolved -/

/-- What an entry is when renamings are resolved and names have been added. -/
def Settled (pairs : List (NameKey × NameKey)) (keys : List NameKey) (s : State) (k : NameKey)
    (type : NameEntryType) (ind : Option Ptr) : Prop :=
  type = .indirectDone ∧ renames pairs k ≠ none ∧
    (∃ q z, ind = some q ∧ keyOf s q = some z ∧ Ends (renames pairs) k z) ∨
  type = .placeholder ∧ renames pairs k = none ∧ (∀ k' ∈ keys, ¬Ends (renames pairs) k' k) ∨
  type = .direct ∧ renames pairs k = none ∧ ∃ k' ∈ keys, Ends (renames pairs) k' k

/-- The state when renamings are resolved and names have been added. -/
structure Final (hash : NameKey → Nat) (pairs : List (NameKey × NameKey)) (keys : List NameKey)
    (t : NameTable) (s : State) : Prop where
  table : Table hash t (keyOf s)
  lists : ∃ events q, Inv s events q
  entry : ∀ p k type ind, coreOf s p = some (k, type, ind) → Settled pairs keys s k type ind
  known : ∀ k, renames pairs k ≠ none → ∃ p, keyOf s p = some k
  added : ∀ k ∈ keys, ∀ z, Ends (renames pairs) k z → ∃ p, keyOf s p = some z

section

variable {hash : NameKey → Nat} {t t' : NameTable} {pairs : List (NameKey × NameKey)}
  {keys : List NameKey} {s s' : State} {k z : NameKey} {p q : Ptr} {e : NameEntry} {sh : Shape}

/-- The entry that stands for a key is that of the end of its chain. -/
theorem Final.target (h : Final hash pairs keys t s) (hp : keyOf s p = some k)
    (hz : Ends (renames pairs) k z) :
    ∃ q e, target p s = some (q, e) ∧ s.mem.get q = some e ∧ e.key = z ∧
      (e.type = .placeholder ∧ (∀ k' ∈ keys, ¬Ends (renames pairs) k' z) ∨
        e.type = .direct ∧ ∃ k' ∈ keys, Ends (renames pairs) k' z) := by
  obtain ⟨e, he, rfl⟩ := exists_of_keyOf hp
  have hdirect : e.isIndirect = false → renames pairs e.key = none →
      Heap.target p s = some (p, e) ∧ e.key = z := by
    intro hind hnone
    refine ⟨?_, ends_unique (ends_self hnone) hz⟩
    rw [Heap.target, he]
    show (if e.isIndirect then _ else some (p, e)) = _
    rw [hind, if_neg Bool.false_ne_true]
  rcases h.entry p e.key e.type e.indirect (coreOf_eq he) with
    ⟨htype, -, q, z', hq, hz', hends⟩ | ⟨htype, hnone, hnot⟩ | ⟨htype, hnone, hsome⟩
  · obtain rfl := ends_unique hz hends
    obtain ⟨e', he', rfl⟩ := exists_of_keyOf hz'
    refine ⟨q, e', ?_, he', rfl, ?_⟩
    · rw [Heap.target, he]
      show (if e.isIndirect then _ else some (p, e)) = _
      rw [NameEntry.isIndirect, htype, if_pos (by decide), hq]
      show (s.mem.get q).bind _ = _
      rw [he']
      rfl
    · rcases h.entry q e'.key e'.type e'.indirect (coreOf_eq he') with
        ⟨-, hne, -⟩ | ⟨htype, -, hnot⟩ | ⟨htype, -, hsome⟩
      · exact absurd hz.2 hne
      · exact .inl ⟨htype, hnot⟩
      · exact .inr ⟨htype, hsome⟩
  · obtain ⟨htarget, rfl⟩ := hdirect (by rw [NameEntry.isIndirect, htype]; decide) hnone
    exact ⟨p, e, htarget, he, rfl, .inl ⟨htype, hnot⟩⟩
  · obtain ⟨htarget, rfl⟩ := hdirect (by rw [NameEntry.isIndirect, htype]; decide) hnone
    exact ⟨p, e, htarget, he, rfl, .inr ⟨htype, hsome⟩⟩

/-- A key that has no entry is not renamed. -/
theorem Final.not_renamed (h : Final hash pairs keys t s) (hk : ∀ p, keyOf s p ≠ some k)
    (hz : Ends (renames pairs) k z) : renames pairs k = none ∧ k = z := by
  have hnone : renames pairs k = none := by
    by_contra hne
    obtain ⟨p, hp⟩ := h.known k hne
    exact hk p hp
  exact ⟨hnone, ends_unique (ends_self hnone) hz⟩

/-- `name_table_get`. -/
theorem Final.get (h : Final hash pairs keys t s) (hz : Ends (renames pairs) k z) :
    ∃ r, nameTableGet hash k t s = some r ∧
      (∀ p, r = some p → ∃ e, s.mem.get p = some e ∧ e.key = z ∧ e.type = .direct) ∧
      (r.isSome = true ↔ ∃ k' ∈ keys, Ends (renames pairs) k' z) := by
  by_cases hk : ∃ p, keyOf s p = some k
  · obtain ⟨p, hp⟩ := hk
    obtain ⟨q, e, htarget, he, hkey, htype⟩ := h.target hp hz
    rw [nameTableGet, h.table.find_eq hp]
    show ∃ r, (Heap.target p s).bind _ = some r ∧ _
    rw [htarget]
    show ∃ r, (if e.type = .placeholder then some none else some (some q)) = some r ∧ _
    rcases htype with ⟨htype, hnot⟩ | ⟨htype, hsome⟩
    · rw [if_pos htype]
      refine ⟨none, rfl, fun p hp => (by cases hp), ?_⟩
      exact iff_of_false Bool.false_ne_true fun ⟨k', hk', hends⟩ => hnot k' hk' hends
    · rw [if_neg (by rw [htype]; decide)]
      refine ⟨some q, rfl, fun p hp => ?_, iff_of_true rfl hsome⟩
      obtain rfl := Option.some.inj hp
      exact ⟨e, he, hkey, htype⟩
  · have hnone : ∀ p, keyOf s p ≠ some k := fun p hp => hk ⟨p, hp⟩
    obtain ⟨-, rfl⟩ := h.not_renamed hnone hz
    rw [nameTableGet, find_eq_none hnone]
    refine ⟨none, rfl, fun p hp => (by cases hp), iff_of_false Bool.false_ne_true ?_⟩
    rintro ⟨k', hk', hends⟩
    obtain ⟨p, hp⟩ := h.added k' hk' k hends
    exact hnone p hp

/-- The entry for the end of a chain is direct, and the others are as they were. -/
theorem Final.grow (h : Final hash pairs keys t s) (hz : Ends (renames pairs) k z)
    (htable : Table hash t' (keyOf s')) (hlists : ∃ events q, Inv s' events q) {ind : Option Ptr}
    (hcore : ∀ p, coreOf s' p = if p = q then some (z, .direct, ind) else coreOf s p)
    (hq : ∀ k', keyOf s q = some k' → k' = z) : Final hash pairs (keys ++ [k]) t' s' := by
  have hkey : ∀ p, keyOf s' p = if p = q then some z else keyOf s p := by
    intro p
    rw [keyOf_core, hcore, keyOf_core]
    split <;> rfl
  have hkept : ∀ p k', keyOf s p = some k' → keyOf s' p = some k' := by
    intro p k' hp
    rw [hkey]
    split
    · subst p
      rw [hq k' hp]
    · exact hp
  have hqz : keyOf s' q = some z := by rw [hkey, if_pos rfl]
  refine ⟨htable, hlists, fun p k' type ind' hp => ?_, fun k' hk' => ?_, fun k' hk' z' hz' => ?_⟩
  · rw [hcore] at hp
    split at hp
    · cases hp
      exact .inr (.inr ⟨rfl, hz.2, k, List.mem_append_right _ (List.mem_singleton_self k), hz⟩)
    · rename_i hpq
      have hp' : keyOf s' p = some k' := hkept p k' (by rw [keyOf_core, hp]; rfl)
      refine (h.entry p k' type ind' hp).imp (fun hind => ?_)
        (Or.imp (fun hplace => ?_) fun hdir => ?_)
      · obtain ⟨htype, hne, r, z', hr, hz', hends⟩ := hind
        exact ⟨htype, hne, r, z', hr, hkept r z' hz', hends⟩
      · obtain ⟨htype, hnone, hnot⟩ := hplace
        refine ⟨htype, hnone, fun k'' hk'' hends => ?_⟩
        rcases List.mem_append.1 hk'' with hk'' | hk''
        · exact hnot k'' hk'' hends
        · rw [List.mem_singleton.1 hk''] at hends
          exact hpq (htable.unique p q z (ends_unique hz hends ▸ hp') hqz)
      · obtain ⟨htype, hnone, k'', hk'', hends⟩ := hdir
        exact ⟨htype, hnone, k'', List.mem_append_left _ hk'', hends⟩
  · obtain ⟨p, hp⟩ := h.known k' hk'
    exact ⟨p, hkept p k' hp⟩
  · rcases List.mem_append.1 hk' with hk' | hk'
    · obtain ⟨p, hp⟩ := h.added k' hk' z' hz'
      exact ⟨p, hkept p z' hp⟩
    · rw [List.mem_singleton.1 hk'] at hz'
      exact ⟨q, ends_unique hz hz' ▸ hqz⟩

theorem lists_of_step {events : List (Event Shape Ptr)} {lists : Shape → List Ptr}
    (h : Inv s events lists) {a : Action} {added : List (Event Shape Ptr)}
    (hstep : step s a = some (s', added)) : ∃ events q, Inv s' events q := by
  obtain ⟨q, h'⟩ := h.step hstep
  exact ⟨_, q, h'⟩

/-- `name_table_add`. -/
theorem Final.add (h : Final hash pairs keys t s) (hz : Ends (renames pairs) k z)
    (hadd : nameTableAdd hash k sh t s = some (p, t', s')) :
    Final hash pairs (keys ++ [k]) t' s' ∧
      ∃ e, s'.mem.get p = some e ∧ e.key = z ∧ e.type = .direct := by
  obtain ⟨events, lists, hinv⟩ := h.lists
  rw [nameTableAdd] at hadd
  by_cases hk : ∃ r, keyOf s r = some k
  · obtain ⟨r, hr⟩ := hk
    obtain ⟨q, e, htarget, he, rfl, htype⟩ := h.target hr hz
    have hqk : ∀ k', keyOf s q = some k' → k' = e.key := fun k' hk' =>
      Option.some.inj (hk'.symm.trans (keyOf_eq he))
    rw [h.table.find_eq hr] at hadd
    obtain ⟨⟨q', e'⟩, htarget', hrest⟩ := Option.bind_eq_some_iff.1 hadd
    cases htarget.symm.trans htarget'
    dsimp only at hrest
    rcases htype with ⟨htype, -⟩ | ⟨htype, -⟩
    · rw [if_pos htype] at hrest
      obtain ⟨s₁, hmake, heq⟩ := Option.bind_eq_some_iff.1 hrest
      cases heq
      have hcore := coreOf_makeDirect he hmake
      refine ⟨h.grow hz ?_ (lists_of_step hinv (a := .makeDirect p sh)
        (by rw [step, hmake, Option.map_some])) hcore hqk, ?_⟩
      · have hkeys : keyOf s' = keyOf s := by
          funext x
          rw [keyOf_core, hcore]
          split
          · subst x
            exact (keyOf_eq he).symm
          · rw [keyOf_core]
        rw [hkeys]
        exact h.table
      · obtain ⟨e', he', hkey, htype', -⟩ := exists_of_coreOf ((hcore p).trans (if_pos rfl))
        exact ⟨e', he', hkey, htype'⟩
    · rw [if_neg (by rw [htype]; decide)] at hrest
      cases hrest
      have hcore : ∀ x, coreOf s x =
          if x = p then some (e.key, .direct, e.indirect) else coreOf s x := by
        intro x
        split
        · subst x
          rw [coreOf_eq he, core, htype]
        · rfl
      exact ⟨h.grow hz h.table h.lists hcore hqk, e, he, rfl, htype⟩
  · have hnone : ∀ r, keyOf s r ≠ some k := fun r hr => hk ⟨r, hr⟩
    obtain ⟨-, rfl⟩ := h.not_renamed hnone hz
    rw [find_eq_none hnone] at hadd
    obtain ⟨⟨q, s₁⟩, hcreate, heq⟩ := Option.bind_eq_some_iff.1 hadd
    cases heq
    obtain ⟨hq, hcore⟩ := coreOf_createDirect hcreate
    subst hq
    refine ⟨h.grow hz ?_ (lists_of_step hinv (a := .createDirect k sh)
      (by rw [step, hcreate, Option.map_some])) hcore fun k' hk' => ?_, ?_⟩
    · refine h.table.alloc (e := .create k .direct) hnone fun x => ?_
      rw [keyOf_core, hcore, keyOf_core]
      split <;> rfl
    · rw [keyOf_length] at hk'
      cases hk'
    · obtain ⟨e', he', hkey, htype', -⟩ := exists_of_coreOf ((hcore _).trans (if_pos rfl))
      exact ⟨e', he', hkey, htype'⟩

/-- It does not fail as long as there are identifiers. -/
theorem Final.add_isSome (h : Final hash pairs keys t s) (hz : Ends (renames pairs) k z)
    (hid : (s.shapes sh).idCount ≠ uintMax) :
    ∃ p t' s', nameTableAdd hash k sh t s = some (p, t', s') := by
  obtain ⟨events, lists, hinv⟩ := h.lists
  obtain ⟨id, s₁, hs₁⟩ := nextId_eq hid
  rw [nameTableAdd]
  by_cases hk : ∃ r, keyOf s r = some k
  · obtain ⟨r, hr⟩ := hk
    obtain ⟨q, e, htarget, he, -, htype⟩ := h.target hr hz
    rw [h.table.find_eq hr]
    show ∃ p t' s', (Heap.target r s).bind _ = some (p, t', s')
    rw [htarget]
    show ∃ p t' s', (if e.type = .placeholder then _ else some (q, t, s)) = some (p, t', s')
    rcases htype with ⟨htype, -⟩ | ⟨htype, -⟩
    · obtain ⟨s', hs', -⟩ := hinv.makeDirect he htype hs₁
      rw [if_pos htype]
      exact ⟨q, t, s', Option.bind_eq_some_iff.2 ⟨s', hs', rfl⟩⟩
    · rw [if_neg (by rw [htype]; decide)]
      exact ⟨q, t, s, rfl⟩
  · have hnone : ∀ r, keyOf s r ≠ some k := fun r hr => hk ⟨r, hr⟩
    obtain ⟨p, s', hs', -⟩ := hinv.createDirect k hs₁
    rw [find_eq_none hnone]
    exact ⟨p, _, s', Option.bind_eq_some_iff.2 ⟨_, hs', rfl⟩⟩

theorem Final.addAll (hends : ∀ k, ∃ z, Ends (renames pairs) k z) :
    ∀ (more keys : List NameKey) {t s t' s'}, Final hash pairs keys t s →
    addAll hash sh more t s = some (t', s') → Final hash pairs (keys ++ more) t' s' := by
  intro more
  induction more with
  | nil =>
      intro keys t s t' s' h hadd
      cases hadd
      exact (List.append_nil keys).symm ▸ h
  | cons k more ih =>
      intro keys t s t' s' h hadd
      obtain ⟨⟨p, t₁, s₁⟩, hone, hrest⟩ := Option.bind_eq_some_iff.1 hadd
      obtain ⟨z, hz⟩ := hends k
      rw [List.append_cons]
      exact ih (keys ++ [k]) (h.add hz hone).1 hrest

end

/-! ## Renamings are resolved -/

section

variable {hash : NameKey → Nat} {t : NameTable} {pairs : List (NameKey × NameKey)} {s₀ s : State}
  {σ : Ptr → Chase.Status Ptr}

theorem Inv.agrees {q : Shape → List Ptr} (h : Inv s₀ [] q) (hagrees : Agrees s₀ σ s) :
    Inv s [] q := by
  refine h.frame (fun sh => by rw [hagrees.shapes]; exact ⟨rfl, rfl⟩) (fun p hp => ?_)
    fun p e hp htype => ?_
  · obtain ⟨e, he, htype⟩ := hp
    rw [hagrees.get he, paint_of_ne (by rw [htype]; decide), he]
  · rw [hagrees.get_eq] at hp
    obtain ⟨e₀, he₀, rfl⟩ := Option.map_eq_some_iff.1 hp
    by_cases hind : e₀.type = .indirect
    · have hnone := h.clear p e₀ he₀ (by rw [hind]; decide)
      rw [paint_indirect hind]
      cases σ p <;> exact hnone
    · rw [paint_of_ne hind] at htype ⊢
      exact h.clear p e₀ he₀ htype

/-- What is found where there is no cycle. -/
theorem Renamed.final (h : Renamed hash pairs t s₀) (hagrees : Agrees s₀ σ s)
    (hknown : Known (leads s₀) σ)
    (hdone : ∀ p e, s₀.mem.get p = some e → leads s₀ p = none ∨ ∃ r, σ p = .done r)
    (hends : ∀ p e, s₀.mem.get p = some e → ∃ z, Ends (leads s₀) p z) :
    Final hash pairs [] t s := by
  have hkeys : keyOf s = keyOf s₀ := funext hagrees.keyOf_eq
  obtain ⟨q, hinv⟩ := h.lists
  refine ⟨hkeys ▸ h.table, ⟨[], q, hinv.agrees hagrees⟩, fun p k type ind hp => ?_, fun k hk => ?_,
    fun k hk => absurd hk List.not_mem_nil⟩
  · obtain ⟨e, he, rfl, rfl, rfl⟩ := exists_of_coreOf hp
    rw [hagrees.get_eq] at he
    obtain ⟨e₀, he₀, rfl⟩ := Option.map_eq_some_iff.1 he
    rw [paint_key]
    rcases h.leads_eq he₀ with ⟨htype, hnone⟩ | ⟨htype, q', e', hleads, -, -, hren⟩
    · refine .inr (.inl ⟨?_, (h.leads_none (keyOf_eq he₀)).1 hnone, fun k' hk' =>
        absurd hk' List.not_mem_nil⟩)
      rw [paint_of_ne (by rw [htype]; decide), htype]
    · obtain ⟨r, hr⟩ := (hdone p e₀ he₀).resolve_left (by rw [hleads]; exact Option.some_ne_none q')
      obtain ⟨z, hz⟩ := hends p e₀ he₀
      obtain rfl := ((hknown.right p r hr) z).2 hz
      obtain ⟨kz, hkz, hkends⟩ := h.ends_key (keyOf_eq he₀) hz
      rw [paint_indirect htype, hr]
      refine .inl ⟨rfl, by rw [hren]; exact Option.some_ne_none _, z, kz, rfl, ?_, hkends⟩
      rwa [hkeys]
  · rw [hkeys]
    obtain ⟨k', hk'⟩ := Option.ne_none_iff_exists'.1 hk
    obtain ⟨pair, hpair, hfst⟩ : ∃ pair ∈ pairs, pair.1 = k := by
      by_contra hnot
      exact hk (renames_eq_none fun pair hpair heq => hnot ⟨pair, hpair, heq⟩)
    exact hfst ▸ h.known pair hpair

theorem Table.mem_iter (h : Table hash t (keyOf s)) {p : Ptr} :
    p ∈ (List.range nameTableSize).flatMap t ↔ ∃ k, keyOf s p = some k := by
  rw [List.mem_flatMap]
  constructor
  · rintro ⟨b, -, hp⟩
    obtain ⟨k, hk, -⟩ := h.listed b p hp
    exact ⟨k, hk⟩
  · rintro ⟨k, hk⟩
    exact ⟨bucket hash k, List.mem_range.2 (Nat.mod_lt _ (by decide)), h.mem p k hk⟩

theorem reportsOf_mem {shape : NString} {ps : List Ptr} {r : Report} :
    r ∈ reportsOf s₀ shape true ps ↔ r.1 = shape ∧ ∃ p ∈ ps, keyOf s₀ p = some r.2 := by
  rw [reportsOf, if_pos rfl, List.mem_filterMap]
  constructor
  · rintro ⟨p, hp, hr⟩
    obtain ⟨k, hk, rfl⟩ := Option.map_eq_some_iff.1 hr
    exact ⟨rfl, p, hp, hk⟩
  · rintro ⟨rfl, p, hp, hk⟩
    exact ⟨p, hp, by rw [hk]; rfl⟩

end

/-- One error for each cycle, at a key that is on it. -/
structure EachCycle (pairs : List (NameKey × NameKey)) (shape : NString) (reports : List Report) :
    Prop where
  shape_eq : ∀ r ∈ reports, r.1 = shape
  cycle : ∀ r ∈ reports, OnCycle (renames pairs) r.2
  every : ∀ k, OnCycle (renames pairs) k → ∃ r ∈ reports, ReflTransGen (Step (renames pairs)) k r.2
  once : reports.Pairwise fun r r' => ¬ReflTransGen (Step (renames pairs)) r.2 r'.2

/-- A key stands for the end of its chain, whatever names are added: it has an entry as soon as
a name with this end was added, which is that of the end, and adding it gives that one. -/
def Stands (hash : NameKey → Nat) (pairs : List (NameKey × NameKey)) (t : NameTable) (s : State) :
    Prop :=
  ∀ sh keys t' s', addAll hash sh keys t s = some (t', s') →
    ∀ k, ∃ z, Ends (renames pairs) k z ∧
      (∃ r, nameTableGet hash k t' s' = some r ∧ nameTableGet hash z t' s' = some r ∧
        (∀ p, r = some p → ∃ e, s'.mem.get p = some e ∧ e.key = z ∧ e.type = .direct) ∧
        (r.isSome = true ↔ ∃ k' ∈ keys, Ends (renames pairs) k' z)) ∧
      ((s'.shapes sh).idCount ≠ uintMax → ∃ p t'' s'',
        nameTableAdd hash k sh t' s' = some (p, t'', s'') ∧
        (∃ e, s''.mem.get p = some e ∧ e.key = z ∧ e.type = .direct) ∧
        nameTableGet hash k t'' s'' = some (some p) ∧ nameTableGet hash z t'' s'' = some (some p))

section

variable {hash : NameKey → Nat} {t : NameTable} {pairs : List (NameKey × NameKey)} {s₀ s : State}
  {keys : List NameKey}

theorem Final.get_unique (h : Final hash pairs keys t s) {k z : NameKey}
    (hz : Ends (renames pairs) k z) {p : Ptr} (hp : keyOf s p = some z)
    (hadded : ∃ k' ∈ keys, Ends (renames pairs) k' z) : nameTableGet hash k t s =
    some (some p) := by
  obtain ⟨r, hr, hentry, hsome⟩ := h.get hz
  obtain ⟨q, rfl⟩ := Option.isSome_iff_exists.1 (hsome.2 hadded)
  obtain ⟨e, he, rfl, -⟩ := hentry q rfl
  rw [hr, h.table.unique q p _ (keyOf_eq he) hp]

theorem Final.stands (h : Final hash pairs [] t s) (hends : ∀ k, ∃ z, Ends (renames pairs) k z) :
    Stands hash pairs t s := by
  intro sh keys t' s' hadd k
  have h' := h.addAll hends keys [] hadd
  rw [List.nil_append] at h'
  obtain ⟨z, hz⟩ := hends k
  have hzz : Ends (renames pairs) z z := ends_self hz.2
  refine ⟨z, hz, ?_, fun hid => ?_⟩
  · obtain ⟨r, hr, hentry, hsome⟩ := h'.get hz
    refine ⟨r, hr, ?_, hentry, hsome⟩
    obtain ⟨r', hr', hentry', hsome'⟩ := h'.get hzz
    cases r with
    | none =>
        cases r' with
        | none => exact hr'
        | some p => exact absurd (hsome.2 (hsome'.1 rfl)) Bool.false_ne_true
    | some p =>
        obtain ⟨e, he, rfl, -⟩ := hentry p rfl
        exact h'.get_unique hzz (keyOf_eq he) (hsome.1 rfl)
  · obtain ⟨p, t'', s'', hone⟩ := h'.add_isSome hz hid
    obtain ⟨hfinal, e, he, rfl, htype⟩ := h'.add hz hone
    have hadded : ∃ k' ∈ keys ++ [k], Ends (renames pairs) k' e.key :=
      ⟨k, List.mem_append_right _ (List.mem_singleton_self k), hz⟩
    exact ⟨p, t'', s'', hone, ⟨e, he, rfl, htype⟩, hfinal.get_unique hz (keyOf_eq he) hadded,
      hfinal.get_unique hzz (keyOf_eq he) hadded⟩

theorem Renamed.eachCycle (h : Renamed hash pairs t s₀) {σ : Ptr → Chase.Status Ptr} {ps : List Ptr}
    (hnoticed : Noticed (leads s₀) σ ps)
    (hdone : ∀ p e, s₀.mem.get p = some e → leads s₀ p = none ∨ ∃ r, σ p = .done r)
    (shape : NString) : EachCycle pairs shape (reportsOf s₀ shape true ps) := by
  refine ⟨fun r hr => (reportsOf_mem.1 hr).1, fun r hr => ?_, fun k hk => ?_, ?_⟩
  · obtain ⟨-, p, hp, hkey⟩ := reportsOf_mem.1 hr
    exact (h.onCycle_iff hkey).1 (hnoticed.cycle p hp).1
  · obtain ⟨k', hk', -⟩ := hk.next
    obtain ⟨p, hp⟩ : ∃ p, keyOf s₀ p = some k := by
      obtain ⟨pair, hpair, hfst⟩ : ∃ pair ∈ pairs, pair.1 = k := by
        by_contra hnot
        rw [renames_eq_none fun pair hpair heq => hnot ⟨pair, hpair, heq⟩] at hk'
        cases hk'
      exact hfst ▸ h.known pair hpair
    obtain ⟨e, he, -⟩ := exists_of_keyOf hp
    have hcycle := (h.onCycle_iff hp).2 hk
    have hpassed : σ p ≠ .fresh := by
      obtain ⟨q, hq, -⟩ := hcycle.next
      obtain ⟨r, hr⟩ := (hdone p e he).resolve_left (by rw [hq]; exact Option.some_ne_none q)
      rw [hr]
      exact fun h => by cases h
    obtain ⟨c, hc, hreach⟩ := hnoticed.every p hcycle hpassed
    obtain ⟨kc, hkc, hreach⟩ := h.reach_key hreach hp
    exact ⟨(shape, kc), reportsOf_mem.2 ⟨rfl, c, hc, hkc⟩, hreach⟩
  · rw [reportsOf, if_pos rfl, List.pairwise_filterMap]
    refine hnoticed.once.imp fun {c d} hnot r hr r' hr' hreach => hnot ?_
    obtain ⟨kc, hkc, rfl⟩ := Option.map_eq_some_iff.1 hr
    obtain ⟨kd, hkd, rfl⟩ := Option.map_eq_some_iff.1 hr'
    obtain ⟨d', hd', hreach⟩ := h.key_reach hreach hkc
    exact h.table.unique d' d kd hd' hkd ▸ hreach

end

/-- A list that is made by `name_key_pair_list_add` has different old names. -/
theorem nameKeyPairListAdd_distinct {pairs : List (NameKey × NameKey)}
    (h : (pairs.map Prod.fst).Nodup) (fromKey toKey : NameKey) :
    ((nameKeyPairListAdd pairs fromKey toKey).2.map Prod.fst).Nodup := by
  rw [nameKeyPairListAdd]
  split
  · exact h
  · rename_i hany
    rw [List.map_cons, List.nodup_cons]
    refine ⟨fun hmem => hany ?_, h⟩
    obtain ⟨pair, hpair, heq⟩ := List.mem_map.1 hmem
    exact List.any_eq_true.2 ⟨pair, hpair, decide_eq_true heq⟩

/-- Of the options for a name the first one holds. -/
theorem options_spec (options : List (NameKey × NameKey)) :
    ∀ {pairs : List (NameKey × NameKey)}, (pairs.map Prod.fst).Nodup →
    ((options.foldl (fun pairs o => (nameKeyPairListAdd pairs o.1 o.2).2) pairs).map
      Prod.fst).Nodup ∧
    ∀ k, renames (options.foldl (fun pairs o => (nameKeyPairListAdd pairs o.1 o.2).2) pairs) k =
      (renames pairs k).or (renames options k) := by
  induction options with
  | nil => exact fun h => ⟨h, fun k => Option.or_none.symm⟩
  | cons o options ih =>
      intro pairs h
      obtain ⟨k', z⟩ := o
      obtain ⟨hnodup, hrenames⟩ := ih (nameKeyPairListAdd_distinct h k' z)
      refine ⟨hnodup, fun k => (hrenames k).trans ?_⟩
      have hany : (pairs.any fun pair => pair.1 = k') = (pairs.lookup k').isSome := by
        rw [Bool.eq_iff_iff, List.lookup_isSome_iff, List.any_eq_true]
        exact exists_congr fun p => and_congr_right fun _ => by
          rw [decide_eq_true_eq, beq_iff_eq, eq_comm]
      rw [nameKeyPairListAdd, hany]
      by_cases hk : k = k'
      · cases hl : pairs.lookup k' <;> simp [renames, hk, hl]
      · split <;> simp [renames, List.lookup_cons, beq_false_of_ne hk]

/-- The options of the command line for the names of a shape can all be added to the name table, and
the first one for each name holds there. -/
theorem options_added (hash : NameKey → Nat) (options : List (NameKey × NameKey)) :
    ∃ t s, addRenames hash
        (options.foldl (fun pairs o => (nameKeyPairListAdd pairs o.1 o.2).2) []) .create .init =
          some (t, s) ∧ Table hash t (keyOf s) ∧ (∀ o ∈ options, ∃ p, keyOf s p = some o.1) ∧
        ∀ p e, s.mem.get p = some e → Leads options s e := by
  obtain ⟨hdistinct, hrenames⟩ := @options_spec options [] List.nodup_nil
  obtain ⟨t, s, hadd, h⟩ := (Renamed.init hash).addRenames _ [] hdistinct
  simp only [renames, List.lookup_nil, Option.none_or] at hrenames
  refine ⟨t, s, hadd, h.table, fun o ho => ?_, fun p e he => ?_⟩
  · have hsome := List.lookup_isSome_iff.2 ⟨o, ho, beq_self_eq_true o.1⟩
    rw [← hrenames, List.lookup_isSome_iff] at hsome
    obtain ⟨pair, hpair, heq⟩ := hsome
    rw [eq_of_beq heq]
    exact h.known pair hpair
  · have hleads := h.entry p e he
    rwa [Leads, List.nil_append, renames, hrenames] at hleads

/-- Renamings with different old names, in any order: no assertion fails while they are added,
resolving them ends, with one error for each cycle, and without cycles every key stands for the
end of its chain from then on. -/
theorem renames_resolved (hash : NameKey → Nat) (pairs : List (NameKey × NameKey))
    (hdistinct : (pairs.map Prod.fst).Nodup) (shape : NString) (report : Bool) :
    ∃ t s, addRenames hash pairs .create .init = some (t, s) ∧
      ∀ fuel, s.mem.cells.length < fuel → ∃ reports s',
        nameTableResolveRenames t shape report fuel s = some (reports, s') ∧
        (report = false → reports = []) ∧
        (report = true → EachCycle pairs shape reports) ∧
        ((∀ k, ¬OnCycle (renames pairs) k) → Stands hash pairs t s') := by
  obtain ⟨t, s, hadd, h⟩ := (Renamed.init hash).addRenames pairs [] hdistinct
  rw [List.nil_append] at h
  refine ⟨t, s, hadd, fun fuel hfuel => ?_⟩
  have hS : ∀ p ∈ Finset.range s.mem.cells.length, ∀ q, leads s p = some q →
      q ∈ Finset.range s.mem.cells.length := fun p _ q hq => Finset.mem_range.2 (h.mem_cells hq)
  have hlisted : ∀ p ∈ (List.range nameTableSize).flatMap t, ∃ e, s.mem.get p = some e := by
    intro p hp
    obtain ⟨k, hk⟩ := h.table.mem_iter.1 hp
    obtain ⟨e, he, -⟩ := exists_of_keyOf hk
    exact ⟨e, he⟩
  obtain ⟨ps, σ, hchase, hnoticed, -, hpassed⟩ := chaseAll_spec hS
    (show (Finset.range s.mem.cells.length).card < fuel by rwa [Finset.card_range]) _ _ []
    (fun p hp => by
      obtain ⟨e, he⟩ := hlisted p hp
      exact Finset.mem_range.2 (List.getElem?_eq_some_iff.1 he).1) Noticed.init
  rw [List.nil_append] at hnoticed
  obtain ⟨s', hs', hagrees⟩ := h.resolve_entries shape report fuel _ hlisted (Agrees.refl s) hchase
  have hdone : ∀ p e, s.mem.get p = some e → leads s p = none ∨ ∃ r, σ p = .done r :=
    fun p e he => hpassed p (h.table.mem_iter.2 ⟨e.key, keyOf_eq he⟩)
  refine ⟨_, s', hs', fun hreport => ?_, fun hreport => ?_, fun hno => ?_⟩
  · rw [reportsOf, hreport, if_neg Bool.false_ne_true]
  · rw [hreport]
    exact h.eachCycle hnoticed hdone shape
  · have hends : ∀ p e, s.mem.get p = some e → ∃ z, Ends (leads s) p z := by
      intro p e he
      refine exists_ends hS (fun q hq hcycle => ?_)
        (Finset.mem_range.2 (List.getElem?_eq_some_iff.1 he).1)
      obtain ⟨e', he'⟩ : ∃ e', s.mem.get q = some e' :=
        ⟨_, List.getElem?_eq_getElem (Finset.mem_range.1 hq)⟩
      exact hno _ ((h.onCycle_iff (keyOf_eq he')).1 hcycle)
    refine (h.final hagrees hnoticed.known hdone hends).stands fun k => ?_
    by_cases hk : ∃ p, keyOf s p = some k
    · obtain ⟨p, hp⟩ := hk
      obtain ⟨e, he, -⟩ := exists_of_keyOf hp
      obtain ⟨z, hz⟩ := hends p e he
      obtain ⟨kz, -, hkz⟩ := h.ends_key hp hz
      exact ⟨kz, hkz⟩
    · refine ⟨k, ends_self (renames_eq_none fun pair hpair heq => hk ?_)⟩
      exact heq ▸ h.known pair hpair

/-- A name that is the new name of one and the old name of another. -/
theorem renames_resolved_two :
    ∃ t s, addRenames (fun _ => 0) [(.string [1], .string [2]), (.string [2], .string [3])]
      .create .init = some (t, s) ∧ ∃ reports s',
        nameTableResolveRenames t [] true 4 s = some (reports, s') ∧
        EachCycle [(.string [1], .string [2]), (.string [2], .string [3])] [] reports := by
  obtain ⟨t, s, hadd, h⟩ := renames_resolved (fun _ => 0)
    [(.string [1], .string [2]), (.string [2], .string [3])] (by decide) [] true
  obtain ⟨reports, s', hs', -, hcycles, -⟩ := h 4 (by cases hadd; decide)
  exact ⟨t, s, hadd, reports, s', hs', hcycles rfl⟩

end Tendra.Ref.Tld.Heap
