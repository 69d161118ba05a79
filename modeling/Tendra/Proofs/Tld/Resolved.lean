import Tendra.Proofs.Tld.Rename

/-!
# The ends of renamings

The types of the entries are what is known of them while chains are followed, so the entries
follow the chains as one does who is only told where an element leads. What is found is the end
of the chain of a key.
-/

namespace Tendra.Ref.Tld.Heap

open Chase Queue Relation

variable {k : NameKey} {q : Ptr}

/-! ## The chains are followed -/

/-- What an entry leads to. -/
def leads (s : State) (p : Ptr) : Option Ptr :=
  (s.mem.get p).bind fun e => if e.type = .indirect then e.indirect else none

/-- An entry, when so much is known of it. -/
@[grind =] def paint (st : Chase.Status Ptr) (e : NameEntry) : NameEntry :=
  if e.type = .indirect then
    match st with
    | .fresh => e
    | .cycling => { e with type := .indirectCycling }
    | .done r => { e with indirect := r, type := .indirectDone }
  else e

/-- The entries are those that there were, as far as they are known. -/
structure Agrees (s₀ : State) (σ : Ptr → Chase.Status Ptr) (s : State) : Prop where
  get_eq : ∀ p, s.mem.get p = (s₀.mem.get p).map (paint (σ p))
  shapes : s.shapes = s₀.shapes

/-- The errors for the entries at which a cycle is noticed. -/
def reportsOf (s₀ : State) (shape : NString) (report : Bool) (ps : List Ptr) : List Report :=
  if report then ps.filterMap fun p => (keyOf s₀ p).map fun k => (shape, k) else []

section

variable {hash : NameKey → Nat} {t : NameTable} {pairs : List (NameKey × NameKey)} {s₀ s : State}
  {σ : Ptr → Chase.Status Ptr} {p : Ptr} {e : NameEntry}

theorem paint_key (st : Chase.Status Ptr) (e : NameEntry) : (paint st e).key = e.key := by
  rw [paint.eq_def]
  split
  · cases st <;> rfl
  · rfl

theorem paint_indirect (h : e.type = .indirect) (st : Chase.Status Ptr) : paint st e =
    match st with
    | .fresh => e
    | .cycling => { e with type := .indirectCycling }
    | .done r => { e with indirect := r, type := .indirectDone } := by
  rw [paint.eq_def, if_pos h]

theorem paint_of_ne (h : e.type ≠ .indirect) (st : Chase.Status Ptr) : paint st e = e := if_neg h

theorem Agrees.refl (s₀ : State) : Agrees s₀ (fun _ => .fresh) s₀ where
  get_eq p := by
    cases s₀.mem.get p with
    | none => rfl
    | some e =>
        rw [Option.map_some, paint.eq_def]
        split <;> rfl
  shapes := rfl

theorem Agrees.get (h : Agrees s₀ σ s) (he : s₀.mem.get p = some e) :
    s.mem.get p = some (paint (σ p) e) := by
  rw [h.get_eq, he, Option.map_some]

theorem Agrees.keyOf_eq (h : Agrees s₀ σ s) (p : Ptr) : keyOf s p = keyOf s₀ p := by
  rw [keyOf, keyOf, h.get_eq, Option.map_map]
  congr 1
  exact funext fun e => paint_key (σ p) e

/-- More is known of an entry. -/
theorem Agrees.modify (h : Agrees s₀ σ s) (he : s₀.mem.get p = some e) (st : Chase.Status Ptr) :
    Agrees s₀ (Function.update σ p st) { s with mem := s.mem.set p (paint st e) } := by
  refine ⟨fun q => ?_, h.shapes⟩
  rw [get_set s.mem (h.get he)]
  by_cases hq : q = p
  · rw [if_pos hq, hq, Function.update_self, he, Option.map_some]
  · rw [if_neg hq, Function.update_of_ne hq, h.get_eq]

theorem reportsOf_append (shape : NString) (report : Bool) (ps qs : List Ptr) :
    reportsOf s₀ shape report (ps ++ qs) =
      reportsOf s₀ shape report ps ++ reportsOf s₀ shape report qs := by
  rw [reportsOf, reportsOf, reportsOf]
  split
  · exact List.filterMap_append
  · rfl

theorem Renamed.leads_eq (h : Renamed hash pairs t s₀) (he : s₀.mem.get p = some e) :
    e.type = .placeholder ∧ leads s₀ p = none ∨
    e.type = .indirect ∧ ∃ q e', leads s₀ p = some q ∧ e.indirect = some q ∧
      s₀.mem.get q = some e' ∧ renames pairs e.key = some e'.key := by
  rw [leads, he, Option.bind_some]
  rcases h.entry p e he with ⟨htype, -⟩ | ⟨htype, q, k', hq, hk', hren⟩
  · exact .inl ⟨htype, if_neg (by rw [htype]; decide)⟩
  · obtain ⟨e', he', hkey⟩ := exists_of_keyOf hk'
    exact .inr ⟨htype, q, e', (if_pos htype).trans hq, hq, he',
      hren.trans (congrArg some hkey.symm)⟩

variable {shape : NString} {report : Bool} {fuel : Nat}

theorem resolve_of_end (he : s.mem.get p = some e) (htype : e.type = .placeholder) :
    nameEntryResolveRenames shape report (fuel + 1) p s = some (some p, [], s) := by
  rw [nameEntryResolveRenames, he, Option.bind_eq_bind, Option.bind_some, htype]

theorem resolve_of_done (he : s.mem.get p = some e) (htype : e.type = .indirectDone) :
    nameEntryResolveRenames shape report (fuel + 1) p s = some (e.indirect, [], s) := by
  rw [nameEntryResolveRenames, he, Option.bind_eq_bind, Option.bind_some, htype]

theorem resolve_of_cycling (he : s.mem.get p = some e) (htype : e.type = .indirectCycling) :
    nameEntryResolveRenames shape report (fuel + 1) p s =
      some (none, if report then [(shape, e.key)] else [], s) := by
  rw [nameEntryResolveRenames, he, Option.bind_eq_bind, Option.bind_some, htype]

theorem resolve_of_indirect (he : s.mem.get p = some e) (htype : e.type = .indirect)
    (hq : e.indirect = some q) {r : Option Ptr} {reports : List Report} {s' : State}
    (hrest : nameEntryResolveRenames shape report fuel q
      { s with mem := s.mem.set p { e with type := .indirectCycling } } = some (r, reports, s'))
    {e' : NameEntry} (he' : s'.mem.get p = some e') :
    nameEntryResolveRenames shape report (fuel + 1) p s = some (r, reports, { s' with
      mem := s'.mem.set p { e' with indirect := r, type := .indirectDone } }) := by
  rw [nameEntryResolveRenames, he, Option.bind_eq_bind, Option.bind_some, htype]
  exact Option.bind_eq_some_iff.2 ⟨_, modify_eq he _, Option.bind_eq_some_iff.2 ⟨q, hq,
    Option.bind_eq_some_iff.2 ⟨_, hrest, Option.bind_eq_some_iff.2 ⟨_, modify_eq he' _, rfl⟩⟩⟩⟩

/-- An entry is resolved as its element is followed. -/
theorem Renamed.resolve_entry (h : Renamed hash pairs t s₀) (shape : NString) (report : Bool) :
    ∀ (fuel : Nat) {p e σ s r ps σ'}, s₀.mem.get p = some e → Agrees s₀ σ s →
    chase (leads s₀) fuel p σ = some (r, ps, σ') →
    ∃ s', nameEntryResolveRenames shape report fuel p s =
      some (r, reportsOf s₀ shape report ps, s') ∧ Agrees s₀ σ' s' := by
  intro fuel
  induction fuel with
  | zero =>
      intro p e σ s r ps σ' _ _ hchase
      cases hchase
  | succ fuel ih =>
      intro p e σ s r ps σ' he hagrees hchase
      have hget := hagrees.get he
      have hnil : reportsOf s₀ shape report [] = [] := by
        rw [reportsOf]
        split <;> rfl
      rw [chase] at hchase
      rcases h.leads_eq he with ⟨htype, hleads⟩ | ⟨htype, q, e', hleads, hq, he', -⟩
      · rw [hleads] at hchase
        cases hchase
        rw [paint_of_ne (by rw [htype]; decide)] at hget
        rw [hnil]
        exact ⟨s, resolve_of_end hget htype, hagrees⟩
      · rw [hleads] at hchase
        dsimp only at hchase
        rw [paint_indirect htype] at hget
        cases hσ : σ p with
        | done r' =>
            rw [hσ] at hchase hget
            cases hchase
            rw [hnil]
            exact ⟨s, resolve_of_done hget rfl, hagrees⟩
        | cycling =>
            rw [hσ] at hchase hget
            cases hchase
            refine ⟨s, (resolve_of_cycling hget rfl).trans ?_, hagrees⟩
            rw [reportsOf, List.filterMap_cons, keyOf_eq he]
            rfl
        | fresh =>
            rw [hσ] at hchase hget
            obtain ⟨⟨r', ps', σ₁⟩, hrest, heq⟩ := Option.map_eq_some_iff.1 hchase
            cases heq
            have hagrees' := hagrees.modify he .cycling
            rw [paint_indirect htype] at hagrees'
            obtain ⟨s', hs', hagrees'⟩ := ih he' hagrees' hrest
            have hdone := hagrees'.modify he (.done r')
            refine ⟨_, resolve_of_indirect hget htype hq hs' (hagrees'.get he), ?_⟩
            have hpaint : paint (.done r') e = { paint (σ₁ p) e with
                indirect := r', type := .indirectDone } := by
              rw [paint_indirect htype, paint_indirect htype]
              cases σ₁ p <;> rfl
            rwa [hpaint] at hdone

theorem Renamed.resolve_entries (h : Renamed hash pairs t s₀) (shape : NString) (report : Bool)
    (fuel : Nat) : ∀ (ps : List Ptr) {σ s reports σ'},
    (∀ p ∈ ps, ∃ e, s₀.mem.get p = some e) → Agrees s₀ σ s →
    chaseAll (leads s₀) fuel ps σ = some (reports, σ') →
    ∃ s', resolveEntries shape report fuel ps s =
      some (reportsOf s₀ shape report reports, s') ∧ Agrees s₀ σ' s' := by
  intro ps
  induction ps with
  | nil =>
      intro σ s reports σ' _ hagrees hchase
      cases hchase
      refine ⟨s, ?_, hagrees⟩
      rw [resolveEntries, reportsOf]
      split <;> rfl
  | cons p ps ih =>
      intro σ s reports σ' hps hagrees hchase
      obtain ⟨⟨r, new, σ₁⟩, hone, hmap⟩ := Option.bind_eq_some_iff.1 hchase
      obtain ⟨⟨new', σ₂⟩, hrest, heq⟩ := Option.map_eq_some_iff.1 hmap
      cases heq
      obtain ⟨e, he⟩ := hps p List.mem_cons_self
      obtain ⟨s₁, hs₁, hagrees₁⟩ := h.resolve_entry shape report fuel he hagrees hone
      obtain ⟨s', hs', hagrees'⟩ :=
          ih (fun q hq => hps q (List.mem_cons_of_mem p hq)) hagrees₁ hrest
      refine ⟨s', ?_, hagrees'⟩
      rw [resolveEntries, hs₁, Option.bind_eq_bind, Option.bind_some]
      dsimp only
      rw [hs', Option.bind_eq_bind, Option.bind_some, reportsOf_append]

/-! ## Entries and keys -/

section

variable (h : Renamed hash pairs t s₀)

include h

theorem Renamed.step_key (hp : keyOf s₀ p = some k) (hq : leads s₀ p = some q) :
    ∃ k', keyOf s₀ q = some k' ∧ renames pairs k = some k' := by
  obtain ⟨e, he, rfl⟩ := exists_of_keyOf hp
  rcases h.leads_eq he with ⟨-, hnone⟩ | ⟨-, q', e', hq', -, he', hren⟩
  · rw [hq] at hnone
    cases hnone
  · obtain rfl := Option.some.inj (hq.symm.trans hq')
    exact ⟨_, keyOf_eq he', hren⟩

theorem Renamed.key_step {k' : NameKey} (hp : keyOf s₀ p = some k)
    (hk : renames pairs k = some k') :
    ∃ q, leads s₀ p = some q ∧ keyOf s₀ q = some k' := by
  obtain ⟨e, he, rfl⟩ := exists_of_keyOf hp
  rcases h.entry p e he with ⟨-, hnone⟩ | ⟨htype, q, k'', hq, hk'', hren⟩
  · rw [hk] at hnone
    cases hnone
  · obtain rfl := Option.some.inj (hk.symm.trans hren)
    refine ⟨q, ?_, hk''⟩
    rw [leads, he, Option.bind_some, if_pos htype, hq]

theorem Renamed.leads_none (hp : keyOf s₀ p = some k) :
    leads s₀ p = none ↔ renames pairs k = none := by
  constructor
  · intro hnone
    cases hk : renames pairs k with
    | none => rfl
    | some k' =>
        obtain ⟨q, hq, -⟩ := h.key_step hp hk
        rw [hnone] at hq
        cases hq
  · intro hnone
    cases hq : leads s₀ p with
    | none => rfl
    | some q =>
        obtain ⟨k', -, hk'⟩ := h.step_key hp hq
        rw [hnone] at hk'
        cases hk'

theorem Renamed.reach_key (hreach : ReflTransGen (Step (leads s₀)) p q) (hp : keyOf s₀ p = some k) :
    ∃ k', keyOf s₀ q = some k' ∧ ReflTransGen (Step (renames pairs)) k k' := by
  induction hreach with
  | refl => exact ⟨k, hp, .refl⟩
  | tail _ hstep ih =>
      obtain ⟨k', hk', hreach⟩ := ih
      obtain ⟨k'', hk'', hren⟩ := h.step_key hk' hstep
      exact ⟨k'', hk'', hreach.tail hren⟩

theorem Renamed.key_reach {k' : NameKey} (hreach : ReflTransGen (Step (renames pairs)) k k')
    (hp : keyOf s₀ p = some k) :
    ∃ q, keyOf s₀ q = some k' ∧ ReflTransGen (Step (leads s₀)) p q := by
  induction hreach with
  | refl => exact ⟨p, hp, .refl⟩
  | tail _ hstep ih =>
      obtain ⟨q, hq, hreach⟩ := ih
      obtain ⟨q', hq', hk⟩ := h.key_step hq hstep
      exact ⟨q', hk, hreach.tail hq'⟩

theorem Renamed.onCycle_iff (hp : keyOf s₀ p = some k) :
    OnCycle (leads s₀) p ↔ OnCycle (renames pairs) k := by
  constructor
  · intro hcycle
    obtain ⟨q, hq, -, hback⟩ := hcycle.next
    obtain ⟨k', hk', hren⟩ := h.step_key hp hq
    obtain ⟨k'', hk'', hback⟩ := h.reach_key hback hk'
    obtain rfl := Option.some.inj (hp.symm.trans hk'')
    exact TransGen.head' hren hback
  · intro hcycle
    obtain ⟨k', hren, -, hback⟩ := hcycle.next
    obtain ⟨q, hq, hk'⟩ := h.key_step hp hren
    obtain ⟨r, hr, hback⟩ := h.key_reach hback hk'
    obtain rfl := h.table.unique r p k hr hp
    exact TransGen.head' hq hback

theorem Renamed.ends_key (hp : keyOf s₀ p = some k) (hends : Ends (leads s₀) p q) :
    ∃ z, keyOf s₀ q = some z ∧ Ends (renames pairs) k z := by
  obtain ⟨z, hz, hreach⟩ := h.reach_key hends.1 hp
  exact ⟨z, hz, hreach, (h.leads_none hz).1 hends.2⟩

theorem Renamed.mem_cells (hq : leads s₀ p = some q) : q < s₀.mem.cells.length := by
  cases he : s₀.mem.get p with
  | none =>
      rw [leads, he] at hq
      cases hq
  | some e =>
      rcases h.leads_eq he with ⟨-, hnone⟩ | ⟨-, q', e', hq', -, he', -⟩
      · rw [hq] at hnone
        cases hnone
      · obtain rfl := Option.some.inj (hq.symm.trans hq')
        exact (List.getElem?_eq_some_iff.1 he').1

end

end

end Tendra.Ref.Tld.Heap
