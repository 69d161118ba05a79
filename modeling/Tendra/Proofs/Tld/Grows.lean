import Mathlib.Data.List.Infix
import Mathlib.Data.List.Nodup
import Tendra.Lib.Wlp
import Tendra.Ref.Tld.Capsule

/-!
# What the tables keep while capsules are read

A direct entry stays one, with its identifier and with the bits of its usage, and an entry that
becomes direct is put on the list of its shape, from which nothing is taken. Each operation on an
entry is related to this once; the rest is the rules for programs.
-/

namespace Tendra.Ref.Tld

open Tendra.Prog

variable {s' s : ReadState}

theorem has_or_left {a b bit : Nat} (h : has a bit = true) : has (a ||| b) bit = true := by
  rw [has, decide_eq_true_iff] at h ⊢
  rw [Nat.and_or_distrib_right, ne_eq, Nat.or_eq_zero_iff]
  exact fun h' => h h'.1

namespace ShapeEntry

variable {e e' e'' : ShapeEntry} {key k : NameKey} {n : NameEntry}

theorem lookup_map_set {names : List (NameKey × NameEntry)} :
    (names.map fun p => if p.1 = key then (key, n) else p).lookup k =
      if k = key then (names.lookup k).map fun _ => n else names.lookup k := by
  induction names with
  | nil => simp
  | cons p names ih =>
      obtain ⟨k', n'⟩ := p
      rw [List.map_cons, List.lookup_cons, List.lookup_cons, ih]
      by_cases hk : k = key
      · subst hk
        by_cases hk' : k' = k
        · simp [hk']
        · have hne : (k == k') = false := beq_false_of_ne (Ne.symm hk')
          simp [hk', hne]
      · by_cases hk' : k' = key
        · have hne : (k == key) = false := beq_false_of_ne hk
          simp [hk', hk, hne]
        · simp [hk', hk]

theorem getEntry_setEntry :
    (e.setEntry key n).getEntry k = if k = key then (e.getEntry k).map fun _ =>
    n else e.getEntry k :=
  lookup_map_set

/-- What an entry of the shape table keeps. -/
structure Grows (e e' : ShapeEntry) : Prop where
  key : e'.key = e.key
  list : e.list <+: e'.list
  idCount : e.idCount ≤ e'.idCount
  kept {k : NameKey} {d : Direct} (h : e.getEntry k = some (.direct d)) :
    ∃ d', e'.getEntry k = some (.direct d') ∧ d'.id = d.id ∧ ∀ bit, has d.use bit → has d'.use bit
  added {k : NameKey} {d' : Direct} (h : e'.getEntry k = some (.direct d')) :
    (∃ d, e.getEntry k = some (.direct d)) ∨ k ∈ e'.list
  indirect (k target : NameKey) : e'.getEntry k = some (.indirect target) ↔
  e.getEntry k = some (.indirect target)

theorem Grows.refl (e : ShapeEntry) : e.Grows e where
  key := rfl
  list := List.prefix_refl _
  idCount := Nat.le_refl _
  kept {_ d} h := ⟨d, h, rfl, fun _ h => h⟩
  added {_ d} h := .inl ⟨d, h⟩
  indirect _ _ := Iff.rfl

theorem Grows.trans (h : e.Grows e') (h' : e'.Grows e'') : e.Grows e'' where
  key := h'.key.trans h.key
  list := h.list.trans h'.list
  idCount := Nat.le_trans h.idCount h'.idCount
  kept hd := by
    obtain ⟨d', hd', hid', huse'⟩ := h.kept hd
    obtain ⟨d'', hd'', hid'', huse''⟩ := h'.kept hd'
    exact ⟨d'', hd'', hid''.trans hid', fun bit hbit => huse'' bit (huse' bit hbit)⟩
  added hd := by
    obtain ⟨d', hd'⟩ | hlist := h'.added hd
    · exact (h.added hd').imp_right fun hmem => h'.list.subset hmem
    · exact .inr hlist
  indirect k target := (h'.indirect k target).trans (h.indirect k target)

theorem nextId_eq_some {r : Nat × ShapeEntry} (h : e.nextId = some r) :
    r = (e.idCount, { e with idCount := e.idCount + 1 }) ∧ e.idCount ≠ uintMax := by
  rw [nextId] at h
  split at h
  next => exact nomatch h
  next hne => exact ⟨(Option.some.inj h).symm, hne⟩

theorem nextId_grows {id : Nat} (h : e.nextId = some (id, e')) : e.Grows e' := by
  obtain ⟨heq, -⟩ := nextId_eq_some h
  obtain ⟨-, rfl⟩ := Prod.mk.inj heq
  exact { Grows.refl e with idCount := Nat.le_succ _ }

theorem createDirect_eq_some (h : e.createDirect key = some e') :
    e' = { e with
      names := e.names ++ [(key, .direct ⟨e.idCount, 0, none, none⟩)]
      idCount := e.idCount + 1
      list := e.list ++ [key] } := by
  rw [createDirect, Option.bind_eq_bind, Option.bind_eq_some_iff] at h
  obtain ⟨r, hr, h⟩ := h
  obtain ⟨rfl, -⟩ := nextId_eq_some hr
  exact (Option.some.inj h).symm

theorem makeDirect_eq_some (h : e.makeDirect key = some e') :
    e' = { e with
      names := (e.setEntry key (.direct ⟨e.idCount, 0, none, none⟩)).names
      idCount := e.idCount + 1
      list := e.list ++ [key] } := by
  rw [makeDirect, Option.bind_eq_bind, Option.bind_eq_some_iff] at h
  obtain ⟨r, hr, h⟩ := h
  obtain ⟨rfl, -⟩ := nextId_eq_some hr
  exact (Option.some.inj h).symm

/-- What `name_table_add` does: nothing to an entry that is direct, otherwise a new direct
entry with the next identifier. -/
theorem addResolved_cases (h : e.addResolved key = some e') :
    (e' = e ∧ ∃ d, e.getEntry key = some (.direct d)) ∨
    ((e.getEntry key = none ∨ e.getEntry key = some .place) ∧
      e'.key = e.key ∧ e'.list = e.list ++ [key] ∧ e'.idCount = e.idCount + 1 ∧
      ∀ k, e'.getEntry k =
        if k = key then some (.direct ⟨e.idCount, 0, none, none⟩) else e.getEntry k) := by
  rw [addResolved] at h
  split at h
  next hnone =>
    obtain rfl := createDirect_eq_some h
    refine .inr ⟨.inl hnone, rfl, rfl, rfl, fun k => ?_⟩
    rw [getEntry, List.lookup_append, ← getEntry]
    by_cases hk : k = key
    · subst hk
      simp [hnone]
    · have hne : (k == key) = false := beq_false_of_ne hk
      simp [hk, List.lookup_cons, hne]
  next hplace =>
    obtain rfl := makeDirect_eq_some h
    refine .inr ⟨.inr hplace, rfl, rfl, rfl, fun k => ?_⟩
    show (e.setEntry key (.direct ⟨e.idCount, 0, none, none⟩)).getEntry k = _
    rw [getEntry_setEntry]
    by_cases hk : k = key
    · subst hk
      simp [hplace]
    · simp [hk]
  next d hd => exact .inl ⟨(Option.some.inj h).symm, d, hd⟩
  next => exact nomatch h

theorem addResolved_grows (h : e.addResolved key = some e') : e.Grows e' := by
  obtain ⟨rfl, -⟩ | ⟨hold, hkey, hlist, hcount, hentry⟩ := addResolved_cases h
  · exact .refl _
  · have hnot : ∀ n, e.getEntry key = some n → n = .place := by
      intro n hn
      obtain hnone | hplace := hold
      · exact absurd hn (by simp [hnone])
      · exact Option.some.inj (hn.symm.trans hplace)
    constructor
    · exact hkey
    · exact hlist ▸ List.prefix_append _ _
    · omega
    · intro k d hd
      have hk : k ≠ key := by
        rintro rfl
        exact nomatch hnot _ hd
      exact ⟨d, by rw [hentry, if_neg hk, hd], rfl, fun _ h => h⟩
    · intro k d' hd'
      by_cases hk : k = key
      · exact .inr (hlist ▸ hk ▸ List.mem_append_right _ List.mem_cons_self)
      · rw [hentry, if_neg hk] at hd'
        exact .inl ⟨d', hd'⟩
    · intro k target
      rw [hentry]
      by_cases hk : k = key
      · rw [if_pos hk, hk]
        exact ⟨fun h' => absurd h' (by simp), fun h' => absurd (hnot _ h') (by simp)⟩
      · rw [if_neg hk]

theorem nameTableAdd_grows (h : e.nameTableAdd key = some (k, e')) : e.Grows e' := by
  rw [nameTableAdd] at h
  obtain ⟨e₁, he₁, heq⟩ := Option.map_eq_some_iff.1 h
  obtain ⟨-, rfl⟩ := Prod.mk.inj heq
  exact addResolved_grows he₁

theorem setDirect_grows {d d' : Direct} (hd : e.getEntry key = some (.direct d))
    (hid : d'.id = d.id)
    (huse : ∀ bit, has d.use bit → has d'.use bit) : e.Grows (e.setEntry key (.direct d')) where
  key := rfl
  list := List.prefix_refl _
  idCount := Nat.le_refl _
  kept {k d₁} h := by
    rw [getEntry_setEntry]
    by_cases hk : k = key
    · subst hk
      obtain rfl : d = d₁ := NameEntry.direct.inj (Option.some.inj (hd.symm.trans h))
      exact ⟨d', by rw [if_pos rfl, hd, Option.map_some], hid, huse⟩
    · exact ⟨d₁, by rw [if_neg hk, h], rfl, fun _ h => h⟩
  added {k d₁} h := by
    rw [getEntry_setEntry] at h
    by_cases hk : k = key
    · exact .inl ⟨d, hk ▸ hd⟩
    · exact .inl ⟨d₁, by rwa [if_neg hk] at h⟩
  indirect k target := by
    rw [getEntry_setEntry]
    by_cases hk : k = key
    · subst hk
      simp [hd]
    · rw [if_neg hk]

end ShapeEntry

namespace ShapeTable

variable {t : ShapeTable} {e : ShapeEntry} {s : NString}

theorem get_cons : get (e :: t) s = if e.key = s then some e else get t s := by
  rw [get, List.find?_cons]
  by_cases h : e.key = s
  · simp [h]
  · simp [h, get]

theorem get_key (h : t.get s = some e) : e.key = s := by
  have h' := List.find?_some h
  simpa using h'

theorem get_mem (h : t.get s = some e) : e ∈ t := List.mem_of_find?_eq_some h

theorem get_set : (t.set e).get s = if e.key = s then (t.get s).map fun _ => e else t.get s := by
  induction t with
  | nil => simp [set, get]
  | cons e' t ih =>
      have hset : set (e' :: t) e = (if e'.key = e.key then e else e') :: set t e := rfl
      rw [hset, get_cons, get_cons, ih]
      by_cases h : e.key = s
      · subst h
        by_cases h' : e'.key = e.key
        · simp [h']
        · simp [h']
      · by_cases h' : e'.key = e.key
        · have hne : e'.key ≠ s := fun hs => h (h'.symm.trans hs)
          simp [h', h]
        · simp [h', h]

theorem get_add (s' : NString) : (t.add s').get s =
    if s = s' ∧ t.get s' = none then some (.create s') else t.get s := by
  rw [add]
  cases h : t.get s' with
  | some e => simp
  | none =>
      rw [if_neg (by simp), get, List.find?_append, ← get]
      by_cases hs : s = s'
      · subst hs
        simp [h, ShapeEntry.create]
      · have hne : s' ≠ s := Ne.symm hs
        simp [hs, hne, ShapeEntry.create]

theorem map_key_set : (t.set e).map ShapeEntry.key = t.map ShapeEntry.key := by
  rw [set, List.map_map]
  refine List.map_congr_left fun e' _ => ?_
  by_cases h : e'.key = e.key
  · simp [h]
  · simp [h]

/-- No shape has two entries. -/
def Wf (t : ShapeTable) : Prop := (t.map ShapeEntry.key).Nodup

theorem Wf.set (h : t.Wf) : (t.set e).Wf := by rwa [Wf, map_key_set]

theorem Wf.add (h : t.Wf) (s : NString) : (t.add s).Wf := by
  rw [ShapeTable.add]
  split
  next => exact h
  next hnone =>
    rw [Wf, List.map_append, List.map_singleton]
    refine List.Nodup.append h (List.nodup_singleton _) ?_
    rw [List.disjoint_singleton]
    intro hmem
    obtain ⟨e, he, hkey⟩ := List.mem_map.1 hmem
    refine hnone (Option.isSome_iff_ne_none.2 fun hget => ?_)
    have hall := List.find?_eq_none.1 hget e he
    simp [hkey, ShapeEntry.create] at hall

theorem Wf.get_of_mem (h : t.Wf) (he : e ∈ t) : t.get e.key = some e := by
  induction t with
  | nil => exact nomatch he
  | cons e' t ih =>
      rw [Wf, List.map_cons, List.nodup_cons] at h
      rw [get_cons]
      obtain rfl | he := List.mem_cons.1 he
      · rw [if_pos rfl]
      · have hne : e'.key ≠ e.key := fun heq => h.1 (heq ▸ List.mem_map_of_mem he)
        rw [if_neg hne]
        exact ih h.2 he

/-- What the table of the shapes keeps. -/
structure Grows (t t' : ShapeTable) : Prop where
  old {s : NString} {e : ShapeEntry} (h : t.get s = some e) :
    ∃ e', t'.get s = some e' ∧ e.Grows e'
  fresh {s : NString} {e' : ShapeEntry} (h : t.get s = none) (h' : t'.get s = some e') :
    (ShapeEntry.create s).Grows e'
  wf (h : t.Wf) : t'.Wf

theorem Grows.refl (t : ShapeTable) : t.Grows t where
  old {_ e} h := ⟨e, h, .refl e⟩
  fresh h h' := nomatch h.symm.trans h'
  wf h := h

theorem Grows.trans {t t' t'' : ShapeTable} (h : t.Grows t') (h' : t'.Grows t'') :
    t.Grows t'' where
  old he := by
    obtain ⟨e', he', hgrows⟩ := h.old he
    obtain ⟨e'', he'', hgrows'⟩ := h'.old he'
    exact ⟨e'', he'', hgrows.trans hgrows'⟩
  fresh {s e''} hnone he'' := by
    cases hs : t'.get s with
    | none => exact h'.fresh hs he''
    | some e' =>
        obtain ⟨e₁, he₁, hgrows⟩ := h'.old hs
        obtain rfl := Option.some.inj (he₁.symm.trans he'')
        exact (h.fresh hnone hs).trans hgrows
  wf hwf := h'.wf (h.wf hwf)

theorem set_grows {e e' : ShapeEntry} (he : t.get s = some e) (h : e.Grows e') :
    t.Grows (t.set e') := by
  have hkey : e'.key = s := h.key.trans (get_key he)
  constructor
  · intro s' e₁ he₁
    rw [get_set]
    by_cases hs : e'.key = s'
    · obtain rfl : s = s' := hkey.symm.trans hs
      obtain rfl := Option.some.inj (he.symm.trans he₁)
      exact ⟨e', by rw [if_pos hs, he, Option.map_some], h⟩
    · exact ⟨e₁, by rw [if_neg hs, he₁], .refl e₁⟩
  · intro s' e₁ hnone he₁
    rw [get_set, hnone] at he₁
    split at he₁
    next => exact nomatch he₁
    next => exact nomatch he₁
  · exact Wf.set

theorem add_grows (s : NString) : t.Grows (t.add s) where
  old {s' e} h := by
    refine ⟨e, ?_, .refl e⟩
    rw [get_add, if_neg, h]
    rintro ⟨rfl, hnone⟩
    exact nomatch hnone.symm.trans h
  fresh {s' e'} hnone h := by
    rw [get_add] at h
    split at h
    next hs =>
      obtain rfl := Option.some.inj h
      exact hs.1 ▸ .refl _
    next => exact nomatch hnone.symm.trans h
  wf h := h.add s

end ShapeTable

/-- What is kept by the programs that read a capsule. -/
abbrev GrowsIn (s s' : ReadState) : Prop := s.tables.shapes.Grows s'.tables.shapes

section

variable {α β : Type}

theorem GrowsIn.trans' {s'' : ReadState} (h : GrowsIn s s') (h' : GrowsIn s' s'') :
    GrowsIn s s'' := ShapeTable.Grows.trans h h'

theorem grows_bind {m : CapsuleM α} {f : α → CapsuleM β} (hm : Keeps GrowsIn m)
    (hf : ∀ a, Keeps GrowsIn (f a)) : Keeps GrowsIn (m >>= f) :=
  keeps_bind (R := GrowsIn) GrowsIn.trans' hm hf

theorem grows_pure (a : α) : Keeps GrowsIn (pure a) := keeps_pure (fun _ => .refl _) a

theorem grows_guard (p : Prop) [Decidable p] : Keeps GrowsIn (guard p) :=
  keeps_guard (fun _ => .refl _) p

theorem grows_get : Keeps GrowsIn (get : CapsuleM ReadState) := keeps_get fun _ => .refl _

theorem readFile_eq_some {m : Read α} {a : α} (h : readFile m s = some (a, s')) :
    m s.reader = some (a, s'.reader) ∧
    s'.tables = s.tables := by
  obtain ⟨r, hr, heq⟩ := Option.map_eq_some_iff.1 h
  obtain ⟨rfl, rfl⟩ := Prod.mk.inj heq
  exact ⟨hr, rfl⟩

theorem grows_readFile (m : Read α) : Keeps GrowsIn (readFile m) := fun s a s' h => by
  show s.tables.shapes.Grows s'.tables.shapes
  rw [(readFile_eq_some h).2]
  exact .refl _

theorem changeShape_eq_some {key : NString} {f : ShapeEntry → Option (α × ShapeEntry)} {a : α}
    (h : changeShape key f s = some (a, s')) :
    ∃ e e', s.tables.shapes.get key = some e ∧ f e = some (a, e') ∧
      s' = { s with tables := { s.tables with shapes := s.tables.shapes.set e' } } := by
  rw [changeShape, Option.bind_eq_bind, Option.bind_eq_some_iff] at h
  obtain ⟨e, he, h⟩ := h
  obtain ⟨⟨a', e'⟩, hf, h⟩ := Option.bind_eq_some_iff.1 h
  obtain ⟨rfl, rfl⟩ := Prod.mk.inj (Option.some.inj h)
  exact ⟨e, e', he, hf, rfl⟩

theorem grows_changeShape {key : NString} {f : ShapeEntry → Option (α × ShapeEntry)}
    (hf : ∀ e a e', f e = some (a, e') → e.Grows e') : Keeps GrowsIn (changeShape key f) :=
  fun s a s' h => by
    obtain ⟨e, e', he, hfe, rfl⟩ := changeShape_eq_some h
    exact ShapeTable.set_grows he (hf e a e' hfe)

theorem grows_loopM {f : α → CapsuleM β} (hf : ∀ a, Keeps GrowsIn (f a)) (as : List α) :
    Keeps GrowsIn (loopM f as) := by
  induction as with
  | nil => exact grows_pure _
  | cons a as ih => exact grows_bind (hf a) fun _ => grows_bind ih fun _ => grows_pure _

end

theorem setVersion_shapes (major minor : Nat) (t : Tables) :
    (setVersion major minor t).shapes = t.shapes := by
  rw [setVersion]
  split
  · rfl
  · split <;> rfl

theorem grows_header : Keeps GrowsIn capsuleReadHeader := by
  refine grows_bind (grows_readFile _) fun _ => grows_bind (grows_guard _) fun _ =>
    grows_bind (grows_readFile _) fun _ => grows_bind (grows_readFile _) fun _ =>
    grows_bind (grows_guard _) fun _ => grows_bind grows_get fun _ =>
    grows_bind (grows_guard _) fun _ => grows_bind (keeps_modify fun s => ?_) fun _ =>
    grows_readFile _
  show s.tables.shapes.Grows (setVersion _ _ s.tables).shapes
  rw [setVersion_shapes]
  exact .refl _

theorem grows_unitSetName (previous : List NString) : Keeps GrowsIn (readUnitSetName previous) := by
  refine grows_bind (grows_readFile _) fun key => grows_bind grows_get fun s => ?_
  split
  next => exact keeps_failure
  next => exact grows_bind (grows_guard _) fun _ => grows_bind (grows_guard _) fun _ => grows_pure _

theorem grows_unitSetNames (n : Nat) : ∀ previous, Keeps GrowsIn (readUnitSetNames n previous) := by
  induction n with
  | zero => exact fun _ => grows_pure _
  | succ n ih => exact fun _ => grows_bind (grows_unitSetName _) fun _ => ih _

theorem grows_shapes (n : Nat) : ∀ shapesVec, Keeps GrowsIn (readShapes n shapesVec) := by
  induction n with
  | zero => exact fun _ => grows_pure _
  | succ n ih =>
      exact fun _ => grows_bind (grows_readFile _) fun _ => grows_bind (grows_readFile _) fun _ =>
        grows_bind (keeps_modify fun _ => ShapeTable.add_grows _) fun _ =>
        grows_bind (grows_guard _) fun _ => ih _

theorem grows_externalName (shape : ShapeData) : Keeps GrowsIn (readExternalName shape) := by
  refine grows_bind (grows_readFile _) fun _ => grows_bind (grows_readFile _) fun _ =>
    grows_bind (grows_guard _) fun _ =>
    grows_bind (grows_changeShape fun _ _ _ => ShapeEntry.nameTableAdd_grows) fun _ =>
    grows_bind (grows_guard _) fun _ => grows_bind grows_get fun s => ?_
  split
  next => exact grows_pure _
  next => exact keeps_failure

theorem grows_externalNames1 (n : Nat) : ∀ shape, Keeps GrowsIn (readExternalNames1 n shape) := by
  induction n with
  | zero => exact fun _ => grows_pure _
  | succ n ih =>
      exact fun _ => grows_bind (grows_externalName _) fun _ => grows_bind (ih _) fun _ =>
        grows_pure _

theorem grows_externalNames (shapesVec : List ShapeData) :
    Keeps GrowsIn (capsuleReadExternalNames shapesVec) :=
  grows_bind (grows_readFile _) fun _ => grows_bind (grows_guard _) fun _ =>
    grows_loopM (fun _ => grows_bind (grows_readFile _) fun _ => grows_externalNames1 _ _) _

theorem grows_usage (capsule shape : NString) (needDec noMult : Bool) (name : NameData) :
    Keeps GrowsIn (readUsage capsule shape needDec noMult name) := by
  refine grows_bind (grows_readFile _) fun use => grows_bind (grows_guard _) fun _ =>
    grows_bind (grows_guard _) fun _ => grows_bind (grows_guard _) fun _ =>
    grows_changeShape fun e a e' h => ?_
  split at h
  next d hd =>
    split at h
    next => exact nomatch h
    next =>
      obtain ⟨-, rfl⟩ := Prod.mk.inj (Option.some.inj h)
      exact ShapeEntry.setDirect_grows hd rfl fun bit => has_or_left
  next => exact nomatch h

theorem grows_capsuleReadUsage (capsule : NString) (needDec noMult : Bool) (shape : ShapeData)
    (names : List NameData) : Keeps GrowsIn (capsuleReadUsage capsule needDec noMult shape names) :=
  grows_bind (grows_loopM (fun _ => grows_usage _ _ _ _ _) _) fun _ => grows_pure _

theorem grows_usageOf (capsule : NString) (needDec noMult : Bool)
    (p : Option (List NameData × ShapeData)) :
    Keeps GrowsIn (readUsageOf capsule needDec noMult p) := by
  cases p with
  | none => exact grows_pure _
  | some p => exact grows_capsuleReadUsage _ _ _ _ _

theorem grows_tldType (capsule : NString) (vec : List (List NameData × ShapeData)) (n : Nat) :
    Keeps GrowsIn (capsuleReadTldType capsule vec n) := by
  match n with
  | 0 => exact grows_bind (grows_usageOf _ _ _ _) fun _ => grows_usageOf _ _ _ _
  | 1 =>
      exact grows_bind (grows_loopM (fun _ => grows_capsuleReadUsage _ _ _ _ _) _) fun _ =>
        grows_pure _
  | _ + 2 => exact keeps_failure

theorem grows_tldUnits (capsule : NString) (vec : List (List NameData × ShapeData)) :
    Keeps GrowsIn (capsuleReadTldUnits capsule vec) := by
  refine grows_bind ?_ fun _ => grows_bind (grows_readFile _) fun _ =>
    grows_bind (grows_tldType _ _ _) fun _ => grows_bind grows_get fun _ =>
    grows_bind (grows_readFile _) fun _ => grows_guard _
  exact grows_bind (grows_readFile _) fun _ => grows_bind (grows_guard _) fun _ =>
    grows_bind (grows_readFile _) fun _ => grows_bind (grows_guard _) fun _ =>
    grows_bind (grows_readFile _) fun _ => grows_bind (grows_guard _) fun _ =>
    grows_bind (grows_readFile _) fun _ => grows_bind (grows_readFile _) fun _ =>
    grows_bind grows_get fun _ => grows_pure _

theorem grows_link (shape : ShapeData) : Keeps GrowsIn (readLink shape) := by
  refine grows_bind (grows_readFile _) fun _ => grows_bind (grows_readFile _) fun _ =>
    grows_bind (grows_guard _) fun _ => ?_
  split
  next => exact grows_pure _
  next =>
    exact grows_bind (grows_changeShape fun _ _ _ => ShapeEntry.nextId_grows) fun _ => grows_pure _

theorem grows_links (n : Nat) : ∀ shape, Keeps GrowsIn (readLinks n shape) := by
  induction n with
  | zero => exact fun _ => grows_pure _
  | succ n ih =>
      exact fun _ => grows_bind (grows_link _) fun _ => grows_bind (ih _) fun _ => grows_pure _

theorem grows_unitMaps (counts : List Nat) :
    ∀ vec, Keeps GrowsIn (readUnitMaps counts vec) := by
  induction counts with
  | nil => exact fun _ => grows_pure _
  | cons count counts ih =>
      intro vec
      cases vec with
      | nil => exact grows_pure _
      | cons p vec =>
          exact grows_bind (grows_readFile _) fun _ => grows_bind (grows_links _ _) fun _ =>
            grows_bind (ih _) fun _ => grows_pure _

theorem grows_unit (set : NString) (vec : List (List NameData × ShapeData)) :
    Keeps GrowsIn (capsuleReadUnit set vec) := by
  refine grows_bind (grows_readFile _) fun numCounts => grows_bind ?_ fun _ =>
    grows_bind (grows_readFile _) fun _ => grows_bind (grows_guard _) fun _ =>
    grows_bind (grows_unitMaps _ _) fun _ => grows_bind (grows_readFile _) fun _ =>
    grows_bind (grows_readFile _) fun _ => grows_bind (keeps_modify fun _ => .refl _) fun _ =>
    grows_pure _
  refine grows_bind (grows_guard _) fun _ => ?_
  split
  next => exact grows_loopM (fun _ => grows_readFile _) _
  next => exact grows_pure _

theorem grows_units (set : NString) (n : Nat) : ∀ vec, Keeps GrowsIn (readUnits set n vec) := by
  induction n with
  | zero => exact fun _ => grows_pure _
  | succ n ih =>
      exact fun _ => grows_bind (grows_unit _ _) fun _ => grows_bind (ih _) fun _ => grows_pure _

theorem grows_unitSets (capsule : NString) (sets : List NString) :
    ∀ vec, Keeps GrowsIn (readUnitSets capsule sets vec) := by
  induction sets with
  | nil => exact fun _ => grows_pure _
  | cons set sets ih =>
      intro vec
      rw [readUnitSets]
      split
      next => exact grows_bind (grows_tldUnits _ _) fun _ => ih _
      next =>
        exact grows_bind (grows_readFile _) fun _ => grows_bind (grows_units _ _ _) fun _ =>
          grows_bind (ih _) fun _ => grows_pure _

/-- Reading a capsule. -/
theorem capsuleRead_grows {capsule : Capsule} {t t' : Tables} {data : CapsuleData}
    (h : capsuleRead capsule t = some (data, t')) : t.shapes.Grows t'.shapes := by
  rw [capsuleRead, Option.bind_eq_bind, Option.bind_eq_some_iff] at h
  obtain ⟨⟨data', s⟩, hbody, heq⟩ := h
  obtain ⟨-, rfl⟩ := Prod.mk.inj (Option.some.inj heq)
  have hkeeps : Keeps GrowsIn (capsuleReadBody capsule.name) :=
    grows_bind grows_header fun _ => grows_bind (grows_readFile _) fun _ =>
      grows_bind (grows_unitSetNames _ _) fun _ => grows_bind (grows_readFile _) fun _ =>
      grows_bind (grows_shapes _ _) fun _ => grows_bind (grows_externalNames _) fun _ =>
      grows_bind (grows_readFile _) fun _ => grows_bind (grows_guard _) fun _ =>
      grows_bind (grows_unitSets _ _ _) fun _ => grows_bind (grows_readFile _) fun _ =>
      grows_pure _
  exact hkeeps _ _ _ hbody

end Tendra.Ref.Tld
