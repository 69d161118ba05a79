import Tendra.Proofs.Tld.Grows

/-!
# Library resolution

A name is looked at once, when it is taken off the list of its shape. If it is used and not
defined then, its definition is loaded or there is none to be loaded; what the tables keep makes
that last. If it is not used then, a capsule that is loaded later may use it, and nobody looks
again: `Late` says that this has happened. Without it every definition that the libraries have
is loaded in the end.
-/

namespace Tendra.Ref.Tld

variable {e : ShapeEntry} {loads : List Nat} {s : NString} {fuel : Nat} {k : NameKey}

section

variable {hash : NString → Nat} {lib : List Capsule} {libShapes : ShapeTable} {σ σ' : LinkState}

/-- The index of the libraries has a definition for a name in a capsule. -/
def LibDefines (libShapes : ShapeTable) (s : NString) (k : NameKey) (c : Nat) : Prop :=
  ∃ table d, libShapes.get s = some table ∧ table.nameTableGet k = some d ∧ d.libDefinition = some c

/-- A name is used and not defined, and the index has a definition for it in a capsule that has
not been loaded. -/
def Missing (libShapes : ShapeTable) (σ : LinkState) (s : NString) (k : NameKey) : Prop :=
  ∃ e d c, σ.tables.shapes.get s = some e ∧ e.getEntry k = some (.direct d) ∧
    has d.use uUsed = true ∧ has d.use uDefd = false ∧ has d.use uMult = false ∧
    LibDefines libShapes s k c ∧ c ∉ σ.loads

/-- A name has been taken off the list of its shape, and its usage is such. -/
def OffList (t : ShapeTable) (s : NString) (k : NameKey) (d : Direct) : Prop :=
  ∃ e, t.get s = some e ∧ e.getEntry k = some (.direct d) ∧ k ∉ e.list

/-- A name that was not used when it was taken off the list is missing after a turn. -/
def Late (libShapes : ShapeTable) (σ σ' : LinkState) : Prop :=
  ∃ s k d, OffList σ.tables.shapes s k d ∧ has d.use uUsed = false ∧ Missing libShapes σ' s k

theorem LibDefines.unique {c c' : Nat} (h : LibDefines libShapes s k c)
    (h' : LibDefines libShapes s k c') : c = c' := by
  obtain ⟨table, d, htable, hd, hc⟩ := h
  obtain ⟨table', d', htable', hd', hc'⟩ := h'
  obtain rfl := Option.some.inj (htable.symm.trans htable')
  obtain rfl := Option.some.inj (hd.symm.trans hd')
  exact Option.some.inj (hc.symm.trans hc')

theorem neededCapsule_none {d : Direct} (h : neededCapsule libShapes s k d loads = none)
    (hused : has d.use uUsed = true) (hdefd : has d.use uDefd = false)
    (hmult : has d.use uMult = false) {c : Nat} (hc : LibDefines libShapes s k c) : c ∈ loads := by
  obtain ⟨table, ld, htable, hld, hdef⟩ := hc
  rw [neededCapsule, if_neg (by simp [hused, hdefd])] at h
  simp only [htable, hld, hdef, Option.bind_eq_bind, Option.bind_some, hmult] at h
  by_contra hnot
  simp [hnot] at h

theorem neededCapsule_some {d : Direct} {c : Nat}
    (h : neededCapsule libShapes s k d loads = some c) :
    LibDefines libShapes s k c ∧ c ∉ loads := by
  rw [neededCapsule] at h
  split at h
  next => cases h
  next =>
    rw [Option.bind_eq_bind, Option.bind_eq_some_iff] at h
    obtain ⟨table, htable, h⟩ := h
    rw [Option.bind_eq_bind, Option.bind_eq_some_iff] at h
    obtain ⟨ld, hld, h⟩ := h
    rw [Option.bind_eq_bind, Option.bind_eq_some_iff] at h
    obtain ⟨c', hc', h⟩ := h
    split at h
    next hcond =>
      obtain rfl := Option.some.inj h
      exact ⟨⟨table, ld, htable, hld, hc'⟩, hcond.1⟩
    next => cases h

/-- The tables without the first name of a list. -/
def popped (t : Tables) (e : ShapeEntry) (list : List NameKey) : Tables :=
  { t with shapes := t.shapes.set { e with list } }

/-- A turn of the loops. -/
inductive Turn (hash : NString → Nat) (lib : List Capsule) (libShapes : ShapeTable)
    (σ : LinkState) : LinkState → Prop
  | again (h : shapeTableSize ≤ σ.bucket) :
      Turn hash lib libShapes σ { σ with didDefine := false, bucket := 0, pos := 0 }
  | chain (h : σ.bucket < shapeTableSize) (hcur : currentEntry hash σ = none) :
      Turn hash lib libShapes σ { σ with bucket := σ.bucket + 1, pos := 0 }
  | entry {e : ShapeEntry} (hcur : currentEntry hash σ = some e) (hlist : e.list = []) :
      Turn hash lib libShapes σ { σ with pos := σ.pos + 1 }
  | pass {e : ShapeEntry} {k : NameKey} {list : List NameKey} {d : Direct}
      (hcur : currentEntry hash σ = some e) (hlist : e.list = k :: list)
      (hd : e.getEntry k = some (.direct d))
      (hneeded : neededCapsule libShapes e.key k d σ.loads = none) :
      Turn hash lib libShapes σ { σ with tables := popped σ.tables e list }
  | load {e : ShapeEntry} {k : NameKey} {list : List NameKey} {d : Direct} {c : Nat}
      {capsule : Capsule} {data : CapsuleData} {t : Tables}
      (hcur : currentEntry hash σ = some e) (hlist : e.list = k :: list)
      (hd : e.getEntry k = some (.direct d))
      (hneeded : neededCapsule libShapes e.key k d σ.loads = some c)
      (hcapsule : lib[c]? = some capsule)
      (hread : capsuleRead capsule (popped σ.tables e list) = some (data, t)) :
      Turn hash lib libShapes σ { σ with tables := t, loads := σ.loads ++ [c], didDefine := true }

theorem turn_of_step (h : linkerStep hash lib libShapes σ = some σ') :
    Turn hash lib libShapes σ σ' := by
  rw [linkerStep] at h
  split at h
  next hbucket =>
    obtain rfl := Option.some.inj h
    exact .again hbucket
  next hbucket =>
    split at h
    next hcur =>
      obtain rfl := Option.some.inj h
      exact .chain (Nat.lt_of_not_le hbucket) hcur
    next e hcur =>
      rw [shapeEntryResolveUndefined, ShapeEntry.getFromList] at h
      cases hlist : e.list with
      | nil =>
          rw [hlist] at h
          obtain rfl := Option.some.inj h
          exact .entry hcur hlist
      | cons k list =>
          rw [hlist] at h
          split at h
          next heq => cases heq
          next heq =>
            obtain ⟨rfl, rfl⟩ := Prod.mk.inj (Option.some.inj heq)
            split at h
            next d hd =>
              rw [nameEntryResolveUndefined] at h
              split at h
              next hneeded =>
                obtain rfl := Option.some.inj h
                exact .pass hcur hlist hd hneeded
              next c hneeded =>
                rw [Option.bind_eq_bind, Option.bind_eq_some_iff] at h
                obtain ⟨capsule, hcapsule, h⟩ := h
                rw [Option.bind_eq_bind, Option.bind_eq_some_iff] at h
                obtain ⟨⟨data, t⟩, hread, h⟩ := h
                obtain rfl := Option.some.inj h
                exact .load hcur hlist hd hneeded hcapsule hread
            next => cases h

theorem mem_of_current (h : currentEntry hash σ = some e) :
    e ∈ σ.tables.shapes := List.mem_of_mem_filter (List.mem_of_getElem? h)

/-- Of the tables without the first name of a list all is as before, the list apart. -/
theorem get_popped {e₁ : ShapeEntry} {list : List NameKey} (hwf : σ.tables.shapes.Wf)
    (he : e ∈ σ.tables.shapes) (h : (popped σ.tables e list).shapes.get s = some e₁) :
    (s = e.key ∧ e₁ = { e with list } ∧ σ.tables.shapes.get s = some e) ∨
      (s ≠ e.key ∧ σ.tables.shapes.get s = some e₁) := by
  have hget := hwf.get_of_mem he
  rw [popped, ShapeTable.get_set] at h
  by_cases hs : s = e.key
  · subst hs
    rw [if_pos rfl, hget] at h
    exact .inl ⟨rfl, (Option.some.inj h).symm, hget⟩
  · rw [if_neg fun heq => hs heq.symm] at h
    exact .inr ⟨hs, h⟩

/-- No name that was taken off a list is missing. -/
def OffDone (libShapes : ShapeTable) (σ : LinkState) : Prop :=
  ∀ s k d, OffList σ.tables.shapes s k d → ¬Missing libShapes σ s k

/-- A turn that is not late leaves no name missing that was taken off a list. -/
theorem Turn.offDone (h : Turn hash lib libShapes σ σ') (hwf : σ.tables.shapes.Wf)
    (hdone : OffDone libShapes σ) (hlate : ¬Late libShapes σ σ') : OffDone libShapes σ' := by
  cases h with
  | again => exact hdone
  | chain => exact hdone
  | entry => exact hdone
  | @pass e k list d hcur hlist hd hneeded =>
      rintro s k' d' ⟨e₁, he₁, hd', hk'⟩ ⟨e₂, d₂, c, he₂, hd₂, hused, hdefd, hmult, hlib, hc⟩
      obtain rfl := Option.some.inj (he₁.symm.trans he₂)
      obtain rfl := NameEntry.direct.inj (Option.some.inj (hd'.symm.trans hd₂))
      obtain ⟨rfl, rfl, hget⟩ | ⟨-, hget⟩ := get_popped hwf (mem_of_current hcur) he₁
      · by_cases hkk : k' = k
        · subst hkk
          obtain rfl := NameEntry.direct.inj (Option.some.inj (hd.symm.trans hd'))
          exact hc (neededCapsule_none hneeded hused hdefd hmult hlib)
        · have hoff : k' ∉ e.list := by
            rw [hlist, List.mem_cons, not_or]
            exact ⟨hkk, hk'⟩
          exact hdone _ _ _ ⟨e, hget, hd', hoff⟩
            ⟨e, d', c, hget, hd', hused, hdefd, hmult, hlib, hc⟩
      · exact hdone _ _ _ ⟨e₁, hget, hd', hk'⟩ ⟨e₁, d', c, hget, hd', hused, hdefd, hmult, hlib, hc⟩
  | @load e k list d c capsule data t hcur hlist hd hneeded hcapsule hread =>
      rintro s k' d' ⟨e₁, he₁, hd', hk'⟩ hmissing
      obtain ⟨e₂, d₂, c', he₂, hd₂, hused, hdefd, hmult, hlib, hc'⟩ := hmissing
      have hmissing : Missing libShapes _ s k' :=
        ⟨e₂, d₂, c', he₂, hd₂, hused, hdefd, hmult, hlib, hc'⟩
      obtain rfl := Option.some.inj (he₁.symm.trans he₂)
      obtain rfl := NameEntry.direct.inj (Option.some.inj (hd'.symm.trans hd₂))
      have hgrows := capsuleRead_grows hread
      rw [List.mem_append, List.mem_singleton, not_or] at hc'
      -- The name was direct before the capsule was read: new ones are on the list.
      obtain ⟨em, dm, hem, hdm, hkm, hbits⟩ : ∃ em dm,
          (popped σ.tables e list).shapes.get s = some em ∧
          em.getEntry k' = some (.direct dm) ∧ k' ∉ em.list ∧
          ∀ bit, has dm.use bit = true → has d'.use bit = true := by
        cases hem : (popped σ.tables e list).shapes.get s with
        | none =>
            have hfresh := hgrows.fresh hem he₁
            obtain ⟨dm, hdm⟩ | hmem := hfresh.added hd'
            · exact nomatch hdm
            · exact absurd hmem hk'
        | some em =>
            obtain ⟨e₃, he₃, hg⟩ := hgrows.old hem
            obtain rfl := Option.some.inj (he₃.symm.trans he₁)
            obtain ⟨dm, hdm⟩ | hmem := hg.added hd'
            · obtain ⟨d₃, hd₃, -, hbits⟩ := hg.kept hdm
              obtain rfl := NameEntry.direct.inj (Option.some.inj (hd₃.symm.trans hd'))
              exact ⟨em, dm, rfl, hdm, fun hmem => hk' (hg.list.subset hmem), hbits⟩
            · exact absurd hmem hk'
      have hold : ∀ e₀, σ.tables.shapes.get s = some e₀ → e₀.getEntry k' = some (.direct dm) →
          k' ∉ e₀.list → False := by
        intro e₀ hget hd₀ hk₀
        cases hum : has dm.use uUsed with
        | false => exact hlate ⟨s, k', dm, ⟨e₀, hget, hd₀, hk₀⟩, hum, hmissing⟩
        | true =>
            have hdm' : ∀ bit, has d'.use bit = false → has dm.use bit = false := by
              intro bit hbit
              rw [Bool.eq_false_iff] at hbit ⊢
              exact fun h => hbit (hbits bit h)
            exact hdone s k' dm ⟨e₀, hget, hd₀, hk₀⟩
              ⟨e₀, dm, c', hget, hd₀, hum, hdm' _ hdefd, hdm' _ hmult, hlib, hc'.1⟩
      obtain ⟨rfl, rfl, hget⟩ | ⟨-, hget⟩ := get_popped hwf (mem_of_current hcur) hem
      · by_cases hkk : k' = k
        · subst hkk
          exact hc'.2 (hlib.unique (neededCapsule_some hneeded).1)
        · refine hold e hget hdm ?_
          rw [hlist, List.mem_cons, not_or]
          exact ⟨hkk, hkm⟩
      · exact hold em hget hdm hkm

theorem Turn.wf (h : Turn hash lib libShapes σ σ') (hwf : σ.tables.shapes.Wf) :
    σ'.tables.shapes.Wf := by
  cases h with
  | again => exact hwf
  | chain => exact hwf
  | entry => exact hwf
  | pass => exact hwf.set
  | load _ _ _ _ _ hread => exact (capsuleRead_grows hread).wf hwf.set

theorem Turn.nodup (h : Turn hash lib libShapes σ σ') (hloads : σ.loads.Nodup) :
    σ'.loads.Nodup := by
  cases h with
  | again => exact hloads
  | chain => exact hloads
  | entry => exact hloads
  | pass => exact hloads
  | load _ _ _ hneeded _ _ =>
      refine List.Nodup.append hloads (List.nodup_singleton _) ?_
      rw [List.disjoint_singleton]
      exact (neededCapsule_some hneeded).2

/-- The entries of a chain of the table. -/
def bucketOf (hash : NString → Nat) (i : Nat) (t : ShapeTable) : ShapeTable :=
  chain (fun e : ShapeEntry => hash e.key) shapeTableSize i t

theorem current_eq_some (h : currentEntry hash σ = some e) :
    (bucketOf hash σ.bucket σ.tables.shapes)[σ.pos]? = some e := h

theorem mem_bucketOf {i : Nat} {t : ShapeTable} :
    e ∈ bucketOf hash i t ↔ e ∈ t ∧ hash e.key % shapeTableSize = i := by
  simp [bucketOf, chain]

theorem bucketOf_set {t : ShapeTable} (i : Nat) :
    bucketOf hash i (t.set e) = (bucketOf hash i t).set e := by
  rw [bucketOf, bucketOf, chain, chain, ShapeTable.set, ShapeTable.set, List.filter_map]
  congr 1
  refine List.filter_congr fun e' _ => ?_
  by_cases h : e'.key = e.key
  · simp [h]
  · simp [h]

/-- Until a capsule is loaded, the lists that a pass has come by are empty. -/
def Visited (hash : NString → Nat) (σ : LinkState) : Prop :=
  σ.didDefine = false →
    (∀ e ∈ σ.tables.shapes, hash e.key % shapeTableSize < σ.bucket → e.list = []) ∧
    ∀ e ∈ (bucketOf hash σ.bucket σ.tables.shapes).take σ.pos, e.list = []

theorem Turn.visited (h : Turn hash lib libShapes σ σ') (hwf : σ.tables.shapes.Wf)
    (hvisited : Visited hash σ) : Visited hash σ' := by
  cases h with
  | again =>
      intro _
      exact ⟨fun _ _ h => absurd h (Nat.not_lt_zero _), fun _ h => absurd h List.not_mem_nil⟩
  | chain hbucket hcur =>
      intro hdid
      obtain ⟨hchains, hchain⟩ := hvisited hdid
      refine ⟨fun e he hlt => ?_, fun _ h => absurd h List.not_mem_nil⟩
      obtain hlt | heq := Nat.lt_succ_iff_lt_or_eq.1 hlt
      · exact hchains e he hlt
      · have hlen : (bucketOf hash σ.bucket σ.tables.shapes).length ≤ σ.pos :=
          List.getElem?_eq_none_iff.1 hcur
        rw [List.take_of_length_le hlen] at hchain
        exact hchain e (mem_bucketOf.2 ⟨he, heq⟩)
  | @entry e hcur hlist =>
      intro hdid
      obtain ⟨hchains, hchain⟩ := hvisited hdid
      refine ⟨hchains, fun e' he' => ?_⟩
      have htake : (bucketOf hash σ.bucket σ.tables.shapes).take (σ.pos + 1) =
          (bucketOf hash σ.bucket σ.tables.shapes).take σ.pos ++ [e] := by
        rw [List.take_add_one, current_eq_some hcur, Option.toList_some]
      have he' : e' ∈ (bucketOf hash σ.bucket σ.tables.shapes).take σ.pos ++ [e] := htake ▸ he'
      rw [List.mem_append] at he'
      obtain he' | he' := he'
      · exact hchain e' he'
      · obtain rfl := List.mem_singleton.1 he'
        exact hlist
  | @pass e k list d hcur hlist hd hneeded =>
      intro hdid
      obtain ⟨hchains, hchain⟩ := hvisited hdid
      -- An entry whose list is empty is not the one that the turn changes.
      have hne : ∀ e' ∈ σ.tables.shapes, e'.list = [] → e'.key ≠ e.key := by
        intro e' he' hnil hkey
        have hget := hwf.get_of_mem he'
        rw [hkey, hwf.get_of_mem (mem_of_current hcur)] at hget
        obtain rfl := Option.some.inj hget
        exact absurd (hnil.symm.trans hlist) (by simp)
      have hbucket : hash e.key % shapeTableSize = σ.bucket :=
        (mem_bucketOf.1 (List.mem_of_getElem? (current_eq_some hcur))).2
      constructor
      · intro e₁ he₁ hlt
        obtain ⟨e', he', rfl⟩ := List.mem_map.1 he₁
        by_cases hkey : e'.key = e.key
        · rw [if_pos hkey, hbucket] at hlt
          exact absurd hlt (Nat.lt_irrefl _)
        · rw [if_neg hkey] at hlt ⊢
          exact hchains e' he' hlt
      · intro e₁ he₁
        have he₁ : e₁ ∈ (bucketOf hash σ.bucket (σ.tables.shapes.set { e with list })).take σ.pos :=
          he₁
        rw [bucketOf_set, ShapeTable.set, ← List.map_take] at he₁
        obtain ⟨e', he', rfl⟩ := List.mem_map.1 he₁
        have hnil := hchain e' he'
        have hmem := (mem_bucketOf.1 (List.mem_of_mem_take he')).1
        rw [if_neg (hne e' hmem hnil)]
        exact hnil
  | load => exact fun h => absurd h Bool.noConfusion

/-- The capsules that are not loaded. -/
def unloaded (lib : List Capsule) (loads : List Nat) : List Nat :=
  (List.range lib.length).filter (· ∉ loads)

theorem unloaded_lt {c : Nat} {capsule : Capsule} (h : lib[c]? = some capsule) (hc : c ∉ loads) :
    (unloaded lib (loads ++ [c])).length < (unloaded lib loads).length := by
  have hsub : unloaded lib (loads ++ [c]) = (unloaded lib loads).filter (· ≠ c) := by
    rw [unloaded, unloaded, List.filter_filter]
    refine List.filter_congr fun c' _ => ?_
    simp [and_comm]
  rw [hsub, List.length_filter_lt_length_iff_exists]
  refine ⟨c, List.mem_filter.2 ⟨List.mem_range.2 ?_, by simpa using hc⟩, by simp⟩
  exact (List.getElem?_eq_some_iff.1 h).1

/-- What becomes less with every turn. -/
def weight (hash : NString → Nat) (lib : List Capsule) (σ : LinkState) :
    Nat × Nat × Nat × Nat × Nat :=
  ((unloaded lib σ.loads).length, σ.didDefine.toNat, shapeTableSize - σ.bucket,
    (bucketOf hash σ.bucket σ.tables.shapes).length - σ.pos,
    ((currentEntry hash σ).map fun e => e.list.length).getD 0)

theorem Turn.weight_lt (h : Turn hash lib libShapes σ σ') (hfin : σ.finished = false) :
    WellFoundedRelation.rel (weight hash lib σ') (weight hash lib σ) := by
  cases h with
  | again hbucket =>
      have hdid : σ.didDefine = true := by simpa [LinkState.finished, hbucket] using hfin
      refine Prod.Lex.right _ (Prod.Lex.left _ _ ?_)
      rw [hdid]
      exact Nat.zero_lt_one
  | chain hbucket hcur =>
      refine Prod.Lex.right _ (Prod.Lex.right _ (Prod.Lex.left _ _ ?_))
      show shapeTableSize - (σ.bucket + 1) < shapeTableSize - σ.bucket
      omega
  | entry hcur hlist =>
      refine Prod.Lex.right _ (Prod.Lex.right _ (Prod.Lex.right _ (Prod.Lex.left _ _ ?_)))
      have hlt := (List.getElem?_eq_some_iff.1 (current_eq_some hcur)).1
      show (bucketOf hash σ.bucket σ.tables.shapes).length - (σ.pos + 1) < _ - σ.pos
      omega
  | @pass e k list d hcur hlist hd hneeded =>
      have hchain : bucketOf hash σ.bucket (popped σ.tables e list).shapes =
          (bucketOf hash σ.bucket σ.tables.shapes).map
            fun e' => if e'.key = e.key then { e with list } else e' := bucketOf_set _
      have hcur' : currentEntry hash { σ with tables := popped σ.tables e list } =
          some { e with list } := by
        show (bucketOf hash σ.bucket (popped σ.tables e list).shapes)[σ.pos]? = _
        rw [hchain, List.getElem?_map, current_eq_some hcur, Option.map_some, if_pos rfl]
      rw [weight, weight, hcur', hcur, hchain, List.length_map]
      refine Prod.Lex.right _ (Prod.Lex.right _ (Prod.Lex.right _ (Prod.Lex.right _ ?_)))
      show list.length < e.list.length
      rw [hlist]
      exact Nat.lt_succ_self _
  | load hcur hlist hd hneeded hcapsule hread =>
      exact Prod.Lex.left _ _ (unloaded_lt hcapsule (neededCapsule_some hneeded).2)

/-- The loops end. -/
theorem resolve_ends (σ : LinkState) : ∃ fuel,
    linkerResolveUndefined hash lib libShapes fuel σ = none ∨
    ∃ σ', linkerResolveUndefined hash lib libShapes fuel σ = some (true, σ') := by
  cases hfin : σ.finished with
  | true => exact ⟨0, .inr ⟨σ, by rw [linkerResolveUndefined, hfin]⟩⟩
  | false =>
      cases hstep : linkerStep hash lib libShapes σ with
      | none =>
          refine ⟨1, .inl ?_⟩
          rw [linkerResolveUndefined, hfin, if_neg Bool.false_ne_true, hstep]
          rfl
      | some σ' =>
          obtain ⟨fuel, hend⟩ := resolve_ends σ'
          refine ⟨fuel + 1, ?_⟩
          rw [linkerResolveUndefined, hfin, if_neg Bool.false_ne_true, hstep]
          exact hend
termination_by weight hash lib σ
decreasing_by exact (turn_of_step hstep).weight_lt hfin

/-- What holds at every turn, late ones or not. -/
structure Sound (hash : NString → Nat) (σ : LinkState) : Prop where
  wf : σ.tables.shapes.Wf
  visited : Visited hash σ
  nodup : σ.loads.Nodup

theorem Turn.sound (h : Turn hash lib libShapes σ σ') (hsound : Sound hash σ) : Sound hash σ' where
  wf := h.wf hsound.wf
  visited := h.visited hsound.wf hsound.visited
  nodup := h.nodup hsound.nodup

/-- What each turn of a run keeps holds at the end of it. -/
theorem resolve_induct {P : LinkState → Prop} (hP : P σ)
    (hstep : ∀ fuel τ τ', linkerResolveUndefined hash lib libShapes fuel σ = some (false, τ) →
      linkerStep hash lib libShapes τ = some τ' → P τ → P τ') {done : Bool}
    (hrun : linkerResolveUndefined hash lib libShapes fuel σ = some (done, σ')) : P σ' := by
  induction fuel generalizing σ with
  | zero =>
      obtain ⟨-, rfl⟩ := Prod.mk.inj (Option.some.inj hrun)
      exact hP
  | succ fuel ih =>
      rw [linkerResolveUndefined] at hrun
      split at hrun
      next =>
        obtain ⟨-, rfl⟩ := Prod.mk.inj (Option.some.inj hrun)
        exact hP
      next hfin =>
        obtain ⟨σ₁, hσ₁, hrun⟩ := Option.bind_eq_some_iff.1 hrun
        have hbegin : linkerResolveUndefined hash lib libShapes 0 σ = some (false, σ) := by
          rw [linkerResolveUndefined, Bool.eq_false_iff.2 hfin]
        refine ih (hstep 0 σ σ₁ hbegin hσ₁ hP) (fun fuel τ τ' hτ => ?_) hrun
        refine hstep (fuel + 1) τ τ' ?_
        rw [linkerResolveUndefined, if_neg hfin, hσ₁]
        exact hτ

/-- No turn of the loops is late. -/
def Timely (hash : NString → Nat) (lib : List Capsule) (libShapes : ShapeTable) (σ : LinkState) :
    Prop :=
  ∀ fuel τ τ', linkerResolveUndefined hash lib libShapes fuel σ = some (false, τ) →
    linkerStep hash lib libShapes τ = some τ' → ¬Late libShapes τ τ'

/-- At the end of the loops the lists are empty. -/
theorem Sound.list_nil (h : Sound hash σ) (hfin : σ.finished = true) (he : e ∈ σ.tables.shapes) :
    e.list = [] := by
  obtain ⟨hbucket, hdid⟩ : shapeTableSize ≤ σ.bucket ∧ σ.didDefine = false := by
    simpa [LinkState.finished] using hfin
  have hlt : hash e.key % shapeTableSize < shapeTableSize := Nat.mod_lt _ (by decide)
  exact (h.visited hdid).1 e he (Nat.lt_of_lt_of_le hlt hbucket)

theorem resolve_finished
    (hrun : linkerResolveUndefined hash lib libShapes fuel σ = some (true, σ')) :
    σ'.finished = true := by
  induction fuel generalizing σ with
  | zero =>
      obtain ⟨hfin, rfl⟩ := Prod.mk.inj (Option.some.inj hrun)
      exact hfin
  | succ fuel ih =>
      rw [linkerResolveUndefined] at hrun
      split at hrun
      next hfin =>
        obtain ⟨-, rfl⟩ := Prod.mk.inj (Option.some.inj hrun)
        exact hfin
      next =>
        obtain ⟨σ₁, -, hrun⟩ := Option.bind_eq_some_iff.1 hrun
        exact ih hrun

/-- A run without a late turn leaves no name missing. -/
theorem not_missing (hsound : Sound hash σ) (hdone : OffDone libShapes σ)
    (htimely : Timely hash lib libShapes σ)
    (hrun : linkerResolveUndefined hash lib libShapes fuel σ = some (true, σ')) (s : NString)
    (k : NameKey) : ¬Missing libShapes σ' s k := by
  have hall : Sound hash σ' ∧ OffDone libShapes σ' := by
    refine resolve_induct (P := fun τ => Sound hash τ ∧ OffDone libShapes τ) ⟨hsound, hdone⟩ ?_ hrun
    intro fuel τ τ' hτ hstep hP
    have hturn := turn_of_step hstep
    exact ⟨hturn.sound hP.1, hturn.offDone hP.1.wf hP.2 (htimely fuel τ τ' hτ hstep)⟩
  intro hmissing
  obtain ⟨e, d, c, he, hd, -⟩ := id hmissing
  have hnil := hall.1.list_nil (resolve_finished hrun) (ShapeTable.get_mem he)
  exact hall.2 s k d ⟨e, he, hd, by simp [hnil]⟩ hmissing

/-- The table before any capsule is read: names may have been renamed. -/
structure Renamed (t : ShapeTable) : Prop where
  wf : t.Wf
  not_direct {s : NString} {e : ShapeEntry} (h : t.get s = some e) (k : NameKey) (d : Direct) :
    e.getEntry k ≠ some (.direct d)

theorem linkerReadCapsules_grows {caps : List Capsule} {t t' : Tables}
    (h : linkerReadCapsules caps t = some t') : t.shapes.Grows t'.shapes := by
  induction caps generalizing t with
  | nil =>
      obtain rfl := Option.some.inj h
      exact .refl _
  | cons c caps ih =>
      rw [linkerReadCapsules, Option.bind_eq_bind, Option.bind_eq_some_iff] at h
      obtain ⟨⟨data, t₁⟩, hread, h⟩ := h
      exact (capsuleRead_grows hread).trans (ih h)

/-- Every name that the capsules have is on the list of its shape. -/
theorem offDone_init {t₀ t : Tables} (h₀ : Renamed t₀.shapes) (hgrows : t₀.shapes.Grows t.shapes) :
    OffDone libShapes (.init t) := by
  rintro s k d ⟨e, he, hd, hk⟩
  cases he₀ : t₀.shapes.get s with
  | none =>
      obtain ⟨d₀, hd₀⟩ | hmem := (hgrows.fresh he₀ he).added hd
      · exact nomatch hd₀
      · exact absurd hmem hk
  | some e₀ =>
      obtain ⟨e₁, he₁, hg⟩ := hgrows.old he₀
      obtain rfl := Option.some.inj (he₁.symm.trans he)
      obtain ⟨d₀, hd₀⟩ | hmem := hg.added hd
      · exact absurd hd₀ (h₀.not_direct he₀ k d₀)
      · exact absurd hmem hk

theorem sound_init {t₀ t : Tables} (h₀ : Renamed t₀.shapes) (hgrows : t₀.shapes.Grows t.shapes) :
    Sound hash (.init t) where
  wf := hgrows.wf h₀.wf
  visited _ := ⟨fun _ _ h => absurd h (Nat.not_lt_zero _), fun _ h => absurd h List.not_mem_nil⟩
  nodup := List.nodup_nil

/-- The usage of a direct entry. -/
def directUse : NameEntry → Option Nat
  | .direct d => some d.use
  | _ => none

theorem directUse_eq_some {n : NameEntry} {use : Nat} (h : directUse n = some use) :
    ∃ d, n = .direct d ∧ d.use = use := by
  cases n with
  | direct d => exact ⟨d, rfl, Option.some.inj h⟩
  | indirect => exact absurd h (by simp [directUse])
  | place => exact absurd h (by simp [directUse])

/-- A table in which nothing has been read. -/
def freshTables : Tables := ⟨[], [⟨tldName, []⟩], 0, 0⟩

theorem renamed_nil : Renamed [] where
  wf := List.nodup_nil
  not_direct h := nomatch h

/-- The tag `f` is declared, and `g` is declared and used. -/
def declaresF : NString :=
  [0x54, 0x44, 0x46, 0x43, 0xc8, 0x91, 0x8b, 0x74, 0x6c, 0x64, 0x91, 0x8b, 0x74, 0x61, 0x67,
   0xa9, 0xa8, 0x40, 0x18, 0x90, 0x66, 0x94, 0x18, 0x90, 0x67, 0x99, 0x88, 0xa0, 0x9a, 0xb0]

/-- The tag `g` is defined, and `f` is declared and used. -/
def usesF : NString :=
  [0x54, 0x44, 0x46, 0x43, 0xc8, 0x91, 0x8b, 0x74, 0x6c, 0x64, 0x91, 0x8b, 0x74, 0x61, 0x67,
   0xa9, 0xa8, 0x40, 0x18, 0x90, 0x67, 0x94, 0x18, 0x90, 0x66, 0x99, 0x88, 0xa0, 0x9e, 0xb0]

/-- The tag `f` is defined. -/
def definesF : NString :=
  [0x54, 0x44, 0x46, 0x43, 0xc8, 0x91, 0x8b, 0x74, 0x6c, 0x64, 0x91, 0x8b, 0x74, 0x61, 0x67,
   0x99, 0x98, 0x40, 0x18, 0x90, 0x66, 0x99, 0x88, 0x90, 0x9e]

/-- An index of two capsules that define `g` and `f`. -/
def indexOfGF : ShapeTable :=
  [⟨tagName, [(.string [0x66], .direct ⟨0, uDefd, none, some 1⟩),
    (.string [0x67], .direct ⟨1, uDefd, none, some 0⟩)], 2, false, []⟩]

end

end Tendra.Ref.Tld
