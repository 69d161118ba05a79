import Tendra.Ref.Tdfc.Unmangle

/-!
# Types, up to `eq_type`

`eq_type` compares normal forms: it does not tell a function that returns `void` from one
that returns `bottom`. `spell` maps the names of a type as it takes the normal form.
-/

namespace Tendra.Ref.Tdfc

variable {ν μ : Type}

/-- Induction over types; the hypothesis holds for each parameter of a function. -/
@[induction_eliminator, elab_as_elim]
theorem Ty.induct {M : Ty ν → Prop}
    (integer : ∀ q n, M (.integer q n)) (top : ∀ q, M (.top q)) (bottom : ∀ q, M (.bottom q))
    (ptr : ∀ q t, M t → M (.ptr q t)) (ref : ∀ t, M t → M (.ref t))
    (ptrMem : ∀ q c t, M t → M (.ptrMem q c t))
    (func : ∀ q c ps ell r, (∀ p ∈ ps, M p) → M r → M (.func q c ps ell r))
    (array : ∀ n t, M t → M (.array n t)) (compound : ∀ q c, M (.compound q c))
    (error : M .error) (t : Ty ν) : M t :=
  @Ty.rec ν M (fun ps => ∀ p ∈ ps, M p) integer top bottom ptr ref ptrMem func array compound
    error (fun _ hp => absurd hp List.not_mem_nil)
    (fun _ _ hp hps _ hq => (List.mem_cons.1 hq).elim (fun h => h ▸ hp) (hps _)) t

/-! ## Normal forms -/

/-- `bottom` as a return type. -/
def voidToTop : Ty ν → Ty ν
  | .bottom q => .top q
  | t => t

/-- The names of the scopes that a class lies in, mapped. -/
def Ident.map (f : ν → μ) : Ident ν → Ident μ
  | .top nm => .top (f nm)
  | .mem p nm => .mem (p.map f) (f nm)

mutual

/-- The normal form, with the names mapped. -/
@[grind =] def Ty.spell (f : ν → μ) : Ty ν → Ty μ
  | .integer q n => .integer q n
  | .top q => .top q
  | .bottom q => .bottom q
  | .ptr q t => .ptr q (t.spell f)
  | .ref t => .ref (t.spell f)
  | .ptrMem q c t => .ptrMem q (c.map f) (t.spell f)
  | .func q c ps ell r => .func q c (spellAll f ps) ell (voidToTop (r.spell f))
  | .array n t => .array n (t.spell f)
  | .compound q c => .compound q (c.map f)
  | .error => .error

@[grind =] def spellAll (f : ν → μ) : List (Ty ν) → List (Ty μ)
  | [] => []
  | t :: ts => t.spell f :: spellAll f ts

end

theorem spellAll_eq (f : ν → μ) (ts : List (Ty ν)) : spellAll f ts = ts.map (Ty.spell f) := by
  induction ts with
  | nil => rfl
  | cons t ts ih => rw [spellAll, ih, List.map_cons]

/-- The normal form of a type. -/
def Ty.norm (t : Ty ν) : Ty ν := t.spell id

theorem Ident.map_id (c : Ident ν) : c.map id = c := by
  induction c with
  | top nm => rfl
  | mem p nm ih => rw [Ident.map, ih]; rfl

theorem voidToTop_spell (f : ν → μ) (t t' : Ty ν) [DecidableEq ν] :
    voidToTop (t.spell f) = voidToTop (t'.spell f) ↔
      t.spell f = t'.spell f ∨ voidRet t t' = true := by
  cases t <;> cases t' <;> simp [Ty.spell, voidToTop, voidRet]

theorem eqTypes_iff_of [DecidableEq ν] {ps : List (Ty ν)}
    (h : ∀ p ∈ ps, ∀ t', eqType p t' = true ↔ p.norm = t'.norm) :
    ∀ ps', eqTypes ps ps' = true ↔ ps.map Ty.norm = ps'.map Ty.norm := by
  induction ps with
  | nil =>
      intro ps'
      cases ps' <;> simp [eqTypes]
  | cons p ps ih =>
      intro ps'
      cases ps' with
      | nil => simp [eqTypes]
      | cons p' ps' =>
          have hhead := h p (List.mem_cons_self ..) p'
          have htail := ih (fun x hx => h x (List.mem_cons_of_mem _ hx)) ps'
          simp [eqTypes, hhead, htail]

/-- `eq_type` is equality of normal forms. -/
theorem eqType_iff [DecidableEq ν] (t : Ty ν) : ∀ t', eqType t t' = true ↔ t.norm = t'.norm := by
  induction t with
  | func q c ps ell r hps hr =>
      intro t'
      have hlist := eqTypes_iff_of hps
      cases t' with
      | func q' c' ps' ell' r' =>
          have hret : (eqType r r' = true ∨ voidRet r r' = true) ↔
              voidToTop r.norm = voidToTop r'.norm := by
            rw [hr r', Ty.norm, Ty.norm, voidToTop_spell]
          simp only [eqType, Ty.norm, Ty.spell, spellAll_eq, Ty.func.injEq, decide_eq_true_eq,
            hret, hlist ps']
          constructor
          · rintro ⟨h1, h2, h3, h4, h5⟩
            exact ⟨h4, h5, h2, h1, h3⟩
          · rintro ⟨h4, h5, h2, h1, h3⟩
            exact ⟨h1, h2, h3, h4, h5⟩
      | _ => simp [eqType, Ty.norm, Ty.spell]
  | ptr q t ih | ref t ih | ptrMem q c t ih | array n t ih =>
      intro t'
      simp only [Ty.norm] at ih
      cases t' <;> simp [eqType, Ty.norm, Ty.spell, Ident.map_id, ih]
  | compound q c =>
      intro t'
      cases t' <;> simp [eqType, Ty.norm, Ty.spell, Ident.map_id]
  | _ =>
      intro t'
      cases t' <;> simp [eqType, Ty.norm, Ty.spell]

theorem eqTypes_iff [DecidableEq ν] (ps ps' : List (Ty ν)) :
    eqTypes ps ps' = true ↔ ps.map Ty.norm = ps'.map Ty.norm :=
  eqTypes_iff_of (fun p _ => eqType_iff p) ps'

theorem Ident.map_map {κ : Type} (f : ν → μ) (g : μ → κ) (c : Ident ν) :
    (c.map f).map g = c.map (g ∘ f) := by
  induction c with
  | top nm => rfl
  | mem p nm ih => rw [Ident.map, Ident.map, ih]; rfl

theorem spell_voidToTop (f : ν → μ) (t : Ty ν) :
    voidToTop ((voidToTop t).spell f) = voidToTop (t.spell f) := by
  cases t <;> rfl

theorem spell_spell {κ : Type} (f : ν → μ) (g : μ → κ) (t : Ty ν) :
    (t.spell f).spell g = t.spell (g ∘ f) := by
  induction t with
  | func q c ps ell r hps hr =>
      have hmap : ps.map (Ty.spell g ∘ Ty.spell f) = ps.map (Ty.spell (g ∘ f)) :=
        List.map_congr_left hps
      simp only [Ty.spell, spellAll_eq, List.map_map, spell_voidToTop, hr, hmap]
  | ptr q t ih | ref t ih | array n t ih => simp only [Ty.spell, ih]
  | ptrMem q c t ih => simp only [Ty.spell, Ident.map_map, ih]
  | compound q c => simp only [Ty.spell, Ident.map_map]
  | _ => rfl

theorem spell_congr {f : ν → μ} {t t' : Ty ν} (h : t.norm = t'.norm) : t.spell f = t'.spell f := by
  have hnorm : ∀ s : Ty ν, s.norm.spell f = s.spell f := fun s => spell_spell id f s
  rw [← hnorm t, h, hnorm]

/-! ## Well-formed types -/

mutual

/-- `P` holds of a type and of all its parts. -/
def Ty.All (P : Ty ν → Prop) : Ty ν → Prop
  | .ptr q t => P (.ptr q t) ∧ t.All P
  | .ref t => P (.ref t) ∧ t.All P
  | .ptrMem q c t => P (.ptrMem q c t) ∧ t.All P
  | .func q c ps ell r => P (.func q c ps ell r) ∧ allParams P ps ∧ r.All P
  | .array n t => P (.array n t) ∧ t.All P
  | t => P t

def allParams (P : Ty ν → Prop) : List (Ty ν) → Prop
  | [] => True
  | t :: ts => t.All P ∧ allParams P ts

end

theorem allParams_iff {P : Ty ν → Prop} {ts : List (Ty ν)} :
    allParams P ts ↔ ∀ t ∈ ts, t.All P := by
  induction ts with
  | nil => simp [allParams]
  | cons t ts ih => simp [allParams, ih]

theorem Ty.All.self {P : Ty ν → Prop} {t : Ty ν} (h : t.All P) : P t := by
  cases t with
  | ptr | ref | ptrMem | func | array => exact h.1
  | _ => exact h

/-- The names of a class and of the scopes that it lies in. -/
def Ident.names : Ident ν → List ν
  | .top nm => [nm]
  | .mem p nm => nm :: p.names

mutual

/-- The names in a type. -/
def Ty.names : Ty ν → List ν
  | .integer .. | .top _ | .bottom _ | .error => []
  | .ptr _ t | .ref t | .array _ t => t.names
  | .ptrMem _ c t => c.names ++ t.names
  | .func _ _ ps _ r => namesAll ps ++ r.names
  | .compound _ c => c.names

def namesAll : List (Ty ν) → List ν
  | [] => []
  | t :: ts => t.names ++ namesAll ts

end

/-- The text of a name. -/
def Hashid.text : Hashid → Text
  | .name s | .ename s => s

/-- A name is not empty and does not begin with a digit. -/
def IsName (nm : Hashid) : Prop := nm.text ≠ [] ∧ ∀ c ∈ nm.text.head?, c.isDigit = false

/-- The types of parameters: `make_param_decl` turns arrays and functions into pointers,
`make_func_type` deletes qualifiers, and `check_param_type` reports `void` and `bottom`. -/
@[grind =] def isParam : Ty ν → Bool
  | .integer q _ | .ptr q _ | .ptrMem q _ _ | .compound q _ => q = .none
  | .ref _ => true
  | .top _ | .bottom _ | .func .. | .array .. | .error => false

/-- A type whose parts have been formed: functions of types of parameters, and classes with
names. -/
def WfHere : Ty Hashid → Prop
  | .ptrMem _ c _ | .compound _ c => ∀ nm ∈ c.names, IsName nm
  | .func _ _ ps _ _ => ∀ p ∈ ps, isParam p = true
  | .error => False
  | _ => True

/-- A well-formed type. -/
def Ty.Wf (t : Ty Hashid) : Prop := t.All WfHere

theorem IsName.mangled {nm : Hashid} (h : IsName nm) :
    ∃ c s, mangleHashid nm = c :: s ∧ c.isDigit = false := by
  cases nm with
  | name s =>
      cases s with
      | nil => exact absurd rfl h.1
      | cons c s => exact ⟨c, s, rfl, h.2 c rfl⟩
  | ename s =>
      cases s with
      | nil => exact absurd rfl h.1
      | cons c s =>
          by_cases hc : c = '\\'
          · subst hc
            cases s with
            | nil => exact ⟨'_', ['_', 'k'], rfl, by decide⟩
            | cons d s => exact ⟨'_', _, rfl, by decide⟩
          · refine ⟨c, mangleEname s, ?_, h.2 c rfl⟩
            rw [mangleHashid, mangleEname]
            · exact fun h _ => hc h
            · exact fun _ _ h _ => hc h

/-! ## Types with the same spelling -/

theorem Ident.map_inj {f : ν → μ} {c c' : Ident ν}
    (h : ∀ a ∈ c.names, ∀ b ∈ c'.names, f a = f b → a = b) (heq : c.map f = c'.map f) :
    c = c' := by
  induction c generalizing c' with
  | top nm =>
      cases c' with
      | top nm' =>
          rw [h nm (List.mem_singleton_self _) nm' (List.mem_singleton_self _)
            (Ident.top.inj heq)]
      | mem p' nm' => cases heq
  | mem p nm ih =>
      cases c' with
      | top nm' => cases heq
      | mem p' nm' =>
          obtain ⟨hp, hnm⟩ := Ident.mem.inj heq
          rw [h nm (List.mem_cons_self ..) nm' (List.mem_cons_self ..) hnm,
            ih (fun a ha b hb => h a (List.mem_cons_of_mem _ ha) b (List.mem_cons_of_mem _ hb)) hp]

theorem map_norm_of_spell {f : ν → μ} {ps : List (Ty ν)}
    (ih : ∀ p ∈ ps, ∀ t' : Ty ν, (∀ a ∈ p.names, ∀ b ∈ t'.names, f a = f b → a = b) →
      p.spell f = t'.spell f → p.norm = t'.norm) :
    ∀ ps' : List (Ty ν), (∀ a ∈ namesAll ps, ∀ b ∈ namesAll ps', f a = f b → a = b) →
      ps.map (Ty.spell f) = ps'.map (Ty.spell f) → ps.map Ty.norm = ps'.map Ty.norm := by
  induction ps with
  | nil =>
      intro ps' _ heq
      rw [List.map_nil, List.map_eq_nil_iff.1 heq.symm, List.map_nil]
  | cons p ps ihs =>
      intro ps' h heq
      cases ps' with
      | nil => cases heq
      | cons p' ps' =>
          obtain ⟨hp, hps⟩ := List.cons.inj heq
          rw [List.map_cons, List.map_cons, ih p (List.mem_cons_self ..) p' ?_ hp,
            ihs (fun x hx => ih x (List.mem_cons_of_mem _ hx)) ps' ?_ hps]
          · exact fun a ha b hb =>
              h a (List.mem_append_right _ ha) b (List.mem_append_right _ hb)
          · exact fun a ha b hb =>
              h a (List.mem_append_left _ ha) b (List.mem_append_left _ hb)

/-- Types whose names are told apart by `f` have the same normal form if they have the same
spelling. -/
theorem norm_of_spell [DecidableEq ν] {f : ν → μ} {t : Ty ν} : ∀ t' : Ty ν,
    (∀ a ∈ t.names, ∀ b ∈ t'.names, f a = f b → a = b) → t.spell f = t'.spell f →
    t.norm = t'.norm := by
  induction t with
  | func q c ps ell r hps hr =>
      intro t' h heq
      cases t' with
      | func q' c' ps' ell' r' =>
          simp only [Ty.spell, spellAll_eq, Ty.func.injEq] at heq
          obtain ⟨rfl, rfl, hpar, rfl, hret⟩ := heq
          have hparams := map_norm_of_spell hps ps'
            (fun a ha b hb => h a (List.mem_append_left _ ha) b (List.mem_append_left _ hb)) hpar
          have hvoid : voidToTop r.norm = voidToTop r'.norm :=
            (voidToTop_spell id r r').2 <| ((voidToTop_spell f r r').1 hret).imp_left <| hr r'
              fun a ha b hb => h a (List.mem_append_right _ ha) b (List.mem_append_right _ hb)
          show Ty.func q c (spellAll id ps) ell _ = Ty.func q c (spellAll id ps') ell _
          rw [spellAll_eq, spellAll_eq]
          exact congrArg₂ (fun l t => Ty.func q c l ell t) hparams hvoid
      | _ => simp [Ty.spell] at heq
  | ptr q t ih =>
      intro t' h heq
      cases t' with
      | ptr q' t' =>
          obtain ⟨rfl, ht⟩ := Ty.ptr.inj heq
          exact congrArg (Ty.ptr q) (ih t' h ht)
      | _ => simp [Ty.spell] at heq
  | ref t ih =>
      intro t' h heq
      cases t' with
      | ref t' => exact congrArg Ty.ref (ih t' h (Ty.ref.inj heq))
      | _ => simp [Ty.spell] at heq
  | array n t ih =>
      intro t' h heq
      cases t' with
      | array n' t' =>
          obtain ⟨rfl, ht⟩ := Ty.array.inj heq
          exact congrArg (Ty.array n) (ih t' h ht)
      | _ => simp [Ty.spell] at heq
  | ptrMem q c t ih =>
      intro t' h heq
      cases t' with
      | ptrMem q' c' t' =>
          obtain ⟨rfl, hc, ht⟩ := Ty.ptrMem.inj heq
          have hclass := Ident.map_inj
            (fun a ha b hb => h a (List.mem_append_left _ ha) b (List.mem_append_left _ hb)) hc
          have hsub := ih t'
            (fun a ha b hb => h a (List.mem_append_right _ ha) b (List.mem_append_right _ hb)) ht
          rw [hclass]
          exact congrArg (Ty.ptrMem q (c'.map id)) hsub
      | _ => simp [Ty.spell] at heq
  | compound q c =>
      intro t' h heq
      cases t' with
      | compound q' c' =>
          obtain ⟨rfl, hc⟩ := Ty.compound.inj heq
          rw [Ident.map_inj h hc]
      | _ => simp [Ty.spell] at heq
  | _ =>
      intro t' _ heq
      cases t' <;> simp_all [Ty.spell, Ty.norm]

end Tendra.Ref.Tdfc
