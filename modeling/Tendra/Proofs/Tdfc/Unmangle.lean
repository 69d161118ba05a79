import Tendra.Proofs.Tdfc.Params

/-!
# Unmangling what `mangle_type` has written

Where the text is read back: the reader takes all the digits that come, and a separator
behind them, for the position of a parameter; it counts a qualified name in elements,
where the writer counts each of its scopes again; and it takes `__k` and `__K` in a name
for a universal character.
-/

namespace Tendra.Ref.Tdfc

variable {c : Ident Hashid} {ν : Type} {r : Ty Hashid} {out : Text}

variable {s : Text} {ch : Char} {n : Nat} {t : Ty Hashid} {p q ps : List (Ty Hashid)}

/-! ## Numbers -/

theorem ofDigitChars_mod (ds : Text) (a : Nat) :
    Nat.ofDigitChars 10 ds (a % 4294967296) % 4294967296 =
      Nat.ofDigitChars 10 ds a % 4294967296 := by
  rw [Nat.ofDigitChars_eq_ofDigitChars_zero, @Nat.ofDigitChars_eq_ofDigitChars_zero _ a,
    Nat.add_mod, Nat.mul_mod, Nat.mod_mod, ← Nat.mul_mod, ← Nat.add_mod]

theorem unmangleDigits_eq {ds : Text} (hds : ∀ c ∈ ds, c.isDigit = true) (hs : Numeral.Ends s) :
    ∀ a < 4294967296,
    unmangleDigits a (ds ++ s) = (Nat.ofDigitChars 10 ds a % 4294967296, s) := by
  induction ds with
  | nil =>
      intro a ha
      rw [List.nil_append, Nat.ofDigitChars_nil, Nat.mod_eq_of_lt ha]
      cases s with
      | nil => rfl
      | cons c s => rw [unmangleDigits,
          if_neg (by rw [Numeral.ends_cons.1 hs]; exact Bool.false_ne_true)]
  | cons c ds ih =>
      intro a _
      rw [List.cons_append, unmangleDigits, if_pos (hds c (List.mem_cons_self ..)),
        ih (fun d hd => hds d (List.mem_cons_of_mem _ hd)) _ (Nat.mod_lt _ (by decide)),
        ofDigitChars_mod, Nat.ofDigitChars_cons]

theorem unmangleDigits_toDigits (hn : n < 4294967296) (hs : Numeral.Ends s) :
    unmangleDigits 0 (Nat.toDigits 10 n ++ s) = (n, s) := by
  rw [unmangleDigits_eq (fun _ => Numeral.isDigit_of_mem) hs 0 (by decide),
    Nat.ofDigitChars_ten_toDigits, Nat.mod_eq_of_lt hn]

/-- A number that a separator follows. -/
theorem unmangleNo_sep (hn : n < 4294967296) (s : Text) :
    unmangleNo (Nat.toDigits 10 n ++ '_' :: s) true = (n, s) := by
  rw [unmangleNo, unmangleDigits_toDigits hn (Numeral.ends_cons.2 (by decide))]
  rfl

/-- A number that neither a digit nor a separator follows. -/
theorem unmangleNo_ends (hn : n < 4294967296) (hs : Numeral.Ends s) (hsep : ∀ s', s ≠ '_' :: s')
    (e : Bool) : unmangleNo (Nat.toDigits 10 n ++ s) e = (n, s) := by
  rw [unmangleNo, unmangleDigits_toDigits hn hs]
  cases s with
  | nil => rfl
  | cons c s =>
      by_cases hc : c = '_'
      · exact absurd (by rw [hc]) (hsep s)
      · split
        · rename_i heq
          simp only [Prod.mk.injEq, List.cons.injEq] at heq
          exact absurd heq.2.1 hc
        · rename_i heq
          exact heq.symm

theorem unmangleDigit_eq (hn : n < 4294967296) (s : Text) :
    unmangleDigit (mangleNumber n 2 ++ s) = (n, s) := by
  by_cases h : n < 10
  · obtain ⟨c, hc, hdig, hval⟩ := Numeral.toDigits_lt_ten h
    have hne : c ≠ '_' := by
      rintro rfl
      exact absurd hdig (by decide)
    rw [mangleNumber, if_pos h, hc, List.singleton_append, unmangleDigit, if_pos hdig, hval]
    exact hne
  · have htext : mangleNumber n 2 ++ s = '_' :: (Nat.toDigits 10 n ++ '_' :: s) := by
      simp [mangleNumber, h]
    rw [htext, unmangleDigit, unmangleNo_sep hn]

/-- The position after a multiple reference. -/
theorem unmangleNo_position (hn : n < 4294967296)
    (hs : n < 10 → Numeral.Ends s ∧ ∀ s', s ≠ '_' :: s') :
    unmangleNo (mangleNumber n 1 ++ s) true = (n, s) := by
  by_cases h : n < 10
  · rw [mangleNumber, if_pos h]
    exact unmangleNo_ends hn (hs h).1 (hs h).2 true
  · have htext : mangleNumber n 1 ++ s = Nat.toDigits 10 n ++ '_' :: s := by
      simp [mangleNumber, h]
    rw [htext, unmangleNo_sep hn]

theorem unmangleNatDigits_eq {ds : Text} (hds : ∀ c ∈ ds, c.isDigit = true) : ∀ a,
    unmangleNatDigits a (ds ++ '_' :: s) = (Nat.ofDigitChars 10 ds a, s) := by
  induction ds with
  | nil =>
      intro a
      rfl
  | cons c ds ih =>
      intro a
      rw [List.cons_append, unmangleNatDigits, if_pos (hds c (List.mem_cons_self ..)),
        ih (fun d hd => hds d (List.mem_cons_of_mem _ hd)), Nat.ofDigitChars_cons]

/-- The bound of an array, if it fits into two digits of 16 bits. -/
theorem unmangleNat_eq {n : Option Nat} (hn : ∀ k, n = some k → k < 4294967296) (s : Text) :
    unmangleNat (mangleNat n ++ s) = some (n, s) := by
  cases n with
  | none => rfl
  | some n =>
      have htext : mangleNat (some n) ++ s = Nat.toDigits 10 n ++ '_' :: s := by
        simp [mangleNat, hn n rfl, mangleNumber_zero]
      obtain ⟨c, t, hct, hc⟩ := Numeral.exists_digit n
      have hne : ∀ d : Char, d.isDigit = false → c ≠ d := by
        rintro d hd rfl
        rw [hd] at hc
        cases hc
      have hread : unmangleNatDigits 0 (c :: (t ++ '_' :: s)) = (n, s) := by
        rw [← List.cons_append, ← hct, unmangleNatDigits_eq fun _ => Numeral.isDigit_of_mem,
          Nat.ofDigitChars_ten_toDigits]
      have hforms : ¬(c = 'h' ∨ c = 'o' ∨ c = 'm') := by
        rintro (h | h | h)
        · exact hne 'h' (by decide) h
        · exact hne 'o' (by decide) h
        · exact hne 'm' (by decide) h
      rw [htext, hct, List.cons_append, unmangleNat, if_neg hforms, if_pos hc, hread]
      exact hne '_' (by decide)

/-! ## Names -/

/-- A simple name whose text is not taken for one with universal characters. -/
def ReadableName (nm : Hashid) : Prop :=
  ∃ s : Text, nm = .name s ∧ s.length < 4294967296 ∧
    ∀ a b c, s = a ++ '_' :: '_' :: c :: b → c ≠ 'k' ∧ c ≠ 'K'

/-- What may come after a name. -/
def Follows (s : Text) : Prop := ∀ c t, c = 'k' ∨ c = 'K' → s ≠ c :: t ∧ s ≠ '_' :: c :: t

theorem unmangleName_eq (hs : Follows s) : ∀ (p : Text),
    (∀ a b c, p = a ++ '_' :: '_' :: c :: b → c ≠ 'k' ∧ c ≠ 'K') →
    unmangleName p.length (p ++ s) = (p, false, s) := by
  intro p
  induction p with
  | nil => exact fun _ => rfl
  | cons c p ih =>
      intro h
      have hrest := ih fun a b d hp => h (c :: a) b d (by rw [hp]; rfl)
      have hno : ∀ d t, d = 'k' ∨ d = 'K' → c = '_' → p ++ s ≠ '_' :: d :: t := by
        intro d t hd hc heq
        match p, heq with
        | [], heq => exact (hs d t hd).2 heq
        | [a], heq =>
            obtain ⟨rfl, htail⟩ := List.cons.inj heq
            exact (hs d t hd).1 htail
        | a :: b :: p, heq =>
            obtain ⟨rfl, htail⟩ := List.cons.inj heq
            obtain ⟨rfl, _⟩ := List.cons.inj htail
            have hne := h [] p b (by rw [hc]; rfl)
            exact hd.elim hne.1 hne.2
      rw [List.cons_append, List.length_cons, unmangleName, hrest]
      · exact fun t hc heq => hno 'k' t (.inl rfl) hc heq
      · exact fun t hc heq => hno 'K' t (.inr rfl) hc heq

/-- A name and its length. -/
theorem unmangleNspace_top {nm : Hashid} (hname : IsName nm) (hread : ReadableName nm)
    (hs : Follows s) (ns : Option (Ident Hashid)) (fuel : Nat) :
    unmangleNspace (fuel + 1) (Nat.toDigits 10 (mangleHashid nm).length ++ mangleHashid nm ++ s)
      ns = some (some (makeClass ns nm), s) := by
  obtain ⟨p, rfl, hlen, hucn⟩ := hread
  obtain ⟨c, t, htext, hc⟩ := hname.mangled
  have htext' : p = c :: t := htext
  obtain ⟨d, u, hdu, hd⟩ := Numeral.exists_digit p.length
  have hpos : p.length ≠ 0 := by
    rw [htext']
    exact Nat.succ_ne_zero _
  have hno : unmangleNo (d :: (u ++ (p ++ s))) false = (p.length, p ++ s) := by
    rw [← List.cons_append, ← hdu]
    by_cases hsep : ∃ s', p ++ s = '_' :: s'
    · obtain ⟨s', hs'⟩ := hsep
      rw [hs', unmangleNo, unmangleDigits_toDigits hlen (Numeral.ends_cons.2 (by decide))]
      rfl
    · refine unmangleNo_ends hlen ?_ (fun s' h => hsep ⟨s', h⟩) false
      rw [htext']
      exact Numeral.ends_cons.2 hc
  show unmangleNspace (fuel + 1) (Nat.toDigits 10 p.length ++ p ++ s) ns = _
  rw [List.append_assoc, hdu, List.cons_append, unmangleNspace, if_pos hd, hno]
  simp only [hpos, if_false, unmangleName_eq hs p hucn]
  rfl

/-! ## Classes -/

/-- A class that is read back: the one that is being defined, or one that is at most two deep and
does not lie in it. -/
def ReadableClass (crt : Option (Ident Hashid)) (c : Ident Hashid) : Prop :=
  crt = some c ∨
    match c with
    | .top nm => ReadableName nm
    | .mem (.top p) nm => crt ≠ some (.top p) ∧ ReadableName p ∧ ReadableName nm
    | .mem (.mem _ _) _ => False

theorem follows_digit {c : Char} (h : c.isDigit = true) : Follows (c :: s) := by
  intro d t hd
  refine ⟨fun heq => ?_, fun heq => ?_⟩
  · rw [(List.cons.inj heq).1] at h
    rcases hd with rfl | rfl <;> exact absurd h (by decide)
  · rw [(List.cons.inj heq).1] at h
    exact absurd h (by decide)

/-- A class that is not the one that is being defined. -/
theorem unmangleNspace_class {crt : Option (Ident Hashid)} (hnames : ∀ nm ∈ c.names, IsName nm)
    (hread : ReadableClass crt c) (hx : crt ≠ some c) (hs : Follows s) (fuel : Nat) :
    unmangleNspace (fuel + 2) (mangleCtype crt c ++ s) none = some (some c, s) := by
  have hread := hread.resolve_left hx
  match c, hnames, hread with
  | .top nm, hnames, hread =>
      rw [mangleCtype_top hx]
      exact unmangleNspace_top (hnames nm (List.mem_cons_self ..)) hread hs none (fuel + 1)
  | .mem (.top p) nm, hnames, ⟨hp, hpread, hread⟩ =>
      have hpname := hnames p (List.mem_cons_of_mem _ (List.mem_cons_self ..))
      have hname := hnames nm (List.mem_cons_self ..)
      obtain ⟨d, u, hdu, hd⟩ := Numeral.exists_digit (mangleHashid nm).length
      have hfollow : Follows
          (Nat.toDigits 10 (mangleHashid nm).length ++ mangleHashid nm ++ s) := by
        rw [hdu]
        exact follows_digit hd
      have hfirst := unmangleNspace_top hpname hpread hfollow none fuel
      have hsecond := unmangleNspace_top hname hread hs (some (.top p)) fuel
      have htwo : unmangleDigit (mangleNumber 2 2 ++ (Nat.toDigits 10 (mangleHashid p).length ++
          mangleHashid p ++ (Nat.toDigits 10 (mangleHashid nm).length ++ mangleHashid nm ++ s))) =
          (2, _) := unmangleDigit_eq (by decide) _
      rw [mangleCtype_mem hx, mangleCtype_top hp]
      simp only [List.cons_append, List.append_assoc] at hfirst hsecond htwo ⊢
      rw [unmangleNspace, if_neg (by decide), if_pos rfl]
      have hor : (some (Ident.top p) <|> (none : Option (Ident Hashid))) = some (.top p) := rfl
      simp only [identDepth, htwo, unmangleQual, hfirst, makeClass, hor, hsecond, bind, Option.bind]

/-! ## Types -/

/-- The parameters of a function type can be read back: a run that refers to one of the first nine
is not the end of the list, unless there is an ellipsis, and no class that is written by its name
comes next. -/
def Closed (crt : Option (Ident Hashid)) (ps : List (Ty Hashid)) (ell : Bool) : Prop :=
  ps.length < 4294967296 ∧
  ∀ pre r rs post n, ps = pre ++ (r :: rs ++ post) → Run pre r rs post n → n < 10 →
    (post = [] → ell = true) ∧
    ∀ nm, post.head? = some (.compound .none (.top nm)) → crt = some (.top nm)

/-- What a type that is read back consists of. -/
def ReadableHere (crt : Option (Ident Hashid)) : Ty Hashid → Prop
  | .func _ c ps ell _ => c = false ∧ Closed crt ps ell
  | .array n _ => ∀ k, n = some k → k < 4294967296
  | .ptrMem _ c _ | .compound _ c => ReadableClass crt c
  | _ => True

/-- A type is read back, up to `eq_type`. -/
def Unmangles (crt : Option (Ident Hashid)) (t : Ty Hashid) : Prop :=
  ∀ (fuel : Nat) (s : Text), Follows s → (mangleType crt t 2 true).length + 2 < fuel →
    ∃ t', unmangleType crt fuel (mangleType crt t 2 true ++ s) .none .none = some (t', s) ∧
      t'.norm = t.norm

section

variable (crt : Option (Ident Hashid))

theorem unmangleType_cv (q : Cv) (fuel : Nat) (s : Text) :
    unmangleType crt (fuel + (mangleCv q false).length) (mangleCv q false ++ s) .none .none =
      unmangleType crt fuel s q .none := by
  obtain ⟨a, b⟩ := q
  cases a <;> cases b <;> rfl

theorem qualified_integer (q : Cv) (n : Ntype) :
    qualified q (.integer .none n) = .integer q n := by
  unfold qualified
  split
  · rename_i h
    rw [h]
  · rfl

theorem qualified_compound (q : Cv) (c : Ident Hashid) :
    qualified q (.compound .none c) = .compound q c := by
  unfold qualified
  split
  · rename_i h
    rw [h]
  · rfl

theorem unmangleType_ntype (q : Cv) (n : Ntype) (fuel : Nat) (s : Text) :
    unmangleType crt (fuel + 2) (mangleNtype n ++ s) q .none = some (.integer q n, s) := by
  rw [← qualified_integer q n]
  cases n <;> rfl

theorem unmangleType_other (hch : ch = 'Q' ∨ ch.isDigit = true) (q : Cv) (fuel : Nat) {s' : Text}
    (h : unmangleNspace fuel (ch :: s) none = some (some c, s')) :
    unmangleType crt (fuel + 1) (ch :: s) q .none = some (.compound q c, s') := by
  have hne : ∀ d : Char, ¬(d = 'Q' ∨ d.isDigit = true) → ch ≠ d := by
    rintro d hd rfl
    exact hd hch
  have hany : (ch :: s).head?.any (fun c => c.isDigit || c == 'Q') = true := by
    rcases hch with rfl | hd
    · rfl
    · simp [hd]
  rw [unmangleType]
  · rw [if_pos hany, h]
    simp only [bind, Option.bind, pure, qualified_compound]
  all_goals
    intro _ hcs
    exact hne _ (by decide) (List.cons.inj hcs).1

theorem unmangleType_class (hnames : ∀ nm ∈ c.names, IsName nm) (hread : ReadableClass crt c)
    (hs : Follows s) (q : Cv) (fuel : Nat) :
    unmangleType crt (fuel + 3) (mangleCtype crt c ++ s) q .none = some (.compound q c, s) := by
  by_cases hx : crt = some c
  · subst hx
    rw [mangleCtype, if_pos rfl, List.singleton_append, unmangleType]
    simp only [qualified_compound]
  · have hclass := unmangleNspace_class hnames hread hx hs fuel
    rcases mangleCtype_head crt c with ⟨ch, u, hu, rfl | rfl⟩ | ⟨nm, rfl, _⟩
    · have hself : mangleCtype crt c ≠ 'X' :: u := by
        intro h
        cases c with
        | top nm =>
            obtain ⟨d, v, hv, hd⟩ := Numeral.exists_digit (mangleHashid nm).length
            rw [mangleCtype_top hx, hv] at h
            rw [(List.cons.inj h).1] at hd
            exact absurd hd (by decide)
        | mem p nm =>
            rw [mangleCtype_mem hx] at h
            exact absurd (List.cons.inj h).1 (by decide)
      exact absurd hu hself
    · rw [hu, List.cons_append] at hclass ⊢
      exact unmangleType_other crt (.inl rfl) q (fuel + 2) hclass
    · obtain ⟨d, u, hdu, hd⟩ := Numeral.exists_digit (mangleHashid nm).length
      rw [mangleCtype_top hx, hdu, List.cons_append, List.cons_append] at hclass ⊢
      exact unmangleType_other crt (.inr hd) q (fuel + 2) hclass

end

/-! ## Parameters -/

theorem isParam_congr {t t' : Ty ν} (h : t.norm = t'.norm) : isParam t = isParam t' := by
  cases t <;> cases t' <;> simp_all [Ty.norm, Ty.spell, isParam]

theorem makeParamType_eq {t : Ty ν} (h : isParam t = true) : makeParamType t = t := by
  cases t <;> simp_all [isParam, makeParamType]

theorem deleteQual_eq {t : Ty ν} (h : isParam t = true) : deleteQual t = t := by
  cases t <;> simp_all [isParam, deleteQual]

theorem funcParams_eq {ps : List (Ty ν)} (h : ∀ p ∈ ps, isParam p = true) (ell : Bool) :
    funcParams ps ell = ps := by
  have hmap : ps.map deleteQual = ps :=
    (List.map_congr_left fun p hp => deleteQual_eq (h p hp)).trans (List.map_id ps)
  rw [funcParams, hmap]
  split
  · exact absurd (h _ (List.mem_cons_self ..)) (by simp [isParam])
  · rfl

theorem isError_eq {t : Ty ν} (h : isParam t = true) : isError t = false := by
  cases t <;> simp_all [isParam, isError]

theorem follows_cons (h : ch ≠ 'k' ∧ ch ≠ 'K' ∧ ch ≠ '_') : Follows (ch :: s) := by
  intro d t hd
  refine ⟨fun heq => ?_, fun heq => h.2.2 (List.cons.inj heq).1⟩
  rw [← (List.cons.inj heq).1] at hd
  exact hd.elim h.1 h.2.1

theorem follows_sep (h : ch ≠ 'k' ∧ ch ≠ 'K') : Follows ('_' :: ch :: s) := by
  intro d t hd
  refine ⟨fun heq => ?_, fun heq => ?_⟩
  · rw [← (List.cons.inj heq).1] at hd
    exact absurd hd (by decide)
  · have htail := (List.cons.inj heq).2
    rw [← (List.cons.inj htail).1] at hd
    exact hd.elim h.1 h.2

/-- What a text of parameters begins with. -/
theorem ne_of_packed (h : ch ∈ paramHeads ∨ ch.isDigit = true ∨ ch = 'T' ∨ ch = 'N') :
    ch ≠ 'k' ∧ ch ≠ 'K' ∧ ch ≠ '_' := by
  refine ⟨?_, ?_, ?_⟩ <;> rintro rfl <;> exact absurd h (by decide)

section

variable {crt : Option (Ident Hashid)} {ps0 : List (Ty Hashid)} {ell : Bool}

/-- What comes after the parameters of a function: the ellipsis, or the return type. -/
def tailText (ell : Bool) (s : Text) : Text := (if ell then ['e'] else []) ++ '_' :: s

theorem follows_tail (h : Packed (fun t => mangleType crt t 2 true) p q out)
    (hq : ∀ r ∈ q, isParam r = true) (hs : Follows ('_' :: s)) :
    Follows (out ++ tailText ell s) := by
  by_cases hne : q = []
  · subst hne
    cases h
    cases ell with
    | true => exact follows_cons (by decide)
    | false => exact hs
  · obtain ⟨ch, u, rfl, hch⟩ := h.first hq hne
    exact follows_cons (ne_of_packed hch)

theorem unmangleParams_ty {s' : Text} (fuel : Nat) (h : ch ≠ 'e' ∧ ch ≠ 'T' ∧ ch ≠ 'N')
    (ht : unmangleType crt fuel (ch :: s) .none .none = some (t, s')) (hp : isParam t = true) :
    unmangleParams crt (fuel + 1) (ch :: s) ps = unmangleParams crt fuel s' (ps ++ [t]) := by
  obtain ⟨he, hT, hN⟩ := h
  rw [unmangleParams]
  · rw [ht]
    simp only [bind, Option.bind, isError_eq hp, makeParamType_eq hp, Bool.false_eq_true, if_false]
  · exact fun h => by cases h
  · exact fun _ h => he (List.cons.inj h).1
  · exact fun _ h => hT (List.cons.inj h).1
  · exact fun _ h => hN (List.cons.inj h).1

theorem unmangleParams_end (fuel : Nat) (s : Text) (ps : List (Ty Hashid)) :
    unmangleParams crt (fuel + 2) ('_' :: s) ps = some (ps, false, '_' :: s) := rfl

/-- A parameter before, found by its number. -/
theorem unmangleParam_eq {r1 : Ty Hashid} (hn : 0 < n) (hps : ps.map Ty.norm = p.map Ty.norm)
    (hr1 : p[n - 1]? = some r1) (heq : eqType r1 r = true) (hr : isParam r = true) :
    (makeParamType (unmangleParam n ps)).norm = r.norm := by
  have hk : (ps.map Ty.norm)[n - 1]? = some r1.norm := by
    rw [hps, List.getElem?_map, hr1]
    rfl
  rw [List.getElem?_map, Option.map_eq_some_iff] at hk
  obtain ⟨t, ht, hnorm⟩ := hk
  have hval : unmangleParam n ps = t := by
    rw [unmangleParam, if_neg (Nat.pos_iff_ne_zero.1 hn), List.getD_eq_getElem?_getD, ht,
      Option.getD_some]
  have hnorm' : t.norm = r.norm := hnorm.trans ((eqType_iff r1 r).1 heq)
  rw [hval, makeParamType_eq ((isParam_congr hnorm').trans hr), hnorm']

/-- Neither a digit nor a separator comes after the position of a multiple reference. -/
theorem Closed.ends (hclosed : Closed crt ps0 ell)
    (h : Packed (fun t => mangleType crt t 2 true) p q out) {pre rs : List (Ty Hashid)}
    (hps0 : ps0 = pre ++ (r :: rs ++ q)) (hrun : Run pre r rs q n) (hn : n < 10)
    (hq : ∀ r ∈ q, isParam r = true) (s : Text) :
    Numeral.Ends (out ++ tailText ell s) ∧ ∀ s', out ++ tailText ell s ≠ '_' :: s' := by
  obtain ⟨hend, hclass⟩ := hclosed.2 pre r rs q n hps0 hrun hn
  constructor
  · have htail : Numeral.Ends (tailText ell s) := by
      cases ell <;> exact Numeral.ends_cons.2 (by decide)
    rcases h.follow hq htail with hends | ⟨nm, q', u, rfl, hx, _⟩
    · exact hends
    · exact absurd (hclass nm rfl) hx
  · intro s' heq
    by_cases hne : q = []
    · subst hne
      cases h
      rw [hend rfl] at heq
      exact absurd (List.cons.inj heq).1 (by decide)
    · obtain ⟨ch, u, rfl, hch⟩ := h.first hq hne
      exact (ne_of_packed hch).2.2 (List.cons.inj heq).1

/-- The parameters are read back. -/
theorem unmangleParams_eq (hclosed : Closed crt ps0 ell)
    (h : Packed (fun t => mangleType crt t 2 true) p q out) :
    ps0 = p ++ q → (∀ r ∈ q, isParam r = true ∧ Unmangles crt r) →
    ∀ {ps : List (Ty Hashid)}, ps.map Ty.norm = p.map Ty.norm →
    ∀ s, Follows ('_' :: s) → ∀ fuel, out.length + 3 < fuel →
    ∃ ps', unmangleParams crt fuel (out ++ tailText ell s) ps = some (ps', ell, '_' :: s) ∧
      ps'.map Ty.norm = (p ++ q).map Ty.norm := by
  induction h with
  | nil =>
      intro _ _ ps hps s _ fuel hfuel
      obtain ⟨fuel, rfl⟩ : ∃ k, fuel = k + 2 := ⟨fuel - 2, by omega⟩
      refine ⟨ps, ?_, by rw [List.append_nil]; exact hps⟩
      cases ell with
      | true => rfl
      | false => exact unmangleParams_end fuel s ps
  | one hrest ih =>
      rename_i p r q out
      intro hp0 hq ps hps s hs fuel hfuel
      obtain ⟨fuel, rfl⟩ : ∃ k, fuel = k + 1 := ⟨fuel - 1, by omega⟩
      obtain ⟨hparam, hunm⟩ := hq r (List.mem_cons_self ..)
      have htail := fun x hx => hq x (List.mem_cons_of_mem r hx)
      obtain ⟨ch, t, htext, hch⟩ := param_first crt hparam
      have hpos : 0 < (mangleType crt r 2 true).length := by
        rw [htext]
        exact Nat.succ_pos _
      rw [List.length_append] at hfuel
      obtain ⟨r', hr', hnorm⟩ := hunm fuel (out ++ tailText ell s)
        (follows_tail hrest (fun x hx => (htail x hx).1) hs) (by omega)
      obtain ⟨ps', hps', hall⟩ := ih (by rw [hp0, List.append_assoc]; rfl) htail
        (show (ps ++ [r']).map Ty.norm = _ by simp [hps, hnorm]) s hs fuel (by omega)
      refine ⟨ps', ?_, by rw [hall, List.append_assoc]; rfl⟩
      have hne := ne_of_first hch
      rw [List.append_assoc, htext] at *
      rw [List.cons_append] at hr' ⊢
      rw [unmangleParams_ty fuel ⟨hne.2.1, hne.2.2.2⟩ hr' ((isParam_congr hnorm).trans hparam)]
      exact hps'
  | again hn hr1 heq hrest ih =>
      rename_i p r r1 q out n
      intro hp0 hq ps hps s hs fuel hfuel
      obtain ⟨fuel, rfl⟩ : ∃ k, fuel = k + 1 := ⟨fuel - 1, by omega⟩
      simp only [List.cons_append, List.length_cons, List.length_append] at hfuel
      have hparam := (hq r (List.mem_cons_self ..)).1
      have hlen := hclosed.1
      have hlt := (List.getElem?_eq_some_iff.1 hr1).1
      rw [hp0, List.length_append] at hlen
      obtain ⟨ps', hps', hall⟩ := ih (by rw [hp0, List.append_assoc]; rfl)
        (fun x hx => hq x (List.mem_cons_of_mem _ hx))
        (show (ps ++ [makeParamType (unmangleParam n ps)]).map Ty.norm = _ by
          rw [List.map_append, List.map_append, hps, List.map_singleton, List.map_singleton,
            unmangleParam_eq hn hps hr1 heq hparam])
        s hs fuel (by omega)
      refine ⟨ps', ?_, by rw [hall, List.append_assoc]; rfl⟩
      have hnum : unmangleDigit (mangleNumber n 2 ++ (out ++ tailText ell s)) = (n, _) :=
        unmangleDigit_eq (by omega) _
      simp only [List.cons_append, List.append_assoc, unmangleParams, hnum]
      exact hps'
  | run hrun hrest ih =>
      rename_i p r rs q out n
      intro hp0 hq ps hps s hs fuel hfuel
      obtain ⟨fuel, rfl⟩ : ∃ k, fuel = k + 1 := ⟨fuel - 1, by omega⟩
      simp only [List.cons_append, List.length_cons, List.length_append] at hfuel
      obtain ⟨r1, hr1, heq⟩ := hrun.match_eq
      have hparam := (hq r (List.mem_cons_self ..)).1
      have htail := fun x hx => hq x (List.mem_append_right (r :: rs) hx)
      have hlen := hclosed.1
      have hlt := (List.getElem?_eq_some_iff.1 hr1).1
      have hn := hrun.pos
      rw [hp0, List.length_append, List.length_append, List.length_cons] at hlen
      have hall : (List.replicate (rs.length + 1) (makeParamType (unmangleParam n ps))).map
          Ty.norm = (r :: rs).map Ty.norm := by
        rw [List.map_replicate, unmangleParam_eq hn hps hr1 heq hparam]
        refine (List.eq_replicate_iff.2 ⟨by simp, fun x hx => ?_⟩).symm
        obtain ⟨y, hy, rfl⟩ := List.mem_map.1 hx
        rcases List.mem_cons.1 hy with rfl | hy
        · rfl
        · exact ((eqType_iff r y).1 (hrun.same y hy)).symm
      obtain ⟨ps', hps', hread⟩ := ih (by rw [hp0, List.append_assoc]) htail
        (show (ps ++ List.replicate (rs.length + 1) (makeParamType (unmangleParam n ps))).map
            Ty.norm = _ by rw [List.map_append, List.map_append, hps, hall])
        s hs fuel (by omega)
      refine ⟨ps', ?_, by rw [hread, List.append_assoc]⟩
      have hnum : unmangleDigit (mangleNumber (rs.length + 1) 2 ++
          (mangleNumber n 1 ++ (out ++ tailText ell s))) = (rs.length + 1, _) :=
        unmangleDigit_eq (by omega) _
      have hpos : unmangleNo (mangleNumber n 1 ++ (out ++ tailText ell s)) true = (n, _) :=
        unmangleNo_position (by omega) fun hten =>
          hclosed.ends hrest hp0 hrun hten (fun x hx => (htail x hx).1) s
      simp only [List.cons_append, List.append_assoc, unmangleParams, hnum, hpos]
      exact hps'

theorem isParam_of_map {ps' : List (Ty Hashid)} (h : ps'.map Ty.norm = ps.map Ty.norm)
    (hps : ∀ p ∈ ps, isParam p = true) : ∀ p ∈ ps', isParam p = true := by
  intro p hp
  have hmem : p.norm ∈ ps.map Ty.norm := h ▸ List.mem_map_of_mem hp
  obtain ⟨x, hx, hnorm⟩ := List.mem_map.1 hmem
  rw [← isParam_congr hnorm]
  exact hps x hx

/-- What `unmangle_func` takes from the text of the parameters. -/
theorem unmangleParams_text (hclosed : Closed crt ps ell)
    (h : ∀ r ∈ ps, isParam r = true ∧ Unmangles crt r) (hs : Follows ('_' :: s)) {fuel : Nat}
    (hfuel : (paramsText crt ps ell).length + 3 < fuel) :
    ∃ ps', unmangleParams crt fuel (paramsText crt ps ell ++ '_' :: s) [] =
        some (ps', ell, '_' :: s) ∧ (funcParams ps' ell).map Ty.norm = ps.map Ty.norm := by
  by_cases hne : ps = []
  · subst hne
    obtain ⟨fuel, rfl⟩ : ∃ k, fuel = k + 3 := ⟨fuel - 3, by omega⟩
    cases ell with
    | true => exact ⟨[], rfl, rfl⟩
    | false =>
        refine ⟨[.top .none], ?_, rfl⟩
        exact @unmangleParams_end crt fuel s [.top .none]
  · obtain ⟨out, hpacked, htext⟩ := paramsText_packed crt hne ell
    rw [htext, List.length_append] at hfuel
    obtain ⟨ps', hread, hmap⟩ := unmangleParams_eq hclosed hpacked (List.nil_append ps).symm h
      (show [].map Ty.norm = _ from rfl) s hs fuel (by omega)
    refine ⟨ps', ?_, ?_⟩
    · rw [htext, List.append_assoc]
      exact hread
    · rw [funcParams_eq (isParam_of_map hmap fun p hp => (h p hp).1)]
      exact hmap

theorem paramsText_first (crt : Option (Ident Hashid)) (hps : ∀ p ∈ ps, isParam p = true)
    (ell : Bool) : ∃ ch s, paramsText crt ps ell = ch :: s ∧ ch ≠ 'C' ∧ ch ≠ 'V' ∧ ch ≠ 'L' := by
  by_cases hne : ps = []
  · subst hne
    cases ell with
    | true => exact ⟨'e', [], rfl, by decide⟩
    | false => exact ⟨'v', [], rfl, by decide⟩
  · obtain ⟨out, hpacked, htext⟩ := paramsText_packed crt hne ell
    obtain ⟨ch, s, rfl, hch⟩ := hpacked.first hps hne
    refine ⟨ch, _, htext, ?_, ?_, ?_⟩ <;> rintro rfl <;> exact absurd hch (by decide)

/-- A function type whose parameters and return type are read back. -/
theorem unmangleFunc_eq {q : Cv} {c : Bool} {s' : Text} {fuel : Nat}
    (hch : ch ≠ 'C' ∧ ch ≠ 'V' ∧ ch ≠ 'L')
    (hps : unmangleParams crt fuel (ch :: s) [] = some (ps, ell, '_' :: s')) {s'' : Text}
    (hr : unmangleType crt fuel s' .none .none = some (r, s'')) :
    unmangleFunc crt (fuel + 1) (ch :: s) q c =
    some (.func q c (funcParams ps ell) ell r, s'') := by
  obtain ⟨hC, hV, hL⟩ := hch
  rw [unmangleFunc]
  · simp only [hps, hr, bind, Option.bind, pure]
  · exact fun _ h => hC (List.cons.inj h).1
  · exact fun _ h => hV (List.cons.inj h).1
  · exact fun _ h => hL (List.cons.inj h).1

end

/-! ## Whole types -/

/-- No type begins with what would make the end of a name, or a separator, a universal character. -/
theorem mangleType_first (crt : Option (Ident Hashid)) (hwf : t.Wf) :
    ∃ ch s, mangleType crt t 2 true = ch :: s ∧ ch ≠ 'k' ∧ ch ≠ 'K' ∧ ch ≠ '_' := by
  have hcv : ∀ (q : Cv) (c : Bool) {s : Text} {ch : Char}, ch ≠ 'k' ∧ ch ≠ 'K' ∧ ch ≠ '_' →
      ∃ d u, mangleCv q c ++ ch :: s = d :: u ∧ d ≠ 'k' ∧ d ≠ 'K' ∧ d ≠ '_' := by
    rintro ⟨a, b⟩ c s ch hch
    cases a with
    | true => exact ⟨'C', _, rfl, by decide⟩
    | false =>
        cases b with
        | true => exact ⟨'V', _, rfl, by decide⟩
        | false =>
            cases c with
            | true => exact ⟨'L', _, rfl, by decide⟩
            | false => exact ⟨ch, s, rfl, hch⟩
  cases t with
  | integer q n =>
      rw [mangleType]
      cases n <;> exact hcv q false (by decide)
  | top q => exact hcv q false (by decide)
  | bottom q => exact hcv q false (by decide)
  | ptr q t => exact hcv q false (by decide)
  | ref t => exact ⟨'R', _, rfl, by decide⟩
  | ptrMem q c t =>
      rw [mangleType, List.append_assoc]
      exact hcv q false (by decide)
  | func q c ps ell r =>
      rw [mangleType_func_ret]
      exact hcv q c (by decide)
  | array n t => exact ⟨'A', _, rfl, by decide⟩
  | compound q c =>
      obtain ⟨ch, s, hs, hch⟩ := mangleCtype_first crt c
      rw [mangleType, hs]
      refine hcv q false ⟨?_, ?_, ?_⟩ <;> rintro rfl <;> exact absurd hch (by decide)
  | error => exact hwf.elim

theorem length_mangleType_pos (crt : Option (Ident Hashid)) (hwf : t.Wf) :
    0 < (mangleType crt t 2 true).length := by
  obtain ⟨ch, s, hs, _⟩ := mangleType_first crt hwf
  rw [hs]
  exact Nat.succ_pos _

theorem follows_type (crt : Option (Ident Hashid)) (hwf : t.Wf) (s : Text) :
    Follows (mangleType crt t 2 true ++ s) ∧ Follows ('_' :: (mangleType crt t 2 true ++ s)) := by
  obtain ⟨ch, u, hu, hk, hK, hsep⟩ := mangleType_first crt hwf
  rw [hu]
  exact ⟨follows_cons ⟨hk, hK, hsep⟩, follows_sep ⟨hk, hK⟩⟩

/-- Types are read back, if they consist of what can be. -/
theorem unmangles {crt : Option (Ident Hashid)} (hwf : t.Wf) (h : t.All (ReadableHere crt)) :
    Unmangles crt t := by
  induction t with
  | integer q n =>
      intro fuel s _ hfuel
      rw [mangleType, List.length_append] at hfuel
      obtain ⟨fuel, rfl⟩ : ∃ k, fuel = k + 2 + (mangleCv q false).length :=
        ⟨fuel - 2 - (mangleCv q false).length, by omega⟩
      refine ⟨.integer q n, ?_, rfl⟩
      rw [mangleType, List.append_assoc, unmangleType_cv, unmangleType_ntype]
  | top q =>
      intro fuel s _ hfuel
      rw [mangleType, List.length_append] at hfuel
      obtain ⟨fuel, rfl⟩ : ∃ k, fuel = k + 1 + (mangleCv q false).length :=
        ⟨fuel - 1 - (mangleCv q false).length, by omega⟩
      refine ⟨.top q, ?_, rfl⟩
      rw [mangleType, List.append_assoc, unmangleType_cv]
      obtain ⟨a, b⟩ := q
      cases a <;> cases b <;> rfl
  | bottom q =>
      intro fuel s _ hfuel
      rw [mangleType, List.length_append] at hfuel
      obtain ⟨fuel, rfl⟩ : ∃ k, fuel = k + 1 + (mangleCv q false).length :=
        ⟨fuel - 1 - (mangleCv q false).length, by omega⟩
      refine ⟨.bottom q, ?_, rfl⟩
      rw [mangleType, List.append_assoc, unmangleType_cv]
      obtain ⟨a, b⟩ := q
      cases a <;> cases b <;> rfl
  | ptr q t ih =>
      intro fuel s hs hfuel
      rw [mangleType, List.length_append, List.length_cons] at hfuel
      obtain ⟨fuel, rfl⟩ : ∃ k, fuel = k + 1 + (mangleCv q false).length :=
        ⟨fuel - 1 - (mangleCv q false).length, by omega⟩
      obtain ⟨t', ht', hnorm⟩ := ih hwf.2 h.2 fuel s hs (by omega)
      refine ⟨.ptr q t', ?_, congrArg (Ty.ptr q) hnorm⟩
      rw [mangleType, List.append_assoc, unmangleType_cv, List.cons_append, unmangleType]
      simp only [ht', bind, Option.bind, pure]
  | ref t ih =>
      intro fuel s hs hfuel
      rw [mangleType, List.length_cons] at hfuel
      obtain ⟨fuel, rfl⟩ : ∃ k, fuel = k + 1 := ⟨fuel - 1, by omega⟩
      obtain ⟨t', ht', hnorm⟩ := ih hwf.2 h.2 fuel s hs (by omega)
      refine ⟨.ref t', ?_, congrArg Ty.ref hnorm⟩
      rw [mangleType, List.cons_append, unmangleType]
      simp only [ht', bind, Option.bind, pure]
  | ptrMem q c t ih =>
      intro fuel s hs hfuel
      simp only [mangleType, List.length_append, List.length_cons] at hfuel
      have hcpos := length_mangleCtype_pos crt c
      have htpos := length_mangleType_pos crt hwf.2
      obtain ⟨fuel, rfl⟩ : ∃ k, fuel = k + 3 + 1 + (mangleCv q false).length :=
        ⟨fuel - 4 - (mangleCv q false).length, by omega⟩
      obtain ⟨t', ht', hnorm⟩ := ih hwf.2 h.2 (fuel + 3) s hs (by omega)
      have hc := unmangleType_class crt hwf.1 h.1 (follows_type crt hwf.2 s).1 .none fuel
      refine ⟨.ptrMem q c t', ?_, ?_⟩
      · simp only [mangleType, List.append_assoc, List.cons_append]
        rw [unmangleType_cv, unmangleType]
        simp only [hc, ht', bind, Option.bind, pure]
      · show Ty.ptrMem q (c.map id) t'.norm = Ty.ptrMem q (c.map id) t.norm
        rw [hnorm]
  | func q c ps ell r hps hr =>
      intro fuel s hs hfuel
      obtain ⟨hparam, hpwf, hrwf⟩ := hwf
      obtain ⟨⟨rfl, hclosed⟩, hpread, hrread⟩ := h
      rw [mangleType_func_ret] at hfuel ⊢
      simp only [List.length_append, List.length_cons] at hfuel
      obtain ⟨fuel, rfl⟩ : ∃ k, fuel = k + 1 + 1 + (mangleCv q false).length :=
        ⟨fuel - 2 - (mangleCv q false).length, by omega⟩
      have hparams : ∀ p ∈ ps, isParam p = true ∧ Unmangles crt p := fun p hp =>
        ⟨hparam p hp, hps p hp (allParams_iff.1 hpwf p hp) (allParams_iff.1 hpread p hp)⟩
      have hpos := length_mangleType_pos crt hrwf
      obtain ⟨ps', hps', hmap⟩ := unmangleParams_text hclosed hparams (follows_type crt hrwf s).2
        (show (paramsText crt ps ell).length + 3 < fuel by omega)
      obtain ⟨r', hr', hnorm⟩ := hr hrwf hrread fuel s hs (by omega)
      obtain ⟨ch, u, hu, hch⟩ := paramsText_first crt hparam ell
      refine ⟨.func q false (funcParams ps' ell) ell r', ?_, ?_⟩
      · simp only [List.append_assoc, List.cons_append]
        rw [unmangleType_cv, unmangleType]
        rw [hu, List.cons_append] at hps' ⊢
        exact unmangleFunc_eq hch hps' hr'
      · rw [Ty.norm, Ty.norm, Ty.spell, Ty.spell, spellAll_eq, spellAll_eq]
        have hret : r'.spell id = r.spell id := hnorm
        have hpar : (funcParams ps' ell).map (Ty.spell id) = ps.map (Ty.spell id) := hmap
        rw [hret, hpar]
  | array n t ih =>
      intro fuel s hs hfuel
      simp only [mangleType, if_true, List.length_append, List.length_cons] at hfuel
      obtain ⟨fuel, rfl⟩ : ∃ k, fuel = k + 1 := ⟨fuel - 1, by omega⟩
      obtain ⟨t', ht', hnorm⟩ := ih hwf.2 h.2 fuel s hs (by omega)
      refine ⟨.array n t', ?_, congrArg (Ty.array n) hnorm⟩
      simp only [mangleType, if_true, List.append_assoc, List.cons_append]
      rw [unmangleType, unmangleNat_eq h.1]
      simp only [ht', bind, Option.bind, pure]
  | compound q c =>
      intro fuel s hs hfuel
      have hpos := length_mangleCtype_pos crt c
      rw [mangleType, List.length_append] at hfuel
      obtain ⟨fuel, rfl⟩ : ∃ k, fuel = k + 3 + (mangleCv q false).length :=
        ⟨fuel - 3 - (mangleCv q false).length, by omega⟩
      refine ⟨.compound q c, ?_, rfl⟩
      rw [mangleType, List.append_assoc, unmangleType_cv, unmangleType_class crt hwf h hs]
  | error => exact hwf.elim

/-- The parameters of a function with an ellipsis, none of them a class outside all named
scopes. -/
theorem closed_ellipsis (crt : Option (Ident Hashid)) (hlen : ps.length < 4294967296)
    (h : ∀ nm, .compound .none (.top nm) ∉ ps) : Closed crt ps true := by
  refine ⟨hlen, fun pre r rs post n hps _ _ => ⟨fun _ => rfl, fun nm hnm => ?_⟩⟩
  refine absurd ?_ (h nm)
  rw [hps]
  exact List.mem_append_right _ (List.mem_append_right _ (List.mem_of_mem_head? hnm))

/-- A class `A::B`. -/
def classAB : Ident Hashid := .mem (.top (.name ['A'])) (.name ['B'])

/-- `double (*)(char *, char *, char *, A::B *, ...)`. -/
def funcAB : Ty Hashid :=
  .ptr .none (.func .none false
  [.ptr .none (.integer .none .char), .ptr .none (.integer .none .char),
    .ptr .none (.integer .none .char), .ptr .none (.compound .none classAB)] true
    (.integer .none .double))

/-- `void (*)(char *, char *, char *)`, whose text is `PFPcN21_v`: the separator before the return
type is taken for the end of the position 1, and `void` for one more parameter. -/
def threeChars : Ty Hashid :=
  .ptr .none (.func .none false [.ptr .none (.integer .none .char),
    .ptr .none (.integer .none .char), .ptr .none (.integer .none .char)] false (.top .none))

end Tendra.Ref.Tdfc
