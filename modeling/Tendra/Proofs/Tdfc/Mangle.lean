import Tendra.Proofs.Tdfc.Params

/-!
# The text of a signature determines the parameter types

A reader for mangled types, which knows where each form ends. It takes the digits after a
multiple reference for the whole position where they may be one, that is, where a separator
follows and there are as many parameters; so it goes wrong where a position of one digit
comes before a class whose name begins with the separator.
-/

namespace Tendra.Ref.Tdfc

variable {ps : List (Ty Hashid)} {s : Text} {ch : Char}

/-! ## The reader -/

/-- A number between separators, or of one digit. -/
def readNum : Text → Nat × Text
  | [] => (0, [])
  | c :: s =>
      if c = '_' then ((Numeral.read s).1, (Numeral.read s).2.drop 1)
      else (c.toNat - '0'.toNat, s)

/-- The position of a parameter, of which there are `len`. -/
def readPos (len : Nat) (s : Text) : Nat × Text :=
  if 2 ≤ (s.takeWhile Char.isDigit).length ∧ (Numeral.read s).2.head? = some '_' ∧
      (Numeral.read s).1 ≤ len then ((Numeral.read s).1, (Numeral.read s).2.drop 1)
  else ((s.headD '0').toNat - '0'.toNat, s.drop 1)

/-- A name with its length before it. -/
def readName (s : Text) : Text × Text :=
  ((Numeral.read s).2.take (Numeral.read s).1, (Numeral.read s).2.drop (Numeral.read s).1)

/-- An array bound. -/
def readNat : Text → Option Nat × Text
  | '_' :: s => (none, s)
  | '0' :: 'x' :: s =>
      (some (Numeral.hexValue (s.takeWhile (· != '_'))), (s.dropWhile (· != '_')).drop 1)
  | s => (some (Numeral.read s).1, (Numeral.read s).2.drop 1)

/-- One character, if it comes next. -/
def eat (ch : Char) : Text → Bool × Text
  | [] => (false, [])
  | c :: s => if c = ch then (true, s) else (false, c :: s)

/-- Qualifiers and the linkage. -/
def readCv (s : Text) : Cv × Bool × Text :=
  let (a, s) := eat 'C' s
  let (b, s) := eat 'V' s
  let (c, s) := eat 'L' s
  (⟨a, b⟩, c, s)

/-- A built-in type. -/
def readNtype : Text → Option (Ntype × Text)
  | 'c' :: s => some (.char, s)
  | 'S' :: 'c' :: s => some (.schar, s)
  | 'U' :: 'c' :: s => some (.uchar, s)
  | 's' :: s => some (.sshort, s)
  | 'U' :: 's' :: s => some (.ushort, s)
  | 'i' :: s => some (.sint, s)
  | 'U' :: 'i' :: s => some (.uint, s)
  | 'l' :: s => some (.slong, s)
  | 'U' :: 'l' :: s => some (.ulong, s)
  | 'x' :: s => some (.sllong, s)
  | 'U' :: 'x' :: s => some (.ullong, s)
  | 'f' :: s => some (.float, s)
  | 'd' :: s => some (.double, s)
  | 'r' :: s => some (.ldouble, s)
  | 'b' :: s => some (.bool, s)
  | 'y' :: s => some (.ptrdiff_t, s)
  | 'z' :: s => some (.size_t, s)
  | 'w' :: s => some (.wchar_t, s)
  | _ => none

section

variable (crt : Option (Ident Hashid))

/-- A class, by the mangled forms of its names. -/
def readCtype : Nat → Text → Option (Ident Text × Text)
  | 0, _ => none
  | _ + 1, 'X' :: s => crt.map fun c => (c.map mangleHashid, s)
  | fuel + 1, 'Q' :: s => do
      let (p, s) ← readCtype fuel (readNum s).2
      return (.mem p (readName s).1, (readName s).2)
  | _ + 1, s => some (.top (readName s).1, (readName s).2)

mutual

/-- A type. -/
def readTy : Nat → Text → Option (Ty Text × Text)
  | 0, _ => none
  | fuel + 1, s =>
      let (q, c, s) := readCv s
      match s with
      | 'v' :: s => some (.top q, s)
      | 'u' :: s => some (.bottom q, s)
      | 'P' :: s => do
          let (t, s) ← readTy fuel s
          return (.ptr q t, s)
      | 'R' :: s => do
          let (t, s) ← readTy fuel s
          return (.ref t, s)
      | 'M' :: s => do
          let (k, s) ← readCtype crt fuel s
          let (t, s) ← readTy fuel s
          return (.ptrMem q k t, s)
      | 'F' :: s => do
          let (ps, ell, s) ← readParams fuel s []
          let (r, s) ← readTy fuel (s.drop 1)
          return (.func q c ps ell r, s)
      | 'A' :: s => do
          let (t, s') ← readTy fuel (readNat s).2
          return (.array (readNat s).1 t, s')
      | s =>
          match readNtype s with
          | some (n, s) => some (.integer q n, s)
          | none => do
              let (k, s) ← readCtype crt fuel s
              return (.compound q k, s)

/-- The parameters of a function, up to the separator or the end. -/
def readParams : Nat → Text → List (Ty Text) → Option (List (Ty Text) × Bool × Text)
  | 0, _, _ => none
  | _ + 1, [], ps => some (ps, false, [])
  | _ + 1, '_' :: s, ps => some (ps, false, '_' :: s)
  | _ + 1, 'e' :: s, ps => some (ps, true, s)
  | _ + 1, 'v' :: s, ps => some (ps, false, s)
  | fuel + 1, 'T' :: s, ps =>
      let (n, s) := readNum s
      readParams fuel s (ps ++ [ps.getD (n - 1) .error])
  | fuel + 1, 'N' :: s, ps =>
      let (m, s) := readNum s
      let (n, s) := readPos ps.length s
      readParams fuel s (ps ++ List.replicate m (ps.getD (n - 1) .error))
  | fuel + 1, s, ps => do
      let (t, s) ← readTy fuel s
      readParams fuel s (ps ++ [t])

end

end

/-! ## Numbers and names -/

theorem readNum_eq (n : Nat) (s : Text) : readNum (mangleNumber n 2 ++ s) = (n, s) := by
  by_cases h : n < 10
  · obtain ⟨c, hc, hdig, hval⟩ := Numeral.toDigits_lt_ten h
    have hne : c ≠ '_' := by
      rintro rfl
      exact absurd hdig (by decide)
    rw [mangleNumber, if_pos h, hc, List.singleton_append, readNum, if_neg hne, hval]
  · have hread := Numeral.read_toDigits n (s := '_' :: s) (Numeral.ends_cons.2 (by decide))
    have htext : mangleNumber n 2 ++ s = '_' :: (Nat.toDigits 10 n ++ '_' :: s) := by
      simp [mangleNumber, h]
    rw [htext, readNum, if_pos rfl, hread]
    rfl

theorem readName_eq {nm : Hashid} (h : IsName nm) (s : Text) :
    readName (Nat.toDigits 10 (mangleHashid nm).length ++ mangleHashid nm ++ s) =
      (mangleHashid nm, s) := by
  obtain ⟨c, t, htext, hc⟩ := h.mangled
  have hends : Numeral.Ends (mangleHashid nm ++ s) := by
    rw [htext]
    exact Numeral.ends_cons.2 hc
  rw [readName, List.append_assoc, Numeral.read_toDigits _ hends, List.take_left, List.drop_left]

theorem readNat_eq (n : Option Nat) (s : Text) : readNat (mangleNat n ++ s) = (n, s) := by
  cases n with
  | none => rfl
  | some n =>
      by_cases hn : n < 4294967296
      · have htext : mangleNat (some n) ++ s = Nat.toDigits 10 n ++ '_' :: s := by
          simp [mangleNat, hn, mangleNumber_zero]
        have hread := Numeral.read_toDigits n (s := '_' :: s) (Numeral.ends_cons.2 (by decide))
        have hdig : ∀ c ∈ Nat.toDigits 10 n, c.isDigit = true := fun _ => Numeral.isDigit_of_mem
        obtain ⟨c, t, hct, hc⟩ := Numeral.exists_digit n
        rw [hct] at hdig
        rw [htext, readNat, hread]
        · rfl
        · intro s' heq
          rw [hct] at heq
          rw [(List.cons.inj heq).1] at hc
          exact absurd hc (by decide)
        · intro s' heq
          rw [hct] at heq
          have htail := (List.cons.inj heq).2
          cases t with
          | nil => exact absurd (List.cons.inj htail).1 (by decide)
          | cons d t =>
              have hd := hdig d (List.mem_cons_of_mem _ (List.mem_cons_self ..))
              rw [(List.cons.inj htail).1] at hd
              exact absurd hd (by decide)
      · have htext : mangleNat (some n) ++ s = '0' :: 'x' :: (Nat.toDigits 16 n ++ '_' :: s) := by
          simp [mangleNat, hn]
        have hne : ∀ c ∈ Nat.toDigits 16 n, (c != '_') = true := by
          intro c hc
          rw [bne_iff_ne]
          rintro rfl
          exact Numeral.underscore_not_mem_hex n hc
        rw [htext, readNat, List.takeWhile_append_of_pos hne, List.dropWhile_append_of_pos hne]
        simp [Numeral.hexValue_toDigits]

/-- The position of a parameter, where the digits after it are not taken for a part of it. -/
theorem readPos_eq {n len : Nat} (hlen : n ≤ len)
    (h : n < 10 → Numeral.Ends s ∨ ∃ m t, s = Nat.toDigits 10 m ++ t ∧ Numeral.Ends t ∧
      (t.head? = some '_' → len < Nat.ofDigitChars 10 (Nat.toDigits 10 n ++ Nat.toDigits 10 m) 0)) :
    readPos len (mangleNumber n 1 ++ s) = (n, s) := by
  have hdigit : ∀ k, ∀ c ∈ Nat.toDigits 10 k, c.isDigit = true := fun _ _ => Numeral.isDigit_of_mem
  by_cases hn : n < 10
  · obtain ⟨c, hc, hdig, hval⟩ := Numeral.toDigits_lt_ten hn
    have htext : mangleNumber n 1 ++ s = c :: s := by
      rw [mangleNumber, if_pos hn, hc]
      rfl
    have hcond : ¬(2 ≤ ((c :: s).takeWhile Char.isDigit).length ∧
        (Numeral.read (c :: s)).2.head? = some '_' ∧ (Numeral.read (c :: s)).1 ≤ len) := by
      rintro ⟨htwo, hsep, hle⟩
      rw [List.takeWhile_cons, if_pos hdig] at htwo
      rcases h hn with hends | ⟨m, t, rfl, hends, hbig⟩
      · rw [Numeral.takeWhile_ends hends] at htwo
        exact absurd htwo (Nat.not_le.2 (Nat.lt_succ_self 1))
      · have hds : ∀ d ∈ Nat.toDigits 10 n ++ Nat.toDigits 10 m, d.isDigit = true := fun d hd =>
          (List.mem_append.1 hd).elim (hdigit n d) (hdigit m d)
        have hcs : c :: (Nat.toDigits 10 m ++ t) =
            Nat.toDigits 10 n ++ Nat.toDigits 10 m ++ t := by
          rw [hc]
          rfl
        rw [hcs, Numeral.read, Numeral.takeWhile_append hds hends] at hle
        rw [hcs, Numeral.read, Numeral.dropWhile_append hds hends] at hsep
        exact absurd hle (Nat.not_le.2 (hbig hsep))
    rw [htext, readPos, if_neg hcond]
    exact congrArg (fun k => (k, s)) hval
  · have htext : mangleNumber n 1 ++ s = Nat.toDigits 10 n ++ '_' :: s := by
      simp [mangleNumber, hn]
    have hends : Numeral.Ends ('_' :: s) := Numeral.ends_cons.2 (by decide)
    have hread := Numeral.read_toDigits n hends
    have htake := Numeral.takeWhile_append (hdigit n) hends
    rw [htext, readPos, htake, hread,
      if_pos ⟨Numeral.two_le_length (Nat.not_lt.1 hn), rfl, hlen⟩]
    rfl

theorem readCv_eq (q : Cv) (c : Bool) (h : ch ≠ 'C' ∧ ch ≠ 'V' ∧ ch ≠ 'L') :
    readCv (mangleCv q c ++ ch :: s) = (q, c, ch :: s) := by
  obtain ⟨hC, hV, hL⟩ := h
  obtain ⟨a, b⟩ := q
  cases a <;> cases b <;> cases c <;> simp [mangleCv, readCv, eat, hC, hV, hL]

theorem readNtype_eq (n : Ntype) (s : Text) : readNtype (mangleNtype n ++ s) = some (n, s) := by
  cases n <;> rfl

theorem readCtype_eq (crt : Option (Ident Hashid)) {c : Ident Hashid}
    (hc : ∀ nm ∈ c.names, IsName nm) : ∀ (fuel : Nat) (s : Text),
    (mangleCtype crt c).length ≤ fuel →
    readCtype crt fuel (mangleCtype crt c ++ s) = some (c.map mangleHashid, s) := by
  induction c with
  | top nm =>
      intro fuel s hfuel
      have hpos := length_mangleCtype_pos crt (.top nm)
      obtain ⟨fuel, rfl⟩ : ∃ k, fuel = k + 1 := ⟨fuel - 1, by omega⟩
      by_cases hx : crt = some (.top nm)
      · rw [mangleCtype, if_pos hx, hx]
        rfl
      · obtain ⟨ch, t, ht, hdig⟩ := Numeral.exists_digit (mangleHashid nm).length
        have hname := readName_eq (hc nm (List.mem_cons_self ..)) s
        rw [mangleCtype_top hx, readCtype, hname]
        · rfl
        · intro s' heq
          rw [ht] at heq
          rw [(List.cons.inj heq).1] at hdig
          exact absurd hdig (by decide)
        · intro s' heq
          rw [ht] at heq
          rw [(List.cons.inj heq).1] at hdig
          exact absurd hdig (by decide)
  | mem p nm ih =>
      intro fuel s hfuel
      have hpos := length_mangleCtype_pos crt (.mem p nm)
      obtain ⟨fuel, rfl⟩ : ∃ k, fuel = k + 1 := ⟨fuel - 1, by omega⟩
      by_cases hx : crt = some (.mem p nm)
      · rw [mangleCtype, if_pos hx, hx]
        rfl
      · have hname := readName_eq (hc nm (List.mem_cons_self ..)) s
        rw [mangleCtype_mem hx] at hfuel ⊢
        simp only [List.length_cons, List.length_append] at hfuel
        simp only [List.cons_append, List.append_assoc, readCtype, readNum_eq]
        rw [ih (fun nm hnm => hc nm (List.mem_cons_of_mem _ hnm)) fuel _ (by omega)]
        rw [List.append_assoc] at hname
        simp only [hname, bind, Option.bind, pure]
        rfl

/-! ## Types -/

/-- Where a position of one digit comes before a class that is written by its name, and the name
begins with the separator, there are too few parameters for the digits to be a position. -/
def Apart (crt : Option (Ident Hashid)) (ps : List (Ty Hashid)) : Prop :=
  ∀ pre r rs post n nm, ps = pre ++ (r :: rs ++ post) → Run pre r rs post n → n < 10 →
    post.head? = some (.compound .none (.top nm)) → crt ≠ some (.top nm) →
    (mangleHashid nm).head? = some '_' →
    pre.length <
      Nat.ofDigitChars 10 (Nat.toDigits 10 n ++ Nat.toDigits 10 (mangleHashid nm).length) 0

/-- The parameters of a function are `Apart`. -/
def ApartHere (crt : Option (Ident Hashid)) : Ty Hashid → Prop
  | .func _ _ ps _ _ => Apart crt ps
  | _ => True

/-- A type is read back, up to `eq_type` and the spelling of names. -/
def Reads (crt : Option (Ident Hashid)) (t : Ty Hashid) : Prop :=
  ∀ (fuel : Nat) (s : Text), (mangleType crt t 2 true).length < fuel →
    ∃ t', readTy crt fuel (mangleType crt t 2 true ++ s) = some (t', s) ∧
      t'.norm = t.spell mangleHashid

/-- What comes after the parameters of a function. -/
def AfterParams (s : Text) : Prop := s = [] ∨ ∃ s', s = '_' :: s'

theorem readParams_ty (crt : Option (Ident Hashid)) {ps : List (Ty Text)} (fuel : Nat)
    (h : ch ≠ '_' ∧ ch ≠ 'e' ∧ ch ≠ 'v' ∧ ch ≠ 'T' ∧ ch ≠ 'N') :
    readParams crt (fuel + 1) (ch :: s) ps =
      (readTy crt fuel (ch :: s)).bind fun t => readParams crt fuel t.2 (ps ++ [t.1]) := by
  obtain ⟨h1, h2, h3, h4, h5⟩ := h
  rw [readParams]
  · rfl
  all_goals simp_all

section

variable {crt : Option (Ident Hashid)} {ps0 : List (Ty Hashid)}

theorem getD_norm {ps : List (Ty Text)} {p : List (Ty Hashid)} {k : Nat} {r1 r : Ty Hashid}
    (hps : ps.map Ty.norm = p.map (Ty.spell mangleHashid)) (hr1 : p[k]? = some r1)
    (heq : eqType r1 r = true) : (ps.getD k .error).norm = r.spell mangleHashid := by
  have hk : (ps.map Ty.norm)[k]? = some (r1.spell mangleHashid) := by
    rw [hps, List.getElem?_map, hr1]
    rfl
  rw [List.getElem?_map, Option.map_eq_some_iff] at hk
  obtain ⟨t, ht, hnorm⟩ := hk
  rw [List.getD_eq_getElem?_getD, ht, Option.getD_some, hnorm]
  exact spell_congr ((eqType_iff r1 r).1 heq)

/-- The parameters are read back. -/
theorem readParams_eq (ha : Apart crt ps0) {p q : List (Ty Hashid)} {out : Text}
    (h : Packed (fun t => mangleType crt t 2 true) p q out) :
    ps0 = p ++ q → (∀ r ∈ q, isParam r = true ∧ r.Wf ∧ Reads crt r) →
    ∀ {ps : List (Ty Text)}, ps.map Ty.norm = p.map (Ty.spell mangleHashid) →
    ∀ (ell : Bool) (s : Text), AfterParams s → ∀ fuel, out.length + 1 < fuel →
    ∃ ps', readParams crt fuel (out ++ ((if ell then ['e'] else []) ++ s)) ps = some (ps', ell, s) ∧
      ps'.map Ty.norm = (p ++ q).map (Ty.spell mangleHashid) := by
  induction h with
  | nil =>
      intro _ _ ps hps ell s hs fuel hfuel
      obtain ⟨fuel, rfl⟩ : ∃ k, fuel = k + 1 := ⟨fuel - 1, by omega⟩
      refine ⟨ps, ?_, by rw [List.append_nil]; exact hps⟩
      cases ell with
      | true => rfl
      | false =>
          rcases hs with rfl | ⟨s', rfl⟩
          · rfl
          · rfl
  | one hrest ih =>
      rename_i p r q out
      intro hp0 hq ps hps ell s hs fuel hfuel
      obtain ⟨fuel, rfl⟩ : ∃ k, fuel = k + 1 := ⟨fuel - 1, by omega⟩
      obtain ⟨hparam, _, hreads⟩ := hq r (List.mem_cons_self ..)
      obtain ⟨ch, t, htext, hch⟩ := param_first crt hparam
      have hpos : 0 < (mangleType crt r 2 true).length := by
        rw [htext]
        exact Nat.succ_pos _
      rw [List.length_append] at hfuel
      obtain ⟨r', hr', hnorm⟩ := hreads fuel (out ++ ((if ell then ['e'] else []) ++ s)) (by omega)
      obtain ⟨ps', hps', hall⟩ := ih (by rw [hp0, List.append_assoc]; rfl)
        (fun x hx => hq x (List.mem_cons_of_mem _ hx))
        (show (ps ++ [r']).map Ty.norm = _ by simp [hps, hnorm]) ell s hs fuel (by omega)
      refine ⟨ps', ?_, by rw [hall, List.append_assoc]; rfl⟩
      rw [List.append_assoc, htext] at *
      rw [List.cons_append, readParams_ty crt fuel (ne_of_first hch), ← List.cons_append, hr']
      exact hps'
  | again hn hr1 heq hrest ih =>
      rename_i p r r1 q out n
      intro hp0 hq ps hps ell s hs fuel hfuel
      obtain ⟨fuel, rfl⟩ : ∃ k, fuel = k + 1 := ⟨fuel - 1, by omega⟩
      simp only [List.cons_append, List.length_cons, List.length_append] at hfuel
      obtain ⟨ps', hps', hall⟩ := ih (by rw [hp0, List.append_assoc]; rfl)
        (fun x hx => hq x (List.mem_cons_of_mem _ hx))
        (show (ps ++ [ps.getD (n - 1) .error]).map Ty.norm = _ by
          rw [List.map_append, List.map_append, hps, List.map_singleton, List.map_singleton,
            getD_norm hps hr1 heq])
        ell s hs fuel (by omega)
      refine ⟨ps', ?_, by rw [hall, List.append_assoc]; rfl⟩
      simp only [List.cons_append, List.append_assoc, readParams, readNum_eq]
      exact hps'
  | run hrun hrest ih =>
      rename_i p r rs q out n
      intro hp0 hq ps hps ell s hs fuel hfuel
      obtain ⟨fuel, rfl⟩ : ∃ k, fuel = k + 1 := ⟨fuel - 1, by omega⟩
      simp only [List.cons_append, List.length_cons, List.length_append] at hfuel
      obtain ⟨r1, hr1, heq⟩ := hrun.match_eq
      have hn := hrun.pos
      have hlt := (List.getElem?_eq_some_iff.1 hr1).1
      have hlen : ps.length = p.length := by
        rw [← List.length_map Ty.norm, hps, List.length_map]
      have hall : (List.replicate (rs.length + 1) (ps.getD (n - 1) .error)).map Ty.norm =
          (r :: rs).map (Ty.spell mangleHashid) := by
        rw [List.map_replicate, getD_norm hps hr1 heq]
        refine (List.eq_replicate_iff.2 ⟨by simp, fun x hx => ?_⟩).symm
        obtain ⟨y, hy, rfl⟩ := List.mem_map.1 hx
        rcases List.mem_cons.1 hy with rfl | hy
        · rfl
        · exact (spell_congr ((eqType_iff r y).1 (hrun.same y hy))).symm
      obtain ⟨ps', hps', hread⟩ := ih (by rw [hp0, List.append_assoc])
        (fun x hx => hq x (List.mem_append_right _ hx))
        (show (ps ++ List.replicate (rs.length + 1) (ps.getD (n - 1) .error)).map Ty.norm = _ by
          rw [List.map_append, List.map_append, hps, hall])
        ell s hs fuel (by omega)
      refine ⟨ps', ?_, by rw [hread, List.append_assoc]⟩
      have hpos : readPos ps.length
          (mangleNumber n 1 ++ (out ++ ((if ell then ['e'] else []) ++ s)))
          = (n, out ++ ((if ell then ['e'] else []) ++ s)) := by
        refine readPos_eq (by omega) fun hten => ?_
        have htail : Numeral.Ends ((if ell then ['e'] else []) ++ s) := by
          cases ell with
          | true => exact Numeral.ends_cons.2 (by decide)
          | false =>
              rcases hs with rfl | ⟨s', rfl⟩
              · exact Numeral.ends_nil
              · exact Numeral.ends_cons.2 (by decide)
        rcases hrest.follow (fun x hx => (hq x (List.mem_append_right _ hx)).1) htail with
          hends | ⟨nm, q', t, rfl, hx, rfl⟩
        · exact .inl hends
        · have hname := (hq _ (List.mem_append_right _ (List.mem_cons_self ..))).2.1.self
            nm (List.mem_cons_self ..)
          obtain ⟨ch, u, hnm, hch⟩ := hname.mangled
          refine .inr ⟨(mangleHashid nm).length, mangleHashid nm ++ t ++
            ((if ell then ['e'] else []) ++ s), by simp only [List.append_assoc], ?_, fun hsep =>
            ?_⟩
          · rw [hnm]
            exact Numeral.ends_cons.2 hch
          · have hhead : (mangleHashid nm).head? = some '_' := by
              rw [hnm] at hsep ⊢
              exact hsep
            rw [hlen]
            exact ha p r rs _ n nm (by rw [hp0]) hrun hten rfl hx hhead
      simp only [List.cons_append, List.append_assoc, readParams, readNum_eq, hpos]
      exact hps'

theorem readParams_text (ha : Apart crt ps) (h : ∀ r ∈ ps, isParam r = true ∧ r.Wf ∧ Reads crt r)
    (ell : Bool) (hs : AfterParams s) {fuel : Nat}
    (hfuel : (paramsText crt ps ell).length + 1 < fuel) :
    ∃ ps', readParams crt fuel (paramsText crt ps ell ++ s) [] = some (ps', ell, s) ∧
      ps'.map Ty.norm = ps.map (Ty.spell mangleHashid) := by
  by_cases hne : ps = []
  · subst hne
    obtain ⟨fuel, rfl⟩ : ∃ k, fuel = k + 1 := ⟨fuel - 1, by omega⟩
    cases ell with
    | true => exact ⟨[], rfl, rfl⟩
    | false => exact ⟨[], rfl, rfl⟩
  · obtain ⟨out, hpacked, htext⟩ := paramsText_packed crt hne ell
    rw [htext, List.length_append] at hfuel
    obtain ⟨ps', hread, hmap⟩ := readParams_eq ha hpacked (List.nil_append ps).symm h
      (show [].map Ty.norm = _ from rfl) ell s hs fuel (by omega)
    refine ⟨ps', ?_, hmap⟩
    rw [htext, List.append_assoc]
    exact hread

/-- What a qualifier, or a type other than a built-in one or a class, begins with. -/
def otherHeads : Text := ['C', 'V', 'L', 'v', 'u', 'P', 'R', 'M', 'F', 'A']

theorem readTy_other (crt : Option (Ident Hashid)) (q : Cv) (hch : ch ∉ otherHeads) (fuel : Nat) :
    readTy crt (fuel + 1) (mangleCv q false ++ ch :: s) =
      match readNtype (ch :: s) with
      | some (n, s) => some (.integer q n, s)
      | none => (readCtype crt fuel (ch :: s)).bind fun k => some (.compound q k.1, k.2) := by
  have hne : ch ≠ 'C' ∧ ch ≠ 'V' ∧ ch ≠ 'L' := by
    refine ⟨?_, ?_, ?_⟩ <;> rintro rfl <;> exact absurd (by decide) hch
  rw [readTy, readCv_eq q false hne]
  simp only
  split
  case h_8 => rfl
  all_goals
    rename_i heq
    cases heq
    exact absurd (by decide) hch

theorem mangleNtype_head (n : Ntype) : ∃ ch s, mangleNtype n = ch :: s ∧ ch ∉ otherHeads := by
  cases n <;> exact ⟨_, _, rfl, by decide⟩

theorem readNtype_none (hch : ch = 'X' ∨ ch = 'Q' ∨ ch.isDigit = true) :
    readNtype (ch :: s) = none := by
  unfold readNtype
  split
  case h_19 => rfl
  all_goals
    rename_i heq
    cases heq
    exact absurd hch (by decide)

/-- Well-formed types are read back. -/
theorem reads {t : Ty Hashid} (hwf : t.Wf) (hapart : t.All (ApartHere crt)) : Reads crt t := by
  induction t with
  | integer q n =>
      intro fuel s hfuel
      obtain ⟨fuel, rfl⟩ : ∃ k, fuel = k + 1 := ⟨fuel - 1, by omega⟩
      obtain ⟨ch, u, hu, hch⟩ := mangleNtype_head n
      have hread := readNtype_eq n s
      refine ⟨.integer q n, ?_, rfl⟩
      rw [mangleType, List.append_assoc, hu, List.cons_append, readTy_other crt q hch]
      rw [hu, List.cons_append] at hread
      rw [hread]
  | top q =>
      intro fuel s hfuel
      obtain ⟨fuel, rfl⟩ : ∃ k, fuel = k + 1 := ⟨fuel - 1, by omega⟩
      refine ⟨.top q, ?_, rfl⟩
      rw [mangleType, List.append_assoc, List.singleton_append, readTy,
        readCv_eq q false (by decide)]
      rfl
  | bottom q =>
      intro fuel s hfuel
      obtain ⟨fuel, rfl⟩ : ∃ k, fuel = k + 1 := ⟨fuel - 1, by omega⟩
      refine ⟨.bottom q, ?_, rfl⟩
      rw [mangleType, List.append_assoc, List.singleton_append, readTy,
        readCv_eq q false (by decide)]
      rfl
  | ptr q t ih =>
      intro fuel s hfuel
      obtain ⟨fuel, rfl⟩ : ∃ k, fuel = k + 1 := ⟨fuel - 1, by omega⟩
      rw [mangleType, List.length_append, List.length_cons] at hfuel
      obtain ⟨t', ht', hnorm⟩ := ih hwf.2 hapart.2 fuel s (by omega)
      refine ⟨.ptr q t', ?_, congrArg (Ty.ptr q) hnorm⟩
      rw [mangleType, List.append_assoc, List.cons_append, readTy, readCv_eq q false (by decide)]
      simp only [ht', bind, Option.bind, pure]
  | ref t ih =>
      intro fuel s hfuel
      obtain ⟨fuel, rfl⟩ : ∃ k, fuel = k + 1 := ⟨fuel - 1, by omega⟩
      rw [mangleType, List.length_cons] at hfuel
      obtain ⟨t', ht', hnorm⟩ := ih hwf.2 hapart.2 fuel s (by omega)
      refine ⟨.ref t', ?_, congrArg Ty.ref hnorm⟩
      have hcv : readCv ('R' :: (mangleType crt t 2 true ++ s)) = (_, _, _) :=
        readCv_eq .none false (by decide)
      rw [mangleType, List.cons_append, readTy, hcv]
      simp only [ht', bind, Option.bind, pure]
  | ptrMem q c t ih =>
      intro fuel s hfuel
      obtain ⟨fuel, rfl⟩ : ∃ k, fuel = k + 1 := ⟨fuel - 1, by omega⟩
      simp only [mangleType, List.length_append, List.length_cons] at hfuel
      obtain ⟨t', ht', hnorm⟩ := ih hwf.2 hapart.2 fuel s (by omega)
      have hc := readCtype_eq crt hwf.1 fuel (mangleType crt t 2 true ++ s) (by omega)
      refine ⟨.ptrMem q (c.map mangleHashid) t', ?_, ?_⟩
      · simp only [mangleType, List.append_assoc, List.cons_append]
        rw [readTy, readCv_eq q false (by decide)]
        simp only [hc, ht', bind, Option.bind, pure]
      · show Ty.ptrMem q ((c.map mangleHashid).map id) t'.norm = _
        rw [Ident.map_id, hnorm, Ty.spell]
  | func q c ps ell r hps hr =>
      intro fuel s hfuel
      obtain ⟨fuel, rfl⟩ : ∃ k, fuel = k + 1 := ⟨fuel - 1, by omega⟩
      obtain ⟨hparam, hpwf, hrwf⟩ := hwf
      obtain ⟨hhere, hpapart, hrapart⟩ := hapart
      rw [mangleType_func_ret] at hfuel ⊢
      simp only [List.length_append, List.length_cons] at hfuel
      have hparams : ∀ p ∈ ps, isParam p = true ∧ p.Wf ∧ Reads crt p := fun p hp =>
        ⟨hparam p hp, allParams_iff.1 hpwf p hp,
          hps p hp (allParams_iff.1 hpwf p hp) (allParams_iff.1 hpapart p hp)⟩
      have hfuel' : (paramsText crt ps ell).length + 1 < fuel := by omega
      obtain ⟨ps', hps', hmap⟩ := readParams_text hhere hparams ell
        (s := '_' :: (mangleType crt r 2 true ++ s)) (.inr ⟨_, rfl⟩) hfuel'
      obtain ⟨r', hr', hnorm⟩ := hr hrwf hrapart fuel s (by omega)
      refine ⟨.func q c ps' ell r', ?_, ?_⟩
      · simp only [List.append_assoc, List.cons_append]
        rw [readTy, readCv_eq q c (by decide)]
        simp only [hps', hr', bind, Option.bind, pure, List.drop_succ_cons, List.drop_zero]
      · rw [Ty.norm, Ty.spell, Ty.spell, spellAll_eq, spellAll_eq]
        have hret : r'.spell id = r.spell mangleHashid := hnorm
        have hpar : ps'.map (Ty.spell id) = ps.map (Ty.spell mangleHashid) := hmap
        rw [hret, hpar]
  | array n t ih =>
      intro fuel s hfuel
      obtain ⟨fuel, rfl⟩ : ∃ k, fuel = k + 1 := ⟨fuel - 1, by omega⟩
      simp only [mangleType, if_true, List.length_append, List.length_cons] at hfuel
      obtain ⟨t', ht', hnorm⟩ := ih hwf.2 hapart.2 fuel s (by omega)
      refine ⟨.array n t', ?_, congrArg (Ty.array n) hnorm⟩
      have hcv : readCv ('A' :: (mangleNat n ++ (mangleType crt t 2 true ++ s))) = (_, _, _) :=
        readCv_eq .none false (by decide)
      simp only [mangleType, if_true, List.append_assoc, List.cons_append]
      rw [readTy, hcv]
      simp only [readNat_eq, ht', bind, Option.bind, pure]
  | compound q c =>
      intro fuel s hfuel
      obtain ⟨fuel, rfl⟩ : ∃ k, fuel = k + 1 := ⟨fuel - 1, by omega⟩
      obtain ⟨ch, u, hu, hch⟩ := mangleCtype_first crt c
      have hother : ch ∉ otherHeads := by
        intro hmem
        have hall : ∀ x ∈ otherHeads, ¬(x = 'X' ∨ x = 'Q' ∨ x.isDigit = true) := by
          simp [otherHeads]
        exact hall ch hmem hch
      rw [mangleType, List.length_append] at hfuel
      have hread := readCtype_eq crt hwf fuel s (by omega)
      refine ⟨.compound q (c.map mangleHashid), ?_, ?_⟩
      · rw [hu, List.cons_append] at hread
        rw [mangleType, List.append_assoc, hu, List.cons_append, readTy_other crt q hother,
          readNtype_none hch, hread]
        rfl
      · show Ty.compound q ((c.map mangleHashid).map id) = _
        rw [Ident.map_id, Ty.spell]
  | error => exact hwf.elim

end

/-! ## Signatures -/

/-- Well-formed types of parameters. -/
def WfParams (ps : List (Ty Hashid)) : Prop := ∀ p ∈ ps, isParam p = true ∧ p.Wf

/-- The parameters are `Apart`, and so are those of the function types in them. -/
def ApartParams (crt : Option (Ident Hashid)) (ps : List (Ty Hashid)) : Prop :=
  Apart crt ps ∧ ∀ p ∈ ps, p.All (ApartHere crt)

/-- With 12 parameters or fewer, no two digits are a position. -/
theorem apart_of_length (crt : Option (Ident Hashid)) (h : ps.length ≤ 12) : Apart crt ps := by
  intro pre r rs post n nm hps hrun _ hpost _ _
  have hrs := List.length_pos_iff.2 hrun.two
  have hpost' : 0 < post.length :=
      List.length_pos_iff.2 fun hnil => by rw [hnil] at hpost; cases hpost
  rw [hps] at h
  simp only [List.length_append, List.length_cons] at h
  have hn := hrun.pos
  have hpow : 10 ≤ 10 ^ (Nat.toDigits 10 (mangleHashid nm).length).length :=
    Nat.le_self_pow (Nat.pos_iff_ne_zero.1 Nat.length_toDigits_pos) 10
  have hmul := Nat.mul_le_mul hpow hn
  rw [Nat.ofDigitChars_append, Nat.ofDigitChars_ten_toDigits,
    Nat.ofDigitChars_eq_ofDigitChars_zero]
  omega

theorem mangled_params {crt : Option (Ident Hashid)} (hwf : WfParams ps)
    (hapart : ApartParams crt ps) (ell : Bool) {fuel : Nat}
    (hfuel : (paramsText crt ps ell).length + 1 < fuel) :
    ∃ ps', readParams crt fuel (paramsText crt ps ell) [] = some (ps', ell, []) ∧
      ps'.map Ty.norm = ps.map (Ty.spell mangleHashid) := by
  obtain ⟨ps', hread, hmap⟩ := readParams_text hapart.1
    (fun r hr => ⟨(hwf r hr).1, (hwf r hr).2, reads (hwf r hr).2 (hapart.2 r hr)⟩) ell
    (.inl rfl) hfuel
  rw [List.append_nil] at hread
  exact ⟨ps', hread, hmap⟩

/-- `void (*)()` and `bottom (*)()`. -/
def funcPtr (r : Ty Hashid) : Ty Hashid := .ptr .none (.func .none false [] false r)

theorem funcPtr_ok {r : Ty Hashid} (h : r = .top .none ∨ r = .bottom .none) :
    isParam (funcPtr r) = true ∧ (funcPtr r).Wf ∧ (funcPtr r).All (ApartHere none) := by
  have hapart : Apart none [] := apart_of_length none (Nat.zero_le _)
  have hnil : ∀ p ∈ ([] : List (Ty Hashid)), isParam p = true := fun _ hp =>
    absurd hp List.not_mem_nil
  rcases h with rfl | rfl
  · exact ⟨rfl, ⟨trivial, hnil, trivial, trivial⟩, trivial, hapart, trivial, trivial⟩
  · exact ⟨rfl, ⟨trivial, hnil, trivial, trivial⟩, trivial, hapart, trivial, trivial⟩

/-- A pointer to a pointer and so on to `char`. -/
def charPtr : Nat → Ty Hashid
  | 0 => .integer .none .char
  | n + 1 => .ptr .none (charPtr n)

/-- The class `_cc`. -/
def classCC : Ty Hashid := .compound .none (.top (.name ['_', 'c', 'c']))

end Tendra.Ref.Tdfc
