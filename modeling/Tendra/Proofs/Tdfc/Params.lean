import Tendra.Lib.Digits
import Tendra.Proofs.Tdfc.Types

/-!
# The parameters of a mangled function type

`mangle_type` writes a parameter as it is, as a reference to an equal one before it, or
together with the equal ones after it as a multiple reference. `Packed` says so of the
text; a reader then has one case for each of the forms.
-/

namespace Tendra.Ref.Tdfc

variable {q : List (Ty Hashid)} {r : Ty Hashid} {out : Text}

/-! ## Runs -/

/-- The parameters `r :: rs` are equal to the one of number `n` before them, and are written as a
multiple reference to it. -/
structure Run (pre : List (Ty Hashid)) (r : Ty Hashid) (rs post : List (Ty Hashid)) (n : Nat) :
    Prop where
  isVoid : isVoid r = false
  worth : isBuiltin r = true → mangleWorth < rs.length + 1
  two : rs ≠ []
  pos : 0 < n
  match_eq : ∃ r1, pre[n - 1]? = some r1 ∧ eqType r1 r = true
  first : ∀ x ∈ pre.take (n - 1), eqType x r = false
  start : n = pre.length ∨ ∀ x ∈ pre.getLast?, eqType x r = false
  same : ∀ x ∈ rs, eqType r x = true
  stop : ∀ x ∈ post.head?, eqType r x = false

/-- The text of the parameters `q`, which come after `p`. -/
inductive Packed (txt : Ty Hashid → Text) : List (Ty Hashid) → List (Ty Hashid) → Text → Prop
  | nil {p} : Packed txt p [] []
  | one {p r q out} : Packed txt (p ++ [r]) q out → Packed txt p (r :: q) (txt r ++ out)
  | again {p r r1 q out n} : 0 < n → p[n - 1]? = some r1 → eqType r1 r = true →
      Packed txt (p ++ [r]) q out → Packed txt p (r :: q) ('T' :: mangleNumber n 2 ++ out)
  | run {p r rs q out n} : Run p r rs q n → Packed txt (p ++ r :: rs) q out →
      Packed txt p (r :: rs ++ q)
        ('N' :: mangleNumber (rs.length + 1) 2 ++ mangleNumber n 1 ++ out)

theorem findParam_spec (r : Ty Hashid) (p : List (Ty Hashid)) : ∀ m, 0 < m →
    (findParam r m p = 0 ∧ ∀ x ∈ p, eqType x r = false) ∨
    ∃ j x, findParam r m p = m + j ∧ p[j]? = some x ∧ eqType x r = true ∧
      ∀ y ∈ p.take j, eqType y r = false := by
  induction p with
  | nil => exact fun m _ => .inl ⟨rfl, fun _ h => absurd h List.not_mem_nil⟩
  | cons r1 q1 ih =>
      intro m hm
      by_cases heq : eqType r1 r = true
      · exact .inr ⟨0, r1, if_pos heq, rfl, heq, fun _ h => absurd h List.not_mem_nil⟩
      · have hfalse := Bool.eq_false_iff.2 heq
        rw [findParam, if_neg heq]
        rcases ih (m + 1) (Nat.succ_pos m) with ⟨hz, hall⟩ | ⟨j, x, hj, hx, hxr, hall⟩
        · refine .inl ⟨hz, fun y hy => ?_⟩
          rcases List.mem_cons.1 hy with rfl | hy
          · exact hfalse
          · exact hall y hy
        · refine .inr ⟨j + 1, x, by rw [hj]; omega, hx, hxr, fun y hy => ?_⟩
          rw [List.take_succ_cons] at hy
          rcases List.mem_cons.1 hy with rfl | hy
          · exact hfalse
          · exact hall y hy

theorem equalParams_spec (txt : Ty Hashid → Text) (r : Ty Hashid) (q : List (Ty Hashid)) :
    ∃ rs post, q = rs ++ post ∧ equalParams r (q.map fun t => (t, txt t)) = rs.length ∧
      (∀ x ∈ rs, eqType r x = true) ∧ ∀ x ∈ post.head?, eqType r x = false := by
  induction q with
  | nil => exact ⟨[], [], rfl, rfl, by simp, by simp⟩
  | cons t q ih =>
      by_cases heq : eqType r t = true
      · obtain ⟨rs, post, hq, hlen, hsame, hstop⟩ := ih
        refine ⟨t :: rs, post, by rw [hq]; rfl, ?_, fun x hx => ?_, hstop⟩
        · rw [List.map_cons, equalParams, if_pos heq, hlen, List.length_cons]
        · rcases List.mem_cons.1 hx with rfl | hx
          · exact heq
          · exact hsame x hx
      · refine ⟨[], t :: q, rfl, if_neg heq, by simp, fun x hx => ?_⟩
        obtain rfl := Option.some.inj hx
        exact Bool.eq_false_iff.2 heq

/-! ## The loop -/

/-- What holds before each parameter that `mangle_type` looks for: if it is equal to the last one
before it, that is the first of its kind. -/
def Fresh (p q : List (Ty Hashid)) : Prop :=
  ∀ r ∈ q.head?, isVoid r = false → (isBuiltin r = true → mangleWorth < q.length) →
    ∀ x ∈ p.getLast?, eqType x r = true → ∀ y ∈ p.dropLast, eqType y r = false

theorem fresh_of_ne {p : List (Ty Hashid)} (hlast : ∀ x ∈ p.getLast?, eqType r x = true)
    (hstop : ∀ x ∈ q.head?, eqType r x = false) : Fresh p q := by
  intro r' hr' _ _ x hx heq
  have h1 := (eqType_iff r x).1 (hlast x hx)
  have h2 := (eqType_iff x r').1 heq
  have h3 := (eqType_iff r r').2 (h1.trans h2)
  rw [hstop r' hr'] at h3
  cases h3

theorem eqType_refl (t : Ty Hashid) : eqType t t = true := (eqType_iff t t).2 rfl

theorem isBuiltin_congr {t t' : Ty Hashid} (h : eqType t t' = true) :
    isBuiltin t = isBuiltin t' := by
  cases t <;> cases t' <;> simp_all [eqType, isBuiltin]

theorem isVoid_congr {t t' : Ty Hashid} (h : eqType t t' = true) : isVoid t = isVoid t' := by
  cases t <;> cases t' <;> simp_all [eqType, isVoid]

/-- Parameters that are written as they are. -/
theorem Packed.ones {txt : Ty Hashid → Text} :
    ∀ {rs p : List (Ty Hashid)}, Packed txt (p ++ rs) q out →
    Packed txt p (rs ++ q) ((rs.map txt).flatten ++ out)
  | [], p, h => by
      rw [List.append_nil] at h
      exact h
  | r :: rs, p, h => by
      rw [List.map_cons, List.flatten_cons, List.append_assoc]
      exact .one (Packed.ones (by rw [List.append_assoc]; exact h))

theorem eq_of_isBuiltin {x : Ty Hashid} (hb : isBuiltin r = true) (h : eqType r x = true) :
    x = r := by
  cases r <;> cases x <;> simp_all [eqType, isBuiltin]

theorem last_eq (p : List (Ty Hashid)) {rs : List (Ty Hashid)} (h : ∀ x ∈ rs, eqType r x = true) :
    ∀ x ∈ (p ++ r :: rs).getLast?, eqType r x = true := by
  intro x hx
  rw [List.getLast?_append, List.getLast?_cons] at hx
  obtain rfl : rs.getLast?.getD r = x := by simpa using hx
  cases hrs : rs.getLast? with
  | none => exact eqType_refl r
  | some y => exact h y (List.mem_of_getLast? hrs)

theorem fresh_single {p : List (Ty Hashid)}
    (h : (isVoid r = true ∨ isBuiltin r = true ∧ q.length + 1 ≤ mangleWorth) ∨
      ∀ x ∈ p, eqType x r = false) : Fresh (p ++ [r]) q := by
  intro r' hr' hvoid hlong x hx heq y hy
  obtain rfl : r = x := by simpa using hx
  rw [List.dropLast_concat] at hy
  rcases h with (hv | ⟨hb, hlen⟩) | hnone
  · rw [isVoid_congr heq, hvoid] at hv
    cases hv
  · have hlt := hlong (isBuiltin_congr heq ▸ hb)
    omega
  · cases hyr : eqType y r' with
    | false => rfl
    | true =>
        have h1 := (eqType_iff y r').1 hyr
        have h2 := (eqType_iff r r').1 heq
        have h3 := (eqType_iff y r).2 (h1.trans h2.symm)
        rw [hnone y hy] at h3
        cases h3

/-- The start of a run. -/
theorem Fresh.start {p : List (Ty Hashid)} {r1 : Ty Hashid} {j : Nat} (h : Fresh p q)
    (hq : q.head? = some r) (hvoid : isVoid r = false)
    (hlong : isBuiltin r = true → mangleWorth < q.length) (hr1 : p[j]? = some r1)
    (heq : eqType r1 r = true) : 1 + j = p.length ∨ ∀ x ∈ p.getLast?, eqType x r = false := by
  have hlt := (List.getElem?_eq_some_iff.1 hr1).1
  by_cases hend : 1 + j = p.length
  · exact .inl hend
  · refine .inr fun x hx => Bool.eq_false_iff.2 fun hxr => ?_
    have hmem : r1 ∈ p.dropLast := by
      rw [List.mem_iff_getElem?]
      exact ⟨j, by rw [List.getElem?_dropLast, if_pos (by omega), hr1]⟩
    have hne := h r hq hvoid hlong x hx hxr r1 hmem
    rw [heq] at hne
    cases hne

/-- What the loop of `mangle_type` writes. -/
theorem mangleParams_packed (txt : Ty Hashid → Text) : ∀ (fuel : Nat) (p q : List (Ty Hashid)),
    q.length ≤ fuel → Fresh p q →
    Packed txt p q (mangleParams fuel p (q.map fun t => (t, txt t))) := by
  intro fuel
  induction fuel with
  | zero =>
      intro p q hq _
      obtain rfl := List.length_eq_zero_iff.1 (Nat.le_zero.1 hq)
      exact .nil
  | succ fuel ih =>
      intro p q hq hfresh
      cases q with
      | nil => exact .nil
      | cons r q =>
          have hlen : q.length ≤ fuel := Nat.le_of_succ_le_succ hq
          rw [List.map_cons, mangleParams, List.length_map]
          by_cases hskip : ((isBuiltin r && !(isBuiltin r && decide (mangleWorth < q.length + 1)))
          ||
              isVoid r) = true
          · simp only [hskip, if_true, ne_eq, not_true, if_false]
            refine .one (ih _ _ hlen (fresh_single (.inl ?_)))
            simp only [Bool.or_eq_true, Bool.and_eq_true, Bool.not_eq_true',
              Bool.and_eq_false_iff, decide_eq_false_iff_not, Nat.not_lt] at hskip
            rcases hskip with ⟨hb, hb' | hle⟩ | hv
            · rw [hb] at hb'
              cases hb'
            · exact .inr ⟨hb, hle⟩
            · exact .inl hv
          · have hvoid : isVoid r = false := by
              cases hv : isVoid r with
              | false => rfl
              | true => simp [hv] at hskip
            have hlong : isBuiltin r = true → mangleWorth < q.length + 1 := by
              intro hb
              by_contra hle
              simp [hb, hle] at hskip
            simp only [Bool.eq_false_iff.2 hskip, Bool.false_eq_true, if_false]
            rcases findParam_spec r p 1 Nat.one_pos with ⟨hz, hnone⟩ | ⟨j, r1, hj, hr1, heq, hfirst⟩
            · rw [hz]
              exact .one (ih _ _ hlen (fresh_single (.inr hnone)))
            obtain ⟨rs, post, rfl, hcount, hsame, hstop⟩ := equalParams_spec txt r q
            have hmap : ((rs ++ post).map fun t => (t, txt t)).take rs.length =
                rs.map fun t => (t, txt t) := by
              rw [List.map_append, List.take_left' (List.length_map _)]
            have hdrop : ((rs ++ post).map fun t => (t, txt t)).drop rs.length =
                post.map fun t => (t, txt t) := by
              rw [List.map_append, List.drop_left' (List.length_map _)]
            have hfst : (rs.map fun t => (t, txt t)).map Prod.fst = rs := by
              rw [List.map_map]
              exact List.map_id rs
            have hpos : 1 + j ≠ 0 := by omega
            have hrest := ih (p ++ r :: rs) post
              (Nat.le_trans (by rw [List.length_append]; exact Nat.le_add_left ..) hlen)
              (fresh_of_ne (last_eq p hsame) hstop)
            simp only [hj, hcount, hpos, ne_eq, not_false_iff, if_true, Nat.add_sub_cancel, hmap,
              hdrop, hfst, Nat.add_eq_right]
            by_cases hone : rs = []
            · subst hone
              rw [if_pos List.length_nil]
              split
              · exact .again (by omega) (by rw [Nat.add_sub_cancel_left]; exact hr1) heq hrest
              · exact .one hrest
            · rw [if_neg fun h => hone (List.length_eq_zero_iff.1 h)]
              split
              · rename_i hworth
                refine .run ⟨hvoid, fun hb => ?_, hone, by omega, ⟨r1, ?_, heq⟩, ?_, ?_, hsame,
                  hstop⟩
                  hrest
                · have hlt := hlong hb
                  rw [List.length_append] at hlt
                  simp only [hb, List.length_append, Bool.true_and, Bool.or_eq_true,
                    Bool.not_eq_true', decide_eq_false_iff_not, decide_eq_true_eq] at hworth
                  exact hworth.resolve_left fun hn => hn hlt
                · rw [Nat.add_sub_cancel_left]
                  exact hr1
                · rw [Nat.add_sub_cancel_left]
                  exact hfirst
                · exact hfresh.start rfl hvoid hlong hr1 heq
              · rename_i hworth
                have hb : isBuiltin r = true := by
                  cases hb : isBuiltin r with
                  | false => simp [hb] at hworth
                  | true => rfl
                have htext : (List.replicate (rs.length + 1) (txt r)).flatten =
                    ((r :: rs).map txt).flatten := by
                  rw [List.replicate_succ, List.map_cons,
                    List.map_eq_replicate_iff.2 fun x hx => ?_]
                  rw [eq_of_isBuiltin hb (hsame x hx)]
                rw [htext]
                exact .ones hrest

/-! ## The text of the parameters -/

section

variable (crt : Option (Ident Hashid))

/-- The parameters in the mangled form of a function type. -/
def paramsText (ps : List (Ty Hashid)) (ell : Bool) : Text :=
  (if ps.isEmpty then if ell then [] else ['v']
  else mangleParams ps.length [] (ps.map fun t => (t, mangleType crt t 2 true))) ++
    if ell then ['e'] else []

theorem zip_mangleTypes (ps : List (Ty Hashid)) :
    ps.zip (mangleTypes crt ps) = ps.map fun t => (t, mangleType crt t 2 true) := by
  induction ps with
  | nil => rfl
  | cons t ts ih => rw [mangleTypes, List.zip_cons_cons, ih, List.map_cons]

theorem mangleType_func (q : Cv) (c : Bool) (ps : List (Ty Hashid)) (ell : Bool) (r : Ty Hashid)
    (arr : Bool) : mangleType crt (.func q c ps ell r) 1 arr =
      mangleCv q c ++ 'F' :: paramsText crt ps ell := by
  rw [mangleType, zip_mangleTypes, paramsText]
  cases ell <;> simp

theorem mangleType_func_ret (q : Cv) (c : Bool) (ps : List (Ty Hashid)) (ell : Bool)
    (r : Ty Hashid) (arr : Bool) : mangleType crt (.func q c ps ell r) 2 arr =
      mangleCv q c ++ 'F' :: (paramsText crt ps ell ++ '_' :: mangleType crt r 2 true) := by
  rw [mangleType, zip_mangleTypes, paramsText]
  cases ell <;> simp

theorem paramsText_packed {ps : List (Ty Hashid)} (hne : ps ≠ []) (ell : Bool) :
    ∃ out, Packed (fun t => mangleType crt t 2 true) [] ps out ∧
      paramsText crt ps ell = out ++ if ell then ['e'] else [] := by
  refine ⟨_, mangleParams_packed _ ps.length [] ps (Nat.le_refl _) ?_, ?_⟩
  · intro r _ _ _ x hx
    cases hx
  · rw [paramsText, if_neg fun h => hne (List.isEmpty_iff.1 h)]

end

/-! ## What a parameter begins with -/

theorem mangleNumber_zero (n : Nat) : mangleNumber n 0 = Nat.toDigits 10 n := by
  by_cases h : n < 10
  · exact if_pos h
  · simp [mangleNumber, h]

section

variable {crt : Option (Ident Hashid)}

/-- A class outside all named scopes, written by its name. -/
theorem mangleCtype_top {nm : Hashid} (h : crt ≠ some (.top nm)) :
    mangleCtype crt (.top nm) =
      Nat.toDigits 10 (mangleHashid nm).length ++ mangleHashid nm := by
  rw [mangleCtype, if_neg h]
  simp only [identDepth, mangleId, mangleNumber_zero, Nat.lt_irrefl, if_false, List.nil_append]

/-- A class in a scope with a name: the depth, the scope and the name. -/
theorem mangleCtype_mem {p : Ident Hashid} {nm : Hashid} (h : crt ≠ some (.mem p nm)) :
    mangleCtype crt (.mem p nm) = 'Q' :: (mangleNumber (identDepth p + 1) 2 ++
      (mangleCtype crt p ++
        (Nat.toDigits 10 (mangleHashid nm).length ++ mangleHashid nm))) := by
  have hd : 1 < identDepth p + 1 := by
    cases p <;> simp [identDepth]
  rw [mangleCtype, if_neg h, identDepth, mangleId]
  simp only [if_pos hd, mangleNumber_zero, Nat.add_sub_cancel, List.append_assoc,
    List.cons_append]
  rfl

theorem mangleCtype_head (crt : Option (Ident Hashid)) (c : Ident Hashid) :
    (∃ ch s, mangleCtype crt c = ch :: s ∧ (ch = 'X' ∨ ch = 'Q')) ∨
    ∃ nm, c = .top nm ∧ crt ≠ some (.top nm) := by
  by_cases hx : crt = some c
  · exact .inl ⟨'X', [], by rw [mangleCtype, if_pos hx], .inl rfl⟩
  · cases c with
    | top nm => exact .inr ⟨nm, rfl, hx⟩
    | mem p nm =>
        exact .inl ⟨'Q', _, mangleCtype_mem hx, .inr rfl⟩

/-- What the types of parameters begin with, apart from digits. -/
def paramHeads : Text :=
  ['P', 'R', 'M', 'X', 'Q', 'S', 'U', 'c', 's', 'i', 'l', 'x', 'f', 'd', 'r', 'b', 'y', 'z', 'w']

theorem mangleCv_none : mangleCv .none false = [] := rfl

theorem param_head (crt : Option (Ident Hashid)) (hp : isParam r = true) :
    (∃ ch s, mangleType crt r 2 true = ch :: s ∧ ch ∈ paramHeads) ∨
    ∃ nm, r = .compound .none (.top nm) ∧ crt ≠ some (.top nm) := by
  cases r with
  | integer q n =>
      obtain rfl : q = .none := of_decide_eq_true hp
      refine .inl ?_
      rw [mangleType, mangleCv_none, List.nil_append]
      cases n <;> exact ⟨_, _, rfl, by decide⟩
  | ptr q t =>
      obtain rfl : q = .none := of_decide_eq_true hp
      exact .inl ⟨'P', _, rfl, by decide⟩
  | ref t => exact .inl ⟨'R', _, rfl, by decide⟩
  | ptrMem q c t =>
      obtain rfl : q = .none := of_decide_eq_true hp
      exact .inl ⟨'M', _, rfl, by decide⟩
  | compound q c =>
      obtain rfl : q = .none := of_decide_eq_true hp
      rcases mangleCtype_head crt c with ⟨ch, s, hs, hch⟩ | ⟨nm, rfl, hx⟩
      · refine .inl ⟨ch, s, hs, ?_⟩
        rcases hch with rfl | rfl <;> decide
      · exact .inr ⟨nm, rfl, hx⟩
  | _ => cases hp

theorem param_first (crt : Option (Ident Hashid)) (hp : isParam r = true) :
    ∃ ch s, mangleType crt r 2 true = ch :: s ∧ (ch ∈ paramHeads ∨ ch.isDigit = true) := by
  rcases param_head crt hp with ⟨ch, s, hs, hch⟩ | ⟨nm, rfl, hx⟩
  · exact ⟨ch, s, hs, .inl hch⟩
  · obtain ⟨ch, s, hs, hch⟩ := Numeral.exists_digit (mangleHashid nm).length
    refine ⟨ch, s ++ mangleHashid nm, ?_, .inr hch⟩
    show mangleCtype crt (.top nm) = _
    rw [mangleCtype_top hx, hs]
    rfl

theorem mangleCtype_first (crt : Option (Ident Hashid)) (c : Ident Hashid) :
    ∃ ch s, mangleCtype crt c = ch :: s ∧ (ch = 'X' ∨ ch = 'Q' ∨ ch.isDigit = true) := by
  rcases mangleCtype_head crt c with ⟨ch, s, hs, hch⟩ | ⟨nm, rfl, hx⟩
  · exact ⟨ch, s, hs, hch.imp_right .inl⟩
  · obtain ⟨ch, s, hs, hch⟩ := Numeral.exists_digit (mangleHashid nm).length
    exact ⟨ch, s ++ mangleHashid nm, by rw [mangleCtype_top hx, hs]; rfl, .inr (.inr hch)⟩

theorem length_mangleCtype_pos (crt : Option (Ident Hashid)) (c : Ident Hashid) :
    0 < (mangleCtype crt c).length := by
  obtain ⟨ch, s, hs, _⟩ := mangleCtype_first crt c
  rw [hs]
  exact Nat.succ_pos _

theorem ne_of_first {ch : Char} (h : ch ∈ paramHeads ∨ ch.isDigit = true) :
    ch ≠ '_' ∧ ch ≠ 'e' ∧ ch ≠ 'v' ∧ ch ≠ 'T' ∧ ch ≠ 'N' := by
  refine ⟨?_, ?_, ?_, ?_, ?_⟩ <;> rintro rfl <;> exact absurd h (by decide)

/-- What comes after the parameters `p`: no digit, unless the next one is a class that is written by
its name. -/
theorem Packed.follow {p : List (Ty Hashid)} {tail : Text}
    (h : Packed (fun t => mangleType crt t 2 true) p q out) (hq : ∀ r ∈ q, isParam r = true)
    (htail : Numeral.Ends tail) :
    Numeral.Ends (out ++ tail) ∨
    ∃ nm q' s, q = .compound .none (.top nm) :: q' ∧ crt ≠ some (.top nm) ∧
      out = Nat.toDigits 10 (mangleHashid nm).length ++ mangleHashid nm ++ s := by
  have hheads : ∀ ch ∈ paramHeads, ch.isDigit = false := by simp [paramHeads]
  cases h with
  | nil => exact .inl htail
  | one hrest =>
      rename_i r q out
      rcases param_head crt (hq r (List.mem_cons_self ..)) with ⟨ch, s, hs, hch⟩ | ⟨nm, rfl, hx⟩
      · refine .inl ?_
        show Numeral.Ends (mangleType crt r 2 true ++ out ++ tail)
        rw [hs]
        exact Numeral.ends_cons.2 (hheads ch hch)
      · refine .inr ⟨nm, q, out, rfl, hx, ?_⟩
        show mangleCtype crt (.top nm) ++ out = _
        rw [mangleCtype_top hx]
  | again => exact .inl (Numeral.ends_cons.2 (by decide))
  | run => exact .inl (Numeral.ends_cons.2 (by decide))

theorem Packed.first {p : List (Ty Hashid)} (h : Packed (fun t => mangleType crt t 2 true) p q out)
    (hq : ∀ r ∈ q, isParam r = true) (hne : q ≠ []) :
    ∃ ch s, out = ch :: s ∧ (ch ∈ paramHeads ∨ ch.isDigit = true ∨ ch = 'T' ∨ ch = 'N') := by
  cases h with
  | nil => exact absurd rfl hne
  | one hrest =>
      rename_i r q out
      obtain ⟨ch, s, hs, hch⟩ := param_first crt (hq r (List.mem_cons_self ..))
      refine ⟨ch, s ++ out, ?_, hch.imp_right .inl⟩
      show mangleType crt r 2 true ++ out = _
      rw [hs]
      rfl
  | again => exact ⟨'T', _, rfl, .inr (.inr (.inl rfl))⟩
  | run => exact ⟨'N', _, rfl, .inr (.inr (.inr rfl))⟩

end

end Tendra.Ref.Tdfc
