import Tendra.Lib.Cfg

/-!
# What can follow a nonterminal

`Around` is the derivation of a form in which one nonterminal is kept in sight. The
nonterminals that it is inside of may be replaced by further alternatives `Q`, and
all others only by those of the grammar. `Follows` is the same from the inside out:
a token follows a nonterminal in the alternative that it stands in, or it follows
the nonterminal that this alternative is for.
-/

namespace Tendra.Cfg

variable {N T : Type} {P Q : N → Set (List (Sym N T))} {m n : N} {xs ys zs us vs : List (Sym N T)}

/-- The form derives `us`, the nonterminal `n` and `vs`. -/
inductive Around (P Q : N → Set (List (Sym N T))) :
    List (Sym N T) → List (Sym N T) → N → List (Sym N T) → Prop
  | here {xs ys us vs : List (Sym N T)} (n : N) : Yields P xs us → Yields P ys vs →
      Around P Q (xs ++ .nt n :: ys) us n vs
  | inside {m n : N} {body xs ys us vs us' vs' : List (Sym N T)} : body ∈ Q m → Yields P xs us →
      Yields P ys vs → Around P Q body us' n vs' →
      Around P Q (xs ++ .nt m :: ys) (us ++ us') n (vs' ++ vs)

/-- The token `t` can follow the nonterminal. -/
inductive Follows (P Q : N → Set (List (Sym N T))) (t : T) : N → Prop
  | next {m n : N} {xs ys : List (Sym N T)} : xs ++ .nt n :: ys ∈ Q m → Starts P ys t →
      Follows P Q t n
  | last {m n : N} {xs ys : List (Sym N T)} : xs ++ .nt n :: ys ∈ Q m → Gen P ys [] →
      Follows P Q t m → Follows P Q t n

/-! ## Forms that are derived -/

theorem yields_append :
    Yields P (xs ++ ys) zs ↔ ∃ us vs, zs = us ++ vs ∧ Yields P xs us ∧ Yields P ys vs := by
  constructor
  · intro h
    induction xs generalizing zs with
    | nil => exact ⟨[], zs, rfl, Yields.nil, h⟩
    | cons x xs ih =>
        cases h with
        | keep _ h =>
            obtain ⟨us, vs, rfl, hu, hv⟩ := ih h
            exact ⟨x :: us, vs, rfl, Yields.keep x hu, hv⟩
        | expand hbody hys h =>
            obtain ⟨us, vs, rfl, hu, hv⟩ := ih h
            exact ⟨_ ++ us, vs, (List.append_assoc _ _ _).symm, Yields.expand hbody hys hu, hv⟩
  · rintro ⟨us, vs, rfl, hu, hv⟩
    exact hu.append hv

theorem Yields.trans (h : Yields P xs ys) (h' : Yields P ys zs) : Yields P xs zs := by
  induction h generalizing zs with
  | nil => exact h'
  | keep x _ ih =>
      cases h' with
      | keep _ h' => exact Yields.keep x (ih h')
      | expand hbody hys h' => exact Yields.expand hbody hys (ih h')
  | expand hbody _ _ ihu ihv =>
      obtain ⟨us, vs, rfl, hu, hv⟩ := yields_append.1 h'
      exact Yields.expand hbody (ihu hu) (ihv hv)

theorem Yields.single {body : List (Sym N T)} (hbody : body ∈ P n)
    (h : Yields P body ys) : Yields P [.nt n] ys := by
  have h' := Yields.expand hbody h Yields.nil
  rw [List.append_nil] at h'
  exact h'

theorem yields_nil_iff : Yields P xs [] ↔ Gen P xs [] :=
  yields_map_tok (w := [])

/-- A nonterminal that is in no alternative does not come up. -/
theorem Yields.nt_mem (hn : ∀ m, ∀ body ∈ P m, Sym.nt n ∉ body)
    (h : Yields P xs ys) (hmem : Sym.nt n ∈ ys) : Sym.nt n ∈ xs := by
  induction h with
  | nil => exact hmem
  | keep x _ ih =>
      rcases List.mem_cons.1 hmem with rfl | hmem
      · exact List.mem_cons_self
      · exact List.mem_cons_of_mem _ (ih hmem)
  | expand hbody _ _ ihu ihv =>
      rcases List.mem_append.1 hmem with hmem | hmem
      · exact absurd (ihu hmem) (hn _ _ hbody)
      · exact List.mem_cons_of_mem _ (ihv hmem)

/-! ## A nonterminal in sight -/

theorem Around.append_left {ws : List (Sym N T)} (hz : Yields P zs ws)
    (h : Around P Q xs us n vs) : Around P Q (zs ++ xs) (ws ++ us) n vs := by
  cases h with
  | here n hu hv =>
      rw [← List.append_assoc]
      exact Around.here n (hz.append hu) hv
  | inside hbody hu hv h =>
      rw [← List.append_assoc, ← List.append_assoc]
      exact Around.inside hbody (hz.append hu) hv h

theorem Around.ne_nil (h : Around P Q xs us n vs) : xs ≠ [] := by
  cases h with
  | here n hu hv => exact List.append_ne_nil_of_right_ne_nil _ (List.cons_ne_nil _ _)
  | inside hbody hu hv h => exact List.append_ne_nil_of_right_ne_nil _ (List.cons_ne_nil _ _)

/-- If only the alternatives of the grammar are used, this is derivation. -/
theorem around_iff_yields : Around P P xs us n vs ↔ Yields P xs (us ++ .nt n :: vs) := by
  constructor
  · intro h
    induction h with
    | here n hu hv => exact hu.append (Yields.keep _ hv)
    | @inside m n body xs ys us vs us' vs' hbody hu hv _ ih =>
        have hmid := Yields.expand hbody ih hv
        rw [List.append_assoc, ← List.cons_append, ← List.append_assoc us']
        exact hu.append hmid
  · intro h
    generalize hzs : us ++ .nt n :: vs = zs at h
    induction h generalizing us vs with
    | nil => exact absurd hzs (List.append_ne_nil_of_right_ne_nil us (List.cons_ne_nil _ _))
    | keep x hxs ih =>
        rcases List.append_eq_cons_iff.1 hzs with ⟨rfl, hx⟩ | ⟨us', rfl, hx⟩
        · cases hx
          exact @Around.here _ _ _ _ [] _ _ _ n Yields.nil hxs
        · exact (ih hx.symm).append_left (Yields.refl [x])
    | @expand m body xs ys zs hbody hys hxs ihu ihv =>
        rcases List.append_eq_append_iff.1 hzs with ⟨as, rfl, has⟩ | ⟨as, rfl, has⟩
        · rcases List.cons_eq_append_iff.1 has with ⟨rfl, rfl⟩ | ⟨bs, rfl, rfl⟩
          · rw [List.append_nil] at hys
            have h := (@ihv [] _ rfl).append_left (Yields.single hbody hys)
            rw [List.append_nil] at h
            exact h
          · exact @Around.inside _ _ _ _ _ _ _ [] _ _ _ _ _ hbody Yields.nil hxs (ihu rfl)
        · exact (ihv has.symm).append_left (Yields.single hbody hys)

/-- A further alternative is put in the place of the nonterminal. -/
theorem Around.plug (h : Around P Q zs us m vs)
    (hbody : xs ++ .nt n :: ys ∈ Q m) (hys : Gen P ys []) :
    ∃ us', Around P Q zs us' n vs := by
  induction h with
  | here m hu hv =>
      exact ⟨_, Around.inside hbody hu hv (Around.here n (Yields.refl xs) (yields_nil_iff.2 hys))⟩
  | inside hbody' hu hv _ ih =>
      obtain ⟨us', h'⟩ := ih hbody
      exact ⟨_, Around.inside hbody' hu hv h'⟩

/-- What follows the nonterminal in sight follows it in its alternative, or else follows
what the alternative is for. -/
theorem Around.follows (h : Around P Q xs us n vs) (hxs : xs ∈ Q m) {t : T} :
    (∀ vs', vs = .tok t :: vs' → Follows P Q t n) ∧
    (vs = [] → Follows P Q t m → Follows P Q t n) := by
  induction h generalizing m with
  | here n hu hv =>
      refine ⟨?_, ?_⟩
      · rintro vs' rfl
        exact Follows.next hxs (starts_iff_yields.2 ⟨vs', hv⟩)
      · rintro rfl hm
        exact Follows.last hxs (yields_nil_iff.1 hv) hm
  | inside hbody hu hv _ ih =>
      obtain ⟨ihtok, ihnil⟩ := ih hbody
      refine ⟨?_, ?_⟩
      · intro vs' heq
        rcases List.append_eq_cons_iff.1 heq with ⟨hnil, rfl⟩ | ⟨ws, hws, -⟩
        · exact ihnil hnil (Follows.next hxs (starts_iff_yields.2 ⟨vs', hv⟩))
        · exact ihtok ws hws
      · intro heq hm
        obtain ⟨hnil, rfl⟩ := List.append_eq_nil_iff.1 heq
        exact ihnil hnil (Follows.last hxs (yields_nil_iff.1 hv) hm)

/-- What comes after the nonterminal in sight can be derived further. -/
theorem Around.yields_right {vs' : List (Sym N T)} (h : Around P Q xs us n vs)
    (hvs : Yields P vs vs') : Around P Q xs us n vs' := by
  induction h generalizing vs' with
  | here n hu hv => exact Around.here n hu (hv.trans hvs)
  | inside hbody hu hv _ ih =>
      obtain ⟨as, bs, rfl, has, hbs⟩ := yields_append.1 hvs
      exact Around.inside hbody hu (hv.trans hbs) (ih has)

theorem Around.single {body : List (Sym N T)} (hbody : body ∈ Q m)
    (h : Around P Q body us n vs) : Around P Q [.nt m] us n vs := by
  have h' := @Around.inside _ _ _ _ _ _ _ [] [] [] [] _ _ hbody Yields.nil Yields.nil h
  rw [List.append_nil] at h'
  exact h'

/-- What comes first after the nonterminal in sight can follow it. -/
theorem Around.follows_single {t : T}
    (h : Around P Q [.nt m] us n vs) (ht : Starts P vs t) : Follows P Q t n := by
  obtain ⟨ws, hws⟩ := starts_iff_yields.1 ht
  generalize hzs : [Sym.nt m] = zs at h
  cases h with
  | @here xs ys us vs n hu hv =>
      obtain ⟨-, hcons⟩ := List.singleton_eq_append_iff.1 hzs |>.resolve_right (by simp)
      cases hcons
      cases hv
      cases hws
  | @inside m' n body xs ys us vs us' vs' hbody hu hv h =>
      obtain ⟨-, hcons⟩ := List.singleton_eq_append_iff.1 hzs |>.resolve_right (by simp)
      cases hcons
      cases hv
      rw [List.append_nil] at hws
      exact ((h.yields_right hws).follows hbody).1 ws rfl

/-- A token follows a nonterminal if it does so in a form that is derived from some
alternative. -/
theorem follows_iff {t : T} :
    Follows P Q t n ↔ ∃ m, ∃ body ∈ Q m, ∃ us vs, Around P Q body us n (.tok t :: vs) := by
  constructor
  · intro h
    induction h with
    | next hbody hstarts =>
        obtain ⟨vs, hvs⟩ := starts_iff_yields.1 hstarts
        exact ⟨_, _, hbody, _, vs, Around.here _ (Yields.refl _) hvs⟩
    | last hbody hgen _ ih =>
        obtain ⟨m, body, hbody', us, vs, h⟩ := ih
        obtain ⟨us', h'⟩ := h.plug hbody hgen
        exact ⟨m, body, hbody', us', vs, h'⟩
  · rintro ⟨m, body, hbody, us, vs, h⟩
    exact (h.follows hbody).1 vs rfl

end Tendra.Cfg
