import Mathlib.Data.Set.Basic

/-!
# Context-free grammars

A grammar is a set of alternatives for each nonterminal. The strings of a form are
the least interpretation of the nonterminals that is closed under the alternatives,
which is the induction rule used to compare two grammars: each is sound for the
strings of the other.
-/

namespace Tendra.Cfg

/-- The symbols of an alternative. -/
inductive Sym (N T : Type)
  | nt (n : N)
  | tok (t : T)
deriving DecidableEq, Repr

variable {N T : Type} {P Q : N → Set (List (Sym N T))} {n : N} {t : T} {w : List T}
  {xs ys : List (Sym N T)}

/-- The strings of tokens that a form generates. -/
inductive Gen (P : N → Set (List (Sym N T))) : List (Sym N T) → List T → Prop
  | nil : Gen P [] []
  | tok {t : T} {xs : List (Sym N T)} {w : List T} : Gen P xs w → Gen P (.tok t :: xs) (t :: w)
  | nt {n : N} {body xs : List (Sym N T)} {u v : List T} : body ∈ P n → Gen P body u →
      Gen P xs v → Gen P (.nt n :: xs) (u ++ v)

/-- The strings of a form in which each nonterminal stands for a set of strings. -/
def Sem (S : N → List T → Prop) : List (Sym N T) → List T → Prop
  | [], w => w = []
  | .tok t :: xs, w => ∃ v, w = t :: v ∧ Sem S xs v
  | .nt n :: xs, w => ∃ u v, w = u ++ v ∧ S n u ∧ Sem S xs v

/-! ## Forms -/

@[simp] theorem gen_nil : Gen P [] w ↔ w = [] := by
  constructor
  · intro h
    cases h
    rfl
  · rintro rfl
    exact Gen.nil

theorem gen_tok : Gen P (.tok t :: xs) w ↔ ∃ v, w = t :: v ∧ Gen P xs v := by
  constructor
  · intro h
    cases h with
    | tok h => exact ⟨_, rfl, h⟩
  · rintro ⟨v, rfl, h⟩
    exact Gen.tok h

theorem gen_nt :
    Gen P (.nt n :: xs) w ↔ ∃ body ∈ P n, ∃ u v, w = u ++ v ∧ Gen P body u ∧ Gen P xs v := by
  constructor
  · intro h
    cases h with
    | nt hbody hu hv => exact ⟨_, hbody, _, _, rfl, hu, hv⟩
  · rintro ⟨body, hbody, u, v, rfl, hu, hv⟩
    exact Gen.nt hbody hu hv

/-- One nonterminal generates what its alternatives generate. -/
theorem gen_single : Gen P [.nt n] w ↔ ∃ body ∈ P n, Gen P body w := by
  rw [gen_nt]
  constructor
  · rintro ⟨body, hbody, u, v, rfl, hu, hv⟩
    rw [gen_nil.1 hv, List.append_nil]
    exact ⟨body, hbody, hu⟩
  · rintro ⟨body, hbody, h⟩
    exact ⟨body, hbody, w, [], (List.append_nil w).symm, h, Gen.nil⟩

theorem Gen.append {u v : List T} (hx : Gen P xs u) (hy : Gen P ys v) :
    Gen P (xs ++ ys) (u ++ v) := by
  induction hx with
  | nil => exact hy
  | tok _ ih => exact Gen.tok ih
  | nt hbody hu _ _ ih =>
      rw [List.append_assoc]
      exact Gen.nt hbody hu ih

theorem gen_append : Gen P (xs ++ ys) w ↔ ∃ u v, w = u ++ v ∧ Gen P xs u ∧ Gen P ys v := by
  constructor
  · intro h
    induction xs generalizing w with
    | nil => exact ⟨[], w, rfl, Gen.nil, h⟩
    | cons x xs ih =>
        cases x with
        | tok t =>
            obtain ⟨w', rfl, h'⟩ := gen_tok.1 h
            obtain ⟨u, v, rfl, hu, hv⟩ := ih h'
            exact ⟨t :: u, v, rfl, Gen.tok hu, hv⟩
        | nt n =>
            obtain ⟨body, hbody, a, w', rfl, ha, h'⟩ := gen_nt.1 h
            obtain ⟨u, v, rfl, hu, hv⟩ := ih h'
            exact ⟨a ++ u, v, (List.append_assoc a u v).symm, Gen.nt hbody ha hu, hv⟩
  · rintro ⟨u, v, rfl, hu, hv⟩
    exact hu.append hv

/-! ## Interpretations -/

theorem sem_append {S : N → List T → Prop} :
    Sem S (xs ++ ys) w ↔ ∃ u v, w = u ++ v ∧ Sem S xs u ∧ Sem S ys v := by
  induction xs generalizing w with
  | nil =>
      constructor
      · intro h
        exact ⟨[], w, rfl, rfl, h⟩
      · rintro ⟨u, v, rfl, hu, hv⟩
        cases hu
        exact hv
  | cons x xs ih =>
      cases x with
      | tok t =>
          constructor
          · rintro ⟨v, rfl, h⟩
            obtain ⟨a, b, rfl, ha, hb⟩ := ih.1 h
            exact ⟨t :: a, b, rfl, ⟨a, rfl, ha⟩, hb⟩
          · rintro ⟨_, b, rfl, ⟨a, rfl, ha⟩, hb⟩
            exact ⟨a ++ b, rfl, ih.2 ⟨a, b, rfl, ha, hb⟩⟩
      | nt n =>
          constructor
          · rintro ⟨u, v, rfl, hu, h⟩
            obtain ⟨a, b, rfl, ha, hb⟩ := ih.1 h
            exact ⟨u ++ a, b, (List.append_assoc u a b).symm, ⟨u, a, rfl, hu, ha⟩, hb⟩
          · rintro ⟨_, b, rfl, ⟨u, a, rfl, hu, ha⟩, hb⟩
            exact ⟨u, a ++ b, List.append_assoc u a b, hu, ih.2 ⟨a, b, rfl, ha, hb⟩⟩

theorem sem_single {S : N → List T → Prop} : Sem S [.nt n] w ↔ S n w := by
  constructor
  · rintro ⟨u, v, rfl, hu, hv⟩
    cases hv
    rw [List.append_nil]
    exact hu
  · intro h
    exact ⟨w, [], (List.append_nil w).symm, h, rfl⟩

/-- Only the nonterminals of the form count. -/
theorem Sem.mono {S S' : N → List T → Prop}
    (h : ∀ n, Sym.nt n ∈ xs → ∀ w, S n w → S' n w) (hs : Sem S xs w) :
    Sem S' xs w := by
  induction xs generalizing w with
  | nil => exact hs
  | cons x xs ih =>
      have hxs : ∀ n, Sym.nt n ∈ xs → ∀ w, S n w → S' n w :=
        fun n hn => h n (List.mem_cons_of_mem _ hn)
      cases x with
      | tok t =>
          obtain ⟨v, rfl, hv⟩ := hs
          exact ⟨v, rfl, ih hxs hv⟩
      | nt n =>
          obtain ⟨u, v, rfl, hu, hv⟩ := hs
          exact ⟨u, v, rfl, h n List.mem_cons_self u hu, ih hxs hv⟩

theorem sem_gen : Sem (fun n => Gen P [.nt n]) xs w ↔ Gen P xs w := by
  induction xs generalizing w with
  | nil => exact gen_nil.symm
  | cons x xs ih =>
      cases x with
      | tok t =>
          rw [gen_tok]
          exact exists_congr fun v => and_congr_right fun _ => ih
      | nt n =>
          rw [← List.singleton_append, gen_append]
          exact exists_congr fun u => exists_congr fun v => and_congr_right fun _ =>
            and_congr_right fun _ => ih

/-- What a grammar generates lies in every interpretation that its alternatives keep. -/
theorem Gen.sem {S : N → List T → Prop} (hS : ∀ n, ∀ body ∈ P n, ∀ w, Sem S body w → S n w)
    (h : Gen P xs w) : Sem S xs w := by
  induction h with
  | nil => rfl
  | tok _ ih => exact ⟨_, rfl, ih⟩
  | nt hbody _ _ ihu ihv => exact ⟨_, _, rfl, hS _ _ hbody _ ihu, ihv⟩

/-- A grammar generates what another does if it generates what the alternatives of the
other do. -/
theorem Gen.transfer (h : ∀ n, ∀ body ∈ P n, ∀ w, Gen Q body w → Gen Q [.nt n] w)
    (hgen : Gen P xs w) : Gen Q xs w :=
  sem_gen.1 (hgen.sem fun n body hbody w hw => h n body hbody w (sem_gen.1 hw))

/-! ## Sentential forms -/

/-- The forms that are derived from a form. -/
inductive Yields (P : N → Set (List (Sym N T))) : List (Sym N T) → List (Sym N T) → Prop
  | nil : Yields P [] []
  | keep (x : Sym N T) {xs ys : List (Sym N T)} : Yields P xs ys → Yields P (x :: xs) (x :: ys)
  | expand {n : N} {body xs ys zs : List (Sym N T)} : body ∈ P n → Yields P body ys →
      Yields P xs zs → Yields P (.nt n :: xs) (ys ++ zs)

/-- The tokens that can come first, by a leftmost derivation. -/
inductive Starts (P : N → Set (List (Sym N T))) : List (Sym N T) → T → Prop
  | tok (t : T) (xs : List (Sym N T)) : Starts P (.tok t :: xs) t
  | nt {n : N} {body : List (Sym N T)} {t : T} (xs : List (Sym N T)) : body ∈ P n →
      Starts P body t → Starts P (.nt n :: xs) t
  | skip {n : N} {xs : List (Sym N T)} {t : T} : Gen P [.nt n] [] → Starts P xs t →
      Starts P (.nt n :: xs) t

@[refl] theorem Yields.refl (xs : List (Sym N T)) : Yields P xs xs := by
  induction xs with
  | nil => exact Yields.nil
  | cons x xs ih => exact Yields.keep x ih

theorem Yields.append {us vs : List (Sym N T)} (h : Yields P xs us) (h' : Yields P ys vs) :
    Yields P (xs ++ ys) (us ++ vs) := by
  induction h with
  | nil => exact h'
  | keep x _ ih => exact Yields.keep x ih
  | expand hbody hys _ _ ih =>
      rw [List.append_assoc]
      exact Yields.expand hbody hys ih

theorem Gen.yields (h : Gen P xs w) : Yields P xs (w.map Sym.tok) := by
  induction h with
  | nil => exact Yields.nil
  | tok _ ih => exact Yields.keep _ ih
  | nt hbody _ _ ihu ihv =>
      rw [List.map_append]
      exact Yields.expand hbody ihu ihv

/-- The strings are the forms without nonterminals. -/
theorem yields_map_tok : Yields P xs (w.map Sym.tok) ↔ Gen P xs w := by
  constructor
  · intro h
    generalize hys : w.map Sym.tok = ys at h
    induction h generalizing w with
    | nil =>
        rw [List.map_eq_nil_iff.1 hys]
        exact Gen.nil
    | keep x _ ih =>
        obtain ⟨t, v, rfl, rfl, hv⟩ := List.map_eq_cons_iff.1 hys
        exact Gen.tok (ih hv)
    | expand hbody _ _ ihu ihv =>
        obtain ⟨u, v, rfl, hu, hv⟩ := List.map_eq_append_iff.1 hys
        exact Gen.nt hbody (ihu hu) (ihv hv)
  · exact Gen.yields

theorem starts_nil : ¬ Starts P [] t := by
  intro h
  cases h

theorem starts_tok {t' : T} : Starts P (.tok t' :: xs) t ↔ t' = t := by
  constructor
  · intro h
    cases h
    rfl
  · rintro rfl
    exact Starts.tok t' xs

theorem starts_single : Starts P [.nt n] t ↔ ∃ body ∈ P n, Starts P body t := by
  constructor
  · intro h
    cases h with
    | nt _ hbody h => exact ⟨_, hbody, h⟩
    | skip _ h => exact absurd h starts_nil
  · rintro ⟨body, hbody, h⟩
    exact Starts.nt [] hbody h

theorem starts_nt :
    Starts P (.nt n :: xs) t ↔ Starts P [.nt n] t ∨ Gen P [.nt n] [] ∧ Starts P xs t := by
  constructor
  · intro h
    cases h with
    | nt _ hbody h => exact Or.inl (Starts.nt [] hbody h)
    | skip hgen h => exact Or.inr ⟨hgen, h⟩
  · rintro (h | ⟨hgen, h⟩)
    · obtain ⟨body, hbody, h⟩ := starts_single.1 h
      exact Starts.nt xs hbody h
    · exact Starts.skip hgen h

theorem gen_nt_nil : Gen P (.nt n :: xs) [] ↔ Gen P [.nt n] [] ∧ Gen P xs [] := by
  rw [← List.singleton_append, gen_append]
  constructor
  · rintro ⟨u, v, huv, hu, hv⟩
    obtain ⟨rfl, rfl⟩ := List.append_eq_nil_iff.1 huv.symm
    exact ⟨hu, hv⟩
  · rintro ⟨hu, hv⟩
    exact ⟨[], [], rfl, hu, hv⟩

/-- A token comes first if a form that starts with it is derived. -/
theorem starts_iff_yields : Starts P xs t ↔ ∃ ys, Yields P xs (.tok t :: ys) := by
  constructor
  · intro h
    induction h with
    | tok t xs => exact ⟨xs, Yields.refl _⟩
    | nt xs hbody _ ih =>
        obtain ⟨ys, hys⟩ := ih
        exact ⟨ys ++ xs, Yields.expand hbody hys (Yields.refl xs)⟩
    | skip hgen _ ih =>
        obtain ⟨ys, hys⟩ := ih
        exact ⟨ys, hgen.yields.append hys⟩
  · rintro ⟨ys, h⟩
    generalize hzs : Sym.tok t :: ys = zs at h
    induction h generalizing ys with
    | nil => cases hzs
    | keep x _ _ =>
        cases hzs
        exact Starts.tok t _
    | expand hbody hbody' _ ihu ihv =>
        rcases List.append_eq_cons_iff.1 hzs.symm with ⟨rfl, hz⟩ | ⟨us, rfl, -⟩
        · have hgen : Gen P _ ([] : List T) := yields_map_tok.1 hbody'
          exact Starts.skip (gen_single.2 ⟨_, hbody, hgen⟩) (ihv ys hz.symm)
        · exact Starts.nt _ hbody (ihu us rfl)

/-- A string begins with a token that can come first. -/
theorem Gen.starts (h : Gen P xs (t :: w)) :
    Starts P xs t :=
  starts_iff_yields.2 ⟨_, h.yields⟩

/-- Where every nonterminal generates some string, what can come first does come first. -/
theorem Starts.gen {S : Set N} (hclosed : ∀ n ∈ S, ∀ body ∈ P n, ∀ m, Sym.nt m ∈ body → m ∈ S)
    (hprod : ∀ n ∈ S, ∃ w, Gen P [.nt n] w)
    (hxs : ∀ m, Sym.nt m ∈ xs → m ∈ S) (h : Starts P xs t) : ∃ w, Gen P xs (t :: w) := by
  have hall : ∀ xs : List (Sym N T), (∀ m, Sym.nt m ∈ xs → m ∈ S) → ∃ w, Gen P xs w := by
    intro xs hxs
    induction xs with
    | nil => exact ⟨[], Gen.nil⟩
    | cons x xs ih =>
        obtain ⟨w, hw⟩ := ih fun m hm => hxs m (List.mem_cons_of_mem _ hm)
        cases x with
        | tok t => exact ⟨t :: w, Gen.tok hw⟩
        | nt n =>
            obtain ⟨u, hu⟩ := hprod n (hxs n List.mem_cons_self)
            exact ⟨u ++ w, hu.append hw⟩
  induction h with
  | tok t xs =>
      obtain ⟨w, hw⟩ := hall xs fun m hm => hxs m (List.mem_cons_of_mem _ hm)
      exact ⟨w, Gen.tok hw⟩
  | nt xs hbody _ ih =>
      obtain ⟨u, hu⟩ := ih (hclosed _ (hxs _ List.mem_cons_self) _ hbody)
      obtain ⟨w, hw⟩ := hall xs fun m hm => hxs m (List.mem_cons_of_mem _ hm)
      exact ⟨u ++ w, Gen.nt hbody hu hw⟩
  | skip hgen _ ih =>
      obtain ⟨w, hw⟩ := ih fun m hm => hxs m (List.mem_cons_of_mem _ hm)
      exact ⟨w, hgen.append hw⟩

/-!
## Unfolding a nonterminal, and folding what alternatives have in common

Two changes of one nonterminal `r` that keep what every nonterminal generates. In the
first, some alternatives that start with `m` have it replaced by each of its
alternatives. In the second, some alternatives that begin alike are replaced by a
single one, in which a new nonterminal stands for what comes after.
-/

/-- In the alternatives of `r` that are `m` and one of `rests`, the nonterminal `m` has been
replaced. -/
structure Unfolds (P Q : N → Set (List (Sym N T))) (r m : N) (rests : Set (List (Sym N T))) :
    Prop where
  ne : m ≠ r
  other : ∀ n, n ≠ r → Q n = P n
  old : ∀ body ∈ P r, body ∈ Q r ∨ ∃ rest ∈ rests, body = .nt m :: rest
  kept : ∀ rest ∈ rests, ∀ body ∈ P m, body ++ rest ∈ Q r
  sub : ∀ rest ∈ rests, .nt m :: rest ∈ P r
  new : ∀ body ∈ Q r, body ∈ P r ∨ ∃ rest ∈ rests, ∃ part ∈ P m, body = part ++ rest

theorem Unfolds.gen_iff {r m : N} {rests : Set (List (Sym N T))} (h : Unfolds P Q r m rests) :
    Gen Q xs w ↔ Gen P xs w := by
  constructor
  · refine fun hgen => hgen.transfer fun n body hbody w hw => ?_
    by_cases hn : n = r
    · subst hn
      rcases h.new body hbody with hold | ⟨rest, hrest, part, hpart, rfl⟩
      · exact gen_single.2 ⟨body, hold, hw⟩
      · obtain ⟨u, v, rfl, hu, hv⟩ := gen_append.1 hw
        exact gen_single.2 ⟨_, h.sub rest hrest, Gen.nt hpart hu hv⟩
    · rw [h.other n hn] at hbody
      exact gen_single.2 ⟨body, hbody, hw⟩
  · refine fun hgen => hgen.transfer fun n body hbody w hw => ?_
    by_cases hn : n = r
    · subst hn
      rcases h.old body hbody with hnew | ⟨rest, hrest, rfl⟩
      · exact gen_single.2 ⟨body, hnew, hw⟩
      · obtain ⟨part, hpart, u, v, rfl, hu, hv⟩ := gen_nt.1 hw
        rw [h.other m h.ne] at hpart
        exact gen_single.2 ⟨_, h.kept rest hrest part hpart, hu.append hv⟩
    · exact gen_single.2 ⟨body, (h.other n hn).symm ▸ hbody, hw⟩

/-- The alternatives of `r` that are `pre` and one of `rests` have become one, which ends with
the new nonterminal `x`. -/
structure Folds (P Q : N → Set (List (Sym N T))) (r x : N) (pre : List (Sym N T))
    (rests : Set (List (Sym N T))) : Prop where
  ne : r ≠ x
  fresh : ∀ n, ∀ body ∈ P n, Sym.nt x ∉ body
  other : ∀ n, n ≠ r → n ≠ x → Q n = P n
  old : ∀ body ∈ P r, body ∈ Q r ∨ ∃ rest ∈ rests, body = pre ++ rest
  sub : ∀ rest ∈ rests, pre ++ rest ∈ P r
  one : pre ++ [.nt x] ∈ Q r
  new : ∀ body ∈ Q r, body ∈ P r ∨ body = pre ++ [.nt x]
  parts : Q x = rests
  none : P x = ∅

section

variable {r x : N} {pre : List (Sym N T)} {rests : Set (List (Sym N T))}

theorem Folds.gen (h : Folds P Q r x pre rests) (hgen : Gen P xs w) : Gen Q xs w := by
  refine hgen.transfer fun n body hbody w hw => ?_
  by_cases hn : n = r
  · subst hn
    rcases h.old body hbody with hnew | ⟨rest, hrest, rfl⟩
    · exact gen_single.2 ⟨body, hnew, hw⟩
    · obtain ⟨u, v, rfl, hu, hv⟩ := gen_append.1 hw
      refine gen_single.2 ⟨_, h.one, hu.append (gen_single.2 ⟨rest, ?_, hv⟩)⟩
      rw [h.parts]
      exact hrest
  · by_cases hx : n = x
    · rw [hx, h.none] at hbody
      exact absurd hbody (Set.notMem_empty body)
    · exact gen_single.2 ⟨body, (h.other n hn hx).symm ▸ hbody, hw⟩

/-- The interpretation in which `x` stands for `rests` is kept by the new alternatives. -/
theorem Folds.sem (h : Folds P Q r x pre rests) (hgen : Gen Q xs w) :
    Sem (fun n w => n ≠ x ∧ Gen P [.nt n] w ∨ n = x ∧ ∃ rest ∈ rests, Gen P rest w) xs w := by
  have hback : ∀ {body : List (Sym N T)}, Sym.nt x ∉ body → ∀ {w},
      Sem (fun n w => n ≠ x ∧ Gen P [.nt n] w ∨ n = x ∧ ∃ rest ∈ rests, Gen P rest w) body w →
      Gen P body w := by
    intro body hbody w hw
    refine sem_gen.1 (hw.mono fun n hn w hw => ?_)
    rcases hw with ⟨-, hw⟩ | ⟨rfl, -⟩
    · exact hw
    · exact absurd hn hbody
  refine hgen.sem fun n body hbody w hw => ?_
  by_cases hx : n = x
  · subst hx
    rw [h.parts] at hbody
    have hfresh : Sym.nt n ∉ body := by
      have hsub := h.fresh r _ (h.sub body hbody)
      exact fun hmem => hsub (List.mem_append_right _ hmem)
    exact Or.inr ⟨rfl, body, hbody, hback hfresh hw⟩
  refine Or.inl ⟨hx, ?_⟩
  by_cases hn : n = r
  · subst hn
    rcases h.new body hbody with hold | rfl
    · exact gen_single.2 ⟨body, hold, hback (h.fresh n body hold) hw⟩
    · obtain ⟨u, v, rfl, hu, hv⟩ := sem_append.1 hw
      obtain ⟨hne, -⟩ | ⟨-, rest, hrest, hgen'⟩ := sem_single.1 hv
      · exact absurd rfl hne
      have hsub := h.sub rest hrest
      have hpre : Sym.nt x ∉ pre :=
        fun hmem => h.fresh n _ hsub (List.mem_append_left _ hmem)
      exact gen_single.2 ⟨_, hsub, (hback hpre hu).append hgen'⟩
  · rw [h.other n hn hx] at hbody
    exact gen_single.2 ⟨body, hbody, hback (h.fresh n body hbody) hw⟩

/-- What does not mention the new nonterminal generates what it did. -/
theorem Folds.gen_iff (h : Folds P Q r x pre rests)
    (hxs : Sym.nt x ∉ xs) : Gen Q xs w ↔ Gen P xs w := by
  constructor
  · intro hgen
    refine sem_gen.1 ((h.sem hgen).mono fun n hn w hw => ?_)
    rcases hw with ⟨-, hw⟩ | ⟨rfl, -⟩
    · exact hw
    · exact absurd hn hxs
  · exact h.gen

/-- The new nonterminal generates what is left of the alternatives. -/
theorem Folds.gen_new (h : Folds P Q r x pre rests) :
    Gen Q [.nt x] w ↔ ∃ rest ∈ rests, Gen Q rest w := by
  rw [gen_single, h.parts]

end

end Tendra.Cfg
