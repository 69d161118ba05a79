import Mathlib.Computability.Language
import Tendra.Lib.Cfg

/-!
# Left recursion in grammars

## Left recursion made right recursion

Rules `A k = A j B, C` are replaced by `A i = C X i j` and
`X i j = $ (if i = j), B X i k`. A string of `X i j` is a walk from `j` to `i` whose
steps from `j` to `k` are the suffixes `B` by which `A k` continues from `A j`, so
that a walk can be lengthened at its end, which is what a left recursive call
does.
-/

namespace Tendra.Cfg

variable {N T ι : Type}
variable {i j : ι} {u v w : List T}

/-- The grammar `Q` is the grammar `P` without the left recursion of the rules `a`. -/
structure LeftRec (P Q : N → Set (List (Sym N T))) (a : ι → N) (x : ι → ι → N)
    (suf : ι → ι → Set (List (Sym N T))) (C : ι → Set (List (Sym N T))) (old : Set N) : Prop where
  rec_iff : ∀ k body, body ∈ P (a k) ↔
    body ∈ C k ∨ ∃ j, ∃ B ∈ suf j k, body = .nt (a j) :: B
  head_iff : ∀ i body, body ∈ Q (a i) ↔ ∃ j, ∃ c ∈ C j, body = c ++ [.nt (x i j)]
  tail_iff : ∀ i j body, body ∈ Q (x i j) ↔
    (i = j ∧ body = []) ∨ ∃ k, ∃ B ∈ suf j k, body = B ++ [.nt (x i k)]
  other : ∀ n ∈ old, n ∉ Set.range a → P n = Q n
  mem_old : ∀ i, a i ∈ old
  closed : ∀ n ∈ old, ∀ body ∈ P n, ∀ m, Sym.nt m ∈ body → m ∈ old

/-- The walks from `j` to `i`, whose steps are suffixes. -/
inductive Walk (P : N → Set (List (Sym N T))) (suf : ι → ι → Set (List (Sym N T))) :
    ι → ι → List T → Prop
  | refl (i : ι) : Walk P suf i i []
  | step {i j k : ι} {B : List (Sym N T)} {u v : List T} : B ∈ suf j k → Gen P B u →
      Walk P suf k i v → Walk P suf j i (u ++ v)

section

variable {P Q : N → Set (List (Sym N T))} {a : ι → N} {x : ι → ι → N}
  {suf : ι → ι → Set (List (Sym N T))} {C : ι → Set (List (Sym N T))} {old : Set N}

/-- A walk goes on at its end. -/
theorem Walk.snoc {k : ι} {B : List (Sym N T)} (h : Walk P suf j i u) (hB : B ∈ suf i k)
    (hv : Gen P B v) : Walk P suf j k (u ++ v) := by
  induction h with
  | refl i =>
      rw [List.nil_append, ← List.append_nil v]
      exact Walk.step hB hv (Walk.refl k)
  | step hB' hu' _ ih =>
      rw [List.append_assoc]
      exact Walk.step hB' hu' (ih hB)

theorem LeftRec.walk_gen (h : LeftRec P Q a x suf C old) (hw : Walk Q suf j i w) :
    Gen Q [.nt (x i j)] w := by
  induction hw with
  | refl i => exact gen_single.2 ⟨[], (h.tail_iff i i []).2 (Or.inl ⟨rfl, rfl⟩), Gen.nil⟩
  | step hB hu _ ih =>
      exact gen_single.2 ⟨_, (h.tail_iff _ _ _).2 (Or.inr ⟨_, _, hB, rfl⟩), hu.append ih⟩

theorem LeftRec.gen_walk (h : LeftRec P Q a x suf C old) (hw : Gen Q [.nt (x i j)] w) :
    Walk Q suf j i w := by
  have hsem := Gen.sem (S := fun n w => Gen Q [.nt n] w ∧
    ∀ i j, n = x i j → Walk Q suf j i w) ?_ hw
  · exact (sem_single.1 hsem).2 i j rfl
  · intro n body hbody w hw
    have hgen : Gen Q body w := sem_gen.1 (hw.mono fun n _ w hn => hn.1)
    refine ⟨gen_single.2 ⟨body, hbody, hgen⟩, ?_⟩
    rintro i j rfl
    rcases (h.tail_iff i j body).1 hbody with ⟨rfl, rfl⟩ | ⟨k, B, hB, rfl⟩
    · rw [gen_nil.1 hgen]
      exact Walk.refl i
    · obtain ⟨u, v, rfl, hu, hv⟩ := sem_append.1 hw
      exact Walk.step hB (sem_gen.1 (hu.mono fun n _ w hn => hn.1))
        ((sem_single.1 hv).2 i k rfl)

/-- The rules of the cycle take another turn. -/
theorem LeftRec.head_snoc (h : LeftRec P Q a x suf C old) {k : ι} {B : List (Sym N T)}
    (hu : Gen Q [.nt (a j)] u) (hB : B ∈ suf j k) (hv : Gen Q B v) :
    Gen Q [.nt (a k)] (u ++ v) := by
  obtain ⟨body, hbody, hgen⟩ := gen_single.1 hu
  obtain ⟨m, c, hc, rfl⟩ := (h.head_iff j body).1 hbody
  obtain ⟨u0, u1, rfl, hu0, hu1⟩ := gen_append.1 hgen
  have hwalk : Walk Q suf m k (u1 ++ v) := (h.gen_walk hu1).snoc hB hv
  refine gen_single.2 ⟨_, (h.head_iff k _).2 ⟨m, c, hc, rfl⟩, ?_⟩
  rw [List.append_assoc]
  exact hu0.append (h.walk_gen hwalk)

theorem LeftRec.gen_of_gen (h : LeftRec P Q a x suf C old) {n : N} (hn : n ∈ old)
    (hw : Gen P [.nt n] w) : Gen Q [.nt n] w := by
  refine sem_single.1 (Gen.sem (S := fun n w => n ∈ old → Gen Q [.nt n] w) ?_ hw) hn
  intro n body hbody w hsem hn
  have hclosed := h.closed n hn body hbody
  have hgen : Gen Q body w := sem_gen.1 (hsem.mono fun m hm w hS => hS (hclosed m hm))
  by_cases hrec : n ∈ Set.range a
  · obtain ⟨k, rfl⟩ := hrec
    rcases (h.rec_iff k body).1 hbody with hc | ⟨j, B, hB, rfl⟩
    · refine gen_single.2 ⟨_, (h.head_iff k _).2 ⟨k, body, hc, rfl⟩, ?_⟩
      rw [← List.append_nil w]
      exact hgen.append (h.walk_gen (Walk.refl k))
    · rw [← List.singleton_append, gen_append] at hgen
      obtain ⟨u, v, rfl, hu, hv⟩ := hgen
      exact h.head_snoc hu hB hv
  · exact gen_single.2 ⟨body, h.other n hn hrec ▸ hbody, hgen⟩

/-- A walk in the left recursive grammar is a nest of left recursive calls. -/
theorem LeftRec.gen_append_walk (h : LeftRec P Q a x suf C old) (hu : Gen P [.nt (a j)] u)
    (hv : Walk P suf j i v) : Gen P [.nt (a i)] (u ++ v) := by
  induction hv generalizing u with
  | refl i =>
      rw [List.append_nil]
      exact hu
  | step hB hgen _ ih =>
      rw [← List.append_assoc]
      refine ih (gen_single.2 ⟨_, (h.rec_iff _ _).2 (Or.inr ⟨_, _, hB, rfl⟩), ?_⟩)
      exact hu.append hgen

theorem LeftRec.gen_of_gen_tail (h : LeftRec P Q a x suf C old) {n : N} (hn : n ∈ old)
    (hw : Gen Q [.nt n] w) : Gen P [.nt n] w := by
  refine (sem_single.1 (Gen.sem (S := fun n w => (n ∈ old → Gen P [.nt n] w) ∧
    ∀ i j, n = x i j → Walk P suf j i w) ?_ hw)).1 hn
  intro n body hbody w hsem
  -- a form over the old rules only
  have hold : ∀ {xs : List (Sym N T)} {w : List T}, (∀ m, Sym.nt m ∈ xs → m ∈ old) →
      Sem (fun n w => (n ∈ old → Gen P [.nt n] w) ∧ ∀ i j, n = x i j → Walk P suf j i w) xs w →
      Gen P xs w := by
    intro xs w hxs hs
    exact sem_gen.1 (hs.mono fun m hm w hS => hS.1 (hxs m hm))
  refine ⟨?_, ?_⟩
  · intro hn
    by_cases hrec : n ∈ Set.range a
    · obtain ⟨i, rfl⟩ := hrec
      obtain ⟨j, c, hc, rfl⟩ := (h.head_iff i body).1 hbody
      obtain ⟨u, v, rfl, hu, hv⟩ := sem_append.1 hsem
      have hmem : c ∈ P (a j) := (h.rec_iff j c).2 (Or.inl hc)
      have hgen : Gen P c u := hold (h.closed _ (h.mem_old j) c hmem) hu
      exact h.gen_append_walk (gen_single.2 ⟨c, hmem, hgen⟩) ((sem_single.1 hv).2 i j rfl)
    · rw [← h.other n hn hrec] at hbody
      exact gen_single.2 ⟨body, hbody, hold (h.closed n hn body hbody) hsem⟩
  · rintro i j rfl
    rcases (h.tail_iff i j body).1 hbody with ⟨rfl, rfl⟩ | ⟨k, B, hB, rfl⟩
    · cases hsem
      exact Walk.refl i
    · obtain ⟨u, v, rfl, hu, hv⟩ := sem_append.1 hsem
      have hmem : Sym.nt (a j) :: B ∈ P (a k) := (h.rec_iff k _).2 (Or.inr ⟨j, B, hB, rfl⟩)
      have hgen : Gen P B u := hold (fun m hm =>
        h.closed _ (h.mem_old k) _ hmem m (List.mem_cons_of_mem _ hm)) hu
      exact Walk.step hB hgen ((sem_single.1 hv).2 i k rfl)

/-- The rules generate what they did. -/
theorem LeftRec.gen_iff (h : LeftRec P Q a x suf C old) {n : N} (hn : n ∈ old) (w : List T) :
    Gen Q [.nt n] w ↔ Gen P [.nt n] w :=
  ⟨h.gen_of_gen_tail hn, h.gen_of_gen hn⟩

end

/-!
## One left call moved to the end

The strings of a nonterminal `a = a D | E` are those of `E` with any number of those of
`D` behind them, and so are those of other rules that say the same. With `E` empty, that
is `a = D a | $`. With `D` of the form `C E`, it is `a = E x` and `x = C a | $`. Where `D`
and `E` have calls of `a` themselves, both grammars are closed under what the other one
does, so neither generates more.
-/

open scoped Computability

variable {l : Language T} {u v w : List T}

variable {P Q : N → Set (List (Sym N T))}

/-- The strings of a form, as a language. -/
def lang (P : N → Set (List (Sym N T))) (xs : List (Sym N T)) : Language T := { w | Gen P xs w }

theorem mem_lang {xs : List (Sym N T)} : w ∈ lang P xs ↔ Gen P xs w := Iff.rfl

theorem lang_append (xs ys : List (Sym N T)) : lang P (xs ++ ys) = lang P xs * lang P ys := by
  ext w
  rw [mem_lang, gen_append, Language.mem_mul]
  constructor
  · rintro ⟨u, v, rfl, hu, hv⟩
    exact ⟨u, hu, v, hv, rfl⟩
  · rintro ⟨u, hu, v, hv, rfl⟩
    exact ⟨u, v, rfl, hu, hv⟩

theorem kstar_snoc (hu : u ∈ l∗) (hv : v ∈ l) : u ++ v ∈ l∗ := by
  rw [← Language.one_add_kstar_mul_self_eq_kstar]
  exact Or.inr (Language.append_mem_mul hu hv)

theorem kstar_cons (hu : u ∈ l) (hv : v ∈ l∗) : u ++ v ∈ l∗ := by
  rw [← Language.one_add_self_mul_kstar_eq_kstar]
  exact Or.inr (Language.append_mem_mul hu hv)

/-- A property of a string made of strings of a language, from the first one on. -/
theorem kstar_induction {p : List T → Prop} (hnil : p []) (hcons : ∀ u ∈ l, ∀ v, p v → p (u ++ v))
    (h : w ∈ l∗) : p w := by
  obtain ⟨us, rfl, hus⟩ := Language.mem_kstar.1 h
  clear h
  induction us with
  | nil => exact hnil
  | cons u us ih =>
      have hrest : ∀ v ∈ us, v ∈ l := fun v hv => hus v (List.mem_cons_of_mem _ hv)
      exact hcons u (hus u List.mem_cons_self) _ (ih hrest)

/-- A property of such a string, from the last one on. -/
theorem kstar_induction_right {p : List T → Prop} (hnil : p [])
    (hsnoc : ∀ u, p u → ∀ v ∈ l, p (u ++ v)) (h : w ∈ l∗) : p w := by
  obtain ⟨us, rfl, hus⟩ := Language.mem_kstar.1 h
  clear h
  induction us using List.reverseRecOn with
  | nil => exact hnil
  | append_singleton us u ih =>
      have hrest : ∀ v ∈ us, v ∈ l := fun v hv => hus v (List.mem_append_left _ hv)
      rw [List.flatten_append, List.flatten_singleton]
      exact hsnoc _ (ih hrest) u
        (hus u (List.mem_append_right _ (List.mem_singleton_self u)))

/-! ## A left recursive rule -/

section

variable {a : N} {D E : List (Sym N T)}

/-- The strings of a rule with one left recursive alternative. -/
theorem lang_left (hP : ∀ body, body ∈ P a ↔ body = .nt a :: D ∨ body = E) :
    lang P [.nt a] = lang P E * (lang P D)∗ := by
  ext w
  constructor
  · intro h
    have hsem := Gen.sem (S := fun n w => Gen P [.nt n] w ∧
      (n = a → w ∈ lang P E * (lang P D)∗)) ?_ h
    · exact (sem_single.1 hsem).2 rfl
    · intro n body hbody w hw
      have hgen : Gen P body w := sem_gen.1 (hw.mono fun n _ w hn => hn.1)
      refine ⟨gen_single.2 ⟨body, hbody, hgen⟩, ?_⟩
      rintro rfl
      rcases (hP body).1 hbody with rfl | rfl
      · obtain ⟨u, v, rfl, hu, hv⟩ := hw
        obtain ⟨x, hx, y, hy, rfl⟩ := Language.mem_mul.1 (hu.2 rfl)
        rw [List.append_assoc]
        exact Language.append_mem_mul hx
          (kstar_snoc hy (sem_gen.1 (hv.mono fun n _ w hn => hn.1)))
      · rw [← List.append_nil w]
        exact Language.append_mem_mul hgen (Language.nil_mem_kstar _)
  · intro h
    obtain ⟨u, hu, v, hv, rfl⟩ := Language.mem_mul.1 h
    refine kstar_induction_right (p := fun v => u ++ v ∈ lang P [.nt a]) ?_ ?_ hv
    · rw [List.append_nil]
      exact gen_single.2 ⟨E, (hP E).2 (Or.inr rfl), hu⟩
    · intro v hv y hy
      rw [← List.append_assoc]
      exact gen_single.2 ⟨_, (hP _).2 (Or.inl rfl), hv.append hy⟩

/-- The strings of a rule with one right recursive alternative and an empty one. -/
theorem lang_right (hQ : ∀ body, body ∈ Q a ↔ body = D ++ [.nt a] ∨ body = []) :
    lang Q [.nt a] = (lang Q D)∗ := by
  ext w
  constructor
  · intro h
    have hsem := Gen.sem (S := fun n w => Gen Q [.nt n] w ∧ (n = a → w ∈ (lang Q D)∗)) ?_ h
    · exact (sem_single.1 hsem).2 rfl
    · intro n body hbody w hw
      have hgen : Gen Q body w := sem_gen.1 (hw.mono fun n _ w hn => hn.1)
      refine ⟨gen_single.2 ⟨body, hbody, hgen⟩, ?_⟩
      rintro rfl
      rcases (hQ body).1 hbody with rfl | rfl
      · obtain ⟨u, v, rfl, hu, hv⟩ := sem_append.1 hw
        exact kstar_cons (sem_gen.1 (hu.mono fun n _ w hn => hn.1)) ((sem_single.1 hv).2 rfl)
      · rw [gen_nil.1 hgen]
        exact Language.nil_mem_kstar _
  · intro h
    refine kstar_induction ?_ ?_ h
    · exact gen_single.2 ⟨[], (hQ []).2 (Or.inr rfl), Gen.nil⟩
    · intro u hu v hv
      exact gen_single.2 ⟨_, (hQ _).2 (Or.inl rfl), Gen.append hu hv⟩

/-- A rule that is empty or calls itself first may call itself last. -/
theorem gen_rotate (hP : ∀ body, body ∈ P a ↔ body = .nt a :: D ∨ body = [])
    (hQ : ∀ body, body ∈ Q a ↔ body = D ++ [.nt a] ∨ body = []) (hother : ∀ n, n ≠ a → P n = Q n)
    (xs : List (Sym N T)) (w : List T) : Gen Q xs w ↔ Gen P xs w := by
  have hleft : lang P [.nt a] = (lang P D)∗ := by
    rw [lang_left hP, show lang P [] = 1 from Set.ext fun w => gen_nil, one_mul]
  have hright := lang_right hQ
  constructor
  · refine Gen.transfer fun n body hbody w hw => ?_
    by_cases hn : n = a
    · subst hn
      rw [← mem_lang, hleft]
      rcases (hQ body).1 hbody with rfl | rfl
      · rw [← mem_lang, lang_append, hleft] at hw
        obtain ⟨u, hu, v, hv, rfl⟩ := Language.mem_mul.1 hw
        exact kstar_cons hu hv
      · rw [gen_nil.1 hw]
        exact Language.nil_mem_kstar _
    · exact gen_single.2 ⟨body, hother n hn ▸ hbody, hw⟩
  · refine Gen.transfer fun n body hbody w hw => ?_
    by_cases hn : n = a
    · subst hn
      rw [← mem_lang, hright]
      rcases (hP body).1 hbody with rfl | rfl
      · rw [← mem_lang, ← List.singleton_append, lang_append, hright] at hw
        obtain ⟨u, hu, v, hv, rfl⟩ := Language.mem_mul.1 hw
        exact kstar_snoc hu hv
      · rw [gen_nil.1 hw]
        exact Language.nil_mem_kstar _
    · exact gen_single.2 ⟨body, hother n hn ▸ hbody, hw⟩

end

/-! ## A common suffix -/

section

variable {a x : N} {B C : List (Sym N T)}

/-- The strings of a rule that ends with a new rule, which may call it again. -/
theorem lang_suffix (hax : a ≠ x) (ha : ∀ body, body ∈ Q a ↔ body = B ++ [.nt x])
    (hx : ∀ body, body ∈ Q x ↔ body = C ++ [.nt a] ∨ body = []) :
    lang Q [.nt x] = (lang Q C * lang Q B)∗ := by
  ext w
  constructor
  · intro h
    have hsem := Gen.sem (S := fun n w => Gen Q [.nt n] w ∧
      (n = x → w ∈ (lang Q C * lang Q B)∗) ∧
      (n = a → w ∈ lang Q B * (lang Q C * lang Q B)∗)) ?_ h
    · exact (sem_single.1 hsem).2.1 rfl
    · intro n body hbody w hw
      have hgen : Gen Q body w := sem_gen.1 (hw.mono fun n _ w hn => hn.1)
      refine ⟨gen_single.2 ⟨body, hbody, hgen⟩, ?_, ?_⟩
      · rintro rfl
        rcases (hx body).1 hbody with rfl | rfl
        · obtain ⟨u, v, rfl, hu, hv⟩ := sem_append.1 hw
          obtain ⟨b, hb, y, hy, rfl⟩ := Language.mem_mul.1 ((sem_single.1 hv).2.2 rfl)
          rw [← List.append_assoc]
          have hu : u ∈ lang Q C := sem_gen.1 (hu.mono fun n _ w hn => hn.1)
          exact kstar_cons (Language.append_mem_mul hu hb) hy
        · rw [gen_nil.1 hgen]
          exact Language.nil_mem_kstar _
      · rintro rfl
        obtain rfl := (ha body).1 hbody
        obtain ⟨u, v, rfl, hu, hv⟩ := sem_append.1 hw
        have hu : u ∈ lang Q B := sem_gen.1 (hu.mono fun n _ w hn => hn.1)
        exact Language.append_mem_mul hu ((sem_single.1 hv).2.1 rfl)
  · intro h
    refine kstar_induction ?_ ?_ h
    · exact gen_single.2 ⟨[], (hx []).2 (Or.inr rfl), Gen.nil⟩
    · intro u hu v hv
      obtain ⟨c, hc, b, hb, rfl⟩ := Language.mem_mul.1 hu
      have hcall : Gen Q [.nt a] (b ++ v) :=
        gen_single.2 ⟨_, (ha _).2 rfl, Gen.append hb hv⟩
      rw [List.append_assoc]
      exact gen_single.2 ⟨_, (hx _).2 (Or.inl rfl), Gen.append hc hcall⟩

/-- A rule that ends as it ends behind its left call may have the call at the end of a
new rule. -/
theorem gen_suffix (hax : a ≠ x) (hP : ∀ body, body ∈ P a ↔ body = .nt a :: (C ++ B) ∨ body = B)
    (ha : ∀ body, body ∈ Q a ↔ body = B ++ [.nt x])
    (hx : ∀ body, body ∈ Q x ↔ body = C ++ [.nt a] ∨ body = [])
    (hother : ∀ n, n ≠ a → n ≠ x → P n = Q n)
    (hfresh : ∀ n, ∀ body ∈ P n, n ≠ x ∧ Sym.nt x ∉ body) {n : N} (hn : n ≠ x) (w : List T) :
    Gen Q [.nt n] w ↔ Gen P [.nt n] w := by
  have hleft : lang P [.nt a] = lang P B * (lang P C * lang P B)∗ := by
    rw [lang_left hP, lang_append]
  have hnew := lang_suffix hax ha hx
  have hcall : Sym.nt x ∉ C ++ B := fun h =>
    (hfresh a _ ((hP _).2 (Or.inl rfl))).2 (List.mem_cons_of_mem _ h)
  constructor
  · intro h
    -- the new rule stands for what follows the first alternative
    have hsem := Gen.sem (S := fun n w => (n ≠ x → Gen P [.nt n] w) ∧
      (n = x → w ∈ (lang P C * lang P B)∗)) ?_ h
    · exact (sem_single.1 hsem).1 hn
    · intro n body hbody w hw
      have hold : ∀ {xs : List (Sym N T)} {v : List T}, Sym.nt x ∉ xs →
          Sem (fun n w => (n ≠ x → Gen P [.nt n] w) ∧
            (n = x → w ∈ (lang P C * lang P B)∗)) xs v → Gen P xs v := by
        intro xs v hxs hv
        refine sem_gen.1 (hv.mono fun m hm w hw => hw.1 ?_)
        rintro rfl
        exact hxs hm
      have hB : Sym.nt x ∉ B := fun h => hcall (List.mem_append_right C h)
      have hC : Sym.nt x ∉ C := fun h => hcall (List.mem_append_left B h)
      constructor
      · intro hnx
        by_cases hna : n = a
        · subst hna
          obtain rfl := (ha body).1 hbody
          obtain ⟨u, v, rfl, hu, hv⟩ := sem_append.1 hw
          rw [← mem_lang, hleft]
          exact Language.append_mem_mul (hold hB hu) ((sem_single.1 hv).2 rfl)
        · rw [← hother n hna hnx] at hbody
          exact gen_single.2 ⟨body, hbody, hold (hfresh n body hbody).2 hw⟩
      · rintro rfl
        rcases (hx body).1 hbody with rfl | rfl
        · obtain ⟨u, v, rfl, hu, hv⟩ := sem_append.1 hw
          have hv : v ∈ lang P [.nt a] := (sem_single.1 hv).1 hax
          rw [hleft] at hv
          obtain ⟨b, hb, y, hy, rfl⟩ := Language.mem_mul.1 hv
          rw [← List.append_assoc]
          exact kstar_cons (Language.append_mem_mul (hold hC hu) hb) hy
        · rw [show w = [] from hw]
          exact Language.nil_mem_kstar _
  · refine Gen.transfer fun n body hbody w hw => ?_
    by_cases hna : n = a
    · subst hna
      rcases (hP body).1 hbody with rfl | rfl
      · rw [← List.singleton_append, gen_append] at hw
        obtain ⟨u, v, rfl, hu, hv⟩ := hw
        obtain ⟨body, hbody, hu⟩ := gen_single.1 hu
        obtain rfl := (ha body).1 hbody
        obtain ⟨b, y, rfl, hb, hy⟩ := gen_append.1 hu
        rw [← mem_lang, lang_append] at hv
        rw [← mem_lang, hnew] at hy
        have hnext := kstar_snoc hy hv
        rw [← hnew] at hnext
        rw [List.append_assoc]
        exact gen_single.2 ⟨_, (ha _).2 rfl, Gen.append hb hnext⟩
      · have hempty : Gen Q [.nt x] [] := gen_single.2 ⟨[], (hx []).2 (Or.inr rfl), Gen.nil⟩
        have hend := hw.append hempty
        rw [List.append_nil] at hend
        exact gen_single.2 ⟨_, (ha _).2 rfl, hend⟩
    · exact gen_single.2 ⟨body, hother n hna (hfresh n body hbody).1 ▸ hbody, hw⟩

end

end Tendra.Cfg
