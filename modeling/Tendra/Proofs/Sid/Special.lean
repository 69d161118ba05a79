import Tendra.Proofs.Sid.Lre

/-!
# The special cases of left recursion elimination

With an empty alternative the left call moves to the end of its alternative, which keeps
the strings. What was behind it comes first then, which is the call again if there was
nothing else. The suffix that the other alternative has to be is compared by table
entries, so that an action may stand there for a predicate.
-/

namespace Tendra.Ref.Sid

open Tendra.Cfg

variable {T : Nat}
variable {rule suffix : Nat} {g : Grammar T} {identity : Option Nat}

/-! ## The suffix -/

theorem suffixDiff_eq (recItems nonRecItems : Alt T) :
    suffixDiff recItems nonRecItems = recItems.length - nonRecItems.length := by
  fun_induction suffixDiff recItems nonRecItems with
  | case1 _ _ recNext nonRecNext ih =>
      rw [ih, List.length_cons, List.length_cons]
      omega
  | case2 recItems nonRecItems h =>
      cases nonRecItems with
      | nil => rfl
      | cons nonRecItem nonRecNext =>
          cases recItems with
          | nil => exact (Nat.zero_sub _).symm
          | cons recItem recNext => exact absurd rfl (h recItem recNext nonRecItem nonRecNext rfl)

theorem sameEntries_iff {recItems nonRecItems : Alt T}
    (h : recItems.length = nonRecItems.length) : sameEntries recItems nonRecItems = true ↔
      recItems.map (·.entry.tableEntry) = nonRecItems.map (·.entry.tableEntry) := by
  induction recItems generalizing nonRecItems with
  | nil =>
      obtain rfl := List.length_eq_zero_iff.1 h.symm
      exact iff_of_true rfl rfl
  | cons recItem recNext ih =>
      cases nonRecItems with
      | nil => cases h
      | cons nonRecItem nonRecNext =>
          have ih := ih (Nat.succ.inj h)
          simp only [sameEntries, List.map_cons, List.cons.injEq]
          split
          · next hne => exact iff_of_false Bool.false_ne_true fun hmap => hne hmap.1
          · next heq => rw [ih, and_iff_right (not_not.1 heq)]

/-- What has been found has the length of the other alternative, and its table entries. -/
theorem findSuffix_spec {recItems nonRecItems : Alt T}
    (h : findSuffix recItems nonRecItems = some suffix) :
    0 < suffix ∧ recItems.length = suffix + nonRecItems.length ∧
      (recItems.drop suffix).map (·.entry.tableEntry) =
        nonRecItems.map (·.entry.tableEntry) := by
  unfold findSuffix at h
  rw [suffixDiff_eq] at h
  simp only at h
  split at h
  · cases h
  · next hdiff =>
      split at h
      · next hsame =>
          obtain rfl := Option.some.inj h
          have hlen : recItems.length =
              recItems.length - nonRecItems.length + nonRecItems.length := by omega
          refine ⟨Nat.pos_of_ne_zero hdiff, hlen, (sameEntries_iff ?_).1 hsame⟩
          rw [List.length_drop]
          omega
      · cases h

/-! ## The rules that come out -/

/-- What `rule_left_cycle_special_case_2` leaves. -/
structure Special2 (identity : Option Nat) (rule : Nat) (nonRecAlt mid : Alt T)
    (g g' : Grammar T) : Prop where
  alts : (g'.rule rule).alts = [nonRecAlt ++ [itemCreate (.rule g.size)]]
  emptyAlt : (g'.rule rule).hasEmptyAlt = false
  newAlts : (g'.rule g.size).alts = (mid ++ [itemCreate (.rule rule)]) ::
    identity.toList.map fun e => [itemCreate (.rename e)]
  newEmptyAlt : (g'.rule g.size).hasEmptyAlt = identity.isNone
  other : ∀ r, r ≠ rule → r ≠ g.size → g'.rule r = g.rule r

theorem specialCase2_spec (g : Grammar T) (hr : rule < g.size) (identity : Option Nat)
    (nonRecAlt recAlt : Alt T) (suffix : Nat) :
    Special2 identity rule nonRecAlt ((recAlt.take suffix).drop 1) g
      (specialCase2 identity rule nonRecAlt recAlt suffix g) := by
  have hne : rule ≠ g.size := hr.ne
  have hne' : g.size ≠ rule := hr.ne'
  cases identity with
  | none =>
      constructor
      all_goals
        simp +contextual [specialCase2, addIdentity, Grammar.addEmptyAlt, Grammar.addAlt,
          Grammar.setRule, Grammar.addGeneratedRule, Rule.reinit, ruleCreate, hne, hne']
  | some e =>
      constructor
      all_goals
        simp +contextual [specialCase2, addIdentity, Grammar.addAlt,
          Grammar.setRule, Grammar.addGeneratedRule, Rule.reinit, ruleCreate, hne, hne']

section

variable {nonRecAlt mid : Alt T} {g g' : Grammar T}

theorem Special2.prods (h : Special2 identity rule nonRecAlt mid g g')
    (body : List (Sym Nat (Entry T))) : body ∈ g'.prods notRename rule ↔
      body = Alt.form notRename nonRecAlt ++ [.nt g.size] := by
  simp [Grammar.prods, h.alts, h.emptyAlt]

theorem Special2.newProds (h : Special2 identity rule nonRecAlt mid g g')
    (body : List (Sym Nat (Entry T))) : body ∈ g'.prods notRename g.size ↔
      body = Alt.form notRename mid ++ [.nt rule] ∨ body = [] := by
  cases identity with
  | none => simp [Grammar.prods, h.newAlts, h.newEmptyAlt, or_comm]
  | some e =>
      have hrename : Alt.form notRename [itemCreate (T := T) (.rename e)] = [] := rfl
      simp [Grammar.prods, h.newAlts, h.newEmptyAlt, hrename]

theorem Special2.otherProds (h : Special2 identity rule nonRecAlt mid g g') {r : Nat}
    (hrule : r ≠ rule) (hnew : r ≠ g.size) : g'.prods notRename r = g.prods notRename r := by
  unfold Grammar.prods
  rw [h.other r hrule hnew]

end

/-! ## The runs that succeed -/

/-- The alternative with the left call, and what has been found of the other one. -/
structure Special1 (rule : Nat) (recAlt nonRecAlt : Alt T) (suffix : Nat) (g : Grammar T) :
    Prop where
  mem : ∀ alt, alt ∈ (g.rule rule).alts ↔ alt = recAlt ∨ alt = nonRecAlt
  emptyAlt : (g.rule rule).hasEmptyAlt = false
  recStarts : startsWith rule recAlt = true
  nonRecStarts : startsWith rule nonRecAlt = false
  found : findSuffix recAlt nonRecAlt = some suffix

theorem specialCase1_cases {typesMatch : Bool} {g' : Grammar T}
    (hempty : (g.rule rule).hasEmptyAlt = false)
    (hrec : ∃ alt ∈ (g.rule rule).alts, startsWith rule alt = true)
    (hrun : specialCase1 typesMatch identity rule g = some g') :
    ∃ recAlt nonRecAlt suffix, Special1 rule recAlt nonRecAlt suffix g ∧
      specialCase2 identity rule nonRecAlt recAlt suffix g = g' := by
  unfold specialCase1 at hrun
  split at hrun
  · next alt next halts =>
      rw [halts] at hrec
      -- the two alternatives are taken in the order in which the first one has the call
      obtain ⟨recAlt, nonRecAlt, hmem, hrecAlt, hrun⟩ : ∃ recAlt nonRecAlt : Alt T,
          (∀ a, a ∈ [alt, next] ↔ a = recAlt ∨ a = nonRecAlt) ∧
          (startsWith rule nonRecAlt = false → startsWith rule recAlt = true) ∧
          (if startsWith rule nonRecAlt then none
            else if typesMatch = false then none
            else (findSuffix recAlt nonRecAlt).bind fun suffix =>
              some (specialCase2 identity rule nonRecAlt recAlt suffix g)) = some g' := by
        cases hnext : startsWith rule next with
        | true =>
            rw [hnext] at hrun
            exact ⟨next, alt, fun a => List.mem_pair.trans or_comm, fun _ => hnext, hrun⟩
        | false =>
            rw [hnext] at hrun
            refine ⟨alt, next, fun a => List.mem_pair, fun _ => ?_, hrun⟩
            obtain ⟨a, ha, hstart⟩ := hrec
            rcases List.mem_pair.1 ha with rfl | rfl
            · exact hstart
            · rw [hnext] at hstart
              cases hstart
      split at hrun
      · cases hrun
      · next hnon =>
          have hnon := Bool.eq_false_of_not_eq_true hnon
          split at hrun
          · cases hrun
          · obtain ⟨suffix, hfound, hrun⟩ := Option.bind_eq_some_iff.1 hrun
            refine ⟨recAlt, nonRecAlt, suffix, ⟨?_, hempty, hrecAlt hnon, hnon, hfound⟩,
              Option.some.inj hrun⟩
            intro a
            rw [halts]
            exact hmem a
  · cases hrun

theorem specialCase_cases {typesMatch : Bool} {g' : Grammar T}
    (hrec : ∃ alt ∈ (g.rule rule).alts, startsWith rule alt = true)
    (hrun : specialCase typesMatch identity rule g = some g') :
    ((g.rule rule).hasEmptyAlt = true ∧ ∃ item next, item.entry = .rule rule ∧
      (g.rule rule).alts = [item :: next] ∧
      g.setRule rule { g.rule rule with alts := [next ++ [item]] } = g') ∨
    ∃ recAlt nonRecAlt suffix, Special1 rule recAlt nonRecAlt suffix g ∧
      specialCase2 identity rule nonRecAlt recAlt suffix g = g' := by
  unfold specialCase at hrun
  split at hrun
  · next hempty => exact Or.inr (specialCase1_cases hempty hrec hrun)
  · next hempty =>
      split at hrun
      · next item next halts =>
          obtain ⟨alt, halt, hstart⟩ := hrec
          rw [halts] at halt
          obtain rfl := List.mem_singleton.1 halt
          refine Or.inl ⟨Bool.eq_true_of_not_eq_false hempty, item, next, of_decide_eq_true hstart,
            halts, Option.some.inj hrun⟩
      · cases hrun

/-! ## The language -/

theorem Grammar.Wf.fresh (hwf : g.Wf) {n : Nat} {body : List (Sym Nat (Entry T))}
    (hbody : body ∈ g.prods notRename n) : n < g.size ∧ Sym.nt g.size ∉ body := by
  have hn : n < g.size := by
    by_contra hn
    rcases hbody with ⟨hempty, -⟩ | ⟨alt, halt, -⟩
    · rw [hwf.blank n (Nat.not_lt.1 hn)] at hempty
      cases hempty
    · rw [hwf.blank n (Nat.not_lt.1 hn)] at halt
      cases halt
  exact ⟨hn, fun hmem => (hwf.prods_lt hn hbody hmem).false⟩

/-- The suffix is the other alternative also in what its actions are called as. -/
def SameKinds (g : Grammar T) (rule : Nat) : Prop :=
  ∀ recAlt ∈ (g.rule rule).alts, ∀ nonRecAlt ∈ (g.rule rule).alts,
    startsWith rule recAlt = true → startsWith rule nonRecAlt = false →
    nonRecAlt.map Item.entry <:+ recAlt.map Item.entry

/-- Where there is an empty alternative, something else follows the left call. -/
def MovesCall (g : Grammar T) (rule : Nat) : Prop :=
  (g.rule rule).hasEmptyAlt = true → ∀ item next, item :: next ∈ (g.rule rule).alts →
    next ≠ [] ∧ startsWith rule next = false

theorem rotated_strings {item : Item T} {next : Alt T} (hempty : (g.rule rule).hasEmptyAlt = true)
    (hentry : item.entry = .rule rule) (halts : (g.rule rule).alts = [item :: next]) (r : Nat)
    (w : List (Entry T)) :
    (g.setRule rule { g.rule rule with alts := [next ++ [item]] }).Strings r w ↔
      g.Strings r w := by
  have hitem : Alt.form notRename [item] = [.nt rule] := form_cons_rule hentry []
  refine gen_rotate (a := rule) (D := Alt.form notRename next) ?_ ?_ ?_ [.nt r] w
  · intro body
    simp [Grammar.prods, halts, hempty, form_cons_rule hentry, or_comm]
  · intro body
    simp [Grammar.prods, Grammar.setRule, hempty, hitem, or_comm]
  · intro n hn
    simp [Grammar.prods, Grammar.setRule, hn]

theorem Special1.suffix_form {recAlt nonRecAlt : Alt T}
    (h : Special1 rule recAlt nonRecAlt suffix g) (hkinds : SameKinds g rule) :
    Alt.form notRename recAlt = .nt rule ::
      (Alt.form notRename ((recAlt.take suffix).drop 1) ++ Alt.form notRename nonRecAlt) := by
  obtain ⟨hpos, hlen, -⟩ := findSuffix_spec h.found
  have hsuffix : Alt.form notRename (recAlt.drop suffix) = Alt.form notRename nonRecAlt := by
    refine form_entries ?_
    have hkind := hkinds recAlt ((h.mem _).2 (Or.inl rfl)) nonRecAlt ((h.mem _).2 (Or.inr rfl))
      h.recStarts h.nonRecStarts
    rw [List.suffix_iff_eq_drop.1 hkind, List.map_drop, List.length_map, List.length_map]
    congr 1
    omega
  cases recAlt with
  | nil => cases h.recStarts
  | cons item next =>
      obtain ⟨n, rfl⟩ := Nat.exists_eq_succ_of_ne_zero hpos.ne'
      rw [form_cons_rule (of_decide_eq_true h.recStarts), ← hsuffix, ← form_append]
      congr 2
      exact (List.take_append_drop n next).symm

theorem Special1.strings {recAlt nonRecAlt : Alt T} (hwf : g.Wf) (hr : rule < g.size)
    (h : Special1 rule recAlt nonRecAlt suffix g) (hkinds : SameKinds g rule) {r : Nat}
    (hrlt : r < g.size) (w : List (Entry T)) :
    (specialCase2 identity rule nonRecAlt recAlt suffix g).Strings r w ↔ g.Strings r w := by
  have hspec := specialCase2_spec g hr identity nonRecAlt recAlt suffix
  refine gen_suffix hr.ne ?_ hspec.prods hspec.newProds ?_ ?_ hrlt.ne w
  · intro body
    have hform := h.suffix_form hkinds
    simp [Grammar.prods, h.mem, h.emptyAlt, hform]
  · intro n hrule hnew
    exact (hspec.otherProds hrule hnew).symm
  · intro n body hbody
    exact ⟨(hwf.fresh hbody).1.ne, (hwf.fresh hbody).2⟩

/-! ## The left call -/

theorem startsWith_append {alt : Alt T} (h : alt ≠ []) (rest : Alt T) :
    startsWith rule (alt ++ rest) = startsWith rule alt := by
  cases alt with
  | nil => exact absurd rfl h
  | cons item next => rfl

theorem rotated_starts_iff {item : Item T} (hentry : item.entry = .rule rule) (next : Alt T) :
    startsWith rule (next ++ [item]) = false ↔ next ≠ [] ∧ startsWith rule next = false := by
  cases next with
  | nil =>
      have hstart : startsWith rule [item] = true := decide_eq_true hentry
      refine iff_of_false ?_ fun h => h.1 rfl
      rw [List.nil_append, hstart]
      exact Bool.noConfusion
  | cons head tail =>
      have hne : head :: tail ≠ [] := List.cons_ne_nil head tail
      rw [startsWith_append hne, and_iff_right hne]

/-- Where it succeeds, a rule that calls itself on the left keeps its strings if the
alternatives agree in what their actions are called as, and has lost the left call exactly
if something else followed it. -/
theorem specialCase_exact {typesMatch : Bool} {identity : Option Nat} {rule : Nat}
    {g g' : Grammar T} (hwf : g.Wf) (hr : rule < g.size)
    (hrec : ∃ alt ∈ (g.rule rule).alts, startsWith rule alt = true)
    (hrun : specialCase typesMatch identity rule g = some g') :
    (SameKinds g rule → ∀ r < g.size, ∀ w, g'.Strings r w ↔ g.Strings r w) ∧
    ((∀ alt ∈ (g'.rule rule).alts, startsWith rule alt = false) ↔ MovesCall g rule) := by
  rcases specialCase_cases hrec hrun with ⟨hempty, item, next, hentry, halts, rfl⟩ |
    ⟨recAlt, nonRecAlt, suffix, h, rfl⟩
  · refine ⟨fun _ r _ w => rotated_strings hempty hentry halts r w, ?_⟩
    have halts' : ((g.setRule rule { g.rule rule with alts := [next ++ [item]] }).rule rule).alts =
        [next ++ [item]] := by
      simp [Grammar.setRule]
    rw [halts', List.forall_mem_singleton, rotated_starts_iff hentry]
    constructor
    · intro hnext _ item' next' hmem
      rw [halts] at hmem
      obtain ⟨-, rfl⟩ := List.cons.inj (List.mem_singleton.1 hmem)
      exact hnext
    · intro hmoves
      exact hmoves hempty item next (halts ▸ List.mem_singleton_self _)
  · refine ⟨fun hkinds r hrlt w => h.strings hwf hr hkinds hrlt w, ?_⟩
    have hspec := specialCase2_spec g hr identity nonRecAlt recAlt suffix
    have hne : nonRecAlt ≠ [] := hwf.nonempty rule hr nonRecAlt ((h.mem _).2 (Or.inr rfl))
    rw [hspec.alts, List.forall_mem_singleton, startsWith_append hne]
    refine iff_of_true h.nonRecStarts fun hempty => ?_
    rw [h.emptyAlt] at hempty
    cases hempty

/-- `A = A b c, c`. -/
def suffixed : Grammar 2 :=
  tableOf [⟨false, [[itemCreate (.rule 0), itemCreate (.basic ⟨0, Nat.zero_lt_two⟩),
      itemCreate (.basic ⟨1, Nat.one_lt_two⟩)],
    [itemCreate (.basic ⟨1, Nat.one_lt_two⟩)]], none, 0⟩]

theorem specialCase_exact_suffixed : ∃ g', specialCase true none 0 suffixed = some g' ∧
    (∀ w, g'.Strings 0 w ↔ suffixed.Strings 0 w) ∧
    ∀ alt ∈ (g'.rule 0).alts, startsWith 0 alt = false := by
  have hwf : suffixed.Wf := tableOf_wf rfl
  have hrec : ∃ alt ∈ (suffixed.rule 0).alts, startsWith 0 alt = true :=
    ⟨_, List.mem_cons_self, rfl⟩
  obtain ⟨g', hrun⟩ : ∃ g', specialCase true none 0 suffixed = some g' := ⟨_, rfl⟩
  have h := specialCase_exact hwf (by decide) hrec hrun
  refine ⟨g', hrun, h.1 ?_ 0 (by decide), h.2.2 ?_⟩
  · intro recAlt hrecAlt nonRecAlt hnonRecAlt hstart hnon
    rcases List.mem_pair.1 hrecAlt with rfl | rfl
    · rcases List.mem_pair.1 hnonRecAlt with rfl | rfl
      · cases hnon
      · exact ⟨[.rule 0, .basic 0], rfl⟩
    · cases hstart
  · intro hempty
    cases hempty

/-- `A = A, $`. -/
def emptyCall : Grammar 0 := tableOf [⟨true, [[itemCreate (.rule 0)]], none, 0⟩]

/-- The call is moved behind nothing. -/
theorem not_specialCase_moves : emptyCall.Wf ∧
    (∃ alt ∈ (emptyCall.rule 0).alts, startsWith 0 alt = true) ∧
    ∃ g', specialCase true none 0 emptyCall = some g' ∧
      ∃ alt ∈ (g'.rule 0).alts, startsWith 0 alt = true :=
  ⟨tableOf_wf rfl, ⟨_, List.mem_cons_self, rfl⟩, _, rfl, _, List.mem_cons_self, rfl⟩

/-- `A = A b ? = <a>, <a>`. -/
def twoKinds : Grammar 1 :=
  tableOf [⟨false, [[itemCreate (.rule 0), itemCreate (.basic ⟨0, Nat.one_pos⟩),
      itemCreate (.predicate 0)],
    [itemCreate (.action 0)]], none, 0⟩]

/-- The predicate is lost. -/
theorem not_specialCase_strings : twoKinds.Wf ∧
    ∃ g', specialCase true none 0 twoKinds = some g' ∧
      twoKinds.Strings 0 [.action 0, .basic 0, .predicate 0] ∧
      ¬ g'.Strings 0 [.action 0, .basic 0, .predicate 0] := by
  have hspec := specialCase2_spec twoKinds Nat.one_pos none [itemCreate (.action 0)]
    [itemCreate (.rule 0), itemCreate (.basic 0), itemCreate (.predicate 0)] 2
  have hwf : twoKinds.Wf := tableOf_wf rfl
  refine ⟨hwf, _, rfl, ?_, ?_⟩
  · have ha : Gen (twoKinds.prods notRename) [.nt 0] [.action 0] :=
      gen_single.2 ⟨[.tok (.action 0)], Or.inr ⟨[itemCreate (.action 0)], by decide, rfl⟩,
        Gen.tok Gen.nil⟩
    refine gen_single.2 ⟨[.nt 0, .tok (.basic 0), .tok (.predicate 0)], Or.inr
      ⟨[itemCreate (.rule 0), itemCreate (.basic 0), itemCreate (.predicate 0)], by decide, rfl⟩,
      ?_⟩
    exact ha.append (Gen.tok (Gen.tok Gen.nil))
  · intro h
    have hsem := Gen.sem (S := fun _ w => Entry.predicate 0 ∉ w) ?_ h
    · exact sem_single.1 hsem (by decide)
    · intro n body hbody w hw
      by_cases hn : n = 0
      · subst hn
        obtain rfl := (hspec.prods body).1 hbody
        obtain ⟨v, rfl, hv⟩ := hw
        have hv := sem_single.1 hv
        simp [hv, itemCreate]
      · by_cases hn' : n = 1
        · subst hn'
          rcases (hspec.newProds body).1 hbody with rfl | rfl
          · obtain ⟨v, rfl, hv⟩ := hw
            have hv := sem_single.1 hv
            simp [hv, itemCreate]
          · rw [show w = [] from hw]
            exact List.not_mem_nil
        · have hold := (hspec.otherProds hn hn').subset hbody
          have hlt : n < 1 := (hwf.fresh hold).1
          exact absurd (Nat.lt_one_iff.1 hlt) hn

end Tendra.Ref.Sid
