import Mathlib.Logic.Relation
import Tendra.Proofs.Sid.Groups

/-!
# The factorisation keeps the language

What a run of the factorisation may do to the table is `Keeps`: every rule that was
there generates the item strings that it did, rules that have been factored are left
alone, and a created rule generates what is left of the alternatives that it was
created from. An expansion keeps the strings because the rule that is expanded is a
different one, as the rules that an alternative can start with are of a lower rank.
-/

namespace Tendra.Ref.Sid

open Tendra.Cfg

variable {limit : Nat}

variable {T : Nat}
variable {w : List (Entry T)}
variable {st st' : Factoring T}
variable {m n r : Nat} {a b alt : Alt T} {group : AltGroup T} {groups : List (AltGroup T)}

/-- The strings of items that a rule generates. -/
def Grammar.ItemStrings (g : Grammar T) (r : Nat) (w : List (Entry T)) : Prop :=
  Gen (g.prods allItems) [.nt r] w

/-- The items refer to the first `n` rules. -/
def Within (n : Nat) (alt : Alt T) : Prop := ∀ item ∈ alt, ∀ m, item.entry = .rule m → m < n

/-- The rules that an alternative can start with are of a lower rank. -/
def Ranks (g : Grammar T) (first : Nat → First T) (rank : Nat → Nat) : Prop :=
  ∀ r < g.size, ∀ alt ∈ (g.rule r).alts, ∀ m ∈ leftRules first alt, rank m < rank r

/-- The first sets of all rules have been computed, and nothing is known about other rules. -/
structure FactorInv (st : Factoring T) : Prop where
  blank : ∀ r, st.g.size ≤ r → st.g.rule r = ruleCreate
  unmarked : ∀ r, st.factored r = true → r < st.g.size
  closed : ∀ r < st.g.size, ∀ alt ∈ (st.g.rule r).alts, Within st.g.size alt
  computed : ∀ r < st.g.size, (st.firsts.first r).computed = true
  empty : ∀ r < st.g.size, (st.g.rule r).hasEmptyAlt = true →
    (st.firsts.first r).seeThrough = true
  seeThrough : ∀ r < st.g.size, ∀ alt ∈ (st.g.rule r).alts,
    (altFirsts st.firsts.first alt).2 = true → (st.firsts.first r).seeThrough = true
  ranked : ∃ rank, Ranks st.g st.firsts.first rank

/-- The alternatives of a rule start with different items. -/
structure Distinct (g : Grammar T) (r : Nat) : Prop where
  nonempty : ∀ alt ∈ (g.rule r).alts, alt ≠ []
  apart : (g.rule r).alts.Pairwise fun a b => initial a ≠ initial b

/-- The rule `n` stands for what is left of the alternatives `group` of the rule `p` after the
items `pre`, with which no other alternative of `p` starts. -/
structure Residual (g : Grammar T) (p n : Nat) (pre : Alt T) (group others : List (Alt T)) :
    Prop where
  nonempty : pre ≠ []
  within : ∀ alt ∈ group ++ others, Within g.size alt
  common : ∀ alt ∈ group, (alt.take pre.length).map Item.entry = pre.map Item.entry
  apart : ∀ alt ∈ others, initial alt ≠ initial pre
  parent : ∀ w, g.ItemStrings p w ↔ (g.rule p).hasEmptyAlt = true ∧ w = [] ∨
    ∃ alt ∈ group ++ others, Gen (g.prods allItems) (Alt.form allItems alt) w
  strings : ∀ w, g.ItemStrings n w ↔
    ∃ alt ∈ group, Gen (g.prods allItems) (Alt.form allItems (alt.drop pre.length)) w

/-- An alternative of the rule `p` ends with the rule `n`, which has been created for it. -/
structure CreatedFor (g : Grammar T) (p n : Nat) (pre : Alt T) : Prop where
  mem : pre ++ [itemCreate (.rule n)] ∈ (g.rule p).alts
  residual : ∃ group others, Residual g p n pre group others

/-! ## Strings -/

section

variable {g : Grammar T}

theorem itemStrings_iff :
    g.ItemStrings r w ↔ (g.rule r).hasEmptyAlt = true ∧ w = [] ∨
      ∃ alt ∈ (g.rule r).alts, Gen (g.prods allItems) (Alt.form allItems alt) w := by
  rw [Grammar.ItemStrings, gen_single]
  constructor
  · rintro ⟨body, ⟨hempty, rfl⟩ | ⟨alt, halt, rfl⟩, h⟩
    · exact Or.inl ⟨hempty, gen_nil.1 h⟩
    · exact Or.inr ⟨alt, halt, h⟩
  · rintro (⟨hempty, rfl⟩ | ⟨alt, halt, h⟩)
    · exact ⟨[], Or.inl ⟨hempty, rfl⟩, Gen.nil⟩
    · exact ⟨_, Or.inr ⟨alt, halt, rfl⟩, h⟩

/-- A form generates the same where its rules do. -/
theorem Within.gen_congr {g' : Grammar T} (h : ∀ r < n, ∀ w, g'.ItemStrings r w ↔ g.ItemStrings r w)
    (halt : Within n alt) :
    Gen (g'.prods allItems) (Alt.form allItems alt) w ↔
      Gen (g.prods allItems) (Alt.form allItems alt) w := by
  have hlt : ∀ m, Sym.nt m ∈ Alt.form allItems alt → m < n := by
    intro m hm
    obtain ⟨item, hitem, hentry⟩ := nt_mem_form hm
    exact halt item hitem m hentry
  rw [← sem_gen, ← sem_gen]
  constructor
  · exact Sem.mono fun m hm w => (h m (hlt m hm) w).1
  · exact Sem.mono fun m hm w => (h m (hlt m hm) w).2

theorem Within.entries (h : a.map Item.entry = b.map Item.entry) (ha : Within n a) :
    Within n b := by
  intro item hitem m hm
  have hmem : item.entry ∈ a.map Item.entry := by
    rw [h]
    exact List.mem_map_of_mem hitem
  obtain ⟨item', hitem', hentry⟩ := List.mem_map.1 hmem
  exact ha item' hitem' m (hentry.trans hm)

theorem Within.append (ha : Within n a) (hb : Within n b) : Within n (a ++ b) := by
  intro item hitem
  rcases List.mem_append.1 hitem with hitem | hitem
  · exact ha item hitem
  · exact hb item hitem

theorem Within.sublist (hb : Within n b) (h : a.Sublist b) : Within n a :=
  fun item hitem => hb item (h.subset hitem)

theorem Within.mono {n' : Nat} (h : n ≤ n') (halt : Within n alt) :
    Within n' alt := fun item hitem m hm => Nat.lt_of_lt_of_le (halt item hitem m hm) h

/-- An alternative that starts with the items `pre`. -/
theorem entries_split {pre : Alt T}
    (h : (alt.take pre.length).map Item.entry = pre.map Item.entry) :
    alt.map Item.entry = (pre ++ alt.drop pre.length).map Item.entry := by
  rw [List.map_append, ← h, ← List.map_append, List.take_append_drop]

end

/-! ## Replacing the alternatives of a rule -/

@[simp] theorem setAlts_size (g : Grammar T) (r : Nat) (alts : List (Alt T)) :
    (g.setAlts r alts).size = g.size := rfl

@[simp] theorem setAlts_rule_self (g : Grammar T) (r : Nat) (alts : List (Alt T)) :
    (g.setAlts r alts).rule r = { g.rule r with alts } := Function.update_self _ _ _

theorem setAlts_rule_of_ne (g : Grammar T) {v : Nat} (h : v ≠ r) (alts : List (Alt T)) :
    (g.setAlts r alts).rule v = g.rule v := Function.update_of_ne h _ _

@[simp] theorem Factoring.setAlts_alts (st : Factoring T) (r : Nat) (alts : List (Alt T)) :
    ((st.setAlts r alts).g.rule r).alts = alts := congrArg Rule.alts (setAlts_rule_self st.g r alts)

@[simp] theorem setAlts_setAlts (g : Grammar T) (r : Nat) (alts alts' : List (Alt T)) :
    (g.setAlts r alts).setAlts r alts' = g.setAlts r alts' := by
  unfold Grammar.setAlts Grammar.setRule
  simp only [Function.update_self, Function.update_idem]

theorem setAlts_prods_of_ne (g : Grammar T) {v : Nat} (h : v ≠ r) (alts : List (Alt T)) :
    (g.setAlts r alts).prods allItems v = g.prods allItems v := by
  unfold Grammar.prods
  rw [setAlts_rule_of_ne g h]

/-- The alternative can be one of the rule `r`. -/
structure Fits (st : Factoring T) (r : Nat) (alt : Alt T) : Prop where
  within : Within st.g.size alt
  seeThrough : (altFirsts st.firsts.first alt).2 = true → (st.firsts.first r).seeThrough = true
  left : ∀ rank, Ranks st.g st.firsts.first rank →
    ∀ m ∈ leftRules st.firsts.first alt, rank m < rank r

section

variable {st : Factoring T}

theorem FactorInv.fits (h : FactorInv st) (hr : r < st.g.size) (halt : alt ∈ (st.g.rule r).alts) :
    Fits st r alt :=
  ⟨h.closed r hr alt halt, h.seeThrough r hr alt halt, fun _ hrank => hrank r hr alt halt⟩

theorem FactorInv.fits_nil (h : FactorInv st) (hr : r < st.g.size)
    (hempty : (st.g.rule r).hasEmptyAlt = true) : Fits st r [] :=
  ⟨fun _ hitem => absurd hitem List.not_mem_nil, fun _ => h.empty r hr hempty,
    fun _ _ _ hm => absurd hm List.not_mem_nil⟩

theorem Fits.entries (h : a.map Item.entry = b.map Item.entry) (ha : Fits st r a) :
    Fits st r b := by
  obtain ⟨hsee, hleft⟩ := @altFirsts_entries T st.firsts.first a b h
  refine ⟨ha.within.entries h, ?_, ?_⟩
  · rw [← hsee]
    exact ha.seeThrough
  · intro rank hrank
    rw [← hleft]
    exact ha.left rank hrank

/-- A rule at the start of an alternative is replaced by one of its alternatives. -/
theorem Fits.append {item : Item T} {part next : Alt T} (hentry : item.entry = .rule m)
    (hpart : Fits st m part) (h : Fits st r (item :: next)) : Fits st r (part ++ next) := by
  obtain ⟨hsee, hleft⟩ := @altFirsts_append T st.firsts.first part next
  refine ⟨hpart.within.append (h.within.sublist (List.sublist_cons_self _ _)), ?_, ?_⟩
  · intro hthrough
    rw [hsee, Bool.and_eq_true] at hthrough
    refine h.seeThrough ?_
    rw [(altFirsts_rule hentry (hpart.seeThrough hthrough.1) next).1]
    exact hthrough.2
  · intro rank hrank v hv
    rw [hleft, List.mem_append] at hv
    rcases hv with hv | hv
    · exact Nat.lt_trans (hpart.left rank hrank v hv)
        (h.left rank hrank m (leftRules_rule hentry next))
    · split at hv
      · next hthrough =>
          refine h.left rank hrank v ?_
          rw [(altFirsts_rule hentry (hpart.seeThrough hthrough) next).2]
          exact List.mem_cons_of_mem _ hv
      · exact absurd hv List.not_mem_nil

/-- The rule at the start of an alternative of `r` is another one. -/
theorem Fits.ne (h : FactorInv st) {item : Item T} {next : Alt T} (hentry : item.entry = .rule m)
    (halt : Fits st r (item :: next)) : m ≠ r := by
  obtain ⟨rank, hrank⟩ := h.ranked
  rintro rfl
  exact Nat.lt_irrefl _ (halt.left rank hrank m (leftRules_rule hentry next))

/-- The rule `r` gets other alternatives. -/
theorem FactorInv.setAlts {alts : List (Alt T)} (h : FactorInv st)
    (hg : st'.g = st.g.setAlts r alts) (hfirsts : st'.firsts = st.firsts)
    (hfactored : st'.factored = st.factored) (hr : r < st.g.size)
    (hfits : ∀ alt ∈ alts, Fits st r alt) : FactorInv st' := by
  have hrule : ∀ v, v ≠ r → st'.g.rule v = st.g.rule v := by
    intro v hv
    rw [hg, setAlts_rule_of_ne _ hv]
  have hself : st'.g.rule r = { st.g.rule r with alts } := by
    rw [hg, setAlts_rule_self]
  have hsize : st'.g.size = st.g.size := by rw [hg, setAlts_size]
  have hall : ∀ v < st.g.size, ∀ alt ∈ (st'.g.rule v).alts, Fits st v alt := by
    intro v hv alt halt
    by_cases hvr : v = r
    · subst hvr
      rw [hself] at halt
      exact hfits alt halt
    · rw [hrule v hvr] at halt
      exact h.fits hv halt
  refine ⟨?_, ?_, ?_, ?_, ?_, ?_, ?_⟩
  · intro v hv
    rw [hsize] at hv
    rw [hrule v (Nat.ne_of_gt (Nat.lt_of_lt_of_le hr hv)), h.blank v hv]
  · rw [hfactored, hsize]
    exact h.unmarked
  · rw [hsize]
    exact fun v hv alt halt => (hall v hv alt halt).within
  · rw [hsize, hfirsts]
    exact h.computed
  · intro v hv hempty
    rw [hsize] at hv
    rw [hfirsts]
    refine h.empty v hv ?_
    by_cases hvr : v = r
    · subst hvr
      rw [hself] at hempty
      exact hempty
    · rw [hrule v hvr] at hempty
      exact hempty
  · rw [hsize, hfirsts]
    exact fun v hv alt halt => (hall v hv alt halt).seeThrough
  · obtain ⟨rank, hrank⟩ := h.ranked
    refine ⟨rank, fun v hv alt halt => ?_⟩
    rw [hsize] at hv
    rw [hfirsts]
    exact (hall v hv alt halt).left rank hrank

end

/-! ## What a run keeps -/

/-- What may happen between two states. Of the rules that have been factored, only those in `S`
may have been changed. -/
structure Keeps (S : Set Nat) (st st' : Factoring T) : Prop where
  inv : FactorInv st'
  size : st.g.size ≤ st'.g.size
  items : ∀ r < st.g.size, ∀ w, st'.g.ItemStrings r w ↔ st.g.ItemStrings r w
  empty : ∀ r < st.g.size, (st'.g.rule r).hasEmptyAlt = (st.g.rule r).hasEmptyAlt
  marks : ∀ r, st.factored r = true → st'.factored r = true
  frozen : ∀ r, st.factored r = true → r ∉ S → (st'.g.rule r).alts = (st.g.rule r).alts
  fresh : ∀ r, st'.factored r = true → st.factored r = false → Distinct st'.g r
  created : ∀ n, st.g.size ≤ n → n < st'.g.size → ∃ p, st'.factored p = true ∧
    (p ∈ S ∨ st.factored p = false) ∧ ∃ pre, CreatedFor st'.g p n pre

theorem Distinct.congr {g g' : Grammar T} (h : (g'.rule r).alts = (g.rule r).alts)
    (hg : Distinct g r) : Distinct g' r := by
  obtain ⟨hne, happart⟩ := hg
  rw [← h] at hne happart
  exact ⟨hne, happart⟩

section

variable {S : Set Nat} {a b c : Factoring T}

theorem Keeps.refl (h : FactorInv a) : Keeps S a a := by
  refine ⟨h, Nat.le_refl _, fun _ _ _ => Iff.rfl, fun _ _ => rfl, fun _ => id, fun _ _ _ => rfl,
    ?_, ?_⟩
  · intro r hr hr'
    rw [hr] at hr'
    cases hr'
  · intro n hn hn'
    exact absurd hn' (Nat.not_lt.2 hn)

theorem Keeps.mono {S' : Set Nat} (hS : S ⊆ S') (h : Keeps S a b) : Keeps S' a b := by
  refine ⟨h.inv, h.size, h.items, h.empty, h.marks, ?_, h.fresh, ?_⟩
  · intro r hr hrS
    exact h.frozen r hr fun hmem => hrS (hS hmem)
  · intro n hn hn'
    obtain ⟨p, hp, hown, hcreated⟩ := h.created n hn hn'
    exact ⟨p, hp, hown.imp_left fun hmem => hS hmem, hcreated⟩

/-- A form of rules that were there generates what it did. -/
theorem Keeps.gen_iff (h : Keeps S a b) (halt : Within a.g.size alt) :
    Gen (b.g.prods allItems) (Alt.form allItems alt) w ↔
      Gen (a.g.prods allItems) (Alt.form allItems alt) w := halt.gen_congr h.items

/-- A created rule goes on to generate what is left of its group. -/
theorem Residual.keeps (h : Keeps S a b) {p : Nat} {pre : Alt T} {group others : List (Alt T)}
    (hp : p < a.g.size) (hn : n < a.g.size) (hres : Residual a.g p n pre group others) :
    Residual b.g p n pre group others := by
  refine ⟨hres.nonempty, ?_, hres.common, hres.apart, ?_, ?_⟩
  · exact fun alt halt => (hres.within alt halt).mono h.size
  · intro w
    rw [h.items p hp, h.empty p hp, hres.parent]
    refine or_congr_right (exists_congr fun alt => and_congr_right fun halt => ?_)
    rw [h.gen_iff (hres.within alt halt)]
  · intro w
    rw [h.items n hn, hres.strings]
    refine exists_congr fun alt => and_congr_right fun halt => ?_
    rw [h.gen_iff ((hres.within alt (List.mem_append_left _ halt)).sublist (List.drop_sublist _ _))]

/-- The second part may only change the rules in `S` as far as it keeps the alternatives that
refer to rules which the first part has created. -/
theorem Keeps.trans (h1 : Keeps S a b) (h2 : Keeps S b c)
    (hS : ∀ p ∈ S, a.factored p = true)
    (hkeep : ∀ p ∈ S, ∀ pre n, a.g.size ≤ n → n < b.g.size →
      pre ++ [itemCreate (.rule n)] ∈ (b.g.rule p).alts →
      pre ++ [itemCreate (.rule n)] ∈ (c.g.rule p).alts) : Keeps S a c := by
  refine ⟨h2.inv, Nat.le_trans h1.size h2.size, ?_, ?_, fun r hr => h2.marks r (h1.marks r hr),
    ?_, ?_, ?_⟩
  · intro r hr w
    rw [h2.items r (Nat.lt_of_lt_of_le hr h1.size), h1.items r hr]
  · intro r hr
    rw [h2.empty r (Nat.lt_of_lt_of_le hr h1.size), h1.empty r hr]
  · intro r hr hrS
    rw [h2.frozen r (h1.marks r hr) hrS, h1.frozen r hr hrS]
  · intro r hr hr'
    cases hb : b.factored r with
    | true =>
        refine (h1.fresh r hb hr').congr (h2.frozen r hb fun hrS => ?_)
        rw [hS r hrS] at hr'
        cases hr'
    | false => exact h2.fresh r hr hb
  · intro n hn hn'
    by_cases hb : n < b.g.size
    · obtain ⟨p, hp, hown, pre, hmem, group, others, hres⟩ := h1.created n hn hb
      refine ⟨p, h2.marks p hp, hown, pre, ?_, group, others,
        hres.keeps h2 (h1.inv.unmarked p hp) hb⟩
      by_cases hpS : p ∈ S
      · exact hkeep p hpS pre n hn hb hmem
      · rw [h2.frozen p hp hpS]
        exact hmem
    · obtain ⟨p, hp, hown, hcreated⟩ := h2.created n (Nat.not_lt.1 hb) hn'
      refine ⟨p, hp, hown.imp_right fun hfree => ?_, hcreated⟩
      by_contra hmarked
      rw [h1.marks p (by simpa using hmarked)] at hfree
      cases hfree

/-- Where the first part creates no rule, there is nothing to keep. -/
theorem Keeps.trans_of_size (h1 : Keeps S a b) (h2 : Keeps S b c)
    (hS : ∀ p ∈ S, a.factored p = true) (hsize : b.g.size = a.g.size) : Keeps S a c := by
  refine h1.trans h2 hS ?_
  intro p _ pre n hn hn'
  rw [hsize] at hn'
  exact absurd hn' (Nat.not_lt.2 hn)

end

/-! ## Steps that create no rule -/

section

variable {st st' : Factoring T} {alts : List (Alt T)}

/-- The alternatives of a rule are replaced by others that can be there. -/
theorem FactorInv.keeps (h : FactorInv st) (hr : r < st.g.size)
    (hg : st'.g = st.g.setAlts r alts) (hfirsts : st'.firsts = st.firsts)
    (hfactored : st'.factored = st.factored) (hfits : ∀ alt ∈ alts, Fits st r alt)
    (hitems : ∀ v w, (st.g.setAlts r alts).ItemStrings v w ↔ st.g.ItemStrings v w) :
    Keeps {r} st st' := by
  have hsize : st'.g.size = st.g.size := by rw [hg, setAlts_size]
  refine ⟨h.setAlts hg hfirsts hfactored hr hfits, Nat.le_of_eq hsize.symm, ?_, ?_, ?_, ?_, ?_, ?_⟩
  · intro v _ w
    rw [hg, hitems]
  · intro v _
    rw [hg]
    by_cases hv : v = r
    · rw [hv, setAlts_rule_self]
    · rw [setAlts_rule_of_ne _ hv]
  · rw [hfactored]
    exact fun _ => id
  · intro v _ hv
    rw [hg, setAlts_rule_of_ne _ fun heq => hv (Set.mem_singleton_iff.2 heq)]
  · intro v hv hv'
    rw [hfactored, hv'] at hv
    cases hv
  · intro n hn hn'
    rw [hsize] at hn'
    exact absurd hn' (Nat.not_lt.2 hn)

/-- Alternatives with the same entries: the list is put in another order, or equal ones become
one. -/
theorem FactorInv.keeps_entries (h : FactorInv st) (hr : r < st.g.size)
    (hg : st'.g = st.g.setAlts r alts) (hfirsts : st'.firsts = st.firsts)
    (hfactored : st'.factored = st.factored)
    (hold : ∀ old ∈ (st.g.rule r).alts, ∃ alt ∈ alts, old.map Item.entry = alt.map Item.entry)
    (hnew : ∀ alt ∈ alts, ∃ old ∈ (st.g.rule r).alts, old.map Item.entry = alt.map Item.entry) :
    Keeps {r} st st' := by
  refine h.keeps hr hg hfirsts hfactored ?_ ?_
  · intro alt halt
    obtain ⟨old, hmem, hentries⟩ := hnew alt halt
    exact (h.fits hr hmem).entries hentries
  · have hprods : (st.g.setAlts r alts).prods allItems = st.g.prods allItems := by
      funext v
      by_cases hv : v = r
      · subst hv
        ext body
        rw [Grammar.prods, Grammar.prods, setAlts_rule_self]
        refine or_congr_right ⟨?_, ?_⟩
        · rintro ⟨alt, halt, rfl⟩
          obtain ⟨old, hmem, hentries⟩ := hnew alt halt
          exact ⟨old, hmem, (form_entries hentries).symm⟩
        · rintro ⟨old, hmem, rfl⟩
          obtain ⟨alt, halt, hentries⟩ := hold old hmem
          exact ⟨alt, halt, form_entries hentries⟩
      · exact setAlts_prods_of_ne _ hv alts
    intro v w
    rw [Grammar.ItemStrings, Grammar.ItemStrings, hprods]

theorem mem_expandAlts {rule : Rule T} {clash : List (Alt T)} :
    a ∈ expandAlts rule clash ↔ ∃ alt ∈ clash, ∃ part,
      (rule.hasEmptyAlt = true ∧ part = [] ∨ part ∈ rule.alts) ∧ a = part ++ alt.tail := by
  unfold expandAlts
  rw [List.mem_flatMap]
  refine exists_congr fun alt => and_congr_right fun _ => ?_
  rw [List.mem_append, List.mem_map]
  constructor
  · rintro (ha | ⟨part, hpart, rfl⟩)
    · split at ha
      · next hempty => exact ⟨[], Or.inl ⟨hempty, rfl⟩, List.mem_singleton.1 ha⟩
      · exact absurd ha List.not_mem_nil
    · exact ⟨part, Or.inr hpart, rfl⟩
  · rintro ⟨part, ⟨hempty, rfl⟩ | hpart, rfl⟩
    · rw [if_pos hempty]
      exact Or.inl List.mem_cons_self
    · exact Or.inr ⟨part, hpart, rfl⟩

theorem initial_eq_rule (h : initial alt = some (.rule m)) :
    ∃ item, alt = item :: alt.tail ∧ item.entry = .rule m := by
  cases alt with
  | nil => cases h
  | cons item next => exact ⟨item, rfl, Option.some.inj h⟩

/-- The body of a rule is that of its alternative, or empty. -/
theorem mem_prods_all {g : Grammar T} {body : List (Sym Nat (Entry T))} :
    body ∈ g.prods allItems m ↔ ∃ part,
      ((g.rule m).hasEmptyAlt = true ∧ part = [] ∨ part ∈ (g.rule m).alts) ∧
        body = Alt.form allItems part := by
  constructor
  · rintro (⟨hempty, rfl⟩ | ⟨alt, halt, rfl⟩)
    · exact ⟨[], Or.inl ⟨hempty, rfl⟩, rfl⟩
    · exact ⟨alt, Or.inr halt, rfl⟩
  · rintro ⟨part, ⟨hempty, rfl⟩ | hpart, rfl⟩
    · exact Or.inl ⟨hempty, rfl⟩
    · exact Or.inr ⟨part, hpart, rfl⟩

/-- The expansion of a rule in the alternatives that start with it. -/
theorem FactorInv.keeps_expand (h : FactorInv st) (hr : r < st.g.size) {clash rest : List (Alt T)}
    (hne : clash ≠ []) (hinit : ∀ alt ∈ clash, initial alt = some (.rule m))
    (hmem : ∀ a, a ∈ (st.g.rule r).alts ↔ a ∈ clash ∨ a ∈ rest)
    (halts : ∀ a, a ∈ alts ↔ a ∈ rest ∨ a ∈ expandAlts (st.g.rule m) clash)
    (hg : st'.g = st.g.setAlts r alts) (hfirsts : st'.firsts = st.firsts)
    (hfactored : st'.factored = st.factored) : Keeps {r} st st' := by
  have hclash : ∀ alt ∈ clash, ∃ item, alt = item :: alt.tail ∧ item.entry = .rule m ∧
      Fits st r (item :: alt.tail) := by
    intro alt halt
    obtain ⟨item, heq, hentry⟩ := initial_eq_rule (hinit alt halt)
    refine ⟨item, heq, hentry, ?_⟩
    rw [← heq]
    exact h.fits hr ((hmem alt).2 (Or.inl halt))
  obtain ⟨hmr, hm⟩ : m ≠ r ∧ m < st.g.size := by
    obtain ⟨alt, halt⟩ := List.exists_mem_of_ne_nil clash hne
    obtain ⟨item, -, hentry, hfits⟩ := hclash alt halt
    exact ⟨Fits.ne h hentry hfits, hfits.within item List.mem_cons_self m hentry⟩
  have hunfolds : Unfolds (st.g.prods allItems) ((st.g.setAlts r alts).prods allItems) r m
      { rest | ∃ alt ∈ clash, rest = Alt.form allItems alt.tail } := by
    refine ⟨hmr, fun n hn => setAlts_prods_of_ne _ hn alts, ?_, ?_, ?_, ?_⟩
    · rintro body (⟨hempty, rfl⟩ | ⟨alt, halt, rfl⟩)
      · refine Or.inl (Or.inl ⟨?_, rfl⟩)
        rw [setAlts_rule_self]
        exact hempty
      · rcases (hmem alt).1 halt with hin | hin
        · obtain ⟨item, heq, hentry, -⟩ := hclash alt hin
          refine Or.inr ⟨_, ⟨alt, hin, rfl⟩, ?_⟩
          rw [← form_cons_rule hentry, ← heq]
        · refine Or.inl (Or.inr ⟨alt, ?_, rfl⟩)
          rw [setAlts_rule_self]
          exact (halts alt).2 (Or.inl hin)
    · rintro _ ⟨alt, halt, rfl⟩ body hbody
      obtain ⟨part, hpart, rfl⟩ := mem_prods_all.1 hbody
      refine Or.inr ⟨part ++ alt.tail, ?_, (form_append _ _).symm⟩
      rw [setAlts_rule_self]
      exact (halts _).2 (Or.inr (mem_expandAlts.2 ⟨alt, halt, part, hpart, rfl⟩))
    · rintro _ ⟨alt, halt, rfl⟩
      obtain ⟨item, heq, hentry, -⟩ := hclash alt halt
      refine Or.inr ⟨alt, (hmem alt).2 (Or.inl halt), ?_⟩
      rw [← form_cons_rule hentry, ← heq]
    · rintro body (⟨hempty, rfl⟩ | ⟨a, ha, rfl⟩)
      · rw [setAlts_rule_self] at hempty
        exact Or.inl (Or.inl ⟨hempty, rfl⟩)
      · rw [setAlts_rule_self] at ha
        rcases (halts a).1 ha with hin | hin
        · exact Or.inl (Or.inr ⟨a, (hmem a).2 (Or.inr hin), rfl⟩)
        · obtain ⟨alt, halt, part, hpart, rfl⟩ := mem_expandAlts.1 hin
          exact Or.inr ⟨_, ⟨alt, halt, rfl⟩, _, mem_prods_all.2 ⟨part, hpart, rfl⟩,
            form_append _ _⟩
  refine h.keeps hr hg hfirsts hfactored ?_ fun v w => hunfolds.gen_iff
  intro a ha
  rcases (halts a).1 ha with hin | hin
  · exact h.fits hr ((hmem a).2 (Or.inr hin))
  · obtain ⟨alt, halt, part, hpart, rfl⟩ := mem_expandAlts.1 hin
    obtain ⟨item, -, hentry, hfits⟩ := hclash alt halt
    refine Fits.append hentry ?_ hfits
    rcases hpart with ⟨hempty, rfl⟩ | hpart
    · exact h.fits_nil hm hempty
    · exact h.fits hm hpart

end

/-! ## The step that creates a rule -/

/-- The alternatives `clash` of the rule `r`, which start with the items `pre`, have become one,
that ends with a rule created from the rest of each. -/
structure Extracts (st st' : Factoring T) (r : Nat) (pre : Alt T) (clash rest : List (Alt T)) :
    Prop where
  lt : r < st.g.size
  nonempty : clash ≠ []
  common : ∀ alt ∈ clash, (alt.take pre.length).map Item.entry = pre.map Item.entry
  old : ∀ a, a ∈ (st.g.rule r).alts ↔ a ∈ clash ∨ a ∈ rest
  created : ∃ mid alts, Created (clash.map (List.drop pre.length)) st mid ∧
    st'.g = mid.g.setAlts r alts ∧ st'.firsts = mid.firsts ∧ st'.factored = mid.factored ∧
    ∀ a, a ∈ alts ↔ a ∈ rest ∨ a = pre ++ [itemCreate (.rule st.g.size)]

/-- What the new state is made of. -/
structure Extracted (st st' : Factoring T) (r : Nat) (pre : Alt T) (clash rest : List (Alt T)) :
    Prop where
  size : st'.g.size = st.g.size + 1
  other : ∀ v, v ≠ r → v ≠ st.g.size → st'.g.rule v = st.g.rule v
  selfEmpty : (st'.g.rule r).hasEmptyAlt = (st.g.rule r).hasEmptyAlt
  self : ∀ a, a ∈ (st'.g.rule r).alts ↔
    a ∈ rest ∨ a = pre ++ [itemCreate (.rule st.g.size)]
  newEmpty : (st'.g.rule st.g.size).hasEmptyAlt = true ↔ ∃ alt ∈ clash, alt.drop pre.length = []
  new : ∀ a, a ∈ (st'.g.rule st.g.size).alts ↔
    (∃ alt ∈ clash, a = alt.drop pre.length) ∧ a ≠ []
  firsts : ∀ v, v ≠ st.g.size → st'.firsts.first v = st.firsts.first v
  computed : (st'.firsts.first st.g.size).computed = true
  seeThrough : (st'.firsts.first st.g.size).seeThrough = true ↔
    ∃ alt ∈ clash, (altFirsts st.firsts.first (alt.drop pre.length)).2 = true
  factored : st'.factored = Function.update st.factored st.g.size false

section

variable {st st' : Factoring T} {pre : Alt T} {clash rest : List (Alt T)}

theorem Extracts.extracted (h : Extracts st st' r pre clash rest) :
    Extracted st st' r pre clash rest := by
  obtain ⟨mid, alts, hcreated, hg, hfirsts, hfactored, halts⟩ := h.created
  have hmap : ∀ a, a ∈ clash.map (List.drop pre.length) ↔ ∃ alt ∈ clash, a = alt.drop pre.length :=
    fun a => List.mem_map.trans (exists_congr fun alt => and_congr_right fun _ => eq_comm)
  have hne : st.g.size ≠ r := Nat.ne_of_gt h.lt
  have hnew : st'.g.rule st.g.size = mid.g.rule st.g.size := by
    rw [hg, setAlts_rule_of_ne _ hne]
  refine ⟨?_, ?_, ?_, ?_, ?_, ?_, ?_, ?_, ?_, ?_⟩
  · rw [hg, setAlts_size, hcreated.size]
  · intro v hv hv'
    rw [hg, setAlts_rule_of_ne _ hv, hcreated.other v hv']
  · rw [hg, setAlts_rule_self, hcreated.other r hne.symm]
  · intro a
    rw [hg, setAlts_rule_self, halts]
  · rw [hnew, hcreated.empty, hmap]
    exact exists_congr fun alt => and_congr_right fun _ => eq_comm
  · intro a
    rw [hnew, hcreated.alts, hmap]
  · rw [hfirsts]
    exact hcreated.firsts
  · rw [hfirsts, hcreated.computed]
  · rw [hfirsts, hcreated.seeThrough]
    simp only [List.mem_map, exists_exists_and_eq_and]
  · rw [hfactored, hcreated.factored]

theorem Extracts.fits (hinv : FactorInv st) (h : Extracts st st' r pre clash rest)
    (halt : alt ∈ clash) : Fits st r (pre ++ alt.drop pre.length) :=
  (hinv.fits h.lt ((h.old alt).2 (Or.inl halt))).entries (entries_split (h.common alt halt))

/-- In the language of the new table the created rule stands for what it was created from. -/
theorem Extracts.folds (hinv : FactorInv st) (h : Extracts st st' r pre clash rest) :
    Folds (st.g.prods allItems) (st'.g.prods allItems) r st.g.size (Alt.form allItems pre)
      { body | ∃ alt ∈ clash, body = Alt.form allItems (alt.drop pre.length) } := by
  have hnew := h.extracted
  have hform : ∀ alt ∈ clash, Alt.form allItems alt =
      Alt.form allItems pre ++ Alt.form allItems (alt.drop pre.length) := by
    intro alt halt
    rw [← form_append, form_entries (entries_split (h.common alt halt))]
  have hone : Alt.form allItems pre ++ [Sym.nt st.g.size] =
      Alt.form allItems (pre ++ [itemCreate (.rule st.g.size)]) := by
    rw [form_append, form_itemCreate_rule]
  refine ⟨Nat.ne_of_lt h.lt, ?_, ?_, ?_, ?_, ?_, ?_, ?_, ?_⟩
  · intro n body hbody hmem
    rcases hbody with ⟨-, rfl⟩ | ⟨alt, halt, rfl⟩
    · exact absurd hmem List.not_mem_nil
    by_cases hn : n < st.g.size
    · obtain ⟨item, hitem, hentry⟩ := nt_mem_form hmem
      exact absurd (hinv.closed n hn alt halt item hitem _ hentry) (Nat.lt_irrefl _)
    · rw [hinv.blank n (Nat.not_lt.1 hn)] at halt
      exact absurd halt List.not_mem_nil
  · intro n hn hn'
    unfold Grammar.prods
    rw [hnew.other n hn hn']
  · rintro body (⟨hempty, rfl⟩ | ⟨alt, halt, rfl⟩)
    · refine Or.inl (Or.inl ⟨?_, rfl⟩)
      rw [hnew.selfEmpty]
      exact hempty
    · rcases (h.old alt).1 halt with hin | hin
      · exact Or.inr ⟨_, ⟨alt, hin, rfl⟩, hform alt hin⟩
      · exact Or.inl (Or.inr ⟨alt, (hnew.self alt).2 (Or.inl hin), rfl⟩)
  · rintro _ ⟨alt, halt, rfl⟩
    exact Or.inr ⟨alt, (h.old alt).2 (Or.inl halt), (hform alt halt).symm⟩
  · exact Or.inr ⟨_, (hnew.self _).2 (Or.inr rfl), hone⟩
  · rintro body (⟨hempty, rfl⟩ | ⟨alt, halt, rfl⟩)
    · rw [hnew.selfEmpty] at hempty
      exact Or.inl (Or.inl ⟨hempty, rfl⟩)
    · rcases (hnew.self alt).1 halt with hin | rfl
      · exact Or.inl (Or.inr ⟨alt, (h.old alt).2 (Or.inr hin), rfl⟩)
      · exact Or.inr hone.symm
  · ext body
    constructor
    · rintro (⟨hempty, rfl⟩ | ⟨alt, halt, rfl⟩)
      · obtain ⟨alt, halt, hdrop⟩ := hnew.newEmpty.1 hempty
        exact ⟨alt, halt, by rw [hdrop, form_nil]⟩
      · obtain ⟨⟨old, hmem, rfl⟩, -⟩ := (hnew.new alt).1 halt
        exact ⟨old, hmem, rfl⟩
    · rintro ⟨alt, halt, rfl⟩
      by_cases hdrop : alt.drop pre.length = []
      · refine Or.inl ⟨hnew.newEmpty.2 ⟨alt, halt, hdrop⟩, ?_⟩
        rw [hdrop, form_nil]
      · exact Or.inr ⟨_, (hnew.new _).2 ⟨⟨alt, halt, rfl⟩, hdrop⟩, rfl⟩
  · refine Set.eq_empty_iff_forall_notMem.2 ?_
    rintro body (⟨hempty, -⟩ | ⟨alt, halt, -⟩)
    · rw [hinv.blank _ (Nat.le_refl _)] at hempty
      cases hempty
    · rw [hinv.blank _ (Nat.le_refl _)] at halt
      exact absurd halt List.not_mem_nil

/-- What a rule of the new table has for alternatives. -/
theorem Extracts.alts_cases (hinv : FactorInv st) (h : Extracts st st' r pre clash rest) {v : Nat}
    (hv : v < st'.g.size) (ha : a ∈ (st'.g.rule v).alts) :
    (v < st.g.size ∧ Fits st v a) ∨ (v = r ∧ a = pre ++ [itemCreate (.rule st.g.size)]) ∨
      (v = st.g.size ∧ ∃ alt ∈ clash, a = alt.drop pre.length) := by
  have hnew := h.extracted
  rw [hnew.size] at hv
  by_cases hvr : v = r
  · subst hvr
    rcases (hnew.self a).1 ha with hin | rfl
    · exact Or.inl ⟨h.lt, hinv.fits h.lt ((h.old a).2 (Or.inr hin))⟩
    · exact Or.inr (Or.inl ⟨rfl, rfl⟩)
  by_cases hvn : v = st.g.size
  · subst hvn
    exact Or.inr (Or.inr ⟨rfl, ((hnew.new a).1 ha).1⟩)
  · have hlt : v < st.g.size := Nat.lt_of_le_of_ne (Nat.lt_succ_iff.1 hv) hvn
    rw [hnew.other v hvr hvn] at ha
    exact Or.inl ⟨hlt, hinv.fits hlt ha⟩

/-- An alternative of the old table starts as it did. -/
theorem Extracts.congr (h : Extracts st st' r pre clash rest) (ha : Within st.g.size a) :
    altFirsts st'.firsts.first a = altFirsts st.firsts.first a ∧
      leftRules st'.firsts.first a = leftRules st.firsts.first a := by
  refine altFirsts_congr a fun m hm => h.extracted.firsts m ?_
  obtain ⟨item, hitem, hentry⟩ := mem_leftRules hm
  exact Nat.ne_of_lt (ha item hitem m hentry)

theorem Extracts.within_pre (hinv : FactorInv st) (h : Extracts st st' r pre clash rest) :
    Within st.g.size pre := by
  obtain ⟨alt, halt⟩ := List.exists_mem_of_ne_nil clash h.nonempty
  exact (h.fits hinv halt).within.sublist (List.sublist_append_left _ _)

theorem Extracts.within_drop (hinv : FactorInv st) (h : Extracts st st' r pre clash rest)
    (halt : alt ∈ clash) : Within st.g.size (alt.drop pre.length) :=
  (h.fits hinv halt).within.sublist (List.sublist_append_right _ _)

/-- The new rule ranks below the rule that it has been created for if that can start with it,
and above all others if not. -/
theorem Extracts.ranked (hinv : FactorInv st) (h : Extracts st st' r pre clash rest) :
    ∃ rank, Ranks st'.g st'.firsts.first rank := by
  obtain ⟨rank, hrank⟩ := hinv.ranked
  obtain ⟨top, htop⟩ : ∃ top, ∀ v < st.g.size, rank v ≤ top :=
    ⟨(Finset.range st.g.size).sup rank, fun v hv => Finset.le_sup (Finset.mem_range.2 hv)⟩
  obtain ⟨rank', hkeep, hlow, hhigh⟩ : ∃ rank' : Nat → Nat,
      (∀ v < st.g.size, rank' v = 2 * rank v + 1) ∧
      ((altFirsts st.firsts.first pre).2 = true → rank' st.g.size = 2 * rank r) ∧
      ((altFirsts st.firsts.first pre).2 = false → rank' st.g.size = 2 * top + 2) := by
    refine ⟨Function.update (fun v => 2 * rank v + 1) st.g.size
      (if (altFirsts st.firsts.first pre).2 then 2 * rank r else 2 * top + 2), ?_, ?_, ?_⟩
    · exact fun v hv => Function.update_of_ne (Nat.ne_of_lt hv) _ _
    · intro hsee
      rw [Function.update_self, if_pos hsee]
    · intro hsee
      rw [Function.update_self, hsee]
      rfl
  have hold : ∀ {a}, Within st.g.size a → ∀ m ∈ leftRules st'.firsts.first a,
      m ∈ leftRules st.firsts.first a ∧ m < st.g.size := by
    intro a ha m hm
    rw [(h.congr ha).2] at hm
    obtain ⟨item, hitem, hentry⟩ := mem_leftRules hm
    exact ⟨hm, ha item hitem m hentry⟩
  have hclash : ∀ alt ∈ clash, ∀ m ∈ leftRules st.firsts.first (pre ++ alt.drop pre.length),
      rank m < rank r := fun alt halt => (h.fits hinv halt).left rank hrank
  have hpre : ∀ m ∈ leftRules st.firsts.first pre, rank m < rank r := by
    obtain ⟨alt, halt⟩ := List.exists_mem_of_ne_nil clash h.nonempty
    intro m hm
    refine hclash alt halt m ?_
    rw [(altFirsts_append pre _).2]
    exact List.mem_append_left _ hm
  refine ⟨rank', fun v hv a ha m hm => ?_⟩
  rcases h.alts_cases hinv hv ha with ⟨hlt, hfits⟩ | ⟨rfl, rfl⟩ | ⟨rfl, alt, halt, rfl⟩
  · obtain ⟨hm, hmlt⟩ := hold hfits.within m hm
    have := hfits.left rank hrank m hm
    rw [hkeep m hmlt, hkeep v hlt]
    omega
  · rw [(altFirsts_append pre _).2, (h.congr (h.within_pre hinv)).1, List.mem_append] at hm
    rw [hkeep v h.lt]
    rcases hm with hm | hm
    · obtain ⟨hm, hmlt⟩ := hold (h.within_pre hinv) m hm
      have := hpre m hm
      rw [hkeep m hmlt]
      omega
    · split at hm
      · next hsee =>
          obtain ⟨item, hitem, hentry⟩ := mem_leftRules hm
          cases List.mem_singleton.1 hitem
          cases hentry
          rw [hlow hsee]
          omega
      · exact absurd hm List.not_mem_nil
  · obtain ⟨hm, hmlt⟩ := hold (h.within_drop hinv halt) m hm
    rw [hkeep m hmlt]
    cases hsee : (altFirsts st.firsts.first pre).2 with
    | true =>
        have := hclash alt halt m (by
          rw [(altFirsts_append pre _).2, hsee, if_pos rfl]
          exact List.mem_append_right _ hm)
        rw [hlow hsee]
        omega
    | false =>
        have := htop m hmlt
        rw [hhigh hsee]
        omega

theorem Extracts.inv (hinv : FactorInv st) (h : Extracts st st' r pre clash rest) :
    FactorInv st' := by
  have hnew := h.extracted
  refine ⟨?_, ?_, ?_, ?_, ?_, ?_, h.ranked hinv⟩
  · intro v hv
    rw [hnew.size] at hv
    rw [hnew.other v (Nat.ne_of_gt (Nat.lt_of_lt_of_le h.lt (Nat.le_of_succ_le hv)))
      (Nat.ne_of_gt hv), hinv.blank v (Nat.le_of_succ_le hv)]
  · intro v hv
    rw [hnew.factored] at hv
    rw [hnew.size]
    by_cases hvn : v = st.g.size
    · rw [hvn]
      exact Nat.lt_succ_self _
    · rw [Function.update_of_ne hvn] at hv
      exact Nat.lt_succ_of_lt (hinv.unmarked v hv)
  · intro v hv a ha
    have hle : st.g.size ≤ st'.g.size := hnew.size ▸ Nat.le_succ _
    rcases h.alts_cases hinv hv ha with ⟨-, hfits⟩ | ⟨-, rfl⟩ | ⟨-, alt, halt, rfl⟩
    · exact hfits.within.mono hle
    · refine ((h.within_pre hinv).mono hle).append ?_
      intro item hitem m hm
      cases List.mem_singleton.1 hitem
      cases hm
      rw [hnew.size]
      exact Nat.lt_succ_self _
    · exact (h.within_drop hinv halt).mono hle
  · intro v hv
    by_cases hvn : v = st.g.size
    · rw [hvn, hnew.computed]
    · rw [hnew.size] at hv
      rw [hnew.firsts v hvn]
      exact hinv.computed v (Nat.lt_of_le_of_ne (Nat.lt_succ_iff.1 hv) hvn)
  · intro v hv hempty
    by_cases hvn : v = st.g.size
    · rw [hvn] at hempty ⊢
      obtain ⟨alt, halt, hdrop⟩ := hnew.newEmpty.1 hempty
      exact hnew.seeThrough.2 ⟨alt, halt, by rw [hdrop]; rfl⟩
    · rw [hnew.size] at hv
      have hlt := Nat.lt_of_le_of_ne (Nat.lt_succ_iff.1 hv) hvn
      rw [hnew.firsts v hvn]
      refine hinv.empty v hlt ?_
      by_cases hvr : v = r
      · rw [hvr, hnew.selfEmpty] at hempty
        rw [hvr, hempty]
      · rw [hnew.other v hvr hvn] at hempty
        exact hempty
  · intro v hv a ha hsee
    rcases h.alts_cases hinv hv ha with ⟨hlt, hfits⟩ | ⟨rfl, rfl⟩ | ⟨rfl, alt, halt, rfl⟩
    · rw [hnew.firsts v (Nat.ne_of_lt hlt)]
      rw [(h.congr hfits.within).1] at hsee
      exact hfits.seeThrough hsee
    · rw [(altFirsts_append pre _).1, Bool.and_eq_true, (h.congr (h.within_pre hinv)).1] at hsee
      obtain ⟨hpre, hone⟩ := hsee
      have hsee' : (st'.firsts.first st.g.size).seeThrough = true := by
        by_contra hnot
        rw [altFirsts] at hone
        simp only [itemCreate] at hone
        rw [if_neg hnot] at hone
        cases hone
      obtain ⟨alt, halt, hdrop⟩ := hnew.seeThrough.1 hsee'
      rw [hnew.firsts v (Nat.ne_of_lt h.lt)]
      refine (h.fits hinv halt).seeThrough ?_
      rw [(altFirsts_append pre _).1, hpre, hdrop]
      rfl
    · rw [(h.congr (h.within_drop hinv halt)).1] at hsee
      exact hnew.seeThrough.2 ⟨alt, halt, hsee⟩

theorem Extracts.keeps (hinv : FactorInv st) (h : Extracts st st' r pre clash rest)
    (hmark : st.factored r = true) (hpre : pre ≠ [])
    (hapart : ∀ alt ∈ rest, initial alt ≠ initial pre) : Keeps {r} st st' := by
  have hnew := h.extracted
  have hfolds := h.folds hinv
  have hle : st.g.size ≤ st'.g.size := hnew.size ▸ Nat.le_succ _
  have hfactored : ∀ v, v ≠ st.g.size → st'.factored v = st.factored v := by
    intro v hv
    rw [hnew.factored, Function.update_of_ne hv]
  have hitems : ∀ v < st.g.size, ∀ w, st'.g.ItemStrings v w ↔ st.g.ItemStrings v w := by
    intro v hv w
    refine hfolds.gen_iff ?_
    simp only [List.mem_singleton, Sym.nt.injEq]
    exact Nat.ne_of_gt hv
  refine ⟨h.inv hinv, hle, hitems, ?_, ?_, ?_, ?_, ?_⟩
  · intro v hv
    by_cases hvr : v = r
    · rw [hvr, hnew.selfEmpty]
    · rw [hnew.other v hvr (Nat.ne_of_lt hv)]
  · intro v hv
    rw [hfactored v (Nat.ne_of_lt (hinv.unmarked v hv)), hv]
  · intro v hv hvr
    rw [hnew.other v (fun heq => hvr (Set.mem_singleton_iff.2 heq))
      (Nat.ne_of_lt (hinv.unmarked v hv))]
  · intro v hv hv'
    by_cases hvn : v = st.g.size
    · rw [hnew.factored, hvn, Function.update_self] at hv
      cases hv
    · rw [hfactored v hvn, hv'] at hv
      cases hv
  · intro n hn hn'
    rw [hnew.size] at hn'
    obtain rfl : n = st.g.size := Nat.le_antisymm (Nat.lt_succ_iff.1 hn') hn
    refine ⟨r, ?_, Or.inl (Set.mem_singleton r), pre, (hnew.self _).2 (Or.inr rfl), clash, rest,
      hpre, ?_, h.common, hapart, ?_, ?_⟩
    · rw [hfactored r (Nat.ne_of_lt h.lt), hmark]
    · intro alt halt
      exact (hinv.closed r h.lt alt ((h.old alt).2 (List.mem_append.1 halt))).mono hle
    · intro w
      rw [hitems r h.lt, hnew.selfEmpty, itemStrings_iff]
      refine or_congr_right (exists_congr fun alt => ?_)
      rw [h.old, List.mem_append]
      refine and_congr_right fun halt => ?_
      exact ((hinv.closed r h.lt alt ((h.old alt).2 halt)).gen_congr hitems).symm
    · intro w
      rw [Grammar.ItemStrings, hfolds.gen_new]
      constructor
      · rintro ⟨_, ⟨alt, halt, rfl⟩, hgen⟩
        exact ⟨alt, halt, hgen⟩
      · rintro ⟨alt, halt, hgen⟩
        exact ⟨_, ⟨alt, halt, rfl⟩, hgen⟩

end

/-! ## The groups of a rule -/

theorem initial_append (ha : a ≠ []) (b : Alt T) : initial (a ++ b) = initial a := by
  cases a with
  | nil => exact absurd rfl ha
  | cons item next => rfl

/-- A group becomes one alternative, with the same initial item. -/
theorem factorGroup_keeps {done : List (Alt T)} {res : Alt T × Factoring T} (hinv : FactorInv st)
    (hr : r < st.g.size) (hmark : st.factored r = true) (hgr : Grouped (group :: groups))
    (halts : (st.g.rule r).alts = done ++ groupAlts (group :: groups))
    (hapart : ∀ alt ∈ done, initial alt ≠ group.initial)
    (hok : factorGroup limit group.alts st = .ok res) :
    res.1 ≠ [] ∧ initial res.1 = group.initial ∧
      Keeps {r} st (res.2.setAlts r (done ++ [res.1] ++ groupAlts groups)) := by
  have hmem : ∀ a, a ∈ (st.g.rule r).alts ↔ a ∈ group.alts ∨ a ∈ done ++ groupAlts groups := by
    intro a
    simp only [halts, groupAlts, List.flatMap_cons, List.mem_append]
    tauto
  have hne := hgr.nonempty group List.mem_cons_self
  rcases factorGroup_ok hne (hgr.initial group List.mem_cons_self) hok with
    ⟨hst, hres, hinit, hentries⟩ | ⟨pre, hpre, hinit, hcommon, created, hcreated, rfl⟩
  · refine ⟨hres, hinit, ?_⟩
    rw [hst]
    refine hinv.keeps_entries hr rfl rfl rfl ?_ ?_
    · intro old hold
      rcases (hmem old).1 hold with hin | hin
      · exact ⟨res.1, by simp, hentries old hin⟩
      · refine ⟨old, ?_, rfl⟩
        simp only [List.mem_append] at hin ⊢
        tauto
    · intro alt halt
      obtain ⟨old, hold⟩ := List.exists_mem_of_ne_nil group.alts hne
      simp only [List.mem_append, List.mem_singleton] at halt
      rcases halt with (hin | rfl) | hin
      · exact ⟨alt, (hmem alt).2 (Or.inr (List.mem_append_left _ hin)), rfl⟩
      · exact ⟨old, (hmem old).2 (Or.inl hold), hentries old hold⟩
      · exact ⟨alt, (hmem alt).2 (Or.inr (List.mem_append_right _ hin)), rfl⟩
  · obtain ⟨hitem, hmid⟩ := createFactored_ok hcreated fun alt halt item hitem m hm => by
      obtain ⟨old, hold, rfl⟩ := List.mem_map.1 halt
      have hlt := hinv.closed r hr old ((hmem old).2 (Or.inl hold)) item
        (List.mem_of_mem_drop hitem) m hm
      exact ⟨hlt, hinv.computed m hlt⟩
    refine ⟨List.append_ne_nil_of_left_ne_nil hpre _, (initial_append hpre _).trans hinit, ?_⟩
    have hextracts : Extracts st (created.2.setAlts r
        (done ++ [pre ++ [created.1]] ++ groupAlts groups)) r pre group.alts
        (done ++ groupAlts groups) := by
      refine ⟨hr, hne, hcommon, hmem, created.2, _, hmid, rfl, rfl, rfl, ?_⟩
      intro a
      simp only [List.mem_append, List.mem_singleton, hitem]
      tauto
    refine hextracts.keeps hinv hmark hpre ?_
    intro alt halt
    rw [hinit]
    rcases List.mem_append.1 halt with hin | hin
    · exact hapart alt hin
    · obtain ⟨other, hother, hin⟩ := mem_groupAlts.1 hin
      rw [(hgr.tail.initial other hother alt hin).2]
      exact ((List.pairwise_cons.1 hgr.apart).1 other hother).symm

/-- All groups become one alternative each. -/
theorem factorGroups_ok (groups : List (AltGroup T)) :
    ∀ (done : List (Alt T)) (st st' : Factoring T), FactorInv st → r < st.g.size →
      st.factored r = true → Grouped groups →
      (st.g.rule r).alts = done ++ groupAlts groups → (∀ alt ∈ done, alt ≠ []) →
      done.Pairwise (fun a b => initial a ≠ initial b) →
      (∀ alt ∈ done, ∀ group ∈ groups, initial alt ≠ group.initial) →
      factorGroups limit r done groups st = .ok st' →
      Keeps {r} st st' ∧ Distinct st'.g r ∧ ∀ alt ∈ done, alt ∈ (st'.g.rule r).alts := by
  induction groups with
  | nil =>
      intro done st st' hinv hr hmark _ halts hne hpair _ hok
      cases hok
      rw [groupAlts, List.flatMap_nil, List.append_nil] at halts
      refine ⟨Keeps.refl hinv, ⟨?_, ?_⟩, ?_⟩
      · rw [halts]
        exact hne
      · rw [halts]
        exact hpair
      · rw [halts]
        exact fun _ => id
  | cons group groups ih =>
      intro done st st' hinv hr hmark hgr halts hne hpair hapart hok
      obtain ⟨res, hres, hok⟩ := ok_of_bind hok
      obtain ⟨hresne, hinit, hstep⟩ := factorGroup_keeps hinv hr hmark hgr halts
        (fun alt halt => hapart alt halt group List.mem_cons_self) hres
      obtain ⟨hrest, hdist, hdone⟩ := ih (done ++ [res.1]) _ st' hstep.inv
        (Nat.lt_of_lt_of_le hr hstep.size) (hstep.marks r hmark) hgr.tail
        (Factoring.setAlts_alts _ _ _) (by
          intro alt halt
          rcases List.mem_append.1 halt with hin | hin
          · exact hne alt hin
          · rw [List.mem_singleton.1 hin]
            exact hresne) (by
          refine List.pairwise_append.2 ⟨hpair, List.pairwise_singleton _ _, ?_⟩
          intro a ha b hb
          rw [List.mem_singleton.1 hb, hinit]
          exact hapart a ha group List.mem_cons_self) (by
          intro alt halt other hother
          rcases List.mem_append.1 halt with hin | hin
          · exact hapart alt hin other (List.mem_cons_of_mem _ hother)
          · rw [List.mem_singleton.1 hin, hinit]
            exact (List.pairwise_cons.1 hgr.apart).1 other hother) hok
      refine ⟨hstep.trans hrest ?_ ?_, hdist, fun alt halt =>
        hdone alt (List.mem_append_left _ halt)⟩
      · rintro p rfl
        exact hmark
      · rintro p rfl pre n hn _ hmem
        refine hdone _ ?_
        rw [Factoring.setAlts_alts] at hmem
        rcases List.mem_append.1 hmem with hin | hin
        · exact hin
        · -- an alternative that was there does not refer to a new rule
          have hold : pre ++ [itemCreate (.rule n)] ∈ (st.g.rule p).alts := by
            rw [halts, groupAlts, List.flatMap_cons]
            exact List.mem_append_right _ (List.mem_append_right _ hin)
          have hlt := hinv.closed p hr _ hold _
            (List.mem_append_right _ (List.mem_singleton_self _)) n rfl
          exact absurd hlt (Nat.not_lt.2 hn)

/-! ## Runs -/

/-- A call on a rule leaves it alone if it has been factored. -/
theorem factorEnter_ok {run : Nat → List (AltGroup T) → List (Alt T) → Factoring T →
    Except FactorError (Factoring T)}
    (hrun : ∀ st0 st' : Factoring T, FactorInv st0 → r < st0.g.size → st0.factored r = true →
      run r [] (st0.g.rule r).alts st0 = .ok st' → Keeps {r} st0 st' ∧ Distinct st'.g r)
    (hinv : FactorInv st) (hr : r < st.g.size) (hok : factorEnter run r st = .ok st') :
    Keeps ∅ st st' ∧ st'.factored r = true := by
  unfold factorEnter at hok
  split at hok
  · next hmark =>
      cases hok
      exact ⟨Keeps.refl hinv, hmark⟩
  · next hfree =>
      have hself : (st.mark r).factored r = true := Function.update_self _ _ _
      have hother : ∀ v, v ≠ r → (st.mark r).factored v = st.factored v :=
        fun v hv => Function.update_of_ne hv _ _
      have hmarked : ∀ v, st.factored v = true → v ≠ r ∧ (st.mark r).factored v = true := by
        intro v hv
        have hvr : v ≠ r := by
          rintro rfl
          exact hfree hv
        exact ⟨hvr, (hother v hvr).trans hv⟩
      have hinv0 : FactorInv (st.mark r) := by
        refine ⟨hinv.blank, ?_, hinv.closed, hinv.computed, hinv.empty, hinv.seeThrough,
          hinv.ranked⟩
        intro v hv
        by_cases hvr : v = r
        · rw [hvr]
          exact hr
        · rw [hother v hvr] at hv
          exact hinv.unmarked v hv
      obtain ⟨h, hdist⟩ := hrun _ st' hinv0 hr hself hok
      refine ⟨⟨h.inv, h.size, h.items, h.empty, fun v hv => h.marks v (hmarked v hv).2, ?_, ?_, ?_⟩,
        h.marks r hself⟩
      · intro v hv _
        exact h.frozen v (hmarked v hv).2 (hmarked v hv).1
      · intro v hv hv'
        by_cases hvr : v = r
        · rw [hvr]
          exact hdist
        · exact h.fresh v hv ((hother v hvr).trans hv')
      · intro n hn hn'
        obtain ⟨p, hp, hown, hcreated⟩ := h.created n hn hn'
        refine ⟨p, hp, Or.inr ?_, hcreated⟩
        rcases hown with rfl | hpfree
        · simpa using hfree
        · by_contra hpmark
          rw [(hmarked p (by simpa using hpmark)).2] at hpfree
          cases hpfree

theorem checkHandler_eq (st : Factoring T) (m r : Nat) :
    (st.checkHandler m r).g = st.g ∧ (st.checkHandler m r).firsts = st.firsts ∧
      (st.checkHandler m r).factored = st.factored := by
  unfold Factoring.checkHandler
  split
  · exact ⟨rfl, rfl, rfl⟩
  · exact ⟨rfl, rfl, rfl⟩

/-- The groups without one of them. -/
theorem mem_groupAlts_eraseIdx {i : Nat} (hi : groups[i]? = some group) (a : Alt T) :
    a ∈ groupAlts groups ↔ a ∈ group.alts ∨ a ∈ groupAlts (groups.eraseIdx i) := by
  induction groups generalizing i with
  | nil => cases hi
  | cons first groups ih =>
      cases i with
      | zero =>
          cases hi
          simp [groupAlts]
      | succ i =>
          have h := ih hi
          simp only [groupAlts, List.flatMap_cons, List.mem_append, List.eraseIdx_cons_succ] at h ⊢
          tauto

/-- What comes after the call on the rule `m`, for the group that starts with it. -/
theorem FactorInv.keeps_group {i : Nat} (h : FactorInv st) (hr : r < st.g.size) (hmr : m ≠ r)
    (hgr : Grouped groups) (hi : groups[i]? = some group)
    (hinit : ∀ alt ∈ group.alts, initial alt = some (.rule m))
    (halts : (st.g.rule r).alts = groupAlts groups) {st3 : Factoring T}
    (hst3 : st3 = (st.checkHandler m r).setAlts r (groupAlts (groups.eraseIdx i))) :
    Keeps {r} st (st3.setAlts r
      (groupAlts (groups.eraseIdx i) ++ expandAlts (st3.g.rule m) group.alts)) := by
  obtain ⟨hg, hfirsts, hfactored⟩ := checkHandler_eq st m r
  have hg3 : st3.g = st.g.setAlts r (groupAlts (groups.eraseIdx i)) := by
    rw [hst3, ← hg]
    rfl
  have hrule : st3.g.rule m = st.g.rule m := by
    rw [hg3, setAlts_rule_of_ne _ hmr]
  have hmem : ∀ a, a ∈ (st.g.rule r).alts ↔
      a ∈ group.alts ∨ a ∈ groupAlts (groups.eraseIdx i) := by
    intro a
    rw [halts, mem_groupAlts_eraseIdx hi]
  have hnew : ∀ a, a ∈ groupAlts (groups.eraseIdx i) ++ expandAlts (st3.g.rule m) group.alts ↔
      a ∈ groupAlts (groups.eraseIdx i) ∨ a ∈ expandAlts (st.g.rule m) group.alts := by
    intro a
    rw [hrule, List.mem_append]
  refine h.keeps_expand hr (hgr.nonempty group (List.mem_of_getElem? hi)) hinit hmem hnew ?_ ?_ ?_
  · change st3.g.setAlts r _ = _
    rw [hg3, setAlts_setAlts]
  · change st3.firsts = _
    rw [hst3, ← hfirsts]
    rfl
  · change st3.factored = _
    rw [hst3, ← hfactored]
    rfl

/-- The loop over one rule. The rules of its groups are factored before they are expanded. -/
theorem factorRun_ok (fuel : Nat) :
    ∀ (r : Nat) (groups : List (AltGroup T)) (alts : List (Alt T)) (st st' : Factoring T),
      FactorInv st → r < st.g.size → st.factored r = true → Grouped groups →
      (∀ a, a ∈ (st.g.rule r).alts ↔ a ∈ groupAlts groups ∨ a ∈ alts) →
      factorRun limit fuel r groups alts st = .ok st' →
      Keeps {r} st st' ∧ Distinct st'.g r := by
  induction fuel with
  | zero =>
      intro r groups alts st st' _ _ _ _ _ hok
      cases hok
  | succ fuel ih =>
      intro r groups0 alts st st' hinv hr hmark hgr0 hmem0 hok
      have hS : ∀ p ∈ ({r} : Set Nat), st.factored p = true := by
        rintro p rfl
        exact hmark
      obtain ⟨groups, hgroups, hok⟩ := ok_of_bind hok
      obtain ⟨hgr, hmem⟩ := groupByInitialItem_ok alts groups0 groups hgr0 hgroups
      have hregroup : Keeps {r} st (st.setAlts r (groupAlts groups)) := by
        refine hinv.keeps_entries hr rfl rfl rfl ?_ ?_
        · exact fun old hold => ⟨old, (hmem old).2 ((hmem0 old).1 hold), rfl⟩
        · exact fun alt halt => ⟨alt, (hmem0 alt).2 ((hmem alt).1 halt), rfl⟩
      have halts1 := Factoring.setAlts_alts st r (groupAlts groups)
      dsimp only at hok
      generalize hst1 : st.setAlts r (groupAlts groups) = st1 at hok hregroup halts1
      have hsize1 : st1.g.size = st.g.size := by rw [← hst1]; rfl
      have hr1 : r < st1.g.size := hsize1 ▸ hr
      have hmark1 := hregroup.marks r hmark
      split at hok
      · obtain ⟨hstep, hdist, -⟩ := factorGroups_ok groups [] st1 st' hregroup.inv hr1 hmark1 hgr
          (by rw [halts1, List.nil_append]) (fun _ h => absurd h List.not_mem_nil) List.Pairwise.nil
          (fun _ h => absurd h List.not_mem_nil) hok
        exact ⟨hregroup.trans_of_size hstep hS hsize1, hdist⟩
      · next i _ =>
        split at hok
        · cases hok
        next group hi =>
        split at hok
        · cases hok
        next m hm =>
        have hin := List.mem_of_getElem? hi
        have hinit : ∀ alt ∈ group.alts, initial alt = some (.rule m) := by
          intro alt halt
          rw [(hgr.initial group hin alt halt).2]
          unfold AltGroup.rule at hm
          split at hm
          · next v hv =>
              cases hm
              exact hv
          · cases hm
        obtain ⟨hm1, hmr⟩ : m < st1.g.size ∧ m ≠ r := by
          obtain ⟨alt, halt⟩ := List.exists_mem_of_ne_nil _ (hgr.nonempty group hin)
          obtain ⟨item, heq, hentry⟩ := initial_eq_rule (hinit alt halt)
          have hfits : Fits st1 r (item :: alt.tail) := by
            rw [← heq]
            refine hregroup.inv.fits hr1 ?_
            rw [halts1]
            exact mem_groupAlts.2 ⟨group, hin, halt⟩
          exact ⟨hfits.within item List.mem_cons_self m hentry, Fits.ne hregroup.inv hentry hfits⟩
        obtain ⟨st2, hst2, hok⟩ := ok_of_bind hok
        obtain ⟨hcall, -⟩ := factorEnter_ok
          (fun st0 st' hinv0 hm0 hmark0 hrun => ih m [] _ st0 st' hinv0 hm0 hmark0 grouped_nil
            (fun a => (or_iff_right List.not_mem_nil).symm) hrun)
          hregroup.inv hm1 hst2
        have halts2 : (st2.g.rule r).alts = groupAlts groups :=
          (hcall.frozen r hmark1 (Set.notMem_empty r)).trans halts1
        have hr2 : r < st2.g.size := Nat.lt_of_lt_of_le hr1 hcall.size
        have hmark2 := hcall.marks r hmark1
        have hexpand := hcall.inv.keeps_group hr2 hmr hgr hi hinit halts2 rfl
        obtain ⟨hrest, hdist⟩ := ih r _ _ _ st' hexpand.inv
          (Nat.lt_of_lt_of_le hr2 hexpand.size) (hexpand.marks r hmark2)
          (hgr.sublist (List.eraseIdx_sublist _ _))
          (fun a => by rw [Factoring.setAlts_alts, List.mem_append]) hok
        have hS2 : ∀ p ∈ ({r} : Set Nat), st2.factored p = true := by
          rintro p rfl
          exact hmark2
        have hloop := hexpand.trans_of_size hrest hS2 (by
          obtain ⟨hg3, -, -⟩ := checkHandler_eq st2 m r
          change (st2.checkHandler m r).g.size = _
          rw [hg3])
        have hS1 : ∀ p ∈ ({r} : Set Nat), st1.factored p = true := by
          rintro p rfl
          exact hmark1
        refine ⟨hregroup.trans_of_size ((hcall.mono (Set.empty_subset _)).trans hloop hS1 ?_) hS
          hsize1, hdist⟩
        -- the call creates rules for other rules only
        rintro p rfl pre n hn _ hmem
        rw [halts2, ← halts1] at hmem
        have hlt := hregroup.inv.closed p hr1 _ hmem _
          (List.mem_append_right _ (List.mem_singleton_self _)) n rfl
        exact absurd hlt (Nat.not_lt.2 hn)

/-- A call on a rule of the table, that returns. -/
def Factoring.Call (limit : Nat) (st st' : Factoring T) : Prop :=
  ∃ fuel, ∃ r < st.g.size, factorRule limit fuel r st = .ok st'

theorem factorRule_ok {fuel : Nat} (hinv : FactorInv st) (hr : r < st.g.size)
    (hok : factorRule limit fuel r st = .ok st') : Keeps ∅ st st' ∧ st'.factored r = true := by
  refine factorEnter_ok ?_ hinv hr hok
  intro st0 st' hinv0 hr0 hmark0 hrun
  exact factorRun_ok fuel r [] _ st0 st' hinv0 hr0 hmark0 grouped_nil
    (fun a => (or_iff_right List.not_mem_nil).symm) hrun

/-- Any calls in any order. -/
theorem Keeps.calls (hinv : FactorInv st)
    (hcalls : Relation.ReflTransGen (Factoring.Call limit) st st') : Keeps ∅ st st' := by
  induction hcalls with
  | refl => exact Keeps.refl hinv
  | tail _ hcall ih =>
      obtain ⟨fuel, r, hr, hok⟩ := hcall
      refine ih.trans (factorRule_ok ih.inv hr hok).1 ?_ ?_
      · exact fun p hp => absurd hp (Set.notMem_empty p)
      · exact fun p hp => absurd hp (Set.notMem_empty p)

/-- The first sets have been computed without an error. -/
theorem factorInv_start {g : Grammar T} (hg : g.Wf) {roots : List Nat}
    (hperm : roots.Perm (List.range g.size)) {firsts : Firsts T}
    (hfirsts : computeFirstSets g roots Firsts.start = .ok firsts) (herr : firsts.errors = []) :
    FactorInv (Factoring.start g firsts) := by
  obtain ⟨hinv, hcomputed⟩ := (computeFirstSets_solved hg hperm).2 firsts hfirsts herr
  refine ⟨hg.blank, ?_, hg.closed, hcomputed, ?_, ?_, ?_⟩
  · intro r hr
    cases hr
  · intro r hr hempty
    exact (hinv.solved r (hcomputed r hr)).seeThrough.2 (Or.inl hempty)
  · intro r hr alt halt hsee
    exact (hinv.solved r (hcomputed r hr)).seeThrough.2 (Or.inr ⟨alt, halt, hsee⟩)
  · obtain ⟨rank, hrank⟩ := hinv.ranked
    exact ⟨rank, fun r hr => hrank r (hcomputed r hr)⟩

/-- The first alternative has a rule with an alternative that starts as the second one. -/
def clashing : Grammar 6 :=
  tableOf [⟨false, [[itemCreate (.rule 1), itemCreate (.basic 2)],
      [itemCreate (.basic 0), itemCreate (.basic 3)]], none, 0⟩,
    ⟨true, [[itemCreate (.basic 0), itemCreate (.basic 4)]], none, 0⟩]

theorem clashing_run : ∃ (firsts : Firsts 6) (st : Factoring 6),
    computeFirstSets clashing [0, 1] Firsts.start = .ok firsts ∧ firsts.errors = [] ∧
      factorRule 1000 3 0 (Factoring.start clashing firsts) = .ok st ∧ st.g.size = 3 :=
  ⟨_, _, rfl, rfl, rfl, rfl⟩

end Tendra.Ref.Sid
