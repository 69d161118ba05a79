import Mathlib.Data.List.Perm.Basic
import Mathlib.Data.Nat.Bitwise
import Tendra.Ref.Tld.Capsule
import Tendra.Ref.Tld.Usage

/-!
# The definition of a name does not depend on the order of its usages

What has been read of a name leaves the bits of all its usages and the definition that
these settle: the first one that defines it, or the only one that may. Both functions
keep this, by the same lemma, as what they do with a usage is the same.
-/

namespace Tendra.Ref.Tld

section

variable {α : Type}
variable {us : List (Usage α)} {d : Direct}

/-- The usages with a bit. -/
def withBit (bit : Nat) (us : List (Usage α)) : List (Usage α) := us.filter fun u => has u.use bit

/-- The definition that is settled by usages. -/
def settled (us : List (Usage α)) : Option α :=
  match withBit uDefd us, withBit uMult us with
  | u :: _, _ => some u.capsule
  | [], [u] => some u.capsule
  | [], _ => none

/-- What the bookkeeping of a name is to be after some usages, in any order. -/
structure Law (us : List (Usage α)) (definition : Option α) (use : Nat)
    (reports : List (UsageReport α)) : Prop where
  defined : ∀ u, withBit uDefd us = [u] → definition = some u.capsule
  mult : withBit uDefd us = [] → ∀ u, withBit uMult us = [u] → definition = some u.capsule
  tie : withBit uDefd us = [] → (∀ u, withBit uMult us ≠ [u]) → definition = none
  use : ∀ i, use.testBit i = us.any fun u => u.use.testBit i
  reported : (∃ r ∈ reports, ∃ p, r.error = .definedMoreThanOnce p) ↔ 2 ≤ (withBit uDefd us).length

/-- The bits of a name are those of the usages. -/
def Merged (us : List (Usage α)) (use : Nat) : Prop :=
  ∀ i, use.testBit i = us.any fun u => u.use.testBit i

theorem has_two_pow (use j : Nat) : has use (2 ^ j) = use.testBit j := by
  rw [has, Nat.and_two_pow]
  cases use.testBit j <;> simp

theorem Merged.has_iff {use : Nat} (h : Merged us use) (j : Nat) :
    has use (2 ^ j) = true ↔ withBit (2 ^ j) us ≠ [] := by
  rw [has_two_pow, h j, List.any_eq_true, withBit, ne_eq, List.filter_eq_nil_iff]
  simp only [has_two_pow, not_forall, not_not, exists_prop]

theorem withBit_append (bit : Nat) (us : List (Usage α)) (u : Usage α) :
    withBit bit (us ++ [u]) = withBit bit us ++ if has u.use bit then [u] else [] := by
  rw [withBit, List.filter_append, withBit]
  congr 1
  split
  · next h => exact List.filter_cons_of_pos h
  · next h => exact List.filter_cons_of_neg h

/-- A usage settles what the functions make of it. -/
theorem settled_append {use : Nat} (h : Merged us use) (u : Usage α) :
    (noteUsage u.capsule u.use use (settled us)).2 = settled (us ++ [u]) := by
  have hdefd := h.has_iff 2
  have hmult := h.has_iff 3
  change has use uDefd = true ↔ withBit uDefd us ≠ [] at hdefd
  change has use uMult = true ↔ withBit uMult us ≠ [] at hmult
  rw [noteUsage, settled, settled, withBit_append, withBit_append]
  by_cases hd : has u.use uDefd = true
  · rw [if_pos hd]
    cases hD : withBit uDefd us with
    | nil => simp [hd, hdefd, hD]
    | cons a as => simp [hd, hdefd, hD]
  · rw [if_neg hd, List.append_nil]
    by_cases hm : has u.use uMult = true
    · rw [if_pos hm]
      cases hD : withBit uDefd us with
      | nil =>
          cases hM : withBit uMult us with
          | nil => simp [hd, hm, hdefd, hmult, hD, hM]
          | cons a as => simp [hd, hm, hdefd, hmult, hD, hM]
      | cons a as => simp [hd, hm, hdefd, hD]
    · rw [if_neg hm, List.append_nil]
      simp [hd, hm]

/-- The usage of a name is cut down to the bits of usages. -/
theorem nameEntryGetUse_testBit (d : Direct) (i : Nat) :
    (nameEntryGetUse d).testBit i = (d.use.testBit i && decide (i < 4)) := by
  rw [nameEntryGetUse, show uDefd ||| uDecd ||| uMult ||| uUsed = 2 ^ 4 - 1 from rfl,
    Nat.testBit_and, Nat.testBit_two_pow_sub_one]

theorem checkUsage_le {needDec noMult : Bool} {use : Nat}
    (h : (checkUsage needDec noMult use : Option (UsageError α)) = none) : use < 16 := by
  rw [checkUsage] at h
  split at h
  · cases h
  · next hle => exact Nat.lt_succ_of_le (not_not.1 hle)

/-- The bits are those of the usages after one more of them. -/
theorem Merged.append (h : Merged us (nameEntryGetUse d)) {u : Usage α} (hu : u.use < 16)
    (d' : Direct) (hd : d'.use = d.use ||| u.use) : Merged (us ++ [u]) (nameEntryGetUse d') := by
  intro i
  have hi := h i
  rw [nameEntryGetUse_testBit] at hi
  rw [nameEntryGetUse_testBit, hd, Nat.testBit_or, Bool.and_or_distrib_right, hi, List.any_append,
    List.any_cons, List.any_nil, Bool.or_false]
  congr 1
  by_cases hlt : i < 4
  · rw [decide_eq_true hlt, Bool.and_true]
  · rw [decide_eq_false hlt, Bool.and_false, Nat.testBit_lt_two_pow]
    exact Nat.lt_of_lt_of_le hu (Nat.pow_le_pow_right (show 0 < 2 from by omega) (not_lt.1 hlt))

/-- An error is found where a usage defines the name again. -/
theorem noteUsage_error (u : Usage α) (use : Nat) (definition : Option α) :
    (noteUsage u.capsule u.use use definition).1 =
      if has u.use uDefd ∧ has use uDefd then some (.definedMoreThanOnce definition) else none := by
  rw [noteUsage]
  by_cases hd : has u.use uDefd ∧ has use uDefd
  · rw [if_pos hd, if_pos hd]
  · rw [if_neg hd, if_neg hd]
    split
    · rfl
    · split <;> rfl

/-! ### Reading a sequence -/

/-- A turn that does with the definition in `field` what both functions do. -/
structure Notes (turn : Usage α → Direct → Except (UsageReport α) (List (UsageReport α) × Direct))
    (field : Direct → Option α) : Prop where
  passes : ∀ u d, (checkUsage u.needDec u.noMult u.use : Option (UsageError α)) = none →
    ∃ reports d', turn u d = .ok (reports, d') ∧ d'.use = d.use ||| u.use ∧
      field d' = (noteUsage u.capsule u.use (nameEntryGetUse d) (field d)).2 ∧
      reports.map UsageReport.error =
        (noteUsage u.capsule u.use (nameEntryGetUse d) (field d)).1.toList

variable {turn : Usage α → Direct → Except (UsageReport α) (List (UsageReport α) × Direct)}
  {field : Direct → Option α}

/-- What holds after some usages. -/
structure NotedFor (field : Direct → Option α) (us : List (Usage α)) (d : Direct) : Prop where
  merged : Merged us (nameEntryGetUse d)
  definition : field d = settled us

/-- One more usage. It is reported if it defines the name, and is not the first to do so. -/
theorem Notes.step (hturn : Notes turn field) (h : NotedFor field us d) {u : Usage α}
    (hu : (checkUsage u.needDec u.noMult u.use : Option (UsageError α)) = none) :
    ∃ reports d', turn u d = .ok (reports, d') ∧ NotedFor field (us ++ [u]) d' ∧
      (∀ r ∈ reports, ∃ p, r.error = .definedMoreThanOnce p) ∧
      reports.length + ((withBit uDefd us).length - 1) =
      (withBit uDefd (us ++ [u])).length - 1 := by
  obtain ⟨reports, d', hok, huse, hfield, hreports⟩ := hturn.passes u d hu
  have hdefd := h.merged.has_iff 2
  change has (nameEntryGetUse d) uDefd = true ↔ withBit uDefd us ≠ [] at hdefd
  rw [noteUsage_error] at hreports
  have hlength := congrArg List.length hreports
  rw [List.length_map] at hlength
  refine ⟨reports, d', hok, ⟨h.merged.append (checkUsage_le hu) d' huse, ?_⟩, fun r hr => ?_, ?_⟩
  · rw [hfield, h.definition, settled_append h.merged]
  · have hmem := List.mem_map_of_mem (f := UsageReport.error) hr
    rw [hreports] at hmem
    split at hmem
    · exact ⟨_, List.mem_singleton.1 hmem⟩
    · exact absurd hmem List.not_mem_nil
  · rw [hlength, withBit_append, List.length_append]
    by_cases hd : has u.use uDefd = true
    · by_cases hp : has (nameEntryGetUse d) uDefd = true
      · have hpos := List.length_pos_iff.2 (hdefd.1 hp)
        rw [if_pos ⟨hd, hp⟩, if_pos hd]
        simp only [Option.toList_some, List.length_singleton]
        omega
      · have hnil : withBit uDefd us = [] := not_not.1 fun hne => hp (hdefd.2 hne)
        rw [if_neg fun hboth => hp hboth.2, if_pos hd, hnil]
        rfl
    · rw [if_neg fun hboth => hd hboth.1, if_neg hd]
      simp only [Option.toList_none, List.length_nil]
      omega

theorem Notes.run (hturn : Notes turn field)
    (hpass : ∀ u ∈ us, (checkUsage u.needDec u.noMult u.use : Option (UsageError α)) = none)
    {pre : List (Usage α)} (h : NotedFor field pre d) :
    ∃ reports d', readUsages turn us d = .ok (reports, d') ∧ NotedFor field (pre ++ us) d' ∧
      (∀ r ∈ reports, ∃ p, r.error = .definedMoreThanOnce p) ∧
      reports.length + ((withBit uDefd pre).length - 1) =
        (withBit uDefd (pre ++ us)).length - 1 := by
  induction us generalizing pre d with
  | nil =>
      rw [List.append_nil]
      exact ⟨[], d, rfl, h, fun r hr => absurd hr List.not_mem_nil, Nat.zero_add _⟩
  | cons u us ih =>
      obtain ⟨reports, d', hok, hstate, hall, hlen⟩ := hturn.step h (hpass u List.mem_cons_self)
      obtain ⟨more, d'', hok', hstate', hall', hlen'⟩ :=
        ih (fun v hv => hpass v (List.mem_cons_of_mem u hv)) hstate
      rw [List.append_assoc, List.singleton_append] at hstate' hlen'
      refine ⟨reports ++ more, d'', ?_, hstate', fun r hr => ?_, ?_⟩
      · rw [readUsages, hok]
        change (readUsages turn us d' >>= _) = _
        rw [hok']
        rfl
      · exact (List.mem_append.1 hr).elim (hall r) (hall' r)
      · rw [List.length_append]
        omega

/-! ### The law -/

theorem Law.perm {us' : List (Usage α)} (hperm : us'.Perm us) {definition : Option α} {use : Nat}
    {reports : List (UsageReport α)} (h : Law us definition use reports) :
    Law us' definition use reports := by
  have hfilter : ∀ bit, (withBit bit us').Perm (withBit bit us) := fun _ => hperm.filter _
  have hnil : withBit uDefd us' = [] → withBit uDefd us = [] := fun h =>
    List.nil_perm.1 (h ▸ hfilter uDefd)
  have hsingle : ∀ bit u, withBit bit us' = [u] ↔ withBit bit us = [u] := fun bit u =>
    ⟨fun h => (List.singleton_perm.1 (h ▸ hfilter bit)).symm,
      fun h => List.perm_singleton.1 (h ▸ hfilter bit)⟩
  refine ⟨fun u hu => h.defined u ((hsingle _ u).1 hu), fun hn u hu => ?_, fun hn hu => ?_,
    fun i => ?_, ?_⟩
  · exact h.mult (hnil hn) u ((hsingle _ u).1 hu)
  · exact h.tie (hnil hn) fun u hu' => hu u ((hsingle _ u).2 hu')
  · rw [h.use i, hperm.any_eq]
  · rw [h.reported, (hfilter uDefd).length_eq]

/-- Reading the usages of a new name gives what they settle, in whatever order. -/
theorem Notes.law (hturn : Notes turn field)
    (hpass : ∀ u ∈ us, (checkUsage u.needDec u.noMult u.use : Option (UsageError α)) = none)
    (huse : nameEntryGetUse d = 0) (hnull : field d = none) :
    ∃ reports d', readUsages turn us d = .ok (reports, d') ∧
      ∀ us', us'.Perm us → Law us' (field d') (nameEntryGetUse d') reports := by
  have hinit : NotedFor field [] d := by
    refine ⟨fun i => ?_, hnull⟩
    rw [huse, Nat.zero_testBit]
    rfl
  obtain ⟨reports, d', hok, hstate, hall, hlen⟩ := hturn.run hpass hinit
  rw [List.nil_append] at hstate hlen
  refine ⟨reports, d', hok, fun us' hperm => Law.perm hperm ⟨fun u hu => ?_, fun hn u hu => ?_,
    fun hn hu => ?_, hstate.merged, ?_⟩⟩
  · rw [hstate.definition, settled, hu]
  · rw [hstate.definition, settled, hn, hu]
  · rw [hstate.definition, settled, hn]
    split
    · next h => cases h
    · next h => exact absurd ‹_› (hu _)
    · rfl
  · change reports.length + 0 = (withBit uDefd us).length - 1 at hlen
    refine ⟨fun hr => ?_, fun htwo => ?_⟩
    · obtain ⟨r, hr, -⟩ := hr
      have hpos := List.length_pos_of_mem hr
      omega
    · obtain ⟨r, hr⟩ := List.exists_mem_of_length_pos (show 0 < reports.length from by omega)
      exact ⟨r, hr, hall r hr⟩

end

/-! ### The two functions -/

variable (shapeKey : NString) (key : NameKey)

theorem capsule_notes : Notes (capsuleReadUsageTurn shapeKey key) Direct.definition := by
  refine ⟨fun u d hu => ?_⟩
  rw [capsuleReadUsageTurn, hu]
  refine ⟨_, _, rfl, rfl, rfl, ?_⟩
  rw [List.map_map]
  exact List.map_id _

theorem library_notes : Notes (libraryCheckIndexEntry shapeKey key) Direct.libDefinition := by
  refine ⟨fun u d hu => ?_⟩
  rw [libraryCheckIndexEntry, hu]
  refine ⟨_, _, rfl, rfl, rfl, ?_⟩
  rw [List.map_map]
  exact List.map_id _

/-- Whatever the order, the usages of a name that pass the checks leave the definition, the usage
and the reports that the law says, of capsules as of the indices of libraries. -/
theorem usages_exact (d : Direct) (huse : nameEntryGetUse d = 0) :
    (d.definition = none → ∀ us : List (Usage NString),
      (∀ u ∈ us, (checkUsage u.needDec u.noMult u.use : Option (UsageError NString)) = none) →
      ∃ reports d', readUsages (capsuleReadUsageTurn shapeKey key) us d = .ok (reports, d') ∧
        ∀ us', us'.Perm us → Law us' d'.definition (nameEntryGetUse d') reports) ∧
    (d.libDefinition = none → ∀ us : List (Usage Nat),
      (∀ u ∈ us, (checkUsage u.needDec u.noMult u.use : Option (UsageError Nat)) = none) →
      ∃ reports d', readUsages (libraryCheckIndexEntry shapeKey key) us d = .ok (reports, d') ∧
        ∀ us', us'.Perm us → Law us' d'.libDefinition (nameEntryGetUse d') reports) :=
  ⟨fun hnull _ hpass => (capsule_notes shapeKey key).law hpass huse hnull,
    fun hnull _ hpass => (library_notes shapeKey key).law hpass huse hnull⟩

/-- Two capsules may define the name, and a third one does. -/
theorem usages_exact_three : ∃ reports d',
    readUsages (capsuleReadUsageTurn tagName (.string [0x66]))
      [⟨[1], [1], 9, true, false, uMult ||| uDecd⟩, ⟨[2], [2], 7, true, false, uMult ||| uDecd⟩,
        ⟨[3], [3], 5, true, false, uDefd ||| uDecd⟩] ⟨0, 0, none, none⟩ = .ok (reports, d') ∧
      d'.definition = some [3] ∧ ¬∃ r ∈ reports, ∃ p, r.error = .definedMoreThanOnce p := by
  obtain ⟨reports, d', hok, hlaw⟩ := (usages_exact tagName (.string [0x66]) ⟨0, 0, none, none⟩
    rfl).1 rfl [⟨[1], [1], 9, true, false, uMult ||| uDecd⟩,
      ⟨[2], [2], 7, true, false, uMult ||| uDecd⟩, ⟨[3], [3], 5, true, false, uDefd ||| uDecd⟩]
    (by decide)
  have hlaw := hlaw _ (List.Perm.refl _)
  exact ⟨reports, d', hok, hlaw.defined ⟨[3], [3], 5, true, false, uDefd ||| uDecd⟩ (by rfl),
    fun h => absurd (hlaw.reported.1 h) (by decide)⟩

end Tendra.Ref.Tld
