import Mathlib.Data.List.Perm.Basic
import Tendra.Ref.Lexi.Group

/-!
# The interface to groups

The numbers of the groups are right: those that are not empty have each a bit of their own, and
an entry of the table has the bits of the groups that its character is in. The enumerators are
not: behind every zone beside the first one `out_macros_zone` goes into the zones that are in the
first one, and never into those that are in the others.
-/

namespace Tendra.Ref.Lexi

variable {groups : List Group} {z : Zones} {e : Enumerator}

/-! ### Numbers -/

/-- The number of a group, counted in groups that are not empty. -/
def number (g : Group) : List Group → Nat
  | [] => 0
  | p :: groups => if g = p then 0 else (if !isGroupEmpty p then 1 else 0) + number g groups

section

variable {g h : Group}

theorem groupNumber_eq (hg : g ∈ groups) (i : Nat) :
    groupNumber g groups i = some (1#32 <<< (i + number g groups)) := by
  induction groups generalizing i with
  | nil => cases hg
  | cons p groups ih =>
      rw [groupNumber, number]
      by_cases heq : g = p
      · rw [if_pos heq, if_pos heq]
        rfl
      · have hmem := (List.mem_cons.1 hg).resolve_left heq
        rw [if_neg heq, if_neg heq, ih hmem]
        split <;> simp [Nat.add_assoc]

theorem number_lt (hg : g ∈ groups) (hne : isGroupEmpty g = false) :
    number g groups < countNonemptyGroups groups := by
  induction groups with
  | nil => cases hg
  | cons p groups ih =>
      rw [number, countNonemptyGroups, List.countP_cons, Nat.add_comm (List.countP _ _)]
      by_cases heq : g = p
      · rw [if_pos heq, ← heq, hne]
        exact Nat.lt_add_right _ Nat.one_pos
      · rw [if_neg heq]
        exact Nat.add_lt_add_left (ih ((List.mem_cons.1 hg).resolve_left heq)) _

/-- Different groups have different numbers. -/
theorem number_inj (hg : g ∈ groups) (hh : h ∈ groups) (hgne : isGroupEmpty g = false)
    (hhne : isGroupEmpty h = false) (heq : number g groups = number h groups) : g = h := by
  induction groups with
  | nil => cases hg
  | cons p groups ih =>
      rw [number, number] at heq
      by_cases hgp : g = p
      · by_cases hhp : h = p
        · rw [hgp, hhp]
        · rw [if_pos hgp, if_neg hhp, ← hgp, hgne] at heq
          simp at heq
          omega
      · by_cases hhp : h = p
        · rw [if_neg hgp, if_pos hhp, ← hhp, hhne] at heq
          simp at heq
        · rw [if_neg hgp, if_neg hhp] at heq
          exact ih ((List.mem_cons.1 hg).resolve_left hgp) ((List.mem_cons.1 hh).resolve_left hhp)
            (Nat.add_left_cancel heq)

end

/-! ### The table -/

/-- A group that has a character is not empty. -/
theorem isGroupEmpty_of_inGroup {g : Group} {c : Int} (h : inGroup g c = true) :
    isGroupEmpty g = false := by
  rw [inGroup, Bool.and_eq_true] at h
  cases hget : g.toList[c.toNat]? with
  | none => rw [hget] at h; cases h.2
  | some b =>
      rw [hget] at h
      obtain rfl : b = true := h.2
      refine Bool.eq_false_iff.2 fun hall => ?_
      rw [isGroupEmpty, List.all_eq_true] at hall
      exact Bool.noConfusion (hall true (List.mem_of_getElem? hget))

theorem getLsbD_one_shiftLeft {i : Nat} (hi : i < 32) (j : Nat) :
    (1#32 <<< i).getLsbD j = decide (i = j) := by
  rw [← BitVec.twoPow_eq, BitVec.getLsbD_twoPow]
  by_cases heq : i = j
  · rw [decide_eq_true heq, decide_eq_true hi]
    rfl
  · rw [decide_eq_false heq, Bool.and_false]

section

variable {c : Nat}

/-- An entry has the bits of the groups that its character is in. -/
theorem lookup_bits (h31 : countNonemptyGroups groups ≤ 31) (l : List Group)
    (hl : ∀ g ∈ l, g ∈ groups) (m : BitVec 32) :
    ∃ m', l.foldlM (fun m g =>
        if inGroup g c then (groupNumber g groups 0).map (m ||| ·) else some m) m = some m' ∧
      ∀ j, m'.getLsbD j = true ↔
        m.getLsbD j = true ∨ ∃ g ∈ l, inGroup g c = true ∧ number g groups = j := by
  induction l generalizing m with
  | nil => exact ⟨m, rfl, fun j => by simp⟩
  | cons g l ih =>
      rw [List.forall_mem_cons] at hl
      rw [List.foldlM_cons]
      by_cases hg : inGroup g c = true
      · rw [if_pos hg, groupNumber_eq hl.1, Nat.zero_add]
        obtain ⟨m', hm', hbits⟩ := ih hl.2 (m ||| 1#32 <<< number g groups)
        refine ⟨m', hm', fun j => ?_⟩
        have hlt := number_lt hl.1 (isGroupEmpty_of_inGroup hg)
        rw [hbits, BitVec.getLsbD_or, getLsbD_one_shiftLeft (by omega), Bool.or_eq_true,
          decide_eq_true_eq, List.exists_mem_cons_iff, and_iff_right hg, or_assoc]
      · rw [if_neg hg]
        obtain ⟨m', hm', hbits⟩ := ih hl.2 m
        refine ⟨m', hm', fun j => ?_⟩
        have hnot : ¬ (inGroup g c = true ∧ number g groups = j) := fun hand => hg hand.1
        rw [hbits, List.exists_mem_cons_iff, or_iff_right hnot]

/-- The type of the entries has a bit for each group that is not empty. -/
theorem exists_lookupWidth (h31 : countNonemptyGroups groups ≤ 31) :
    ∃ width, lookupWidth (countNonemptyGroups groups) = some width ∧
      countNonemptyGroups groups ≤ width := by
  rw [lookupWidth, if_neg (by omega)]
  split
  · exact ⟨32, rfl, by omega⟩
  split
  · exact ⟨16, rfl, by omega⟩
  · exact ⟨8, rfl, by omega⟩

/-- The generated test of a character for a group. -/
theorem lookupTab_and_enumerator (h31 : countNonemptyGroups groups ≤ 31) {g : Group}
    (hg : g ∈ groups) (c : Nat) :
    ∃ tab e, lookupTab groups c = some tab ∧ enumerator groups g = some e ∧
      (tab &&& e ≠ 0 ↔ inGroup g c = true) := by
  obtain ⟨width, hwidth, hfits⟩ := exists_lookupWidth h31
  obtain ⟨m, hm, hbits⟩ := lookup_bits (c := c) h31 groups (fun _ h => h) 0
  have htab : lookupTab groups c = some ((m.setWidth width).setWidth 32) := by
    rw [lookupTab, hwidth, lookup, Option.bind_eq_bind, Option.bind_some, hm]
    rfl
  rw [enumerator]
  by_cases hempty : isGroupEmpty g = true
  · rw [if_pos hempty]
    refine ⟨_, 0, htab, rfl, fun hne => absurd (BitVec.and_zero) hne, fun hin => ?_⟩
    rw [isGroupEmpty_of_inGroup hin] at hempty
    cases hempty
  · rw [if_neg hempty, groupNumber_eq hg, Nat.zero_add]
    have hne := Bool.eq_false_iff.2 hempty
    have hlt := number_lt hg hne
    refine ⟨_, _, htab, rfl, ?_⟩
    have hbit : ((m.setWidth width).setWidth 32).getLsbD (number g groups) = true ↔
        inGroup g c = true := by
      rw [BitVec.getLsbD_setWidth, BitVec.getLsbD_setWidth, decide_eq_true (by omega),
        decide_eq_true (by omega), Bool.true_and, Bool.true_and, hbits]
      refine ⟨fun h => ?_, fun h => .inr ⟨g, hg, h, rfl⟩⟩
      obtain h | ⟨h, hh, hin, heq⟩ := h
      · rw [show (0 : BitVec 32) = 0#32 from rfl, BitVec.getLsbD_zero] at h
        cases h
      · rw [← number_inj hh hg (isGroupEmpty_of_inGroup hin) hne heq]
        exact hin
    rw [← hbit, ← BitVec.twoPow_eq, BitVec.and_twoPow]
    by_cases hb : ((m.setWidth width).setWidth 32).getLsbD (number g groups) = true
    · rw [if_pos hb]
      refine ⟨fun _ => hb, fun _ hzero => ?_⟩
      have hbad := congrArg (fun v => v.getLsbD (number g groups)) hzero
      rw [BitVec.twoPow_eq] at hbad
      simp only [getLsbD_one_shiftLeft (show number g groups < 32 from by omega)] at hbad
      simp at hbad
    · rw [if_neg hb]
      exact ⟨fun hne => absurd rfl hne, fun hb' => absurd hb' hb⟩

end

/-! ### The enumerators -/

section

variable (groups : List Group)

theorem outGroups_names (more : Bool) (gns : List GroupName) :
    (outGroups groups more gns).map Enumerator.name = gns := by
  induction gns with
  | nil => rfl
  | cons gn gns ih => rw [outGroups, List.map_cons, ih]

theorem outGroups_isEmpty (more : Bool) (gns : List GroupName) :
    (outGroups groups more gns).isEmpty = gns.isEmpty := by
  cases gns <;> rfl

/-- The groups of a zone and of those beside it. -/
@[grind =] def Zones.beside : Zones → List GroupName
  | nil => []
  | zone gns _ opt => gns ++ opt.beside

/-- How many zones there are beside each other. -/
def Zones.breadth : Zones → Nat
  | nil => 0
  | zone _ _ opt => opt.breadth + 1

/-- No groups are declared in the zones that are in a zone or in those beside it. -/
def Zones.Flat : Zones → Prop
  | nil => True
  | zone _ next opt => next.declared = [] ∧ opt.Flat

/-- Zones that are beside others have no groups in the zones in them. -/
def Zones.Once : Zones → Prop
  | nil => True
  | zone _ next nil => next.Once
  | zone gns next opt => (zone gns next opt).Flat

/-- The names that are written. -/
def written (z : Zones) : List GroupName := (outMacrosZone groups z).map Enumerator.name

/-- What is written for `z->next` comes again behind each zone. -/
theorem outBeside_names (below : List Enumerator) (z : Zones) :
    ((outBeside groups below z).map Enumerator.name).Perm
      (z.beside ++ (List.replicate z.breadth (below.map Enumerator.name)).flatten) := by
  induction z with
  | nil => exact .refl _
  | zone gns next opt _ ih =>
      rw [outBeside, List.map_append, List.map_append, outGroups_names, Zones.beside, Zones.breadth,
        List.replicate_succ, List.flatten_cons, List.append_assoc]
      refine List.Perm.append_left gns ?_
      refine (List.Perm.append_left _ ih).trans ?_
      rw [← List.append_assoc, ← List.append_assoc]
      exact List.Perm.append_right _ List.perm_append_comm

theorem written_zone (gns : List GroupName) (next opt : Zones) :
    (written groups (.zone gns next opt)).Perm (gns ++ (written groups next ++ (opt.beside ++
      (List.replicate opt.breadth (written groups next)).flatten))) := by
  rw [written, outMacrosZone, List.map_append, List.map_append, outGroups_names]
  exact List.Perm.append_left _ (List.Perm.append_left _ (outBeside_names groups _ opt))

theorem isEmpty_append {α : Type} (l l' : List α) :
    (l ++ l').isEmpty = (l.isEmpty && l'.isEmpty) := by
  cases l <;> rfl

theorem moreBeside_eq (below : List Enumerator) (z : Zones) :
    moreBeside (!below.isEmpty) z = !(outBeside groups below z).isEmpty := by
  induction z with
  | nil => rfl
  | zone gns next opt _ ih =>
      rw [moreBeside, ih, outBeside, isEmpty_append, isEmpty_append, outGroups_isEmpty,
        Bool.not_and, Bool.not_and, Bool.or_assoc]

/-- There are more groups just when something is written. -/
theorem moreGroups_eq (z : Zones) : moreGroups z = !(outMacrosZone groups z).isEmpty := by
  induction z with
  | nil => rfl
  | zone gns next opt ihnext _ =>
      rw [moreGroups, ihnext, moreBeside_eq, outMacrosZone, isEmpty_append,
        isEmpty_append, outGroups_isEmpty, Bool.not_and, Bool.not_and, Bool.or_assoc]

theorem length_beside_le (z : Zones) : z.beside.length ≤ z.declared.length := by
  induction z with
  | nil => exact Nat.le_refl _
  | zone gns next opt _ ih =>
      simp only [Zones.beside, Zones.declared, List.length_append]
      omega

theorem outMacrosZone_of_declared (h : z.declared = []) : outMacrosZone groups z = [] := by
  induction z with
  | nil => rfl
  | zone gns next opt ihnext _ =>
      rw [Zones.declared, List.append_eq_nil_iff, List.append_eq_nil_iff] at h
      obtain ⟨rfl, hnext, hopt⟩ := h
      have hbeside : opt.beside = [] :=
        List.eq_nil_of_length_eq_zero (by simpa [hopt] using length_beside_le opt)
      have hperm := written_zone groups [] next opt
      rw [written, written, ihnext hnext, hbeside] at hperm
      simpa using hperm

theorem outMacrosZone_of_flat (h : z.Flat) : outMacrosZone groups z = outBeside groups [] z := by
  cases z with
  | nil => rfl
  | zone gns next opt => rw [outMacrosZone, outMacrosZone_of_declared groups h.1, outBeside]

theorem flat_iff (z : Zones) : z.Flat ↔ z.declared.length = z.beside.length := by
  induction z with
  | nil => exact ⟨fun _ => rfl, fun _ => trivial⟩
  | zone gns next opt _ ih =>
      have hle := length_beside_le opt
      rw [Zones.Flat, ih, ← List.length_eq_zero_iff]
      simp only [Zones.beside, Zones.declared, List.length_append]
      omega

theorem declared_of_flat (h : z.Flat) : z.declared = z.beside := by
  induction z with
  | nil => rfl
  | zone gns next opt _ ih =>
      rw [Zones.declared, Zones.beside, h.1, List.nil_append, ih h.2]

/-- Each group is written once if and only if no zones in zones beside each other have groups. -/
theorem written_perm_iff (h : z.declared.Nodup) : (written groups z).Perm z.declared ↔ z.Once := by
  induction z with
  | nil => exact ⟨fun _ => trivial, fun _ => .refl _⟩
  | zone gns next opt ihnext _ =>
      have hperm := written_zone groups gns next opt
      cases opt with
      | nil =>
          have hnext : next.declared.Nodup := by
            rw [Zones.declared] at h
            exact (List.nodup_append.1 (List.nodup_append.1 h).2.1).1
          rw [Zones.declared, Zones.Once, ← ihnext hnext]
          simp only [Zones.beside, Zones.breadth, Zones.declared, List.replicate_zero,
            List.flatten_nil, List.append_nil] at hperm ⊢
          exact ⟨fun hw => (List.perm_append_left_iff gns).1 (hperm.symm.trans hw),
            fun hw => hperm.trans (hw.append_left gns)⟩
      | zone gns' next' opt' =>
          generalize hopt : Zones.zone gns' next' opt' = opt at h hperm ⊢
          have hbreadth : opt.breadth = opt'.breadth + 1 := hopt ▸ rfl
          have honce : (Zones.zone gns next opt).Once ↔ (Zones.zone gns next opt).Flat := by
            subst hopt
            exact Iff.rfl
          rw [honce]
          refine ⟨fun hw => ?_, fun hflat => ?_⟩
          · have hboth := hperm.symm.trans hw
            have hnodup := hboth.nodup_iff.2 h
            rw [hbreadth, List.replicate_succ, List.flatten_cons] at hnodup hboth
            have hnil : written groups next = [] := by
              refine List.eq_nil_iff_forall_not_mem.2 fun gn hgn => ?_
              have hapart := (List.nodup_append.1 (List.nodup_append.1 hnodup).2.1).2.2
              exact hapart gn hgn gn (List.mem_append_right _ (List.mem_append_left _ hgn)) rfl
            have hlen := hboth.length_eq
            rw [hnil] at hlen
            rw [flat_iff, ← hlen]
            simp [Zones.beside]
          · have hnil : written groups next = [] := by
              rw [written, outMacrosZone_of_declared groups hflat.1, List.map_nil]
            rw [declared_of_flat hflat]
            rw [hnil] at hperm
            simpa [Zones.beside] using hperm

/-- There is a comma behind each line but the last. -/
def Separated : List Enumerator → Prop
  | [] => True
  | e :: es => e.comma = !es.isEmpty ∧ Separated es

theorem separated_outGroups {more : Bool} {es : List Enumerator} (hmore : more = !es.isEmpty)
    (hes : Separated es) (gns : List GroupName) :
    Separated (outGroups groups more gns ++ es) := by
  induction gns with
  | nil => exact hes
  | cons gn gns ih =>
      refine ⟨?_, ih⟩
      change (!gns.isEmpty || more) = !(outGroups groups more gns ++ es).isEmpty
      rw [isEmpty_append, outGroups_isEmpty, hmore, Bool.not_and]

theorem separated_of_flat (h : z.Flat) : Separated (outBeside groups [] z) := by
  induction z with
  | nil => trivial
  | zone gns next opt _ ih =>
      refine separated_outGroups groups ?_ (ih h.2) gns
      rw [moreGroups_eq groups next, outMacrosZone_of_declared groups h.1, moreGroups_eq groups opt,
        outMacrosZone_of_flat groups h.2]
      exact Bool.or_false _

/-- Where each group is written once, the commas are between them. -/
theorem separated_of_once (h : z.Once) : Separated (outMacrosZone groups z) := by
  induction z with
  | nil => trivial
  | zone gns next opt ihnext _ =>
      cases opt with
      | nil =>
          rw [outMacrosZone]
          refine separated_outGroups groups ?_ ?_ gns
          · rw [moreGroups_eq groups next]
            simp [moreGroups, outBeside]
          · rw [outBeside, List.append_nil]
            exact ihnext h
      | zone gns' next' opt' =>
          rw [outMacrosZone_of_flat groups h]
          exact separated_of_flat groups h

end

theorem value_of_mem_outGroups {more : Bool} {gns : List GroupName}
    (h : e ∈ outGroups groups more gns) : e.value = enumerator groups e.name.g := by
  induction gns with
  | nil => cases h
  | cons gn gns ih =>
      obtain rfl | h := List.mem_cons.1 h
      · rfl
      · exact ih h

theorem value_of_mem_outBeside {below : List Enumerator}
    (hbelow : ∀ e ∈ below, e.value = enumerator groups e.name.g)
    (h : e ∈ outBeside groups below z) :
    e.value = enumerator groups e.name.g := by
  induction z with
  | nil => cases h
  | zone gns next opt _ ih =>
      rw [outBeside, List.mem_append, List.mem_append] at h
      obtain h | h | h := h
      · exact value_of_mem_outGroups h
      · exact hbelow e h
      · exact ih h

/-- Each line has the value for its group. -/
theorem value_of_mem (h : e ∈ outMacrosZone groups z) : e.value = enumerator groups e.name.g := by
  induction z generalizing e with
  | nil => cases h
  | zone gns next opt ihnext _ =>
      rw [outMacrosZone, List.mem_append, List.mem_append] at h
      obtain h | h | h := h
      · exact value_of_mem_outGroups h
      · exact ihnext h
      · exact value_of_mem_outBeside (fun _ he => ihnext he) h

/-! ### Definitions -/

theorem isGroupEqual_iff (a b : Group) : isGroupEqual a b = true ↔ a = b := by
  rw [isGroupEqual, List.all_eq_true]
  refine ⟨fun h => ?_, fun h p hp => ?_⟩
  · have hlen : a.toList.length = b.toList.length := by rw [a.toList_length, b.toList_length]
    have hlists : a.toList = b.toList := by
      refine List.ext_getElem hlen fun i hi hi' => ?_
      have hmem := h _ (List.getElem_mem (show i < (a.toList.zip b.toList).length by
        rw [List.length_zip]
        omega))
      rw [List.getElem_zip] at hmem
      exact of_decide_eq_true hmem
    exact Subtype.ext hlists
  · obtain ⟨i, hi, rfl⟩ := List.getElem_of_mem hp
    subst h
    rw [List.getElem_zip]
    exact decide_eq_true rfl

theorem makeGroup_spec {own : List GroupName} {visible : Groups} {groups' : List Group}
    {name defn : List Int} {g : Group}
    (h : makeGroup own visible groups name defn = some (g, groups')) :
    (∀ gn ∈ own, gn.name ≠ name) ∧ (groups.Nodup → groups'.Nodup) ∧
      ∀ p, p ∈ groups' ↔ p = g ∨ p ∈ groups := by
  rw [makeGroup] at h
  split at h
  · cases h
  · rename_i hnames
    refine ⟨by simpa using hnames, ?_⟩
    obtain ⟨new, -, h⟩ := Option.map_eq_some_iff.1 h
    rw [treeFindGroup] at h
    cases hfind : groups.find? fun p => isGroupEqual p new with
    | some old =>
        rw [hfind] at h
        cases h
        have hmem := List.mem_of_find?_eq_some hfind
        exact ⟨id, fun p => ⟨.inr, fun hp => hp.elim (fun heq => heq ▸ hmem) id⟩⟩
    | none =>
        rw [hfind] at h
        cases h
        refine ⟨fun hnodup => List.nodup_cons.2 ⟨fun hmem => ?_, hnodup⟩, fun _ => List.mem_cons⟩
        exact List.find?_eq_none.1 hfind g hmem ((isGroupEqual_iff g g).2 rfl)

/-- What calls of `make_group` leave, whatever names are seen in the definitions: the names, each
with its zone, and all groups. -/
inductive Makes {Z : Type} [DecidableEq Z] : List (Z × GroupName) → List Group → Prop
  | start : Makes [] []
  | make {gns : List (Z × GroupName)} {groups groups' : List Group} (h : Makes gns groups) {z : Z}
      {visible : Groups} {defn : List Int} {gn : GroupName}
      (hmake : makeGroup ((gns.filter fun p => p.1 = z).map Prod.snd) visible groups gn.name defn =
        some (gn.g, groups')) : Makes ((z, gn) :: gns) groups'

/-- Every declared group has its enumerator, with commas between them, and the generated test of a
character for it is right. -/
structure Ast.Faithful (ast : Ast) : Prop where
  once : ((outMacrosZone ast.groups ast.global).map Enumerator.name).Perm ast.global.declared
  separated : Separated (outMacrosZone ast.groups ast.global)
  value : ∀ e ∈ outMacrosZone ast.groups ast.global, e.value = enumerator ast.groups e.name.g
  test : ∀ gn ∈ ast.global.declared, ∀ c ≤ 255, ∃ tab e, lookupTab ast.groups c = some tab ∧
    enumerator ast.groups gn.g = some e ∧ (tab &&& e ≠ 0 ↔ inGroup gn.g c = true)

/-- The interface is faithful if and only if no zones in zones beside each other have groups. -/
theorem faithful_iff_once (ast : Ast) (h31 : countNonemptyGroups ast.groups ≤ 31) :
    ast.Faithful ↔ ast.global.Once :=
  ⟨fun h => (written_perm_iff ast.groups ast.once).1 h.once, fun h =>
    ⟨(written_perm_iff ast.groups ast.once).2 h, separated_of_once ast.groups h,
      fun _ => value_of_mem, fun gn hgn c _ =>
        lookupTab_and_enumerator h31 (ast.known gn hgn) c⟩⟩

/-- The group `[^]` of all characters. -/
def everyChar : List.Vector Bool 256 := .replicate 256 true

/-- A group of the global zone. -/
theorem faithful_iff_once_global :
    (⟨.zone [⟨0, none, [0x61], everyChar⟩] .nil .nil,
      [everyChar], by simp, by simp [Zones.declared],
      by simp [Zones.declared]⟩ : Ast).Faithful :=
  (faithful_iff_once _ (Nat.le_trans List.countP_le_length (by simp))).2 trivial

/-- A group of a zone in a zone that has another one beside it is written twice. -/
theorem not_faithful_iff_once :
    ¬ (⟨.zone [] (.zone [] (.zone [⟨0, some [0x63], [0x61], everyChar⟩]
        .nil .nil) (.zone [] .nil .nil)) .nil,
      [everyChar], by simp, by simp [Zones.declared],
      by simp [Zones.declared]⟩ : Ast).Faithful := fun h => by
  have hlen := h.once.length_eq
  simp [outMacrosZone, outBeside, outGroups, Zones.declared] at hlen

end Tendra.Ref.Lexi
