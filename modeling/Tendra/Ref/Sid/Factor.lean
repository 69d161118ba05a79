import Tendra.Ref.Sid.Firsts

/-!
# Factorisation: `sid/src/rules/rule-factor.c`

The alternatives of a rule are grouped by their initial items. As long as two groups
clash, one that starts with a rule is taken out, that rule is expanded in all its
alternatives, and the new alternatives are grouped with the rest. When there is no
clash left, what the alternatives of a group have in common is taken out of them, and
what remains becomes a new rule.

The groups of a rule are segments of its list of alternatives. Here they are lists of
their own, and after each step the list of the rule is put together from them. Rules
with non-local names are left out, as the names are.
-/

namespace Tendra.Ref.Sid

variable {T : Nat}

/-- The errors that end a run, and a call too many. The last one is an assertion. -/
inductive FactorError
  | outOfCalls
  | emptyAlt (rule : Nat)
  | tooMany
  | first (e : FirstError)
  | notRule (rule : Nat)
deriving DecidableEq, Repr

/-- The table, with the fields of `RuleT` that the factorisation reads and writes, the
number of rules that it has created, and the rules whose handlers did not match. -/
structure Factoring (T : Nat) where
  g : Grammar T
  firsts : Firsts T
  factored : Nat → Bool
  factorisedRules : Nat
  errors : List (Nat × Nat)

def Grammar.setAlts (g : Grammar T) (r : Nat) (alts : List (Alt T)) : Grammar T :=
  g.setRule r { g.rule r with alts }

def Factoring.setAlts (st : Factoring T) (r : Nat) (alts : List (Alt T)) : Factoring T :=
  { st with g := st.g.setAlts r alts }

/-- `rule_factored`. -/
def Factoring.mark (st : Factoring T) (r : Nat) : Factoring T :=
  { st with factored := Function.update st.factored r true }

/-! ## Groups -/

/-- What comes first in some alternatives, and their priority. -/
structure Overlap (T : Nat) where
  firstSet : Finset (Fin T)
  predicateFirst : List Nat
  priority : Nat

/-- The loop of `rule_overlaps`. -/
def overlapItems (first : Nat → First T) : Bool → Alt T → Overlap T → Overlap T
  | _, [], o => o
  | noAction, item :: next, o =>
      match item.entry with
      | .predicate a => { o with predicateFirst := addIfMissing o.predicateFirst a }
      | .rename _ => overlapItems first false next o
      | .action _ => overlapItems first false next o
      | .rule m =>
          let f := first m
          let o : Overlap T :=
            { firstSet := o.firstSet ∪ f.firstSet
              predicateFirst := appendEntries o.predicateFirst f.predicateFirst
              priority := if f.priority > o.priority ∧ noAction = true then f.priority
                else o.priority }
          if f.seeThrough then overlapItems first noAction next o else o
      | .basic t => { o with firstSet := insert t o.firstSet }

/-- `rule_overlaps`. -/
def overlaps (first : Nat → First T) (alt : Alt T) (firstSet : Finset (Fin T))
    (predicateFirst : List Nat) : Overlap T :=
  let o := overlapItems first true alt ⟨firstSet, predicateFirst, 0⟩
  { o with priority := o.priority + 1 }

/-- `AltGroupT`. -/
structure AltGroup (T : Nat) where
  alts : List (Alt T)
  overlap : Overlap T

/-- The entry of the first item. -/
def initial (alt : Alt T) : Option (Entry T) := alt.head?.map Item.entry

def AltGroup.initial (group : AltGroup T) : Option (Entry T) := Sid.initial (group.alts.headD [])

/-- `group_create`. -/
def groupCreate (first : Nat → First T) (alt : Alt T) : AltGroup T :=
  ⟨[alt], overlaps first alt ∅ []⟩

/-- An alternative is put in front of a group. -/
def AltGroup.add (first : Nat → First T) (group : AltGroup T) (alt : Alt T) : AltGroup T :=
  let o := overlaps first alt group.overlap.firstSet group.overlap.predicateFirst
  ⟨alt :: group.alts, { o with
    priority := if o.priority > group.overlap.priority then o.priority
      else group.overlap.priority }⟩

/-- An alternative is put into its group, or into a new one. -/
def groupAlt (first : Nat → First T) (alt : Alt T) : List (AltGroup T) → List (AltGroup T)
  | [] => [groupCreate first alt]
  | group :: groups =>
      if group.initial = initial alt then group.add first alt :: groups
      else group :: groupAlt first alt groups

/-- `rule_group_by_initial_item`, for the alternatives that are not in a group yet. -/
def groupByInitialItem (first : Nat → First T) (r : Nat) :
    List (AltGroup T) → List (Alt T) → Except FactorError (List (AltGroup T))
  | groups, [] => .ok groups
  | groups, alt :: alts =>
      if alt = [] then .error (.emptyAlt r)
      else groupByInitialItem first r (groupAlt first alt groups) alts

def groupAlts (groups : List (AltGroup T)) : List (Alt T) := groups.flatMap AltGroup.alts

/-! ## Clashes -/

/-- Something that comes after the rule `m` in an alternative can also come first in it. -/
def restClashes (first : Nat → First T) (m : Nat) (group : AltGroup T) : Bool :=
  group.alts.any fun alt =>
    let o := overlaps first alt.tail ∅ []
    decide ((first m).firstSet ∩ o.firstSet ≠ ∅) || decide (o.predicateFirst ≠ [])

/-- The first group that has a terminal in common with the `i`th: of the two that with the
higher priority is expanded. -/
def otherClash (groups : List (AltGroup T)) (i : Nat) (group : AltGroup T) : Option Nat :=
  groups.zipIdx.findSome? fun other =>
    if other.2 ≠ i ∧ other.1.overlap.firstSet ∩ group.overlap.firstSet ≠ ∅ then
      some (if group.overlap.priority > other.1.overlap.priority then i else other.2)
    else none

def groupClash (first : Nat → First T) (groups : List (AltGroup T)) (i : Nat)
    (group : AltGroup T) : Option Nat :=
  match group.initial with
  | some (.rule m) =>
      if (first m).predicateFirst ≠ [] then some i
      else if (first m).seeThrough = true ∧ restClashes first m group = true then some i
      else otherClash groups i group
  | _ => none

/-- The decision of `rule_expand_item_clashes`: the number of the group to expand. -/
def findClash (first : Nat → First T) (groups : List (AltGroup T)) : Option Nat :=
  groups.zipIdx.findSome? fun group => groupClash first groups group.2 group.1

/-- The rule that a group starts with. -/
def AltGroup.rule (group : AltGroup T) : Option Nat :=
  match group.initial with
  | some (.rule m) => some m
  | _ => none

/-- The alternatives of `rule_expand`: the first item of each is replaced by the empty
alternative of the rule, if it has one, and by each of its alternatives. -/
def expandAlts (rule : Rule T) (alts : List (Alt T)) : List (Alt T) :=
  alts.flatMap fun alt =>
    (if rule.hasEmptyAlt then [alt.tail] else []) ++ rule.alts.map (· ++ alt.tail)

/-- A rule with a handler may only be expanded into one with the same handler. -/
def Factoring.checkHandler (st : Factoring T) (m r : Nat) : Factoring T :=
  if (st.g.rule m).handler ≠ none ∧ (st.g.rule m).handler ≠ (st.g.rule r).handler then
    { st with errors := (m, r) :: st.errors }
  else st

/-! ## Common items -/

/-- `rule_factor_4` for as long as it finds equal items: what the alternatives begin with,
and what is left of the first one and of the others. -/
def stripCommon : Alt T → List (Alt T) → Alt T × Alt T × List (Alt T)
  | [], alts => ([], [], alts)
  | item :: old, alts =>
      if alts.all fun alt => decide (initial alt = some item.entry) then
        let res := stripCommon old (alts.map List.tail)
        (item :: res.1, res.2.1, res.2.2)
      else ([], item :: old, alts)

/-- `rule_create_factored`. The new rule has the alternatives that are not empty. -/
def createFactored (limit : Nat) (alts : List (Alt T)) (st : Factoring T) :
    Except FactorError (Item T × Factoring T) :=
  if st.factorisedRules = limit then .error .tooMany
  else
    let n := st.g.size
    let g := alts.foldl (fun g alt => if alt = [] then g.addEmptyAlt n else g.addAlt n alt)
      st.g.addGeneratedRule
    match computeFirstSet g (g.size + 1) n (st.firsts.modify n fun _ => First.blank) with
    | .error e => .error (.first e)
    | .ok firsts => .ok (itemCreate (.rule n),
        { st with
          g, firsts
          factored := Function.update st.factored n false
          factorisedRules := st.factorisedRules + 1 })

/-- `rule_factor_3` for a group, and what `rule_factor_2` does before it: a single
alternative stays, and several become one. -/
def factorGroup (limit : Nat) (alts : List (Alt T)) (st : Factoring T) :
    Except FactorError (Alt T × Factoring T) :=
  match alts with
  | [] => .ok ([], st)
  | [alt] => .ok (alt, st)
  | old :: others =>
      let res := stripCommon old others
      if (res.2.1 :: res.2.2).all List.isEmpty then .ok (res.1, st)
      else do
        let created ← createFactored limit (res.2.1 :: res.2.2) st
        .ok (res.1 ++ [created.1], created.2)

/-- `rule_factor_2`; `done` are the alternatives of the groups that it has dealt with. -/
def factorGroups (limit r : Nat) : List (Alt T) → List (AltGroup T) → Factoring T →
    Except FactorError (Factoring T)
  | _, [], st => .ok st
  | done, group :: groups, st => do
      let res ← factorGroup limit group.alts st
      let done := done ++ [res.1]
      factorGroups limit r done groups (res.2.setAlts r (done ++ groupAlts groups))

/-! ## Rules -/

/-- The entry of `rule_factor_1`; `run` is what comes after it, for the groups so far and the
alternatives that are in no group. -/
def factorEnter (run : Nat → List (AltGroup T) → List (Alt T) → Factoring T →
    Except FactorError (Factoring T)) (r : Nat) (st : Factoring T) :
    Except FactorError (Factoring T) :=
  if st.factored r then .ok st else run r [] (st.g.rule r).alts (st.mark r)

/-- The loop of `rule_factor_1`. -/
def factorRun (limit : Nat) : Nat → Nat → List (AltGroup T) → List (Alt T) → Factoring T →
    Except FactorError (Factoring T)
  | 0, _, _, _, _ => .error .outOfCalls
  | fuel + 1, r, groups, alts, st => do
      let groups ← groupByInitialItem st.firsts.first r groups alts
      let st := st.setAlts r (groupAlts groups)
      match findClash st.firsts.first groups with
      | none => factorGroups limit r [] groups st
      | some i =>
          match groups[i]? with
          | none => .error (.notRule r)
          | some group =>
              match group.rule with
              | none => .error (.notRule r)
              | some m => do
                  let st ← factorEnter (factorRun limit fuel) m st
                  let st := st.checkHandler m r
                  let groups := groups.eraseIdx i
                  let st := st.setAlts r (groupAlts groups)
                  let alts := expandAlts (st.g.rule m) group.alts
                  factorRun limit fuel r groups alts (st.setAlts r (groupAlts groups ++ alts))

/-- `rule_factor_1`. -/
def factorRule (limit fuel r : Nat) (st : Factoring T) : Except FactorError (Factoring T) :=
  factorEnter (factorRun limit fuel) r st

/-- No rule has been factored yet. -/
def Factoring.start (g : Grammar T) (firsts : Firsts T) : Factoring T :=
  ⟨g, firsts, fun _ => false, 0, []⟩

end Tendra.Ref.Sid
