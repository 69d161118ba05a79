import Tendra.Ref.Sid.Firsts

/-!
# The collision check: `sid/src/rules/rule-check.c`

Four passes over the rules. The first sets of the alternatives of a rule have to be
disjoint. The follow sets are computed, and for a rule that can be seen through its
follow set has to be disjoint from its first set. Then the alternative that can be
seen through is found, and each alternative is given a first set of its own.

All errors are serious ones, so that the passes go on after them. The list of the
places of a clash is only printed, and is left out.
-/

namespace Tendra.Ref.Sid

variable {T : Nat}

/-- The errors of the passes, each with its rule. -/
inductive CheckError (T : Nat)
  | predicate (a rule : Nat)
  | terminals (ts : Finset (Fin T)) (rule : Nat)
  | predicates (as : List Nat) (rule : Nat)
  | seeThrough (rule : Nat)
  | followTerminals (ts : Finset (Fin T)) (rule : Nat)
  | followPredicates (as : List Nat) (rule : Nat)

/-- The fields of `RuleT` that the follow sets are kept in. -/
structure Follow (T : Nat) where
  started : Bool
  followSet : Finset (Fin T)
  predicateFollow : List Nat

/-- The sets of the rules, and the errors that have been reported. -/
structure Checks (T : Nat) where
  first : Nat → First T
  follow : Nat → Follow T
  errors : List (CheckError T)

def Follow.blank : Follow T := ⟨false, ∅, []⟩

/-- The first sets are there, and nothing else. -/
def Checks.start (first : Nat → First T) : Checks T := ⟨first, fun _ => Follow.blank, []⟩

def Checks.setFollow (st : Checks T) (r : Nat) (f : Follow T) : Checks T :=
  { st with follow := Function.update st.follow r f }

@[simp] theorem Checks.setFollow_self (st : Checks T) (r : Nat) (f : Follow T) :
    (st.setFollow r f).follow r = f := Function.update_self _ _ _

theorem Checks.setFollow_of_ne (st : Checks T) {r v : Nat} (h : v ≠ r) (f : Follow T) :
    (st.setFollow r f).follow v = st.follow v := Function.update_of_ne h _ _

@[simp] theorem Checks.setFollow_first (st : Checks T) (r : Nat) (f : Follow T) :
    (st.setFollow r f).first = st.first := rfl

/-- `entry_list_intersection`. -/
def intersectEntries (l m : List Nat) : List Nat := appendEntries [] (l.filter (· ∈ m))

/-! ## First sets -/

/-- What has come first so far: `test` and `predicate_list`. -/
structure Test (T : Nat) where
  test : Finset (Fin T)
  predicates : List Nat
  errors : List (CheckError T)

/-- A terminal comes first. -/
def Test.basic (r : Nat) (s : Test T) (t : Fin T) : Test T :=
  if t ∈ s.test then { s with errors := .terminals ({t} ∩ s.test) r :: s.errors }
  else { s with test := insert t s.test }

def Test.predicate (r : Nat) (s : Test T) (a : Nat) : Test T :=
  if a ∈ s.predicates then { s with errors := .predicate a r :: s.errors }
  else { s with predicates := s.predicates ++ [a] }

/-- What a rule starts with comes first. -/
def Test.rule (r : Nat) (s : Test T) (f : First T) : Test T :=
  let common := intersectEntries s.predicates f.predicateFirst
  let errors := if common ≠ [] then .predicates common r :: s.errors else s.errors
  let predicates := appendEntries s.predicates f.predicateFirst
  if s.test ∩ f.firstSet = ∅ then ⟨s.test ∪ f.firstSet, predicates, errors⟩
  else ⟨s.test, predicates, .terminals (f.firstSet ∩ s.test) r :: errors⟩

/-- The loop over the items of an alternative of `r`, and whether it can be seen
through. -/
def checkItems (first : Nat → First T) (r : Nat) : Alt T → Test T → Test T × Bool
  | [], s => (s, true)
  | item :: next, s =>
      match item.entry with
      | .predicate a => (s.predicate r a, false)
      | .action _ => checkItems first r next s
      | .rename _ => checkItems first r next s
      | .basic t => (s.basic r t, false)
      | .rule m =>
          if (first m).seeThrough then checkItems first r next (s.rule r (first m))
          else (s.rule r (first m), false)

/-- The loop over the alternatives, with `is_empty` and `is_empty_mesg_shown`. -/
def checkAlts (first : Nat → First T) (r : Nat) : Bool → Bool → List (Alt T) → Test T → Test T
  | _, _, [], s => s
  | isEmpty, shown, alt :: alts, s =>
      let res := checkItems first r alt s
      if res.2 = false then checkAlts first r isEmpty shown alts res.1
      else if isEmpty = false then checkAlts first r true shown alts res.1
      else if shown then checkAlts first r true true alts res.1
      else checkAlts first r true true alts { res.1 with errors := .seeThrough r :: res.1.errors }

/-- `rule_check_first_set_1`. -/
def checkFirstSet (g : Grammar T) (st : Checks T) (r : Nat) : Checks T :=
  { st with
    errors := (checkAlts st.first r (g.rule r).hasEmptyAlt false (g.rule r).alts
      ⟨∅, [], st.errors⟩).errors }

/-! ## Follow sets -/

/-- What follows an item: `context` and `pred_context`. -/
structure Context (T : Nat) where
  set : Finset (Fin T)
  predicates : List Nat

/-- `rule_compute_follow_set_3`: from the last item to the first. -/
def followItems (rec : Nat → Context T → Checks T → Option (Checks T)) :
    Alt T → Context T → Checks T → Option (Context T × Checks T)
  | [], ctx, st => some (ctx, st)
  | item :: next, ctx, st => do
      let res ← followItems rec next ctx st
      match item.entry with
      | .predicate a => some (⟨res.1.set, [a]⟩, res.2)
      | .action _ => some res
      | .rename _ => some res
      | .rule m => do
          let st ← rec m res.1 res.2
          let f := st.first m
          if f.seeThrough then
            some (⟨res.1.set ∪ f.firstSet, appendEntries res.1.predicates f.predicateFirst⟩, st)
          else some (⟨f.firstSet, appendEntries [] f.predicateFirst⟩, st)
      | .basic t => some (⟨{t}, res.1.predicates⟩, res.2)

/-- `rule_compute_follow_set_2`, for some alternatives of `r` in turn. Each starts from
the follow set that the rule then has. -/
def followAlts (rec : Nat → Context T → Checks T → Option (Checks T)) (r : Nat) :
    List (Alt T) → Checks T → Option (Checks T)
  | [], st => some st
  | alt :: alts, st => do
      let f := st.follow r
      let res ← followItems rec alt ⟨f.followSet, f.predicateFollow⟩ st
      followAlts rec r alts res.2

/-- The follow set of `r` gets a context. -/
def Follow.grow (f : Follow T) (ctx : Context T) : Follow T :=
  ⟨true, if f.started then f.followSet ∪ ctx.set else ctx.set,
    appendEntries f.predicateFollow ctx.predicates⟩

/-- The clashes of a rule that can be seen through. What clashes is taken out of the
first set. -/
def followClash (r : Nat) (st : Checks T) : Checks T :=
  if (st.first r).seeThrough then
    let ts := (st.follow r).followSet ∩ (st.first r).firstSet
    let st := if ts ≠ ∅ then
        { st with
          first := Function.update st.first r
            { st.first r with firstSet := (st.first r).firstSet \ ts }
          errors := .followTerminals ts r :: st.errors }
      else st
    let as := intersectEntries (st.follow r).predicateFollow (st.first r).predicateFirst
    if as ≠ [] then
      { st with
        first := Function.update st.first r
          { st.first r with predicateFirst := (st.first r).predicateFirst.filter (· ∉ as) }
        errors := .followPredicates as r :: st.errors }
    else st
  else st

/-- The handler and the alternatives of a rule, in the order in which they are gone
through. -/
def Rule.bodies (rule : Rule T) : List (Alt T) := rule.handler.toList ++ rule.alts

/-- `rule_compute_follow_set_1`. A rule is gone through again whenever its follow set
has grown. -/
def computeFollowSet (g : Grammar T) : Nat → Nat → Context T → Checks T → Option (Checks T)
  | 0, _, _, _ => none
  | fuel + 1, r, ctx, st =>
      if (st.follow r).started = true ∧
      (st.follow r).followSet = (st.follow r).followSet ∪ ctx.set ∧
          ∀ a ∈ ctx.predicates, a ∈ (st.follow r).predicateFollow then some st
      else
        let st := st.setFollow r ((st.follow r).grow ctx)
        followAlts (computeFollowSet g fuel) r (g.rule r).bodies (followClash r st)

/-- `rule_compute_follow_set` for all the rules of the table: nothing is around them. -/
def computeFollowSets (g : Grammar T) (fuel : Nat) (roots : List Nat) (st : Checks T) :
    Option (Checks T) :=
  roots.foldlM (fun st r => computeFollowSet g fuel r ⟨∅, []⟩ st) st

/-! ## Alternatives -/

/-- The test of `rule_compute_see_through_alt_1`. -/
def seesThrough (first : Nat → First T) (alt : Alt T) : Bool :=
  alt.all fun item =>
    match item.entry with
    | .action _ => true
    | .rename _ => true
    | .rule m => (first m).seeThrough
    | _ => false

/-- `rule_compute_see_through_alt_1`: the number of the alternative. -/
def computeSeeThroughAlt (g : Grammar T) (st : Checks T) (r : Nat) : Option Nat :=
  if (g.rule r).hasEmptyAlt then none else (g.rule r).alts.findIdx? (seesThrough st.first)

/-- The loop over the items of an alternative. -/
@[grind =] def altFirsts (first : Nat → First T) : Alt T → Finset (Fin T) × Bool
  | [] => (∅, true)
  | item :: next =>
      match item.entry with
      | .predicate _ => (∅, false)
      | .action _ => altFirsts first next
      | .rename _ => altFirsts first next
      | .basic t => ({t}, false)
      | .rule m =>
          if (first m).seeThrough then
            ((first m).firstSet ∪ (altFirsts first next).1, (altFirsts first next).2)
          else ((first m).firstSet, false)

/-- The first set of an alternative of `r`. -/
def altFirstSet (st : Checks T) (r : Nat) (alt : Alt T) : Finset (Fin T) :=
  let res := altFirsts st.first alt
  if res.2 then res.1 ∪ (st.follow r).followSet else res.1

/-- `rule_compute_alt_first_sets_1`. -/
def computeAltFirstSets (g : Grammar T) (st : Checks T) (r : Nat) : List (Finset (Fin T)) :=
  (g.rule r).alts.map (altFirstSet st r)

/-- What the check leaves. -/
structure Collisions (T : Nat) where
  checks : Checks T
  seeThroughAlt : Nat → Option Nat
  altFirst : Nat → List (Finset (Fin T))

/-- `grammar_check_collisions`, with the rules in the order of the table. -/
def checkCollisions (g : Grammar T) (fuel : Nat) (roots : List Nat) (first : Nat → First T) :
    Option (Collisions T) := do
  let st := roots.foldl (checkFirstSet g) (Checks.start first)
  let st ← computeFollowSets g fuel roots st
  some ⟨st, computeSeeThroughAlt g st, computeAltFirstSets g st⟩

end Tendra.Ref.Sid
