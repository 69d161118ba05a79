import Tendra.Ref.Sid.Rule

/-!
# Left recursion elimination: `sid/src/rules/rule-lre.c`

The general case. The alternatives of the rules of a cycle are sorted into a matrix
of suffixes and a vector: the suffix of an alternative of the `i`-th rule that
starts with the `j`-th goes to the entry `size * j + i`, an alternative that starts
with nothing of the cycle goes to entry `i` of the vector. For each rule a row of
new rules is then built.
-/

namespace Tendra.Ref.Sid

variable {T : Nat}

/-- `MatrixEntryT` and `VectorEntryT` of all entries. -/
structure Split (T : Nat) where
  matrix : Nat → List (Alt T)
  emptyAlt : Nat → Bool
  vector : Nat → List (Alt T)

/-- `rule_left_cycle_matrix` and `rule_left_cycle_vector`. -/
def Split.start : Split T := ⟨fun _ => [], fun _ => false, fun _ => []⟩

/-- `rule_get_cycle_index`, as `rule_remove_left_cycle` sets it. -/
def cycleIndex (cycle : List Nat) (r : Nat) : Nat :=
  if r ∈ cycle then cycle.idxOf r + 1 else 0

def Split.addMatrix (s : Split T) (i : Nat) (alt : Alt T) : Split T :=
  { s with matrix := Function.update s.matrix i (alt :: s.matrix i) }

def Split.addVector (s : Split T) (i : Nat) (alt : Alt T) : Split T :=
  { s with vector := Function.update s.vector i (alt :: s.vector i) }

/-- `rule_left_cycle_general_case_1` on one alternative of the `i`-th rule. -/
def Split.alt (cycle : List Nat) (i : Nat) (s : Split T) (alt : Alt T) : Split T :=
  match alt with
  | ⟨.rule r, _, _⟩ :: rest =>
      if cycleIndex cycle r ≠ 0 then
        s.addMatrix (cycle.length * (cycleIndex cycle r - 1) + i) rest
      else s.addVector i alt
  | _ => s.addVector i alt

/-- `rule_left_cycle_general_case_1` on the `i`-th rule. -/
def Split.rule (cycle : List Nat) (g : Grammar T) (s : Split T) (i r : Nat) : Split T :=
  let s := if (g.rule r).hasEmptyAlt then { s with emptyAlt := Function.update s.emptyAlt i true }
    else s
  (g.rule r).alts.foldl (Split.alt cycle i) s

/-- The loop of `rule_left_cycle_general_case_1` on a rule and its place. -/
def generalCase1Turn (cycle : List Nat) (gs : Grammar T × Split T) (p : Nat × Nat) :
    Grammar T × Split T :=
  (gs.1.setRule p.1 (gs.1.rule p.1).reinit, gs.2.rule cycle gs.1 p.2 p.1)

/-- `rule_left_cycle_general_case_1`: the split, and the grammar with empty rules. -/
def generalCase1 (cycle : List Nat) (g : Grammar T) : Grammar T × Split T :=
  cycle.zipIdx.foldl (generalCase1Turn cycle) (g, Split.start)

/-- `rule_left_cycle_general_case_2`. -/
def generalCase2 (size : Nat) (s : Split T) : Bool :=
  (List.range size).any fun i => s.emptyAlt i || !(s.vector i).isEmpty

/-- One turn of the loop of `rule_left_cycle_general_case_3`. -/
def generalCase3Turn (s : Split T) (rule : Nat) (g : Grammar T) (j : Nat) : Grammar T :=
  let new := itemCreate (.rule g.size)
  let g := g.addGeneratedRule
  let g := if s.emptyAlt j then g.addAlt rule [new] else g
  (s.vector j).foldl (fun g alt => g.addAlt rule (alt ++ [new])) g

/-- `rule_left_cycle_general_case_3`: the alternatives of `rule`, and the new rules. -/
def generalCase3 (size : Nat) (s : Split T) (rule : Nat) (g : Grammar T) :
    Grammar T × List Nat :=
  ((List.range size).foldl (generalCase3Turn s rule) g, List.range' g.size size)

/-- The identity of `rule_left_cycle_general_case_4`: a rename of the parameters of the
new rules to their results, if they have any. -/
def addIdentity (identity : Option Nat) (rule : Nat) (g : Grammar T) : Grammar T :=
  match identity with
  | none => g.addEmptyAlt rule
  | some e => g.addAlt rule [itemCreate (.rename e)]

/-- The inner loop of `rule_left_cycle_general_case_4`. The matrix is indexed by `k`
alone. -/
def generalCase4Inner (s : Split T) (rule : Nat) (g : Grammar T) (inner k : Nat) : Grammar T :=
  (s.matrix k).foldl (fun g alt => g.addAlt rule (alt ++ [itemCreate (.rule inner)])) g

/-- One turn of the loop of `rule_left_cycle_general_case_4`. -/
def generalCase4Turn (identity : Option Nat) (s : Split T) (rules : List Nat) (i : Nat)
    (g : Grammar T) (rule j : Nat) : Grammar T :=
  let g := if i = j then addIdentity identity rule g else g
  rules.zipIdx.foldl (fun g p => generalCase4Inner s rule g p.1 p.2) g

/-- `rule_left_cycle_general_case_4`. -/
def generalCase4 (identity : Option Nat) (s : Split T) (rules : List Nat) (i : Nat)
    (g : Grammar T) : Grammar T :=
  rules.zipIdx.foldl (fun g p => generalCase4Turn identity s rules i g p.1 p.2) g

/-- The loop of `rule_left_cycle_general_case` on the `i`-th rule. -/
def generalCaseTurn (identity : Option Nat) (size : Nat) (s : Split T) (g : Grammar T)
    (rule i : Nat) : Grammar T :=
  let p := generalCase3 size s rule g
  generalCase4 identity s p.2 i p.1

/-- `rule_left_cycle_general_case`. An error is reported if no rule of the cycle has an
alternative that ends it. -/
def generalCase (identity : Option Nat) (cycle : List Nat) (g : Grammar T) : Option (Grammar T) :=
  let gs := generalCase1 cycle g
  if generalCase2 cycle.length gs.2 then
    some (cycle.zipIdx.foldl
      (fun g p => generalCaseTurn identity cycle.length gs.2 g p.1 p.2) gs.1)
  else none

/-!
## Left recursion elimination, the special cases: `sid/src/rules/rule-lre.c`

A rule that calls itself on the left and nothing else is rewritten in place where it has
one other alternative. `A = A B, $` becomes `A = B A, $`. `A = A C B, B` becomes `A = B X`
with a new rule `X = C A, $`.

The tests of the types and of the names in them are one flag, as the tuples are left out.
-/

/-- `item_entry`: an action is one entry of the table, whatever it is called as. -/
def Entry.tableEntry : Entry T → Entry T
  | .predicate a => .action a
  | e => e

/-- The first two loops of `rule_find_suffix`: `diff`. -/
def suffixDiff : Alt T → Alt T → Nat
  | _ :: recNext, _ :: nonRecNext => suffixDiff recNext nonRecNext
  | recItems, _ => recItems.length

/-- The last loop of `rule_find_suffix`. The lists are of the same length. -/
def sameEntries : Alt T → Alt T → Bool
  | recItem :: recNext, nonRecItem :: nonRecNext =>
      if recItem.entry.tableEntry ≠ nonRecItem.entry.tableEntry then false
      else sameEntries recNext nonRecNext
  | _, _ => true

/-- `rule_find_suffix`: the number of the items before the suffix. -/
def findSuffix (recItems nonRecItems : Alt T) : Option Nat :=
  let diff := suffixDiff recItems nonRecItems
  if diff = 0 then none
  else if sameEntries (recItems.drop diff) nonRecItems then some diff
  else none

/-- `rule_left_cycle_special_case_2`. The left call of `recAlt` is dropped, the items up to
the suffix go to the new rule, and so does the identity. -/
def specialCase2 (identity : Option Nat) (rule : Nat) (nonRecAlt recAlt : Alt T) (suffix : Nat)
    (g : Grammar T) : Grammar T :=
  let newRule := g.size
  let g := g.addGeneratedRule
  let g := g.setRule rule (g.rule rule).reinit
  let g := g.addAlt rule (nonRecAlt ++ [itemCreate (.rule newRule)])
  let g := g.addAlt newRule ((recAlt.take suffix).drop 1 ++ [itemCreate (.rule rule)])
  addIdentity identity newRule g

/-- The first item of the alternative calls the rule. -/
def startsWith (rule : Nat) : Alt T → Bool
  | item :: _ => decide (item.entry = .rule rule)
  | [] => false

/-- `rule_left_cycle_special_case_1`; `typesMatch` tells what the tests of the types say. -/
def specialCase1 (typesMatch : Bool) (identity : Option Nat) (rule : Nat) (g : Grammar T) :
    Option (Grammar T) :=
  match (g.rule rule).alts with
  | [alt, next] =>
      let recAlt := if startsWith rule next then next else alt
      let nonRecAlt := if startsWith rule next then alt else next
      if startsWith rule nonRecAlt then none
      else if typesMatch = false then none
      else do
        let suffix ← findSuffix recAlt nonRecAlt
        some (specialCase2 identity rule nonRecAlt recAlt suffix g)
  | _ => none

/-- `rule_left_cycle_special_case`; `none` is where it fails. -/
def specialCase (typesMatch : Bool) (identity : Option Nat) (rule : Nat) (g : Grammar T) :
    Option (Grammar T) :=
  if (g.rule rule).hasEmptyAlt = false then specialCase1 typesMatch identity rule g
  else
    match (g.rule rule).alts with
    | [item :: next] => some (g.setRule rule { g.rule rule with alts := [next ++ [item]] })
    | _ => none

end Tendra.Ref.Sid
