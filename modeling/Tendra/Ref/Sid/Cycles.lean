import Tendra.Ref.Sid.Rule

/-!
# Cycles of rules: `sid/src/grammar.c`, `sid/src/adt/rule.c`

`grammar_find_cycles` traverses the rules along the calls of one type, and then in
the order in which this ended backwards along them. What the handler of a cycle
does is left out, apart from the flag that it sets on the rules of the cycle: the
call graph is taken to stay as it is.

The recursions are bounded by a number of calls; `none` is a call too many, or a
state that the source takes to be unreachable.
-/

namespace Tendra.Ref.Sid

variable {T : Nat}

/-- `DFSStateT`. -/
inductive DfsState
  | untraced
  | tracing
  | cycling
  | traced
deriving DecidableEq, Repr

/-- `CycleTypeT`, without `CT_MUTATE`. -/
inductive CycleType
  | left
  | tail
  | all
deriving DecidableEq, Repr

/-- The items of an alternative that count as calls, as `rule_compute_dfs_1` and
`rule_compute_reverse_list_1` select them; `initial` tells whether the first item of
the list is the first one of the alternative. -/
def altCalls (g : Grammar T) (type : CycleType) : Bool → Alt T → List Nat
  | _, [] => []
  | initial, item :: next =>
      match item.entry with
      | .rule r =>
          if type = .left ∧ initial = true ∨ type = .tail ∧ next = [] ∨
              type = .all ∧ item.inlinable = true ∧ (g.rule r).callCount ≤ 1 ∧
                item.tailCall = false then
            r :: altCalls g type false next
          else altCalls g type false next
      | _ => altCalls g type false next

/-- The calls of a rule in the order of the traversal; handlers have no left calls. -/
def ruleCalls (g : Grammar T) (type : CycleType) (r : Nat) : List Nat :=
  (if type ≠ .left then (g.rule r).handler.toList.flatMap (altCalls g type true) else []) ++
    (g.rule r).alts.flatMap (altCalls g type true)

/-- `rule_compute_reverse_list`. -/
def computeReverseList (g : Grammar T) (type : CycleType) (r : Nat) (rev : Nat → List Nat) :
    Nat → List Nat :=
  (ruleCalls g type r).foldl (fun rev c => Function.update rev c (addIfMissing (rev c) r)) rev

/-- The states of the rules, and the list of a traversal. -/
structure Dfs where
  state : Nat → DfsState
  list : List Nat

def Dfs.set (st : Dfs) (r : Nat) (s : DfsState) : Dfs :=
  { st with state := Function.update st.state r s }

def Dfs.push (st : Dfs) (r : Nat) : Dfs := { st with list := r :: st.list }

@[simp] theorem Dfs.set_state_self (st : Dfs) (r : Nat) (s : DfsState) :
    (st.set r s).state r = s := Function.update_self _ _ _

theorem Dfs.set_state_of_ne (st : Dfs) {r v : Nat} (h : v ≠ r) (s : DfsState) :
    (st.set r s).state v = st.state v := Function.update_of_ne h _ _

@[simp] theorem Dfs.set_list (st : Dfs) (r : Nat) (s : DfsState) :
    (st.set r s).list = st.list :=
  rfl

@[simp] theorem Dfs.push_state (st : Dfs) (r : Nat) : (st.push r).state = st.state := rfl

@[simp] theorem Dfs.push_list (st : Dfs) (r : Nat) : (st.push r).list = r :: st.list := rfl

/-- `rule_compute_dfs`. -/
def computeDfs (calls : Nat → List Nat) : Nat → Nat → Dfs → Option Dfs
  | 0, _, _ => none
  | fuel + 1, r, st =>
      match st.state r with
      | .untraced => do
          let st ← (calls r).foldlM (fun st c => computeDfs calls fuel c st) (st.set r .tracing)
          return (st.set r .traced).push r
      | .tracing => some st
      | .traced => some st
      | .cycling => none

/-- `rule_compute_reverse_dfs`. -/
@[grind =] def computeReverseDfs (rev : Nat → List Nat) (root : Nat) : Nat → Nat → Dfs → Option Dfs
  | 0, _, _ => none
  | fuel + 1, r, st =>
      match st.state r with
      | .untraced => do
          let st ← (rev r).foldlM (fun st c => computeReverseDfs rev root fuel c st)
            (st.set r .tracing)
          let st := if r = root ∧ st.state r = .cycling ∨ r ≠ root then st.push r else st
          return st.set r .traced
      | .cycling => some st
      | .traced => some st
      | .tracing => some (st.set r .cycling)

/-- The first loop of `grammar_find_cycles`. -/
def firstPass (g : Grammar T) (type : CycleType) (fuel : Nat) (roots : List Nat) :
    Option ((Nat → List Nat) × Dfs) :=
  roots.foldlM (fun st r => do
    let rev := computeReverseList g type r st.1
    let dfs ← computeDfs (ruleCalls g type) fuel r st.2
    return (rev, dfs)) (fun _ => [], ⟨fun _ => .untraced, []⟩)

/-- The state of the third loop of `grammar_find_cycles`: `no_cycles` of the rules, and
the lists that have been handed to a handler. -/
structure Found where
  state : Nat → DfsState
  noCycles : Nat → Bool
  cycles : List (List Nat)

/-- `rule_no_cycles` on the rules of a list. Only `rule_remove_left_cycle` and
`rule_handle_tails` set it. -/
def markCycle (type : CycleType) (list : List Nat) (noCycles : Nat → Bool) : Nat → Bool :=
  match type with
  | .left => fun r => noCycles r || decide (r ∈ list)
  | .tail => fun r => noCycles r || decide (r ∈ list)
  | .all => noCycles

/-- One turn of the third loop of `grammar_find_cycles`. -/
def secondTurn (rev : Nat → List Nat) (type : CycleType) (fuel : Nat) (st : Found) (r : Nat) :
    Option Found :=
  if st.noCycles r then some st
  else do
    let dfs ← computeReverseDfs rev r fuel r ⟨st.state, []⟩
    if dfs.list = [] then return { st with state := dfs.state }
    else return ⟨dfs.state, markCycle type dfs.list st.noCycles, st.cycles ++ [dfs.list]⟩

/-- `grammar_find_cycles` on the rules in the order of the table: the lists that the
handler gets. -/
def findCycles (g : Grammar T) (type : CycleType) (roots : List Nat) : Option (List (List Nat)) :=
  do
    let (rev, dfs) ← firstPass g type (roots.length + 1) roots
    let state := roots.foldl (fun state r => Function.update state r .untraced) dfs.state
    let found ← dfs.list.foldlM (secondTurn rev type (roots.length + 1))
      ⟨state, fun _ => false, []⟩
    return found.cycles

end Tendra.Ref.Sid
