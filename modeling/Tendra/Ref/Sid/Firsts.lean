import Mathlib.Data.Fintype.Basic
import Mathlib.Data.Finset.Basic
import Tendra.Ref.Sid.Rule

/-!
# First sets: `sid/src/rules/rule-firsts.c`

A rule is marked while its first set is being computed, and again when it has been.
To come to a rule that has the first mark only is a serious error, after which the
computation goes on. The fatal errors end the run.

A bit vector is the set of its bits. The recursion is bounded by a number of
calls.
-/

namespace Tendra.Ref.Sid

variable {T : Nat}

/-- The fields of `RuleT` that the first sets are kept in. -/
structure First (T : Nat) where
  computed : Bool
  computing : Bool
  firstSet : Finset (Fin T)
  predicateFirst : List Nat
  seeThrough : Bool
  priority : Nat

/-- The errors that end a run, and a call too many. -/
inductive FirstError
  | outOfCalls
  | predicate (a rule : Nat)
  | predicates (itemRule rule : Nat)
  | redundant (rule : Nat)
deriving DecidableEq, Repr

/-- The first sets, and the rules for which a serious error has been reported. -/
structure Firsts (T : Nat) where
  first : Nat → First T
  errors : List Nat

def First.blank : First T := ⟨false, false, ∅, [], false, 0⟩

def Firsts.start : Firsts T := ⟨fun _ => First.blank, []⟩

def Firsts.modify (st : Firsts T) (r : Nat) (f : First T → First T) : Firsts T :=
  { st with first := Function.update st.first r (f (st.first r)) }

@[simp] theorem Firsts.modify_first_self (st : Firsts T) (r : Nat) (f : First T → First T) :
    (st.modify r f).first r = f (st.first r) := Function.update_self _ _ _

theorem Firsts.modify_first_of_ne (st : Firsts T) {r v : Nat} (h : v ≠ r)
    (f : First T → First T) : (st.modify r f).first v = st.first v := Function.update_of_ne h _ _

/-- The first set of a rule gets that of an item. -/
def First.merge (f item : First T) : First T :=
  { f with
    firstSet := f.firstSet ∪ item.firstSet
    predicateFirst := appendEntries f.predicateFirst item.predicateFirst }

/-- What the loop over the items of an alternative leaves: `see_through` and the
priority. -/
structure AltFirst (T : Nat) where
  st : Firsts T
  seeThrough : Bool
  priority : Nat

/-- The loop over the items of an alternative of `r`; `rec` is the call on the rule of an
item. -/
def firstItems (rec : Nat → Firsts T → Except FirstError (Firsts T)) (r : Nat) :
    Bool → Bool → Nat → Alt T → Firsts T → Except FirstError (AltFirst T)
  | _, _, priority, [], st => .ok ⟨st, true, priority⟩
  | initial, noAction, priority, item :: next, st =>
      match item.entry with
      | .predicate a =>
          if initial then
            .ok ⟨st.modify r fun f => { f with predicateFirst := addIfMissing f.predicateFirst a },
              false, priority⟩
          else .error (.predicate a r)
      | .rename _ => firstItems rec r false false priority next st
      | .action _ => firstItems rec r false false priority next st
      | .rule m => do
          let st ← rec m st
          if initial = false ∧ (st.first m).predicateFirst ≠ [] then .error (.predicates m r)
          else
            let st := st.modify r fun f => f.merge (st.first m)
            let itemPriority := (st.first m).priority
            let priority := if itemPriority > priority ∧ noAction = true then itemPriority
              else priority
            if (st.first m).seeThrough then firstItems rec r false noAction priority next st
            else .ok ⟨st, false, priority⟩
      | .basic t =>
          .ok ⟨st.modify r fun f => { f with firstSet := insert t f.firstSet }, false, priority⟩

/-- The loop over the alternatives of `r`. -/
def firstAlts (rec : Nat → Firsts T → Except FirstError (Firsts T)) (r : Nat) :
    Nat → List (Alt T) → Firsts T → Except FirstError (Firsts T × Nat)
  | priority, [], st => .ok (st, priority)
  | priority, alt :: alts, st => do
      let res ← firstItems rec r true true priority alt st
      let st := if res.seeThrough then res.st.modify r fun f => { f with seeThrough := true }
        else res.st
      firstAlts rec r res.priority alts st

/-- `rule_compute_first_set_1`. -/
def computeFirstSet (g : Grammar T) : Nat → Nat → Firsts T → Except FirstError (Firsts T)
  | 0, _, _ => .error .outOfCalls
  | fuel + 1, r, st =>
      if (st.first r).computed then .ok st
      else if (st.first r).computing then .ok { st with errors := r :: st.errors }
      else do
        let st := st.modify r fun f => { f with computing := true }
        let res ← firstAlts (computeFirstSet g fuel) r 0 (g.rule r).alts st
        let st := res.1
        let st := if (g.rule r).hasEmptyAlt then st.modify r fun f => { f with seeThrough := true }
          else st
        let st := st.modify r fun f => { f with priority := res.2 + 1 }
        if (st.first r).seeThrough = true ∧ (st.first r).firstSet = Finset.univ then
          .error (.redundant r)
        else .ok (st.modify r fun f => { f with computed := true })

/-- `grammar_compute_first_sets`, with the rules in the order of the table. -/
def computeFirstSets (g : Grammar T) (roots : List Nat) (st : Firsts T) :
    Except FirstError (Firsts T) :=
  roots.foldlM (fun st r => computeFirstSet g (roots.length + 1) r st) st

end Tendra.Ref.Sid
