import Mathlib.Data.List.GetD
import Mathlib.Logic.Function.Basic
import Tendra.Lib.Cfg

/-!
# Rules of a grammar: `sid/src/adt/rule.h`, `sid/src/adt/table.c`

A rule is a list of alternatives, an empty alternative that is kept apart as a
flag, and an exception handler. An alternative is a list of items, each of which
refers to an entry of the table. Rules are known by the order of their creation;
`T` is the number of terminals.

Type tuples are left out, and with them the names. Two items are therefore the
same if their entries are, which for a rename means that it renames the same
names: the table gives each rename an entry of its own, but the program compares
renames by their tuples.
-/

namespace Tendra.Ref.Sid

open Tendra.Cfg

variable {T : Nat}

/-- The entry of an item, with the item's type: an action may be called as a
predicate. -/
inductive Entry (T : Nat)
  | basic (t : Fin T)
  | rule (r : Nat)
  | action (a : Nat)
  | rename (e : Nat)
  | predicate (a : Nat)
deriving DecidableEq, Repr

/-- `ItemT`. -/
structure Item (T : Nat) where
  entry : Entry T
  inlinable : Bool
  tailCall : Bool
deriving DecidableEq, Repr

/-- `AltT`. -/
abbrev Alt (T : Nat) := List (Item T)

/-- `RuleT`: the fields that make the grammar. -/
structure Rule (T : Nat) where
  hasEmptyAlt : Bool
  alts : List (Alt T)
  handler : Option (Alt T)
  callCount : Nat
deriving DecidableEq, Repr

/-- `item_create`. -/
def itemCreate (e : Entry T) : Item T := ⟨e, false, false⟩

/-- `rule_create`. -/
def ruleCreate : Rule T := ⟨false, [], none, 0⟩

/-- `rule_reinit`. -/
def Rule.reinit (r : Rule T) : Rule T := { r with hasEmptyAlt := false, alts := [] }

/-- The rules of a `TableT`. -/
structure Grammar (T : Nat) where
  size : Nat
  rule : Nat → Rule T

namespace Grammar

/-- `table_add_generated_rule`. The new rule is the number `g.size`. -/
def addGeneratedRule (g : Grammar T) : Grammar T :=
  { g with size := g.size + 1, rule := Function.update g.rule g.size ruleCreate }

def setRule (g : Grammar T) (r : Nat) (rule : Rule T) : Grammar T :=
  { g with rule := Function.update g.rule r rule }

/-- `rule_add_alt`. -/
def addAlt (g : Grammar T) (r : Nat) (alt : Alt T) : Grammar T :=
  g.setRule r { g.rule r with alts := (g.rule r).alts ++ [alt] }

/-- `rule_add_empty_alt`. -/
def addEmptyAlt (g : Grammar T) (r : Nat) : Grammar T :=
  g.setRule r { g.rule r with hasEmptyAlt := true }

end Grammar

/-! ## Entry lists -/

/-- `entry_list_add_if_missing`. -/
def addIfMissing (l : List Nat) (e : Nat) : List Nat := if e ∈ l then l else l ++ [e]

/-- `entry_list_append`. -/
def appendEntries (l m : List Nat) : List Nat := m.foldl addIfMissing l

theorem mem_addIfMissing {l : List Nat} {e u : Nat} : u ∈ addIfMissing l e ↔ u ∈ l ∨ u = e := by
  unfold addIfMissing
  split
  · next h =>
      constructor
      · exact Or.inl
      · rintro (hu | rfl)
        · exact hu
        · exact h
  · simp

/-! ## Strings -/

/-- What an item contributes to a form: rules are nonterminals, and of the other
entries those in `vis` are tokens. -/
def Item.sym (vis : Entry T → Bool) (item : Item T) : Option (Sym Nat (Entry T)) :=
  match item.entry with
  | .rule r => some (.nt r)
  | e => if vis e then some (.tok e) else none

/-- The form that an alternative is. -/
def Alt.form (vis : Entry T → Bool) (alt : Alt T) : List (Sym Nat (Entry T)) :=
  alt.filterMap (Item.sym vis)

/-- The alternatives of the rules as forms. -/
def Grammar.prods (vis : Entry T → Bool) (g : Grammar T) (r : Nat) :
    Set (List (Sym Nat (Entry T))) :=
  { body | (g.rule r).hasEmptyAlt = true ∧ body = [] ∨
    ∃ alt ∈ (g.rule r).alts, body = Alt.form vis alt }

/-- The rules of a table: there are no others, their items refer to them, and the empty
alternative is the flag. -/
structure Grammar.Wf (g : Grammar T) : Prop where
  blank : ∀ r, g.size ≤ r → g.rule r = ruleCreate
  closed : ∀ r < g.size, ∀ alt ∈ (g.rule r).alts, ∀ item ∈ alt, ∀ m,
    item.entry = .rule m → m < g.size
  handler : ∀ r < g.size, ∀ alt, (g.rule r).handler = some alt → ∀ item ∈ alt, ∀ m,
    item.entry = .rule m → m < g.size
  nonempty : ∀ r < g.size, ∀ alt ∈ (g.rule r).alts, alt ≠ []

section

variable {vis : Entry T → Bool}

@[simp] theorem form_nil : Alt.form vis ([] : Alt T) = [] := rfl

@[simp] theorem form_append (a b : Alt T) :
    Alt.form vis (a ++ b) = Alt.form vis a ++ Alt.form vis b := List.filterMap_append

@[simp] theorem form_itemCreate_rule (r : Nat) :
    Alt.form vis [itemCreate (T := T) (.rule r)] = [.nt r] := rfl

/-- Only the entries of the items count. -/
theorem form_entries {a b : Alt T} (h : a.map Item.entry = b.map Item.entry) :
    Alt.form vis a = Alt.form vis b := by
  have hmap : ∀ alt : Alt T,
      Alt.form vis alt = (alt.map Item.entry).filterMap fun e => (itemCreate e).sym vis := by
    intro alt
    rw [List.filterMap_map]
    rfl
  rw [hmap, hmap, h]

theorem form_cons_rule {item : Item T} {r : Nat} (h : item.entry = .rule r) (rest : Alt T) :
    Alt.form vis (item :: rest) = .nt r :: Alt.form vis rest := by
  refine List.filterMap_cons_some ?_
  rw [Item.sym, h]

theorem nt_mem_form {alt : Alt T} {m : Nat} (h : Sym.nt m ∈ Alt.form vis alt) :
    ∃ item ∈ alt, item.entry = .rule m := by
  obtain ⟨item, hmem, hsym⟩ := List.mem_filterMap.1 h
  refine ⟨item, hmem, ?_⟩
  unfold Item.sym at hsym
  split at hsym
  · next r hr =>
      cases hsym
      exact hr
  · split at hsym
    · cases hsym
    · cases hsym

/-- The nonterminals of the forms are rules of the table. -/
theorem Grammar.Wf.prods_lt {g : Grammar T} (hg : g.Wf) {r : Nat} (hr : r < g.size)
    {body : List (Sym Nat (Entry T))} (hbody : body ∈ g.prods vis r) {m : Nat}
    (hm : Sym.nt m ∈ body) : m < g.size := by
  rcases hbody with ⟨-, rfl⟩ | ⟨alt, halt, rfl⟩
  · exact absurd hm List.not_mem_nil
  · obtain ⟨item, hitem, hentry⟩ := nt_mem_form hm
    exact hg.closed r hr alt halt item hitem m hentry

end

/-! ## Tables -/

/-- The table of some rules, in order. -/
def tableOf (rules : List (Rule T)) : Grammar T := ⟨rules.length, fun r => rules.getD r ruleCreate⟩

theorem tableOf_rule {rules : List (Rule T)} {p : Rule T → Prop} (h : ∀ rule ∈ rules, p rule)
    (hblank : p ruleCreate) (r : Nat) : p ((tableOf rules).rule r) := by
  change p (rules.getD r ruleCreate)
  by_cases hr : r < rules.length
  · rw [List.getD_eq_getElem _ _ hr]
    exact h _ (List.getElem_mem hr)
  · rw [List.getD_eq_default _ _ (Nat.not_lt.1 hr)]
    exact hblank

/-- The entry is no rule or one of the first `n`. -/
def Entry.below (n : Nat) : Entry T → Bool
  | .rule m => decide (m < n)
  | _ => true

/-- The items of a rule refer to the first `n` rules, and its alternatives have items. -/
def Rule.below (n : Nat) (rule : Rule T) : Bool :=
  (rule.alts.all fun alt => !alt.isEmpty && alt.all fun item => item.entry.below n) &&
    rule.handler.all fun alt => alt.all fun item => item.entry.below n

theorem Entry.lt_of_below {n m : Nat} {e : Entry T} (h : e.below n = true) (he : e = .rule m) :
    m < n := by
  rw [he] at h
  exact of_decide_eq_true h

theorem tableOf_wf {rules : List (Rule T)}
    (h : (rules.all fun rule => rule.below rules.length) = true) :
    (tableOf rules).Wf := by
  have hrule : ∀ r < rules.length, (rules.getD r ruleCreate).below rules.length = true := by
    intro r hr
    rw [List.getD_eq_getElem _ _ hr]
    exact List.all_eq_true.1 h _ (List.getElem_mem hr)
  simp only [Rule.below, Bool.and_eq_true, List.all_eq_true, Bool.not_eq_true',
    List.isEmpty_eq_false_iff, Option.all_eq_true] at hrule
  refine ⟨?_, ?_, ?_, ?_⟩
  · intro r hr
    exact List.getD_eq_default _ _ hr
  · intro r hr alt halt item hitem m hm
    exact Entry.lt_of_below (((hrule r hr).1 alt halt).2 item hitem) hm
  · intro r hr alt halt item hitem m hm
    exact Entry.lt_of_below ((hrule r hr).2 alt halt item hitem) hm
  · intro r hr alt halt
    exact ((hrule r hr).1 alt halt).1

end Tendra.Ref.Sid
