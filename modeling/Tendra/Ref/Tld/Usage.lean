import Tendra.Ref.Tld.Table

/-!
# Usages of external names: `capsule_read_usage` in `tld/src/adt/capsule.c`,
`library_check_index_entry` in `tld/src/adt/library.c`

Here the errors are kept that are reported. One that is thrown ends the reading, and a
second definition is reported and read over.
-/

namespace Tendra.Ref.Tld

/-- `name_entry_get_use`. -/
def nameEntryGetUse (d : Direct) : Nat := d.use &&& (uDefd ||| uDecd ||| uMult ||| uUsed)

/-- `name_entry_merge_use`. -/
def nameEntryMergeUse (d : Direct) (use : Nat) : Direct := { d with use := d.use ||| use }

/-- What is wrong with a usage. -/
inductive UsageError (α : Type)
  | noMeaning (use : Nat)
  | multiplyDefined
  | notDeclared
  | definedMoreThanOnce (previous : Option α)
deriving DecidableEq

/-- The formats of `capsule_read_usage`. -/
def UsageError.capsuleFormat {α : Type} : UsageError α → String
  | .noMeaning _ =>
      "%s: #%u: external %S '%K' has usage %u which has no meaning in this implementation"
  | .multiplyDefined => "%s: #%u: external %S '%K' has the multiply defined bit set illegally"
  | .notDeclared => "%s: #%u: external %S '%K' is defined but not declared"
  | .definedMoreThanOnce _ =>
      "%s: #%u: external %S '%K' is defined more than once (previous definition in '%s')"

/-- The formats of `library_check_index_entry`. -/
def UsageError.libraryFormat {α : Type} : UsageError α → String
  | .definedMoreThanOnce _ => "%s: #%u: external %S '%K' is defined more than once in libraries " ++
      "(previous definition in '%N')"
  | e => e.capsuleFormat

/-- An error with what is printed of it. -/
structure UsageReport (α : Type) where
  format : String
  file : NString
  byte : Nat
  shapeKey : NString
  key : NameKey
  error : UsageError α
deriving DecidableEq

/-- The checks of a usage. -/
def checkUsage {α : Type} (needDec noMult : Bool) (use : Nat) : Option (UsageError α) :=
  if ¬use ≤ uUsed ||| uDecd ||| uDefd ||| uMult then some (.noMeaning use)
  else if noMult ∧ has use uMult then some .multiplyDefined
  else if needDec ∧ (use &&& (uDefd ||| uDecd) = uDefd ∨ use &&& (uMult ||| uDecd) = uMult) then
    some .notDeclared
  else none

/-- The error and the definition that a usage gives, where the name had `nameUse`. -/
def noteUsage {α : Type} (capsule : α) (use nameUse : Nat) (definition : Option α) :
    Option (UsageError α) × Option α :=
  if has use uDefd ∧ has nameUse uDefd then (some (.definedMoreThanOnce definition), definition)
  else if has use uMult ∧ has nameUse uMult ∧ ¬has use uDefd ∧ ¬has nameUse uDefd then (none, none)
  else if has use uDefd ∨ has use uMult ∧ ¬(has nameUse uMult ∨ has nameUse uDefd) then
    (none, some capsule)
  else (none, definition)

/-- A usage of one external name: what has it, where it is read, and the flags of the call. -/
structure Usage (α : Type) where
  capsule : α
  file : NString
  byte : Nat
  needDec : Bool
  noMult : Bool
  use : Nat
deriving DecidableEq

section

variable (shapeKey : NString) (key : NameKey)

/-- A turn of `capsule_read_usage`, for a name with the entry `d`. A capsule is known by its
name, which is also that of its file. -/
def capsuleReadUsageTurn (u : Usage NString) (d : Direct) :
    Except (UsageReport NString) (List (UsageReport NString) × Direct) :=
  let report (e : UsageError NString) : UsageReport NString :=
    ⟨e.capsuleFormat, u.file, u.byte, shapeKey, key, e⟩
  match checkUsage u.needDec u.noMult u.use with
  | some e => .error (report e)
  | none =>
      let (e, definition) := noteUsage u.capsule u.use (nameEntryGetUse d) d.definition
      .ok (e.toList.map report, nameEntryMergeUse { d with definition } u.use)

/-- `library_check_index_entry`, for a name with the entry `d`. A capsule is known by its number. -/
def libraryCheckIndexEntry (u : Usage Nat) (d : Direct) :
    Except (UsageReport Nat) (List (UsageReport Nat) × Direct) :=
  let report (e : UsageError Nat) : UsageReport Nat :=
    ⟨e.libraryFormat, u.file, u.byte, shapeKey, key, e⟩
  match checkUsage u.needDec u.noMult u.use with
  | some e => .error (report e)
  | none =>
      let (e, libDefinition) := noteUsage u.capsule u.use (nameEntryGetUse d) d.libDefinition
      .ok (e.toList.map report, nameEntryMergeUse { d with libDefinition } u.use)

end

/-- The usages of a name, one after the other, with all that is reported. -/
def readUsages {α : Type}
    (turn : Usage α → Direct → Except (UsageReport α) (List (UsageReport α) × Direct)) :
    List (Usage α) → Direct → Except (UsageReport α) (List (UsageReport α) × Direct)
  | [], d => .ok ([], d)
  | u :: us, d => do
      let (reports, d) ← turn u d
      let (more, d) ← readUsages turn us d
      .ok (reports ++ more, d)

end Tendra.Ref.Tld
