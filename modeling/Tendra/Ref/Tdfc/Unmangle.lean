import Tendra.Ref.Tdfc.Mangle

/-!
# Unmangling of types: `tdfc2/src/common/output/unmangle.c`

`unmangle_type` with the routines that it calls, for a return type that is there. Where the
text goes on in a form that is left out (templates, tokens, bit-fields, promotions, literals,
expressions), or the fuel is used up, the result is `none`; `type_error` is the type `error`.

The routines of `construct` build the type from its parts; the errors that they report are
left out. `unsigned` has 32 bits.
-/

namespace Tendra.Ref.Tdfc

/-! ## Numbers -/

/-- The loop of `unmangle_no`. -/
def unmangleDigits (n : Nat) : Text → Nat × Text
  | [] => (n, [])
  | c :: s =>
      if c.isDigit then unmangleDigits ((10 * n + (c.toNat - '0'.toNat)) % 4294967296) s
      else (n, c :: s)

/-- `unmangle_no`. -/
def unmangleNo (s : Text) (e : Bool) : Nat × Text :=
  match unmangleDigits 0 s with
  | (n, '_' :: s) => if e then (n, s) else (n, '_' :: s)
  | (n, s) => (n, s)

/-- `unmangle_digit`. -/
def unmangleDigit : Text → Nat × Text
  | '_' :: s => unmangleNo s true
  | c :: s => if c.isDigit then (c.toNat - '0'.toNat, s) else (0, c :: s)
  | [] => (0, [])

/-- The loop of `unmangle_nat`, whose numbers have no bound. -/
def unmangleNatDigits (n : Nat) : Text → Nat × Text
  | [] => (n, [])
  | c :: s =>
      if c.isDigit then unmangleNatDigits (10 * n + (c.toNat - '0'.toNat)) s
      else if c = '_' then (n, s)
      else (n, c :: s)

/-- `unmangle_nat`. -/
def unmangleNat : Text → Option (Option Nat × Text)
  | [] => some (none, [])
  | '_' :: s => some (none, s)
  | c :: s =>
      if c = 'h' ∨ c = 'o' ∨ c = 'm' then none
      else if c.isDigit then
        let (n, s) := unmangleNatDigits 0 (c :: s)
        some (some n, s)
      else some (none, c :: s)

/-! ## Names -/

/-- The loop of `unmangle_nspace` over the characters of a name, and whether it is an extended
one. -/
def unmangleName : Nat → Text → Text × Bool × Text
  | 0, s => ([], false, s)
  | n + 1, '_' :: '_' :: 'k' :: s =>
      let (p, _, s) := unmangleName n s
      ('\\' :: 'u' :: p, true, s)
  | n + 1, '_' :: '_' :: 'K' :: s =>
      let (p, _, s) := unmangleName n s
      ('\\' :: 'U' :: p, true, s)
  | n + 1, c :: s =>
      let (p, ext, s) := unmangleName n s
      (c :: p, ext, s)
  | n + 1, [] =>
      let (p, ext, s) := unmangleName n []
      ('?' :: p, ext, s)

/-- `lookup_name`. -/
def lookupName (p : Text) (ext : Bool) : Hashid := if ext then .ename p else .name p

/-- `make_class`, in a namespace that is the global one if it is not there. -/
def makeClass (ns : Option (Ident Hashid)) (nm : Hashid) : Ident Hashid :=
  match ns with
  | none => .top nm
  | some p => .mem p nm

/-- The loop of `unmangle_nspace` over the elements of a qualified name. -/
def unmangleQual
    (nspace : Text → Option (Ident Hashid) → Option (Option (Ident Hashid) × Text)) :
    Nat → Text → Option (Ident Hashid) → Option (Ident Hashid) →
    Option (Option (Ident Hashid) × Text)
  | 0, s, _, id => some (id, s)
  | n + 1, s, ns, _ => do
      let (id, s) ← nspace s ns
      unmangleQual nspace n s (id <|> ns) id

/-- `unmangle_nspace`. -/
def unmangleNspace : Nat → Text → Option (Ident Hashid) → Option (Option (Ident Hashid) × Text)
  | 0, _, _ => none
  | _ + 1, [], _ => some (none, [])
  | fuel + 1, c :: s, ns =>
      if c.isDigit then
        let (n, s) := unmangleNo (c :: s) false
        if n = 0 then some (none, s)
        else
          let (p, ext, s) := unmangleName n s
          some (some (makeClass ns (lookupName p ext)), s)
      else if c = 'Q' then
        let (n, s) := unmangleDigit s
        unmangleQual (unmangleNspace fuel) n s ns none
      else if c = 't' ∨ c = 'm' then none
      else some (none, c :: s)

/-! ## Types -/

/-- The bits `btype_signed` and `btype_unsigned` of a `BASE_TYPE`. -/
structure BaseType where
  signed : Bool
  unsigned : Bool
deriving DecidableEq, Repr

/-- `btype_none`. -/
def BaseType.none : BaseType := ⟨false, false⟩

/-- The other bits that `make_base_type` is called with here. -/
inductive BaseKind
  | char | short | int | long | llong

/-- `make_base_type`. -/
def makeBaseType (bt : BaseType) (k : BaseKind) : Ty Hashid :=
  let uns := bt.unsigned && !bt.signed
  .integer .none <|
    match k with
    | .char => if bt.signed then .schar else if uns then .uchar else .char
    | .short => if uns then .ushort else .sshort
    | .int => if uns then .uint else .sint
    | .long => if uns then .ulong else .slong
    | .llong => if uns then .ullong else .sllong

/-- The qualifiers of two types together. -/
def Cv.or (a b : Cv) : Cv := ⟨a.const || b.const, a.volatile || b.volatile⟩

/-- `DEREF_cv(type_qual(t))`. -/
def typeQual {ν : Type} : Ty ν → Cv
  | .integer q _ | .top q | .bottom q | .ptr q _ | .ptrMem q _ _ | .compound q _ => q
  | .ref _ | .func .. | .array .. | .error => .none

/-- `qualify_type`, for qualifiers other than `cv_none`. -/
def qualifyType {ν : Type} (t : Ty ν) (cv : Cv) : Ty ν :=
  match t with
  | .integer _ n => .integer cv n
  | .top _ => .top cv
  | .bottom _ => .bottom cv
  | .ptr _ t => .ptr cv t
  | .ref t => .ref (qualifyType t (cv.or (typeQual t)))
  | .ptrMem _ c t => .ptrMem cv c t
  | .func q c ps ell ret => .func q c ps ell ret
  | .array n t => .array n (qualifyType t (cv.or (typeQual t)))
  | .compound _ c => .compound cv c
  | .error => .error

/-- The end of `unmangle_type`. -/
def qualified (cv : Cv) (t : Ty Hashid) : Ty Hashid :=
  if cv = .none then t else qualifyType t cv

/-- `make_param_type`: parameters of function and array types are pointers. -/
def makeParamType {ν : Type} : Ty ν → Ty ν
  | .func q c ps ell ret => .ptr .none (.func q c ps ell ret)
  | .array _ t => .ptr .none t
  | t => t

/-- `qualify_type(t, cv_none)` of the type of a parameter. -/
def deleteQual {ν : Type} : Ty ν → Ty ν
  | .integer _ n => .integer .none n
  | .top _ => .top .none
  | .bottom _ => .bottom .none
  | .ptr _ t => .ptr .none t
  | .ptrMem _ c t => .ptrMem .none c t
  | .compound _ c => .compound .none c
  | t => t

/-- The parameter types in `make_func_type`. -/
def funcParams {ν : Type} (ps : List (Ty ν)) (ell : Bool) : List (Ty ν) :=
  match ps.map deleteQual with
  | [.top q] => if ell then [.top q] else []
  | ps => ps

/-- `unmangle_param`. -/
def unmangleParam (m : Nat) (ps : List (Ty Hashid)) : Ty Hashid :=
  if m = 0 then .error else ps.getD (m - 1) .error

/-- `IS_type_error`. -/
def isError {ν : Type} : Ty ν → Bool
  | .error => true
  | _ => false

section

-- the type of `crt_unmangle_class`
variable (crt : Option (Ident Hashid))

mutual

/-- `unmangle_type`. -/
@[grind =] def unmangleType : Nat → Text → Cv → BaseType → Option (Ty Hashid × Text)
  | 0, _, _, _ => none
  | fuel + 1, 'C' :: s, cv, bt => unmangleType fuel s { cv with const := true } bt
  | fuel + 1, 'V' :: s, cv, bt => unmangleType fuel s { cv with volatile := true } bt
  | fuel + 1, 'S' :: s, cv, bt => do
      let (t, s) ← unmangleType fuel s .none { bt with signed := true }
      return (qualified cv t, s)
  | fuel + 1, 'U' :: s, cv, bt => do
      let (t, s) ← unmangleType fuel s .none { bt with unsigned := true }
      return (qualified cv t, s)
  | fuel + 1, 'P' :: s, cv, _ => do
      let (t1, s) ← unmangleType fuel s .none .none
      return (.ptr cv t1, s)
  | fuel + 1, 'R' :: s, cv, _ => do
      let (t1, s) ← unmangleType fuel s cv .none
      return (.ref t1, s)
  | fuel + 1, 'M' :: s, cv, _ => do
      let (t1, s) ← unmangleType fuel s .none .none
      let (t2, s) ← unmangleType fuel s .none .none
      match t1 with
      | .compound _ c => return (.ptrMem cv c t2, s)
      | _ => return (.ptr cv t2, s)
  | fuel + 1, 'F' :: s, cv, _ => unmangleFunc fuel s cv false
  | fuel + 1, 'A' :: s, cv, _ => do
      let (n, s) ← unmangleNat s
      let (t1, s) ← unmangleType fuel s cv .none
      return (.array n t1, s)
  | _ + 1, 'c' :: s, cv, bt => some (qualified cv (makeBaseType bt .char), s)
  | _ + 1, 's' :: s, cv, bt => some (qualified cv (makeBaseType bt .short), s)
  | _ + 1, 'i' :: s, cv, bt => some (qualified cv (makeBaseType bt .int), s)
  | _ + 1, 'l' :: s, cv, bt => some (qualified cv (makeBaseType bt .long), s)
  | _ + 1, 'x' :: s, cv, bt => some (qualified cv (makeBaseType bt .llong), s)
  | _ + 1, 'f' :: s, cv, _ => some (qualified cv (.integer .none .float), s)
  | _ + 1, 'd' :: s, cv, _ => some (qualified cv (.integer .none .double), s)
  | _ + 1, 'r' :: s, cv, _ => some (qualified cv (.integer .none .ldouble), s)
  | _ + 1, 'v' :: s, cv, _ => some (qualified cv (.top .none), s)
  | _ + 1, 'u' :: s, cv, _ => some (qualified cv (.bottom .none), s)
  | _ + 1, 'b' :: s, cv, _ => some (qualified cv (.integer .none .bool), s)
  | _ + 1, 'y' :: s, cv, _ => some (qualified cv (.integer .none .ptrdiff_t), s)
  | _ + 1, 'z' :: s, cv, _ => some (qualified cv (.integer .none .size_t), s)
  | _ + 1, 'w' :: s, cv, _ => some (qualified cv (.integer .none .wchar_t), s)
  | _ + 1, 'X' :: s, cv, _ =>
      match crt with
      | none => some (.error, s)
      | some c => some (qualified cv (.compound .none c), s)
  | _ + 1, 'B' :: _, _, _ => none
  | _ + 1, 't' :: _, _, _ => none
  | _ + 1, 'm' :: _, _, _ => none
  | _ + 1, 'p' :: _, _, _ => none
  | _ + 1, 'a' :: _, _, _ => none
  | _ + 1, 'n' :: _, _, _ => none
  | fuel + 1, s, cv, bt =>
      if s.head?.any (fun c => c.isDigit || c == 'Q') then do
        let (id, s) ← unmangleNspace fuel s none
        match id with
        | none => return (qualified cv .error, s)
        | some c => return (qualified cv (.compound .none c), s)
      else if bt = .none ∧ cv = .none then some (.error, s)
      else some (qualified cv (makeBaseType bt .int), s)

/-- `unmangle_func`. -/
def unmangleFunc : Nat → Text → Cv → Bool → Option (Ty Hashid × Text)
  | 0, _, _, _ => none
  | fuel + 1, 'C' :: s, cv, c => unmangleFunc fuel s { cv with const := true } c
  | fuel + 1, 'V' :: s, cv, c => unmangleFunc fuel s { cv with volatile := true } c
  | fuel + 1, 'L' :: s, cv, _ => unmangleFunc fuel s cv true
  | fuel + 1, s, cv, c => do
      let (ps, ell, s) ← unmangleParams fuel s []
      match s with
      | '_' :: s => do
          let (ret, s) ← unmangleType fuel s .none .none
          return (.func cv c (funcParams ps ell) ell ret, s)
      | s => return (.func cv c (funcParams ps ell) ell .error, s)

/-- The loop of `unmangle_func`; `ps` are the parameters so far. -/
def unmangleParams : Nat → Text → List (Ty Hashid) → Option (List (Ty Hashid) × Bool × Text)
  | 0, _, _ => none
  | _ + 1, [], ps => some (ps, false, [])
  | _ + 1, 'e' :: s, ps => some (ps, true, s)
  | fuel + 1, 'T' :: s, ps =>
      let (m, s) := unmangleDigit s
      unmangleParams fuel s (ps ++ [makeParamType (unmangleParam m ps)])
  | fuel + 1, 'N' :: s, ps =>
      let (n, s) := unmangleDigit s
      let (m, s) := unmangleNo s true
      unmangleParams fuel s (ps ++ List.replicate n (makeParamType (unmangleParam m ps)))
  | fuel + 1, s, ps => do
      let (t1, s) ← unmangleType fuel s .none .none
      if isError t1 then return (ps, false, s)
      else unmangleParams fuel s (ps ++ [makeParamType t1])

end

end

end Tendra.Ref.Tdfc
