import Mathlib.Data.List.Basic

/-!
# Name mangling: `tdfc2/src/common/output/mangle.c`

Types are those of C++ without templates, tokens, bit-fields and enumerations. A class is
given by its name and the named namespaces and classes that it lies in; those in unnamed
namespaces have no external name. An array bound is given by its value.

`eq_type` is taken with the default options: the linkage of a function is part of its
type, and qualifiers have to agree.
-/

namespace Tendra.Ref.Tdfc

/-- A string or a buffer; the null character at the end is left out. -/
abbrev Text := List Char

/-- The built-in types other than `ntype_void` and `ntype_bottom`, which are types of their own. -/
inductive Ntype
  | char | schar | uchar | sshort | ushort | sint | uint | slong | ulong | sllong | ullong
  | float | double | ldouble | bool | ptrdiff_t | size_t | wchar_t
deriving DecidableEq, Repr

/-- `mangle_ntype`. -/
def mangleNtype : Ntype → Text
  | .char => ['c']
  | .schar => ['S', 'c']
  | .uchar => ['U', 'c']
  | .sshort => ['s']
  | .ushort => ['U', 's']
  | .sint => ['i']
  | .uint => ['U', 'i']
  | .slong => ['l']
  | .ulong => ['U', 'l']
  | .sllong => ['x']
  | .ullong => ['U', 'x']
  | .float => ['f']
  | .double => ['d']
  | .ldouble => ['r']
  | .bool => ['b']
  | .ptrdiff_t => ['y']
  | .size_t => ['z']
  | .wchar_t => ['w']

/-- The bits `cv_const` and `cv_volatile` of a `CV_SPEC`. -/
structure Cv where
  const : Bool
  volatile : Bool
deriving DecidableEq, Repr

/-- `cv_none`. -/
def Cv.none : Cv := ⟨false, false⟩

/-- A name: a simple one, or one with universal characters, which the text holds as `\u` or `\U` and
the digits. -/
inductive Hashid
  | name (text : Text)
  | ename (text : Text)
deriving DecidableEq, Repr

/-- A class or a namespace: its name, and what it lies in if that is not the global namespace. -/
inductive Ident (ν : Type)
  | top (name : ν)
  | mem (parent : Ident ν) (name : ν)
deriving DecidableEq, Repr

/-- The types of `TYPE`, over a type of names. Qualifiers of references and arrays belong to what
they refer to, and those of a function are the `mqual`; `cLang` is its bit `cv_c`. -/
inductive Ty (ν : Type)
  | integer (qual : Cv) (no : Ntype)
  | top (qual : Cv)
  | bottom (qual : Cv)
  | ptr (qual : Cv) (sub : Ty ν)
  | ref (sub : Ty ν)
  | ptrMem (qual : Cv) (of : Ident ν) (sub : Ty ν)
  | func (mqual : Cv) (cLang : Bool) (ptypes : List (Ty ν)) (ellipsis : Bool) (ret : Ty ν)
  | array (size : Option Nat) (sub : Ty ν)
  | compound (qual : Cv) (defn : Ident ν)
  | error
deriving Repr

section

variable {ν : Type} [DecidableEq ν]

/-- Where the return types of two functions differ, `void` and `bottom` are taken as the same. -/
def voidRet : Ty ν → Ty ν → Bool
  | .top q, .bottom q' => q = q'
  | .bottom q, .top q' => q = q'
  | _, _ => false

mutual

/-- `eq_type`, and `eq_func_type`. -/
def eqType : Ty ν → Ty ν → Bool
  | .integer q n, .integer q' n' => q = q' ∧ n = n'
  | .top q, .top q' => q = q'
  | .bottom q, .bottom q' => q = q'
  | .ptr q t, .ptr q' t' => q = q' ∧ eqType t t'
  | .ref t, .ref t' => eqType t t'
  | .ptrMem q c t, .ptrMem q' c' t' => q = q' ∧ c = c' ∧ eqType t t'
  | .func q c ps ell r, .func q' c' ps' ell' r' =>
      ell = ell' ∧ eqTypes ps ps' ∧ (eqType r r' ∨ voidRet r r') ∧ q = q' ∧ c = c'
  | .array n t, .array n' t' => n = n' ∧ eqType t t'
  | .compound q c, .compound q' c' => q = q' ∧ c = c'
  | .error, .error => true
  | _, _ => false

/-- The loop of `eq_func_type`. -/
def eqTypes : List (Ty ν) → List (Ty ν) → Bool
  | [], [] => true
  | t :: ts, t' :: ts' => eqType t t' ∧ eqTypes ts ts'
  | _, _ => false

end

end

/-! ## Numbers and names -/

/-- `mangle_number`. -/
def mangleNumber (n e : Nat) : Text :=
  if n < 10 then Nat.toDigits 10 n
  else (if 1 < e then ['_'] else []) ++ Nat.toDigits 10 n ++ (if 0 < e then ['_'] else [])

/-- `mangle_ename`. -/
def mangleEname : Text → Text
  | [] => []
  | ['\\'] => ['_', '_', 'k']
  | '\\' :: c :: s => '_' :: '_' :: (if c = 'U' then 'K' else 'k') :: mangleEname s
  | c :: s => c :: mangleEname s

/-- `mangle_hashid`. -/
def mangleHashid : Hashid → Text
  | .name s => s
  | .ename s => mangleEname s

/-- `ident_depth`. -/
def identDepth {ν : Type} : Ident ν → Nat
  | .top _ => 1
  | .mem p _ => identDepth p + 1

section

-- `crt_mangle_class`
variable (crt : Option (Ident Hashid))

/-- `mangle_id`, with `mangle_nspace`. -/
def mangleId : Ident Hashid → Nat → Text
  | .top nm, d =>
      let s := mangleHashid nm
      (if 1 < d then 'Q' :: mangleNumber d 2 else []) ++ mangleNumber s.length 0 ++ s
  | .mem p nm, d =>
      let s := mangleHashid nm
      (if 1 < d then
        'Q' :: mangleNumber d 2 ++ (if crt = some p then ['X'] else mangleId p (d - 1))
      else []) ++ mangleNumber s.length 0 ++ s

/-- `mangle_ctype`, for the depth -2. -/
def mangleCtype (ct : Ident Hashid) : Text :=
  if crt = some ct then ['X'] else mangleId crt ct (identDepth ct)

end

/-- `mangle_nat`: a value that does not fit into two digits of 16 bits is printed by `print_nat`, in
hexadecimal. -/
def mangleNat : Option Nat → Text
  | none => ['_']
  | some n =>
      (if n < 4294967296 then mangleNumber n 0 else '0' :: 'x' :: Nat.toDigits 16 n) ++ ['_']

/-- `mangle_cv`, for qualifiers and the bit `cv_c`. -/
def mangleCv (cv : Cv) (c : Bool) : Text :=
  (if cv.const then ['C'] else []) ++ (if cv.volatile then ['V'] else []) ++
    (if c then ['L'] else [])

/-! ## Types -/

/-- `MANGLE_WORTH`. -/
abbrev mangleWorth : Nat := 10

/-- A built-in type, for which only long runs are checked. -/
def isBuiltin {ν : Type} : Ty ν → Bool
  | .integer .. => true
  | _ => false

/-- A type for which there is no check. -/
def isVoid {ν : Type} : Ty ν → Bool
  | .top _ | .bottom _ | .error => true
  | _ => false

/-- The previous parameters are checked, from the number `m` on; the result is 0 if there is no
match. -/
def findParam (r : Ty Hashid) (m : Nat) : List (Ty Hashid) → Nat
  | [] => 0
  | r1 :: q1 => if eqType r1 r then m else findParam r (m + 1) q1

/-- The number of equal parameters at the start. -/
def equalParams (r : Ty Hashid) : List (Ty Hashid × Text) → Nat
  | [] => 0
  | (nr, _) :: q => if eqType r nr then equalParams r q + 1 else 0

/-- The loop of `mangle_type` over the parameters `q`, each with its mangled form; `p` are those
before. -/
def mangleParams : Nat → List (Ty Hashid) → List (Ty Hashid × Text) → Text
  | 0, _, _ => []
  | _, _, [] => []
  | fuel + 1, p, (r, text) :: q =>
      let left := q.length + 1
      let worth := !(isBuiltin r && mangleWorth < left)
      let n := if (isBuiltin r && worth) || isVoid r then 0 else findParam r 1 p
      if n ≠ 0 then
        let m := equalParams r q + 1
        let out :=
          if m = 1 then
            if worth then 'T' :: mangleNumber n 2 else text
          else if worth || mangleWorth < m then
            'N' :: mangleNumber m 2 ++ mangleNumber n 1
          else (List.replicate m text).flatten
        out ++ mangleParams fuel (p ++ r :: (q.take (m - 1)).map Prod.fst) (q.drop (m - 1))
      else text ++ mangleParams fuel (p ++ [r]) q

section

variable (crt : Option (Ident Hashid))

mutual

/-- `mangle_type`. -/
@[grind =] def mangleType : Ty Hashid → Nat → Bool → Text
  | .integer q n, _, _ => mangleCv q false ++ mangleNtype n
  | .top q, _, _ => mangleCv q false ++ ['v']
  | .bottom q, _, _ => mangleCv q false ++ ['u']
  | .ptr q t, _, _ => mangleCv q false ++ 'P' :: mangleType t 2 true
  | .ref t, _, _ => 'R' :: mangleType t 2 true
  | .ptrMem q c t, _, _ =>
      mangleCv q false ++ 'M' :: mangleCtype crt c ++ mangleType t 2 true
  | .func q c ps ell ret, fn, _ =>
      mangleCv q c ++ (if fn ≠ 0 then ['F'] else []) ++
        (if ps.isEmpty then
          if fn ≠ 0 ∧ !ell then ['v'] else []
        else mangleParams ps.length [] (ps.zip (mangleTypes ps))) ++
        (if ell then ['e'] else []) ++
        (if fn = 2 then '_' :: mangleType ret 2 true else [])
  | .array n t, _, arr => 'A' :: mangleNat (if arr then n else none) ++ mangleType t 2 true
  | .compound q c, _, _ => mangleCv q false ++ mangleCtype crt c
  | .error, _, _ => ['*']

/-- The mangled forms of parameters. -/
def mangleTypes : List (Ty Hashid) → List Text
  | [] => []
  | t :: ts => mangleType t 2 true :: mangleTypes ts

end

end

end Tendra.Ref.Tdfc
