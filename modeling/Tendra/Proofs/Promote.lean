import Tendra.Ref.Execute
import Tendra.Ref.Foralls
import Mathlib.Data.List.Forall2

/-!
# A variable that is kept in another one during a loop

While the loop is executed, X has the bytes in it that the variable has without `replace_var`, and
the memory elsewhere is the same. An expression keeps this when the accesses by name are the ones
that are replaced and every other access, of an operation too, is to bytes of neither: then its
executions with and without the replacement go the same way, step by step.
-/

namespace Tendra.Ref.Execute

variable {β : Type}

/-! ## Regions of the memory -/

/-- The address of one of `n` bytes. -/
def Within (a : Int) (n : Nat) (c : Int) : Prop := a ≤ c ∧ c < a + n

instance (a : Int) (n : Nat) (c : Int) : Decidable (Within a n c) :=
  inferInstanceAs (Decidable (_ ∧ _))

/-- Two regions without a common byte. -/
def Apart (a : Int) (m : Nat) (b : Int) (n : Nat) : Prop := a + m ≤ b ∨ b + n ≤ a

theorem Apart.not_within {a b c : Int} {m n : Nat} (h : Apart a m b n) (hc : Within a m c) :
    ¬Within b n c := by
  unfold Apart Within at *
  omega

section

variable {mem mem' : Int → β} {a c : Int} {n : Nat} {bs : List β}

theorem length_bytesAt (mem : Int → β) (a : Int) (n : Nat) : (bytesAt mem a n).length = n := by
  simp [bytesAt]

theorem bytesAt_congr (h : ∀ c, Within a n c → mem c = mem' c) :
    bytesAt mem a n = bytesAt mem' a n := by
  refine List.map_congr_left fun i hi => h _ ?_
  have hi := List.mem_range.1 hi
  unfold Within
  omega

theorem bytesAt_inj (h : bytesAt mem a n = bytesAt mem' a n) (hc : Within a n c) :
    mem c = mem' c := by
  obtain ⟨hlo, hhi⟩ := hc
  have hget := congrArg (·[(c - a).toNat]?) h
  have hlt : (c - a).toNat < n := by omega
  have hadr : a + ((c - a).toNat : Int) = c := by omega
  simp only [bytesAt, List.getElem?_map, List.getElem?_range hlt, Option.map_some, hadr,
    Option.some.injEq] at hget
  exact hget

theorem putBytes_outside (h : ¬Within a bs.length c) : putBytes mem a bs c = mem c := by
  unfold putBytes
  split
  · rw [List.getD_eq_getElem?_getD, List.getElem?_eq_none, Option.getD_none]
    unfold Within at h
    omega
  · rfl

theorem bytesAt_putBytes (mem : Int → β) (a : Int) (bs : List β) :
    bytesAt (putBytes mem a bs) a bs.length = bs := by
  refine List.ext_getElem (length_bytesAt ..) fun i h1 h2 => ?_
  have hle : a ≤ a + (i : Int) := by omega
  simp [bytesAt, putBytes, h2]

theorem bytesAt_putBytes_apart {b : Int} (h : Apart b n a bs.length) :
    bytesAt (putBytes mem a bs) b n = bytesAt mem b n :=
  bytesAt_congr fun _ hc => putBytes_outside (h.not_within hc)

end

/-- A known value. -/
theorem done_andThen (v : Int) (s : State β) (f : Int → State β → Execution β) :
    (done v s []).andThen f = f v s := rfl

end Tendra.Ref.Execute

namespace Tendra.Ref.Foralls

open Execute

/-! ## What is kept -/

/-- The variable that is replaced: a use of it, the variable X, how many bytes they have, and where
they lie. -/
structure Moved where
  ld : Node
  x : Nat
  size : Nat
  here : Int
  there : Int

namespace Moved

section

variable {β : Type} (M : Moved)

/-- The memory that belongs to neither. -/
def Outside (c : Int) : Prop := ¬Within M.here M.size c ∧ ¬Within M.there M.size c

/-- The states of the loop without the replacement and with it. -/
structure Rel (s t : State β) : Prop where
  names : t.names = s.names
  here : s.names M.ld.dec + M.ld.no / 8 = M.here
  there : s.names M.x = M.there
  outside : ∀ c, M.Outside c → t.mem c = s.mem c
  kept : bytesAt t.mem M.there M.size = bytesAt s.mem M.here M.size

/-- An operation that neither looks at the two variables nor changes them. -/
structure Blind (L : Meaning β) (n : Node) (args : List Int) (mem : Int → β) : Prop where
  value : ∀ mem', (∀ c, M.Outside c → mem' c = mem c) →
    (L.prim n args mem').1 = (L.prim n args mem).1
  outside : ∀ mem', (∀ c, M.Outside c → mem' c = mem c) → ∀ c, M.Outside c →
    (L.prim n args mem').2 c = (L.prim n args mem).2 c
  inside : ∀ mem', (∀ c, M.Outside c → mem' c = mem c) → ∀ c, ¬M.Outside c →
    (L.prim n args mem').2 c = mem' c

/-- The variables are not reached other than by name. -/
def Ok (L : Meaning β) : Event β → Prop
  | .read via adr sh _ | .write via adr sh _ =>
      isName M.ld via = true ∨
        Apart M.here M.size adr (bytes sh) ∧ Apart M.there M.size adr (bytes sh)
  | .prim n args mem _ => M.Blind L n args mem

/-- Where an access is made with the replacement. -/
def place (via : Exp) (adr : Int) : Int := if isName M.ld via then M.there else adr

/-- The same step: X is accessed for the variable, and the values are the same. -/
inductive Same : Event β → Event β → Prop
  | read {via : Exp} {adr adr' : Int} {sh : Shape} {v : Int} (h : M.place via adr = adr') :
      Same (.read via adr sh v) (.read (renameUses M.ld M.x via) adr' sh v)
  | write {via : Exp} {adr adr' : Int} {sh : Shape} {v : Int} (h : M.place via adr = adr') :
      Same (.write via adr sh v) (.write (renameUses M.ld M.x via) adr' sh v)
  | prim {n : Node} {args : List Int} {mem mem' : Int → β} {v : Int}
      (h : ∀ c, M.Outside c → mem' c = mem c) : Same (.prim n args mem v) (.prim n args mem' v)

/-- The second execution does what the first one does, if that never reaches the variables other
than by name. -/
def Sim (L : Meaning β) (r r' : Execution β) : Prop :=
  (∀ e ∈ r.events, M.Ok L e) →
    r'.res = r.res ∧ M.Rel r.st r'.st ∧ List.Forall₂ M.Same r.events r'.events

end

/-! ## Steps -/

section

variable {β : Type} {M : Moved} {L : Meaning β} {s t : State β} {r r' : Execution β} {via : Exp}
  {sh : Shape} {adr v : Int}

theorem done_sim (h : M.Rel s t) (v : Int) : M.Sim L (done v s []) (done v t []) :=
  fun _ => ⟨rfl, h, .nil⟩

theorem stopped_sim (h : M.Rel s t) : M.Sim L ⟨.stopped, s, []⟩ ⟨.stopped, t, []⟩ :=
  fun _ => ⟨rfl, h, .nil⟩

theorem jumpTo_sim (h : M.Rel s t) (l : Option Nat) : M.Sim L (jumpTo l s) (jumpTo l t) := by
  cases l with
  | none => exact done_sim h 0
  | some l => exact fun _ => ⟨rfl, h, .nil⟩

/-- Two executions, one after the other. -/
theorem Sim.follow {r₁ r₁' : Execution β} (h : M.Sim L r r')
    (h₁ : M.Rel r.st r'.st → M.Sim L r₁ r₁') :
    M.Sim L ⟨r₁.res, r₁.st, r.events ++ r₁.events⟩ ⟨r₁'.res, r₁'.st, r'.events ++ r₁'.events⟩ := by
  intro hok
  obtain ⟨-, hrel, hev⟩ := h fun e he => hok e (List.mem_append_left _ he)
  obtain ⟨hres₁, hrel₁, hev₁⟩ := h₁ hrel fun e he => hok e (List.mem_append_right _ he)
  exact ⟨hres₁, hrel₁, List.rel_append hev hev₁⟩

theorem Sim.andThen {f f' : Int → State β → Execution β} (h : M.Sim L r r')
    (hf : ∀ v s t, M.Rel s t → M.Sim L (f v s) (f' v t)) :
    M.Sim L (r.andThen f) (r'.andThen f') := by
  intro hok
  have hfirst : ∀ e ∈ r.events, M.Ok L e := by
    intro e he
    refine hok e ?_
    unfold Execution.andThen
    split
    · exact List.mem_append_left _ he
    · exact he
  have hres := (h hfirst).1
  unfold Execution.andThen at hok ⊢
  rw [hres]
  cases hv : r.res with
  | value v =>
      rw [hv] at hok
      exact Sim.follow h (hf v _ _) hok
  | jump l => exact h hfirst
  | stopped => exact h hfirst

/-- The bytes of another region are the same. -/
theorem Rel.bytesAt_eq (h : M.Rel s t) {n : Nat} (hhere : Apart M.here M.size adr n)
    (hthere : Apart M.there M.size adr n) : bytesAt t.mem adr n = bytesAt s.mem adr n :=
  bytesAt_congr fun c hc =>
    h.outside c ⟨fun hin => hhere.not_within hin hc, fun hin => hthere.not_within hin hc⟩

/-- A read through a pointer. -/
theorem load_sim (h : M.Rel s t) (hvia : isName M.ld via = false) :
    M.Sim L (load L via sh adr s) (load L (renameUses M.ld M.x via) sh adr t) := by
  intro hok
  have hok := hok _ (List.mem_singleton.2 rfl)
  simp only [Ok, hvia, Bool.false_eq_true, false_or] at hok
  have hbytes := h.bytesAt_eq hok.1 hok.2
  refine ⟨by simp [load, done, hbytes], h, ?_⟩
  simp only [load, done, hbytes]
  exact .cons (.read (if_neg (by simp [hvia]))) .nil

/-- A read of the variable. -/
theorem load_direct_sim (h : M.Rel s t) (hvia : isName M.ld via = true)
    (hsize : bytes sh = M.size) :
    M.Sim L (load L via sh M.here s) (load L (renameUses M.ld M.x via) sh M.there t) := by
  intro _
  have hbytes := h.kept
  rw [← hsize] at hbytes
  refine ⟨by simp [load, done, hbytes], h, ?_⟩
  simp only [load, done, hbytes]
  exact .cons (.read (if_pos hvia)) .nil

/-- An assignment through a pointer. -/
theorem store_sim (h : M.Rel s t) (hvia : isName M.ld via = false) :
    M.Sim L (store L via sh adr v s) (store L (renameUses M.ld M.x via) sh adr v t) := by
  intro hok
  have hok := hok _ (List.mem_singleton.2 rfl)
  simp only [Ok, hvia, Bool.false_eq_true, false_or] at hok
  rw [← L.length_encode sh v] at hok
  refine ⟨rfl, ⟨h.names, h.here, h.there, fun c hc => ?_, ?_⟩, ?_⟩
  · have hmem := h.outside c hc
    simp only [store, done, putBytes, hmem]
  · exact (bytesAt_putBytes_apart hok.2).trans (h.kept.trans (bytesAt_putBytes_apart hok.1).symm)
  · exact .cons (.write (if_neg (by simp [hvia]))) .nil

/-- An assignment to the variable. -/
theorem store_direct_sim (h : M.Rel s t) (hvia : isName M.ld via = true)
    (hsize : bytes sh = M.size) :
    M.Sim L (store L via sh M.here v s) (store L (renameUses M.ld M.x via) sh M.there v t) := by
  intro _
  have hlen : (L.encode sh v).length = M.size := (L.length_encode sh v).trans hsize
  refine ⟨rfl, ⟨h.names, h.here, h.there, fun c hc => ?_, ?_⟩, ?_⟩
  · refine (putBytes_outside (hlen ▸ hc.2)).trans ((h.outside c hc).trans ?_)
    exact (putBytes_outside (hlen ▸ hc.1)).symm
  · have hhere := bytesAt_putBytes s.mem M.here (L.encode sh v)
    have hthere := bytesAt_putBytes t.mem M.there (L.encode sh v)
    rw [hlen] at hhere hthere
    exact hthere.trans hhere.symm
  · exact .cons (.write (if_pos hvia)) .nil

theorem compute_sim (h : M.Rel s t) (n : Node) (args : List Int) :
    M.Sim L (compute L n args s) (compute L n args t) := by
  intro hok
  have hok : M.Blind L n args s.mem := hok _ (List.mem_singleton.2 rfl)
  have hval := hok.value t.mem h.outside
  refine ⟨congrArg Result.value hval, ⟨h.names, h.here, h.there, hok.outside t.mem h.outside, ?_⟩,
    ?_⟩
  · refine (bytesAt_congr fun c hc => hok.inside t.mem h.outside c fun ho => ho.2 hc).trans ?_
    refine h.kept.trans (bytesAt_congr fun c hc => ?_)
    exact (hok.inside s.mem (fun _ _ => rfl) c fun ho => ho.1 hc).symm
  · simp only [compute, done, hval]
    exact .cons (.prim h.outside) .nil

end

/-! ## Expressions -/

section

variable (M : Moved)

/-- Where an expression has the variable, it has its contents or assigns to it, with as many bytes
as X has; and it has neither declaration in it. -/
structure Fine (e : Exp) : Prop where
  uses : ∃ shapes, useShapes M.ld e = some shapes ∧ ∀ sh ∈ shapes, bytes sh = M.size
  ld : declares M.ld.dec e = false
  x : declares M.x e = false

/-- The parts of a fine expression. -/
def FineView : View → Prop
  | .name n => isName M.ld (.mk n []) = false
  | .cont sh a => isName M.ld a = true ∧ bytes sh = M.size ∨ M.Fine a
  | .ass dest src =>
      (isName M.ld dest = true ∧ bytes src.sh = M.size ∨ M.Fine dest) ∧ M.Fine src
  | .seq stmts a => (∀ b ∈ stmts, M.Fine b) ∧ M.Fine a
  | .decl n init body => n.dec ≠ M.ld.dec ∧ n.dec ≠ M.x ∧ M.Fine init ∧ M.Fine body
  | .lab body => M.Fine body
  | .arms a labs => M.Fine a ∧ ∀ b ∈ labs, M.Fine b
  | .loop start lab => M.Fine start ∧ M.Fine lab
  | .goto _ => True
  | .test _ args | .other _ args => ∀ b ∈ args, M.Fine b
  | .case _ a => M.Fine a

/-- The replacement in the parts. -/
def renameView : View → View
  | .name n => .name n
  | .cont sh a => .cont sh (renameUses M.ld M.x a)
  | .ass dest src => .ass (renameUses M.ld M.x dest) (renameUses M.ld M.x src)
  | .seq stmts a => .seq (renameUsesAll M.ld M.x stmts) (renameUses M.ld M.x a)
  | .decl n init body => .decl n (renameUses M.ld M.x init) (renameUses M.ld M.x body)
  | .lab body => .lab (renameUses M.ld M.x body)
  | .arms a labs => .arms (renameUses M.ld M.x a) (renameUsesAll M.ld M.x labs)
  | .loop start lab => .loop (renameUses M.ld M.x start) (renameUses M.ld M.x lab)
  | .goto n => .goto n
  | .test n args => .test n (renameUsesAll M.ld M.x args)
  | .case n a => .case n (renameUses M.ld M.x a)
  | .other n args => .other n (renameUsesAll M.ld M.x args)

end

section

variable {M : Moved} {n : Node} {args : List Exp} {e : Exp}

theorem mem_of_useShapesAll {a : Node} {es : List Exp} {shapes : List Shape}
    (h : useShapesAll a es = some shapes) (he : e ∈ es) :
    ∃ part, useShapes a e = some part ∧ part ⊆ shapes := by
  induction es generalizing shapes with
  | nil => cases he
  | cons b rest ih =>
      rw [useShapesAll] at h
      cases hb : useShapes a b with
      | none => simp [hb] at h
      | some part =>
          cases hrest : useShapesAll a rest with
          | none => simp [hb, hrest] at h
          | some parts =>
              obtain rfl : part ++ parts = shapes := by simpa [hb, hrest] using h
              cases he with
              | head => exact ⟨part, hb, List.subset_append_left ..⟩
              | tail _ he =>
                  obtain ⟨p, hp, hsub⟩ := ih hrest he
                  exact ⟨p, hp, List.subset_append_of_subset_right part hsub⟩

theorem contains_of_mem {f : Node → Bool} (h : containsAny f args = false) (he : e ∈ args) :
    contains f e = false := by
  induction args with
  | nil => cases he
  | cons b rest ih =>
      rw [containsAny, Bool.or_eq_false_iff] at h
      cases he with
      | head => exact h.1
      | tail _ he => exact ih h.2 he

/-- An argument of a fine expression is fine if its uses are among those of the expression. -/
theorem Fine.arg (h : M.Fine (.mk n args)) (he : e ∈ args)
    (hsub : ∀ shapes, useShapes M.ld (.mk n args) = some shapes →
      ∃ part, useShapes M.ld e = some part ∧ part ⊆ shapes) : M.Fine e := by
  obtain ⟨shapes, hshapes, hsize⟩ := h.uses
  obtain ⟨part, hpart, hparts⟩ := hsub shapes hshapes
  have hld := h.ld
  have hx := h.x
  rw [declares, contains, Bool.or_eq_false_iff] at hld hx
  exact ⟨⟨part, hpart, fun sh hsh => hsize sh (hparts hsh)⟩, contains_of_mem hld.2 he,
    contains_of_mem hx.2 he⟩

theorem Fine.not_name (h : M.Fine (.mk n args)) : ¬(n.tag = .nameTag ∧ n.dec = M.ld.dec) := by
  obtain ⟨shapes, hshapes, -⟩ := h.uses
  intro hname
  unfold useShapes at hshapes
  simp only [if_pos hname] at hshapes
  cases hshapes

theorem Fine.not_isName (h : M.Fine e) : isName M.ld e = false := by
  obtain ⟨n, args⟩ := e
  exact decide_eq_false fun hname => h.not_name ⟨hname.1, hname.2.1⟩

/-- A fine expression is the contents of the variable, or an assignment to it, or its arguments are
fine. -/
theorem Fine.cases (h : M.Fine (.mk n args)) :
    (∃ a, n.tag = .contTag ∧ args = [a] ∧ isName M.ld a = true ∧ bytes n.sh = M.size) ∨
      (∃ d a, n.tag = .assTag ∧ args = [d, a] ∧ isName M.ld d = true ∧ bytes a.sh = M.size ∧
        M.Fine a) ∨
      ∀ a ∈ args, M.Fine a := by
  obtain ⟨shapes, hshapes, hsize⟩ := h.uses
  have huse := hshapes
  unfold useShapes at huse
  simp only [if_neg h.not_name] at huse
  split at huse
  · rename_i a htag
    split at huse
    · rename_i ha
      obtain rfl := Option.some.inj huse
      exact .inl ⟨a, htag, rfl, ha, hsize _ (List.mem_singleton.2 rfl)⟩
    · refine .inr (.inr fun b hb => h.arg hb fun parts hparts => ?_)
      obtain rfl := List.mem_singleton.1 hb
      rw [hshapes] at hparts
      exact ⟨shapes, huse, (Option.some.inj hparts) ▸ List.Subset.refl _⟩
  · rename_i d a htag
    split at huse
    · rename_i hd
      cases ha : useShapes M.ld a with
      | none => simp [ha] at huse
      | some part =>
          obtain rfl : a.sh :: part = shapes := by simpa [ha] using huse
          refine .inr (.inl ⟨d, a, htag, rfl, hd, hsize _ List.mem_cons_self, ?_⟩)
          refine h.arg (by simp) fun parts hparts => ⟨part, ha, ?_⟩
          rw [hshapes] at hparts
          exact (Option.some.inj hparts) ▸ List.subset_cons_self ..
    · refine .inr (.inr fun b hb => h.arg hb fun parts hparts => ?_)
      rw [hshapes, Option.some.injEq] at hparts
      refine @mem_of_useShapesAll _ _ [d, a] _ ?_ hb
      cases hd : useShapes M.ld d with
      | none => simp [hd] at huse
      | some p =>
          cases ha : useShapes M.ld a with
          | none => simp [hd, ha] at huse
          | some q =>
              have huse : p ++ q = shapes := by simpa [hd, ha] using huse
              simp [useShapesAll, hd, ha, huse, hparts]
  · refine .inr (.inr fun b hb => h.arg hb fun parts hparts => ?_)
    rw [hshapes, Option.some.injEq] at hparts
    exact hparts ▸ mem_of_useShapesAll huse hb

theorem Fine.all (h : M.Fine (.mk n args)) (hcont : n.tag = .contTag → ∀ a, args ≠ [a])
    (hass : n.tag = .assTag → ∀ d a, args ≠ [d, a]) : ∀ a ∈ args, M.Fine a := by
  obtain ⟨a, htag, hargs, -⟩ | ⟨d, a, htag, hargs, -⟩ | hall := h.cases
  · exact absurd hargs (hcont htag a)
  · exact absurd hargs (hass htag d a)
  · exact hall

theorem Fine.view (h : M.Fine e) : M.FineView (view e) := by
  obtain ⟨n, args⟩ := e
  have hld := h.ld
  have hx := h.x
  rw [declares, contains, Bool.or_eq_false_iff] at hld hx
  unfold Execute.view
  dsimp only
  split
  case h_1 htag => exact decide_eq_false fun hname => h.not_name ⟨hname.1, hname.2.1⟩
  case h_2 a htag =>
    obtain ⟨b, -, hb, hrest⟩ | ⟨d, a, htag', -⟩ | hall := h.cases
    · obtain rfl := List.singleton_inj.1 hb
      exact .inl hrest
    · rw [htag] at htag'
      cases htag'
    · exact .inr (hall a (List.mem_singleton.2 rfl))
  case h_3 d a htag =>
    obtain ⟨b, htag', -⟩ | ⟨d', a', -, hargs, hd, hsize, ha⟩ | hall := h.cases
    · rw [htag] at htag'
      cases htag'
    · cases hargs
      exact ⟨.inl ⟨hd, hsize⟩, ha⟩
    · exact ⟨.inr (hall d (by simp)), hall a (by simp)⟩
  case h_4 hn stmts a htag =>
    have hall := h.all (by simp [htag]) (by simp [htag])
    split
    · rename_i hh
      have hseq := hall (.mk hn stmts) (by simp)
      exact ⟨hseq.all (by simp [hh]) (by simp [hh]), hall a (by simp)⟩
    · exact hall
  case h_5 d a htag =>
    have hall := h.all (by simp [htag]) (by simp [htag])
    refine ⟨?_, ?_, hall d (by simp), hall a (by simp)⟩
    · simpa [htag] using hld.1
    · simpa [htag] using hx.1
  case h_6 d a htag => exact h.all (by simp [htag]) (by simp [htag]) a (by simp)
  case h_7 a labs htag =>
    have hall := h.all (by simp [htag]) (by simp [htag])
    exact ⟨hall a (by simp), fun b hb => hall b (by simp [hb])⟩
  case h_8 a labs htag =>
    have hall := h.all (by simp [htag]) (by simp [htag])
    exact ⟨hall a (by simp), fun b hb => hall b (by simp [hb])⟩
  case h_9 d a htag =>
    have hall := h.all (by simp [htag]) (by simp [htag])
    exact ⟨hall d (by simp), hall a (by simp)⟩
  case h_10 => trivial
  case h_11 htag => exact h.all (by simp [htag]) (by simp [htag])
  case h_12 htag => exact h.all (by simp [htag]) (by simp [htag])
  case h_13 a rest htag => exact h.all (by simp [htag]) (by simp [htag]) a (by simp)
  case h_14 =>
    rename_i hcont hass _ _ _ _ _ _ _
    exact h.all (fun htag a hargs => hcont a htag hargs) fun htag d a hargs => hass d a htag hargs

/-- The replacement leaves the tags and the number of arguments. -/
theorem view_renameUses (h : M.Fine e) :
    view (renameUses M.ld M.x e) = M.renameView (view e) := by
  obtain ⟨n, args⟩ := e
  have hargs := h.all
  rw [renameUses, if_neg (by simp [h.not_isName])]
  obtain _ | ⟨⟨k, as⟩, _ | ⟨b, _ | ⟨c, rest⟩⟩⟩ := args <;> unfold Execute.view <;>
    dsimp only [renameUsesAll]
  case cons.cons.nil =>
    by_cases hseq : n.tag = .seqTag
    · have hholder := (hargs (by simp [hseq]) (by simp [hseq]) (.mk k as) (by simp)).not_isName
      by_cases hk : k.tag = .holderTag <;>
        simp [hseq, hk, renameView, renameUsesAll, renameUses, hholder]
    · split <;> simp_all [renameView, renameUsesAll]
  all_goals
    clear hargs h
    split <;> simp_all [renameView, renameUsesAll]

end

/-! ## Executions -/

section

variable {β : Type} {M : Moved} {L : Meaning β} {s t : State β}

theorem eval_name {n : Node} (h : n.tag = .nameTag) (args : List Exp) (fuel : Nat)
    (s : State β) : eval L (fuel + 1) (.mk n args) s = done (s.names n.dec + n.no / 8) s [] := by
  have hview : view (.mk n args) = .name n := by simp [view, h]
  rw [eval, hview]

theorem eval_cont (sh : Shape) (e : Exp) (fuel : Nat) (s : State β) :
    eval L (fuel + 1) (meU3 sh e .contTag) s =
      (eval L fuel e s).andThen fun adr s => load L e sh adr s := rfl

theorem eval_ass (sh : Shape) (dest src : Exp) (fuel : Nat) (s : State β) :
    eval L (fuel + 1) (meB3 sh dest src .assTag) s =
      (eval L fuel dest s).andThen fun adr s => (eval L fuel src s).andThen fun v s =>
        store L dest src.sh adr v s := rfl

/-- What follows a use of the variable by name. -/
theorem name_sim {e : Exp} {f f' : Int → State β → Execution β} (he : isName M.ld e = true)
    (h : M.Rel s t) (hf : M.Sim L (f M.here s) (f' M.there t)) (fuel : Nat) :
    M.Sim L ((eval L fuel e s).andThen f) ((eval L fuel (renameUses M.ld M.x e) t).andThen f') := by
  obtain ⟨n, args⟩ := e
  cases fuel with
  | zero => exact stopped_sim h
  | succ fuel =>
      have hname := of_decide_eq_true he
      have hadr : s.names n.dec + n.no / 8 = M.here := by
        rw [← h.here, ← hname.2.1, ← hname.2.2]
        rfl
      have hx : t.names M.x + 0 / 8 = M.there := by
        rw [h.names, h.there]
        exact Int.add_zero _
      rw [renameUses, if_pos he, nameExp, eval_name (show n.tag = _ from hname.1), eval_name rfl,
        hadr, hx]
      exact hf

theorem find?_renameUses {labs : List Exp} (h : ∀ b ∈ labs, M.Fine b) (l : Nat) :
    (renameUsesAll M.ld M.x labs).find? (·.dec = l) =
      (labs.find? (·.dec = l)).map (renameUses M.ld M.x) := by
  induction labs with
  | nil => rfl
  | cons b rest ih =>
      have hdec : (renameUses M.ld M.x b).dec = b.dec := by
        obtain ⟨n, args⟩ := b
        rw [renameUses, if_neg (by simp [(h _ List.mem_cons_self).not_isName])]
        rfl
      rw [renameUsesAll, List.find?_cons, List.find?_cons, hdec,
        ih fun b hb => h b (List.mem_cons_of_mem _ hb)]
      split <;> rfl

theorem renameUses_sh (ld : Node) (x : Nat) (e : Exp) : (renameUses ld x e).sh = e.sh := by
  obtain ⟨n, args⟩ := e
  rw [renameUses]
  split <;> rfl

theorem eval_sim (fuel : Nat) :
    (∀ e s t, M.Fine e → M.Rel s t →
      M.Sim L (eval L fuel e s) (eval L fuel (renameUses M.ld M.x e) t)) ∧
    (∀ es vs s t f f', (∀ e ∈ es, M.Fine e) → M.Rel s t →
      (∀ vs s t, M.Rel s t → M.Sim L (f vs s) (f' vs t)) →
      M.Sim L (evalAll L fuel es vs s f) (evalAll L fuel (renameUsesAll M.ld M.x es) vs t f')) ∧
    ∀ labs r r', (∀ e ∈ labs, M.Fine e) → M.Sim L r r' →
      M.Sim L (resume L fuel labs r) (resume L fuel (renameUsesAll M.ld M.x labs) r') := by
  induction fuel with
  | zero =>
      refine ⟨fun _ s t _ h => stopped_sim h, fun _ _ s t _ _ _ h _ => stopped_sim h,
        fun _ r r' _ h hok => ⟨rfl, (h hok).2⟩⟩
  | succ fuel ih =>
      obtain ⟨ihe, iha, ihr⟩ := ih
      refine ⟨fun e s t he h => ?_, fun es vs s t f f' hes h hf => ?_, fun labs r r' hlabs h => ?_⟩
      · have hview := he.view
        simp only [eval]
        rw [view_renameUses he]
        cases hv : view e with
        | name n =>
            have hname := h.names
            simp only [renameView, hname]
            exact done_sim h _
        | cont sh a =>
            rw [hv] at hview
            cases hview with
            | inl hd => exact name_sim hd.1 h (load_direct_sim h hd.1 hd.2) fuel
            | inr ha =>
                exact (ihe a s t ha h).andThen fun v s t h => load_sim h ha.not_isName
        | ass dest src =>
            rw [hv] at hview
            obtain ⟨hdest, hsrc⟩ := hview
            simp only [renameView, renameUses_sh]
            cases hdest with
            | inl hd =>
                refine name_sim hd.1 h ((ihe src s t hsrc h).andThen fun v s t h => ?_) fuel
                exact store_direct_sim h hd.1 hd.2
            | inr hdest =>
                refine (ihe dest s t hdest h).andThen fun adr s t h => ?_
                refine (ihe src s t hsrc h).andThen fun v s t h => ?_
                exact store_sim h hdest.not_isName
        | seq stmts a =>
            rw [hv] at hview
            refine (iha stmts [] s t _ _ hview.1 h fun _ _ _ h => done_sim h 0).andThen ?_
            exact fun _ s t h => ihe a s t hview.2 h
        | decl n init body =>
            rw [hv] at hview
            obtain ⟨hld, hx, hinit, hbody⟩ := hview
            refine (ihe init s t hinit h).andThen fun v s t h => ?_
            simp only [renameUses_sh]
            split
            · have hvia : isName M.ld (.mk { n with tag := .nameTag } []) = false :=
                decide_eq_false fun hname => hld hname.2.1
              have hstore := @store_sim _ _ L _ _ _ init.sh (s.names n.dec) v h hvia
              rw [renameUses, if_neg (by simp [hvia]), renameUsesAll] at hstore
              rw [h.names]
              exact hstore.andThen fun _ s t h => ihe body s t hbody h
            · refine ihe body _ _ hbody ⟨?_, ?_, ?_, h.outside, h.kept⟩
              · rw [h.names]
              · exact (congrArg (· + _) (if_neg (Ne.symm hld))).trans h.here
              · exact (if_neg (Ne.symm hx)).trans h.there
        | lab body =>
            rw [hv] at hview
            exact ihe body s t hview h
        | arms a labs =>
            rw [hv] at hview
            exact ihr labs _ _ hview.2 (ihe a s t hview.1 h)
        | loop start lab =>
            rw [hv] at hview
            refine (ihe start s t hview.1 h).andThen fun _ s t h => ?_
            exact ihr [lab] _ _ (by simpa using hview.2) (ihe lab s t hview.2 h)
        | goto n => exact jumpTo_sim h _
        | test n args =>
            rw [hv] at hview
            refine iha args [] s t _ _ hview h fun vs s t h => ?_
            split
            · exact done_sim h 0
            · exact jumpTo_sim h _
        | case n a =>
            rw [hv] at hview
            exact (ihe a s t hview h).andThen fun v s t h => jumpTo_sim h _
        | other n args =>
            rw [hv] at hview
            exact iha args [] s t _ _ hview h fun vs s t h => compute_sim h n vs
      · cases es with
        | nil => exact hf vs s t h
        | cons e es =>
            refine (ihe e s t (hes e (by simp)) h).andThen fun v s t h => ?_
            exact iha es _ s t f f' (fun b hb => hes b (by simp [hb])) h hf
      · intro hok
        have hfirst : ∀ e ∈ r.events, M.Ok L e := by
          intro e he
          refine hok e ?_
          simp only [resume]
          split
          · split
            · exact List.mem_append_left _ he
            · exact he
          · exact he
        have hres := (h hfirst).1
        simp only [resume] at hok ⊢
        rw [hres]
        cases hv : r.res with
        | jump l =>
            rw [hv] at hok
            dsimp only at hok ⊢
            rw [find?_renameUses hlabs]
            cases hfind : labs.find? (·.dec = l) with
            | none => exact h hfirst
            | some lab =>
                rw [hfind] at hok
                refine Sim.follow h (fun hrel => ihr labs _ _ hlabs ?_) hok
                exact ihe lab _ _ (hlabs lab (List.mem_of_find?_eq_some hfind)) hrel
        | value v => exact h hfirst
        | stopped => exact h hfirst

end

/-! ## The loop -/

/-- A loop, with its start, its label and the body. -/
def repOf (n l : Node) (start head body : Exp) : Exp := .mk n [start, .mk l [head, body]]

/-- `do_one_rep` hands the variable to `replace_var`, with the shape `sh`: the variable is used
with one size only, before the body too, and X is new. -/
structure Handed {β : Type} (L : Meaning β) (D : Nat → Decl) (sc : Scan) (M : Moved) (n l : Node)
    (start head body : Exp) (sh : Shape) (s : State β) : Prop where
  rep : n.tag = .repTag
  labst : l.tag = .labstTag
  promoted : ∃ shapes, promoted D sc (repOf n l start head body) body M.ld = some shapes ∧
    sh ∈ shapes ∧ ∀ sh' ∈ shapes, bytes sh' = M.size
  start : M.Fine start
  head : M.Fine head
  name : M.ld.tag = .nameTag
  x : declares M.x body = false
  here : s.names M.ld.dec + M.ld.no / 8 = M.here
  there : s.names M.x = M.there
  apart : Apart M.here M.size M.there M.size
  copy : ∀ bs, bs.length = bytes sh → L.encode sh (L.decode sh bs) = bs

/-- The steps of the loop are the same, each with the same value, between the two assignments that
`replace_var` adds; and where the loop ends, only the bytes of X are different. -/
def Preserved {β : Type} (M : Moved) (r r' : Execution β) : Prop :=
  List.Forall₂ M.Same r.events ((r'.events.drop 2).take r.events.length) ∧
    match r.res with
    | .value _ => r'.res = .value 0 ∧ ∀ c, ¬Within M.there M.size c → r'.st.mem c = r.st.mem c
    | res => r'.res = res

section

variable {β : Type} {L : Meaning β} {D : Nat → Decl} {sc : Scan} {M : Moved} {n l : Node}
  {start head body : Exp} {sh : Shape} {s : State β}

theorem fine_mk {args : List Exp} (htag : ¬(n.tag = .nameTag ∧ n.dec = M.ld.dec))
    (hcont : n.tag ≠ .contTag) (hass : n.tag ≠ .assTag) (hident : n.tag ≠ .identTag)
    (hargs : ∀ a ∈ args, M.Fine a) : M.Fine (.mk n args) := by
  have huses : ∃ shapes, useShapesAll M.ld args = some shapes ∧
      ∀ sh ∈ shapes, bytes sh = M.size := by
    induction args with
    | nil => exact ⟨[], rfl, fun _ h => nomatch h⟩
    | cons a rest ih =>
        obtain ⟨p, hp, hpsize⟩ := (hargs a List.mem_cons_self).uses
        obtain ⟨q, hq, hqsize⟩ := ih fun b hb => hargs b (List.mem_cons_of_mem _ hb)
        refine ⟨p ++ q, by simp [useShapesAll, hp, hq], fun sh hsh => ?_⟩
        exact (List.mem_append.1 hsh).elim (hpsize sh) (hqsize sh)
  have hnone {f : Node → Bool} (h : ∀ a ∈ args, contains f a = false) :
      containsAny f args = false := by
    clear hargs huses
    induction args with
    | nil => rfl
    | cons a rest ih =>
        rw [containsAny, h a List.mem_cons_self, ih fun b hb => h b (List.mem_cons_of_mem _ hb)]
        rfl
  refine ⟨?_, ?_, ?_⟩
  · obtain ⟨shapes, hshapes, hsize⟩ := huses
    refine ⟨shapes, ?_, hsize⟩
    unfold useShapes
    simp only [if_neg htag]
    split
    · exact absurd ‹_› hcont
    · exact absurd ‹_› hass
    · exact hshapes
  · rw [declares, contains, hnone fun a ha => (hargs a ha).ld]
    simp [hident]
  · rw [declares, contains, hnone fun a ha => (hargs a ha).x]
    simp [hident]

theorem Handed.fine (h : Handed L D sc M n l start head body sh s) :
    M.Fine (repOf n l start head body) := by
  obtain ⟨shapes, hprom, -, hsize⟩ := h.promoted
  unfold Foralls.promoted at hprom
  dsimp only at hprom
  split at hprom
  · rename_i hcond
    simp only [Bool.and_eq_true, Bool.not_eq_true'] at hcond
    have hbody : M.Fine body := ⟨⟨shapes, hprom, hsize⟩, hcond.1.2, h.x⟩
    have hlab : M.Fine (.mk l [head, body]) := by
      refine fine_mk ?_ ?_ ?_ ?_ (by simpa using ⟨h.head, hbody⟩) <;> simp [h.labst]
    refine fine_mk ?_ ?_ ?_ ?_ (by simpa using ⟨h.start, hlab⟩) <;> simp [h.rep]
  · cases hprom

/-- X has been declared, with the contents of the variable. -/
def declared (L : Meaning β) (M : Moved) (sh : Shape) (s : State β) : State β :=
  { s with mem := putBytes s.mem M.there (L.encode sh (L.decode sh (bytesAt s.mem M.here
    (bytes sh)))) }

theorem Handed.bytes_eq (h : Handed L D sc M n l start head body sh s) : bytes sh = M.size := by
  obtain ⟨_, -, hmem, hsize⟩ := h.promoted
  exact hsize sh hmem

theorem Handed.rel (h : Handed L D sc M n l start head body sh s) :
    M.Rel s (declared L M sh s) := by
  have hcopy := h.copy (bytesAt s.mem M.here (bytes sh)) (length_bytesAt ..)
  rw [h.bytes_eq] at hcopy
  refine ⟨rfl, h.here, h.there, fun c hc => ?_, ?_⟩
  · rw [declared, h.bytes_eq, hcopy]
    exact putBytes_outside (by rw [length_bytesAt]; exact hc.2)
  · rw [declared, h.bytes_eq, hcopy]
    have hput := bytesAt_putBytes s.mem M.there (bytesAt s.mem M.here M.size)
    rwa [length_bytesAt] at hput

/-- What is executed after the declaration of X. -/
def rest (L : Meaning β) (M : Moved) (sh : Shape) (fuel : Nat) (r : Execution β) : Execution β :=
  (r.andThen fun v s => evalAll L fuel [] [v] s fun _ s => done 0 s []).andThen fun _ s =>
    eval L (fuel + 1) (meB3 topShape (.mk { M.ld with props := 0 } [])
      (meU3 sh (nameExp M.ld.sh M.x) .contTag) .assTag) s

theorem Handed.eval_replaceVar (h : Handed L D sc M n l start head body sh s) (loop : Exp)
    (fuel : Nat) :
    ∃ first second,
      eval L (fuel + 3) (replaceVar M.ld M.x loop sh) s =
        let r := rest L M sh fuel (eval L fuel (renameUses M.ld M.x loop) (declared L M sh s))
        ⟨r.res, r.st, first :: second :: r.events⟩ := by
  let v := L.decode sh (bytesAt s.mem M.here (bytes sh))
  refine ⟨.read (.mk M.ld []) M.here sh v,
    .write (.mk ⟨.nameTag, loop.sh, 0, 0x101, none, M.x⟩ []) M.there sh v, ?_⟩
  have hdef : eval L (fuel + 2) (meU3 sh (.mk M.ld []) .contTag) s =
      load L (.mk M.ld []) sh M.here s := by
    rw [eval_cont, eval_name h.name, done_andThen, h.here]
  rw [replaceVar, eval]
  simp only [view]
  rw [hdef, declared, ← h.there]
  rfl

theorem prefix_andThen (r : Execution β) (f : Int → State β → Execution β) :
    r.events <+: (r.andThen f).events := by
  unfold Execution.andThen
  split
  · exact List.prefix_append ..
  · exact List.prefix_rfl

theorem prefix_rest (M : Moved) (sh : Shape) (fuel : Nat) (L : Meaning β) (r : Execution β) :
    r.events <+: (rest L M sh fuel r).events :=
  (prefix_andThen r _).trans (prefix_andThen _ _)

theorem rest_jump {r : Execution β} {k : Nat} (fuel : Nat) (hr : r.res = .jump k) :
    (rest L M sh fuel r).res = .jump k := by
  obtain ⟨res, st, events⟩ := r
  cases hr
  rfl

theorem rest_stopped {r : Execution β} (fuel : Nat) (hr : r.res = .stopped) :
    (rest L M sh fuel r).res = .stopped := by
  obtain ⟨res, st, events⟩ := r
  cases hr
  rfl

/-- After the loop the variable gets its value back. -/
theorem rest_value {r : Execution β} {v : Int} {t : State β} (fuel : Nat)
    (h : Handed L D sc M n l start head body sh s) (hr : r.res = .value v) (hrel : M.Rel t r.st) :
    (rest L M sh (fuel + 2) r).res = .value 0 ∧
      ∀ c, ¬Within M.there M.size c → (rest L M sh (fuel + 2) r).st.mem c = t.mem c := by
  have hhere : r.st.names M.ld.dec + M.ld.no / 8 = M.here := by rw [hrel.names, hrel.here]
  have hthere : r.st.names M.x + 0 / 8 = M.there := by
    rw [hrel.names, hrel.there]
    exact Int.add_zero _
  have hbytes := hrel.kept
  rw [← h.bytes_eq] at hbytes
  have hcont : eval L (fuel + 2) (meU3 sh (nameExp M.ld.sh M.x) .contTag) r.st =
      load L (nameExp M.ld.sh M.x) sh M.there r.st := by
    rw [eval_cont, nameExp, eval_name rfl, done_andThen, hthere]
  have hass : eval L (fuel + 3) (meB3 topShape (.mk { M.ld with props := 0 } [])
      (meU3 sh (nameExp M.ld.sh M.x) .contTag) .assTag) r.st =
      (load L (nameExp M.ld.sh M.x) sh M.there r.st).andThen fun v s =>
        store L (.mk { M.ld with props := 0 } []) sh M.here v s := by
    have hname : ({ M.ld with props := 0 } : Node).tag = .nameTag := h.name
    rw [eval_ass, eval_name hname, done_andThen, hhere, hcont]
    rfl
  have hcopy := h.copy (bytesAt r.st.mem M.there (bytes sh)) (length_bytesAt ..)
  rw [hbytes] at hcopy
  have hend : rest L M sh (fuel + 2) r = ⟨.value 0, { r.st with
      mem := putBytes r.st.mem M.here (bytesAt t.mem M.here (bytes sh)) },
        (rest L M sh (fuel + 2) r).events⟩ := by
    obtain ⟨res, st, events⟩ := r
    cases hr
    dsimp only at hass hbytes
    simp only [rest, Execution.andThen, evalAll, done, hass, load, store, hbytes, hcopy]
  rw [hend]
  refine ⟨rfl, fun c hc => ?_⟩
  by_cases hin : Within M.here M.size c
  · have hput := bytesAt_putBytes r.st.mem M.here (bytesAt t.mem M.here M.size)
    rw [length_bytesAt] at hput
    rw [h.bytes_eq]
    exact bytesAt_inj hput hin
  · refine (putBytes_outside ?_).trans (hrel.outside c ⟨hin, hc⟩)
    rw [length_bytesAt, h.bytes_eq]
    exact hin

/-- The loop does nothing with one step. -/
theorem two_le_fuel {fuel : Nat} {v : Int} (hrep : n.tag = .repTag)
    (h : (eval L fuel (repOf n l start head body) s).res = .value v) : 2 ≤ fuel := by
  match fuel with
  | 0 => cases h
  | 1 =>
      have hview : view (repOf n l start head body) = .loop start (.mk l [head, body]) := by
        simp [view, repOf, hrep]
      rw [eval, hview] at h
      cases h
  | fuel + 2 => exact Nat.le_add_left ..

end

/-- A variable that `do_one_rep` hands to `replace_var` has the same values in the loop, for every
meaning of the other constructs and in every execution in which no other access is made to its
bytes; and after the loop the memory is the same. -/
theorem replaceVar_preserves {β : Type} (L : Meaning β) (D : Nat → Decl) (sc : Scan) (M : Moved)
    (n l : Node) (start head body : Exp) (sh : Shape) (s : State β) (fuel : Nat)
    (h : M.Handed L D sc n l start head body sh s)
    (hok : ∀ e ∈ (eval L fuel (repOf n l start head body) s).events, M.Ok L e) :
    M.Preserved (eval L fuel (repOf n l start head body) s)
      (eval L (fuel + 3) (replaceVar M.ld M.x (repOf n l start head body) sh) s) := by
  obtain ⟨hres, hrel, hevents⟩ := (eval_sim fuel).1 _ _ _ h.fine h.rel hok
  obtain ⟨first, second, heval⟩ := h.eval_replaceVar (repOf n l start head body) fuel
  rw [heval]
  have hprefix := prefix_rest M sh fuel L (eval L fuel
    (renameUses M.ld M.x (repOf n l start head body)) (declared L M sh s))
  constructor
  · rw [hevents.length_eq]
    have htake := List.prefix_iff_eq_take.1 hprefix
    exact htake ▸ hevents
  · cases hr : (eval L fuel (repOf n l start head body) s).res with
    | value v =>
        obtain ⟨k, rfl⟩ := Nat.exists_eq_add_of_le' (two_le_fuel h.rep hr)
        exact rest_value k h (hres.trans hr) hrel
    | jump k => exact rest_jump fuel (hres.trans hr)
    | stopped => exact rest_stopped fuel (hres.trans hr)

/-! ## A pointer to the variable -/

namespace Byte

/-- A value lies in the first byte; a test holds if its operands are equal. -/
def meaning : Meaning Int where
  decode _ bs := bs.headD 0
  encode sh v := (v :: List.replicate (bytes sh) 0).take (bytes sh)
  holds _ vs := vs.headD 0 = vs.getD 1 0
  branch _ _ := none
  prim n _ mem := (n.no, mem)
  length_encode sh v := by simp

/-- Global variables. -/
def decl (_ : Nat) : Decl :=
  ⟨⟨true, true, false⟩, false, false, .mk ⟨.clearTag, topShape, 0, 0, none, 0⟩ []⟩

def byte : Shape := intShape 8 true

/-- The variable that is kept. -/
def var : Node := ⟨.nameTag, fPointer 8, 0, 0, none, 1⟩

def label : Node := ⟨.labstTag, topShape, 0, 0, none, 7⟩

def rep : Node := ⟨.repTag, topShape, 0, 0, none, 0⟩

def top : Exp := .mk ⟨.topTag, topShape, 0, 0, none, 0⟩ []

/-- One is assigned to the variable until a read yields one. -/
def body (read : Exp) : Exp :=
  let ass := meB3 topShape (.mk var []) (valExp byte 1) .assTag
  meB3 topShape (.mk ⟨.holderTag, topShape, 0, 0, none, 0⟩ [ass])
    (makeTest .equal (some 7) read (valExp byte 1) .testTag) .seqTag

/-- The variable, and a read through a pointer. -/
def direct : Exp := meU3 byte (.mk var []) .contTag

def indirect : Exp :=
  meU3 byte (meU3 (fPointer 8) (nameExp (fPointer 32) 2) .contTag) .contTag

/-- The declaration `d` is at the address `100 * d`, and there is a pointer to the first in the
second. -/
def state : State Int := ⟨fun a => if a = 200 then 100 else 0, fun d => 100 * d⟩

def moved : Moved := ⟨var, 3, 1, 100, 300⟩

theorem handed {read : Exp} {shapes : List Shape}
    (h : promoted decl (scanLoop decl true (repOf rep label top top (body read)) (body read))
      (repOf rep label top top (body read)) (body read) var = some shapes)
    (hmem : byte ∈ shapes) (hall : ∀ sh ∈ shapes, bytes sh = 1)
    (hx : declares 3 (body read) = false) :
    moved.Handed meaning decl (scanLoop decl true (repOf rep label top top (body read))
      (body read)) rep label top top (body read) byte state where
  rep := rfl
  labst := rfl
  promoted := ⟨shapes, h, hmem, hall⟩
  start := fine_mk (by decide) (by decide) (by decide) (by decide) (by simp)
  head := fine_mk (by decide) (by decide) (by decide) (by decide) (by simp)
  name := rfl
  x := hx
  here := rfl
  there := rfl
  apart := .inl (by decide)
  copy bs hbs := by
    obtain ⟨b, rfl⟩ := List.length_eq_one_iff.1 hbs
    rfl

/-- Operations without arguments only make constants. -/
theorem ok_of_direct {e : Event Int} (h : (match e with
    | .read via .. | .write via .. => isName var via
    | .prim .. => true) = true) : moved.Ok meaning e := by
  cases e with
  | read => exact .inl h
  | write => exact .inl h
  | prim => exact ⟨fun _ _ => rfl, fun _ hmem => hmem, fun _ _ _ _ => rfl⟩

/-- The value of a step. -/
def valueOf : Event Int → Int
  | .read _ _ _ v | .write _ _ _ v | .prim _ _ _ v => v

theorem Same.valueOf_eq {M : Moved} {e e' : Event Int} (h : M.Same e e') :
    valueOf e = valueOf e' := by
  cases h <;> rfl

end Byte

open Byte in
/-- The variable is read directly. -/
theorem replaceVar_preserves_direct :
    moved.Preserved (eval meaning 10 (repOf rep label top top (body direct)) state)
      (eval meaning 13 (replaceVar var 3 (repOf rep label top top (body direct)) byte) state) := by
  refine replaceVar_preserves meaning decl _ moved rep label top top (body direct) byte state 10
    (@handed direct [byte, byte] (by decide) (by decide) (by decide) (by decide)) fun e he => ?_
  refine ok_of_direct ?_
  revert e
  decide

open Byte in
/-- The read through the pointer yields what was there before the loop. -/
theorem not_replaceVar_preserves :
    ¬∀ (L : Meaning Int) (D : Nat → Decl) (M : Moved) (n l : Node) (start head body : Exp)
      (sh : Shape) (s : State Int) (fuel : Nat) (everytime : Bool),
      M.Handed L D (scanLoop D everytime (repOf n l start head body) body) n l start head body
        sh s →
      M.Preserved (eval L fuel (repOf n l start head body) s)
        (eval L (fuel + 3) (replaceVar M.ld M.x (repOf n l start head body) sh) s) := by
  intro h
  have hkept := (h meaning decl moved rep label top top (body indirect) byte state 10 true
    (@handed indirect [byte] (by decide) (by decide) (by decide) (by decide))).1
  have hvalues := @List.rel_map _ _ _ _ moved.Same Eq valueOf valueOf (fun _ _ => Same.valueOf_eq)
    _ _ hkept
  rw [List.forall₂_eq_eq_eq] at hvalues
  revert hvalues
  decide

end Moved

end Tendra.Ref.Foralls
