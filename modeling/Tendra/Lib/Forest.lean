import Mathlib.Algebra.Order.Group.Nat
import Mathlib.Data.List.Perm.Basic

/-!
# Ordered forests, and an operation over them

A forest is a list of trees, the trees below a node being the ones before the rest of
the list. Its leaves in order are what a walk in depth comes to. An associative
operation over the nested lists is the operation over the leaves, and a commutative one
can take some of the leaves first.
-/

namespace Tendra

/-- A list of leaves and of nodes with lists below them. -/
inductive Forest (α : Type*)
  | nil
  | leaf (a : α) (rest : Forest α)
  | node (a : α) (inner rest : Forest α)

namespace Forest

variable {α β : Type*}

/-- The labels of the list itself. -/
def heads : Forest α → List α
  | nil => []
  | leaf a rest => a :: rest.heads
  | node a _ rest => a :: rest.heads

/-- The leaves, from left to right. -/
def leaves : Forest α → List α
  | nil => []
  | leaf a rest => a :: rest.leaves
  | node _ inner rest => inner.leaves ++ rest.leaves

/-- The labels with lists below them. -/
def nodes : Forest α → List α
  | nil => []
  | leaf _ rest => rest.nodes
  | node a inner rest => a :: (inner.nodes ++ rest.nodes)

/-- All labels. -/
def labels : Forest α → List α
  | nil => []
  | leaf a rest => a :: rest.labels
  | node a inner rest => a :: (inner.labels ++ rest.labels)

/-- The first label, or `a` if there is none. -/
def first (a : α) : Forest α → α
  | nil => a
  | leaf b _ => b
  | node b _ _ => b

/-- The value of a forest: that of each list is the operation over its members. -/
def fold (f : β → β → β) (e : β) (v : α → β) : Forest α → β
  | nil => e
  | leaf a rest => f (v a) (rest.fold f e v)
  | node _ inner rest => f (inner.fold f e v) (rest.fold f e v)

theorem heads_sublist (F : Forest α) : F.heads.Sublist F.labels := by
  induction F with
  | nil => exact .slnil
  | leaf a rest ih => exact ih.cons_cons a
  | node a inner rest _ ih => exact (ih.trans (List.sublist_append_right ..)).cons_cons a

theorem leaves_sublist (F : Forest α) : F.leaves.Sublist F.labels := by
  induction F with
  | nil => exact .slnil
  | leaf a rest ih => exact ih.cons_cons a
  | node a inner rest ih1 ih2 => exact (ih1.append ih2).cons a

theorem nodes_sublist (F : Forest α) : F.nodes.Sublist F.labels := by
  induction F with
  | nil => exact .slnil
  | leaf a rest ih => exact ih.cons a
  | node a inner rest ih1 ih2 => exact (ih1.append ih2).cons_cons a

/-- Where labels occur once, no leaf is a node. -/
theorem not_mem_leaves {F : Forest α} (h : F.labels.Nodup) {a : α} (ha : a ∈ F.nodes) :
    a ∉ F.leaves := by
  induction F with
  | nil => exact nofun
  | leaf b rest ih =>
      obtain ⟨hb, hrest⟩ := List.nodup_cons.1 h
      intro hmem
      rcases List.mem_cons.1 hmem with rfl | hmem
      · exact hb (rest.nodes_sublist.subset ha)
      · exact ih hrest ha hmem
  | node b inner rest ih1 ih2 =>
      obtain ⟨hb, hboth⟩ := List.nodup_cons.1 h
      obtain ⟨hinner, hrest, hdisj⟩ := List.nodup_append.1 hboth
      intro hmem
      rcases List.mem_cons.1 ha with rfl | ha
      · exact hb ((inner.leaves_sublist.append rest.leaves_sublist).subset hmem)
      · rcases List.mem_append.1 ha with ha | ha <;> rcases List.mem_append.1 hmem with hmem | hmem
        · exact ih1 hinner ha hmem
        · exact hdisj a (inner.nodes_sublist.subset ha) a (rest.leaves_sublist.subset hmem) rfl
        · exact hdisj a (inner.leaves_sublist.subset hmem) a (rest.nodes_sublist.subset ha) rfl
        · exact ih2 hrest ha hmem

section

variable {f : β → β → β} [Std.Associative f] {e : β} (hleft : ∀ b, f e b = b)
include hleft

theorem foldr_append_eq (xs ys : List β) :
    (xs ++ ys).foldr f e = f (xs.foldr f e) (ys.foldr f e) := by
  induction xs with
  | nil => exact (hleft _).symm
  | cons x xs ih => rw [List.cons_append, List.foldr_cons, ih, List.foldr_cons,
      @Std.Associative.assoc _ f _]

/-- The operation over the leaves. -/
theorem fold_eq_leaves (v : α → β) (F : Forest α) :
    F.fold f e v = (F.leaves.map v).foldr f e := by
  induction F with
  | nil => rfl
  | leaf a rest ih => rw [fold, ih, leaves, List.map_cons, List.foldr_cons]
  | node a inner rest ih1 ih2 =>
      rw [fold, ih1, ih2, leaves, List.map_append, foldr_append_eq hleft]

/-- Some of the leaves may come last. -/
theorem foldr_partition [Std.Commutative f] (v : α → β) (p : α → Bool) (xs : List α) :
    (xs.map v).foldr f e =
      f (((xs.filter fun a => !p a).map v).foldr f e) (((xs.filter p).map v).foldr f e) := by
  have hperm : List.Perm ((xs.filter fun a => !p a) ++ xs.filter p) xs := by
    have h := List.filter_append_perm (fun a => !p a) xs
    simpa only [Bool.not_not] using h
  have hcomm : LeftCommutative f := ⟨fun a b c => by
    rw [← @Std.Associative.assoc _ f _, @Std.Commutative.comm _ f _ a b,
      @Std.Associative.assoc _ f _]⟩
  rw [← foldr_append_eq hleft, ← List.map_append]
  exact ((hperm.map v).foldr_eq e).symm

end

end Forest

end Tendra
