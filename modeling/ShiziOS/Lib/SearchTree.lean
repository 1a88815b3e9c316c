import Mathlib.Data.Tree.Basic
import Mathlib.Data.List.Sort

/-!
# Search trees

Binary trees ordered by a key, seen through their in-order sequence. The two descents
that look for a bound on the key are loops with a candidate; on an ordered tree they
return the first element at or above the bound and the last one at or below it. A
balanced tree is any pair of operations with the in-order effect of an ordered map.
-/

namespace SearchTree

open BinaryTree List Option

universe u

variable {α : Type u} {key : α → Nat}

def inorder : BinaryTree α → List α
  | .nil => []
  | .node x l r => inorder l ++ x :: inorder r

def Ordered (key : α → Nat) (t : BinaryTree α) : Prop :=
  (inorder t).Pairwise fun a b => key a < key b

/-- Descend for the first element with key at least `bound`. -/
def findGe (key : α → Nat) (bound : Nat) (candidate : Option α) : BinaryTree α → Option α
  | .nil => candidate
  | .node x l r =>
    if bound ≤ key x then findGe key bound (some x) l else findGe key bound candidate r

/-- Descend for the last element with key at most `bound`. -/
def findLe (key : α → Nat) (bound : Nat) (candidate : Option α) : BinaryTree α → Option α
  | .nil => candidate
  | .node x l r =>
    if key x ≤ bound then findLe key bound (some x) r else findLe key bound candidate l

/-- The element before `x` in order. -/
def prev [DecidableEq α] (t : BinaryTree α) (x : α) : Option α :=
  ((inorder t).takeWhile fun y => decide (y ≠ x)).getLast?

def last (t : BinaryTree α) : Option α := (inorder t).getLast?

variable {x y : α} {l r t : BinaryTree α} {bound : Nat}

section

variable (h : Ordered key (.node x l r))
include h

theorem Ordered.left : Ordered key l := (pairwise_append.mp h).1

theorem Ordered.right : Ordered key r := (pairwise_cons.mp (pairwise_append.mp h).2.1).2

theorem Ordered.lt_root (hy : y ∈ inorder l) : key y < key x :=
  (pairwise_append.mp h).2.2 y hy x mem_cons_self

theorem Ordered.root_lt (hy : y ∈ inorder r) : key x < key y :=
  (pairwise_cons.mp (pairwise_append.mp h).2.1).1 y hy

end

theorem findGe_eq (bound : Nat) (candidate : Option α)
    (h : Ordered key t) : findGe key bound candidate t =
      ((inorder t).find? fun x => decide (bound ≤ key x)).or candidate := by
  induction t generalizing candidate with
  | nil => rfl
  | node x l r ihl ihr =>
    rw [findGe, inorder, find?_append]
    split_ifs with hx
    · rw [ihl _ h.left, find?_cons_of_pos (by simpa using hx), Option.or_assoc]
      rfl
    · have hnone : (inorder l).find? (fun y => decide (bound ≤ key y)) = none := by
        refine find?_eq_none.mpr fun y hy => ?_
        have := h.lt_root hy
        simp only [decide_eq_true_eq]
        omega
      rw [ihr _ h.right, hnone, find?_cons_of_neg (by simpa using hx), Option.none_or]

theorem findLe_eq (bound : Nat) (candidate : Option α)
    (h : Ordered key t) : findLe key bound candidate t =
      ((inorder t).reverse.find? fun x => decide (key x ≤ bound)).or candidate := by
  induction t generalizing candidate with
  | nil => rfl
  | node x l r ihl ihr =>
    rw [findLe, inorder, reverse_append, reverse_cons, append_assoc,
      find?_append, singleton_append]
    split_ifs with hx
    · rw [ihr _ h.right, find?_cons_of_pos (by simpa using hx), Option.or_assoc]
      rfl
    · have hnone : (inorder r).reverse.find? (fun y => decide (key y ≤ bound)) = none := by
        refine find?_eq_none.mpr fun y hy => ?_
        have := h.root_lt (mem_reverse.mp hy)
        simp only [decide_eq_true_eq]
        omega
      rw [ihl _ h.left, hnone, find?_cons_of_neg (by simpa using hx), Option.none_or]

section

variable (h : Ordered key t)
include h

theorem findGe_none_eq_some (hx : findGe key bound none t = some x) :
    bound ≤ key x ∧ ∃ before after, inorder t = before ++ x :: after ∧
      ∀ y ∈ before, key y < bound := by
  rw [findGe_eq bound none h, or_none, find?_eq_some_iff_append] at hx
  obtain ⟨hb, before, after, he, hall⟩ := hx
  refine ⟨by simpa using hb, before, after, he, fun y hy => ?_⟩
  have := hall y hy
  simpa using this

theorem findGe_none_eq_none (hx : findGe key bound none t = none) :
    ∀ y ∈ inorder t, key y < bound := by
  rw [findGe_eq bound none h, or_none, find?_eq_none] at hx
  intro y hy
  simpa using hx y hy

theorem findLe_none_eq_some (hx : findLe key bound none t = some x) :
    key x ≤ bound ∧ x ∈ inorder t ∧ ∀ y ∈ inorder t, key y ≤ bound → key y ≤ key x := by
  rw [findLe_eq bound none h, or_none, find?_eq_some_iff_append] at hx
  obtain ⟨hb, after, before, he, hall⟩ := hx
  have hsplit : inorder t = before.reverse ++ x :: after.reverse := by
    rw [← reverse_reverse (inorder t), he]
    simp
  refine ⟨by simpa using hb, by simp [hsplit], fun y hy hyb => ?_⟩
  rw [Ordered, hsplit, pairwise_append] at h
  rw [hsplit] at hy
  rcases mem_append.mp hy with hy | hy
  · exact (h.2.2 y hy x mem_cons_self).le
  · rcases mem_cons.mp hy with rfl | hy
    · exact le_rfl
    · have := hall y (mem_reverse.mp hy)
      simp [hyb] at this

theorem findLe_none_eq_none (hx : findLe key bound none t = none) :
    ∀ y ∈ inorder t, bound < key y := by
  rw [findLe_eq bound none h, or_none, find?_eq_none] at hx
  intro y hy
  simpa using hx y (mem_reverse.mpr hy)

theorem Ordered.nodup : (inorder t).Nodup :=
  Pairwise.imp (fun {a b} hab he => by subst he; exact lt_irrefl _ hab) h

theorem prev_eq [DecidableEq α] {before after : List α} (he : inorder t = before ++ x :: after) :
    prev t x = before.getLast? := by
  have hnodup := h.nodup
  rw [he, nodup_append] at hnodup
  have hne : ∀ y ∈ before, decide (y ≠ x) = true := by
    intro y hy
    simpa using hnodup.2.2 y hy x mem_cons_self
  rw [prev, he, takeWhile_append_of_pos hne, takeWhile_cons_of_neg (by simp), append_nil]

end

/-! ## Ordered maps -/

/-- Insertion and removal on search trees of any shape, given by what they do to the
in-order sequence. -/
structure Ops (α : Type u) [DecidableEq α] where
  insert : (α → Nat) → α → BinaryTree α → BinaryTree α
  remove : (α → Nat) → α → BinaryTree α → BinaryTree α
  inorder_insert : ∀ {key x t}, Ordered key t → (∀ y ∈ inorder t, key y ≠ key x) →
    inorder (insert key x t) = (inorder t).orderedInsert (fun a b => key a ≤ key b) x
  inorder_remove : ∀ {key x t}, Ordered key t → x ∈ inorder t →
    inorder (remove key x t) = (inorder t).erase x

theorem Ops.mem_insert [DecidableEq α] (ops : Ops α)
    (h : Ordered key t) (hx : ∀ y ∈ inorder t, key y ≠ key x) :
    y ∈ inorder (ops.insert key x t) ↔ y = x ∨ y ∈ inorder t := by
  rw [ops.inorder_insert h hx, mem_orderedInsert]

theorem pairwise_orderedInsert {l : List α} (h : l.Pairwise fun a b => key a < key b)
    (hx : ∀ y ∈ l, key y ≠ key x) :
    (l.orderedInsert (fun a b => key a ≤ key b) x).Pairwise fun a b => key a < key b := by
  induction l with
  | nil => simp
  | cons y l ih =>
    obtain ⟨hy, hl⟩ := pairwise_cons.mp h
    have hxy := hx y mem_cons_self
    rw [orderedInsert]
    split_ifs with hle
    · refine pairwise_cons.mpr ⟨fun z hz => ?_, h⟩
      rcases mem_cons.mp hz with rfl | hz
      · omega
      · exact lt_of_le_of_lt hle (hy z hz)
    · refine pairwise_cons.mpr ⟨fun z hz => ?_, ih hl fun z hz => hx z (mem_cons_of_mem _ hz)⟩
      rcases (mem_orderedInsert _).mp hz with rfl | hz
      · omega
      · exact hy z hz

theorem Ops.ordered_insert [DecidableEq α] (ops : Ops α)
    (h : Ordered key t) (hx : ∀ y ∈ inorder t, key y ≠ key x) :
    Ordered key (ops.insert key x t) := by
  rw [Ordered, ops.inorder_insert h hx]
  exact pairwise_orderedInsert h hx

theorem Ops.ordered_remove [DecidableEq α] (ops : Ops α)
    (h : Ordered key t) (hx : x ∈ inorder t) : Ordered key (ops.remove key x t) := by
  rw [Ordered, ops.inorder_remove h hx]
  exact Pairwise.sublist erase_sublist h

theorem Ops.mem_remove [DecidableEq α] (ops : Ops α) (h : Ordered key t) (hx : x ∈ inorder t) :
    y ∈ inorder (ops.remove key x t) ↔ y ≠ x ∧ y ∈ inorder t := by
  rw [ops.inorder_remove h hx, h.nodup.mem_erase_iff]

/-- The tree without left children. -/
def spine : List α → BinaryTree α
  | [] => .nil
  | x :: l => .node x .nil (spine l)

@[simp] theorem inorder_spine (l : List α) : inorder (spine l) = l := by
  induction l with
  | nil => rfl
  | cons x l ih => rw [spine, inorder, ih, inorder, nil_append]

/-- The plainest ordered map: a sorted sequence. -/
def spineOps [DecidableEq α] : Ops α where
  insert key x t := spine ((inorder t).orderedInsert (fun a b => key a ≤ key b) x)
  remove _ x t := spine ((inorder t).erase x)
  inorder_insert := fun _ _ => inorder_spine _
  inorder_remove := fun _ _ => inorder_spine _

end SearchTree
