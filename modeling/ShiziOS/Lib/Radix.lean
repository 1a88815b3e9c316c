import Mathlib.Data.List.Basic
import Mathlib.Tactic

/-!
# Radix trees in a store

A store of tables is a partial function `next` from a node and an index to a node. A
path is a list of indices. The store is tree-like from a root down to a depth when no
node is reached along two paths of at most that depth; then a change of one entry
changes the paths through that entry and no others, and hanging an empty fresh node
into a missing entry keeps the store tree-like.
-/

namespace Radix

open List Option

universe u v

variable {F : Type u} {ι : Type v} {next next' : F → ι → Option F} {root f g : F}
  {p q r : List ι} {i j : ι} {n : Nat}

/-- The node at the end of a path. -/
def follow (next : F → ι → Option F) : F → List ι → Option F
  | f, [] => some f
  | f, i :: p => (next f i).bind fun g => follow next g p

@[simp] theorem follow_nil : follow next f [] = some f := rfl

theorem follow_cons : follow next f (i :: p) = (next f i).bind fun g => follow next g p := rfl

theorem follow_append (next : F → ι → Option F) (f : F) (p q : List ι) :
    follow next f (p ++ q) = (follow next f p).bind fun g => follow next g q := by
  induction p generalizing f with
  | nil => rfl
  | cons i p ih =>
    rw [cons_append, follow_cons, follow_cons, bind_assoc]
    exact bind_congr fun g _ => ih g

theorem follow_concat (next : F → ι → Option F) (f : F) (p : List ι) (i : ι) :
    follow next f (p ++ [i]) = (follow next f p).bind fun g => next g i := by
  rw [follow_append]
  refine bind_congr fun g _ => ?_
  exact bind_fun_some (next g i)

theorem follow_concat_eq_some :
    follow next f (p ++ [i]) = some g ↔ ∃ x, follow next f p = some x ∧ next x i = some g := by
  rw [follow_concat, bind_eq_some_iff]

theorem follow_congr (h : ∀ q i r g, p = q ++ i :: r → follow next f q = some g →
    next' g i = next g i) : follow next' f p = follow next f p := by
  induction p generalizing f with
  | nil => rfl
  | cons i p ih =>
    rw [follow_cons, follow_cons, h [] i p f rfl rfl]
    refine bind_congr fun g hg => ih fun q j r x he hx => ?_
    refine h (i :: q) j r x (by rw [he]; rfl) ?_
    rw [follow_cons, hg]
    exact hx

/-- No node is reached along two paths of length at most `n`. -/
def TreeLike (next : F → ι → Option F) (root : F) (n : Nat) : Prop :=
  ∀ p q f, p.length ≤ n → q.length ≤ n → follow next root p = some f →
    follow next root q = some f → p = q

theorem TreeLike.follow_eq (h : TreeLike next root n) (hp : follow next root p = some g)
    (hlen : p.length ≤ n)
    (hsame : ∀ q x j, q.length ≤ n → follow next root q = some x → x ≠ g ∨ j ≠ i →
      next' x j = next x j)
    (hq : q.length ≤ n + 1) (hnot : ¬ (p ++ [i]) <+: q) :
    follow next' root q = follow next root q := by
  refine follow_congr fun q1 j r x he hx => ?_
  have hlen1 : q1.length ≤ n := by
    rw [he, length_append, length_cons] at hq
    omega
  refine hsame q1 x j hlen1 hx ?_
  by_contra hboth
  rw [not_or, not_not, not_not] at hboth
  obtain ⟨rfl, rfl⟩ := hboth
  -- the entry is read at the end of the only path to its node
  obtain rfl := h q1 p x hlen1 hlen hx hp
  refine hnot ⟨r, ?_⟩
  rw [he, append_assoc, singleton_append]

/-- `next'` arises from `next` by hanging the empty node `f` into entry `i` of `g`. -/
structure Attach (next next' : F → ι → Option F) (root : F) (n : Nat) (p : List ι) (g : F)
    (i : ι) (f : F) : Prop where
  base : follow next root p = some g
  depth : p.length < n
  missing : next g i = none
  edge : next' g i = some f
  leaf : ∀ j, next' f j = none
  fresh : ∀ q, q.length ≤ n → follow next root q ≠ some f
  same : ∀ q x j, q.length ≤ n → follow next root q = some x → x ≠ g ∨ j ≠ i →
    next' x j = next x j

namespace Attach

variable (h : Attach next next' root n p g i f) (htree : TreeLike next root n)
include h

theorem follow_old (hq : (p ++ [i]) <+: q) : follow next root q = none := by
  obtain ⟨r, rfl⟩ := hq
  rw [follow_append, follow_concat, h.base, bind_some, h.missing]
  rfl

include htree

theorem follow_other (hq : q.length ≤ n + 1) (hnot : ¬ (p ++ [i]) <+: q) :
    follow next' root q = follow next root q :=
  htree.follow_eq h.base h.depth.le h.same hq hnot

theorem follow_new : follow next' root (p ++ [i]) = some f := by
  have hp : follow next' root p = some g := by
    have hnot : ¬ (p ++ [i]) <+: p := fun hpre => by
      have := hpre.length_le
      simp at this
    rw [h.follow_other htree (by have := h.depth; omega) hnot, h.base]
  rw [follow_concat, hp]
  exact h.edge

theorem follow_below (j : ι) (r : List ι) : follow next' root (p ++ [i] ++ j :: r) = none := by
  rw [follow_append, h.follow_new htree, bind_some, follow_cons, h.leaf]
  rfl

theorem follow_eq_some (hq : q.length ≤ n + 1) {x : F} :
    follow next' root q = some x ↔ follow next root q = some x ∨ q = p ++ [i] ∧ x = f := by
  by_cases hpre : (p ++ [i]) <+: q
  · rw [h.follow_old hpre]
    obtain ⟨r, rfl⟩ := hpre
    cases r with
    | nil =>
      rw [append_nil, h.follow_new htree]
      simp [eq_comm]
    | cons j r =>
      rw [h.follow_below htree]
      simp
  · rw [h.follow_other htree hq hpre]
    constructor
    · exact .inl
    · rintro (hx | ⟨rfl, -⟩)
      · exact hx
      · exact absurd prefix_rfl hpre

theorem treeLike : TreeLike next' root n := by
  intro q1 q2 x h1 h2 hx1 hx2
  rw [h.follow_eq_some htree (by omega)] at hx1 hx2
  rcases hx1 with hx1 | ⟨rfl, rfl⟩ <;> rcases hx2 with hx2 | ⟨rfl, he⟩
  · exact htree q1 q2 x h1 h2 hx1 hx2
  · exact absurd (he ▸ hx1) (h.fresh q1 h1)
  · exact absurd hx2 (h.fresh q2 h2)
  · rfl

end Attach

end Radix
