import Mathlib.Logic.Relation

/-!
# Rooted vertices of a forest

A vertex is rooted if a path leads to it from a root. What stays rooted when an edge is added,
when a leaf is cut off, and when a vertex is hung elsewhere with all that is beneath it. Where
every vertex has one parent at most and roots have none, a rooted vertex is on no cycle; new edges
to vertices that lead nowhere close none.
-/

namespace Forest

open Relation

variable {α : Type*} {E E' : α → α → Prop} {Root Root' : α → Prop} {p q x y : α}

/-- A path leads to the vertex from a root. -/
def Rooted (E : α → α → Prop) (Root : α → Prop) (x : α) : Prop := ∃ r, Root r ∧ ReflTransGen E r x

namespace Rooted

theorem of_root (h : Root x) : Rooted E Root x := ⟨x, h, .refl⟩

variable (h : Rooted E Root x)
include h

theorem step (hxy : E x y) : Rooted E Root y := by
  obtain ⟨r, hr, hpath⟩ := h
  exact ⟨r, hr, hpath.tail hxy⟩

theorem mono (hE : ∀ x y, E x y → E' x y) (hR : ∀ x, Root x → Root' x) : Rooted E' Root' x := by
  obtain ⟨r, hr, hpath⟩ := h
  exact ⟨r, hR r hr, ReflTransGen.mono hE _ _ hpath⟩

theorem aside (hE : ∀ x y, E x y → y ≠ p → E' x y) (hx : ¬ReflTransGen E p x) :
    Rooted E' Root x := by
  obtain ⟨r, hr, hpath⟩ := h
  refine ⟨r, hr, ?_⟩
  induction hpath with
  | refl => exact .refl
  | @tail y z _ hyz ih =>
    have hzp : z ≠ p := by
      rintro rfl
      exact hx .refl
    exact (ih fun hy => hx (hy.tail hyz)).tail (hE y z hyz hzp)

theorem cut (hleaf : ∀ y, ¬E q y) (hE : ∀ x y, E x y → y ≠ q → E' x y) (hx : x ≠ q) :
    Rooted E' Root x := by
  refine h.aside hE ?_
  intro hpath
  rcases hpath.cases_head with rfl | ⟨y, hy, -⟩
  · exact hx rfl
  · exact hleaf y hy

theorem move (hE : ∀ x y, E x y → y ≠ p → E' x y) (hnew : E' q p) (hq : Rooted E Root q)
    (hnot : ¬ReflTransGen E p q) : Rooted E' Root x := by
  have hp : Rooted E' Root p := (hq.aside hE hnot).step hnew
  obtain ⟨r, hr, hpath⟩ := h
  induction hpath with
  | refl => exact of_root hr
  | @tail y z _ hyz ih =>
    by_cases hzp : z = p
    · rw [hzp]
      exact hp
    · exact ih.step (hE y z hyz hzp)

theorem acyclic (hone : ∀ x x' y, E x y → E x' y → x = x') (hroot : ∀ r, Root r → ∀ x, ¬E x r) :
    ¬TransGen E x x := by
  obtain ⟨r, hr, hpath⟩ := h
  induction hpath with
  | refl =>
    intro hcycle
    obtain ⟨y, -, hy⟩ := TransGen.tail'_iff.mp hcycle
    exact hroot r hr y hy
  | @tail y z _ hyz ih =>
    intro hcycle
    obtain ⟨y', hzy', hy'z⟩ := TransGen.tail'_iff.mp hcycle
    obtain rfl := hone y y' z hyz hy'z
    exact ih (TransGen.head' hyz hzy')

end Rooted

/-- A new edge to a vertex that leads nowhere closes no cycle. -/
theorem acyclic_of_ends (hE : ∀ x, ¬TransGen E x x)
    (h : ∀ x y, E' x y → E x y ∨ ∀ z, ¬E' y z) (x : α) : ¬TransGen E' x x := by
  have hpath : ∀ {y z}, TransGen E' x y → E' y z → TransGen E x y := by
    intro y z hxy
    induction hxy generalizing z with
    | single hy => exact fun hz => .single ((h _ _ hy).resolve_right fun hend => hend z hz)
    | tail _ hy ih => exact fun hz => (ih hy).tail ((h _ _ hy).resolve_right fun hend => hend z hz)
  intro hcycle
  obtain ⟨z, hz, -⟩ := TransGen.head'_iff.mp hcycle
  exact hE x (hpath hcycle hz)

end Forest
