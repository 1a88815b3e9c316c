import ShiziOS.Lib.Radix
import ShiziOS.Mm.Mmu

/-!
# The tables of an address space as a radix tree

The lower half of an address space is a radix tree of depth four over the tables in
memory. The hardware walk of an address in the lower half follows the path of its four
indices, and what a walk returns depends on the words it reads.
-/

namespace ShiziOS.Mm

open Radix Machine List Option

/-- The present entries of the tables below `root`; of `root` itself the lower half. -/
def tableNext (mem : Nat → Pte) (root f i : Nat) : Option Nat :=
  if i < 512 ∧ ¬ (f = root ∧ 256 ≤ i) ∧ pteIsValid (mem (512 * f + i)) = true then
    some (ptePfn (mem (512 * f + i)))
  else none

/-- The node at the end of a path from the root. -/
def reach (mem : Nat → Pte) (root : Nat) (p : List Nat) : Option Nat :=
  follow (tableNext mem root) root p

/-- The indices of an address, and those of its page table. -/
def path4 (va : Nat) : List Nat := [pml4Index va, pdptIndex va, pdIndex va, ptIndex va]

def path3 (va : Nat) : List Nat := [pml4Index va, pdptIndex va, pdIndex va]

theorem path4_eq (va : Nat) : path4 va = path3 va ++ [ptIndex va] := rfl

/-- The words of the tables below `pgd` that the walk of `va` reads. -/
def hwReads (mem : Nat → Pte) (pgd va : Nat) : List Nat :=
  let pml4e := mem (512 * pgd + pml4Index va)
  if ¬ CanonicalAddr va ∨ pteIsValid pml4e = false then []
  else
    let w₃ := 512 * ptePfn pml4e + pdptIndex va
    w₃ ::
      if pteIsValid (mem w₃) = false ∨ pteIsHuge (mem w₃) = true then []
      else
        let w₂ := 512 * ptePfn (mem w₃) + pdIndex va
        w₂ ::
          if pteIsValid (mem w₂) = false ∨ pteIsHuge (mem w₂) = true then []
          else [512 * ptePfn (mem w₂) + ptIndex va]

theorem hwWalk_congr {mem mem' : Nat → Pte} {pgd pgd' va : Nat}
    (hroot : CanonicalAddr va →
      mem' (512 * pgd' + pml4Index va) = mem (512 * pgd + pml4Index va))
    (hreads : ∀ w ∈ hwReads mem pgd va, mem' w = mem w) :
    hwWalk mem' pgd' va = hwWalk mem pgd va ∧ hwReads mem' pgd' va = hwReads mem pgd va := by
  unfold hwWalk
  unfold hwReads at hreads ⊢
  by_cases hcanon : CanonicalAddr va
  swap
  · simp [hcanon]
  simp only [hroot hcanon]
  by_cases h4 : pteIsValid (mem (512 * pgd + pml4Index va)) = false
  · simp [h4]
  simp only [hcanon, not_true_eq_false, false_or, if_neg h4, if_false] at hreads ⊢
  generalize hw3 : 512 * ptePfn (mem (512 * pgd + pml4Index va)) + pdptIndex va = w3 at hreads ⊢
  have hm3 := hreads w3 mem_cons_self
  simp only [hm3]
  by_cases h3 : pteIsValid (mem w3) = false ∨ pteIsHuge (mem w3) = true
  · rcases h3 with h3 | h3 <;> simp [h3]
  simp only [if_neg h3] at hreads ⊢
  rw [not_or] at h3
  simp only [if_neg h3.1, if_neg h3.2]
  generalize hw2 : 512 * ptePfn (mem w3) + pdIndex va = w2 at hreads ⊢
  have hm2 := hreads w2 (mem_cons_of_mem _ mem_cons_self)
  simp only [hm2]
  by_cases h2 : pteIsValid (mem w2) = false ∨ pteIsHuge (mem w2) = true
  · rcases h2 with h2 | h2 <;> simp [h2]
  simp only [if_neg h2] at hreads ⊢
  rw [not_or] at h2
  have hm1 := hreads (512 * ptePfn (mem w2) + ptIndex va) (by simp)
  simp only [if_neg h2.1, if_neg h2.2, hm1, and_self]

theorem hwWalk_of_root_missing {mem : Nat → Pte} {pgd va : Nat}
    (h : pteIsValid (mem (512 * pgd + pml4Index va)) = false) : hwWalk mem pgd va = none := by
  simp [hwWalk, h]

/-! ## Paths of the lower half -/

section Lower

variable {mem mem' : Nat → Pte} {root va f g i : Nat} {p q : List Nat}

theorem pml4Index_lt (va : Nat) : pml4Index va < 512 := Nat.mod_lt _ (by decide)
theorem pdptIndex_lt (va : Nat) : pdptIndex va < 512 := Nat.mod_lt _ (by decide)
theorem pdIndex_lt (va : Nat) : pdIndex va < 512 := Nat.mod_lt _ (by decide)
theorem ptIndex_lt (va : Nat) : ptIndex va < 512 := Nat.mod_lt _ (by decide)

theorem pml4Index_lt_of_user (h : va < 2 ^ 47) : pml4Index va < 256 := by
  unfold pml4Index
  omega

theorem page_eq_of_path4 {va va' : Nat} (h : va < 2 ^ 47) (h' : va' < 2 ^ 47)
    (hp : path4 va = path4 va') : va / pageSize = va' / pageSize := by
  simp only [path4, List.cons.injEq, pml4Index, pdptIndex, pdIndex, ptIndex, and_true] at hp
  simp only [pageSize]
  omega

theorem path4_page {va va' : Nat} (h : va / pageSize = va' / pageSize) : path4 va = path4 va' := by
  have h4 : ∀ v, v / 2 ^ 39 = v / pageSize / 2 ^ 27 := fun v => by
    rw [Nat.div_div_eq_div_mul]
    rfl
  have h3 : ∀ v, v / 2 ^ 30 = v / pageSize / 2 ^ 18 := fun v => by
    rw [Nat.div_div_eq_div_mul]
    rfl
  have h2 : ∀ v, v / 2 ^ 21 = v / pageSize / 2 ^ 9 := fun v => by
    rw [Nat.div_div_eq_div_mul]
    rfl
  have h1 : ∀ v, v / 2 ^ 12 = v / pageSize := fun v => rfl
  simp only [path4, pml4Index, pdptIndex, pdIndex, ptIndex, h4, h3, h2, h1, h]

theorem tableNext_eq (hi : i < 512) (hroot : f = root → i < 256) :
    tableNext mem root f i = if pteIsValid (mem (512 * f + i)) = true then
      some (ptePfn (mem (512 * f + i))) else none := by
  unfold tableNext
  have hlow : ¬ (f = root ∧ 256 ≤ i) := fun h => Nat.not_lt.mpr h.2 (hroot h.1)
  simp only [hi, hlow, not_false_eq_true, true_and]

theorem tableNext_eq_some (h : tableNext mem root f i = some g) :
    i < 512 ∧ (f = root → i < 256) ∧ pteIsValid (mem (512 * f + i)) = true ∧
      g = ptePfn (mem (512 * f + i)) := by
  unfold tableNext at h
  split_ifs at h with hc
  obtain ⟨hi, hlow, hv⟩ := hc
  exact ⟨hi, fun he => by by_contra hge; exact hlow ⟨he, by omega⟩, hv, (some_inj.mp h).symm⟩

theorem entry_inj {i j : Nat} (hi : i < 512) (hj : j < 512) (h : 512 * f + i = 512 * g + j) :
    f = g ∧ i = j := by
  omega

/-- The shape of the tables that the code builds: no entry below the root is a huge
page, and only the empty path leads back to the root. -/
structure Shape (mem : Nat → Pte) (root : Nat) : Prop where
  tree : TreeLike (tableNext mem root) root 3
  small : ∀ p g i, p ≠ [] → p.length ≤ 3 → reach mem root p = some g → i < 512 →
    pteIsHuge (mem (512 * g + i)) = false

variable (h : Shape mem root)
include h

theorem Shape.ne_root (hp : p ≠ []) (hlen : p.length ≤ 3) (hr : reach mem root p = some f) :
    f ≠ root := by
  rintro rfl
  exact hp (h.tree p [] f hlen (Nat.zero_le _) hr rfl)

theorem Shape.reach_concat (hr : reach mem root p = some g) (hp : p ≠ []) (hlen : p.length ≤ 3)
    (hi : i < 512) : reach mem root (p ++ [i]) =
      if pteIsValid (mem (512 * g + i)) = true then some (ptePfn (mem (512 * g + i)))
        else none := by
  unfold reach at hr ⊢
  rw [follow_concat, hr, bind_some, tableNext_eq hi fun he => absurd he (h.ne_root hp hlen hr)]

omit h in
theorem reach_singleton (mem : Nat → Pte) (root : Nat) (hi : i < 256) : reach mem root [i] =
    if pteIsValid (mem (512 * root + i)) = true then some (ptePfn (mem (512 * root + i)))
    else none := by
  have hone := follow_concat (tableNext mem root) root [] i
  rw [nil_append, follow_nil, bind_some, tableNext_eq (by omega) fun _ => hi] at hone
  exact hone

theorem Shape.hwWalk_paddr (hva : va < 2 ^ 47) : (hwWalk mem root va).map (·.paddr) =
    (reach mem root (path4 va)).map fun f => f * 4096 + va % 4096 := by
  have hcanon : ¬ ¬ CanonicalAddr va := not_not.mpr (.inl hva)
  have hr4 := reach_singleton mem root (pml4Index_lt_of_user hva)
  have hnone : ∀ p q : List Nat, reach mem root p = none → reach mem root (p ++ q) = none := by
    intro p q hp
    unfold reach at hp ⊢
    rw [follow_append, hp]
    rfl
  simp only [hwWalk, if_neg hcanon]
  by_cases h4 : pteIsValid (mem (512 * root + pml4Index va)) = true
  swap
  · rw [if_neg h4] at hr4
    rw [show path4 va = [pml4Index va] ++ [pdptIndex va, pdIndex va, ptIndex va] from rfl,
      hnone _ _ hr4]
    simp [h4]
  rw [if_pos h4] at hr4
  simp only [h4, Bool.true_eq_false, if_false]
  generalize ptePfn (mem (512 * root + pml4Index va)) = f3 at hr4 ⊢
  have hr3 := h.reach_concat hr4 (by simp) (by simp) (pdptIndex_lt va)
  have hs3 := h.small _ f3 (pdptIndex va) (by simp) (by simp) hr4 (pdptIndex_lt va)
  by_cases h3 : pteIsValid (mem (512 * f3 + pdptIndex va)) = true
  swap
  · rw [if_neg h3] at hr3
    rw [show path4 va = ([pml4Index va] ++ [pdptIndex va]) ++ [pdIndex va, ptIndex va] from rfl,
      hnone _ _ hr3]
    simp [h3]
  rw [if_pos h3] at hr3
  simp only [h3, hs3, Bool.true_eq_false, Bool.false_eq_true, if_false]
  generalize ptePfn (mem (512 * f3 + pdptIndex va)) = f2 at hr3 ⊢
  have hr2 := h.reach_concat hr3 (by simp) (by simp) (pdIndex_lt va)
  have hs2 := h.small _ f2 (pdIndex va) (by simp) (by simp) hr3 (pdIndex_lt va)
  by_cases h2 : pteIsValid (mem (512 * f2 + pdIndex va)) = true
  swap
  · rw [if_neg h2] at hr2
    rw [show path4 va = ([pml4Index va] ++ [pdptIndex va] ++ [pdIndex va]) ++ [ptIndex va] from rfl,
      hnone _ _ hr2]
    simp [h2]
  rw [if_pos h2] at hr2
  simp only [h2, hs2, Bool.true_eq_false, Bool.false_eq_true, if_false]
  generalize ptePfn (mem (512 * f2 + pdIndex va)) = f1 at hr2 ⊢
  have hr1 := h.reach_concat hr2 (by simp) (by simp) (ptIndex_lt va)
  rw [show path4 va = [pml4Index va] ++ [pdptIndex va] ++ [pdIndex va] ++ [ptIndex va] from rfl,
    hr1]
  by_cases h1 : pteIsValid (mem (512 * f1 + ptIndex va)) = true
  · simp [h1, translation]
  · simp [h1]

theorem Shape.mem_hwReads (hva : va < 2 ^ 47) {w : Nat} (hw : w ∈ hwReads mem root va) :
    ∃ q i g, q ++ [i] <+: path4 va ∧ q.length ≤ 3 ∧ i < 512 ∧ reach mem root q = some g ∧
      w = 512 * g + i := by
  have hr4 := reach_singleton mem root (pml4Index_lt_of_user hva)
  have hcanon : CanonicalAddr va := .inl hva
  unfold hwReads at hw
  by_cases h4 : pteIsValid (mem (512 * root + pml4Index va)) = false
  · simp [h4] at hw
  simp only [hcanon, not_true_eq_false, false_or, if_neg h4] at hw
  rw [if_pos (by simpa using h4)] at hr4
  generalize ptePfn (mem (512 * root + pml4Index va)) = f3 at hr4 hw
  rcases mem_cons.mp hw with rfl | hw
  · exact ⟨_, _, f3, ⟨[pdIndex va, ptIndex va], rfl⟩, by simp, pdptIndex_lt va, hr4, rfl⟩
  have hr3 := h.reach_concat hr4 (by simp) (by simp) (pdptIndex_lt va)
  by_cases h3 : pteIsValid (mem (512 * f3 + pdptIndex va)) = false ∨
      pteIsHuge (mem (512 * f3 + pdptIndex va)) = true
  · simp only [if_pos h3, not_mem_nil] at hw
  simp only [if_neg h3] at hw
  rw [not_or] at h3
  rw [if_pos (by simpa using h3.1)] at hr3
  generalize ptePfn (mem (512 * f3 + pdptIndex va)) = f2 at hr3 hw
  rcases mem_cons.mp hw with rfl | hw
  · exact ⟨_, _, f2, ⟨[ptIndex va], rfl⟩, by simp, pdIndex_lt va, hr3, rfl⟩
  have hr2 := h.reach_concat hr3 (by simp) (by simp) (pdIndex_lt va)
  by_cases h2 : pteIsValid (mem (512 * f2 + pdIndex va)) = false ∨
      pteIsHuge (mem (512 * f2 + pdIndex va)) = true
  · simp only [if_pos h2, not_mem_nil] at hw
  simp only [if_neg h2] at hw
  rw [not_or] at h2
  rw [if_pos (by simpa using h2.1)] at hr2
  exact ⟨_, _, _, prefix_rfl, by simp, ptIndex_lt va, hr2, mem_singleton.mp hw⟩

/-! ## Rights -/

omit h in
/-- The entries above the page table of an address, each by the path to its table. -/
def upperSlots (va : Nat) : List (List Nat × Nat) :=
  [([], pml4Index va), ([pml4Index va], pdptIndex va), ([pml4Index va, pdptIndex va], pdIndex va)]

omit h in
/-- The values of those that are present. -/
def upperEntries (mem : Nat → Pte) (root va : Nat) : List Pte :=
  (upperSlots va).filterMap fun slot => (reach mem root slot.1).bind fun g =>
    let e := mem (512 * g + slot.2)
    if pteIsValid e = true then some e else none

omit h in
theorem mem_upperEntries {e : Pte} : e ∈ upperEntries mem root va ↔
    ∃ slot ∈ upperSlots va, ∃ g, reach mem root slot.1 = some g ∧
      pteIsValid (mem (512 * g + slot.2)) = true ∧ mem (512 * g + slot.2) = e := by
  simp only [upperEntries, mem_filterMap, bind_eq_some_iff, ite_none_right_eq_some, some.injEq]

omit h in
theorem upperSlots_spec {slot : List Nat × Nat} (hs : slot ∈ upperSlots va) :
    slot.1.length ≤ 2 ∧ slot.2 < 512 := by
  simp only [upperSlots, mem_cons, not_mem_nil, or_false] at hs
  rcases hs with rfl | rfl | rfl
  · exact ⟨by simp, pml4Index_lt va⟩
  · exact ⟨by simp, pdptIndex_lt va⟩
  · exact ⟨by simp, pdIndex_lt va⟩

theorem Shape.hwWalk_eq_some (hva : va < 2 ^ 47) {f1 : Nat}
    (h1 : reach mem root (path3 va) = some f1)
    (hpage : pteIsValid (mem (512 * f1 + ptIndex va)) = true) :
    hwWalk mem root va = some (translation
      (ptePfn (mem (512 * f1 + ptIndex va)) * 4096 + va % 4096)
      (upperEntries mem root va ++ [mem (512 * f1 + ptIndex va)])) := by
  have hcanon : ¬ ¬ CanonicalAddr va := not_not.mpr (.inl hva)
  obtain ⟨f2, h2, -⟩ := follow_concat_eq_some.mp
    (show follow _ root ([pml4Index va, pdptIndex va] ++ [pdIndex va]) = some f1 from h1)
  obtain ⟨f3, h3, -⟩ := follow_concat_eq_some.mp
    (show follow _ root ([pml4Index va] ++ [pdptIndex va]) = some f2 from h2)
  rw [← reach] at h2 h3
  have e4 := reach_singleton mem root (pml4Index_lt_of_user hva)
  have e3 := h.reach_concat h3 (by simp) (by simp) (pdptIndex_lt va)
  have e2 := h.reach_concat h2 (by simp) (by simp) (pdIndex_lt va)
  have s3 := h.small _ f3 (pdptIndex va) (by simp) (by simp) h3 (pdptIndex_lt va)
  have s2 := h.small _ f2 (pdIndex va) (by simp) (by simp) h2 (pdIndex_lt va)
  rw [h3] at e4
  rw [show [pml4Index va] ++ [pdptIndex va] = [pml4Index va, pdptIndex va] from rfl, h2] at e3
  rw [show [pml4Index va, pdptIndex va] ++ [pdIndex va] = path3 va from rfl, h1] at e2
  split_ifs at e4 e3 e2 with v4 v3 v2
  have hnil : reach mem root [] = some root := rfl
  have hupper : upperEntries mem root va = [mem (512 * root + pml4Index va),
      mem (512 * f3 + pdptIndex va), mem (512 * f2 + pdIndex va)] := by
    simp [upperEntries, upperSlots, hnil, h3, h2, v4, v3, v2]
  rw [hupper]
  cases e4
  cases e3
  cases e2
  simp only [hwWalk, if_neg hcanon, v4, v3, v2, s3, s2, hpage, Bool.true_eq_false,
    Bool.false_eq_true, if_false, cons_append, nil_append]

end Lower

end ShiziOS.Mm
