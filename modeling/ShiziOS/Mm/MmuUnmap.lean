import ShiziOS.Mm.MmuSpace

/-!
# Removing a mapping

`mmu_remove_map` walks over the recorded tables of a mapping; for each record it clears
the entry above the table and drops one reference. The entry is cleared also when other
records of the table remain, so the whole part of the tree below the entries of the
root that lead to the mapping is lost at once.
-/

namespace ShiziOS.Mm

open Radix Machine List Option Function

variable {H : PageHeap} {m m' m1 : Machine H} {root f : Nat} {kernel : Nat → Prop}
  {recs done blocks q vs : List Nat}

/-- The free lists survive the clears of `mmu_remove_map`: no entry that releasing `blocks`
clears is, by the time it is cleared, part of a list node, or the release that follows writes
it again. -/
def sparesLists (onPtePtr : Nat → Option Nat) : List Nat → H.State → Bool
  | [], _ => true
  | block :: blocks, heap =>
    (onPtePtr block).all (fun pte => H.spares heap block (pte / 512) (pte % 512)) &&
      ((H.free heap block).map (sparesLists onPtePtr blocks)).getD true

/-! ## Releasing the recorded tables -/

/-- `m'` is `m` after the release of the tables `done`, which are one page each. -/
structure Released (m : Machine H) (done : List Nat) (m' : Machine H) : Prop where
  heap : H.Inv m'.heap
  live : ∀ f, H.live m'.heap f = (H.live m.heap f).bind fun b =>
    if b.refs ≤ done.count f then none else some { b with refs := b.refs - done.count f }
  avail : ∀ f, H.avail m'.heap f → H.avail m.heap f ∨ f ∈ done
  mem : ∀ w, (∀ f ∈ done, m.onPtePtr f ≠ some w) → m'.mem w = m.mem w
  cleared : ∀ w, ∀ f ∈ done, m.onPtePtr f = some w → m'.mem w = 0
  onPte : m'.onPtePtr = m.onPtePtr
  kernelPgd : m'.kernelPgd = m.kernelPgd

theorem Released.refl (hinv : H.Inv m.heap) : Released m [] m := by
  refine ⟨hinv, fun f => ?_, fun f hf => .inl hf, fun _ _ => rfl, by simp, rfl, rfl⟩
  rcases hl : H.live m.heap f with _ | b
  · rfl
  · obtain ⟨-, -, hpos, -⟩ := H.live_range hinv hl
    rw [bind_some, count_nil, if_neg (by omega), Nat.sub_zero]

theorem Released.releaseBlock {n w : Nat} (h : Released m done m1)
    (hlive : H.live m.heap f = some ⟨1, n⟩) (hcount : done.count f < n)
    (hon : m.onPtePtr f = some w) (hspared : H.spares m1.heap f (w / 512) (w % 512) = true) :
    ∃ heap', H.free m1.heap f = some heap' ∧
      m1.releaseBlock f = some { m1 with mem := update m1.mem w 0, heap := heap' } ∧
      Released m (done ++ [f]) { m1 with mem := update m1.mem w 0, heap := heap' } := by
  have hlive1 : H.live m1.heap f = some ⟨1, n - done.count f⟩ := by
    rw [h.live, hlive, bind_some, if_neg (by simpa using hcount)]
  obtain ⟨h0, -, -, -⟩ := H.live_range h.heap hlive1
  obtain ⟨heap', hfree, hinv, hl, hav⟩ := H.free_live h.heap hlive1
  refine ⟨heap', hfree, ?_, hinv, fun x => ?_, fun x hx => ?_, fun v hv => ?_, fun v x hx hxv => ?_,
    h.onPte, h.kernelPgd⟩
  · simp only [Machine.releaseBlock, if_neg h0, h.onPte, hon, hspared, if_true, mmuClearPte,
      kheapFree, hfree, map_some]
  · rw [hl]
    by_cases hxf : x = f
    · subst hxf
      rw [update_self, hlive, bind_some, count_append, count_singleton_self]
      dsimp only
      split_ifs <;> first | rfl | omega
    · rw [update_of_ne hxf, h.live, count_append,
        count_cons_of_ne (Ne.symm hxf), count_nil, Nat.add_zero]
  · rcases hav x hx with hx | ⟨-, hlo, hhi⟩
    · exact (h.avail x hx).imp_right (mem_append_left _)
    · exact .inr (mem_append_right _ (mem_singleton.mpr (by dsimp only at hhi; omega)))
  · have hvw : v ≠ w := fun he => hv f (by simp) (he ▸ hon)
    exact (update_of_ne hvw _ _).trans
      (h.mem v fun x hx => hv x (mem_append_left _ hx))
  · by_cases hvw : v = w
    · rw [hvw]
      exact update_self ..
    · refine (update_of_ne hvw _ _).trans ?_
      rcases mem_append.mp hx with hx | hx
      · exact h.cleared v x hx hxv
      · rw [mem_singleton.mp hx, hon] at hxv
        exact absurd (some_inj.mp hxv).symm hvw

/-- The loop over the records comes to its end when the free lists survive its clears. -/
theorem Released.releaseBlocks (h : Released m done m1)
    (hlive : ∀ f ∈ blocks, ∃ n w, H.live m.heap f = some ⟨1, n⟩ ∧ (done ++ blocks).count f ≤ n ∧
      m.onPtePtr f = some w) :
    (sparesLists m.onPtePtr blocks m1.heap = true ∧
      ∃ m2, m1.releaseBlocks blocks = some m2 ∧ Released m (done ++ blocks) m2) ∨
    (sparesLists m.onPtePtr blocks m1.heap = false ∧ m1.releaseBlocks blocks = none) := by
  induction blocks generalizing done m1 with
  | nil =>
    rw [append_nil]
    exact .inl ⟨rfl, m1, rfl, h⟩
  | cons f blocks ih =>
    obtain ⟨n, w, hf, hcount, hon⟩ := hlive f mem_cons_self
    rw [count_append, count_cons_self] at hcount
    simp only [sparesLists, hon, all_some]
    cases hspared : H.spares m1.heap f (w / 512) (w % 512) with
    | false =>
      right
      obtain ⟨h0, -⟩ := H.live_range (s := m1.heap) h.heap (p := f) (b := ⟨1, n - done.count f⟩) (by
        rw [h.live, hf, bind_some, if_neg (by dsimp only; omega)])
      refine ⟨rfl, ?_⟩
      simp only [Machine.releaseBlocks, foldlM_cons, Machine.releaseBlock, if_neg h0, h.onPte, hon,
        hspared, Bool.false_eq_true, if_false, bind_none, bind_eq_bind]
    | true =>
      obtain ⟨heap', hfree, hrel, hdone⟩ := h.releaseBlock hf (by omega) hon hspared
      simp only [hfree, map_some, getD_some, Bool.true_and]
      have hstep : m1.releaseBlocks (f :: blocks) =
          ({ m1 with mem := update m1.mem w 0, heap := heap' } : Machine H).releaseBlocks
            blocks := by
        simp only [Machine.releaseBlocks, foldlM_cons, hrel, bind_eq_bind, bind_some]
      rw [hstep, show done ++ f :: blocks = (done ++ [f]) ++ blocks by simp]
      refine ih hdone fun x hx => ?_
      obtain ⟨n', w', hx', hcount', hon'⟩ := hlive x (mem_cons_of_mem _ hx)
      exact ⟨n', w', hx', by simpa using hcount', hon'⟩

/-! ## The tables afterwards -/

/-- The entry `a` of the root leads to one of the pages. -/
def Lost (vs : List Nat) (a : Nat) : Prop := ∃ v ∈ vs, pml4Index v = a

theorem Records.exists_page {onPtePtr : Nat → Option Nat} (h : Records onPtePtr root vs blocks)
    (hf : f ∈ blocks) : ∃ v ∈ vs, ∃ f3 f2 f1, PageRec onPtePtr root v f3 f2 f1 ∧
      f3 ∈ blocks ∧ f2 ∈ blocks ∧ (f = f3 ∨ f = f2 ∨ f = f1) := by
  induction h with
  | nil => cases hf
  | @cons v f3 f2 f1 vs blocks hpage _ ih =>
    by_cases hrest : f ∈ blocks
    · obtain ⟨u, hu, g3, g2, g1, hrec, h3, h2, hf⟩ := ih hrest
      exact ⟨u, mem_cons_of_mem _ hu, g3, g2, g1, hrec, by simp [h3], by simp [h2], hf⟩
    · refine ⟨v, mem_cons_self, f3, f2, f1, hpage, by simp, by simp, ?_⟩
      simp only [mem_cons, hrest, or_false] at hf
      exact hf

theorem Records.exists_top {onPtePtr : Nat → Option Nat} (h : Records onPtePtr root vs blocks)
    {v : Nat} (hv : v ∈ vs) : ∃ f ∈ blocks, onPtePtr f = some (512 * root + pml4Index v) := by
  induction h with
  | nil => cases hv
  | @cons u f3 f2 f1 vs blocks hpage _ ih =>
    rcases mem_cons.mp hv with rfl | hv
    · exact ⟨f3, mem_cons_self, hpage.top⟩
    · obtain ⟨f, hf, hon⟩ := ih hv
      exact ⟨f, by simp [hf], hon⟩

section Walks

variable (h : TableInv kernel m root recs) (hrec : Records m.onPtePtr root vs blocks)
  (hsub : ∀ f ∈ blocks, f ∈ recs) (hr : Released m blocks m')
include h hrec hsub

theorem recorded_path {p : List Nat} (hf : f ∈ blocks) (hp : p ≠ []) (hlen : p.length ≤ 3)
    (hx : reach m.mem root p = some f) : ∃ a r, p = a :: r ∧ Lost vs a := by
  obtain ⟨v, hv, f3, f2, f1, hpage, h3, h2, hf⟩ := hrec.exists_page hf
  have hne : ∀ x ∈ blocks, x ≠ root := fun x hx he => h.root_not_mem (he ▸ hsub x hx)
  rcases hf with rfl | rfl | rfl
  · exact ⟨_, _, hpage.path_top h hp hlen hx, v, hv, rfl⟩
  · exact ⟨_, _, hpage.path_middle h (hne _ h3) hp hlen hx, v, hv, rfl⟩
  · exact ⟨_, _, hpage.path_bottom h (hne _ h3) (hne _ h2) hp hlen hx, v, hv, rfl⟩

/-- A cleared entry lies in the root or in a recorded table; where that table is part of
the tree, the entry is below a lost entry of the root. -/
theorem released_entry {w : Nat} (hf : f ∈ blocks) (hw : m.onPtePtr f = some w) :
    (w / 512 = root ∨ w / 512 ∈ recs) ∧
      ∀ q j x, q.length ≤ 3 → reach m.mem root q = some x → j < 512 → w = 512 * x + j →
        ∃ a r, q ++ [j] = a :: r ∧ Lost vs a := by
  obtain ⟨v, hv, f3, f2, f1, hpage, h3, h2, hf⟩ := hrec.exists_page hf
  obtain ⟨g, k, hk, rfl, hg⟩ : ∃ g k, k < 512 ∧ 512 * g + k = w ∧
      (g = root ∧ Lost vs k ∨ g ∈ blocks) := by
    rcases hf with rfl | rfl | rfl
    · exact ⟨_, _, pml4Index_lt v, some.inj (hpage.top.symm.trans hw), .inl ⟨rfl, v, hv, rfl⟩⟩
    · exact ⟨_, _, pdptIndex_lt v, some.inj (hpage.middle.symm.trans hw), .inr h3⟩
    · exact ⟨_, _, pdIndex_lt v, some.inj (hpage.bottom.symm.trans hw), .inr h2⟩
  rw [show (512 * g + k) / 512 = g by omega]
  refine ⟨hg.imp And.left (hsub g), fun q j x hlen hx hj he => ?_⟩
  obtain ⟨rfl, rfl⟩ := entry_inj hk hj he
  rcases hg with ⟨rfl, hlost⟩ | hg
  · rw [h.shape.tree q [] g hlen (Nat.zero_le _) hx rfl]
    exact ⟨_, [], rfl, hlost⟩
  · -- the path leads on through a recorded table
    have hne : q ≠ [] := by
      rintro rfl
      exact h.root_not_mem (hsub root (some_inj.mp hx ▸ hg))
    obtain ⟨a, r, rfl, hlost⟩ := recorded_path h hrec hsub hg hne hlen hx
    exact ⟨a, r ++ [k], rfl, hlost⟩

include hr

theorem released_mem {x j : Nat} (hq : q.length ≤ 3) (hx : reach m.mem root q = some x)
    (hj : j < 512) (hkeep : ∀ a r, q ++ [j] = a :: r → ¬ Lost vs a) :
    m'.mem (512 * x + j) = m.mem (512 * x + j) := by
  refine hr.mem _ fun f hf hw => ?_
  obtain ⟨a, r, he, hlost⟩ := (released_entry h hrec hsub hf hw).2 q j x hq hx hj rfl
  exact hkeep a r he hlost

theorem released_mem_kernel {w : Nat} (hw : kernel (w / 512)) : m'.mem w = m.mem w := by
  refine hr.mem w fun f hf hon => ?_
  rcases (released_entry h hrec hsub hf hon).1 with he | he
  · exact h.root_not_kernel (he ▸ hw)
  · exact (h.live _ he).2 hw

omit h hsub in
theorem released_walk_lost {va : Nat} (hlost : Lost vs (pml4Index va)) :
    hwWalk m'.mem root va = none := by
  obtain ⟨v, hv, he⟩ := hlost
  obtain ⟨f, hf, hon⟩ := hrec.exists_top hv
  rw [he] at hon
  exact hwWalk_of_root_missing (by rw [hr.cleared _ f hf hon]; exact pteIsValid_zero)

theorem released_walk_kept {va : Nat} (hvs : ∀ v ∈ vs, v < 2 ^ 47)
    (hkeep : va < 2 ^ 47 → ¬ Lost vs (pml4Index va)) :
    hwWalk m'.mem root va = hwWalk m.mem root va ∧
      hwReads m'.mem root va = hwReads m.mem root va := by
  refine h.hwWalk_eq_of_reads (fun huser q j x hpre hq hj hx => ?_) (fun j hlo hj => ?_)
    fun w hw => released_mem_kernel h hrec hsub hr hw
  · refine released_mem h hrec hsub hr hq hx hj fun a r he => ?_
    rw [he] at hpre
    obtain rfl : a = pml4Index va := (cons_prefix_cons.mp hpre).1
    exact hkeep huser
  · refine released_mem h hrec hsub hr (q := []) (Nat.zero_le _) rfl hj fun a r he => ?_
    rintro ⟨v, hv, rfl⟩
    obtain rfl : j = pml4Index v := (List.cons.inj he).1
    have := pml4Index_lt_of_user (hvs v hv)
    omega

theorem released_reach {x : Nat} (hq : q.length ≤ 4) (hx : reach m'.mem root q = some x) :
    reach m.mem root q = some x ∧ ∀ a r, q = a :: r → ¬ Lost vs a := by
  have hkeep : ∀ a r, q = a :: r → ¬ Lost vs a := by
    rintro a r rfl ⟨v, hv, rfl⟩
    obtain ⟨f, hf, hon⟩ := hrec.exists_top hv
    have hnext : tableNext m'.mem root root (pml4Index v) = none := by
      simp [tableNext, hr.cleared _ f hf hon]
    unfold reach at hx
    rw [follow_cons, hnext] at hx
    cases hx
  refine ⟨?_, hkeep⟩
  rw [← hx]
  refine (follow_congr fun p j r y he hy => ?_).symm
  have hlen := congrArg List.length he
  simp only [length_cons, length_append] at hlen
  unfold tableNext
  by_cases hj : j < 512
  · rw [released_mem h hrec hsub hr (by omega) hy hj fun a s hpj => ?_]
    refine hkeep a (s ++ r) ?_
    rw [← cons_append, ← hpj, he, append_assoc, singleton_append]
  · simp [hj]

theorem released_inv (hvs : ∀ v ∈ vs, v < 2 ^ 47) {rest : List Nat}
    (hperm : recs.Perm (blocks ++ rest)) : TableInv kernel m' root rest := by
  have hcount : ∀ f, recs.count f = blocks.count f + rest.count f := fun f => by
    rw [hperm.count_eq, count_append]
  have hroot : root ∉ blocks := fun hb => h.root_not_mem (hsub root hb)
  have hreach := fun {q x} => released_reach (q := q) (x := x) h hrec hsub hr
  refine ⟨hr.heap, ?_, fun hb => h.root_not_mem (hperm.mem_iff.mpr (mem_append_right _ hb)),
    h.root_not_kernel, ⟨fun p q f hp hq hf hf' => ?_, fun p g i hp hlen hg hi => ?_⟩,
    fun f hf => ?_, fun f hf => ?_, fun p i g f hp hg hf => ?_, fun f hf hav => ?_,
    fun va hva w hw => ?_⟩
  · rw [hr.live, h.root_live, bind_some, count_eq_zero_of_not_mem hroot]
    rfl
  · exact h.shape.tree p q f hp hq (hreach (by omega) hf).1 (hreach (by omega) hf').1
  · obtain ⟨hg', hkeep⟩ := hreach (by omega) hg
    rw [released_mem h hrec hsub hr hlen hg' hi fun a r he => ?_]
    · exact h.shape.small p g i hp hlen hg' hi
    · obtain ⟨b, s, rfl⟩ := exists_cons_of_ne_nil hp
      exact hkeep a s (by rw [(List.cons.inj he).1])
  · obtain ⟨p, hp, hlen, hf⟩ := hf
    obtain ⟨hf', hkeep⟩ := hreach (by omega) hf
    rcases mem_append.mp (hperm.mem_iff.mp (h.recorded f ⟨p, hp, hlen, hf'⟩)) with hb | hb
    · obtain ⟨a, r, he, hlost⟩ := recorded_path h hrec hsub hb hp hlen hf'
      exact absurd hlost (hkeep a r he)
    · exact hb
  · obtain ⟨hl, hker⟩ := h.live f (hperm.mem_iff.mpr (mem_append_right _ hf))
    have hpos := count_pos_iff.mpr hf
    refine ⟨?_, hker⟩
    rw [hr.live, hl, bind_some, hcount, if_neg (by dsimp only; omega), Nat.add_sub_cancel_left]
  · rw [hr.onPte]
    exact h.parent p i g f hp (hreach (by omega) hg).1 (hreach (by simp; omega) hf).1
  · rcases hr.avail f hav with hav | hb
    · exact h.kernel_used f hf hav
    · exact (h.live f (hsub f hb)).2 hf
  · rw [(released_walk_kept h hrec hsub hr hvs fun huser => by omega).2] at hw
    exact h.kernel_reads va hva w hw

end Walks

/-! ## The call -/

namespace Tables

variable {s : Tables H} {M : Mapping} {l1 l2 : List Mapping}

theorem Inv.page_lt (h : Inv kernel s) (hM : M ∈ s.maps) : ∀ v ∈ M.pageList, v < 2 ^ 47 := by
  intro v hv
  have hfits := (h.fits M hM).1
  simp only [MapRequest.pageList, pagesFrom, List.mem_map, List.mem_range'_1] at hv
  obtain ⟨k, hk, rfl⟩ := hv
  simp only [pageSize] at hfits ⊢
  omega

theorem Inv.block_live (h : Inv kernel s) (hmaps : s.maps = l1 ++ M :: l2) :
    ∀ f ∈ M.ptb.blocks, ∃ n w, H.live s.machine.heap f = some ⟨1, n⟩ ∧ M.ptb.blocks.count f ≤ n ∧
      s.machine.onPtePtr f = some w := by
  intro f hf
  have hM : M ∈ s.maps := by simp [hmaps]
  have hrec : f ∈ recs s.maps := mem_flatMap.mpr ⟨M, hM, hf⟩
  obtain ⟨v, -, f3, f2, f1, hpage, -, -, hcase⟩ := (h.records M hM).exists_page hf
  have hon : ∃ w, s.machine.onPtePtr f = some w := by
    rcases hcase with rfl | rfl | rfl
    · exact ⟨_, hpage.top⟩
    · exact ⟨_, hpage.middle⟩
    · exact ⟨_, hpage.bottom⟩
  obtain ⟨w, hw⟩ := hon
  refine ⟨_, w, (h.inv.live f hrec).1, ?_, hw⟩
  rw [hmaps, recs_append, count_append, recs, recs, flatMap_cons, count_append]
  omega

theorem lost_of_covers {r : MapRequest} {va : Nat} (hcov : r.Covers va) :
    Lost r.pageList (pml4Index va) := by
  obtain ⟨v, hv, he⟩ := (r.covers_iff va).mp hcov
  exact ⟨v, hv, (List.cons.inj (path4_page he.symm)).1⟩

/-- `mmu_remove_map` of a mapping. When the free lists survive it, every user page below a lost
entry of the root is untranslated, every other page is translated as before, and the remaining
records agree with the tables. -/
theorem Inv.mmuRemoveMap (h : Inv kernel s) (hmaps : s.maps = l1 ++ M :: l2) :
    (sparesLists s.machine.onPtePtr M.ptb.blocks s.machine.heap = true ∧
      ∃ m', s.machine.mmuRemoveMap M.ptb = some (.ok (), m') ∧
        Inv kernel ⟨m', s.pgd, l1 ++ l2⟩ ∧
        (∀ va, Lost M.pageList (pml4Index va) → hwWalk m'.mem s.pgd va = none) ∧
        (∀ va, (va < 2 ^ 47 → ¬ Lost M.pageList (pml4Index va)) →
          hwWalk m'.mem s.pgd va = hwWalk s.machine.mem s.pgd va) ∧
        ∃ m1, Released s.machine M.ptb.blocks m1 ∧ TableInv kernel m1 s.pgd
          (Tables.recs (l1 ++ l2)) ∧
          m1.kheapFree M.ptb.array = some m') ∨
    (sparesLists s.machine.onPtePtr M.ptb.blocks s.machine.heap = false ∧
      s.machine.mmuRemoveMap M.ptb = none) := by
  have hM : M ∈ s.maps := by simp [hmaps]
  have harray : M.ptb.array ∈ s.maps.map (·.ptb.array) := mem_map.mpr ⟨M, hM, rfl⟩
  obtain ⟨n, hn, hker⟩ := h.arrays.live _ harray
  obtain ⟨h0, -, -, -⟩ := H.live_range h.inv.heap hn
  rcases (Released.refl h.inv.heap).releaseBlocks (h.block_live hmaps) with
    ⟨hmiss, m1, hrel, hr⟩ | ⟨hhit, hrel⟩
  swap
  · refine .inr ⟨hhit, ?_⟩
    simp only [Machine.mmuRemoveMap, if_neg h0, hrel, bind_eq_bind, bind_none]
  rw [nil_append] at hr
  have hsub : ∀ f ∈ M.ptb.blocks, f ∈ recs s.maps := fun f hf => mem_flatMap.mpr ⟨M, hM, hf⟩
  have hperm : (recs s.maps).Perm (M.ptb.blocks ++ recs (l1 ++ l2)) := by
    rw [hmaps, recs_append, recs_append]
    exact perm_append_comm_assoc ..
  have hinv := released_inv h.inv (h.records M hM) hsub hr (h.page_lt hM) hperm
  obtain ⟨hroot, hnot⟩ := h.arrays.not_table _ harray
  have hfree := hinv.keeps_kheapFree (a := M.ptb.array) (n := n) ?_ hroot
    (fun hmem => hnot (hperm.mem_iff.mpr (mem_append_right _ hmem))) hker
  swap
  · rw [hr.live, hn, bind_some, count_eq_zero_of_not_mem fun hmem => hnot (hsub _ hmem)]
    rfl
  obtain ⟨m', hcall, hk, hmem, hon, hlive, -⟩ := hfree
  have hkept : ∀ va, (va < 2 ^ 47 → ¬ Lost M.pageList (pml4Index va)) →
      hwWalk m'.mem s.pgd va = hwWalk s.machine.mem s.pgd va := fun va hva => by
    rw [hmem]
    exact (released_walk_kept h.inv (h.records M hM) hsub hr (h.page_lt hM) hva).1
  have hlost : ∀ va, Lost M.pageList (pml4Index va) → hwWalk m'.mem s.pgd va = none :=
    fun va hva => by
      rw [hmem]
      exact released_walk_lost (h.records M hM) hr hva
  have hothers : ∀ N ∈ l1 ++ l2, N ∈ s.maps := fun N hN => by
    rw [hmaps]
    simp only [mem_append, mem_cons] at hN ⊢
    tauto
  refine .inl ⟨hmiss, m', ?_, ⟨hk.inv hinv, fun N hN => h.fits N (hothers N hN), fun N hN => ?_,
    fun va t hva ht => ?_, ?_⟩, hlost, hkept, m1, hr, hinv, hcall⟩
  · simp only [Machine.mmuRemoveMap, if_neg h0, hrel, bind_eq_bind, bind_some, hcall]
  · rw [hon, hr.onPte]
    exact h.records N (hothers N hN)
  · have hva' : ¬ Lost M.pageList (pml4Index va) := fun hl => by
      rw [hlost va hl] at ht
      cases ht
    rw [hkept va fun _ => hva'] at ht
    obtain ⟨N, hN, hcase⟩ := h.walk va t hva ht
    refine ⟨N, ?_, hcase⟩
    rw [hmaps, mem_append, mem_cons] at hN
    rcases hN with hN | rfl | hN
    · exact mem_append_left _ hN
    · exact absurd (lost_of_covers ⟨_, hcase.choose_spec.1, hcase.choose_spec.2.1⟩) hva'
    · exact mem_append_right _ hN
  · have hnodup := h.arrays.nodup
    rw [hmaps, map_append, map_cons, nodup_middle] at hnodup
    rw [← map_append] at hnodup
    obtain ⟨hne, hrest⟩ := nodup_cons.mp hnodup
    have hmem' : ∀ a ∈ (l1 ++ l2).map (·.ptb.array), a ∈ s.maps.map (·.ptb.array) := fun a ha => by
      obtain ⟨N, hN, rfl⟩ := mem_map.mp ha
      exact mem_map.mpr ⟨N, hothers N hN, rfl⟩
    refine ⟨fun a ha => ?_, fun a ha => ?_, hrest⟩
    · obtain ⟨k, hk, hker'⟩ := h.arrays.live a (hmem' a ha)
      have hnot' := (h.arrays.not_table a (hmem' a ha)).2
      have hne' : a ≠ M.ptb.array := by
        rintro rfl
        exact hne ha
      refine ⟨k, ?_, hker'⟩
      rw [hlive, update_of_ne hne', hr.live, hk, bind_some,
        count_eq_zero_of_not_mem fun hb => hnot' (hsub a hb)]
      rfl
    · obtain ⟨hroot', hnot'⟩ := h.arrays.not_table a (hmem' a ha)
      exact ⟨hroot', fun hb => hnot' (hperm.mem_iff.mpr (mem_append_right _ hb))⟩

end Tables

end ShiziOS.Mm
