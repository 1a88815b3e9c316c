import ShiziOS.Mm.HwWalk

/-!
# The invariant of the page tables

`TableInv` describes the tables of one address space between calls: the lower half is
a tree of table pages that are live blocks of the heap, each knows the entry above it,
and the references to each are the times it is recorded. `kernel` are the frames of
the tables that the upper half leads to.
-/

namespace ShiziOS.Mm

open Radix Machine List Option Function Nat

variable {H : PageHeap} {m m' : Machine H} {root f g i va : Nat} {p q recs : List Nat}
  {kernel : Nat → Prop}

def IsTable (mem : Nat → Pte) (root f : Nat) : Prop :=
  ∃ p, p ≠ [] ∧ p.length ≤ 3 ∧ reach mem root p = some f

/-- The tables below `root`, recorded in `recs`. A recorded table may have been cut off
the tree, but every table of the tree is recorded. -/
structure TableInv (kernel : Nat → Prop) (m : Machine H) (root : Nat) (recs : List Nat) :
    Prop where
  heap : H.Inv m.heap
  root_live : H.live m.heap root = some ⟨1, 1⟩
  root_not_mem : root ∉ recs
  root_not_kernel : ¬ kernel root
  shape : Shape m.mem root
  recorded : ∀ f, IsTable m.mem root f → f ∈ recs
  live : ∀ f ∈ recs, H.live m.heap f = some ⟨1, recs.count f⟩ ∧ ¬ kernel f
  parent : ∀ p i g f, p.length ≤ 2 → reach m.mem root p = some g →
    reach m.mem root (p ++ [i]) = some f → m.onPtePtr f = some (512 * g + i)
  kernel_used : ∀ f, kernel f → ¬ H.avail m.heap f
  kernel_reads : ∀ va, 2 ^ 47 ≤ va → ∀ w ∈ hwReads m.mem root va, kernel (w / 512)

section

variable (h : TableInv kernel m root recs)
include h

theorem TableInv.root_ne : root ≠ 0 :=
  (H.live_range h.heap h.root_live).1

theorem TableInv.rec_used (hf : f ∈ recs) : ¬ H.avail m.heap f :=
  H.live_not_avail h.heap (h.live f hf).1 le_rfl (lt_succ_self _)

theorem TableInv.used (hlen : p.length ≤ 3) (hr : reach m.mem root p = some f) :
    ¬ H.avail m.heap f ∧ ¬ kernel f := by
  by_cases hp : p = []
  · subst hp
    cases hr
    exact ⟨H.live_not_avail h.heap h.root_live le_rfl (lt_succ_self _), h.root_not_kernel⟩
  · have hf := h.recorded f ⟨p, hp, hlen, hr⟩
    exact ⟨h.rec_used hf, (h.live f hf).2⟩

theorem TableInv.perm {recs' : List Nat} (hperm : recs.Perm recs') :
    TableInv kernel m root recs' := by
  refine ⟨h.heap, h.root_live, fun hr => h.root_not_mem (hperm.mem_iff.mpr hr), h.root_not_kernel,
    h.shape, fun f hf => hperm.mem_iff.mp (h.recorded f hf), fun f hf => ?_, h.parent,
    h.kernel_used, h.kernel_reads⟩
  rw [← hperm.count_eq f]
  exact h.live f (hperm.mem_iff.mpr hf)

end

variable {mem' : Nat → Pte} {page : Nat}

/-- Walks depend on the entries of their path, and those of the upper half on kernel
frames. -/
theorem TableInv.hwWalk_eq_of_reads (h : TableInv kernel m root recs)
    (hread : va < 2 ^ 47 → ∀ q j x, q ++ [j] <+: path4 va → q.length ≤ 3 → j < 512 →
      reach m.mem root q = some x → mem' (512 * x + j) = m.mem (512 * x + j))
    (hroot : ∀ j, 256 ≤ j → j < 512 → mem' (512 * root + j) = m.mem (512 * root + j))
    (hkernel : ∀ w, kernel (w / 512) → mem' w = m.mem w) :
    hwWalk mem' root va = hwWalk m.mem root va ∧ hwReads mem' root va = hwReads m.mem root va := by
  by_cases huser : va < 2 ^ 47
  · refine hwWalk_congr (fun _ => hread huser [] _ root
      ⟨[pdptIndex va, pdIndex va, ptIndex va], rfl⟩ (zero_le _) (pml4Index_lt va) rfl)
      fun w hw => ?_
    obtain ⟨q, j, x, hpre, hq, hj, hx, rfl⟩ := h.shape.mem_hwReads huser hw
    exact hread huser q j x hpre hq hj hx
  · refine hwWalk_congr (fun hcanon => hroot _ ?_ (pml4Index_lt va)) fun w hw =>
      hkernel w (h.kernel_reads va (not_lt.mp huser) w hw)
    unfold CanonicalAddr at hcanon
    unfold pml4Index
    omega

/-! ## Changes elsewhere -/

/-- `m'` arises from `m` by a change that leaves alone the tables below `root` and those
of the kernel. -/
structure Keeps (kernel : Nat → Prop) (root : Nat) (recs : List Nat) (m m' : Machine H) :
    Prop where
  heap : H.Inv m'.heap
  mem : ∀ q f, q.length ≤ 3 → reach m.mem root q = some f → ∀ j, j < 512 →
    m'.mem (512 * f + j) = m.mem (512 * f + j)
  live : ∀ f, f = root ∨ f ∈ recs → H.live m'.heap f = H.live m.heap f
  onPte : ∀ f ∈ recs, m'.onPtePtr f = m.onPtePtr f
  mem_kernel : ∀ w, kernel (w / 512) → m'.mem w = m.mem w
  kernel_used : ∀ f, kernel f → ¬ H.avail m'.heap f

section

variable (hk : Keeps kernel root recs m m')
include hk

theorem Keeps.reach_eq (hq : q.length ≤ 4) : reach m'.mem root q = reach m.mem root q := by
  refine follow_congr fun r j s x he hx => ?_
  have hlen : r.length ≤ 3 := by
    rw [he, length_append, length_cons] at hq
    omega
  unfold tableNext
  by_cases hj : j < 512
  · rw [hk.mem r x hlen hx j hj]
  · simp [hj]

theorem Keeps.isTable_iff : IsTable m'.mem root f ↔ IsTable m.mem root f :=
  exists_congr fun q => and_congr_right fun _ => and_congr_right fun hlen => by
    rw [hk.reach_eq (by omega)]

theorem Keeps.hwWalk_eq (h : TableInv kernel m root recs) :
    hwWalk m'.mem root va = hwWalk m.mem root va ∧ hwReads m'.mem root va = hwReads m.mem root va :=
  h.hwWalk_eq_of_reads (fun _ q j x _ hq hj hx => hk.mem q x hq hx j hj)
    (fun j _ hj => hk.mem [] root (zero_le _) rfl j hj) hk.mem_kernel

theorem Keeps.inv (h : TableInv kernel m root recs) : TableInv kernel m' root recs := by
  have hreach := fun {q} => hk.reach_eq (q := q)
  refine ⟨hk.heap, (hk.live root (.inl rfl)).trans h.root_live, h.root_not_mem, h.root_not_kernel,
    ⟨fun q r f hq hr hf hf' => ?_, fun q x j hq hlen hx hj => ?_⟩,
    fun f hf => h.recorded f (hk.isTable_iff.mp hf), fun f hf => ?_, fun q j x y hq hx hy => ?_,
    hk.kernel_used, fun va hva w hw => ?_⟩
  · exact h.shape.tree q r f hq hr ((hreach (by omega)).symm.trans hf)
      ((hreach (by omega)).symm.trans hf')
  · rw [hreach (by omega)] at hx
    rw [hk.mem q x hlen hx j hj]
    exact h.shape.small q x j hq hlen hx hj
  · rw [hk.live f (.inr hf)]
    exact h.live f hf
  · rw [hreach (by omega)] at hx
    rw [hreach (by simp; omega)] at hy
    rw [hk.onPte y (h.recorded y ⟨q ++ [j], by simp, by simp; omega, hy⟩)]
    exact h.parent q j x y hq hx hy
  · rw [(hk.hwWalk_eq h).2] at hw
    exact h.kernel_reads va hva w hw

end

theorem kheapAlloc_spec {size : Nat} (hinv : H.Inv m.heap)
    (ha : m.kheapAlloc size = (some page, m')) :
    H.alloc m.heap size = (some page, m'.heap) ∧ m'.onPtePtr = m.onPtePtr ∧
      m'.kernelPgd = m.kernelPgd ∧ (∀ w, ¬ H.avail m.heap (w / 512) → m'.mem w = m.mem w) ∧
      ∀ w, page ≤ w / 512 → w / 512 < page + H.pagesFor size → m'.mem w = 0 := by
  unfold kheapAlloc at ha
  rcases hal : H.alloc m.heap size with ⟨_ | page', heap⟩
  · simp [hal] at ha
  · simp only [hal, Prod.mk.injEq, some.injEq] at ha
    obtain ⟨rfl, rfl⟩ := ha
    obtain ⟨-, -, hfresh, -⟩ := H.alloc_some hinv hal
    refine ⟨rfl, rfl, rfl, fun w hw => ?_, fun w hlo hhi => ?_⟩
    · have hout : ¬ (page' ≤ w / 512 ∧ w / 512 < page' + H.pagesFor size) :=
        fun hin => hw (hfresh _ hin.1 hin.2)
      simp only [zeroFrames]
      rw [if_neg (by omega)]
    · simp only [zeroFrames]
      rw [if_pos (by omega)]

theorem TableInv.keeps_kheapAlloc (h : TableInv kernel m root recs) {size : Nat}
    (ha : m.kheapAlloc size = (some page, m')) : Keeps kernel root recs m m' := by
  obtain ⟨hal, hon, -, hmem, -⟩ := kheapAlloc_spec h.heap ha
  obtain ⟨hinv, hlive, hfresh, hshrink⟩ := H.alloc_some h.heap hal
  have hpage : H.avail m.heap page := hfresh page le_rfl
    (Nat.lt_add_of_pos_right (H.pagesFor_pos size))
  refine ⟨hinv, fun q f hq hf j hj => hmem _ ?_, fun f hf => ?_, fun f _ => by rw [hon],
    fun w hw => hmem w (h.kernel_used _ hw), fun f hf hav => h.kernel_used f hf (hshrink f hav)⟩
  · rw [show (512 * f + j) / 512 = f by omega]
    exact (h.used hq hf).1
  · have hne : f ≠ page := by
      rintro rfl
      rcases hf with rfl | hf
      · exact (h.used (p := []) (Nat.zero_le _) rfl).1 hpage
      · exact h.rec_used hf hpage
    rw [hlive, update_of_ne hne]

theorem TableInv.keeps_kheapFree (h : TableInv kernel m root recs) {a n : Nat}
    (hlive : H.live m.heap a = some ⟨n, 1⟩) (hroot : a ≠ root) (hrecs : a ∉ recs)
    (hker : ∀ q, a ≤ q → q < a + n → ¬ kernel q) :
    ∃ m', m.kheapFree a = some m' ∧ Keeps kernel root recs m m' ∧ m'.mem = m.mem ∧
      m'.onPtePtr = m.onPtePtr ∧ H.live m'.heap = update (H.live m.heap) a none ∧
      ∀ q, H.avail m'.heap q → H.avail m.heap q ∨ a ≤ q ∧ q < a + n := by
  obtain ⟨h0, -, -, -⟩ := H.live_range h.heap hlive
  obtain ⟨heap, hfree, hinv, hl, hav⟩ := H.free_live h.heap hlive
  refine ⟨{ m with heap := heap }, ?_, ⟨hinv, fun _ _ _ _ _ _ => rfl, fun f hf => ?_,
    fun _ _ => rfl, fun _ _ => rfl, fun f hf hf' => ?_⟩, rfl, rfl, hl,
    fun q hq => (hav q hq).imp_right And.right⟩
  · simp only [kheapFree, if_neg h0, hfree, map_some]
  · have hne : f ≠ a := by
      rintro rfl
      exact hf.elim hroot hrecs
    rw [hl, update_of_ne hne]
  · rcases hav f hf' with hf' | ⟨-, hlo, hhi⟩
    · exact h.kernel_used f hf hf'
    · exact hker f hlo hhi hf

/-! ## Writing one entry -/

/-- A path at which a new entry may be written: a table with one of its lower-half
indices. -/
structure Slot (m : Machine H) (root : Nat) (p : List Nat) (g i : Nat) : Prop where
  reach : reach m.mem root p = some g
  length_le : p.length ≤ 3
  index_lt : i < 512
  lower : p = [] → i < 256

theorem Slot.root_lower (hs : Slot m root p g i) (h : Shape m.mem root) (he : g = root) :
    i < 256 := by
  subst he
  exact hs.lower (h.tree p [] g hs.length_le (zero_le _) hs.reach rfl)

theorem Slot.isTable (hs : Slot m root p g i) (hne : g ≠ root) : IsTable m.mem root g := by
  refine ⟨p, ?_, hs.length_le, hs.reach⟩
  rintro rfl
  exact hne (some_inj.mp hs.reach).symm

/-- `mem'` differs from `m.mem` at most in the entry and in available frames. -/
def ChangedAt (m : Machine H) (mem' : Nat → Pte) (g i : Nat) : Prop :=
  ∀ w, w ≠ 512 * g + i → ¬ H.avail m.heap (w / 512) → mem' w = m.mem w

theorem TableInv.entry_eq (h : TableInv kernel m root recs)
    (hc : ChangedAt m mem' g i) (hi : i < 512) {x j : Nat} (hq : q.length ≤ 3)
    (hx : reach m.mem root q = some x) (hj : j < 512) (hne : x ≠ g ∨ j ≠ i) :
    mem' (512 * x + j) = m.mem (512 * x + j) := by
  refine hc _ (fun he => ?_) ?_
  · obtain ⟨rfl, rfl⟩ := entry_inj hj hi he
    rcases hne with hne | hne <;> exact hne rfl
  · rw [show (512 * x + j) / 512 = x by omega]
    exact (h.used hq hx).1

theorem TableInv.next_eq (h : TableInv kernel m root recs)
    (hc : ChangedAt m mem' g i) (hi : i < 512) :
    ∀ q x j, q.length ≤ 3 → reach m.mem root q = some x → x ≠ g ∨ j ≠ i →
      tableNext mem' root x j = tableNext m.mem root x j := by
  intro q x j hq hx hne
  unfold tableNext
  by_cases hj : j < 512
  · rw [h.entry_eq hc hi hq hx hj hne]
  · simp [hj]

theorem TableInv.hwWalk_eq (h : TableInv kernel m root recs)
    (hs : Slot m root p g i) (hc : ChangedAt m mem' g i)
    (hva : va < 2 ^ 47 → ¬ (p ++ [i]) <+: path4 va) :
    hwWalk mem' root va = hwWalk m.mem root va ∧ hwReads mem' root va = hwReads m.mem root va := by
  refine h.hwWalk_eq_of_reads (fun huser q j x hpre hq hj hx => ?_) (fun j hlo hj => ?_)
    fun w hk => ?_
  · -- two reads of one entry are at the end of one path
    refine h.entry_eq hc hs.index_lt hq hx hj ?_
    by_contra hboth
    rw [not_or, not_not, not_not] at hboth
    obtain ⟨rfl, rfl⟩ := hboth
    obtain rfl := h.shape.tree q p x hq hs.length_le hx hs.reach
    exact hva huser hpre
  · -- the entry is in the lower half of the root
    refine h.entry_eq (q := []) hc hs.index_lt (zero_le _) rfl hj ?_
    by_contra hboth
    rw [not_or, not_not, not_not] at hboth
    have := hs.root_lower h.shape hboth.1.symm
    omega
  · refine hc w (fun he => ?_) (h.kernel_used _ hk)
    rw [he, show (512 * g + i) / 512 = g by have := hs.index_lt; omega] at hk
    exact (h.used hs.length_le hs.reach).2 hk

/-! ## Finding or making a table -/

/-- `m'` has the tables of `m` and the same translations. The entries that are present in
`m` are the same in `m'`, and the others carry `prot`. -/
structure Extends (prot : VmProt) (root : Nat) (m m' : Machine H) : Prop where
  reach : ∀ q x, q.length ≤ 3 → reach m.mem root q = some x → reach m'.mem root q = some x
  walk : ∀ va, hwWalk m'.mem root va = hwWalk m.mem root va
  kept : ∀ q x j, q.length ≤ 3 → Mm.reach m.mem root q = some x → j < 512 →
    pteIsValid (m.mem (512 * x + j)) = true → m'.mem (512 * x + j) = m.mem (512 * x + j)
  made : ∀ q x j, q.length ≤ 3 → Mm.reach m'.mem root q = some x → j < 512 →
    pteIsValid (m'.mem (512 * x + j)) = true →
      Mm.reach m.mem root q = some x ∧ m'.mem (512 * x + j) = m.mem (512 * x + j) ∨
      ∃ pfn, pfn < 2 ^ 40 ∧ m'.mem (512 * x + j) = pteValue pfn false prot

theorem Extends.of_mem_eq (prot : VmProt) (root : Nat) (hmem : m'.mem = m.mem) :
    Extends prot root m m' := by
  constructor
  · intro q x _ hr
    rw [hmem]
    exact hr
  · intro va
    rw [hmem]
  · intro q x j _ _ _ _
    rw [hmem]
  · intro q x j _ hr _ _
    rw [hmem] at hr ⊢
    exact .inl ⟨hr, rfl⟩

theorem Extends.trans {prot : VmProt} {m'' : Machine H} (h : Extends prot root m m')
    (h' : Extends prot root m' m'') : Extends prot root m m'' := by
  refine ⟨fun q x hq hr => h'.reach q x hq (h.reach q x hq hr),
    fun va => (h'.walk va).trans (h.walk va), fun q x j hq hr hj hv => ?_,
    fun q x j hq hr hj hv => ?_⟩
  · have hkept := h.kept q x j hq hr hj hv
    rw [h'.kept q x j hq (h.reach q x hq hr) hj (hkept ▸ hv), hkept]
  · rcases h'.made q x j hq hr hj hv with ⟨hr', he⟩ | hnew
    · rcases h.made q x j hq hr' hj (he ▸ hv) with ⟨hr0, he0⟩ | ⟨pfn, hlt, hnew⟩
      · exact .inl ⟨hr0, he.trans he0⟩
      · exact .inr ⟨pfn, hlt, he.trans hnew⟩
    · exact .inr hnew

/-- What a call that builds tables below `root` leaves alone: it makes table pages of
available frames and writes to tables only. -/
structure Frame (root : Nat) (m m' : Machine H) : Prop where
  avail : ∀ f, H.avail m'.heap f → H.avail m.heap f
  grow : ∀ f, IsTable m.mem root f → IsTable m'.mem root f
  fresh : ∀ f, IsTable m'.mem root f → IsTable m.mem root f ∨ H.avail m.heap f
  live : ∀ f, ¬ IsTable m'.mem root f → H.live m'.heap f = H.live m.heap f
  mem : ∀ w, ¬ H.avail m.heap (w / 512) → w / 512 ≠ root → ¬ IsTable m.mem root (w / 512) →
    m'.mem w = m.mem w
  onPte : ∀ f, ¬ H.avail m.heap f → m'.onPtePtr f = m.onPtePtr f
  kernelPgd : m'.kernelPgd = m.kernelPgd

theorem Frame.refl (root : Nat) (m : Machine H) : Frame root m m :=
  ⟨fun _ hf => hf, fun _ hf => hf, fun _ hf => .inl hf, fun _ _ => rfl, fun _ _ _ _ => rfl,
    fun _ _ => rfl, rfl⟩

theorem Frame.trans {m'' : Machine H} (h : Frame root m m') (h' : Frame root m' m'') :
    Frame root m m'' := by
  refine ⟨fun f hf => h.avail f (h'.avail f hf), fun f hf => h'.grow f (h.grow f hf),
    fun f hf => ?_, fun f hf => ?_, fun w hav hroot htab => ?_, fun f hav => ?_,
    h'.kernelPgd.trans h.kernelPgd⟩
  · rcases h'.fresh f hf with hf | hf
    · exact h.fresh f hf
    · exact .inr (h.avail f hf)
  · rw [h'.live f hf, h.live f fun hf' => hf (h'.grow f hf')]
  · have htab' : ¬ IsTable m'.mem root (w / 512) := fun ht => (h.fresh _ ht).elim htab hav
    rw [h'.mem w (fun hav' => hav (h.avail _ hav')) hroot htab', h.mem w hav hroot htab]
  · rw [h'.onPte f fun hav' => hav (h.avail _ hav'), h.onPte f hav]

theorem TableInv.kheapAddRefCount (h : TableInv kernel m root recs) (ht : IsTable m.mem root f)
    (hrefs : recs.count f + 1 < H.refLimit) :
    f ≠ 0 ∧ ∃ m', m.kheapAddRefCount f = some m' ∧ TableInv kernel m' root (f :: recs) ∧
      m'.mem = m.mem ∧ Frame root m m' := by
  have hf := h.recorded f ht
  obtain ⟨hb, hker⟩ := h.live f hf
  obtain ⟨h0, -, -, -⟩ := H.live_range h.heap hb
  obtain ⟨heap, hadd, hinv, hlive, havail⟩ := H.addRef_live h.heap hb hrefs
  have hroot : root ≠ f := fun he => h.root_not_mem (he ▸ hf)
  refine ⟨h0, { m with heap := heap }, ?_, ?_, rfl, ?_⟩
  · simp only [Machine.kheapAddRefCount, if_neg h0, hadd, map_some]
  · refine ⟨hinv, ?_, ?_, h.root_not_kernel, h.shape,
      fun x hx => mem_cons_of_mem _ (h.recorded x hx), fun x hx => ?_, h.parent,
      fun x hx hav => h.kernel_used x hx (havail x hav), h.kernel_reads⟩
    · rw [hlive, update_of_ne hroot]
      exact h.root_live
    · exact not_mem_cons_of_ne_of_not_mem hroot h.root_not_mem
    · rw [hlive]
      by_cases hxf : x = f
      · rw [hxf, update_self, count_cons_self]
        exact ⟨rfl, hker⟩
      · rw [update_of_ne hxf, count_cons_of_ne (Ne.symm hxf)]
        exact h.live x ((mem_cons.mp hx).resolve_left hxf)
  · refine ⟨havail, fun _ hx => hx, fun _ hx => .inl hx, fun x hx => ?_, fun _ _ _ _ => rfl,
      fun _ _ => rfl, rfl⟩
    have hne : x ≠ f := fun he => hx (he ▸ ht)
    rw [hlive, update_of_ne hne]

theorem allocPageTablePage_spec (hinv : H.Inv m.heap)
    (ha : m.allocPageTablePage = (some page, m')) :
    H.alloc m.heap pageSize = (some page, m'.heap) ∧ m'.onPtePtr = m.onPtePtr ∧
      m'.kernelPgd = m.kernelPgd ∧ (∀ w, ¬ H.avail m.heap (w / 512) → m'.mem w = m.mem w) ∧
      ∀ j, j < 512 → m'.mem (512 * page + j) = 0 := by
  unfold allocPageTablePage at ha
  rcases hal : m.kheapAlloc pageSize with ⟨_ | page', m1⟩
  · simp [hal] at ha
  · simp only [hal, Prod.mk.injEq, some.injEq] at ha
    obtain ⟨rfl, rfl⟩ := ha
    obtain ⟨hheap, hon, hker, hmem, -⟩ := kheapAlloc_spec hinv hal
    obtain ⟨-, -, hfresh, -⟩ := H.alloc_some hinv hheap
    have hpage : H.avail m.heap page' := hfresh page' le_rfl
      (Nat.lt_add_of_pos_right (H.pagesFor_pos pageSize))
    refine ⟨hheap, hon, hker, fun w hw => ?_, fun j hj => ?_⟩
    · have hout : w / 512 ≠ page' := fun he => hw (he ▸ hpage)
      simp only [zeroFrames]
      rw [if_neg (by omega), hmem w hw]
    · simp only [zeroFrames]
      rw [if_pos (by omega)]

theorem store_eq {w : Nat} (hinv : H.Inv m.heap) (hw : ¬ H.avail m.heap (w / 512)) (value : Pte) :
    m.store w value = some { m with mem := update m.mem w value } := by
  unfold store
  rw [if_neg fun hnode => hw (H.node_avail hinv hnode)]

/-- The state after a fresh table page has been hung into a missing entry. -/
def hang (m : Machine H) (pte page : Nat) (prot : VmProt) : Machine H :=
  { m with mem := update m.mem pte (pteValue page false prot) }.kheapSetOnPtePtr page pte

section Hang

variable {m1 : Machine H} {page : Nat} (prot : VmProt) (h : TableInv kernel m root recs)
  (hs : Slot m root p g i) (hdepth : p.length ≤ 2)
  (hmissing : reach m.mem root (p ++ [i]) = none) (ha : m.allocPageTablePage = (some page, m1))
include h hs hdepth hmissing ha

omit hs hdepth hmissing in
theorem fresh_page : page ≠ 0 ∧ page < 2 ^ 40 ∧ H.avail m.heap page ∧
    ∀ q, q.length ≤ 3 → reach m.mem root q ≠ some page := by
  obtain ⟨hal, -⟩ := allocPageTablePage_spec h.heap ha
  obtain ⟨h0, hlt⟩ := PageHeap.alloc_range h.heap hal
  have hpos := H.pagesFor_pos pageSize
  have hav : H.avail m.heap page := (H.alloc_some h.heap hal).2.2.1 page le_rfl (by omega)
  exact ⟨h0, by omega, hav, fun q hq hr => (h.used hq hr).1 hav⟩

omit hs hdepth hmissing in
theorem fresh_live : H.live m1.heap page = some ⟨1, 1⟩ := by
  obtain ⟨hal, -⟩ := allocPageTablePage_spec h.heap ha
  rw [(H.alloc_some h.heap hal).2.1, update_self, show H.pagesFor pageSize = 1 from
    H.pagesFor_page]

omit hs hmissing hdepth in
theorem hang_changedAt : ChangedAt m (hang m1 (512 * g + i) page prot).mem g i := by
  obtain ⟨-, -, -, hmem, -⟩ := allocPageTablePage_spec h.heap ha
  obtain ⟨h0, -⟩ := fresh_page h ha
  intro w hw hav
  simp only [hang, kheapSetOnPtePtr, if_neg h0]
  rw [update_of_ne hw, hmem w hav]

omit hs hmissing hdepth in
theorem hang_entry : (hang m1 (512 * g + i) page prot).mem (512 * g + i) =
    pteValue page false prot := by
  obtain ⟨h0, -⟩ := fresh_page h ha
  simp only [hang, kheapSetOnPtePtr, if_neg h0, update_self]

omit hmissing hdepth in
theorem hang_page {j : Nat} (hj : j < 512) :
    (hang m1 (512 * g + i) page prot).mem (512 * page + j) = 0 := by
  obtain ⟨-, -, -, -, hzero⟩ := allocPageTablePage_spec h.heap ha
  obtain ⟨h0, -, hav, -⟩ := fresh_page h ha
  have hne : page ≠ g := fun he => (h.used hs.length_le hs.reach).1 (he ▸ hav)
  simp only [hang, kheapSetOnPtePtr, if_neg h0]
  rw [update_of_ne (fun he => hne (entry_inj hj hs.index_lt he).1), hzero j hj]

theorem hang_attach : Attach (tableNext m.mem root)
    (tableNext (hang m1 (512 * g + i) page prot).mem root) root 3 p g i page := by
  obtain ⟨-, hlt, -, hfresh⟩ := fresh_page h ha
  refine ⟨hs.reach, by omega, ?_, ?_, fun j => ?_, hfresh,
    h.next_eq (hang_changedAt prot h ha) hs.index_lt⟩
  · have hm := hmissing
    unfold reach at hm
    rwa [follow_concat, show follow _ root p = some g from hs.reach, bind_some] at hm
  · rw [tableNext_eq hs.index_lt (hs.root_lower h.shape), hang_entry prot h ha, if_pos (by simp),
      ptePfn_pteValue hlt]
  · unfold tableNext
    by_cases hj : j < 512
    · rw [hang_page prot h hs ha hj]
      simp
    · simp [hj]

theorem hang_reach {x : Nat} (hq : q.length ≤ 4) :
    reach (hang m1 (512 * g + i) page prot).mem root q = some x ↔
      reach m.mem root q = some x ∨ q = p ++ [i] ∧ x = page :=
  (hang_attach prot h hs hdepth hmissing ha).follow_eq_some h.shape.tree hq

theorem hang_shape : Shape (hang m1 (512 * g + i) page prot).mem root := by
  refine ⟨(hang_attach prot h hs hdepth hmissing ha).treeLike h.shape.tree,
    fun q x j hq hlen hx hj => ?_⟩
  rcases (hang_reach prot h hs hdepth hmissing ha (by omega)).mp hx with hx | ⟨-, rfl⟩
  · by_cases hxg : x = g ∧ j = i
    · rw [hxg.1, hxg.2, hang_entry prot h ha, pteIsHuge_pteValue]
    · rw [h.entry_eq (hang_changedAt prot h ha) hs.index_lt hlen hx hj (not_and_or.mp hxg)]
      exact h.shape.small q x j hq hlen hx hj
  · rw [hang_page prot h hs ha hj]
    exact pteIsHuge_zero

theorem hang_walk (va : Nat) : hwWalk (hang m1 (512 * g + i) page prot).mem root va =
    hwWalk m.mem root va := by
  by_cases hpre : va < 2 ^ 47 ∧ (p ++ [i]) <+: path4 va
  · obtain ⟨huser, hpre⟩ := hpre
    have hatt := hang_attach prot h hs hdepth hmissing ha
    have hold := (h.shape).hwWalk_paddr huser
    have hnew := (hang_shape prot h hs hdepth hmissing ha).hwWalk_paddr huser
    rw [show reach m.mem root (path4 va) = none from hatt.follow_old hpre, map_none,
      map_eq_none_iff] at hold
    obtain ⟨r, hr⟩ := hpre
    have hbelow : reach (hang m1 (512 * g + i) page prot).mem root (path4 va) = none := by
      rw [← hr]
      cases r with
      | nil =>
        have := congrArg List.length hr
        simp [path4] at this
        omega
      | cons j r => exact hatt.follow_below h.shape.tree j r
    rw [hbelow, map_none, map_eq_none_iff] at hnew
    rw [hold, hnew]
  · exact (h.hwWalk_eq hs (hang_changedAt prot h ha) fun huser hp => hpre ⟨huser, hp⟩).1

theorem hang_extends : Extends prot root m (hang m1 (512 * g + i) page prot) := by
  obtain ⟨-, hlt, -⟩ := fresh_page h ha
  have hreach := fun {q x} => hang_reach (q := q) (x := x) prot h hs hdepth hmissing ha
  refine ⟨fun _ _ hq hx => (hreach (by omega)).mpr (.inl hx),
    hang_walk prot h hs hdepth hmissing ha,
    fun q x j hq hx hj hv => h.entry_eq (hang_changedAt prot h ha) hs.index_lt hq hx hj ?_,
    fun q x j hq hx hj hv => ?_⟩
  · -- the entry that was missing is not one of the present ones
    by_contra hboth
    rw [not_or, not_not, not_not] at hboth
    obtain ⟨rfl, rfl⟩ := hboth
    unfold reach at hmissing
    rw [follow_concat, show follow _ root p = some x from hs.reach, bind_some,
      tableNext_eq hj (hs.root_lower h.shape), if_pos hv] at hmissing
    cases hmissing
  · by_cases hxg : x = g ∧ j = i
    · obtain ⟨rfl, rfl⟩ := hxg
      exact .inr ⟨page, hlt, hang_entry prot h ha⟩
    · rcases (hreach (by omega)).mp hx with hx | ⟨-, rfl⟩
      · exact .inl ⟨hx, h.entry_eq (hang_changedAt prot h ha) hs.index_lt hq hx hj
          (not_and_or.mp hxg)⟩
      · rw [hang_page prot h hs ha hj] at hv
        exact absurd hv (by decide)

theorem hang_parent {x y j : Nat} (hq : q.length ≤ 2)
    (hx : reach (hang m1 (512 * g + i) page prot).mem root q = some x)
    (hy : reach (hang m1 (512 * g + i) page prot).mem root (q ++ [j]) = some y) :
    (hang m1 (512 * g + i) page prot).onPtePtr y = some (512 * x + j) := by
  obtain ⟨-, hon, -⟩ := allocPageTablePage_spec h.heap ha
  obtain ⟨h0, -, -, hfresh⟩ := fresh_page h ha
  simp only [hang, kheapSetOnPtePtr, if_neg h0, fresh_live h ha, hon, map_some, getD_some]
  rcases (hang_reach prot h hs hdepth hmissing ha (by simp; omega)).mp hy with hold | ⟨he, rfl⟩
  · obtain ⟨x', hx', -⟩ := follow_concat_eq_some.mp hold
    have hxx := (hang_reach prot h hs hdepth hmissing ha (by omega)).mpr (.inl hx')
    rw [hx] at hxx
    cases hxx
    have hne : ¬ (page ≤ y ∧ y < page + 1) := fun hin => by
      have he : y = page := by omega
      exact hfresh (q ++ [j]) (by simp; omega) (he ▸ hold)
    rw [if_neg hne]
    exact h.parent q j x y hq hx' hold
  · obtain ⟨rfl, rfl⟩ := append_singleton_inj.mp he
    have hxg := (hang_reach prot h hs hdepth hmissing ha (by omega)).mpr (.inl hs.reach)
    rw [hx, some.injEq] at hxg
    rw [if_pos ⟨le_rfl, lt_succ_self _⟩, hxg]

theorem hang_frame : Frame root m (hang m1 (512 * g + i) page prot) := by
  obtain ⟨hal, hon, hker, -⟩ := allocPageTablePage_spec h.heap ha
  obtain ⟨h0, -, hav, -⟩ := fresh_page h ha
  obtain ⟨-, hlive, -, hshrink⟩ := H.alloc_some h.heap hal
  have hreach := fun {q x} => hang_reach (q := q) (x := x) prot h hs hdepth hmissing ha
  have hnew : IsTable (hang m1 (512 * g + i) page prot).mem root page :=
    ⟨p ++ [i], by simp, by simp; omega, (hreach (by simp; omega)).mpr (.inr ⟨rfl, rfl⟩)⟩
  refine ⟨fun f hf => hshrink f ?_, fun f hf => ?_, fun f hf => ?_, fun f hf => ?_,
    fun w hw hroot htab => ?_, fun f hf => ?_, ?_⟩
  · simpa only [hang, kheapSetOnPtePtr, if_neg h0] using hf
  · obtain ⟨q, hq, hlen, hx⟩ := hf
    exact ⟨q, hq, hlen, (hreach (by omega)).mpr (.inl hx)⟩
  · obtain ⟨q, hq, hlen, hx⟩ := hf
    rcases (hreach (by omega)).mp hx with hx | ⟨-, rfl⟩
    · exact .inl ⟨q, hq, hlen, hx⟩
    · exact .inr hav
  · have hne : f ≠ page := by
      rintro rfl
      exact hf hnew
    simp only [hang, kheapSetOnPtePtr, if_neg h0]
    rw [hlive, update_of_ne hne]
  · refine hang_changedAt prot h ha w (fun he => ?_) hw
    have hg : w / 512 = g := by have := hs.index_lt; omega
    rw [hg] at hroot htab
    exact htab (hs.isTable hroot)
  · simp only [hang, kheapSetOnPtePtr, if_neg h0, fresh_live h ha, hon, map_some, getD_some]
    rw [if_neg fun hin => hf (by rwa [show f = page by omega])]
  · simpa only [hang, kheapSetOnPtePtr, if_neg h0] using hker

theorem hang_inv : TableInv kernel (hang m1 (512 * g + i) page prot) root (page :: recs) := by
  obtain ⟨hal, -⟩ := allocPageTablePage_spec h.heap ha
  obtain ⟨h0, -, hav, hfresh⟩ := fresh_page h ha
  obtain ⟨hinv, hlive, -, hshrink⟩ := H.alloc_some h.heap hal
  have hheap : (hang m1 (512 * g + i) page prot).heap = m1.heap := by
    simp only [hang, kheapSetOnPtePtr, if_neg h0]
  have hreach := fun {q x} => hang_reach (q := q) (x := x) prot h hs hdepth hmissing ha
  have hroot : root ≠ page := fun he => hfresh [] (zero_le _) (he ▸ rfl)
  have hnot : page ∉ recs := fun hmem => h.rec_used hmem hav
  refine ⟨hheap ▸ hinv, ?_, not_mem_cons_of_ne_of_not_mem hroot h.root_not_mem,
    h.root_not_kernel, hang_shape prot h hs hdepth hmissing ha, fun x hx => ?_, fun x hx => ?_,
    fun q j x y hq hx hy => hang_parent prot h hs hdepth hmissing ha hq hx hy,
    fun x hx hav' => ?_, fun va hva w hw => ?_⟩
  · rw [hheap, hlive, update_of_ne hroot]
    exact h.root_live
  · obtain ⟨q, hq, hlen, hx⟩ := hx
    rcases (hreach (by omega)).mp hx with hx | ⟨-, rfl⟩
    · exact mem_cons_of_mem _ (h.recorded x ⟨q, hq, hlen, hx⟩)
    · exact mem_cons_self
  · rw [hheap]
    by_cases hxp : x = page
    · rw [hxp, count_cons_self, count_eq_zero_of_not_mem hnot]
      exact ⟨fresh_live h ha, fun hk => h.kernel_used page hk hav⟩
    · rw [hlive, update_of_ne hxp, count_cons_of_ne (Ne.symm hxp)]
      exact h.live x ((mem_cons.mp hx).resolve_left hxp)
  · rw [hheap] at hav'
    exact h.kernel_used x hx (hshrink x hav')
  · rw [(h.hwWalk_eq hs (hang_changedAt prot h ha) fun huser => by omega).2] at hw
    exact h.kernel_reads va hva w hw

end Hang

end ShiziOS.Mm
