import Mathlib

/-!
# Page heaps

A heap of page frames that hands out blocks of consecutive frames and counts the
references to each block. A block is named by its first frame. `avail` are the frames
the heap may still hand out, and `node` says in which words of these frames it keeps
its own lists. The fields say what a client may rely on; an allocator is an instance.

* `alloc_range`: where a block that is handed out lies.
* `bump`: a heap that hands out every frame once, for examples.
-/

structure PageHeap.Block where
  pages : Nat
  refs : Nat
deriving DecidableEq, Repr

structure PageHeap where
  State : Type
  Inv : State → Prop
  live : State → Nat → Option PageHeap.Block
  avail : State → Nat → Prop
  /-- The word of a frame is part of a list of the heap. -/
  node : State → Nat → Nat → Bool
  /-- Freeing the block `p` puts a node in front of that of the frame `q`, and so writes the first
  word of the latter again. -/
  relinks : State → (p q : Nat) → Bool
  /-- The number of frames of a block for a request in bytes. -/
  pagesFor : Nat → Nat
  refLimit : Nat
  alloc : State → Nat → Option Nat × State
  addRef : State → Nat → Option State
  free : State → Nat → Option State
  pagesFor_pos : ∀ size, 0 < pagesFor size
  pagesFor_page : pagesFor 4096 = 1
  /-- A block holds the bytes it was asked for. -/
  le_pagesFor : ∀ size, size ≤ 2 ^ 52 → size ≤ 4096 * pagesFor size
  one_lt_refLimit : 1 < refLimit
  refLimit_le : refLimit ≤ 2 ^ 32
  node_avail : ∀ {s p i}, Inv s → node s p i = true → avail s p
  /-- Blocks are nonempty and lie in frames `1` to `2 ^ 40 - 1`. -/
  live_range : ∀ {s p b}, Inv s → live s p = some b →
    p ≠ 0 ∧ 0 < b.pages ∧ 0 < b.refs ∧ p + b.pages ≤ 2 ^ 40
  live_not_avail : ∀ {s p b q}, Inv s → live s p = some b → p ≤ q → q < p + b.pages →
    ¬ avail s q
  live_disjoint : ∀ {s p b p' b' q}, Inv s → live s p = some b → live s p' = some b' →
    p ≤ q → q < p + b.pages → p' ≤ q → q < p' + b'.pages → p = p'
  /-- A request that fails gives nothing out. -/
  alloc_none : ∀ {s size s'}, Inv s → alloc s size = (none, s') →
    Inv s' ∧ live s' = live s ∧ ∀ q, avail s' q → avail s q
  /-- A request that succeeds gives out a block of available frames, referenced once. -/
  alloc_some : ∀ {s size p s'}, Inv s → alloc s size = (some p, s') →
    Inv s' ∧ live s' = Function.update (live s) p (some ⟨pagesFor size, 1⟩) ∧
      (∀ q, p ≤ q → q < p + pagesFor size → avail s q) ∧ ∀ q, avail s' q → avail s q
  addRef_live : ∀ {s p b}, Inv s → live s p = some b → b.refs + 1 < refLimit →
    ∃ s', addRef s p = some s' ∧ Inv s' ∧
      live s' = Function.update (live s) p (some { b with refs := b.refs + 1 }) ∧
      ∀ q, avail s' q → avail s q
  /-- The last reference returns the block. -/
  free_live : ∀ {s p b}, Inv s → live s p = some b →
    ∃ s', free s p = some s' ∧ Inv s' ∧
      live s' = Function.update (live s) p
        (if b.refs = 1 then none else some { b with refs := b.refs - 1 }) ∧
      ∀ q, avail s' q → avail s q ∨ b.refs = 1 ∧ p ≤ q ∧ q < p + b.pages

namespace PageHeap

open Option Function

/-- The lists survive that word `i` of the frame `q` is cleared and then the block `p` is freed: the
word is not part of a node, or it is the first one and is written again. -/
def spares (H : PageHeap) (s : H.State) (p q i : Nat) : Bool :=
  !H.node s q i || (decide (i = 0) && H.relinks s p q)

variable {H : PageHeap} {s s' : H.State} {p size : Nat}

theorem alloc_range (hs : H.Inv s) (ha : H.alloc s size = (some p, s')) :
    p ≠ 0 ∧ p + H.pagesFor size ≤ 2 ^ 40 := by
  obtain ⟨hinv, hlive, -⟩ := H.alloc_some hs ha
  obtain ⟨h0, -, -, hlt⟩ := H.live_range hinv
    (show H.live s' p = some ⟨H.pagesFor size, 1⟩ by rw [hlive, Function.update_self])
  exact ⟨h0, hlt⟩

/-! ## The simplest heap

It hands out frames in ascending order and never hands out a frame twice. -/

structure Bump where
  next : Nat
  live : Nat → Option Block

namespace Bump

structure Inv (s : Bump) : Prop where
  next_pos : 0 < s.next
  next_le : s.next ≤ 2 ^ 40
  live_range : ∀ p b, s.live p = some b →
    p ≠ 0 ∧ 0 < b.pages ∧ 0 < b.refs ∧ p + b.pages ≤ s.next
  disjoint : ∀ p b p' b' q, s.live p = some b → s.live p' = some b' →
    p ≤ q → q < p + b.pages → p' ≤ q → q < p' + b'.pages → p = p'

def pagesFor (size : Nat) : Nat := max 1 ((size + 4095) / 4096)

def alloc (s : Bump) (size : Nat) : Option Nat × Bump :=
  if s.next + pagesFor size ≤ 2 ^ 40 then
    (some s.next, ⟨s.next + pagesFor size, update s.live s.next (some ⟨pagesFor size, 1⟩)⟩)
  else (none, s)

/-- Change the references to a block. -/
def setRefs (s : Bump) (p : Nat) (f : Block → Option Block) : Option Bump :=
  (s.live p).map fun b => ⟨s.next, update s.live p (f b)⟩

def addRef (s : Bump) (p : Nat) : Option Bump :=
  s.setRefs p fun b => some { b with refs := b.refs + 1 }

def free (s : Bump) (p : Nat) : Option Bump :=
  s.setRefs p fun b => if b.refs = 1 then none else some { b with refs := b.refs - 1 }

variable {s : Bump} {p : Nat} {b : Block}

theorem Inv.setRefs (h : s.Inv) (hb : s.live p = some b) {f : Block → Option Block}
    (hf : ∀ b', f b = some b' → b'.pages = b.pages ∧ 0 < b'.refs) :
    Inv ⟨s.next, update s.live p (f b)⟩ := by
  -- every block of the new state was there before with the same pages
  have hold : ∀ q c, update s.live p (f b) q = some c →
      ∃ c0, s.live q = some c0 ∧ c.pages = c0.pages ∧ 0 < c.refs := by
    intro q c hc
    rw [update_apply] at hc
    split_ifs at hc with hq
    · subst hq
      exact ⟨b, hb, hf c hc⟩
    · exact ⟨c, hc, rfl, (h.live_range q c hc).2.2.1⟩
  refine ⟨h.next_pos, h.next_le, fun q c hc => ?_, fun q c q' c' x hc hc' => ?_⟩
  · obtain ⟨c0, hc0, hpages, hrefs⟩ := hold q c hc
    obtain ⟨h0, hpos, -, hle⟩ := h.live_range q c0 hc0
    exact ⟨h0, hpages ▸ hpos, hrefs, hpages ▸ hle⟩
  · obtain ⟨c0, hc0, hpages, -⟩ := hold q c hc
    obtain ⟨c1, hc1, hpages', -⟩ := hold q' c' hc'
    rw [hpages, hpages']
    exact h.disjoint q c0 q' c1 x hc0 hc1

theorem Inv.alloc (h : s.Inv) {size : Nat} (hle : s.next + pagesFor size ≤ 2 ^ 40) :
    Inv ⟨s.next + pagesFor size, update s.live s.next (some ⟨pagesFor size, 1⟩)⟩ := by
  have hpos : 0 < pagesFor size := Nat.lt_of_lt_of_le Nat.one_pos (Nat.le_max_left ..)
  have hnext := h.next_pos
  have hcases : ∀ q c, update s.live s.next (some ⟨pagesFor size, 1⟩) q = some c →
      q = s.next ∧ c = ⟨pagesFor size, 1⟩ ∨ s.live q = some c := by
    intro q c hc
    rw [update_apply] at hc
    split_ifs at hc with hq
    · rw [some.injEq] at hc
      exact .inl ⟨hq, hc.symm⟩
    · exact .inr hc
  refine ⟨Nat.add_pos_left hnext _, hle, fun q c hc => ?_, fun q c q' c' x hc hc' h1 h2 h3 h4 => ?_⟩
  · rcases hcases q c hc with ⟨rfl, rfl⟩ | hc
    · exact ⟨Nat.ne_of_gt hnext, hpos, Nat.one_pos, le_rfl⟩
    · obtain ⟨h0, hp, hr, hl⟩ := h.live_range q c hc
      exact ⟨h0, hp, hr, Nat.le_add_right_of_le hl⟩
  · rcases hcases q c hc with ⟨rfl, rfl⟩ | hc <;> rcases hcases q' c' hc' with ⟨rfl, rfl⟩ | hc'
    · rfl
    · have := (h.live_range q' c' hc').2.2.2
      omega
    · have := (h.live_range q c hc).2.2.2
      omega
    · exact h.disjoint q c q' c' x hc hc' h1 h2 h3 h4

theorem alloc_eq_none {s' : Bump} {size : Nat} (ha : s.alloc size = (none, s')) : s' = s := by
  unfold alloc at ha
  split_ifs at ha
  · cases ha
  · exact (Prod.mk.inj ha).2.symm

theorem alloc_eq_some {s' : Bump} {size : Nat} (ha : s.alloc size = (some p, s')) :
    s.next + pagesFor size ≤ 2 ^ 40 ∧ p = s.next ∧ s' = ⟨s.next + pagesFor size,
      update s.live s.next (some ⟨pagesFor size, 1⟩)⟩ := by
  unfold alloc at ha
  split_ifs at ha with hle
  · obtain ⟨hp, hs⟩ := Prod.mk.inj ha
    exact ⟨hle, (some_inj.mp hp).symm, hs.symm⟩
  · cases ha

end Bump

def bump : PageHeap where
  State := Bump
  Inv := Bump.Inv
  live := Bump.live
  avail := fun s q => s.next ≤ q ∧ q < 2 ^ 40
  node := fun _ _ _ => false
  relinks := fun _ _ _ => false
  pagesFor := Bump.pagesFor
  refLimit := 4294967296
  alloc := Bump.alloc
  addRef := Bump.addRef
  free := Bump.free
  pagesFor_pos := fun _ => Nat.lt_of_lt_of_le Nat.one_pos (Nat.le_max_left ..)
  pagesFor_page := rfl
  le_pagesFor := fun size _ => by
    unfold Bump.pagesFor
    omega
  one_lt_refLimit := by decide
  refLimit_le := le_rfl
  node_avail := fun _ h => nomatch h
  live_range := fun h hb => by
    obtain ⟨h0, hp, hr, hle⟩ := h.live_range _ _ hb
    exact ⟨h0, hp, hr, hle.trans h.next_le⟩
  live_not_avail := fun h hb _ hq hav => by
    have := (h.live_range _ _ hb).2.2.2
    omega
  live_disjoint := fun h hb hb' h₁ h₂ h₃ h₄ => h.disjoint _ _ _ _ _ hb hb' h₁ h₂ h₃ h₄
  alloc_none := fun h ha => by
    obtain rfl := Bump.alloc_eq_none ha
    exact ⟨h, rfl, fun _ hq => hq⟩
  alloc_some := fun h ha => by
    obtain ⟨hle, rfl, rfl⟩ := Bump.alloc_eq_some ha
    refine ⟨h.alloc hle, rfl, fun q hlo hhi => ⟨hlo, by omega⟩, fun q hq => ⟨?_, hq.2⟩⟩
    exact (Nat.le_add_right _ _).trans hq.1
  addRef_live := fun h hb _ => by
    refine ⟨_, by rw [Bump.addRef, Bump.setRefs, hb, Option.map_some], h.setRefs hb ?_, rfl,
      fun _ hq => hq⟩
    intro b' hb'
    rw [← Option.some_inj.mp hb']
    exact ⟨rfl, Nat.succ_pos _⟩
  free_live := fun h hb => by
    have hpos := (h.live_range _ _ hb).2.2.1
    refine ⟨_, by rw [Bump.free, Bump.setRefs, hb, Option.map_some], h.setRefs hb ?_, rfl,
      fun _ hq => .inl hq⟩
    intro b' hb'
    split_ifs at hb'
    rw [← Option.some_inj.mp hb']
    exact ⟨rfl, by dsimp only; omega⟩

end PageHeap
