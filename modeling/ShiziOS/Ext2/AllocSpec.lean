import ShiziOS.Ext2.Alloc

/-!
# What allocation does

Every call reads the first sector of a bitmap into the buffer, changes a bit there, counts and
writes the sector back (`changeMap`). The allocation takes the first bit that it sees clear: the
bits on disk up to `4096`, and what the buffer held before from there on.
-/

namespace ShiziOS.Ext2

open Bytes Exec Function Area

variable {fs : SbInfo} {p : Pool} {s : Volume} {g i n : Nat}

/-! ## Bits -/

/-- The byte where the bitmap of a group starts. -/
def Volume.mapStart (s : Volume) (fs : SbInfo) (p : Pool) (g : Nat) : Nat :=
  512 * bitmapSector fs p (s.groupDescTable g)

/-- A bit of the bitmap of a group, on disk. -/
def Volume.bit (s : Volume) (fs : SbInfo) (p : Pool) (g i : Nat) : Bool :=
  bitmapCheck (s.disk.drop (s.mapStart fs p g)) i

/-- A bit as the search sees it. -/
def Volume.seen (s : Volume) (fs : SbInfo) (p : Pool) (g i : Nat) : Bool :=
  if i < 4096 then s.bit fs p g i else bitmapCheck s.buf i

theorem bitmapCheck_copy (b src : Area) (i : Nat) :
    bitmapCheck (b.copy 0 512 src) i = if i < 4096 then bitmapCheck src i else bitmapCheck b i := by
  split_ifs with h
  · apply bitmapCheck_congr
    have hin : b.copy 0 512 src (0 + i / 8) = src (i / 8) := copy_inside (by omega)
    rwa [Nat.zero_add] at hin
  · apply bitmapCheck_congr
    exact copy_outside (by omega)

theorem bitmapCheck_drop_copy (d src : Area) (off i : Nat) :
    bitmapCheck ((d.copy off 512 src).drop off) i =
      if i < 4096 then bitmapCheck src i else bitmapCheck (d.drop off) i := by
  split_ifs with h
  · apply bitmapCheck_congr
    exact copy_inside (by omega)
  · apply bitmapCheck_congr
    exact copy_outside (by omega)

/-! ## Changes -/

/-- The bitmap of the group is changed by `m` in a buffer that has its first sector, and the
counters by `f`. -/
def Volume.changeMap (s : Volume) (fs : SbInfo) (p : Pool) (g : Nat) (m : Area → Area)
    (f : Nat → Nat) : Volume :=
  let buf := m (s.buf.copy 0 512 (s.disk.drop (s.mapStart fs p g)))
  { countFree p g f s with
    buf := buf
    disk := s.disk.copy (s.mapStart fs p g) 512 buf }

theorem bitmap_setFree (p q : Pool) (d : GroupDesc) (n : Nat) :
    q.bitmap (p.setFree d n) = q.bitmap d := by
  cases p <;> cases q <;> rfl

theorem free_setFree (p q : Pool) (d : GroupDesc) (n : Nat) :
    q.free (p.setFree d n) = if q = p then n else q.free d := by
  cases p <;> cases q <;> rfl

theorem total_setTotal (p q : Pool) (sb : SuperBlock) (n : Nat) :
    q.total (p.setTotal sb n) = if q = p then n else q.total sb := by
  cases p <;> cases q <;> rfl

theorem mapStart_changeMap (m : Area → Area) (f : Nat → Nat) (q : Pool) (h : Nat) :
    (s.changeMap fs p g m f).mapStart fs q h = s.mapStart fs q h := by
  rw [Volume.mapStart, Volume.mapStart, bitmapSector, bitmapSector]
  show 512 * ext2BlockToSector fs (q.bitmap (update s.groupDescTable g _ h)) = _
  by_cases hg : h = g
  · rw [hg, update_self, bitmap_setFree]
  · rw [update_of_ne hg]

theorem seen_buf {b : Area} (hb : ∀ k, 512 ≤ k → b k = s.buf k) (h i : Nat) :
    Volume.seen { s with buf := b } fs p h i = s.seen fs p h i := by
  rw [Volume.seen, Volume.seen]
  split_ifs with hi
  · rfl
  · exact bitmapCheck_congr (hb _ (by omega))

theorem changeMap_buf {b : Area} (hb : ∀ k, 512 ≤ k → b k = s.buf k) (m : Area → Area)
    (f : Nat → Nat) : Volume.changeMap { s with buf := b } fs p g m f = s.changeMap fs p g m f := by
  have hcopy : ∀ src, Area.copy b 0 512 src = Area.copy s.buf 0 512 src := by
    intro src
    funext k
    by_cases hk : k < 512
    · rw [Area.copy, Area.copy, if_pos (by omega), if_pos (by omega)]
    · rw [copy_outside (by omega), copy_outside (by omega), hb k (by omega)]
  have hmap : ∀ x, m (Area.copy b 0 512 x) = m (Area.copy s.buf 0 512 x) := fun x => by rw [hcopy]
  rw [Volume.changeMap, Volume.changeMap]
  dsimp only
  rw [show Volume.mapStart { s with buf := b } fs p g = s.mapStart fs p g from rfl, hmap]
  rfl

/-! ## The loop over the groups -/

theorem total_groupDesc {Q : GroupDesc → Volume → Prop} (hg : g < fs.groupDescCount)
    (h : Q (s.groupDescTable g) s) : Total (groupDesc fs g) s Q := by
  rw [groupDesc, if_pos hg]
  exact total_get (total_pure h)

/-- The allocation passes the group over. -/
def Skipped (fs : SbInfo) (p : Pool) (s : Volume) (g : Nat) : Prop :=
  p.free (s.groupDescTable g) = 0 ∨ ∀ i, i < 8 * fs.blockSize → s.seen fs p g i = true

/-- The allocation takes the index in the group. -/
structure Takes (fs : SbInfo) (p : Pool) (s : Volume) (g i : Nat) : Prop where
  free : p.free (s.groupDescTable g) ≠ 0
  bound : i < 8 * fs.blockSize
  clear : s.seen fs p g i = false
  first : ∀ j, j < i → s.seen fs p g j = true

/-- The outcome of an allocation among the groups from `g` up to `stop`. -/
def AllocOutcome (fs : SbInfo) (p : Pool) (s : Volume) (g stop : Nat) :
    Option (Nat × Nat) → Volume → Prop
  | none, s' => (∃ b : Area, s' = { s with buf := b } ∧ ∀ k, 512 ≤ k → b k = s.buf k) ∧
    ∀ h, g ≤ h → h < stop → Skipped fs p s h
  | some (h, i), s' =>
    g ≤ h ∧ h < stop ∧ Takes fs p s h i ∧ (∀ h', g ≤ h' → h' < h → Skipped fs p s h') ∧
    s' = s.changeMap fs p h (fun b => bitmapSet b i) decr

theorem Skipped.buf {b : Area} (hb : ∀ k, 512 ≤ k → b k = s.buf k)
    (h : Skipped fs p { s with buf := b } g) :
    Skipped fs p s g := by
  rcases h with h | h
  · exact .inl h
  · refine .inr fun i hi => ?_
    rw [← seen_buf hb]
    exact h i hi

theorem Takes.buf {b : Area} (hb : ∀ k, 512 ≤ k → b k = s.buf k)
    (h : Takes fs p { s with buf := b } g i) :
    Takes fs p s g i where
  free := h.free
  bound := h.bound
  clear := by rw [← seen_buf hb]; exact h.clear
  first j hj := by rw [← seen_buf hb]; exact h.first j hj

theorem AllocOutcome.skip {b : Area} {stop : Nat} {r : Option (Nat × Nat)} {s' : Volume}
    (hb : ∀ k, 512 ≤ k → b k = s.buf k) (hg : Skipped fs p s g)
    (h : AllocOutcome fs p { s with buf := b } (g + 1) stop r s') : AllocOutcome fs p s g stop r
      s' := by
  have hskip : ∀ {h stop : Nat}, (∀ h, g + 1 ≤ h → h < stop → Skipped fs p { s with buf := b } h) →
    g ≤ h → h < stop →
      Skipped fs p s h := by
    intro h stop hall hle hlt
    by_cases heq : h = g
    · rw [heq]
      exact hg
    · exact (hall h (by omega) hlt).buf hb
  rcases r with _ | ⟨h', i⟩
  · obtain ⟨⟨b', rfl, hb'⟩, hall⟩ := h
    refine ⟨⟨b', rfl, fun k hk => (hb' k hk).trans (hb k hk)⟩, ?_⟩
    intro h hle hlt
    exact hskip hall hle hlt
  · obtain ⟨hle, hlt, htakes, hall, rfl⟩ := h
    refine ⟨by omega, hlt, htakes.buf hb, ?_, changeMap_buf hb _ _⟩
    intro h hle' hlt'
    exact hskip hall hle' hlt'

theorem allocLoop_total (n g : Nat) (s : Volume) (hn : g + n ≤ fs.groupDescCount) :
    Total (allocLoop fs p n g) s (AllocOutcome fs p s g (g + n)) := by
  induction n generalizing g s with
  | zero =>
    refine total_pure ⟨⟨s.buf, rfl, fun _ _ => rfl⟩, ?_⟩
    intro h hle hlt
    omega
  | succ n ih =>
    have hrest : ∀ b : Area, (∀ k, 512 ≤ k → b k = s.buf k) → Skipped fs p s g →
        Total (allocLoop fs p n (g + 1)) { s with buf := b }
          (AllocOutcome fs p s g (g + (n + 1))) := by
      intro b hb hg
      refine (ih (g + 1) { s with buf := b } (by omega)).mono ?_
      intro r s' h
      rw [show g + (n + 1) = g + 1 + n by omega]
      exact h.skip hb hg
    apply total_bind
    refine total_groupDesc (by omega) ?_
    split_ifs with hfree
    · exact hrest s.buf (fun _ _ => rfl) (.inl hfree)
    · apply total_bind
      refine total_modify ?_
      refine total_get ?_
      dsimp only
      rw [Nat.mul_one, show 512 * bitmapSector fs p (s.groupDescTable g) =
        s.mapStart fs p g from rfl]
      -- the buffer now shows the bits of the group
      have hb : ∀ k, 512 ≤ k → s.buf.copy 0 512 (s.disk.drop (s.mapStart fs p g)) k = s.buf k :=
        fun k hk => copy_outside (by omega)
      have hsee : ∀ j, bitmapCheck (s.buf.copy 0 512 (s.disk.drop (s.mapStart fs p g))) j =
          s.seen fs p g j :=
        fun j => bitmapCheck_copy _ _ j
      obtain ⟨hle, hbefore, hfound⟩ :=
        bitmapFind_spec (s.buf.copy 0 512 (s.disk.drop (s.mapStart fs p g)))
          (fs.blockSize * 8) 0 false
      by_cases hfull : fs.blockSize * 8 ≤
          bitmapFind (s.buf.copy 0 512 (s.disk.drop (s.mapStart fs p g))) (fs.blockSize * 8) 0 false
      · rw [if_pos hfull]
        refine hrest _ hb (.inr fun j hj => ?_)
        have hj := hbefore j (Nat.zero_le j) (by omega)
        rw [hsee, ne_eq, Bool.not_eq_false] at hj
        exact hj
      · rw [if_neg hfull]
        apply total_bind
        refine total_modify ?_
        apply total_bind
        refine total_modify ?_
        apply total_bind
        refine total_modify ?_
        refine total_pure ⟨le_rfl, by omega, ⟨hfree, by omega, ?_, ?_⟩, ?_, rfl⟩
        · rw [← hsee]
          exact (hfound (by omega)).2
        · intro j hj
          have hj := hbefore j (Nat.zero_le j) hj
          rw [hsee, ne_eq, Bool.not_eq_false] at hj
          exact hj
        · intro h hle hlt
          omega

theorem freeAt_total (hg : g < fs.groupDescCount) (index : Nat) :
    Total (freeAt fs p g index) s fun _ s' => s' = s.changeMap fs p g (fun b => bitmapClear b index)
      (· + 1) := by
  apply total_bind
  refine total_groupDesc hg ?_
  apply total_bind
  refine total_modify ?_
  apply total_bind
  refine total_modify ?_
  apply total_bind
  refine total_modify ?_
  exact total_modify rfl

end ShiziOS.Ext2
