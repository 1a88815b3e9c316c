import ShiziOS.Mm.InitInv

/-!
# Runs of the page allocator

The allocator together with the blocks its callers hold. A caller may allocate at
any time; it may reference or free the first frame of a block it holds. Every such
call succeeds and keeps the lists, the metadata and the held blocks in step.
-/

namespace ShiziOS.Mm

open Dyadic List Option Function

inductive Call where
  | alloc (order zone : Nat)
  | addRef (pfn : Nat)
  | free (pfn : Nat)
deriving DecidableEq, Repr

/-- The allocator and the blocks that are out. -/
structure Sys where
  pmm : Pmm
  live : Nat → Option Live

namespace Sys

/-- The calls a caller may make: references and frees name the first frame of a held
block, and no counter overflows. -/
def Ok (s : Sys) : Call → Prop
  | .alloc _ _ => True
  | .addRef pfn => ∃ b, s.live pfn = some b ∧ b.refs + 1 < 2 ^ 32
  | .free pfn => ∃ b, s.live pfn = some b

/-- One call; `none` is a panic. A frame other than `0` returned by `pmm_alloc_pages`
is held with one reference. -/
def step (s : Sys) : Call → Option Sys
  | .alloc order zone =>
    let r := s.pmm.pmmAllocPages order zone
    some ⟨r.2, if r.1 = 0 then s.live else update s.live r.1 (some ⟨order, zone, 1⟩)⟩
  | .addRef pfn => (s.pmm.pmmAddRefCount pfn).map fun pmm =>
    ⟨pmm, update s.live pfn
      ((s.live pfn).map fun b => { b with refs := b.refs + 1 })⟩
  | .free pfn => (s.pmm.pmmFreePages pfn).map fun pmm =>
    ⟨pmm, update s.live pfn
      ((s.live pfn).bind fun b => if b.refs ≤ 1 then none else some { b with refs := b.refs - 1 })⟩

/-- One allowed call. -/
def Step (s s' : Sys) : Prop := ∃ c, s.Ok c ∧ s.step c = some s'

/-- The states after any finite sequence of allowed calls on a fresh allocator. -/
def Reaches (pmm : Pmm) (s : Sys) : Prop :=
  Relation.ReflTransGen Step ⟨pmm, fun _ => none⟩ s

end Sys

/-! ## The pages that are out -/

/-- Page `q` lies in a held block. -/
def Held (live : Nat → Option Live) (q : Nat) : Prop := ∃ p b, live p = some b ∧ In p b.order q

section Held

variable {s : Pmm} {live : Nat → Option Live} {p q : Nat} {b : Live}

theorem held_update_new (hp : live p = none) :
    Held (update live p (some b)) q ↔ Held live q ∨ In p b.order q := by
  constructor
  · rintro ⟨p', b', hb', hq⟩
    by_cases hpp : p' = p
    · subst hpp
      rw [update_self, some.injEq] at hb'
      exact .inr (hb' ▸ hq)
    · rw [update_of_ne hpp] at hb'
      exact .inl ⟨p', b', hb', hq⟩
  · rintro (⟨p', b', hb', hq⟩ | hq)
    · have hpp : p' ≠ p := by
        rintro rfl
        simp [hp] at hb'
      exact ⟨p', b', by rw [update_of_ne hpp]; exact hb', hq⟩
    · exact ⟨p, b, update_self .., hq⟩

theorem held_update_order (b' : Live) (hp : live p = some b) (ho : b'.order = b.order) :
    Held (update live p (some b')) q ↔ Held live q := by
  constructor
  · rintro ⟨p', c, hc, hq⟩
    rw [update_apply] at hc
    split_ifs at hc with hpp
    · subst hpp
      rw [some.injEq] at hc
      exact ⟨p', b, hp, by rw [← ho, hc]; exact hq⟩
    · exact ⟨p', c, hc, hq⟩
  · rintro ⟨p', c, hc, hq⟩
    by_cases hpp : p' = p
    · subst hpp
      rw [hp, some.injEq] at hc
      exact ⟨p', b', update_self .., by rw [ho, hc]; exact hq⟩
    · exact ⟨p', c, by rw [update_of_ne hpp]; exact hc, hq⟩

theorem Pmm.Inv.held_update_none (h : s.Inv live) (hp : live p = some b) :
    Held (update live p none) q ↔ Held live q ∧ ¬ In p b.order q := by
  constructor
  · rintro ⟨p', c, hc, hq⟩
    have hpp : p' ≠ p := by
      rintro rfl
      simp at hc
    rw [update_of_ne hpp] at hc
    exact ⟨⟨p', c, hc, hq⟩, fun hq' => hpp ((h.live hc).unique (h.live hp) hq hq')⟩
  · rintro ⟨⟨p', c, hc, hq⟩, hnot⟩
    have hpp : p' ≠ p := by
      rintro rfl
      rw [hp, some.injEq] at hc
      exact hnot (hc ▸ hq)
    exact ⟨p', c, by rw [update_of_ne hpp]; exact hc, hq⟩

theorem Pmm.Inv.live_eq_none (h : s.Inv live) {z o : Nat} (hp : p ∈ s.freeAreas z o) :
    live p = none := by
  rcases hl : live p with _ | b
  · rfl
  · exact absurd (in_self p b.order)
      ((h.listed hp).not_in_live (h.live hl) (in_self p o))

end Held

/-! ## One call -/

/-- Page `q` is free or out. -/
def Sys.Managed (s : Sys) (q : Nat) : Prop := (s.pmm.blocks q).isFree = true ∨ Held s.live q

namespace Pmm

variable {s s' : Pmm}

theorem removeFreeLists_endPfn (s : Pmm) (p : Nat) : (s.removeFreeLists p).endPfn = s.endPfn := by
  unfold removeFreeLists
  split_ifs <;> rfl

theorem takeBlock_endPfn (s : Pmm) (p o : Nat) : (s.takeBlock p o).endPfn = s.endPfn :=
  removeFreeLists_endPfn s p

theorem mergeBuddyBlock_endPfn {p p' : Nat} (h : s.mergeBuddyBlock p p' = some s') :
    s'.endPfn = s.endPfn := by
  simp only [mergeBuddyBlock, ite_none_left_eq_some, some.injEq] at h
  obtain ⟨-, -, rfl⟩ := h
  exact (removeFreeLists_endPfn _ _).trans (removeFreeLists_endPfn _ _)

theorem mergeUp_endPfn (s : Pmm) (z fuel p o : Nat) : (s.mergeUp z fuel p o).endPfn = s.endPfn := by
  induction fuel generalizing s p o with
  | zero => rfl
  | succ fuel ih =>
    unfold mergeUp
    dsimp only
    split
    · cases hmerge : s.mergeBuddyBlock p (p ^^^ 2 ^ o) with
      | none => rfl
      | some s' => exact (ih s' _ _).trans (mergeBuddyBlock_endPfn hmerge)
    · rfl

theorem pmmFreePages_endPfn {p : Nat} (h : s.pmmFreePages p = some s') : s'.endPfn = s.endPfn := by
  simp only [pmmFreePages, ite_none_left_eq_some] at h
  obtain ⟨-, h⟩ := h
  split_ifs at h <;> rw [← some_inj.mp h]
  · rfl
  · exact mergeUp_endPfn ..

end Pmm

namespace Sys

open Pmm

variable {s s' : Sys} {p : Nat} {b : Live}

theorem alloc_effect (h : s.pmm.Inv s.live) (order zone : Nat) :
    ∃ s', s.step (.alloc order zone) = some s' ∧ s'.pmm.Inv s'.live ∧
      s'.pmm.endPfn = s.pmm.endPfn ∧
      ((s.pmm.pmmAllocPages order zone).1 = 0 ∧ s'.live = s.live ∧
        (∀ q, (s'.pmm.blocks q).isFree = (s.pmm.blocks q).isFree) ∨
      (s.pmm.pmmAllocPages order zone).1 ≠ 0 ∧
        s.live (s.pmm.pmmAllocPages order zone).1 = none ∧
        s'.live = update s.live (s.pmm.pmmAllocPages order zone).1 (some ⟨order, zone, 1⟩) ∧
        (∀ q, (s'.pmm.blocks q).isFree = true ↔ (s.pmm.blocks q).isFree = true ∧
          ¬ In (s.pmm.pmmAllocPages order zone).1 order q) ∧
        ∀ q, In (s.pmm.pmmAllocPages order zone).1 order q → (s.pmm.blocks q).isFree = true) := by
  refine ⟨_, rfl, ?_⟩
  rcases h.pmmAllocPages_cases order zone with ⟨he, -⟩ | ⟨n, p, -, -, hp, he⟩
  · simp only [he, if_true]
    exact ⟨h, trivial, .inl ⟨trivial, trivial, fun q => trivial⟩⟩
  obtain ⟨hinv, -, hfree, hend⟩ := h.splitDown (o := order) n hp
  split_ifs at he with h0
  · simp only [he, if_true]
    exact ⟨hinv, hend, .inl ⟨trivial, trivial, hfree⟩⟩
  · obtain ⟨htaken, -, hfree'⟩ := h.alloc_taken hp h0
    simp only [he, if_neg h0]
    refine ⟨htaken, (takeBlock_endPfn ..).trans hend,
      .inr ⟨h0, h.live_eq_none hp, trivial, hfree', fun q hq => ?_⟩⟩
    -- the taken part lies in the block that was found
    have hq' : In p (order + n) q := ⟨hq.1, hq.2.trans_le (Nat.add_le_add_left
      (Nat.pow_le_pow_right (by decide) (Nat.le_add_right order n)) p)⟩
    rw [(h.listed hp).blocks_eq q hq']
    rfl

theorem addRef_effect (h : s.pmm.Inv s.live) (hb : s.live p = some b)
    (hrefs : b.refs + 1 < 2 ^ 32) :
    ∃ s', s.step (.addRef p) = some s' ∧ s'.pmm.Inv s'.live ∧ s'.pmm.endPfn = s.pmm.endPfn ∧
      s'.live = update s.live p (some { b with refs := b.refs + 1 }) ∧
      ∀ q, (s'.pmm.blocks q).isFree = (s.pmm.blocks q).isFree := by
  obtain ⟨t, ht, hinv, -, hfree⟩ := h.pmmAddRefCount hb hrefs
  refine ⟨⟨t, update s.live p (some { b with refs := b.refs + 1 })⟩, ?_, hinv, ?_, rfl, hfree⟩
  · simp only [step, ht, hb, map_some]
  · simp only [Pmm.pmmAddRefCount, Option.ite_none_left_eq_some, some.injEq] at ht
    rw [← ht.2]

theorem free_effect (h : s.pmm.Inv s.live) (hb : s.live p = some b) :
    ∃ s', s.step (.free p) = some s' ∧ s'.pmm.Inv s'.live ∧ s'.pmm.endPfn = s.pmm.endPfn ∧
      s'.live = update s.live p
        (if b.refs ≤ 1 then none else some { b with refs := b.refs - 1 }) ∧
      ∀ q, (s'.pmm.blocks q).isFree = true ↔
        (s.pmm.blocks q).isFree = true ∨ b.refs ≤ 1 ∧ In p b.order q := by
  have hpos := (h.live hb).refs_pos
  by_cases hone : b.refs ≤ 1
  · obtain ⟨t, ht, hinv, hfree⟩ := h.pmmFreePages_last_inv hb (by omega)
    refine ⟨⟨t, update s.live p none⟩, ?_, hinv, pmmFreePages_endPfn ht, by rw [if_pos hone],
      fun q => ?_⟩
    · simp only [step, ht, hb, map_some, bind_some, if_pos hone]
    · rw [hfree, and_iff_right hone]
  · obtain ⟨t, ht, hinv, -, hfree⟩ := h.pmmFreePages_shared hb (by omega)
    refine ⟨⟨t, update s.live p (some { b with refs := b.refs - 1 })⟩, ?_, hinv,
      pmmFreePages_endPfn ht, by rw [if_neg hone], fun q => ?_⟩
    · simp only [step, ht, hb, map_some, bind_some, if_neg hone]
    · rw [hfree, or_iff_left fun hq => hone hq.1]

theorem step_inv (h : s.pmm.Inv s.live) {c : Call} (hok : s.Ok c) :
    ∃ s', s.step c = some s' ∧ s'.pmm.Inv s'.live ∧ ∀ q, s'.Managed q ↔ s.Managed q := by
  cases c with
  | alloc order zone =>
    obtain ⟨s', hs, hinv, -, ⟨-, hlive, hfree⟩ | ⟨-, hnone, hlive, hfree, htaken⟩⟩ :=
      alloc_effect h order zone
    · refine ⟨s', hs, hinv, fun q => ?_⟩
      rw [Managed, Managed, hfree, hlive]
    · refine ⟨s', hs, hinv, fun q => ?_⟩
      rw [Managed, Managed, hfree, hlive, held_update_new hnone]
      tauto
  | addRef p =>
    obtain ⟨b, hb, hrefs⟩ := hok
    obtain ⟨s', hs, hinv, -, hlive, hfree⟩ := addRef_effect h hb hrefs
    refine ⟨s', hs, hinv, fun q => ?_⟩
    rw [Managed, Managed, hfree, hlive, held_update_order { b with refs := b.refs + 1 } hb rfl]
  | free p =>
    obtain ⟨b, hb⟩ := hok
    obtain ⟨s', hs, hinv, -, hlive, hfree⟩ := free_effect h hb
    refine ⟨s', hs, hinv, fun q => ?_⟩
    rw [Managed, Managed, hfree, hlive]
    by_cases hone : b.refs ≤ 1
    · have hin : In p b.order q → Held s.live q := fun hq => ⟨p, b, hb, hq⟩
      rw [if_pos hone, h.held_update_none hb]
      tauto
    · rw [if_neg hone, held_update_order { b with refs := b.refs - 1 } hb rfl]
      tauto

theorem reaches_inv {pmm : Pmm} (h : pmm.Inv fun _ => none) (hreach : Reaches pmm s) :
    s.pmm.Inv s.live ∧ ∀ q, s.Managed q ↔ (pmm.blocks q).isFree = true := by
  induction hreach with
  | refl => exact ⟨h, fun q => ⟨fun hq => hq.resolve_right (by simp [Held]), .inl⟩⟩
  | tail _ hstep ih =>
    obtain ⟨hinv, hman⟩ := ih
    obtain ⟨c, hok, hs⟩ := hstep
    obtain ⟨s', hs', hinv', hman'⟩ := step_inv hinv hok
    rw [hs, some.injEq] at hs'
    subst hs'
    exact ⟨hinv', fun q => (hman' q).trans (hman q)⟩

/-! ## The contract -/

/-- What holds after every call, for an allocator that started as `pmm`. -/
structure Sound (pmm : Pmm) (s : Sys) : Prop where
  nodup : ∀ z o, (s.pmm.freeAreas z o).Nodup
  /-- An entry of a list is an aligned block inside the zone of the list. -/
  entry : ∀ z o p, p ∈ s.pmm.freeAreas z o →
    2 ^ o ∣ p ∧ s.pmm.startPfn z ≤ p ∧ p + 2 ^ o ≤ s.pmm.endPfn z
  /-- The metadata of every page of an entry describe the block. -/
  entry_page : ∀ z o p q, p ∈ s.pmm.freeAreas z o → In p o q →
    (s.pmm.blocks q).isFree = true ∧ (s.pmm.blocks q).order = o ∧ (s.pmm.blocks q).zone = z ∧
      ((s.pmm.blocks q).isHead = true ↔ q = p)
  /-- A free page lies in exactly one listed block. -/
  free_once : ∀ q, (s.pmm.blocks q).isFree = true →
    ∃! t : Nat × Nat × Nat, t.2.2 ∈ s.pmm.freeAreas t.1 t.2.1 ∧ In t.2.2 t.2.1 q
  listed_disjoint : ∀ z o p z' o' p' q, p ∈ s.pmm.freeAreas z o → p' ∈ s.pmm.freeAreas z' o' →
    In p o q → In p' o' q → z = z' ∧ o = o' ∧ p = p'
  live_disjoint : ∀ p b p' b' q, s.live p = some b → s.live p' = some b' →
    In p b.order q → In p' b'.order q → p = p'
  listed_live_disjoint : ∀ z o p p' b q, p ∈ s.pmm.freeAreas z o → s.live p' = some b →
    In p o q → ¬ In p' b.order q
  /-- The listed and the held blocks cover the pages that were free at the start. -/
  cover : ∀ q, ((∃ z o p, p ∈ s.pmm.freeAreas z o ∧ In p o q) ∨ Held s.live q) ↔
    (pmm.blocks q).isFree = true

theorem sound_of_inv {pmm : Pmm} (h : s.pmm.Inv s.live)
    (hman : ∀ q, s.Managed q ↔ (pmm.blocks q).isFree = true) : Sound pmm s where
  nodup := h.nodup
  entry := fun z o p hp => ⟨(h.listed hp).aligned, (h.listed hp).start_le, (h.listed hp).le_end⟩
  entry_page := by
    intro z o p q hp hq
    rw [(h.listed hp).blocks_eq q hq]
    refine ⟨rfl, rfl, rfl, ?_⟩
    have := hq.1
    simp only [freeMeta, beq_iff_eq]
    omega
  free_once := by
    intro q hq
    obtain ⟨z, o, p, hp, hin⟩ := h.free_listed hq
    refine ⟨(z, o, p), ⟨hp, hin⟩, ?_⟩
    rintro ⟨z', o', p'⟩ ⟨hp', hin'⟩
    obtain ⟨rfl, rfl, rfl⟩ := (h.mem_iff_of_in hp hin).mp ⟨hp', hin'⟩
    rfl
  listed_disjoint := fun z o p z' o' p' q hp hp' hq hq' =>
    (h.listed hp).unique (h.listed hp') hq hq'
  live_disjoint := fun p b p' b' q hb hb' hq hq' => (h.live hb).unique (h.live hb') hq hq'
  listed_live_disjoint := fun z o p p' b q hp hb hq => (h.listed hp).not_in_live (h.live hb) hq
  cover := by
    intro q
    rw [← hman q]
    refine or_congr_left ⟨?_, h.free_listed⟩
    rintro ⟨z, o, p, hp, hq⟩
    rw [(h.listed hp).blocks_eq q hq]
    rfl

theorem alloc_live (h : s.pmm.Inv s.live) {order zone : Nat}
    (hs : s.step (.alloc order zone) = some s') (hr : (s.pmm.pmmAllocPages order zone).1 ≠ 0) :
    s.live (s.pmm.pmmAllocPages order zone).1 = none ∧
      s'.live (s.pmm.pmmAllocPages order zone).1 = some ⟨order, zone, 1⟩ ∧
      s'.pmm.LiveBlock (s.pmm.pmmAllocPages order zone).1 ⟨order, zone, 1⟩ := by
  obtain ⟨t, ht, hinv, -, ⟨h0, -⟩ | ⟨-, hnone, hlive, -⟩⟩ := alloc_effect h order zone
  · exact absurd h0 hr
  · obtain rfl := some.inj (hs.symm.trans ht)
    have hself := (congrFun hlive _).trans (update_self ..)
    exact ⟨hnone, hself, hinv.live hself⟩

end Sys

theorem pmmInit_inv {boot : Boot} {pmm : Pmm} (hinit : pmmInit boot = some pmm) :
    pmm.Inv fun _ => none := by
  obtain ⟨hmax, map, -, rfl⟩ := pmmInit_eq hinit
  exact buddyInit_inv hmax map

/-- The contract of the page allocator, over every memory map and every run: each
state is sound, allowed calls do not panic, and what an allocation returns is a live
block of the order and zone asked for. -/
theorem pmm_run_sound {boot : Boot} {pmm : Pmm} {s : Sys} (hinit : pmmInit boot = some pmm)
    (hreach : Sys.Reaches pmm s) :
    Sys.Sound pmm s ∧ (∀ c, s.Ok c → (s.step c).isSome) ∧
      ∀ order zone s', s.step (.alloc order zone) = some s' →
        (s.pmm.pmmAllocPages order zone).1 ≠ 0 →
          s.live (s.pmm.pmmAllocPages order zone).1 = none ∧
          s'.live (s.pmm.pmmAllocPages order zone).1 = some ⟨order, zone, 1⟩ ∧
          s'.pmm.LiveBlock (s.pmm.pmmAllocPages order zone).1 ⟨order, zone, 1⟩ := by
  obtain ⟨hinv, hman⟩ := Sys.reaches_inv (pmmInit_inv hinit) hreach
  refine ⟨Sys.sound_of_inv hinv hman, fun c hok => ?_, fun order zone s' hs hr => ?_⟩
  · obtain ⟨s', hs', -⟩ := Sys.step_inv hinv hok
    rw [hs']
    rfl
  · exact Sys.alloc_live hinv hs hr

/-- A machine with 4098 frames whose frame `0` is in use. -/
def smallBoot : Boot where
  mmap := [⟨0, 4098 * 4096 + mmapFree⟩]
  bootBitmap := fun pfn => pfn == 0
  bootBitmapPhys := 16 * 4096

theorem smallBoot_init : (pmmInit smallBoot).isSome = true ∧
    4096 ≤ calculateMaxPfn smallBoot.mmap := by
  decide +kernel

theorem smallBoot_alloc : ((pmmInit smallBoot).map fun pmm =>
    (pmm.pmmAllocPages 0 zoneDma32).1) = some 4096 := by
  decide +kernel

theorem pmm_run_sound_smallBoot : ∃ pmm s, pmmInit smallBoot = some pmm ∧
    4096 ≤ calculateMaxPfn smallBoot.mmap ∧
    Sys.step ⟨pmm, fun _ => none⟩ (.alloc 3 zoneDma) = some s ∧ Sys.Sound pmm s := by
  obtain ⟨pmm, hinit⟩ := isSome_iff_exists.mp smallBoot_init.1
  refine ⟨pmm, _, hinit, smallBoot_init.2, rfl, ?_⟩
  exact (pmm_run_sound hinit
    (Relation.ReflTransGen.single ⟨.alloc 3 zoneDma, trivial, rfl⟩)).1

/-! ## The history of one block -/

namespace Sys

/-- `t` is the state after the calls `cs`, each of them allowed. -/
def Trace (s : Sys) : List Call → Sys → Prop
  | [], t => t = s
  | c :: cs, t => s.Ok c ∧ ∃ s', s.step c = some s' ∧ s'.Trace cs t

variable {s s' : Sys} {p : Nat} {b : Live}

theorem step_live (h : s.pmm.Inv s.live) (hb : s.live p = some b) {c : Call}
    (hs : s.step c = some s') : s'.live p =
      if c = .addRef p then some { b with refs := b.refs + 1 }
      else if c = .free p then if b.refs ≤ 1 then none else some { b with refs := b.refs - 1 }
      else some b := by
  cases c with
  | alloc order zone =>
    have hne : (s.pmm.pmmAllocPages order zone).1 ≠ 0 →
        p ≠ (s.pmm.pmmAllocPages order zone).1 := by
      rintro hr rfl
      rw [(alloc_live h hs hr).1] at hb
      cases hb
    cases hs
    simp only [reduceCtorEq, if_false]
    split_ifs with hr
    · exact hb
    · rw [update_of_ne (hne hr), hb]
  | addRef q | free q =>
    obtain ⟨t, -, rfl⟩ := map_eq_some_iff.mp hs
    by_cases hq : q = p
    · subst hq
      simp [hb]
    · simp [hq, update_of_ne (Ne.symm hq), hb]

/-- As long as it was freed less often than it was referenced, a block stays with its
order and its zone, and its references are the difference. -/
theorem trace_live (h : s.pmm.Inv s.live) (hb : s.live p = some b) {cs : List Call} {t : Sys}
    (ht : s.Trace cs t)
    (hheld : ∀ n, (cs.take n).count (.free p) < b.refs + (cs.take n).count (.addRef p)) :
    t.pmm.Inv t.live ∧ t.live p =
      some { b with refs := b.refs + cs.count (.addRef p) - cs.count (.free p) } := by
  induction cs generalizing s b with
  | nil =>
    obtain rfl := ht
    exact ⟨h, hb⟩
  | cons c cs ih =>
    obtain ⟨hok, s', hs, ht⟩ := ht
    obtain ⟨t', ht', hinv, -⟩ := step_inv h hok
    obtain rfl : s' = t' := some_inj.mp (hs.symm.trans ht')
    have hfirst := hheld 1
    have hrest : ∀ n, _ := fun n => hheld (n + 1)
    simp only [take_succ_cons, take_zero, count_cons, count_nil, beq_iff_eq] at hfirst hrest ⊢
    obtain ⟨n, hlive, hn⟩ : ∃ n, s'.live p = some { b with refs := n } ∧
        n + (if c = .free p then 1 else 0) = b.refs + if c = .addRef p then 1 else 0 := by
      rw [step_live h hb hs]
      by_cases hadd : c = .addRef p
      · subst hadd
        exact ⟨b.refs + 1, by simp⟩
      split_ifs at hfirst ⊢ with hfree hone
      · omega
      · exact ⟨b.refs - 1, rfl, by omega⟩
      · exact ⟨b.refs, rfl, rfl⟩
    refine (ih hinv hlive ht fun k => ?_).imp_right fun he => ?_
    · have := hrest k
      dsimp only
      omega
    · rw [he]
      congr 2
      dsimp only
      omega

end Sys

/-- Reference counts over whole histories. A block that has `b.refs` references is held,
with all its pages alike, until it has been freed `b.refs` times more often than
referenced; that free returns all its pages to the lists. -/
theorem block_freed_by_last_free {boot : Boot} {pmm : Pmm} {s t : Sys} {p : Nat} {b : Live}
    {cs : List Call} (hinit : pmmInit boot = some pmm) (hreach : Sys.Reaches pmm s)
    (hb : s.live p = some b) (ht : s.Trace cs t)
    (hheld : ∀ n, (cs.take n).count (.free p) < b.refs + (cs.take n).count (.addRef p)) :
    t.pmm.LiveBlock p
        { b with refs := b.refs + cs.count (.addRef p) - cs.count (.free p) } ∧
      (∀ z o p', p' ∈ t.pmm.freeAreas z o → ∀ q, In p b.order q → ¬ In p' o q) ∧
      ∃ t', t.step (.free p) = some t' ∧
        if b.refs + cs.count (.addRef p) = cs.count (.free p) + 1 then
          t'.live p = none ∧ ∀ q, In p b.order q → ∃ z o p', p' ∈ t'.pmm.freeAreas z o ∧ In p' o q
        else t'.pmm.LiveBlock p
          { b with refs := b.refs + cs.count (.addRef p) - cs.count (.free p) - 1 } := by
  obtain ⟨hinv, -⟩ := Sys.reaches_inv (pmmInit_inv hinit) hreach
  obtain ⟨hinv', hlive⟩ := Sys.trace_live hinv hb ht hheld
  have hlast := hheld cs.length
  rw [take_length] at hlast
  obtain ⟨t', hstep, hinv'', -, hupd, hfree⟩ := Sys.free_effect hinv' hlive
  have hlive' := (congrFun hupd p).trans (update_self ..)
  dsimp only at hlive'
  refine ⟨hinv'.live hlive, fun z o p' hp' q hq hq' => ?_, t', hstep, ?_⟩
  · exact (hinv'.listed hp').not_in_live (hinv'.live hlive) hq' hq
  split_ifs with hone
  · rw [if_pos (by omega)] at hlive'
    refine ⟨hlive', fun q hq => hinv''.free_listed ((hfree q).mpr (.inr ⟨?_, hq⟩))⟩
    dsimp only
    omega
  · rw [if_neg (by omega)] at hlive'
    exact hinv''.live hlive'

theorem block_freed_by_last_free_shared : ∃ pmm s t, pmmInit smallBoot = some pmm ∧
    Sys.step ⟨pmm, fun _ => none⟩ (.alloc 0 zoneDma32) = some s ∧
    s.step (.addRef 4096) = some t ∧ t.pmm.LiveBlock 4096 ⟨0, zoneDma32, 2⟩ := by
  obtain ⟨pmm, hinit, hp⟩ := map_eq_some_iff.mp smallBoot_alloc
  have hfresh : (Sys.mk pmm fun _ => none).pmm.Inv _ := pmmInit_inv hinit
  obtain ⟨s, hs, hinv, -⟩ := Sys.alloc_effect hfresh 0 zoneDma32
  have hreach : Sys.Reaches pmm s := Relation.ReflTransGen.single ⟨.alloc 0 zoneDma32, trivial, hs⟩
  have hb := (Sys.alloc_live hfresh hs (by simp only [hp]; decide)).2.1
  simp only [hp] at hb
  obtain ⟨t, ht, -⟩ := Sys.addRef_effect hinv hb (by decide)
  refine ⟨pmm, s, t, hinit, hs, ht, ?_⟩
  have htrace : s.Trace [.addRef 4096] t := ⟨⟨_, hb, by decide⟩, t, ht, rfl⟩
  exact (block_freed_by_last_free hinit hreach hb htrace fun n => by
    cases n <;> simp).1

end ShiziOS.Mm
