import ShiziOS.Fs.Mount
import ShiziOS.Fs.Rules

/-!
# The search for a mount

`vfs_find_mount` goes through the tree of mounts with a stack that it allocates for the counter
of the attached mounts. The root is not counted, but it is off the stack before another is pushed.
-/

namespace ShiziOS.Fs

open Exec List Relation

variable {t : Store Mount} {root dentry cur : Ptr} {attached done stack : List Ptr} {m : Mount}

/-- The stack of up to `512` mounts is one page, as in the lookups. -/
theorem vfsFindMountWith_eq {count : Nat} (hpos : 0 < count) (hle : count ≤ 512) (dentry : Ptr) :
    vfsFindMountWith count dentry = vfsFindMount dentry := by
  have hheap : kheapAlloc (8 * count) = kheapAlloc (8 * 1) := by
    funext s
    have hpages : (8 * count + pageSize - 1) / pageSize = 1 := by
      unfold pageSize
      omega
    have hmax : 4096 ≤ kheapMax := by decide
    rw [kheapAlloc_apply, kheapAlloc_apply, if_neg (by omega), if_neg (by omega), hpages]
    rfl
  rw [vfsFindMount, vfsFindMountWith, hheap, vfsFindMountWith]

def HoldsMount (t : Store Mount) (p q : Ptr) : Prop := ∃ m, t.get p = some m ∧ q ∈ m.mntMounts

def MountedAt (t : Store Mount) (p dentry : Ptr) : Prop :=
  ∃ m, t.get p = some m ∧ m.mountpoint = some dentry

/-- The root and the mounts that are attached below it, each on one list. -/
structure MountTree (t : Store Mount) (root : Ptr) (attached : List Ptr) : Prop where
  nodup : (root :: attached).Nodup
  live : ∀ p ∈ root :: attached, ∃ m, t.get p = some m ∧ m.mntMounts.Nodup ∧ m.mntMounts ⊆ attached
  parent : ∀ p ∈ root :: attached, ∀ q ∈ root :: attached, ∀ c, HoldsMount t p c →
    HoldsMount t q c → p = q
  reached : ∀ p ∈ attached, ReflTransGen (HoldsMount t) root p

/-- A mount of the tree that is mounted there, or none if there is none. -/
def FindsMount (t : Store Mount) (dentry root : Ptr) (attached : List Ptr) : Option Ptr → Prop
  | some p => p ∈ root :: attached ∧ MountedAt t p dentry
  | none => ∀ p ∈ root :: attached, ¬MountedAt t p dentry

/-- The mounts that the loop has looked at, and its stack. -/
inductive Searches (t : Store Mount) (dentry root : Ptr) : List Ptr → List Ptr → Prop
  | start : Searches t dentry root [] [root]
  | next {done stack : List Ptr} {cur : Ptr} {m : Mount}
      (h : Searches t dentry root done (cur :: stack)) (hm : t.get cur = some m)
      (hne : m.mountpoint ≠ some dentry) :
      Searches t dentry root (cur :: done) (m.mntMounts.reverse ++ stack)

/-- Every mount but the root comes after the one that holds it. -/
structure SearchInv (t : Store Mount) (dentry root : Ptr) (attached done stack : List Ptr) :
    Prop where
  nodup : (done ++ stack).Nodup
  held : ∀ p ∈ done ++ stack, p = root ∨ p ∈ attached ∧ ∃ q ∈ done, HoldsMount t q p
  first : root ∈ done ∨ stack = [root]
  closed : ∀ p ∈ done, ∀ q, HoldsMount t p q → q ∈ done ++ stack
  other : ∀ p ∈ done, ¬MountedAt t p dentry

theorem SearchInv.start : SearchInv t dentry root attached [] [root] where
  nodup := nodup_singleton root
  held _ hp := .inl (mem_singleton.mp hp)
  first := .inr rfl
  closed := nofun
  other := nofun

theorem SearchInv.mem (h : SearchInv t dentry root attached done stack) {p : Ptr}
    (hp : p ∈ done ++ stack) : p ∈ root :: attached := by
  rcases h.held p hp with rfl | ⟨hp, -⟩
  · exact mem_cons_self
  · exact mem_cons_of_mem _ hp

theorem SearchInv.next (ht : MountTree t root attached)
    (h : SearchInv t dentry root attached done (cur :: stack)) (hm : t.get cur = some m)
    (hne : m.mountpoint ≠ some dentry) :
    SearchInv t dentry root attached (cur :: done) (m.mntMounts.reverse ++ stack) := by
  have hcur := h.mem (mem_append_right done mem_cons_self)
  obtain ⟨m', hm', hnodup, hsub⟩ := ht.live cur hcur
  cases hm.symm.trans hm'
  -- what the mount holds is new, since the one that holds it is
  have hfresh : ∀ c ∈ m.mntMounts, c ∉ done ++ cur :: stack := by
    intro c hc hmem
    rcases h.held c hmem with rfl | ⟨-, q, hq, hqc⟩
    · exact (nodup_cons.mp ht.nodup).1 (hsub hc)
    · have hqcur := ht.parent q (h.mem (mem_append_left _ hq)) cur hcur c hqc ⟨m, hm, hc⟩
      exact disjoint_of_nodup_append h.nodup (hqcur ▸ hq) mem_cons_self
  have hperm : (cur :: done ++ (m.mntMounts.reverse ++ stack)).Perm
      (m.mntMounts ++ (done ++ cur :: stack)) := by
    rw [perm_iff_count]
    intro a
    simp only [count_append, count_cons, count_reverse]
    omega
  have hmem : ∀ p, p ∈ cur :: done ++ (m.mntMounts.reverse ++ stack) ↔
      p ∈ m.mntMounts ∨ p ∈ done ++ cur :: stack := fun p => by rw [hperm.mem_iff, mem_append]
  refine ⟨hperm.nodup_iff.mpr (hnodup.append h.nodup hfresh), ?_, ?_, ?_, ?_⟩
  · intro p hp
    rcases (hmem p).mp hp with hp | hp
    · exact .inr ⟨hsub hp, cur, mem_cons_self, m, hm, hp⟩
    · exact (h.held p hp).imp_right fun ⟨hp, q, hq, hqp⟩ => ⟨hp, q, mem_cons_of_mem _ hq, hqp⟩
  · rcases h.first with hroot | hstack
    · exact .inl (mem_cons_of_mem _ hroot)
    · exact .inl (mem_cons.mpr (.inl (cons.inj hstack).1.symm))
  · intro p hp q hpq
    rw [hmem]
    rcases mem_cons.mp hp with rfl | hp
    · obtain ⟨m', hm', hq⟩ := hpq
      cases hm.symm.trans hm'
      exact .inl hq
    · exact .inr (h.closed p hp q hpq)
  · intro p hp
    rcases mem_cons.mp hp with rfl | hp
    · rintro ⟨m', hm', hpoint⟩
      cases hm.symm.trans hm'
      exact hne hpoint
    · exact h.other p hp

theorem Searches.inv (ht : MountTree t root attached) (h : Searches t dentry root done stack) :
    SearchInv t dentry root attached done stack := by
  induction h with
  | start => exact .start
  | next _ hm hne ih => exact ih.next ht hm hne

theorem SearchInv.length_le (h : SearchInv t dentry root attached done stack)
    (hone : attached ≠ []) : stack.length ≤ attached.length := by
  rcases h.first with hroot | rfl
  · refine (((nodup_append.mp h.nodup).2.1).subperm fun p hp => ?_).length_le
    rcases h.held p (mem_append_right _ hp) with rfl | ⟨hp, -⟩
    · exact (disjoint_of_nodup_append h.nodup hroot hp).elim
    · exact hp
  · exact length_pos_iff.mpr hone

theorem SearchInv.ends (ht : MountTree t root attached)
    (h : SearchInv t dentry root attached done []) : FindsMount t dentry root attached none := by
  have hroot : root ∈ done := h.first.resolve_right nofun
  have hall : ∀ p, ReflTransGen (HoldsMount t) root p → p ∈ done := by
    intro p hp
    induction hp with
    | refl => exact hroot
    | tail _ hpq ih => exact append_nil done ▸ h.closed _ ih _ hpq
  intro p hp
  rcases mem_cons.mp hp with rfl | hp
  · exact h.other p hroot
  · exact h.other p (hall p (ht.reached p hp))

variable {s : Vfs} {count : Nat}

theorem findMountLoop_finds (ht : MountTree s.mounts root attached)
    (h : Searches s.mounts dentry root done stack) {fuel : Nat}
    (hfuel : s.mounts.next ≤ fuel + done.length) :
    ∃ r, findMountLoop s dentry fuel stack = some r ∧
      FindsMount s.mounts dentry root attached r := by
  have hinv := h.inv ht
  induction fuel generalizing done stack with
  | zero =>
    have hlen := (hinv.nodup.subperm fun p hp => by
      obtain ⟨m, hm, -⟩ := ht.live p (hinv.mem hp)
      exact mem_range.mpr (Store.lt_next hm)).length_le
    rw [length_append, length_range] at hlen
    obtain rfl : stack = [] := length_eq_zero_iff.mp (by omega)
    exact ⟨none, rfl, hinv.ends ht⟩
  | succ fuel ih =>
    cases stack with
    | nil => exact ⟨none, rfl, hinv.ends ht⟩
    | cons cur stack =>
      have hcur := hinv.mem (mem_append_right done mem_cons_self)
      obtain ⟨m, hm, -⟩ := ht.live cur hcur
      simp only [findMountLoop, hm]
      split_ifs with hpoint
      · exact ⟨some cur, rfl, hcur, m, hm, hpoint⟩
      · have hnext := h.next hm hpoint
        exact ih hnext (by rw [length_cons]; omega) (hnext.inv ht)

/-- There is memory for a stack of `count` mounts. -/
def StackGranted (s : Vfs) (count : Nat) : Prop :=
  8 * count ≤ kheapMax ∧ s.heap 0 ((8 * count + pageSize - 1) / pageSize) ≠ none

theorem vfsFindMountWith_finds (ht : MountTree s.mounts root attached)
    (hroot : s.mountRoot = some root) (hpos : 0 < count) (hg : StackGranted s count) :
    Total (vfsFindMountWith count dentry) s fun r _ =>
      FindsMount s.mounts dentry root attached r := by
  obtain ⟨a, ha⟩ := Option.ne_none_iff_exists'.mp hg.2
  have hmax := hg.1
  apply total_bind
  refine ⟨some a, _, by rw [kheapAlloc_apply, if_neg (by omega), ha], ?_⟩
  apply total_get
  apply total_bind
  obtain ⟨r, hr, hfinds⟩ := findMountLoop_finds (s := { s with heap := fun k => s.heap (k + 1) }) ht
    (.start : Searches s.mounts dentry root [] [root]) (Nat.le_refl _)
  have hstack : s.mountRoot.toList = [root] := by rw [hroot, Option.toList_some]
  apply total_ofOption ((congrArg (findMountLoop _ dentry _) hstack).trans hr)
  cases r with
  | none => exact total_pure hfinds
  | some p =>
    obtain ⟨-, m, hm, -⟩ := id hfinds
    exact total_bind (total_setMount hm (total_pure hfinds))

theorem vfsFindMountWith_refused (hg : ¬StackGranted s count) :
    Total (vfsFindMountWith count dentry) s fun r _ => r = none := by
  apply total_bind
  by_cases hsize : 8 * count = 0 ∨ kheapMax < 8 * count
  · exact ⟨none, s, by rw [kheapAlloc_apply, if_pos hsize], total_pure rfl⟩
  · have hnone := not_not.mp fun hheap => hg ⟨by omega, hheap⟩
    exact ⟨none, _, by rw [kheapAlloc_apply, if_neg hsize, hnone], total_pure rfl⟩

/-- Without memory for the stack a mount that is there is not found. -/
theorem find_mount_iff (s : Vfs) (root dentry : Ptr) (attached : List Ptr) (count : Nat)
    (ht : MountTree s.mounts root attached) (hroot : s.mountRoot = some root)
    (hone : attached ≠ []) (hcount : attached.length ≤ count) :
    (Total (vfsFindMountWith count dentry) s fun r _ =>
        FindsMount s.mounts dentry root attached r) ∧
      (∀ done stack, Searches s.mounts dentry root done stack →
        (done ++ stack).Nodup ∧ stack.length ≤ count) ↔
    StackGranted s count ∨ FindsMount s.mounts dentry root attached none := by
  have hpos : 0 < count := Nat.lt_of_lt_of_le (length_pos_iff.mpr hone) hcount
  constructor
  · rintro ⟨⟨r, s', hr, hfinds⟩, -⟩
    by_cases hg : StackGranted s count
    · exact .inl hg
    · obtain ⟨_, _, hnone, rfl⟩ := vfsFindMountWith_refused hg
      cases hr.symm.trans hnone
      exact .inr hfinds
  · intro h
    refine ⟨?_, fun done stack hsearch => ?_⟩
    · by_cases hg : StackGranted s count
      · exact vfsFindMountWith_finds ht hroot hpos hg
      · refine (vfsFindMountWith_refused hg).mono fun r _ hr => ?_
        subst hr
        exact h.resolve_left hg
    · have hinv := hsearch.inv ht
      exact ⟨hinv.nodup, (hinv.length_le hone).trans hcount⟩

/-- A root with one mount on the dentry 7. -/
def mountPair : Store Mount :=
  (Store.empty.alloc ⟨0, none, 0, 1, [1]⟩).alloc ⟨0, some 7, 0, 1, []⟩

theorem mountPair_tree : MountTree mountPair 0 [1] where
  nodup := by decide
  live := by simp [mountPair, Store.alloc, Store.empty]
  parent := by simp [HoldsMount, mountPair, Store.alloc, Store.empty]
  reached := by
    intro p hp
    cases mem_singleton.mp hp
    exact .single ⟨_, rfl, mem_singleton.mpr rfl⟩

theorem find_mount_granted :
    let s : Vfs := { Vfs.start with mounts := mountPair, mountRoot := some 0 }
    (Total (vfsFindMountWith 1 7) s fun r _ => FindsMount s.mounts 7 0 [1] r) ∧
      ∀ done stack, Searches s.mounts 7 0 done stack → (done ++ stack).Nodup ∧ stack.length ≤ 1 :=
  (find_mount_iff { Vfs.start with mounts := mountPair, mountRoot := some 0 } 0 7 [1] 1
    mountPair_tree rfl nofun (Nat.le_refl 1)).mpr (.inl ⟨by decide, nofun⟩)

theorem find_mount_refused :
    let s : Vfs := { Vfs.start with
      mounts := mountPair
      mountRoot := some 0
      heap := fun _ _ => none }
    (vfsFindMountWith 1 7 s).map Prod.fst = some none ∧ MountedAt s.mounts 1 7 :=
  ⟨by decide, _, rfl, rfl⟩

end ShiziOS.Fs
