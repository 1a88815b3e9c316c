import ShiziOS.Fs.LookupTree
import ShiziOS.Fs.Mount
import ShiziOS.Fs.Vfs

/-!
# Lookups against the tree

On a state that holds a tree, with a heap that grants every request, the loop of
`vfs_path_lookup` goes the way of `Tree.walk` up to the first fault, and what it does from
there on is known. So a lookup gives what the path means exactly if there is no fault on the
way or the fault ends in an error that fits.
-/

namespace ShiziOS.Fs

open Exec List Vfs
open Env (start)

variable {env : Env} {s0 s s' : Vfs} {root : Ptr} {pwd : Path} {flags : Flags}

/-! ## The loop without a bound -/

/-- The loop with as many rounds as it can take. -/
def lookupRun (env : Env) (flags : Flags) (pwd : Path) (stack : List Prs) : K (Except Errno Path) :=
  lookupLoop env flags pwd (weight stack + 1) stack

variable {stack : List Prs} {prs : Prs} {p : Path} {w : Dentry} {target : List Char}
  {r : Option (Except Errno Path × Vfs)} {wd : Ptr}

theorem lookupRun_next {stack' : List Prs}
    (h : lookupRound env flags pwd stack s = some (.next stack', s')) :
    lookupRun env flags pwd stack s = lookupRun env flags pwd stack' s' := by
  have hw := (lookupRound_next env flags pwd stack _ _ h stack' rfl).weight_lt
  rw [lookupRun, lookupLoop, bind_apply, h]
  exact lookupLoop_fuel env flags pwd hw (Nat.lt_succ_self _) s'

theorem lookupRun_done {res : Except Errno Path}
    (h : lookupRound env flags pwd stack s = some (.done res, s')) :
    lookupRun env flags pwd stack s = some (res, s') := by
  rw [lookupRun, lookupLoop, bind_apply, h]
  rfl

theorem lookupRun_none (h : lookupRound env flags pwd stack s = none) :
    lookupRun env flags pwd stack s = none := by
  rw [lookupRun, lookupLoop, bind_apply, h]
  rfl

/-! ## Stacks of parsers in a tree -/

/-- The path of a parser leads to a dentry of the root mount, with the inode `n` or none. -/
def Prs.At (prs : Prs) (env : Env) (s : Vfs) (n : Option Ptr) : Prop :=
  ∃ p d, prs.currPath = some p ∧ p.mnt = env.vfsRoot.mnt ∧ s.dentries.get p.dentry = some d ∧
    d.inode = n

/-- The path leads to a dentry of the root mount on which nothing is mounted. -/
def Reaches (env : Env) (s : Vfs) (p : Path) (n : Option Ptr) : Prop :=
  ∃ w, p.mnt = env.vfsRoot.mnt ∧ s.dentries.get p.dentry = some w ∧ w.inode = n ∧ w.mounted = false

/-- The state in the course of a lookup: every parser holds a reference, and the names that are
left are not too long for the heap. -/
structure Good (env : Env) (s₀ : Vfs) (stack : List Prs) (s : Vfs) : Prop where
  quiet : Quiet s₀ s
  heap : Granting s.heap
  alive : Alive s env.vfsRoot.mnt stack.length
  frames : ∀ f ∈ stack, ∃ n, f.At env s n
  short : ∀ f ∈ stack, ∀ c ∈ f.rest, c.length + 1 ≤ kheapMax

theorem Prs.At.quiet {n : Option Ptr} (h : prs.At env s n) (hq : Quiet s s') : prs.At env s' n := by
  obtain ⟨p, d, hp, hm, hd, hn⟩ := h
  obtain ⟨d', hd', hi, -⟩ := hq.dentry hd
  exact ⟨p, d', hp, hm, hd', hi.trans hn⟩

theorem Reaches.quiet {n : Option Ptr} (h : Reaches env s p n) (hq : Quiet s s') :
    Reaches env s' p n := by
  obtain ⟨w, hm, hw, hwi, hwm⟩ := h
  obtain ⟨w', hw', hi, hm'⟩ := hq.dentry hw
  exact ⟨w', hm, hw', hi.trans hwi, hm'.trans hwm⟩

theorem Reaches.at {n : Option Ptr} (h : Reaches env s p n) (hp : prs.currPath = some p) :
    prs.At env s n := by
  obtain ⟨w, hm, hw, hwi, -⟩ := h
  exact ⟨p, w, hp, hm, hw, hwi⟩

theorem Good.step (h : Good env s0 stack s) (hq : Quiet s s') (hg : Granting s'.heap)
    (ha : Alive s' env.vfsRoot.mnt stack.length) : Good env s0 stack s' := by
  refine ⟨h.quiet.trans hq, hg, ha, ?_, h.short⟩
  intro f hf
  obtain ⟨n, hn⟩ := h.frames f hf
  exact ⟨n, hn.quiet hq⟩

theorem Good.cons {below : List Prs} {n : Option Ptr} (h : Good env s0 stack s)
    (hsub : below ⊆ stack) (hq : Quiet s s') (hg : Granting s'.heap)
    (ha : Alive s' env.vfsRoot.mnt (below.length + 1)) (hat : prs.At env s' n)
    (hshort : ∀ c ∈ prs.rest, c.length + 1 ≤ kheapMax) : Good env s0 (prs :: below) s' := by
  refine ⟨h.quiet.trans hq, hg, ha, forall_mem_cons.mpr ⟨⟨n, hat⟩, ?_⟩,
    forall_mem_cons.mpr ⟨hshort, fun f hf => h.short f (hsub hf)⟩⟩
  intro f hf
  obtain ⟨x, hx⟩ := h.frames f (hsub hf)
  exact ⟨x, hx.quiet hq⟩

theorem putStack_total (env : Env) {l : List Prs} (ha : Alive s env.vfsRoot.mnt l.length)
    (hf : ∀ f ∈ l, ∃ n, f.At env s n) : Total (putStack l) s fun _ _ => True := by
  induction l generalizing s with
  | nil => exact total_pure trivial
  | cons prs l ih =>
    obtain ⟨n, p, d, hp, hm, hd, -⟩ := hf prs (mem_cons_self ..)
    rw [putStack, hp]
    apply total_bind
    rw [← hm] at ha
    refine ((total_vfsPathPut ha hd).and_spec (keeps_vfsPathPut p s)).mono ?_
    rintro _ s1 ⟨⟨ha1, -⟩, hq⟩
    refine ih (hm ▸ ha1) ?_
    intro f hfl
    obtain ⟨n, hn⟩ := hf f (mem_cons_of_mem _ hfl)
    exact ⟨n, hn.quiet hq⟩

theorem Good.failRound (h : Good env s0 stack s) (e : Errno) :
    Total (failRound stack e) s fun r _ => r = .done (.error e) := by
  apply total_bind
  refine (putStack_total env ?_ ?_).mono fun _ _ _ => total_pure rfl
  · rw [length_reverse]
    exact h.alive
  · intro f hf
    exact h.frames f (mem_reverse.mp hf)

/-! ## One call of the parser -/

variable {prs : Prs} {below : List Prs} {n : Ptr} {i : Inode} {c : Name} {cs : List Name}

theorem vfsPathPrsNext_end (pwd : Path) {x : Option Ptr} (hat : prs.At env s x)
    (hr : prs.rest = []) :
    ∃ prs', vfsPathPrsNext env prs pwd s = some ((prs', .ok none), s) ∧ prs'.currPath =
      prs.currPath ∧
      prs'.rest = [] := by
  obtain ⟨p, d, hp, -⟩ := hat
  refine ⟨⟨prs.path, some p, skipSlashes prs.path prs.offset⟩, ?_, hp.symm, ?_⟩
  · rw [vfsPathPrsNext_nil env hr, prsStart, hp]
    rfl
  · rw [Prs.rest, components_drop_skipSlashes]
    exact hr

theorem prsStep_total {v : Dentry} (ht : s0.IsTree env root) (hq : Quiet s0 s)
    (hg : Granting s.heap) (hl : c.length + 1 ≤ kheapMax) {k : Nat} (ha : Alive s p.mnt k)
    (hp : s.dentries.get p.dentry = some v) (hn : v.inode = some n)
    (hi : s0.inodes.get n = some i) :
    Total (prsStep env p c) s fun r s' => ∃ d, r = .ok ⟨p.mnt, d⟩ ∧ Alive s' p.mnt k ∧
      Granting s'.heap ∧ ∃ w, s'.dentries.get d = some w ∧ w.inode = s0.entry env i c ∧
        w.mounted = false := by
  refine ((prsDentry_total ht hq hg hl hp hn hi).and_spec (prsDentry_spec p.dentry c)).bind ?_
  rintro d s1 ⟨⟨hm1, hg1, w, hw, hwi, hwm⟩, hq1, -⟩
  apply total_bind
  apply total_kheapAlloc (hg1 _ _) Nat.one_pos (by decide)
  intro a
  refine ((total_vfsMntget (k := k) ?_).and_spec (keeps_vfsMntget p.mnt _)).bind ?_
  · exact ha.mounts hm1
  rintro _ s2 ⟨⟨ha2, hh2, -⟩, hq2⟩
  have hq₁₂ : Quiet s1 s2 := (quiet_heap _).trans hq2
  obtain ⟨v2, hv2, -⟩ := (hq1.trans hq₁₂).dentries p.dentry v hp
  refine ((total_vfsPathPut ha2 hv2).and_spec (keeps_vfsPathPut p s2)).bind ?_
  rintro _ s3 ⟨⟨ha3, hh3⟩, hq3⟩
  obtain ⟨w3, hw3, hi3, hm3⟩ := (hq₁₂.trans hq3).dentry hw
  refine total_pure ⟨d, rfl, ha3, ?_, w3, hw3, hi3.trans hwi, hm3.trans hwm⟩
  rw [hh3, hh2]
  exact hg1.tail

theorem Good.next (pwd : Path) (ht : s0.IsTree env root) (h : Good env s0 (prs :: below) s)
    (hat : prs.At env s (some n)) (hi : s0.inodes.get n = some i) (hr : prs.rest = c :: cs) :
    ∃ prs' p s', vfsPathPrsNext env prs pwd s = some ((prs', .ok (some p)), s') ∧ prs'.rest = cs ∧
      prs'.currPath = some p ∧ Good env s0 (prs' :: below) s' ∧
      Reaches env s' p (s0.entry env i c) := by
  obtain ⟨p, v, hp, hm, hv, hn⟩ := hat
  have hshort := h.short prs (mem_cons_self ..)
  rw [hr] at hshort
  obtain ⟨_, s', hs, ⟨d, rfl, ha, hg, w, hw, hwi, hwm⟩, hq, -⟩ :=
    (prsStep_total ht h.quiet h.heap (hshort c (mem_cons_self ..)) (hm ▸ h.alive) hv hn
      hi).and_spec (prsStep_spec p c)
  obtain ⟨-, -, hcs⟩ := Prs.nameAt_cons hr
  have hat' : Reaches env s' ⟨p.mnt, d⟩ (s0.entry env i c) := ⟨w, hm, hw, hwi, hwm⟩
  refine ⟨⟨prs.path, some ⟨p.mnt, d⟩, skipSlashes prs.path prs.offset + c.length⟩, ⟨p.mnt, d⟩, s',
    ?_, hcs, rfl, ?_, hat'⟩
  · rw [vfsPathPrsNext_cons env hr, prsStart, hp]
    refine bind_eq_some.mpr ⟨some p, s, rfl, ?_⟩
    exact bind_eq_some.mpr ⟨.ok ⟨p.mnt, d⟩, s', hs, rfl⟩
  · refine h.cons (subset_cons_self ..) hq hg (hm ▸ ha) (hat'.at rfl) ?_
    rw [Prs.rest, hcs]
    exact fun b hb => hshort b (mem_cons_of_mem _ hb)

theorem Good.next_null (ht : s0.IsTree env root) (h : Good env s0 (prs :: below) s)
    (hat : prs.At env s none) (hr : prs.rest = c :: cs) : vfsPathPrsNext env prs pwd s = none := by
  obtain ⟨p, v, hp, hm, hv, hn⟩ := hat
  have hc : c.length + 1 ≤ kheapMax := h.short prs (mem_cons_self ..) c (hr ▸ mem_cons_self ..)
  have hstep : prsStep env p c s = none :=
    bind_eq_none_left (prsDentry_null ht h.quiet h.heap hc hv hn)
  rw [vfsPathPrsNext_cons env hr, prsStart, hp]
  apply bind_eq_none
  refine total_pure ?_
  exact bind_eq_none_left hstep

/-! ## Rounds -/

theorem Good.pop (flags : Flags) (pwd : Path) {up : Prs} {x : Option Ptr}
    (h : Good env s0 (prs :: up :: below) s) (hat : prs.At env s x) (hr : prs.rest = []) :
    ∃ s', lookupRun env flags pwd (prs :: up :: below) s =
        lookupRun env flags pwd ({ up with currPath := prs.currPath } :: below) s' ∧
      Good env s0 ({ up with currPath := prs.currPath } :: below) s' ∧
      Prs.At { up with currPath := prs.currPath } env s' x := by
  obtain ⟨prs', hnext, hcurr, -⟩ := vfsPathPrsNext_end pwd hat hr
  obtain ⟨y, p, d, hp, hm, hd, -⟩ := h.frames up (by simp)
  have ha : Alive s p.mnt ((up :: below).length + 1) := by
    rw [hm]
    exact h.alive
  obtain ⟨_, s', hput, ⟨ha', hh⟩, hq⟩ := (total_vfsPathPut ha hd).and_spec (keeps_vfsPathPut p s)
  have hround : lookupRound env flags pwd (prs :: up :: below) s =
      some (.next ({ up with currPath := prs.currPath } :: below), s') := by
    refine bind_eq_some.mpr ⟨_, s, hnext, ?_⟩
    change popLink prs' up below s = _
    rw [popLink, hp, hcurr]
    exact bind_eq_some.mpr ⟨(), s', hput, rfl⟩
  have hat' : Prs.At { up with currPath := prs.currPath } env s' x := by
    obtain ⟨p, d, hp, hm, hd, hx⟩ := hat.quiet hq
    exact ⟨p, d, hp, hm, hd, hx⟩
  refine ⟨s', lookupRun_next hround, ?_, hat'⟩
  exact h.cons (by simp) hq (hh ▸ h.heap) (hm ▸ ha') hat' (h.short up (by simp))

theorem Good.finish (pwd : Path) (h : Good env s0 [prs] s) (hat : prs.At env s (some n))
    (hi : s0.inodes.get n = some i) (hr : prs.rest = []) :
    ∃ p d, lookupRun env lookupFollow pwd [prs] s = some (.ok p, s) ∧
      s.dentries.get p.dentry = some d ∧ d.inode = some n := by
  obtain ⟨prs', hnext, hcurr, -⟩ := vfsPathPrsNext_end pwd hat hr
  obtain ⟨p, d, hp, -, hd, hn⟩ := hat
  obtain ⟨i', hi', -⟩ := h.quiet.inode hi
  have hend : lookupEnd lookupFollow prs' s = some (.done (.ok p), s) := by
    apply Total.eq_some
    apply total_bind
    apply total_ofOption (hcurr.trans hp)
    apply total_dentryAt hd
    rw [hn]
    apply total_inodeAt hi'
    exact total_pure ⟨rfl, rfl⟩
  exact ⟨p, d, lookupRun_done ((lookupRound_of_end hnext).trans hend), hd, hn⟩

/-- A lookup gets stuck or ends in an error. -/
def Ends (r : Option (Except Errno Path × Vfs)) : Option Errno → Prop
  | none => r = none
  | some e => ∃ s', r = some (.error e, s')

theorem Good.run_null {prs : Prs} {below : List Prs} {s : Vfs} (ht : s0.IsTree env root)
    (h : Good env s0 (prs :: below) s) (hat : prs.At env s none) :
    Ends (lookupRun env flags pwd (prs :: below) s)
      (if ((prs :: below).map Prs.rest).flatten = [] then some .enoent else none) := by
  cases hr : prs.rest with
  | cons c cs =>
    rw [if_neg (by simp [hr])]
    exact lookupRun_none (bind_eq_none_left (h.next_null ht hat hr))
  | nil =>
    cases below with
    | nil =>
      rw [if_pos (by simp [hr])]
      obtain ⟨prs', hnext, hcurr, hrest⟩ := vfsPathPrsNext_end pwd hat hr
      obtain ⟨p, d, hp, hm, hd, hn⟩ := hat
      have hg' : Good env s0 [prs'] s := by
        refine h.cons (nil_subset _) (.refl s) h.heap h.alive ⟨p, d, hcurr.trans hp, hm, hd, hn⟩ ?_
        rw [hrest]
        exact forall_mem_nil _
      have hend : Total (lookupEnd flags prs') s fun r _ => r = .done (.error .enoent) := by
        apply total_bind
        apply total_ofOption (hcurr.trans hp)
        apply total_dentryAt hd
        rw [hn]
        exact hg'.failRound .enoent
      obtain ⟨_, s', he, rfl⟩ := hend
      exact ⟨s', lookupRun_done ((lookupRound_of_end hnext).trans he)⟩
    | cons up below =>
      obtain ⟨s', hrun, hg', hat'⟩ := h.pop flags pwd hat hr
      rw [hrun, map_cons, hr, flatten_cons, nil_append]
      exact Good.run_null ht hg' hat'
termination_by below.length

theorem Good.follow_null (h : Good env s0 (prs :: below) s) (hat : Reaches env s p none) :
    Total (followLink env prs below p) s fun r _ =>
      r = .done (.error (if maxSymlinks ≤ below.length + 1 then .eloop else .einval)) := by
  rw [followLink]
  by_cases hl : maxSymlinks ≤ below.length + 1
  · rw [if_pos hl, if_pos hl]
    exact h.failRound .eloop
  · rw [if_neg hl, if_neg hl]
    obtain ⟨w, hpm, hw, hwi, -⟩ := hat
    refine ((total_vfsPathGet (hpm ▸ h.alive) hw).and_spec (keeps_vfsPathGet p s)).bind ?_
    rintro _ s1 ⟨⟨ha1, hh1⟩, hq1⟩
    obtain ⟨w1, hw1, hwi1, -⟩ := hq1.dentry hw
    apply total_bind
    apply total_dentryAt hw1
    rw [hwi1, hwi]
    apply total_pure
    refine ((total_vfsPathPut ha1 hw1).and_spec (keeps_vfsPathPut p s1)).bind ?_
    rintro _ s2 ⟨⟨ha2, hh2⟩, hq2⟩
    have hg2 : Good env s0 (prs :: below) s2 :=
      h.step (hq1.trans hq2) (by rw [hh2, hh1]; exact h.heap) (hpm ▸ ha2)
    exact hg2.failRound .einval

theorem Good.visit_null (ht : s0.IsTree env root) (h : Good env s0 (prs :: below) s)
    (hp : prs.currPath = some p) (hat : Reaches env s p none) {s1 : Vfs}
    (hround : lookupRound env lookupFollow pwd stack s1 = lookupVisit env lookupFollow prs below p
      s) :
    Ends (lookupRun env lookupFollow pwd stack s1)
      (nullErrno env.nullMode ((prs :: below).map Prs.rest)) := by
  obtain ⟨w, -, hw, hwi, hwm⟩ := id hat
  have hmode : modeOf env w s = (ofOption env.nullMode : K Mode) s := by rw [modeOf, hwi]
  have hvisit : lookupVisit env lookupFollow prs below p s =
      ((ofOption env.nullMode : K Mode) >>= fun mode =>
        if sIslnk mode && Flags.has lookupFollow lookupFollow then followLink env prs below p
        else pure (.next (prs :: below))) s := by
    rw [lookupVisit, bind_apply, bind_apply, ← hmode]
    rw [dentryAt_eq hw, Option.bind_some, hwm, if_neg Bool.false_ne_true, bind_apply]
  rw [hvisit] at hround
  cases hmode : env.nullMode with
  | none =>
    rw [hmode] at hround
    exact lookupRun_none hround
  | some mode =>
    rw [hmode] at hround
    change lookupRound env lookupFollow pwd stack s1 =
      (if sIslnk mode && true then followLink env prs below p else pure (.next (prs :: below)))
        s at hround
    rw [Bool.and_true] at hround
    split_ifs at hround with hl
    · simp only [nullErrno, if_pos hl, length_map, length_cons]
      obtain ⟨_, s', hfollow, rfl⟩ := h.follow_null hat
      exact ⟨s', lookupRun_done (hround.trans hfollow)⟩
    · simp only [nullErrno, if_neg hl]
      rw [lookupRun_next hround]
      exact h.run_null ht (hat.at hp)

/-- The lookup stands at a node that has no entries: it ends there, or the next name leads to a
null inode. -/
theorem Good.run_leaf {prs : Prs} {below : List Prs} {s : Vfs} (pwd : Path)
    (ht : s0.IsTree env root) (h : Good env s0 (prs :: below) s)
    (hat : prs.At env s (some n)) (hi : s0.inodes.get n = some i) (hl : i.dirList = []) :
    match ((prs :: below).map Prs.rest).dropWhile (· == []) with
    | [] => ∃ p d s', lookupRun env lookupFollow pwd (prs :: below) s = some (.ok p, s') ∧
        s'.dentries.get p.dentry = some d ∧ d.inode = some n
    | f :: fs =>
      Ends (lookupRun env lookupFollow pwd (prs :: below) s)
      (nullErrno env.nullMode (f.tail :: fs)) := by
  cases hr : prs.rest with
  | cons c cs =>
    obtain ⟨prs', p, s', hnext, hrest, hcurr, hg', hat'⟩ := h.next pwd ht hat hi hr
    rw [entry_empty hl] at hat'
    have := hg'.visit_null ht hcurr hat' (lookupRound_of_next below hnext)
    rw [map_cons, hrest] at this
    simpa [hr] using this
  | nil =>
    cases below with
    | nil =>
      obtain ⟨p, d, hrun, hd, hn⟩ := h.finish pwd hat hi hr
      simp only [map_cons, map_nil, hr]
      exact ⟨p, d, s, hrun, hd, hn⟩
    | cons up below =>
      obtain ⟨s', hrun, hg', hat'⟩ := h.pop lookupFollow pwd hat hr
      rw [hrun, map_cons, hr, dropWhile_cons_of_pos (by rfl)]
      exact Good.run_leaf pwd ht hg' hat' hi hl
termination_by below.length

theorem vfsReadlink_total (ht : s0.IsTree env root) (hq : Quiet s0 s)
    (hat : Reaches env s p (some n)) (hi : s0.inodes.get n = some i) (hl : sIslnk i.mode = true)
    (htarget : i.symlinkTarget = some target) :
    vfsReadlink p.dentry (pathMax - 1) s = some (.ok target, s) := by
  obtain ⟨i', hi', hcore⟩ := hq.inode hi
  have hmode : i'.mode = i.mode := (congrArg Inode.mode hcore :)
  have hops : i'.hasOps = i.hasOps := (congrArg Inode.hasOps hcore :)
  have hsym : i'.symlinkTarget = i.symlinkTarget := (congrArg Inode.symlinkTarget hcore :)
  have hdata : i'.data = i.data := (congrArg Inode.data hcore :)
  have hnode := ht.inodes n i hi
  obtain ⟨target', ht', hsize, hlen⟩ := hnode.target hl
  obtain rfl : target' = target := Option.some.inj (ht'.symm.trans htarget)
  have hmin : min i'.data.dataSize (pathMax - 1) = target'.length := by
    rw [hdata, hsize]
    omega
  obtain ⟨w, -, hw, hwi, -⟩ := hat
  apply Total.eq_some
  apply total_dentryAt hw
  rw [hwi]
  apply total_inodeAt hi'
  rw [if_neg (by rw [hmode, hl]; simp), if_pos (by rw [hops, hnode.hasOps]), tmpfsReadlink, hsym,
    htarget]
  simp only [hmin, le_refl, if_true, take_length]
  exact total_pure ⟨rfl, rfl⟩

theorem linkBase_at (ht : s0.IsTree env root) (hq : Quiet s0 s)
    (hpm : p.mnt = env.vfsRoot.mnt) (hw : s.dentries.get p.dentry = some w) (hwi : w.inode = some n)
    (target : List Char) :
    Prs.At ⟨target, some (if target.head? = some '/' then env.vfsRoot else p), 0⟩ env s
      (some (if Tree.absolute target then root else n)) := by
  by_cases ha : target.head? = some '/'
  · obtain ⟨d0, hd0, hn0⟩ := ht.root.inode
    obtain ⟨d, hd, hdi, -⟩ := hq.dentry hd0
    rw [if_pos ha, if_pos (by simpa [Tree.absolute] using ha)]
    exact ⟨env.vfsRoot, d, rfl, rfl, hd, hdi.trans hn0⟩
  · rw [if_neg ha, if_neg (by simpa [Tree.absolute] using ha)]
    exact ⟨p, w, rfl, hpm, hw, hwi⟩

section

variable (h : Good env s0 (prs :: below) s) (hat : Reaches env s p (some n))
  (hi : s0.inodes.get n = some i)
include h hat hi

theorem Good.total_visit {Q : Round → Vfs → Prop}
    (hQ : Total (if sIslnk i.mode then followLink env prs below p else pure (.next (prs :: below)))
      s Q) : Total (lookupVisit env lookupFollow prs below p) s Q := by
  obtain ⟨i', hi', hcore⟩ := h.quiet.inode hi
  have hmode : i'.mode = i.mode := (congrArg Inode.mode hcore :)
  obtain ⟨w, -, hw, hwi, hwm⟩ := hat
  apply total_dentryAt hw
  rw [hwm, if_neg Bool.false_ne_true]
  apply total_bind
  rw [modeOf, hwi]
  apply total_inodeAt hi'
  apply total_pure
  rw [hmode, show Flags.has lookupFollow lookupFollow = true from rfl, Bool.and_true]
  exact hQ

theorem Good.visit_node (hl : ¬sIslnk i.mode = true) :
    lookupVisit env lookupFollow prs below p s = some (.next (prs :: below), s) := by
  apply Total.eq_some
  apply h.total_visit hat hi
  rw [if_neg hl]
  exact total_pure ⟨rfl, rfl⟩

theorem Good.loop (hl : sIslnk i.mode = true) (hb : maxSymlinks ≤ below.length + 1) :
    Total (lookupVisit env lookupFollow prs below p) s fun r _ => r = .done (.error .eloop) := by
  apply h.total_visit hat hi
  rw [if_pos hl, followLink, if_pos hb]
  exact h.failRound .eloop

theorem Good.visit_link (ht : s0.IsTree env root) (hl : sIslnk i.mode = true)
    (htarget : i.symlinkTarget = some target) (hb : below.length + 1 < maxSymlinks) :
    ∃ base s', lookupVisit env lookupFollow prs below p s =
        some (.next (⟨target, some base, 0⟩ :: prs :: below), s') ∧
      Good env s0 (⟨target, some base, 0⟩ :: prs :: below) s' ∧
      Prs.At ⟨target, some base, 0⟩ env s' (some (if Tree.absolute target then root else n)) := by
  obtain ⟨target', ht', -, hlen⟩ := (ht.inodes n i hi).target hl
  obtain rfl : target' = target := Option.some.inj (ht'.symm.trans htarget)
  have hmax : pathMax ≤ kheapMax := by decide
  obtain ⟨w, hpm, hw, hwi, -⟩ := id hat
  have hbase := linkBase_at ht h.quiet hpm hw hwi target'
  generalize hb0 : (if target'.head? = some '/' then env.vfsRoot else p) = base at hbase
  obtain ⟨_, d, hb1, hbm, hd, hdi⟩ := id hbase
  cases hb1
  have htotal : Total (lookupVisit env lookupFollow prs below p) s fun r s' =>
      r = .next (⟨target', some base, 0⟩ :: prs :: below) ∧ Granting s'.heap ∧
        Alive s' env.vfsRoot.mnt (below.length + 2) := by
    apply h.total_visit hat hi
    rw [if_pos hl, followLink, if_neg (by omega)]
    refine ((total_vfsPathGet (hpm ▸ h.alive) hw).and_spec (keeps_vfsPathGet p s)).bind ?_
    rintro _ s1 ⟨⟨ha1, hh1⟩, hq1⟩
    have hg1 : Granting s1.heap := hh1 ▸ h.heap
    obtain ⟨d1, hd1, -⟩ := hq1.dentry hd
    apply total_bind
    refine ⟨_, _, vfsReadlink_total ht (h.quiet.trans hq1) (hat.quiet hq1) hi hl htarget, ?_⟩
    apply total_bind
    apply total_kheapAlloc (hg1 _ _) (Nat.succ_pos _) (by omega)
    intro a
    apply total_bind
    apply total_kheapAlloc (hg1.tail _ _) Nat.one_pos (by decide)
    intro b
    simp only [hb0]
    apply total_bind
    have ha₁' : Alive s1 base.mnt (below.length + 1) := by
      rw [hbm, ← hpm]
      exact ha1.mono (by simp)
    refine (total_vfsPathGet (k := below.length + 1) (p := base) (d := d1) ?_ ?_).mono ?_
    · exact ha₁'
    · exact hd1
    rintro _ s2 ⟨ha2, hh2⟩
    exact total_pure ⟨rfl, by rw [hh2]; exact hg1.tail.tail, hbm ▸ ha2⟩
  obtain ⟨_, s', hv, ⟨rfl, hg', ha'⟩, hq⟩ :=
    htotal.and_spec (keeps_lookupVisit env lookupFollow prs below p s)
  have hat' := hbase.quiet hq
  refine ⟨base, s', hv, h.cons (Subset.refl _) hq hg' ha' hat' ?_, hat'⟩
  intro c hc
  have := length_le_of_mem_components (l := target') hc
  omega

end

/-! ## The way of a lookup -/

/-- A lookup ends at an inode. -/
def EndsAt (r : Option (Except Errno Path × Vfs)) (n : Ptr) : Prop :=
  ∃ p d s', r = some (.ok p, s') ∧ s'.dentries.get p.dentry = some d ∧ d.inode = some n

/-- What a lookup gives after a fault. -/
def Faulted (nullMode : Option Mode) (r : Option (Except Errno Path × Vfs)) : Tree.Fault Ptr → Prop
  | .null frames => Ends r (nullErrno nullMode frames)
  | .link q frames =>
    match frames.dropWhile (· == []) with
    | [] => EndsAt r q
    | f :: fs => Ends r (nullErrno nullMode (f.tail :: fs))

/-- A lookup along some names goes the way of the tree up to the first fault; without one it
goes on at the node that the names lead to. -/
def Goes (env : Env) (s₀ : Vfs) (root : Ptr) (pwd : Path) (depth : Nat) (n : Ptr) (cs : List Name)
    (below : List Prs) (r : Option (Except Errno Path × Vfs)) : Prop :=
  match (s₀.tree env root).fault depth n cs (below.map Prs.rest) with
  | some f => Faulted env.nullMode r f
  | none =>
    match (s₀.tree env root).walk depth n cs with
    | .ok m => ∃ prs s i, r = lookupRun env lookupFollow pwd (prs :: below) s ∧ prs.rest = [] ∧
        Good env s₀ (prs :: below) s ∧ prs.At env s (some m) ∧ s₀.inodes.get m = some i
    | .error e => e = .loop ∧ Ends r (some .eloop)

variable {depth : Nat}

theorem goes_null (hf : (s0.tree env root).fault depth n (c :: cs) (below.map Prs.rest) =
      some (.null (cs :: below.map Prs.rest)))
    (hr : Ends r (nullErrno env.nullMode (cs :: below.map Prs.rest))) :
    Goes env s0 root pwd depth n (c :: cs) below r := by
  rw [Goes, hf]
  exact hr

/-- Lookups along some names, with the parsers `below` left for later, go their way. -/
def Refines (env : Env) (s₀ : Vfs) (root : Ptr) (pwd : Path) (depth : Nat) (cs : List Name)
    (below : List Prs) : Prop :=
  ∀ {prs : Prs} {s : Vfs} {n : Ptr} {i : Inode}, Good env s₀ (prs :: below) s →
    prs.At env s (some n) →
    s₀.inodes.get n = some i → prs.rest = cs →
    Goes env s₀ root pwd depth n cs below (lookupRun env lookupFollow pwd (prs :: below) s)

theorem refines_nil : Refines env s0 root pwd depth [] below := by
  intro prs s n i hg hat hi hr
  rw [Goes, Tree.fault_nil, Tree.walk_nil]
  exact ⟨prs, s, i, rfl, hr, hg, hat, hi⟩

theorem refines_link {q : Ptr} {v : Inode}
    {s1 : Vfs} (ht : s0.IsTree env root) (hb : depth + 1 + (below.length + 1) = maxSymlinks)
    (hcs : Refines env s0 root pwd (depth + 1) cs below)
    (hdeep : Refines env s0 root pwd depth (components target) (prs :: below))
    (hi : s0.inodes.get n = some i) (hd : sIsdir i.mode = true) (he : s0.entry env i c = some q)
    (hv : s0.inodes.get q = some v) (hl : sIslnk v.mode = true)
    (htarget : v.symlinkTarget = some target)
    (hg : Good env s0 (prs :: below) s) (hrest : prs.rest = cs) (hat : Reaches env s p (some q))
    (hround : lookupRound env lookupFollow pwd stack s1 = lookupVisit env lookupFollow prs below p
      s) :
    Goes env s0 root pwd (depth + 1) n (c :: cs) below
      (lookupRun env lookupFollow pwd stack s1) := by
  obtain ⟨base, s2, hvisit, hg2, hat2⟩ := hg.visit_link hat hv ht hl htarget (by omega)
  have hnode : (s0.tree env root).node n = .dir (s0.entry env i) := node_dir hi hd
  have hlink : (s0.tree env root).node q = .link target := node_link hv hl htarget
  rw [lookupRun_next (hround.trans hvisit), Goes, Tree.fault_link hnode he hlink,
    Tree.walk_link hnode he hlink]
  cases ha : Tree.absolute target with
  | false =>
    -- the target is resolved from the link, which has no entries
    rw [ha, if_neg Bool.false_ne_true] at hat2
    have hempty : v.dirList = [] := by
      rcases (ht.inodes q v hv).entries with h | h
      · rw [sIsdir_of_sIslnk hl] at h
        cases h
      · exact h
    have hleaf := hg2.run_leaf pwd ht hat2 hv hempty
    simp only [Tree.faultIn, ha, Bool.false_eq_true, if_false, Faulted]
    rw [map_cons, map_cons, hrest] at hleaf
    exact hleaf
  | true =>
    rw [ha, if_pos rfl] at hat2
    obtain ⟨j, hj, -⟩ := ht.root.dir
    have hgoes := hdeep hg2 hat2 hj rfl
    rw [Goes, map_cons, hrest] at hgoes
    simp only [Tree.faultIn, Tree.follow, Tree.base, ha, if_true, tree_root]
    cases hf : (s0.tree env root).fault depth root (components target)
      (cs :: below.map Prs.rest) with
    | some f =>
      rw [hf] at hgoes
      exact hgoes
    | none =>
      rw [hf] at hgoes
      cases hwalk : (s0.tree env root).walk depth root (components target) with
      | error e =>
        rw [hwalk] at hgoes
        exact hgoes
      | ok m =>
        rw [hwalk] at hgoes
        obtain ⟨prs', s', j', hrun, hr', hg', hat', hj'⟩ := hgoes
        obtain ⟨s'', hpop, hg'', hat''⟩ := hg'.pop lookupFollow pwd hat' hr'
        rw [hrun, hpop]
        exact hcs hg'' hat'' hj' hrest

theorem refines_cons (ht : s0.IsTree env root) (hb : depth + (below.length + 1) = maxSymlinks)
    (hcs : Refines env s0 root pwd depth cs below)
    (hdeep : ∀ depth', depth = depth' + 1 → ∀ target prs',
      Refines env s0 root pwd depth' (components target) (prs' :: below)) :
    Refines env s0 root pwd depth (c :: cs) below := by
  intro prs s n i hg hat hi hr
  obtain ⟨prs', p, s', hnext, hrest, hcurr, hg', hat'⟩ := hg.next pwd ht hat hi hr
  have hround : lookupRound env lookupFollow pwd (prs :: below) s = _ :=
    lookupRound_of_next below hnext
  have hnull : s0.entry env i c = none → Ends (lookupRun env lookupFollow pwd (prs :: below) s)
      (nullErrno env.nullMode (cs :: below.map Prs.rest)) := by
    intro he
    have := hg'.visit_null ht hcurr (he ▸ hat') hround
    rwa [map_cons, hrest] at this
  by_cases hd : sIsdir i.mode = true
  · have hnode : (s0.tree env root).node n = .dir (s0.entry env i) := node_dir hi hd
    cases he : s0.entry env i c with
    | none => exact goes_null (Tree.fault_noEntry hnode he) (hnull he)
    | some q =>
      obtain ⟨v, hv⟩ := entry_inode he
      rw [he] at hat'
      by_cases hl : sIslnk v.mode = true
      · obtain ⟨target, htarget, -, -⟩ := (ht.inodes q v hv).target hl
        cases depth with
        | zero =>
          have hlink : (s0.tree env root).node q = .link target := node_link hv hl htarget
          obtain ⟨_, s1, hloop, rfl⟩ := hg'.loop hat' hv hl (by omega)
          rw [Goes, Tree.fault_link hnode he hlink, Tree.walk_link hnode he hlink]
          exact ⟨rfl, s1, lookupRun_done (hround.trans hloop)⟩
        | succ depth =>
          exact refines_link ht hb hcs (hdeep depth rfl target prs') hi hd he hv hl htarget hg'
            hrest hat' hround
      · have hnot : ∀ target, (s0.tree env root).node q ≠ .link target := node_not_link hv hl
        rw [lookupRun_next (hround.trans (hg'.visit_node hat' hv hl)), Goes,
          Tree.fault_step hnode he hnot, Tree.walk_step hnode he hnot]
        exact hcs hg' (hat'.at hcurr) hv hrest
  · have hnot : ∀ entry, (s0.tree env root).node n ≠ .dir entry := node_not_dir hi hd
    refine goes_null (Tree.fault_notDir hnot) (hnull ?_)
    rcases (ht.inodes n i hi).entries with h | h
    · exact absurd h hd
    · exact entry_empty h c

/-- Every lookup goes its way: by induction on the links that may still be followed, and for
each of these numbers on the names. -/
theorem refines (ht : s0.IsTree env root) (depth : Nat) (cs : List Name) (below : List Prs)
    (hb : depth + (below.length + 1) = maxSymlinks) : Refines env s0 root pwd depth cs below := by
  induction depth generalizing cs below with
  | zero =>
    induction cs with
    | nil => exact refines_nil
    | cons c cs ih => exact refines_cons ht hb ih nofun
  | succ depth ihd =>
    induction cs with
    | nil => exact refines_nil
    | cons c cs ih =>
      refine refines_cons ht hb ih ?_
      rintro depth' h target prs'
      cases h
      exact ihd _ _ (by rw [length_cons]; omega)

/-! ## The outcome of a lookup -/

/-- The outcome of a lookup is what a path means. -/
def Meets (r : Option (Except Errno Path × Vfs)) : Except Failure Ptr → Prop
  | .ok n => EndsAt r n
  | .error f => ∃ e, f.Is e ∧ Ends r (some e)

theorem Ends.meets_iff {e : Errno} (h : Ends r (some e))
    (ref : Except Failure Ptr) : Meets r ref ↔ ∃ f, ref = .error f ∧ f.Is e := by
  obtain ⟨s1, rfl⟩ := h
  cases ref with
  | ok n =>
    refine ⟨?_, ?_⟩
    · rintro ⟨p, d, s2, hr, -⟩
      cases hr
    · rintro ⟨f, hf, -⟩
      cases hf
  | error f =>
    refine ⟨?_, ?_⟩
    · rintro ⟨e', he, s2, hr⟩
      cases hr
      exact ⟨f, rfl, he⟩
    · rintro ⟨f', hf, he⟩
      cases hf
      exact ⟨e, he, s1, rfl⟩

theorem not_meets_none (ref : Except Failure Ptr) : ¬Meets none ref := by
  cases ref with
  | ok n =>
    rintro ⟨p, d, s1, hr, -⟩
    cases hr
  | error f =>
    rintro ⟨e, -, s1, hr⟩
    cases hr

theorem ends_meets_iff {o : Option Errno} (h : Ends r o)
    (ref : Except Failure Ptr) : Meets r ref ↔ ∃ e f, o = some e ∧ ref = .error f ∧ f.Is e := by
  cases o with
  | none =>
    cases h
    refine ⟨fun hm => absurd hm (not_meets_none ref), ?_⟩
    rintro ⟨e, f, he, -⟩
    cases he
  | some e =>
    rw [h.meets_iff]
    refine ⟨fun ⟨f, hf, hi⟩ => ⟨e, f, rfl, hf, hi⟩, ?_⟩
    rintro ⟨e', f, he, hf, hi⟩
    cases he
    exact ⟨f, hf, hi⟩

theorem EndsAt.unique {m : Ptr} (h : EndsAt r n) (h' : EndsAt r m) : n = m := by
  obtain ⟨p, d, s1, rfl, hd, hn⟩ := h
  obtain ⟨p', d', s2, hr, hd', hm⟩ := h'
  cases hr
  rw [hd] at hd'
  cases hd'
  exact Option.some.inj (hn.symm.trans hm)

theorem Faulted.meets_iff {f : Tree.Fault Ptr} {nullMode : Option Mode}
    (h : Faulted nullMode r f) (ref : Except Failure Ptr) (hlink : ∀ q frames, f = .link q frames →
      ref ≠ .ok q) :
    Meets r ref ↔ ∃ e g, f.errno nullMode = some e ∧ ref = .error g ∧ g.Is e := by
  cases f with
  | null frames => exact ends_meets_iff h ref
  | link q frames =>
    rw [Faulted] at h
    rw [Tree.Fault.errno]
    cases hfr : frames.dropWhile (· == []) with
    | cons g gs =>
      rw [hfr] at h
      exact ends_meets_iff h ref
    | nil =>
      rw [hfr] at h
      refine ⟨fun hm => ?_, ?_⟩
      · cases ref with
        | ok m => exact absurd (congrArg _ (EndsAt.unique hm h)) (hlink q frames rfl)
        | error g =>
          obtain ⟨e, -, s1, hr⟩ := hm
          obtain ⟨p, d, s2, hr', -⟩ := h
          rw [hr] at hr'
          cases hr'
      · rintro ⟨e, g, he, -⟩
        cases he

/-! ## Whole lookups -/

theorem weight_setPath (prs : Prs) (below : List Prs) (p : Option Path) :
    weight ({ prs with currPath := p } :: below) = weight (prs :: below) := by
  rw [weight, weight, Prs.rest, Prs.rest]

theorem lookupRun_start (h : prsStart env prs pwd s = some (some p, s')) :
    lookupRun env flags pwd (prs :: below) s =
      lookupRun env flags pwd ({ prs with currPath := some p } :: below) s' := by
  have hnext : vfsPathPrsNext env prs pwd s = vfsPathPrsNext env { prs with currPath := some p } pwd
      s' := by
    rw [vfsPathPrsNext, vfsPathPrsNext, bind_apply, h]
    rfl
  unfold lookupRun
  rw [weight_setPath prs below (some p)]
  rw [lookupLoop, lookupLoop, bind_apply, bind_apply, lookupRound, lookupRound, bind_apply,
    bind_apply, hnext]

theorem prsStart_total {path : List Char} (ht : s0.IsTree env root) (hwd : s0.IsDir env pwd wd)
    (hq : Quiet s0 s) (hg : Granting s.heap) (ha : Alive s env.vfsRoot.mnt 0)
    (hl : path.length < kheapMax) :
    ∃ p s', prsStart env ⟨path, none, 0⟩ pwd s = some (some p, s') ∧
      Good env s0 [⟨path, some p, 0⟩] s' ∧
      Prs.At ⟨path, some p, 0⟩ env s' (some ((s0.tree env root).base wd path)) := by
  obtain ⟨d0, hd0, hn0⟩ := hwd.inode
  obtain ⟨d, hd, hdi, -⟩ := hq.dentry hd0
  have hbase := linkBase_at ht hq hwd.mnt hd (hdi.trans hn0) path
  generalize hp : (if path.head? = some '/' then env.vfsRoot else pwd) = p at hbase
  obtain ⟨_, v, hp1, hpm, hv, -⟩ := id hbase
  cases hp1
  have htotal : Total (prsStart env ⟨path, none, 0⟩ pwd) s fun r s' =>
    r = some p ∧ Granting s'.heap ∧
      Alive s' env.vfsRoot.mnt 1 := by
    apply total_bind
    apply total_kheapAlloc (hg _ _) Nat.one_pos (by decide)
    intro a
    simp only [hp]
    refine (total_vfsPathGet (k := 0) (d := v) ?_ ?_).bind ?_
    · rw [hpm]
      exact ha
    · exact hv
    rintro _ s1 ⟨ha1, hh1⟩
    exact total_pure ⟨rfl, by rw [hh1]; exact hg.tail, hpm ▸ ha1⟩
  obtain ⟨_, s', hs, ⟨rfl, hg', ha'⟩, hq'⟩ :=
    htotal.and_spec (keeps_prsStart env ⟨path, none, 0⟩ pwd s)
  have hat := hbase.quiet hq'
  have hgood : Good env s0 [] s := ⟨hq, hg, ha, forall_mem_nil _, forall_mem_nil _⟩
  refine ⟨p, s', hs, hgood.cons (Subset.refl _) hq' hg' ha' hat ?_, hat⟩
  intro c hc
  have := length_le_of_mem_components (l := path) hc
  omega

theorem lookup_goes (ht : s.IsTree env root) (hwd : s.IsDir env pwd wd) (hg : Granting s.heap)
    {path : List Char} (hl : path.length < kheapMax) :
    Goes env s root pwd (maxSymlinks - 1) ((s.tree env root).base wd path) (components path) []
      (vfsPathLookup env path lookupFollow pwd s) := by
  obtain ⟨_, s1, hcopy, a, rfl, rfl⟩ : Total (kheapAlloc (path.length + 1)) s fun r s' =>
      ∃ a, r = some a ∧ s' = { s with heap := fun k => s.heap (k + 1) } :=
    total_kheapAlloc (hg _ _) (Nat.succ_pos _) hl fun a => ⟨a, rfl, rfl⟩
  have ha : Alive s env.vfsRoot.mnt 0 := ht.mount
  obtain ⟨p, s2, hstart, hgood, hat⟩ := prsStart_total ht hwd (quiet_heap _) hg.tail ha hl
  obtain ⟨i, hi⟩ : ∃ i, s.inodes.get ((s.tree env root).base wd path) = some i := by
    rw [Tree.base]
    split_ifs
    · obtain ⟨i, hi, -⟩ := ht.root.dir
      exact ⟨i, hi⟩
    · obtain ⟨i, hi, -⟩ := hwd.dir
      exact ⟨i, hi⟩
  have hrun := lookupLoop_fuel env lookupFollow pwd (weight_lt_lookupFuel path) (Nat.lt_succ_self _)
    { s with heap := fun k => s.heap (k + 1) }
  rw [vfsPathLookup_of_copied ⟨a, hcopy⟩, hrun]
  change Goes _ _ _ _ _ _ _ _ (lookupRun env lookupFollow pwd [⟨path, none, 0⟩] _)
  rw [lookupRun_start hstart]
  exact refines ht (maxSymlinks - 1) (components path) [] (by decide) hgood hat hi rfl

theorem Vfs.IsDir.notLink (h : s.IsDir env p wd) (root : Ptr) : (s.tree env root).NotLink wd := by
  obtain ⟨i, hi, hd⟩ := h.dir
  intro target hn
  have hdir : (s.tree env root).node wd = .dir (s.entry env i) := node_dir hi hd
  rw [hdir] at hn
  cases hn

/-- In a chain without bad nodes every search comes to an end, and finds a good node or none. -/
theorem hashWalk_good {next : Ptr → Option (Option Ptr)} {good : Ptr → Bool} {fuel : Nat}
    {head : Option Ptr} (h : hashWalk next (fun p => !good p) fuel head = some none)
    (eq : Ptr → Bool) : ∃ r, hashWalk next eq fuel head = some r ∧ ∀ q ∈ r, good q = true := by
  induction fuel generalizing head with
  | zero =>
    cases head with
    | none => exact ⟨none, rfl, fun q hq => nomatch hq⟩
    | some p => cases h
  | succ fuel ih =>
    cases head with
    | none => exact ⟨none, rfl, fun q hq => nomatch hq⟩
    | some p =>
      rw [hashWalk] at h ⊢
      cases hn : next p with
      | none => rw [hn] at h; cases h
      | some n =>
        rw [hn] at h
        cases hp : good p with
        | false => simp [hp] at h
        | true =>
          simp only [hp, Bool.not_true, Bool.false_eq_true, if_false] at h ⊢
          split_ifs
          · exact ⟨some p, rfl, fun q hq => Option.mem_some.mp hq ▸ hp⟩
          · exact ih h

/-- The dentry has the inode that the directory of its parent has under its name. -/
def Vfs.shows (s : Vfs) (env : Env) (q : Ptr) : Bool :=
  (s.dentries.get q).any fun d => d.parent.any fun parent =>
    ((s.dentries.get parent).bind (·.inode)).any fun n =>
      (s.inodes.get n).any fun i => decide (d.inode = s.entry env i d.name)

theorem Vfs.agrees_of_shows {q : Ptr} (hq : s.dentryIs (some parent) name q = true)
    (h : s.shows env q = true) : s.Agrees env parent name q := by
  simp only [shows, Option.any_eq_true, decide_eq_true_eq] at h
  obtain ⟨d, hd, parent', hparent, n, hn, i, hi, he⟩ := h
  simp only [dentryIs, hd, hparent, Bool.and_eq_true, beq_iff_eq, Option.some.injEq] at hq
  obtain ⟨rfl, rfl⟩ := hq
  obtain ⟨v, hv, hvn⟩ := Option.bind_eq_some_iff.mp hn
  exact ⟨v, n, i, d, hv, hvn, hi, hd, he⟩

/-- A directory `/a` with a file `f`, and a link `/l` to `/a/f`. -/
def treeProgram : K (Except Errno Unit) := do
  let _ ← vfsMkdir (start 0) ['/', 'a'] 0o755 ⟨0, 0⟩
  let _ ← vfsOpen (start 0) ['/', 'a', '/', 'f'] oCreat 0o644 ⟨0, 0⟩
  vfsSymlink (start 0) ['/', 'a', '/', 'f'] ['/', 'l'] ⟨0, 0⟩

@[irreducible] def planted : Vfs :=
  { ((treeProgram boot).get (by decide +kernel)).2 with heap := Vfs.start.heap }

theorem planted_heap : Granting planted.heap := by
  unfold planted
  intro k _
  simp [Vfs.start]

/-- Its inodes and dentries, the root directory and the mount. -/
theorem planted_objects :
    (planted.inodes.next = 4 ∧ ∀ p < 4, ∀ i ∈ planted.inodes.get p,
      i.hasOps = true ∧ (planted.sbs.get i.sb).isSome ∧ (sIsdir i.mode = true ∨ i.dirList = []) ∧
        (sIslnk i.mode = true → i.symlinkTarget = some ['/', 'a', '/', 'f'] ∧
          i.data.dataSize = 4)) ∧
    (∀ p < planted.dentries.next, ∀ d ∈ planted.dentries.get p, d.mounted = false) ∧
    (planted.dentries.get 0).map (·.inode) = some (some 0) ∧
    (planted.inodes.get 0).map (sIsdir ·.mode) = some true ∧
    ∃ m ∈ planted.mounts.get 0, 0 < m.count := by
  refine ⟨?_, ?_, ?_, ?_, ?_⟩ <;> decide +kernel

theorem planted_chains :
    hashWalk (fun p => (planted.devOf p).bind fun _ => (planted.inodes.get p).map (·.hashNext))
      (fun _ => !true) planted.inodes.next (planted.inodeCache 0) = some none ∧
    hashWalk (fun p => (planted.dentries.get p).map (·.hashNext))
      (fun p => !planted.shows (start 0) p) planted.dentries.next (planted.dentryCache 0) =
        some none := by
  decide +kernel

theorem planted_isDir : planted.IsDir (start 0) ⟨0, 0⟩ 0 := by
  obtain ⟨-, -, hdentry, hinode, -⟩ := planted_objects
  exact ⟨rfl, Option.map_eq_some_iff.mp hdentry, Option.map_eq_some_iff.mp hinode⟩

theorem planted_isTree : planted.IsTree (start 0) 0 where
  inodes p i hi := by
    obtain ⟨⟨hnext, hinodes⟩, -⟩ := planted_objects
    have hp := Store.lt_next hi
    rw [hnext] at hp
    obtain ⟨hops, hsb, hdir, hlnk⟩ := hinodes p hp i hi
    refine ⟨hops, Option.isSome_iff_exists.mp hsb, hdir, fun h => ?_⟩
    obtain ⟨htarget, hsize⟩ := hlnk h
    exact ⟨_, htarget, hsize, by decide⟩
  icached dev ino := by
    obtain ⟨r, hr, -⟩ := hashWalk_good planted_chains.1 (planted.inodeIs dev ino)
    exact fun h => nomatch hr.symm.trans h
  cached parent name := by
    obtain ⟨r, hr, -⟩ := hashWalk_good planted_chains.2 (planted.dentryIs (some parent) name)
    exact fun h => nomatch hr.symm.trans h
  agrees parent name q h := by
    obtain ⟨r, hr, hgood⟩ := hashWalk_good planted_chains.2 (planted.dentryIs (some parent) name)
    obtain rfl := Option.some_inj.mp (hr.symm.trans h)
    exact Vfs.agrees_of_shows (hashWalk_found h) (hgood q rfl)
  unmounted p d hd := planted_objects.2.1 p (Store.lt_next hd) d hd
  root := planted_isDir
  mount := by
    obtain ⟨-, -, -, -, hmount⟩ := planted_objects
    exact hmount

/-- A directory `/a` and a link `/l` to `a`. -/
def linkProgram : K (Except Errno Unit) := do
  match ← vfsMkdir (start 0) ['/', 'a'] 0o755 ⟨0, 0⟩ with
  | .error e => pure (.error e)
  | .ok () => vfsSymlink (start 0) ['a'] ['/', 'l'] ⟨0, 0⟩

@[irreducible] def linked : Vfs := ((linkProgram boot).get (by decide +kernel)).2

end ShiziOS.Fs
