import ShiziOS.Lib.Area

/-!
# Scanning a directory block

`ext2_lookup`, `ext2_dir_collect` and `ext2_rmdir` run through the records of a block of `bs`
bytes with the same loop and the same two checks. They differ in what they read of a live record's
name and in where they stop.
-/

namespace ShiziOS.Ext2

open Bytes Area

section Block

variable (bs : Nat) (b : Area)

/-- The `rec_len` and the `name_len` of the record at `off`. -/
def recLen (off : Nat) : Nat := load16 b (off + 4)

@[inherit_doc recLen]
def nameLen (off : Nat) : Nat := (b (off + 6)).toNat

/-- The bytes from `off` on are taken for a record. -/
def Checked (off : Nat) : Prop :=
  off + 8 ≤ bs ∧ 8 ≤ recLen b off ∧ off + recLen b off ≤ bs

instance (off : Nat) : Decidable (Checked bs b off) := by unfold Checked; infer_instance

/-- The loop from `off` on: the live records, each with how much is read of its name. What is done
with a record is given by `visit`, which also says whether the loop ends there. -/
def scan (visit : Nat → Nat × Bool) (off : Nat) : List (Nat × Nat) :=
  if _h : Checked bs b off then
    if load32 b off = 0 then scan visit (off + recLen b off)
    else (off, (visit off).1) ::
      if (visit off).2 then [] else scan visit (off + recLen b off)
  else []
termination_by bs - off
decreasing_by all_goals obtain ⟨_, _, _⟩ := _h; omega

/-- The loop of `ext2_lookup`: names of the right length are compared. -/
def ext2LookupScan (name : List Byte) : List (Nat × Nat) :=
  scan bs b (fun off =>
    if nameLen b off = name.length then
      (name.length, (List.range name.length).map (fun k => b (off + 8 + k)) == name)
    else (0, false)) 0

/-- The loop of `ext2_dir_collect`. An element of the array holds a name of `EXT2_NAME_LEN` bytes;
`append` says which calls of `dynarr_append` succeed. -/
def ext2DirCollectScan (append : Nat → Bool) : List (Nat × Nat) :=
  scan bs b (fun off => (255, !append off)) 0

/-- The loop of `ext2_rmdir`, which ends at a name other than `.` and `..`. -/
def ext2RmdirScan : List (Nat × Nat) :=
  scan bs b (fun off =>
    if nameLen b off = 1 then (1, b (off + 8) != 46)
    else if nameLen b off = 2 then
      if b (off + 8) = 46 then (2, b (off + 8 + 1) != 46) else (1, true)
    else (0, true)) 0

/-- Every entry lies in its record, and the record in the block. -/
def EntriesInside (l : List (Nat × Nat)) : Prop :=
  ∀ p ∈ l, 8 + nameLen b p.1 ≤ recLen b p.1 ∧ p.1 + recLen b p.1 ≤ bs

/-- What is read of a name lies in the name's record. -/
def ReadsInside (l : List (Nat × Nat)) : Prop := ∀ p ∈ l, 8 + p.2 ≤ recLen b p.1

/-- There is a record at `off`: it is reached from the block's first byte. -/
inductive Record : Nat → Prop
  | first : Checked bs b 0 → Record 0
  | next {off : Nat} : Record off → Checked bs b (off + recLen b off) →
      Record (off + recLen b off)

end Block

variable {bs : Nat} {b : Area} {visit : Nat → Nat × Bool} {off : Nat}

theorem Record.checked (h : Record bs b off) : Checked bs b off := by
  cases h with
  | first h => exact h
  | next _ h => exact h

/-- What the loop does with a property of visits that all live records have. -/
theorem scan_forall {P : Nat × Nat → Prop} (hoff : Checked bs b off → Record bs b off)
    (h : ∀ r, Record bs b r → load32 b r ≠ 0 → P (r, (visit r).1)) :
    ∀ p ∈ scan bs b visit off, P p := by
  fun_induction scan bs b visit off with
  | case1 off hc _ ih => exact ih ((hoff hc).next ·)
  | case2 off hc hlive ih =>
    simp only [List.forall_mem_cons]
    refine ⟨h off (hoff hc) hlive, ?_⟩
    split
    · simp
    · exact ih ((hoff hc).next ·)
  | case3 => simp

/-- A loop that does not stop visits all live records. -/
theorem mem_scan (hvisit : ∀ r, (visit r).2 = false) (h : Record bs b off)
    (hlive : load32 b off ≠ 0) : (off, (visit off).1) ∈ scan bs b visit 0 := by
  have hnext : ∀ r, Record bs b r → ∀ p ∈ scan bs b visit r, p ∈ scan bs b visit 0 := by
    intro r hr
    induction hr with
    | first _ => exact fun p hp => hp
    | next hr _ ih =>
      intro p hp
      apply ih
      rw [scan, dif_pos hr.checked]
      split
      · exact hp
      · simp [hvisit, hp]
  refine hnext off h _ ?_
  rw [scan, dif_pos h.checked, if_neg hlive]
  exact List.mem_cons_self

theorem scan_length : 8 * (scan bs b visit off).length ≤ bs - off := by
  fun_induction scan bs b visit off with
  | case1 off hc _ ih => omega
  | case2 off hc _ ih =>
    obtain ⟨_, _, _⟩ := hc
    split <;> simp only [List.length_cons, List.length_nil] <;> omega
  | case3 => simp

/-- The checks keep the loops in the block and let them end. That the entries lie in their records
is left to the disk, and what `ext2_dir_collect` copies does so only for long records. -/
theorem directory_scans_inside (bs : Nat) (b : Area) :
    (∀ visit, 8 * (scan bs b visit 0).length ≤ bs) ∧
    (((∀ name, EntriesInside bs b (ext2LookupScan bs b name) ∧
        ReadsInside b (ext2LookupScan bs b name)) ∧
      (∀ append, EntriesInside bs b (ext2DirCollectScan bs b append)) ∧
      EntriesInside bs b (ext2RmdirScan bs b) ∧ ReadsInside b (ext2RmdirScan bs b)) ↔
      ∀ off, Record bs b off → load32 b off ≠ 0 → 8 + nameLen b off ≤ recLen b off) ∧
    ((∀ append, ReadsInside b (ext2DirCollectScan bs b append)) ↔
      ∀ off, Record bs b off → load32 b off ≠ 0 → 8 + 255 ≤ recLen b off) := by
  refine ⟨fun visit => scan_length, ⟨?_, ?_⟩, ?_, ?_⟩
  · rintro ⟨-, hcollect, -⟩ off hoff hlive
    exact (hcollect (fun _ => true) _ (mem_scan (fun _ => rfl) hoff hlive)).1
  · intro h
    have hinside : ∀ visit, EntriesInside bs b (scan bs b visit 0) := fun visit =>
      scan_forall .first fun r hr hlive => ⟨h r hr hlive, hr.checked.2.2⟩
    refine ⟨fun name => ⟨hinside _, scan_forall .first fun r hr hlive => ?_⟩,
      fun append => hinside _, hinside _, scan_forall .first fun r hr hlive => ?_⟩
    all_goals
      have hname := h r hr hlive
      have hrec := hr.checked.2.1
      dsimp only
      split_ifs <;> dsimp only <;> omega
  · intro h off hoff hlive
    exact h (fun _ => true) _ (mem_scan (fun _ => rfl) hoff hlive)
  · exact fun h append => scan_forall .first h

/-- A record of `12` bytes with a name of `6`, of which `abcd` lies in the record: `ef`, the inode
number of the next record, is taken for the end of the name. -/
def longName : Area := fun k =>
  ([(0, 2), (4, 12), (6, 6), (8, 97), (9, 98), (10, 99), (11, 100), (12, 101), (13, 102),
    (16, 244), (17, 3), (18, 1), (20, 103)].lookup k).getD 0

theorem name_outside_record : (0, 6) ∈ ext2LookupScan 1024 longName [97, 98, 99, 100, 101, 102] ∧
    (List.range 6).map (fun k => longName (0 + 8 + k)) = [97, 98, 99, 100, 101, 102] ∧
    recLen longName 0 = 12 ∧
    ¬EntriesInside 1024 longName (ext2LookupScan 1024 longName [97, 98, 99, 100, 101, 102]) := by
  have hmem : (0, 6) ∈ ext2LookupScan 1024 longName [97, 98, 99, 100, 101, 102] := by
    rw [ext2LookupScan, scan, dif_pos (by decide), if_neg (by decide)]
    exact List.mem_cons_self
  exact ⟨hmem, by decide, by decide, fun h => absurd (h _ hmem).1 (by decide)⟩

end ShiziOS.Ext2
