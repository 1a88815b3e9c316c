import Mathlib.Data.List.Find
import ShiziOS.Lib.Area

/-!
# The caches as maps

The hash table of `include/hash.h` and the keys of the two caches of `kernel/fs/vfs.c`, whose
hash functions `Env` leaves open. Each node is added once, so a chain is a list of nodes.

The length of a name is a `uint32_t` in a key and a `size_t` in a call. A name of `2 ^ 32` bytes
would be looked up as its first bytes, but no block of the heap holds one.

* `HashTable.hashLookup_withNodes`: a table finds the node that was added last.
* `vfsDentryEqFn_iff`: two keys are equal exactly if the parents and the names are.
* `cache_lookup`: both caches are maps.
-/

namespace ShiziOS.Fs

open Bytes List Function

/-! ## Hash tables -/

structure HashTable (κ α : Type) where
  buckets : Nat → List α
  bucketCount : Nat
  hash : κ → BitVec 32
  eq : κ → κ → Bool

variable {κ α : Type}

def hashInit (bucketCount : Nat) (hash : κ → BitVec 32) (eq : κ → κ → Bool) : HashTable κ α :=
  ⟨fun _ => [], bucketCount, hash, eq⟩

namespace HashTable

def hashBucketIndex (ht : HashTable κ α) (key : κ) : Nat :=
  (ht.hash key).toNat &&& (ht.bucketCount - 1)

def hashAdd (ht : HashTable κ α) (node : α) (key : κ) : HashTable κ α :=
  let idx := ht.hashBucketIndex key
  { ht with buckets := update ht.buckets idx (node :: ht.buckets idx) }

def hashLookup (ht : HashTable κ α) (key : κ) (getKey : α → κ) : Option α :=
  (ht.buckets (ht.hashBucketIndex key)).find? fun node => ht.eq key (getKey node)

/-- The table with these nodes, the last one that was added first. -/
def withNodes (ht : HashTable κ α) (getKey : α → κ) : List α → HashTable κ α
  | [] => ht
  | node :: nodes => (ht.withNodes getKey nodes).hashAdd node (getKey node)

theorem withNodes_eq (ht : HashTable κ α) (getKey : α → κ) (nodes : List α) :
    ht.withNodes getKey nodes = { ht with buckets := fun idx =>
      (nodes.filter fun node => idx = ht.hashBucketIndex (getKey node)) ++ ht.buckets idx } := by
  induction nodes with
  | nil => rfl
  | cons node nodes ih =>
    rw [withNodes, ih, hashAdd]
    congr 1
    funext idx
    by_cases hidx : idx = ht.hashBucketIndex (getKey node)
    · rw [filter_cons_of_pos (by simpa using hidx), hidx]
      exact update_self ..
    · rw [filter_cons_of_neg (by simpa using hidx)]
      exact update_of_ne hidx ..

theorem hashLookup_withNodes {n : Nat} {hash : κ → BitVec 32} {eq : κ → κ → Bool} {getKey : α → κ}
    {key : κ} (heq : ∀ key', eq key key' = true → hash key = hash key') {p : α → Prop}
    [DecidablePred p] {nodes : List α} (hp : ∀ node ∈ nodes, eq key (getKey node) = true ↔ p node) :
    ((hashInit n hash eq).withNodes getKey nodes).hashLookup key getKey =
      nodes.find? fun node => p node := by
  rw [withNodes_eq]
  change (nodes.filter _ ++ []).find? _ = _
  rw [append_nil, find?_filter]
  refine find?_congr fun node hnode => ?_
  rw [Bool.eq_iff_iff, decide_eq_true_iff, decide_eq_true_iff, decide_eq_true_iff]
  refine (and_iff_right_of_imp fun he => ?_).trans (hp node hnode)
  exact congrArg (fun h : BitVec 32 => h.toNat &&& (n - 1)) (heq _ he)

theorem hashBucketIndex_withNodes (ht : HashTable κ α) (getKey : α → κ) (nodes : List α) (key : κ)
    (h : 0 < ht.bucketCount) :
    (ht.withNodes getKey nodes).hashBucketIndex key < ht.bucketCount := by
  rw [withNodes_eq]
  have hle : ht.hashBucketIndex key ≤ ht.bucketCount - 1 := Nat.and_le_right
  exact hle.trans_lt (Nat.sub_lt h Nat.one_pos)

end HashTable

open HashTable

/-! ## The size of a table -/

def vfsHashMin : Nat := 256
def vfsHashMax : Nat := 2 ^ 18

/-- The bits below the highest one are set, and one is added. -/
def roundUp (buckets : Nat) : Nat :=
  [1, 2, 4, 8, 16, 32].foldl (fun b k => b ||| b >>> k) (buckets - 1) + 1

def vfsGetHashSize (totalPages objSize scale : Nat) : Nat :=
  let maxObjs := totalPages * (4096 / objSize) % 2 ^ 64
  let buckets := max vfsHashMin (min (maxObjs / scale) vfsHashMax)
  if buckets = 0 then 1 else roundUp buckets

theorem vfsGetHashSize_pos (totalPages objSize scale : Nat) :
    0 < vfsGetHashSize totalPages objSize scale := by
  rw [vfsGetHashSize]
  split_ifs
  · exact Nat.one_pos
  · exact Nat.succ_pos _

/-! ## Keys -/

structure Qstr where
  name : List Byte
  len : BitVec 32
  hash : BitVec 32

structure DentryKey where
  parent : BitVec 64
  name : Qstr

structure InodeKey where
  dev : BitVec 32
  ino : BitVec 64

def vfsFullNameHash (name : List Byte) (len : BitVec 32) : BitVec 32 :=
  (name.take len.toNat).foldl (fun hash c => (hash <<< 5) + hash + c.signExtend 32) 0

/-- The key that `vfs_dalloc` and `vfs_dcache_find` make of a name. -/
def dentryKey (parent : BitVec 64) (name : List Byte) : DentryKey :=
  let len := BitVec.ofNat 32 name.length
  ⟨parent, name, len, vfsFullNameHash name len⟩

def vfsDentryHashFn (key : DentryKey) : BitVec 32 :=
  (key.parent.setWidth 32 ^^^ key.name.hash) * 0x9e370001#32

def vfsDentryEqFn (a b : DentryKey) : Bool :=
  a.parent == b.parent && a.name.len == b.name.len && a.name.hash == b.name.hash &&
    a.name.name.take a.name.len.toNat == b.name.name.take a.name.len.toNat

def vfsInodeHashFn (key : InodeKey) : BitVec 32 :=
  (key.dev + key.ino.setWidth 32) * 0x9e370001#32

def vfsInodeEqFn (a b : InodeKey) : Bool := a.dev == b.dev && a.ino == b.ino

theorem vfsDentryEqFn_iff {parent parent' : BitVec 64} {name name' : List Byte}
    (hname : name.length < 2 ^ 32) (hname' : name'.length < 2 ^ 32) :
    vfsDentryEqFn (dentryKey parent name) (dentryKey parent' name') = true ↔
      parent' = parent ∧ name' = name := by
  have htake : name.take (BitVec.ofNat 32 name.length).toNat = name := by
    rw [BitVec.toNat_ofNat, Nat.mod_eq_of_lt hname, take_length]
  simp only [vfsDentryEqFn, dentryKey, Bool.and_eq_true, beq_iff_eq, htake]
  constructor
  · rintro ⟨⟨⟨hp, hl⟩, -⟩, hn⟩
    rw [hl, BitVec.toNat_ofNat, Nat.mod_eq_of_lt hname', take_length] at hn
    exact ⟨hp.symm, hn.symm⟩
  · rintro ⟨rfl, rfl⟩
    exact ⟨⟨⟨rfl, rfl⟩, rfl⟩, htake.symm⟩

/-! ## The caches -/

/-- The table that `vfs_dinit` makes for `sizeof(struct dentry)`. -/
def vfsDinit (totalPages objSize : Nat) : HashTable DentryKey α :=
  hashInit (vfsGetHashSize totalPages objSize 8) vfsDentryHashFn vfsDentryEqFn

/-- The table that `vfs_iinit` makes for `sizeof(struct inode)`. -/
def vfsIinit (totalPages objSize : Nat) : HashTable InodeKey α :=
  hashInit (vfsGetHashSize totalPages objSize 8) vfsInodeHashFn vfsInodeEqFn

variable (totalPages objSize : Nat) (nodes : List α) (parentOf : α → BitVec 64)
  (nameOf : α → List Byte) (parent : BitVec 64) (name : List Byte)

/-- The caches find what has been added last under a key and nothing under another key, and use
no bucket beyond their tables. -/
theorem cache_lookup (devOf : α → BitVec 32) (inoOf : α → BitVec 64) (dev : BitVec 32)
    (ino : BitVec 64) (hnames : ∀ d ∈ nodes, (nameOf d).length < 2 ^ 32)
    (hname : name.length < 2 ^ 32) :
    let dkey := fun d => dentryKey (parentOf d) (nameOf d)
    let ikey := fun i => InodeKey.mk (devOf i) (inoOf i)
    let dcache := (vfsDinit totalPages objSize).withNodes dkey nodes
    let icache := (vfsIinit totalPages objSize).withNodes ikey nodes
    dcache.hashLookup (dentryKey parent name) dkey =
        nodes.find? (fun d => parentOf d = parent ∧ nameOf d = name) ∧
      icache.hashLookup ⟨dev, ino⟩ ikey =
        nodes.find? (fun i => devOf i = dev ∧ inoOf i = ino) ∧
      (∀ key, dcache.hashBucketIndex key < vfsGetHashSize totalPages objSize 8) ∧
      ∀ key, icache.hashBucketIndex key < vfsGetHashSize totalPages objSize 8 := by
  intro dkey ikey dcache icache
  have hpos := vfsGetHashSize_pos totalPages objSize 8
  refine ⟨?_, ?_, fun key => hashBucketIndex_withNodes _ dkey nodes key hpos,
    fun key => hashBucketIndex_withNodes _ ikey nodes key hpos⟩
  · refine hashLookup_withNodes ?_ fun d hd => vfsDentryEqFn_iff hname (hnames d hd)
    intro key' he
    simp only [vfsDentryEqFn, Bool.and_eq_true, beq_iff_eq] at he
    simp only [vfsDentryHashFn, he]
  · refine hashLookup_withNodes ?_ fun i _ => ?_
    · intro key' he
      simp only [vfsInodeEqFn, Bool.and_eq_true, beq_iff_eq] at he
      simp only [vfsInodeHashFn, he]
    · rw [vfsInodeEqFn, Bool.and_eq_true, beq_iff_eq, beq_iff_eq, eq_comm, eq_comm (a := ino)]

/-- Three dentries, the first and the last of the same name in the same directory, and inodes with
the numbers of the dentries. -/
def threeNodes : List (BitVec 64 × List Byte × BitVec 64) :=
  [(16, [97, 98], 3), (32, [97, 98], 2), (16, [97, 98], 1)]

theorem cache_lookup_threeNodes :
    let dkey := fun d : BitVec 64 × List Byte × BitVec 64 => dentryKey d.1 d.2.1
    let ikey := fun d : BitVec 64 × List Byte × BitVec 64 => InodeKey.mk 5 d.2.2
    ((vfsDinit 4096 192).withNodes dkey threeNodes).hashLookup (dentryKey 16 [97, 98]) dkey =
      some (16, [97, 98], 3) ∧
    ((vfsIinit 4096 192).withNodes ikey threeNodes).hashLookup ⟨5, 2⟩ ikey =
      some (32, [97, 98], 2) := by
  obtain ⟨hd, hi, -⟩ := cache_lookup 4096 192 threeNodes (·.1) (·.2.1) 16 [97, 98] (fun _ => 5)
    (·.2.2) 5 2 (by decide) (by decide)
  exact ⟨hd.trans (by decide), hi.trans (by decide)⟩

end ShiziOS.Fs
