import ShiziOS.Fs.PathParse

/-!
# What a path means

A tree of directories, files and links, and the node that a path leads to in it. The target
of a link is resolved from the root, or from the directory that the link is in. Links are
followed inside one another up to a bound.

`Fault` and `firstFault` say where `vfs_path_lookup` leaves this way: at a name that is not there,
behind a node that is no directory, or at the target of a link that is not absolute.
-/

namespace ShiziOS.Fs

/-! ## Trees -/

inductive Node (ν : Type) where
  | dir (entry : Name → Option ν)
  | file
  | link (target : List Char)

structure Tree (ν : Type) where
  root : ν
  node : ν → Node ν

/-- Why a path leads nowhere. -/
inductive Failure where
  | noEntry | notDir | loop
deriving DecidableEq, Repr

namespace Tree

variable {ν : Type} (t : Tree ν)

def absolute (target : List Char) : Bool := target.head? = some '/'

/-- Where a target is resolved from, for a link in the directory `dir`. -/
def base (dir : ν) (target : List Char) : ν := if absolute target then t.root else dir

/-- The way along some names, where `follow` resolves the target of a link in a directory. -/
@[simp] def walkWith (follow : ν → List Char → Except Failure ν) : ν → List Name → Except Failure ν
  | n, [] => .ok n
  | n, c :: cs =>
    match t.node n with
    | .dir entry =>
      match entry c with
      | none => .error .noEntry
      | some q =>
        match t.node q with
        | .link target => do walkWith follow (← follow n target) cs
        | _ => walkWith follow q cs
    | _ => .error .notDir

/-- The way along some names with at most `depth` links inside one another. -/
def walk : (depth : Nat) → ν → List Name → Except Failure ν
  | 0 => t.walkWith fun _ _ => .error .loop
  | depth + 1 => t.walkWith fun dir target => walk depth (t.base dir target) (components target)

/-- The node that a path leads to from a working directory. -/
def resolve (pwd : ν) (path : List Char) : Except Failure ν :=
  t.walk (maxSymlinks - 1) (t.base pwd path) (components path)

/-! ## Leaving the way -/

/-- Where the kernel leaves the way: at a name without an inode, or at a link whose target it
resolves from the link itself. The names that are left stand in one list for every link that
is being followed, the innermost first. -/
inductive Fault (ν : Type) where
  | null (frames : List (List Name))
  | link (q : ν) (frames : List (List Name))

/-- The first fault on the way along some names; `follow` and `faultIn` are for the targets of
links. -/
@[simp] def faultWith (follow : ν → List Char → Except Failure ν)
    (faultIn : ν → List Char → List (List Name) → Option (Fault ν)) :
    ν → List Name → (frames : List (List Name)) → Option (Fault ν)
  | _, [], _ => none
  | n, c :: cs, fs =>
    match t.node n with
    | .dir entry =>
      match entry c with
      | none => some (.null (cs :: fs))
      | some q =>
        match t.node q with
        | .link target =>
          match faultIn q target (cs :: fs) with
          | some f => some f
          | none =>
            match follow n target with
            | .ok m => faultWith follow faultIn m cs fs
            | .error _ => none
        | _ => faultWith follow faultIn q cs fs
    | _ => some (.null (cs :: fs))

def fault : (depth : Nat) → ν → List Name → List (List Name) → Option (Fault ν)
  | 0 => t.faultWith (fun _ _ => .error .loop) fun _ _ _ => none
  | depth + 1 =>
    t.faultWith (fun dir target => t.walk depth (t.base dir target) (components target))
      fun q target fs =>
        if absolute target then fault depth t.root (components target) fs
        else some (.link q (components target :: fs))

def firstFault (pwd : ν) (path : List Char) : Option (Fault ν) :=
  t.fault (maxSymlinks - 1) (t.base pwd path) (components path) []

end Tree

/-- What comes of an inode that is null, where `nullMode` is read as its mode: it is taken for
a link, or the lookup goes on and may end there. -/
def nullErrno (nullMode : Option Mode) (frames : List (List Name)) : Option Errno :=
  match nullMode with
  | none => none
  | some mode =>
    if sIslnk mode then some (if maxSymlinks ≤ frames.length then .eloop else .einval)
    else if frames.flatten = [] then some .enoent
    else none

/-- The error that a fault ends in, if it ends in one. -/
def Tree.Fault.errno {ν : Type} (nullMode : Option Mode) : Tree.Fault ν → Option Errno
  | .null frames => nullErrno nullMode frames
  | .link _ frames =>
    match frames.dropWhile (· == []) with
    | [] => none
    | f :: fs => nullErrno nullMode (f.tail :: fs)

/-- The error that the kernel should give for a failure; for a node that is no directory any
will do. -/
def Failure.Is : Failure → Errno → Prop
  | .noEntry, e => e = .enoent
  | .notDir, _ => True
  | .loop, e => e = .eloop

/-! ## The way, one name at a time -/

namespace Tree

variable {ν : Type} (t : Tree ν)

/-- The target of a link in a directory, with at most `depth` links inside one another. -/
def follow : (depth : Nat) → ν → List Char → Except Failure ν
  | 0, _, _ => .error .loop
  | depth + 1, dir, target => t.walk depth (t.base dir target) (components target)

theorem walk_eq (depth : Nat) : t.walk depth = t.walkWith (t.follow depth) := by
  cases depth <;> rfl

theorem walk_nil (depth : Nat) (n : ν) : t.walk depth n [] = .ok n := by
  rw [walk_eq, walkWith]

variable {t} {depth : Nat} {n q : ν} {c : Name} {cs : List Name} {fs : List (List Name)}
  {entry : Name → Option ν} {target : List Char}

theorem walk_step (hn : t.node n = .dir entry) (hc : entry c = some q)
    (hq : ∀ target, t.node q ≠ .link target) : t.walk depth n (c :: cs) = t.walk depth q cs := by
  rw [walk_eq, walkWith]
  simp only [hn, hc]

theorem walk_link (hn : t.node n = .dir entry) (hc : entry c = some q)
    (hq : t.node q = .link target) :
    t.walk depth n (c :: cs) = (do t.walk depth (← t.follow depth n target) cs) := by
  rw [walk_eq, walkWith]
  simp only [hn, hc, hq]

/-- The first fault in the target of a link. -/
def faultIn (t : Tree ν) : (depth : Nat) → ν → List Char → List (List Name) → Option (Fault ν)
  | 0, _, _, _ => none
  | depth + 1, q, target, fs =>
    if absolute target then t.fault depth t.root (components target) fs
    else some (.link q (components target :: fs))

theorem fault_eq : t.fault depth = t.faultWith (t.follow depth) (t.faultIn depth) := by
  cases depth <;> rfl

theorem fault_nil : t.fault depth n [] fs = none := by
  rw [fault_eq, faultWith]

theorem fault_noEntry (hn : t.node n = .dir entry) (hc : entry c = none) :
    t.fault depth n (c :: cs) fs = some (.null (cs :: fs)) := by
  simp only [fault_eq, faultWith, hn, hc]

theorem fault_notDir (hn : ∀ entry, t.node n ≠ .dir entry) :
    t.fault depth n (c :: cs) fs = some (.null (cs :: fs)) := by
  rw [fault_eq, faultWith]
  cases h : t.node n with
  | dir entry => exact absurd h (hn entry)
  | file => rfl
  | link target => rfl

theorem fault_step (hn : t.node n = .dir entry) (hc : entry c = some q)
    (hq : ∀ target, t.node q ≠ .link target) :
    t.fault depth n (c :: cs) fs = t.fault depth q cs fs := by
  rw [fault_eq, faultWith]
  simp only [hn, hc]

theorem fault_link (hn : t.node n = .dir entry) (hc : entry c = some q)
    (hq : t.node q = .link target) :
    t.fault depth n (c :: cs) fs =
      match t.faultIn depth q target (cs :: fs) with
      | some f => some f
      | none =>
        match t.follow depth n target with
        | .ok m => t.fault depth m cs fs
        | .error _ => none := by
  rw [fault_eq, faultWith]
  simp only [hn, hc, hq]

/-! ## Links on the way -/

def NotLink (t : Tree ν) (n : ν) : Prop := ∀ target, t.node n ≠ .link target

theorem walkWith_notLink {follow : ν → List Char → Except Failure ν} {m : ν}
    (hf : ∀ dir target m, t.NotLink dir → follow dir target = .ok m → t.NotLink m)
    (hn : t.NotLink n) (h : t.walkWith follow n cs = .ok m) : t.NotLink m := by
  induction cs generalizing n with
  | nil =>
    cases h
    exact hn
  | cons c cs ih =>
    rw [walkWith] at h
    cases hnode : t.node n with
    | file => rw [hnode] at h; cases h
    | link target => exact absurd hnode (hn target)
    | dir entry =>
      simp only [hnode] at h
      cases hc : entry c with
      | none => rw [hc] at h; cases h
      | some q =>
        simp only [hc] at h
        cases hq : t.node q with
        | link target =>
          simp only [hq] at h
          cases hm : follow n target with
          | error e => rw [hm] at h; cases h
          | ok m' =>
            rw [hm] at h
            exact ih (hf n target m' hn hm) h
        | file =>
          simp only [hq] at h
          exact ih (fun target hl => by rw [hq] at hl; cases hl) h
        | dir entry =>
          simp only [hq] at h
          exact ih (fun target hl => by rw [hq] at hl; cases hl) h

theorem walk_notLink {m : ν} (hroot : t.NotLink t.root) (hn : t.NotLink n)
    (h : t.walk depth n cs = .ok m) : t.NotLink m := by
  induction depth generalizing n cs m with
  | zero => exact walkWith_notLink (fun _ _ _ _ h => (by cases h)) hn h
  | succ depth ih =>
    refine walkWith_notLink ?_ hn h
    intro dir target m' hdir hm
    refine ih ?_ hm
    rw [base]
    split_ifs
    · exact hroot
    · exact hdir

theorem faultWith_link {follow : ν → List Char → Except Failure ν}
    {faultIn : ν → List Char → List (List Name) → Option (Fault ν)} {frames : List (List Name)}
    (hf : ∀ p target fs, t.node p = .link target → faultIn p target fs = some (.link q frames) →
      ∃ target, t.node q = .link target)
    (h : t.faultWith follow faultIn n cs fs = some (.link q frames)) :
    ∃ target, t.node q = .link target := by
  induction cs generalizing n with
  | nil => cases h
  | cons c cs ih =>
    rw [faultWith] at h
    cases hnode : t.node n with
    | file => rw [hnode] at h; cases h
    | link target => rw [hnode] at h; cases h
    | dir entry =>
      simp only [hnode] at h
      cases hc : entry c with
      | none => rw [hc] at h; cases h
      | some p =>
        simp only [hc] at h
        cases hp : t.node p with
        | file =>
          simp only [hp] at h
          exact ih h
        | dir entry =>
          simp only [hp] at h
          exact ih h
        | link target =>
          simp only [hp] at h
          cases hin : faultIn p target (cs :: fs) with
          | some f =>
            rw [hin] at h
            cases h
            exact hf p target _ hp hin
          | none =>
            rw [hin] at h
            cases hm : follow n target with
            | error e => rw [hm] at h; cases h
            | ok m =>
              rw [hm] at h
              exact ih h

theorem fault_isLink {frames : List (List Name)}
    (h : t.fault depth n cs fs = some (.link q frames)) : ∃ target, t.node q = .link target := by
  induction depth generalizing n cs fs with
  | zero => exact faultWith_link (fun _ _ _ _ h => (by cases h)) h
  | succ depth ih =>
    refine faultWith_link ?_ h
    intro p target fs' hp hin
    split_ifs at hin with ha
    · exact ih hin
    · cases hin
      exact ⟨target, hp⟩

end Tree

end ShiziOS.Fs
