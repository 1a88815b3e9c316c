import ShiziOS.Fs.DirOps

/-!
# Runs of the file systems

From nothing mounted on, every sequence of calls by tasks, of mounts and unmounts. What holds
of the graph in all such runs follows from what a quiet step, an operation of tmpfs and a new
mount preserve (`runActions_induct`), where the operations may be asked to meet a condition.
-/

namespace ShiziOS.Fs

open Exec Option

/-! ## Mounts -/

/-- What a mount does to the graph: nothing, or there is a root with a super block of its own. -/
structure MountEffect (s s' : Vfs) : Prop where
  usesKept : UsesKept s s'
  graph : s'.graph = s.graph ∨ ∃ p n sb, (∀ k, uses s.sbs sb k = false) ∧ s.graph p = none ∧
    uses s'.sbs sb n = true ∧ s'.graph = s.graph.put p (newDir n sb n)

variable {env : Env} {s s' s'' : Vfs} {α : Type}

theorem Still.mountEffect (h : Still s s') : MountEffect s s' := ⟨h.usesKept, .inl h.graph⟩

theorem MountEffect.still (h : MountEffect s s') (h' : Still s' s'') : MountEffect s s'' where
  usesKept := h.usesKept.trans h'.usesKept
  graph := by
    rw [h'.graph, h'.uses]
    exact h.graph

theorem MountEffect.of_still (h : Still s s') (h' : MountEffect s' s'') : MountEffect s s'' where
  usesKept := h.usesKept.trans h'.usesKept
  graph := by
    rw [← h.graph, ← h.uses]
    exact h'.graph

theorem mountEffect_then {x : K α} {β : Type} {f : α → K β}
    (hx : ∀ s, Spec x s fun _ s' => MountEffect s s')
    (hf : ∀ a, Keeps Still (f a)) : ∀ s, Spec (x >>= f) s fun _ s' => MountEffect s s' := by
  intro s
  refine (hx s).bind ?_
  intro a s1 h1
  refine (hf a s1).mono ?_
  intro b s2 h2
  exact h1.still h2

theorem tmpfsMount_effect (dev : Option Nat) (maxPages : Nat) (s : Vfs) :
    Spec (tmpfsMount env dev maxPages) s fun _ s' => MountEffect s s' := by
  refine (tmpfsMount_graph dev maxPages).mono ?_
  rintro r s' ⟨hu, h⟩
  refine ⟨hu, ?_⟩
  cases r with
  | error e => exact .inl h
  | ok root =>
    obtain ⟨p, n, sb, hsb, hp, hn, hgraph⟩ := h
    refine .inr ⟨p, n, sb, ?_, hp, hn, hgraph⟩
    intro k
    rw [uses, hsb, any_none]

theorem vfsRootMount_effect (dev : Option Nat) (s : Vfs) :
    Spec (vfsRootMount env dev) s fun _ s' => MountEffect s s' := by
  refine mountEffect_then (tmpfsMount_effect dev 0) ?_ s
  intro r
  cases r with
  | error e => exact keeps_stuck
  | ok root =>
    apply keeps_bind (still_quiet (keeps_kheapAlloc 1))
    refine unless_none ((still_quiet (keeps_vfsDput root)).result) ?_
    intro a
    apply keeps_bind keeps_get
    intro s
    refine keeps_bind (still_modify fun _ => ⟨rfl, rfl⟩) ?_
    intro _
    apply keeps_bind (still_quiet (keeps_kheapAlloc 1))
    intro b
    cases b with
    | none =>
      refine keeps_bind (still_modify fun _ => ⟨rfl, rfl⟩) ?_
      intro _
      exact (still_quiet (keeps_vfsDput root)).result
    | some b => exact (still_quiet (keeps_vfsPathGet _)).result

theorem still_vfsAttachMount (m : Ptr) (mountpoint : Path) :
    Keeps Still (vfsAttachMount m mountpoint) :=
  keeps_bind (still_setMount _) fun _ => still_setDentry _

theorem vfsMount_effect (dirName : List Char) (flags : Flags) (dev : Option Nat) (maxPages : Nat)
    (pwd : Path)
    (s : Vfs) : Spec (vfsMount env dirName flags dev maxPages pwd) s fun _ s' =>
      MountEffect s s' := by
  refine (still_quiet (keeps_vfsPathLookup env _ _ _) s).bind ?_
  refine unless_error (fun _ _ h1 => spec_pure h1.mountEffect) ?_
  intro mountpoint s1 h1
  refine Spec.mono (mountEffect_then (tmpfsMount_effect dev maxPages) ?_ s1) ?_
  · intro r
    cases r with
    | error e => exact still_pathPut mountpoint _
    | ok root =>
      apply keeps_bind (still_quiet (keeps_kheapAlloc 1))
      intro a
      cases a with
      | none =>
        apply keeps_bind (still_quiet (keeps_vfsDput root))
        intro _
        exact still_pathPut mountpoint _
      | some a =>
        apply keeps_bind keeps_get
        intro s
        refine keeps_bind (still_modify fun _ => ⟨rfl, rfl⟩) ?_
        intro _
        apply keeps_bind (still_quiet (keeps_vfsMntget _))
        intro _
        apply keeps_bind (still_quiet (keeps_vfsDget _))
        intro _
        apply keeps_bind (still_vfsAttachMount _ mountpoint)
        intro _
        exact still_pathPut mountpoint _
  · intro r s2 h2
    exact .of_still h1 h2

theorem still_vfsUmount (dirName : List Char) (flags : Nat) (fromKernel : Bool) (pwd : Path) :
    Keeps Still (vfsUmount env dirName flags fromKernel pwd) := by
  rw [vfsUmount]
  split_ifs with hf
  · exact keeps_pure _
  · apply keeps_bind (still_quiet (keeps_vfsPathLookup env _ _ _))
    refine unless_error (fun _ => keeps_pure _) ?_
    intro mountpoint
    apply keeps_bind keeps_mountAt
    intro m
    split_ifs
    · exact still_pathPut mountpoint _
    · exact still_pathPut mountpoint _
    · have hdetach : Keeps Still (detachMount mountpoint.mnt) := by
        apply keeps_bind keeps_get
        intro s
        apply keeps_bind (keeps_ofOption _)
        intro parent
        exact still_setMount _
      apply keeps_bind hdetach
      intro _
      apply keeps_bind (still_setDentry _)
      intro _
      apply keeps_bind (still_quiet (keeps_vfsMntput _))
      intro _
      exact still_pathPut mountpoint _

/-! ## Runs -/

/-- A call, or a change of what is mounted. -/
inductive Action where
  | call (c : Call)
  | mountRoot (dev : Option Nat)
  | mount (dirName : List Char) (flags : Flags) (dev : Option Nat) (maxPages : Nat) (pwd : Path)
  | umount (dirName : List Char) (flags : Nat) (fromKernel : Bool) (pwd : Path)

def Action.run (env : Env) : Action → K Unit
  | .call c => do
    let _ ← c.run env
    pure ()
  | .mountRoot dev => do
    let _ ← vfsRootMount env dev
    pure ()
  | .mount dirName flags dev maxPages pwd => do
    let _ ← vfsMount env dirName flags dev maxPages pwd
    pure ()
  | .umount dirName flags fromKernel pwd => do
    let _ ← vfsUmount env dirName flags fromKernel pwd
    pure ()

/-- The operation of tmpfs that an action comes to, and the state in which it does. -/
def Action.dirOp (env : Env) : Action → K (Option DirOp)
  | .call c => c.dirOp env
  | _ => pure none

/-- The operation that a call comes to meets a condition in the state in which it does. -/
def Action.Meets (C : DirOp → Vfs → Prop) (env : Env) (action : Action) (s : Vfs) : Prop :=
  match action with
  | .call c => ∀ op s₁, c.dirOp env s = some (some op, s₁) → C op s₁
  | _ => True

/-- What an action does to the graph: nothing, or its operation, or there is a new root. -/
inductive Action.Effect (env : Env) (action : Action) (s s' : Vfs) : Prop
  | still (h : Still s s')
  | op {op : DirOp} {r : Except Errno Unit} {s₁ s₂ : Vfs}
      (hop : action.dirOp env s = some (some op, s₁))
    (h₁ : Still s s₁) (hrun : op.run env s₁ = some (r, s₂)) (h₂ : Still s₂ s')
  | mount (h : MountEffect s s')

def runActions : List (Env × Action) → K Unit
  | [] => pure ()
  | (env, action) :: actions => do
    action.run env
    runActions actions

/-- Every operation of a run meets a condition. -/
def Within (C : DirOp → Vfs → Prop) : List (Env × Action) → Vfs → Prop
  | [], _ => True
  | (env, action) :: actions, s =>
    action.Meets C env s ∧ ∀ s₁, action.run env s = some ((), s₁) → Within C actions s₁

/-- Before anything is mounted, with a heap that may answer in any way. -/
def Vfs.empty (heap : Oracle) : Vfs := { Vfs.start with heap := heap }

theorem Action.run_effect (action : Action) (s : Vfs) :
    Spec (action.run env) s fun _ s' => action.Effect env s s' := by
  cases action with
  | call c =>
    refine (c.run_follows s).bind ?_
    rintro r s2 ⟨o, s1, ho, hout⟩
    have h1 : Still s s1 := (c.dirOp_prepares s _ _ ho).1.still
    cases o with
    | none => exact spec_pure (.still (h1.trans hout))
    | some op =>
      obtain ⟨r', s3, hrun, h3⟩ := hout
      exact spec_pure (.op ho h1 hrun h3)
  | mountRoot dev =>
    refine (vfsRootMount_effect dev s).bind ?_
    intro r s1 h1
    exact spec_pure (.mount h1)
  | mount dirName flags dev maxPages pwd =>
    refine (vfsMount_effect dirName flags dev maxPages pwd s).bind ?_
    intro r s1 h1
    exact spec_pure (.mount h1)
  | umount dirName flags fromKernel pwd =>
    refine (still_vfsUmount dirName flags fromKernel pwd s).bind ?_
    intro r s1 h1
    exact spec_pure (.still h1)

variable {C : DirOp → Vfs → Prop} {action : Action}

theorem Action.Meets.of_dirOp {op : DirOp} {s1 : Vfs}
    (h : action.Meets C env s) (hop : action.dirOp env s = some (some op, s1)) : C op s1 := by
  cases action with
  | call c => exact h op s1 hop
  | _ => cases hop

theorem Action.run_induct {I : Vfs → Prop} (hstill : ∀ s s', Still s s' → I s → I s')
    (hop : ∀ env op s r s', op.run env s = some (r, s') → C op s → I s → I s')
    (hmount : ∀ s s', MountEffect s s' → I s → I s') (hC : action.Meets C env s) (hs : I s) :
    Spec (action.run env) s fun _ s' => I s' := by
  refine (action.run_effect s).mono ?_
  rintro _ s' (h | ⟨ho, h1, hrun, h2⟩ | h)
  · exact hstill s s' h hs
  · exact hstill _ s' h2 (hop env _ _ _ _ hrun (hC.of_dirOp ho) (hstill s _ h1 hs))
  · exact hmount s s' h hs

/-- What quiet steps, operations that meet the condition and mounts preserve, holds along a run. -/
theorem runActions_induct {I : Vfs → Prop} {actions : List (Env × Action)}
    (hstill : ∀ s s', Still s s' → I s → I s')
    (hop : ∀ env op s r s', op.run env s = some (r, s') → C op s → I s → I s')
    (hmount : ∀ s s', MountEffect s s' → I s → I s') (hC : Within C actions s) (hs : I s) :
    Spec (runActions actions) s fun _ s' => I s' := by
  induction actions generalizing s with
  | nil => exact spec_pure hs
  | cons a actions ih =>
    obtain ⟨env, action⟩ := a
    apply spec_bind
    intro _ s1 h1
    exact ih (hC.2 s1 h1) (Action.run_induct hstill hop hmount hC.1 hs () s1 h1)

/-! ## Checking a run -/

/-- `Action.Meets` for a given state, by running the call up to its operation. -/
def Action.check (C : DirOp → Vfs → Bool) (env : Env) (action : Action) (s : Vfs) : Bool :=
  match action with
  | .call c => ((c.dirOp env s).map fun r => r.1.all fun op => C op r.2).getD true
  | _ => true

/-- `Within` for a given run, by running it. -/
def checkWithin (C : DirOp → Vfs → Bool) : List (Env × Action) → Vfs → Bool
  | [], _ => true
  | (env, action) :: actions, s =>
    action.check C env s && ((action.run env s).map fun r => checkWithin C actions r.2).getD true

theorem Action.meets_of_check {check : DirOp → Vfs → Bool}
    (hcheck : ∀ op s, check op s = true → C op s) (h : action.check check env s = true) :
    action.Meets C env s := by
  cases action with
  | call c =>
    intro op s1 hop
    rw [Action.check, hop, map_some, getD_some, all_some] at h
    exact hcheck op s1 h
  | _ => trivial

theorem within_of_check {check : DirOp → Vfs → Bool}
    (hcheck : ∀ op s, check op s = true → C op s) {actions : List (Env × Action)}
    (h : checkWithin check actions s = true) : Within C actions s := by
  induction actions generalizing s with
  | nil => trivial
  | cons a actions ih =>
    obtain ⟨env, action⟩ := a
    rw [checkWithin, Bool.and_eq_true] at h
    refine ⟨Action.meets_of_check hcheck h.1, ?_⟩
    intro s1 hrun
    have hrest := h.2
    rw [hrun, map_some, getD_some] at hrest
    exact ih hrest

end ShiziOS.Fs
