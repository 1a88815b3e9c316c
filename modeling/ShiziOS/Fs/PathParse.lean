import ShiziOS.Fs.Quiet

/-!
# The components of a path

The parser of `vfs_path_prs_next` against the split of the string at its slashes. A parser
is known by the components that are left in its string, so that two strings with the same
components are looked up alike; `Exec.Sim` carries this through the loop (`lookupLoop_congr`).
The rounds of a
lookup are bounded by the characters left on the stack of parsers, each worth more than all
that a link above it can bring.
-/

namespace ShiziOS.Fs

open Exec List Nat

/-! ## Components -/

/-- The maximal substrings without a slash that are not empty, in their order. -/
def components (path : List Char) : List Name := (path.splitOnP (· == '/')).filter (· ≠ [])

@[simp] theorem components_nil : components [] = [] := rfl

theorem components_slash (l : List Char) : components ('/' :: l) = components l := by
  have h : ('/' :: l).splitOnP (· == '/') = [].splitOnP (· == '/') ++ l.splitOnP (· == '/') :=
    splitOnP_append_cons [] l rfl
  rfl

theorem components_dropWhile (l : List Char) :
    components (l.dropWhile (· == '/')) = components l := by
  induction l with
  | nil => rfl
  | cons c l ih =>
    by_cases hc : c = '/'
    · subst hc
      exact ih
    · rw [dropWhile_cons_of_neg (by simpa using hc)]

/-- The first component is the name before a slash. -/
theorem components_name {name l : List Char} (hne : name ≠ []) (hn : ∀ c ∈ name, c ≠ '/')
    (hl : l = [] ∨ ∃ l', l = '/' :: l') : components (name ++ l) = name :: components l := by
  have hs : name.splitOnP (· == '/') = [name] := by
    apply splitOnP_eq_singleton
    intro c hc
    simpa using hn c hc
  rcases hl with rfl | ⟨l', rfl⟩
  · rw [append_nil, components, hs]
    simp [hne]
  · rw [components_slash, components, splitOnP_append_cons name l' rfl, hs, filter_append]
    simp [hne, components]

theorem drop_length_takeWhile {α : Type} (p : α → Bool) (l : List α) :
    l.drop (l.takeWhile p).length = l.dropWhile p := by
  have h := @List.drop_left _ (l.takeWhile p) (l.dropWhile p)
  rwa [takeWhile_append_dropWhile] at h

variable {c : Name} {path : List Char} {prs prs' : Prs} {stack stack' : List Prs} {s s' : Vfs}
  {e : Errno} {flags : Flags} {fuel : Nat} {ds : List Dentry} {p : Path}

theorem length_le_of_mem_components {l : List Char} (h : c ∈ components l) :
    c.length ≤ l.length := by
  have hc : c ∈ l.splitOnP (· == '/') := mem_of_mem_filter h
  clear h
  induction l generalizing c with
  | nil =>
    cases mem_singleton.mp hc
    exact le_rfl
  | cons a l ih =>
    rw [splitOnP_cons_eq_if_modifyHead] at hc
    split_ifs at hc with ha
    · rcases mem_cons.mp hc with rfl | hc
      · exact zero_le _
      · exact (ih hc).trans (le_succ _)
    · obtain ⟨n, ns, hns⟩ := exists_cons_of_ne_nil (splitOnP_ne_nil (· == '/') l)
      rw [hns, modifyHead_cons] at hc
      rcases mem_cons.mp hc with rfl | hc
      · exact succ_le_succ (ih (hns ▸ mem_cons_self ..))
      · exact (ih (hns ▸ mem_cons_of_mem _ hc)).trans (le_succ _)

/-! ## The parser -/

/-- The names that a parser has still to look up. -/
def Prs.rest (prs : Prs) : List Name := components (prs.path.drop prs.offset)

theorem drop_skipSlashes (path : List Char) (offset : Nat) :
    path.drop (skipSlashes path offset) = (path.drop offset).dropWhile (· == '/') := by
  rw [skipSlashes, ← drop_drop, drop_length_takeWhile]

theorem components_drop_skipSlashes (path : List Char) (offset : Nat) :
    components (path.drop (skipSlashes path offset)) = components (path.drop offset) := by
  rw [drop_skipSlashes, components_dropWhile]

theorem drop_nameAt (path : List Char) (offset : Nat) :
    path.drop offset = nameAt path offset ++ path.drop (offset + (nameAt path offset).length) := by
  rw [← drop_drop, nameAt, drop_length_takeWhile, takeWhile_append_dropWhile]

theorem ne_slash_of_mem_nameAt {offset : Nat} {c : Char}
    (h : c ∈ nameAt path offset) : c ≠ '/' := by
  have := all_eq_true.mp (all_takeWhile (p := (· != '/')) (l := path.drop offset)) c h
  simpa using this

theorem nameAt_followed (path : List Char) (offset : Nat) :
    path.drop (offset + (nameAt path offset).length) = [] ∨
      ∃ l, path.drop (offset + (nameAt path offset).length) = '/' :: l := by
  rw [← drop_drop, nameAt, drop_length_takeWhile]
  cases h : (path.drop offset).dropWhile (· != '/') with
  | nil => exact .inl rfl
  | cons c l =>
    have hc := head_dropWhile_not (l := path.drop offset) (· != '/') (by rw [h]; simp)
    simp only [h, head_cons, bne_eq_false_iff_eq] at hc
    exact .inr ⟨l, by rw [hc]⟩

theorem Prs.nameAt_nil (h : prs.rest = []) :
    nameAt prs.path (skipSlashes prs.path prs.offset) = [] := by
  by_contra hne
  rw [rest, ← components_drop_skipSlashes, drop_nameAt, components_name hne
    (fun _ => ne_slash_of_mem_nameAt) (nameAt_followed _ _)] at h
  cases h

theorem Prs.rest_nil (h : nameAt prs.path (skipSlashes prs.path prs.offset) = []) :
    prs.rest = [] := by
  rw [rest, ← components_drop_skipSlashes]
  rw [nameAt, drop_skipSlashes] at h
  rw [drop_skipSlashes]
  cases hl : (prs.path.drop prs.offset).dropWhile (· == '/') with
  | nil => rfl
  | cons c l =>
    have hc := head_dropWhile_not (l := prs.path.drop prs.offset) (· == '/') (by rw [hl]; simp)
    simp only [hl, head_cons] at hc
    rw [hl, takeWhile_cons_of_pos (by simpa using hc)] at h
    cases h

theorem Prs.nameAt_cons {cs : List Name} (h : prs.rest = c :: cs) :
    nameAt prs.path (skipSlashes prs.path prs.offset) = c ∧ c ≠ [] ∧
      components (prs.path.drop (skipSlashes prs.path prs.offset + c.length)) = cs := by
  have hne : nameAt prs.path (skipSlashes prs.path prs.offset) ≠ [] := by
    intro hn
    rw [Prs.rest_nil hn] at h
    cases h
  rw [rest, ← components_drop_skipSlashes, drop_nameAt, components_name hne
    (fun _ => ne_slash_of_mem_nameAt) (nameAt_followed _ _)] at h
  obtain ⟨rfl, rfl⟩ := List.cons.inj h
  exact ⟨rfl, hne, rfl⟩

variable (env : Env)

theorem vfsPathPrsNext_nil (h : prs.rest = []) (pwd : Path) :
    vfsPathPrsNext env prs pwd = (do
      match ← prsStart env prs pwd with
      | none => pure (prs, .error .enomem)
      | some p => pure (⟨prs.path, some p, skipSlashes prs.path prs.offset⟩, .ok none)) := by
  refine bind_congr fun p => ?_
  cases p with
  | none => rfl
  | some p => exact if_pos (Prs.nameAt_nil h)

/-- With a component left the parser steps to it. -/
theorem vfsPathPrsNext_cons {cs : List Name} (h : prs.rest = c :: cs) (pwd : Path) :
    vfsPathPrsNext env prs pwd = (do
      match ← prsStart env prs pwd with
      | none => pure (prs, .error .enomem)
      | some p =>
        let offset := skipSlashes prs.path prs.offset + c.length
        match ← prsStep env p c with
        | .error e => pure (⟨prs.path, some p, offset⟩, .error e)
        | .ok p' => pure (⟨prs.path, some p', offset⟩, .ok (some p'))) := by
  obtain ⟨hc, hne, -⟩ := Prs.nameAt_cons h
  refine bind_congr fun p => ?_
  cases p with
  | none => rfl
  | some p =>
    rw [← hc] at hne ⊢
    exact if_neg hne

/-! ## Strings that differ in their slashes -/

/-- The strings of two parsers have the same components left, and the parsers stand at the
same path or start at the same one. -/
structure Prs.Same (prs prs' : Prs) : Prop where
  rest : prs.rest = prs'.rest
  currPath : prs.currPath = prs'.currPath
  absolute : prs.path.head? = some '/' ↔ prs'.path.head? = some '/'

theorem Prs.Same.refl (prs : Prs) : prs.Same prs := ⟨rfl, rfl, Iff.rfl⟩

theorem Prs.Same.setPath (h : prs.Same prs') (p : Option Path) :
    Prs.Same { prs with currPath := p } { prs' with currPath := p } := ⟨h.rest, rfl, h.absolute⟩

/-- Stacks of such parsers. -/
abbrev SameStack : List Prs → List Prs → Prop := List.Forall₂ Prs.Same

inductive Round.Same : Round → Round → Prop
  | next {stack stack' : List Prs} (h : SameStack stack stack') : Same (.next stack) (.next stack')
  | done (res : Except Errno Path) : Same (.done res) (.done res)

variable {prs prs' : Prs} {below below' : List Prs}

section

variable (h : prs.Same prs')
include h

theorem prsStart_congr (pwd : Path) : prsStart env prs pwd = prsStart env prs' pwd := by
  rw [prsStart, prsStart, h.currPath]
  simp only [h.absolute]

/-- Parsers with the same components left step alike. -/
theorem vfsPathPrsNext_sim (pwd : Path) :
    Sim (fun r r' => r.1.Same r'.1 ∧ r.2 = r'.2) (vfsPathPrsNext env prs pwd)
      (vfsPathPrsNext env prs' pwd) := by
  cases hr : prs.rest with
  | nil =>
    have hr' : prs'.rest = [] := h.rest.symm.trans hr
    rw [vfsPathPrsNext_nil env hr, vfsPathPrsNext_nil env hr', prsStart_congr env h]
    apply sim_next
    intro start
    cases start with
    | none => exact sim_pure ⟨h, rfl⟩
    | some p =>
      refine sim_pure ⟨⟨?_, rfl, h.absolute⟩, rfl⟩
      rw [Prs.rest, Prs.rest, components_drop_skipSlashes, components_drop_skipSlashes]
      exact h.rest
  | cons c cs =>
    have hr' : prs'.rest = c :: cs := h.rest.symm.trans hr
    rw [vfsPathPrsNext_cons env hr, vfsPathPrsNext_cons env hr', prsStart_congr env h]
    obtain ⟨-, -, hcs⟩ := Prs.nameAt_cons hr
    obtain ⟨-, -, hcs'⟩ := Prs.nameAt_cons hr'
    apply sim_next
    intro start
    cases start with
    | none => exact sim_pure ⟨h, rfl⟩
    | some p =>
      apply sim_next
      intro r
      cases r with
      | error e => exact sim_pure ⟨⟨hcs.trans hcs'.symm, rfl, h.absolute⟩, rfl⟩
      | ok p' => exact sim_pure ⟨⟨hcs.trans hcs'.symm, rfl, h.absolute⟩, rfl⟩

omit h in
theorem putStack_congr (h : SameStack stack stack') : putStack stack = putStack stack' := by
  induction h with
  | nil => rfl
  | cons hp _ ih => rw [putStack, putStack, hp.currPath, ih]

omit h in
theorem Round.Same.refl (r : Round) : r.Same r := by
  cases r with
  | next stack => exact .next (forall₂_same.mpr fun prs _ => .refl prs)
  | done res => exact .done res

omit h in
theorem failRound_sim (h : SameStack stack stack') (e : Errno) :
    Sim Round.Same (failRound stack e) (failRound stack' e) := by
  rw [failRound, failRound, putStack_congr (rel_reverse h)]
  exact sim_self .refl

theorem lookupEnd_sim (flags : Flags) :
    Sim Round.Same (lookupEnd flags prs) (lookupEnd flags prs') := by
  rw [lookupEnd, lookupEnd, h.currPath]
  apply sim_next
  intro p
  apply sim_next
  intro d
  cases d.inode with
  | none => exact failRound_sim (.cons h .nil) _
  | some i =>
    apply sim_next
    intro v
    split_ifs with hd
    · exact failRound_sim (.cons h .nil) _
    · exact sim_pure (.done _)

theorem popLink_sim {up up' : Prs} (hu : up.Same up') (hb : SameStack below below') :
    Sim Round.Same (popLink prs up below) (popLink prs' up' below') := by
  rw [popLink, popLink, hu.currPath, h.currPath]
  cases up'.currPath with
  | none => exact sim_pure (.next (.cons (hu.setPath _) hb))
  | some p =>
    apply sim_next
    intro _
    exact sim_pure (.next (.cons (hu.setPath _) hb))

theorem crossMount_sim (hb : SameStack below below') (p : Path) :
    Sim Round.Same (crossMount prs below p) (crossMount prs' below' p) := by
  apply sim_next
  intro m
  cases m with
  | none => exact failRound_sim (.cons h hb) _
  | some m =>
    apply sim_next
    intro a
    cases a with
    | none => exact failRound_sim (.cons h hb) _
    | some a =>
      apply sim_next
      intro v
      apply sim_next
      intro _
      apply sim_next
      intro _
      exact sim_pure (.next (.cons (h.setPath _) hb))

theorem followLink_sim (hb : SameStack below below') (p : Path) :
    Sim Round.Same (followLink env prs below p) (followLink env prs' below' p) := by
  have hfail : ∀ e, Sim Round.Same (do vfsPathPut p; failRound (prs :: below) e)
      (do vfsPathPut p; failRound (prs' :: below') e) := by
    intro e
    apply sim_next
    intro _
    exact failRound_sim (.cons h hb) e
  rw [followLink, followLink, hb.length_eq]
  split_ifs with hl
  · exact failRound_sim (.cons h hb) _
  apply sim_next
  intro _
  apply sim_next
  intro r
  cases r with
  | error e => exact hfail e
  | ok target =>
    apply sim_next
    intro a
    cases a with
    | none => exact hfail _
    | some a =>
      apply sim_next
      intro b
      cases b with
      | none => exact hfail _
      | some b =>
        apply sim_next
        intro _
        exact sim_pure (.next (.cons (.refl _) (.cons h hb)))

theorem lookupVisit_sim (hb : SameStack below below') (flags : Flags) (p : Path) :
    Sim Round.Same (lookupVisit env flags prs below p) (lookupVisit env flags prs' below' p) := by
  apply sim_next
  intro d
  split_ifs with hm
  · exact crossMount_sim h hb p
  · apply sim_next
    intro mode
    split_ifs with hl
    · exact followLink_sim env h hb p
    · exact sim_pure (.next (.cons h hb))

end

theorem lookupRound_sim (h : SameStack stack stack') (flags : Flags) (pwd : Path) :
    Sim Round.Same (lookupRound env flags pwd stack) (lookupRound env flags pwd stack') := by
  cases h with
  | nil => exact sim_self .refl
  | cons hp hb =>
    apply sim_bind (vfsPathPrsNext_sim env hp pwd)
    rintro ⟨prs, r⟩ ⟨prs', _⟩ ⟨hs, rfl⟩
    match r, hb with
    | .error e, hb => exact failRound_sim (.cons hs hb) e
    | .ok none, .nil => exact lookupEnd_sim hs flags
    | .ok none, .cons hu hb => exact popLink_sim hs hu hb
    | .ok (some p), hb => exact lookupVisit_sim env hs hb flags p

/-- What is looked up depends on the components only. -/
theorem lookupLoop_congr (h : SameStack stack stack') (flags : Flags) (pwd : Path) (fuel : Nat) :
    lookupLoop env flags pwd fuel stack = lookupLoop env flags pwd fuel stack' := by
  apply eq_of_sim
  induction fuel generalizing stack stack' with
  | zero => exact sim_self fun _ => rfl
  | succ fuel ih =>
    apply sim_bind (lookupRound_sim env h flags pwd)
    intro r r' hr
    cases hr with
    | next hs => exact ih hs
    | done res => exact sim_self fun _ => rfl

/-! ## The number of rounds -/

theorem components_length_le (l : List Char) : (components l).length ≤ l.length := by
  induction l with
  | nil => exact le_rfl
  | cons c l ih =>
    by_cases hc : c = '/'
    · subst hc
      exact ih.trans (le_succ _)
    · rw [components, splitOnP_cons_eq_if_modifyHead, if_neg (by simpa using hc)]
      obtain ⟨n, ns, hns⟩ := exists_cons_of_ne_nil (splitOnP_ne_nil (· == '/') l)
      rw [components, hns, filter_cons] at ih
      rw [hns, modifyHead_cons, filter_cons_of_pos (by simp)]
      simp only [length_cons]
      split_ifs at ih with hn
      · rw [length_cons] at ih
        omega
      · omega

def Prs.start (prs : Prs) (pwd : Path) : Path :=
  prs.currPath.getD (if prs.path.head? = some '/' then env.vfsRoot else pwd)

theorem prsStart_spec (prs : Prs) (pwd : Path) :
    Spec (prsStart env prs pwd) s fun r _ => ∀ p, r = some p → p = prs.start env pwd := by
  rw [prsStart, Prs.start]
  cases prs.currPath with
  | some p => exact spec_pure fun q hq => (Option.some.inj hq).symm
  | none =>
    apply spec_bind
    apply spec_kheapAlloc
    intro a heap
    cases a with
    | none => exact spec_pure (by simp)
    | some a =>
      apply spec_bind
      intro _ s' _
      exact spec_pure fun q hq => (Option.some.inj hq).symm

/-- The path that the parser steps to is the child with the next name. -/
theorem vfsPathPrsNext_spec (prs : Prs) (pwd : Path) :
    Spec (vfsPathPrsNext env prs pwd) s fun r s' =>
      (r.2 = .ok none → prs.rest = [] ∧ r.1.currPath = some (prs.start env pwd)) ∧
      ∀ p, r.2 = .ok (some p) → r.1.currPath = some p ∧
        ∃ c, prs.rest = c :: r.1.rest ∧ s'.IsChild (prs.start env pwd).dentry c p.dentry := by
  cases hr : prs.rest with
  | nil =>
    rw [vfsPathPrsNext_nil env hr]
    refine (prsStart_spec env prs pwd).bind ?_
    refine unless_none (fun _ _ => spec_pure ⟨nofun, nofun⟩) ?_
    intro p s1 hstart
    exact spec_pure ⟨fun _ => ⟨rfl, by rw [hstart p rfl]⟩, nofun⟩
  | cons c cs =>
    rw [vfsPathPrsNext_cons env hr]
    obtain ⟨-, -, hcs⟩ := Prs.nameAt_cons hr
    refine (prsStart_spec env prs pwd).bind ?_
    refine unless_none (fun _ _ => spec_pure ⟨nofun, nofun⟩) ?_
    intro p s1 hstart
    refine (prsStep_spec p c).bind ?_
    intro r s2 ⟨_, hstep⟩
    cases r with
    | error e => exact spec_pure ⟨nofun, nofun⟩
    | ok p' =>
      apply spec_pure
      refine ⟨nofun, ?_⟩
      intro q hq
      cases hq
      refine ⟨rfl, c, by rw [Prs.rest, hcs], ?_⟩
      rw [← hstart p rfl]
      exact (hstep p' rfl).2

/-- What a round can make of a stack: it takes a name, with or without a link to follow, or it
takes off the parser of a link. -/
inductive Next : List Prs → List Prs → Prop
  | step {prs prs' : Prs} {below : List Prs} {c : Name} (h : prs.rest = c :: prs'.rest) :
      Next (prs :: below) (prs' :: below)
  | push {prs prs' : Prs} {below : List Prs} {c : Name} {target : List Char} {base : Path}
      (h : prs.rest = c :: prs'.rest) (hl : below.length + 1 < maxSymlinks)
      (ht : target.length < pathMax) :
      Next (prs :: below) (⟨target, some base, 0⟩ :: prs' :: below)
  | pop {prs up : Prs} {below : List Prs} (p : Option Path) :
      Next (prs :: up :: below) ({ up with currPath := p } :: below)

theorem spec_failRound {Q : Round → Vfs → Prop} (h : ∀ s', Q (.done (.error e)) s') :
    Spec (failRound stack e) s Q := by
  apply spec_bind
  intro _ s' _
  exact spec_pure (h s')

/-- The dentry of the path is there and has an inode. -/
def Vfs.Found (s : Vfs) (p : Path) : Prop :=
  ∃ d i, s.dentries.get p.dentry = some d ∧ d.inode = some i

theorem lookupEnd_spec (flags : Flags) (prs : Prs) :
    Spec (lookupEnd flags prs) s fun r s' => ∃ res, r = .done res ∧
      ∀ p, res = .ok p → s'.Found p ∧ prs.currPath = some p := by
  apply spec_bind
  apply spec_ofOption
  intro p hp
  apply spec_dentryAt
  intro d hd
  cases hi : d.inode with
  | none => exact spec_failRound fun _ => ⟨_, rfl, nofun⟩
  | some i =>
    apply spec_inodeAt
    intro v _
    split_ifs with hdir
    · exact spec_failRound fun _ => ⟨_, rfl, nofun⟩
    · refine spec_pure ⟨_, rfl, fun q hq => ?_⟩
      cases hq
      exact ⟨⟨d, i, hd, hi⟩, hp⟩

theorem popLink_ends (prs up : Prs) (below : List Prs) :
    Spec (popLink prs up below) s fun r _ =>
      r = .next ({ up with currPath := prs.currPath } :: below) := by
  rw [popLink]
  cases up.currPath with
  | none => exact spec_pure rfl
  | some p =>
    apply spec_bind
    intro _ s1 _
    exact spec_pure rfl

theorem tmpfsReadlink_length (i : Inode) (bufsiz : Nat) :
    Spec (tmpfsReadlink i bufsiz) s fun r _ => ∀ target, r = .ok target →
      target.length ≤ bufsiz := by
  rw [tmpfsReadlink]
  cases i.symlinkTarget with
  | none => exact spec_pure (by simp)
  | some target =>
    by_cases hl : min i.data.dataSize bufsiz ≤ target.length
    · simp only [if_pos hl]
      refine spec_pure fun t h => ?_
      cases h
      rw [length_take]
      omega
    · simp only [if_neg hl]
      exact spec_stuck

theorem vfsReadlink_length (dentry : Ptr) (bufsiz : Nat) :
    Spec (vfsReadlink dentry bufsiz) s fun r _ => ∀ target, r = .ok target →
      target.length ≤ bufsiz := by
  apply spec_dentryAt
  intro d _
  cases d.inode with
  | none => exact spec_pure nofun
  | some p =>
    apply spec_inodeAt
    intro i _
    split_ifs with hl ho
    · exact spec_pure nofun
    · exact tmpfsReadlink_length i bufsiz
    · exact spec_stuck

/-- A visit ends the lookup with an error or goes on with the same strings, or with one more
for a link. -/
inductive Visited (prs : Prs) (below : List Prs) : Round → Prop
  | fail (e : Errno) : Visited prs below (.done (.error e))
  | stay (q : Option Path) : Visited prs below (.next ({ prs with currPath := q } :: below))
  | push {target : List Char} (base : Path) (hl : below.length + 1 < maxSymlinks)
      (ht : target.length < pathMax) :
      Visited prs below (.next (⟨target, some base, 0⟩ :: prs :: below))

theorem failRound_visited : Spec (failRound stack e) s fun r _ => Visited prs below r :=
  spec_failRound fun _ => .fail e

theorem crossMount_visited (prs : Prs) (below : List Prs) (p : Path) :
    Spec (crossMount prs below p) s fun r _ => Visited prs below r := by
  apply spec_bind
  refine unless_none (fun _ _ => failRound_visited) ?_
  intro m s1 _
  apply spec_bind
  refine unless_none (fun _ _ => failRound_visited) ?_
  intro a s2 _
  apply spec_bind
  intro v s3 _
  apply spec_bind
  intro _ s4 _
  apply spec_bind
  intro _ s5 _
  exact spec_pure (.stay _)

theorem followLink_visited (prs : Prs) (below : List Prs) (p : Path) :
    Spec (followLink env prs below p) s fun r _ => Visited prs below r := by
  have hfail : ∀ e s', Spec (do vfsPathPut p; failRound (prs :: below) e) s' fun r _ =>
      Visited prs below r := by
    intro e s'
    apply spec_bind
    intro _ s1 _
    exact failRound_visited
  rw [followLink]
  split_ifs with hl
  · exact failRound_visited
  apply spec_bind
  intro _ s1 _
  refine (vfsReadlink_length p.dentry (pathMax - 1)).bind ?_
  refine unless_error (fun e s2 _ => hfail e s2) ?_
  intro target s2 hr
  have ht : target.length < pathMax := by
    have := hr target rfl
    rw [pathMax] at this ⊢
    omega
  apply spec_bind
  refine unless_none (fun s3 _ => hfail _ s3) ?_
  intro a s3 _
  apply spec_bind
  refine unless_none (fun s4 _ => hfail _ s4) ?_
  intro b s4 _
  apply spec_bind
  intro _ s5 _
  exact spec_pure (.push _ (by omega) ht)

theorem lookupVisit_visited (flags : Flags) (prs : Prs) (below : List Prs) (p : Path) :
    Spec (lookupVisit env flags prs below p) s fun r _ => Visited prs below r := by
  apply spec_bind
  intro d s1 _
  split_ifs with hm
  · exact crossMount_visited prs below p
  · apply spec_bind
    intro mode s2 _
    split_ifs with hl
    · exact followLink_visited env prs below p
    · exact spec_pure (.stay prs.currPath)

/-- A round takes a name, a link or a parser. -/
theorem lookupRound_next (flags : Flags) (pwd : Path) (stack : List Prs) :
    Spec (lookupRound env flags pwd stack) s fun r _ => ∀ stack', r = .next stack' →
      Next stack stack' := by
  cases stack with
  | nil => exact spec_stuck
  | cons prs below =>
    refine (vfsPathPrsNext_spec env prs pwd).bind ?_
    rintro ⟨prs', r⟩ s1 ⟨-, hsome⟩
    match r, below with
    | .error e, below => exact spec_failRound fun _ => nofun
    | .ok none, [] =>
      refine (lookupEnd_spec flags prs').mono ?_
      rintro _ s2 ⟨res, rfl, -⟩
      exact nofun
    | .ok none, up :: below =>
      refine (popLink_ends prs' up below).mono ?_
      rintro _ s2 rfl stack hs
      cases hs
      exact .pop _
    | .ok (some p), below =>
      obtain ⟨_, c, hc, _⟩ := hsome p rfl
      refine (lookupVisit_visited env flags prs' below p).mono ?_
      intro r s2 h stack hs
      cases h with
      | fail e => cases hs
      | stay q =>
        cases hs
        exact .step hc
      | push base hl ht =>
        cases hs
        exact .push hc hl ht

/-! ## What a lookup finds -/

theorem lookupRound_found (flags : Flags) (pwd : Path) (stack : List Prs) :
    Spec (lookupRound env flags pwd stack) s fun r s' => ∀ p, r = .done (.ok p) → s'.Found p := by
  cases stack with
  | nil => exact spec_stuck
  | cons prs below =>
    apply spec_bind
    rintro ⟨prs', r⟩ s1 -
    match r, below with
    | .error e, below => exact spec_failRound fun _ => nofun
    | .ok none, [] =>
      refine (lookupEnd_spec flags prs').mono ?_
      rintro _ s2 ⟨res, rfl, hok⟩ p hp
      exact (hok p (Round.done.inj hp)).1
    | .ok none, up :: below =>
      refine (popLink_ends prs' up below).mono ?_
      rintro _ s2 rfl
      exact nofun
    | .ok (some p), below =>
      refine (lookupVisit_visited env flags prs' below p).mono ?_
      intro r s2 h q hq
      cases h <;> cases hq

theorem lookupLoop_found (flags : Flags) (pwd : Path) (fuel : Nat) (stack : List Prs) :
    Spec (lookupLoop env flags pwd fuel stack) s fun r s' => ∀ p, r = .ok p → s'.Found p := by
  induction fuel generalizing s stack with
  | zero => exact spec_stuck
  | succ fuel ih =>
    refine (lookupRound_found env flags pwd stack).bind ?_
    intro r s1 hr
    cases r with
    | next stack => exact ih stack
    | done res => exact spec_pure fun p hp => hr p (congrArg Round.done hp)

/-- A lookup that succeeds ends at a dentry with its inode. -/
theorem vfsPathLookup_found (path : List Char) (flags : Flags) (pwd : Path) :
    Spec (vfsPathLookup env path flags pwd) s fun r s' => ∀ p, r = .ok p → s'.Found p := by
  apply spec_bind
  refine unless_none (fun _ _ => spec_pure nofun) ?_
  intro a s1 _
  exact lookupLoop_found env flags pwd _ _

/-! ## The number of rounds -/

/-- What is left on a stack of parsers. A component of a parser is worth more than all of a
link that it leads to. -/
def weight : List Prs → Nat
  | [] => 0
  | prs :: below =>
    (prs.rest.length + 1) * (pathMax + 1) ^ (maxSymlinks - (below.length + 1)) + weight below

/-- Every round makes the stack lighter. -/
theorem Next.weight_lt (h : Next stack stack') : weight stack' < weight stack := by
  have hpos : ∀ n, 0 < (pathMax + 1) ^ n := fun n => Nat.pow_pos (by decide)
  cases h with
  | step hr =>
    simp only [weight, hr, length_cons]
    exact Nat.add_lt_add_right (Nat.mul_lt_mul_of_pos_right (by omega) (hpos _)) _
  | @push prs prs' below c target base hr hb ht =>
    have hn : (Prs.rest ⟨target, some base, 0⟩).length ≤ target.length :=
      components_length_le target
    obtain ⟨n, hn'⟩ : ∃ n, maxSymlinks - (below.length + 1) = n + 1 :=
      ⟨maxSymlinks - (below.length + 2), by omega⟩
    have he : maxSymlinks - (below.length + 1 + 1) = n := by omega
    simp only [weight, length_cons, hr, he, hn', pow_succ]
    have hlt : ((Prs.rest ⟨target, some base, 0⟩).length + 1) * (pathMax + 1) ^ n <
        (pathMax + 1) ^ n * (pathMax + 1) := by
      rw [Nat.mul_comm ((pathMax + 1) ^ n)]
      exact Nat.mul_lt_mul_of_pos_right (by omega) (hpos n)
    rw [Nat.add_mul (prs'.rest.length + 1), Nat.one_mul]
    omega
  | @pop prs up below p =>
    simp only [weight]
    have h1 : 0 < (prs.rest.length + 1) *
        (pathMax + 1) ^ (maxSymlinks - ((up :: below).length + 1)) :=
      Nat.mul_pos (Nat.succ_pos _) (hpos _)
    have h2 : Prs.rest { up with currPath := p } = up.rest := rfl
    rw [h2]
    omega

/-- Fuel beyond the weight of the stack makes no difference. -/
theorem lookupLoop_fuel (flags : Flags) (pwd : Path) {fuel' : Nat}
    (h : weight stack < fuel) (h' : weight stack < fuel') (s : Vfs) :
    lookupLoop env flags pwd fuel stack s = lookupLoop env flags pwd fuel' stack s := by
  induction fuel generalizing fuel' stack s with
  | zero => exact absurd h (not_lt_zero _)
  | succ fuel ih =>
    cases fuel' with
    | zero => exact absurd h' (not_lt_zero _)
    | succ fuel' =>
      rw [lookupLoop, lookupLoop, bind_apply, bind_apply]
      cases hr : lookupRound env flags pwd stack s with
      | none => rfl
      | some r =>
        obtain ⟨r, s1⟩ := r
        cases r with
        | done res => rfl
        | next stack' =>
          have hw := (lookupRound_next env flags pwd stack _ _ hr stack' rfl).weight_lt
          exact ih (by omega) (by omega) s1

theorem weight_start (path : List Char) :
    weight [⟨path, none, 0⟩] = ((components path).length + 1) * (pathMax + 1) ^
      (maxSymlinks - 1) := by
  simp only [weight, Prs.rest, drop_zero, length_nil, add_zero, zero_add]

theorem weight_lt_lookupFuel (path : List Char) :
    weight [⟨path, none, 0⟩] < lookupFuel path.length := by
  rw [weight_start, lookupFuel]
  exact lt_succ_of_le (mul_le_mul_right _ (succ_le_succ (components_length_le path)))

/-! ## Lookups that follow no link -/

/-- The calls of the parser in a lookup that follows no link, with the dentries they step to. -/
inductive PlainRun (flags : Flags) (pwd : Path) : Prs → Vfs → List Dentry → Path → Vfs → Prop
  | done {prs prs₁ : Prs} {s s₁ s' : Vfs} {p : Path}
      (hn : vfsPathPrsNext env prs pwd s = some ((prs₁, .ok none), s₁))
      (he : lookupEnd flags prs₁ s₁ = some (.done (.ok p), s')) : PlainRun flags pwd prs s [] p s'
  | next {prs prs₁ prs₂ : Prs} {s s₁ s₂ s' : Vfs} {p₁ p : Path} {d : Dentry} {ds : List Dentry}
      (hn : vfsPathPrsNext env prs pwd s = some ((prs₁, .ok (some p₁)), s₁))
      (hd : s₁.dentries.get p₁.dentry = some d)
      (hv : lookupVisit env flags prs₁ [] p₁ s₁ = some (.next [prs₂], s₂))
      (hr : PlainRun flags pwd prs₂ s₂ ds p s') : PlainRun flags pwd prs s (d :: ds) p s'

/-- Some round of a lookup puts the parser of a link on the stack. -/
inductive FollowsLink (flags : Flags) (pwd : Path) : Prs → Vfs → Prop
  | here {prs prs₁ prs₂ : Prs} {below : List Prs} {s s' : Vfs}
      (h : lookupRound env flags pwd [prs] s = some (.next (prs₁ :: prs₂ :: below), s')) :
      FollowsLink flags pwd prs s
  | later {prs prs' : Prs} {s s' : Vfs} (h : lookupRound env flags pwd [prs] s =
      some (.next [prs'], s'))
      (hf : FollowsLink flags pwd prs' s') : FollowsLink flags pwd prs s

variable {env} {flags : Flags} {pwd : Path}

theorem PlainRun.names
    (h : PlainRun env flags pwd prs s ds p s') : ds.map (·.name) = prs.rest := by
  induction h with
  | @done prs prs1 s s1 s' p hn he =>
    obtain ⟨hnone, -⟩ := vfsPathPrsNext_spec env prs pwd _ _ hn
    exact (hnone rfl).1.symm
  | @next prs prs1 prs2 s s1 s2 s' p1 p d ds hn hd hv hr ih =>
    obtain ⟨-, hsome⟩ := vfsPathPrsNext_spec env prs pwd _ _ hn
    obtain ⟨-, c, hc, v, hv', -, hname⟩ := hsome p1 rfl
    have hdv : v = d := Option.some.inj (hv'.symm.trans hd)
    have hrest : prs2.rest = prs1.rest := by
      cases lookupVisit_visited env flags prs1 [] p1 _ _ hv with
      | stay q => rfl
    rw [map_cons, ih, hrest, hc, ← hname, hdv]

theorem PlainRun.starts (h : PlainRun env flags pwd prs s ds p s') :
    (∀ d ∈ ds.head?, d.parent = some (prs.start env pwd).dentry) ∧
      (ds = [] → p = prs.start env pwd) := by
  cases h with
  | @done prs prs1 s s1 s' p hn he =>
    obtain ⟨hnone, -⟩ := vfsPathPrsNext_spec env prs pwd _ _ hn
    obtain ⟨_, ⟨⟩, hok⟩ := lookupEnd_spec flags prs1 _ _ he
    have hp := (hok p rfl).2
    rw [(hnone rfl).2] at hp
    exact ⟨nofun, fun _ => (Option.some.inj hp).symm⟩
  | @next prs prs1 prs2 s s1 s2 s' p1 p d ds hn hd hv hr =>
    obtain ⟨-, hsome⟩ := vfsPathPrsNext_spec env prs pwd _ _ hn
    obtain ⟨-, c, hc, v, hv', hpar, -⟩ := hsome p1 rfl
    have hdv : v = d := Option.some.inj (hv'.symm.trans hd)
    refine ⟨fun d' hd' => ?_, nofun⟩
    cases hd'
    rw [← hdv, hpar]

theorem lookupRound_of_next {prs1 : Prs} {s1 : Vfs} (below : List Prs)
    (hn : vfsPathPrsNext env prs pwd s = some ((prs1, .ok (some p)), s1)) :
    lookupRound env flags pwd (prs :: below) s = lookupVisit env flags prs1 below p s1 := by
  rw [lookupRound, bind_apply, hn]
  rfl

theorem lookupRound_of_end {prs1 : Prs} {s1 : Vfs}
    (hn : vfsPathPrsNext env prs pwd s = some ((prs1, .ok none), s1)) :
    lookupRound env flags pwd [prs] s = lookupEnd flags prs1 s1 := by
  rw [lookupRound, bind_apply, hn]
  rfl

/-- A lookup that succeeds follows a link, or takes name after name. -/
theorem plainRun_of_lookupLoop (h : lookupLoop env flags pwd fuel [prs] s = some (.ok p, s')) :
    FollowsLink env flags pwd prs s ∨ ∃ ds, PlainRun env flags pwd prs s ds p s' := by
  induction fuel generalizing prs s with
  | zero => cases h
  | succ fuel ih =>
    obtain ⟨r, s1, hround, h⟩ := bind_eq_some.mp h
    have hround' := hround
    obtain ⟨⟨prs1, res⟩, s2, hn, hrest⟩ := bind_eq_some.mp hround'
    match res with
    | .error e =>
      obtain rfl := spec_failRound (Q := fun r _ => r = .done (.error e)) (fun _ => rfl) _ _ hrest
      cases h
    | .ok none =>
      obtain ⟨_, rfl, -⟩ := lookupEnd_spec flags prs1 _ _ hrest
      cases h
      exact .inr ⟨[], .done hn hrest⟩
    | .ok (some p1) =>
      obtain ⟨-, hsome⟩ := vfsPathPrsNext_spec env prs pwd _ _ hn
      obtain ⟨-, c, hc, d, hd, -, -⟩ := hsome p1 rfl
      cases lookupVisit_visited env flags prs1 [] p1 _ _ hrest with
      | fail e => cases h
      | push base hl ht => exact .inl (.here hround)
      | stay q =>
        rcases ih h with hf | ⟨ds, hr⟩
        · exact .inl (.later hround hf)
        · exact .inr ⟨d :: ds, .next hn hd hrest hr⟩

theorem PlainRun.lookupLoop (h : PlainRun env flags pwd prs s ds p s') (hf : weight [prs] < fuel) :
    Fs.lookupLoop env flags pwd fuel [prs] s = some (.ok p, s') := by
  induction h generalizing fuel with
  | @done prs prs1 s s1 s' p hn he =>
    cases fuel with
    | zero => exact absurd hf (not_lt_zero _)
    | succ fuel =>
      rw [Fs.lookupLoop, bind_apply, lookupRound_of_end hn, he]
      rfl
  | @next prs prs1 prs2 s s1 s2 s' p1 p d ds hn hd hv hr ih =>
    cases fuel with
    | zero => exact absurd hf (not_lt_zero _)
    | succ fuel =>
      have hround := (lookupRound_of_next [] hn).trans hv
      have hw := (lookupRound_next env flags pwd [prs] _ _ hround [prs2] rfl).weight_lt
      rw [Fs.lookupLoop, bind_apply, hround]
      exact ih (by omega)

/-! ## Whole lookups -/

/-- The copy of a string that a lookup works on is granted. -/
def Copied (s : Vfs) (path : List Char) (s₀ : Vfs) : Prop :=
  ∃ a, kheapAlloc (path.length + 1) s = some (some a, s₀)

theorem vfsPathLookup_of_copied {s0 : Vfs} (h : Copied s path s0) :
    vfsPathLookup env path flags pwd s =
      Fs.lookupLoop env flags pwd (lookupFuel path.length) [⟨path, none, 0⟩] s0 := by
  obtain ⟨a, ha⟩ := h
  rw [vfsPathLookup]
  -- the number of rounds is too large to compute with
  rw [bind_apply, ha, Option.bind_some]

theorem copied_of_ok
    (h : vfsPathLookup env path flags pwd s = some (.ok p, s')) : ∃ s0, Copied s path s0 := by
  obtain ⟨a, s0, ha, h⟩ := bind_eq_some.mp h
  cases a with
  | none => cases h
  | some a => exact ⟨s0, a, ha⟩

theorem Copied.state {s0 : Vfs} (h : Copied s path s0) :
    s0 = { s with heap := fun k => s.heap (k + 1) } := by
  obtain ⟨a, ha⟩ := h
  rw [kheapAlloc_apply] at ha
  by_cases hs : path.length + 1 = 0 ∨ kheapMax < path.length + 1
  · rw [if_pos hs] at ha
    cases ha
  · rw [if_neg hs] at ha
    exact (Prod.mk.inj (Option.some.inj ha)).2.symm

variable (env flags pwd)

/-- A lookup without links goes through the dentries that the components name, from the root or from
`pwd`, and paths with the same components are looked up alike. -/
theorem lookup_by_components (path : List Char) (s : Vfs) :
    (∀ p s', vfsPathLookup env path flags pwd s = some (.ok p, s') →
      ∃ s₀, Copied s path s₀ ∧ (FollowsLink env flags pwd ⟨path, none, 0⟩ s₀ ∨
        ∃ ds, PlainRun env flags pwd ⟨path, none, 0⟩ s₀ ds p s')) ∧
    (∀ s₀ ds p s', Copied s path s₀ → PlainRun env flags pwd ⟨path, none, 0⟩ s₀ ds p s' →
      vfsPathLookup env path flags pwd s = some (.ok p, s') ∧
      ds.map (·.name) = components path ∧
      let start := if path.head? = some '/' then env.vfsRoot else pwd
      (∀ d ∈ ds.head?, d.parent = some start.dentry) ∧ (ds = [] → p = start)) ∧
    ∀ path' s₀ s₀', Copied s path s₀ → Copied s path' s₀' →
      (path'.head? = some '/' ↔ path.head? = some '/') → components path' = components path →
      vfsPathLookup env path' flags pwd s = vfsPathLookup env path flags pwd s := by
  refine ⟨?_, ?_, ?_⟩
  · intro p s' h
    obtain ⟨s₀, hc⟩ := copied_of_ok h
    rw [vfsPathLookup_of_copied hc] at h
    exact ⟨s₀, hc, plainRun_of_lookupLoop h⟩
  · intro s₀ ds p s' hc hr
    refine ⟨?_, hr.names, hr.starts⟩
    rw [vfsPathLookup_of_copied hc]
    exact hr.lookupLoop (weight_lt_lookupFuel path)
  · intro path' s₀ s₀' hc hc' habs hcomp
    obtain rfl : s₀ = s₀' := hc.state.trans hc'.state.symm
    have hsame : Prs.Same ⟨path', none, 0⟩ ⟨path, none, 0⟩ := ⟨hcomp, rfl, habs⟩
    have hw : weight [⟨path, none, 0⟩] < lookupFuel path'.length := by
      rw [weight_start, ← hcomp, ← weight_start]
      exact weight_lt_lookupFuel path'
    rw [vfsPathLookup_of_copied hc, vfsPathLookup_of_copied hc',
      lookupLoop_congr env (.cons hsame .nil) flags pwd]
    exact lookupLoop_fuel env flags pwd hw (weight_lt_lookupFuel path) s₀

end ShiziOS.Fs
