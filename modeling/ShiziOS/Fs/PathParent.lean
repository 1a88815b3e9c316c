import ShiziOS.Fs.PathParse
import Mathlib.Data.List.TakeWhile

/-!
# Parents of paths

`vfs_path_parent` cuts a path at its last slash, without the slashes at its end. What it looks
up and the name it returns are the components of the path.
-/

namespace ShiziOS.Fs

open Exec List

theorem components_append_slash (l l' : List Char) :
    components (l ++ '/' :: l') = components l ++ components l' := by
  rw [components, splitOnP_append_cons l l' rfl, filter_append, components, components]

theorem components_slashes {l : List Char} (h : ∀ c ∈ l, c = '/') : components l = [] := by
  rw [← components_dropWhile, dropWhile_eq_nil_iff.mpr fun c hc => beq_iff_eq.mpr (h c hc)]
  rfl

theorem components_name_slashes {name l : List Char} (hne : name ≠ []) (hn : '/' ∉ name)
    (h : ∀ c ∈ l, c = '/') : components (name ++ l) = [name] := by
  rw [components_name hne, components_slashes h]
  · rintro c hc rfl
    exact hn hc
  · cases l with
    | nil => exact .inl rfl
    | cons c l =>
      rw [h c mem_cons_self]
      exact .inr ⟨l, rfl⟩

theorem splitLast_spec {path : List Char} (h : path.all (· == '/') = false) :
    ∃ name slashes, (∀ c ∈ slashes, c = '/') ∧ name ≠ [] ∧ '/' ∉ name ∧
      (splitLast path = (none, name) ∧ path = name ++ slashes ∨
        ∃ dir, splitLast path = (some dir, name) ∧ path = dir ++ '/' :: (name ++ slashes)) := by
  let rev := path.reverse.dropWhile (· == '/')
  have hrev : path = rev.reverse ++ (path.reverse.takeWhile (· == '/')).reverse := by
    rw [← reverse_append, takeWhile_append_dropWhile, reverse_reverse]
  have hsplit : rev.reverse =
      (rev.dropWhile (· != '/')).reverse ++ (rev.takeWhile (· != '/')).reverse := by
    rw [← reverse_append, takeWhile_append_dropWhile]
  have hne : rev ≠ [] := by
    intro hnil
    obtain ⟨c, hc, hs⟩ := all_eq_false.mp h
    exact hs (dropWhile_eq_nil_iff.mp hnil c (mem_reverse.mpr hc))
  refine ⟨(rev.takeWhile (· != '/')).reverse, (path.reverse.takeWhile (· == '/')).reverse,
    fun c hc => ?_, ?_, ?_, ?_⟩
  · simpa using mem_takeWhile_imp (mem_reverse.mp hc)
  · obtain ⟨c, l, hl⟩ := exists_cons_of_ne_nil hne
    have hc := head_dropWhile_not (· == '/') hne
    simp only [show path.reverse.dropWhile (· == '/') = c :: l from hl, head_cons] at hc
    rw [hl, takeWhile_cons_of_pos (by rw [bne, hc, Bool.not_false]), reverse_cons]
    exact append_ne_nil_of_right_ne_nil _ (cons_ne_nil c [])
  · intro hc
    simpa using mem_takeWhile_imp (mem_reverse.mp hc)
  · rw [hsplit] at hrev
    cases hd : rev.dropWhile (· != '/') with
    | nil =>
      rw [hd] at hrev
      refine .inl ⟨?_, hrev⟩
      simp only [splitLast, rev, hd]
    | cons c before =>
      have hc := head_dropWhile_not (· != '/') (l := rev) (by rw [hd]; exact cons_ne_nil _ _)
      simp only [hd, head_cons, bne_eq_false_iff_eq] at hc
      subst hc
      rw [hd, reverse_cons, append_assoc, append_assoc] at hrev
      refine .inr ⟨before.reverse, ?_, hrev⟩
      simp only [splitLast, rev, hd]

/-- A path is split into the string of a directory and a last component; for a bare name the
directory is the working directory. -/
structure Splits (path dir name : List Char) : Prop where
  components : components dir ++ [name] = components path ∨
    dir = ['.'] ∧ components path = [name]
  absolute : dir.head? = some '/' ↔ path.head? = some '/'
  nonempty : name ≠ []
  noSlash : '/' ∉ name

/-- The directory is looked up, and the name is returned with it. -/
def lookupParent (env : Env) (pwd : Path) (dir : List Char) (name : Name) :
    K (Except Errno (Path × Name)) := do
  match ← vfsPathLookup env dir lookupDirectory pwd with
  | .error e => pure (.error e)
  | .ok p => pure (.ok (p, name))

/-- A path of slashes only has no parent. Any other is split: the directory is looked up, for
which it may have to be copied first. -/
theorem path_parent_splits (env : Env) (path : List Char) (pwd : Path) :
    (path.all (· == '/') = true → vfsPathParent env path pwd = pure (.error .enoent)) ∧
    (path.all (· == '/') = false → ∃ dir name, Splits path dir name ∧
      (vfsPathParent env path pwd = lookupParent env pwd dir name ∨
        vfsPathParent env path pwd = do
          match ← kheapAlloc (dir.length + 1) with
          | none => pure (.error .enomem)
          | some _ => lookupParent env pwd dir name)) := by
  refine ⟨fun h => if_pos h, fun h => ?_⟩
  have hnot : ¬path.all (· == '/') = true := by
    rw [h]
    exact Bool.false_ne_true
  obtain ⟨name, slashes, hs, hne, hn, ⟨hsplit, hpath⟩ | ⟨dir, hsplit, hpath⟩⟩ := splitLast_spec h
  · have hc : components path = [name] := by rw [hpath, components_name_slashes hne hn hs]
    refine ⟨['.'], name, ⟨.inr ⟨rfl, hc⟩, ?_, hne, hn⟩, .inl ?_⟩
    · cases name with
      | nil => exact absurd rfl hne
      | cons c name =>
        rw [hpath]
        simp only [head?_cons, cons_append, Option.some.injEq]
        refine iff_of_false (by decide) ?_
        rintro rfl
        exact hn mem_cons_self
    · rw [vfsPathParent, if_neg hnot, hsplit]
      rfl
  · have hc : components path = components dir ++ [name] := by
      rw [hpath, components_append_slash, components_name_slashes hne hn hs]
    cases dir with
    | nil =>
      refine ⟨['/'], name, ⟨.inl hc.symm, ?_, hne, hn⟩, .inl ?_⟩
      · rw [hpath]
        exact iff_of_true rfl rfl
      · rw [vfsPathParent, if_neg hnot, hsplit]
        rfl
    | cons c dir =>
      refine ⟨c :: dir, name, ⟨.inl hc.symm, ?_, hne, hn⟩, .inr ?_⟩
      · rw [hpath, cons_append, head?_cons, head?_cons]
      · rw [vfsPathParent, if_neg hnot, hsplit]
        rfl

end ShiziOS.Fs
