import ShiziOS.Lib.Runs
import Mathlib.Data.Fintype.Card
import Mathlib.Tactic

/-!
# Work lists

Nodes of a graph are taken from a stack; the successors of a node that are not on the stack
already are put there, as long as it has room. Nodes that have been taken before are not
recognised. Only some nodes matter, the live ones: the others have no successors and may be taken
again and again.
-/

namespace Worklist

open Runs Relation List

variable {ν : Type*} [DecidableEq ν]

structure State (ν : Type*) where
  stack : List ν
  done : List ν

/-- A node is put on a stack for `cap` nodes. -/
def push (cap : Nat) (stack : List ν) (t : ν) : List ν :=
  if t ∈ stack then stack else if cap ≤ stack.length then stack else t :: stack

def step (succ : ν → List ν) (cap : Nat) (s : State ν) (_ : Unit) : Option (State ν) :=
  match s.stack with
  | [] => none
  | b :: rest => some ⟨(succ b).foldl (push cap) rest, s.done ++ [b]⟩

def start (root : ν) : State ν := ⟨[root], []⟩

/-- All successors of the next node fit on the stack. -/
def Room (succ : ν → List ν) (cap : Nat) (s : State ν) : Prop :=
  ∀ b rest, s.stack = b :: rest → (rest ++ succ b).toFinset.card ≤ cap

/-- The live successors of the next node are on the stack or have not been taken. -/
def Fresh (succ : ν → List ν) (live : ν → Prop) (s : State ν) : Prop :=
  ∀ b rest, s.stack = b :: rest → ∀ t ∈ succ b, live t → t ∉ rest → t ∉ s.done ∧ t ≠ b

def Edge (succ : ν → List ν) (a b : ν) : Prop := b ∈ succ a

/-! ## The stack -/

variable {cap : Nat} {stack l : List ν} {t : ν}

theorem suffix_push : stack <:+ push cap stack t := by
  unfold push
  split_ifs
  · exact suffix_rfl
  · exact suffix_rfl
  · exact suffix_cons t stack

theorem suffix_foldl_push : stack <:+ l.foldl (push cap) stack := by
  induction l generalizing stack with
  | nil => exact suffix_rfl
  | cons u l ih => exact suffix_push.trans ih

theorem nodup_foldl_push (h : stack.Nodup) : (l.foldl (push cap) stack).Nodup := by
  induction l generalizing stack with
  | nil => exact h
  | cons u l ih =>
    refine ih ?_
    unfold push
    split_ifs with hmem
    · exact h
    · exact h
    · exact nodup_cons.mpr ⟨hmem, h⟩

theorem mem_of_mem_foldl_push (h : t ∈ l.foldl (push cap) stack) : t ∈ stack ∨ t ∈ l := by
  induction l generalizing stack with
  | nil => exact .inl h
  | cons u l ih =>
    rcases ih h with hpush | hl
    · unfold push at hpush
      split_ifs at hpush
      · exact .inl hpush
      · exact .inl hpush
      · rcases mem_cons.mp hpush with rfl | hold
        · exact .inr mem_cons_self
        · exact .inl hold
    · exact .inr (mem_cons_of_mem u hl)

theorem mem_foldl_push {all : Finset ν} (hcap : all.card ≤ cap) (hstack : stack.Nodup)
    (hsub : ∀ u ∈ stack, u ∈ all) (hl : ∀ u ∈ l, u ∈ all) (ht : t ∈ l) :
    t ∈ l.foldl (push cap) stack := by
  induction l generalizing stack with
  | nil => cases ht
  | cons u l ih =>
    have hu : u ∈ push cap stack u := by
      unfold push
      split_ifs with hmem hfull
      · exact hmem
      · have hnodup : (u :: stack).Nodup := nodup_cons.mpr ⟨hmem, hstack⟩
        have hlen : (u :: stack).toFinset.card ≤ all.card := by
          refine Finset.card_le_card fun v hv => ?_
          rcases mem_cons.mp (mem_toFinset.mp hv) with rfl | hold
          · exact hl v mem_cons_self
          · exact hsub v hold
        rw [toFinset_card_of_nodup hnodup, length_cons] at hlen
        omega
      · exact mem_cons_self
    rcases mem_cons.mp ht with rfl | htl
    · exact suffix_foldl_push.mem hu
    · refine ih ?_ ?_ (fun v hv => hl v (mem_cons_of_mem u hv)) htl
      · exact nodup_foldl_push (l := [u]) hstack
      · intro v hv
        rcases mem_of_mem_foldl_push (l := [u]) hv with hold | hnew
        · exact hsub v hold
        · exact hl v (mem_singleton.mp hnew ▸ mem_cons_self)

/-! ## Steps -/

variable {succ : ν → List ν} {live : ν → Prop} {root : ν} {s s' : State ν}

theorem step_cases (h : step succ cap s () = some s') : ∃ b rest, s.stack = b :: rest ∧
    s'.stack = (succ b).foldl (push cap) rest ∧ s'.done = s.done ++ [b] := by
  unfold step at h
  split at h
  · cases h
  · rename_i b rest hstack
    cases h
    exact ⟨b, rest, hstack, rfl, rfl⟩

/-- The nodes on the stack and the nodes taken are those that the edges from the root have led to.
-/
structure Inv (succ : ν → List ν) (root : ν) (s : State ν) : Prop where
  nodup : s.stack.Nodup
  begun : root ∈ s.stack ∨ root ∈ s.done
  closed : ∀ b ∈ s.done, ∀ t ∈ succ b, t ∈ s.stack ∨ t ∈ s.done
  reach : ∀ t, t ∈ s.stack ∨ t ∈ s.done → ReflTransGen (Edge succ) root t

omit [DecidableEq ν] in
theorem inv_start : Inv succ root (start root) where
  nodup := nodup_singleton root
  begun := .inl mem_cons_self
  closed := by simp [start]
  reach t ht := by
    obtain rfl : t = root := by simpa [start] using ht
    exact .refl

theorem Inv.step (h : Inv succ root s) (hroom : Room succ cap s)
    (hs : step succ cap s () = some s') : Inv succ root s' := by
  obtain ⟨b, rest, hstack, hstack', hdone'⟩ := step_cases hs
  have hnodup : rest.Nodup := (nodup_cons.mp (hstack ▸ h.nodup)).2
  have hrest : ∀ t ∈ rest, t ∈ s'.stack := fun t ht => hstack' ▸ suffix_foldl_push.mem ht
  have hsucc : ∀ t ∈ succ b, t ∈ s'.stack := by
    intro t ht
    rw [hstack']
    refine mem_foldl_push (hroom b rest hstack) hnodup ?_ ?_ ht <;> intro u hu <;> simp [hu]
  have hold : ∀ t, t ∈ s.stack ∨ t ∈ s.done → t ∈ s'.stack ∨ t ∈ s'.done := by
    rintro t (ht | ht)
    · rcases mem_cons.mp (hstack ▸ ht) with rfl | hin
      · exact .inr (by simp [hdone'])
      · exact .inl (hrest t hin)
    · exact .inr (by simp [hdone', ht])
  refine ⟨hstack' ▸ nodup_foldl_push hnodup, hold root h.begun, ?_, ?_⟩
  · intro c hc t ht
    rw [hdone'] at hc
    rcases mem_append.mp hc with hc | hc
    · exact hold t (h.closed c hc t ht)
    · obtain rfl := mem_singleton.mp hc
      exact .inl (hsucc t ht)
  · have hb := h.reach b (.inl (hstack ▸ mem_cons_self))
    rintro t (ht | ht)
    · rcases mem_of_mem_foldl_push (hstack' ▸ ht) with hin | hin
      · exact h.reach t (.inl (hstack ▸ mem_cons_of_mem b hin))
      · exact hb.tail hin
    · rw [hdone'] at ht
      rcases mem_append.mp ht with hin | hin
      · exact h.reach t (.inr hin)
      · obtain rfl := mem_singleton.mp hin
        exact hb

omit [DecidableEq ν] in
theorem Inv.mem_done_iff (h : Inv succ root s) (hend : s.stack = []) :
    t ∈ s.done ↔ ReflTransGen (Edge succ) root t := by
  constructor
  · exact fun ht => h.reach t (.inr ht)
  · intro ht
    induction ht with
    | refl => simpa [hend] using h.begun
    | tail _ hedge ih => simpa [hend] using h.closed _ ih _ hedge

/-- No live node is taken twice. -/
structure Once (live : ν → Prop) (s : State ν) : Prop where
  waiting : ∀ t ∈ s.stack, live t → t ∉ s.done
  once : ∀ t, live t → s.done.count t ≤ 1

theorem once_start : Once live (start root) where
  waiting := by simp [start]
  once := by simp [start]

theorem Once.step (h : Once live s) (hnodup : s.stack.Nodup) (hfresh : Fresh succ live s)
    (hs : step succ cap s () = some s') : Once live s' := by
  obtain ⟨b, rest, hstack, hstack', hdone'⟩ := step_cases hs
  obtain ⟨hb, -⟩ := nodup_cons.mp (hstack ▸ hnodup)
  constructor
  · intro t ht hlive hdone
    rw [hdone'] at hdone
    by_cases hrest : t ∈ rest
    · rcases mem_append.mp hdone with hin | hin
      · exact h.waiting t (hstack ▸ mem_cons_of_mem b hrest) hlive hin
      · exact hb (mem_singleton.mp hin ▸ hrest)
    · rcases mem_of_mem_foldl_push (hstack' ▸ ht) with hin | hsucc
      · exact hrest hin
      · obtain ⟨hnot, hne⟩ := hfresh b rest hstack t hsucc hlive hrest
        rcases mem_append.mp hdone with hin | hin
        · exact hnot hin
        · exact hne (mem_singleton.mp hin)
  · intro t hlive
    rw [hdone', count_append]
    by_cases htb : t = b
    · subst htb
      rw [count_eq_zero.mpr (h.waiting t (hstack ▸ mem_cons_self) hlive), count_singleton_self]
    · rw [count_eq_zero.mpr (by simpa using htb : t ∉ [b])]
      exact h.once t hlive

theorem count_le_of_step (hs : step succ cap s () = some s') :
    s.done.count t + s.stack.count t ≤ s'.done.count t + s'.stack.count t := by
  obtain ⟨b, rest, hstack, hstack', hdone'⟩ := step_cases hs
  have hsub : rest.count t ≤ s'.stack.count t := hstack' ▸ suffix_foldl_push.sublist.count_le t
  rw [hstack, hdone', count_append, ← singleton_append, count_append]
  omega

theorem count_le_of_reach (h : Reach (step succ cap) Any s s') :
    s.done.count t + s.stack.count t ≤ s'.done.count t + s'.stack.count t := by
  induction h with
  | start => exact le_rfl
  | next _ _ hs ih => exact ih.trans (count_le_of_step hs)

/-! ## The end -/

section Finite

variable [Fintype ν] [DecidablePred live]

/-- What is still to be done: the live nodes that have not been taken, and the stack. -/
def measure (live : ν → Prop) [DecidablePred live] (s : State ν) : Nat :=
  (Finset.univ.filter fun t => live t ∧ t ∉ s.done).card * (Fintype.card ν + 1) + s.stack.length

theorem measure_lt_of_step (hleaf : ∀ b, ¬ live b → succ b = []) (h : Once live s)
    (hnodup : s'.stack.Nodup)
    (hs : step succ cap s () = some s') : measure live s' < measure live s := by
  obtain ⟨b, rest, hstack, hstack', hdone'⟩ := step_cases hs
  have hsub : (Finset.univ.filter fun t => live t ∧ t ∉ s'.done) ⊆
      Finset.univ.filter fun t => live t ∧ t ∉ s.done := by
    intro t
    simp only [Finset.mem_filter, Finset.mem_univ, true_and, hdone', mem_append, not_or]
    exact fun ht => ⟨ht.1, ht.2.1⟩
  unfold measure
  by_cases hb : live b
  · have hlt : (Finset.univ.filter fun t => live t ∧ t ∉ s'.done).card <
        (Finset.univ.filter fun t => live t ∧ t ∉ s.done).card := by
      refine Finset.card_lt_card (hsub.ssubset_of_mem_notMem (a := b) ?_ ?_)
      · simp [hb, h.waiting b (hstack ▸ mem_cons_self) hb]
      · simp [hdone']
    have hlen : s'.stack.length ≤ Fintype.card ν := hnodup.length_le_card
    have hmul := Nat.mul_le_mul_right (Fintype.card ν + 1) (Nat.succ_le_of_lt hlt)
    rw [Nat.succ_mul] at hmul
    omega
  · have hle := Nat.mul_le_mul_right (Fintype.card ν + 1) (Finset.card_le_card hsub)
    rw [hleaf b hb, foldl_nil] at hstack'
    rw [hstack', hstack, length_cons]
    omega

theorem exists_end (hleaf : ∀ b, ¬ live b → succ b = []) (hinv : Inv succ root s)
    (honce : Once live s)
    (hgood : ∀ s', Reach (step succ cap) Any s s' → Room succ cap s' ∧ Fresh succ live s') :
    ∃ s', Reach (step succ cap) Any s s' ∧ s'.stack = [] ∧ Inv succ root s' ∧ Once live s' := by
  induction hm : measure live s using Nat.strong_induction_on generalizing s with
  | _ m ih =>
    by_cases hend : s.stack = []
    · exact ⟨s, .start, hend, hinv, honce⟩
    · obtain ⟨s1, hs1⟩ : ∃ s1, step succ cap s () = some s1 := by
        unfold step
        split
        · exact absurd ‹_› hend
        · exact ⟨_, rfl⟩
      obtain ⟨hroom, hfresh⟩ := hgood s .start
      have hinv1 := hinv.step hroom hs1
      have hfirst : Reach (step succ cap) Any s s1 := .single trivial hs1
      obtain ⟨s', hreach, hrest⟩ := ih _ (hm ▸ measure_lt_of_step hleaf honce hinv1.nodup hs1) hinv1
        (honce.step hinv.nodup hfresh hs1) (fun s' h => hgood s' (hfirst.trans h)) rfl
      exact ⟨s', hfirst.trans hreach, hrest⟩

end Finite

theorem inv_of_reach (hroom : ∀ s, Reach (step succ cap) Any (start root) s → Room succ cap s)
    (h : Reach (step succ cap) Any (start root) s) : Inv succ root s := by
  induction h with
  | start => exact inv_start
  | next hreach _ hs ih => exact ih.step (hroom _ hreach) hs

/-- With room on the stack the work comes to an end and takes every live node that can be reached
exactly once if and only if it never meets a live node that it has taken before. -/
theorem complete_iff [Finite ν] (hleaf : ∀ b, ¬ live b → succ b = [])
    (hroom : ∀ s, Reach (step succ cap) Any (start root) s → Room succ cap s) :
    (∃ s, Reach (step succ cap) Any (start root) s ∧ s.stack = [] ∧
      ∀ t, ReflTransGen (Edge succ) root t → live t → s.done.count t = 1) ↔
      ∀ s, Reach (step succ cap) Any (start root) s → Fresh succ live s := by
  classical
  constructor
  · rintro ⟨e, he, hend, hone⟩ s hs b rest hstack t ht hlive hrest
    have hinv := inv_of_reach hroom hs
    by_contra hbad
    obtain ⟨s1, hs1⟩ : ∃ s1, step succ cap s () = some s1 := by
      simp only [step, hstack]
      exact ⟨_, rfl⟩
    obtain ⟨b', rest', hstack', hnext, hdone⟩ := step_cases hs1
    obtain ⟨rfl, rfl⟩ := List.cons.inj (hstack.symm.trans hstack')
    have hnodup : rest.Nodup := (nodup_cons.mp (hstack ▸ hinv.nodup)).2
    -- The node gets on the stack again, so that it will be taken again.
    have hpush : 0 < s1.stack.count t := by
      rw [hnext, count_pos_iff]
      refine mem_foldl_push (hroom s hs b rest hstack) hnodup ?_ ?_ ht <;> intro u hu <;> simp [hu]
    have htaken : 0 < s1.done.count t := by
      rw [hdone, count_pos_iff, mem_append, mem_singleton]
      tauto
    have htwice := count_le_of_reach (t := t)
      ((hs.next trivial hs1).to_end he (by rw [step, hend]))
    have hreach : ReflTransGen (Edge succ) root t :=
      (hinv.reach b (.inl (hstack ▸ mem_cons_self))).tail ht
    rw [hend, hone t hreach hlive] at htwice
    simp only [count_nil] at htwice
    omega
  · intro hfresh
    have := Fintype.ofFinite ν
    obtain ⟨s, hs, hend, hinv, honce⟩ := exists_end hleaf inv_start once_start
      (fun s hs => ⟨hroom s hs, hfresh s hs⟩)
    refine ⟨s, hs, hend, fun t ht hlive => ?_⟩
    have hpos := count_pos_iff.mpr ((hinv.mem_done_iff hend).mpr ht)
    have hle := honce.once t hlive
    omega

end Worklist
