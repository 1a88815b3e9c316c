import Mathlib.Data.List.Count
import Mathlib.Data.List.Perm.Basic

/-!
# Blocks that are taken and given back

A record of the blocks that a piece of code takes from a heap and gives back, each named by the
number of the request. `Owns` says which blocks are still to be given back; code that begins and
ends with none of them has given every block back exactly once, and no others.
-/

namespace Owned

open List

inductive Event where
  | alloc (block : Nat)
  | free (block : Nat)
  deriving DecidableEq, Repr

/-- The number of requests so far, and what has been done. -/
structure Heap where
  tries : Nat
  log : List Event
  deriving DecidableEq, Repr

namespace Heap

def start : Heap := ⟨0, []⟩

def request (h : Heap) (granted : Bool) : Option Nat × Heap :=
  if granted then (some h.tries, ⟨h.tries + 1, h.log ++ [.alloc h.tries]⟩)
  else (none, ⟨h.tries + 1, h.log⟩)

def free (h : Heap) (block : Nat) : Heap := { h with log := h.log ++ [.free block] }

def freeAll (h : Heap) (blocks : List Nat) : Heap := blocks.foldl free h

end Heap

/-- Every block has been given back exactly once, and nothing else has. -/
def Released (h : Heap) : Prop :=
  ∀ b, h.log.count (.free b) = h.log.count (.alloc b) ∧ h.log.count (.alloc b) ≤ 1

structure Owns (h : Heap) (blocks : List Nat) : Prop where
  balance : ∀ b, h.log.count (.alloc b) = h.log.count (.free b) + blocks.count b
  once : ∀ b, h.log.count (.alloc b) ≤ 1
  fresh : ∀ b, h.tries ≤ b → h.log.count (.alloc b) = 0

variable {h h' : Heap} {blocks blocks' : List Nat} {b : Nat} {granted : Bool}

theorem owns_start : Owns Heap.start [] := by
  constructor <;> simp [Heap.start]

theorem Owns.released (o : Owns h []) : Released h := by
  intro b
  have hbalance := o.balance b
  rw [count_nil, Nat.add_zero] at hbalance
  exact ⟨hbalance.symm, o.once b⟩

theorem Owns.perm (o : Owns h blocks) (hperm : blocks.Perm blocks') : Owns h blocks' where
  balance b := by rw [← hperm.count_eq b, o.balance b]
  once := o.once
  fresh := o.fresh

theorem Owns.refused (o : Owns h blocks) (hr : h.request granted = (none, h')) :
    Owns h' blocks := by
  cases granted with
  | true => simp [Heap.request] at hr
  | false =>
    obtain rfl : ⟨h.tries + 1, h.log⟩ = h' := congrArg Prod.snd hr
    exact ⟨o.balance, o.once, fun b hb => o.fresh b (Nat.le_of_succ_le hb)⟩

theorem Owns.taken (o : Owns h blocks) (hr : h.request granted = (some b, h')) :
    Owns h' (b :: blocks) := by
  cases granted with
  | false => simp [Heap.request] at hr
  | true =>
    simp only [Heap.request, if_true] at hr
    cases hr
    refine ⟨fun b => ?_, fun b => ?_, fun b hb => ?_⟩
    · have hbalance := o.balance b
      simp only [count_append, count_cons, count_nil, beq_iff_eq,
        Event.alloc.injEq, reduceCtorEq, if_false]
      omega
    · have honce := o.once b
      have hfresh := o.fresh b
      simp only [count_append, count_cons, count_nil, beq_iff_eq, Event.alloc.injEq]
      split_ifs with heq
      · have := hfresh (by omega)
        omega
      · omega
    · have hlt : h.tries < b := hb
      simp only [count_append, count_cons, count_nil, beq_iff_eq, Event.alloc.injEq]
      rw [if_neg (by omega), o.fresh b (Nat.le_of_lt hlt)]

theorem Owns.free (o : Owns h (b :: blocks)) : Owns (h.free b) blocks where
  balance b' := by
    have hbalance := o.balance b'
    simp only [Heap.free, count_append, count_cons, count_nil, beq_iff_eq,
      Event.free.injEq, reduceCtorEq, if_false] at hbalance ⊢
    omega
  once b' := by
    simpa [Heap.free] using o.once b'
  fresh b' hb' := by
    simpa [Heap.free] using o.fresh b' hb'

theorem Owns.freeAll (o : Owns h (blocks' ++ blocks)) : Owns (h.freeAll blocks') blocks := by
  induction blocks' generalizing h with
  | nil => exact o
  | cons b bs ih => exact ih o.free

theorem Owns.not_released_free (o : Owns h []) : ¬Released (h.free b) := by
  intro hr
  have hbalance := o.balance b
  have hcount := (hr b).1
  simp only [Heap.free, count_append, count_cons, count_nil, beq_iff_eq, reduceCtorEq,
    if_false, if_true] at hbalance hcount
  omega

end Owned
