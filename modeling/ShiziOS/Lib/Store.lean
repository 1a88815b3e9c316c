import Mathlib.Logic.Function.Basic
import Mathlib.Tactic

/-!
# Stores of objects

Objects that are reached through pointers. A pointer is a number; a store knows the next
one it hands out, and pointers from there on lead nowhere. A pointer is never handed out
twice.
-/

structure Store (α : Type) where
  next : Nat
  get : Nat → Option α
  fresh : ∀ p, next ≤ p → get p = none

namespace Store

open Function

variable {α : Type} {s : Store α} {p q : Nat} {a b : α}

def empty : Store α := ⟨0, fun _ => none, fun _ _ => rfl⟩

/-- The pointer of a new object. -/
def alloc (s : Store α) (a : α) : Store α where
  next := s.next + 1
  get := update s.get s.next (some a)
  fresh := fun p hp => by
    rw [update_of_ne (by omega)]
    exact s.fresh p (by omega)

/-- Change an object; a pointer that leads nowhere stays so. -/
def modify (s : Store α) (p : Nat) (f : α → α) : Store α where
  next := s.next
  get := fun q => if q = p then (s.get p).map f else s.get q
  fresh := fun q hq => by
    by_cases h : q = p
    · subst h
      rw [if_pos rfl, s.fresh q hq, Option.map_none]
    · rw [if_neg h, s.fresh q hq]

def erase (s : Store α) (p : Nat) : Store α where
  next := s.next
  get := fun q => if q = p then none else s.get q
  fresh := fun q hq => by
    by_cases h : q = p
    · rw [if_pos h]
    · rw [if_neg h, s.fresh q hq]

theorem lt_next (h : s.get p = some a) : p < s.next := by
  by_contra hge
  rw [s.fresh p (by omega)] at h
  cases h

@[simp] theorem get_alloc_self : (s.alloc a).get s.next = some a := update_self ..

theorem get_alloc_of_some (h : s.get p = some b) : (s.alloc a).get p = some b := by
  have := lt_next h
  exact (update_of_ne (by omega) ..).trans h

theorem get_alloc_of_ne (h : p ≠ s.next) : (s.alloc a).get p = s.get p := update_of_ne h ..

@[simp] theorem get_modify_self (f : α → α) : (s.modify p f).get p = (s.get p).map f := if_pos rfl

theorem get_modify_of_ne (f : α → α) (h : q ≠ p) : (s.modify p f).get q = s.get q := if_neg h

theorem get_modify_of_some (f : α → α) (p : Nat) (h : s.get q = some a) :
    (s.modify p f).get q = some (if q = p then f a else a) := by
  split_ifs with hq
  · rw [hq, get_modify_self, ← hq, h, Option.map_some]
  · rw [get_modify_of_ne f hq, h]

theorem get_erase_of_ne (h : q ≠ p) : (s.erase p).get q = s.get q := if_neg h

end Store
