import ShiziOS.Util.Dynarr

/-!
# A dynamic array is a list

Runs of calls on a dynamic array next to an ideal list, in which an element set behind the end
fills the gap with zeros. The array shows the list as long as no such element lands in the
present buffer over slots that still hold bytes of elements popped before.
-/

namespace ShiziOS.Util

open Bytes Exec List Option Dynarr

/-! ## Calls -/

inductive ArrayCall where
  | append (element : Option Area)
  | pop (out : Bool)
  | set (index : Nat) (element : Option Area)
  | reserve (newCapacity : Nat)
  | get (index : Nat)

/-- What a call gives back: whether it has succeeded, and the element that it hands out. -/
structure ArrayReply where
  ok : Bool
  element : Option (List Byte)
deriving DecidableEq

/-- The element behind a pointer into the buffer. -/
def Dynarr.readAt (d : Dynarr) (p : Nat) : List Byte :=
  bytesOf d.elementSize (d.arr.bytes.drop (p - d.arr.addr))

def arrayCall (heap : Heap) : ArrayCall → D ArrayReply
  | .append element => do return ⟨← dynarrAppend heap element, none⟩
  | .pop out => do
    let d ← get
    let r ← dynarrPop out
    return ⟨r.1, r.2.map (bytesOf d.elementSize)⟩
  | .set index element => do return ⟨← dynarrSet heap index element, none⟩
  | .reserve newCapacity => do return ⟨← dynarrReserve heap newCapacity, none⟩
  | .get index => do
    let d ← get
    return ⟨(dynarrGet d index).isSome, (dynarrGet d index).map d.readAt⟩

/-! ## The ideal list -/

def ArrayCall.ideal (elementSize : Nat) (l : List (List Byte)) : ArrayCall → List (List Byte)
  | append (some e) => l ++ [bytesOf elementSize e]
  | pop _ => l.dropLast
  | set i (some e) => (l.rightpad (i + 1) (zeroElement elementSize)).set i (bytesOf elementSize e)
  | _ => l

def ArrayCall.handsOut (l : List (List Byte)) : ArrayCall → Option (List Byte)
  | pop true => l.getLast?
  | get i => l[i]?
  | _ => none

def dynarrCount (d : Dynarr) : Nat := d.currentCount

/-- The count and every element that `dynarr_get` finds are those of the list. -/
def Dynarr.Shows (d : Dynarr) (l : List (List Byte)) : Prop :=
  Util.dynarrCount d = l.length ∧ ∀ i, (dynarrGet d i).map d.readAt = l[i]?

/-! ## When a call is right -/

/-- The number of bytes that a call may ask for stays below `2 ^ 64`. -/
def ArrayCall.NoWrap (d : Dynarr) : ArrayCall → Prop
  | set i (some _) => d.dynarrCount ≤ i → 2 * (i + 1) * d.elementSize + 4095 < 2 ^ 64
  | reserve n => n * d.elementSize + 4095 < 2 ^ 64
  | _ => True

/-- An element set behind the end of the list, but inside the buffer: the slots between hold
zeros. -/
def ArrayCall.GapClear (d : Dynarr) : ArrayCall → Prop
  | set i (some _) => i < d.dynarrCount →
    ∀ j, d.currentCount ≤ j → j < i → d.slot j = zeroElement d.elementSize
  | _ => True

/-- Arrays in runs of such calls, with the list that they should show. -/
inductive ArrayRun (elementSize limit : Nat) : Dynarr → List (List Byte) → Prop
  | create {heap : Heap} {d : Dynarr} (hsize : 16 * elementSize + 4095 < 2 ^ 64)
      (hcreate : dynarrCreate heap elementSize limit = some d) : ArrayRun elementSize limit d []
  | call {heap : Heap} {d d' : Dynarr} {l : List (List Byte)} {c : ArrayCall} {r : ArrayReply}
      (hrun : ArrayRun elementSize limit d l) (hwrap : c.NoWrap d) (hgap : c.GapClear d)
      (hcall : arrayCall heap c d = some (r, d')) :
      ArrayRun elementSize limit d' (if r.ok then c.ideal elementSize l else l)

variable {d d' : Dynarr} {heap : Heap} {l : List (List Byte)} {c : ArrayCall} {es limit : Nat}

theorem Dynarr.Wf.readAt_get (h : d.Wf) (i : Nat) :
    (dynarrGet d i).map d.readAt = d.elements[i]? := by
  rw [dynarrGet, elements_getElem?]
  by_cases hi : d.currentCount ≤ i
  · rw [if_pos hi, if_neg (by omega), map_none]
  · have hcount := h.count_le
    rw [if_neg hi, if_pos (by omega), map_some, readAt, (h.slot_in (by omega)).2,
      Nat.add_sub_cancel_left]
    rfl

theorem Dynarr.Wf.shows_iff (h : d.Wf) : d.Shows l ↔ d.elements = l := by
  constructor
  · intro hshow
    apply ext_getElem?
    intro i
    rw [← h.readAt_get, hshow.2]
  · rintro rfl
    exact ⟨d.elements_length.symm, h.readAt_get⟩

theorem rightpad_of_le {l : List (List Byte)} {n : Nat} (h : n ≤ l.length) (z : List Byte) :
    l.rightpad n z = l := by
  rw [List.rightpad, Nat.sub_eq_zero_of_le h, replicate_zero, append_nil]

theorem Dynarr.elements_put_ge_iff {i : Nat} (hi : d.currentCount ≤ i) (e : Area) :
    (d.put (i + 1) i e).elements =
        (d.elements.rightpad (i + 1) (zeroElement d.elementSize)).set i (bytesOf d.elementSize e) ↔
      ∀ j, d.currentCount ≤ j → j < i → d.slot j = zeroElement d.elementSize := by
  refine ⟨?_, elements_put_ge hi e⟩
  intro h j hj hji
  have hget : (d.put (i + 1) i e).elements[j]? = _ := congrArg (fun l => l[j]?) h
  rw [elements_getElem?, put_currentCount, slot_put, if_neg hji.ne, if_pos (by omega),
    getElem?_set, if_neg hji.ne', List.rightpad,
    getElem?_append_right (by rw [elements_length]; exact hj), getElem?_replicate,
      elements_length,
    if_pos (by omega)] at hget
  exact some.inj hget

/-- One call that wraps no number: the array does what the list does if and only if it does not
set an element over stale slots. -/
theorem arrayCall_spec (heap : Heap) (h : d.Wf) (hes : d.elementSize = es) (c : ArrayCall)
    (hwrap : c.NoWrap d) :
    Total (arrayCall heap c) d fun r d' => d'.Wf ∧ d'.elementSize = es ∧ r.element =
      c.handsOut d.elements ∧
      ((d'.elements = if r.ok then c.ideal es d.elements else d.elements) ↔ c.GapClear d) := by
  cases c with
  | append element =>
    apply total_bind
    cases element with
    | none => exact total_pure (total_pure ⟨h, hes, rfl, fun _ => trivial, fun _ => rfl⟩)
    | some e =>
      refine (dynarrAppend_spec h e).mono ?_
      intro ok d' hok
      apply total_pure
      cases ok with
      | false =>
        obtain rfl : d' = d := hok
        exact ⟨h, hes, rfl, fun _ => trivial, fun _ => rfl⟩
      | true =>
        obtain ⟨hwf, hes', -, helements⟩ := hok
        refine ⟨hwf, hes'.trans hes, rfl, fun _ => trivial, fun _ => ?_⟩
        rw [helements, hes]
        rfl
  | pop out =>
    apply total_get
    refine (dynarrPop_spec h out).bind ?_
    rintro ⟨ok, out'⟩ d' ⟨hwf, hes', -, hok, helements, hout⟩
    apply total_pure
    refine ⟨hwf, hes'.trans hes, ?_, fun _ => trivial, fun _ => ?_⟩
    · show out'.map _ = _
      rw [hout]
      cases out <;> rfl
    · rw [helements, hok]
      -- without an element nothing is popped
      cases hnil : d.elements with
      | nil => rfl
      | cons x xs => rfl
  | set i element =>
    apply total_bind
    cases element with
    | none => exact total_pure (total_pure ⟨h, hes, rfl, fun _ => trivial, fun _ => rfl⟩)
    | some e =>
      refine (dynarrSet_spec h i e hwrap).mono ?_
      intro ok d' hok
      apply total_pure
      have hcount := h.count_le
      cases ok with
      | false =>
        obtain ⟨rfl, hfull, -⟩ := hok
        exact ⟨h, hes, rfl, fun _ hi => by omega, fun _ => rfl⟩
      | true =>
        rw [if_pos rfl] at hok
        subst hes
        show d'.Wf ∧ d'.elementSize = d.elementSize ∧ none = none ∧
          (d'.elements = (d.elements.rightpad (i + 1) (zeroElement d.elementSize)).set i
            (bytesOf d.elementSize e) ↔ ArrayCall.GapClear d (.set i (some e)))
        rcases hok with ⟨hi, rfl⟩ | ⟨d1, n, hi, hn, -, hd1, rfl⟩
        · refine ⟨h.put (by omega) _ _, rfl, rfl, ?_⟩
          by_cases hlow : i < d.currentCount
          · rw [Nat.max_eq_left hlow, elements_put_lt hlow,
              rightpad_of_le (by rw [elements_length]; exact hlow)]
            exact ⟨fun _ _ j hj hji => by omega, fun _ => rfl⟩
          · rw [Nat.max_eq_right (by omega), elements_put_ge_iff (by omega)]
            exact ⟨fun hgap _ => hgap, fun hgap => hgap hi⟩
        · refine ⟨hd1.wf.put (by rw [hd1.dynarrCount]; exact hn) _ _, hd1.elementSize, rfl,
            fun _ hi' => by omega, fun _ => ?_⟩
          have hc := hd1.currentCount
          rw [elements_put_ge (by omega) e fun j hj _ => hd1.slot_clear (by omega), hd1.elements_eq,
            hd1.elementSize]
  | reserve n =>
    refine (dynarrReserve_spec h n hwrap).bind ?_
    intro ok d' hok
    apply total_pure
    cases ok with
    | false =>
      obtain rfl : d' = d := hok
      exact ⟨h, hes, rfl, fun _ => trivial, fun _ => rfl⟩
    | true =>
      have hd' : d.Enlarged d' n := hok
      exact ⟨hd'.wf, hd'.elementSize.trans hes, rfl, fun _ => trivial, fun _ => hd'.elements_eq⟩
  | get i =>
    apply total_get
    apply total_pure
    refine ⟨h, hes, h.readAt_get i, fun _ => trivial, fun _ => ?_⟩
    show d.elements = if (dynarrGet d i).isSome then d.elements else d.elements
    rw [ite_self]

theorem ArrayRun.elements_eq (hrun : ArrayRun es limit d l) :
    d.Wf ∧ d.elementSize = es ∧ d.elements = l := by
  induction hrun with
  | create hsize hcreate =>
    obtain ⟨hwf, hes, hcount, -⟩ := dynarrCreate_spec hcreate hsize
    exact ⟨hwf, hes, elements_eq_nil hcount⟩
  | @call heap d d' l c r hrun hwrap hgap hcall ih =>
    obtain ⟨hwf, hes, rfl⟩ := ih
    obtain ⟨hwf', hes', -, hiff⟩ := (arrayCall_spec heap hwf hes c hwrap).spec r d' hcall
    exact ⟨hwf', hes', hiff.mpr hgap⟩

/-- In every run the array shows the ideal list, and the next call does what it does to the list
exactly if no element is set over stale slots. -/
theorem dynarr_refines_list (hrun : ArrayRun es limit d l) :
    d.Shows l ∧ ∀ (heap : Heap) (c : ArrayCall), c.NoWrap d →
      ((∃ r d', arrayCall heap c d = some (r, d') ∧ r.element = c.handsOut l ∧
        d'.Shows (if r.ok then c.ideal es l else l)) ↔ c.GapClear d) := by
  obtain ⟨hwf, hes, rfl⟩ := hrun.elements_eq
  refine ⟨hwf.shows_iff.mpr rfl, ?_⟩
  intro heap c hwrap
  refine Total.iff_of ((arrayCall_spec heap hwf hes c hwrap).mono ?_)
  rintro r d' ⟨hwf', -, helement, hiff⟩
  rw [← hiff, hwf'.shows_iff]
  exact and_iff_right helement

/-- An element is appended, one is set two places behind it, and that one is popped. -/
def poppedArray : Dynarr :=
  [.append (some fun _ => 7), .set 2 (some fun _ => 9), .pop false].foldl
    (fun d c => after (arrayCall (fun _ => none) c) d) ⟨⟨4096, 4096, fun _ => 0⟩, 1, 0, 14, 16, 0⟩

theorem poppedArray_run : ArrayRun 1 0 poppedArray [[7], [0]] := by
  have hcreate : dynarrCreate (fun _ => some 4096) 1 0 = some ⟨⟨4096, 4096, fun _ => 0⟩, 1, 0, 14,
    16, 0⟩ := rfl
  have happend := ArrayRun.call (c := .append (some fun _ => 7)) (.create (by decide) hcreate)
    trivial trivial (show arrayCall (fun _ => none) _ _ = _ from rfl)
  have hset := happend.call (c := .set 2 (some fun _ => 9)) (fun _ => by decide)
    (fun _ j _ hj => by interval_cases j; rfl) (show arrayCall (fun _ => none) _ _ = _ from rfl)
  exact hset.call (c := .pop false) trivial trivial
    (show arrayCall (fun _ => none) _ _ = _ from rfl)

/-- Setting the place that was popped is right, and setting the one behind it is not. -/
theorem dynarr_refines_list_popped : poppedArray.Shows [[7], [0]] ∧
    (∃ r d', arrayCall (fun _ => none) (.set 2 (some fun _ => 5)) poppedArray = some (r, d') ∧
      r.element = none ∧ d'.Shows (if r.ok then [[7], [0], [5]] else [[7], [0]])) ∧
    ¬∃ r d', arrayCall (fun _ => none) (.set 3 (some fun _ => 5)) poppedArray = some (r, d') ∧
      r.element = none ∧ d'.Shows (if r.ok then [[7], [0], [0], [5]] else [[7], [0]]) := by
  obtain ⟨hshows, hnext⟩ := dynarr_refines_list poppedArray_run
  refine ⟨hshows, (hnext _ (.set 2 (some fun _ => 5)) fun _ => by decide).mpr ?_, fun h => ?_⟩
  · exact fun _ j hj hlt => absurd hlt (Nat.not_lt.mpr hj)
  · have hgap := (hnext _ (.set 3 (some fun _ => 5)) fun _ => by decide).mp h
    exact absurd (hgap (by decide) 2 le_rfl (by decide)) (by decide)

/-- An element is appended and popped, then one is set behind the end: the list has a zero at its
front, the array the element that was popped. -/
theorem dynarr_set_stale :
    let heap : Heap := fun _ => some 4096
    let calls : List ArrayCall :=
      [.append (some fun _ => 7), .pop false, .set 1 (some fun _ => 9), .get 0]
    (do (calls.mapM (arrayCall heap)) (← dynarrCreate heap 1 0)).map Prod.fst =
        some [⟨true, none⟩, ⟨true, none⟩, ⟨true, none⟩, ⟨true, some [7]⟩] ∧
      (calls.foldl (fun l c => c.ideal 1 l) []) = [[0], [9]] := by
  decide +kernel

end ShiziOS.Util
