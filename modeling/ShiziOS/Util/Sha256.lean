import ShiziOS.Lib.Sha2

/-!
# SHA-256 over chunks

`lib/sha256.c`. The context has the hash value after all whole blocks, the number of bytes so far
and the bytes of the block that is not whole yet. However the message is cut into chunks, the
digest is the one of FIPS 180-4.
-/

namespace ShiziOS.Util

open Bytes Sha2 Nat BitVec Area

/-! ## The functions -/

def sha256K : List Word :=
  [0x428a2f98, 0x71374491, 0xb5c0fbcf, 0xe9b5dba5, 0x3956c25b, 0x59f111f1, 0x923f82a4, 0xab1c5ed5,
   0xd807aa98, 0x12835b01, 0x243185be, 0x550c7dc3, 0x72be5d74, 0x80deb1fe, 0x9bdc06a7, 0xc19bf174,
   0xe49b69c1, 0xefbe4786, 0x0fc19dc6, 0x240ca1cc, 0x2de92c6f, 0x4a7484aa, 0x5cb0a9dc, 0x76f988da,
   0x983e5152, 0xa831c66d, 0xb00327c8, 0xbf597fc7, 0xc6e00bf3, 0xd5a79147, 0x06ca6351, 0x14292967,
   0x27b70a85, 0x2e1b2138, 0x4d2c6dfc, 0x53380d13, 0x650a7354, 0x766a0abb, 0x81c2c92e, 0x92722c85,
   0xa2bfe8a1, 0xa81a664b, 0xc24b8b70, 0xc76c51a3, 0xd192e819, 0xd6990624, 0xf40e3585, 0x106aa070,
   0x19a4c116, 0x1e376c08, 0x2748774c, 0x34b0bcb5, 0x391c0cb3, 0x4ed8aa4a, 0x5b9cca4f, 0x682e6ff3,
   0x748f82ee, 0x78a5636f, 0x84c87814, 0x8cc70208, 0x90befffa, 0xa4506ceb, 0xbef9a3f7, 0xc67178f2]

def sha256Ch (x y z : Word) : Word := (x &&& y) ^^^ (~~~x &&& z)

def sha256Maj (x y z : Word) : Word := (x &&& y) ^^^ (x &&& z) ^^^ (y &&& z)

def sha256Sigma0 (x : Word) : Word := x.rotateRight 2 ^^^ x.rotateRight 13 ^^^ x.rotateRight 22

def sha256Sigma1 (x : Word) : Word := x.rotateRight 6 ^^^ x.rotateRight 11 ^^^ x.rotateRight 25

def sha256Gamma0 (x : Word) : Word := x.rotateRight 7 ^^^ x.rotateRight 18 ^^^ x >>> 3

def sha256Gamma1 (x : Word) : Word := x.rotateRight 17 ^^^ x.rotateRight 19 ^^^ x >>> 10

/-- The word at `i` of a block. -/
def blockAt (block : Area) (i : Nat) : Word :=
  (block (i * 4 + 0)).setWidth 32 <<< 24 ||| (block (i * 4 + 1)).setWidth 32 <<< 16 |||
    (block (i * 4 + 2)).setWidth 32 <<< 8 ||| (block (i * 4 + 3)).setWidth 32 <<< 0

/-- The loop that fills `w` from `i` on, `n` more words. -/
def expandLoop : (n i : Nat) → (Nat → Word) → Nat → Word
  | 0, _, w => w
  | n + 1, i, w =>
    expandLoop n (i + 1) (Function.update w i
      (sha256Gamma1 (w (i - 2)) + w (i - 7) + sha256Gamma0 (w (i - 15)) + w (i - 16)))

structure Working where
  a : Word
  b : Word
  c : Word
  d : Word
  e : Word
  f : Word
  g : Word
  h : Word

/-- The loop over the rounds from `i` on, `n` more rounds. -/
def roundLoop (w : Nat → Word) : (n i : Nat) → Working → Working
  | 0, _, v => v
  | n + 1, i, v =>
    let t1 := v.h + sha256Sigma1 v.e + sha256Ch v.e v.f v.g + sha256K.getD i 0 + w i
    let t2 := sha256Sigma0 v.a + sha256Maj v.a v.b v.c
    roundLoop w n (i + 1) ⟨t1 + t2, v.a, v.b, v.c, v.d + t1, v.e, v.f, v.g⟩

def sha256Transform (state : Vector Word 8) (block : Area) : Vector Word 8 :=
  let w := expandLoop 48 16 fun i => if i < 16 then blockAt block i else 0
  let v := roundLoop w 64 0
    ⟨state[0], state[1], state[2], state[3], state[4], state[5], state[6], state[7]⟩
  #v[state[0] + v.a, state[1] + v.b, state[2] + v.c, state[3] + v.d, state[4] + v.e, state[5] + v.f,
    state[6] + v.g, state[7] + v.h]

structure Sha256Ctx where
  state : Vector Word 8
  count : Nat
  buf : Area

/-- `sha256_init`; `buf` is what was in memory. -/
def sha256Init (buf : Area) : Sha256Ctx where
  state := #v[0x6a09e667, 0xbb67ae85, 0x3c6ef372, 0xa54ff53a, 0x510e527f,
    0x9b05688c, 0x1f83d9ab, 0x5be0cd19]
  count := 0
  buf := buf

/-- The loop of `sha256_update`. -/
def updateLoop (state : Vector Word 8) (buf : Area) (pos : Fin 64) (src : List Byte) :
    Vector Word 8 × Area :=
  if hsrc : src = [] then (state, buf)
  else
    let chunk := min (64 - pos.val) src.length
    let buf := buf.copy pos chunk fun k => src.getD k 0
    if hfull : pos.val + chunk = 64 then updateLoop (sha256Transform state buf) buf 0
      (src.drop chunk)
    else updateLoop state buf ⟨pos.val + chunk, by omega⟩ (src.drop chunk)
termination_by src.length
decreasing_by
  all_goals
    have hpos := List.length_pos_iff.mpr hsrc
    have hlt := pos.isLt
    simp only [List.length_drop]
    omega

def sha256Update (ctx : Sha256Ctx) (data : List Byte) : Sha256Ctx :=
  let r := updateLoop ctx.state ctx.buf ⟨ctx.count % 64, mod_lt _ (by decide)⟩ data
  ⟨r.1, (ctx.count + data.length) % 2 ^ 64, r.2⟩

def sha256Final (ctx : Sha256Ctx) : List Byte :=
  let totalBits := ctx.count * 8 % 2 ^ 64
  let pos := ctx.count % 64
  let buf := ctx.buf.copy pos 1 fun _ => 0x80
  let pos := pos + 1
  let full := decide (56 < pos)
  let buf := if full then buf.copy pos (64 - pos) fun _ => 0 else buf
  let state := if full then sha256Transform ctx.state buf else ctx.state
  let pos := if full then 0 else pos
  let buf := buf.copy pos (56 - pos) fun _ => 0
  let buf := buf.copy 56 8 fun i => BitVec.ofNat 8 (totalBits / 2 ^ (56 - i * 8))
  let state := sha256Transform state buf
  state.toList.flatMap fun (w : Word) =>
    [(w >>> 24).setWidth 8, (w >>> 16).setWidth 8, (w >>> 8).setWidth 8, (w >>> 0).setWidth 8]

/-- `sha256_iter_next`; `heap` is the memory for a context, if there is any. -/
def sha256IterNext (heap : Option Area) (ctx : Option Sha256Ctx) (data : List Byte) :
    Option Sha256Ctx :=
  match ctx with
  | some c => some (sha256Update c data)
  | none => heap.map fun buf => sha256Update (sha256Init buf) data

/-- `sha256_iter_fin`; the digest is not written without a context. -/
def sha256IterFin (ctx : Option Sha256Ctx) : Option (List Byte) := ctx.map sha256Final

/-- `sha256`; `stack` is what was in the memory of the context. -/
def sha256 (stack : Area) (data : List Byte) : List Byte :=
  sha256Final (sha256Update (sha256Init stack) data)

/-! ## One block -/

theorem sha256K_eq {t : Nat} (ht : t < 64) : sha256K.getD t 0 = roundConstant t := by
  have hall : ∀ t, t < 64 → sha256K.getD t 0 = roundConstant t := by decide +kernel
  exact hall t ht

theorem sha256Init_state (buf : Area) : (sha256Init buf).state = initial := by
  have h : #v[0x6a09e667#32, 0xbb67ae85#32, 0x3c6ef372#32, 0xa54ff53a#32, 0x510e527f#32,
    0x9b05688c#32, 0x1f83d9ab#32,
      0x5be0cd19#32] = initial := by
    decide +kernel
  exact h

theorem blockAt_eq (block : Area) (t : Nat) :
    blockAt block t = (block (4 * t) ++ block (4 * t + 1) ++ block (4 * t + 2) ++
      block (4 * t + 3) : BitVec 32) := by
  rw [blockAt, Nat.mul_comm t 4, Nat.add_zero]
  generalize block (4 * t) = b0, block (4 * t + 1) = b1, block (4 * t + 2) = b2, block (4 * t + 3) =
    b3
  apply eq_of_getLsbD_eq
  intro i hi
  simp only [getLsbD_or, getLsbD_shiftLeft, getLsbD_setWidth, getLsbD_append]
  by_cases h0 : i < 8
  · simp [h0, hi, show i < 16 by omega, show i < 24 by omega]
  have h3 : BitVec.getLsbD b3 i = false := getLsbD_of_ge _ _ (by omega)
  by_cases h1 : i < 16
  · simp [h0, h1, h3, hi, show i < 24 by omega, show i - 8 < 8 by omega, show i - 8 < 32 by omega]
  have h4 : BitVec.getLsbD b2 (i - 8) = false := getLsbD_of_ge _ _ (by omega)
  by_cases h2 : i < 24
  · simp [h0, h1, h2, h3, h4, hi, show ¬i - 8 <
      8 by omega, show i - 16 < 8 by omega, show i - 16 < 32 by omega,
      Nat.sub_sub]
  · have h5 : BitVec.getLsbD b1 (i - 16) = false := getLsbD_of_ge _ _ (by omega)
    simp [h0, h1, h2, h3, h4, h5, hi, show ¬i - 8 <
      8 by omega, show ¬i - 16 < 8 by omega, show i - 24 < 32 by omega,
      Nat.sub_sub]

theorem expandLoop_eq {m : Nat → Word} (n i : Nat) {w : Nat → Word} (hi : 16 ≤ i)
    (hw : ∀ t, t < i → w t = schedule m t)
    {t : Nat} (ht : t < i + n) : expandLoop n i w t = schedule m t := by
  induction n generalizing i w with
  | zero => exact hw t ht
  | succ n ih =>
    refine ih (i + 1) (by omega) ?_ (by omega)
    intro t ht
    by_cases h : t = i
    · subst h
      rw [Function.update_self, schedule_of_ge (by omega), hw _ (by omega), hw _ (by omega),
        hw _ (by omega),
        hw _ (by omega)]
      rfl
    · rw [Function.update_of_ne h, hw t (by omega)]

def Working.toVector (v : Working) : Vector Word 8 := #v[v.a, v.b, v.c, v.d, v.e, v.f, v.g, v.h]

theorem eight_cases {i : Nat} (hi : i < 8) : i = 0 ∨ i = 1 ∨ i = 2 ∨ i = 3 ∨ i = 4 ∨ i = 5 ∨ i = 6 ∨
    i = 7 := by
  omega

theorem Working.add_toVector (s : Vector Word 8) (v : Working) :
    Vector.zipWith (· + ·) s v.toVector =
    #v[s[0] + v.a, s[1] + v.b, s[2] + v.c, s[3] + v.d, s[4] + v.e, s[5] + v.f, s[6] + v.g,
      s[7] + v.h] := by
  ext i hi
  rw [Vector.getElem_zipWith]
  rcases eight_cases hi with rfl | rfl | rfl | rfl | rfl | rfl | rfl | rfl <;> rfl

theorem roundLoop_eq {w s : Nat → Word} {h : Vector Word 8} (hw : ∀ t, t < 64 → w t = s t)
    (n i : Nat) {v : Working} (hv : v.toVector = rounds s i h) (hn : i + n ≤ 64) :
    (roundLoop w n i v).toVector = rounds s (i + n) h := by
  induction n generalizing i v with
  | zero => exact hv
  | succ n ih =>
    rw [roundLoop, show i + (n + 1) = i + 1 + n by omega]
    refine ih (i + 1) ?_ (by omega)
    rw [rounds_succ, ← hv, hw i (by omega), sha256K_eq (by omega)]
    rfl

theorem sha256Transform_eq (state : Vector Word 8) (block : Area) :
    sha256Transform state block = compress state (blockAt block) := by
  let w := expandLoop 48 16 fun i => if i < 16 then blockAt block i else 0
  let v : Working := ⟨state[0], state[1], state[2], state[3], state[4], state[5], state[6],
    state[7]⟩
  have hw : ∀ t, t < 64 → w t = schedule (blockAt block) t := by
    intro t ht
    refine expandLoop_eq 48 16 le_rfl ?_ ht
    intro t ht
    rw [if_pos ht, schedule_of_lt ht]
  have hv : v.toVector = rounds (schedule (blockAt block)) 0 state := by
    ext i hi
    rcases eight_cases hi with rfl | rfl | rfl | rfl | rfl | rfl | rfl | rfl <;> rfl
  have hr := roundLoop_eq hw 64 0 hv (by omega)
  rw [compress, ← zero_add 64, ← hr, Working.add_toVector]
  rfl

/-! ## The context -/

variable {state : Vector Word 8} {buf : Area} {m : List Byte} {n : Nat}

theorem transform_absorb (hstate : state = absorb m n) (hbuf : ∀ k, k < 64 →
    buf k = m.getD (64 * n + k) 0) :
    sha256Transform state buf = absorb m (n + 1) := by
  rw [sha256Transform_eq, absorb_succ, hstate]
  apply compress_congr
  intro t ht
  rw [blockAt_eq, blockWord, hbuf _ (by omega), hbuf _ (by omega), hbuf _ (by omega),
    hbuf _ (by omega)]
  rfl

/-- The hash value and the buffer after the message `m`. -/
structure Absorbed (state : Vector Word 8) (buf : Area) (m : List Byte) : Prop where
  state : state = absorb m (m.length / 64)
  buf : ∀ k, k < m.length % 64 → buf k = m.getD (64 * (m.length / 64) + k) 0

theorem absorbed_nil (buf : Area) : Absorbed initial buf [] where
  state := by
    rw [List.length_nil, Nat.zero_div, absorb, List.range_zero, List.foldl_nil]
  buf := by
    intro k hk
    simp at hk

variable {src : List Byte} {c : Nat} {pos : Fin 64} {ctx : Sha256Ctx}

theorem Absorbed.copy (h : Absorbed state buf m) {k : Nat} (hk : k < m.length % 64 + c) :
    buf.copy (m.length % 64) c (fun k => src.getD k 0) k = (m ++ src.take c).getD
      (64 * (m.length / 64) + k) 0 := by
  by_cases hpos : k < m.length % 64
  · rw [copy_outside (.inl hpos), h.buf k hpos, List.getD_append _ _ _ _ (by omega)]
  · obtain ⟨j, rfl⟩ := Nat.exists_eq_add_of_le (Nat.le_of_not_lt hpos)
    rw [copy_inside (by omega), List.getD_append_right _ _ _ _ (by omega),
      show 64 * (m.length / 64) + (m.length % 64 + j) - m.length = j by
        omega, List.getD_eq_getElem?_getD,
      List.getD_eq_getElem?_getD, List.getElem?_take_of_lt (by omega)]

theorem updateLoop_full (hsrc : src ≠ [])
    (hc : min (64 - pos.val) src.length = c) (hfull : pos.val + c = 64) :
    updateLoop state buf pos src =
      updateLoop (sha256Transform state (buf.copy pos c fun k => src.getD k 0))
        (buf.copy pos c fun k => src.getD k 0) 0
        (src.drop c) := by
  subst hc
  rw [updateLoop, dif_neg hsrc, dif_pos hfull]

theorem updateLoop_part (hsrc : src ≠ [])
    (hc : min (64 - pos.val) src.length = c) (hpart : pos.val + c < 64) :
    updateLoop state buf pos src =
      updateLoop state (buf.copy pos c fun k => src.getD k 0) ⟨pos.val + c, hpart⟩
        (src.drop c) := by
  subst hc
  rw [updateLoop, dif_neg hsrc, dif_neg hpart.ne]

theorem updateLoop_absorbed (src : List Byte) (h : Absorbed state buf m)
    (hpos : pos.val = m.length % 64) :
    Absorbed (updateLoop state buf pos src).1 (updateLoop state buf pos src).2 (m ++ src) := by
  induction hlen : src.length using Nat.strong_induction_on generalizing state buf m pos src with
  | _ l ih =>
    by_cases hsrc : src = []
    · rw [updateLoop, dif_pos hsrc, hsrc, List.append_nil]
      exact h
    have hl := List.length_pos_iff.mpr hsrc
    obtain ⟨c, hc⟩ : ∃ c, min (64 - pos.val) src.length = c := ⟨_, rfl⟩
    have hm : (m ++ src.take c).length = m.length + c := by
      rw [List.length_append, List.length_take]
      omega
    have hbuf : ∀ k, k < pos.val + c → buf.copy pos c (fun k => src.getD k 0) k =
        (m ++ src.take c).getD (64 * (m.length / 64) + k) 0 := by
      rw [hpos]
      exact fun k hk => h.copy hk
    have hstate : state = absorb (m ++ src.take c) (m.length / 64) := by
      rw [h.state, absorb_append _ _ (by omega)]
    have happ : m ++ src = m ++ src.take c ++ src.drop c := by
      rw [List.append_assoc, List.take_append_drop]
    rw [happ]
    by_cases hfull : pos.val + c = 64
    · rw [updateLoop_full hsrc hc hfull]
      refine ih _ ?_ _ ⟨?_, ?_⟩ ?_ rfl
      · rw [List.length_drop]
        omega
      · rw [hm, show (m.length + c) / 64 = m.length / 64 + 1 by omega]
        exact transform_absorb hstate fun k hk => hbuf k (by omega)
      · intro k hk
        omega
      · rw [hm]
        omega
    · rw [updateLoop_part hsrc hc (by omega)]
      refine ih _ ?_ _ ⟨?_, ?_⟩ ?_ rfl
      · rw [List.length_drop]
        omega
      · rw [hm, show (m.length + c) / 64 = m.length / 64 by omega]
        exact hstate
      · intro k hk
        rw [hm, show (m.length + c) / 64 = m.length / 64 by omega]
        exact hbuf k (by omega)
      · rw [hm]
        show pos.val + c = (m.length + c) % 64
        omega

/-- The context after the message `m`. -/
structure Represents (ctx : Sha256Ctx) (m : List Byte) :
    Prop extends Absorbed ctx.state ctx.buf m where
  count : ctx.count = m.length

theorem sha256Init_represents (buf : Area) : Represents (sha256Init buf) [] where
  toAbsorbed := by
    rw [sha256Init_state]
    exact absorbed_nil _
  count := rfl

theorem sha256Update_represents (h : Represents ctx m) (data : List Byte)
    (hlen : (m ++ data).length < 2 ^ 64) : Represents (sha256Update ctx data) (m ++ data) where
  toAbsorbed := by
    refine updateLoop_absorbed data h.toAbsorbed ?_
    show ctx.count % 64 = m.length % 64
    rw [h.count]
  count := by
    rw [List.length_append] at hlen ⊢
    show (ctx.count + data.length) % 2 ^ 64 = _
    rw [h.count, mod_eq_of_lt hlen]

/-! ## The digest -/

theorem wordBytes_eq (w : Word) : wordBytes w =
    [(w >>> 24).setWidth 8, (w >>> 16).setWidth 8, (w >>> 8).setWidth 8, (w >>> 0).setWidth 8] := by
  have hbyte : ∀ s, w.extractLsb' s 8 = (w >>> s).setWidth 8 := by
    intro s
    apply eq_of_getLsbD_eq
    intro i hi
    simp [hi]
  rw [wordBytes, hbyte, hbyte, hbyte, hbyte]

/-- The bytes of the message and the byte behind them, as far as they are in the last block begun.
-/
theorem Absorbed.end_byte (h : Absorbed state buf m) {k : Nat} (hk : k < m.length % 64 + 1) :
    buf.copy (m.length % 64) 1 (fun _ => 0x80) k = (pad m).getD (64 * (m.length / 64) + k) 0 := by
  have hlen := pad_length m
  rw [pad_getD m _ (by omega)]
  by_cases hpos : k < m.length % 64
  · rw [copy_outside (.inl hpos), if_pos (by omega), h.buf k hpos]
  · have hk' : k = m.length % 64 + 0 := by omega
    rw [hk', copy_inside (by decide), if_neg (by omega), if_pos (by omega)]

theorem last_block {pos : Nat} (hstate : state = absorb (pad m) n)
    (hbuf : ∀ k, k < pos → buf k = (pad m).getD (64 * n + k) 0) (hpos : pos ≤ 56)
    (hend : m.length < 64 * n + pos)
    (hlen : (pad m).length = 64 * (n + 1)) (hbits : m.length < 2 ^ 61) :
    sha256Transform state ((buf.copy pos (56 - pos) fun _ => 0).copy 56 8 fun i =>
      BitVec.ofNat 8 (m.length * 8 % 2 ^ 64 / 2 ^ (56 - i * 8))) = absorb (pad m) (n + 1) := by
  apply transform_absorb hstate
  intro k hk
  by_cases h1 : k < pos
  · rw [copy_outside (by omega), copy_outside (.inl h1), hbuf k h1]
  rw [pad_getD m _ (by omega), if_neg (by omega), if_neg (by omega)]
  by_cases h2 : k < 56
  · rw [copy_outside (.inl h2), if_pos (by omega), Area.copy, if_pos (by omega)]
  · obtain ⟨j, rfl⟩ := Nat.exists_eq_add_of_le (Nat.le_of_not_lt h2)
    rw [copy_inside (by omega), if_neg (by omega), mod_eq_of_lt (by omega), mul_comm,
      mul_comm j 8,
      show 64 * n + (56 + j) - ((pad m).length - 8) = j by omega]

theorem sha256Final_eq (h : Represents ctx m) (hbits : m.length < 2 ^ 61) :
    sha256Final ctx = digest m := by
  have hlen := pad_length m
  have hstate : ctx.state = absorb (pad m) (m.length / 64) := by
    rw [h.state, pad, List.append_assoc, absorb_append _ _ (by omega)]
  have hend : ∀ k, k < m.length % 64 + 1 → _ = _ := fun k hk => h.end_byte hk
  have hout : ∀ s : Vector Word 8, s = absorb (pad m) ((pad m).length / 64) →
      (s.toList.flatMap fun (w : Word) =>
        [(w >>> 24).setWidth 8, (w >>> 16).setWidth 8, (w >>> 8).setWidth 8,
          (w >>> 0).setWidth 8]) = digest m := by
    intro s hs
    rw [digest, ← hs, funext wordBytes_eq]
  rw [sha256Final, h.count]
  apply hout
  by_cases hfull : 56 < m.length % 64 + 1
  -- the length has no room behind the message, so a block of its own follows
  · simp only [hfull, decide_true, if_true]
    rw [show (pad m).length / 64 = m.length / 64 + 1 + 1 by omega]
    refine last_block ?_ (fun k hk => by omega) (by omega) (by omega) (by omega) hbits
    apply transform_absorb hstate
    intro k hk
    by_cases hk' : k < m.length % 64 + 1
    · rw [copy_outside (.inl hk'), hend k hk']
    · rw [Area.copy, if_pos (by omega), pad_getD m _ (by omega), if_neg (by omega),
        if_neg (by omega),
        if_pos (by omega)]
  · simp only [hfull, decide_false, Bool.false_eq_true, if_false]
    rw [show (pad m).length / 64 = m.length / 64 + 1 by omega]
    exact last_block hstate hend (by omega) (by omega) (by omega) hbits

theorem foldl_represents (heap : Option Area) (chunks : List (List Byte)) (h : Represents ctx m)
    (hlen : (m ++ chunks.flatten).length < 2 ^ 61) :
    ∃ ctx', chunks.foldl (sha256IterNext heap) (some ctx) = some ctx' ∧ Represents ctx'
      (m ++ chunks.flatten) := by
  induction chunks generalizing ctx m with
  | nil =>
    refine ⟨ctx, rfl, ?_⟩
    rw [List.flatten_nil, List.append_nil]
    exact h
  | cons data chunks ih =>
    rw [List.flatten_cons, ← List.append_assoc] at hlen ⊢
    have hdata : (m ++ data).length < 2 ^ 64 := by
      rw [List.length_append] at hlen
      omega
    exact ih (sha256Update_represents h data hdata) hlen

theorem sha256_eq (stack : Area) (data : List Byte) (hlen : data.length < 2 ^ 61) :
    sha256 stack data = digest data :=
  sha256Final_eq (sha256Update_represents (sha256Init_represents stack) data
    (by simpa using by omega)) hlen

/-- However a message is cut into chunks, the digest is that of the whole message, and it is the
one of the standard; what was in the memory of the contexts before does not matter. -/
theorem sha256_streaming (memory stack : Area) (chunks : List (List Byte)) (hchunks : chunks ≠ [])
    (hlen : chunks.flatten.length < 2 ^ 61) :
    sha256IterFin (chunks.foldl (sha256IterNext (some memory)) none) = some
      (sha256 stack chunks.flatten) ∧
      sha256 stack chunks.flatten = digest chunks.flatten := by
  refine ⟨?_, sha256_eq stack _ hlen⟩
  cases chunks with
  | nil => exact absurd rfl hchunks
  | cons data chunks =>
    rw [List.flatten_cons] at hlen ⊢
    have hdata : ([] ++ data).length < 2 ^ 64 := by
      rw [List.length_append] at hlen
      rw [List.nil_append]
      omega
    have hfirst := sha256Update_represents (sha256Init_represents memory) data hdata
    obtain ⟨ctx, hctx, hrep⟩ := foldl_represents (some memory) chunks hfirst hlen
    rw [sha256_eq stack _ hlen, List.foldl_cons]
    show (chunks.foldl _ (some _)).map _ = _
    rw [hctx, Option.map_some, sha256Final_eq hrep hlen]
    rfl

theorem sha256_streaming_abc :
    sha256IterFin ([[0x61], [], [0x62, 0x63]].foldl (sha256IterNext (some fun _ => 0xff)) none) =
        some (sha256 (fun _ => 0) [0x61, 0x62, 0x63]) ∧
      sha256 (fun _ => 0) [0x61, 0x62, 0x63] = digest [0x61, 0x62, 0x63] :=
  sha256_streaming (fun _ => 0xff) (fun _ => 0) [[0x61], [], [0x62, 0x63]] (by decide) (by decide)

end ShiziOS.Util
