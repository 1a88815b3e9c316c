import Mathlib

/-!
# Formatted output of integers

`parse_fmt_spec`, `prepare_number`, `output_int`, `vfprintk` and `vsnprintk` of `kernel/lib/kio.c`.
A format is the list of its characters without the terminating one, an argument is what the caller
has put into its place of eight bytes. The conversions `s`, `c`, `p` and `n` are a parameter. The
negation of the least number wraps.
-/

namespace ShiziOS.Util.Kio

open List
open BitVec (ofNat ofInt)

/-- `enum len_mod`. -/
inductive LenMod where
  | none | hh | h | l | ll | z | t | j
  deriving DecidableEq

/-- The bits of the type that a length modifier stands for. -/
def LenMod.bits : LenMod → Nat
  | .hh => 8
  | .h => 16
  | .none => 32
  | _ => 64

structure FmtFlags where
  alt : Bool := false
  zero : Bool := false
  left : Bool := false
  pos : Bool := false
  space : Bool := false

structure FmtSpec where
  flags : FmtFlags
  width : Int
  prec : Int
  lenMod : LenMod
  conv : Char

abbrev Args := List (BitVec 64)

/-- `va_arg(args, int)`. -/
def vaInt (a : BitVec 64) : Int := (a.setWidth 32).toInt

/-! ## Parsing -/

/-- The loop of `parse_int_or_star`. -/
def parseDigits (val : BitVec 32) : List Char → BitVec 32 × List Char
  | [] => (val, [])
  | c :: p =>
    if c.isDigit then parseDigits (val * 10 + ofNat 32 (c.toNat - 48)) p else (val, c :: p)

/-- `parse_int_or_star`; `none` if there is no argument. -/
def parseIntOrStar (p : List Char) (args : Args) : Option (Int × List Char × Args) :=
  if p.head? = some '*' then args.head?.map fun a => (vaInt a, p.tail, args.tail)
  else some ((parseDigits 0 p).1.toInt, (parseDigits 0 p).2, args)

def FmtFlags.set (f : FmtFlags) : Char → Option FmtFlags
  | '#' => some { f with alt := true }
  | '0' => some { f with zero := true }
  | '-' => some { f with left := true }
  | '+' => some { f with pos := true }
  | ' ' => some { f with space := true }
  | _ => none

def parseFlags (f : FmtFlags) : List Char → FmtFlags × List Char
  | [] => (f, [])
  | c :: p =>
    match f.set c with
    | some f => parseFlags f p
    | none => (f, c :: p)

def parseLenMod : List Char → LenMod × List Char
  | 'h' :: 'h' :: p => (.hh, p)
  | 'h' :: p => (.h, p)
  | 'l' :: 'l' :: p => (.ll, p)
  | 'l' :: p => (.l, p)
  | 'z' :: p => (.z, p)
  | 't' :: p => (.t, p)
  | 'j' :: p => (.j, p)
  | p => (.none, p)

def parsePrec (p : List Char) (args : Args) : Option (Int × List Char × Args) :=
  if p.head? = some '.' then
    (parseIntOrStar p.tail args).map fun (pr, p, args) => (if 0 ≤ pr then pr else -1, p, args)
  else some (-1, p, args)

/-- `parse_fmt_spec`, from behind the `%`: the specification, the rest of the format behind it and
the arguments that are left. At the end of the format the scan would go on behind it: `none`. -/
def parseFmtSpec (p : List Char) (args : Args) : Option (FmtSpec × List Char × Args) := do
  let (flags, p) := parseFlags {} p
  let (width, p, args) ← parseIntOrStar p args
  let flags := if width < 0 then { flags with left := true } else flags
  let width := if width < 0 then (ofInt 32 (-width)).toInt else width
  let (prec, p, args) ← parsePrec p args
  let (lenMod, p) := parseLenMod p
  match p with
  | [] => none
  | conv :: p => some (⟨flags, width, prec, lenMod, conv⟩, p, args)

/-! ## Numbers -/

def digitOf (upper : Bool) (d : Nat) : Char :=
  (if upper then "0123456789ABCDEF" else "0123456789abcdef").toList.getD d '0'

/-- The loops of `format_dec`, `format_oct` and `format_hex`, with what is already written. -/
def formatLoop (base : Nat) (upper : Bool) : (fuel n : Nat) → List Char → List Char
  | 0, _, acc => acc
  | fuel + 1, n, acc =>
    if n / base = 0 then digitOf upper (n % base) :: acc
    else formatLoop base upper fuel (n / base) (digitOf upper (n % base) :: acc)

def baseOf (conv : Char) : Nat := if conv = 'o' then 8 else if conv = 'x' ∨ conv = 'X' then 16
    else 10

def precDigits (absVal : Nat) (conv : Char) (prec : Int) : List Char :=
  let raw := formatLoop (baseOf conv) (conv = 'X') 64 absVal []
  let minDigits := if 0 ≤ prec then prec else 1
  if prec = 0 ∧ absVal = 0 then []
  else replicate (max 0 (minDigits - raw.length)).toNat '0' ++ raw

/-- `prepare_number`: the digits and the prefix. -/
def prepareNumber (absVal : Nat) (conv : Char) (prec : Int) (flags : FmtFlags) :
    List Char × List Char :=
  let digits := precDigits absVal conv prec
  if flags.alt ∧ conv = 'o' then
    if absVal = 0 ∧ prec = 0 then (['0'], [])
    else (digits, if digits.head? ≠ some '0' then ['0'] else [])
  else if flags.alt ∧ (conv = 'x' ∨ conv = 'X') then
    (digits, if absVal ≠ 0 then ['0', if conv = 'X' then 'X' else 'x'] else [])
  else (digits, [])

/-! ## Output -/

/-- `PFILE`: `text` is what stands in the buffer before `pos`. -/
structure PFile where
  text : List Char
  size : Nat
  count : Nat

/-- `PRINT_ADD_CHAR`; an error is a jump to `done`. -/
def PFile.add (s : PFile) (c : Char) : Except PFile PFile :=
  if s.size - 1 ≤ s.text.length then .error s
  else .ok { s with text := s.text ++ [c], count := s.count + 1 }

def PFile.addAll (s : PFile) : List Char → Except PFile PFile
  | [] => .ok s
  | c :: cs => s.add c >>= fun s => s.addAll cs

/-- The characters that `output_int` writes. -/
def intChars (sign pfx digits : List Char) (width : Int) (flags : FmtFlags) (prec : Int) :
    List Char :=
  let contentLen : Int := sign.length + pfx.length + digits.length
  let pad := (max 0 (width - contentLen)).toNat
  if width ≤ contentLen then sign ++ pfx ++ digits
  else if flags.left then sign ++ pfx ++ digits ++ replicate pad ' '
  else if flags.zero ∧ prec < 0 then sign ++ pfx ++ replicate pad '0' ++ digits
  else replicate pad ' ' ++ sign ++ pfx ++ digits

/-- The value of an argument, by the length modifier and the sign of the conversion. -/
def argVal (isSigned : Bool) (lenMod : LenMod) (a : BitVec 64) : Int :=
  if isSigned then (a.setWidth lenMod.bits).toInt else (a.setWidth lenMod.bits).toNat

/-- `vfprintk` at an integer conversion. -/
def printInt (spec : FmtSpec) (a : BitVec 64) (s : PFile) : PFile :=
  let isSigned := spec.conv = 'd' ∨ spec.conv = 'i'
  let val := argVal isSigned spec.lenMod a
  let absVal := if val < 0 then (ofInt 64 (-val)).toNat else val.toNat
  let sign := if isSigned then
      if val < 0 then ['-'] else if spec.flags.pos then ['+'] else if spec.flags.space then [' ']
      else []
    else []
  let (digits, pfx) := prepareNumber absVal spec.conv spec.prec spec.flags
  -- a jump to `done` only leaves `output_int`
  match s.addAll (intChars sign pfx digits spec.width spec.flags spec.prec) with
  | .ok s => s
  | .error s => s

def intConvs : List Char := ['d', 'i', 'u', 'o', 'x', 'X']

def otherConvs : List Char := ['s', 'c', 'p', 'n']

section

variable (other : FmtSpec → Args → PFile → Option (Except PFile (Args × PFile)))

/-- The loop of `vfprintk`. -/
def vfprintkLoop : (fuel : Nat) → List Char → Args → PFile → Option (Except PFile PFile)
  | _, [], _, s => some (.ok s)
  | 0, _ :: _, _, _ => none
  | fuel + 1, c :: p, args, s =>
    if c ≠ '%' then
      match s.add c with
      | .error s => some (.error s)
      | .ok s => vfprintkLoop fuel p args s
    else do
      let (spec, p, args) ← parseFmtSpec p args
      if spec.conv ∈ intConvs then
        let a ← args.head?
        vfprintkLoop fuel p args.tail (printInt spec a s)
      else if spec.conv ∈ otherConvs then
        match ← other spec args s with
        | .error s => some (.error s)
        | .ok (args, s) => vfprintkLoop fuel p args s
      else
        match s.addAll (if spec.conv = '%' then ['%'] else ['%', spec.conv]) with
        | .error s => some (.error s)
        | .ok s => vfprintkLoop fuel p args s

/-- `vsnprintk`: what it writes to the buffer and what it returns. -/
def vsnprintk (size : Nat) (fmt : List Char) (args : Args) : Option (List Char × Nat) :=
  if size = 0 then some ([], 0)
  else
    let stream : PFile := ⟨[], size, 0⟩
    if size - 1 ≤ 0 then some (['\x00'], 0)
    else (vfprintkLoop other fmt.length fmt args stream).map fun r =>
      match r with
      | .ok s => (s.text ++ ['\x00'], s.count)
      | .error s => (s.text ++ ['\x00'], s.count)

end

/-! ## What the standard says -/

/-- A width or a precision: none, a literal number, or the value of an argument. -/
inductive Count where
  | absent
  | literal (digits : List Char)
  | star (arg : BitVec 64)

/-- The number that a decimal numeral stands for. -/
def decVal (digits : List Char) : Nat := digits.foldl (fun v c => v * 10 + (c.toNat - 48)) 0

namespace Count

def text : Count → List Char
  | .absent => []
  | .literal digits => digits
  | .star _ => ['*']

def args : Count → Args
  | .star arg => [arg]
  | _ => []

def val : Count → Option Int
  | .absent => none
  | .literal digits => some (decVal digits)
  | .star arg => some (vaInt arg)

/-- A number below 120. A width does not begin with a zero, and its amount is below 120. -/
def Valid (isWidth : Bool) : Count → Prop
  | .absent => True
  | .literal digits => (∀ c ∈ digits, c.isDigit = true) ∧
      (isWidth → digits.head? ≠ some '0') ∧ decVal digits < 120
  | .star arg => vaInt arg < 120 ∧ (isWidth → -120 < vaInt arg)

end Count

def LenMod.text : LenMod → List Char
  | .none => []
  | .hh => ['h', 'h']
  | .h => ['h']
  | .l => ['l']
  | .ll => ['l', 'l']
  | .z => ['z']
  | .t => ['t']
  | .j => ['j']

def flagChars : List Char := ['#', '0', '-', '+', ' ']

/-- A conversion specification for an integer. -/
structure Directive where
  flags : List Char
  width : Count
  prec : Count
  lenMod : LenMod
  conv : Char
  flags_mem : ∀ c ∈ flags, c ∈ flagChars
  width_valid : width.Valid true
  prec_valid : prec.Valid false
  conv_mem : conv ∈ intConvs

namespace Directive

variable (d : Directive)

def precText : List Char :=
  match d.prec with
  | .absent => []
  | prec => '.' :: prec.text

/-- The specification as it stands in a format. -/
def text : List Char :=
  '%' :: (d.flags ++ (d.width.text ++ (d.precText ++ (d.lenMod.text ++ [d.conv]))))

def args : Args := d.width.args ++ d.prec.args

def isSigned : Bool := d.conv = 'd' ∨ d.conv = 'i'

/-- The value of the argument, which is of the type that the length modifier says. -/
def value (a : BitVec 64) : Int := argVal d.isSigned d.lenMod a

def fieldWidth : Nat := (d.width.val.getD 0).natAbs

/-- A negative width is a flag `-` and a width. -/
def leftAdjusted : Bool := '-' ∈ d.flags ∨ d.width.val.getD 0 < 0

/-- A negative precision is taken as if it were omitted. -/
def precision : Option Nat := d.prec.val.bind fun v => if 0 ≤ v then some v.toNat else none

def numeral (n : Nat) : List Char :=
  (if n = 0 then [0] else (Nat.digits (baseOf d.conv) n).reverse).map (digitOf (d.conv = 'X'))

/-- The numeral with the zeros of the precision. -/
def shown (n : Nat) : List Char :=
  let raw := if n = 0 ∧ d.precision = some 0 then [] else d.numeral n
  replicate (d.precision.getD 1 - raw.length) '0' ++ raw

/-- The digits; `#` increases the precision for `o` so that the first one is a zero. -/
def digits (n : Nat) : List Char :=
  if '#' ∈ d.flags ∧ d.conv = 'o' ∧ (d.shown n).head? ≠ some '0' then '0' :: d.shown n
  else d.shown n

def alternate (n : Nat) : List Char :=
  if '#' ∈ d.flags ∧ n ≠ 0 then
    if d.conv = 'x' then ['0', 'x'] else if d.conv = 'X' then ['0', 'X'] else []
  else []

def sign (v : Int) : List Char :=
  if d.isSigned then
    if v < 0 then ['-'] else if '+' ∈ d.flags then ['+'] else if ' ' ∈ d.flags then [' '] else []
  else []

/-- The text that C99 prescribes for `fprintf`. -/
def c99 (a : BitVec 64) : List Char :=
  let n := (d.value a).natAbs
  let head := d.sign (d.value a) ++ d.alternate n
  let pad := d.fieldWidth - (head ++ d.digits n).length
  if d.leftAdjusted then head ++ d.digits n ++ replicate pad ' '
  else if '0' ∈ d.flags ∧ d.precision = none then head ++ replicate pad '0' ++ d.digits n
  else replicate pad ' ' ++ (head ++ d.digits n)

end Directive

def digitChars : List Char := "0123456789abcdefABCDEF".toList

def digitVal (c : Char) : Nat := if c.isDigit then c.toNat - 48 else c.toLower.toNat - 87

/-- The number with given digits. -/
def ofChars (base : Nat) (cs : List Char) : Nat := cs.foldl (fun v c => v * base + digitVal c) 0

/-- The number that the digits and the sign of a text stand for. -/
def readBack (base : Nat) (text : List Char) : Int :=
  let n : Int := ofChars base (text.filter (· ∈ digitChars))
  if '-' ∈ text then -n else n

/-! ## Numerals -/

theorem formatLoop_of_pos {base : Nat} {upper : Bool} (hb : 1 < base) (fuel : Nat) {n : Nat}
    (hn : 0 < n) (hf : n < base ^ fuel) (acc : List Char) :
    formatLoop base upper fuel n acc = (Nat.digits base n).reverse.map (digitOf upper) ++ acc := by
  induction fuel generalizing n acc with
  | zero => simp only [pow_zero] at hf; omega
  | succ fuel ih =>
    rw [formatLoop, Nat.digits_def' hb hn]
    by_cases hq : n / base = 0
    · simp [hq]
    · have hlt : n / base < base ^ fuel := by
        rw [Nat.div_lt_iff_lt_mul (by omega), ← pow_succ]
        exact hf
      rw [if_neg hq, ih (Nat.pos_of_ne_zero hq) hlt]
      simp

theorem baseOf_bounds (conv : Char) : 8 ≤ baseOf conv ∧ baseOf conv ≤ 16 := by
  unfold baseOf
  split_ifs <;> omega

theorem formatLoop_eq_numeral (d : Directive) {n : Nat} (hn : n < 2 ^ 64) :
    formatLoop (baseOf d.conv) (d.conv = 'X') 64 n [] = d.numeral n := by
  have hb := (baseOf_bounds d.conv).1
  unfold Directive.numeral
  by_cases h0 : n = 0
  · simp [h0, formatLoop]
  · have hf : n < baseOf d.conv ^ 64 := lt_of_lt_of_le hn (Nat.pow_le_pow_left (by omega) 64)
    rw [if_neg h0, formatLoop_of_pos (by omega) 64 (Nat.pos_of_ne_zero h0) hf]
    simp

theorem digitOf_spec : ∀ upper : Bool, ∀ d < 16,
    digitOf upper d ∈ digitChars ∧ digitVal (digitOf upper d) = d := by
  decide

theorem numeral_digits (d : Directive) (n : Nat) :
    ∃ ds : List Nat, d.numeral n = ds.reverse.map (digitOf (d.conv = 'X')) ∧ (∀ x ∈ ds, x < 16) ∧
      Nat.ofDigits (baseOf d.conv) ds = n := by
  have hb := baseOf_bounds d.conv
  by_cases h0 : n = 0
  · exact ⟨[0], by simp [Directive.numeral, h0], by simp, by simp [h0]⟩
  · refine ⟨Nat.digits (baseOf d.conv)
      n, by simp [Directive.numeral, h0], ?_, Nat.ofDigits_digits _ n⟩
    intro x hx
    exact lt_of_lt_of_le (Nat.digits_lt_base (by omega) hx) hb.2

theorem numeral_mem (d : Directive) (n : Nat) : ∀ c ∈ d.numeral n, c ∈ digitChars := by
  obtain ⟨ds, he, hlt, -⟩ := numeral_digits d n
  intro c hc
  rw [he] at hc
  obtain ⟨x, hx, rfl⟩ := mem_map.mp hc
  exact (digitOf_spec _ x (hlt x (mem_reverse.mp hx))).1

theorem ofChars_numeral (d : Directive) (n : Nat) : ofChars (baseOf d.conv) (d.numeral n) = n := by
  obtain ⟨ds, he, hlt, hn⟩ := numeral_digits d n
  have hval : (ds.reverse.map (digitOf (d.conv = 'X'))).map digitVal = ds.reverse := by
    rw [map_map]
    refine (map_congr_left fun x hx => ?_).trans (map_id _)
    exact (digitOf_spec _ x (hlt x (mem_reverse.mp hx))).2
  have hstep : (fun x v => v * baseOf d.conv + x) = fun x v : Nat =>
      (x : Nat) + baseOf d.conv * v := by
    funext x v
    rw [Nat.mul_comm, Nat.add_comm]
  calc ofChars (baseOf d.conv) (d.numeral n)
      = ((ds.reverse.map (digitOf (d.conv = 'X'))).map digitVal).foldl
          (fun v x => v * baseOf d.conv + x) 0 := by rw [he, foldl_map, ofChars]
    _ = Nat.ofDigits (baseOf d.conv) ds := by
        rw [hval, foldl_reverse, hstep, Nat.ofDigits_eq_foldr]
        rfl
    _ = n := hn

theorem ofChars_zeros (base k : Nat) (cs : List Char) :
    ofChars base (replicate k '0' ++ cs) = ofChars base cs := by
  induction k with
  | zero => rfl
  | succ k ih => simpa [ofChars, replicate_succ, digitVal] using ih

/-! ## Parsing a specification -/

theorem FmtFlags.set_eq_none {c : Char} (hc : c ∉ flagChars) (f : FmtFlags) : f.set c = none := by
  unfold FmtFlags.set
  split <;> simp_all [flagChars]

theorem parseFlags_append {cs p : List Char} (hcs : ∀ c ∈ cs, c ∈ flagChars)
    (hp : ∀ c ∈ p.head?, c ∉ flagChars) (f : FmtFlags) :
    parseFlags f (cs ++ p) = (⟨f.alt || '#' ∈ cs, f.zero || '0' ∈ cs, f.left || '-' ∈ cs,
      f.pos || '+' ∈ cs, f.space || ' ' ∈ cs⟩, p) := by
  induction cs generalizing f with
  | nil =>
    cases p with
    | nil => simp [parseFlags]
    | cons c p => simp [parseFlags, FmtFlags.set_eq_none (hp c rfl)]
  | cons c cs ih =>
    have ih := ih fun x hx => hcs x (mem_cons_of_mem _ hx)
    have hc := hcs c mem_cons_self
    simp only [flagChars, mem_cons, not_mem_nil, or_false] at hc
    rcases hc with rfl | rfl | rfl | rfl | rfl <;> simp [parseFlags, FmtFlags.set, ih]

theorem parseDigits_append {ds p : List Char} (hds : ∀ c ∈ ds, c.isDigit = true)
    (hp : ∀ c ∈ p.head?, c.isDigit = false) (n : Nat) :
    parseDigits (ofNat 32 n) (ds ++ p) =
      (ofNat 32 (ds.foldl (fun v c => v * 10 + (c.toNat - 48)) n), p) := by
  induction ds generalizing n with
  | nil =>
    cases p with
    | nil => rfl
    | cons c p => simp [parseDigits, hp c rfl]
  | cons c ds ih =>
    have hstep : ofNat 32 n * 10 + ofNat 32 (c.toNat - 48) =
        ofNat 32 (n * 10 + (c.toNat - 48)) := by
      rw [BitVec.ofNat_add, BitVec.ofNat_mul]
      rfl
    rw [cons_append, parseDigits, if_pos (hds c mem_cons_self), hstep,
      ih fun x hx => hds x (mem_cons_of_mem _ hx)]
    rfl

theorem toInt_ofInt_small {v : Int} (h : -2 ^ 31 ≤ v) (h' : v < 2 ^ 31) :
    (ofInt 32 v).toInt = v := by
  rw [BitVec.toInt_ofInt]
  exact Int.bmod_eq_of_le (by omega) (by omega)

theorem parseIntOrStar_text {isWidth : Bool} {count : Count} (hc : count.Valid isWidth)
    {p : List Char} (hp : ∀ c ∈ p.head?, c.isDigit = false ∧ c ≠ '*') (args : Args) :
    parseIntOrStar (count.text ++ p) (count.args ++ args) = some (count.val.getD 0, p, args) := by
  have hdigit := fun c hc => (hp c hc).1
  have hstar : p.head? ≠ some '*' := fun h => (hp '*' h).2 rfl
  cases count with
  | absent =>
    have h : parseDigits 0 ([] ++ p) = (0, p) := parseDigits_append (by simp) hdigit 0
    rw [Count.text, parseIntOrStar, if_neg (by simpa using hstar), h]
    rfl
  | literal ds =>
    obtain ⟨hds, -, hlt⟩ := hc
    have h : parseDigits 0 (ds ++ p) = (ofNat 32 (decVal ds), p) :=
      parseDigits_append hds hdigit 0
    have hhead : (ds ++ p).head? ≠ some '*' := by
      cases ds with
      | nil => exact hstar
      | cons c ds =>
        rintro he
        simp_all
    have hval : (ofNat 32 (decVal ds)).toInt = decVal ds := by
      rw [← BitVec.ofInt_natCast]
      exact toInt_ofInt_small (by omega) (by omega)
    rw [Count.text, parseIntOrStar, if_neg hhead, Count.val, Option.getD_some, ← hval, h]
    rfl
  | star arg => simp [parseIntOrStar, Count.text, Count.args, Count.val]

/-- No flag, width or precision goes on with such a character. -/
def Stop (c : Char) : Prop := c.isDigit = false ∧ c ≠ '*' ∧ c ∉ flagChars

namespace Directive

variable (d : Directive)

/-- What `parse_fmt_spec` finds. -/
def spec : FmtSpec where
  flags := ⟨'#' ∈ d.flags, '0' ∈ d.flags, d.leftAdjusted, '+' ∈ d.flags, ' ' ∈ d.flags⟩
  width := d.fieldWidth
  prec := (d.precision.map Int.ofNat).getD (-1)
  lenMod := d.lenMod
  conv := d.conv

theorem conv_cases : d.conv = 'd' ∨ d.conv = 'i' ∨ d.conv = 'u' ∨ d.conv = 'o' ∨ d.conv = 'x' ∨
    d.conv = 'X' := by
  simpa [intConvs] using d.conv_mem

theorem parseLenMod_text : parseLenMod (d.lenMod.text ++ [d.conv]) = (d.lenMod, [d.conv]) := by
  rcases d.conv_cases with h | h | h | h | h | h <;> rw [h] <;> cases d.lenMod <;> rfl

theorem stop_lenMod : ∀ c ∈ (d.lenMod.text ++ [d.conv]).head?, Stop c ∧ c ≠ '.' := by
  rcases d.conv_cases with h | h | h | h | h | h <;> rw [h] <;> cases d.lenMod <;>
    simp [LenMod.text, Stop, flagChars]

theorem stop_prec : ∀ c ∈ (d.precText ++ (d.lenMod.text ++ [d.conv])).head?, Stop c := by
  unfold precText
  cases d.prec with
  | absent => exact fun c hc => (d.stop_lenMod c hc).1
  | literal => simp [Stop, flagChars]
  | star => simp [Stop, flagChars]

theorem no_flag_width :
    ∀ c ∈ (d.width.text ++ (d.precText ++ (d.lenMod.text ++ [d.conv]))).head?, c ∉ flagChars := by
  have hstop := fun c hc => (d.stop_prec c hc).2.2
  have hvalid := d.width_valid
  cases hw : d.width with
  | absent => exact hstop
  | star => simp [Count.text, flagChars]
  | literal ds =>
    rw [hw] at hvalid
    obtain ⟨hds, hzero, -⟩ := hvalid
    cases ds with
    | nil => exact hstop
    | cons c ds =>
      rintro x hx
      obtain rfl : c = x := by simpa [Count.text] using hx
      rintro hmem
      simp only [flagChars, mem_cons, not_mem_nil, or_false] at hmem
      rcases hmem with rfl | rfl | rfl | rfl | rfl <;> simp_all

theorem width_bound : -120 < d.width.val.getD 0 ∧ d.width.val.getD 0 < 120 := by
  have hvalid := d.width_valid
  cases hw : d.width with
  | absent => simp [Count.val]
  | star arg =>
    rw [hw] at hvalid
    exact ⟨hvalid.2 rfl, hvalid.1⟩
  | literal ds =>
    rw [hw] at hvalid
    have := hvalid.2.2
    simp only [Count.val, Option.getD_some]
    omega

theorem parsePrec_text (args : Args) :
    parsePrec (d.precText ++ (d.lenMod.text ++ [d.conv])) (d.prec.args ++ args) =
      some ((d.precision.map Int.ofNat).getD (-1), d.lenMod.text ++ [d.conv], args) := by
  have hp := fun c hc => (d.stop_lenMod c hc).1
  have hread := parseIntOrStar_text d.prec_valid (fun c hc => ⟨(hp c hc).1, (hp c hc).2.1⟩) args
  unfold parsePrec precText precision
  cases hprec : d.prec with
  | absent =>
    have hdot : (d.lenMod.text ++ [d.conv]).head? ≠ some '.' := fun h => (d.stop_lenMod _ h).2 rfl
    rw [nil_append, if_neg hdot]
    rfl
  | literal ds =>
    rw [hprec] at hread
    simp only [cons_append, head?_cons, if_true, tail_cons, hread]
    simp [Count.val]
  | star arg =>
    rw [hprec] at hread
    simp only [cons_append, head?_cons, if_true, tail_cons, hread]
    by_cases h : 0 ≤ vaInt arg <;> simp [Count.val, h]

theorem parseFmtSpec_text (args : Args) :
    parseFmtSpec (d.flags ++ (d.width.text ++ (d.precText ++ (d.lenMod.text ++ [d.conv]))))
      (d.args ++ args) = some (d.spec, [], args) := by
  have hflags := parseFlags_append d.flags_mem d.no_flag_width {}
  have hwidth := parseIntOrStar_text d.width_valid
    (fun c hc => ⟨(d.stop_prec c hc).1, (d.stop_prec c hc).2.1⟩) (d.prec.args ++ args)
  have hb := d.width_bound
  have hneg : (ofInt 32 (-d.width.val.getD 0)).toInt = -d.width.val.getD 0 :=
    toInt_ofInt_small (by omega) (by omega)
  have hw : (d.fieldWidth : Int) =
      if d.width.val.getD 0 < 0 then -d.width.val.getD 0 else d.width.val.getD 0 := by
    unfold fieldWidth
    split_ifs <;> omega
  rw [parseFmtSpec, Directive.args, append_assoc]
  simp only [hflags, hwidth, Option.bind_eq_bind, Option.bind_some, d.parsePrec_text,
    d.parseLenMod_text]
  by_cases hlt : d.width.val.getD 0 < 0
  · simp [spec, hlt, hneg, hw, leftAdjusted]
  · simp [spec, hlt, hw, leftAdjusted]

end Directive

/-! ## Writing a number -/

theorem PFile.addAll_ok (cs : List Char) {s : PFile} (h : s.text.length + cs.length < s.size) :
    s.addAll cs = .ok ⟨s.text ++ cs, s.size, s.count + cs.length⟩ := by
  induction cs generalizing s with
  | nil => simp [addAll]
  | cons c cs ih =>
    rw [length_cons] at h
    have hadd : s.add c = .ok ⟨s.text ++ [c], s.size, s.count + 1⟩ := by
      rw [PFile.add, if_neg (by omega)]
    have hrest : (s.text ++ [c]).length + cs.length < s.size := by
      rw [length_append, length_singleton]
      omega
    have ih := @ih ⟨s.text ++ [c], s.size, s.count + 1⟩ hrest
    simp only [addAll, hadd, bind, Except.bind, ih, append_assoc, singleton_append,
      length_cons, Nat.add_assoc, Nat.add_comm 1]

theorem intChars_eq (sign pfx digits : List Char) (width : Nat) (flags : FmtFlags) (prec : Int) :
    intChars sign pfx digits width flags prec =
      let pad := width - (sign ++ pfx ++ digits).length
      if flags.left then sign ++ pfx ++ digits ++ replicate pad ' '
      else if flags.zero ∧ prec < 0 then sign ++ pfx ++ replicate pad '0' ++ digits
      else replicate pad ' ' ++ (sign ++ pfx ++ digits) := by
  have hlen : (sign ++ pfx ++ digits).length = sign.length + pfx.length + digits.length := by
    simp only [length_append]
  have hpad : (max 0 ((width : Int) - (sign.length + pfx.length + digits.length))).toNat =
      width - (sign ++ pfx ++ digits).length := by omega
  by_cases h : (width : Int) ≤ sign.length + pfx.length + digits.length
  · have h0 : width - (sign ++ pfx ++ digits).length = 0 := by omega
    simp only [intChars, if_pos h, h0]
    simp
  · simp only [intChars, if_neg h, hpad, append_assoc]

namespace Directive

variable (d : Directive)

theorem prec_neg : d.spec.prec < 0 ↔ d.precision = none := by
  unfold spec
  cases d.precision <;> simp

theorem prec_zero : d.spec.prec = 0 ↔ d.precision = some 0 := by
  unfold spec
  cases d.precision <;> simp

theorem precDigits_eq {n : Nat} (hn : n < 2 ^ 64) :
    precDigits n d.conv d.spec.prec = d.shown n := by
  simp only [precDigits, formatLoop_eq_numeral d hn, prec_zero, shown]
  by_cases h : n = 0 ∧ d.precision = some 0
  · simp [h]
  · have hmin : (max 0 ((if 0 ≤ d.spec.prec then d.spec.prec else 1) -
        ((d.numeral n).length : Int))).toNat = d.precision.getD 1 - (d.numeral n).length := by
      unfold spec
      cases d.precision with
      | none => simp; omega
      | some p => simp; omega
    rw [if_neg (fun hc => h hc.symm), if_neg h, hmin]

theorem shown_zero (h : d.precision = some 0) : d.shown 0 = [] := by
  simp [shown, h]

/-- The digits and the prefix of `prepare_number`. The zero that `#` adds for `o` is a prefix
there. -/
theorem prepareNumber_spec {n : Nat} (hn : n < 2 ^ 64) :
    prepareNumber n d.conv d.spec.prec d.spec.flags = (d.digits n, d.alternate n) ∨
    ∃ ds, prepareNumber n d.conv d.spec.prec d.spec.flags = (ds, ['0']) ∧
      d.digits n = '0' :: ds ∧ d.alternate n = [] := by
  have halt : d.spec.flags.alt = decide ('#' ∈ d.flags) := rfl
  simp only [prepareNumber, d.precDigits_eq hn, halt, decide_eq_true_eq, prec_zero]
  by_cases hflag : '#' ∈ d.flags
  · rcases d.conv_cases with h | h | h | h | h | h
    · exact .inl (by simp [h, digits, alternate])
    · exact .inl (by simp [h, digits, alternate])
    · exact .inl (by simp [h, digits, alternate])
    · by_cases h0 : n = 0 ∧ d.precision = some 0
      · refine .inl ?_
        simp [h, hflag, digits, alternate, h0, d.shown_zero h0.2]
      · by_cases hhead : (d.shown n).head? = some '0'
        · exact .inl (by simp [h, hflag, digits, alternate, h0, hhead])
        · exact .inr ⟨d.shown n, by simp [h, hflag, h0, hhead], by simp [h, hflag, digits, hhead],
            by simp [h, alternate]⟩
    · exact .inl (by simp [h, hflag, digits, alternate])
    · exact .inl (by simp [h, hflag, digits, alternate])
  · exact .inl (by simp [hflag, digits, alternate])

theorem replicate_cons (k : Nat) (cs : List Char) :
    '0' :: (replicate k '0' ++ cs) = replicate k '0' ++ '0' :: cs := by
  rw [← cons_append, ← replicate_succ, replicate_succ', append_assoc]
  rfl

theorem intChars_c99 (a : BitVec 64) (hn : (d.value a).natAbs < 2 ^ 64) :
    intChars (d.sign (d.value a))
      (prepareNumber (d.value a).natAbs d.conv d.spec.prec d.spec.flags).2
      (prepareNumber (d.value a).natAbs d.conv d.spec.prec d.spec.flags).1
      d.spec.width d.spec.flags d.spec.prec = d.c99 a := by
  have hw : d.spec.width = (d.fieldWidth : Int) := rfl
  have hleft : d.spec.flags.left = d.leftAdjusted := rfl
  have hzero : d.spec.flags.zero = decide ('0' ∈ d.flags) := rfl
  rw [hw, intChars_eq, c99]
  rcases d.prepareNumber_spec hn with h | ⟨ds, h, hds, halt⟩
  · simp only [h, hleft, hzero, prec_neg, decide_eq_true_eq]
  · simp only [h, hds, halt, hleft, hzero, prec_neg, decide_eq_true_eq]
    simp [replicate_cons]

theorem value_bound (a : BitVec 64) : (d.value a).natAbs < 2 ^ 64 := by
  have hbits : d.lenMod.bits ≤ 64 := by cases d.lenMod <;> decide
  have hpow : 2 ^ d.lenMod.bits ≤ 2 ^ 64 := Nat.pow_le_pow_right (by decide) hbits
  unfold value argVal
  split_ifs
  · have hlt := BitVec.two_mul_toInt_lt (x := a.setWidth d.lenMod.bits)
    have hle := BitVec.le_two_mul_toInt (x := a.setWidth d.lenMod.bits)
    have hcast : ((2 ^ d.lenMod.bits : Nat) : Int) = 2 ^ d.lenMod.bits := by push_cast; rfl
    omega
  · omega

theorem isSigned_of_neg {a : BitVec 64} (h : d.value a < 0) : d.isSigned := by
  unfold value argVal at h
  split_ifs at h with hs
  · exact hs
  · omega

theorem absVal_eq (a : BitVec 64) :
    (if d.value a < 0 then (ofInt 64 (-d.value a)).toNat else (d.value a).toNat) =
      (d.value a).natAbs := by
  have hb := d.value_bound a
  split_ifs with h
  · rw [BitVec.toNat_ofInt, Int.emod_eq_of_lt (by omega) (by omega)]
    omega
  · omega

theorem printInt_spec (a : BitVec 64) {s : PFile} (h : s.text.length + (d.c99 a).length < s.size) :
    printInt d.spec a s = ⟨s.text ++ d.c99 a, s.size, s.count + (d.c99 a).length⟩ := by
  have hval : argVal (d.spec.conv = 'd' ∨ d.spec.conv = 'i') d.spec.lenMod a = d.value a := rfl
  have hsign : (if d.spec.conv = 'd' ∨ d.spec.conv = 'i' then
      if d.value a < 0 then ['-'] else if d.spec.flags.pos then ['+']
      else if d.spec.flags.space then [' '] else [] else []) = d.sign (d.value a) := by
    simp [sign, isSigned, spec]
  have hchars := d.intChars_c99 a (d.value_bound a)
  rw [← d.absVal_eq a] at hchars
  simp only [printInt, hval, hsign]
  rw [show d.spec.conv = d.conv from rfl, hchars, PFile.addAll_ok _ h]

/-! ## Reading a number back -/

theorem shown_spec (n : Nat) :
    (∀ c ∈ d.shown n, c ∈ digitChars) ∧ ofChars (baseOf d.conv) (d.shown n) = n := by
  unfold shown
  refine ⟨?_, ?_⟩
  · intro c hc
    rcases mem_append.mp hc with hc | hc
    · rw [eq_of_mem_replicate hc]
      decide
    · split_ifs at hc
      · cases hc
      · exact numeral_mem d n c hc
  · rw [ofChars_zeros]
    split_ifs with h
    · rw [h.1]
      rfl
    · exact ofChars_numeral d n

theorem digits_spec (n : Nat) :
    (∀ c ∈ d.digits n, c ∈ digitChars) ∧ ofChars (baseOf d.conv) (d.digits n) = n := by
  have h := d.shown_spec n
  unfold digits
  split_ifs
  · refine ⟨?_, ?_⟩
    · rintro c hc
      rcases mem_cons.mp hc with rfl | hc
      · decide
      · exact h.1 c hc
    · exact (ofChars_zeros _ 1 _).trans h.2
  · exact h

theorem c99_shape (a : BitVec 64) : ∃ left zeros right, d.c99 a =
    replicate left ' ' ++ (d.sign (d.value a) ++ (d.alternate (d.value a).natAbs ++
      (replicate zeros '0' ++
        (d.digits (d.value a).natAbs ++ replicate right ' ')))) := by
  simp only [c99, append_assoc]
  split_ifs
  · exact ⟨0, 0, _, rfl⟩
  · exact ⟨0, _, 0, by rw [replicate_zero, append_nil, nil_append]⟩
  · exact ⟨_, 0, 0, congrArg (replicate _ ' ' ++ ·) (by simp)⟩

theorem filter_alternate (n : Nat) :
    ∃ k, (d.alternate n).filter (· ∈ digitChars) = replicate k '0' := by
  unfold alternate
  split_ifs
  · exact ⟨1, by decide⟩
  · exact ⟨1, by decide⟩
  · exact ⟨0, rfl⟩
  · exact ⟨0, rfl⟩

theorem filter_sign (v : Int) : (d.sign v).filter (· ∈ digitChars) = [] := by
  unfold sign
  split_ifs <;> decide

theorem filter_c99 (a : BitVec 64) : ∃ k, (d.c99 a).filter (· ∈ digitChars) =
    replicate k '0' ++ d.digits (d.value a).natAbs := by
  obtain ⟨left, zeros, right, h⟩ := d.c99_shape a
  obtain ⟨k, hk⟩ := d.filter_alternate (d.value a).natAbs
  have hspace : decide (' ' ∈ digitChars) = false := by decide
  have hzero : decide ('0' ∈ digitChars) = true := by decide
  have hdigits := filter_eq_self.mpr fun c hc =>
    decide_eq_true ((d.digits_spec (d.value a).natAbs).1 c hc)
  refine ⟨k + zeros, ?_⟩
  rw [h]
  simp only [filter_append, d.filter_sign, hk, hdigits, filter_replicate, hspace, hzero]
  simp [← replicate_append_replicate]

theorem minus_mem_c99 (a : BitVec 64) : '-' ∈ d.c99 a ↔ d.value a < 0 := by
  obtain ⟨left, zeros, right, h⟩ := d.c99_shape a
  have hdigits : '-' ∉ d.digits (d.value a).natAbs := fun hc =>
    absurd ((d.digits_spec _).1 _ hc) (by decide)
  have halt : '-' ∉ d.alternate (d.value a).natAbs := by
    unfold alternate
    split_ifs <;> decide
  have hsign : '-' ∈ d.sign (d.value a) ↔ d.value a < 0 := by
    unfold sign
    by_cases hneg : d.value a < 0
    · simp [hneg, d.isSigned_of_neg hneg]
    · simp only [hneg, if_false, iff_false]
      split_ifs <;> decide
  rw [h]
  simp [hdigits, halt, hsign]

theorem readBack_c99 (a : BitVec 64) : readBack (baseOf d.conv) (d.c99 a) = d.value a := by
  obtain ⟨k, hk⟩ := d.filter_c99 a
  have hn : ofChars (baseOf d.conv) ((d.c99 a).filter (· ∈ digitChars)) = (d.value a).natAbs := by
    rw [hk, ofChars_zeros, (d.digits_spec _).2]
  simp only [readBack, hn, d.minus_mem_c99]
  split_ifs <;> omega

end Directive

/-- For every specification of an integer conversion and every argument, a buffer with room gets
the text that C99 prescribes, and the text stands for the value of the argument. -/
theorem vsnprintk_c99 (other : FmtSpec → Args → PFile → Option (Except PFile (Args × PFile)))
    (d : Directive) (a : BitVec 64) (rest : Args) (size : Nat) (hsize : (d.c99 a).length < size) :
    vsnprintk other size d.text (d.args ++ a :: rest) =
      some (d.c99 a ++ ['\x00'], (d.c99 a).length) ∧
    readBack (baseOf d.conv) (d.c99 a) = d.value a := by
  refine ⟨?_, d.readBack_c99 a⟩
  have hparse := d.parseFmtSpec_text (a :: rest)
  have hprint := d.printInt_spec a (s := ⟨[], size, 0⟩) (by simpa using hsize)
  have hconv : d.spec.conv ∈ intConvs := d.conv_mem
  rw [vsnprintk, if_neg (by omega)]
  by_cases hroom : size - 1 ≤ 0
  · have hnil : d.c99 a = [] := eq_nil_of_length_eq_zero (by omega)
    simp [hroom, hnil]
  · simp [hroom, Directive.text, vfprintkLoop, hparse, hconv, hprint]

/-- `%+*ld`, with 24 for the width. -/
def plusStarLong : Directive :=
  ⟨['+'], .star 24, .absent, .l,
    'd', by simp [flagChars], ⟨by decide, fun _ => by decide⟩, trivial, by decide⟩

theorem vsnprintk_least : plusStarLong.value (2 ^ 63) = -2 ^ 63 ∧
    vsnprintk (fun _ _ _ => none) 32 "%+*ld".toList [24, 2 ^ 63] =
      some ("    -9223372036854775808\x00".toList, 24) := by
  have hc99 : plusStarLong.c99 (2 ^ 63) = "    -9223372036854775808".toList := by decide +kernel
  have h := (vsnprintk_c99 (fun _ _ _ => none) plusStarLong (2 ^ 63) [] 32
    (by rw [hc99]; decide +kernel)).1
  rw [hc99] at h
  exact ⟨by decide +kernel, h⟩

end ShiziOS.Util.Kio
