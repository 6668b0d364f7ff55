import Xinu.Foundations.NullTerminated
import Mathlib.Data.List.Basic
import Mathlib.Data.Nat.Digits.Lemmas

/-!
# Formatted printing

Embedding of `lib/fdoprnt.c` and `lib/sprintf.c`.  All arguments are passed as 4 bytes,
and `long` is `int`: both are 32-bit words here, read as signed ones.

Main results:

- Theorem `prtl10_eq`: what `_prtl10` stores for a number that is not negative.
- Theorem `spells_sprintf`: the string that `sprintf` leaves is what `_fdoprnt` hands to
  its output function.
-/

namespace Xinu
namespace Lib

open Foundations Function

/-- The code of a character. -/
abbrev code (c : Char) : UInt8 :=
  c.toUInt8

/-! ## Digits of a number -/

/-- What fills `temp[1]`, `temp[2]`, …: `n` digits of `num`, from the last one on. -/
def tempDigits (digit : BitVec 32 → UInt8) (rest : BitVec 32 → BitVec 32) :
    Nat → BitVec 32 → List UInt8
  | 0, _ => []
  | n + 1, num => digit num :: tempDigits digit rest n (rest num)

/-- The characters that are stored from `str` on: the loops that step over the zeros at the
end of `temp` and copy the rest of it backwards.  `temp[0]` is the null character. -/
def storeDigits (temp : List UInt8) : List UInt8 :=
  match temp.reverse.dropWhile (· = code '0') with
  | [] => temp.take 1 ++ [0]
  | d :: ds => d :: ds ++ [0]

/-- A word that is stored into a `char`. -/
def toChar (w : BitVec 32) : UInt8 :=
  UInt8.ofBitVec (w.setWidth 8)

/-- `_prtl10` -/
def prtl10 (num : BitVec 32) : List UInt8 :=
  storeDigits
    (tempDigits (fun num => toChar (num.srem 10 + 48)) (fun num => num.sdiv 10) 10 num)

/-- `_prtl8`, of whose last octal digit only two bits are left -/
def prtl8 (num : BitVec 32) : List UInt8 :=
  let temp := tempDigits (fun num => toChar ((num &&& 7) + 48)) (fun num => num.sshiftRight 3)
    11 num
  storeDigits (temp.modify 10 (· &&& code '3'))

/-- The digit of four bits, with the letters that begin at `a`. -/
def hexDigit (a : UInt8) (num : BitVec 32) : UInt8 :=
  let d := toChar (num &&& 0x0F)
  if d < 10 then code '0' + d else a + (d - 10)

/-- `_prtl16` -/
def prtl16 (num : BitVec 32) : List UInt8 :=
  storeDigits (tempDigits (hexDigit (code 'a')) (fun num => num.sshiftRight 4) 8 num)

/-- `_prtX16` -/
def prtX16 (num : BitVec 32) : List UInt8 :=
  storeDigits (tempDigits (hexDigit (code 'A')) (fun num => num.sshiftRight 4) 8 num)

/-- `_prtl2` -/
def prtl2 (num : BitVec 32) : List UInt8 :=
  storeDigits (tempDigits (fun num => if num.srem 2 = 0 then code '0' else code '1')
    (fun num => num.sshiftRight 1) 32 num)

/-! ## Directives -/

/-- The arguments from `ap` on. -/
abbrev VaList := Nat → BitVec 32

/-- The list behind the first argument. -/
def VaList.rest (ap : VaList) : VaList :=
  fun i => ap (i + 1)

def maxstr : Int := 80

def IsDigit (c : UInt8) : Prop :=
  code '0' ≤ c ∧ c ≤ code '9'

instance (c : UInt8) : Decidable (IsDigit c) :=
  inferInstanceAs (Decidable (_ ∧ _))

/-- A field specification in decimal digits. -/
def fieldDigits : List UInt8 → BitVec 32 → BitVec 32 × List UInt8
  | [], field => (field, [])
  | c :: fmt, field =>
      if IsDigit c then
        fieldDigits fmt (field * 10 + (c.toBitVec.setWidth 32 - 48))
      else (field, c :: fmt)

/-- A field specification, which `*` takes from the arguments. -/
def field (fmt : List UInt8) (ap : VaList) : BitVec 32 × List UInt8 × VaList :=
  if fmt.head? = some (code '*') then (ap 0, fmt.tail, ap.rest)
  else
    let (n, rest) := fieldDigits fmt 0
    (n, rest, ap)

/-- What stands between `%` and the format character. -/
structure Directive where
  /-- `false` = right-justified, else left-just -/
  leftjust : Bool
  /-- Fill character (`' '` or `'0'`) -/
  fill : UInt8
  fmin : BitVec 32
  fmax : BitVec 32
  /-- The format from the format character on. -/
  fmt : List UInt8
  ap : VaList

/-- A flag, which is stepped over if it is there. -/
def flag (c : UInt8) (fmt : List UInt8) : Bool × List UInt8 :=
  if fmt.head? = some c then (true, fmt.tail) else (false, fmt)

def directive (fmt : List UInt8) (ap : VaList) : Directive :=
  let left := flag (code '-') fmt
  let zero := flag (code '0') left.2
  let min := field zero.2 ap
  let point := flag (code '.') min.2.1
  let max := if point.1 then field point.2 min.2.2 else (0, min.2)
  { leftjust := left.1, fill := if zero.1 then code '0' else code ' ', fmin := min.1,
    fmax := max.1, fmt := max.2.1, ap := max.2.2 }

/-! ## Conversions -/

/-- What the `switch` over the format character leaves. -/
structure Conversion where
  /-- What has been written already. -/
  written : List UInt8
  /-- The text that `str` points to. -/
  str : List UInt8
  /-- The text in the buffer `string`. -/
  string : List UInt8
  /-- The sign is `'-'`. -/
  negative : Bool
  fill : UInt8
  fmax : BitVec 32
  ap : VaList

/-- The text that characters spell which are stored into `string`. -/
def text (stored : List UInt8) : List UInt8 :=
  stored.takeWhile (· ≠ 0)

/-- `while (larg < 0) { larg -= 1000000000L; ++digit1; }` -/
def unsignedLoop (larg : BitVec 32) (digit1 : UInt8) : BitVec 32 × UInt8 :=
  if larg.toInt < 0 then unsignedLoop (larg - 1000000000) (digit1 + 1)
  else (larg, digit1)
termination_by larg.toNat
decreasing_by
  rw [BitVec.toInt_eq_toNat_cond] at *
  bv_omega

/-- The conversion of a number by one of the functions `_prtl`, which ignores `fmax`. -/
def Directive.base (d : Directive) (prtl : BitVec 32 → List UInt8) : Conversion :=
  let str := text (prtl (d.ap 0))
  { written := [], str, string := str, negative := false, fill := d.fill, fmax := 0,
    ap := d.ap.rest }

/-- The `switch`.  `deref` gives the string that an address points to; `string` is the text
that the conversion before has left. -/
def Directive.convert (deref : BitVec 32 → List UInt8) (d : Directive) (f : UInt8)
    (string : List UInt8) : Conversion :=
  if f = code 'c' then
    let str := text [toChar (d.ap 0), 0]
    { written := [], str, string := str, negative := false, fill := code ' ', fmax := 0,
      ap := d.ap.rest }
  else if f = code 's' then
    { written := [],
      str := if d.ap 0 = 0 then ['(', 'n', 'u', 'l', 'l', ')'].map code else deref (d.ap 0),
      string, negative := false, fill := code ' ', fmax := d.fmax, ap := d.ap.rest }
  else if f = code 'd' then
    let larg := d.ap 0
    let str := text (prtl10 (if larg.toInt < 0 then -larg else larg))
    { written := [], str, string := str, negative := decide (larg.toInt < 0), fill := d.fill,
      fmax := d.fmax, ap := d.ap.rest }
  else if f = code 'u' then
    let (larg, digit1) := unsignedLoop (d.ap 0) 0
    d.base fun _ => (prtl10 larg).modify 0 (· + digit1)
  else if f = code 'o' then d.base prtl8
  else if f = code 'X' then d.base prtX16
  else if f = code 'x' then d.base prtl16
  else if f = code 'b' then d.base prtl2
  else
    { written := [f], str := string, string, negative := false, fill := d.fill,
      fmax := d.fmax, ap := d.ap }

/-- `if (n > MAXSTR || n < 0) n = 0;` -/
def clip (n : BitVec 32) : Int :=
  if maxstr < n.toInt ∨ n.toInt < 0 then 0 else n.toInt

/-- What is written for a conversion: the text, of the field's width. -/
def Conversion.emit (v : Conversion) (leftjust : Bool) (fmin : BitVec 32) : List UInt8 :=
  let fmin := clip fmin
  let fmax := clip v.fmax
  let length : Int := if fmax ≠ 0 ∧ fmax < v.str.length then fmax else v.str.length
  let leading : Int := if fmin ≠ 0 then fmin - length else 0
  let leading := if (fmax ≠ 0 ∨ fmin ≠ 0) ∧ v.negative then leading - 1 else leading
  let filling := List.replicate leading.toNat v.fill
  let sign := if v.negative then [code '-'] else []
  v.written ++ (if v.fill = code '0' then sign else []) ++ (if leftjust then [] else filling) ++
    (if v.fill = code ' ' then sign else []) ++ v.str.take length.toNat ++
    (if leftjust then filling else [])

/-! ## The print engine -/

theorem length_fieldDigits_le (fmt : List UInt8) (n : BitVec 32) :
    (fieldDigits fmt n).2.length ≤ fmt.length := by
  induction fmt generalizing n with
  | nil => exact Nat.le_refl _
  | cons c fmt ih =>
      unfold fieldDigits
      split
      · exact Nat.le_succ_of_le (ih _)
      · exact Nat.le_refl _

theorem length_field_le (fmt : List UInt8) (ap : VaList) :
    (field fmt ap).2.1.length ≤ fmt.length := by
  unfold field
  split
  · simp
  · exact length_fieldDigits_le fmt 0

theorem length_flag_le (c : UInt8) (fmt : List UInt8) : (flag c fmt).2.length ≤ fmt.length := by
  unfold flag
  split
  · simp
  · exact Nat.le_refl _

/-- The format gets no longer. -/
theorem length_directive_le (fmt : List UInt8) (ap : VaList) :
    (directive fmt ap).fmt.length ≤ fmt.length := by
  have hzero : (flag (code '0') (flag (code '-') fmt).2).2.length ≤ fmt.length :=
    Nat.le_trans (length_flag_le _ _) (length_flag_le _ _)
  have hmin := Nat.le_trans (length_field_le (flag (code '0') (flag (code '-') fmt).2).2 ap) hzero
  unfold directive
  dsimp only
  split
  · exact Nat.le_trans (length_field_le _ _) (Nat.le_trans (length_flag_le _ _) hmin)
  · exact hmin

/-- The characters that `_fdoprnt` hands to `func`, one after another. -/
def fdoprnt (deref : BitVec 32 → List UInt8) (fmt : List UInt8) (ap : VaList)
    (string : List UInt8) : List UInt8 :=
  match fmt with
  | [] => []
  | c :: fmt =>
      if c ≠ code '%' then c :: fdoprnt deref fmt ap string
      else if fmt.head? = some (code '%') then
        code '%' :: fdoprnt deref fmt.tail ap string
      else
        let d := directive fmt ap
        let f := d.fmt.headD 0
        if f = 0 then [code '%']
        else
          let v := d.convert deref f string
          v.emit d.leftjust d.fmin ++ fdoprnt deref d.fmt.tail v.ap v.string
termination_by fmt.length
decreasing_by
  · simp
  · simp
  · have hle : (directive fmt ap).fmt.length ≤ fmt.length := length_directive_le fmt ap
    simp only [List.length_tail, List.length_cons]
    omega

/-- `sprntf`: `*(*cpp)++ = c;` on the pointer and the memory. -/
def sprntf (cpp : Nat × Chars) (c : UInt8) : Nat × Chars :=
  (cpp.1 + 1, update cpp.2 cpp.1 c)

/-- `sprintf` into the memory from `str` on.  `string` is the text that the uninitialized
buffer of `_fdoprnt` holds. -/
def sprintf (deref : BitVec 32 → List UInt8) (string : List UInt8) (str : Chars)
    (fmt : List UInt8) (ap : VaList) : Chars :=
  let s := (fdoprnt deref fmt ap string).foldl sprntf (0, str)
  update s.2 s.1 0

/-! ## Numerals -/

section Numerals

variable {b : Nat} {digit : Nat → UInt8}

/-- The shortest numeral of a number in base `b`. -/
def numeral (b : Nat) (digit : Nat → UInt8) (n : Nat) : List UInt8 :=
  if n = 0 then [digit 0] else ((Nat.digits b n).map digit).reverse

/-- The last `k` digits of a number, from the last one on. -/
def lastDigits (b : Nat) (digit : Nat → UInt8) : Nat → Nat → List UInt8
  | 0, _ => []
  | k + 1, n => digit (n % b) :: lastDigits b digit k (n / b)

theorem lastDigits_eq (hb : 1 < b) {k n : Nat} (h : n < b ^ k) :
    lastDigits b digit k n =
      (Nat.digits b n).map digit ++ List.replicate (k - (Nat.digits b n).length) (digit 0) := by
  induction k generalizing n with
  | zero =>
      have hn : n = 0 := by simpa using h
      simp [lastDigits, hn]
  | succ k ih =>
      have hdiv : n / b < b ^ k := by
        rw [Nat.div_lt_iff_lt_mul (by omega)]
        rwa [Nat.pow_succ] at h
      rw [lastDigits, ih hdiv]
      rcases Nat.eq_zero_or_pos n with rfl | hpos
      · simp [List.replicate_succ]
      · rw [Nat.digits_def' hb hpos]
        simp

/-- The digits that are stored are those of the shortest numeral. -/
theorem storeDigits_lastDigits (hb : 1 < b) (hzero : digit 0 = code '0')
    (hdigit : ∀ d < b, d ≠ 0 → digit d ≠ code '0') {k n : Nat} (hk : 0 < k) (h : n < b ^ k) :
    storeDigits (lastDigits b digit k n) = numeral b digit n ++ [0] := by
  rw [lastDigits_eq hb h, hzero]
  unfold storeDigits numeral
  rw [List.reverse_append, List.reverse_replicate,
    List.dropWhile_append_of_pos (by simp)]
  by_cases hn : n = 0
  · obtain ⟨k, rfl⟩ : ∃ m, k = m + 1 := ⟨k - 1, by omega⟩
    simp [hn, hzero, List.replicate_succ]
  · have hne : Nat.digits b n ≠ [] := Nat.digits_ne_nil_iff_ne_zero.mpr hn
    obtain ⟨init, last, hdigits⟩ : ∃ init last, Nat.digits b n = init ++ [last] :=
      ⟨_, _, (List.dropLast_append_getLast hne).symm⟩
    have hmem : last ∈ Nat.digits b n := by simp [hdigits]
    have hlast : last ≠ 0 := by
      have hnot := Nat.getLast_digit_ne_zero b hn
      simpa [hdigits] using hnot
    have hstop : digit last ≠ code '0' := hdigit last (Nat.digits_lt_base hb hmem) hlast
    rw [if_neg hn, hdigits]
    simp [hstop]

/-- The characters of a numeral are those of digits. -/
theorem mem_numeral {n : Nat} {f : UInt8} (hb : 1 < b) (h : f ∈ numeral b digit n) :
    ∃ d < b, f = digit d := by
  unfold numeral at h
  split at h
  · exact ⟨0, by omega, List.mem_singleton.mp h⟩
  · rw [List.mem_reverse, List.mem_map] at h
    obtain ⟨d, hd, rfl⟩ := h
    exact ⟨d, Nat.digits_lt_base hb hd, rfl⟩

theorem text_numeral {n : Nat} (hb : 1 < b) (h : ∀ d < b, digit d ≠ 0) :
    text (numeral b digit n ++ [0]) = numeral b digit n := by
  unfold text
  rw [List.takeWhile_append_of_pos]
  · simp
  · intro f hf
    obtain ⟨d, hd, rfl⟩ := mem_numeral hb hf
    exact decide_eq_true (h d hd)

end Numerals

/-! ## Decimal numerals -/

/-- The character of a decimal digit. -/
def decimalDigit (d : Nat) : UInt8 :=
  UInt8.ofNat (d + 48)

/-- The shortest decimal numeral. -/
def decimal (n : Nat) : List UInt8 :=
  numeral 10 decimalDigit n

theorem msb_of_lt {w : BitVec 32} (h : w.toNat < 0x80000000) : w.msb = false := by
  rw [BitVec.msb_eq_false_iff_two_mul_lt]
  omega

theorem srem_ten {w : BitVec 32} (h : w.toNat < 0x80000000) :
    toChar (w.srem 10 + 48) = decimalDigit (w.toNat % 10) := by
  apply UInt8.toNat.inj
  rw [BitVec.srem_eq, msb_of_lt h, show (10 : BitVec 32).msb = false from rfl]
  have hten : (10 : BitVec 32).toNat = 10 := rfl
  have hzero : (48 : BitVec 32).toNat = 48 := rfl
  unfold toChar decimalDigit
  simp only [UInt8.toNat_ofBitVec, BitVec.toNat_setWidth, BitVec.toNat_add, BitVec.toNat_umod,
    UInt8.toNat_ofNat', hten, hzero]
  omega

theorem sdiv_ten {w : BitVec 32} (h : w.toNat < 0x80000000) :
    (w.sdiv 10).toNat = w.toNat / 10 := by
  rw [BitVec.sdiv_eq, msb_of_lt h, show (10 : BitVec 32).msb = false from rfl]
  exact BitVec.toNat_udiv

theorem tempDigits_decimal (k : Nat) {num : BitVec 32} (h : num.toNat < 0x80000000) :
    tempDigits (fun num => toChar (num.srem 10 + 48)) (fun num => num.sdiv 10) k num =
      lastDigits 10 decimalDigit k num.toNat := by
  induction k generalizing num with
  | zero => rfl
  | succ k ih =>
      have hdiv : (num.sdiv 10).toNat = num.toNat / 10 := sdiv_ten h
      rw [tempDigits, lastDigits, srem_ten h, ih (by omega), hdiv]

/-- A number that is not negative is stored in as few digits as it has. -/
theorem prtl10_eq {num : BitVec 32} (h : num.toNat < 0x80000000) :
    prtl10 num = decimal num.toNat ++ [0] := by
  unfold prtl10 decimal
  rw [tempDigits_decimal 10 h]
  apply storeDigits_lastDigits (by decide) (by decide) _ (by decide) (by omega)
  decide

theorem isDigit_decimalDigit {d : Nat} (h : d < 10) : IsDigit (decimalDigit d) := by
  decide +revert

/-- A decimal numeral consists of digits. -/
theorem isDigit_of_mem_decimal {n : Nat} {c : UInt8} (h : c ∈ decimal n) : IsDigit c := by
  obtain ⟨d, hd, rfl⟩ := mem_numeral (by decide) h
  exact isDigit_decimalDigit hd

theorem IsDigit.ne_zero {c : UInt8} (h : IsDigit c) : c ≠ 0 := by
  rintro rfl
  exact absurd h (by decide)

theorem text_prtl10 {num : BitVec 32} (h : num.toNat < 0x80000000) :
    text (prtl10 num) = decimal num.toNat := by
  rw [prtl10_eq h]
  exact text_numeral (by decide) fun d hd => (isDigit_decimalDigit hd).ne_zero

/-! ## What is printed -/

section Printed

variable {deref : BitVec 32 → List UInt8} {fmt : List UInt8} {ap : VaList} {string : List UInt8}

theorem fdoprnt_nil : fdoprnt deref [] ap string = [] := by
  rw [fdoprnt]

/-- Characters other than `%` are echoed. -/
theorem fdoprnt_echo {c : UInt8} (h : c ≠ code '%') :
    fdoprnt deref (c :: fmt) ap string = c :: fdoprnt deref fmt ap string := by
  rw [fdoprnt, if_pos h]

/-- A format character that follows the `%` at once. -/
theorem directive_plain {f : UInt8} (hflags : f ≠ code '-' ∧ f ≠ code '*' ∧ f ≠ code '.')
    (hdigit : ¬ IsDigit f) :
    directive (f :: fmt) ap =
      { leftjust := false, fill := code ' ', fmin := 0, fmax := 0, fmt := f :: fmt, ap } := by
  have hzero : f ≠ code '0' := by
    rintro rfl
    exact hdigit (by decide)
  simp [directive, flag, field, fieldDigits, hflags, hdigit, hzero]

/-- Without a field width, the text is written as it is. -/
theorem emit_plain (str string : List UInt8) (fill : UInt8) (ap : VaList) (leftjust : Bool) :
    Conversion.emit { written := [], str, string, negative := false, fill, fmax := 0, ap }
      leftjust 0 = str := by
  have hclip : clip 0#32 = 0 := by decide
  simp [Conversion.emit, hclip]

/-! ### Field widths -/

/-- A text in a field of a least width, filled on the left. -/
def padded (fill : UInt8) (width : Nat) (str : List UInt8) : List UInt8 :=
  List.replicate (width - str.length) fill ++ str

/-- The value of a digit in a format. -/
def digitWord (d : UInt8) : BitVec 32 :=
  d.toBitVec.setWidth 32 - 48

/-- A field width of one digit. -/
theorem directive_width {d f : UInt8} (hd : IsDigit d) (hzero : d ≠ code '0')
    (hpoint : f ≠ code '.') (hdigit : ¬ IsDigit f) :
    directive (d :: f :: fmt) ap =
      { leftjust := false, fill := code ' ', fmin := digitWord d, fmax := 0, fmt := f :: fmt,
        ap } := by
  have hflags : d ≠ code '-' ∧ d ≠ code '*' := by
    constructor
    all_goals
      rintro rfl
      exact absurd hd (by decide)
  simp [directive, flag, field, fieldDigits, digitWord, hflags, hd, hzero, hpoint, hdigit]

/-- A field width of one digit, to be filled with zeros. -/
theorem directive_zero_width {d f : UInt8} (hd : IsDigit d) (hpoint : f ≠ code '.')
    (hdigit : ¬ IsDigit f) :
    directive (code '0' :: d :: f :: fmt) ap =
      { leftjust := false, fill := code '0', fmin := digitWord d, fmax := 0, fmt := f :: fmt,
        ap } := by
  have hminus : code '0' ≠ code '-' := by decide
  have hstar : d ≠ code '*' := by
    rintro rfl
    exact absurd hd (by decide)
  simp [directive, flag, field, fieldDigits, digitWord, hminus, hstar, hd, hpoint, hdigit]

/-- With a field width, the text is filled on the left. -/
theorem emit_width {str string : List UInt8} {fill : UInt8} {ap : VaList} {fmin : BitVec 32}
    {width : Nat} (hwidth : clip fmin = width) (hpos : 0 < width) :
    Conversion.emit { written := [], str, string, negative := false, fill, fmax := 0, ap }
      false fmin = padded fill width str := by
  have hclip : clip 0#32 = 0 := by decide
  have hne : width ≠ 0 := by omega
  have hfill : ((width : Int) - str.length).toNat = width - str.length := by omega
  simp [Conversion.emit, hclip, hwidth, hne, hfill, padded]

/-- What a directive writes is followed by what the rest of the format prints. -/
theorem fdoprnt_directive {d : Directive} {f : UInt8} {rest : List UInt8}
    (hpercent : fmt.head? ≠ some (code '%')) (hd : directive fmt ap = d)
    (hf : d.fmt = f :: rest) (hzero : f ≠ 0) :
    fdoprnt deref (code '%' :: fmt) ap string =
      (d.convert deref f string).emit d.leftjust d.fmin ++
        fdoprnt deref rest (d.convert deref f string).ap (d.convert deref f string).string := by
  rw [fdoprnt, if_neg (by decide), if_neg hpercent]
  simp only [hd, hf, List.headD_cons, List.tail_cons, if_neg hzero]

/-- `%s` hands on the string that an address points to. -/
theorem convert_string {d : Directive} (haddress : d.ap 0 ≠ 0) :
    d.convert deref (code 's') string =
      { written := [], str := deref (d.ap 0), string, negative := false, fill := code ' ',
        fmax := d.fmax, ap := d.ap.rest } := by
  have hc : ¬ code 's' = code 'c' := by decide
  simp only [Directive.convert, if_neg hc, if_pos, if_neg haddress]

/-- `%d` makes the shortest numeral of a number that is not negative. -/
theorem convert_decimal {d : Directive} (h : (d.ap 0).toNat < 0x80000000) :
    d.convert deref (code 'd') string =
      { written := [], str := decimal (d.ap 0).toNat, string := decimal (d.ap 0).toNat,
        negative := false, fill := d.fill, fmax := d.fmax, ap := d.ap.rest } := by
  have hpos : ¬ (d.ap 0).toInt < 0 := by
    rw [BitVec.toInt_eq_toNat_of_msb (msb_of_lt h)]
    omega
  have hc : ¬ code 'd' = code 'c' := by decide
  have hs : ¬ code 'd' = code 's' := by decide
  simp only [Directive.convert, if_neg hc, if_neg hs, if_pos, if_neg hpos, text_prtl10 h,
    decide_eq_false hpos]

/-- `%s` prints a string as it is. -/
theorem fdoprnt_string (haddress : ap 0 ≠ 0) :
    fdoprnt deref (code '%' :: code 's' :: fmt) ap string =
      deref (ap 0) ++ fdoprnt deref fmt ap.rest string := by
  have hs : code 's' ≠ code '-' ∧ code 's' ≠ code '*' ∧ code 's' ≠ code '.' := by decide
  rw [fdoprnt_directive (by simp; decide) (directive_plain hs (by decide)) rfl (by decide),
    convert_string haddress, emit_plain]

/-- `%d` prints a number that is not negative as its shortest numeral. -/
theorem fdoprnt_decimal (h : (ap 0).toNat < 0x80000000) :
    fdoprnt deref (code '%' :: code 'd' :: fmt) ap string =
      decimal (ap 0).toNat ++ fdoprnt deref fmt ap.rest (decimal (ap 0).toNat) := by
  have hd : code 'd' ≠ code '-' ∧ code 'd' ≠ code '*' ∧ code 'd' ≠ code '.' := by decide
  rw [fdoprnt_directive (by simp; decide) (directive_plain hd (by decide)) rfl (by decide),
    convert_decimal h, emit_plain]

/-- `%3s` and its kind print a string in a field. -/
theorem fdoprnt_string_width {d : UInt8} {width : Nat} (hd : IsDigit d) (hzero : d ≠ code '0')
    (hwidth : clip (digitWord d) = width) (hpos : 0 < width) (haddress : ap 0 ≠ 0) :
    fdoprnt deref (code '%' :: d :: code 's' :: fmt) ap string =
      padded (code ' ') width (deref (ap 0)) ++ fdoprnt deref fmt ap.rest string := by
  have hpercent : d ≠ code '%' := by
    rintro rfl
    exact absurd hd (by decide)
  rw [fdoprnt_directive (by simpa using hpercent)
      (directive_width hd hzero (by decide) (by decide)) rfl (by decide),
    convert_string haddress, emit_width hwidth hpos]

/-- `%2d` and its kind print a number in a field. -/
theorem fdoprnt_decimal_width {d : UInt8} {width : Nat} (hd : IsDigit d)
    (hzero : d ≠ code '0') (hwidth : clip (digitWord d) = width) (hpos : 0 < width)
    (h : (ap 0).toNat < 0x80000000) :
    fdoprnt deref (code '%' :: d :: code 'd' :: fmt) ap string =
      padded (code ' ') width (decimal (ap 0).toNat) ++
        fdoprnt deref fmt ap.rest (decimal (ap 0).toNat) := by
  have hpercent : d ≠ code '%' := by
    rintro rfl
    exact absurd hd (by decide)
  rw [fdoprnt_directive (by simpa using hpercent)
      (directive_width hd hzero (by decide) (by decide)) rfl (by decide),
    convert_decimal h, emit_width hwidth hpos]

/-- `%02d` and its kind print a number in a field that is filled with zeros. -/
theorem fdoprnt_decimal_zeros {d : UInt8} {width : Nat} (hd : IsDigit d)
    (hwidth : clip (digitWord d) = width) (hpos : 0 < width) (h : (ap 0).toNat < 0x80000000) :
    fdoprnt deref (code '%' :: code '0' :: d :: code 'd' :: fmt) ap string =
      padded (code '0') width (decimal (ap 0).toNat) ++
        fdoprnt deref fmt ap.rest (decimal (ap 0).toNat) := by
  rw [fdoprnt_directive (by simp; decide)
      (directive_zero_width hd (by decide) (by decide)) rfl (by decide),
    convert_decimal h, emit_width hwidth hpos]

/-! ## `sprintf` -/

theorem foldl_sprntf (out : List UInt8) (i : Nat) (b : Chars) :
    (out.foldl sprntf (i, b)).1 = i + out.length ∧
      (∀ j (hj : j < out.length), (out.foldl sprntf (i, b)).2 (i + j) = out[j]) ∧
        ∀ j < i, (out.foldl sprntf (i, b)).2 j = b j := by
  induction out generalizing i b with
  | nil => simp
  | cons c out ih =>
      obtain ⟨hend, hchars, hsame⟩ := ih (i + 1) (update b i c)
      rw [List.foldl_cons, show sprntf (i, b) c = (i + 1, update b i c) from rfl]
      refine ⟨by rw [hend, List.length_cons]; omega, ?_, ?_⟩
      · intro j hj
        cases j with
        | zero =>
            exact (hsame i (Nat.lt_succ_self i)).trans (update_self i c b)
        | succ j =>
            have hnext := hchars j (Nat.lt_of_succ_lt_succ hj)
            rwa [Nat.add_assoc, Nat.add_comm 1 j] at hnext
      · intro j hj
        rw [hsame j (by omega), update_of_ne (by omega)]

/-- The string that `sprintf` leaves. -/
theorem spells_sprintf {str : Chars} (h : 0 ∉ fdoprnt deref fmt ap string) :
    Spells (sprintf deref string str fmt ap) (fdoprnt deref fmt ap string) := by
  obtain ⟨hend, hchars, -⟩ := foldl_sprntf (fdoprnt deref fmt ap string) 0 str
  rw [Nat.zero_add] at hend
  unfold sprintf
  constructor
  · intro i hi
    rw [hend, update_of_ne (Nat.ne_of_lt hi), ← hchars i hi, Nat.zero_add]
  · rw [hend, update_self]
  · exact h

end Printed

end Lib
end Xinu
