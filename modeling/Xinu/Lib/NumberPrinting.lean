import Xinu.Lib.FormattedPrint

/-!
# Printing numbers

Each base has its own digit loop over signed words.  Here the loops are compared with the
shortest numerals, and what they store with the buffer of `_fdoprnt`.

Main results:

- Theorem `tempDigits_shift`: arithmetic shifts give the digits of the unsigned number.
- Theorem `prints_numeral_iff`: which conversions print the numeral and stay inside the
  buffer.
-/

namespace Xinu
namespace Lib

open Foundations Function

/-! ## Last digits -/

section LastDigits

variable {b k n n' : Nat} {digit : Nat → UInt8}

theorem length_lastDigits (b k n : Nat) (digit : Nat → UInt8) :
    (lastDigits b digit k n).length = k := by
  induction k generalizing n with
  | zero => rfl
  | succ k ih => rw [lastDigits, List.length_cons, ih]

/-- One more digit behind the others. -/
theorem lastDigits_snoc (b k n : Nat) (digit : Nat → UInt8) :
    lastDigits b digit (k + 1) n = lastDigits b digit k n ++ [digit (n / b ^ k % b)] := by
  induction k generalizing n with
  | zero => simp [lastDigits]
  | succ k ih =>
      rw [lastDigits, ih, lastDigits, List.cons_append, Nat.div_div_eq_div_mul, Nat.pow_succ']

theorem lastDigits_add (hb : 0 < b) (k n c : Nat) :
    lastDigits b digit k (n + c * b ^ k) = lastDigits b digit k n := by
  induction k generalizing n c with
  | zero => rfl
  | succ k ih =>
      have hmul : n + c * b ^ (k + 1) = n + b * (c * b ^ k) := by
        rw [Nat.pow_succ]
        ring
      rw [lastDigits, lastDigits, hmul, Nat.add_mul_mod_self_left, Nat.add_mul_div_left _ _ hb, ih]

/-- The numeral of a number with `k + 1` digits. -/
theorem numeral_lead (hb : 1 < b) (hlo : b ^ k ≤ n) (hhi : n < b ^ (k + 1)) :
    numeral b digit n = digit (n / b ^ k) :: (lastDigits b digit k n).reverse := by
  have hpos : 0 < b ^ k := Nat.pow_pos (by omega)
  have hlen : k < (Nat.digits b n).length := (Nat.lt_digits_length_iff hb n).mpr hlo
  have hlast : lastDigits b digit (k + 1) n = _ := lastDigits_eq hb hhi
  rw [Nat.sub_eq_zero_of_le hlen, List.replicate_zero, List.append_nil, lastDigits_snoc] at hlast
  have hquot : n / b ^ k < b := by
    rw [Nat.div_lt_iff_lt_mul hpos, ← Nat.pow_succ']
    exact hhi
  unfold numeral
  rw [if_neg (by omega), ← hlast, List.reverse_append, Nat.mod_eq_of_lt hquot]
  rfl

end LastDigits

/-! ## Digits by shifts -/

section Shifts

variable {g : Nat → UInt8} {digit : BitVec 32 → UInt8} {s k n : Nat} {num : BitVec 32}

theorem sshiftRight_mod (h : s * (k + 1) ≤ 32)
    (hn : num.toNat % 2 ^ (s * (k + 1)) = n % 2 ^ (s * (k + 1))) :
    (num.sshiftRight s).toNat % 2 ^ (s * k) = n / 2 ^ s % 2 ^ (s * k) := by
  rw [Nat.mul_succ] at h hn
  apply Nat.eq_of_testBit_eq
  intro i
  rw [Nat.testBit_mod_two_pow, Nat.testBit_mod_two_pow, Nat.testBit_div_two_pow]
  by_cases hi : i < s * k
  · have hbit := congrArg (fun m => m.testBit (i + s)) hn
    simp only [Nat.testBit_mod_two_pow] at hbit
    rw [decide_eq_true (by omega : i + s < s * k + s), Bool.true_and, Bool.true_and] at hbit
    rw [← hbit, ← BitVec.getLsbD, ← BitVec.getLsbD, BitVec.getLsbD_sshiftRight]
    rw [if_pos (by omega : s + i < 32), decide_eq_false (by omega : ¬ 32 ≤ i), Nat.add_comm s i,
      decide_eq_true hi]
    rfl
  · simp [hi]

/-- The bits that an arithmetic shift moves in come behind the digits. -/
theorem tempDigits_shift (hdigit : ∀ num, digit num = g (num.toNat % 2 ^ s)) (h : s * k ≤ 32)
    (hn : num.toNat % 2 ^ (s * k) = n % 2 ^ (s * k)) :
    tempDigits digit (fun num => num.sshiftRight s) k num = lastDigits (2 ^ s) g k n := by
  induction k generalizing num n with
  | zero => rfl
  | succ k ih =>
      have hfirst : num.toNat % 2 ^ s = n % 2 ^ s := by
        have hdvd : 2 ^ s ∣ 2 ^ (s * (k + 1)) :=
          Nat.pow_dvd_pow 2 (Nat.le_mul_of_pos_right s (Nat.succ_pos k))
        rw [← Nat.mod_mod_of_dvd num.toNat hdvd, hn, Nat.mod_mod_of_dvd n hdvd]
      have hle : s * k ≤ s * (k + 1) := Nat.mul_le_mul_left s (Nat.le_succ k)
      rw [tempDigits, lastDigits, hdigit, hfirst, ih (by omega) (sshiftRight_mod h hn)]

end Shifts

/-! ## The digit loops -/

/-- The character of a hexadecimal digit, with the letters that begin at `a`. -/
def hexChar (a : UInt8) (d : Nat) : UInt8 :=
  if d < 10 then code '0' + UInt8.ofNat d else a + (UInt8.ofNat d - 10)

section DigitLoops

variable {num : BitVec 32}

theorem digit_octal (num : BitVec 32) :
    toChar ((num &&& 7) + 48) = decimalDigit (num.toNat % 8) := by
  apply UInt8.toNat.inj
  have hand : (num &&& 7).toNat = num.toNat % 8 := by
    rw [BitVec.toNat_and]
    exact Nat.and_two_pow_sub_one_eq_mod num.toNat 3
  unfold toChar decimalDigit
  simp only [UInt8.toNat_ofBitVec, BitVec.toNat_setWidth, BitVec.toNat_add, hand,
    UInt8.toNat_ofNat']
  have hzero : (48 : BitVec 32).toNat = 48 := rfl
  rw [hzero]
  omega

theorem hexDigit_eq (a : UInt8) (num : BitVec 32) :
    hexDigit a num = hexChar a (num.toNat % 16) := by
  have hand : (num &&& 0x0F).toNat = num.toNat % 16 := by
    rw [BitVec.toNat_and]
    exact Nat.and_two_pow_sub_one_eq_mod num.toNat 4
  have hchar : toChar (num &&& 0x0F) = UInt8.ofNat (num.toNat % 16) := by
    apply UInt8.toNat.inj
    unfold toChar
    simp only [UInt8.toNat_ofBitVec, BitVec.toNat_setWidth, hand, UInt8.toNat_ofNat']
  have hlt : num.toNat % 16 < 16 := Nat.mod_lt _ (by decide)
  have hsmall : ∀ d < 16, (UInt8.ofNat d < 10 ↔ d < 10) := by decide
  unfold hexDigit hexChar
  rw [hchar]
  exact if_congr (hsmall _ hlt) rfl rfl

theorem digit_binary (num : BitVec 32) :
    (if num.srem 2 = 0 then code '0' else code '1') = decimalDigit (num.toNat % 2) := by
  have hiff : num.srem 2 = 0 ↔ num.toNat % 2 = 0 := by
    have hdvd : num.toInt.tmod 2 = 0 ↔ num.toInt % 2 = 0 :=
      Int.dvd_iff_tmod_eq_zero.symm.trans Int.dvd_iff_emod_eq_zero
    rw [← BitVec.toInt_inj, BitVec.toInt_srem, show (2 : BitVec 32).toInt = 2 from rfl,
      show (0 : BitVec 32).toInt = 0 from rfl, hdvd, BitVec.toInt_eq_toNat_cond]
    split <;> omega
  by_cases hzero : num.toNat % 2 = 0
  · rw [if_pos (hiff.mpr hzero), hzero]
    decide
  · have hone : num.toNat % 2 = 1 := by omega
    rw [if_neg (fun h => hzero (hiff.mp h)), hone]
    decide

theorem prtl16_eq (num : BitVec 32) :
    prtl16 num = numeral 16 (hexChar (code 'a')) num.toNat ++ [0] := by
  have hdigits := @tempDigits_shift (hexChar (code 'a')) (hexDigit (code 'a')) 4 8 num.toNat num
    (hexDigit_eq _) (by decide) rfl
  unfold prtl16
  rw [hdigits]
  exact storeDigits_lastDigits (by decide) (by decide) (by decide) (by decide) num.isLt

theorem prtX16_eq (num : BitVec 32) :
    prtX16 num = numeral 16 (hexChar (code 'A')) num.toNat ++ [0] := by
  have hdigits := @tempDigits_shift (hexChar (code 'A')) (hexDigit (code 'A')) 4 8 num.toNat num
    (hexDigit_eq _) (by decide) rfl
  unfold prtX16
  rw [hdigits]
  exact storeDigits_lastDigits (by decide) (by decide) (by decide) (by decide) num.isLt

theorem prtl2_eq (num : BitVec 32) : prtl2 num = numeral 2 decimalDigit num.toNat ++ [0] := by
  have hdigits := @tempDigits_shift decimalDigit
    (fun num => if num.srem 2 = 0 then code '0' else code '1') 1 32 num.toNat num
    digit_binary (by decide) rfl
  unfold prtl2
  rw [hdigits]
  exact storeDigits_lastDigits (by decide) (by decide) (by decide) (by decide) num.isLt

theorem tempDigits_snoc (digit : BitVec 32 → UInt8) (rest : BitVec 32 → BitVec 32) (k : Nat)
    (num : BitVec 32) :
    tempDigits digit rest (k + 1) num = tempDigits digit rest k num ++ [digit (rest^[k] num)] := by
  induction k generalizing num with
  | zero => rfl
  | succ k ih =>
      rw [tempDigits, ih, tempDigits, List.cons_append, Function.iterate_succ_apply]

theorem sshiftRight_iterate (s k : Nat) (num : BitVec 32) :
    (fun num : BitVec 32 => num.sshiftRight s)^[k] num = num.sshiftRight (s * k) := by
  induction k with
  | zero => simp
  | succ k ih =>
      rw [Function.iterate_succ_apply', ih, ← BitVec.sshiftRight_add, Nat.mul_succ]

/-- Of the last octal digit, the bits that the sign has filled are cleared. -/
theorem last_octal (num : BitVec 32) :
    toChar ((num.sshiftRight 30 &&& 7) + 48) &&& code '3' =
      decimalDigit (num.toNat / 8 ^ 10 % 8) := by
  have hint : (num.sshiftRight 30).toInt = num.toInt / 0x40000000 := by
    rw [BitVec.toInt_sshiftRight, Int.shiftRight_eq_div_pow]
    rfl
  have hlt := num.isLt
  have hnum := BitVec.toInt_eq_toNat_cond num
  obtain ⟨q, hq⟩ : ∃ q, num.toNat / 8 ^ 10 = q := ⟨_, rfl⟩
  have hcases : q = 0 ∧ num.sshiftRight 30 = 0#32 ∨ q = 1 ∧ num.sshiftRight 30 = 1#32 ∨
      q = 2 ∧ num.sshiftRight 30 = BitVec.ofInt 32 (-2) ∨
        q = 3 ∧ num.sshiftRight 30 = BitVec.ofInt 32 (-1) := by
    have hzero : (0#32).toInt = 0 := rfl
    have hone : (1#32).toInt = 1 := rfl
    have htwo : (BitVec.ofInt 32 (-2)).toInt = -2 := rfl
    have hthree : (BitVec.ofInt 32 (-1)).toInt = -1 := rfl
    simp only [← BitVec.toInt_inj, hint, hzero, hone, htwo, hthree]
    split at hnum <;> omega
  rw [hq]
  rcases hcases with ⟨rfl, heq⟩ | ⟨rfl, heq⟩ | ⟨rfl, heq⟩ | ⟨rfl, heq⟩
  · rw [heq]
    decide
  · rw [heq]
    decide
  · rw [heq]
    decide
  · rw [heq]
    decide

/-- A change of the element behind a list. -/
theorem modify_snoc (f : UInt8 → UInt8) (l : List UInt8) (x : UInt8) :
    (l ++ [x]).modify l.length f = l ++ [f x] := by
  induction l with
  | nil => rfl
  | cons a l ih => simpa [List.modify_succ_cons] using ih

theorem prtl8_eq (num : BitVec 32) : prtl8 num = numeral 8 decimalDigit num.toNat ++ [0] := by
  have hdigits := @tempDigits_shift decimalDigit (fun num => toChar ((num &&& 7) + 48)) 3 10
    num.toNat num digit_octal (by decide) rfl
  have hlen : (lastDigits 8 decimalDigit 10 num.toNat).length = 10 := length_lastDigits _ _ _ _
  have htemp : (tempDigits (fun num => toChar ((num &&& 7) + 48))
      (fun num => num.sshiftRight 3) 11 num).modify 10 (· &&& code '3') =
        lastDigits 8 decimalDigit 11 num.toNat := by
    have hsnoc := modify_snoc (· &&& code '3') (lastDigits 8 decimalDigit 10 num.toNat)
      (toChar ((num.sshiftRight 30 &&& 7) + 48))
    rw [hlen, last_octal, ← lastDigits_snoc] at hsnoc
    rw [tempDigits_snoc, hdigits, sshiftRight_iterate]
    exact hsnoc
  unfold prtl8
  dsimp only
  rw [htemp]
  exact storeDigits_lastDigits (by decide) (by decide) (by decide) (by decide)
    (Nat.lt_of_lt_of_le num.isLt (by decide))

end DigitLoops

/-! ## Repeated subtraction -/

/-- What the loop leaves of a number, and how often it has subtracted. -/
theorem unsignedLoop_spec (larg : BitVec 32) (digit1 : UInt8) :
    ∃ k, (unsignedLoop larg digit1).2 = digit1 + UInt8.ofNat k ∧
      (unsignedLoop larg digit1).1.toNat + k * 10 ^ 9 = larg.toNat ∧
        (unsignedLoop larg digit1).1.toNat < 0x80000000 ∧
          (0 < k → 10 ^ 9 ≤ (unsignedLoop larg digit1).1.toNat) := by
  induction larg, digit1 using unsignedLoop.induct with
  | case1 larg digit1 hneg ih =>
      have hlarg : 0x80000000 ≤ larg.toNat := by
        rw [BitVec.toInt_eq_toNat_cond] at hneg
        split at hneg <;> omega
      have hword : (1000000000 : BitVec 32).toNat = 1000000000 := rfl
      have hsub : (larg - 1000000000).toNat = larg.toNat - 10 ^ 9 := by
        rw [BitVec.toNat_sub_of_le, hword]
        · rfl
        · rw [BitVec.le_def, hword]
          omega
      obtain ⟨k, hdigit, hsum, hlt, hlead⟩ := ih
      rw [hsub] at hsum
      rw [unsignedLoop, if_pos hneg]
      refine ⟨k + 1, ?_, ?_, hlt, ?_⟩
      · rw [hdigit, Nat.add_comm k 1, UInt8.ofNat_add, UInt8.add_assoc]
        rfl
      · rw [Nat.succ_mul, ← Nat.add_assoc, hsum]
        exact Nat.sub_add_cancel (Nat.le_trans (by decide) hlarg)
      · intro _
        rcases Nat.eq_zero_or_pos k with rfl | hpos
        · omega
        · exact hlead hpos
  | case2 larg digit1 hpos =>
      rw [BitVec.toInt_eq_toNat_cond] at hpos
      have hlt := larg.isLt
      rw [unsignedLoop, if_neg (by rwa [BitVec.toInt_eq_toNat_cond])]
      refine ⟨0, by simp, by simp, ?_, by simp⟩
      split at hpos <;> dsimp only <;> omega

theorem decimalDigit_add (d k : Nat) : decimalDigit d + UInt8.ofNat k = decimalDigit (d + k) := by
  unfold decimalDigit
  rw [← UInt8.ofNat_add]
  congr 1
  omega

/-- What has been subtracted is added to the leading digit. -/
theorem prtl10_patched (larg : BitVec 32) :
    (prtl10 (unsignedLoop larg 0).1).modify 0 (· + (unsignedLoop larg 0).2) =
      decimal larg.toNat ++ [0] := by
  obtain ⟨k, hdigit, hsum, hlt, hlead⟩ := unsignedLoop_spec larg 0
  obtain ⟨l, hl⟩ : ∃ l, (unsignedLoop larg 0).1.toNat = l := ⟨_, rfl⟩
  rw [UInt8.zero_add] at hdigit
  rw [prtl10_eq hlt, hdigit, ← hsum]
  rw [hl] at hlt hlead ⊢
  rcases Nat.eq_zero_or_pos k with rfl | hpos
  · have hsame : (fun c : UInt8 => c + UInt8.ofNat 0) = id := by
      funext c
      simp
    rw [hsame, List.modify_id, Nat.zero_mul, Nat.add_zero]
  · have hlarg := larg.isLt
    have hquot : (l + k * 10 ^ 9) / 10 ^ 9 = l / 10 ^ 9 + k := Nat.add_mul_div_right _ _ (by decide)
    unfold decimal
    rw [numeral_lead (by decide) (hlead hpos) (by omega),
      numeral_lead (k := 9) (by decide) (by omega) (by omega), lastDigits_add (by decide), hquot,
      ← decimalDigit_add]
    rfl

/-! ## The conversions of numbers -/

/-- The conversions of numbers. -/
inductive Numeric where
  | d
  | u
  | o
  | x
  | X
  | b
  deriving DecidableEq

/-- The format character. -/
def Numeric.char : Numeric → UInt8
  | d => code 'd'
  | u => code 'u'
  | o => code 'o'
  | x => code 'x'
  | X => code 'X'
  | b => code 'b'

/-- What is stored from `str = string` on. -/
def Numeric.stored : Numeric → BitVec 32 → List UInt8
  | d, larg => prtl10 (if larg.toInt < 0 then -larg else larg)
  | u, larg => (prtl10 (unsignedLoop larg 0).1).modify 0 (· + (unsignedLoop larg 0).2)
  | o, larg => prtl8 larg
  | x, larg => prtl16 larg
  | X, larg => prtX16 larg
  | b, larg => prtl2 larg

/-- `sign == '-'` -/
def Numeric.Signed (c : Numeric) (larg : BitVec 32) : Prop :=
  c = d ∧ larg.toInt < 0

instance (c : Numeric) (larg : BitVec 32) : Decidable (c.Signed larg) :=
  inferInstanceAs (Decidable (_ ∧ _))

/-- The shortest numeral of an argument, without its sign. -/
def Numeric.magnitude : Numeric → BitVec 32 → List UInt8
  | d, larg => decimal larg.toInt.natAbs
  | u, larg => decimal larg.toNat
  | o, larg => Lib.numeral 8 decimalDigit larg.toNat
  | x, larg => Lib.numeral 16 (hexChar (code 'a')) larg.toNat
  | X, larg => Lib.numeral 16 (hexChar (code 'A')) larg.toNat
  | b, larg => Lib.numeral 2 decimalDigit larg.toNat

/-- The shortest numeral of an argument: signed for `%d`, unsigned for the others. -/
def Numeric.numeral (c : Numeric) (larg : BitVec 32) : List UInt8 :=
  (if c.Signed larg then [code '-'] else []) ++ c.magnitude larg

section Conversions

variable {deref : BitVec 32 → List UInt8} {fmt : List UInt8} {ap : VaList} {string : List UInt8}
  {c : Numeric} {w : BitVec 32}

/-- Without a field width, the sign stands before the text. -/
theorem emit_signed (str string : List UInt8) (negative : Bool) (ap : VaList) (leftjust : Bool) :
    Conversion.emit { written := [], str, string, negative, fill := code ' ', fmax := 0, ap }
      leftjust 0 = (if negative then [code '-'] else []) ++ str := by
  have hclip : clip 0#32 = 0 := by decide
  have hfill : ¬ code ' ' = code '0' := by decide
  simp [Conversion.emit, hclip, hfill]

theorem convert_numeric :
    Directive.convert deref
      { leftjust := false, fill := code ' ', fmin := 0, fmax := 0, fmt, ap } c.char string =
      { written := [], str := text (c.stored (ap 0)), string := text (c.stored (ap 0)),
        negative := decide (c.Signed (ap 0)), fill := code ' ', fmax := 0, ap := ap.rest } := by
  cases c
  all_goals
    simp [Directive.convert, Directive.base, Numeric.char, Numeric.stored, Numeric.Signed,
      Char.toUInt8]

/-- What `_fdoprnt` emits for a conversion without flags. -/
theorem fdoprnt_numeric :
    fdoprnt deref (code '%' :: c.char :: fmt) ap string =
      (if c.Signed (ap 0) then [code '-'] else []) ++ text (c.stored (ap 0)) ++
        fdoprnt deref fmt ap.rest (text (c.stored (ap 0))) := by
  have hplain : (c.char ≠ code '-' ∧ c.char ≠ code '*' ∧ c.char ≠ code '.') ∧ ¬ IsDigit c.char ∧
      c.char ≠ code '%' ∧ c.char ≠ 0 := by
    cases c
    all_goals decide
  obtain ⟨hflags, hdigit, hpercent, hend⟩ := hplain
  rw [fdoprnt, if_neg (by decide), if_neg (by simpa using hpercent), directive_plain hflags hdigit]
  simp only [List.headD_cons, List.tail_cons, convert_numeric, emit_signed]
  rw [if_neg hend]
  simp

end Conversions

/-! ## What is stored -/

section Stored

variable {b k n : Nat} {digit : Nat → UInt8} {c : Numeric} {w : BitVec 32}

theorem length_numeral_le (hb : 1 < b) (hk : 0 < k) :
    (numeral b digit n).length ≤ k ↔ n < b ^ k := by
  unfold numeral
  split
  · rename_i hn
    have hpos : 0 < b ^ k := Nat.pow_pos (by omega)
    simp [hn, hk, hpos, Nat.succ_le_iff]
  · rw [List.length_reverse, List.length_map, Nat.digits_length_le_iff hb]

/-- Only the least number has no counterpart. -/
theorem toNat_neg_of_neg (hneg : w.toInt < 0) (hleast : w ≠ 0x80000000) :
    (-w).toNat = w.toInt.natAbs ∧ (-w).toNat < 0x80000000 := by
  have hlt := w.isLt
  have hne : w.toNat ≠ 0x80000000 := fun h => hleast (BitVec.eq_of_toNat_eq h)
  rw [BitVec.toInt_eq_toNat_cond] at hneg ⊢
  rw [BitVec.toNat_neg]
  split at hneg
  · omega
  · rename_i hle
    rw [if_neg hle]
    omega

theorem toInt_of_nonneg (h : ¬ w.toInt < 0) :
    w.toNat = w.toInt.natAbs ∧ w.toNat < 0x80000000 := by
  have hlt := w.isLt
  rw [BitVec.toInt_eq_toNat_cond] at h ⊢
  split at h
  · rename_i hle
    rw [if_pos hle]
    omega
  · omega

/-- The functions `_prtl` store the numeral and a null character. -/
theorem stored_eq (h : c = .d → w ≠ 0x80000000) : c.stored w = c.magnitude w ++ [0] := by
  cases c with
  | d =>
      unfold Numeric.stored Numeric.magnitude
      dsimp only
      by_cases hneg : w.toInt < 0
      · obtain ⟨habs, hlt⟩ := toNat_neg_of_neg hneg (h rfl)
        rw [if_pos hneg, prtl10_eq hlt, habs]
      · obtain ⟨habs, hlt⟩ := toInt_of_nonneg hneg
        rw [if_neg hneg, prtl10_eq hlt, habs]
  | u => exact prtl10_patched w
  | o => exact prtl8_eq w
  | x => exact prtl16_eq w
  | X => exact prtX16_eq w
  | b => exact prtl2_eq w

theorem text_magnitude (c : Numeric) (w : BitVec 32) :
    text (c.magnitude w ++ [0]) = c.magnitude w := by
  cases c
  all_goals exact text_numeral (by decide) (by decide)

/-- The numerals that are not binary are short. -/
theorem length_magnitude_le (h : c ≠ .b) : (c.magnitude w).length ≤ 11 := by
  have hlt := w.isLt
  cases c with
  | d =>
      have habs : w.toInt.natAbs < 10 ^ 11 := by
        rw [BitVec.toInt_eq_toNat_cond]
        split <;> omega
      exact (length_numeral_le (by decide) (by decide)).mpr habs
  | u => exact (length_numeral_le (by decide) (by decide)).mpr (by omega)
  | o => exact (length_numeral_le (by decide) (by decide)).mpr (by omega)
  | x => exact (length_numeral_le (by decide) (by decide)).mpr (by omega)
  | X => exact (length_numeral_le (by decide) (by decide)).mpr (by omega)
  | b => exact absurd rfl h

end Stored

/-! ## What is printed -/

/-- A conversion without flags emits the shortest numeral, and the characters that it stores
fit into `char string[20]`. -/
structure PrintsNumeral (c : Numeric) (larg : BitVec 32) : Prop where
  emits : ∀ (deref : BitVec 32 → List UInt8) (fmt : List UInt8) (ap : VaList)
    (string : List UInt8), ap 0 = larg →
      fdoprnt deref (code '%' :: c.char :: fmt) ap string =
        c.numeral larg ++ fdoprnt deref fmt ap.rest (text (c.stored larg))
  inside : (c.stored larg).length ≤ 20

section Prints

variable {c : Numeric} {larg : BitVec 32}

/-- The least number is its own negation, whose digits are negative. -/
theorem not_printsNumeral_least : ¬ PrintsNumeral .d 0x80000000 := by
  intro h
  have hemits := h.emits (fun _ => []) [] (fun _ => 0x80000000) [] rfl
  rw [fdoprnt_numeric, fdoprnt_nil, List.append_nil, List.append_nil] at hemits
  have htext := List.append_cancel_left hemits
  have hdot : code '.' ∈ text (Numeric.d.stored 0x80000000) := by decide
  rw [htext] at hdot
  exact absurd (isDigit_of_mem_decimal hdot) (by decide)

theorem stored_b_le : (Numeric.b.stored larg).length ≤ 20 ↔ larg.toNat < 0x80000 := by
  rw [stored_eq (by simp), List.length_append, List.length_singleton]
  exact Nat.add_le_add_iff_right.trans (length_numeral_le (k := 19) (by decide) (by decide))

/-- What a conversion emits other than `%d` of the least number. -/
theorem fdoprnt_numeral {deref : BitVec 32 → List UInt8} {fmt : List UInt8} {ap : VaList}
    {string : List UInt8} (h : c = .d → ap 0 ≠ 0x80000000) :
    fdoprnt deref (code '%' :: c.char :: fmt) ap string =
      c.numeral (ap 0) ++ fdoprnt deref fmt ap.rest (text (c.stored (ap 0))) := by
  rw [fdoprnt_numeric, stored_eq h, text_magnitude]
  rfl

/-- The numerals are printed but for the least number, and `string` holds all but the binary
numerals of more than 19 digits. -/
theorem prints_numeral_iff (c : Numeric) (larg : BitVec 32) :
    PrintsNumeral c larg ↔
      (c = .d → larg ≠ 0x80000000) ∧ (c = .b → larg.toNat < 0x80000) := by
  constructor
  · intro h
    constructor
    · rintro rfl rfl
      exact not_printsNumeral_least h
    · rintro rfl
      exact stored_b_le.mp h.inside
  · rintro ⟨hleast, hbinary⟩
    constructor
    · rintro deref fmt ap string rfl
      exact fdoprnt_numeral hleast
    · by_cases hb : c = .b
      · subst hb
        exact stored_b_le.mpr (hbinary rfl)
      · have hle := length_magnitude_le (w := larg) hb
        rw [stored_eq hleast, List.length_append, List.length_singleton]
        omega

/-- The least number is printed as `-./,),(-*,(`, and twenty ones overrun the buffer. -/
theorem least_misprinted :
    ¬ PrintsNumeral .d 0x80000000 ∧ ¬ PrintsNumeral .b 0xFFFFF :=
  ⟨not_printsNumeral_least, fun h => absurd (stored_b_le.mp h.inside) (by decide)⟩

end Prints

end Lib
end Xinu
