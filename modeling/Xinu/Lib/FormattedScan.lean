import Xinu.Lib.NumberPrinting
import Mathlib.Data.List.TakeWhile

/-!
# Formatted scanning

Embedding of `lib/doscan.c` and `lib/sscanf.c`.  The functions `getch` and `ungetch` are
parameters, as in the source.  `_instr` and `_getccl`, through which no number goes, are
parameters too, and of `numbuf`, which is never read, only the number of its characters is
kept.

Main results:

- Theorem `innum_digits`: what `_innum` makes of the digits of a numeral.
- Theorem `scans_back_iff`: which numbers are scanned as they were printed.
-/

namespace Xinu
namespace Lib

open Foundations Function

/-! ## Streams and arguments -/

/-- `getch` and `ungetch`, on what they read from. -/
structure Stream (σ : Type) where
  getch : σ → BitVec 32 × σ
  ungetch : σ → σ

def eof : BitVec 32 :=
  -2

/-- `SHORT`, `REGULAR` or `LONG` -/
inductive Size where
  | short
  | regular
  | long
  deriving DecidableEq

/-- A store through an argument: `**(int **)ptr = value`, of the given size. -/
structure Stored where
  addr : BitVec 32
  size : Size
  value : BitVec 32
  deriving DecidableEq

/-- What `_innum` leaves. -/
structure Scanned (σ : Type) where
  matched : Bool
  fileended : Bool
  stored : List Stored
  s : σ

/-- `_instr` for the conversions `c`, `s` and `[`, and `_getccl`. -/
structure Strings (σ : Type) where
  instr : Option (BitVec 32) → UInt8 → BitVec 32 → σ → Option (Scanned σ)
  getccl : List UInt8 → List UInt8

/-! ## `_innum` -/

section Scan

variable {σ : Type}

/-- `while ((c = (*getch)(…)) == ' ' || c == '\t' || c == '\n');` -/
def skip (io : Stream σ) (blank : BitVec 32 → Prop) [DecidablePred blank] :
    Nat → σ → Option (BitVec 32 × σ)
  | 0, _ => none
  | fuel + 1, s =>
      let (ch, s) := io.getch s
      if blank ch then skip io blank fuel s else some (ch, s)

def IsBlank (c : UInt8) : Prop :=
  c = code ' ' ∨ c = code '\t' ∨ c = code '\n'

instance (c : UInt8) : Decidable (IsBlank c) :=
  inferInstanceAs (Decidable (_ ∨ _))

/-- The letters of the hexadecimal digits. -/
def IsHexLetter (c : UInt8) : Prop :=
  code 'a' ≤ c ∧ c ≤ code 'f' ∨ code 'A' ≤ c ∧ c ≤ code 'F'

instance (c : UInt8) : Decidable (IsHexLetter c) :=
  inferInstanceAs (Decidable (_ ∨ _))

/-- `lcval` for one digit more. -/
def shiftDigit (base : Nat) (lcval : BitVec 32) : BitVec 32 :=
  if base = 8 then lcval <<< 3
  else if base = 10 then ((lcval <<< 2) + lcval) <<< 1
  else lcval <<< 4

/-- `c` less what its kind of digit begins at. -/
def digitOf (c : UInt8) : UInt8 :=
  if code '0' ≤ c ∧ c ≤ code '9' then c - code '0'
  else if code 'a' ≤ c ∧ c ≤ code 'f' then c - (code 'a' - 10)
  else c - (code 'A' - 10)

/-- The variables of the loop over the digits.  `np` is the number of characters in
`numbuf`. -/
structure Number (σ : Type) where
  c : UInt8
  np : Nat
  lcval : BitVec 32
  s : σ

/-- The character goes to `numbuf`, and the next one is read. -/
def Number.next (io : Stream σ) (v : Number σ) (lcval : BitVec 32) : Number σ :=
  let (ch, s) := io.getch v.s
  { c := toChar ch, np := v.np + 1, lcval, s }

/-- The condition under which the loop takes a character. -/
def TakesDigit (base : Nat) (c : UInt8) : Prop :=
  (IsDigit c ∨ base = 16) ∧ IsHexLetter c

instance (base : Nat) (c : UInt8) : Decidable (TakesDigit base c) :=
  inferInstanceAs (Decidable (_ ∧ _))

/-- `for (; --len >= 0; *np++ = c, c = (*getch)(…))` -/
def digitLoop (io : Stream σ) (base : Nat) : Nat → Number σ → Number σ
  | 0, v => v
  | len + 1, v =>
      if TakesDigit base v.c then
        let lcval := shiftDigit base v.lcval + (digitOf v.c).toBitVec.setWidth 32
        digitLoop io base len (v.next io lcval)
      else v

/-- The sign: whether it is `'-'`, the length that is left and the character behind it. -/
def sign (io : Stream σ) (len : Int) (v : Number σ) : Bool × Int × Number σ :=
  if v.c = code '-' then (true, len - 1, v.next io 0)
  else if v.c = code '+' then (false, len - 1, { v.next io 0 with np := v.np })
  else (false, len, v)

/-- `_innum`.  A `char` is unsigned: `c != EOF` holds of each one. -/
def innum (io : Stream σ) (strings : Strings σ) (fuel : Nat) (ptr : Option (BitVec 32))
    (type : UInt8) (len : BitVec 32) (size : Size) (s : σ) : Option (Scanned σ) :=
  if type = code 'c' ∨ type = code 's' ∨ type = code '[' then strings.instr ptr type len s
  else
    let base := if type = code 'o' then 8 else if type = code 'x' then 16 else 10
    match skip io (fun ch => IsBlank (toChar ch)) fuel s with
    | none => none
    | some (ch, s) =>
        let (negflg, len, v) := sign io len.toInt { c := toChar ch, np := 0, lcval := 0, s }
        let v := digitLoop io base len.toNat v
        let lcval := if negflg then -v.lcval else v.lcval
        let fileended := decide (v.c.toBitVec.setWidth 32 = eof)
        let s := if fileended then v.s else io.ungetch v.s
        match ptr with
        | none => some { matched := false, fileended, stored := [], s }
        | some addr =>
            if v.np = 0 then some { matched := false, fileended, stored := [], s }
            else some { matched := true, fileended, stored := [⟨addr, size, lcval⟩], s }

/-! ## `_doscan` -/

/-- What stands behind a `%`. -/
structure Item where
  /-- The argument, unless it is suppressed by `*`. -/
  ptr : Option (BitVec 32)
  len : BitVec 32
  size : Size
  type : UInt8
  /-- The format behind the type. -/
  fmt : List UInt8
  argp : VaList

def IsUpper (c : UInt8) : Prop :=
  code 'A' ≤ c ∧ c ≤ code 'Z'

instance (c : UInt8) : Decidable (IsUpper c) :=
  inferInstanceAs (Decidable (_ ∧ _))

/-- The size and the type.  An upper case letter stands for a `LONG`. -/
def sizeAndType (getccl : List UInt8 → List UInt8) (fmt : List UInt8) :
    Size × UInt8 × List UInt8 :=
  let ch := fmt.headD 0
  let (size, ch, fmt) :=
    if ch = code 'l' then (Size.long, fmt.tail.headD 0, fmt.tail.tail)
    else if ch = code 'h' then (Size.short, fmt.tail.headD 0, fmt.tail.tail)
    else if ch = code '[' then (Size.regular, ch, getccl fmt.tail)
    else (Size.regular, ch, fmt.tail)
  if IsUpper ch then (Size.long, ch - code 'A' + code 'a', fmt) else (size, ch, fmt)

def item (getccl : List UInt8 → List UInt8) (fmt : List UInt8) (argp : VaList) : Item :=
  let star := flag (code '*') fmt
  let len := fieldDigits star.2 0
  let kind := sizeAndType getccl len.2
  { ptr := if star.1 then none else some (argp 0), len := if len.1 = 0 then 30000 else len.1,
    size := kind.1, type := kind.2.1, fmt := kind.2.2,
    argp := if star.1 then argp else argp.rest }

/-- `_doscan` from the number of matches on: the result and what has been stored. -/
def doscan (io : Stream σ) (strings : Strings σ) :
    Nat → List UInt8 → VaList → Nat → σ → Option (Int × List Stored)
  | 0, _, _, _, _ => none
  | _, [], _, nmatch, _ => some (nmatch, [])
  | fuel + 1, ch :: fmt, argp, nmatch, s =>
      if ch = code '%' ∧ fmt.head? ≠ some (code '%') then
        let item := item strings.getccl fmt argp
        if item.type = 0 then some (-1, [])
        else
          match innum io strings fuel item.ptr item.type item.len item.size s with
          | none => none
          | some v =>
              let nmatch := if v.matched ∧ item.ptr.isSome then nmatch + 1 else nmatch
              if v.fileended then some (if nmatch ≠ 0 then nmatch else -1, v.stored)
              else
                match doscan io strings fuel item.fmt item.argp nmatch v.s with
                | none => none
                | some (result, stored) => some (result, v.stored ++ stored)
      else if ch = code ' ' ∨ ch = code '\n' ∨ ch = code '\t' then
        match skip io (fun ch => ch = 32 ∨ ch = 9 ∨ ch = 10) fuel s with
        | none => none
        | some (ch1, s) =>
            doscan io strings fuel fmt argp nmatch (if ch1 ≠ eof then io.ungetch s else s)
      else
        -- of `%%`, the second one is compared
        let fmt := if ch = code '%' then fmt.tail else fmt
        let (ch1, s) := io.getch s
        if ch1 ≠ ch.toBitVec.setWidth 32 then
          some (if ch1 = eof then -1 else nmatch, [])
        else doscan io strings fuel fmt argp nmatch s


end Scan

/-! ## `sscanf` -/

/-- `sgetch` and `sungetch` on a pointer into memory -/
def stringStream (mem : Chars) : Stream Nat where
  getch := fun s => if mem s = 0 then (eof, s) else ((mem s).toBitVec.setWidth 32, s + 1)
  ungetch := fun s => s - 1

/-- `sscanf` of the string at `str` -/
def sscanf (mem : Chars) (strings : Strings Nat) (fuel : Nat) (str : Nat) (fmt : List UInt8)
    (args : VaList) : Option (Int × List Stored) :=
  doscan (stringStream mem) strings fuel fmt args 0 str

/-! ## Hexadecimal values -/

/-- The value of hexadecimal digits, from the leading one on. -/
def hexValue (ds : List Nat) (a : Nat) : Nat :=
  ds.foldl (fun a d => a * 16 + d) a

section HexValue

variable {ds rest : List Nat} {a n : Nat}

theorem hexValue_append (ds rest : List Nat) (a : Nat) :
    hexValue (ds ++ rest) a = hexValue rest (hexValue ds a) :=
  List.foldl_append

theorem le_hexValue (ds : List Nat) (a : Nat) : a ≤ hexValue ds a := by
  induction ds generalizing a with
  | nil => exact Nat.le_refl a
  | cons d ds ih =>
      have hle : a * 16 + d ≤ hexValue ds (a * 16 + d) := ih (a * 16 + d)
      exact Nat.le_trans (by omega) hle

/-- Each digit behind a number that is not zero makes it greater. -/
theorem lt_hexValue (ha : 0 < a) (hds : ds ≠ []) : a < hexValue ds a := by
  cases ds with
  | nil => exact absurd rfl hds
  | cons d ds =>
      have hle : a * 16 + d ≤ hexValue ds (a * 16 + d) := le_hexValue ds (a * 16 + d)
      exact Nat.lt_of_lt_of_le (by omega) hle

theorem hexValue_digits (n : Nat) : hexValue (Nat.digits 16 n).reverse 0 = n := by
  have hfold := Nat.ofDigits_eq_foldr 16 (Nat.digits 16 n)
  rw [Nat.ofDigits_digits] at hfold
  unfold hexValue
  rw [List.foldl_reverse]
  simpa only [Nat.add_comm, Nat.mul_comm, Nat.cast_id] using hfold.symm

/-- The letters among the leading digits. -/
def letters (ds : List Nat) : List Nat :=
  ds.takeWhile (10 ≤ ·)

/-- Leading letters have the value of all digits only if there is no other digit. -/
theorem hexValue_letters (hne : letters ds ≠ [])
    (hvalue : hexValue (letters ds) 0 = hexValue ds 0) : ∀ d ∈ ds, 10 ≤ d := by
  have hsplit : letters ds ++ ds.dropWhile (10 ≤ ·) = ds := List.takeWhile_append_dropWhile
  have hpos : 0 < hexValue (letters ds) 0 := by
    obtain ⟨d, p, hp⟩ := List.exists_cons_of_ne_nil hne
    have hd : 10 ≤ d := by
      have hmem : d ∈ letters ds := by simp [hp]
      simpa using List.mem_takeWhile_imp hmem
    have hle : 0 * 16 + d ≤ hexValue p (0 * 16 + d) := le_hexValue p (0 * 16 + d)
    rw [hp]
    exact Nat.lt_of_lt_of_le (by omega) hle
  have hrest : ds.dropWhile (10 ≤ ·) = [] := by
    by_contra hrest
    have hlt := lt_hexValue hpos hrest
    rw [← hexValue_append, hsplit, hvalue] at hlt
    exact Nat.lt_irrefl _ hlt
  simpa using List.dropWhile_eq_nil_iff.mp hrest

end HexValue

/-! ## The conversions of both engines -/

/-- The conversions that both engines know, and the numbers they are claimed for. -/
def Supported (c : Numeric) (n : BitVec 32) : Prop :=
  c = .d ∧ n ≠ 0x80000000 ∨ (c = .o ∨ c = .x) ∧ 0 ≤ n.toInt

instance (c : Numeric) (n : BitVec 32) : Decidable (Supported c n) :=
  inferInstanceAs (Decidable (_ ∨ _))

/-- The base that `_innum` takes. -/
def Numeric.base : Numeric → Nat
  | o => 8
  | x => 16
  | _ => 10

/-! ## The loop over the digits -/

section Loop

variable {mem : Chars} {strings : Strings Nat} {args : VaList} {s np len fuel base : Nat}
  {lcval : BitVec 32} {v : Number Nat}

/-- The character that is read at `s`. -/
def readAt (mem : Chars) (np : Nat) (lcval : BitVec 32) (s : Nat) : Number Nat :=
  { c := toChar ((stringStream mem).getch s).1, np, lcval, s := ((stringStream mem).getch s).2 }

theorem toChar_setWidth (c : UInt8) : toChar (c.toBitVec.setWidth 32) = c := by
  apply UInt8.toBitVec_inj.mp
  simp [toChar]

theorem readAt_char (h : mem s ≠ 0) : readAt mem np lcval s = ⟨mem s, np, lcval, s + 1⟩ := by
  simp only [readAt, stringStream, if_neg h, toChar_setWidth]

theorem readAt_end (h : mem s = 0) : readAt mem np lcval s = ⟨254, np, lcval, s⟩ := by
  simp only [readAt, stringStream, if_pos h]
  rfl

theorem digitLoop_stops (h : ¬ TakesDigit base v.c) :
    digitLoop (stringStream mem) base len v = v := by
  cases len with
  | zero => rfl
  | succ len => rw [digitLoop, if_neg h]

theorem not_takesDigit {c : UInt8} (hbase : base ≠ 16) : ¬ TakesDigit base c := by
  rintro ⟨hdigit | h16, hletter⟩
  · unfold IsDigit at hdigit
    unfold IsHexLetter at hletter
    simp only [UInt8.le_iff_toNat_le, show (code '0').toNat = 48 from rfl,
      show (code '9').toNat = 57 from rfl, show (code 'a').toNat = 97 from rfl,
      show (code 'f').toNat = 102 from rfl, show (code 'A').toNat = 65 from rfl,
      show (code 'F').toNat = 70 from rfl] at hdigit hletter
    omega
  · exact hbase h16

theorem takesDigit_hexChar {d : Nat} (h : d < 16) :
    TakesDigit 16 (hexChar (code 'a') d) ↔ 10 ≤ d := by
  decide +revert

theorem digitOf_hexChar {d : Nat} (h : d < 16) :
    (digitOf (hexChar (code 'a') d)).toBitVec.setWidth 32 = BitVec.ofNat 32 d := by
  decide +revert

theorem shiftDigit_hex (a d : Nat) :
    shiftDigit 16 (BitVec.ofNat 32 a) + BitVec.ofNat 32 d = BitVec.ofNat 32 (a * 16 + d) := by
  apply BitVec.eq_of_toNat_eq
  simp [shiftDigit, Nat.shiftLeft_eq]

/-- What the loop makes of the hexadecimal digits that `mem` spells at `s`. -/
theorem digitLoop_hex {ds : List Nat} {a : Nat} (hlt : ∀ d ∈ ds, d < 16)
    (hlen : ds.length ≤ len) (h : Spells (fun i => mem (s + i)) (ds.map (hexChar (code 'a')))) :
    (digitLoop (stringStream mem) 16 len (readAt mem np (BitVec.ofNat 32 a) s)).np =
        np + (letters ds).length ∧
      (digitLoop (stringStream mem) 16 len (readAt mem np (BitVec.ofNat 32 a) s)).lcval =
        BitVec.ofNat 32 (hexValue (letters ds) a) := by
  induction ds generalizing np a s len with
  | nil =>
      have hend : mem s = 0 := h.null
      rw [readAt_end hend, digitLoop_stops (by dsimp only; decide)]
      simp [letters, hexValue]
  | cons d ds ih =>
      have hd : d < 16 := hlt d (List.mem_cons_self)
      have hchar : mem s = hexChar (code 'a') d := h.chars 0 (by simp)
      have hne : mem s ≠ 0 := h.ne_zero (i := 0) (by simp)
      have hrest : Spells (fun i => mem (s + 1 + i)) (ds.map (hexChar (code 'a'))) := by
        have hdrop := h.drop (n := 1) (by simp)
        simpa [Nat.add_assoc] using hdrop
      obtain ⟨len, rfl⟩ : ∃ m, len = m + 1 := ⟨len - 1, by simp at hlen; omega⟩
      rw [readAt_char hne, hchar]
      have htakes : TakesDigit 16 (hexChar (code 'a') d) ↔ 10 ≤ d := takesDigit_hexChar hd
      by_cases hletter : 10 ≤ d
      · have hletters : letters (d :: ds) = d :: letters ds := by simp [letters, hletter]
        obtain ⟨hnp, hlcval⟩ := @ih (s + 1) (np + 1) len (a * 16 + d)
          (fun d hd => hlt d (List.mem_cons_of_mem _ hd)) (Nat.le_of_succ_le_succ hlen) hrest
        have hnext : Number.next (stringStream mem)
            ⟨hexChar (code 'a') d, np, BitVec.ofNat 32 a, s + 1⟩ (BitVec.ofNat 32 (a * 16 + d)) =
              readAt mem (np + 1) (BitVec.ofNat 32 (a * 16 + d)) (s + 1) := rfl
        rw [digitLoop, if_pos (htakes.mpr hletter)]
        dsimp only
        rw [digitOf_hexChar hd, shiftDigit_hex, hnext, hnp, hlcval, hletters, List.length_cons]
        exact ⟨by omega, rfl⟩
      · rw [digitLoop_stops (fun h => hletter (htakes.mp h))]
        simp [letters, hexValue, hletter]

/-- What `sscanf` returns and stores for one conversion. -/
def outcome (addr : BitVec 32) (negflg : Bool) (v : Number Nat) : Int × List Stored :=
  if v.np = 0 then (0, [])
  else (1, [⟨addr, Size.regular, if negflg then -v.lcval else v.lcval⟩])

theorem char_ne_eof (c : UInt8) : c.toBitVec.setWidth 32 ≠ eof := by
  intro h
  have hnat := congrArg BitVec.toNat h
  have hlt := c.toBitVec.isLt
  rw [BitVec.toNat_setWidth, show eof.toNat = 4294967294 from rfl] at hnat
  omega

/-- The variables behind the sign. -/
def signed (mem : Chars) (s : Nat) : Bool × Int × Number Nat :=
  sign (stringStream mem) 30000 ⟨mem s, 0, 0, s + 1⟩

/-- The variables behind the digits. -/
def scannedNumber (mem : Chars) (base s : Nat) : Number Nat :=
  digitLoop (stringStream mem) base (signed mem s).2.1.toNat (signed mem s).2.2

theorem innum_numeric {c : Numeric} {addr : BitVec 32} (hc : c = .d ∨ c = .o ∨ c = .x)
    (hne : mem s ≠ 0) (hblank : ¬ IsBlank (mem s)) :
    ∃ s', innum (stringStream mem) strings (fuel + 1) (some addr) c.char 30000 Size.regular s =
      some { matched := decide ((scannedNumber mem c.base s).np ≠ 0), fileended := false, s := s',
             stored := (outcome addr (signed mem s).1 (scannedNumber mem c.base s)).2 } := by
  have hskip : skip (stringStream mem) (fun ch => IsBlank (toChar ch)) (fuel + 1) s =
      some ((mem s).toBitVec.setWidth 32, s + 1) := by
    simp only [skip, stringStream, if_neg hne, toChar_setWidth, if_neg hblank]
  have htype : ¬ (c.char = code 'c' ∨ c.char = code 's' ∨ c.char = code '[') ∧
      (if c.char = code 'o' then 8 else if c.char = code 'x' then 16 else 10) = c.base := by
    rcases hc with rfl | rfl | rfl
    all_goals decide
  have hlen : (30000 : BitVec 32).toInt = 30000 := rfl
  unfold innum
  rw [if_neg htype.1]
  dsimp only
  rw [hskip, htype.2]
  dsimp only
  rw [toChar_setWidth, hlen]
  rw [show sign (stringStream mem) 30000 ⟨mem s, 0, 0, s + 1⟩ = signed mem s from rfl]
  rw [show digitLoop (stringStream mem) c.base (signed mem s).2.1.toNat (signed mem s).2.2 =
    scannedNumber mem c.base s from rfl]
  refine ⟨(stringStream mem).ungetch (scannedNumber mem c.base s).s, ?_⟩
  by_cases hnp : (scannedNumber mem c.base s).np = 0
  · simp [hnp, outcome, char_ne_eof]
  · simp [hnp, outcome, char_ne_eof]

/-- The format of one conversion, on a string that does not begin with a blank. -/
theorem sscanf_numeric {c : Numeric} (hc : c = .d ∨ c = .o ∨ c = .x) (hne : mem s ≠ 0)
    (hblank : ¬ IsBlank (mem s)) :
    sscanf mem strings (fuel + 2) s [code '%', c.char] args =
      some (outcome (args 0) (signed mem s).1 (scannedNumber mem c.base s)) := by
  have hitem : item strings.getccl [c.char] args =
      { ptr := some (args 0), len := 30000, size := Size.regular, type := c.char, fmt := [],
        argp := args.rest } := by
    rcases hc with rfl | rfl | rfl
    all_goals rfl
  have hchar : c.char ≠ 0 ∧ c.char ≠ code '%' := by
    rcases hc with rfl | rfl | rfl
    all_goals decide
  obtain ⟨s', hinnum⟩ := @innum_numeric mem strings s fuel c (args 0) hc hne hblank
  unfold sscanf
  rw [doscan, if_pos ⟨rfl, by simpa using hchar.2⟩]
  dsimp only
  rw [hitem]
  dsimp only
  rw [if_neg hchar.1, hinnum]
  by_cases hnp : (scannedNumber mem c.base s).np = 0
  · simp [hnp, outcome, doscan]
  · simp [hnp, outcome, doscan]

/-- No decimal digit is taken. -/
theorem outcome_decimal {addr n : BitVec 32} (hbase : base ≠ 16)
    (h : outcome addr (signed mem s).1 (scannedNumber mem base s) =
      (1, [⟨addr, Size.regular, n⟩])) :
    n = 0 ∧ mem s = code '-' := by
  unfold scannedNumber at h
  rw [digitLoop_stops (not_takesDigit hbase)] at h
  unfold outcome signed sign at h
  by_cases hminus : mem s = code '-'
  · rw [if_pos hminus] at h
    simp only [Number.next, Nat.zero_add, Nat.succ_ne_zero, if_false, if_true, Prod.mk.injEq,
      List.cons.injEq, Stored.mk.injEq, true_and, and_true] at h
    exact ⟨h.symm, hminus⟩
  · by_cases hplus : mem s = code '+'
    · rw [if_neg hminus, if_pos hplus] at h
      simp at h
    · rw [if_neg hminus, if_neg hplus] at h
      simp at h

/-- The digits of a number from the leading one on. -/
def leadDigits (n : Nat) : List Nat :=
  if n = 0 then [0] else (Nat.digits 16 n).reverse

theorem numeral_leadDigits (g : Nat → UInt8) (n : Nat) :
    numeral 16 g n = (leadDigits n).map g := by
  unfold numeral leadDigits
  split <;> simp

theorem hexValue_leadDigits (n : Nat) : hexValue (leadDigits n) 0 = n := by
  unfold leadDigits
  split
  · rename_i hn
    simp [hexValue, hn]
  · exact hexValue_digits n

theorem leadDigits_lt {n d : Nat} (h : d ∈ leadDigits n) : d < 16 := by
  unfold leadDigits at h
  split at h
  · simp at h
    omega
  · exact Nat.digits_lt_base (by decide) (List.mem_reverse.mp h)

theorem letters_leadDigits {n : Nat} :
    (∀ d ∈ leadDigits n, 10 ≤ d) ↔ n ≠ 0 ∧ ∀ d ∈ Nat.digits 16 n, 10 ≤ d := by
  unfold leadDigits
  by_cases hn : n = 0
  · simp [hn]
  · simp [hn]

/-! ## Scanning what was printed -/

theorem not_mem_of_text {l : List UInt8} (h : text (l ++ [0]) = l) : 0 ∉ l := by
  intro hmem
  rw [← h] at hmem
  have hne := List.mem_takeWhile_imp hmem
  simp at hne

theorem zero_not_mem_numeral (c : Numeric) (n : BitVec 32) : 0 ∉ c.numeral n := by
  have hmagnitude : 0 ∉ c.magnitude n := not_mem_of_text (text_magnitude c n)
  have hminus : (0 : UInt8) ≠ code '-' := by decide
  unfold Numeric.numeral
  split <;> simp [hmagnitude, hminus]

/-- The string that is printed. -/
theorem spells_printed {c : Numeric} {n : BitVec 32} {deref : BitVec 32 → List UInt8}
    {string : List UInt8} {old : Chars} {ap : VaList} (hn : Supported c n) (hap : ap 0 = n)
    (hmem : ∀ i, mem (s + i) = sprintf deref string old [code '%', c.char] ap i) :
    Spells (fun i => mem (s + i)) (c.numeral n) := by
  have hleast : c = .d → ap 0 ≠ 0x80000000 := by
    rintro rfl
    rw [hap]
    rcases hn with hn | hn
    · exact hn.2
    · simp at hn
  have hprinted : fdoprnt deref [code '%', c.char] ap string = c.numeral n := by
    rw [fdoprnt_numeral hleast, fdoprnt_nil, List.append_nil, hap]
  have hspells := @spells_sprintf deref [code '%', c.char] ap string old
    (by rw [hprinted]; exact zero_not_mem_numeral c n)
  rw [hprinted] at hspells
  exact hspells.congr fun i _ => hmem i

theorem leadDigits_ne_nil (n : Nat) : leadDigits n ≠ [] := by
  unfold leadDigits
  split
  · exact List.cons_ne_nil _ _
  · rename_i hn
    rw [Ne, List.reverse_eq_nil_iff]
    exact Nat.digits_ne_nil_iff_ne_zero.mpr hn

/-- The hexadecimal digits are read behind no sign. -/
theorem signed_hex {d : Nat} (hd : d < 16) (h : mem s = hexChar (code 'a') d) :
    signed mem s = (false, 30000, readAt mem 0 (BitVec.ofNat 32 0) s) := by
  have hchar : hexChar (code 'a') d ≠ code '-' ∧ hexChar (code 'a') d ≠ code '+' ∧
      hexChar (code 'a') d ≠ 0 := by
    clear h
    decide +revert
  obtain ⟨hminus, hplus, hne⟩ := hchar
  rw [← h] at hminus hplus hne
  unfold signed sign
  rw [readAt_char hne, if_neg hminus, if_neg hplus]
  rfl

/-- What `_innum` makes of the hexadecimal digits of a number. -/
theorem outcome_hex {n addr : BitVec 32}
    (h : Spells (fun i => mem (s + i)) ((leadDigits n.toNat).map (hexChar (code 'a')))) :
    outcome addr (signed mem s).1 (scannedNumber mem 16 s) = (1, [⟨addr, Size.regular, n⟩]) ↔
      ∀ d ∈ leadDigits n.toNat, 10 ≤ d := by
  obtain ⟨d, ds, hds⟩ := List.exists_cons_of_ne_nil (leadDigits_ne_nil n.toNat)
  have hlt : ∀ d ∈ leadDigits n.toNat, d < 16 := fun _ => leadDigits_lt
  have hfirst : mem s = hexChar (code 'a') d := by
    have hchar := h.chars 0 (by simp [hds])
    simpa [hds] using hchar
  have hsigned := signed_hex (hlt d (by simp [hds])) hfirst
  have hlen : (leadDigits n.toNat).length ≤ 30000 := by
    have hnumeral : (numeral 16 decimalDigit n.toNat).length ≤ 8 :=
      (length_numeral_le (by decide) (by decide)).mpr n.isLt
    rw [numeral_leadDigits, List.length_map] at hnumeral
    omega
  obtain ⟨hnp, hlcval⟩ := @digitLoop_hex mem s 0 _ _ 0 hlt hlen h
  have hsplit : letters (leadDigits n.toNat) ++ (leadDigits n.toNat).dropWhile (10 ≤ ·) =
      leadDigits n.toNat := List.takeWhile_append_dropWhile
  have hle : hexValue (letters (leadDigits n.toNat)) 0 ≤ n.toNat := by
    rw [← hexValue_leadDigits n.toNat]
    conv_rhs => rw [← hsplit, hexValue_append]
    rw [hexValue_leadDigits]
    exact le_hexValue _ _
  unfold outcome scannedNumber
  rw [hsigned]
  dsimp only
  rw [show (30000 : Int).toNat = 30000 from rfl, hnp, hlcval, Nat.zero_add]
  constructor
  · intro heq
    by_cases hnone : (letters (leadDigits n.toNat)).length = 0
    · simp [hnone] at heq
    · rw [if_neg hnone] at heq
      have hvalue : BitVec.ofNat 32 (hexValue (letters (leadDigits n.toNat)) 0) = n := by
        simpa using heq
      apply hexValue_letters (fun hnil => hnone (by rw [hnil]; rfl))
      have hnat := congrArg BitVec.toNat hvalue
      rw [BitVec.toNat_ofNat, Nat.mod_eq_of_lt (Nat.lt_of_le_of_lt hle n.isLt)] at hnat
      rw [hnat, hexValue_leadDigits]
  · intro hall
    have hself : letters (leadDigits n.toNat) = leadDigits n.toNat :=
      List.takeWhile_eq_self_iff.mpr (by simpa using hall)
    rw [hself, if_neg (by simp [hds]), hexValue_leadDigits]
    simp

/-- What `_innum` makes of a numeral, as one item with its value. -/
theorem outcome_numeral {c : Numeric} {n addr : BitVec 32} (hn : Supported c n)
    (h : Spells (fun i => mem (s + i)) (c.numeral n)) :
    outcome addr (signed mem s).1 (scannedNumber mem c.base s) =
        (1, [⟨addr, Size.regular, n⟩]) ↔
      c = .x ∧ n ≠ 0 ∧ ∀ d ∈ Nat.digits 16 n.toNat, 10 ≤ d := by
  by_cases hx : c = .x
  · subst hx
    have hnumeral : Numeric.x.numeral n = (leadDigits n.toNat).map (hexChar (code 'a')) := by
      rw [← numeral_leadDigits]
      simp [Numeric.numeral, Numeric.Signed, Numeric.magnitude]
    have hzero : n.toNat ≠ 0 ↔ n ≠ 0 := by
      rw [Ne, Ne, ← BitVec.toNat_inj]
      rfl
    rw [hnumeral] at h
    rw [show Numeric.x.base = 16 from rfl, outcome_hex h, letters_leadDigits, hzero]
    exact (and_iff_right rfl).symm
  · constructor
    · intro heq
      have hbase : c.base ≠ 16 := by
        clear h heq hn
        cases c
        all_goals first | decide | exact absurd rfl hx
      obtain ⟨rfl, hminus⟩ := outcome_decimal hbase heq
      have hzero : c.numeral 0 = [code '0'] := by
        clear h heq hbase
        rcases hn with ⟨rfl, -⟩ | ⟨rfl | rfl, -⟩
        all_goals rfl
      rw [hzero] at h
      have hchar : mem s = code '0' := h.chars 0 (by simp)
      rw [hminus] at hchar
      exact absurd hchar (by decide)
    · rintro ⟨rfl, -⟩
      exact absurd rfl hx

/-- `sscanf` of the string that `sprintf` writes for `n` matches one item and stores `n`. -/
def ScansBack (c : Numeric) (n : BitVec 32) : Prop :=
  ∀ (deref : BitVec 32 → List UInt8) (string : List UInt8) (old : Chars) (ap : VaList)
    (strings : Strings Nat) (mem : Chars) (s : Nat) (args : VaList) (fuel : Nat),
      ap 0 = n → (∀ i, mem (s + i) = sprintf deref string old [code '%', c.char] ap i) →
        2 ≤ fuel → sscanf mem strings fuel s [code '%', c.char] args =
          some (1, [⟨args 0, Size.regular, n⟩])

theorem not_isBlank_of_mem {c : Numeric} {n : BitVec 32} {f : UInt8} (h : f ∈ c.numeral n) :
    ¬ IsBlank f := by
  have hsign : ¬ IsBlank (code '-') := by decide
  have hmagnitude : f ∈ c.magnitude n → ¬ IsBlank f := by
    intro hmem
    cases c
    all_goals
      obtain ⟨d, hd, rfl⟩ := mem_numeral (by decide) hmem
      clear hmem h
      decide +revert
  unfold Numeric.numeral at h
  rcases List.mem_append.mp h with hmem | hmem
  · split at hmem
    · rwa [List.mem_singleton.mp hmem]
    · exact absurd hmem List.not_mem_nil
  · exact hmagnitude hmem

theorem numeral_ne_nil (c : Numeric) (n : BitVec 32) : c.numeral n ≠ [] := by
  have hmagnitude : c.magnitude n ≠ [] := by
    intro hnil
    have hnumeral : ∀ b digit m, 1 < b → numeral b digit m ≠ [] := by
      intro b digit m hb
      unfold numeral
      split
      · exact List.cons_ne_nil _ _
      · rename_i hm
        simpa using Nat.digits_ne_nil_iff_ne_zero.mpr hm
    cases c
    all_goals exact hnumeral _ _ _ (by decide) hnil
  unfold Numeric.numeral
  simp [hmagnitude]

/-- What `sscanf` makes of a numeral. -/
theorem sscanf_numeral {c : Numeric} {n : BitVec 32} (hn : Supported c n)
    (h : Spells (fun i => mem (s + i)) (c.numeral n)) (hfuel : 2 ≤ fuel) :
    sscanf mem strings fuel s [code '%', c.char] args =
      some (outcome (args 0) (signed mem s).1 (scannedNumber mem c.base s)) := by
  have hc : c = .d ∨ c = .o ∨ c = .x := by
    rcases hn with ⟨rfl, -⟩ | ⟨hc, -⟩
    · exact Or.inl rfl
    · exact Or.inr hc
  obtain ⟨f, l, hnumeral⟩ := List.exists_cons_of_ne_nil (numeral_ne_nil c n)
  have hblank : ¬ IsBlank f := not_isBlank_of_mem (c := c) (n := n) (by simp [hnumeral])
  have hfirst : mem s = f := by
    have hchar := h.chars 0 (by simp [hnumeral])
    simpa [hnumeral] using hchar
  obtain ⟨fuel, rfl⟩ : ∃ m, fuel = m + 2 := ⟨fuel - 2, by omega⟩
  apply sscanf_numeric hc
  · exact h.ne_zero (i := 0) (by simp [hnumeral])
  · rwa [hfirst]

theorem letters_of_scansBack {c : Numeric} {n : BitVec 32} (hn : Supported c n)
    (h : ScansBack c n) : c = .x ∧ n ≠ 0 ∧ ∀ d ∈ Nat.digits 16 n.toNat, 10 ≤ d := by
  have hspells := @spells_printed (sprintf (fun _ => []) [] (fun _ => 0)
    [code '%', c.char] fun _ => n) 0 c n (fun _ => []) [] (fun _ => 0) (fun _ => n) hn rfl
      (fun i => by rw [Nat.zero_add])
  have hone := h (fun _ => []) [] (fun _ => 0) (fun _ => n) ⟨fun _ _ _ _ => none, id⟩ _ 0
    (fun _ => 0) 2 rfl (fun i => by rw [Nat.zero_add]) (Nat.le_refl 2)
  rw [sscanf_numeral hn hspells (Nat.le_refl 2), Option.some_inj] at hone
  exact (outcome_numeral hn hspells).mp hone

/-- Only hexadecimal numerals in which all digits are letters are scanned as they were
printed. -/
theorem scans_back_iff (c : Numeric) (n : BitVec 32) (hn : Supported c n) :
    ScansBack c n ↔ c = .x ∧ n ≠ 0 ∧ ∀ d ∈ Nat.digits 16 n.toNat, 10 ≤ d := by
  constructor
  · exact letters_of_scansBack hn
  · intro h deref string old ap strings mem s args fuel hap hmem hfuel
    have hspells := spells_printed hn hap hmem
    rw [sscanf_numeral hn hspells hfuel, (outcome_numeral hn hspells).mpr h]

/-- `abc` is scanned back. -/
theorem scans_back_letters : ScansBack .x 0xABC :=
  (scans_back_iff .x 0xABC (by decide)).mpr ⟨rfl, by decide, by
    rw [show (0xABC : BitVec 32).toNat = 0xABC from rfl]
    norm_num⟩

/-- Of `7`, no digit is taken. -/
theorem seven_not_scanned : Supported .d 7 ∧ ¬ ScansBack .d 7 :=
  ⟨by decide, fun h => Numeric.noConfusion (letters_of_scansBack (by decide) h).1⟩

end Loop

end Lib
end Xinu
