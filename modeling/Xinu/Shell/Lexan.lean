import Xinu.Foundations.NullTerminated
import Mathlib.Data.List.Basic

/-!
# The lexical analyzer of the shell

Embedding of `shell/lexan.c`.  A line is the list of its characters; reading past
the last one gives the null character that ends the array.

Main results:

- Theorem `lexan_holds`: the arrays that `lexan` fills hold a list of no more than
  `SHELL_MAXTOK` tokens, their texts one after another from the start of `tokbuf`.
-/

namespace Xinu
namespace Shell

open Foundations Function

/-! ## Constants of `shell.h` -/

def shellBuflen : Nat := 129
def shellMaxtok : Nat := 32

def nullch : UInt8 := 0
def shTab : UInt8 := 9
def shNewline : UInt8 := 10
def shBlank : UInt8 := 32
def shDquote : UInt8 := 34
def shAmper : UInt8 := 38
def shSquote : UInt8 := 39
def shLess : UInt8 := 60
def shGreater : UInt8 := 62

/-- Token types -/
inductive TokType where
  | amper
  | less
  | greater
  /-- Token other than those above (e.g., an alphanumeric string) -/
  | other
deriving DecidableEq, Repr

/-- A token, as a list of characters is divided into them. -/
inductive Token where
  | amper
  | less
  | greater
  | other (text : List UInt8)
deriving DecidableEq, Repr

def Token.type : Token → TokType
  | .amper => .amper
  | .less => .less
  | .greater => .greater
  | .other _ => .other

def Token.text : Token → List UInt8
  | .amper => [shAmper]
  | .less => [shLess]
  | .greater => [shGreater]
  | .other text => text

/-! ## The analyzer -/

/-- The arrays that `lexan` fills, with the number of tokens found. -/
structure Lexed where
  ntok : Nat
  /-- Index into `tokbuf`, which ends as the length of all data in it. -/
  tlen : Nat
  tokbuf : Chars
  /-- Index of each token in `tokbuf` -/
  tok : Nat → Nat
  /-- Type of each token in `tokbuf` -/
  toktyp : Nat → TokType

/-- `tok[ntok] = tbindex; toktyp[ntok] = ty;` -/
def Lexed.start (t : Lexed) (ty : TokType) : Lexed :=
  { t with tok := update t.tok t.ntok t.tlen, toktyp := update t.toktyp t.ntok ty }

/-- `tokbuf[tbindex++] = ch;` -/
def Lexed.putc (t : Lexed) (ch : UInt8) : Lexed :=
  { t with tokbuf := update t.tokbuf t.tlen ch, tlen := t.tlen + 1 }

/-- `tokbuf[tbindex++] = NULLCH; ntok++;` -/
def Lexed.finish (t : Lexed) : Lexed :=
  { t.putc nullch with ntok := t.ntok + 1 }

/-- Skip whitespace before token. -/
def skipBlanks : List UInt8 → List UInt8
  | [] => []
  | ch :: p => if ch = shBlank ∨ ch = shTab then skipBlanks p else ch :: p

/-- Copy quoted string to arg area; `none` if the string is missing its end quote. -/
def copyQuoted (quote : UInt8) : List UInt8 → Lexed → Option (List UInt8 × Lexed)
  | [], _ => none
  | ch :: p, t =>
      if ch = quote then some (p, t)
      else if ch = shNewline ∨ ch = nullch then none
      else copyQuoted quote p (t.putc ch)

/-- The characters that end a token which is not quoted. -/
def EndsToken (ch : UInt8) : Prop :=
  ch = shNewline ∨ ch = nullch ∨ ch = shLess ∨ ch = shGreater ∨ ch = shBlank ∨ ch = shTab ∨
    ch = shAmper ∨ ch = shSquote ∨ ch = shDquote

instance (ch : UInt8) : Decidable (EndsToken ch) :=
  inferInstanceAs (Decidable (_ ∨ _))

/-- Copy the rest of a token other than a quoted string. -/
def copyToken : List UInt8 → Lexed → List UInt8 × Lexed
  | [], t => ([], t)
  | ch :: p, t => if EndsToken ch then (ch :: p, t) else copyToken p (t.putc ch)

/-- Another token is appended without whitespace. -/
def Appended (p : List UInt8) : Prop :=
  p.headD nullch = shSquote ∨ p.headD nullch = shDquote ∨ p.headD nullch = shLess ∨
    p.headD nullch = shGreater

instance (p : List UInt8) : Decidable (Appended p) :=
  inferInstanceAs (Decidable (_ ∨ _))

/-- What one round of the loop over the line comes to. -/
inductive Round where
  /-- The end of the line is reached. -/
  | done (t : Lexed)
  | syserr
  /-- One token more, and the rest of the line. -/
  | token (p : List UInt8) (t : Lexed)

/-- One round, from a character that is not the end of the line. -/
def lexanRound (p : List UInt8) (t : Lexed) : Round :=
  -- if too many tokens, return error
  if shellMaxtok ≤ t.ntok then .syserr
  else
    match skipBlanks p with
    | [] => .done t
    | ch :: p =>
        if ch = shNewline ∨ ch = nullch then .done t
        else if ch = shAmper then .token p ((t.start .amper).putc ch).finish
        else if ch = shLess then .token p ((t.start .less).putc ch).finish
        else if ch = shGreater then .token p ((t.start .greater).putc ch).finish
        else if ch = shSquote ∨ ch = shDquote then
          match copyQuoted ch p (t.start .other) with
          | none => .syserr
          | some (p, t) => .token p t.finish
        else
          match copyToken p ((t.start .other).putc ch) with
          | (p, t) => if Appended p then .syserr else .token p t.finish

section Lengths

variable {p p' : List UInt8} {t t' : Lexed} {quote : UInt8}

theorem skipBlanks_length (p : List UInt8) : (skipBlanks p).length ≤ p.length := by
  induction p with
  | nil => exact Nat.le_refl _
  | cons ch p ih =>
      unfold skipBlanks
      split
      · exact Nat.le_succ_of_le ih
      · exact Nat.le_refl _

theorem copyQuoted_length (h : copyQuoted quote p t = some (p', t')) :
    p'.length + 1 + t'.tlen = p.length + t.tlen := by
  induction p generalizing t with
  | nil => cases h
  | cons ch p ih =>
      unfold copyQuoted at h
      split at h
      · cases h
        rfl
      · split at h
        · cases h
        · rw [ih h]
          simp only [Lexed.putc, List.length_cons]
          omega

theorem copyQuoted_tlen (h : copyQuoted quote p t = some (p', t')) : t.tlen ≤ t'.tlen := by
  induction p generalizing t with
  | nil => cases h
  | cons ch p ih =>
      unfold copyQuoted at h
      split at h
      · cases h
        exact Nat.le_refl _
      · split at h
        · cases h
        · exact Nat.le_of_succ_le (ih h)

theorem copyToken_length (p : List UInt8) (t : Lexed) :
    (copyToken p t).1.length + (copyToken p t).2.tlen = p.length + t.tlen := by
  induction p generalizing t with
  | nil => rfl
  | cons ch p ih =>
      unfold copyToken
      split
      · rfl
      · rw [ih]
        simp only [Lexed.putc, List.length_cons]
        omega

theorem copyToken_tlen (p : List UInt8) (t : Lexed) : t.tlen ≤ (copyToken p t).2.tlen := by
  induction p generalizing t with
  | nil => exact Nat.le_refl _
  | cons ch p ih =>
      unfold copyToken
      split
      · exact Nat.le_refl _
      · exact Nat.le_of_succ_le (ih (t.putc ch))

/-- What a round that finds a token does: a sign is a token by itself, and any other
token is quoted or goes to the next character that ends it. -/
theorem lexanRound_token (h : lexanRound p t = .token p' t') :
    t.ntok < shellMaxtok ∧ ∃ ch q, skipBlanks p = ch :: q ∧ ch ≠ nullch ∧
      ((∃ k : Token, k.text = [ch] ∧ p' = q ∧ t' = ((t.start k.type).putc ch).finish) ∨
        (∃ t₁, copyQuoted ch q (t.start .other) = some (p', t₁) ∧ t' = t₁.finish) ∨
        (∃ t₁, copyToken q ((t.start .other).putc ch) = (p', t₁) ∧ t' = t₁.finish)) := by
  unfold lexanRound at h
  split at h
  · cases h
  next hroom =>
  refine ⟨Nat.lt_of_not_le hroom, ?_⟩
  split at h
  · cases h
  next ch q hq =>
  split at h
  · cases h
  next hend =>
  refine ⟨ch, q, hq, fun hnull => hend (Or.inr hnull), ?_⟩
  split at h
  next hamper =>
    cases h
    exact Or.inl ⟨.amper, congrArg (fun c => [c]) hamper.symm, rfl, rfl⟩
  split at h
  next hless =>
    cases h
    exact Or.inl ⟨.less, congrArg (fun c => [c]) hless.symm, rfl, rfl⟩
  split at h
  next hgreater =>
    cases h
    exact Or.inl ⟨.greater, congrArg (fun c => [c]) hgreater.symm, rfl, rfl⟩
  split at h
  · split at h
    · cases h
    next hcopy =>
    cases h
    exact Or.inr (Or.inl ⟨_, hcopy, rfl⟩)
  · split at h
    next hcopy =>
    split at h
    · cases h
    · cases h
      exact Or.inr (Or.inr ⟨_, hcopy, rfl⟩)

/-- A round takes characters from the line, and gives `tokbuf` no more of them and a
null character. -/
theorem lexanRound_length (h : lexanRound p t = .token p' t') :
    p'.length < p.length ∧ p'.length + t'.tlen ≤ p.length + t.tlen + 1 := by
  obtain ⟨-, ch, q, hq, -, hsign | ⟨t₁, hcopy, rfl⟩ | ⟨t₁, hcopy, rfl⟩⟩ := lexanRound_token h
  all_goals
    have hskip := skipBlanks_length p
    rw [hq, List.length_cons] at hskip
  · rcases hsign with ⟨k, -, rfl, rfl⟩
    simp only [Lexed.finish, Lexed.putc, Lexed.start]
    omega
  · have hlen := copyQuoted_length hcopy
    have htlen := copyQuoted_tlen hcopy
    simp only [Lexed.finish, Lexed.putc, Lexed.start] at hlen htlen ⊢
    omega
  · have hlen := copyToken_length q ((t.start .other).putc ch)
    have htlen := copyToken_tlen q ((t.start .other).putc ch)
    rw [hcopy] at hlen htlen
    simp only [Lexed.finish, Lexed.putc, Lexed.start] at hlen htlen ⊢
    omega

end Lengths

/-- The loop over the line: while not yet at end of line, get next token. -/
def lexanLoop (p : List UInt8) (t : Lexed) : Option Lexed :=
  if p.headD nullch = nullch ∨ p.headD nullch = shNewline then some t
  else
    match _h : lexanRound p t with
    | .done t' => some t'
    | .syserr => none
    | .token p' t' => lexanLoop p' t'
termination_by p.length
decreasing_by exact (lexanRound_length _h).1

/-- Ad hoc lexical analyzer to divide command line into tokens; `none` is `SYSERR`.
The arrays of `t` are the ones that it fills. -/
def lexan (line : List UInt8) (t : Lexed) : Option Lexed :=
  lexanLoop line { t with ntok := 0, tlen := 0 }

/-! ## The tokens in the arrays -/

/-- The arrays hold the tokens. -/
structure Holds (t : Lexed) (toks : List Token) : Prop where
  ntok : t.ntok = toks.length
  tlen : t.tlen = packedLen (toks.map Token.text)
  texts : Packed t.tokbuf (toks.map Token.text)
  tok : ∀ i < toks.length, t.tok i = packedLen ((toks.map Token.text).take i)
  toktyp : ∀ i (h : i < toks.length), t.toktyp i = toks[i].type

/-- The arrays hold the tokens, and the first characters of one more. -/
structure Begun (t : Lexed) (toks : List Token) (ty : TokType) (s : List UInt8) : Prop where
  ntok : t.ntok = toks.length
  tlen : t.tlen = packedLen (toks.map Token.text) + s.length
  texts : Packed t.tokbuf (toks.map Token.text)
  tok : ∀ i ≤ toks.length, t.tok i = packedLen ((toks.map Token.text).take i)
  toktyp : ∀ i (h : i < toks.length), t.toktyp i = toks[i].type
  last : t.toktyp toks.length = ty
  chars : ∀ i (h : i < s.length), t.tokbuf (packedLen (toks.map Token.text) + i) = s[i]
  nonzero : 0 ∉ s

section Holds

variable {t t' : Lexed} {toks : List Token} {k : Token} {ty : TokType} {s : List UInt8}
  {ch quote : UInt8} {p p' : List UInt8}

theorem Holds.start (h : Holds t toks) (ty : TokType) : Begun (t.start ty) toks ty [] := by
  have hne : ∀ i < toks.length, i ≠ t.ntok := by
    intro i hi
    rw [h.ntok]
    exact Nat.ne_of_lt hi
  constructor
  case ntok => exact h.ntok
  case tlen => exact h.tlen
  case texts => exact h.texts
  case tok =>
    intro i hi
    rcases Nat.lt_or_eq_of_le hi with hlt | rfl
    · exact (update_of_ne (hne i hlt) _ _).trans (h.tok i hlt)
    · rw [List.take_of_length_le (Nat.le_of_eq (List.length_map _)), ← h.tlen, ← h.ntok]
      exact update_self _ _ _
  case toktyp =>
    intro i hi
    exact (update_of_ne (hne i hi) _ _).trans (h.toktyp i hi)
  case last =>
    rw [← h.ntok]
    exact update_self _ _ _
  case chars => exact fun i hi => absurd hi (Nat.not_lt_zero i)
  case nonzero => exact List.not_mem_nil

theorem Begun.putc (h : Begun t toks ty s) (hch : ch ≠ nullch) :
    Begun (t.putc ch) toks ty (s ++ [ch]) := by
  constructor
  case ntok => exact h.ntok
  case tlen =>
    rw [List.length_append, ← Nat.add_assoc, ← h.tlen]
    rfl
  case texts =>
    apply h.texts.congr
    intro i hi
    apply update_of_ne
    rw [h.tlen]
    omega
  case tok => exact h.tok
  case toktyp => exact h.toktyp
  case last => exact h.last
  case chars =>
    intro i hi
    rw [List.length_append, List.length_singleton] at hi
    rcases Nat.lt_or_eq_of_le (Nat.le_of_lt_succ hi) with hlt | rfl
    · rw [List.getElem_append_left hlt, ← h.chars i hlt]
      apply update_of_ne
      rw [h.tlen]
      omega
    · rw [List.getElem_concat_length rfl, ← h.tlen]
      exact update_self _ _ _
  case nonzero =>
    intro hmem
    rcases List.mem_append.mp hmem with hmem | hmem
    · exact h.nonzero hmem
    · exact hch (List.mem_singleton.mp hmem).symm

/-- The null character makes a token of what is copied. -/
theorem Begun.finish (h : Begun t toks k.type k.text) : Holds t.finish (toks ++ [k]) := by
  have hmap : (toks ++ [k]).map Token.text = toks.map Token.text ++ [k.text] := List.map_append
  have hsame : ∀ i < t.tlen, t.finish.tokbuf i = t.tokbuf i :=
    fun i hi => update_of_ne (Nat.ne_of_lt hi) _ _
  constructor
  case ntok =>
    rw [List.length_append, ← h.ntok]
    rfl
  case tlen =>
    rw [hmap, packedLen_snoc, ← h.tlen]
    rfl
  case texts =>
    rw [hmap]
    apply Packed.snoc
    · apply h.texts.congr
      intro i hi
      apply hsame
      rw [h.tlen]
      omega
    · constructor
      · intro i hi
        rw [hsame _ (by rw [h.tlen]; omega)]
        exact h.chars i hi
      · rw [← h.tlen]
        exact update_self _ _ _
      · exact h.nonzero
  case tok =>
    intro i hi
    rw [List.length_append, List.length_singleton] at hi
    rw [hmap, List.take_append_of_le_length (by rw [List.length_map]; omega)]
    exact h.tok i (Nat.le_of_lt_succ hi)
  case toktyp =>
    intro i hi
    rw [List.length_append, List.length_singleton] at hi
    rcases Nat.lt_or_eq_of_le (Nat.le_of_lt_succ hi) with hlt | rfl
    · rw [List.getElem_append_left hlt]
      exact h.toktyp i hlt
    · rw [List.getElem_concat_length rfl]
      exact h.last

theorem Begun.copyQuoted (h : Begun t toks ty s) (hcopy : copyQuoted quote p t = some (p', t')) :
    ∃ s', Begun t' toks ty s' := by
  induction p generalizing t s with
  | nil => cases hcopy
  | cons ch p ih =>
      unfold Shell.copyQuoted at hcopy
      split at hcopy
      · cases hcopy
        exact ⟨s, h⟩
      · split at hcopy
        · cases hcopy
        next hend => exact ih (h.putc fun hnull => hend (Or.inr hnull)) hcopy

theorem Begun.copyToken (h : Begun t toks ty s) (p : List UInt8) :
    ∃ s', Begun (copyToken p t).2 toks ty s' := by
  induction p generalizing t s with
  | nil => exact ⟨s, h⟩
  | cons ch p ih =>
      unfold Shell.copyToken
      split
      · exact ⟨s, h⟩
      next hend => exact ih (h.putc fun hnull => hend (Or.inr (Or.inl hnull)))

/-- A round finds one more token. -/
theorem Holds.round (h : Holds t toks) (hround : lexanRound p t = .token p' t') :
    ∃ k, Holds t' (toks ++ [k]) := by
  obtain ⟨-, ch, q, -, hch, hsign | ⟨t₁, hcopy, rfl⟩ | ⟨t₁, hcopy, rfl⟩⟩ :=
    lexanRound_token hround
  · rcases hsign with ⟨k, htext, rfl, rfl⟩
    have hbegun := (h.start k.type).putc hch
    rw [List.nil_append, ← htext] at hbegun
    exact ⟨k, hbegun.finish⟩
  · rcases (h.start .other).copyQuoted hcopy with ⟨s, hbegun⟩
    exact ⟨.other s, hbegun.finish⟩
  · rcases ((h.start .other).putc hch).copyToken q with ⟨s, hbegun⟩
    rw [hcopy] at hbegun
    exact ⟨.other s, hbegun.finish⟩

end Holds

/-! ## The whole line -/

section Lexan

variable {t t' : Lexed} {toks : List Token} {p line : List UInt8}

theorem lexanRound_done (h : lexanRound p t = .done t') : t' = t := by
  unfold lexanRound at h
  split at h
  · cases h
  split at h
  · cases h
    rfl
  repeat' split at h
  all_goals cases h
  rfl

/-- What the rounds that are left find. -/
theorem lexanLoop_holds (h : Holds t toks) (hroom : toks.length ≤ shellMaxtok)
    (hloop : lexanLoop p t = some t') :
    ∃ toks', Holds t' toks' ∧ toks'.length ≤ shellMaxtok ∧
      t'.tlen + t.ntok ≤ p.length + t.tlen + t'.ntok := by
  induction p, t using lexanLoop.induct generalizing toks with
  | case1 p t hend =>
      rw [lexanLoop, if_pos hend] at hloop
      cases hloop
      exact ⟨toks, h, hroom, by omega⟩
  | case2 p t hend t₁ hround =>
      rw [lexanLoop, if_neg hend] at hloop
      split at hloop
      next hdone =>
        cases hloop
        rw [lexanRound_done hdone]
        exact ⟨toks, h, hroom, by omega⟩
      all_goals simp_all
  | case3 p t hend hround =>
      rw [lexanLoop, if_neg hend] at hloop
      split at hloop <;> simp_all
  | case4 p t hend p₁ t₁ hround ih =>
      rw [lexanLoop, if_neg hend] at hloop
      obtain ⟨k, hk⟩ := h.round hround
      have hntok := h.ntok
      have hntok₁ := hk.ntok
      have hlt := (lexanRound_token hround).1
      have hlen := (lexanRound_length hround).2
      rw [List.length_append, List.length_singleton] at hntok₁
      split at hloop
      · simp_all
      · cases hloop
      next p₂ t₂ hround₂ =>
        rw [hround] at hround₂
        cases hround₂
        obtain ⟨toks', hholds, hmax, hbound⟩ := ih hk (by
          rw [List.length_append, List.length_singleton, ← hntok]
          exact hlt) hloop
        exact ⟨toks', hholds, hmax, by omega⟩

theorem holds_nil (t : Lexed) : Holds { t with ntok := 0, tlen := 0 } [] := by
  constructor
  · rfl
  · rfl
  · trivial
  · exact fun i hi => absurd hi (Nat.not_lt_zero i)
  · exact fun i hi => absurd hi (Nat.not_lt_zero i)

/-- `lexan` leaves a list of tokens in the arrays, and their texts take no more of
`tokbuf` than the line and a null character for each of them. -/
theorem lexan_holds (h : lexan line t = some t') :
    ∃ toks, Holds t' toks ∧ toks.length ≤ shellMaxtok ∧ t'.tlen ≤ line.length + shellMaxtok := by
  obtain ⟨toks, hholds, hmax, hbound⟩ := lexanLoop_holds (holds_nil t) (Nat.zero_le _) h
  refine ⟨toks, hholds, hmax, ?_⟩
  have hntok := hholds.ntok
  simp only at hbound
  omega

end Lexan

end Shell
end Xinu
