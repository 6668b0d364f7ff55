import Xinu.Shell.LineTokens

/-!
# What the lexical analyzer touches

The characters of the line that `lexan` reads, and the places of `tokbuf`, `tok` and
`toktyp` that it writes, also where it ends with an error.

Main results:

- Theorem `covers_lexan`: where `lexan` leaves something else in an array, one of its
  accesses has written.
- Theorem `lexan_inside`: `lexan` reads no character behind the one that ends the line, and
  writes inside its arrays.
-/

namespace Xinu
namespace Shell

open Foundations Function

/-! ## Accesses -/

/-- Access to a character of the line, or to a place of an array. -/
inductive LexAccess where
  | read (i : Nat)
  | tokbuf (i : Nat)
  | tok (i : Nat)
  | toktyp (i : Nat)
deriving DecidableEq, Repr

/-- `*p`, where `p` is what is left of a line of `n` characters. -/
def readAt (n : Nat) (p : List UInt8) : LexAccess :=
  .read (n - p.length)

/-- Skip whitespace before token. -/
def skipAccesses (n : Nat) : List UInt8 → List LexAccess
  | [] => [readAt n []]
  | ch :: p => readAt n (ch :: p) :: if IsBlank ch then skipAccesses n p else []

/-- Copy quoted string to `tokbuf`, from index `k` on. -/
def quotedAccesses (n : Nat) (quote : UInt8) : List UInt8 → Nat → List LexAccess
  | [], _ => [readAt n []]
  | ch :: p, k =>
      readAt n (ch :: p) ::
        if ch = quote ∨ EndsLine ch then [] else .tokbuf k :: quotedAccesses n quote p (k + 1)

/-- Copy the rest of a word to `tokbuf`, from index `k` on. -/
def wordAccesses (n : Nat) : List UInt8 → Nat → List LexAccess
  | [], _ => [readAt n []]
  | ch :: p, k =>
      readAt n (ch :: p) ::
        if EndsToken ch then [] else .tokbuf k :: wordAccesses n p (k + 1)

/-- What a round does from the first character of a token on. -/
def tokenAccesses (n : Nat) (ch : UInt8) (p : List UInt8) (t : Lexed) : List LexAccess :=
  [.tok t.ntok, .toktyp t.ntok] ++
    if ch = shAmper ∨ ch = shLess ∨ ch = shGreater then [.tokbuf t.tlen, .tokbuf (t.tlen + 1)]
    else if ch = shSquote ∨ ch = shDquote then
      quotedAccesses n ch p t.tlen ++
        match copyQuoted ch p (t.start .other) with
        | none => []
        | some (_, t) => [.tokbuf t.tlen]
    else
      .tokbuf t.tlen :: (wordAccesses n p (t.tlen + 1) ++
        match copyToken p ((t.start .other).putc ch) with
        | (p, t) => if Appended p then [] else [.tokbuf t.tlen])

def roundAccesses (n : Nat) (p : List UInt8) (t : Lexed) : List LexAccess :=
  if shellMaxtok ≤ t.ntok then []
  else
    skipAccesses n p ++
      match skipBlanks p with
      | [] => []
      | ch :: p => if EndsLine ch then [] else tokenAccesses n ch p t

def lexanLoopAccesses (n : Nat) (p : List UInt8) (t : Lexed) : List LexAccess :=
  if p.headD nullch = nullch ∨ p.headD nullch = shNewline then [readAt n p]
  else
    readAt n p :: (roundAccesses n p t ++
      match _h : lexanRound p t with
      | .token p' t' => lexanLoopAccesses n p' t'
      | .done _ | .syserr => [])
termination_by p.length
decreasing_by exact (lexanRound_length _h).1

/-- All accesses of `lexan`, one after another. -/
def lexanAccesses (line : List UInt8) (t : Lexed) : List LexAccess :=
  lexanLoopAccesses line.length line { t with ntok := 0, tlen := 0 }

/-! ## Written places -/

/-- Where the arrays of `t'` differ from those of `t`, one of the accesses has written. -/
structure Covers (t t' : Lexed) (as : List LexAccess) : Prop where
  tokbuf : ∀ i, t'.tokbuf i ≠ t.tokbuf i → .tokbuf i ∈ as
  tok : ∀ i, t'.tok i ≠ t.tok i → .tok i ∈ as
  toktyp : ∀ i, t'.toktyp i ≠ t.toktyp i → .toktyp i ∈ as

section Covers

variable {t t' t'' : Lexed} {as as' : List LexAccess} {n k : Nat} {p p' : List UInt8}
variable {quote ch : UInt8}

theorem Covers.refl (t : Lexed) (as : List LexAccess) : Covers t t as :=
  ⟨fun _ hne => absurd rfl hne, fun _ hne => absurd rfl hne, fun _ hne => absurd rfl hne⟩

theorem Covers.mono (h : Covers t t' as) (hsub : as ⊆ as') : Covers t t' as' :=
  ⟨fun i hne => hsub (h.tokbuf i hne), fun i hne => hsub (h.tok i hne),
    fun i hne => hsub (h.toktyp i hne)⟩

theorem Covers.trans (h : Covers t t' as) (h' : Covers t' t'' as') :
    Covers t t'' (as ++ as') := by
  have hfirst := h.mono (List.subset_append_left as as')
  have hsecond := h'.mono (List.subset_append_right as as')
  constructor
  · intro i hne
    by_cases heq : t'.tokbuf i = t.tokbuf i
    · exact hsecond.tokbuf i (heq ▸ hne)
    · exact hfirst.tokbuf i heq
  · intro i hne
    by_cases heq : t'.tok i = t.tok i
    · exact hsecond.tok i (heq ▸ hne)
    · exact hfirst.tok i heq
  · intro i hne
    by_cases heq : t'.toktyp i = t.toktyp i
    · exact hsecond.toktyp i (heq ▸ hne)
    · exact hfirst.toktyp i heq

/-- A place that an assignment changes is the one that it writes. -/
theorem eq_of_update_ne {α : Type} {f : Nat → α} {j i : Nat} {v : α} (h : update f j v i ≠ f i) :
    i = j := by
  by_contra hne
  exact h (update_of_ne hne v f)

theorem covers_start (ty : TokType) : Covers t (t.start ty) [.tok t.ntok, .toktyp t.ntok] := by
  constructor
  · exact fun i hne => absurd rfl hne
  · intro i hne
    rw [eq_of_update_ne hne]
    exact List.mem_cons_self
  · intro i hne
    rw [eq_of_update_ne hne]
    exact List.mem_cons_of_mem _ List.mem_cons_self

theorem covers_putc (ch : UInt8) : Covers t (t.putc ch) [.tokbuf t.tlen] := by
  constructor
  · intro i hne
    rw [eq_of_update_ne hne]
    exact List.mem_cons_self
  · exact fun i hne => absurd rfl hne
  · exact fun i hne => absurd rfl hne

theorem covers_finish : Covers t t.finish [.tokbuf t.tlen] := by
  have hputc : Covers t (t.putc nullch) [.tokbuf t.tlen] := covers_putc nullch
  exact ⟨hputc.tokbuf, hputc.tok, hputc.toktyp⟩

theorem covers_copyQuoted (h : copyQuoted quote p t = some (p', t')) :
    Covers t t' (quotedAccesses n quote p t.tlen) := by
  induction p generalizing t with
  | nil => cases h
  | cons ch p ih =>
      by_cases hquote : ch = quote
      · rw [copyQuoted, if_pos hquote] at h
        cases h
        exact .refl _ _
      by_cases hend : EndsLine ch
      · rw [copyQuoted_open hquote hend] at h
        contradiction
      · rw [copyQuoted_putc hquote hend] at h
        have hstep := (covers_putc (t := t) ch).trans (ih h)
        rw [quotedAccesses, if_neg (not_or.mpr ⟨hquote, hend⟩)]
        exact hstep.mono (List.subset_cons_self _ _)

theorem covers_copyToken (p : List UInt8) (t : Lexed) :
    Covers t (copyToken p t).2 (wordAccesses n p t.tlen) := by
  induction p generalizing t with
  | nil => exact .refl t _
  | cons ch p ih =>
      unfold copyToken
      split
      · exact .refl t _
      next hend =>
        have hstep := (covers_putc (t := t) ch).trans (ih (t.putc ch))
        rw [wordAccesses, if_neg hend]
        exact hstep.mono (List.subset_cons_self _ _)

theorem covers_round (h : lexanRound p t = .token p' t') :
    Covers t t' (roundAccesses n p t) := by
  have hroom := (lexanRound_token h).1
  unfold lexanRound at h
  unfold roundAccesses
  rw [if_neg (Nat.not_le.mpr hroom)] at h ⊢
  refine Covers.mono ?_ (List.subset_append_right _ _)
  cases hskip : skipBlanks p with
  | nil =>
      rw [hskip] at h
      contradiction
  | cons ch q =>
      rw [hskip] at h
      dsimp only at h ⊢
      split at h
      · contradiction
      next hline =>
      have hnot : ¬ EndsLine ch := hline
      rw [if_neg hnot]
      unfold tokenAccesses
      have hsign : ∀ ty, Covers t ((t.start ty).putc ch).finish
          ([.tok t.ntok, .toktyp t.ntok] ++ [.tokbuf t.tlen, .tokbuf (t.tlen + 1)]) := fun ty =>
        (covers_start ty).trans ((covers_putc ch).trans covers_finish)
      by_cases hamper : ch = shAmper
      · rw [if_pos hamper] at h
        cases h
        rw [if_pos (Or.inl hamper)]
        exact hsign _
      by_cases hless : ch = shLess
      · rw [if_neg hamper, if_pos hless] at h
        cases h
        rw [if_pos (Or.inr (Or.inl hless))]
        exact hsign _
      by_cases hgreater : ch = shGreater
      · rw [if_neg hamper, if_neg hless, if_pos hgreater] at h
        cases h
        rw [if_pos (Or.inr (Or.inr hgreater))]
        exact hsign _
      rw [if_neg hamper, if_neg hless, if_neg hgreater] at h
      rw [if_neg (by tauto)]
      by_cases hquote : ch = shSquote ∨ ch = shDquote
      · rw [if_pos hquote] at h ⊢
        cases hcopy : copyQuoted ch q (t.start .other) with
        | none =>
            rw [hcopy] at h
            contradiction
        | some r =>
            rw [hcopy] at h
            cases h
            exact (covers_start _).trans ((covers_copyQuoted hcopy).trans covers_finish)
      · rw [if_neg hquote] at h ⊢
        have hword := covers_copyToken (n := n) q ((t.start .other).putc ch)
        cases hcopy : copyToken q ((t.start .other).putc ch) with
        | mk q' t₁ =>
            rw [hcopy] at h hword
            dsimp only at h ⊢
            split at h
            · contradiction
            next happ =>
            cases h
            rw [if_neg happ]
            exact (covers_start _).trans
              ((covers_putc ch).trans (hword.trans covers_finish))

theorem covers_loop (h : lexanLoop p t = some t') : Covers t t' (lexanLoopAccesses n p t) := by
  induction p, t using lexanLoop.induct with
  | case1 p t hend =>
      rw [lexanLoop, if_pos hend] at h
      cases h
      exact .refl _ _
  | case2 p t hend t₁ hround =>
      rw [lexanLoop, if_neg hend] at h
      split at h
      next hdone =>
        cases h
        rw [lexanRound_done hdone]
        exact .refl _ _
      all_goals simp_all
  | case3 p t hend hround =>
      rw [lexanLoop, if_neg hend] at h
      split at h <;> simp_all
  | case4 p t hend p₁ t₁ hround ih =>
      rw [lexanLoop, if_neg hend] at h
      rw [lexanLoopAccesses, if_neg hend]
      split at h
      · simp_all
      · cases h
      next p₂ t₂ hround₂ =>
        rw [hround] at hround₂
        cases hround₂
        refine Covers.mono ((covers_round (n := n) hround).trans (ih h)) ?_
        refine List.Subset.trans ?_ (List.subset_cons_self _ _)
        split
        · next hround' =>
            rw [hround] at hround'
            cases hround'
            exact List.Subset.refl _
        · next hround' =>
            rw [hround] at hround'
            contradiction
        · next hround' =>
            rw [hround] at hround'
            contradiction

/-- Where `lexan` leaves something else in an array, it has written there. -/
theorem covers_lexan {line : List UInt8} (h : lexan line t = some t') :
    Covers t t' (lexanAccesses line t) := by
  have hcovers := covers_loop (n := line.length) h
  exact ⟨hcovers.tokbuf, hcovers.tok, hcovers.toktyp⟩

end Covers

/-! ## Bounds -/

/-- The access reads the line up to its end at `m`, or writes inside the arrays, of which
`tokbuf` has `b` places. -/
def Within (m b : Nat) : LexAccess → Prop
  | .read i => i ≤ m
  | .tokbuf i => i < b
  | .tok i | .toktyp i => i < shellMaxtok

section Bounds

variable {m b b' k : Nat} {a : LexAccess} {s s' rest : List UInt8} {e ch quote : UInt8}
variable {t t' : Lexed}

theorem Within.mono (h : Within m b a) (hle : b ≤ b') : Within m b' a := by
  cases a with
  | read i => exact h
  | tokbuf i => exact Nat.lt_of_lt_of_le h hle
  | tok i => exact h
  | toktyp i => exact h

/-- A place of the line is read before the end of the line or there. -/
theorem within_readAt (hs : s.length ≤ m) :
    Within m b (readAt (m + 1 + rest.length) (s ++ e :: rest)) := by
  show m + 1 + rest.length - (s ++ e :: rest).length ≤ m
  rw [List.length_append, List.length_cons]
  omega

theorem skipAccesses_within (hs : s.length ≤ m) (he : EndsLine e)
    (ha : a ∈ skipAccesses (m + 1 + rest.length) (s ++ e :: rest)) : Within m b a := by
  induction s with
  | nil =>
      rw [List.nil_append, skipAccesses, if_neg he.not_isBlank, List.mem_singleton] at ha
      rw [ha]
      exact within_readAt (s := []) hs
  | cons ch s ih =>
      rw [List.cons_append, skipAccesses, List.mem_cons] at ha
      rcases ha with rfl | ha
      · exact within_readAt (s := ch :: s) hs
      · split at ha
        · exact ih (Nat.le_of_succ_le hs) ha
        · contradiction

theorem quotedAccesses_within (hs : s.length ≤ m) (he : EndsLine e)
    (ha : a ∈ quotedAccesses (m + 1 + rest.length) quote (s ++ e :: rest) k) :
    Within m (k + s.length) a := by
  induction s generalizing k with
  | nil =>
      rw [List.nil_append, quotedAccesses, if_pos (Or.inr he), List.mem_singleton] at ha
      rw [ha]
      exact within_readAt (s := []) hs
  | cons ch s ih =>
      rw [List.cons_append, quotedAccesses, List.mem_cons] at ha
      rcases ha with rfl | ha
      · exact within_readAt (s := ch :: s) hs
      · split at ha
        · contradiction
        · rcases List.mem_cons.mp ha with rfl | ha
          · show k < k + (s.length + 1)
            omega
          · exact (ih (Nat.le_of_succ_le hs) ha).mono (by simp only [List.length_cons]; omega)

theorem wordAccesses_within (hs : s.length ≤ m) (he : EndsLine e)
    (ha : a ∈ wordAccesses (m + 1 + rest.length) (s ++ e :: rest) k) :
    Within m (k + s.length) a := by
  induction s generalizing k with
  | nil =>
      rw [List.nil_append, wordAccesses, if_pos he.endsToken, List.mem_singleton] at ha
      rw [ha]
      exact within_readAt (s := []) hs
  | cons ch s ih =>
      rw [List.cons_append, wordAccesses, List.mem_cons] at ha
      rcases ha with rfl | ha
      · exact within_readAt (s := ch :: s) hs
      · split at ha
        · contradiction
        · rcases List.mem_cons.mp ha with rfl | ha
          · show k < k + (s.length + 1)
            omega
          · exact (ih (Nat.le_of_succ_le hs) ha).mono (by simp only [List.length_cons]; omega)

/-- The blanks before a token are skipped. -/
theorem skipBlanks_suffix (he : EndsLine e) :
    ∃ s', s' <:+ s ∧ skipBlanks (s ++ e :: rest) = s' ++ e :: rest := by
  induction s with
  | nil => exact ⟨[], List.suffix_refl _, skipBlanks_other he.not_isBlank⟩
  | cons ch s ih =>
      by_cases hch : IsBlank ch
      · obtain ⟨s', hsuffix, heq⟩ := ih
        exact ⟨s', hsuffix.trans (List.suffix_cons ch s), (skipBlanks_blank hch).trans heq⟩
      · exact ⟨ch :: s, List.suffix_refl _, skipBlanks_other hch⟩

/-- A token takes no more of `tokbuf` than its characters and a null character. -/
theorem tokenAccesses_within (hs : s.length < m) (hplain : Plain s) (he : EndsLine e)
    (hroom : t.ntok < shellMaxtok)
    (ha : a ∈ tokenAccesses (m + 1 + rest.length) ch (s ++ e :: rest) t) :
    Within m (t.tlen + s.length + 2) a := by
  unfold tokenAccesses at ha
  rcases List.mem_append.mp ha with ha | ha
  · rw [List.mem_cons, List.mem_singleton] at ha
    rcases ha with rfl | rfl
    · exact hroom
    · exact hroom
  split at ha
  · rw [List.mem_cons, List.mem_singleton] at ha
    rcases ha with rfl | rfl
    · show t.tlen < _
      omega
    · show t.tlen + 1 < _
      omega
  split at ha
  next hquote =>
    rcases List.mem_append.mp ha with ha | ha
    · exact (quotedAccesses_within (Nat.le_of_lt hs) he ha).mono (by omega)
    · split at ha
      · contradiction
      next p t₁ hcopy =>
        have hne : e ≠ ch := by
          rintro rfl
          rcases hquote with rfl | rfl
          · exact absurd he (by decide)
          · exact absurd he (by decide)
        obtain ⟨body, s', rfl, hbody⟩ := copyQuoted_closed hplain he hne hcopy
        have hbodyPlain := hplain.append.1
        rw [List.append_assoc, List.cons_append, copyQuoted_body hbody hbodyPlain] at hcopy
        cases hcopy
        rw [List.mem_singleton.mp ha]
        show (body.foldl Lexed.putc (t.start .other)).tlen < _
        rw [tlen_foldl_putc, List.length_append]
        show t.tlen + body.length < _
        omega
  · rcases List.mem_cons.mp ha with rfl | ha
    · show t.tlen < _
      omega
    rcases List.mem_append.mp ha with ha | ha
    · exact (wordAccesses_within (Nat.le_of_lt hs) he ha).mono (by omega)
    · obtain ⟨w, s', rfl, -, -, hcopy⟩ := copyToken_line s rest ((t.start .other).putc ch) he
      rw [hcopy] at ha
      dsimp only at ha
      split at ha
      · contradiction
      · rw [List.mem_singleton.mp ha]
        show (w.foldl Lexed.putc ((t.start .other).putc ch)).tlen < _
        rw [tlen_foldl_putc, List.length_append]
        show t.tlen + 1 + w.length < _
        omega

theorem roundAccesses_within (hs : s.length ≤ m) (hplain : Plain s) (he : EndsLine e)
    (hlen : t.tlen + s.length ≤ m + t.ntok)
    (ha : a ∈ roundAccesses (m + 1 + rest.length) (s ++ e :: rest) t) :
    Within m (m + shellMaxtok) a := by
  unfold roundAccesses at ha
  split at ha
  · contradiction
  next hfull =>
  rcases List.mem_append.mp ha with ha | ha
  · exact skipAccesses_within hs he ha
  obtain ⟨s₁, hsuffix, hskip⟩ : ∃ s₁, s₁ <:+ s ∧ skipBlanks (s ++ e :: rest) = s₁ ++ e :: rest :=
    skipBlanks_suffix he
  rw [hskip] at ha
  cases s₁ with
  | nil =>
      rw [List.nil_append] at ha
      dsimp only at ha
      rw [if_pos he] at ha
      contradiction
  | cons ch u =>
      have hle := hsuffix.length_le
      rw [List.length_cons] at hle
      have hu : Plain u := fun c hc => hplain c (hsuffix.mem (List.mem_cons_of_mem ch hc))
      rw [List.cons_append] at ha
      dsimp only at ha
      split at ha
      · contradiction
      · exact (tokenAccesses_within (by omega) hu he (Nat.lt_of_not_le hfull) ha).mono (by omega)

/-- The text of a token is a part of the line. -/
theorem Starts.length_le {k : Token} (h : Starts k s s') :
    k.text.length + s'.length ≤ s.length := by
  cases h with
  | amper => simp [Token.text]; omega
  | less => simp [Token.text]; omega
  | greater => simp [Token.text]; omega
  | quoted body s' => simp [Token.text]; omega
  | word ch w s' => simp [Token.text]; omega

/-- The loop has no more tokens than characters of the line and of `tokbuf` tell. -/
theorem lexanLoopAccesses_within (hs : s.length ≤ m) (hplain : Plain s) (he : EndsLine e)
    (hlen : t.tlen + s.length ≤ m + t.ntok)
    (ha : a ∈ lexanLoopAccesses (m + 1 + rest.length) (s ++ e :: rest) t) :
    Within m (m + shellMaxtok) a := by
  induction hn : s.length using Nat.strong_induction_on generalizing s t with
  | _ n ih =>
      subst hn
      rw [lexanLoopAccesses] at ha
      split at ha
      · rw [List.mem_singleton.mp ha]
        exact within_readAt hs
      rcases List.mem_cons.mp ha with rfl | ha
      · exact within_readAt hs
      rcases List.mem_append.mp ha with ha | ha
      · exact roundAccesses_within hs hplain he hlen ha
      split at ha
      next p' t' hround =>
        obtain ⟨-, k, s₁, s', hsuffix, hk, rfl, rfl⟩ := starts_of_token hplain he hround
        have hle := hsuffix.length_le
        have htext := hk.length_le
        have hshort : s'.length < s.length := by
          obtain ⟨x, z, hsplit, -⟩ := hk.last
          rw [hsplit, List.length_append, List.length_cons] at hle
          omega
        have hplain' : Plain s' := hk.plain fun c hc => hplain c (hsuffix.mem hc)
        refine ih _ hshort (by omega) hplain' ?_ ha rfl
        rw [tlen_put, ntok_put]
        omega
      · contradiction
      · contradiction

end Bounds

/-- The access reads the line up to its end at `m`, or writes inside the arrays. -/
def Inside (m : Nat) : LexAccess → Prop
  | .read i => i ≤ m
  | .tokbuf i => i < shellBuflen + shellMaxtok
  | .tok i | .toktyp i => i < shellMaxtok

section Lexan

variable {a : LexAccess} {s rest : List UInt8} {e : UInt8} {t t' : Lexed}

/--
For a line that is terminated within `SHELL_BUFLEN` characters, `lexan` writes only inside
its arrays and reads nothing behind the end of the line, whether it returns a count or
`SYSERR`.  When it returns a count, the arrays hold a list of tokens: the strings lie one
after another from the start of `tokbuf` up to `tlen`, and `tok` has their indexes.
-/
theorem lexan_inside (t : Lexed) (rest : List UInt8) (hs : Plain s) (he : EndsLine e)
    (hlen : s.length < shellBuflen) :
    (∀ a ∈ lexanAccesses (s ++ e :: rest) t, Inside s.length a) ∧
      ∀ t', lexan (s ++ e :: rest) t = some t' →
        ∃ toks, Holds t' toks ∧ toks.length ≤ shellMaxtok := by
  constructor
  · intro a ha
    have hline : (s ++ e :: rest).length = s.length + 1 + rest.length := by
      rw [List.length_append, List.length_cons]
      omega
    unfold lexanAccesses at ha
    rw [hline] at ha
    have hwithin := lexanLoopAccesses_within (Nat.le_refl _) hs he (by simp) ha
    cases a with
    | read i => exact hwithin
    | tokbuf i => exact Nat.lt_of_lt_of_le hwithin (Nat.add_le_add_right (Nat.le_of_lt hlen) _)
    | tok i => exact hwithin
    | toktyp i => exact hwithin
  · intro t' hsome
    obtain ⟨toks, hholds, hmax, -⟩ := lexan_holds hsome
    exact ⟨toks, hholds, hmax⟩

/-- The line `ls`. -/
theorem lexan_inside_ls :
    (∀ a ∈ lexanAccesses ([108, 115] ++ shNewline :: []) emptyLexed, Inside 2 a) ∧
      ∀ t', lexan ([108, 115] ++ shNewline :: []) emptyLexed = some t' →
        ∃ toks, Holds t' toks ∧ toks.length ≤ shellMaxtok :=
  lexan_inside emptyLexed [] (by decide) (by decide) (by decide)

end Lexan

end Shell
end Xinu
