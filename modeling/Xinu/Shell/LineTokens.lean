import Xinu.Shell.Lexan
import Mathlib.Data.List.TakeWhile

/-!
# The tokens of a line

A text divides into tokens with blanks before, between and behind them.  A word ends
before the next blank or sign; a quoted string is a word by itself.  Here the text of a
line is compared with what `lexan` makes of it.

Main results:

- Theorem `lexanLoop_divides`: a text that divides into tokens is accepted if they are not
  too many, where blanks at its end count as one more.
- Theorem `blanks_ignored_iff`: blanks around a text make no difference, unless it has as
  many tokens as the shell takes.
-/

namespace Xinu
namespace Shell

open Foundations Function

/-! ## Texts -/

def IsBlank (ch : UInt8) : Prop :=
  ch = shBlank ∨ ch = shTab

instance (ch : UInt8) : Decidable (IsBlank ch) :=
  inferInstanceAs (Decidable (_ ∨ _))

/-- A line is terminated with a newline or a null character. -/
def EndsLine (ch : UInt8) : Prop :=
  ch = shNewline ∨ ch = nullch

instance (ch : UInt8) : Decidable (EndsLine ch) :=
  inferInstanceAs (Decidable (_ ∨ _))

/-- The text of a line, without the character that ends it. -/
def Plain (s : List UInt8) : Prop :=
  ∀ ch ∈ s, ¬ EndsLine ch

instance (s : List UInt8) : Decidable (Plain s) :=
  List.decidableBAll (fun ch => ¬ EndsLine ch) s

/-- There is whitespace behind the last token. -/
def EndsInBlank (s : List UInt8) : Prop :=
  ∃ ch ∈ s.getLast?, IsBlank ch

instance (s : List UInt8) : Decidable (EndsInBlank s) :=
  match hlast : s.getLast? with
  | none => isFalse fun ⟨_, hmem, _⟩ => nomatch hlast.symm.trans hmem
  | some ch =>
      decidable_of_iff (IsBlank ch)
        ⟨fun h => ⟨ch, hlast, h⟩, fun ⟨_, hmem, h⟩ => Option.some_inj.mp (hlast.symm.trans hmem) ▸ h⟩

/-- The token stands at the front of a text, and the rest of the text is behind it. -/
inductive Starts : Token → List UInt8 → List UInt8 → Prop
  | amper (s : List UInt8) : Starts .amper (shAmper :: s) s
  | less (s : List UInt8) : Starts .less (shLess :: s) s
  | greater (s : List UInt8) : Starts .greater (shGreater :: s) s
  | quoted (body s : List UInt8) {quote : UInt8} (hquote : quote = shSquote ∨ quote = shDquote)
      (hbody : quote ∉ body) : Starts (.other body) (quote :: (body ++ quote :: s)) s
  | word (ch : UInt8) (w s : List UInt8) (hch : ¬ EndsToken ch) (hw : ∀ ch ∈ w, ¬ EndsToken ch)
      (hend : ∀ ch ∈ s.head?, EndsToken ch) (hapart : ¬ Appended s) :
      Starts (.other (ch :: w)) (ch :: (w ++ s)) s

/-- The text divides into these tokens. -/
inductive Divides : List UInt8 → List Token → Prop
  | nil : Divides [] []
  | blank {ch : UInt8} {s : List UInt8} {toks : List Token} (hch : IsBlank ch)
      (h : Divides s toks) : Divides (ch :: s) toks
  | token {k : Token} {s s' : List UInt8} {toks : List Token} (hk : Starts k s s')
      (h : Divides s' toks) : Divides s (k :: toks)

section Texts

variable {s s' s₁ s₂ trail lead : List UInt8} {k : Token} {toks : List Token} {ch : UInt8}

theorem not_isBlank_of_not_endsToken (h : ¬ EndsToken ch) : ¬ IsBlank ch := by
  rintro (rfl | rfl)
  · exact h (by decide)
  · exact h (by decide)

theorem Plain.append (h : Plain (s ++ s')) : Plain s ∧ Plain s' :=
  ⟨fun ch hch => h ch (List.mem_append_left _ hch),
    fun ch hch => h ch (List.mem_append_right _ hch)⟩

theorem Plain.tail (h : Plain (ch :: s)) : Plain s :=
  fun c hc => h c (List.mem_cons_of_mem ch hc)

/-- A token is followed by what is behind its last character, which is no blank. -/
theorem Starts.last (h : Starts k s s') : ∃ x z, s = x ++ z :: s' ∧ ¬ IsBlank z := by
  cases h with
  | amper => exact ⟨[], shAmper, rfl, by decide⟩
  | less => exact ⟨[], shLess, rfl, by decide⟩
  | greater => exact ⟨[], shGreater, rfl, by decide⟩
  | @quoted body s quote hquote hbody =>
      refine ⟨quote :: body, quote, rfl, ?_⟩
      rcases hquote with rfl | rfl
      · decide
      · decide
  | word ch w s hch hw =>
      rcases List.eq_nil_or_concat' w with rfl | ⟨w, z, rfl⟩
      · exact ⟨[], ch, rfl, not_isBlank_of_not_endsToken hch⟩
      · refine ⟨ch :: w, z, by simp, not_isBlank_of_not_endsToken (hw z (by simp))⟩

theorem Starts.ne_nil (h : Starts k s s') : s ≠ [] := by
  obtain ⟨x, z, rfl, -⟩ := h.last
  simp

theorem Starts.not_isBlank (h : Starts k (ch :: s) s') : ¬ IsBlank ch := by
  cases h with
  | amper => decide
  | less => decide
  | greater => decide
  | quoted body s hquote hbody =>
      rcases hquote with rfl | rfl
      · decide
      · decide
  | word ch w s hch => exact not_isBlank_of_not_endsToken hch

theorem Starts.plain (h : Starts k s s') (hs : Plain s) : Plain s' := by
  obtain ⟨x, z, rfl, -⟩ := h.last
  exact hs.append.2.tail

theorem not_endsInBlank_nil : ¬ EndsInBlank [] := by
  rintro ⟨ch, hch, -⟩
  simp at hch

theorem endsInBlank_append (hne : s' ≠ []) : EndsInBlank (s ++ s') ↔ EndsInBlank s' := by
  unfold EndsInBlank
  rw [List.getLast?_append_of_ne_nil s hne]

theorem Starts.endsInBlank_iff (h : Starts k s s') : EndsInBlank s ↔ EndsInBlank s' := by
  obtain ⟨x, z, rfl, hz⟩ := h.last
  rw [endsInBlank_append (List.cons_ne_nil z s')]
  cases s' with
  | nil =>
      refine iff_of_false ?_ not_endsInBlank_nil
      rintro ⟨ch, hch, hblank⟩
      obtain rfl : z = ch := by simpa using hch
      exact hz hblank
  | cons c s' => exact endsInBlank_append (s := [z]) (List.cons_ne_nil c s')

/-! ## Blanks around a text -/

/-- Blanks at the end of a text belong to no token. -/
theorem Starts.of_append (h : Starts k (s ++ trail) s₁) (htrail : ∀ ch ∈ trail, IsBlank ch) :
    ∃ s₂, s₁ = s₂ ++ trail ∧ Starts k s s₂ := by
  obtain ⟨x, z, hsplit, hz⟩ := h.last
  have hinside : ∃ s₂, s = x ++ z :: s₂ ∧ s₁ = s₂ ++ trail := by
    rcases List.append_eq_append_iff.mp hsplit with ⟨a, rfl, ha⟩ | ⟨c, rfl, hc⟩
    · exact absurd (htrail z (by rw [ha]; simp)) hz
    · cases c with
      | nil => exact absurd (htrail z (by rw [← List.nil_append trail, ← hc]; simp)) hz
      | cons z' c =>
          obtain ⟨rfl, hrest⟩ := List.cons.inj hc
          exact ⟨c, rfl, hrest⟩
  obtain ⟨s₂, rfl, rfl⟩ := hinside
  refine ⟨s₂, rfl, ?_⟩
  generalize hu : x ++ z :: s₂ ++ trail = u at h
  generalize hv : s₂ ++ trail = v at h
  -- the text of the token, with `s₂` behind it
  have hcut : ∀ y, u = y ++ v → x ++ z :: s₂ = y ++ s₂ := by
    intro y hy
    rw [← hu, ← hv, ← List.append_assoc] at hy
    exact List.append_cancel_right hy
  cases h with
  | amper =>
      rw [hcut [shAmper] rfl]
      exact .amper s₂
  | less =>
      rw [hcut [shLess] rfl]
      exact .less s₂
  | greater =>
      rw [hcut [shGreater] rfl]
      exact .greater s₂
  | @quoted body _ quote hquote hbody =>
      rw [hcut (quote :: (body ++ [quote])) (by simp)]
      have hstart := Starts.quoted body s₂ hquote hbody
      simpa using hstart
  | word ch w _ hch hw hend hapart =>
      rw [hcut (ch :: w) rfl]
      refine .word ch w s₂ hch hw ?_ ?_
      · intro c hc
        apply hend c
        rw [← hv]
        exact List.mem_head?_append_of_mem_head? hc
      · intro happ
        apply hapart
        cases s₂ with
        | nil => exact absurd happ (by decide)
        | cons c s₂ =>
            rw [← hv]
            exact happ

theorem Divides.of_blank (h : Divides (ch :: s) toks) (hch : IsBlank ch) : Divides s toks := by
  cases h with
  | blank _ h => exact h
  | token hk _ => exact absurd hch hk.not_isBlank

theorem divides_lead (hlead : ∀ ch ∈ lead, IsBlank ch) :
    Divides (lead ++ s) toks ↔ Divides s toks := by
  induction lead with
  | nil => rfl
  | cons ch lead ih =>
      have hblank := hlead ch List.mem_cons_self
      rw [← ih fun c hc => hlead c (List.mem_cons_of_mem ch hc)]
      exact ⟨fun h => h.of_blank hblank, fun h => .blank hblank h⟩

/-- A text of blanks has no tokens. -/
theorem Divides.eq_nil (h : Divides s toks) (hs : ∀ ch ∈ s, IsBlank ch) : toks = [] := by
  induction h with
  | nil => rfl
  | blank _ _ ih => exact ih fun c hc => hs c (List.mem_cons_of_mem _ hc)
  | token hk _ _ =>
      obtain ⟨x, z, rfl, hz⟩ := hk.last
      exact absurd (hs z (by simp)) hz

theorem Divides.of_append (h : Divides (s ++ trail) toks) (htrail : ∀ ch ∈ trail, IsBlank ch) :
    Divides s toks := by
  generalize hu : s ++ trail = u at h
  induction h generalizing s with
  | nil =>
      rw [(List.append_eq_nil_iff.mp hu).1]
      exact .nil
  | @blank ch u toks hch h ih =>
      cases s with
      | nil =>
          rw [List.nil_append] at hu
          rw [hu] at htrail
          rw [h.eq_nil fun c hc => htrail c (List.mem_cons_of_mem ch hc)]
          exact .nil
      | cons c s =>
          obtain ⟨rfl, hrest⟩ := List.cons.inj hu
          exact .blank hch (ih hrest)
  | token hk h ih =>
      subst hu
      obtain ⟨s₂, rfl, hk'⟩ := hk.of_append htrail
      exact .token hk' (ih rfl)

/-- A token is as well followed by blanks. -/
theorem Starts.append (h : Starts k s s') (htrail : ∀ ch ∈ trail, IsBlank ch) :
    Starts k (s ++ trail) (s' ++ trail) := by
  cases h with
  | amper => exact .amper _
  | less => exact .less _
  | greater => exact .greater _
  | @quoted body s' quote hquote hbody =>
      have hstart := Starts.quoted body (s' ++ trail) hquote hbody
      simpa using hstart
  | word ch w s' hch hw hend hapart =>
      rw [List.cons_append, List.append_assoc]
      cases s' with
      | nil =>
          cases trail with
          | nil => exact .word ch w [] hch hw hend hapart
          | cons c trail =>
              have hc := htrail c List.mem_cons_self
              refine .word ch w (c :: trail) hch hw ?_ ?_
              · intro c' hc'
                obtain rfl : c = c' := by simpa using hc'
                rcases hc with rfl | rfl
                · decide
                · decide
              · unfold Appended
                rw [List.headD_cons]
                rcases hc with rfl | rfl
                · decide
                · decide
      | cons c s' => exact .word ch w (c :: s' ++ trail) hch hw hend hapart

theorem divides_trail (htrail : ∀ ch ∈ trail, IsBlank ch) :
    Divides (s ++ trail) toks ↔ Divides s toks := by
  refine ⟨fun h => h.of_append htrail, fun h => ?_⟩
  induction h with
  | nil =>
      have hblank : Divides (trail ++ []) [] := (divides_lead htrail).mpr .nil
      simpa using hblank
  | blank hch _ ih => exact .blank hch ih
  | token hk _ ih => exact .token (hk.append htrail) ih

/-! ## The arrays -/

/-- The token is added to the arrays. -/
def Lexed.put (t : Lexed) (k : Token) : Lexed :=
  (k.text.foldl Lexed.putc (t.start k.type)).finish

def Lexed.putAll (t : Lexed) (toks : List Token) : Lexed :=
  toks.foldl Lexed.put t

end Texts

section Arrays

variable {t : Lexed} {toks done : List Token} {ty : TokType} {k : Token} {s text : List UInt8}

theorem Begun.putAll (h : Begun t done ty s) (htext : nullch ∉ text) :
    Begun (text.foldl Lexed.putc t) done ty (s ++ text) := by
  induction text generalizing t s with
  | nil =>
      rw [List.append_nil]
      exact h
  | cons ch text ih =>
      rw [List.mem_cons, not_or] at htext
      have hnext := ih (h.putc (Ne.symm htext.1)) htext.2
      rwa [List.append_assoc] at hnext

theorem Holds.put (h : Holds t done) (hk : nullch ∉ k.text) : Holds (t.put k) (done ++ [k]) := by
  have hbegun := (h.start k.type).putAll hk
  rw [List.nil_append] at hbegun
  exact hbegun.finish

theorem Holds.putAll (h : Holds t done) (htoks : ∀ k ∈ toks, nullch ∉ k.text) :
    Holds (t.putAll toks) (done ++ toks) := by
  induction toks generalizing t done with
  | nil =>
      rw [List.append_nil]
      exact h
  | cons k toks ih =>
      have hnext := ih (h.put (htoks k List.mem_cons_self)) fun k' hk' =>
        htoks k' (List.mem_cons_of_mem k hk')
      rwa [List.append_assoc] at hnext

theorem ntok_foldl_putc (text : List UInt8) (t : Lexed) :
    (text.foldl Lexed.putc t).ntok = t.ntok := by
  induction text generalizing t with
  | nil => rfl
  | cons ch text ih =>
      rw [List.foldl_cons, ih]
      rfl

theorem tlen_foldl_putc (text : List UInt8) (t : Lexed) :
    (text.foldl Lexed.putc t).tlen = t.tlen + text.length := by
  induction text generalizing t with
  | nil => rfl
  | cons ch text ih =>
      rw [List.foldl_cons, ih]
      simp only [Lexed.putc, List.length_cons]
      omega

theorem tlen_put : (t.put k).tlen = t.tlen + k.text.length + 1 := by
  show (k.text.foldl Lexed.putc (t.start k.type)).tlen + 1 = _
  rw [tlen_foldl_putc]
  rfl

theorem ntok_put : (t.put k).ntok = t.ntok + 1 := by
  show (k.text.foldl Lexed.putc (t.start k.type)).ntok + 1 = _
  rw [ntok_foldl_putc]
  rfl

end Arrays

/-! ## One round -/

section Round

variable {t t' : Lexed} {p p' s s' rest : List UInt8} {ch quote e : UInt8} {k : Token}

theorem skipBlanks_blank (hch : IsBlank ch) : skipBlanks (ch :: p) = skipBlanks p :=
  if_pos hch

theorem skipBlanks_other (hch : ¬ IsBlank ch) : skipBlanks (ch :: p) = ch :: p :=
  if_neg hch

/-- Blanks before a token make no difference to a round. -/
theorem lexanRound_blank (hch : IsBlank ch) : lexanRound (ch :: p) t = lexanRound p t := by
  unfold lexanRound
  rw [skipBlanks_blank hch]

theorem copyQuoted_putc (hne : ch ≠ quote) (hch : ¬ EndsLine ch) :
    copyQuoted quote (ch :: p) t = copyQuoted quote p (t.putc ch) :=
  (if_neg hne).trans (if_neg hch)

theorem copyQuoted_open (hne : ch ≠ quote) (hch : EndsLine ch) :
    copyQuoted quote (ch :: p) t = none :=
  (if_neg hne).trans (if_pos hch)

theorem copyQuoted_body (hquote : quote ∉ s) (hs : Plain s) :
    copyQuoted quote (s ++ quote :: p) t = some (p, s.foldl Lexed.putc t) := by
  induction s generalizing t with
  | nil => exact if_pos rfl
  | cons ch s ih =>
      rw [List.mem_cons, not_or] at hquote
      rw [List.cons_append, copyQuoted_putc (Ne.symm hquote.1) (hs ch List.mem_cons_self),
        ih hquote.2 hs.tail]
      rfl

/-- A quoted string ends before the line does. -/
theorem copyQuoted_closed (hs : Plain s) (he : EndsLine e) (hne : e ≠ quote)
    (h : copyQuoted quote (s ++ e :: rest) t = some (p', t')) :
    ∃ body s', s = body ++ quote :: s' ∧ quote ∉ body := by
  induction s generalizing t with
  | nil =>
      rw [List.nil_append, copyQuoted_open hne he] at h
      exact nomatch h
  | cons ch s ih =>
      by_cases hch : ch = quote
      · exact ⟨[], s, by rw [hch, List.nil_append], List.not_mem_nil⟩
      · rw [List.cons_append, copyQuoted_putc hch (hs ch List.mem_cons_self)] at h
        obtain ⟨body, s', rfl, hbody⟩ := ih hs.tail h
        refine ⟨ch :: body, s', rfl, ?_⟩
        rw [List.mem_cons, not_or]
        exact ⟨Ne.symm hch, hbody⟩

theorem copyToken_word (hs : ∀ ch ∈ s, ¬ EndsToken ch) (hend : ∀ ch ∈ p.head?, EndsToken ch) :
    copyToken (s ++ p) t = (p, s.foldl Lexed.putc t) := by
  induction s generalizing t with
  | nil =>
      cases p with
      | nil => rfl
      | cons ch p => exact if_pos (hend ch rfl)
  | cons ch s ih =>
      rw [List.cons_append, copyToken, if_neg (hs ch List.mem_cons_self),
        ih fun c hc => hs c (List.mem_cons_of_mem ch hc)]
      rfl

theorem EndsLine.endsToken (he : EndsLine e) : EndsToken e := by
  rcases he with rfl | rfl
  · decide
  · decide

theorem EndsLine.not_isBlank (he : EndsLine e) : ¬ IsBlank e := by
  rcases he with rfl | rfl
  · decide
  · decide

/-- The end of the line is reached. -/
theorem lexanRound_last (hroom : t.ntok < shellMaxtok) (he : EndsLine e) :
    lexanRound (e :: rest) t = .done t := by
  unfold lexanRound
  rw [if_neg (Nat.not_le.mpr hroom), skipBlanks_other he.not_isBlank]
  exact if_pos he

theorem EndsLine.not_appended (he : EndsLine e) : ¬ Appended (e :: rest) := by
  unfold Appended
  rw [List.headD_cons]
  rcases he with rfl | rfl
  · decide
  · decide

/-- The head of a text with the end of the line behind it. -/
theorem endsToken_head (rest : List UInt8) (he : EndsLine e) (hend : ∀ ch ∈ s.head?, EndsToken ch) :
    ∀ ch ∈ (s ++ e :: rest).head?, EndsToken ch := by
  cases s with
  | nil =>
      intro ch hch
      obtain rfl : e = ch := by simpa using hch
      exact he.endsToken
  | cons c s => exact hend

theorem appended_append (he : EndsLine e) : Appended (s ++ e :: rest) ↔ Appended s := by
  cases s with
  | nil => exact iff_of_false he.not_appended (by decide)
  | cons c s => exact Iff.rfl

/-- A word goes to the next character that ends it. -/
theorem copyToken_line (s rest : List UInt8) (t : Lexed) (he : EndsLine e) :
    ∃ w s', s = w ++ s' ∧ (∀ c ∈ w, ¬ EndsToken c) ∧ (∀ c ∈ s'.head?, EndsToken c) ∧
      copyToken (s ++ e :: rest) t = (s' ++ e :: rest, w.foldl Lexed.putc t) := by
  have hw : ∀ c ∈ s.takeWhile (fun c => ¬ EndsToken c), ¬ EndsToken c := by
    intro c hc
    simpa using List.mem_takeWhile_imp hc
  have hend : ∀ c ∈ (s.dropWhile fun c => ¬ EndsToken c).head?, EndsToken c := by
    intro c hc
    have hhead := List.head?_dropWhile_not (fun c => decide (¬ EndsToken c)) s
    rw [Option.mem_def.mp hc] at hhead
    simpa using hhead
  have hsplit := List.takeWhile_append_dropWhile (p := fun c => decide (¬ EndsToken c)) (l := s)
  have hcopy := copyToken_word (t := t) hw (endsToken_head rest he hend)
  rw [← List.append_assoc, hsplit] at hcopy
  exact ⟨_, _, hsplit.symm, hw, hend, hcopy⟩

/-- What a round does with a token at the front of the line. -/
theorem lexanRound_starts (rest : List UInt8) (hroom : t.ntok < shellMaxtok) (hs : Plain s)
    (he : EndsLine e) (hk : Starts k s s') :
    lexanRound (s ++ e :: rest) t = .token (s' ++ e :: rest) (t.put k) := by
  have hlimit : ¬ shellMaxtok ≤ t.ntok := Nat.not_le.mpr hroom
  cases hk with
  | amper => simp [lexanRound, hlimit, skipBlanks_other (show ¬ IsBlank shAmper by decide)]; rfl
  | less => simp [lexanRound, hlimit, skipBlanks_other (show ¬ IsBlank shLess by decide)]; rfl
  | greater => simp [lexanRound, hlimit, skipBlanks_other (show ¬ IsBlank shGreater by decide)]; rfl
  | @quoted body s' quote hquote hbody =>
      have hplain : Plain body := fun c hc => hs c (by simp [hc])
      have hcopy := copyQuoted_body (p := s' ++ e :: rest) (t := t.start .other) hbody hplain
      have hline : quote :: (body ++ quote :: s') ++ e :: rest =
          quote :: (body ++ quote :: (s' ++ e :: rest)) := by simp
      rw [hline]
      rcases hquote with rfl | rfl
      · simp [lexanRound, hlimit, skipBlanks_other (show ¬ IsBlank shSquote by decide), hcopy]
        rfl
      · simp [lexanRound, hlimit, skipBlanks_other (show ¬ IsBlank shDquote by decide), hcopy]
        rfl
  | word ch w s' hch hw hend hapart =>
      have hcopy := copyToken_word (t := (t.start .other).putc ch) hw
        (endsToken_head rest he hend)
      have hother : ¬ Appended (s' ++ e :: rest) := fun h => hapart ((appended_append he).mp h)
      have hblank := not_isBlank_of_not_endsToken hch
      unfold EndsToken at hch
      simp only [not_or] at hch
      rw [List.cons_append, List.append_assoc]
      simp [lexanRound, hlimit, skipBlanks_other hblank, hch, hcopy, hother]
      rfl

/-- What a round needs to find a token. -/
theorem starts_of_round (hroom : t.ntok < shellMaxtok) (hs : Plain (ch :: s)) (he : EndsLine e)
    (hch : ¬ IsBlank ch) (h : lexanRound (ch :: s ++ e :: rest) t = .token p' t') :
    ∃ k s', Starts k (ch :: s) s' := by
  have hlimit : ¬ shellMaxtok ≤ t.ntok := Nat.not_le.mpr hroom
  have hline : ¬ (ch = shNewline ∨ ch = nullch) := hs ch List.mem_cons_self
  by_cases hamper : ch = shAmper
  · exact ⟨.amper, s, hamper ▸ .amper s⟩
  by_cases hless : ch = shLess
  · exact ⟨.less, s, hless ▸ .less s⟩
  by_cases hgreater : ch = shGreater
  · exact ⟨.greater, s, hgreater ▸ .greater s⟩
  unfold lexanRound at h
  rw [List.cons_append, if_neg hlimit, skipBlanks_other hch] at h
  dsimp only at h
  rw [if_neg hline, if_neg hamper, if_neg hless, if_neg hgreater] at h
  by_cases hquote : ch = shSquote ∨ ch = shDquote
  · rw [if_pos hquote] at h
    have hne : e ≠ ch := by
      rintro rfl
      exact hline he
    cases hcopy : copyQuoted ch (s ++ e :: rest) (t.start .other) with
    | none =>
        rw [hcopy] at h
        contradiction
    | some r =>
        obtain ⟨body, s', rfl, hbody⟩ := copyQuoted_closed hs.tail he hne hcopy
        exact ⟨.other body, s', .quoted body s' hquote hbody⟩
  · rw [if_neg hquote] at h
    have hends : ¬ EndsToken ch := by
      unfold EndsToken
      unfold IsBlank at hch
      tauto
    obtain ⟨w, s', rfl, hw, hend, hcopy⟩ := copyToken_line s rest ((t.start .other).putc ch) he
    rw [hcopy] at h
    dsimp only at h
    have hapart : ¬ Appended s' := by
      intro happ
      rw [if_pos ((appended_append he).mpr happ)] at h
      contradiction
    exact ⟨_, _, .word ch w s' hends hw hend hapart⟩

/-- A round finds the token that stands behind the blanks at the front of the text. -/
theorem starts_of_token (hs : Plain s) (he : EndsLine e)
    (h : lexanRound (s ++ e :: rest) t = .token p' t') :
    t.ntok < shellMaxtok ∧ ∃ k s₁ s', s₁ <:+ s ∧ Starts k s₁ s' ∧ p' = s' ++ e :: rest ∧
      t' = t.put k := by
  have hroom := (lexanRound_token h).1
  refine ⟨hroom, ?_⟩
  induction s with
  | nil =>
      rw [List.nil_append, lexanRound_last hroom he] at h
      exact nomatch h
  | cons ch s ih =>
      by_cases hch : IsBlank ch
      · rw [List.cons_append, lexanRound_blank hch] at h
        obtain ⟨k, s₁, s', hsuffix, hrest⟩ := ih hs.tail h
        exact ⟨k, s₁, s', hsuffix.trans (List.suffix_cons ch s), hrest⟩
      · obtain ⟨k, s', hk⟩ := starts_of_round hroom hs he hch h
        rw [lexanRound_starts rest hroom hs he hk] at h
        cases h
        exact ⟨k, ch :: s, s', List.suffix_refl _, hk, rfl, rfl⟩

end Round

/-! ## The loop over a line -/

section Loop

variable {t t' : Lexed} {p p' s s' rest lead trail : List UInt8} {ch e : UInt8}
variable {toks done : List Token} {k : Token}

theorem lexanLoop_end (he : EndsLine e) : lexanLoop (e :: p) t = some t := by
  rw [lexanLoop, List.headD_cons, if_pos (Or.symm he)]

theorem lexanLoop_done (hch : ¬ EndsLine ch) (h : lexanRound (ch :: p) t = .done t') :
    lexanLoop (ch :: p) t = some t' := by
  rw [lexanLoop, List.headD_cons, if_neg fun hend => hch (Or.symm hend)]
  split <;> simp_all

theorem lexanLoop_syserr (hch : ¬ EndsLine ch) (h : lexanRound (ch :: p) t = .syserr) :
    lexanLoop (ch :: p) t = none := by
  rw [lexanLoop, List.headD_cons, if_neg fun hend => hch (Or.symm hend)]
  split <;> simp_all

theorem lexanLoop_token (hch : ¬ EndsLine ch) (h : lexanRound (ch :: p) t = .token p' t') :
    lexanLoop (ch :: p) t = lexanLoop p' t' := by
  rw [lexanLoop, List.headD_cons, if_neg fun hend => hch (Or.symm hend)]
  split <;> simp_all

theorem lexanLoop_full (hfull : shellMaxtok ≤ t.ntok) (hch : ¬ EndsLine ch) :
    lexanLoop (ch :: p) t = none :=
  lexanLoop_syserr hch (if_pos hfull)

/-- A blank before another character of the text. -/
theorem lexanLoop_blank (hch : IsBlank ch) (hline : ¬ EndsLine ch) (hs : Plain s) (hne : s ≠ []) :
    lexanLoop (ch :: s ++ e :: rest) t = lexanLoop (s ++ e :: rest) t := by
  obtain ⟨c, s, rfl⟩ := List.exists_cons_of_ne_nil hne
  have hc := hs c List.mem_cons_self
  have hround : lexanRound (ch :: (c :: s ++ e :: rest)) t = lexanRound (c :: s ++ e :: rest) t :=
    lexanRound_blank hch
  rw [List.cons_append]
  cases hnext : lexanRound (c :: s ++ e :: rest) t with
  | done t' =>
      rw [lexanLoop_done hline (hround.trans hnext)]
      exact (lexanLoop_done hc hnext).symm
  | syserr =>
      rw [lexanLoop_syserr hline (hround.trans hnext)]
      exact (lexanLoop_syserr hc hnext).symm
  | token p' t' =>
      rw [lexanLoop_token hline (hround.trans hnext)]
      exact (lexanLoop_token hc hnext).symm

/-- A blank before the end of the line. -/
theorem lexanLoop_lastBlank (hch : IsBlank ch) (hline : ¬ EndsLine ch) (he : EndsLine e) :
    lexanLoop (ch :: e :: rest) t = if t.ntok < shellMaxtok then some t else none := by
  by_cases hroom : t.ntok < shellMaxtok
  · rw [if_pos hroom]
    exact lexanLoop_done hline ((lexanRound_blank hch).trans (lexanRound_last hroom he))
  · rw [if_neg hroom]
    exact lexanLoop_full (Nat.le_of_not_lt hroom) hline

/-- The number of tokens, and one more for blanks behind the last of them. -/
def needed (s : List UInt8) (toks : List Token) : Nat :=
  toks.length + if EndsInBlank s then 1 else 0

/-- A text that divides into tokens is accepted if there is room for them. -/
theorem lexanLoop_divides (rest : List UInt8) (hs : Plain s) (he : EndsLine e)
    (hroom : t.ntok ≤ shellMaxtok) (h : Divides s toks) : lexanLoop (s ++ e :: rest) t =
      if t.ntok + needed s toks ≤ shellMaxtok then some (t.putAll toks) else none := by
  induction h generalizing t with
  | nil =>
      have hzero : needed [] [] = 0 := by
        unfold needed
        rw [if_neg not_endsInBlank_nil]
        rfl
      rw [List.nil_append, lexanLoop_end he, hzero, if_pos (by omega)]
      rfl
  | @blank ch s toks hch h ih =>
      have hline := hs ch List.mem_cons_self
      cases s with
      | nil =>
          obtain rfl := h.eq_nil fun c hc => absurd hc List.not_mem_nil
          have hone : needed [ch] [] = 1 := by
            unfold needed
            rw [if_pos ⟨ch, rfl, hch⟩]
            rfl
          rw [List.singleton_append, lexanLoop_lastBlank hch hline he, hone]
          by_cases hlt : t.ntok < shellMaxtok
          · rw [if_pos hlt, if_pos (by omega)]
            rfl
          · rw [if_neg hlt, if_neg (by omega)]
      | cons c s =>
          have hsame : needed (ch :: c :: s) toks = needed (c :: s) toks := by
            have hlast : EndsInBlank (ch :: c :: s) ↔ EndsInBlank (c :: s) :=
              endsInBlank_append (s := [ch]) (List.cons_ne_nil c s)
            unfold needed
            rw [if_congr hlast rfl rfl]
          rw [lexanLoop_blank hch hline hs.tail (List.cons_ne_nil c s), ih hs.tail hroom, hsame]
  | @token k s s' toks hk h ih =>
      have hsame : needed s (k :: toks) = needed s' toks + 1 := by
        unfold needed
        rw [if_congr hk.endsInBlank_iff rfl rfl, List.length_cons]
        omega
      rw [hsame]
      obtain ⟨ch, u, rfl⟩ := List.exists_cons_of_ne_nil hk.ne_nil
      have hline := hs ch List.mem_cons_self
      by_cases hlt : t.ntok < shellMaxtok
      · have hround := lexanRound_starts rest hlt hs he hk
        have hntok : (t.put k).ntok = t.ntok + 1 := ntok_put
        have hnext : lexanLoop (ch :: u ++ e :: rest) t = lexanLoop (s' ++ e :: rest) (t.put k) :=
          lexanLoop_token hline hround
        rw [hnext, ih (hk.plain hs) (by omega), hntok, Nat.add_right_comm, Nat.add_assoc]
        rfl
      · rw [if_neg (by omega)]
        exact lexanLoop_full (Nat.le_of_not_lt hlt) hline

/-- Only a text that divides into tokens is accepted. -/
theorem divides_of_lexanLoop (hs : Plain s) (he : EndsLine e)
    (h : lexanLoop (s ++ e :: rest) t = some t') : ∃ toks, Divides s toks := by
  induction hn : s.length using Nat.strong_induction_on generalizing s t with
  | _ n ih =>
      subst hn
      cases s with
      | nil => exact ⟨[], .nil⟩
      | cons ch s =>
          have hline := hs ch List.mem_cons_self
          by_cases hch : IsBlank ch
          · cases s with
            | nil => exact ⟨[], .blank hch .nil⟩
            | cons c s =>
                rw [lexanLoop_blank hch hline hs.tail (List.cons_ne_nil c s)] at h
                obtain ⟨toks, htoks⟩ := ih _ (Nat.lt_succ_self _) hs.tail h rfl
                exact ⟨toks, .blank hch htoks⟩
          · by_cases hroom : t.ntok < shellMaxtok
            · cases hround : lexanRound (ch :: s ++ e :: rest) t with
              | done t₁ =>
                  have hnot : ¬ (ch = shNewline ∨ ch = nullch) := hline
                  unfold lexanRound at hround
                  rw [List.cons_append, if_neg (Nat.not_le.mpr hroom),
                    skipBlanks_other hch] at hround
                  dsimp only at hround
                  rw [if_neg hnot] at hround
                  repeat' split at hround
                  all_goals contradiction
              | syserr =>
                  have hnone : lexanLoop (ch :: s ++ e :: rest) t = none :=
                    lexanLoop_syserr hline hround
                  rw [hnone] at h
                  contradiction
              | token p₁ t₁ =>
                  obtain ⟨k, s', hk⟩ := starts_of_round hroom hs he hch hround
                  rw [lexanRound_starts rest hroom hs he hk] at hround
                  have hnext : lexanLoop (ch :: s ++ e :: rest) t =
                      lexanLoop (s' ++ e :: rest) (t.put k) :=
                    lexanLoop_token hline (lexanRound_starts rest hroom hs he hk)
                  rw [hnext] at h
                  obtain ⟨x, z, hsplit, -⟩ := hk.last
                  have hlen : s'.length < (ch :: s).length := by
                    rw [hsplit, List.length_append, List.length_cons]
                    omega
                  obtain ⟨toks, htoks⟩ := ih _ hlen (hk.plain hs) h rfl
                  exact ⟨k :: toks, .token hk htoks⟩
            · rw [List.cons_append, lexanLoop_full (Nat.le_of_not_lt hroom) hline] at h
              contradiction

end Loop

/-! ## Blanks around a line -/

/-- The same error, or the same number of tokens, of the same types and with the same texts. -/
def SameOutcome (o o' : Option Lexed) : Prop :=
  (o = none ∧ o' = none) ∨ ∃ toks t t', o = some t ∧ o' = some t' ∧ Holds t toks ∧ Holds t' toks

/-- The line is accepted with these tokens. -/
def Accepted (o : Option Lexed) (toks : List Token) : Prop :=
  ∃ t, o = some t ∧ Holds t toks

section Lines

variable {t : Lexed} {s s' lead trail rest : List UInt8} {e : UInt8} {toks : List Token} {k : Token}

theorem Starts.nonzero (h : Starts k s s') (hs : Plain s) : nullch ∉ k.text := by
  have hnull : ∀ u : List UInt8, Plain u → nullch ∉ u := fun u hu hmem => hu _ hmem (Or.inr rfl)
  cases h with
  | amper => decide
  | less => decide
  | greater => decide
  | quoted body s' hquote hbody => exact hnull body fun c hc => hs c (by simp [hc])
  | word ch w s' => exact hnull (ch :: w) (hs.append (s := ch :: w)).1

theorem Divides.nonzero (h : Divides s toks) (hs : Plain s) : ∀ k ∈ toks, nullch ∉ k.text := by
  induction h with
  | nil => simp
  | blank _ _ ih => exact ih hs.tail
  | token hk _ ih =>
      intro k' hk'
      rcases List.mem_cons.mp hk' with rfl | hmem
      · exact hk.nonzero hs
      · exact ih (hk.plain hs) k' hmem

/-- What the whole line comes to. -/
theorem lexan_divides (t : Lexed) (rest : List UInt8) (hs : Plain s) (he : EndsLine e)
    (h : Divides s toks) :
    lexan (s ++ e :: rest) t =
      if needed s toks ≤ shellMaxtok then some (Lexed.putAll { t with ntok := 0, tlen := 0 } toks)
      else none := by
  have hloop := lexanLoop_divides rest (t := { t with ntok := 0, tlen := 0 }) hs he
    (Nat.zero_le _) h
  rwa [Nat.zero_add] at hloop

theorem needed_le (s : List UInt8) (toks : List Token) : needed s toks ≤ toks.length + 1 := by
  unfold needed
  split
  · exact Nat.le_refl _
  · exact Nat.le_succ _

theorem length_le_needed (s : List UInt8) (toks : List Token) : toks.length ≤ needed s toks :=
  Nat.le_add_right _ _

theorem endsInBlank_trail (htrail : ∀ ch ∈ trail, IsBlank ch) (hne : trail ≠ []) :
    EndsInBlank (s ++ trail) := by
  rw [endsInBlank_append hne]
  refine ⟨trail.getLast hne, List.getLast?_eq_some_getLast hne, htrail _ (List.getLast_mem hne)⟩

/--
Blanks and tabs before or behind the text of a line leave the outcome of `lexan` as it is,
and a text that divides into no more than `SHELL_MAXTOK` tokens is accepted, just if it has
no blank behind the last of `SHELL_MAXTOK` tokens.
-/
theorem blanks_ignored_iff (t : Lexed) (hs : Plain s) (hlead : ∀ ch ∈ lead, IsBlank ch)
    (htrail : ∀ ch ∈ trail, IsBlank ch) (he : EndsLine e) :
    (SameOutcome (lexan (lead ++ s ++ trail ++ e :: rest) t) (lexan (s ++ e :: rest) t) ∧
      ∀ toks, Divides s toks → toks.length ≤ shellMaxtok →
        Accepted (lexan (s ++ e :: rest) t) toks) ↔
      ∀ toks, Divides s toks → toks.length = shellMaxtok → trail = [] ∧ ¬ EndsInBlank s := by
  have hplain : Plain (lead ++ s ++ trail) := by
    have hblank : ∀ ch, IsBlank ch → ¬ EndsLine ch := by
      rintro ch (rfl | rfl)
      · decide
      · decide
    intro ch hch
    rcases List.mem_append.mp hch with hch | hch
    · rcases List.mem_append.mp hch with hch | hch
      · exact hblank ch (hlead ch hch)
      · exact hs ch hch
    · exact hblank ch (htrail ch hch)
  have hdiv : ∀ toks, Divides (lead ++ s ++ trail) toks ↔ Divides s toks :=
    fun toks => (divides_trail htrail).trans (divides_lead hlead)
  constructor
  · rintro ⟨hsame, haccept⟩ toks htoks hlen
    obtain ⟨t', hsome, -⟩ := haccept toks htoks (Nat.le_of_eq hlen)
    have hone := lexan_divides t rest hs he htoks
    have hneeded : needed s toks ≤ shellMaxtok := by
      by_contra hover
      rw [hone, if_neg hover] at hsome
      contradiction
    constructor
    · by_contra hne
      have hboth := lexan_divides t rest hplain he ((hdiv toks).mpr htoks)
      have hover : ¬ needed (lead ++ s ++ trail) toks ≤ shellMaxtok := by
        unfold needed
        rw [if_pos (endsInBlank_trail htrail hne)]
        omega
      rw [hboth, if_neg hover, hsome] at hsame
      rcases hsame with ⟨-, hnone⟩ | ⟨_, _, _, hnone, -⟩
      · contradiction
      · contradiction
    · intro hlast
      unfold needed at hneeded
      rw [if_pos hlast] at hneeded
      omega
  · intro hlimit
    have hfits : ∀ toks, Divides s toks → toks.length ≤ shellMaxtok →
        needed s toks ≤ shellMaxtok ∧ needed (lead ++ s ++ trail) toks ≤ shellMaxtok := by
      intro toks htoks hlen
      rcases Nat.lt_or_eq_of_le hlen with hlt | heq
      · exact ⟨(needed_le _ _).trans hlt, (needed_le _ _).trans hlt⟩
      · obtain ⟨rfl, hlast⟩ := hlimit toks htoks heq
        have hne : s ≠ [] := by
          rintro rfl
          have hnil := htoks.eq_nil fun c hc => absurd hc List.not_mem_nil
          rw [hnil] at heq
          contradiction
        have hlast' : ¬ EndsInBlank (lead ++ s ++ []) := by
          rwa [List.append_nil, endsInBlank_append hne]
        unfold needed
        rw [if_neg hlast, if_neg hlast']
        exact ⟨hlen, hlen⟩
    have haccept : ∀ toks, Divides s toks → toks.length ≤ shellMaxtok →
        Accepted (lexan (s ++ e :: rest) t) toks := by
      intro toks htoks hlen
      refine ⟨_, ?_, (holds_nil t).putAll (htoks.nonzero hs)⟩
      rw [lexan_divides t rest hs he htoks, if_pos (hfits toks htoks hlen).1]
    refine ⟨?_, haccept⟩
    by_cases hex : ∃ toks, Divides s toks
    · obtain ⟨toks, htoks⟩ := hex
      have hone := lexan_divides t rest hs he htoks
      have hboth := lexan_divides t rest hplain he ((hdiv toks).mpr htoks)
      by_cases hlen : toks.length ≤ shellMaxtok
      · rw [if_pos (hfits toks htoks hlen).1] at hone
        rw [if_pos (hfits toks htoks hlen).2] at hboth
        have hholds := (holds_nil t).putAll (htoks.nonzero hs)
        exact Or.inr ⟨_, _, _, hboth, hone, hholds, hholds⟩
      · rw [if_neg fun hle => hlen ((length_le_needed _ _).trans hle)] at hone hboth
        exact Or.inl ⟨hboth, hone⟩
    · left
      constructor
      · cases hboth : lexan (lead ++ s ++ trail ++ e :: rest) t with
        | none => rfl
        | some t' =>
            obtain ⟨toks, htoks⟩ := divides_of_lexanLoop hplain he hboth
            exact absurd ⟨toks, (hdiv toks).mp htoks⟩ hex
      · cases hone : lexan (s ++ e :: rest) t with
        | none => rfl
        | some t' => exact absurd (divides_of_lexanLoop hs he hone) hex

/-- Every token takes a character. -/
theorem Divides.length_le (h : Divides s toks) : toks.length ≤ s.length := by
  induction h with
  | nil => exact Nat.le_refl _
  | blank _ _ ih => exact Nat.le_succ_of_le ih
  | token hk _ ih =>
      obtain ⟨x, z, rfl, -⟩ := hk.last
      simp only [List.length_append, List.length_cons]
      omega

end Lines

/-- Arrays that hold nothing yet. -/
def emptyLexed : Lexed :=
  ⟨0, 0, fun _ => 0, fun _ => 0, fun _ => .other⟩

/-- The command `ls`, with a blank before it and a tab behind it. -/
theorem blanks_ignored_ls :
    SameOutcome (lexan ([shBlank] ++ [108, 115] ++ [shTab] ++ shNewline :: []) emptyLexed)
      (lexan ([108, 115] ++ shNewline :: []) emptyLexed) := by
  have hlead : ∀ ch ∈ [shBlank], IsBlank ch := List.forall_mem_singleton.mpr (Or.inl rfl)
  have htrail : ∀ ch ∈ [shTab], IsBlank ch := List.forall_mem_singleton.mpr (Or.inr rfl)
  refine ((blanks_ignored_iff emptyLexed (by decide) hlead htrail (by decide)).mpr ?_).1
  intro toks htoks hlen
  have hle := htoks.length_le
  rw [hlen] at hle
  exact absurd hle (by decide)

/-- So many words of one letter, each behind a blank. -/
def letters : Nat → List UInt8
  | 0 => []
  | n + 1 => shBlank :: 97 :: letters n

theorem divides_letters (n : Nat) :
    Divides (97 :: letters n) (List.replicate (n + 1) (.other [97])) := by
  induction n with
  | zero => exact .token (.word 97 [] [] (by decide) (by simp) (by simp) (by decide)) .nil
  | succ n ih =>
      have hword : Starts (.other [97]) (97 :: letters (n + 1)) (letters (n + 1)) := by
        refine .word 97 [] _ (by decide) (by simp) ?_ ?_
        · intro ch hch
          obtain rfl : shBlank = ch := by simpa [letters] using hch
          decide
        · unfold Appended letters
          rw [List.headD_cons]
          decide
      exact .token hword (.blank (Or.inl rfl) ih)

/-- A blank behind the last of as many words as the shell takes. -/
theorem blank_behind_last_token :
    ¬ ∀ (t : Lexed) (s lead trail : List UInt8), Plain s → (∀ ch ∈ lead, IsBlank ch) →
      (∀ ch ∈ trail, IsBlank ch) →
      SameOutcome (lexan (lead ++ s ++ trail ++ [shNewline]) t) (lexan (s ++ [shNewline]) t) := by
  intro h
  have hplain : Plain (97 :: letters 31) := by decide
  have hblank : Plain (97 :: letters 31 ++ [shBlank]) := by decide
  have htrail : ∀ ch ∈ [shBlank], IsBlank ch := List.forall_mem_singleton.mpr (Or.inl rfl)
  have hdiv := divides_letters 31
  have hmore : Divides (97 :: letters 31 ++ [shBlank]) (List.replicate 32 (.other [97])) :=
    (divides_trail htrail).mpr hdiv
  have hsome := lexan_divides emptyLexed [] (e := shNewline) hplain (Or.inl rfl) hdiv
  have hnone := lexan_divides emptyLexed [] (e := shNewline) hblank (Or.inl rfl) hmore
  rw [if_pos (by decide)] at hsome
  rw [if_neg (by decide)] at hnone
  rcases h emptyLexed (97 :: letters 31) [] [shBlank] hplain (List.forall_mem_nil _) htrail with
    ⟨-, hother⟩ | ⟨_, _, _, hother, -⟩
  · rw [hsome] at hother
    exact nomatch hother
  · rw [List.nil_append, hnone] at hother
    exact nomatch hother

end Shell
end Xinu
