import Xinu.Shell.CommandLine

/-!
# The grammar of command lines

A line is one or more words, then at most one redirection of the input and at most one of
the output in either order, then at most one `&`.  The shell parses it backwards from the
last token.

Main results:

- Theorem `parseTokens_iff`: reading a list of tokens backwards accepts the lines of the
  grammar.
- Theorem `shellLine_answers`: the shell reads the arrays of `lexan` in this way.
-/

namespace Xinu
namespace Shell

open Foundations Function

/-! ## The grammar -/

/-- The files of a command line. -/
structure Files where
  input : Option (List UInt8)
  output : Option (List UInt8)
deriving DecidableEq

structure Line where
  words : List (List UInt8)
  files : Files
  backgnd : Bool
deriving DecidableEq

/-- At most one redirection of each kind. -/
inductive Redirections : List Token → Files → Prop
  | none : Redirections [] ⟨none, none⟩
  | input (f : List UInt8) : Redirections [.less, .other f] ⟨some f, none⟩
  | output (f : List UInt8) : Redirections [.greater, .other f] ⟨none, some f⟩
  | inputOutput (f g : List UInt8) :
      Redirections [.less, .other f, .greater, .other g] ⟨some f, some g⟩
  | outputInput (f g : List UInt8) :
      Redirections [.greater, .other g, .less, .other f] ⟨some f, some g⟩

/-- The tokens have the form of a command line. -/
def Form (toks : List Token) (line : Line) : Prop :=
  line.words ≠ [] ∧ ∃ redirections, Redirections redirections line.files ∧
    toks = line.words.map Token.other ++ redirections ++ if line.backgnd then [.amper] else []

/-! ## Reading tokens backwards -/

/-- Takes a redirection of another kind than those found from the front of a reversed list
of tokens, of which there are at least three; `none` is a syntax error. -/
def takeRedirection : List Token → Files → Option (List Token × Files)
  | .other f :: .less :: c :: r, fs =>
      if fs.input = none then some (c :: r, { fs with input := some f }) else none
  | .other f :: .greater :: c :: r, fs =>
      if fs.output = none then some (c :: r, { fs with output := some f }) else none
  | _ :: .less :: _ :: _, _ => none
  | _ :: .greater :: _ :: _, _ => none
  | r, fs => some (r, fs)

/-- The texts of the tokens, if all of them are words. -/
def wordsOf : List Token → Option (List (List UInt8))
  | [] => some []
  | .other s :: toks => (wordsOf toks).map (s :: ·)
  | _ :: _ => none

/-- A reversed list of tokens after the `&` at its front. -/
def afterAmper : List Token → List Token × Bool
  | .amper :: r => (r, true)
  | r => (r, false)

def parseTokens (toks : List Token) : Option Line :=
  match afterAmper toks.reverse with
  | (r, backgnd) =>
      match takeRedirection r ⟨none, none⟩ with
      | none => none
      | some (r, fs) =>
          match takeRedirection r fs with
          | none => none
          | some (r, fs) =>
              match wordsOf r.reverse with
              | none | some [] => none
              | some words => some ⟨words, fs, backgnd⟩

section Backwards

variable {toks r r' : List Token} {words : List (List UInt8)} {fs fs' : Files} {line : Line}

theorem wordsOf_iff : wordsOf toks = some words ↔ toks = words.map Token.other := by
  induction toks generalizing words with
  | nil =>
      cases words with
      | nil => exact ⟨fun _ => rfl, fun _ => rfl⟩
      | cons s words => exact ⟨nofun, nofun⟩
  | cons k toks ih =>
      cases k with
      | other s =>
          rw [wordsOf, Option.map_eq_some_iff]
          constructor
          · rintro ⟨rest, hrest, rfl⟩
            rw [List.map_cons, ← ih.mp hrest]
          · intro h
            cases words with
            | nil => cases h
            | cons s' words =>
                cases h
                exact ⟨words, ih.mpr rfl, rfl⟩
      | _ =>
          refine ⟨nofun, fun h => ?_⟩
          cases words <;> cases h

/-- What is taken from the front of a reversed list. -/
theorem takeRedirection_cases (h : takeRedirection r fs = some (r', fs')) :
    (r' = r ∧ fs' = fs) ∨ r' ≠ [] ∧
      ((∃ f, r = .other f :: .less :: r' ∧ fs.input = none ∧ fs' = { fs with input := some f }) ∨
        ∃ f, r = .other f :: .greater :: r' ∧ fs.output = none ∧
          fs' = { fs with output := some f }) := by
  unfold takeRedirection at h
  split at h
  next f c r =>
    split at h
    next hnone =>
      cases h
      exact Or.inr ⟨List.cons_ne_nil _ _, Or.inl ⟨f, rfl, hnone, rfl⟩⟩
    · cases h
  next f c r =>
    split at h
    next hnone =>
      cases h
      exact Or.inr ⟨List.cons_ne_nil _ _, Or.inr ⟨f, rfl, hnone, rfl⟩⟩
    · cases h
  · cases h
  · cases h
  · cases h
    exact Or.inl ⟨rfl, rfl⟩

/-- The words of a line are not taken for a redirection. -/
theorem takeRedirection_words (words : List (List UInt8)) (fs : Files) :
    takeRedirection (words.map Token.other) fs = some (words.map Token.other, fs) := by
  rcases words with _ | ⟨s, _ | ⟨s', words⟩⟩ <;> rfl

theorem afterAmper_eq {backgnd : Bool} (h : afterAmper r = (r', backgnd)) :
    r.reverse = r'.reverse ++ if backgnd then [.amper] else [] := by
  unfold afterAmper at h
  split at h
  · cases h
    exact List.reverse_cons
  · cases h
    exact (List.append_nil _).symm

/-- Two redirections that are taken one after the other. -/
theorem redirections_of_taken {r₁ r₂ : List Token} {fs₁ fs₂ : Files}
    (h₁ : takeRedirection r ⟨none, none⟩ = some (r₁, fs₁))
    (h₂ : takeRedirection r₁ fs₁ = some (r₂, fs₂)) :
    ∃ redirections, Redirections redirections fs₂ ∧ r.reverse = r₂.reverse ++ redirections := by
  rcases takeRedirection_cases h₁ with ⟨rfl, rfl⟩ | ⟨-, ⟨f, rfl, -, rfl⟩ | ⟨f, rfl, -, rfl⟩⟩
  · rcases takeRedirection_cases h₂ with ⟨rfl, rfl⟩ | ⟨-, ⟨g, rfl, -, rfl⟩ | ⟨g, rfl, -, rfl⟩⟩
    · exact ⟨[], .none, (List.append_nil _).symm⟩
    · exact ⟨_, .input g, by simp⟩
    · exact ⟨_, .output g, by simp⟩
  · rcases takeRedirection_cases h₂ with ⟨rfl, rfl⟩ | ⟨-, ⟨g, -, hnone, -⟩ | ⟨g, rfl, -, rfl⟩⟩
    · exact ⟨_, .input f, by simp⟩
    · cases hnone
    · exact ⟨_, .outputInput f g, by simp⟩
  · rcases takeRedirection_cases h₂ with ⟨rfl, rfl⟩ | ⟨-, ⟨g, rfl, -, rfl⟩ | ⟨g, -, hnone, -⟩⟩
    · exact ⟨_, .output f, by simp⟩
    · exact ⟨_, .inputOutput g f, by simp⟩
    · cases hnone

/-- Redirections behind at least one word are taken one after the other. -/
theorem taken_of_redirections {redirections : List Token} (h : Redirections redirections fs)
    (hne : words ≠ []) :
    (∃ s r, (words.map Token.other ++ redirections).reverse = .other s :: r) ∧
      ∃ r₁ fs₁, takeRedirection (words.map Token.other ++ redirections).reverse ⟨none, none⟩ =
          some (r₁, fs₁) ∧
        takeRedirection r₁ fs₁ = some ((words.map Token.other).reverse, fs) := by
  have hwords := takeRedirection_words words.reverse fs
  rw [List.reverse_append, ← List.map_reverse]
  cases hr : words.reverse with
  | nil => exact absurd (List.reverse_eq_nil_iff.mp hr) hne
  | cons s r =>
      rw [hr] at hwords
      cases h with
      | none => exact ⟨⟨s, _, rfl⟩, _, _, hwords, hwords⟩
      | input f => exact ⟨⟨f, _, rfl⟩, _, _, rfl, hwords⟩
      | output f => exact ⟨⟨f, _, rfl⟩, _, _, rfl, hwords⟩
      | inputOutput f g => exact ⟨⟨g, _, rfl⟩, _, _, rfl, rfl⟩
      | outputInput f g => exact ⟨⟨f, _, rfl⟩, _, _, rfl, rfl⟩

theorem afterAmper_other (s : List UInt8) (r : List Token) (backgnd : Bool) :
    afterAmper ((if backgnd then [.amper] else []) ++ .other s :: r) = (.other s :: r, backgnd) := by
  cases backgnd <;> rfl

/-- Reading the tokens backwards accepts the lines of the grammar. -/
theorem parseTokens_iff : parseTokens toks = some line ↔ Form toks line := by
  constructor
  · intro h
    unfold parseTokens at h
    split at h
    next r backgnd hamper =>
    have hend := afterAmper_eq hamper
    rw [List.reverse_reverse] at hend
    split at h
    · cases h
    next r₁ fs₁ h₁ =>
    split at h
    · cases h
    next r₂ fs₂ h₂ =>
    split at h
    · cases h
    · cases h
    next words hne hwords =>
    cases h
    rcases redirections_of_taken h₁ h₂ with ⟨redirections, hr, heq⟩
    refine ⟨hne, redirections, hr, ?_⟩
    rw [hend, heq, wordsOf_iff.mp hwords]
  · rintro ⟨hne, redirections, hr, rfl⟩
    obtain ⟨⟨s, r, heq⟩, r₁, fs₁, h₁, h₂⟩ := taken_of_redirections hr hne
    have hamper : (if line.backgnd then [Token.amper] else []).reverse =
        if line.backgnd then [.amper] else [] := by
      cases line.backgnd <;> rfl
    unfold parseTokens
    rw [List.reverse_append, hamper, heq, afterAmper_other]
    rw [heq] at h₁
    simp only [h₁, h₂, List.reverse_reverse, wordsOf_iff.mpr rfl]

end Backwards

/-! ## The arrays of the analyzer -/

/-- A pointer into `tokbuf` leads to the string. -/
def PointsTo (t : Lexed) (p : Nat) (s : List UInt8) : Prop :=
  Spells (fun i => t.tokbuf (p + i)) s

/-- The parser has not read the tokens `r` yet, of which the last one comes first, and has
found these files. -/
structure Agrees (t : Lexed) (q : Parse) (r : List Token) (fs : Files) : Prop where
  held : ∃ rest, Holds t (r.reverse ++ rest)
  ntok : q.ntok = r.length
  tlen : q.tlen = packedLen (r.reverse.map Token.text)
  input : Option.Rel (PointsTo t) q.inname fs.input
  output : Option.Rel (PointsTo t) q.outname fs.output

section Arrays

variable {t : Lexed} {q : Parse} {l m r toks : List Token} {k a b c : Token} {fs : Files}

/-- The index of a token leads to its text. -/
theorem Holds.pointsTo (h : Holds t toks) {i : Nat} (hi : i < toks.length) :
    PointsTo t (t.tok i) toks[i].text := by
  have hlt : i < (toks.map Token.text).length := by
    rwa [List.length_map]
  have hspells := h.texts.spells hlt
  rw [List.getElem_map, ← h.tok i hi] at hspells
  exact hspells

/-- The entries for a token behind the tokens `l`. -/
theorem Holds.entry (h : Holds t (l ++ k :: m)) :
    t.toktyp l.length = k.type ∧ t.tok l.length = packedLen (l.map Token.text) ∧
      PointsTo t (t.tok l.length) k.text := by
  have hlt : l.length < (l ++ k :: m).length := by
    rw [List.length_append, List.length_cons]
    omega
  have hk : (l ++ k :: m)[l.length] = k := by
    rw [List.getElem_append_right (Nat.le_refl _)]
    simp
  have htype := h.toktyp _ hlt
  have hptr := h.pointsTo hlt
  rw [hk] at htype hptr
  refine ⟨htype, ?_, hptr⟩
  rw [h.tok _ hlt, List.map_append, List.take_left' (List.length_map _)]

/-- The entries that the parser looks at. -/
theorem Agrees.entries (h : Agrees t q (b :: a :: r) fs) :
    t.toktyp (q.ntok - 1) = b.type ∧ PointsTo t (t.tok (q.ntok - 1)) b.text ∧
      t.toktyp (q.ntok - 2) = a.type ∧
      t.tok (q.ntok - 2) = packedLen (r.reverse.map Token.text) := by
  rcases h.held with ⟨rest, hheld⟩
  have hb : Holds t ((a :: r).reverse ++ b :: rest) := by
    rwa [List.reverse_cons, List.append_assoc] at hheld
  have ha : Holds t (r.reverse ++ a :: b :: rest) := by
    rwa [List.reverse_cons, List.append_assoc] at hb
  have hlast := hb.entry
  have hbefore := ha.entry
  rw [List.length_reverse, List.length_cons] at hlast
  rw [List.length_reverse] at hbefore
  rw [h.ntok, List.length_cons, List.length_cons]
  exact ⟨hlast.1, hlast.2.2, hbefore.1, hbefore.2.1⟩

/-- The tokens that are left when the last two are taken. -/
theorem Agrees.drop (h : Agrees t q (b :: a :: r) fs) {inname outname : Option Nat} {fs' : Files}
    (hin : Option.Rel (PointsTo t) inname fs'.input)
    (hout : Option.Rel (PointsTo t) outname fs'.output) :
    Agrees t ⟨q.ntok - 2, t.tok (q.ntok - 2), q.backgnd, inname, outname⟩ r fs' := by
  constructor
  · rcases h.held with ⟨rest, hheld⟩
    refine ⟨a :: b :: rest, ?_⟩
    rwa [List.reverse_cons, List.reverse_cons, List.append_assoc, List.append_assoc] at hheld
  · show q.ntok - 2 = r.length
    rw [h.ntok, List.length_cons, List.length_cons]
    omega
  · exact congrArg Int.ofNat h.entries.2.2.2
  · exact hin
  · exact hout

/-- The parser and a reversed list of tokens come to the same. -/
def SameResult (t : Lexed) (backgnd : Bool) : Option Parse → Option (List Token × Files) → Prop :=
  Option.Rel fun q x => Agrees t q x.1 x.2 ∧ q.backgnd = backgnd

theorem rel_eq_none_iff {p : Option Nat} {s : Option (List UInt8)}
    (h : Option.Rel (PointsTo t) p s) : p = none ↔ s = none := by
  cases h with
  | none => exact ⟨fun _ => rfl, fun _ => rfl⟩
  | some => exact ⟨nofun, nofun⟩

/-- A redirection of the input that the parser comes to. -/
theorem Agrees.takeInput {f : List UInt8} (h : Agrees t q (.other f :: .less :: r) fs) :
    SameResult t q.backgnd
      (if q.inname ≠ none then none
       else some ⟨q.ntok - 2, t.tok (q.ntok - 2), q.backgnd, some (t.tok (q.ntok - 1)), q.outname⟩)
      (if fs.input = none then some (r, { fs with input := some f }) else none) := by
  by_cases hnone : q.inname = none
  · rw [if_neg (fun hne => hne hnone), if_pos ((rel_eq_none_iff h.input).mp hnone)]
    exact .some ⟨h.drop (.some h.entries.2.1) h.output, rfl⟩
  · rw [if_pos hnone, if_neg (fun hfs => hnone ((rel_eq_none_iff h.input).mpr hfs))]
    exact .none

/-- A redirection of the output that the parser comes to. -/
theorem Agrees.takeOutput {f : List UInt8} (h : Agrees t q (.other f :: .greater :: r) fs) :
    SameResult t q.backgnd
      (if q.outname ≠ none then none
       else some ⟨q.ntok - 2, t.tok (q.ntok - 2), q.backgnd, q.inname, some (t.tok (q.ntok - 1))⟩)
      (if fs.output = none then some (r, { fs with output := some f }) else none) := by
  by_cases hnone : q.outname = none
  · rw [if_neg (fun hne => hne hnone), if_pos ((rel_eq_none_iff h.output).mp hnone)]
    exact .some ⟨h.drop h.input (.some h.entries.2.1), rfl⟩
  · rw [if_pos hnone, if_neg (fun hfs => hnone ((rel_eq_none_iff h.output).mpr hfs))]
    exact .none

/-- Without a redirection, the parser goes on with the tokens that it has. -/
theorem Agrees.unchanged (h : Agrees t q r fs) (hno : ¬ Redirects t q)
    (htake : takeRedirection r fs = some (r, fs)) :
    SameResult t q.backgnd (redirectFirst t q) (takeRedirection r fs) := by
  rw [redirectFirst, if_neg hno, htake]
  exact .some ⟨h, rfl⟩

theorem Agrees.redirectFirst (h : Agrees t q r fs) :
    SameResult t q.backgnd (redirectFirst t q) (takeRedirection r fs) := by
  have hshort : r.length < 3 → ¬ Redirects t q := by
    intro hlt hyes
    have hthree := hyes.1
    rw [h.ntok] at hthree
    omega
  match r with
  | [] => exact h.unchanged (hshort (Nat.zero_lt_succ _)) rfl
  | [b] => exact h.unchanged (hshort (show 1 < 3 by decide)) (by cases b <;> rfl)
  | [b, a] => exact h.unchanged (hshort (show 2 < 3 by decide)) (by cases a <;> cases b <;> rfl)
  | b :: a :: c :: r =>
    obtain ⟨hb, -, ha, -⟩ := h.entries
    have hthree : 3 ≤ q.ntok := by
      rw [h.ntok]
      exact Nat.le_add_left 3 r.length
    have hother : a.type ≠ .less → a.type ≠ .greater → ¬ Redirects t q := by
      intro hless hgreater hyes
      rw [Redirects, ha] at hyes
      exact hyes.2.elim hless hgreater
    cases a with
    | amper => exact h.unchanged (hother (by decide) (by decide)) (by cases b <;> rfl)
    | other s => exact h.unchanged (hother nofun nofun) (by cases b <;> rfl)
    | less =>
        have ha' : t.toktyp (q.ntok - 2) = .less := ha
        rw [Shell.redirectFirst, if_pos ⟨hthree, Or.inl ha'⟩]
        cases b with
        | other f =>
            rw [if_neg (fun hne => hne hb), if_pos ha']
            exact h.takeInput
        | _ =>
            rw [if_pos (by rw [hb]; decide)]
            exact .none
    | greater =>
        have ha' : t.toktyp (q.ntok - 2) = .greater := ha
        rw [Shell.redirectFirst, if_pos ⟨hthree, Or.inr ha'⟩]
        cases b with
        | other f =>
            rw [if_neg (fun hne => hne hb), if_neg (by rw [ha']; decide)]
            exact h.takeOutput
        | _ =>
            rw [if_pos (by rw [hb]; decide)]
            exact .none

/-- The first redirection that is found needs no check for another of its kind. -/
theorem redirectLast_eq (hin : q.inname = none) (hout : q.outname = none) :
    redirectLast t q = redirectFirst t q := by
  unfold redirectLast redirectFirst
  rw [hin, hout]
  rfl

/-- What the parser starts with. -/
theorem Holds.background (h : Holds t toks) (hne : toks ≠ []) :
    Agrees t (background t) (afterAmper toks.reverse).1 ⟨none, none⟩ ∧
      (background t).backgnd = (afterAmper toks.reverse).2 ∧
      (background t).inname = none ∧ (background t).outname = none := by
  cases hr : toks.reverse with
  | nil => exact absurd (List.reverse_eq_nil_iff.mp hr) hne
  | cons k r =>
      have htoks : toks = r.reverse ++ [k] := by
        rw [← List.reverse_cons, ← hr, List.reverse_reverse]
      rw [htoks] at h
      have htype := h.entry.1
      have hntok := h.ntok
      have htlen := h.tlen
      rw [List.length_reverse] at htype
      rw [List.length_append, List.length_reverse, List.length_singleton] at hntok
      rw [List.map_append, List.map_singleton, packedLen_snoc] at htlen
      have hback : t.toktyp (t.ntok - 1) = k.type := by
        rw [hntok]
        exact htype
      unfold Shell.background
      by_cases hamper : k.type = .amper
      · rw [if_pos (hback.trans hamper)]
        have hk : k = .amper := by
          cases k <;> first | rfl | cases hamper
        rw [hk] at h htlen ⊢
        refine ⟨⟨⟨[.amper], h⟩, ?_, ?_, .none, .none⟩, rfl, rfl, rfl⟩
        · show t.ntok - 1 = r.length
          omega
        · have hone : (Token.text .amper).length = 1 := rfl
          show (t.tlen : Int) - 2 = packedLen (r.reverse.map Token.text)
          omega
      · rw [if_neg (fun heq => hamper (hback.symm.trans heq))]
        have hstay : afterAmper (k :: r) = (k :: r, false) := by
          cases k <;> first | rfl | exact absurd rfl hamper
        rw [hstay]
        refine ⟨⟨⟨[], ?_⟩, hntok, ?_, .none, .none⟩, rfl, rfl, rfl⟩
        · rwa [List.append_nil, List.reverse_cons]
        · show (t.tlen : Int) = packedLen ((k :: r).reverse.map Token.text)
          rw [List.reverse_cons, List.map_append, List.map_singleton, packedLen_snoc, htlen]

/-! ## The words -/

theorem firstNotOther_lt_iff {toktyp : Nat → TokType} {n i : Nat} :
    firstNotOther toktyp n i < i + n ↔ ∃ j < n, toktyp (i + j) ≠ .other := by
  induction n generalizing i with
  | zero =>
      constructor
      · intro h
        exact absurd h (Nat.lt_irrefl i)
      · rintro ⟨j, hj, -⟩
        exact absurd hj (Nat.not_lt_zero j)
  | succ n ih =>
      unfold firstNotOther
      by_cases hi : toktyp i = .other
      · rw [if_neg (fun hne => hne hi), show i + (n + 1) = i + 1 + n by omega, ih]
        constructor
        · rintro ⟨j, hj, hne⟩
          refine ⟨j + 1, by omega, ?_⟩
          rwa [show i + (j + 1) = i + 1 + j by omega]
        · rintro ⟨j, hj, hne⟩
          cases j with
          | zero => exact absurd hi hne
          | succ j =>
              refine ⟨j, by omega, ?_⟩
              rwa [show i + 1 + j = i + (j + 1) by omega]
      · rw [if_pos hi]
        exact ⟨fun _ => ⟨0, Nat.succ_pos n, hi⟩, fun _ => by omega⟩

theorem wordsOf_eq_none_iff :
    wordsOf toks = none ↔ ∃ i, ∃ h : i < toks.length, toks[i].type ≠ .other := by
  induction toks with
  | nil => exact ⟨nofun, fun ⟨i, h, _⟩ => absurd h (Nat.not_lt_zero i)⟩
  | cons k toks ih =>
      cases k with
      | other s =>
          rw [wordsOf, Option.map_eq_none_iff, ih]
          constructor
          · rintro ⟨i, h, hne⟩
            exact ⟨i + 1, Nat.succ_lt_succ h, hne⟩
          · rintro ⟨i, h, hne⟩
            cases i with
            | zero => exact absurd rfl hne
            | succ i => exact ⟨i, Nat.lt_of_succ_lt_succ h, hne⟩
      | _ => exact ⟨fun _ => ⟨0, Nat.succ_pos _, nofun⟩, fun _ => rfl⟩

theorem Agrees.verified (h : Agrees t q r fs) :
    firstNotOther t.toktyp q.ntok 0 < q.ntok ↔ wordsOf r.reverse = none := by
  rcases h.held with ⟨rest, hheld⟩
  have htype : ∀ i (hi : i < r.reverse.length), t.toktyp i = (r.reverse[i]).type := by
    intro i hi
    have hlt : i < (r.reverse ++ rest).length := by
      rw [List.length_append]
      omega
    rw [hheld.toktyp i hlt, List.getElem_append_left hi]
  have hlen : q.ntok = r.reverse.length := by
    rw [h.ntok, List.length_reverse]
  have hfirst := @firstNotOther_lt_iff t.toktyp q.ntok 0
  rw [Nat.zero_add] at hfirst
  rw [hfirst, wordsOf_eq_none_iff]
  constructor
  · rintro ⟨j, hj, hne⟩
    rw [Nat.zero_add] at hne
    have hj' : j < r.reverse.length := hlen ▸ hj
    exact ⟨j, hj', fun heq => hne ((htype j hj').trans heq)⟩
  · rintro ⟨j, hj, hne⟩
    refine ⟨j, hlen.symm ▸ hj, ?_⟩
    rw [Nat.zero_add, htype j hj]
    exact hne

/-- A name is compared as a string. -/
theorem sameName_iff {src s : List UInt8} {cmp : Chars} (h : Spells cmp s) (hsrc : 0 ∉ src) :
    sameName src cmp = true ↔ src = s := by
  induction src generalizing cmp s with
  | nil =>
      rw [sameName, decide_eq_true_eq]
      cases s with
      | nil => exact ⟨fun _ => rfl, fun _ => h.null⟩
      | cons d s =>
          have hd : cmp 0 ≠ 0 := h.ne_zero (Nat.succ_pos _)
          exact ⟨fun hnull => absurd hnull hd, nofun⟩
  | cons c src ih =>
      rw [List.mem_cons, not_or] at hsrc
      rw [sameName]
      cases s with
      | nil =>
          have hnull : cmp 0 = 0 := h.null
          rw [hnull, if_pos hsrc.1]
          exact ⟨nofun, nofun⟩
      | cons d s =>
          have hd : cmp 0 = d := h.chars 0 (Nat.succ_pos _)
          have hrest := h.drop (show 1 ≤ (d :: s).length from Nat.succ_pos _)
          rw [List.drop_one, List.tail_cons] at hrest
          have hrest' : Spells (fun i => cmp (i + 1)) s := by
            simpa only [Nat.add_comm 1] using hrest
          rw [hd, List.cons.injEq]
          by_cases hdc : d = c
          · rw [if_neg (fun hne => hne hdc), ih hrest' hsrc.2]
            exact ⟨fun hs => ⟨hdc.symm, hs⟩, fun hs => hs.2⟩
          · rw [if_pos hdc]
            exact ⟨nofun, fun hs => absurd hs.1.symm hdc⟩

theorem setArgs_eq {n i : Nat} (hi : i < n) (args : Nat → Option Nat) :
    setArgs t n args i = some (t.tok i) := by
  apply forRange_at (fun args : Nat → Option Nat => args i) (Nat.zero_le i) hi
  · exact fun args => update_self _ _ _
  · exact fun j args hj => update_of_ne hj.symm _ _

/-! ## What the shell does with a line -/

/-- The command that the first word names. -/
def named (cmdtab : List Cmdent) (line : Line) : Option Cmdent :=
  cmdtab.find? fun cmd => decide (line.words.head? = some cmd.cname)

/-- Without redirection, and not in background. -/
def Line.Plain (line : Line) : Prop :=
  line.files = ⟨none, none⟩ ∧ line.backgnd = false

/-- The pointers of an argument vector lead to the words of the line. -/
def ArgsOf (t : Lexed) (args : Nat → Option Nat) (words : List (List UInt8)) : Prop :=
  ∀ i (h : i < words.length), ∃ p, args i = some p ∧ PointsTo t p words[i]

/-- The response to the tokens of a line, which is `none` if they have another form. -/
inductive Answers (cmdtab : List Cmdent) (t : Lexed) : Option Line → Response → Prop
  | synerr : Answers cmdtab t none .synerr
  | notFound {line : Line} (h : named cmdtab line = none) :
      Answers cmdtab t (some line) .notFound
  | bgerr {line : Line} {cmd : Cmdent} (h : named cmdtab line = some cmd)
      (hbuiltin : cmd.cbuiltin = true) (hplain : ¬ line.Plain) :
      Answers cmdtab t (some line) .bgerr
  | builtin {line : Line} {cmd : Cmdent} {args : Nat → Option Nat}
      (h : named cmdtab line = some cmd) (hbuiltin : cmd.cbuiltin = true) (hplain : line.Plain)
      (hargs : ArgsOf t args line.words) :
      Answers cmdtab t (some line) (.builtin cmd line.words.length args)
  | spawn {line : Line} {cmd : Cmdent} {q : Parse} (h : named cmdtab line = some cmd)
      (hbuiltin : cmd.cbuiltin = false) (hbackgnd : q.backgnd = line.backgnd)
      (hq : Agrees t q (line.words.map Token.other).reverse line.files) :
      Answers cmdtab t (some line) (.spawn cmd q)

theorem Agrees.words {words : List (List UInt8)}
    (h : Agrees t q (words.map Token.other).reverse fs) :
    ∃ rest, Holds t (words.map Token.other ++ rest) := by
  rcases h.held with ⟨rest, hheld⟩
  rw [List.reverse_reverse] at hheld
  exact ⟨rest, hheld⟩

theorem Agrees.pointsTo {words : List (List UInt8)}
    (h : Agrees t q (words.map Token.other).reverse fs) {i : Nat} (hi : i < words.length) :
    PointsTo t (t.tok i) words[i] := by
  rcases h.words with ⟨rest, hheld⟩
  have hmap : i < (words.map Token.other).length := by
    rwa [List.length_map]
  have hlt : i < (words.map Token.other ++ rest).length := by
    rw [List.length_append]
    omega
  have hptr := hheld.pointsTo hlt
  rw [List.getElem_append_left hmap, List.getElem_map] at hptr
  exact hptr

/-- The lookup of the first token in the command table. -/
theorem Agrees.lookup {words : List (List UInt8)}
    (h : Agrees t q (words.map Token.other).reverse fs) (hne : words ≠ []) (cmdtab : List Cmdent)
    (backgnd : Bool) :
    cmdtab.find? (fun cmd => sameName cmd.cname t.tokbuf) = named cmdtab ⟨words, fs, backgnd⟩ := by
  cases words with
  | nil => exact absurd rfl hne
  | cons s words =>
      rcases h.words with ⟨rest, hheld⟩
      have hfirst := @Holds.entry t [] _ (.other s) hheld
      have hspells : Spells t.tokbuf s := by
        have hptr := hfirst.2.2
        rw [hfirst.2.1] at hptr
        apply hptr.congr
        intro i _
        exact congrArg t.tokbuf (Nat.zero_add i).symm
      unfold named
      congr 1
      funext cmd
      rw [Bool.eq_iff_iff, sameName_iff hspells cmd.nonzero, decide_eq_true_eq, List.head?_cons,
        Option.some.injEq, eq_comm]

/-- The two ways in which a redirection can come out. -/
theorem SameResult.cases {backgnd : Bool} {o : Option Parse} {o' : Option (List Token × Files)}
    (h : SameResult t backgnd o o') :
    (o = none ∧ o' = none) ∨ ∃ q r fs, o = some q ∧ o' = some (r, fs) ∧ Agrees t q r fs ∧
      q.backgnd = backgnd := by
  cases h with
  | none => exact Or.inl ⟨rfl, rfl⟩
  | some h => exact Or.inr ⟨_, _, _, rfl, rfl, h.1, h.2⟩

/-- The part of the command loop behind the redirections. -/
theorem Agrees.answers (h : Agrees t q r fs) (cmdtab : List Cmdent) (args : Nat → Option Nat) :
    Answers cmdtab t
      (match wordsOf r.reverse with
        | none | some [] => none
        | some words => some ⟨words, fs, q.backgnd⟩)
      (if q.ntok = 0 ∨ firstNotOther t.toktyp q.ntok 0 < q.ntok then .synerr
        else
          match cmdtab.find? fun cmd => sameName cmd.cname t.tokbuf with
          | none => .notFound
          | some cmd =>
              if cmd.cbuiltin = true then
                if q.inname ≠ none ∨ q.outname ≠ none ∨ q.backgnd = true then .bgerr
                else .builtin cmd q.ntok (setArgs t q.ntok args)
              else .spawn cmd q) := by
  have hverified := h.verified
  have hntok := h.ntok
  cases hw : wordsOf r.reverse with
  | none =>
      rw [if_pos (Or.inr (hverified.mpr hw))]
      exact .synerr
  | some words =>
      have hwords := wordsOf_iff.mp hw
      have hlen : q.ntok = words.length := by
        rw [hntok, ← List.length_reverse, hwords, List.length_map]
      have hr : r = (words.map Token.other).reverse := by
        rw [← hwords, List.reverse_reverse]
      rw [hr] at h
      cases words with
      | nil =>
          have hzero : q.ntok = 0 := hlen
          rw [if_pos (Or.inl hzero)]
          exact .synerr
      | cons s words =>
          have hgo : ¬ (q.ntok = 0 ∨ firstNotOther t.toktyp q.ntok 0 < q.ntok) := by
            rintro (hzero | hlt)
            · rw [hlen] at hzero
              cases hzero
            · rw [hverified.mp hlt] at hw
              cases hw
          rw [if_neg hgo, h.lookup (List.cons_ne_nil s words) cmdtab q.backgnd]
          have hplain : (Line.mk (s :: words) fs q.backgnd).Plain ↔
              ¬ (q.inname ≠ none ∨ q.outname ≠ none ∨ q.backgnd = true) := by
            rcases fs with ⟨input, output⟩
            rw [not_or, not_or, not_not, not_not, rel_eq_none_iff h.input,
              rel_eq_none_iff h.output, Bool.not_eq_true]
            simp [Line.Plain, and_assoc]
          cases hcmd : named cmdtab ⟨s :: words, fs, q.backgnd⟩ with
          | none => exact .notFound hcmd
          | some cmd =>
              show Answers cmdtab t (some ⟨s :: words, fs, q.backgnd⟩) (if _ then _ else _)
              by_cases hbuiltin : cmd.cbuiltin = true
              · rw [if_pos hbuiltin]
                by_cases hredirect : q.inname ≠ none ∨ q.outname ≠ none ∨ q.backgnd = true
                · rw [if_pos hredirect]
                  exact .bgerr hcmd hbuiltin fun hp => hplain.mp hp hredirect
                · rw [if_neg hredirect, hlen]
                  apply Answers.builtin hcmd hbuiltin (hplain.mpr hredirect)
                  intro i hi
                  exact ⟨t.tok i, setArgs_eq hi args, h.pointsTo hi⟩
              · rw [if_neg hbuiltin]
                exact .spawn hcmd (Bool.eq_false_iff.mpr hbuiltin) rfl h

/-- The shell reads the tokens of a line backwards. -/
theorem shellLine_answers (h : Holds t toks) (hne : toks ≠ []) (cmdtab : List Cmdent)
    (args : Nat → Option Nat) : Answers cmdtab t (parseTokens toks) (shellLine cmdtab args t) := by
  have hntok : t.ntok ≠ 0 := by
    rw [h.ntok]
    exact fun hnil => hne (List.length_eq_zero_iff.mp hnil)
  obtain ⟨hback, hbg, hin, hout⟩ := h.background hne
  have hlast := hback.redirectFirst
  rw [← redirectLast_eq hin hout, hbg] at hlast
  unfold shellLine parseTokens
  rw [if_neg hntok]
  simp only
  rcases hlast.cases with ⟨hq₁, hr₁⟩ | ⟨q₁, r₁, fs₁, hq₁, hr₁, h₁, hbg₁⟩
  · rw [hq₁, hr₁]
    exact .synerr
  rw [hq₁, hr₁]
  simp only
  rcases h₁.redirectFirst.cases with ⟨hq₂, hr₂⟩ | ⟨q₂, r₂, fs₂, hq₂, hr₂, h₂, hbg₂⟩
  · rw [hq₂, hr₂]
    exact .synerr
  rw [hq₂, hr₂, ← hbg₁, ← hbg₂]
  exact h₂.answers cmdtab args

end Arrays

end Shell
end Xinu
