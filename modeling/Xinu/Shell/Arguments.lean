import Xinu.Shell.Grammar
import Xinu.Memory.FreeList

/-!
# The arguments of a command

Main results:

- Theorem `addargs_ok`: the copy of the arguments on the stack of a process, below the
  words that `create` has pushed.
- Theorem `command_line`: what the shell goes on to execute, and the arguments that the
  command receives.
-/

namespace Xinu
namespace Shell

open Foundations Function

/-! ## The search for the dummy argument -/

section Search

variable {m m' : Chars} {dummy n sp a : Nat}

theorem searchStack_cons (h : loadWord m sp ≠ dummy) :
    searchStack m dummy (n + 1) sp = searchStack m dummy n (sp + 4) :=
  if_neg h

theorem searchStack_found (h : loadWord m sp = dummy) :
    searchStack m dummy (n + 1) sp = some sp :=
  if_pos h

/-- The search reads no byte below its start. -/
theorem searchStack_congr (h : ∀ x, sp ≤ x → m' x = m x) :
    searchStack m' dummy n sp = searchStack m dummy n sp := by
  induction n generalizing sp with
  | zero => rfl
  | succ n ih =>
      rw [searchStack, searchStack, loadWord_congr fun x hlo _ => h x hlo,
        ih fun x hx => h x (by omega)]

theorem searchStack_le (h : searchStack m dummy n sp = some a) : sp ≤ a := by
  induction n generalizing sp with
  | zero => cases h
  | succ n ih =>
      unfold searchStack at h
      split at h
      · cases h
        exact Nat.le_refl _
      · have hle := ih h
        omega

end Search

/-! ## addargs -/

/-- An argument vector at `a`: pointers to strings, and a null pointer behind them. -/
structure ArgVector (m : Chars) (a : Nat) (words : List (List UInt8)) : Prop where
  strings : ∀ i (h : i < words.length), Spells (fun k => m (loadWord m (a + 4 * i) + k)) words[i]
  last : loadWord m (a + 4 * words.length) = 0

section Addargs

variable {base len sp k dummy a : Nat} {tok : Nat → Nat} {tokbuf m : Chars}
  {words : List (List UInt8)}

/-- Arguments that are copied below the stack pointer of the process. -/
theorem addargs_ok (hne : words ≠ []) (htexts : Packed tokbuf words)
    (htok : ∀ i < words.length, tok i = packedLen (words.take i))
    (hroom : argLocation base len + 4 * (words.length + 1) + packedLen words ≤ sp)
    (hsp : sp < 0x100000000)
    (hsearch : searchStack m dummy ((base - sp + 3) / 4) sp = some a) :
    ∃ m', addargs base len sp words.length tok (packedLen words) tokbuf dummy m = (true, m') ∧
      loadWord m' a = argLocation base len ∧ ArgVector m' (argLocation base len) words ∧
      ∀ x, sp ≤ x → x < a ∨ a + 4 ≤ x → m' x = m x := by
  obtain ⟨argloc, hloc⟩ : ∃ argloc, argLocation base len = argloc := ⟨_, rfl⟩
  obtain ⟨argstr, hstr⟩ : ∃ argstr, argloc + 4 * (words.length + 1) = argstr := ⟨_, rfl⟩
  obtain ⟨m₁, hm₁⟩ : ∃ m₁, setVector argloc words.length (fun i => argstr + tok i) m = m₁ :=
    ⟨_, rfl⟩
  obtain ⟨m₂, hm₂⟩ : ∃ m₂, storeWord m₁ (argloc + 4 * words.length) 0 = m₂ := ⟨_, rfl⟩
  obtain ⟨m₃, hm₃⟩ : ∃ m₃, copyChars (packedLen words) tokbuf argstr m₂ = m₃ := ⟨_, rfl⟩
  rw [hloc, hstr] at hroom
  have hpos : words.length ≠ 0 := fun hnil => hne (List.length_eq_zero_iff.mp hnil)
  -- the words from the stack pointer on are as `create` has pushed them
  have habove : ∀ x, sp ≤ x → m₃ x = m x := by
    intro x hx
    rw [← hm₃, copyChars_outside (by omega), ← hm₂, storeWord_outside (by omega), ← hm₁,
      setVector_outside (by omega)]
  have hfound : searchStack m₃ dummy ((base - sp + 3) / 4) sp = some a := by
    rw [searchStack_congr habove, hsearch]
  have ha : sp ≤ a := searchStack_le hsearch
  have hrun : addargs base len sp words.length tok (packedLen words) tokbuf dummy m =
      (true, storeWord m₃ a argloc) := by
    have hgo : ¬ (words.length = 0 ∨ (packedLen words : Int) < 0) := by omega
    unfold addargs
    rw [if_neg hgo]
    simp only [hloc, hstr, hm₁, hm₂, Int.toNat_natCast, hm₃, hfound]
  have hbelow : ∀ x, x < sp → storeWord m₃ a argloc x = m₃ x :=
    fun x hx => storeWord_outside (by omega)
  have hvector : ∀ i ≤ words.length, loadWord (storeWord m₃ a argloc) (argloc + 4 * i) =
      loadWord m₂ (argloc + 4 * i) := by
    intro i hi
    apply loadWord_congr
    intro x _ hx
    rw [hbelow x (by omega), ← hm₃, copyChars_outside (by omega)]
  have hstrings : Packed (fun i => storeWord m₃ a argloc (argstr + i)) words := by
    apply htexts.congr
    intro i hi
    rw [hbelow _ (by omega), ← hm₃, copyChars_inside hi]
  refine ⟨_, hrun, ?_, ⟨?_, ?_⟩, ?_⟩
  · rw [hloc]
    exact loadWord_storeWord m₃ (by omega)
  · intro i hi
    have hpointer : loadWord m₂ (argloc + 4 * i) = argstr + packedLen (words.take i) := by
      have hle := packedLen_take_le words i
      rw [← hm₂, loadWord_storeWord_of_disjoint (by omega), ← hm₁, ← htok i hi]
      exact setVector_word hi (by rw [htok i hi]; omega)
    rw [hloc, hvector i (Nat.le_of_lt hi), hpointer]
    simpa only [Nat.add_assoc] using hstrings.spells hi
  · rw [hloc, hvector _ (Nat.le_refl _), ← hm₂]
    exact loadWord_storeWord m₁ (by decide)
  · intro x hx hout
    rw [storeWord_outside hout, habove x hx]

end Addargs

/-! ## The stack of the child -/

/-- The arguments that a process starts with.  Its stack pointer `sp` leads to the saved
`CPSR` and the return address, and behind them lie the registers from `r0` on. -/
structure CalledWith (m : Chars) (sp : Nat) (words : List (List UInt8)) : Prop where
  nargs : loadWord m (sp + 8) = words.length
  args : ArgVector m (loadWord m (sp + 12)) words

section Child

variable {platform : Platform} {saddr procaddr initret dummy n i : Nat} {m : Chars}
  {t : Lexed} {q : Parse} {fs : Files} {words : List (List UInt8)}

theorem createStack_sp :
    (createStack platform saddr procaddr initret [n, dummy] m).2 = saddr - 60 :=
  pushAll_sp _ _ _

/-- The words that `create` has pushed last. -/
theorem createStack_words (hroom : 60 ≤ saddr) (hret : initret < 0x100000000)
    (hn : n < 0x100000000) (hdummy : dummy < 0x100000000) :
    ∃ s, (createStack platform saddr procaddr initret [n, dummy] m).1 = s ∧
      loadWord s (saddr - 60) = cpsr platform ∧ loadWord s (saddr - 60 + 4) = initret ∧
      loadWord s (saddr - 60 + 8) = n ∧ loadWord s (saddr - 60 + 12) = dummy := by
  obtain ⟨ws, hws⟩ : ∃ ws, frame platform procaddr initret [n, dummy] = ws := ⟨_, rfl⟩
  have hlen : ws.length = 15 := by
    rw [← hws]
    rfl
  have hword : ∀ k (hk : k < ws.length), ws[k] < 0x100000000 →
      loadWord (pushAll (storeWord m saddr stackmagic, saddr) ws).1 (saddr - 4 * (k + 1)) = ws[k] :=
    fun k hk hw => pushAll_word (by omega) hk hw
  refine ⟨_, rfl, ?_⟩
  unfold createStack
  rw [hws, show saddr - 60 + 4 = saddr - 56 by omega, show saddr - 60 + 8 = saddr - 52 by omega,
    show saddr - 60 + 12 = saddr - 48 by omega]
  subst hws
  have hlt : ∀ k, k < 15 → k < (frame platform procaddr initret [n, dummy]).length :=
    fun k hk => Nat.lt_of_lt_of_eq hk hlen.symm
  refine ⟨hword 14 (hlt 14 (by decide)) ?_, hword 13 (hlt 13 (by decide)) hret,
    hword 12 (hlt 12 (by decide)) hn, hword 11 (hlt 11 (by decide)) hdummy⟩
  show cpsr platform < 0x100000000
  cases platform <;> decide

theorem Agrees.packed (h : Agrees t q (words.map Token.other).reverse fs) :
    Packed t.tokbuf words ∧ q.ntok = words.length ∧ q.tlen = packedLen words ∧
      packedLen words ≤ t.tlen ∧ ∀ i < words.length, t.tok i = packedLen (words.take i) := by
  rcases h.words with ⟨rest, hheld⟩
  have hmap : (words.map Token.other).map Token.text = words := by
    rw [List.map_map]
    exact List.map_id' words
  have htexts := hheld.texts
  have htlen := hheld.tlen
  have hq := h.tlen
  rw [List.map_append, hmap] at htexts htlen
  rw [packedLen_append] at htlen
  rw [List.reverse_reverse, hmap] at hq
  refine ⟨(packed_append_iff.mp htexts).1, ?_, hq, by omega, ?_⟩
  · rw [h.ntok, List.length_reverse, List.length_map]
  · intro i hi
    rw [hheld.tok i (by rw [List.length_append, List.length_map]; omega), List.map_append, hmap,
      List.take_append_of_le_length (Nat.le_of_lt hi)]

theorem spawnChild_eq {s m' : Chars} {sp : Nat} {status : Bool}
    (hs : createStack platform saddr procaddr initret [q.ntok, dummy] m = (s, sp))
    (hrun : addargs saddr (roundew shellCmdstk.toNat) sp q.ntok t.tok q.tlen t.tokbuf dummy s =
      (status, m')) :
    spawnChild platform saddr procaddr initret dummy t q m = (status, sp, m') := by
  unfold spawnChild
  simp only [hs, hrun]

/-- The child of the shell is called with the words of the line. -/
theorem spawnChild_calls (hq : Agrees t q (words.map Token.other).reverse fs) (hne : words ≠ [])
    (hmax : words.length ≤ shellMaxtok) (htlen : t.tlen ≤ shellBuflen + shellMaxtok)
    (hstack : 8192 ≤ saddr) (hsaddr : saddr < 0x100000000) (hret : initret < 0x100000000)
    (hdummy : dummy < 0x100000000) (hcpsr : cpsr platform ≠ dummy) (hcode : initret ≠ dummy)
    (hcount : words.length ≠ dummy) :
    ∃ sp m', spawnChild platform saddr procaddr initret dummy t q m = (true, sp, m') ∧
      CalledWith m' sp words := by
  obtain ⟨htexts, hntok, hqlen, hle, htok⟩ := hq.packed
  have hlen : roundew shellCmdstk.toNat = 8192 := by decide
  have hwords : words.length < 0x100000000 := by
    unfold shellMaxtok at hmax
    omega
  obtain ⟨s, hs, h0, h4, h8, h12⟩ :=
    @createStack_words platform saddr procaddr initret dummy words.length m (by omega) hret hwords
      hdummy
  have hsearch : searchStack s dummy ((saddr - (saddr - 60) + 3) / 4) (saddr - 60) =
      some (saddr - 60 + 12) := by
    rw [show (saddr - (saddr - 60) + 3) / 4 = 11 + 1 + 1 + 1 + 1 by omega,
      searchStack_cons (by rwa [h0]), searchStack_cons (by rwa [h4]),
      searchStack_cons (by rwa [h8])]
    exact searchStack_found h12
  have hroom : argLocation saddr 8192 + 4 * (words.length + 1) + packedLen words ≤
      saddr - 60 := by
    unfold argLocation
    unfold shellBuflen shellMaxtok at htlen
    unfold shellMaxtok at hmax
    omega
  obtain ⟨m', hrun, hargs, hvector, hsame⟩ :=
    addargs_ok hne htexts htok hroom (by omega) hsearch
  refine ⟨saddr - 60, m', ?_, ?_, ?_⟩
  · apply spawnChild_eq
    · rw [hntok]
      exact Prod.ext hs createStack_sp
    · rw [hntok, hqlen, hlen]
      exact hrun
  · rw [loadWord_congr fun x hlo hhi => hsame x (by omega) (by omega), h8]
  · rw [hargs]
    exact hvector

end Child

/-! ## Command lines -/

/-- Where the linker and the allocator put things: the program lies below the heap, in which
the shell has its stack with the variable at `dummy`. -/
structure Image (heap : Memory.Heap) (initret dummy : Nat) : Prop where
  vectors : 0x15F < heap.minheap
  code : initret < heap.minheap
  variable_in_heap : heap.minheap ≤ dummy
  variable_lt : dummy < 0x100000000

/-- On every stack that `getstk` allocates for it, the command is called with the words. -/
def CallsWith (platform : Platform) (t : Lexed) (q : Parse) (words : List (List UInt8)) : Prop :=
  ∀ heap heap' l saddr procaddr initret dummy m, Memory.FreeList heap l →
    Memory.getstk (roundew shellCmdstk.toNat) heap = .done (some saddr) heap' →
    Image heap initret dummy →
    ∃ sp m', spawnChild platform saddr procaddr initret dummy t q m = (true, sp, m') ∧
      CalledWith m' sp words

/-- The shell does what the line says. -/
def Response.Follows (cmdtab : List Cmdent) (platform : Platform) (t : Lexed) (line : Line) :
    Response → Prop
  | .builtin cmd nargs args =>
      named cmdtab line = some cmd ∧ nargs = line.words.length ∧ ArgsOf t args line.words
  | .spawn cmd q =>
      named cmdtab line = some cmd ∧ q.backgnd = line.backgnd ∧
        Option.Rel (PointsTo t) q.inname line.files.input ∧
        Option.Rel (PointsTo t) q.outname line.files.output ∧ CallsWith platform t q line.words
  | _ => True

section CommandLine

variable {cmdtab : List Cmdent} {platform : Platform} {t t₀ : Lexed} {q : Parse} {c : Line}
  {toks : List Token} {args : Nat → Option Nat}

/-- The stack that `getstk` allocates. -/
theorem stack_bounds {heap heap' : Memory.Heap} {l : List Span} {saddr : Nat}
    (h : Memory.FreeList heap l)
    (hstk : Memory.getstk (roundew shellCmdstk.toNat) heap = .done (some saddr) heap') :
    8192 ≤ saddr ∧ saddr < 0x100000000 := by
  have hmin := h.minheap_pos
  have hmax := h.maxheap_lt
  have hsize : Memory.roundmb (roundew shellCmdstk.toNat) = 8192 := by decide
  rcases Memory.getstk_run (n := roundew shellCmdstk.toNat) h with
    ⟨-, hnone⟩ | ⟨-, a, m', l', hsome, hgrant⟩
  · rw [hnone] at hstk
    cases hstk
  · rw [hsome, hsize] at hstk
    have ha : a + 8192 - 4 = saddr := Option.some.inj (Flow.done.inj hstk).1
    have hlow : heap.minheap ≤ a := hgrant.bounds.1
    have hhigh : a + Memory.roundmb (roundew shellCmdstk.toNat) ≤ heap.maxheap := hgrant.bounds.2
    have h8 : 8 ∣ a := hgrant.aligned
    unfold Memory.null at hmin
    rw [hsize] at hhigh
    omega

theorem Agrees.callsWith (h : Agrees t q (c.words.map Token.other).reverse c.files)
    (hne : c.words ≠ []) (hmax : c.words.length ≤ shellMaxtok)
    (htlen : t.tlen ≤ shellBuflen + shellMaxtok) : CallsWith platform t q c.words := by
  intro heap heap' l saddr procaddr initret dummy m hheap hstk himage
  have hbounds := stack_bounds hheap hstk
  have hvectors := himage.vectors
  have hcode := himage.code
  have hlow := himage.variable_in_heap
  have hlt := himage.variable_lt
  have hcpsr : cpsr platform ≤ 0x15F := by
    cases platform <;> decide
  unfold shellMaxtok at hmax
  apply spawnChild_calls h hne hmax htlen hbounds.1 hbounds.2 <;> omega

/-- The response to a line of the grammar follows it. -/
theorem Answers.follows {r : Response} (h : Answers cmdtab t (some c) r) (hne : c.words ≠ [])
    (hmax : c.words.length ≤ shellMaxtok) (htlen : t.tlen ≤ shellBuflen + shellMaxtok) :
    r.Follows cmdtab platform t c := by
  cases h with
  | notFound => trivial
  | bgerr => trivial
  | builtin h hbuiltin hplain hargs => exact ⟨h, rfl, hargs⟩
  | spawn h hbuiltin hbackgnd hq =>
      exact ⟨h, hbackgnd, hq.input, hq.output, hq.callsWith hne hmax htlen⟩

/-- The lines that the shell executes. -/
theorem Answers.executes_iff {o : Option Line} {r : Response} (h : Answers cmdtab t o r) :
    r.Executes ↔ ∃ c cmd, o = some c ∧ named cmdtab c = some cmd ∧
      (cmd.cbuiltin = true → c.Plain) := by
  cases h with
  | synerr => exact ⟨nofun, fun ⟨c, cmd, ho, _⟩ => nomatch ho⟩
  | notFound h =>
      refine ⟨nofun, ?_⟩
      rintro ⟨c, cmd, ho, hnamed, -⟩
      cases ho
      rw [h] at hnamed
      cases hnamed
  | bgerr h hbuiltin hplain =>
      refine ⟨nofun, ?_⟩
      rintro ⟨c, cmd, ho, hnamed, himp⟩
      cases ho
      rw [h] at hnamed
      cases hnamed
      exact hplain (himp hbuiltin)
  | builtin h hbuiltin hplain hargs =>
      exact ⟨fun _ => ⟨_, _, rfl, h, fun _ => hplain⟩, fun _ => trivial⟩
  | spawn h hbuiltin hbackgnd hq =>
      refine ⟨fun _ => ⟨_, _, rfl, h, fun hb => ?_⟩, fun _ => trivial⟩
      rw [hbuiltin] at hb
      cases hb

theorem Form.length_le (h : Form toks c) : c.words.length ≤ toks.length := by
  rcases h with ⟨-, redirections, -, rfl⟩
  simp only [List.length_append, List.length_map]
  omega

/-- The shell goes on to execute a line exactly when its tokens have the form of a command
line, the first names a command, and a builtin command is neither redirected nor in
background; it then follows the line. -/
theorem command_line {line : List UInt8} (hline : line.length ≤ shellBuflen)
    (hlex : lexan line t₀ = some t) (cmdtab : List Cmdent) (args : Nat → Option Nat)
    (platform : Platform) :
    ∃ toks, Holds t toks ∧
      ((shellLine cmdtab args t).Executes ↔
        ∃ c cmd, Form toks c ∧ named cmdtab c = some cmd ∧ (cmd.cbuiltin = true → c.Plain)) ∧
      ∀ c, Form toks c → (shellLine cmdtab args t).Follows cmdtab platform t c := by
  obtain ⟨toks, hheld, hmax, htlen⟩ := lexan_holds hlex
  refine ⟨toks, hheld, ?_⟩
  by_cases hne : toks = []
  · have hblank : shellLine cmdtab args t = .blank := if_pos (by rw [hheld.ntok, hne]; rfl)
    have hform : ∀ c, ¬ Form toks c := by
      intro c hc
      have hle := hc.length_le
      rw [hne] at hle
      exact hc.1 (List.length_eq_zero_iff.mp (Nat.le_zero.mp hle))
    rw [hblank]
    exact ⟨⟨nofun, fun ⟨c, _, hc, _⟩ => hform c hc⟩, fun c hc => (hform c hc).elim⟩
  · have hanswers := shellLine_answers hheld hne cmdtab args
    constructor
    · simp only [← parseTokens_iff]
      exact hanswers.executes_iff
    · intro c hc
      rw [parseTokens_iff.mpr hc] at hanswers
      exact hanswers.follows hc.1 (Nat.le_trans hc.length_le hmax) (by omega)

end CommandLine

/-! ## Two lines -/

/-- Arrays before the first line. -/
def noTokens : Lexed :=
  ⟨0, 0, fun _ => 0, fun _ => 0, fun _ => .other⟩

/-- The builtin command `exit`. -/
def exitEntry : Cmdent :=
  ⟨[101, 120, 105, 116], true, by decide⟩

/-- The line `exit`. -/
theorem command_line_exit :
    ∃ t toks, lexan [101, 120, 105, 116, 10] noTokens = some t ∧ Holds t toks ∧
      ((shellLine [exitEntry] (fun _ => none) t).Executes ↔
        ∃ c cmd, Form toks c ∧ named [exitEntry] c = some cmd ∧ (cmd.cbuiltin = true → c.Plain)) ∧
      ∀ c, Form toks c →
        (shellLine [exitEntry] (fun _ => none) t).Follows [exitEntry] .armBbb t c := by
  have hsome : (lexan [101, 120, 105, 116, 10] noTokens).isSome = true := by decide +kernel
  have hlex := (Option.some_get hsome).symm
  rcases command_line (by decide) hlex [exitEntry] (fun _ => none) .armBbb with ⟨toks, h⟩
  exact ⟨_, toks, hlex, h⟩

/-- What `lexan` makes of the line `exit &`. -/
def exitInBackground : Lexed :=
  (lexan [101, 120, 105, 116, 32, 38, 10] noTokens).getD noTokens

theorem exitInBackground_holds : Holds exitInBackground [.other [101, 120, 105, 116], .amper] := by
  refine ⟨by decide +kernel, by decide +kernel, ⟨⟨?_, ?_, ?_⟩, ⟨?_, ?_, ?_⟩, trivial⟩, ?_, ?_⟩
  all_goals decide +kernel

/-- The line `exit &` has the form of a command line and names a command, and the shell does
not execute it. -/
theorem builtin_in_background :
    ∃ t toks c cmd, lexan [101, 120, 105, 116, 32, 38, 10] noTokens = some t ∧ Holds t toks ∧
      Form toks c ∧ named [exitEntry] c = some cmd ∧
      ¬ (shellLine [exitEntry] (fun _ => none) t).Executes := by
  have hlex : lexan [101, 120, 105, 116, 32, 38, 10] noTokens = some exitInBackground := by
    have hsome : (lexan [101, 120, 105, 116, 32, 38, 10] noTokens).isSome = true := by
      decide +kernel
    exact (Option.getD_of_ne_none (Option.isSome_iff_ne_none.mp hsome) noTokens).symm
  have hform : Form [.other [101, 120, 105, 116], .amper]
      ⟨[[101, 120, 105, 116]], ⟨none, none⟩, true⟩ :=
    ⟨List.cons_ne_nil _ _, [], .none, rfl⟩
  have hcmd : named [exitEntry] ⟨[[101, 120, 105, 116]], ⟨none, none⟩, true⟩ = some exitEntry := rfl
  refine ⟨_, _, _, exitEntry, hlex, exitInBackground_holds, hform, hcmd, ?_⟩
  have hanswers := shellLine_answers exitInBackground_holds (List.cons_ne_nil _ _) [exitEntry]
    fun _ => none
  rw [parseTokens_iff.mpr hform] at hanswers
  intro hexec
  obtain ⟨c, cmd, ho, hnamed, himp⟩ := hanswers.executes_iff.mp hexec
  cases ho
  rw [hcmd] at hnamed
  cases hnamed
  exact Bool.noConfusion (himp rfl).2

end Shell
end Xinu
