import Xinu.Shell.Lexan
import Xinu.Shell.Jobs
import Xinu.Foundations.WordMemory

/-!
# Command lines of the shell

Embedding of the part of the command loop of `shell/shell.c` that parses the tokens of
a line and looks up the command, of `shell/addargs.c`, and of the stack that
`system/create.c` lays out for a process.  Opening the files of a redirection is left out.
-/

namespace Xinu
namespace Shell

open Foundations Function

/-! ## Parsing the tokens -/

/-- Structure of an entry in the table of shell commands -/
structure Cmdent where
  /-- Name of command -/
  cname : List UInt8
  /-- Is this a builtin command? -/
  cbuiltin : Bool
  /-- The name is a string of C. -/
  nonzero : 0 ∉ cname

/-- The variables of the shell that the parser sets; pointers into `tokbuf` are indexes,
and `none` is `NULL`. -/
structure Parse where
  ntok : Nat
  tlen : Int
  backgnd : Bool
  inname : Option Nat
  outname : Option Nat

/-- If last token is `&`, set background. -/
def background (t : Lexed) : Parse :=
  if t.toktyp (t.ntok - 1) = .amper then ⟨t.ntok - 1, t.tlen - 2, true, none, none⟩
  else ⟨t.ntok, t.tlen, false, none, none⟩

/-- The token before the last one is `<` or `>`. -/
def Redirects (t : Lexed) (q : Parse) : Prop :=
  3 ≤ q.ntok ∧ (t.toktyp (q.ntok - 2) = .less ∨ t.toktyp (q.ntok - 2) = .greater)

instance (t : Lexed) (q : Parse) : Decidable (Redirects t q) :=
  inferInstanceAs (Decidable (_ ∧ _))

/-- Check for input/output redirection at the end of the line; `none` is a syntax error. -/
def redirectLast (t : Lexed) (q : Parse) : Option Parse :=
  if Redirects t q then
    if t.toktyp (q.ntok - 1) ≠ .other then none
    else if t.toktyp (q.ntok - 2) = .less then
      some { q with
        inname := some (t.tok (q.ntok - 1)), ntok := q.ntok - 2, tlen := t.tok (q.ntok - 2) }
    else
      some { q with
        outname := some (t.tok (q.ntok - 1)), ntok := q.ntok - 2, tlen := t.tok (q.ntok - 2) }
  else some q

/-- The same check for a redirection before the one found, which must be another. -/
def redirectFirst (t : Lexed) (q : Parse) : Option Parse :=
  if Redirects t q then
    if t.toktyp (q.ntok - 1) ≠ .other then none
    else if t.toktyp (q.ntok - 2) = .less then
      if q.inname ≠ none then none
      else
        some { q with
          inname := some (t.tok (q.ntok - 1)), ntok := q.ntok - 2, tlen := t.tok (q.ntok - 2) }
    else
      if q.outname ≠ none then none
      else
        some { q with
          outname := some (t.tok (q.ntok - 1)), ntok := q.ntok - 2, tlen := t.tok (q.ntok - 2) }
  else some q

/-- The loop that verifies that remaining tokens are type "other": of the `n` tokens from
`i` on, the first that is not. -/
def firstNotOther (toktyp : Nat → TokType) : Nat → Nat → Nat
  | 0, i => i
  | n + 1, i => if toktyp i ≠ .other then i else firstNotOther toktyp n (i + 1)

/-- Name comparison: `src` is the name of a command, `cmp` a string. -/
def sameName : List UInt8 → Chars → Bool
  | [], cmp => decide (cmp 0 = nullch)
  | c :: src, cmp => if cmp 0 ≠ c then false else sameName src fun i => cmp (i + 1)

/-- What the shell does with the tokens of a line. -/
inductive Response where
  /-- The line is empty. -/
  | blank
  /-- `SHELL_SYNERRMSG` -/
  | synerr
  /-- `command %s not found` -/
  | notFound
  /-- `SHELL_BGERRMSG` -/
  | bgerr
  /-- Call the builtin shell function. -/
  | builtin (cmd : Cmdent) (nargs : Nat) (args : Nat → Option Nat)
  /-- Open the files for the redirections, and spawn a child for the command. -/
  | spawn (cmd : Cmdent) (q : Parse)

/-- The loop that sets up the argument vector for a call. -/
def setArgs (t : Lexed) (ntok : Nat) : (Nat → Option Nat) → Nat → Option Nat :=
  forRange 0 ntok fun i args => update args i (some (t.tok i))

/-- The command loop, from the tokens of a line on.  The array `args` holds what is left
in it. -/
def shellLine (cmdtab : List Cmdent) (args : Nat → Option Nat) (t : Lexed) : Response :=
  if t.ntok = 0 then .blank
  else
    match redirectLast t (background t) with
    | none => .synerr
    | some q =>
        match redirectFirst t q with
        | none => .synerr
        | some q =>
            if q.ntok = 0 ∨ firstNotOther t.toktyp q.ntok 0 < q.ntok then .synerr
            else
              match cmdtab.find? fun cmd => sameName cmd.cname t.tokbuf with
              | none => .notFound
              | some cmd =>
                  if cmd.cbuiltin = true then
                    if q.inname ≠ none ∨ q.outname ≠ none ∨ q.backgnd = true then .bgerr
                    else .builtin cmd q.ntok (setArgs t q.ntok args)
                  else .spawn cmd q

/-- The shell goes on to execute the line. -/
def Response.Executes : Response → Prop
  | .builtin _ _ _ | .spawn _ _ => True
  | _ => False

/-! ## Spawning a child -/

def stackmagic : Nat := 0x0A0AAAA9

/-- The `CPSR` of a new process. -/
def cpsr : Platform → Nat
  | .armBbb => 0x53
  | .armQemu => 0x15F

/-- The words that `create` pushes for a procedure with these arguments. -/
def frame (platform : Platform) (procaddr initret : Nat) (args : List Nat) : List Nat :=
  -- the first four arguments go into registers
  (args.drop 4).reverse ++ [procaddr] ++ List.replicate 8 0 ++
    [args.getD 3 0, args.getD 2 0, args.getD 1 0, args.getD 0 0] ++ [initret, cpsr platform]

/-- The stack of a new process below the address `saddr`, with the stack pointer. -/
def createStack (platform : Platform) (saddr procaddr initret : Nat) (args : List Nat)
    (m : Chars) : Chars × Nat :=
  pushAll (storeWord m saddr stackmagic, saddr) (frame platform procaddr initret args)

/-- Find an argument in the `n` words of a process's stack from `search` on. -/
def searchStack (m : Chars) (dummy : Nat) : Nat → Nat → Option Nat
  | 0, _ => none
  | n + 1, search =>
      if loadWord m search = dummy then some search else searchStack m dummy n (search + 4)

/-- Lowest location in a process's stack where the args array is stored. -/
def argLocation (prstkbase prstklen : Nat) : Nat :=
  (prstkbase - prstklen + 4 + 3) / 4 * 4

/-- Add local copy of argv-style arguments to the stack of a command process.  The result
is whether the status is `OK`, and the memory. -/
def addargs (prstkbase prstklen prstkptr : Nat) (ntok : Nat) (tok : Nat → Nat) (tlen : Int)
    (tokbuf : Chars) (dummy : Nat) (m : Chars) : Bool × Chars :=
  if ntok = 0 ∨ tlen < 0 then (false, m)
  else
    let argloc := argLocation prstkbase prstklen
    let argstr := argloc + 4 * (ntok + 1)
    let m := setVector argloc ntok (fun i => argstr + tok i) m
    let m := storeWord m (argloc + 4 * ntok) 0
    let m := copyChars tlen.toNat tokbuf argstr m
    match searchStack m dummy ((prstkbase - prstkptr + 3) / 4) prstkptr with
    | none => (false, m)
    | some search => (true, storeWord m search argloc)

/-- The child of the shell: `create` and `addargs`.  The address `dummy` is `&tmparg`, and
the stack ends in the word at `saddr`.  The result is the status of `addargs`, the stack
pointer of the child, and the memory. -/
def spawnChild (platform : Platform) (saddr procaddr initret dummy : Nat) (t : Lexed)
    (q : Parse) (m : Chars) : Bool × Nat × Chars :=
  match createStack platform saddr procaddr initret [q.ntok, dummy] m with
  | (m, prstkptr) =>
      match addargs saddr (roundew shellCmdstk.toNat) prstkptr q.ntok t.tok q.tlen t.tokbuf
        dummy m with
      | (status, m) => (status, prstkptr, m)

end Shell
end Xinu
