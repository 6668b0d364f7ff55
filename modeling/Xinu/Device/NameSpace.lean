import Xinu.Foundations.NullTerminated
import Xinu.Kernel.State

/-!
# The name space

Embedding of `device/nam/mount.c` and `device/nam/nammap.c`.  `mount` runs with interrupts
disabled, so it is one change of the table.  On both boards a `char` is unsigned.

Main results:

- Theorem `namlen_cases`: what `namlen` returns.
- Definition `mount`: the entries it builds are null-terminated within their arrays and
  have a valid device, as the type of an entry says.
-/

namespace Xinu
namespace Nam

open Foundations Function

/-! ## name.h and conf.h -/

def nmPrelen : Nat := 64
def nmRepllen : Nat := 96
def nmMaxlen : Nat := 256
def nnamesMax : Nat := 40

def nulldev : Int := 1
def namespaceDev : Int := 2
def lfilesys : Int := 4

/-- A value that is stored in a `char`. -/
def char (x : Int) : Int :=
  x % 0x100

/-! ## namlen -/

/-- The loop of `namlen`, with its remaining turns. -/
def namlenLoop (name : Chars) : Nat → Nat → Int
  | 0, _ => syserr
  | n + 1, i => if name i = 0 then i + 1 else namlenLoop name n (i + 1)

/-- Compute the length of a string, the null byte included, stopping at `maxlen`. -/
def namlen (name : Chars) (maxlen : Nat) : Int :=
  namlenLoop name maxlen 0

theorem namlenLoop_cases (name : Chars) (n i : Nat) :
    (namlenLoop name n i = syserr ∧ ∀ k, i ≤ k → k < i + n → name k ≠ 0) ∨
      ∃ k < i + n, namlenLoop name n i = k + 1 ∧ name k = 0 ∧
        ∀ j, i ≤ j → j < k → name j ≠ 0 := by
  induction n generalizing i with
  | zero => exact Or.inl ⟨rfl, fun k hlo hhi => by omega⟩
  | succ n ih =>
      unfold namlenLoop
      by_cases hi : name i = 0
      · rw [if_pos hi]
        exact Or.inr ⟨i, by omega, rfl, hi, fun j hlo hhi => by omega⟩
      · rw [if_neg hi]
        have hfirst : ∀ P : Nat → Prop, (∀ j, i + 1 ≤ j → P j → name j ≠ 0) →
            ∀ j, i ≤ j → P j → name j ≠ 0 := by
          intro P hP j hlo hj
          rcases Nat.eq_or_lt_of_le hlo with heq | hlt
          · rw [← heq]
            exact hi
          · exact hP j hlt hj
        rcases ih (i + 1) with ⟨hres, hall⟩ | ⟨k, hk, hres, hnull, hbefore⟩
        · refine Or.inl ⟨hres, hfirst (· < i + (n + 1)) ?_⟩
          exact fun j hlo hj => hall j hlo (by omega)
        · exact Or.inr ⟨k, by omega, hres, hnull, hfirst (· < k) hbefore⟩

/-- `namlen` fails, or finds the first null byte. -/
theorem namlen_cases (name : Chars) (maxlen : Nat) :
    (namlen name maxlen = syserr ∧ ∀ k < maxlen, name k ≠ 0) ∨
      ∃ k < maxlen, namlen name maxlen = k + 1 ∧ name k = 0 ∧ ∀ j < k, name j ≠ 0 := by
  rcases namlenLoop_cases name maxlen 0 with ⟨hres, hall⟩ | ⟨k, hk, hres, hnull, hbefore⟩
  · exact Or.inl ⟨hres, fun k hk => hall k (Nat.zero_le k) (by omega)⟩
  · exact Or.inr ⟨k, by omega, hres, hnull, fun j hj => hbefore j (Nat.zero_le j) hj⟩

/-- What is copied of a name whose length is known ends with its null byte. -/
theorem copied_null {name dst : Chars} {maxlen : Nat} (h : namlen name maxlen ≠ syserr) :
    ∃ i < maxlen, copyChars (namlen name maxlen).toNat name 0 dst i = 0 := by
  rcases namlen_cases name maxlen with ⟨hres, -⟩ | ⟨k, hk, hres, hnull, -⟩
  · exact absurd hres h
  · refine ⟨k, hk, ?_⟩
    have hcopy := @copyChars_inside name dst (namlen name maxlen).toNat 0 k (by omega)
    rw [Nat.zero_add] at hcopy
    rw [hcopy]
    exact hnull

/-! ## The table -/

/-- Definition of prefix table. -/
structure Nmentry where
  /-- `nprefix` -/
  nprefixStr : Chars
  nreplace : Chars
  ndevice : Int
  nprefix_null : ∃ i < nmPrelen, nprefixStr i = 0
  nreplace_null : ∃ i < nmRepllen, nreplace i = 0
  ndevice_valid : ¬ isbaddev ndevice

/-- `nametab` and `nnames` -/
structure NameTab where
  nametab : Nat → Nmentry
  nnames : Nat

/-- The entry that records a prefix, a replacement and a device. -/
def Nmentry.record (e : Nmentry) (pfx replace : Chars) (device : Int)
    (hpfx : namlen pfx nmPrelen ≠ syserr) (hreplace : namlen replace nmRepllen ≠ syserr)
    (hdevice : ¬ isbaddev device) : Nmentry where
  nprefixStr := copyChars (namlen pfx nmPrelen).toNat pfx 0 e.nprefixStr
  nreplace := copyChars (namlen replace nmRepllen).toNat replace 0 e.nreplace
  ndevice := device
  nprefix_null := copied_null hpfx
  nreplace_null := copied_null hreplace
  ndevice_valid := hdevice

/-- Add a prefix mapping to the name space. -/
def mount (pfx replace : Chars) (device : Int) (t : NameTab) : Int × NameTab :=
  if h : namlen pfx nmPrelen = syserr ∨ namlen replace nmRepllen = syserr ∨
      isbaddev device ∨ t.nnames ≥ nnamesMax then
    (syserr, t)
  else
    let namptr := (t.nametab t.nnames).record pfx replace device (fun hp => h (.inl hp))
      (fun hr => h (.inr (.inl hr))) (fun hd => h (.inr (.inr (.inl hd))))
    (ok, { nametab := update t.nametab t.nnames namptr, nnames := t.nnames + 1 })

/-! ## namcpy and namrepl -/

/-- The loop of `namcpy`, with its remaining turns. -/
def namcpyLoop (oldname : Chars) : Nat → Nat → Chars → Int × Chars
  | 0, _, newname => (syserr, newname)
  | n + 1, cnt, newname =>
      let newname := update newname cnt (oldname cnt)
      if oldname cnt = 0 then (ok, newname) else namcpyLoop oldname n (cnt + 1) newname

/-- Copy a name from one buffer to another, checking length. -/
def namcpy (newname oldname : Chars) (buflen : Nat) : Int × Chars :=
  namcpyLoop oldname buflen 0 newname

/-- Compare a prefix to a string and count its size; `none` if it does not match.  A
prefix has a null byte within its array, so as many turns are enough. -/
def comparePrefix (pptr optr : Chars) : Nat → Nat → Option Nat
  | 0, _ => none
  | n + 1, plen =>
      if pptr plen = 0 then some plen
      else if pptr plen ≠ optr plen then none
      else comparePrefix pptr optr n (plen + 1)

/-- The part of `namrepl` for the entry that matches. -/
def replacePrefix (e : Nmentry) (plen : Nat) (name newname : Chars) : Int × Chars :=
  let olen := char (namlen name nmMaxlen)
  let rlen := namlen e.nreplace nmMaxlen - 1
  let remain := olen - plen
  if rlen + remain > nmMaxlen then
    (syserr, newname)
  else
    -- place replacement string followed by remainder of original name (and null)
    let newname := copyChars rlen.toNat e.nreplace 0 newname
    let newname := copyChars remain.toNat (fun i => name (plen + i)) rlen.toNat newname
    (e.ndevice, newname)

/-- The loop of `namrepl`, with its remaining turns. -/
def namreplLoop (t : NameTab) (name newname : Chars) : Nat → Nat → Int × Chars
  | 0, _ => (syserr, newname)
  | n + 1, i =>
      match comparePrefix (t.nametab i).nprefixStr name nmPrelen 0 with
      | none => namreplLoop t name newname n (i + 1)
      | some plen => replacePrefix (t.nametab i) plen name newname

/-- Use the name table to perform prefix substitution. -/
def namrepl (t : NameTab) (name newname : Chars) : Int × Chars :=
  namreplLoop t name newname t.nnames 0

/-! ## nammap -/

/-- The loop of `nammap`, with its remaining turns.  What it copies to `tmpname` when it
returns is not read any more. -/
def nammapLoop (t : NameTab) (tmpname : Chars) (namdev : Int) : Nat → Chars → Int × Chars
  | 0, newname => (syserr, newname)
  | n + 1, newname =>
      let (newdev, newname) := namrepl t tmpname newname
      if newdev ≠ namdev then (newdev, newname) else nammapLoop t tmpname namdev n newname

/-- Using namespace, map name to new name and new device.  `tmpname` and `newname` are the
contents of the two buffers at first. -/
def nammap (t : NameTab) (name newname tmpname : Chars) (namdev : Int) : Int × Chars :=
  let (retval, tmpname) := namcpy tmpname name nmMaxlen
  if retval = syserr then (syserr, newname) else nammapLoop t tmpname namdev t.nnames newname

end Nam
end Xinu
