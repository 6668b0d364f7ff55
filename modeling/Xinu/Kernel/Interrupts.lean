import Xinu.Kernel.Scheduler

/-!
# Interrupt masks

The procedures of the kernel end with the interrupt mask they began with, so their
model leaves the mask out.  Code that calls them by hand may not; it works on the
processor, the kernel together with the masks.  A context switch saves the mask of
the old process and restores that of the new one, so each process has its own.
-/

namespace Xinu

open Foundations Function

/-- The kernel and the mask in force while each process runs. -/
structure Cpu where
  kernel : Kernel
  /-- Whether interrupts are enabled. -/
  mask : Int → Bool

/-- States of which the processor is a part. -/
class HasCpu (τ : Type) where
  cpu : τ → Cpu
  setCpu : τ → Cpu → τ
  cpu_setCpu : ∀ t s, cpu (setCpu t s) = s

instance : HasCpu Cpu where
  cpu t := t
  setCpu _ s := s
  cpu_setCpu _ _ := rfl

section

variable {τ α : Type} [HasCpu τ]

/-- The kernel, as a part of the state. -/
def kernelOf (t : τ) : Kernel :=
  (HasCpu.cpu t).kernel

/-- The mask in force while process `p` runs. -/
def maskOf (t : τ) (p : Int) : Bool :=
  (HasCpu.cpu t).mask p

/-- A procedure that may change the interrupt mask. -/
def onCpu (x : Coop Cpu α) : Coop τ α :=
  Coop.zoom HasCpu.cpu HasCpu.setCpu x

/-- A procedure of the kernel. -/
def onKernel (x : KernelM α) : Coop τ α :=
  onCpu (Coop.zoom Cpu.kernel (fun t s => { t with kernel := s }) x)

/-- Disable interrupts and return the old mask. -/
def disable : Coop τ Bool :=
  onCpu do
    let t ← get
    modify fun t => { t with mask := update t.mask t.kernel.currpid false }
    return t.mask t.kernel.currpid

/-- Put back the mask that was saved. -/
def restore (mask : Bool) : Coop τ Unit :=
  onCpu (modify fun t => { t with mask := update t.mask t.kernel.currpid mask })

/-- The state in which the mask of the process that runs is `mask`. -/
def withMask (t : τ) (mask : Bool) : τ :=
  HasCpu.setCpu t
    { HasCpu.cpu t with mask := update (HasCpu.cpu t).mask (kernelOf t).currpid mask }

@[simp]
theorem run_disable (t : τ) :
    disable t = .done (maskOf t (kernelOf t).currpid) (withMask t false) :=
  rfl

@[simp]
theorem run_restore (mask : Bool) (t : τ) : restore mask t = .done () (withMask t mask) :=
  rfl

@[simp]
theorem kernelOf_withMask (t : τ) (mask : Bool) : kernelOf (withMask t mask) = kernelOf t := by
  unfold kernelOf withMask
  rw [HasCpu.cpu_setCpu]

@[simp]
theorem maskOf_withMask (t : τ) (mask : Bool) :
    maskOf (withMask t mask) (kernelOf t).currpid = mask := by
  unfold maskOf withMask
  rw [HasCpu.cpu_setCpu]
  exact update_self _ _ _

/-- The state with the kernel `s`. -/
def withKernel (t : τ) (s : Kernel) : τ :=
  HasCpu.setCpu t { HasCpu.cpu t with kernel := s }

@[simp]
theorem kernelOf_withKernel (t : τ) (s : Kernel) : kernelOf (withKernel t s) = s := by
  unfold kernelOf withKernel
  rw [HasCpu.cpu_setCpu]

@[simp]
theorem maskOf_withKernel (t : τ) (s : Kernel) (p : Int) :
    maskOf (withKernel t s) p = maskOf t p := by
  unfold maskOf withKernel
  rw [HasCpu.cpu_setCpu]

/-- A procedure of the kernel works on the kernel alone. -/
theorem run_onKernel (x : KernelM α) (t : τ) :
    onKernel x t = (x (kernelOf t)).zoom kernelOf withKernel t :=
  Flow.zoom_zoom _ _ _ _ _ t

end

end Xinu
