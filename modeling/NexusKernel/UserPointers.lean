import NexusKernel.SyscallBuffers

/-!
What user programs can do with kernel memory through the pointers of their system calls: no
pointer is checked, and a byte above the end of the user half is accessed like any other.
-/

namespace NexusKernel.UserPointers

open Lib.MemoryTasks SyscallBuffers

def userEnd : UInt64 := 0x0000800000000000

def Outside (addr : UInt64) : Prop := userEnd ≤ addr

instance (addr : UInt64) : Decidable (Outside addr) := inferInstanceAs (Decidable (userEnd ≤ addr))

def Alike (mem mem' : UInt64 → UInt8) : Prop := ∀ a, ¬Outside a → mem' a = mem a

/-- A call that would use a byte outside the user half fails without such an access, and nothing a
user program sees depends on the kernel half. -/
structure Confined (k : Kernel) (mem : UInt64 → UInt8) (c : Call) : Prop where
  refused : (∃ x ∈ (c.task k).accesses mem, Outside x.1) →
    (∃ e < 0, ((c.task k).run mem).1.result = some e) ∧ ∀ x ∈ (c.task k).accesses mem, ¬Outside x.1
  same : ∀ mem', Alike mem mem' → ((c.task k).run mem').1 = ((c.task k).run mem).1 ∧
    Alike ((c.task k).run mem).2 ((c.task k).run mem').2

variable {k : Kernel} {mem : UInt64 → UInt8} {c : Call}

theorem confined_iff_accesses : Confined k mem c ↔ ∀ x ∈ (c.task k).accesses mem, ¬Outside x.1 := by
  constructor
  · intro h x hx hout
    exact (h.refused ⟨x, hx, hout⟩).2 x hx hout
  · intro h
    constructor
    · rintro ⟨x, hx, hout⟩
      exact absurd hout (h x hx)
    · intro mem' halike
      exact Task.run_congr (fun a => ¬Outside a) h halike

/-- A call is confined exactly when what it does stays below the end of the user half: its copies,
the operation of the file, and the walk over the path. -/
theorem syscall_confined_iff (k : Kernel) (mem : UInt64 → UInt8) (c : Call) :
    Confined k mem c ↔ Within (fun x => x.1 < userEnd) k mem c := by
  rw [confined_iff_accesses, ← within_iff]
  simp only [Outside, UInt64.not_le]

def noFiles : Vfs := ⟨none, fun _ _ => none, fun _ => none, fun _ => false⟩

def consoleKernel : Kernel :=
  { caller := ⟨some (DescriptorTables.initTable (some (Driver.tty0 []).node)), none⟩
    vfs := noFiles
    steps := 0
    waits := [] }

def secretAddr : UInt64 := 0xFFFFFFFF80000000

def holdsAt (secret : UInt8) : UInt64 → UInt8 := fun a => if a = secretAddr then secret else 0

theorem write_secret (secret : UInt8) :
    ((Call.write 1 secretAddr 1).task consoleKernel).run (holdsAt secret) =
    (⟨some 1, [secret], consoleKernel.caller⟩, holdsAt secret) := rfl

/-- Writing one byte from a kernel address prints that byte on the console. -/
theorem write_prints_kernel_byte : Alike (holdsAt 0) (holdsAt 42) ∧
    (((Call.write 1 secretAddr 1).task consoleKernel).run (holdsAt 0)).1.output = [0] ∧
    (((Call.write 1 secretAddr 1).task consoleKernel).run (holdsAt 42)).1.output = [42] ∧
    ¬Confined consoleKernel (holdsAt 0) (.write 1 secretAddr 1) := by
  have halike : Alike (holdsAt 0) (holdsAt 42) := by
    intro a ha
    have hne : a ≠ secretAddr := by
      rintro rfl
      exact ha (by decide)
    simp [holdsAt, hne]
  refine ⟨halike, ?_, ?_, ?_⟩
  · rw [write_secret]
  · rw [write_secret]
  · intro h
    have hsame := (h.same (holdsAt 42) halike).1
    exact absurd (congrArg Outcome.output hsame) (by decide)

end NexusKernel.UserPointers
