import NexusKernel.Fat32
import NexusKernel.Lib.Programs

/-!
What the drivers of file systems ask of the kernel: blocks of the heap and sectors of a disk. The
heap answers with the stale bytes of a block or with nothing, and may answer each call in another
way. A successful read stores all of its sectors and leaves the buffer behind them alone. A store
through the null pointer gets stuck.
-/

namespace NexusKernel.DiskPrograms

open Lib.Programs ElfLoader Fat32 Program

/-- What a block is for. It tells the calls for blocks of one size in one function apart. -/
inductive Purpose where
  | buffer
  | record
  | extents (lBlock : UInt32)
  | inode
  | object
  deriving DecidableEq

/-- `room` is what the buffer for the sectors was allocated with. -/
inductive Request where
  | kmalloc (use : Purpose) (size : UInt64)
  | sectors (lba : UInt64) (count : UInt8) (room : ℕ)
  deriving DecidableEq

abbrev Call := Program Request (Option Buffer)

structure Host where
  drive : AtaDrive
  heap : Purpose → UInt64 → Option Buffer

def Host.sectors (host : Host) (lba : UInt64) (count : UInt8) : Option Buffer :=
  (diskReadSectors host.drive lba count).map (fun bytes k => bytes.getD k 0)

/-- A block of no bytes is never handed out. -/
def Host.stale (host : Host) (use : Purpose) (size : UInt64) : Option Buffer :=
  if size = 0 then none else host.heap use size

def Host.answer (host : Host) : Request → Option Buffer
  | .kmalloc use size => host.stale use size
  | .sectors lba count _ => host.sectors lba count

structure Block where
  size : ℕ
  bytes : Buffer

def Host.block (host : Host) (use : Purpose) (size : UInt64) : Option Block :=
  (host.stale use size).map (Block.mk size.toNat)

def kmalloc (use : Purpose) (size : UInt64) : Call (Option Block) :=
  .ask (.kmalloc use size) (fun answer => pure (answer.map (Block.mk size.toNat)))

def kmallocUnchecked (size : UInt64) : Call Block := do
  match ← kmalloc .object size with
  | none => .stuck
  | some block => pure block

def sizeofVfsNode : UInt64 := 192

def slice (b : Buffer) (start n : ℕ) : List UInt8 := (List.range n).map (fun i => b (start + i))

def transfer (count : UInt8) : ℕ := 512 * count.toNat

def overlay (n : ℕ) (data old : Buffer) : Buffer := fun k => if k < n then data k else old k

def Block.store (block : Block) (count : UInt8) (data : Buffer) : Block :=
  { block with bytes := overlay (transfer count) data block.bytes }

/-- `none` is the null pointer. -/
def room : Option Block → ℕ
  | none => 0
  | some block => block.size

/-- `disk_read_sectors` with the buffer after it, or nothing when it returns 0. -/
def diskReadInto (lba : UInt64) (count : UInt8) (buf : Option Block) :
    Call (Option (Option Block)) :=
  .ask (.sectors lba count (room buf)) (fun answer =>
    match answer, buf with
    | none, _ => pure none
    | some data, some block => pure (some (some (block.store count data)))
    | some _, none => if count = 0 then pure (some none) else .stuck)

variable (host : Host) (use : Purpose) (lba : UInt64) (count : UInt8) (size : UInt64)
variable (block : Block)

@[simp] theorem run_kmalloc : (kmalloc use size).run host.answer = some (host.block use size) := rfl

@[simp] theorem asked_kmalloc : (kmalloc use size).asked host.answer = [.kmalloc use size] := rfl

@[simp] theorem run_kmallocUnchecked : (kmallocUnchecked size).run host.answer =
    host.block .object size := by
  simp only [kmallocUnchecked, run_bind, run_kmalloc, Option.bind_some]
  cases host.block .object size <;> rfl

@[simp] theorem run_diskReadInto : (diskReadInto lba count (some block)).run host.answer =
      some ((host.sectors lba count).map (fun data => some (block.store count data))) := by
  rw [diskReadInto, run_ask, Host.answer]
  cases host.sectors lba count <;> rfl

theorem run_diskReadInto_null : (diskReadInto lba count none).run host.answer =
    if (host.sectors lba count).isSome then if count = 0 then some (some none) else none
    else some none := by
  rw [diskReadInto, run_ask, Host.answer]
  cases host.sectors lba count with
  | none => rfl
  | some data =>
    by_cases hnum : count = 0
    · simp [hnum]
    · simp [hnum]

/-- A read that succeeds stores the sectors, if there is a buffer. -/
theorem diskReadInto_stores {buf buf' : Option Block}
    (h : (diskReadInto lba count buf).run host.answer = some (some buf')) :
    ∃ data, buf' = buf.map (·.store count data) := by
  cases buf with
  | none =>
    rw [run_diskReadInto_null] at h
    split_ifs at h
    · exact ⟨fun _ => 0, by simpa using h.symm⟩
    · cases h
  | some block =>
    rw [run_diskReadInto] at h
    obtain ⟨data, -, rfl⟩ := Option.map_eq_some_iff.mp (Option.some.inj h)
    exact ⟨data, rfl⟩

@[simp] theorem asked_diskReadInto (buf : Option Block) :
    (diskReadInto lba count buf).asked host.answer = [.sectors lba count (room buf)] := by
  rw [diskReadInto, asked_ask, Host.answer]
  cases host.sectors lba count with
  | none => rfl
  | some data =>
    cases buf with
    | none => by_cases hnum : count = 0 <;> simp [hnum]
    | some block => rfl

/-- A second read into a buffer leaves no trace of the first. -/
@[simp] theorem store_store (data data' : Buffer) :
    (block.store count data).store count data' = block.store count data' := by
  simp only [Block.store, Block.mk.injEq, true_and]
  funext k
  by_cases hk : k < transfer count <;> simp [overlay, hk]

section

variable {a b : Buffer} {n k : ℕ} (h : ∀ i < n, a i = b i)
include h

theorem u16_agree (hk : k + 2 ≤ n) : a.u16 k = b.u16 k := by
  simp only [Buffer.u16, h k (by omega), h (k + 1) (by omega)]

theorem u32_agree (hk : k + 4 ≤ n) : a.u32 k = b.u32 k := by
  simp only [Buffer.u32, u16_agree h (show k + 2 ≤ n by omega), u16_agree h (by omega)]

end

theorem store_inside {k : ℕ} (data : Buffer) (hk : k < transfer count) :
    (block.store count data).bytes k = data k := if_pos hk

end NexusKernel.DiskPrograms
