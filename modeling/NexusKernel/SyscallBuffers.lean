import NexusKernel.DescriptorTables
import NexusKernel.KeyInput
import NexusKernel.Lib.MemoryTasks

/-!
The system calls that take pointers from a user program, used as they are: a call is a task on the
bytes of the memory, with an answer. Files reach the buffer through the operations of their node,
any task; those of devfs are given as written. The result is `none` while a call waits, and when a
path does not end within the steps allowed.
-/

namespace NexusKernel.SyscallBuffers

open Lib.MemoryTasks Task

abbrev UserTask := Task UInt64 UInt8

def bufferAddrs (buf : UInt64) (size : ℕ) : List UInt64 :=
  (List.range size).map (fun i => buf + UInt64.ofNat i)

def bufferCells (buf : UInt64) (bytes : List UInt8) : List (UInt64 × UInt8) :=
  (bufferAddrs buf bytes.length).zip bytes

def getByte (addr : UInt64) : UserTask UInt8 := .load addr .done

def copyOut (buf : UInt64) (bytes : List UInt8) : UserTask Unit :=
    Task.stores (bufferCells buf bytes)

def copyIn (buf : UInt64) (size : ℕ) : UserTask (List UInt8) := Task.loads (bufferAddrs buf size)

abbrev ReadOp := UInt64 → UInt64 → UInt64 → UserTask (Option UInt64)

/-- `ops->write`, with the bytes that reach device or file. -/
abbrev WriteOp := UInt64 → UInt64 → UInt64 → UserTask (UInt64 × List UInt8)

structure Node where
  read : Option ReadOp
  write : Option WriteOp

def vfsRead (node : Node) (offset size buf : UInt64) : UserTask (Option UInt64) :=
  match node.read with
  | some op => op offset size buf
  | none => pure (some 0)

def vfsWrite (node : Node) (offset size buf : UInt64) : UserTask (UInt64 × List UInt8) :=
  match node.write with
  | some op => op offset size buf
  | none => pure (0, [])

def nullRead : ReadOp := fun _ _ _ => pure (some 0)

def nullWrite : WriteOp := fun _ size _ => pure (size, [])

def zeroRead : ReadOp := fun _ size buf => do
  copyOut buf (List.replicate size.toNat 0)
  pure (some size)

def zeroWrite : WriteOp := fun _ size _ => pure (size, [])

def tty0Write : WriteOp := fun _ size buf => do
  let bytes ← copyIn buf size.toNat
  pure (size, bytes)

/-- The loop of `tty0_read`; with no more keys it waits. -/
def tty0Line (buf size : UInt64) : List UInt8 → UInt64 → UserTask (Option UInt64)
  | [], filled => pure (if filled < size then none else some filled)
  | ascii :: keys, filled =>
      if filled < size then
        if ascii == 8 || ascii == 0x7F then
          tty0Line buf size keys (if filled > 0 then filled - 1 else filled)
        else if ascii == 10 then .store (buf + filled) 10 (.done (some (filled + 1)))
        else if 32 ≤ ascii && ascii ≤ 126 then
          .store (buf + filled) ascii (tty0Line buf size keys (filled + 1))
        else tty0Line buf size keys filled
      else pure (some filled)

def tty0Read (keys : List UInt8) : ReadOp := fun _ size buf => tty0Line buf size keys 0

structure BlockDevice where
  present : Bool
  lbaStart : UInt64
  sizeSectors : UInt64
  readSectors : UInt64 → UInt8 → Option (List UInt8)

def blockRead (dev : BlockDevice) : ReadOp := fun offset size buf =>
  if !dev.present || size == 0 then pure (some 0)
  else
    let lba := dev.lbaStart + offset / 512
    let count := ((size + 511) / 512).toUInt8
    if lba - dev.lbaStart + count.toUInt64 > dev.sizeSectors then pure (some 0)
    else
      match dev.readSectors lba count with
      | some bytes => do
          copyOut buf bytes
          pure (some size)
      | none => pure (some 0)

def blockWrite : WriteOp := fun _ _ _ => pure (0, [])

inductive Driver where
  | null
  | zero
  | tty0 (keys : List UInt8)
  | block (dev : BlockDevice)

def Driver.read : Driver → ReadOp
  | null => nullRead
  | zero => zeroRead
  | tty0 keys => tty0Read keys
  | block dev => blockRead dev

def Driver.write : Driver → WriteOp
  | null => nullWrite
  | zero => zeroWrite
  | tty0 _ => tty0Write
  | block _ => blockWrite

def Driver.node (d : Driver) : Node := ⟨some d.read, some d.write⟩

/-- The file systems behind the path walk: the root below all mounts, the lookup in a directory,
and what `vfs_create` and `elf_load` do. -/
structure Vfs where
  root : Option Node
  finddir : Node → List UInt8 → Option Node
  create : List UInt8 → Option Node
  elfLoads : Node → Bool

def skipSlashes : ℕ → UInt64 → UserTask (Option UInt64)
  | 0, _ => pure none
  | steps + 1, path => do
      let c ← getByte path
      if c == 47 then skipSlashes steps (path + 1) else pure (some path)

def component : ℕ → UInt64 → UserTask (Option (List UInt8 × UInt64))
  | 0, _ => pure none
  | steps + 1, path => do
      let c ← getByte path
      if c == 0 || c == 47 then pure (some ([], path))
      else do
        let rest ← component steps (path + 1)
        pure (rest.map (fun found => (c :: found.1, found.2)))

def vfsResolveRecursive (vfs : Vfs) : ℕ → Option Node → UInt64 → UserTask (Option (Option Node))
  | 0, _, _ => pure none
  | steps + 1, current, path =>
      if path == 0 then pure (some current)
      else do
        let c ← getByte path
        if c == 0 then pure (some current)
        else
          match ← skipSlashes steps path with
          | none => pure none
          | some path => do
              let c ← getByte path
              if c == 0 then pure (some current)
              else
                match ← component steps path with
                | none => pure none
                | some (name, nextPath) =>
                    match current.bind (vfs.finddir · (name.take 127)) with
                    | none => pure (some none)
                    | some node => vfsResolveRecursive vfs steps (some node) nextPath

def vfsResolvePath (vfs : Vfs) (steps : ℕ) (path : UInt64) : UserTask (Option (Option Node)) :=
  if path == 0 then pure (some none)
  else do
    let c ← getByte path
    if c != 47 then pure (some none)
    else vfsResolveRecursive vfs steps vfs.root (path + 1)

def readString : ℕ → UInt64 → UserTask (Option (List UInt8))
  | 0, _ => pure none
  | steps + 1, path => do
      let c ← getByte path
      if c == 0 then pure (some [])
      else do
        let rest ← readString steps (path + 1)
        pure (rest.map (c :: ·))

/-- `vfs_create` goes over the whole path; later copies read the same. -/
def vfsCreate (vfs : Vfs) (steps : ℕ) (path : UInt64) : UserTask (Option (Option Node)) :=
  if path == 0 then pure (some none)
  else do
    let c ← getByte path
    if c != 47 then pure (some none)
    else do
      let name ← readString steps path
      pure (name.map vfs.create)

def eNoEnt : Int64 := -2
def eNoExec : Int64 := -8
def eBadF : Int64 := -9
def eChild : Int64 := -10
def eFault : Int64 := -14
def eInval : Int64 := -22
def eNoSys : Int64 := -38

structure Caller where
  fdTable : Option (DescriptorTables.FdTable Node)
  cwd : Option (List UInt8)

/-- What is seen of a call: its result, the bytes for a device or a file, and the caller's
descriptors. -/
structure Outcome where
  result : Option Int64
  output : List UInt8
  caller : Caller

def Caller.answer (p : Caller) (result : Int64) : Outcome := ⟨some result, [], p⟩

def Caller.waiting (p : Caller) : Outcome := ⟨none, [], p⟩

def Caller.file (p : Caller) (fd : UInt64) : Option Node :=
  p.fdTable.bind (fun t => if fd ≥ 64 then none else t.fds fd.toNat)

def Caller.readOp (p : Caller) (fd : UInt64) : Option ReadOp := (p.file fd).bind Node.read

def Caller.writeOp (p : Caller) (fd : UInt64) : Option WriteOp := (p.file fd).bind Node.write

def writeCap (count : UInt64) : UInt64 := if count > 65536 then 65536 else count

def sysWrite (p : Caller) (fd buf count : UInt64) : UserTask Outcome :=
  if buf == 0 || count == 0 then pure (p.answer 0)
  else
    match p.file fd with
    | none => pure (p.answer eBadF)
    | some node => do
        let written ← vfsWrite node 0 (writeCap count) buf
        pure ⟨some written.1.toInt64, written.2, p⟩

def sysRead (p : Caller) (fd buf count : UInt64) : UserTask Outcome :=
  if buf == 0 || count == 0 then pure (p.answer 0)
  else
    match p.file fd with
    | none => pure (p.answer eBadF)
    | some node => do
        let got ← vfsRead node 0 count buf
        pure ⟨got.map UInt64.toInt64, [], p⟩

def Caller.openFile (p : Caller) (file : Node) : Outcome :=
  match DescriptorTables.sysOpen p.fdTable (some file) true with
  | some (fd, table) => ⟨some (Int64.ofInt fd), [], { p with fdTable := table }⟩
  | none => p.waiting

def sysOpen (p : Caller) (vfs : Vfs) (steps : ℕ) (path flags : UInt64) : UserTask Outcome := do
  match ← vfsResolvePath vfs steps path with
  | none => pure p.waiting
  | some (some file) => pure (p.openFile file)
  | some none =>
      if flags &&& 0x40 == 0 then pure (p.answer eNoEnt)
      else
        match ← vfsCreate vfs steps path with
        | none => pure p.waiting
        | some none => pure (p.answer eNoEnt)
        | some (some file) => pure (p.openFile file)

def sysExecve (p : Caller) (vfs : Vfs) (steps : ℕ) (path : UInt64) : UserTask Outcome := do
  match ← vfsResolvePath vfs steps path with
  | none => pure p.waiting
  | some none => pure (p.answer eNoEnt)
  | some (some file) => pure (p.answer (if vfs.elfLoads file then eNoSys else eNoExec))

def intBytes (status : UInt32) : List UInt8 :=
  [status.toUInt8, (status >>> 8).toUInt8, (status >>> 16).toUInt8, (status >>> 24).toUInt8]

/-- The loop of `sys_wait4` on the answers of `process_waitpid`. -/
def sysWait4 (p : Caller) (statusUser options : UInt64) : List (Int64 × UInt32) → UserTask Outcome
  | [] => pure p.waiting
  | (ret, status) :: waits =>
      if ret > 0 then do
        if statusUser != 0 then copyOut statusUser (intBytes status)
        pure (p.answer ret)
      else if ret == -1 then pure (p.answer eChild)
      else if options &&& 1 != 0 then pure (p.answer 0)
      else sysWait4 p statusUser options waits

def sysGetcwd (p : Caller) (buf size : UInt64) : UserTask Outcome :=
  match p.cwd with
  | none => pure (p.answer eNoEnt)
  | some cwd =>
      if size.toNat < cwd.length + 1 then pure (p.answer eInval)
      else do
        copyOut buf (cwd ++ [0])
        pure (p.answer buf.toInt64)

def cString (s : String) : List UInt8 := s.toList.map (fun c => c.toNat.toUInt8) ++ [0]

def utsname : List (UInt64 × String) :=
  [(0, "NexusOS"), (65, "nexus"), (130, "0.1.0"), (195, "#1 SMP"), (260, "x86_64"),
    (325, "localdomain")]

def utsnameCells (buf : UInt64) : List (UInt64 × UInt8) :=
  utsname.flatMap (fun field => bufferCells (buf + field.1) (cString field.2))

def sysUname (p : Caller) (buf : UInt64) : UserTask Outcome :=
  if buf == 0 then pure (p.answer eFault)
  else do
    Task.stores (utsnameCells buf)
    pure (p.answer 0)

inductive Call where
  | read (fd buf count : UInt64)
  | write (fd buf count : UInt64)
  | open (path flags : UInt64)
  | execve (path : UInt64)
  | wait4 (statusUser options : UInt64)
  | getcwd (buf size : UInt64)
  | uname (buf : UInt64)
  deriving DecidableEq, Repr

structure Kernel where
  caller : Caller
  vfs : Vfs
  steps : ℕ
  waits : List (Int64 × UInt32)

def Call.task (k : Kernel) : Call → UserTask Outcome
  | .read fd buf count => sysRead k.caller fd buf count
  | .write fd buf count => sysWrite k.caller fd buf count
  | .open path flags => sysOpen k.caller k.vfs k.steps path flags
  | .execve path => sysExecve k.caller k.vfs k.steps path
  | .wait4 statusUser options => sysWait4 k.caller statusUser options k.waits
  | .getcwd buf size => sysGetcwd k.caller buf size
  | .uname buf => sysUname k.caller buf

variable {vfs : Vfs}

theorem readOnly_pure {α : Type} (a : α) : (pure a : UserTask α).ReadOnly := trivial

theorem readOnly_getByte (addr : UInt64) : (getByte addr).ReadOnly := fun _ => trivial

theorem skipSlashes_readOnly (steps : ℕ) (path : UInt64) : (skipSlashes steps path).ReadOnly := by
  induction steps generalizing path with
  | zero => exact readOnly_pure _
  | succ steps ih =>
    refine (readOnly_getByte path).bind fun c => ?_
    split
    · exact ih (path + 1)
    · exact readOnly_pure _

theorem component_readOnly (steps : ℕ) (path : UInt64) : (component steps path).ReadOnly := by
  induction steps generalizing path with
  | zero => exact readOnly_pure _
  | succ steps ih =>
    refine (readOnly_getByte path).bind fun c => ?_
    split
    · exact readOnly_pure _
    · exact (ih (path + 1)).bind fun _ => readOnly_pure _

theorem vfsResolveRecursive_readOnly (steps : ℕ) (current : Option Node) (path : UInt64) :
    (vfsResolveRecursive vfs steps current path).ReadOnly := by
  induction steps generalizing current path with
  | zero => exact readOnly_pure _
  | succ steps ih =>
    unfold vfsResolveRecursive
    split
    · exact readOnly_pure _
    · refine (readOnly_getByte path).bind (fun c => ?_)
      split
      · exact readOnly_pure _
      · refine (skipSlashes_readOnly steps path).bind (fun skipped => ?_)
        cases skipped with
        | none => exact readOnly_pure _
        | some start =>
          refine (readOnly_getByte start).bind fun d => ?_
          split
          · exact readOnly_pure _
          · refine (component_readOnly steps start).bind (fun found => ?_)
            rcases found with _ | ⟨name, nextPath⟩
            · exact readOnly_pure _
            · dsimp only
              split
              · exact readOnly_pure _
              · exact ih _ nextPath

theorem vfsResolvePath_readOnly (vfs : Vfs) (steps : ℕ) (path : UInt64) :
    (vfsResolvePath vfs steps path).ReadOnly := by
  unfold vfsResolvePath
  split
  · exact readOnly_pure _
  · refine (readOnly_getByte path).bind (fun c => ?_)
    split
    · exact readOnly_pure _
    · exact vfsResolveRecursive_readOnly steps vfs.root (path + 1)

def reaps (options : UInt64) : List (Int64 × UInt32) → Bool
  | [] => false
  | (ret, _) :: waits =>
      if ret > 0 then true
      else if ret == -1 || options &&& 1 != 0 then false
      else reaps options waits

def Within (S : UInt64 × Bool → Prop) (k : Kernel) (mem : UInt64 → UInt8) : Call → Prop
  | .read fd buf count => buf ≠ 0 → count ≠ 0 → ∀ op, k.caller.readOp fd = some op →
      ∀ x ∈ (op 0 count buf).accesses mem, S x
  | .write fd buf count => buf ≠ 0 → count ≠ 0 → ∀ op, k.caller.writeOp fd = some op →
      ∀ x ∈ (op 0 (writeCap count) buf).accesses mem, S x
  | .open path flags => (∀ x ∈ (vfsResolvePath k.vfs k.steps path).accesses mem, S x) ∧
      (((vfsResolvePath k.vfs k.steps path).run mem).1 matches some none → flags &&& 0x40 ≠ 0 →
        ∀ x ∈ (vfsCreate k.vfs k.steps path).accesses mem, S x)
  | .execve path => ∀ x ∈ (vfsResolvePath k.vfs k.steps path).accesses mem, S x
  | .wait4 statusUser options => statusUser ≠ 0 → reaps options k.waits = true →
      ∀ a ∈ bufferAddrs statusUser 4, S (a, true)
  | .getcwd buf size => ∀ cwd, k.caller.cwd = some cwd → cwd.length + 1 ≤ size.toNat →
      ∀ a ∈ bufferAddrs buf (cwd.length + 1), S (a, true)
  | .uname buf => buf ≠ 0 → ∀ cell ∈ utsnameCells buf, S (cell.1, true)

variable {S : UInt64 × Bool → Prop} {k : Kernel} {mem : UInt64 → UInt8} {p : Caller}
variable {fd buf count size path flags statusUser options : UInt64}

theorem bufferCells_map_fst (buf : UInt64) (bytes : List UInt8) :
    (bufferCells buf bytes).map Prod.fst = bufferAddrs buf bytes.length :=
  List.map_fst_zip (by simp [bufferAddrs])

theorem intBytes_length (status : UInt32) : (intBytes status).length = 4 := rfl

theorem forall_copyOut (S : UInt64 × Bool → Prop) (mem : UInt64 → UInt8) (buf : UInt64)
    {bytes : List UInt8} {n : ℕ} (hlen : bytes.length = n) :
    (∀ x ∈ (copyOut buf bytes).accesses mem, S x) ↔ ∀ a ∈ bufferAddrs buf n, S (a, true) := by
  rw [← hlen, ← bufferCells_map_fst, copyOut, accesses_stores]
  simp only [List.forall_mem_map]

theorem sysRead_accesses : (∀ x ∈ (sysRead p fd buf count).accesses mem, S x) ↔
    (buf ≠ 0 → count ≠ 0 → ∀ op, p.readOp fd = some op →
      ∀ x ∈ (op 0 count buf).accesses mem, S x) := by
  unfold sysRead Caller.readOp
  by_cases hbuf : buf = 0
  · simp [hbuf]
  by_cases hnum : count = 0
  · simp [hnum]
  cases hfile : p.file fd with
  | none => simp [hbuf, hnum]
  | some node =>
    cases hop : node.read with
    | none | some op => simp [hbuf, hnum, vfsRead, hop]

theorem sysWrite_accesses : (∀ x ∈ (sysWrite p fd buf count).accesses mem, S x) ↔
    (buf ≠ 0 → count ≠ 0 → ∀ op, p.writeOp fd = some op →
      ∀ x ∈ (op 0 (writeCap count) buf).accesses mem, S x) := by
  unfold sysWrite Caller.writeOp
  by_cases hbuf : buf = 0
  · simp [hbuf]
  by_cases hnum : count = 0
  · simp [hnum]
  cases hfile : p.file fd with
  | none => simp [hbuf, hnum]
  | some node =>
    cases hop : node.write with
    | none | some op => simp [hbuf, hnum, vfsWrite, hop]

theorem sysOpen_accesses {steps : ℕ} : (∀ x ∈ (sysOpen p vfs steps path flags).accesses mem, S x) ↔
    (∀ x ∈ (vfsResolvePath vfs steps path).accesses mem, S x) ∧
      (((vfsResolvePath vfs steps path).run mem).1 matches some none → flags &&& 0x40 ≠ 0 →
        ∀ x ∈ (vfsCreate vfs steps path).accesses mem, S x) := by
  have hmem := (vfsResolvePath_readOnly vfs steps path).run mem
  rw [sysOpen, accesses_bind, List.forall_mem_append, hmem]
  refine and_congr_right fun _ => ?_
  rcases ((vfsResolvePath vfs steps path).run mem).1 with _ | _ | file
  · simp
  · by_cases hflags : flags &&& 0x40 = 0
    · simp [hflags]
    · simp only [hflags, beq_iff_eq, if_false, accesses_bind, List.forall_mem_append,
        not_false_eq_true, forall_const, ne_eq]
      rcases ((vfsCreate vfs steps path).run mem).1 with _ | _ | file <;> simp
  · simp

theorem sysExecve_accesses {steps : ℕ} : (∀ x ∈ (sysExecve p vfs steps path).accesses mem, S x) ↔
    ∀ x ∈ (vfsResolvePath vfs steps path).accesses mem, S x := by
  rw [sysExecve, accesses_bind, List.forall_mem_append]
  refine and_iff_left ?_
  rcases ((vfsResolvePath vfs steps path).run mem).1 with _ | _ | file <;> simp

theorem sysWait4_accesses {waits : List (Int64 × UInt32)} :
    (∀ x ∈ (sysWait4 p statusUser options waits).accesses mem, S x) ↔
      (statusUser ≠ 0 → reaps options waits = true →
        ∀ a ∈ bufferAddrs statusUser 4, S (a, true)) := by
  induction waits with
  | nil => simp [sysWait4, reaps]
  | cons wait waits ih =>
    obtain ⟨ret, status⟩ := wait
    unfold sysWait4 reaps
    by_cases hret : ret > 0
    · by_cases hstatus : statusUser = 0
      · simp [hret, hstatus]
      · simpa [hret, hstatus] using forall_copyOut S mem statusUser (intBytes_length status)
    by_cases hnone : ret = -1
    · simp [hnone]
    by_cases hoptions : options &&& 1 = 0
    · simpa [hret, hnone, hoptions] using ih
    · simp [hret, hnone, hoptions]

theorem sysGetcwd_accesses : (∀ x ∈ (sysGetcwd p buf size).accesses mem, S x) ↔
    (∀ cwd, p.cwd = some cwd → cwd.length + 1 ≤ size.toNat →
      ∀ a ∈ bufferAddrs buf (cwd.length + 1), S (a, true)) := by
  unfold sysGetcwd
  cases p.cwd with
  | none => simp
  | some cwd =>
    simp only [Option.some.injEq, forall_eq']
    by_cases hsize : size.toNat < cwd.length + 1
    · simp only [if_pos hsize, accesses_pure, List.not_mem_nil, false_imp_iff, forall_const,
        not_le.mpr hsize]
    · have hlen : (cwd ++ [0]).length = cwd.length + 1 := List.length_append
      have hcopy := forall_copyOut S mem buf hlen
      simp only [if_neg hsize, not_lt.mp hsize, forall_const]
      simpa using hcopy

theorem sysUname_accesses : (∀ x ∈ (sysUname p buf).accesses mem, S x) ↔
    (buf ≠ 0 → ∀ cell ∈ utsnameCells buf, S (cell.1, true)) := by
  unfold sysUname
  by_cases hbuf : buf = 0
  · simp [hbuf]
  · simp only [hbuf, beq_iff_eq, if_false, accesses_bind, accesses_pure,
      accesses_stores, List.append_nil, List.forall_mem_map]
    exact ⟨fun h _ => h, fun h => h hbuf⟩

theorem within_iff (c : Call) : (∀ x ∈ (c.task k).accesses mem, S x) ↔ Within S k mem c := by
  cases c with
  | read fd buf count => exact sysRead_accesses
  | write fd buf count => exact sysWrite_accesses
  | «open» path flags => exact sysOpen_accesses
  | execve path => exact sysExecve_accesses
  | wait4 statusUser options => exact sysWait4_accesses
  | getcwd buf size => exact sysGetcwd_accesses
  | uname buf => exact sysUname_accesses

/-! ### The line of `tty0_read` -/

open KeyInput (InputEvent tty0Loop keyOf edit)

def pressed (ev : InputEvent) : UInt8 := if ev.type = .keyPress then ev.ascii else 0

theorem keyOf_pressed (ev : InputEvent) : keyOf ev =
    if pressed ev = 8 ∨ pressed ev = 0x7F then .erase else if pressed ev = 10 then .newline
    else if 32 ≤ pressed ev ∧ pressed ev ≤ 126 then .char (pressed ev) else .other := by
  by_cases hpress : ev.type = .keyPress
  · by_cases hz : ev.ascii = 0 <;> simp [keyOf, pressed, hpress, hz]
  · simp [keyOf, pressed, hpress]

theorem erased_length (line : List UInt8) (hlen : line.length < 2 ^ 64) :
    (if UInt64.ofNat line.length > 0 then UInt64.ofNat line.length - 1
      else UInt64.ofNat line.length) = UInt64.ofNat line.dropLast.length := by
  rcases List.eq_nil_or_concat' line with rfl | ⟨line, c, rfl⟩
  · rfl
  · have hpos : UInt64.ofNat (line ++ [c]).length > 0 := by
      rw [gt_iff_lt, UInt64.lt_iff_toNat_lt, UInt64.toNat_ofNat_of_lt' hlen]
      simp
    rw [if_pos hpos, List.dropLast_concat]
    simp [UInt64.ofNat_add]

/-- The call returns the length of the line that the keys edit. -/
theorem run_tty0Line (events : List InputEvent) (line : List UInt8) (mem : UInt64 → UInt8)
    (hlen : line.length ≤ size.toNat) :
    ((tty0Line buf size (events.map pressed) (UInt64.ofNat line.length)).run mem).1 =
      (tty0Loop size.toNat events line).map fun out => UInt64.ofNat out.1.length := by
  have hless : ∀ {n : ℕ}, n ≤ size.toNat → (UInt64.ofNat n < size ↔ n < size.toNat) := by
    intro n hn
    rw [UInt64.lt_iff_toNat_lt, UInt64.toNat_ofNat_of_lt' (hn.trans_lt size.toNat_lt)]
  induction events generalizing line mem with
  | nil => by_cases hl : line.length < size.toNat <;> simp [tty0Line, tty0Loop, hless hlen, hl]
  | cons ev events ih =>
    rw [List.map_cons, tty0Line, tty0Loop]
    by_cases hl : line.length < size.toNat
    · rw [if_pos ((hless hlen).mpr hl), if_pos hl, edit, keyOf_pressed]
      generalize pressed ev = c
      by_cases herase : c = 8 ∨ c = 0x7F
      · have hdrop := ih line.dropLast mem (by simp; omega)
        simpa [herase, erased_length line (hlen.trans_lt size.toNat_lt)] using hdrop
      by_cases hnl : c = 10
      · simp [hnl, run, UInt64.ofNat_add]
      by_cases hchar : 32 ≤ c ∧ c ≤ 126
      · have happ := ih (line ++ [c]) (Function.update mem (buf + UInt64.ofNat line.length) c)
          (by simpa [Nat.succ_le_iff] using hl)
        simpa [herase, hnl, hchar, run, UInt64.ofNat_add] using happ
      · simpa [herase, hnl, hchar] using ih line mem hlen
    · simp [hless hlen, hl]

end NexusKernel.SyscallBuffers
