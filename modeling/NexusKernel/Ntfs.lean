import NexusKernel.Fat32Calls
import NexusKernel.Lib.MemoryTasks

/-!
The driver of fs/ntfs.c. What it does with a record in memory is a task on the bytes of the record
and of the fields for names; all offsets come from the record. Around the tasks, programs ask for
memory and sectors. The walks along attributes, index entries and data runs have fuel.
-/

namespace NexusKernel.Ntfs

open Lib.MemoryTasks Lib.CStrings ElfLoader DiskPrograms
open Fat32Calls (Dirent)

inductive Place where
  | record (k : ℕ)
  | direntName (i : ℕ)
  | asciiName (i : ℕ)
  | childName (i : ℕ)
  deriving DecidableEq

abbrev RecordTask := Task Place UInt8

def load8 (k : ℕ) : RecordTask UInt8 := .load (.record k) .done

def load16 (k : ℕ) : RecordTask UInt16 := do
  let lo ← load8 k
  let hi ← load8 (k + 1)
  pure (lo.toUInt16 ||| (hi.toUInt16 <<< 8))

def load32 (k : ℕ) : RecordTask UInt32 := do
  let lo ← load16 k
  let hi ← load16 (k + 2)
  pure (lo.toUInt32 ||| (hi.toUInt32 <<< 16))

def load64 (k : ℕ) : RecordTask UInt64 := do
  let lo ← load32 k
  let hi ← load32 (k + 4)
  pure (lo.toUInt64 ||| (hi.toUInt64 <<< 32))

def store16 (k : ℕ) (w : UInt16) : RecordTask Unit :=
  Task.stores [(.record k, w.toUInt8), (.record (k + 1), (w >>> 8).toUInt8)]

def recordOf (mem : Place → UInt8) : Buffer := fun k => mem (.record k)

section

variable (mem : Place → UInt8) (k : ℕ)

@[simp] theorem run_load8 : (load8 k).run mem = (recordOf mem k, mem) := rfl

@[simp] theorem run_load16 : (load16 k).run mem = ((recordOf mem).u16 k, mem) := rfl

@[simp] theorem run_load32 : (load32 k).run mem = ((recordOf mem).u32 k, mem) := rfl

@[simp] theorem run_load64 : (load64 k).run mem = ((recordOf mem).u64 k, mem) := rfl

end

def fileMagic : UInt32 := 0x454C4946

def fixupSectors (recordSize : UInt32) (usa : ℕ) (seqNum : UInt16) : ℕ → ℕ → RecordTask Bool
  | 0, _ => pure true
  | n + 1, i =>
      let sectorEnd := i * 512 - 2
      if sectorEnd + 1 ≥ recordSize.toNat then pure true
      else do
        let endWord ← load16 sectorEnd
        if endWord ≠ seqNum then pure false
        else do
          let word ← load16 (usa + 2 * i)
          store16 sectorEnd word
          fixupSectors recordSize usa seqNum n (i + 1)

/-- What `ntfs_read_mft_record` does behind the read: the check of the magic number and the
fixup. -/
def fixup (recordSize : UInt32) : RecordTask Bool := do
  let magic ← load32 0
  if magic ≠ fileMagic then pure false
  else do
    let updateSeqOffset ← load16 4
    let seqNum ← load16 updateSeqOffset.toNat
    let usaLen ← load16 6
    fixupSectors recordSize updateSeqOffset.toNat seqNum (usaLen.toNat - 1) 1

/-- The loop of `ntfs_find_attr`; the result is `none` when the fuel is used up. -/
def findAttrFrom (type recordSize : UInt32) : ℕ → UInt32 → RecordTask (Option (Option UInt32))
  | 0, _ => pure none
  | fuel + 1, off =>
      if off.toNat + 16 ≤ recordSize.toNat then do
        let attrType ← load32 off.toNat
        if attrType = 0xFFFFFFFF then pure (some none)
        else do
          let length ← load32 (off.toNat + 4)
          if length = 0 then pure (some none)
          else if attrType = type then pure (some (some off))
          else findAttrFrom type recordSize fuel (off + length)
      else pure (some none)

def ntfsFindAttr (type recordSize : UInt32) (fuel : ℕ) : RecordTask (Option (Option UInt32)) := do
  let attrsOffset ← load16 20
  findAttrFrom type recordSize fuel attrsOffset.toUInt32

def attrData : UInt32 := 0x80
def attrIndexRoot : UInt32 := 0x90

/-- What the operations do with a record: nothing further (`some none`) if it is bad or has no
such attribute. -/
def onAttr {α : Type} (recordSize type : UInt32) (fuel : ℕ)
    (body : ℕ → RecordTask (Option (Option α))) : RecordTask (Option (Option α)) := do
  if ← fixup recordSize then
    match ← ntfsFindAttr type recordSize fuel with
    | none => pure none
    | some none => pure (some none)
    | some (some attr) => body attr.toNat
  else pure (some none)

def utf16ToAscii (dest : ℕ → Place) (src : ℕ) : ℕ → ℕ → RecordTask (List UInt8)
  | 0, i => .store (dest i) 0 (pure [])
  | n + 1, i => do
      let c ← load16 (src + 2 * i)
      let char : UInt8 := if c < 0x80 then c.toUInt8 else 0x3F
      .store (dest i) char (do
        let rest ← utf16ToAscii dest src n (i + 1)
        pure (char :: rest))

def firstEntry (attr : ℕ) : RecordTask ℕ := do
  let valueOffset ← load16 (attr + 20)
  let indexHdr := attr + valueOffset.toNat + 16
  let entriesOff ← load32 indexHdr
  pure (indexHdr + entriesOff.toNat)

variable {α σ : Type}

/-- The loop over the index entries from `entry` on. A visit gets the place of the key and the
record number. -/
def walkEntries (visit : ℕ → UInt64 → σ → RecordTask (α ⊕ σ)) :
    ℕ → ℕ → σ → RecordTask (Option (Option α))
  | 0, _, _ => pure none
  | fuel + 1, entry, s => do
      let mftRef ← load64 entry
      let entryLength ← load16 (entry + 8)
      let keyLength ← load16 (entry + 10)
      let flags ← load32 (entry + 12)
      if flags &&& 0x02 ≠ 0 then pure (some none)
      else if entryLength < 16 then pure (some none)
      else if keyLength = 0 then walkEntries visit fuel (entry + entryLength.toNat) s
      else
        let recNum := mftRef &&& 0x0000FFFFFFFFFFFF
        if recNum < 16 then walkEntries visit fuel (entry + entryLength.toNat) s
        else do
          match ← visit (entry + 16) recNum s with
          | .inl a => pure (some (some a))
          | .inr s => walkEntries visit fuel (entry + entryLength.toNat) s

def typeOf (flags : UInt32) : UInt32 := if flags &&& 0x02 ≠ 0 then Vfs.fsDirectory else Vfs.fsFile

def readdirVisit (index : UInt32) (fn : ℕ) (recNum : UInt64) (validCount : UInt32) :
    RecordTask (Dirent ⊕ UInt32) :=
  if validCount = index then do
    let nameLength ← load8 (fn + 64)
    let name ← utf16ToAscii .direntName (fn + 66) nameLength.toNat 0
    let flags ← load32 (fn + 56)
    pure (.inl { name := cString name, ino := recNum.toUInt32, type := typeOf flags })
  else pure (.inr (validCount + 1))

structure NtfsNode where
  flags : UInt32
  mftRecordNumber : UInt64
  fileSize : UInt64

structure NtfsChild where
  name : List UInt8
  length : UInt64
  node : NtfsNode

def copyName (dest : ℕ → Place) (name : List UInt8) : RecordTask Unit :=
  Task.stores ((name ++ [0]).zipIdx.map (fun (x : UInt8 × ℕ) => (dest x.2, x.1)))

def finddirVisit (name : List UInt8) (fn : ℕ) (recNum : UInt64) (_ : Unit) :
    RecordTask (NtfsChild ⊕ Unit) := do
  let nameLength ← load8 (fn + 64)
  let ascii ← utf16ToAscii .asciiName (fn + 66) nameLength.toNat 0
  if cString ascii = name then do
    copyName .childName (cString ascii)
    let flags ← load32 (fn + 56)
    let realSize ← load64 (fn + 48)
    pure (.inl
      { name := cString ascii
        length := realSize
        node := { flags := typeOf flags, mftRecordNumber := recNum, fileSize := realSize } })
  else pure (.inr ())

def readdirTask (recordSize index : UInt32) (fuel : ℕ) : RecordTask (Option (Option Dirent)) :=
  onAttr recordSize attrIndexRoot fuel (fun attr => do
    let entry ← firstEntry attr
    walkEntries (readdirVisit index) fuel entry 0)

def finddirTask (recordSize : UInt32) (name : List UInt8) (fuel : ℕ) :
    RecordTask (Option (Option NtfsChild)) :=
  onAttr recordSize attrIndexRoot fuel (fun attr => do
    let entry ← firstEntry attr
    walkEntries (finddirVisit name) fuel entry ())

def dataOf (attr : ℕ) (offset size : UInt64) : RecordTask (List UInt8 ⊕ ℕ) := do
  let nonResident ← load8 (attr + 8)
  if nonResident = 0 then do
    let valueOffset ← load16 (attr + 20)
    let dataLen ← load32 (attr + 16)
    if offset ≥ dataLen.toUInt64 then pure (.inl [])
    else do
      let rest := dataLen.toUInt64 - offset
      let toCopy := if rest > size then size else rest
      let bytes ← Task.loads ((List.range toCopy.toNat).map
        (fun i => Place.record (attr + valueOffset.toNat + offset.toNat + i)))
      pure (.inl bytes)
  else do
    let dataRunsOffset ← load16 (attr + 32)
    pure (.inr (attr + dataRunsOffset.toNat))

def readTask (recordSize : UInt32) (offset size : UInt64) (fuel : ℕ) :
    RecordTask (Option (Option (List UInt8 ⊕ ℕ))) :=
  onAttr recordSize attrData fuel (fun attr => do
    let data ← dataOf attr offset size
    pure (some (some data)))

structure NtfsFs where
  lbaStart : UInt64
  mftLba : UInt64
  mftRecordSize : UInt32
  clusterSize : UInt32
  bytesPerSector : UInt32

section

variable (fs : NtfsFs)

def sectorsOf (bytes : UInt32) : UInt8 :=
  let count := (bytes / fs.bytesPerSector).toUInt8
  if count = 0 then 1 else count

def readRecord (recNum : UInt64) (buf : Block) : Call (Option (Option Block)) :=
  -- The division by zero faults.
  if fs.bytesPerSector = 0 then .stuck
  else
    let byteOffset := recNum * fs.mftRecordSize.toUInt64
    let lba := fs.mftLba + byteOffset / fs.bytesPerSector.toUInt64
    diskReadInto lba (sectorsOf fs fs.mftRecordSize) (some buf)

def memory (record : Buffer) : Place → UInt8
  | .record k => record k
  | _ => 0

def withRecord (recNum : UInt64) (task : RecordTask (Option (Option α))) :
    Call (Option (α × Buffer)) := do
  match ← kmalloc .record fs.mftRecordSize.toUInt64 with
  | none => pure none
  | some recBuf => do
      match ← readRecord fs recNum recBuf with
      | some (some recBuf) =>
          let out := task.run (memory recBuf.bytes)
          match out.1 with
          | none => .stuck
          | some found => pure (found.map (fun a => (a, fun k => out.2 (.record k))))
      | _ => pure none

def ntfsReaddir (node : NtfsNode) (index : UInt32) (fuel : ℕ) : Call (Option Dirent) := do
  let found ← withRecord fs node.mftRecordNumber (readdirTask fs.mftRecordSize index fuel)
  pure (found.map Prod.fst)

def sizeofNode : UInt64 := 24
def sizeofFs : UInt64 := 32

def ntfsFinddir (node : NtfsNode) (name : List UInt8) (fuel : ℕ) : Call (Option NtfsChild) := do
  match ← withRecord fs node.mftRecordNumber (finddirTask fs.mftRecordSize name fuel) with
  | none => pure none
  | some (child, _) => do
      let _ ← kmallocUnchecked sizeofVfsNode
      let _ ← kmallocUnchecked sizeofNode
      pure (some child)

def field (record : Buffer) (pos n : ℕ) : UInt64 :=
  (List.range n).foldl
    (fun acc i => acc ||| ((record (pos + i)).toUInt64 <<< UInt64.ofNat (8 * i))) 0

/-- The signed field: the bytes from `n` on are filled up if the highest bit of the last byte is
set. -/
def lcnDelta (record : Buffer) (pos n : ℕ) : UInt64 :=
  let delta := field record pos n
  if n > 0 ∧ (delta >>> UInt64.ofNat ((n - 1) * 8)).toUInt8 &&& 0x80 ≠ 0 then
    (List.range' n (8 - n)).foldl (fun acc i => acc ||| (0xFF <<< UInt64.ofNat (8 * i))) delta
  else delta

def copyRun (sparse : Bool) (currentLcn runClusters runReadEnd size : UInt64) :
    ℕ → Block → UInt64 → UInt64 → UInt64 → List UInt8 → Call (Bool × Block × UInt64 × List UInt8)
  | 0, _, _, _, _, _ => .stuck
  | fuel + 1, clusterBuf, clusterIdx, intraOff, bytesRead, buffer =>
      if clusterIdx < runClusters ∧ clusterIdx * fs.clusterSize.toUInt64 < runReadEnd ∧
        bytesRead < size then
        let rest := fs.clusterSize.toUInt64 - intraOff
        let toCopy := if rest > size - bytesRead then size - bytesRead else rest
        if sparse then
          copyRun sparse currentLcn runClusters runReadEnd size fuel clusterBuf (clusterIdx + 1) 0
            (bytesRead + toCopy) (buffer ++ List.replicate toCopy.toNat 0)
        else do
          let lcnAbs := currentLcn + clusterIdx
          let sectorLba := fs.lbaStart + lcnAbs * (fs.clusterSize / fs.bytesPerSector).toUInt64
          match ← diskReadInto sectorLba (sectorsOf fs fs.clusterSize) (some clusterBuf) with
          | some (some clusterBuf) =>
              copyRun sparse currentLcn runClusters runReadEnd size fuel clusterBuf
                (clusterIdx + 1) 0
                (bytesRead + toCopy) (buffer ++ slice clusterBuf.bytes intraOff.toNat toCopy.toNat)
          | _ => pure (false, clusterBuf, bytesRead, buffer)
      else pure (true, clusterBuf, bytesRead, buffer)

/-- The loop over the data runs from `run` on. Every cluster copied gives a byte, so `size` rounds
are enough for a run. -/
def walkRuns (record : Buffer) (offset size : UInt64) :
    ℕ → Block → ℕ → UInt64 → UInt64 → UInt64 → List UInt8 → Call (UInt64 × List UInt8)
  | 0, _, _, _, _, _, _ => .stuck
  | fuel + 1, clusterBuf, run, currentLcn, currentVcn, bytesRead, buffer =>
      if record run ≠ 0 ∧ bytesRead < size then
        let lenBytes := (record run &&& 0x0F).toNat
        let offBytes := ((record run >>> 4) &&& 0x0F).toNat
        if lenBytes = 0 then pure (bytesRead, buffer)
        else
          let runClusters := field record (run + 1) lenBytes
          let currentLcn := currentLcn + lcnDelta record (run + 1 + lenBytes) offBytes
          let next := run + 1 + lenBytes + offBytes
          let runStartByte := currentVcn * fs.clusterSize.toUInt64
          let runEndByte := runStartByte + runClusters * fs.clusterSize.toUInt64
          if runEndByte > offset ∧ runStartByte < offset + size then do
            let runReadStart := if offset > runStartByte then offset - runStartByte else 0
            let runReadEnd :=
              if offset + size < runEndByte then offset + size - runStartByte
              else runClusters * fs.clusterSize.toUInt64
            let (going, clusterBuf, bytesRead, buffer) ←
              copyRun fs (offBytes = 0) currentLcn runClusters runReadEnd size
                (size.toNat + 1) clusterBuf
                (runReadStart / fs.clusterSize.toUInt64) (runReadStart % fs.clusterSize.toUInt64)
                bytesRead buffer
            if going then
              walkRuns record offset size fuel clusterBuf next currentLcn (currentVcn + runClusters)
                bytesRead buffer
            else pure (bytesRead, buffer)
          else
            walkRuns record offset size fuel clusterBuf next currentLcn (currentVcn + runClusters)
              bytesRead buffer
      else pure (bytesRead, buffer)

def ntfsRead (node : NtfsNode) (offset size : UInt64) (fuel : ℕ) : Call (UInt64 × List UInt8) :=
  if node.flags &&& Vfs.fsFile ≠ Vfs.fsFile then pure (0, [])
  else if offset ≥ node.fileSize then pure (0, [])
  else
    let size := if offset + size > node.fileSize then node.fileSize - offset else size
    if size = 0 then pure (0, [])
    else do
      match ← withRecord fs node.mftRecordNumber (readTask fs.mftRecordSize offset size fuel) with
      | none => pure (0, [])
      | some (.inl bytes, _) => pure (UInt64.ofNat bytes.length, bytes)
      | some (.inr runs, record) => do
          match ← kmalloc .buffer fs.clusterSize.toUInt64 with
          | none => pure (0, [])
          | some clusterBuf => walkRuns fs record offset size fuel clusterBuf runs 0 0 0 []

end

structure NtfsBpb where
  oemId : UInt64
  bytesPerSector : UInt16
  sectorsPerCluster : UInt8
  mftCluster : UInt64
  clustersPerMftRecord : UInt8

def NtfsBpb.parse (b : Buffer) : NtfsBpb where
  oemId := b.u64 3
  bytesPerSector := b.u16 11
  sectorsPerCluster := b 13
  mftCluster := b.u64 43
  clustersPerMftRecord := b 59

def ntfsOemId : UInt64 := 0x202020205346544E

namespace NtfsBpb

variable (bpb : NtfsBpb)

def Accepted : Prop :=
  bpb.oemId = ntfsOemId ∧ ¬ (bpb.bytesPerSector.toUInt32 < 512 ∨
    bpb.bytesPerSector.toUInt32 > 4096 ∨
    bpb.bytesPerSector.toUInt32 &&& (bpb.bytesPerSector.toUInt32 - 1) ≠ 0)

instance : Decidable bpb.Accepted := inferInstanceAs (Decidable (_ ∧ _))

def clusterSize : UInt32 := bpb.bytesPerSector.toUInt32 * bpb.sectorsPerCluster.toUInt32

/-- A negative count is the exponent of a power of two; the shift counts modulo 32, as the
instruction does. -/
def mftRecordSize : UInt32 :=
  if bpb.clustersPerMftRecord &&& 0x80 ≠ 0 then 1 <<< (0 - bpb.clustersPerMftRecord).toUInt32
  else bpb.clustersPerMftRecord.toUInt32 * bpb.clusterSize

def fs (lbaStart : UInt64) : NtfsFs where
  lbaStart
  mftLba := lbaStart + bpb.mftCluster * bpb.sectorsPerCluster.toUInt64
  mftRecordSize := bpb.mftRecordSize
  clusterSize := bpb.clusterSize
  bytesPerSector := bpb.bytesPerSector.toUInt32

end NtfsBpb

def rootName : List UInt8 := [0x4E, 0x54, 0x46, 0x53]

def ntfsMount (lbaStart : UInt64) : Call (Option (NtfsFs × NtfsChild)) := do
  match ← kmalloc .buffer 512 with
  | none => pure none
  | some sector => do
      match ← diskReadInto lbaStart 1 (some sector) with
      | some (some sector) =>
          let bpb := NtfsBpb.parse sector.bytes
          if bpb.Accepted then do
            match ← kmalloc .object sizeofFs with
            | none => pure none
            | some _ => do
                match ← kmalloc .object sizeofVfsNode with
                | none => pure none
                | some _ => do
                    match ← kmalloc .object sizeofNode with
                    | none => pure none
                    | some _ =>
                        pure (some (bpb.fs lbaStart,
                          { name := rootName
                            length := 0
                            node :=
                              { flags := Vfs.fsDirectory, mftRecordNumber := 5, fileSize := 0 } }))
          else pure none
      | _ => pure none

end NexusKernel.Ntfs
