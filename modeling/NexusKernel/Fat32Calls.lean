import NexusKernel.DiskPrograms

/-!
The driver of fs/fat32.c as programs, with the requests they make to the heap and to the disk.
Loops over a chain have a number of rounds as fuel, since nothing bounds them.
-/

namespace NexusKernel.Fat32Calls

open Lib.CStrings Lib.Programs ElfLoader DiskPrograms Program
open Fat32 (Fat32Fs Fat32Node endMark diskReadSectors)

structure Fat32Pbr where
  jmp : UInt8
  bytesPerSector : UInt16
  sectorsPerCluster : UInt8
  reservedSectors : UInt16
  fatCount : UInt8
  sectorsPerFat32 : UInt32
  rootCluster : UInt32
  volumeLabel : List UInt8

def Fat32Pbr.parse (b : Buffer) : Fat32Pbr where
  jmp := b 0
  bytesPerSector := b.u16 11
  sectorsPerCluster := b 13
  reservedSectors := b.u16 14
  fatCount := b 16
  sectorsPerFat32 := b.u32 36
  rootCluster := b.u32 44
  volumeLabel := (List.range 11).map (fun i => b (71 + i))

def Fat32Pbr.fs (pbr : Fat32Pbr) (lbaStart : UInt64) : Fat32Fs :=
  let fatLba := (lbaStart + pbr.reservedSectors.toUInt64).toUInt32
  { fatLba
    dataLba := fatLba + pbr.fatCount.toUInt32 * pbr.sectorsPerFat32
    sectorsPerCluster := pbr.sectorsPerCluster.toUInt32
    bytesPerCluster := pbr.sectorsPerCluster.toUInt32 * pbr.bytesPerSector.toUInt32 }

/-- `trim_spaces`: trailing spaces become zeros. -/
def trimSpaces (str : List UInt8) : List UInt8 :=
  let kept := (str.reverse.dropWhile (· = 0x20)).reverse
  kept ++ List.replicate (str.length - kept.length) 0

def Fat32Pbr.rootName (pbr : Fat32Pbr) : List UInt8 :=
  let label := cString pbr.volumeLabel
  cString (trimSpaces (label ++ List.replicate (11 - label.length) 0))

structure Fat32Child where
  name : List UInt8
  length : UInt64
  node : Fat32Node

def sizeofFs : UInt64 := 32
def sizeofNodeData : UInt64 := 16

def Accepted (pbr : Fat32Pbr) : Prop := pbr.jmp = 0xEB ∨ pbr.jmp = 0xE9

instance (pbr : Fat32Pbr) : Decidable (Accepted pbr) := inferInstanceAs (Decidable (_ ∨ _))

def fat32Mount (lbaStart : UInt64) : Call (Option (Fat32Fs × Fat32Child)) := do
  let sector ← kmalloc .buffer 512
  match ← diskReadInto lbaStart 1 sector with
  | some (some sector) =>
      let pbr := Fat32Pbr.parse sector.bytes
      if Accepted pbr then do
        let _ ← kmallocUnchecked sizeofFs
        let _ ← kmallocUnchecked sizeofVfsNode
        let _ ← kmallocUnchecked sizeofNodeData
        pure (some (pbr.fs lbaStart,
          { name := pbr.rootName
            length := 0
            node := { flags := Vfs.fsDirectory, firstCluster := pbr.rootCluster, fileSize := 0 } }))
      else pure none
  | _ => pure none

section

variable (fs : Fat32Fs)

def fat32GetNextCluster (cluster : UInt32) : Call UInt32 := do
  let fatOffset := cluster * 4
  let fatSector := fs.fatLba + fatOffset / 512
  let entOffset := fatOffset % 512
  match ← diskReadInto fatSector.toUInt64 1 (some ⟨512, fun _ => 0⟩) with
  | some (some sector) => pure (sector.bytes.u32 entOffset.toNat &&& 0x0FFFFFFF)
  | _ => pure 0x0FFFFFFF

def readCluster (cluster : UInt32) (clusterBuf : Option Block) : Call (Option (Option Block)) :=
  diskReadInto (fs.dataLba + (cluster - 2) * fs.sectorsPerCluster).toUInt64
    fs.sectorsPerCluster.toUInt8 clusterBuf

structure Fat32Dirent where
  name : List UInt8
  attr : UInt8
  clusterHigh : UInt16
  clusterLow : UInt16
  fileSize : UInt32
  deriving DecidableEq

def Fat32Dirent.parse (b : Buffer) (k : ℕ) : Fat32Dirent where
  name := (List.range 11).map (fun i => b (k + i))
  attr := b (k + 11)
  clusterHigh := b.u16 (k + 20)
  clusterLow := b.u16 (k + 26)
  fileSize := b.u32 (k + 28)

namespace Fat32Dirent

variable (e : Fat32Dirent)

def Skipped : Prop := e.name.getD 0 0 = 0xE5 ∨ e.attr = 0x0F ∨ e.attr &&& 0x08 ≠ 0

instance : Decidable e.Skipped := inferInstanceAs (Decidable (_ ∨ _ ∨ _))

def firstCluster : UInt32 := e.clusterLow.toUInt32 ||| (e.clusterHigh.toUInt32 <<< 16)

def type : UInt32 := if e.attr &&& 0x10 ≠ 0 then Vfs.fsDirectory else Vfs.fsFile

end Fat32Dirent

/-- The bytes that `parse_fat32_name` stores before the final zero. -/
def parseFat32Name (src : List UInt8) : List UInt8 :=
  let base := (src.take 8).takeWhile (· ≠ 0x20)
  if src.getD 8 0 ≠ 0x20 then base ++ 0x2E :: (src.drop 8).takeWhile (· ≠ 0x20) else base

def entriesOf : Option Block → Option (List Fat32Dirent)
  | some block =>
      some ((List.range (fs.bytesPerCluster / 32).toNat).map
        (fun i => Fat32Dirent.parse block.bytes (32 * i)))
  | none => if fs.bytesPerCluster / 32 = 0 then some [] else none

variable {α σ : Type}

/-- The loop over the entries of a cluster. A visit of a valid entry finds what is looked for or
goes on; a name that starts with zero ends the directory (`none`). -/
def scanEntries (visit : Fat32Dirent → σ → α ⊕ σ) : List Fat32Dirent → σ → Option (α ⊕ σ)
  | [], s => some (.inr s)
  | e :: rest, s =>
      if e.name.getD 0 0 = 0 then none
      else if e.Skipped then scanEntries visit rest s
      else
        match visit e s with
        | .inl a => some (.inl a)
        | .inr s => scanEntries visit rest s

def walkDirectory (visit : Fat32Dirent → σ → α ⊕ σ) :
    ℕ → Option Block → UInt32 → σ → Call (Option α)
  | 0, _, _, _ => .stuck
  | fuel + 1, clusterBuf, currentCluster, s =>
      if currentCluster < endMark then do
        match ← readCluster fs currentCluster clusterBuf with
        | none => pure none
        | some clusterBuf =>
            match entriesOf fs clusterBuf with
            | none => .stuck
            | some entries =>
                match scanEntries visit entries s with
                | none => pure none
                | some (.inl a) => pure (some a)
                | some (.inr s) => do
                    let next ← fat32GetNextCluster fs currentCluster
                    walkDirectory visit fuel clusterBuf next s
      else pure none

structure Dirent where
  name : List UInt8
  ino : UInt32
  type : UInt32

def readdirVisit (index : UInt32) (e : Fat32Dirent) (validCount : UInt32) : Fat32Dirent ⊕ UInt32 :=
  if validCount = index then .inl e else .inr (validCount + 1)

def finddirVisit (name : List UInt8) (e : Fat32Dirent) (_ : Unit) : Fat32Dirent ⊕ Unit :=
  if cString (parseFat32Name e.name) = name then .inl e else .inr ()

def fat32Readdir (node : Fat32Node) (index : UInt32) (fuel : ℕ) : Call (Option Dirent) := do
  let clusterBuf ← kmalloc .buffer fs.bytesPerCluster.toUInt64
  let found ← walkDirectory fs (readdirVisit index) fuel clusterBuf node.firstCluster 0
  pure (found.map
    (fun e => { name := cString (parseFat32Name e.name), ino := e.firstCluster, type := e.type }))

def fat32Finddir (node : Fat32Node) (name : List UInt8) (fuel : ℕ) : Call (Option Fat32Child) := do
  let clusterBuf ← kmalloc .buffer fs.bytesPerCluster.toUInt64
  match ← walkDirectory fs (finddirVisit name) fuel clusterBuf node.firstCluster () with
  | none => pure none
  | some e => do
      let _ ← kmallocUnchecked sizeofVfsNode
      let _ ← kmallocUnchecked sizeofNodeData
      pure (some
        { name := cString (parseFat32Name e.name)
          length := e.fileSize.toUInt64
          node := { flags := e.type, firstCluster := e.firstCluster, fileSize := e.fileSize } })

def skipClusters : ℕ → UInt32 → Call (Option UInt32)
  | 0, currentCluster => pure (some currentCluster)
  | n + 1, currentCluster => do
      let next ← fat32GetNextCluster fs currentCluster
      if next ≥ endMark then pure none else skipClusters n next

def copyClusters (size : UInt64) :
    ℕ → Option Block → UInt32 → UInt32 → UInt64 → List UInt8 → Call (UInt64 × List UInt8)
  | 0, _, _, _, _, _ => .stuck
  | fuel + 1, clusterBuf, currentCluster, clusterOffset, bytesRead, buffer =>
      if bytesRead < size then do
        match ← readCluster fs currentCluster clusterBuf with
        | none => pure (bytesRead, buffer)
        | some none => .stuck
        | some (some block) =>
            let rest := fs.bytesPerCluster - clusterOffset
            let toCopy :=
              if rest.toUInt64 > size - bytesRead then (size - bytesRead).toUInt32 else rest
            let buffer := buffer ++ slice block.bytes clusterOffset.toNat toCopy.toNat
            let bytesRead := bytesRead + toCopy.toUInt64
            if bytesRead < size then do
              let next ← fat32GetNextCluster fs currentCluster
              if next ≥ endMark then pure (bytesRead, buffer)
              else copyClusters size fuel (some block) next 0 bytesRead buffer
            else copyClusters size fuel (some block) currentCluster 0 bytesRead buffer
      else pure (bytesRead, buffer)

def fat32Read (node : Fat32Node) (offset size : UInt64) : Call (UInt64 × List UInt8) :=
  if node.flags &&& Vfs.fsFile ≠ Vfs.fsFile then pure (0, [])
  else if offset ≥ node.fileSize.toUInt64 then pure (0, [])
  else
    let size :=
      if offset + size > node.fileSize.toUInt64 then node.fileSize.toUInt64 - offset else size
    -- The division faults for a cluster of no bytes.
    if fs.bytesPerCluster = 0 then .stuck
    else do
      let clusterToSkip := (offset / fs.bytesPerCluster.toUInt64).toUInt32
      match ← skipClusters fs clusterToSkip.toNat node.firstCluster with
      | none => pure (0, [])
      | some currentCluster => do
          let clusterOffset := (offset % fs.bytesPerCluster.toUInt64).toUInt32
          let clusterBuf ← kmalloc .buffer fs.bytesPerCluster.toUInt64
          copyClusters fs size (size.toNat + 1) clusterBuf currentCluster clusterOffset 0 []

/-- What a program reads in the table is what the table has. -/
theorem run_fat32GetNextCluster (host : Host) (c : UInt32) :
    (fat32GetNextCluster fs c).run host.answer =
      some (Fat32.fat32GetNextCluster host.drive fs c) := by
  have hoff : (c * 4 % 512).toNat + 4 ≤ transfer 1 := by
    simp only [UInt32.toNat_mod, UInt32.toNat_mul, UInt32.reduceToNat, transfer, UInt8.reduceToNat]
    omega
  have hentry : ∀ data, (Block.store ⟨512, fun _ => 0⟩ 1 data).bytes.u32 (c * 4 % 512).toNat =
      data.u32 (c * 4 % 512).toNat := by
    intro data
    exact u32_agree (fun i hi => store_inside 1 _ data hi) hoff
  simp only [fat32GetNextCluster, Fat32.fat32GetNextCluster, run_bind, run_diskReadInto,
    Option.bind_some, Host.sectors]
  cases hread : diskReadSectors host.drive (fs.fatLba + c * 4 / 512).toUInt64 1 with
  | none => rfl
  | some bytes => simp only [Option.map_some, run_pure, hentry]

end

end NexusKernel.Fat32Calls
