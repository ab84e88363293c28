import NexusKernel.DiskPrograms

/-!
The driver of fs/ext4.c as programs. The memory of a node of the extent tree or of an inode goes
on behind its end, since the driver does not check how many entries a node may have. The descent
has fuel, for nothing bounds it.
-/

namespace NexusKernel.Ext4

open ElfLoader DiskPrograms

structure Ext4Info where
  lbaStart : UInt64
  blockSize : UInt32
  inodesPerGroup : UInt32
  inodeSize : UInt16
  revLevel : UInt32
  featureIncompat : UInt32

variable (fs : Ext4Info)

def ext4ReadBlock (blockNum : UInt64) (buffer : Option Block) : Call (Option (Option Block)) :=
  let lba := fs.lbaStart + blockNum * (fs.blockSize / 512).toUInt64
  let sectorCount := fs.blockSize / 512
  diskReadInto lba sectorCount.toUInt8 buffer

/-- The fields of `ext4_inode_t` that are read; `block` goes on behind its 60 bytes. -/
structure Ext4Inode where
  mode : UInt16
  sizeLo : UInt32
  flags : UInt32
  block : Buffer

def Ext4Inode.parse (b : Buffer) : Ext4Inode where
  mode := b.u16 0
  sizeLo := b.u32 4
  flags := b.u32 32
  block := fun k => b (40 + k)

def sizeofInode : ℕ := 116

def descSize : UInt32 := if fs.revLevel > 0 ∧ fs.featureIncompat &&& 0x80 ≠ 0 then 64 else 32

/-- `ext4_read_inode` to memory that holds `old`: nothing when it returns 0, else what the memory
holds then. -/
def ext4ReadInode (inodeNum : UInt32) (old : Buffer) : Call (Option Buffer) :=
  if inodeNum = 0 then pure none
  -- The divisions by zero fault.
  else if fs.inodesPerGroup = 0 ∨ fs.blockSize / descSize fs = 0 then .stuck
  else do
    let group := (inodeNum - 1) / fs.inodesPerGroup
    let index := (inodeNum - 1) % fs.inodesPerGroup
    let descriptorsPerBlock := fs.blockSize / descSize fs
    let bgdBlockOffset := group / descriptorsPerBlock
    let bgdIndexInBlock := group % descriptorsPerBlock
    match ← kmalloc .inode fs.blockSize.toUInt64 with
    | none => pure none
    | some block => do
        let bgdStartBlock : UInt64 := if fs.blockSize = 1024 then 2 else 1
        match ← ext4ReadBlock fs (bgdStartBlock + bgdBlockOffset.toUInt64) (some block) with
        | some (some block) => do
            let inodeTableBlock := block.bytes.u32 ((bgdIndexInBlock * descSize fs).toNat + 8)
            let blockIndex := (index * fs.inodeSize.toUInt32) / fs.blockSize
            let offsetInBlock := (index * fs.inodeSize.toUInt32) % fs.blockSize
            match ← ext4ReadBlock fs (inodeTableBlock + blockIndex).toUInt64 (some block) with
            | some (some block) =>
                pure (some
                  (overlay sizeofInode (fun k => block.bytes (offsetInBlock.toNat + k)) old))
            | _ => pure none
        | _ => pure none

def extMagic : UInt16 := 0xF30A

structure ExtentHeader where
  magic : UInt16
  entries : UInt16
  depth : UInt16

def header (node : Buffer) : ExtentHeader where
  magic := node.u16 0
  entries := node.u16 2
  depth := node.u16 6

structure ExtentIdx where
  block : UInt32
  leaf : UInt64

structure Extent where
  block : UInt32
  len : UInt16
  start : UInt64

def blockNumber (hi : UInt16) (lo : UInt32) : UInt64 := (hi.toUInt64 <<< 32) ||| lo.toUInt64

def ExtentIdx.parse (node : Buffer) (i : ℕ) : ExtentIdx where
  block := node.u32 (12 + 12 * i)
  leaf := blockNumber (node.u16 (12 + 12 * i + 8)) (node.u32 (12 + 12 * i + 4))

def Extent.parse (node : Buffer) (i : ℕ) : Extent where
  block := node.u32 (12 + 12 * i)
  len := node.u16 (12 + 12 * i + 4)
  start := blockNumber (node.u16 (12 + 12 * i + 6)) (node.u32 (12 + 12 * i + 8))

def indexes (node : Buffer) : List ExtentIdx :=
  (List.range (header node).entries.toNat).map (ExtentIdx.parse node)

def extents (node : Buffer) : List Extent :=
  (List.range (header node).entries.toNat).map (Extent.parse node)

def targetPhy (entries : List ExtentIdx) (lBlock : UInt32) : UInt64 :=
  entries.foldl (fun target ix => if lBlock ≥ ix.block then ix.leaf else target) 0

def Extent.Covers (ex : Extent) (lBlock : UInt32) : Prop :=
  lBlock ≥ ex.block ∧ lBlock < ex.block + ex.len.toUInt32

instance (ex : Extent) (lBlock : UInt32) : Decidable (ex.Covers lBlock) :=
  inferInstanceAs (Decidable (_ ∧ _))

def leafPhy (entries : List Extent) (lBlock : UInt32) : UInt64 :=
  match entries.find? (fun ex => ex.Covers lBlock) with
  | some ex => ex.start + (lBlock - ex.block).toUInt64
  | none => 0

def descend (lBlock : UInt32) : ℕ → Buffer → Option Block → Call UInt64
  | 0, _, _ => .stuck
  | fuel + 1, node, extentBuffer =>
      if (header node).depth > 0 then
        let target := targetPhy (indexes node) lBlock
        if target = 0 then pure 0
        else do
          match ← ext4ReadBlock fs target extentBuffer with
          | none => pure 0
          | some none => .stuck
          | some (some block) =>
              if (header block.bytes).magic ≠ extMagic then pure 0
              else descend lBlock fuel block.bytes (some block)
      else pure (leafPhy (extents node) lBlock)

def usesExtents (inode : Ext4Inode) : Prop := inode.flags &&& 0x80000 ≠ 0

instance (inode : Ext4Inode) : Decidable (usesExtents inode) := inferInstanceAs (Decidable (_ ≠ _))

def ext4GetPhysicalBlock (inode : Ext4Inode) (lBlock : UInt32) (fuel : ℕ) : Call UInt64 :=
  if usesExtents inode then
    if (header inode.block).magic ≠ extMagic then pure 0
    else do
      let extentBuffer ← kmalloc (.extents lBlock) fs.blockSize.toUInt64
      descend fs lBlock fuel inode.block extentBuffer
  else if lBlock < 12 then pure (inode.block.u32 (4 * lBlock.toNat)).toUInt64
  else pure 0

def copyBlocks (inode : Ext4Inode) (offset size : UInt64) (depth : ℕ) :
    ℕ → Block → UInt64 → List UInt8 → Call (UInt64 × List UInt8)
  | 0, _, _, _ => .stuck
  | fuel + 1, blockBuf, bytesRead, buffer =>
      if bytesRead < size then do
        let lBlock := ((offset + bytesRead) / fs.blockSize.toUInt64).toUInt32
        let blockOffset := ((offset + bytesRead) % fs.blockSize.toUInt64).toUInt32
        let pBlock ← ext4GetPhysicalBlock fs inode lBlock depth
        let filled ←
          if pBlock = 0 then
            pure (some (some { blockBuf with
              bytes := overlay fs.blockSize.toNat (fun _ => 0) blockBuf.bytes }))
          else ext4ReadBlock fs pBlock (some blockBuf)
        match filled with
        | some (some blockBuf) =>
            let rest := fs.blockSize - blockOffset
            let toCopy :=
              if rest.toUInt64 > size - bytesRead then (size - bytesRead).toUInt32 else rest
            copyBlocks inode offset size depth fuel blockBuf (bytesRead + toCopy.toUInt64)
              (buffer ++ slice blockBuf.bytes blockOffset.toNat toCopy.toNat)
        | _ => pure (bytesRead, buffer)
      else pure (bytesRead, buffer)

/-- Every iteration copies a byte, so `size` of them are enough; `depth` is the fuel of each
descent. -/
def ext4Read (inode : Ext4Inode) (offset size : UInt64) (depth : ℕ) : Call (UInt64 × List UInt8) :=
  if offset ≥ inode.sizeLo.toUInt64 then pure (0, [])
  else do
    let size :=
      if offset + size > inode.sizeLo.toUInt64 then inode.sizeLo.toUInt64 - offset else size
    match ← kmalloc .buffer fs.blockSize.toUInt64 with
    | none => pure (0, [])
    | some blockBuf => copyBlocks fs inode offset size depth (size.toNat + 1) blockBuf 0 []

structure DirEntry where
  inode : UInt32
  recLen : UInt16
  nameLen : UInt8
  name : Buffer

def DirEntry.parse (b : Buffer) (k : ℕ) : DirEntry where
  inode := b.u32 k
  recLen := b.u16 (k + 4)
  nameLen := b (k + 6)
  name := fun i => b (k + 8 + i)

def strncmpEq (s₁ s₂ : ℕ → UInt8) : ℕ → ℕ → Bool
  | 0, _ => true
  | n + 1, i => s₁ i = s₂ i ∧ (s₁ i = 0 ∨ strncmpEq s₁ s₂ n (i + 1))

def DirEntry.matches (e : DirEntry) (name : List UInt8) : Bool :=
  name.length = e.nameLen.toNat ∧ strncmpEq e.name (fun i => name.getD i 0) e.nameLen.toNat 0

/-- The loop over the records of a block. Every record advances, so as many rounds as bytes are
enough. -/
def scanBlock (dirBuf : Buffer) (name : List UInt8) : ℕ → UInt32 → Option DirEntry
  | 0, _ => none
  | fuel + 1, offset =>
      if offset < fs.blockSize then
        let entry := DirEntry.parse dirBuf offset.toNat
        if entry.inode = 0 ∨ entry.recLen = 0 then none
        else if entry.matches name then some entry
        else scanBlock dirBuf name fuel (offset + entry.recLen.toUInt32)
      else none

def scanBlocks (inode : Ext4Inode) (name : List UInt8) (depth : ℕ) :
    ℕ → UInt32 → Block → Call (Option DirEntry)
  | 0, _, _ => pure none
  | n + 1, i, dirBuf => do
      let pBlock ← ext4GetPhysicalBlock fs inode i depth
      if pBlock = 0 then pure none
      else
        match ← ext4ReadBlock fs pBlock (some dirBuf) with
        | some (some dirBuf) =>
            match scanBlock fs dirBuf.bytes name fs.blockSize.toNat 0 with
            | some entry => pure (some entry)
            | none => scanBlocks inode name depth n (i + 1) dirBuf
        | _ => pure none

structure Ext4Child where
  name : List UInt8
  flags : UInt32
  length : UInt64
  inodeNum : UInt32
  inode : Ext4Inode

def sizeofNodeInfo : UInt64 := 128
def sizeofOps : UInt64 := 64
def sizeofInfo : UInt64 := 1056

def Ext4Inode.IsDir (inode : Ext4Inode) : Prop := inode.mode &&& 0xF000 = 0x4000

instance (inode : Ext4Inode) : Decidable inode.IsDir := inferInstanceAs (Decidable (_ = _))

/-- The node for an entry. The result of `ext4_read_inode` is ignored. -/
def makeChild (entry : DirEntry) (name : List UInt8) : Call Ext4Child := do
  let _ ← kmallocUnchecked sizeofVfsNode
  let cinfo ← kmallocUnchecked sizeofNodeInfo
  let stale : Buffer := fun k => cinfo.bytes (12 + k)
  let memory := (← ext4ReadInode fs entry.inode stale).getD stale
  let _ ← kmallocUnchecked sizeofOps
  let inode := Ext4Inode.parse memory
  pure
    { name := name.take 127
      flags := if inode.IsDir then Vfs.fsDirectory else Vfs.fsFile
      length := inode.sizeLo.toUInt64
      inodeNum := entry.inode
      inode }

def dirBlocks (inode : Ext4Inode) : UInt32 :=
  let blocks := inode.sizeLo / fs.blockSize
  if blocks = 0 ∧ inode.sizeLo > 0 then 1 else blocks

def ext4Finddir (inode : Ext4Inode) (name : List UInt8) (depth : ℕ) : Call (Option Ext4Child) :=
  if ¬ inode.IsDir then pure none
  else do
    match ← kmalloc .buffer fs.blockSize.toUInt64 with
    | none => pure none
    | some dirBuf => do
        match ← scanBlocks fs inode name depth (dirBlocks fs inode).toNat 0 dirBuf with
        | none => pure none
        | some entry => do
            let child ← makeChild fs entry name
            pure (some child)

structure Ext4Superblock where
  logBlockSize : UInt32
  inodesPerGroup : UInt32
  magic : UInt16
  revLevel : UInt32
  inodeSize : UInt16
  featureIncompat : UInt32

def Ext4Superblock.parse (b : Buffer) : Ext4Superblock where
  logBlockSize := b.u32 24
  inodesPerGroup := b.u32 40
  magic := b.u16 56
  revLevel := b.u32 76
  inodeSize := b.u16 88
  featureIncompat := b.u32 96

def ext4Magic : UInt16 := 0xEF53

def Ext4Superblock.info (sb : Ext4Superblock) (lbaStart : UInt64) : Ext4Info where
  lbaStart
  blockSize := 1024 <<< sb.logBlockSize
  inodesPerGroup := sb.inodesPerGroup
  inodeSize := if sb.revLevel = 0 then 128 else sb.inodeSize
  revLevel := sb.revLevel
  featureIncompat := sb.featureIncompat

def rootName : List UInt8 := [0x65, 0x78, 0x74, 0x34, 0x5F, 0x72, 0x6F, 0x6F, 0x74]

def ext4Mount (lbaStart : UInt64) (stale : Buffer) : Call (Option (Ext4Info × Ext4Child)) := do
  match ← diskReadInto (lbaStart + 2) 2 (some ⟨2048, stale⟩) with
  | some (some buffer) =>
      let sb := Ext4Superblock.parse buffer.bytes
      if sb.magic ≠ ext4Magic then pure none
      else do
        match ← kmalloc .object sizeofInfo with
        | none => pure none
        | some _ => do
            let fs := sb.info lbaStart
            let _ ← kmallocUnchecked sizeofVfsNode
            let _ ← kmallocUnchecked sizeofOps
            let ninfo ← kmallocUnchecked sizeofNodeInfo
            match ← ext4ReadInode fs 2 (fun k => ninfo.bytes (12 + k)) with
            | none => pure none
            | some memory =>
                let inode := Ext4Inode.parse memory
                pure (some (fs,
                  { name := rootName
                    flags := Vfs.fsDirectory
                    length := inode.sizeLo.toUInt64
                    inodeNum := 2
                    inode }))
  | _ => pure none

end NexusKernel.Ext4
