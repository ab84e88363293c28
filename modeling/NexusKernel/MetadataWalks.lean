import NexusKernel.ExtentTrees
import NexusKernel.Ntfs
import NexusKernel.DirectoryWalks
import Mathlib.Data.Fintype.Option

/-!
Whether `ntfs_find_attr` and `ext4_get_physical_block` come to an end. The offset of the next
attribute is a 32-bit sum, which may lead back; the depth of the next node of an extent tree is
read from that node, which may have been visited before. Both walks are endless exactly if a place
comes back.
-/

namespace NexusKernel.MetadataWalks

open Lib.Programs Lib.Iterations Lib.MemoryTasks ElfLoader DiskPrograms Ntfs
  Ext4 ExtentTrees
open Program

def attrRound (record : Buffer) (type recordSize off : UInt32) : Option (UInt32 ⊕ Option UInt32) :=
  if off.toNat + 16 ≤ recordSize.toNat then
    if record.u32 off.toNat = 0xFFFFFFFF then some (.inr none)
    else if record.u32 (off.toNat + 4) = 0 then some (.inr none)
    else if record.u32 off.toNat = type then some (.inr (some off))
    else some (.inl (off + record.u32 (off.toNat + 4)))
  else some (.inr none)

theorem attrRound_ne_none (record : Buffer) (type recordSize off : UInt32) :
    attrRound record type recordSize off ≠ none := by
  unfold attrRound
  split_ifs <;> simp

theorem run_findAttrFrom (mem : Place → UInt8) (type recordSize : UInt32) (fuel : ℕ)
    (off : UInt32) : (findAttrFrom type recordSize fuel off).run mem =
      (iterate (attrRound (recordOf mem) type recordSize) fuel off, mem) := by
  induction fuel generalizing off with
  | zero => rfl
  | succ fuel ih =>
    rw [findAttrFrom, iterate, attrRound]
    by_cases hin : off.toNat + 16 ≤ recordSize.toNat
    swap
    · simp [hin]
    rw [if_pos hin, if_pos hin, Task.run_bind, run_load32]
    by_cases hend : (recordOf mem).u32 off.toNat = 0xFFFFFFFF
    · simp [hend]
    rw [if_neg hend, if_neg hend, Task.run_bind, run_load32]
    by_cases hlen : (recordOf mem).u32 (off.toNat + 4) = 0
    · simp [hlen]
    rw [if_neg hlen, if_neg hlen]
    by_cases htype : (recordOf mem).u32 off.toNat = type
    · simp [htype]
    · rw [if_neg htype, if_neg htype, ih]
      rfl

/-- The walk along the attributes from the first one on. -/
theorem run_ntfsFindAttr (mem : Place → UInt8) (type recordSize : UInt32) (fuel : ℕ) :
    (ntfsFindAttr type recordSize fuel).run mem =
      (iterate (attrRound (recordOf mem) type recordSize) fuel
        ((recordOf mem).u16 20).toUInt32, mem) := by
  simp only [ntfsFindAttr, Task.run_bind, run_load16, run_findAttrFrom]

section

variable (host : Host) (fs : Ext4Info) (inode : Ext4Inode) (lBlock : UInt32)

def nodeAt (extentBuffer : Option Block) : Option UInt64 → Buffer
  | none => inode.block
  | some b =>
      match extentBuffer, blockData host fs b with
      | some block, some data => (block.store (sectorCount fs) data).bytes
      | _, _ => fun _ => 0

/-- The child of an index entry cannot be read, is read through the null pointer, is not a node,
or the descent goes on with it. -/
def childRound (extentBuffer : Option Block) (target : UInt64) : Option (Option UInt64 ⊕ UInt64) :=
  if target = 0 then some (.inr 0)
  else
    match blockData host fs target, extentBuffer with
    | none, _ => some (.inr 0)
    | some _, none => none
    | some data, some block =>
        if (header (block.store (sectorCount fs) data).bytes).magic ≠ extMagic then some (.inr 0)
        else some (.inl (some target))

def extentRound (extentBuffer : Option Block) (place : Option UInt64) :
    Option (Option UInt64 ⊕ UInt64) :=
  if (header (nodeAt host fs inode extentBuffer place)).depth > 0 then
    childRound host fs extentBuffer
      (targetPhy (indexes (nodeAt host fs inode extentBuffer place)) lBlock)
  else some (.inr (leafPhy (extents (nodeAt host fs inode extentBuffer place)) lBlock))

theorem run_descend_eq (block : Block) (fuel : ℕ) (place : Option UInt64) :
    (descend fs lBlock fuel (nodeAt host fs inode (some block) place)
      (some block)).run host.answer =
      iterate (extentRound host fs inode lBlock (some block)) fuel place := by
  suffices h : ∀ block' :
    Block, (∀ data, block'.store (sectorCount fs) data = block.store (sectorCount fs) data) →
      (descend fs lBlock fuel (nodeAt host fs inode (some block) place)
        (some block')).run host.answer =
        iterate (extentRound host fs inode lBlock (some block)) fuel place from h block
          (fun _ => rfl)
  induction fuel generalizing place with
  | zero => exact fun _ _ => rfl
  | succ fuel ih =>
    intro block' hsame
    rw [descend, iterate, extentRound]
    by_cases hinner : (header (nodeAt host fs inode (some block) place)).depth > 0
    swap
    · rw [if_neg hinner, if_neg hinner]
      rfl
    rw [if_pos hinner, if_pos hinner]
    unfold childRound
    generalize targetPhy (indexes (nodeAt host fs inode (some block) place)) lBlock = target
    by_cases hz : target = 0
    · simp [hz]
    have hread : (ext4ReadBlock fs target (some block')).run host.answer =
        some ((blockData host fs target).map
          (fun data => some (block.store (sectorCount fs) data))) := by
      simp only [← hsame]
      exact run_diskReadInto host _ _ block'
    simp only [if_neg hz, run_bind, hread]
    cases hdata : blockData host fs target with
    | none => rfl
    | some data =>
      have hnode : nodeAt host fs inode (some block) (some target) =
          (block.store (sectorCount fs) data).bytes := by
        simp only [nodeAt, hdata]
      by_cases hmagic : (header (block.store (sectorCount fs) data).bytes).magic ≠ extMagic
      · simp [hmagic]
      · simp only [Option.map_some, Option.bind_some, if_neg hmagic, Sum.elim_inl]
        rw [← hnode]
        exact ih (some target) _ fun data' => store_store _ _ data data'

theorem run_descend_eq_null (fuel : ℕ) : (descend fs lBlock fuel inode.block none).run host.answer =
    iterate (extentRound host fs inode lBlock none) fuel none := by
  cases fuel with
  | zero => rfl
  | succ fuel =>
    rw [descend, iterate, extentRound, nodeAt]
    by_cases hinner : (header inode.block).depth > 0
    swap
    · rw [if_neg hinner, if_neg hinner]
      rfl
    rw [if_pos hinner, if_pos hinner]
    unfold childRound
    generalize targetPhy (indexes inode.block) lBlock = target
    by_cases hz : target = 0
    · simp [hz]
    have hread : (ext4ReadBlock fs target none).run host.answer =
        if (blockData host fs target).isSome then
          if sectorCount fs = 0 then some (some none) else none
        else some none := run_diskReadInto_null host _ _
    simp only [if_neg hz, run_bind, hread]
    cases hdata : blockData host fs target with
    | none => rfl
    | some data =>
      -- A read of no sectors succeeds, but there is no node at the null pointer.
      by_cases hnum : sectorCount fs = 0
      · simp [hnum]
      · simp [hnum]

theorem run_ext4GetPhysicalBlock (fuel : ℕ) (hextents : usesExtents inode)
    (hmagic : (header inode.block).magic = extMagic) :
    (ext4GetPhysicalBlock fs inode lBlock fuel).run host.answer =
    iterate (extentRound host fs inode lBlock (host.block (.extents lBlock) fs.blockSize.toUInt64))
      fuel none := by
  rw [ext4GetPhysicalBlock, if_pos hextents, if_neg (not_not_intro hmagic), run_bind, run_kmalloc]
  cases host.block (.extents lBlock) fs.blockSize.toUInt64 with
  | none => exact run_descend_eq_null host fs inode lBlock fuel
  | some block => exact run_descend_eq host fs inode lBlock block fuel none

end

instance finite64 : Finite UInt64 :=
    Finite.of_injective UInt64.toFin (fun _ _ => UInt64.toFin_inj.mp)

theorem findAttr_returns (mem : Place → UInt8) (type recordSize : UInt32) :
    (∃ fuel found, ((ntfsFindAttr type recordSize fuel).run mem).1 = some found) ↔
      Returns (attrRound (recordOf mem) type recordSize) ((recordOf mem).u16 20).toUInt32 := by
  simp only [run_ntfsFindAttr, Returns]

theorem getPhysicalBlock_returns (host : Host) (fs : Ext4Info) (inode : Ext4Inode) (lBlock : UInt32)
    (hextents : usesExtents inode) (hmagic : (header inode.block).magic = extMagic) :
    (∃ fuel phy, (ext4GetPhysicalBlock fs inode lBlock fuel).run host.answer = some phy) ↔
      Returns (extentRound host fs inode lBlock
        (host.block (.extents lBlock) fs.blockSize.toUInt64)) none := by
  simp only [run_ext4GetPhysicalBlock host fs inode lBlock _ hextents hmagic, Returns]

/-- The search for an attribute returns exactly if no offset comes twice. The lookup of a block
returns exactly if the inode has no extent tree, or no node comes twice and there is a buffer if
one has to be read. -/
theorem metadata_walks_return_iff (mem : Place → UInt8) (type recordSize : UInt32) (host : Host)
    (fs : Ext4Info) (inode : Ext4Inode) (lBlock : UInt32) :
    ((∃ fuel found, ((ntfsFindAttr type recordSize fuel).run mem).1 = some found) ↔
        NeverRepeats (attrRound (recordOf mem) type recordSize) ((recordOf mem).u16 20).toUInt32) ∧
      ((∃ fuel phy, (ext4GetPhysicalBlock fs inode lBlock fuel).run host.answer = some phy) ↔
        ¬ usesExtents inode ∨ (header inode.block).magic ≠ extMagic ∨
          NeverRepeats (extentRound host fs inode lBlock
            (host.block (.extents lBlock) fs.blockSize.toUInt64)) none ∧
            NeverFaults (extentRound host fs inode lBlock
              (host.block (.extents lBlock) fs.blockSize.toUInt64)) none) := by
  constructor
  · have hfaults : NeverFaults (attrRound (recordOf mem) type recordSize)
      ((recordOf mem).u16 20).toUInt32 := fun _ off _ => attrRound_ne_none _ _ _ off
    rw [findAttr_returns, returns_iff]
    exact ⟨fun h => h.1, fun h => ⟨h, hfaults⟩⟩
  · by_cases hextents : usesExtents inode
    swap
    · refine ⟨fun _ => .inl hextents, fun _ => ?_⟩
      by_cases hdirect : lBlock < 12
      · exact ⟨0, _, by rw [ext4GetPhysicalBlock, if_neg hextents, if_pos hdirect, run_pure]⟩
      · exact ⟨0, _, by rw [ext4GetPhysicalBlock, if_neg hextents, if_neg hdirect, run_pure]⟩
    by_cases hmagic : (header inode.block).magic = extMagic
    swap
    · refine ⟨fun _ => .inr (.inl hmagic), fun _ => ⟨0, 0, ?_⟩⟩
      rw [ext4GetPhysicalBlock, if_pos hextents, if_pos hmagic, run_pure]
    rw [getPhysicalBlock_returns host fs inode lBlock hextents hmagic, returns_iff]
    simp [hextents, hmagic]

/-! ### Endless walks

A record with attributes of lengths 16 and -16, and a tree whose only index entry leads
from block 5 to block 5. -/

def loopRecord : Buffer := fun k =>
  (List.replicate 20 (0 : UInt8) ++ [24, 0, 0, 0, 0x10, 0, 0, 0, 16, 0, 0, 0, 0, 0, 0,
    0, 0, 0, 0, 0, 0x10, 0, 0, 0, 0xF0, 0xFF, 0xFF, 0xFF]).getD k 0

def loopNode : List UInt8 := [0x0A, 0xF3, 1, 0, 4, 0, 1, 0, 0, 0, 0, 0, 0, 0, 0, 0, 5]

def loopInode : Ext4Inode where
  mode := 0x8000
  sizeLo := 1024
  flags := 0x80000
  block := fun k => loopNode.getD k 0

def loopHost : Host where
  drive := ⟨.ata, fun _ _ => some loopNode, fun _ _ => none⟩
  heap := fun _ _ => some (fun _ => 0)

theorem cyclic_metadata_never_ends :
    (∀ fuel, ((ntfsFindAttr attrData 1024 fuel).run (memory loopRecord)).1 = none) ∧
    ∀ fuel, (ext4GetPhysicalBlock smallFs loopInode 0 fuel).run loopHost.answer = none := by
  constructor
  · intro fuel
    have hfirst : stateAt (attrRound loopRecord attrData 1024) 24 0 = some 24 := rfl
    have hback : stateAt (attrRound loopRecord attrData 1024) 24 2 = some 24 := by decide
    rw [Option.eq_none_iff_forall_ne_some]
    intro found hfound
    exact not_returns_of_repeat hfirst hback (by decide)
      ((findAttr_returns (memory loopRecord) attrData 1024).mp ⟨fuel, found, hfound⟩)
  · intro fuel
    rw [Option.eq_none_iff_forall_ne_some]
    intro phy hphy
    exact not_returns_of_repeat (i := 1) (j := 2) (t := some 5) rfl rfl (by decide)
      ((getPhysicalBlock_returns loopHost smallFs loopInode 0 (by decide) rfl).mp ⟨fuel, phy, hphy⟩)

end NexusKernel.MetadataWalks
