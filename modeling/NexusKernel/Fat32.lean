import NexusKernel.ElfLoader
import NexusKernel.Vfs

/-!
Volumes and files of fs/fat32.c, and the table of the clusters. Disk drivers are arbitrary functions
that answer with the bytes of the sectors or with nothing.
-/

namespace NexusKernel.Fat32

open ElfLoader

inductive DiskType where
  | ata
  | sata
  | other
  deriving DecidableEq

structure AtaDrive where
  type : DiskType
  ataReadSectors : UInt64 → UInt8 → Option (List UInt8)
  ahciReadSectors : UInt64 → UInt8 → Option (List UInt8)

def diskReadSectors (drive : AtaDrive) (lba : UInt64) (count : UInt8) : Option (List UInt8) :=
  match drive.type with
  | .ata => drive.ataReadSectors lba count
  | .sata => drive.ahciReadSectors lba count
  | .other => none

structure Fat32Fs where
  fatLba : UInt32
  dataLba : UInt32
  sectorsPerCluster : UInt32
  bytesPerCluster : UInt32

structure Fat32Node where
  flags : UInt32
  firstCluster : UInt32
  fileSize : UInt32

variable (drive : AtaDrive) (fs : Fat32Fs)

def fat32GetNextCluster (cluster : UInt32) : UInt32 :=
  let fatOffset := cluster * 4
  let fatSector := fs.fatLba + fatOffset / 512
  let entOffset := fatOffset % 512
  match diskReadSectors drive fatSector.toUInt64 1 with
  | none => 0x0FFFFFFF
  | some sector => Buffer.u32 (fun k => sector.getD k 0) entOffset.toNat &&& 0x0FFFFFFF

def endMark : UInt32 := 0x0FFFFFF8

end NexusKernel.Fat32
