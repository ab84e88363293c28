import NexusKernel.NtfsFiles
import NexusKernel.ClusterReads

/-!
Volumes with declared sectors of more than 512 bytes. The drivers of FAT32 and NTFS number sectors
as the header does, reads of the disk count sectors of 512 bytes. So the bytes read are those of
the volume exactly if its sectors have 512 bytes.
-/

namespace NexusKernel.SectorSizes

open Lib.Programs ElfLoader DiskPrograms ClusterReads RunLists NtfsFiles Program
open Fat32 (Fat32Fs Fat32Node endMark)
open Fat32Calls (Fat32Pbr Accepted fat32Read)
open Ntfs (NtfsBpb NtfsFs NtfsNode ntfsRead)

def fatPlaces (pbr : Fat32Pbr) (lbaStart : UInt64) : Fat32Fs :=
  let unit := pbr.bytesPerSector.toNat / 512
  let fat := lbaStart.toNat + pbr.reservedSectors.toNat * unit
  { fatLba := UInt32.ofNat fat
    dataLba := UInt32.ofNat (fat + pbr.fatCount.toNat * pbr.sectorsPerFat32.toNat * unit)
    sectorsPerCluster := UInt32.ofNat (pbr.sectorsPerCluster.toNat * unit)
    bytesPerCluster := UInt32.ofNat (pbr.sectorsPerCluster.toNat * pbr.bytesPerSector.toNat) }

structure FatVolume (pbr : Fat32Pbr) (lbaStart : UInt64) (total clusters : ℕ) : Prop where
  accepted : Accepted pbr
  geometry : Geometry (fatPlaces pbr lbaStart) total clusters
  place : lbaStart.toNat +
    (pbr.reservedSectors.toNat + pbr.fatCount.toNat * pbr.sectorsPerFat32.toNat +
    clusters * pbr.sectorsPerCluster.toNat) * (pbr.bytesPerSector.toNat / 512) ≤ total

def ntfsPlaces (bpb : NtfsBpb) (lbaStart : UInt64) : NtfsFs where
  lbaStart
  mftLba := lbaStart + UInt64.ofNat (bpb.mftCluster.toNat * (bpb.clusterSize.toNat / 512))
  mftRecordSize := bpb.mftRecordSize
  clusterSize := bpb.clusterSize
  bytesPerSector := 512

structure NtfsVolume (bpb : NtfsBpb) (lbaStart : UInt64) (total : ℕ) : Prop where
  accepted : bpb.Accepted
  geometry : NtfsGeometry (ntfsPlaces bpb lbaStart) total
  place : 512 * lbaStart.toNat + bpb.mftCluster.toNat * bpb.clusterSize.toNat < 512 * total

def clusterOf (disk : Disk) (fs : Fat32Fs) (c : UInt32) : Buffer := fun k =>
  disk (512 * (fs.dataLba.toNat + (c.toNat - 2) * fs.sectorsPerCluster.toNat) + k)

/-- What `fat32_read` returns for a part of a cluster are its bytes. -/
def FatRight (bytesPerSector : ℕ) : Prop :=
  ∀ (pbr : Fat32Pbr) (lbaStart : UInt64) (total clusters : ℕ) (disk : Disk) (host :
    Host) (node : Fat32Node) (chain rest : List UInt32) (c : UInt32) (offset size : UInt64),
    pbr.bytesPerSector.toNat = bytesPerSector → FatVolume pbr lbaStart total clusters →
    Working host.drive disk total → ValidFile disk (fatPlaces pbr lbaStart) clusters node chain →
    offset.toNat + size.toNat ≤ node.fileSize.toNat →
    chain.drop (offset.toNat / (fatPlaces pbr lbaStart).bytesPerCluster.toNat) = c :: rest →
    offset.toNat % (fatPlaces pbr lbaStart).bytesPerCluster.toNat + size.toNat ≤
      (fatPlaces pbr lbaStart).bytesPerCluster.toNat →
    (fat32Read (pbr.fs lbaStart) node offset size).Ensures host.answer (fun out => out.2 =
      slice (clusterOf disk (fatPlaces pbr lbaStart) c)
        (offset.toNat % (fatPlaces pbr lbaStart).bytesPerCluster.toNat) size.toNat)

/-- What `ntfs_read` returns are bytes of the clusters of the runs. -/
def NtfsRight (bytesPerSector : ℕ) : Prop :=
  ∀ (bpb : NtfsBpb) (lbaStart : UInt64) (total : ℕ) (disk : Disk) (host : Host) (node :
    NtfsNode) (attr : ℕ) (runs : List Run) (offset size : UInt64),
    bpb.bytesPerSector.toNat = bytesPerSector → NtfsVolume bpb lbaStart total →
      Working host.drive disk total → NtfsFile disk (ntfsPlaces bpb lbaStart) total node attr runs →
      offset.toNat + size.toNat < 2 ^ 64 →
    ∃ bound, ∀ fuel ≥ bound, (ntfsRead (bpb.fs lbaStart) node offset size fuel).Ensures host.answer
      (fun out => out.2 = bytesFrom (fileByte disk (ntfsPlaces bpb lbaStart) runs)
        offset.toNat out.2.length)

theorem fatPlaces_eq {pbr : Fat32Pbr} (h : pbr.bytesPerSector.toNat = 512) (lbaStart : UInt64) :
    fatPlaces pbr lbaStart = pbr.fs lbaStart := by
  have hunit : pbr.bytesPerSector.toNat / 512 = 1 := by rw [h]
  have hfat : (lbaStart + pbr.reservedSectors.toUInt64).toUInt32 =
      UInt32.ofNat (lbaStart.toNat + pbr.reservedSectors.toNat) := by
    apply UInt32.toNat_inj.mp
    rw [UInt64.toNat_toUInt32, UInt64.toNat_add, UInt16.toNat_toUInt64, UInt32.toNat_ofNat']
    omega
  simp [fatPlaces, Fat32Pbr.fs, hunit, hfat]

theorem ntfsPlaces_eq {bpb : NtfsBpb} (h : bpb.bytesPerSector.toNat = 512) (lbaStart : UInt64) :
    ntfsPlaces bpb lbaStart = bpb.fs lbaStart := by
  have hsectors := bpb.sectorsPerCluster.toNat_lt
  have hsize : bpb.clusterSize.toNat = 512 * bpb.sectorsPerCluster.toNat := by
    rw [NtfsBpb.clusterSize, UInt32.toNat_mul, UInt16.toNat_toUInt32, UInt8.toNat_toUInt32, h]
    omega
  have hbps : bpb.bytesPerSector.toUInt32 = 512 :=
    UInt32.toNat_inj.mp (by rw [UInt16.toNat_toUInt32, h]; rfl)
  simp [ntfsPlaces, NtfsBpb.fs, hsize, Nat.mul_div_cancel_left _ (show 0 < 512 by decide), hbps]

theorem ensures_fat32Read {host : Host} {disk : Disk} {fs : Fat32Fs} {total clusters : ℕ}
    {c : UInt32} {offset size : UInt64} {node : Fat32Node} {chain rest : List UInt32}
    (hgeo : Geometry fs total clusters) (hdisk : Working host.drive disk total)
    (hfile : ValidFile disk fs clusters node chain)
    (hin : offset.toNat + size.toNat ≤ node.fileSize.toNat)
    (hdrop : chain.drop (offset.toNat / fs.bytesPerCluster.toNat) = c :: rest)
    (hpart : offset.toNat % fs.bytesPerCluster.toNat + size.toNat ≤ fs.bytesPerCluster.toNat) :
    (fat32Read fs node offset size).Ensures host.answer (fun out => out.2 =
      slice (clusterOf disk fs c) (offset.toNat % fs.bytesPerCluster.toNat) size.toNat) := by
  have htop := node.fileSize.toNat_lt
  have hlong := hfile.long
  have hlen := length_clusterBytes disk hgeo c
  have hall : ClusterReads.readable node offset size = size.toNat := by
    rw [ClusterReads.readable]
    omega
  have hbytes : ((content disk fs chain).drop offset.toNat).take size.toNat =
      slice (clusterOf disk fs c) (offset.toNat % fs.bytesPerCluster.toNat) size.toNat := by
    rw [content_drop hgeo (show offset.toNat ≤ chain.length * _ by omega), hdrop, content,
      List.flatMap_cons, List.drop_append_of_le_length (by omega),
      List.take_append_of_le_length (by rw [List.length_drop]; omega)]
    refine (slice_eq (fun k hk => (getD_sectorBytes disk ?_).symm) ?_).symm
    · rwa [length_sectorBytes] at hk
    · rwa [length_sectorBytes, ← hgeo.bytes]
  intro out hout
  rw [run_fat32Read hgeo hdisk hfile (by omega), hall, hbytes] at hout
  split at hout
  · rename_i hnone
    cases hout
    rw [hnone]
    rfl
  · obtain ⟨-, -, rfl⟩ := Option.map_eq_some_iff.mp hout
    rfl

theorem fatRight_512 : FatRight 512 := by
  intro pbr lbaStart total clusters disk host node chain rest c offset size hbps hvolume hdisk hfile
    hin hdrop hpart
  have hgeo := hvolume.geometry
  rw [fatPlaces_eq hbps] at hgeo hfile hdrop hpart ⊢
  exact ensures_fat32Read hgeo hdisk hfile hin hdrop hpart

theorem ntfsRight_512 : NtfsRight 512 := by
  intro bpb lbaStart total disk host node attr runs offset size hbps hvolume hdisk hfile hsum
  have hgeo := hvolume.geometry
  rw [ntfsPlaces_eq hbps] at hgeo hfile ⊢
  obtain ⟨bound, hrun⟩ := run_ntfsRead hgeo hdisk hfile hsum
  refine ⟨bound, fun fuel hfuel out hout => ?_⟩
  rw [hrun fuel hfuel] at hout
  cases hout
  split_ifs
  · rw [length_bytesFrom]
  · rfl

/-! ### Larger sectors

A volume of one cluster, which is one sector and starts with a seven. -/

def widePbr (bytesPerSector : UInt16) : Fat32Pbr where
  jmp := 0xEB
  bytesPerSector
  sectorsPerCluster := 1
  reservedSectors := 1
  fatCount := 1
  sectorsPerFat32 := 1
  rootCluster := 2
  volumeLabel := []

def wideDisk (bytesPerSector : UInt16) : Disk := fun k =>
  if k = 2 * bytesPerSector.toNat then 7 else if k / 4 * 4 = bytesPerSector.toNat + 8
    then 0xFF else 0

def wideHost (bytesPerSector : UInt16) : Host where
  drive :=
    { type := .ata
      ataReadSectors :=
        fun lba count => some (sectorBytes (wideDisk bytesPerSector) lba.toNat count.toNat)
      ahciReadSectors := fun _ _ => none }
  heap := fun _ _ => some (fun _ => 0)

theorem wide_misread {bps : UInt16} (hwide : bps = 1024 ∨ bps = 2048 ∨ bps = 4096) :
    FatVolume (widePbr bps) 0 24 1 ∧ Working (wideHost bps).drive (wideDisk bps) 24 ∧
      ValidFile (wideDisk bps) (fatPlaces (widePbr bps) 0) 1 ⟨Vfs.fsFile, 2, 1⟩ [2] ∧
      clusterOf (wideDisk bps) (fatPlaces (widePbr bps) 0) 2 0 = 7 ∧
      (fat32Read ((widePbr bps).fs 0) ⟨Vfs.fsFile, 2, 1⟩ 0 1).run (wideHost bps).answer =
        some (1, [0]) := by
  have hdisk : Working (wideHost bps).drive (wideDisk bps) 24 := fun lba count _ _ => rfl
  have hin : ∀ c ∈ [(2 : UInt32)], 2 ≤ c.toNat ∧ c.toNat < 1 + 2 := by simp
  rcases hwide with rfl | rfl | rfl
  all_goals
    refine ⟨⟨by decide, ⟨by decide, by decide, by decide, by decide, by decide, by decide⟩,
      by decide⟩, hdisk,
      ⟨by decide, fun _ => ⟨rfl, by decide, by change endMark ≤ _; decide +kernel⟩, hin,
        by decide⟩,
      by decide +kernel, by decide +kernel⟩

/-- With sectors of 1024 bytes the first byte is not read. -/
theorem wide_sectors_misread : FatVolume (widePbr 1024) 0 24 1 ∧
    Working (wideHost 1024).drive (wideDisk 1024) 24 ∧
    ValidFile (wideDisk 1024) (fatPlaces (widePbr 1024) 0) 1 ⟨Vfs.fsFile, 2, 1⟩ [2] ∧
    clusterOf (wideDisk 1024) (fatPlaces (widePbr 1024) 0) 2 0 = 7 ∧
    (fat32Read ((widePbr 1024).fs 0) ⟨Vfs.fsFile, 2, 1⟩ 0 1).run (wideHost 1024).answer =
      some (1, [0]) := wide_misread (.inl rfl)

theorem not_fatRight {bps : UInt16} (hwide : bps = 1024 ∨ bps = 2048 ∨ bps = 4096) :
    ¬ FatRight bps.toNat := by
  intro h
  obtain ⟨hvolume, hdisk, hfile, hseven, hrun⟩ := wide_misread hwide
  have hpos := hvolume.geometry.pos
  have hbytes := hvolume.geometry.bytes
  have hz : (0 : UInt64).toNat = 0 ∧ (1 : UInt64).toNat = 1 := ⟨rfl, rfl⟩
  have hout := h (widePbr bps) 0 24 1 (wideDisk bps) (wideHost bps) ⟨Vfs.fsFile, 2, 1⟩ [2]
    [] 2 0 1 rfl hvolume hdisk hfile (by decide) (by rw [hz.1, Nat.zero_div]; rfl)
      (by rw [hz.1, Nat.zero_mod]; omega) _ hrun
  rw [hz.1, hz.2, Nat.zero_mod] at hout
  have hfirst := congrArg (fun bytes : List UInt8 => bytes.getD 0 0) hout
  rw [getD_slice _ _ (Nat.zero_lt_one), hseven] at hfirst
  cases hfirst

/-- The bytes read from accepted volumes are those of the volume exactly if its sectors have 512
bytes. -/
theorem sector_size_honoured_iff (bps : UInt16) (hbps : bps = 512 ∨ bps = 1024 ∨
      bps = 2048 ∨ bps = 4096) : FatRight bps.toNat ∧ NtfsRight bps.toNat ↔ bps = 512 := by
  constructor
  · rintro ⟨hfat, -⟩
    exact hbps.resolve_right fun hwide => not_fatRight hwide hfat
  · rintro rfl
    exact ⟨fatRight_512, ntfsRight_512⟩

theorem sector_size_honoured_iff_512 : FatRight 512 ∧ NtfsRight 512 :=
  (sector_size_honoured_iff 512 (.inl rfl)).mpr rfl

end NexusKernel.SectorSizes
