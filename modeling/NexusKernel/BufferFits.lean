import NexusKernel.ExtentTrees
import NexusKernel.Ntfs

/-!
Whether the sectors the drivers ask for fit into their buffers. Buffer size and sector count come
from different fields of the volume header: FAT32 sectors may be declared smaller than 512 bytes,
an NTFS record smaller than the one sector read at least.
-/

namespace NexusKernel.BufferFits

open Lib.Programs.Program ElfLoader DiskPrograms
open Fat32 (AtaDrive Fat32Fs Fat32Node)
open Fat32Calls (Fat32Pbr Fat32Child Fat32Dirent fat32Mount fat32Readdir fat32Finddir walkDirectory)
open Ntfs (NtfsFs NtfsNode NtfsChild NtfsBpb ntfsMount ntfsReaddir ntfsFinddir ntfsRead)
open Ext4 (Ext4Info Ext4Inode ext4ReadBlock ext4GetPhysicalBlock descend)
open ExtentTrees (sectorCount)
open Option (bind_eq_some_iff bind_some map_eq_some_iff)

def Fits : Request → Prop
  | .kmalloc _ _ => True
  | .sectors _ count room => transfer count ≤ room

instance : DecidablePred Fits
  | .kmalloc _ _ => isTrue trivial
  | .sectors _ count room => inferInstanceAs (Decidable (transfer count ≤ room))

variable {host : Host} {use : Purpose} {lba size : UInt64} {count : UInt8}
variable {buf buf' : Option Block}

@[simp] theorem fits_kmalloc : (kmalloc use size).Asks host.answer Fits := by
  intro q hq
  rw [asked_kmalloc, List.mem_singleton] at hq
  exact hq ▸ trivial

@[simp] theorem fits_kmallocUnchecked : (kmallocUnchecked size).Asks host.answer Fits := by
  rw [kmallocUnchecked, asks_bind]
  refine ⟨fits_kmalloc, fun block _ => ?_⟩
  cases block with
  | none => exact asks_stuck
  | some block => exact asks_pure block

theorem fits_diskReadInto : (diskReadInto lba count buf).Asks host.answer Fits ↔
    transfer count ≤ room buf := by
  simp [Asks, asked_diskReadInto, Fits]

variable {β : Type}

theorem fits_kmalloc_bind {f : Option Block → Call β} :
    (kmalloc use size >>= f).Asks host.answer Fits ↔
      (f (host.block use size)).Asks host.answer Fits := by
  rw [asks_bind]
  constructor
  · exact fun h => h.2 _ (run_kmalloc host use size)
  · intro h
    refine ⟨fits_kmalloc, fun buf hbuf => ?_⟩
    cases hbuf
    exact h

variable {block : Block} {f : Option (Option Block) → Call β}

theorem fits_diskReadInto_bind (hfits : transfer count ≤ block.size)
    (hf : (f ((host.sectors lba count).map fun data => some (block.store count data))).Asks
      host.answer Fits) :
    (diskReadInto lba count (some block) >>= f).Asks host.answer Fits := by
  rw [asks_bind]
  refine ⟨fits_diskReadInto.mpr hfits, fun answer hanswer => ?_⟩
  rw [run_diskReadInto] at hanswer
  cases hanswer
  exact hf

theorem room_after_read (h : (diskReadInto lba count buf).run host.answer = some (some buf')) :
    room buf' = room buf := by
  obtain ⟨data, rfl⟩ := diskReadInto_stores host lba count h
  cases buf <;> rfl

theorem room_block (host : Host) (use : Purpose) (size : UInt64) :
    room (host.block use size) = if (host.block use size).isSome then size.toNat else 0 := by
  unfold Host.block
  cases host.stale use size <;> rfl

section

variable (fs : Fat32Fs)

theorem fits_nextCluster (c : UInt32) :
    (Fat32Calls.fat32GetNextCluster fs c).Asks host.answer Fits := by
  rw [Fat32Calls.fat32GetNextCluster, asks_bind]
  refine ⟨fits_diskReadInto.mpr (by decide), fun answer _ => ?_⟩
  split
  · exact asks_pure _
  · exact asks_pure _

theorem fits_walkDirectory {α σ : Type} (visit : Fat32Dirent → σ → α ⊕ σ)
    (hfits : transfer fs.sectorsPerCluster.toUInt8 ≤ room buf) (fuel : ℕ) (c : UInt32) (s : σ) :
    (walkDirectory fs visit fuel buf c s).Asks host.answer Fits := by
  induction fuel generalizing buf c s with
  | zero => exact asks_stuck
  | succ fuel ih =>
    rw [walkDirectory]
    split
    · rw [asks_bind]
      refine ⟨fits_diskReadInto.mpr hfits, fun answer hanswer => ?_⟩
      split
      · exact asks_pure _
      · have hroom := room_after_read hanswer
        split
        · exact asks_stuck
        · split
          · exact asks_pure _
          · exact asks_pure _
          · rw [asks_bind]
            exact ⟨fits_nextCluster fs c, fun next _ => ih (hroom ▸ hfits) next _⟩
    · exact asks_pure _

theorem fits_skipClusters (n : ℕ) (c : UInt32) :
    (Fat32Calls.skipClusters fs n c).Asks host.answer Fits := by
  induction n generalizing c with
  | zero => exact asks_pure _
  | succ n ih =>
    rw [Fat32Calls.skipClusters, asks_bind]
    refine ⟨fits_nextCluster fs c, fun next _ => ?_⟩
    split
    · exact asks_pure _
    · exact ih next

theorem fits_copyClusters (hfits : transfer fs.sectorsPerCluster.toUInt8 ≤ room buf)
    (size : UInt64) (fuel : ℕ)
    (c clusterOffset : UInt32) (bytesRead : UInt64) (buffer : List UInt8) :
    (Fat32Calls.copyClusters fs size fuel buf c clusterOffset bytesRead buffer).Asks
      host.answer Fits := by
  induction fuel generalizing buf c clusterOffset bytesRead buffer with
  | zero => exact asks_stuck
  | succ fuel ih =>
    rw [Fat32Calls.copyClusters]
    split
    · rw [asks_bind]
      refine ⟨fits_diskReadInto.mpr hfits, fun answer hanswer => ?_⟩
      split
      · exact asks_pure _
      · exact asks_stuck
      · rename_i block
        have hroom : transfer fs.sectorsPerCluster.toUInt8 ≤ room (some block) :=
          (room_after_read hanswer).symm ▸ hfits
        refine asks_ite (fun _ => ?_) fun _ => ih hroom c _ _ _
        rw [asks_bind]
        refine ⟨fits_nextCluster fs c, fun next _ => ?_⟩
        exact asks_guard fun _ => ih hroom next _ _ _
    · exact asks_pure _

def FatFits (heap : Purpose → UInt64 → Option Buffer) : Prop :=
  ∀ (drive : AtaDrive) (node : Fat32Node) (index : UInt32) (name : List UInt8) (offset size :
    UInt64) (fuel : ℕ),
    (fat32Readdir fs node index fuel).Asks (Host.answer ⟨drive, heap⟩) Fits ∧
      (fat32Finddir fs node name fuel).Asks (Host.answer ⟨drive, heap⟩) Fits ∧
      (Fat32Calls.fat32Read fs node offset size).Asks (Host.answer ⟨drive, heap⟩) Fits

theorem fatFits_iff (heap : Purpose → UInt64 → Option Buffer) (drive : AtaDrive) :
    FatFits fs heap ↔ transfer fs.sectorsPerCluster.toUInt8 ≤
      room (Host.block ⟨drive, heap⟩ .buffer fs.bytesPerCluster.toUInt64) := by
  constructor
  · intro h
    -- The first request to the disk for a directory at cluster 2.
    obtain ⟨hreaddir, -, -⟩ := h drive ⟨0, 2, 0⟩ 0 [] 0 0 1
    rw [fat32Readdir, fits_kmalloc_bind] at hreaddir
    have hwalk := (asks_bind.mp hreaddir).1
    rw [walkDirectory, if_pos (by decide), asks_bind] at hwalk
    exact fits_diskReadInto.mp hwalk.1
  · intro hfits drive' node index name offset size fuel
    refine ⟨?_, ?_, ?_⟩
    · rw [fat32Readdir, fits_kmalloc_bind, asks_bind]
      exact ⟨fits_walkDirectory fs _ hfits fuel _ _, fun found _ => asks_pure _⟩
    · rw [fat32Finddir, fits_kmalloc_bind, asks_bind]
      refine ⟨fits_walkDirectory fs _ hfits fuel _ _, fun found _ => ?_⟩
      cases found with
      | none => exact asks_pure _
      | some e =>
        simp only [asks_bind]
        exact ⟨fits_kmallocUnchecked, fun _ _ => ⟨fits_kmallocUnchecked,
          fun _ _ => asks_pure _⟩⟩
    · refine asks_guard fun _ => ?_
      refine asks_guard fun _ => ?_
      refine asks_ite (fun _ => asks_stuck) fun _ => ?_
      rw [asks_bind]
      refine ⟨fits_skipClusters fs _ _, fun current _ => ?_⟩
      cases current with
      | none => exact asks_pure _
      | some c =>
        rw [fits_kmalloc_bind]
        exact fits_copyClusters fs hfits _ _ c _ _ _

theorem fat32Mount_fs {fs : Fat32Fs} {root : Fat32Child}
    (h : (fat32Mount lba).run host.answer = some (some (fs, root))) :
    ∃ pbr : Fat32Pbr, Fat32Calls.Accepted pbr ∧ fs = pbr.fs lba := by
  rw [fat32Mount] at h
  simp only [run_bind, run_kmalloc, bind_some] at h
  obtain ⟨answer, -, h⟩ := bind_eq_some_iff.mp h
  split at h
  · rename_i sector
    by_cases hacc : Fat32Calls.Accepted (Fat32Pbr.parse sector.bytes)
    · simp only [if_pos hacc, run_bind] at h
      obtain ⟨_, -, h⟩ := bind_eq_some_iff.mp h
      obtain ⟨_, -, h⟩ := bind_eq_some_iff.mp h
      obtain ⟨_, -, h⟩ := bind_eq_some_iff.mp h
      simp only [run_pure, Option.some.injEq, Prod.mk.injEq] at h
      exact ⟨_, hacc, h.1.symm⟩
    · rw [if_neg hacc] at h
      simp at h
  · simp at h

end

section

variable (fs : NtfsFs)

/-- The sectors of a number of bytes fit into as many bytes, unless these are less than a sector. -/
theorem transfer_sectorsOf (hsector : 512 ≤ fs.bytesPerSector.toNat) (bytes : UInt32) :
    transfer (Ntfs.sectorsOf fs bytes) ≤ bytes.toNat ↔ 512 ≤ bytes.toNat := by
  have hquotient : (bytes / fs.bytesPerSector).toNat * 512 ≤ bytes.toNat := by
    calc bytes.toNat / fs.bytesPerSector.toNat * 512
        ≤ bytes.toNat / fs.bytesPerSector.toNat * fs.bytesPerSector.toNat :=
          Nat.mul_le_mul_left _ hsector
      _ ≤ bytes.toNat := Nat.div_mul_le_self _ _
  have hnum : ((bytes / fs.bytesPerSector).toUInt8).toNat ≤ (bytes / fs.bytesPerSector).toNat := by
    exact Nat.mod_le _ _
  rw [Ntfs.sectorsOf]
  split
  · exact Iff.rfl
  · rename_i hne
    have hpos : 0 < ((bytes / fs.bytesPerSector).toUInt8).toNat :=
      Nat.pos_of_ne_zero (fun h => hne (UInt8.toNat_inj.mp h))
    simp only [transfer]
    omega

variable {fs} {α : Type}

theorem block_size (h : host.block use size = some block) : block.size = size.toNat := by
  obtain ⟨bytes, -, rfl⟩ := map_eq_some_iff.mp h
  rfl

theorem fits_withRecord (recNum : UInt64) (task : Ntfs.RecordTask (Option (Option α)))
    (hfits : host.block .record fs.mftRecordSize.toUInt64 ≠ none →
      transfer (Ntfs.sectorsOf fs fs.mftRecordSize) ≤ fs.mftRecordSize.toNat) :
    (Ntfs.withRecord fs recNum task).Asks host.answer Fits := by
  rw [Ntfs.withRecord, fits_kmalloc_bind]
  cases hblock : host.block .record fs.mftRecordSize.toUInt64 with
  | none => exact asks_pure _
  | some block =>
    rw [asks_bind]
    constructor
    · refine asks_ite (fun _ => asks_stuck) (fun _ => fits_diskReadInto.mpr ?_)
      rw [room, block_size hblock]
      exact hfits (by simp [hblock])
    · intro answer _
      split
      · dsimp only
        split
        · exact asks_stuck
        · exact asks_pure _
      · exact asks_pure _

theorem fits_copyRun (hfits : transfer (Ntfs.sectorsOf fs fs.clusterSize) ≤ block.size)
    (sparse : Bool) (lcn clusters readEnd size : UInt64) (fuel : ℕ) (idx intra bytesRead : UInt64)
    (buffer : List UInt8) :
    let task :=
      Ntfs.copyRun fs sparse lcn clusters readEnd size fuel block idx intra bytesRead buffer
    task.Asks host.answer Fits ∧ ∀ out, task.run host.answer = some out →
      out.2.1.size = block.size := by
  induction fuel generalizing block idx intra bytesRead buffer with
  | zero => exact ⟨asks_stuck, fun out hout => absurd hout (by simp [Ntfs.copyRun])⟩
  | succ fuel ih =>
    unfold Ntfs.copyRun
    dsimp only
    split
    · split
      · exact ih hfits _ _ _ _
      · rw [run_bind, run_diskReadInto]
        cases hread :
          host.sectors (fs.lbaStart + (lcn + idx) * (fs.clusterSize / fs.bytesPerSector).toUInt64)
            (Ntfs.sectorsOf fs fs.clusterSize) with
        | none =>
          refine ⟨fits_diskReadInto_bind hfits ?_, fun out hout => ?_⟩
          · rw [hread]
            exact asks_pure _
          · cases hout
            rfl
        | some data =>
          have hagain :=
            ih (show _ ≤ (block.store (Ntfs.sectorsOf fs fs.clusterSize) data).size from hfits)
          refine ⟨fits_diskReadInto_bind hfits ?_, (hagain _ _ _ _).2⟩
          rw [hread]
          exact (hagain _ _ _ _).1
    · refine ⟨asks_pure _, fun out hout => ?_⟩
      cases hout
      rfl

theorem fits_walkRuns (hfits : transfer (Ntfs.sectorsOf fs fs.clusterSize) ≤ block.size)
    (record : Buffer) (offset size : UInt64) (fuel run : ℕ) (lcn vcn bytesRead : UInt64)
    (buffer : List UInt8) :
    (Ntfs.walkRuns fs record offset size fuel block run lcn vcn bytesRead buffer).Asks
      host.answer Fits := by
  induction fuel generalizing block run lcn vcn bytesRead buffer with
  | zero => exact asks_stuck
  | succ fuel ih =>
    refine asks_ite (fun _ => ?_) fun _ => asks_pure _
    refine asks_guard fun _ => ?_
    refine asks_ite (fun _ => ?_) fun _ => ih hfits _ _ _ _ _
    rw [asks_bind]
    refine ⟨(fits_copyRun hfits _ _ _ _ _ _ _ _ _ _).1, fun out hout => ?_⟩
    have hsize := (fits_copyRun hfits _ _ _ _ _ _ _ _ _ _).2 out hout
    exact asks_ite (fun _ => ih (hsize.symm ▸ hfits) _ _ _ _ _) fun _ => asks_pure _

def NtfsFits (fs : NtfsFs) (heap : Purpose → UInt64 → Option Buffer) : Prop :=
  ∀ (drive : AtaDrive) (node : NtfsNode) (index : UInt32) (name : List UInt8) (offset size :
    UInt64) (fuel : ℕ), (ntfsReaddir fs node index fuel).Asks (Host.answer ⟨drive, heap⟩) Fits ∧
      (ntfsFinddir fs node name fuel).Asks (Host.answer ⟨drive, heap⟩) Fits ∧
      (ntfsRead fs node offset size fuel).Asks (Host.answer ⟨drive, heap⟩) Fits

theorem ntfsFits_iff (heap : Purpose → UInt64 → Option Buffer) (drive : AtaDrive)
    (hsector : 512 ≤ fs.bytesPerSector.toNat)
    (hcluster : fs.clusterSize ≠ 0 → 512 ≤ fs.clusterSize.toNat) :
    NtfsFits fs heap ↔ Host.block ⟨drive, heap⟩ .record fs.mftRecordSize.toUInt64 = none ∨
      512 ≤ fs.mftRecordSize.toNat := by
  constructor
  · intro h
    obtain ⟨hreaddir, -, -⟩ := h drive ⟨0, 0, 0⟩ 0 [] 0 0 0
    cases hblock : Host.block ⟨drive, heap⟩ .record fs.mftRecordSize.toUInt64 with
    | none => exact .inl rfl
    | some block =>
      refine .inr ((transfer_sectorsOf fs hsector _).mp ?_)
      rw [ntfsReaddir, asks_bind, Ntfs.withRecord, fits_kmalloc_bind, hblock, asks_bind,
        Ntfs.readRecord, if_neg (by rintro hz; rw [hz] at hsector; cases hsector)] at hreaddir
      have hroom := fits_diskReadInto.mp hreaddir.1.1
      rwa [room, block_size hblock] at hroom
  · intro hcase drive' node index name offset size fuel
    have hrec : ∀ {α : Type} (task : Ntfs.RecordTask (Option (Option α))),
        (Ntfs.withRecord fs node.mftRecordNumber task).Asks
          (Host.answer ⟨drive', heap⟩) Fits := by
      intro α task
      refine fits_withRecord _ task fun hne => ?_
      exact (transfer_sectorsOf fs hsector _).mpr (hcase.resolve_left hne)
    refine ⟨?_, ?_, ?_⟩
    · rw [ntfsReaddir, asks_bind]
      exact ⟨hrec _, fun found _ => asks_pure _⟩
    · rw [ntfsFinddir, asks_bind]
      refine ⟨hrec _, fun found _ => ?_⟩
      cases found with
      | none => exact asks_pure _
      | some child =>
        simp only [asks_bind]
        exact ⟨fits_kmallocUnchecked, fun _ _ => ⟨fits_kmallocUnchecked,
          fun _ _ => asks_pure _⟩⟩
    · refine asks_guard fun _ => ?_
      refine asks_guard fun _ => ?_
      refine asks_guard fun _ => ?_
      rw [asks_bind]
      refine ⟨hrec _, fun found _ => ?_⟩
      split
      · exact asks_pure _
      · exact asks_pure _
      · rw [fits_kmalloc_bind]
        cases hblock : Host.block ⟨drive', heap⟩ .buffer fs.clusterSize.toUInt64 with
        | none => exact asks_pure _
        | some block =>
          refine fits_walkRuns ?_ _ _ _ _ _ _ _ _ _
          rw [block_size hblock]
          refine (transfer_sectorsOf fs hsector _).mpr (hcluster ?_)
          rintro hz
          rw [hz] at hblock
          exact absurd hblock (by simp [Host.block, Host.stale])

theorem ntfsMount_fs {fs : NtfsFs} {root : NtfsChild} (h : (ntfsMount lba).run host.answer =
      some (some (fs, root))) : ∃ bpb : NtfsBpb, bpb.Accepted ∧ fs = bpb.fs lba := by
  rw [ntfsMount] at h
  simp only [run_bind, run_kmalloc, bind_some] at h
  split at h
  · simp at h
  simp only [run_bind, run_diskReadInto, bind_some] at h
  split at h
  · rename_i sector _
    by_cases hacc : (NtfsBpb.parse sector.bytes).Accepted
    · simp only [if_pos hacc, run_bind, run_kmalloc, bind_some] at h
      split at h
      · simp at h
      simp only [run_bind, run_kmalloc, bind_some] at h
      split at h
      · simp at h
      simp only [run_bind, run_kmalloc, bind_some] at h
      split at h
      · simp at h
      simp only [run_pure, Option.some.injEq, Prod.mk.injEq] at h
      exact ⟨_, hacc, h.1.symm⟩
    · rw [if_neg hacc] at h
      simp at h
  · simp at h

variable {bpb : NtfsBpb}

theorem accepted_sector (h : bpb.Accepted) : 512 ≤ bpb.bytesPerSector.toNat := by
  obtain ⟨-, hsector⟩ := h
  rw [not_or, UInt32.not_lt, UInt32.le_iff_toNat_le] at hsector
  exact hsector.1

theorem accepted_cluster (h : bpb.Accepted) (hne : bpb.clusterSize ≠ 0) :
    512 ≤ bpb.clusterSize.toNat := by
  have hsector := accepted_sector h
  have htop := bpb.bytesPerSector.toNat_lt
  have hper := bpb.sectorsPerCluster.toNat_lt
  have hsize : bpb.clusterSize.toNat = bpb.bytesPerSector.toNat * bpb.sectorsPerCluster.toNat := by
    refine Nat.mod_eq_of_lt (lt_of_le_of_lt (Nat.mul_le_mul htop.le hper.le) (by decide))
  have hpos : bpb.sectorsPerCluster.toNat ≠ 0 := by
    intro hz
    rw [hz] at hsize
    exact hne (UInt32.toNat_inj.mp hsize)
  calc 512 ≤ bpb.bytesPerSector.toNat := hsector
    _ ≤ bpb.bytesPerSector.toNat * bpb.sectorsPerCluster.toNat :=
      Nat.le_mul_of_pos_right _ (Nat.pos_of_ne_zero hpos)
    _ = bpb.clusterSize.toNat := hsize.symm

end

section

variable {fs : Ext4Info} {block : Block}

/-- A block narrowed to fewer sectors fits all the more. -/
theorem transfer_sectorCount (fs : Ext4Info) : transfer (sectorCount fs) ≤ fs.blockSize.toNat := by
  simp only [transfer, sectorCount, UInt32.toNat_toUInt8, UInt32.toNat_div, UInt32.reduceToNat]
  omega

theorem fits_readBlock_bind (b : UInt64) (hfits : transfer (sectorCount fs) ≤ block.size)
    (hf : ∀ answer : Option Block, (∀ block', answer = some block' → block'.size = block.size) →
      (f (answer.map some)).Asks host.answer Fits) :
    (ext4ReadBlock fs b (some block) >>= f).Asks host.answer Fits := by
  refine fits_diskReadInto_bind hfits ?_
  have hanswer := hf ((host.sectors (fs.lbaStart + b * (fs.blockSize / 512).toUInt64)
    (fs.blockSize / 512).toUInt8).map fun data => block.store (fs.blockSize / 512).toUInt8 data) ?_
  · rwa [Option.map_map] at hanswer
  · intro block' hblock'
    obtain ⟨data, -, rfl⟩ := map_eq_some_iff.mp hblock'
    rfl

theorem fits_descend (lBlock : UInt32) (fuel : ℕ) (node : Buffer)
    (hfits : transfer (sectorCount fs) ≤ room buf) :
    (descend fs lBlock fuel node buf).Asks host.answer Fits := by
  induction fuel generalizing node buf with
  | zero => exact asks_stuck
  | succ fuel ih =>
    refine asks_ite (fun _ => ?_) fun _ => asks_pure _
    refine asks_guard fun _ => ?_
    rw [asks_bind]
    refine ⟨fits_diskReadInto.mpr hfits, fun answer hanswer => ?_⟩
    split
    · exact asks_pure _
    · exact asks_stuck
    · refine asks_guard (fun _ => ih _ ?_)
      rw [room_after_read hanswer]
      exact hfits

variable
  (hbuffer : sectorCount fs = 0 ∨ ∀ l, (host.block (.extents l) fs.blockSize.toUInt64).isSome)
include hbuffer

theorem fits_getPhysicalBlock (inode : Ext4Inode) (lBlock : UInt32) (fuel : ℕ) :
    (ext4GetPhysicalBlock fs inode lBlock fuel).Asks host.answer Fits := by
  refine asks_ite (fun _ => ?_) fun _ => asks_ite (fun _ => asks_pure _)
    (fun _ => asks_pure _)
  refine asks_guard fun _ => ?_
  rw [fits_kmalloc_bind]
  refine fits_descend _ _ _ ?_
  rcases hbuffer with hz | hsome
  · rw [hz]
    exact Nat.zero_le _
  · rw [room_block, if_pos (hsome lBlock)]
    exact transfer_sectorCount fs

section

variable (hfits : transfer (sectorCount fs) ≤ block.size) (inode : Ext4Inode)
include hfits inode

theorem fits_copyBlocks (offset size : UInt64) (depth fuel : ℕ) (bytesRead : UInt64)
    (buffer : List UInt8) :
    (Ext4.copyBlocks fs inode offset size depth fuel block bytesRead buffer).Asks
      host.answer Fits := by
  induction fuel generalizing block bytesRead buffer with
  | zero => exact asks_stuck
  | succ fuel ih =>
    refine asks_ite (fun _ => ?_) fun _ => asks_pure _
    rw [asks_bind]
    refine ⟨fits_getPhysicalBlock hbuffer inode _ depth, fun pBlock _ => ?_⟩
    by_cases hz : pBlock = 0
    · rw [if_pos hz, asks_bind]
      refine ⟨asks_pure _, fun answer hanswer => ?_⟩
      cases hanswer
      have hcleared : transfer (sectorCount fs) ≤
        (Block.mk block.size (overlay fs.blockSize.toNat (fun _ => 0) block.bytes)).size := hfits
      exact ih hcleared _ _
    · rw [if_neg hz]
      refine fits_readBlock_bind pBlock hfits fun answer hsize => ?_
      cases answer with
      | none => exact asks_pure _
      | some block' => exact ih ((hsize block' rfl).symm ▸ hfits) _ _

theorem fits_scanBlocks (name : List UInt8) (depth n : ℕ) (i : UInt32) :
    (Ext4.scanBlocks fs inode name depth n i block).Asks host.answer Fits := by
  induction n generalizing block i with
  | zero => exact asks_pure _
  | succ n ih =>
    rw [Ext4.scanBlocks, asks_bind]
    refine ⟨fits_getPhysicalBlock hbuffer inode _ depth, fun pBlock _ => ?_⟩
    refine asks_guard fun _ => ?_
    refine fits_readBlock_bind pBlock hfits fun answer hsize => ?_
    cases answer with
    | none => exact asks_pure _
    | some block' =>
      simp only [Option.map_some]
      split
      · exact asks_pure _
      · exact ih ((hsize block' rfl).symm ▸ hfits) _

end

omit hbuffer in
theorem fits_readInode (inodeNum : UInt32) (old : Buffer) :
    (Ext4.ext4ReadInode fs inodeNum old).Asks host.answer Fits := by
  refine asks_guard fun _ => ?_
  refine asks_ite (fun _ => asks_stuck) fun _ => ?_
  rw [fits_kmalloc_bind]
  cases hblock : host.block .inode fs.blockSize.toUInt64 with
  | none => exact asks_pure _
  | some block =>
    have hfits : transfer (sectorCount fs) ≤ block.size := by
      rw [block_size hblock]
      exact transfer_sectorCount fs
    refine fits_readBlock_bind _ hfits fun answer hsize => ?_
    cases answer with
    | none => exact asks_pure _
    | some block' =>
      refine fits_readBlock_bind _ ((hsize block' rfl).symm ▸ hfits) fun answer' _ => ?_
      cases answer' with
      | none | some block'' => exact asks_pure _

omit hbuffer in
def Ext4Fits (fs : Ext4Info) (heap : Purpose → UInt64 → Option Buffer) : Prop :=
  ∀ (drive : AtaDrive) (inode : Ext4Inode) (lBlock inodeNum : UInt32) (old :
    Buffer) (name : List UInt8) (offset size : UInt64) (depth : ℕ),
    (ext4GetPhysicalBlock fs inode lBlock depth).Asks (Host.answer ⟨drive, heap⟩) Fits ∧
      (Ext4.ext4ReadInode fs inodeNum old).Asks (Host.answer ⟨drive, heap⟩) Fits ∧
      (Ext4.ext4Read fs inode offset size depth).Asks (Host.answer ⟨drive, heap⟩) Fits ∧
      (Ext4.ext4Finddir fs inode name depth).Asks (Host.answer ⟨drive, heap⟩) Fits

omit hbuffer in
theorem ext4Fits_iff (heap : Purpose → UInt64 → Option Buffer) (drive : AtaDrive) :
    Ext4Fits fs heap ↔ sectorCount fs = 0 ∨
      ∀ l, (Host.block ⟨drive, heap⟩ (.extents l) fs.blockSize.toUInt64).isSome := by
  constructor
  · intro h
    by_cases hz : sectorCount fs = 0
    · exact .inl hz
    refine .inr fun l => ?_
    -- A lookup that has to read block 5.
    have hlookup := (h drive ExtentTrees.smallInode l 0 (fun _ => 0) [] 0 0 1).1
    have htgt : Ext4.targetPhy (Ext4.indexes ExtentTrees.smallInode.block) l = 5 := by
      show (if l ≥ 0 then (5 : UInt64) else 0) = 5
      exact if_pos UInt32.zero_le
    rw [ext4GetPhysicalBlock, if_pos (by decide), if_neg (by decide), fits_kmalloc_bind, descend,
      if_pos (by decide), htgt, if_neg (by decide), asks_bind] at hlookup
    have hroom := fits_diskReadInto.mp hlookup.1
    rw [room_block] at hroom
    split at hroom
    · assumption
    · refine absurd (UInt8.toNat_inj.mp ?_) hz
      change transfer (sectorCount fs) ≤ 0 at hroom
      simp only [transfer] at hroom
      change (sectorCount fs).toNat = 0
      omega
  · intro hbuffer drive' inode lBlock inodeNum old name offset size depth
    have hbuffer' : sectorCount fs = 0 ∨
        ∀ l, (Host.block ⟨drive', heap⟩ (.extents l) fs.blockSize.toUInt64).isSome := hbuffer
    have hblock : ∀ block, Host.block ⟨drive', heap⟩ .buffer fs.blockSize.toUInt64 = some block →
        transfer (sectorCount fs) ≤ block.size := by
      intro block h
      rw [block_size h]
      exact transfer_sectorCount fs
    refine ⟨fits_getPhysicalBlock hbuffer' inode lBlock depth, fits_readInode inodeNum old, ?_, ?_⟩
    · refine asks_guard fun _ => ?_
      rw [fits_kmalloc_bind]
      cases hcase : Host.block ⟨drive', heap⟩ .buffer fs.blockSize.toUInt64 with
      | none => exact asks_pure _
      | some block => exact fits_copyBlocks hbuffer' (hblock block hcase) inode offset _ depth _ _ _
    · refine asks_guard fun _ => ?_
      rw [fits_kmalloc_bind]
      cases hcase : Host.block ⟨drive', heap⟩ .buffer fs.blockSize.toUInt64 with
      | none => exact asks_pure _
      | some block =>
        refine asks_bind.mpr ⟨fits_scanBlocks hbuffer' (hblock block hcase) inode name
          depth _ 0, ?_⟩
        intro found _
        cases found with
        | none => exact asks_pure _
        | some entry =>
          refine asks_bind.mpr ⟨?_, fun _ _ => asks_pure _⟩
          simp only [Ext4.makeChild, asks_bind]
          exact ⟨fits_kmallocUnchecked, fun _ _ => ⟨fits_kmallocUnchecked, fun _ _ =>
            ⟨fits_readInode _ _, fun _ _ => ⟨fits_kmallocUnchecked, fun _ _ => asks_pure _⟩⟩⟩⟩

end

theorem isSome_block_iff (host : Host) (use : Purpose) (size : UInt64) :
    (host.block use size).isSome ↔ size ≠ 0 ∧ (host.heap use size).isSome := by
  rw [Host.block, Host.stale]
  by_cases hz : size = 0
  · simp [hz]
  · simp [hz]

theorem toUInt64_ne_zero (n : UInt32) : n.toUInt64 ≠ 0 ↔ n ≠ 0 := by
  refine not_congr ⟨fun h => ?_, fun h => by rw [h]; rfl⟩
  have hnat := congrArg UInt64.toNat h
  exact UInt32.toNat_inj.mp hnat

/-- For every volume that the drivers mount, all their later reads fit exactly if: FAT32 clusters
have 512 bytes for each sector and the heap has a buffer for one; NTFS records have a sector at
least, if the heap has a buffer for one; the heap has a buffer for the ext4 block of each lookup. -/
theorem disk_reads_fit_iff (heap : Purpose → UInt64 → Option Buffer) (host : Host) (lba : UInt64) :
    (∀ fs root, (fat32Mount lba).run host.answer = some (some (fs, root)) →
        (FatFits fs heap ↔ fs.sectorsPerCluster = 0 ∨
          512 * fs.sectorsPerCluster.toNat ≤ fs.bytesPerCluster.toNat ∧
            (heap .buffer fs.bytesPerCluster.toUInt64).isSome)) ∧
      (∀ fs root, (ntfsMount lba).run host.answer = some (some (fs, root)) →
        (NtfsFits fs heap ↔ fs.mftRecordSize = 0 ∨ heap .record fs.mftRecordSize.toUInt64 = none ∨
          512 ≤ fs.mftRecordSize.toNat)) ∧
      (∀ stale fs root, (Ext4.ext4Mount lba stale).run host.answer = some (some (fs, root)) →
        (Ext4Fits fs heap ↔
          sectorCount fs = 0 ∨ ∀ l, (heap (.extents l) fs.blockSize.toUInt64).isSome)) := by
  refine ⟨?_, ?_, ?_⟩
  · intro fs root hmount
    obtain ⟨pbr, -, rfl⟩ := fat32Mount_fs hmount
    have hnum : transfer (pbr.fs lba).sectorsPerCluster.toUInt8 =
        512 * (pbr.fs lba).sectorsPerCluster.toNat := by
      simp [Fat32Pbr.fs, transfer]
    rw [fatFits_iff _ heap host.drive, room_block, hnum]
    generalize pbr.fs lba = fs
    by_cases hnone : fs.sectorsPerCluster = 0
    · simp [hnone]
    have hpos : 0 < fs.sectorsPerCluster.toNat :=
      Nat.pos_of_ne_zero fun h => hnone (UInt32.toNat_inj.mp h)
    simp only [isSome_block_iff, toUInt64_ne_zero, hnone, false_or, UInt32.toNat_toUInt64]
    by_cases hserv : fs.bytesPerCluster ≠ 0 ∧ (heap .buffer fs.bytesPerCluster.toUInt64).isSome
    · rw [if_pos hserv]
      exact ⟨fun h => ⟨h, hserv.2⟩, fun h => h.1⟩
    · rw [if_neg hserv]
      constructor
      · intro h
        omega
      · intro h
        refine absurd ⟨?_, h.2⟩ hserv
        intro hz
        have hfits := h.1
        rw [hz, UInt32.toNat_zero] at hfits
        omega
  · intro fs root hmount
    obtain ⟨bpb, hacc, rfl⟩ := ntfsMount_fs hmount
    have hsector : 512 ≤ (bpb.fs lba).bytesPerSector.toNat := by
      exact accepted_sector hacc
    rw [ntfsFits_iff heap host.drive hsector (accepted_cluster hacc),
      ← Option.not_isSome_iff_eq_none, isSome_block_iff, toUInt64_ne_zero, not_and_or, not_not,
        Option.not_isSome_iff_eq_none, or_assoc]
  · intro stale fs root _
    simp only [ext4Fits_iff heap host.drive, isSome_block_iff, toUInt64_ne_zero]
    by_cases hz : fs.blockSize = 0
    · have hnum : sectorCount fs = 0 := by
        rw [sectorCount, hz]
        rfl
      simp [hnum]
    · simp [hz]

def smallSectorHost : Host where
  drive :=
    { type := .ata
      ataReadSectors := fun _ _ => some ([0xEB, 0, 0] ++ List.replicate 8 0 ++ [0, 1, 1, 1, 0, 1] ++
        List.replicate 19 0 ++ [1, 0, 0, 0] ++ List.replicate 4 0 ++ [2, 0, 0, 0])
      ahciReadSectors := fun _ _ => none }
  heap := fun _ _ => some fun _ => 0

def smallSectorFs : Fat32Fs where
  fatLba := 1
  dataLba := 2
  sectorsPerCluster := 1
  bytesPerCluster := 256

def smallSectorRoot : Fat32Child where
  name := []
  length := 0
  node := { flags := 2, firstCluster := 2, fileSize := 0 }

/-- Listing the root directory of the mounted volume reads a sector into 256 bytes. -/
theorem small_sectors_overflow :
    (fat32Mount 0).run smallSectorHost.answer = some (some (smallSectorFs, smallSectorRoot)) ∧
      Request.sectors 2 1 256 ∈ (fat32Readdir smallSectorFs smallSectorRoot.node 0 1).asked
        smallSectorHost.answer ∧ ¬ Fits (.sectors 2 1 256) := ⟨rfl, by decide, by decide⟩

end NexusKernel.BufferFits
