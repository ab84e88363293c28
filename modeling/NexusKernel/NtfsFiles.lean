import NexusKernel.RunLists

/-!
`ntfs_read` returns the content of a file with data runs: the record is restored from its update
sequence, its first data attribute found and the runs followed. Without memory for the record or
for a cluster, nothing is read.
-/

namespace NexusKernel.NtfsFiles

open Lib.Programs Lib.Iterations Lib.MemoryTasks Lib.SignedFields ElfLoader
  DiskPrograms Ntfs
open MetadataWalks NtfsRecords ClusterReads RunLists Host Program Function
open Fat32 (AtaDrive)

def restored (raw : Buffer) (usa sectors : ℕ) : Buffer := fun k =>
  if k < 512 * sectors ∧ 510 ≤ k % 512
    then raw (usa + 2 * (k / 512 + 1) + (k % 512 - 510)) else raw k

/-- The array has no end of a sector in it, so the order of the repairs does not matter. -/
theorem fixedTo_eq_restored (raw : Buffer) {usa sectors : ℕ}
    (harray : ∀ k, usa ≤ k → k < usa + 2 * (sectors + 1) → k % 512 < 510) :
    fixedTo raw usa sectors = restored raw usa sectors := by
  induction sectors with
  | zero =>
    funext k
    rfl
  | succ i ih =>
    have hword : ∀ j, usa ≤ j → j < usa + 2 * (i + 2) → restored raw usa i j = raw j := by
      intro j hlow hj
      have hj := harray j hlow hj
      rw [restored, if_neg (by omega)]
    funext k
    rw [fixedTo, ih (fun k hlow hk => harray k hlow (by omega)), hword _ (by omega) (by omega),
      hword _ (by omega) (by omega)]
    by_cases hlast : k = 512 * (i + 1) - 1
    · rw [hlast, update_self, restored, if_pos (by omega)]
      exact congrArg raw (by omega)
    rw [update_of_ne hlast]
    by_cases hlast' : k = 512 * (i + 1) - 2
    · rw [hlast', update_self, restored, if_pos (by omega)]
      exact congrArg raw (by omega)
    rw [update_of_ne hlast', restored, restored]
    by_cases hend : k < 512 * i ∧ 510 ≤ k % 512
    · rw [if_pos hend, if_pos (by omega)]
    · rw [if_neg hend, if_neg (by omega)]

structure Intact (recordSize : UInt32) (raw : Buffer) (sectors : ℕ) : Prop where
  size : recordSize.toNat = 512 * sectors
  magic : raw.u32 0 = fileMagic
  count : (raw.u16 6).toNat = sectors + 1
  array : usaOffset raw + 2 * (sectors + 1) ≤ 510
  ends : ∀ j < sectors, raw.u16 (512 * (j + 1) - 2) = raw.u16 (usaOffset raw)

section

variable {recordSize : UInt32} {raw buffer : Buffer} {sectors : ℕ}

theorem restored_agree {usa k : ℕ} (hagree : ∀ k < 512 * sectors, buffer k = raw k)
    (hin : usa + 2 * (sectors + 1) ≤ 512 * sectors) (hk : k < 512 * sectors) :
    restored buffer usa sectors k = restored raw usa sectors k := by
  unfold restored
  split_ifs
  · exact hagree _ (by omega)
  · exact hagree k hk

section

variable (h : Intact recordSize raw sectors)
include h

theorem Intact.agree (hpos : 0 < sectors)
    (hagree : ∀ k < 512 * sectors, buffer k = raw k) : Intact recordSize buffer sectors ∧
    ∀ k < 512 * sectors, restored buffer (usaOffset buffer) sectors k =
      restored raw (usaOffset raw) sectors k := by
  have husa : usaOffset buffer = usaOffset raw := by
    rw [usaOffset, usaOffset, u16_agree hagree (by omega)]
  have harray := h.array
  refine ⟨⟨h.size, ?_, ?_, ?_, ?_⟩, ?_⟩
  · exact (u32_agree hagree (by omega)).trans h.magic
  · rw [u16_agree hagree (by omega)]
    exact h.count
  · rw [husa]
    exact h.array
  · intro j hj
    rw [husa, u16_agree hagree (by omega), u16_agree hagree (by omega)]
    exact h.ends j hj
  · intro k hk
    rw [husa]
    exact restored_agree hagree (by omega) hk

theorem Intact.fixups : fixups recordSize raw = sectors := by
  rw [NtfsRecords.fixups, h.count, h.size]
  omega

theorem Intact.fixedRecord : fixedRecord recordSize raw = restored raw (usaOffset raw) sectors := by
  have harray := h.array
  rw [NtfsRecords.fixedRecord, h.fixups, fixedTo_eq_restored raw (fun _ _ _ => by omega)]

end

end

inductive FirstAttr (record : Buffer) (size : ℕ) (type : UInt32) : ℕ → ℕ → Prop
  | here {off : ℕ} : off + 16 ≤ size → record.u32 (off + 4) ≠ 0 → record.u32 off = type →
      FirstAttr record size type off off
  | later {off attr : ℕ} : off + 16 ≤ size → record.u32 (off + 4) ≠ 0 → record.u32 off ≠ type →
      record.u32 off ≠ 0xFFFFFFFF →
        FirstAttr record size type (off + (record.u32 (off + 4)).toNat) attr →
      FirstAttr record size type off attr

section

variable {record buffer : Buffer} {recordSize type : UInt32} {off attr : ℕ}

theorem FirstAttr.inside {size : ℕ} (h : FirstAttr record size type off attr) :
    off + 16 ≤ size := by
  cases h with
  | here hsize | later hsize => exact hsize

theorem FirstAttr.found (h : FirstAttr record recordSize.toNat type off attr)
    (htype : type ≠ 0xFFFFFFFF)
    (off' : UInt32) (hoff : off'.toNat = off) : ∃ fuel attr', attr'.toNat = attr ∧
    iterate (attrRound record type recordSize) fuel off' = some (some attr') := by
  induction h generalizing off' with
  | @here off hsize hlen hhere =>
    refine ⟨1, off', hoff, ?_⟩
    rw [iterate, attrRound, hoff, if_pos hsize, if_neg (hhere ▸ htype), if_neg hlen, if_pos hhere]
    rfl
  | @later off attr hsize hlen hother hend hlater ih =>
    have hin := hlater.inside
    have htop := recordSize.toNat_lt
    have hnext : (off' + record.u32 (off + 4)).toNat = off + (record.u32 (off + 4)).toNat := by
      rw [UInt32.toNat_add]
      omega
    obtain ⟨fuel, attr', hattr, hfound⟩ := ih _ hnext
    refine ⟨fuel + 1, attr', hattr, ?_⟩
    rw [iterate, attrRound, hoff, if_pos hsize, if_neg hend, if_neg hlen, if_neg hother]
    exact hfound

theorem attrRound_agree (hagree : ∀ k < recordSize.toNat, buffer k = record k) :
    attrRound buffer type recordSize = attrRound record type recordSize := by
  funext off
  unfold attrRound
  by_cases hin : off.toNat + 16 ≤ recordSize.toNat
  · rw [u32_agree hagree (by omega : off.toNat + 4 ≤ _),
      u32_agree hagree (by omega : off.toNat + 4 + 4 ≤ _)]
  · rw [if_neg hin, if_neg hin]

end

def recordLba (fs : NtfsFs) (node : NtfsNode) : ℕ :=
  fs.mftLba.toNat + node.mftRecordNumber.toNat * (fs.mftRecordSize.toNat / 512)

def rawRecord (disk : Disk) (fs : NtfsFs) (node : NtfsNode) : Buffer :=
    fun k => disk (512 * recordLba fs node + k)

def fileRecord (disk : Disk) (fs : NtfsFs) (node : NtfsNode) : Buffer :=
  restored (rawRecord disk fs node) (usaOffset (rawRecord disk fs node))
    (fs.mftRecordSize.toNat / 512)

structure NtfsFile (disk : Disk) (fs : NtfsFs) (total : ℕ) (node : NtfsNode) (attr : ℕ)
    (runs : List Run) : Prop where
  flags : node.flags &&& Vfs.fsFile = Vfs.fsFile
  place : recordLba fs node + fs.mftRecordSize.toNat / 512 ≤ total
  intact : Intact fs.mftRecordSize (rawRecord disk fs node) (fs.mftRecordSize.toNat / 512)
  first : FirstAttr (fileRecord disk fs node) fs.mftRecordSize.toNat attrData
    ((fileRecord disk fs node).u16 20).toNat attr
  nonResident : fileRecord disk fs node (attr + 8) ≠ 0
  header : attr + 34 ≤ fs.mftRecordSize.toNat
  encoded : Encoded (fileRecord disk fs node) fs.mftRecordSize.toNat
    (attr + ((fileRecord disk fs node).u16 (attr + 32)).toNat) runs
  fits : totalClusters runs * fs.clusterSize.toNat < 2 ^ 64
  covers : node.fileSize.toNat ≤ totalClusters runs * fs.clusterSize.toNat
  placed : Placed fs total runs

section

variable {host : Host} {fs : NtfsFs} {disk : Disk} {total attr : ℕ} {node : NtfsNode}
  {runs : List Run}

theorem Encoded.agree {record buffer : Buffer} {size pos : ℕ} (h : Encoded record size pos runs)
    (hagree : ∀ k < size, buffer k = record k) : Encoded buffer size pos runs := by
  induction h with
  | nil hpos hz => exact .nil hpos ((hagree _ hpos).trans hz)
  | @cons pos rest lenBytes offBytes hlen hlen' hoff hpos hhead _ ih =>
    have hrun : runAt record pos lenBytes offBytes = runAt buffer pos lenBytes offBytes := by
      rw [runAt, runAt, unsigned_agree hagree (by omega), signed, signed,
        unsigned_agree hagree (by omega)]
    rw [hrun]
    exact .cons lenBytes offBytes hlen hlen' hoff hpos ((hagree pos (by omega)) ▸ hhead) ih

theorem run_readRecord (hsector : fs.bytesPerSector = 512) (hlow : 512 * total ≤ 2 ^ 64)
    (hdisk : Working host.drive disk total) {sectors : ℕ}
    (hsize : fs.mftRecordSize.toNat = 512 * sectors)
    (hpos : 0 < sectors) (hfew : sectors < 256) (hplace : recordLba fs node + sectors ≤ total)
    (block : Block) : ∃ block' : Block, (readRecord fs node.mftRecordNumber block).run host.answer =
      some (some (some block')) ∧
      ∀ k < fs.mftRecordSize.toNat, block'.bytes k = rawRecord disk fs node k := by
  have hsectors : fs.mftRecordSize.toNat / 512 = sectors := by omega
  have hbps : fs.bytesPerSector.toNat = 512 := by rw [hsector]; rfl
  have hnum : (fs.mftRecordSize / fs.bytesPerSector).toUInt8.toNat = sectors := by
    rw [UInt32.toNat_toUInt8, UInt32.toNat_div, hbps]
    omega
  have hcount' : (sectorsOf fs fs.mftRecordSize).toNat = sectors := by
    have hne : (fs.mftRecordSize / fs.bytesPerSector).toUInt8 ≠ 0 := by
      intro hz
      rw [hz] at hnum
      simp at hnum
      omega
    simp only [sectorsOf, if_neg hne, hnum]
  have hlba : (fs.mftLba + node.mftRecordNumber * fs.mftRecordSize.toUInt64 /
    fs.bytesPerSector.toUInt64).toNat = recordLba fs node := by
    have hbyte : node.mftRecordNumber.toNat * fs.mftRecordSize.toNat =
        512 * (node.mftRecordNumber.toNat * sectors) := by
      rw [hsize, Nat.mul_left_comm]
    rw [recordLba, hsectors] at hplace
    rw [UInt64.toNat_add, UInt64.toNat_div, UInt64.toNat_mul, UInt32.toNat_toUInt64,
      UInt32.toNat_toUInt64, hbps, recordLba, hsectors]
    omega
  obtain ⟨data, hdata, hbytes⟩ := sectors_working hdisk
    (fs.mftLba + node.mftRecordNumber * fs.mftRecordSize.toUInt64 / fs.bytesPerSector.toUInt64)
    (sectorsOf fs fs.mftRecordSize) (by omega) (by omega)
  refine ⟨block.store (sectorsOf fs fs.mftRecordSize) data, ?_, fun k hk => ?_⟩
  · have hnonzero : fs.bytesPerSector ≠ 0 := by rw [hsector]; decide
    simp only [readRecord, if_neg hnonzero, run_diskReadInto, hdata]
    rfl
  · rw [store_inside _ _ _ (by rw [transfer]; omega), hbytes k (by omega), hlba]
    rfl

/-- What the search comes to: the place of the runs, and the restored record. -/
theorem run_readTask (hfile : NtfsFile disk fs total node attr runs) (offset size : UInt64) :
    ∃ bound, ∀ fuel ≥ bound, ∀ buffer :
      Buffer, (∀ k < fs.mftRecordSize.toNat, buffer k = rawRecord disk fs node k) →
      ∃ record : Buffer, (∀ k < fs.mftRecordSize.toNat, record k = fileRecord disk fs node k) ∧
        (readTask fs.mftRecordSize offset size fuel).run (memory buffer) =
          (some (some (.inr (attr + ((fileRecord disk fs node).u16 (attr + 32)).toNat))),
            setRecord (memory buffer) record) := by
  have hhead := hfile.header
  have hsize := hfile.intact.size
  -- The rounds of the search depend on the record only.
  obtain ⟨bound, attr', hattr, hfound⟩ := hfile.first.found (by decide)
    ((fileRecord disk fs node).u16 20).toUInt32 (UInt16.toNat_toUInt32 _)
  refine ⟨bound, fun fuel hfuel buffer hbuffer => ?_⟩
  obtain ⟨hintact, hagree⟩ := hfile.intact.agree (by omega) fun k hk => hbuffer k (hsize ▸ hk)
  rw [← hsize, ← hintact.fixedRecord] at hagree
  have hfound' :
    iterate (attrRound (fixedRecord fs.mftRecordSize buffer) attrData fs.mftRecordSize) fuel
      ((fixedRecord fs.mftRecordSize buffer).u16 20).toUInt32 = some (some attr') := by
    rw [attrRound_agree hagree, u16_agree hagree (by omega)]
    exact iterate_mono (fun _ _ hturn => hturn) hfound hfuel
  have hrun := run_onAttr (memory buffer) ⟨hintact.magic,
    fun j hj => hintact.ends j (hintact.fixups ▸ hj)⟩ hfound'
    (fun attr => dataOf attr offset size >>= fun data => pure (some (some data)))
  rw [setRecord_memory] at hrun
  refine ⟨fixedRecord fs.mftRecordSize buffer, hagree, ?_⟩
  refine hrun.trans ?_
  have hresid : recordOf (setRecord (memory buffer) (fixedRecord fs.mftRecordSize buffer))
      (attr'.toNat + 8) ≠ 0 := by
    rw [recordOf_setRecord, hattr, hagree _ (by omega)]
    exact hfile.nonResident
  rw [dataOf, Task.run_bind, Task.run_bind, run_load8, if_neg hresid, Task.run_bind, run_load16,
    recordOf_setRecord, hattr, u16_agree hagree (by omega)]
  rfl

def readable (node : NtfsNode) (offset size : UInt64) : ℕ :=
    min size.toNat (node.fileSize.toNat - offset.toNat)

def Served (host : Host) (fs : NtfsFs) : Prop :=
  (host.block .record fs.mftRecordSize.toUInt64).isSome ∧
    (host.block .buffer fs.clusterSize.toUInt64).isSome

instance (host : Host) (fs : NtfsFs) : Decidable (Served host fs) :=
    inferInstanceAs (Decidable (_ ∧ _))

section

variable (hgeo : NtfsGeometry fs total) (hdisk : Working host.drive disk total)
    (hfile : NtfsFile disk fs total node attr runs)
include hgeo hdisk hfile

theorem run_withRecord (offset size : UInt64) : ∃ bound, ∀ fuel ≥ bound,
    if (host.block .record fs.mftRecordSize.toUInt64).isSome then
      ∃ record : Buffer, (∀ k < fs.mftRecordSize.toNat, record k = fileRecord disk fs node k) ∧
        (withRecord fs node.mftRecordNumber (readTask fs.mftRecordSize offset size fuel)).run
          host.answer =
          some (some (.inr (attr + ((fileRecord disk fs node).u16 (attr + 32)).toNat), record))
    else
      (withRecord fs node.mftRecordNumber (readTask fs.mftRecordSize offset size fuel)).run
        host.answer = some none := by
  obtain ⟨bound, htask⟩ := run_readTask hfile offset size
  refine ⟨bound, fun fuel hfuel => ?_⟩
  rw [withRecord, run_bind, run_kmalloc]
  cases hblock : host.block .record fs.mftRecordSize.toUInt64 with
  | none =>
    rfl
  | some block =>
    have hhead := hfile.header
    have hsize := hfile.intact.size
    have harray := hfile.intact.array
    obtain ⟨block', hread, hbytes⟩ :=
      run_readRecord hgeo.sector hgeo.below hdisk hsize (by omega) (by omega) hfile.place block
    obtain ⟨record, hrec, hrun⟩ := htask fuel hfuel block'.bytes hbytes
    refine ⟨record, hrec, ?_⟩
    simp only [run_bind, hread, Option.bind_some, hrun]
    rfl

theorem run_ntfsRead {offset size : UInt64} (hsum : offset.toNat + size.toNat < 2 ^ 64) :
    ∃ bound, ∀ fuel ≥ bound, (ntfsRead fs node offset size fuel).run host.answer =
      some (if readable node offset size = 0 ∨ Served host fs then
        (UInt64.ofNat (readable node offset size),
          bytesFrom (fileByte disk fs runs) offset.toNat (readable node offset size))
      else (0, [])) := by
  have hcovers := hfile.covers
  have hfits := hfile.fits
  by_cases hbeyond : offset ≥ node.fileSize
  · have hle := UInt64.le_iff_toNat_le.mp hbeyond
    have hnone : readable node offset size = 0 := by rw [readable]; omega
    refine ⟨0, fun fuel _ => ?_⟩
    rw [ntfsRead, if_neg (not_not_intro hfile.flags), if_pos hbeyond, hnone]
    rfl
  have hlt : offset.toNat < node.fileSize.toNat :=
    UInt64.lt_iff_toNat_lt.mp (UInt64.not_le.mp hbeyond)
  have hclipped := clipped_toNat hsum hlt
  obtain ⟨bound, hrec⟩ := run_withRecord hgeo hdisk hfile offset
    (if offset + size > node.fileSize then node.fileSize - offset else size)
  refine ⟨max bound (runs.length + 1), fun fuel hfuel => ?_⟩
  specialize hrec fuel (by omega)
  rw [ntfsRead, if_neg (not_not_intro hfile.flags), if_neg hbeyond]
  generalize (if offset + size > node.fileSize then node.fileSize - offset else size) =
    clipped at hclipped hrec
  have hnum : clipped.toNat = readable node offset size := hclipped
  rw [← hnum, UInt64.ofNat_toNat]
  by_cases hz : clipped = 0
  · rw [if_pos hz, hz]
    rfl
  have hnonzero : clipped.toNat ≠ 0 := fun h => hz (UInt64.toNat_inj.mp h)
  rw [if_neg hz, run_bind]
  by_cases hfirst : (host.block .record fs.mftRecordSize.toUInt64).isSome
  swap
  · rw [if_neg hfirst] at hrec
    rw [hrec, if_neg (fun h => h.elim hnonzero (fun hserv => hfirst hserv.1))]
    rfl
  rw [if_pos hfirst] at hrec
  obtain ⟨record, hagree, hrun⟩ := hrec
  rw [hrun, Option.bind_some, run_bind, run_kmalloc, Option.bind_some]
  cases hblock : host.block .buffer fs.clusterSize.toUInt64 with
  | none =>
    rw [if_neg (fun h => h.elim hnonzero (fun hserv => by simp [Served, hblock] at hserv))]
    rfl
  | some clusterBuf =>
    rw [if_pos (.inr ⟨hfirst, by rw [hblock]; rfl⟩)]
    have hzeroNat : (0 : UInt64).toNat = 0 := rfl
    refine run_walkRuns hgeo hdisk hfile.placed (Encoded.agree hfile.encoded hagree)
      (by omega) fuel (by omega) clusterBuf 0 0 0 ?_ ?_ ?_ ?_
    · intro v
      rw [hzeroNat, Nat.zero_add]
    · rw [hzeroNat, Nat.zero_add]
      exact hfits
    · rw [hzeroNat, Nat.zero_add]
      omega
    · rw [hzeroNat]
      omega

end

/-- `ntfs_read` returns the bytes of the clusters of a file's runs, exactly if there is nothing to
read or the heap has the two buffers; without them it returns nothing. -/
theorem ntfs_read_follows_runs (hgeo : NtfsGeometry fs total)
    (hdisk : Working host.drive disk total)
    (hfile : NtfsFile disk fs total node attr runs) {offset size : UInt64}
    (hsum : offset.toNat + size.toNat < 2 ^ 64) : ∃ bound, ∀ fuel ≥ bound,
    ((ntfsRead fs node offset size fuel).run host.answer =
      some (UInt64.ofNat (readable node offset size),
          bytesFrom (fileByte disk fs runs) offset.toNat (readable node offset size)) ↔
      readable node offset size = 0 ∨ Served host fs) ∧
    (¬ (readable node offset size = 0 ∨ Served host fs) →
      (ntfsRead fs node offset size fuel).run host.answer = some (0, [])) := by
  obtain ⟨bound, hrun⟩ := run_ntfsRead hgeo hdisk hfile hsum
  refine ⟨bound, fun fuel hfuel => ?_⟩
  rw [hrun fuel hfuel]
  by_cases hserv : readable node offset size = 0 ∨ Served host fs
  · rw [if_pos hserv]
    exact ⟨iff_of_true rfl hserv, fun h => absurd hserv h⟩
  · rw [if_neg hserv]
    refine ⟨iff_of_false (fun h => hserv (.inl ?_)) hserv, fun _ => rfl⟩
    have hlen := congrArg List.length (Prod.mk.inj (Option.some.inj h)).2
    rw [length_bytesFrom] at hlen
    exact hlen.symm

end

def smallFs : NtfsFs where
  lbaStart := 0
  mftLba := 0
  mftRecordSize := 512
  clusterSize := 512
  bytesPerSector := 512

def smallBytes : List (ℕ × UInt8) :=
  [(0, 0x46), (1, 0x49), (2, 0x4C), (3, 0x45), (4, 48), (6, 2), (20, 56), (48, 1), (510, 1),
    (56, 0x80), (60, 72), (64, 1), (88, 64), (120, 0x11), (121, 1), (122, 1), (123, 0x01), (124, 1)]

def smallDisk : Disk := fun k => if k < 512 then (smallBytes.lookup k).getD 0 else 7

def smallDrive : AtaDrive where
  type := .ata
  ataReadSectors lba count := some (sectorBytes smallDisk lba.toNat count.toNat)
  ahciReadSectors _ _ := none

def smallNode : NtfsNode where
  flags := Vfs.fsFile
  mftRecordNumber := 0
  fileSize := 700

def smallRuns : List Run := [⟨1, some 1⟩, ⟨1, none⟩]

theorem smallGeometry : NtfsGeometry smallFs 2 where
  sector := rfl
  cluster := ⟨1, le_rfl, by omega, rfl⟩
  below := by omega

theorem smallWorking : Working smallDrive smallDisk 2 := fun _ _ _ _ => rfl

theorem smallPlaced : Placed smallFs 2 smallRuns := by
  intro v lcn hlcn
  have hv : v = 0 ∧ lcn = 1 := by
    simp [smallRuns, lcnOf] at hlcn
    omega
  obtain ⟨rfl, rfl⟩ := hv
  exact ⟨by omega, by decide⟩

theorem smallFile : NtfsFile smallDisk smallFs 2 smallNode 56 smallRuns where
  flags := by decide
  place := by decide
  intact := by
    refine ⟨by decide, by decide, by decide, by decide, ?_⟩
    decide
  first := .here (by decide) (by decide) (by decide)
  nonResident := by decide
  header := by decide
  encoded := by
    refine .cons 1 1 (by omega) (by omega) (by omega) (by decide) (by decide) ?_
    refine .cons 1 0 (by omega) (by omega) (by omega) (by decide) (by decide) ?_
    exact .nil (by decide) (by decide)
  fits := by decide
  covers := by decide
  placed := smallPlaced

theorem ntfs_read_follows_runs_small : smallNode.fileSize = 700 ∧ ∃ bound, ∀ fuel ≥ bound,
    ((ntfsRead smallFs smallNode 510 4 fuel).run
      (Host.mk smallDrive (fun _ _ => some (fun _ => 0))).answer =
        some (UInt64.ofNat (readable smallNode 510 4),
          bytesFrom (fileByte smallDisk smallFs smallRuns)
            (510 : UInt64).toNat (readable smallNode 510 4)) ↔ readable smallNode 510 4 = 0 ∨
        Served (Host.mk smallDrive (fun _ _ => some (fun _ => 0))) smallFs) ∧
    (¬ (readable smallNode 510 4 = 0 ∨
      Served (Host.mk smallDrive (fun _ _ => some (fun _ => 0))) smallFs) →
      (ntfsRead smallFs smallNode 510 4 fuel).run
        (Host.mk smallDrive (fun _ _ => some (fun _ => 0))).answer = some (0, [])) :=
  ⟨rfl, ntfs_read_follows_runs smallGeometry smallWorking smallFile (by decide)⟩

example : bytesFrom (fileByte smallDisk smallFs smallRuns) 510 4 = [7, 7, 0, 0] := by decide

/-- Without any memory, no byte of the file is returned. -/
theorem ntfs_read_without_memory : NtfsGeometry smallFs 2 ∧ Working smallDrive smallDisk 2 ∧
    NtfsFile smallDisk smallFs 2 smallNode 56 smallRuns ∧ readable smallNode 510 4 = 4 ∧
    ∃ bound, ∀ fuel ≥ bound,
      (ntfsRead smallFs smallNode 510 4 fuel).run (Host.mk smallDrive (fun _ _ => none)).answer =
        some (0, []) := by
  have hsum : (510 : UInt64).toNat + (4 : UInt64).toNat < 2 ^ 64 := by decide
  have hworking : Working (mk smallDrive (fun _ _ => none)).drive smallDisk 2 := smallWorking
  obtain ⟨bound, hrun⟩ := run_ntfsRead smallGeometry hworking smallFile hsum
  refine ⟨smallGeometry, smallWorking, smallFile, by decide, bound, fun fuel hfuel => ?_⟩
  rw [hrun fuel hfuel, if_neg (by decide)]

/-! ### Update sequences -/

/-- `ntfs_read_mft_record`; `none` stands for the result 0. -/
def ntfsReadMftRecord (fs : NtfsFs) (recNum : UInt64) (buf : Block) : Call (Option Buffer) := do
  match ← readRecord fs recNum buf with
  | some (some buf) =>
      let out := (fixup fs.mftRecordSize).run (memory buf.bytes)
      pure (if out.1 then some (recordOf out.2) else none)
  | _ => pure none

/-- A record whose update sequence array is inside it and meets no end of a sector. -/
structure Protected (recordSize : UInt32) (raw : Buffer) (sectors : ℕ) : Prop where
  size : recordSize.toNat = 512 * sectors
  pos : 0 < sectors
  small : sectors ≤ 128
  magic : raw.u32 0 = fileMagic
  count : (raw.u16 6).toNat = sectors + 1
  inside : usaOffset raw + 2 * (sectors + 1) ≤ 512 * sectors
  avoids : ∀ k, usaOffset raw ≤ k → k < usaOffset raw + 2 * (sectors + 1) → k % 512 < 510

abbrev Saved (usa sectors k : ℕ) : Prop := usa + 2 ≤ k ∧ k < usa + 2 * (sectors + 1)

/-- The image of a record: the last word of each sector is moved to the array, and the sequence
number is in its place. -/
def sealedImage (record : Buffer) (usa sectors : ℕ) : Buffer := fun k =>
  if Saved usa sectors k then record (512 * ((k - usa) / 2) - 2 + (k - usa) % 2)
  else if k < 512 * sectors ∧ 510 ≤ k % 512 then record (usa + k % 2)
  else record k

section

variable {record buffer : Buffer} {sectors usa : ℕ}

theorem restored_sealedImage {k : ℕ} (hk : k < 512 * sectors) (hsaved : ¬ Saved usa sectors k) :
    restored (sealedImage record usa sectors) usa sectors k = record k := by
  unfold restored
  split
  · rw [sealedImage, if_pos (by omega)]
    exact congrArg record (by omega)
  · rename_i hend
    rw [sealedImage, if_neg hsaved, if_neg hend]

theorem sealedImage_ends (havoids : ∀ k, usa ≤ k → k < usa + 2 * (sectors + 1) → k % 512 < 510)
    {j : ℕ} (hj : j < sectors) : (sealedImage record usa sectors).u16 (512 * (j + 1) - 2) =
      (sealedImage record usa sectors).u16 usa := by
  have hword : ∀ b < 2, sealedImage record usa sectors (512 * (j + 1) - 2 + b) =
      sealedImage record usa sectors (usa + b) := by
    intro b hb
    have hseq := havoids (usa + b) (by omega) (by omega)
    have hend := havoids (512 * (j + 1) - 2 + b)
    rw [sealedImage, if_neg (by omega), if_pos (by omega), sealedImage, if_neg (by omega),
      if_neg (by omega)]
    exact congrArg record (by omega)
  have hfirst := hword 0 (by omega)
  simp only [Nat.add_zero] at hfirst
  simp only [Buffer.u16, hfirst, hword 1 (by omega)]

theorem Protected.agree {recordSize : UInt32} {raw : Buffer} (h : Protected recordSize raw sectors)
    (hagree : ∀ k < 512 * sectors, buffer k = raw k) : buffer.u32 0 = fileMagic ∧
    fixups recordSize buffer = sectors ∧ usaOffset buffer = usaOffset raw := by
  have hpos := h.pos
  refine ⟨(u32_agree hagree (by omega)).trans h.magic, ?_, ?_⟩
  · rw [fixups, u16_agree hagree (by omega), h.count, h.size]
    omega
  · rw [usaOffset, usaOffset, u16_agree hagree (by omega)]

end

/-- A record that was sealed is restored, and one whose seal is broken is refused. -/
theorem update_sequence_inverted {host : Host} {fs : NtfsFs} {disk : Disk} {total sectors : ℕ}
    {node : NtfsNode} (hsector : fs.bytesPerSector = 512) (hlow : 512 * total ≤ 2 ^ 64)
    (hdisk : Working host.drive disk total) (hplace : recordLba fs node + sectors ≤ total)
    (h : Protected fs.mftRecordSize (rawRecord disk fs node) sectors) (block : Block) :
    let raw := rawRecord disk fs node
    let call := (ntfsReadMftRecord fs node.mftRecordNumber block).run host.answer
    (∀ record : Buffer,
      (∀ k < 512 * sectors, raw k = sealedImage record (usaOffset raw) sectors k) →
      ∃ out : Buffer, call = some (some out) ∧
        ∀ k < 512 * sectors, ¬ Saved (usaOffset raw) sectors k → out k = record k) ∧
    ((∃ j < sectors, raw.u16 (512 * (j + 1) - 2) ≠ raw.u16 (usaOffset raw)) →
      call = some none) := by
  intro raw call
  have hpos := h.pos
  have hsmall := h.small
  have hin := h.inside
  obtain ⟨block', hread, hbytes⟩ :=
    run_readRecord hsector hlow hdisk h.size hpos (by omega) hplace block
  rw [h.size] at hbytes
  obtain ⟨hmagic, hfixups, husa⟩ := h.agree hbytes
  have hcall : call = some (if ((fixup fs.mftRecordSize).run (memory block'.bytes)).1 then
      some (recordOf ((fixup fs.mftRecordSize).run (memory block'.bytes)).2) else none) := by
    simp only [call, ntfsReadMftRecord, run_bind, hread, Option.bind_some]
    rfl
  rw [hcall, ← setRecord_memory block'.bytes]
  constructor
  · intro record himage
    have hagree := fun k hk => (hbytes k hk).trans (himage k hk)
    have hsealed : Sealed fs.mftRecordSize block'.bytes := by
      refine ⟨hmagic, fun j hj => ?_⟩
      rw [husa, u16_agree hagree (by omega), u16_agree hagree (by omega)]
      exact sealedImage_ends h.avoids (by omega)
    rw [run_fixup _ hsealed]
    refine ⟨_, rfl, fun k hk hsaved => ?_⟩
    rw [recordOf_setRecord, fixedRecord, hfixups, husa, fixedTo_eq_restored _ h.avoids,
      restored_agree hagree hin hk]
    exact restored_sealedImage hk hsaved
  · rintro ⟨j, hj, hne⟩
    have hnot : ¬ Sealed fs.mftRecordSize block'.bytes := by
      intro hsealed
      have hend := hsealed.2 j (by omega)
      rw [husa, u16_agree hbytes (by omega), u16_agree hbytes (by omega)] at hend
      exact hne hend
    rw [run_fixup_not _ hnot, if_neg Bool.false_ne_true]

theorem update_sequence_inverted_small : Protected 512 (rawRecord smallDisk smallFs smallNode) 1 ∧
    ∃ out : Buffer, (ntfsReadMftRecord smallFs smallNode.mftRecordNumber ⟨512, fun _ => 0⟩).run
      (Host.mk smallDrive (fun _ _ => none)).answer = some (some out) ∧ ∀ k < 512 * 1,
        ¬ Saved (usaOffset (rawRecord smallDisk smallFs smallNode)) 1 k →
          out k = fileRecord smallDisk smallFs smallNode k := by
  have hprotected : Protected 512 (rawRecord smallDisk smallFs smallNode) 1 := by
    refine ⟨rfl, by omega, by omega, by decide, by decide, by decide, ?_⟩
    intro k hlow hk
    have husa : usaOffset (rawRecord smallDisk smallFs smallNode) = 48 := by decide
    omega
  have hdisk : Working (mk smallDrive (fun _ _ => none)).drive smallDisk 2 := smallWorking
  refine ⟨hprotected, ?_⟩
  exact (update_sequence_inverted rfl (by omega) hdisk (by decide) hprotected _).1 _
    (by decide +kernel)

end NexusKernel.NtfsFiles
