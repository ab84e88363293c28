import NexusKernel.NtfsRecords
import NexusKernel.ClusterReads
import NexusKernel.Lib.SignedFields

/-!
The data runs of a file. Each run has a number of clusters and, unless sparse, the distance of its
first cluster from that of the allocated run before it. `ntfs_read` walks along the runs and the
clusters that meet its window: behind the runs up to a cluster, it has copied the part of the
window before that cluster.
-/

namespace NexusKernel.RunLists

open Lib.Programs Lib.SignedFields ElfLoader DiskPrograms Ntfs ClusterReads
open UInt64 (le_iff_toNat_le lt_iff_toNat_lt toNat_add toNat_inj toNat_mul toNat_sub_of_le)

structure Run where
  clusters : ℕ
  /-- The distance to the allocated run before; a sparse run has none. -/
  delta : Option ℤ

def runAt (record : Buffer) (pos lenBytes offBytes : ℕ) : Run where
  clusters := unsigned record (pos + 1) lenBytes
  delta := if offBytes = 0 then none else some (signed record (pos + 1 + lenBytes) offBytes)

/-- The run list at a place of the record: the widths of the two fields, the number of clusters
and the signed distance, and a zero byte at the end. -/
inductive Encoded (record : Buffer) (size : ℕ) : ℕ → List Run → Prop
  | nil {pos : ℕ} : pos < size → record pos = 0 → Encoded record size pos []
  | cons {pos : ℕ} {rest : List Run} (lenBytes offBytes : ℕ) :
      1 ≤ lenBytes → lenBytes ≤ 8 → offBytes ≤ 8 → pos + 1 + lenBytes + offBytes ≤ size →
      (record pos).toNat = lenBytes + 16 * offBytes →
      Encoded record size (pos + 1 + lenBytes + offBytes) rest →
      Encoded record size pos (runAt record pos lenBytes offBytes :: rest)

/-- The cluster of the volume with cluster `v` of the runs, behind an allocated run at `lcn`. -/
def lcnOf : List Run → ℤ → ℕ → Option ℤ
  | [], _, _ => none
  | run :: rest, lcn, v =>
      if v < run.clusters then run.delta.map (lcn + · + v)
      else lcnOf rest (lcn + run.delta.getD 0) (v - run.clusters)

def totalClusters (runs : List Run) : ℕ := (runs.map Run.clusters).sum

def fileByte (disk : Disk) (fs : NtfsFs) (runs : List Run) (k : ℕ) : UInt8 :=
  match lcnOf runs 0 (k / fs.clusterSize.toNat) with
  | none => 0
  | some lcn =>
      disk (512 * fs.lbaStart.toNat + lcn.toNat * fs.clusterSize.toNat + k % fs.clusterSize.toNat)

def bytesFrom (byte : ℕ → UInt8) (start n : ℕ) : List UInt8 :=
    (List.range n).map (fun i => byte (start + i))

@[simp] theorem length_bytesFrom (byte : ℕ → UInt8) (start n : ℕ) :
    (bytesFrom byte start n).length = n := by
  simp [bytesFrom]

theorem bytesFrom_append (byte : ℕ → UInt8) (start m n : ℕ) :
    bytesFrom byte start m ++ bytesFrom byte (start + m) n = bytesFrom byte start (m + n) := by
  simp only [bytesFrom, List.range_add, List.map_append, List.map_map, Function.comp_def,
    Nat.add_assoc]

section

variable (host : Host) (fs : NtfsFs) (byte : ℕ → UInt8)

def clusterLba (currentLcn clusterIdx : UInt64) : UInt64 :=
  fs.lbaStart + (currentLcn + clusterIdx) * (fs.clusterSize / fs.bytesPerSector).toUInt64

def Holds (sparse : Bool) (currentLcn clusterIdx : UInt64) (start : ℕ) : Prop :=
  if sparse then ∀ o < fs.clusterSize.toNat, byte (start + o) = 0
  else ∃ data, host.sectors (clusterLba fs currentLcn clusterIdx)
    (sectorsOf fs fs.clusterSize) = some data ∧
    ∀ o < fs.clusterSize.toNat, data o = byte (start + o)

variable {host fs byte} {sparse : Bool} {currentLcn runClusters runReadEnd size : UInt64}
  {offset start : ℕ}

variable {width : ℕ} (hwidth : fs.clusterSize.toNat = width)
include hwidth

theorem toNat_clusters (n : UInt64) (h : n.toNat * width < 2 ^ 64) :
    (n * fs.clusterSize.toUInt64).toNat = n.toNat * width := by
  rw [toNat_mul, UInt32.toNat_toUInt64, hwidth]
  exact Nat.mod_eq_of_lt h

theorem run_copyRun_succ {clusterIdx intraOff bytesRead : UInt64} (buffer : List UInt8)
    (clusterBuf : Block) (fuel : ℕ) (hbuf : width ≤ transfer (sectorsOf fs fs.clusterSize))
    (hholds : Holds host fs byte sparse currentLcn clusterIdx start)
    (hintra : intraOff.toNat < width) (hread : bytesRead.toNat ≤ size.toNat)
    (hgoing : clusterIdx < runClusters ∧ clusterIdx * fs.clusterSize.toUInt64 < runReadEnd ∧
      bytesRead < size) : ∃ clusterBuf' toCopy, toCopy.toNat = min (width - intraOff.toNat)
      (size.toNat - bytesRead.toNat) ∧
      (copyRun fs sparse currentLcn runClusters runReadEnd size (fuel + 1) clusterBuf clusterIdx
        intraOff bytesRead buffer).run host.answer =
        (copyRun fs sparse currentLcn runClusters runReadEnd size fuel clusterBuf'
          (clusterIdx + 1) 0
          (bytesRead + toCopy) (buffer ++ bytesFrom byte (start + intraOff.toNat) toCopy.toNat)).run
            host.answer := by
  have hrest : (fs.clusterSize.toUInt64 - intraOff).toNat = width - intraOff.toNat := by
    rw [toNat_sub_of_le _ _
      (le_iff_toNat_le.mpr (by rw [UInt32.toNat_toUInt64]; omega)),
      UInt32.toNat_toUInt64, hwidth]
  have hcopy := NtfsRecords.toNat_toCopy (fs.clusterSize.toUInt64 - intraOff) (size - bytesRead)
  rw [hrest, toNat_sub_of_le _ _ (le_iff_toNat_le.mpr hread)] at hcopy
  rw [copyRun, if_pos hgoing]
  dsimp only
  generalize (if fs.clusterSize.toUInt64 - intraOff > size - bytesRead then size - bytesRead
    else fs.clusterSize.toUInt64 - intraOff) = toCopy at hcopy
  unfold Holds at hholds
  by_cases hsparse : sparse
  · rw [if_pos hsparse] at hholds ⊢
    have hzeros :
        List.replicate toCopy.toNat 0 = bytesFrom byte (start + intraOff.toNat) toCopy.toNat := by
      rw [eq_comm, List.eq_replicate_iff]
      refine ⟨length_bytesFrom _ _ _, fun b hb => ?_⟩
      obtain ⟨i, hi, rfl⟩ := List.mem_map.mp hb
      have hi' := List.mem_range.mp hi
      rw [Nat.add_assoc]
      exact hholds _ (by omega)
    rw [hzeros]
    exact ⟨clusterBuf, toCopy, hcopy, rfl⟩
  · rw [if_neg hsparse] at hholds ⊢
    obtain ⟨data, hdata, hbytes⟩ := hholds
    have hslice : slice (clusterBuf.store (sectorsOf fs fs.clusterSize) data).bytes intraOff.toNat
      toCopy.toNat = bytesFrom byte (start + intraOff.toNat) toCopy.toNat := by
      refine List.map_congr_left fun i hi => ?_
      have hi' := List.mem_range.mp hi
      rw [store_inside _ _ _ (by omega), hbytes _ (by omega), Nat.add_assoc]
    have hdata' : host.sectors (fs.lbaStart + (currentLcn + clusterIdx) *
        (fs.clusterSize / fs.bytesPerSector).toUInt64) (sectorsOf fs fs.clusterSize) =
          some data := hdata
    refine ⟨clusterBuf.store (sectorsOf fs fs.clusterSize) data, toCopy, hcopy, ?_⟩
    rw [Program.run_bind, run_diskReadInto, hdata', ← hslice]
    rfl

/-- The loop over the clusters of a run, from where the window goes on. It copies what the window
has in common with the run. -/
theorem run_copyRun (hbuf : width ≤ transfer (sectorsOf fs fs.clusterSize))
    (hrun : runClusters.toNat * width < 2 ^ 64)
    (hend : runReadEnd.toNat = min (offset + size.toNat - start) (runClusters.toNat * width))
    (hholds : ∀ idx < runClusters,
      Holds host fs byte sparse currentLcn idx (start + idx.toNat * width))
    (fuel : ℕ) (clusterBuf : Block) (clusterIdx intraOff bytesRead : UInt64)
    (hfuel : size.toNat - bytesRead.toNat < fuel) (hintra : intraOff.toNat < width)
    (hin : clusterIdx.toNat * width + intraOff.toNat ≤ runClusters.toNat * width)
    (hread : bytesRead.toNat ≤ size.toNat)
    (hcopied : offset + bytesRead.toNat ≤ start + clusterIdx.toNat * width + intraOff.toNat)
    (hplace : bytesRead.toNat < size.toNat →
      offset + bytesRead.toNat = start + clusterIdx.toNat * width + intraOff.toNat) :
    ∃ clusterBuf' bytesRead', bytesRead'.toNat =
        min size.toNat (start + runClusters.toNat * width - offset) ∧
      (copyRun fs sparse currentLcn runClusters runReadEnd size fuel clusterBuf clusterIdx
        intraOff bytesRead (bytesFrom byte offset bytesRead.toNat)).run host.answer =
        some (true, clusterBuf', bytesRead', bytesFrom byte offset bytesRead'.toNat) := by
  induction fuel generalizing clusterBuf clusterIdx intraOff bytesRead with
  | zero => omega
  | succ fuel ih =>
    have hprod := toNat_clusters hwidth clusterIdx (by omega)
    by_cases hgoing : clusterIdx < runClusters ∧ clusterIdx * fs.clusterSize.toUInt64 < runReadEnd ∧
      bytesRead < size
    swap
    · have hstop :
          bytesRead.toNat = min size.toNat (start + runClusters.toNat * width - offset) := by
        rcases Nat.lt_or_ge bytesRead.toNat size.toNat with hmore | hdone
        swap
        · omega
        by_cases hidx : clusterIdx < runClusters
        · -- The loop goes on as long as the window does.
          have hlt := lt_iff_toNat_lt.mp hidx
          have hsucc : (clusterIdx.toNat + 1) * width ≤ runClusters.toNat * width :=
            Nat.mul_le_mul_right _ hlt
          rw [Nat.succ_mul] at hsucc
          refine absurd ⟨hidx, lt_iff_toNat_lt.mpr ?_,
            lt_iff_toNat_lt.mpr hmore⟩ hgoing
          omega
        · have hge : runClusters.toNat * width ≤ clusterIdx.toNat * width :=
            Nat.mul_le_mul_right _ (le_iff_toNat_le.mp (UInt64.not_lt.mp hidx))
          omega
      refine ⟨clusterBuf, bytesRead, hstop, ?_⟩
      rw [copyRun, if_neg hgoing]
      rfl
    have hidx := lt_iff_toNat_lt.mp hgoing.1
    have hmore := lt_iff_toNat_lt.mp hgoing.2.2
    have hsucc : (clusterIdx.toNat + 1) * width ≤ runClusters.toNat * width :=
      Nat.mul_le_mul_right _ hidx
    have hnext : (clusterIdx + 1).toNat = clusterIdx.toNat + 1 := by
      have htop := runClusters.toNat_lt
      simp only [toNat_add, UInt64.reduceToNat]
      omega
    obtain ⟨clusterBuf', toCopy, hcopy, hstep⟩ :=
      run_copyRun_succ hwidth (bytesFrom byte offset bytesRead.toNat) clusterBuf fuel hbuf
        (hholds clusterIdx hgoing.1) hintra hread hgoing
    have htotal : (bytesRead + toCopy).toNat = bytesRead.toNat + toCopy.toNat := by
      rw [toNat_add]
      have htop := size.toNat_lt
      omega
    have hbytes : bytesFrom byte offset bytesRead.toNat ++
        bytesFrom byte (start + clusterIdx.toNat * width + intraOff.toNat) toCopy.toNat =
          bytesFrom byte offset (bytesRead + toCopy).toNat := by
      rw [← hplace hmore, bytesFrom_append, htotal]
    have hz : (0 : UInt64).toNat = 0 := rfl
    have hprodNext : (clusterIdx + 1).toNat * width = clusterIdx.toNat * width + width := by
      rw [hnext, Nat.succ_mul]
    rw [Nat.succ_mul] at hsucc
    rw [hstep, hbytes]
    exact ih clusterBuf' (clusterIdx + 1) 0 (bytesRead + toCopy) (by omega) (by omega)
      (by omega) (by omega) (by omega) (by omega)

end

structure NtfsGeometry (fs : NtfsFs) (total : ℕ) : Prop where
  sector : fs.bytesPerSector = 512
  cluster : ∃ sectorsPerCluster, 1 ≤ sectorsPerCluster ∧ sectorsPerCluster ≤ 128 ∧
    fs.clusterSize.toNat = 512 * sectorsPerCluster
  /-- The bytes of the disk can be numbered with 64 bits. -/
  below : 512 * total ≤ 2 ^ 64

def Placed (fs : NtfsFs) (total : ℕ) (runs : List Run) : Prop :=
  ∀ v lcn, lcnOf runs 0 v = some lcn →
    0 ≤ lcn ∧ 512 * fs.lbaStart.toNat + (lcn.toNat + 1) * fs.clusterSize.toNat ≤ 512 * total

section

variable {host : Host} {fs : NtfsFs} {disk : Disk} {total : ℕ}

theorem NtfsGeometry.pos (hgeo : NtfsGeometry fs total) : 0 < fs.clusterSize.toNat := by
  obtain ⟨spc, hpos, -, hsize⟩ := hgeo.cluster
  omega

theorem NtfsGeometry.sectors (hgeo : NtfsGeometry fs total) :
    512 * (sectorsOf fs fs.clusterSize).toNat = fs.clusterSize.toNat ∧
      (fs.clusterSize / fs.bytesPerSector).toUInt64.toNat =
        (sectorsOf fs fs.clusterSize).toNat := by
  obtain ⟨spc, hpos, hsmall, hsize⟩ := hgeo.cluster
  have hdiv : (fs.clusterSize / fs.bytesPerSector).toNat = spc := by
    rw [hgeo.sector, UInt32.toNat_div, hsize]
    exact Nat.mul_div_cancel_left spc (by omega)
  have hnum : (fs.clusterSize / fs.bytesPerSector).toUInt8.toNat = spc := by
    rw [UInt32.toNat_toUInt8]
    omega
  have hne : (fs.clusterSize / fs.bytesPerSector).toUInt8 ≠ 0 := by
    intro hz
    rw [hz] at hnum
    simp at hnum
    omega
  have hsectors : (sectorsOf fs fs.clusterSize).toNat = spc := by
    simp only [sectorsOf, if_neg hne, hnum]
  rw [UInt32.toNat_toUInt64, hdiv, hsectors]
  exact ⟨hsize.symm, rfl⟩

theorem sectors_working (hdisk : Working host.drive disk total) (lba : UInt64) (count : UInt8)
    (hpos : 0 < count.toNat) (hin : lba.toNat + count.toNat ≤ total) :
    ∃ data, host.sectors lba count = some data ∧ ∀ o < 512 * count.toNat,
      data o = disk (512 * lba.toNat + o) := by
  refine ⟨_, ?_, fun o ho => getD_sectorBytes disk ho⟩
  rw [Host.sectors, hdisk lba count hpos hin]
  rfl

variable {runs : List Run} {sparse : Bool} {lcn : ℤ}

theorem holds_cluster (hgeo : NtfsGeometry fs total) (hdisk : Working host.drive disk total)
    (hplaced : Placed fs total runs) {currentLcn clusterIdx : UInt64} {v : ℕ}
    (hlcn : currentLcn + clusterIdx = UInt64.ofInt lcn) (hv : lcnOf runs 0 v = if sparse then none
      else some lcn) :
    Holds host fs (fileByte disk fs runs) sparse currentLcn clusterIdx
      (v * fs.clusterSize.toNat) := by
  have hpos := hgeo.pos
  unfold Holds
  by_cases hsparse : sparse
  · rw [if_pos hsparse] at hv ⊢
    intro o ho
    simp only [fileByte, (block_place v ho).1, hv]
  rw [if_neg hsparse] at hv ⊢
  obtain ⟨hnonneg, hin⟩ := hplaced v lcn hv
  obtain ⟨hnum, hspc⟩ := hgeo.sectors
  have hlow := hgeo.below
  -- In sectors instead of bytes.
  have hbytes : lcn.toNat * fs.clusterSize.toNat =
      512 * (lcn.toNat * (sectorsOf fs fs.clusterSize).toNat) := by
    rw [← hnum, Nat.mul_left_comm]
  rw [Nat.add_mul lcn.toNat] at hin
  have hlcnNat : (currentLcn + clusterIdx).toNat = lcn.toNat := by
    have hle : lcn.toNat ≤ lcn.toNat * (sectorsOf fs fs.clusterSize).toNat :=
      Nat.le_mul_of_pos_right _ (by omega)
    rw [hlcn, toNat_ofInt]
    omega
  have hlba : (clusterLba fs currentLcn clusterIdx).toNat =
      fs.lbaStart.toNat + lcn.toNat * (sectorsOf fs fs.clusterSize).toNat := by
    rw [clusterLba, toNat_add, toNat_mul, hlcnNat, hspc]
    omega
  obtain ⟨data, hdata, hsame⟩ := sectors_working hdisk (clusterLba fs currentLcn clusterIdx)
    (sectorsOf fs fs.clusterSize) (by omega) (by omega)
  refine ⟨data, hdata, fun o ho => ?_⟩
  rw [hsame o (by omega)]
  simp only [fileByte, (block_place v ho).1, (block_place v ho).2, hv]
  exact congrArg disk (by omega)

theorem header_nibbles {b : UInt8} {lenBytes offBytes : ℕ} (hlen : lenBytes ≤ 8)
    (hoff : offBytes ≤ 8) (hb : b.toNat = lenBytes + 16 * offBytes) :
    (b &&& 0x0F).toNat = lenBytes ∧ ((b >>> 4) &&& 0x0F).toNat = offBytes := by
  have hmask : ∀ x : UInt8, (x &&& 0x0F).toNat = x.toNat % 16 := by
    intro x
    exact Nat.and_two_pow_sub_one_eq_mod x.toNat 4
  have hshift : (b >>> 4).toNat = b.toNat / 16 := by
    rw [UInt8.toNat_shiftRight, Nat.shiftRight_eq_div_pow]
    rfl
  rw [hmask, hmask]
  omega

theorem lcnDelta_eq (record : Buffer) (pos : ℕ) {n : ℕ} (hn : n ≤ 8) :
    lcnDelta record pos n = UInt64.ofInt (signed record pos n) := gatherSigned_eq record pos hn

/-- The part of the window in a run, counted from the run. -/
theorem toNat_window {offset size runStart runBytes : UInt64}
    (hsum : offset.toNat + size.toNat < 2 ^ 64)
    (hrun : runStart.toNat + runBytes.toNat < 2 ^ 64) (hmeets : runStart < offset + size) :
    (if offset > runStart then offset - runStart else 0).toNat = offset.toNat - runStart.toNat ∧
      (if offset + size < runStart + runBytes then offset + size - runStart else runBytes).toNat =
        min (offset.toNat + size.toNat - runStart.toNat) runBytes.toNat := by
  have hend : (offset + size).toNat = offset.toNat + size.toNat := by
    exact Nat.mod_eq_of_lt hsum
  constructor
  · by_cases hpre : offset > runStart
    · rw [if_pos hpre, toNat_sub_of_le _ _ (UInt64.le_of_lt hpre)]
    · have hle := le_iff_toNat_le.mp (UInt64.not_lt.mp hpre)
      rw [if_neg hpre, Nat.sub_eq_zero_of_le hle]
      rfl
  · refine (clipped_toNat hrun (lt_iff_toNat_lt.mp hmeets)).trans ?_
    rw [hend, min_comm]

theorem run_copyRun_window (hgeo : NtfsGeometry fs total) {byte : ℕ → UInt8} {width : ℕ}
    (hwidth : fs.clusterSize.toNat = width)
    {currentLcn currentVcn runClusters runReadStart runReadEnd offset size bytesRead : UInt64}
    (hfits : (currentVcn.toNat + runClusters.toNat) * width < 2 ^ 64)
    (hholds : ∀ idx < runClusters, Holds host fs byte sparse currentLcn idx
      ((currentVcn.toNat + idx.toNat) * width))
    (hmeets : offset.toNat < (currentVcn.toNat + runClusters.toNat) * width)
    (hbegin : runReadStart.toNat = offset.toNat - currentVcn.toNat * width)
    (hend : runReadEnd.toNat = min (offset.toNat + size.toNat - currentVcn.toNat * width)
      (runClusters.toNat * width))
    (hread : bytesRead.toNat = currentVcn.toNat * width - offset.toNat)
    (hmore : bytesRead.toNat < size.toNat) (clusterBuf : Block) : ∃ clusterBuf' bytesRead',
    bytesRead'.toNat =
      min size.toNat ((currentVcn.toNat + runClusters.toNat) * width - offset.toNat) ∧
    (copyRun fs sparse currentLcn runClusters runReadEnd size (size.toNat + 1) clusterBuf
        (runReadStart / fs.clusterSize.toUInt64) (runReadStart % fs.clusterSize.toUInt64) bytesRead
        (bytesFrom byte offset.toNat bytesRead.toNat)).run host.answer =
      some (true, clusterBuf', bytesRead', bytesFrom byte offset.toNat bytesRead'.toNat) := by
  simp only [Nat.add_mul] at hfits hholds hmeets ⊢
  have hdiv : (runReadStart / fs.clusterSize.toUInt64).toNat = runReadStart.toNat / width := by
    rw [UInt64.toNat_div, UInt32.toNat_toUInt64, hwidth]
  have hmod : (runReadStart % fs.clusterSize.toUInt64).toNat = runReadStart.toNat % width := by
    rw [UInt64.toNat_mod, UInt32.toNat_toUInt64, hwidth]
  have hsplit := Nat.div_add_mod' runReadStart.toNat width
  have hintra := Nat.mod_lt runReadStart.toNat (hwidth ▸ hgeo.pos)
  refine run_copyRun hwidth (Nat.le_of_eq (hwidth ▸ hgeo.sectors.1.symm))
    (by omega) hend hholds _ clusterBuf _ _ bytesRead (by omega) (by omega) ?_ (by omega) ?_ ?_
  all_goals
    rw [hdiv]
    omega

/-- A sparse run does not move the cluster distances count from. -/
theorem runAt_moves (record : Buffer) (pos lenBytes offBytes : ℕ) :
    (runAt record pos lenBytes offBytes).delta.getD 0 =
      signed record (pos + 1 + lenBytes) offBytes := by
  by_cases hsparse : offBytes = 0
  · rw [runAt, hsparse]
    rfl
  · rw [runAt, if_neg hsparse]
    rfl

theorem ofInt_toNat (w : UInt64) : UInt64.ofInt (w.toNat : ℤ) = w := by
  have htop := w.toNat_lt
  apply toNat_inj.mp
  rw [toNat_ofInt]
  omega

variable {record : Buffer}

/-- The clusters of the run at `pos` can be had if it is the next one. -/
theorem holds_runAt (hgeo : NtfsGeometry fs total) (hdisk : Working host.drive disk total)
    {allRuns rest : List Run} (hplaced : Placed fs total allRuns) {pos lenBytes offBytes vcn : ℕ}
    (hrest : ∀ v, lcnOf allRuns 0 (vcn + v) =
      lcnOf (runAt record pos lenBytes offBytes :: rest) lcn v)
    {idx : UInt64} (hidx : idx.toNat < (runAt record pos lenBytes offBytes).clusters) :
    Holds host fs (fileByte disk fs allRuns) (decide (offBytes = 0))
      (UInt64.ofInt (lcn + signed record (pos + 1 + lenBytes) offBytes)) idx
      ((vcn + idx.toNat) * fs.clusterSize.toNat) := by
  refine holds_cluster hgeo hdisk hplaced
    (show _ = UInt64.ofInt (lcn + signed record (pos + 1 + lenBytes) offBytes + idx.toNat) from ?_)
      ?_
  · rw [UInt64.ofInt_add _ (idx.toNat : ℤ), ofInt_toNat]
  · rw [hrest, lcnOf, if_pos hidx]
    by_cases hsparse : offBytes = 0
    · simp [runAt, hsparse]
    · simp [runAt, hsparse]

/-- The loop over the runs, from `pos` on at cluster `currentVcn`. -/
theorem run_walkRuns (hgeo : NtfsGeometry fs total) (hdisk : Working host.drive disk total)
    {allRuns : List Run} (hplaced : Placed fs total allRuns) {recordSize pos : ℕ}
    (hencoded : Encoded record recordSize pos runs) {offset size : UInt64}
    (hsum : offset.toNat + size.toNat < 2 ^ 64) (fuel : ℕ) (hfuel : runs.length < fuel)
    (clusterBuf : Block)
    (lcn : ℤ) (currentVcn bytesRead : UInt64) (hrest : ∀ v, lcnOf allRuns 0 (currentVcn.toNat + v) =
      lcnOf runs lcn v)
    (hfits : (currentVcn.toNat + totalClusters runs) * fs.clusterSize.toNat < 2 ^ 64)
    (hcovers : offset.toNat + size.toNat ≤
      (currentVcn.toNat + totalClusters runs) * fs.clusterSize.toNat) (hread : bytesRead.toNat =
      min size.toNat (currentVcn.toNat * fs.clusterSize.toNat - offset.toNat)) :
    (walkRuns fs record offset size fuel clusterBuf pos (UInt64.ofInt lcn) currentVcn bytesRead
        (bytesFrom (fileByte disk fs allRuns) offset.toNat bytesRead.toNat)).run host.answer =
      some (size, bytesFrom (fileByte disk fs allRuns) offset.toNat size.toNat) := by
  induction hencoded generalizing fuel clusterBuf lcn currentVcn bytesRead with
  | nil hpos hz =>
    obtain ⟨fuel, rfl⟩ := Nat.exists_eq_add_of_lt hfuel
    have hall : bytesRead = size := by
      apply toNat_inj.mp
      simp only [totalClusters, List.map_nil, List.sum_nil, Nat.add_zero] at hcovers
      omega
    rw [walkRuns, if_neg (fun h => h.1 hz), hall]
    rfl
  | @cons pos rest lenBytes offBytes hlen hlen' hoff hpos hhead _ ih =>
    obtain ⟨fuel, rfl⟩ := Nat.exists_eq_add_of_lt hfuel
    rw [walkRuns]
    by_cases hall : bytesRead = size
    · subst hall
      rw [if_neg (fun h => absurd h.2 (UInt64.lt_irrefl _))]
      rfl
    have hmore : bytesRead.toNat < size.toNat := by
      have hne : bytesRead.toNat ≠ size.toNat := fun h => hall (toNat_inj.mp h)
      omega
    have hnonzero : record pos ≠ 0 := by
      intro hz
      rw [hz] at hhead
      simp at hhead
      omega
    obtain ⟨hlenNibble, hoffNibble⟩ := header_nibbles hlen' hoff hhead
    have hclusters : (field record (pos + 1) _).toNat = _ := toNat_gather record (pos + 1) hlen'
    rw [if_pos ⟨hnonzero, lt_iff_toNat_lt.mpr hmore⟩]
    rw [hlenNibble, hoffNibble, if_neg (by omega : ¬ lenBytes = 0), lcnDelta_eq record _ hoff,
      ← UInt64.ofInt_add]
    generalize field record (pos + 1) lenBytes = runClusters at hclusters
    -- The next run begins behind the clusters of this one.
    have htotal : currentVcn.toNat + totalClusters (runAt record pos lenBytes offBytes :: rest) =
        currentVcn.toNat + runClusters.toNat + totalClusters rest := by
      rw [totalClusters, List.map_cons, hclusters, Nat.add_assoc]
      rfl
    rw [htotal] at hfits hcovers
    have hpos := hgeo.pos
    have hhere : (currentVcn.toNat + runClusters.toNat) * fs.clusterSize.toNat < 2 ^ 64 :=
      Nat.lt_of_le_of_lt (Nat.mul_le_mul_right _ (Nat.le_add_right _ _)) hfits
    have hnext : (currentVcn + runClusters).toNat = currentVcn.toNat + runClusters.toNat := by
      exact Nat.mod_eq_of_lt (Nat.lt_of_le_of_lt (Nat.le_mul_of_pos_right _ hpos) hhere)
    have hnum : (runAt record pos lenBytes offBytes).clusters = runClusters.toNat := hclusters.symm
    have hrest' : ∀ v, lcnOf allRuns 0 ((currentVcn + runClusters).toNat + v) =
        lcnOf rest (lcn + signed record (pos + 1 + lenBytes) offBytes) v := by
      intro v
      rw [hnext, Nat.add_assoc, hrest, lcnOf, runAt_moves, hnum, if_neg (by omega),
        Nat.add_sub_cancel_left]
    have hsplit := Nat.add_mul currentVcn.toNat runClusters.toNat fs.clusterSize.toNat
    have hst := toNat_clusters (rfl : fs.clusterSize.toNat = _) currentVcn (by omega)
    have hrun := toNat_clusters (rfl : fs.clusterSize.toNat = _) runClusters (by omega)
    have hstart' : currentVcn * fs.clusterSize.toUInt64 < offset + size := by
      rw [lt_iff_toNat_lt, toNat_add]
      omega
    have hend :
      (currentVcn * fs.clusterSize.toUInt64).toNat + (runClusters * fs.clusterSize.toUInt64).toNat =
        (currentVcn.toNat + runClusters.toNat) * fs.clusterSize.toNat := by
      rw [hst, hrun, hsplit]
    have hfuel' : rest.length < (runAt record pos lenBytes offBytes :: rest).length + fuel := by
      rw [List.length_cons]
      omega
    by_cases hmeets :
      currentVcn * fs.clusterSize.toUInt64 + runClusters * fs.clusterSize.toUInt64 > offset
    · have hlt := lt_iff_toNat_lt.mp hmeets
      rw [toNat_add, hend, Nat.mod_eq_of_lt hhere] at hlt
      obtain ⟨hfrom, hto⟩ := toNat_window hsum (hend.trans_lt hhere) hstart'
      rw [hst] at hfrom hto
      rw [hrun] at hto
      obtain ⟨clusterBuf', bytesRead', hread', hcopy⟩ := run_copyRun_window hgeo rfl hhere
        (fun idx hidx => holds_runAt hgeo hdisk hplaced hrest
          (hnum ▸ lt_iff_toNat_lt.mp hidx)) hlt hfrom hto (by omega) hmore clusterBuf
      rw [if_pos ⟨hmeets, hstart'⟩, Program.run_bind, hcopy]
      exact ih _ hfuel' clusterBuf' _ (currentVcn + runClusters) bytesRead' hrest' (hnext ▸ hfits)
        (hnext ▸ hcovers) (hnext ▸ hread')
    · have hpre := le_iff_toNat_le.mp (UInt64.not_lt.mp hmeets)
      rw [toNat_add, hend, Nat.mod_eq_of_lt hhere] at hpre
      rw [if_neg (fun h => hmeets h.1)]
      refine ih _ hfuel' clusterBuf _ (currentVcn + runClusters) bytesRead hrest' (hnext ▸ hfits)
        (hnext ▸ hcovers) ?_
      rw [hnext]
      omega

end

end NexusKernel.RunLists
