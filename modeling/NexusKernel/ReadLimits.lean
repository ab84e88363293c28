import NexusKernel.ExtentTrees
import NexusKernel.ClusterReads
import NexusKernel.NtfsRecords

/-!
How many bytes the reads of the file systems deliver. Each clips a request by comparing `offset +
size`, a 64-bit sum, with the size of the file. A request whose end wraps around is not clipped,
and on some volume the loop then goes on behind the end. Nothing is assumed of a volume or of what
the disk answers.
-/

namespace NexusKernel.ReadLimits

open Lib.Programs Lib.MemoryTasks ElfLoader DiskPrograms ClusterReads Buffer
open Program (ensures_pure ensures_ite ensures_bind ensures_stuck)
open Fat32 (Fat32Fs Fat32Node)
open Fat32Calls (copyClusters skipClusters fat32GetNextCluster readCluster fat32Read
  run_fat32GetNextCluster)
open Ext4 (Ext4Info Ext4Inode copyBlocks ext4Read)
open Ntfs (NtfsFs NtfsNode copyRun walkRuns ntfsRead)
open UInt64 (lt_iff_toNat_lt toNat_add toNat_sub_of_le)

/-- The returned number is that of the bytes delivered, and at most `limit`. -/
def Counted (limit : ℕ) (out : UInt64 × List UInt8) : Prop := out.1.toNat = out.2.length ∧
    out.2.length ≤ limit

theorem counted_nil (limit : ℕ) : Counted limit (0, []) := ⟨rfl, Nat.zero_le limit⟩

section

variable {host : Host} {size bytesRead : UInt64} {buffer : List UInt8} {bytes : List UInt8}

theorem Counted.append (h : Counted size.toNat (bytesRead, buffer)) {n : UInt64}
    (hbytes : bytes.length = n.toNat) (hn : n.toNat ≤ size.toNat - bytesRead.toNat) :
    Counted size.toNat (bytesRead + n, buffer ++ bytes) := by
  obtain ⟨hlen, hle⟩ := h
  dsimp only at hlen hle
  have htop := size.toNat_lt
  have hsum : (bytesRead + n).toNat = bytesRead.toNat + n.toNat := by
    rw [toNat_add]
    omega
  simp only [Counted, List.length_append, hsum, hbytes]
  omega

theorem Counted.copy {unit inside : UInt32} (h : Counted size.toNat (bytesRead, buffer))
    (hin : inside.toNat ≤ unit.toNat) (data : Buffer) (start : ℕ) {toCopy : UInt32}
    (hcopy : toCopy = if (unit - inside).toUInt64 > size - bytesRead
      then (size - bytesRead).toUInt32 else unit - inside) :
    Counted size.toNat (bytesRead + toCopy.toUInt64, buffer ++ slice data start toCopy.toNat) := by
  have hread : bytesRead.toNat ≤ size.toNat := h.1 ▸ h.2
  have hn := toCopy_toNat hin hread
  rw [← hcopy] at hn
  refine h.append ?_ ?_
  · rw [length_slice, UInt32.toNat_toUInt64]
  · rw [UInt32.toNat_toUInt64, hn]
    exact Nat.min_le_right _ _

theorem counted_copyClusters {fs : Fat32Fs} (fuel : ℕ) {clusterBuf : Option Block}
    {c clusterOffset : UInt32} (hin : clusterOffset.toNat ≤ fs.bytesPerCluster.toNat)
    (h : Counted size.toNat (bytesRead, buffer)) :
    (copyClusters fs size fuel clusterBuf c clusterOffset bytesRead buffer).Ensures host.answer
      (Counted size.toNat) := by
  induction fuel generalizing clusterBuf c clusterOffset bytesRead buffer with
  | zero => exact ensures_stuck
  | succ fuel ih =>
    refine ensures_ite (fun _ => ensures_bind (fun result _ => ?_)) fun _ => ensures_pure h
    rcases result with - | - | block
    · exact ensures_pure h
    · exact ensures_stuck
    · have hnext := h.copy hin block.bytes clusterOffset.toNat rfl
      refine ensures_ite (fun _ => ensures_bind (fun next _ => ?_)) fun _ => ih
        (Nat.zero_le _) hnext
      exact ensures_ite (fun _ => ensures_pure hnext) fun _ => ih (Nat.zero_le _) hnext

variable {offset : UInt64}

theorem counted_copyBlocks {fs : Ext4Info} {inode : Ext4Inode} {depth : ℕ} (fuel : ℕ)
    (hpos : 0 < fs.blockSize.toNat) {blockBuf : Block}
    (h : Counted size.toNat (bytesRead, buffer)) :
    (copyBlocks fs inode offset size depth fuel blockBuf bytesRead buffer).Ensures host.answer
      (Counted size.toNat) := by
  induction fuel generalizing blockBuf bytesRead buffer with
  | zero => exact ensures_stuck
  | succ fuel ih =>
    have hin := (toNat_mod_narrow (offset + bytesRead) hpos).trans_le (Nat.mod_lt _ hpos).le
    refine ensures_ite (fun _ => ensures_bind (fun pBlock _ => ?_)) fun _ => ensures_pure h
    refine ensures_ite (fun _ => ensures_bind (fun filled _ => ?_))
      (fun _ => ensures_bind (fun filled _ => ?_))
    all_goals
      rcases filled with - | - | block
      · exact ensures_pure h
      · exact ensures_pure h
      · exact ih (h.copy hin block.bytes _ rfl)

section

variable (fuel : ℕ) (h : Counted size.toNat (bytesRead, buffer))
include fuel h

variable {fs : NtfsFs} {clusterBuf : Block}

theorem counted_copyRun {sparse : Bool} {lcn runClusters runReadEnd : UInt64}
    {clusterIdx intraOff : UInt64} :
    (copyRun fs sparse lcn runClusters runReadEnd size fuel clusterBuf clusterIdx intraOff bytesRead
      buffer).Ensures host.answer (fun out => Counted size.toNat out.2.2) := by
  induction fuel generalizing clusterBuf clusterIdx intraOff bytesRead buffer with
  | zero => exact ensures_stuck
  | succ fuel ih =>
    refine ensures_ite (fun _ => ?_) fun _ => ensures_pure h
    have hread : bytesRead.toNat ≤ size.toNat := h.1 ▸ h.2
    have hleft : (size - bytesRead).toNat = size.toNat - bytesRead.toNat :=
      toNat_sub_of_le _ _ (UInt64.le_iff_toNat_le.mpr hread)
    have hcopy : (if fs.clusterSize.toUInt64 - intraOff > size - bytesRead then size - bytesRead
        else fs.clusterSize.toUInt64 - intraOff).toNat ≤ size.toNat - bytesRead.toNat := by
      rw [NtfsRecords.toNat_toCopy, hleft]
      exact Nat.min_le_right _ _
    refine ensures_ite (fun _ => ih (h.append (List.length_replicate ..) hcopy))
      (fun _ => ensures_bind (fun result _ => ?_))
    rcases result with - | - | block
    · exact ensures_pure h
    · exact ensures_pure h
    · exact ih (h.append (length_slice _ _ _) hcopy)

variable {record : Buffer} {run : ℕ} {lcn vcn : UInt64}

theorem counted_walkRuns : (walkRuns fs record offset size fuel clusterBuf run lcn vcn bytesRead
      buffer).Ensures host.answer (Counted size.toNat) := by
  induction fuel generalizing clusterBuf run lcn vcn bytesRead buffer with
  | zero => exact ensures_stuck
  | succ fuel ih =>
    refine ensures_ite (fun _ => ?_) fun _ => ensures_pure h
    refine ensures_ite (fun _ => ensures_pure h) fun _ => ?_
    refine ensures_ite (fun _ => ensures_bind (fun out hout => ?_)) fun _ => ih h
    have hnext := counted_copyRun _ h out hout
    exact ensures_ite (fun _ => ih hnext) fun _ => ensures_pure hnext

end

/-- A run gives nothing to a request whose end wraps around, unless it covers all but less than a
cluster of the 2^64 bytes. -/
theorem walkRuns_wrapped (hwraps : 2 ^ 64 ≤ offset.toNat + size.toNat)
    (hsize : size.toNat < 2 ^ 64 - 2 ^ 32 + 3) (hpos : 0 < fs.clusterSize.toNat) (fuel : ℕ) :
    (walkRuns fs record offset size fuel clusterBuf run lcn vcn 0 []).Ensures host.answer
      (· = (0, [])) := by
  induction fuel generalizing clusterBuf run lcn vcn with
  | zero => exact ensures_stuck
  | succ fuel ih =>
    refine ensures_ite (fun _ => ?_) fun _ => ensures_pure rfl
    refine ensures_ite (fun _ => ensures_pure rfl) fun _ => ?_
    refine ensures_ite (fun hoverlap => ensures_bind (fun out hout => ?_)) fun _ => ih
    generalize Ntfs.field record (run + 1) (record run &&& 0x0F).toNat =
      runClusters at hoverlap hout ⊢
    generalize vcn * fs.clusterSize.toUInt64 = start at hoverlap hout
    obtain ⟨hend, hst⟩ := hoverlap
    -- The first cluster of the run to be read begins behind the end of the request.
    have hcluster := fs.clusterSize.toNat_lt
    have hlt := lt_iff_toNat_lt.mp hst
    have htop' := offset.toNat_lt
    have hsum : (offset + size).toNat = offset.toNat + size.toNat - 2 ^ 64 := by
      rw [toNat_add]
      omega
    have hpre : offset > start := lt_iff_toNat_lt.mpr (by omega)
    have hwithin : offset + size < start + runClusters * fs.clusterSize.toUInt64 :=
      UInt64.lt_trans (lt_iff_toNat_lt.mpr (by omega)) hend
    have hfrom : (offset - start).toNat = offset.toNat - start.toNat :=
      toNat_sub_of_le _ _ (UInt64.le_of_lt hpre)
    have hto : (offset + size - start).toNat = (offset + size).toNat - start.toNat :=
      toNat_sub_of_le _ _ (UInt64.le_of_lt hst)
    have hstop : ¬ ((offset - start) / fs.clusterSize.toUInt64 * fs.clusterSize.toUInt64 <
        offset + size - start) := by
      have hsplit := Nat.div_add_mod' (offset.toNat - start.toNat) fs.clusterSize.toNat
      have hmod := Nat.mod_lt (offset.toNat - start.toNat) hpos
      have hprod : ((offset - start) / fs.clusterSize.toUInt64 * fs.clusterSize.toUInt64).toNat =
          (offset.toNat - start.toNat) / fs.clusterSize.toNat * fs.clusterSize.toNat := by
        rw [UInt64.toNat_mul, UInt64.toNat_div, UInt32.toNat_toUInt64, hfrom]
        exact Nat.mod_eq_of_lt (by omega)
      rw [lt_iff_toNat_lt]
      omega
    rw [if_pos hpre, if_pos hwithin, copyRun, if_neg (fun h => hstop h.2.1)] at hout
    cases hout
    exact ih

end

def limit (fileSize offset size : UInt64) : ℕ :=
  if offset < fileSize then min size.toNat (fileSize.toNat - offset.toNat) else 0

section

variable {host : Host} {offset size fileSize : UInt64}

theorem clipped_le (h : fileSize.toNat ≤ offset.toNat ∨ offset.toNat + size.toNat < 2 ^ 64)
    (hin : ¬ offset ≥ fileSize) :
    (if offset + size > fileSize then fileSize - offset else size).toNat ≤
      limit fileSize offset size := by
  have hlt := UInt64.not_le.mp hin
  have hpre := lt_iff_toNat_lt.mp hlt
  rw [clipped_toNat (h.resolve_left (Nat.not_le.mpr hpre)) hpre, limit, if_pos hlt]

theorem clipped_wrapped (hwraps : 2 ^ 64 ≤ offset.toNat + size.toNat) (hin : ¬ offset ≥ fileSize) :
    (if offset + size > fileSize then fileSize - offset else size) = size := by
  have hlt := lt_iff_toNat_lt.mp (UInt64.not_le.mp hin)
  have htop := size.toNat_lt
  refine if_neg fun hbeyond => ?_
  rw [gt_iff_lt, lt_iff_toNat_lt, toNat_add] at hbeyond
  omega

theorem Counted.mono {n n' : ℕ} {out : UInt64 × List UInt8} (h : Counted n out) (hle : n ≤ n') :
    Counted n' out := ⟨h.1, h.2.trans hle⟩

theorem served_pos {use : Purpose} {unit : UInt32} {block : Block}
    (h : host.block use unit.toUInt64 = some block) : 0 < unit.toNat := by
  by_contra hnot
  have hz : unit = 0 := UInt32.toNat_inj.mp (Nat.eq_zero_of_not_pos hnot)
  rw [hz] at h
  exact absurd h (by simp [Host.block, Host.stale])

theorem counted_fat32Read (fs : Fat32Fs) (node : Fat32Node)
    (h : node.fileSize.toUInt64.toNat ≤ offset.toNat ∨ offset.toNat + size.toNat < 2 ^ 64) :
    (fat32Read fs node offset size).Ensures host.answer
      (Counted (limit node.fileSize.toUInt64 offset size)) := by
  refine ensures_ite (fun _ => ensures_pure (counted_nil _)) fun _ => ?_
  refine ensures_ite (fun _ => ensures_pure (counted_nil _)) fun hin => ?_
  refine ensures_ite (fun _ => ensures_stuck) fun hne => ensures_bind (fun c _ => ?_)
  cases c with
  | none => exact ensures_pure (counted_nil _)
  | some c =>
    have hpos : 0 < fs.bytesPerCluster.toNat :=
      Nat.pos_of_ne_zero fun h => hne (UInt32.toNat_inj.mp h)
    have hplace := (toNat_mod_narrow offset hpos).trans_le (Nat.mod_lt _ hpos).le
    refine ensures_bind fun clusterBuf _ out hout => ?_
    exact (counted_copyClusters _ hplace (counted_nil _) out hout).mono (clipped_le h hin)

theorem counted_ext4Read (fs : Ext4Info) (inode : Ext4Inode) (depth : ℕ)
    (h : inode.sizeLo.toUInt64.toNat ≤ offset.toNat ∨ offset.toNat + size.toNat < 2 ^ 64) :
    (ext4Read fs inode offset size depth).Ensures host.answer
      (Counted (limit inode.sizeLo.toUInt64 offset size)) := by
  refine ensures_ite (fun _ => ensures_pure (counted_nil _)) fun hin => ?_
  refine ensures_bind fun block hblock => ?_
  cases block with
  | none => exact ensures_pure (counted_nil _)
  | some blockBuf =>
    intro out hout
    exact (counted_copyBlocks _ (served_pos (Option.some.inj hblock)) (counted_nil _) out hout).mono
      (clipped_le h hin)

variable {mem : Ntfs.Place → UInt8}

/-- What a resident attribute gives lies within its length of 32 bits. -/
theorem dataOf_resident {attr : ℕ} (h : ((Ntfs.dataOf attr offset size).run mem).1 = .inl bytes) :
    bytes.length ≤ size.toNat ∧ (bytes = [] ∨ offset.toNat + bytes.length < 2 ^ 32) := by
  by_cases hresid : Ntfs.recordOf mem (attr + 8) = 0
  swap
  · rw [Ntfs.dataOf, Task.run_bind, Ntfs.run_load8, if_neg hresid] at h
    simp at h
  rw [Ntfs.dataOf, Task.run_bind, Ntfs.run_load8, if_pos hresid] at h
  rw [Task.run_bind, Ntfs.run_load16, Task.run_bind, Ntfs.run_load32] at h
  generalize (Ntfs.recordOf mem).u32 (attr + 16) = dataLen at h
  by_cases hbeyond : offset ≥ dataLen.toUInt64
  · rw [if_pos hbeyond] at h
    obtain rfl := Sum.inl.inj h
    exact ⟨Nat.zero_le _, .inl rfl⟩
  rw [if_neg hbeyond, Task.run_bind, Task.run_loads] at h
  have hlen := congrArg List.length (Sum.inl.inj h)
  simp only [List.length_map, List.length_range] at hlen
  have hlt := lt_iff_toNat_lt.mp (UInt64.not_le.mp hbeyond)
  have hrest : (dataLen.toUInt64 - offset).toNat = dataLen.toUInt64.toNat - offset.toNat :=
    toNat_sub_of_le _ _ (UInt64.le_of_lt (UInt64.not_le.mp hbeyond))
  have htop := dataLen.toNat_lt
  rw [UInt32.toNat_toUInt64] at hlt hrest
  rw [← hlen, NtfsRecords.toNat_toCopy]
  exact ⟨Nat.min_le_right _ _, .inr (by omega)⟩

theorem onAttr_result {α : Type} {recordSize type : UInt32} {fuel : ℕ}
    {body : ℕ → Ntfs.RecordTask (Option (Option α))}
    {a : α} (h : ((Ntfs.onAttr recordSize type fuel body).run mem).1 = some (some a)) :
    ∃ attr mem', ((body attr).run mem').1 = some (some a) := by
  rw [Ntfs.onAttr, Task.run_bind] at h
  split_ifs at h
  · rw [Task.run_bind] at h
    split at h
    · simp at h
    · simp at h
    · exact ⟨_, _, h⟩
  · simp at h

theorem ensures_withRecord {α : Type} (fs : NtfsFs) (recNum : UInt64)
    (task : Ntfs.RecordTask (Option (Option α))) :
    (Ntfs.withRecord fs recNum task).Ensures host.answer
      (fun out => ∀ x ∈ out, ∃ mem, (task.run mem).1 = some (some x.1)) := by
  refine ensures_bind (fun block _ => ?_)
  cases block with
  | none => exact ensures_pure (fun x hx => absurd hx (by simp))
  | some recBuf =>
    refine ensures_bind (fun result _ => ?_)
    rcases result with - | - | recBuf
    · exact ensures_pure (fun x hx => absurd hx (by simp))
    · exact ensures_pure (fun x hx => absurd hx (by simp))
    · dsimp only
      cases hout : (task.run (Ntfs.memory recBuf.bytes)).1 with
      | none => exact ensures_stuck
      | some found =>
        refine ensures_pure (fun x hx => ?_)
        obtain ⟨a, rfl, rfl⟩ := Option.map_eq_some_iff.mp hx
        exact ⟨_, hout⟩

/-- `ntfs_read` keeps to the file also for wrapping requests not almost as large as the address
space. -/
theorem counted_ntfsRead (fs : NtfsFs) (node : NtfsNode) (fuel : ℕ)
    (h : offset.toNat + size.toNat < 2 ^ 64 ∨ size.toNat < 2 ^ 64 - 2 ^ 32 + 3) :
    (ntfsRead fs node offset size fuel).Ensures host.answer
      (Counted (limit node.fileSize offset size)) := by
  refine ensures_ite (fun _ => ensures_pure (counted_nil _)) fun _ => ?_
  refine ensures_ite (fun _ => ensures_pure (counted_nil _)) fun hin => ?_
  refine ensures_ite (fun _ => ensures_pure (counted_nil _)) fun hz => ?_
  refine ensures_bind fun found hfound => ?_
  have htask := ensures_withRecord _ _ _ found hfound
  rcases found with - | ⟨bytes | runs, record⟩
  · exact ensures_pure (counted_nil _)
  · obtain ⟨mem, hmem⟩ := htask _ rfl
    obtain ⟨attr, mem', hdata⟩ := onAttr_result hmem
    rw [Task.run_bind] at hdata
    obtain ⟨hle, hshort⟩ := dataOf_resident (Option.some.inj (Option.some.inj hdata))
    have htop := (if offset + size > node.fileSize then node.fileSize - offset else size).toNat_lt
    refine ensures_pure ⟨?_, ?_⟩
    · exact Nat.mod_eq_of_lt (hle.trans_lt htop)
    · by_cases hsum : offset.toNat + size.toNat < 2 ^ 64
      · exact hle.trans (clipped_le (.inr hsum) hin)
      · have hlt := lt_iff_toNat_lt.mp (UInt64.not_le.mp hin)
        rw [limit, if_pos (UInt64.not_le.mp hin)]
        rcases hshort with rfl | hshort
        · exact Nat.zero_le _
        · dsimp only
          omega
  · refine ensures_bind (fun block hblock => ?_)
    cases block with
    | none => exact ensures_pure (counted_nil _)
    | some clusterBuf =>
      intro out hout
      by_cases hsum : offset.toNat + size.toNat < 2 ^ 64
      · exact (counted_walkRuns _ (counted_nil _) out hout).mono (clipped_le (.inr hsum) hin)
      · rw [clipped_wrapped (Nat.not_lt.mp hsum) hin] at hout
        rw [walkRuns_wrapped (Nat.not_lt.mp hsum) (h.resolve_left hsum)
          (served_pos (Option.some.inj hblock)) _ out hout]
        exact counted_nil _

end

def zeroHost : Host where
  drive :=
    { type := .ata, ataReadSectors := fun _ _ => some [], ahciReadSectors := fun _ _ => none }
  heap := fun _ _ => some (fun _ => 0)

def zeroFs : Fat32Fs where
  fatLba := 0
  dataLba := 0
  sectorsPerCluster := 1
  bytesPerCluster := 512

theorem run_nextCluster_zero (c : UInt32) :
    (fat32GetNextCluster zeroFs c).run zeroHost.answer = some 0 := by
  have hz : ∀ k, u32 (fun k => ([] : List UInt8).getD k 0) k = 0 := fun k => by
    simp [u32, u16]
  rw [run_fat32GetNextCluster]
  exact congrArg (fun w : UInt32 => some (w &&& 0x0FFFFFFF)) (hz _)

theorem run_skipClusters_zero (n : ℕ) (c : UInt32) :
    ∃ c', (skipClusters zeroFs n c).run zeroHost.answer = some (some c') := by
  induction n generalizing c with
  | zero => exact ⟨c, rfl⟩
  | succ n ih =>
    rw [skipClusters, Program.run_bind, run_nextCluster_zero, Option.bind_some]
    exact ih 0

section

variable {size bytesRead : UInt64} (hread : bytesRead.toNat ≤ size.toNat)
include hread

theorem eq_size_of_not_lt (hdone : ¬ bytesRead < size) : bytesRead = size := by
  have hge := UInt64.le_iff_toNat_le.mp (UInt64.not_lt.mp hdone)
  exact UInt64.toNat_inj.mp (by omega)

/-- A round of a loop copies something, and not more than is left. -/
theorem toCopy_between {unit inside : UInt32} (hin : inside.toNat < unit.toNat)
    (hmore : bytesRead < size) {toCopy : UInt32}
    (hcopy : (if (unit - inside).toUInt64 > size - bytesRead then (size - bytesRead).toUInt32
      else unit - inside) = toCopy) :
    bytesRead.toNat < (bytesRead + toCopy.toUInt64).toNat ∧
      (bytesRead + toCopy.toUInt64).toNat ≤ size.toNat := by
  have hlt := lt_iff_toNat_lt.mp hmore
  have htop := size.toNat_lt
  have hn := toCopy_toNat hin.le hread
  rw [hcopy] at hn
  rw [toNat_add, UInt32.toNat_toUInt64]
  omega

theorem run_copyClusters_zero {clusterOffset : UInt32} (fuel : ℕ)
    (block : Block) (c : UInt32) (buffer : List UInt8) (hoff : clusterOffset.toNat < 512)
    (hfuel : size.toNat - bytesRead.toNat < fuel) :
    ∃ bytes, (copyClusters zeroFs size fuel (some block) c clusterOffset bytesRead buffer).run
      zeroHost.answer = some (size, bytes) := by
  induction fuel generalizing block c clusterOffset bytesRead buffer with
  | zero => omega
  | succ fuel ih =>
    by_cases hmore : bytesRead < size
    swap
    · exact ⟨buffer, by rw [copyClusters, if_neg hmore, eq_size_of_not_lt hread hmore]; rfl⟩
    have hread' : (readCluster zeroFs c (some block)).run zeroHost.answer =
        some (some (some (block.store 1 (fun k => ([] : List UInt8).getD k 0)))) := rfl
    rw [copyClusters, if_pos hmore, Program.run_bind, hread', Option.bind_some]
    dsimp only
    generalize hcopy : (if (zeroFs.bytesPerCluster - clusterOffset).toUInt64 > size - bytesRead then
      (size - bytesRead).toUInt32 else zeroFs.bytesPerCluster - clusterOffset) = toCopy
    obtain ⟨hgrows, hle⟩ := toCopy_between hread hoff hmore hcopy
    split_ifs with hagain
    · rw [Program.run_bind, run_nextCluster_zero, Option.bind_some]
      exact ih hle _ _ _ (by decide) (by omega)
    · exact ih hle _ _ _ (by decide) (by omega)

theorem run_copyBlocks_hole {inode : Ext4Inode} {fs : Ext4Info} (offset : UInt64)
    (hpos : 0 < fs.blockSize.toNat)
    (hhole : ∀ l, (Ext4.ext4GetPhysicalBlock fs inode l 0).run zeroHost.answer = some 0) (fuel : ℕ)
    (block : Block) (buffer : List UInt8) (hfuel : size.toNat - bytesRead.toNat < fuel) :
    ∃ bytes, (copyBlocks fs inode offset size 0 fuel block bytesRead buffer).run zeroHost.answer =
      some (size, bytes) := by
  induction fuel generalizing block bytesRead buffer with
  | zero => omega
  | succ fuel ih =>
    by_cases hmore : bytesRead < size
    swap
    · exact ⟨buffer, by rw [copyBlocks, if_neg hmore, eq_size_of_not_lt hread hmore]; rfl⟩
    have hin := (toNat_mod_narrow (offset + bytesRead) hpos).trans_lt (Nat.mod_lt _ hpos)
    obtain ⟨hgrows, hle⟩ := toCopy_between hread hin hmore rfl
    rw [copyBlocks, if_pos hmore, Program.run_bind, hhole, Option.bind_some, if_pos rfl]
    exact ih hle _ _ (by omega)

end

section

variable (fileSize : UInt32) (offset size : UInt64)

def FatWithin : Prop :=
  ∀ (host : Host) (fs : Fat32Fs) (node : Fat32Node), node.fileSize = fileSize →
    (fat32Read fs node offset size).Ensures host.answer
      (Counted (limit fileSize.toUInt64 offset size))

def Ext4Within : Prop :=
  ∀ (host : Host) (fs : Ext4Info) (inode : Ext4Inode) (depth : ℕ), inode.sizeLo = fileSize →
    (ext4Read fs inode offset size depth).Ensures host.answer
      (Counted (limit fileSize.toUInt64 offset size))

def NtfsWithin : Prop :=
  ∀ (host : Host) (fs : NtfsFs) (node : NtfsNode) (fuel : ℕ),
    (ntfsRead fs node offset size fuel).Ensures host.answer
      (Counted (limit node.fileSize offset size))

variable {fileSize offset size}

theorem limit_lt_of_wraps (h : ¬ (fileSize.toNat ≤ offset.toNat ∨
      offset.toNat + size.toNat < 2 ^ 64)) :
    2 ^ 64 ≤ offset.toNat + size.toNat ∧ offset < fileSize.toUInt64 ∧
      limit fileSize.toUInt64 offset size = fileSize.toNat - offset.toNat ∧
      fileSize.toNat - offset.toNat < size.toNat := by
  have htop := fileSize.toNat_lt
  have hin : offset < fileSize.toUInt64 := lt_wide_iff.mpr (by omega)
  refine ⟨by omega, hin, ?_⟩
  rw [limit, if_pos hin, UInt32.toNat_toUInt64]
  omega

/-- On the disk of zeros a request that wraps around is served in full. -/
theorem fat32Read_wraps (hwraps : 2 ^ 64 ≤ offset.toNat + size.toNat)
    (hin : ¬ offset ≥ fileSize.toUInt64) :
    ∃ bytes, (fat32Read zeroFs ⟨Vfs.fsFile, 2, fileSize⟩ offset size).run zeroHost.answer =
      some (size, bytes) := by
  obtain ⟨c, hskip⟩ :=
    run_skipClusters_zero (offset / zeroFs.bytesPerCluster.toUInt64).toUInt32.toNat 2
  have hplace :=
    (toNat_mod_narrow offset (show 0 < zeroFs.bytesPerCluster.toNat by decide)).trans_lt
    (Nat.mod_lt _ (by decide))
  have hfile : ¬ Vfs.fsFile &&& Vfs.fsFile ≠ Vfs.fsFile := by decide
  rw [fat32Read, if_neg hfile, if_neg hin, clipped_wrapped hwraps hin, if_neg (by decide),
    Program.run_bind, hskip]
  exact run_copyClusters_zero (Nat.zero_le _) (size.toNat + 1) ⟨512, fun _ => 0⟩ c [] hplace
    (Nat.lt_succ_self _)

theorem fatWithin_iff : FatWithin fileSize offset size ↔ fileSize.toNat ≤ offset.toNat ∨
      offset.toNat + size.toNat < 2 ^ 64 := by
  constructor
  · intro h
    by_contra hnot
    obtain ⟨hwraps, hin, hlimit, hlt⟩ := limit_lt_of_wraps hnot
    obtain ⟨bytes, hrun⟩ := fat32Read_wraps hwraps (UInt64.not_le.mpr hin)
    obtain ⟨hnum, hle⟩ := h zeroHost zeroFs ⟨Vfs.fsFile, 2, fileSize⟩ rfl _ hrun
    dsimp only at hnum hle
    omega
  · rintro h host fs node rfl
    exact counted_fat32Read fs node (by rwa [UInt32.toNat_toUInt64])

def holeInode (fileSize : UInt32) : Ext4Inode := ⟨0x8000, fileSize, 0, fun _ => 0⟩

theorem run_lookup_hole (fileSize lBlock : UInt32) :
    (Ext4.ext4GetPhysicalBlock ExtentTrees.smallFs (holeInode fileSize) lBlock 0).run
      zeroHost.answer = some 0 := by
  have hflags : ¬ Ext4.usesExtents (holeInode fileSize) :=
    not_not_intro (by decide : (0 : UInt32) &&& 0x80000 = 0)
  have hz : ∀ k, u32 (fun _ => 0) k = 0 := fun k => by simp [u32, u16]
  rw [Ext4.ext4GetPhysicalBlock]
  split_ifs
  · exact congrArg (fun w : UInt32 => some w.toUInt64) (hz _)
  · rfl

theorem ext4Read_wraps (hwraps : 2 ^ 64 ≤ offset.toNat + size.toNat)
    (hin : ¬ offset ≥ fileSize.toUInt64) :
    ∃ bytes, (ext4Read ExtentTrees.smallFs (holeInode fileSize) offset size 0).run
      zeroHost.answer = some (size, bytes) := by
  have hfile : (holeInode fileSize).sizeLo = fileSize := rfl
  rw [ext4Read, hfile, if_neg hin, clipped_wrapped hwraps hin]
  exact run_copyBlocks_hole (Nat.zero_le _) offset (by decide) (run_lookup_hole fileSize)
    (size.toNat + 1) ⟨1024, fun _ => 0⟩ [] (Nat.lt_succ_self _)

theorem ext4Within_iff : Ext4Within fileSize offset size ↔ fileSize.toNat ≤ offset.toNat ∨
      offset.toNat + size.toNat < 2 ^ 64 := by
  constructor
  · intro h
    by_contra hnot
    obtain ⟨hwraps, hin, hlimit, hlt⟩ := limit_lt_of_wraps hnot
    obtain ⟨bytes, hrun⟩ := ext4Read_wraps hwraps (UInt64.not_le.mpr hin)
    obtain ⟨hnum, hle⟩ := h zeroHost ExtentTrees.smallFs (holeInode fileSize) 0 rfl _ hrun
    dsimp only at hnum hle
    omega
  · rintro h host fs inode depth rfl
    exact counted_ext4Read fs inode depth (by rwa [UInt32.toNat_toUInt64])

/-- The reads of FAT32 and ext4 keep to the request and to the file on every volume exactly if
they begin behind the end of the file or their end does not wrap around; that of NTFS at least
then. All three do so for every file and offset exactly if the request is smaller than 2^64 - 2^32
+ 2. -/
theorem reads_within_iff (fileSize : UInt32) (offset size : UInt64) :
    (FatWithin fileSize offset size ↔ fileSize.toNat ≤ offset.toNat ∨
      offset.toNat + size.toNat < 2 ^ 64) ∧
      (Ext4Within fileSize offset size ↔ fileSize.toNat ≤ offset.toNat ∨
        offset.toNat + size.toNat < 2 ^ 64) ∧
      (offset.toNat + size.toNat < 2 ^ 64 → NtfsWithin offset size) ∧
      ((∀ offset, (∀ fileSize, FatWithin fileSize offset size ∧ Ext4Within fileSize offset size) ∧
          NtfsWithin offset size) ↔ size.toNat < 2 ^ 64 - 2 ^ 32 + 2) := by
  refine ⟨fatWithin_iff, ext4Within_iff, fun hsum host fs node fuel => counted_ntfsRead fs node fuel
    (.inl hsum), ?_⟩
  constructor
  · intro h
    have hlast := fatWithin_iff.mp ((h 4294967294).1 4294967295).1
    have hplace : (4294967294 : UInt64).toNat = 2 ^ 32 - 2 := rfl
    have hsize : (4294967295 : UInt32).toNat = 2 ^ 32 - 1 := rfl
    omega
  · intro hsize offset
    refine ⟨fun fileSize => ?_, fun host fs node fuel => counted_ntfsRead fs node fuel
      (.inr (by omega))⟩
    have htop := fileSize.toNat_lt
    exact ⟨fatWithin_iff.mpr (by omega), ext4Within_iff.mpr (by omega)⟩

/-- From the last byte of 100 on, 2^64 - 1 bytes are returned for one. -/
theorem read_behind_end_of_file : limit 100 99 18446744073709551615 = 1 ∧
    (∃ bytes, (fat32Read zeroFs ⟨Vfs.fsFile, 2, 100⟩ 99 18446744073709551615).run zeroHost.answer =
      some (18446744073709551615, bytes)) ∧ ¬ FatWithin 100 99 18446744073709551615 := by
  have hnumbers : (99 : UInt64).toNat = 99 ∧ (100 : UInt32).toNat = 100 ∧
    (18446744073709551615 : UInt64).toNat = 2 ^ 64 - 1 := ⟨rfl, rfl, rfl⟩
  refine ⟨by decide, fat32Read_wraps (by omega) (by decide), fun h => ?_⟩
  have hcond := fatWithin_iff.mp h
  omega

end

end NexusKernel.ReadLimits
