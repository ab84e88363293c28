import NexusKernel.Fat32Calls
import NexusKernel.Lib.ChunkChains

/-!
`fat32_read` returns the content of a file: the bytes of the clusters of its chain, clipped at its
size. It does so exactly if there is nothing to read or the heap has a buffer for a cluster, since
the result of `kmalloc` is not checked.
-/

namespace NexusKernel.ClusterReads

open Lib.ChunkChains Lib.Programs ElfLoader DiskPrograms Buffer Follows Program
open Fat32 (AtaDrive Fat32Fs Fat32Node diskReadSectors endMark)
open Fat32Calls (fat32Read skipClusters copyClusters readCluster run_fat32GetNextCluster)
open UInt64 (le_iff_toNat_le lt_iff_toNat_lt toNat_add toNat_inj toNat_toUInt32)

abbrev Disk := ℕ → UInt8

def sectorBytes (disk : Disk) (lba count : ℕ) : List UInt8 :=
  (List.range (512 * count)).map (fun i => disk (512 * lba + i))

def Working (drive : AtaDrive) (disk : Disk) (total : ℕ) : Prop :=
  ∀ lba count, 0 < count.toNat → lba.toNat + count.toNat ≤ total →
    diskReadSectors drive lba count = some (sectorBytes disk lba.toNat count.toNat)

/-- A volume of `clusters` clusters on a disk of `total` sectors of 512 bytes. -/
structure Geometry (fs : Fat32Fs) (total clusters : ℕ) : Prop where
  pos : 1 ≤ fs.sectorsPerCluster.toNat
  small : fs.sectorsPerCluster.toNat ≤ 128
  bytes : fs.bytesPerCluster.toNat = 512 * fs.sectorsPerCluster.toNat
  below : total ≤ 2 ^ 32
  fat : 512 * fs.fatLba.toNat + 4 * (clusters + 2) ≤ 512 * total
  data : fs.dataLba.toNat + clusters * fs.sectorsPerCluster.toNat ≤ total

def fatEntry (disk : Disk) (fs : Fat32Fs) (cluster : UInt32) : UInt32 :=
  Buffer.u32 disk (512 * fs.fatLba.toNat + 4 * cluster.toNat) &&& 0x0FFFFFFF

def clusterBytes (disk : Disk) (fs : Fat32Fs) (cluster : UInt32) : List UInt8 :=
  sectorBytes disk (fs.dataLba.toNat + (cluster.toNat - 2) * fs.sectorsPerCluster.toNat)
    fs.sectorsPerCluster.toNat

def Chain (disk : Disk) (fs : Fat32Fs) : UInt32 → List UInt32 → Prop :=
  Follows (fatEntry disk fs) (endMark ≤ ·)

/-- A file with its chain of clusters. An empty file need not have one. -/
structure ValidFile (disk : Disk) (fs : Fat32Fs) (clusters : ℕ) (node : Fat32Node)
    (chain : List UInt32) : Prop where
  flags : node.flags &&& Vfs.fsFile = Vfs.fsFile
  linked : node.fileSize.toNat ≠ 0 → Chain disk fs node.firstCluster chain
  inside : ∀ c ∈ chain, 2 ≤ c.toNat ∧ c.toNat < clusters + 2
  long : node.fileSize.toNat ≤ chain.length * fs.bytesPerCluster.toNat

variable {drive : AtaDrive} {disk : Disk} {fs : Fat32Fs} {total clusters : ℕ} {c : UInt32}
  {node : Fat32Node} {chain rest : List UInt32}

theorem block_place (l : ℕ) {o size : ℕ} (ho : o < size) :
    (l * size + o) / size = l ∧ (l * size + o) % size = o := by
  rw [Nat.mul_comm, Nat.mul_add_div (by omega), Nat.div_eq_of_lt ho, Nat.mul_add_mod,
    Nat.mod_eq_of_lt ho]
  exact ⟨rfl, rfl⟩

theorem length_sectorBytes (disk : Disk) (lba count : ℕ) : (sectorBytes disk lba count).length =
    512 * count := by
  rw [sectorBytes, List.length_map, List.length_range]

theorem getD_sectorBytes (disk : Disk) {lba count i : ℕ} (hi : i < 512 * count) :
    (sectorBytes disk lba count).getD i 0 = disk (512 * lba + i) := by
  rw [sectorBytes, List.getD_eq_getElem _ _ (by simpa using hi), List.getElem_map,
    List.getElem_range]

theorem length_clusterBytes (disk : Disk) (hgeo : Geometry fs total clusters) (c : UInt32) :
    (clusterBytes disk fs c).length = fs.bytesPerCluster.toNat := by
  rw [clusterBytes, length_sectorBytes, hgeo.bytes]

theorem u32_congr {b b' : Buffer} {k k' : ℕ} (h : ∀ i < 4, b (k + i) = b' (k' + i)) :
    b.u32 k = b'.u32 k' := by
  have h₀ := h 0 (by omega)
  simp only [Nat.add_zero] at h₀
  simp [u32, u16, h₀, h 1 (by omega), h 2 (by omega), h 3 (by omega)]

section

variable (hgeo : Geometry fs total clusters) (hdisk : Working drive disk total)
include hgeo hdisk

theorem fat32GetNextCluster_eq (hc : c.toNat < clusters + 2) (hgoing : ¬ endMark ≤ c) :
    Fat32.fat32GetNextCluster drive fs c = fatEntry disk fs c := by
  have hlt : c.toNat < 0x0FFFFFF8 := UInt32.lt_iff_toNat_lt.mp (UInt32.not_le.mp hgoing)
  have hfat := hgeo.fat
  have hlow := hgeo.below
  have hoff : (c * 4).toNat = 4 * c.toNat := by
    simp only [UInt32.toNat_mul, UInt32.reduceToNat]
    omega
  have hentry : (c * 4 % 512).toNat = 4 * c.toNat % 512 := by
    simp [hoff]
  have hsector : (fs.fatLba + c * 4 / 512).toUInt64.toNat =
      fs.fatLba.toNat + 4 * c.toNat / 512 := by
    simp only [UInt32.toNat_toUInt64, UInt32.toNat_add, UInt32.toNat_div, hoff,
      UInt32.reduceToNat]
    omega
  have hread := hdisk (fs.fatLba + c * 4 / 512).toUInt64 1 (by decide)
    (by simp only [hsector, UInt8.reduceToNat]; omega)
  simp only [Fat32.fat32GetNextCluster, hread, hentry, fatEntry]
  refine congrArg (· &&& 0x0FFFFFFF) (u32_congr ?_)
  intro i hi
  rw [getD_sectorBytes disk (by simp only [UInt8.reduceToNat]; omega)]
  exact congrArg disk (by omega)

theorem readCluster_eq (hc : 2 ≤ c.toNat ∧ c.toNat < clusters + 2) :
    diskReadSectors drive (fs.dataLba + (c - 2) * fs.sectorsPerCluster).toUInt64
      fs.sectorsPerCluster.toUInt8 = some (clusterBytes disk fs c) := by
  have hpos := hgeo.pos
  have hsmall := hgeo.small
  have hdata := hgeo.data
  have hlow := hgeo.below
  have hlast : (c.toNat - 2) * fs.sectorsPerCluster.toNat + fs.sectorsPerCluster.toNat ≤
      clusters * fs.sectorsPerCluster.toNat := by
    rw [← Nat.succ_mul]
    exact Nat.mul_le_mul_right _ (by omega)
  have hindex : (c - 2).toNat = c.toNat - 2 :=
    UInt32.toNat_sub_of_le _ _ (UInt32.le_iff_toNat_le.mpr hc.1)
  have hlba : (fs.dataLba + (c - 2) * fs.sectorsPerCluster).toUInt64.toNat =
      fs.dataLba.toNat + (c.toNat - 2) * fs.sectorsPerCluster.toNat := by
    rw [UInt32.toNat_toUInt64, UInt32.toNat_add, UInt32.toNat_mul, hindex]
    omega
  have hnum : fs.sectorsPerCluster.toUInt8.toNat = fs.sectorsPerCluster.toNat := by
    rw [UInt32.toNat_toUInt8]
    omega
  rw [hdisk _ _ (by omega) (by omega), hlba, hnum, clusterBytes]

end

theorem toNat_mod_narrow (offset : UInt64) {unit : UInt32} (hpos : 0 < unit.toNat) :
    (offset % unit.toUInt64).toUInt32.toNat = offset.toNat % unit.toNat := by
  have htop := unit.toNat_lt
  have hlt := Nat.mod_lt offset.toNat hpos
  rw [toNat_toUInt32, UInt64.toNat_mod, UInt32.toNat_toUInt64]
  exact Nat.mod_eq_of_lt (by omega)

variable {clusterOffset : UInt32} {offset size bytesRead : UInt64}

theorem toNat_div_narrow (unit : UInt32) (hsmall : offset.toNat < 2 ^ 32) :
    (offset / unit.toUInt64).toUInt32.toNat = offset.toNat / unit.toNat := by
  have hle := Nat.div_le_self offset.toNat unit.toNat
  rw [toNat_toUInt32, UInt64.toNat_div, UInt32.toNat_toUInt64, Nat.mod_eq_of_lt (by omega)]

theorem lt_wide_iff {a : UInt64} {b : UInt32} : a < b.toUInt64 ↔ a.toNat < b.toNat := by
  rw [lt_iff_toNat_lt, UInt32.toNat_toUInt64]

/-- The bytes of one iteration of the second loop: the rest of the cluster, or of the request. -/
theorem toCopy_toNat {bytesPerCluster : UInt32}
    (hoff : clusterOffset.toNat ≤ bytesPerCluster.toNat) (hread : bytesRead.toNat ≤ size.toNat) :
    (if (bytesPerCluster - clusterOffset).toUInt64 > size - bytesRead then
        (size - bytesRead).toUInt32
      else bytesPerCluster - clusterOffset).toNat =
      min (bytesPerCluster.toNat - clusterOffset.toNat) (size.toNat - bytesRead.toNat) := by
  have hrest : (bytesPerCluster - clusterOffset).toNat =
    bytesPerCluster.toNat - clusterOffset.toNat :=
    UInt32.toNat_sub_of_le _ _ (UInt32.le_iff_toNat_le.mpr hoff)
  have hleft : (size - bytesRead).toNat = size.toNat - bytesRead.toNat :=
    UInt64.toNat_sub_of_le _ _ (le_iff_toNat_le.mpr hread)
  have htop := bytesPerCluster.toNat_lt
  split
  · rename_i hmore
    have hlt := lt_iff_toNat_lt.mp hmore
    rw [UInt32.toNat_toUInt64] at hlt
    rw [toNat_toUInt32]
    omega
  · rename_i hless
    have hle := le_iff_toNat_le.mp (UInt64.not_lt.mp hless)
    rw [UInt32.toNat_toUInt64] at hle
    omega

def readable (node : Fat32Node) (offset size : UInt64) : ℕ :=
  min size.toNat (node.fileSize.toNat - offset.toNat)

def content (disk : Disk) (fs : Fat32Fs) (chain : List UInt32) : List UInt8 :=
  chain.flatMap (clusterBytes disk fs)

theorem clipped_toNat {fileSize : UInt64} (hsum : offset.toNat + size.toNat < 2 ^ 64)
    (hin : offset.toNat < fileSize.toNat) : (if offset + size > fileSize then fileSize - offset
      else size).toNat =
    min size.toNat (fileSize.toNat - offset.toNat) := by
  have hend : (offset + size).toNat = offset.toNat + size.toNat := by
    rw [toNat_add]
    omega
  have hrest : (fileSize - offset).toNat = fileSize.toNat - offset.toNat :=
    UInt64.toNat_sub_of_le _ _ (le_iff_toNat_le.mpr hin.le)
  split
  · rename_i hbeyond
    have hlt := lt_iff_toNat_lt.mp hbeyond
    omega
  · rename_i hwithin
    have hle := le_iff_toNat_le.mp (UInt64.not_lt.mp hwithin)
    omega

theorem length_slice (b : Buffer) (start n : ℕ) : (slice b start n).length = n := by
  simp [slice]

theorem getD_slice (b : Buffer) (start : ℕ) {n i : ℕ} (hi : i < n) :
    (slice b start n).getD i 0 = b (start + i) := by
  simp [slice, hi]

theorem slice_eq {bytes : List UInt8} {b : Buffer} {start n : ℕ}
    (h : ∀ k < bytes.length, b k = bytes.getD k 0) (hn : start + n ≤ bytes.length) :
    slice b start n = (bytes.drop start).take n := by
  refine List.ext_getElem (by simp [slice]; omega) fun i hi _ => ?_
  have hlt : i < n := by simpa [slice] using hi
  simp only [slice, List.getElem_map, List.getElem_range, List.getElem_take, List.getElem_drop]
  rw [h _ (by omega), List.getD_eq_getElem _ _ (by omega)]

section

variable {host : Host} (hgeo : Geometry fs total clusters) (hdisk : Working host.drive disk total)
include hgeo

theorem count_eq : fs.sectorsPerCluster.toUInt8.toNat = fs.sectorsPerCluster.toNat := by
  have hsmall := hgeo.small
  rw [UInt32.toNat_toUInt8]
  omega

/-- A part of the buffer after the cluster was read into it. -/
theorem slice_store (block : Block) (c : UInt32) {start n : ℕ}
    (hn : start + n ≤ fs.bytesPerCluster.toNat) : slice (block.store fs.sectorsPerCluster.toUInt8
      fun k => (clusterBytes disk fs c).getD k 0).bytes start n =
        ((clusterBytes disk fs c).drop start).take n := by
  have hlen := length_clusterBytes disk hgeo c
  refine slice_eq (fun k hk => store_inside _ _ _ ?_) (by omega)
  rwa [transfer, count_eq hgeo, ← hgeo.bytes, ← hlen]

/-- The bytes from an offset on begin in its cluster. -/
theorem content_drop {offset : ℕ} (hoff : offset ≤ chain.length * fs.bytesPerCluster.toNat) :
    (content disk fs chain).drop offset =
      (content disk fs (chain.drop (offset / fs.bytesPerCluster.toNat))).drop
        (offset % fs.bytesPerCluster.toNat) := by
  have hindex : offset / fs.bytesPerCluster.toNat ≤ chain.length :=
    Nat.div_le_of_le_mul (by rwa [Nat.mul_comm])
  rw [content, content, ← drop_chunks (length_clusterBytes disk hgeo) chain _ hindex,
    List.drop_drop, Nat.div_add_mod']

include hdisk

theorem sectors_cluster (hc : 2 ≤ c.toNat ∧ c.toNat < clusters + 2) :
    host.sectors (fs.dataLba + (c - 2) * fs.sectorsPerCluster).toUInt64
      fs.sectorsPerCluster.toUInt8 = some (fun k => (clusterBytes disk fs c).getD k 0) := by
  rw [Host.sectors, readCluster_eq hgeo hdisk hc]
  rfl

/-- The clusters skipped are the first ones of the chain. -/
theorem run_skipClusters (k : ℕ) (hchain : Chain disk fs c chain) (hk : k < chain.length)
    (hin : ∀ c ∈ chain, 2 ≤ c.toNat ∧ c.toNat < clusters + 2) :
    ∃ c' rest, (skipClusters fs k c).run host.answer = some (some c') ∧
      chain.drop k = c' :: rest ∧ Chain disk fs c' (c' :: rest) := by
  induction k generalizing c chain with
  | zero =>
    obtain ⟨rest, rfl, -, -⟩ := cons hchain (List.ne_nil_of_length_pos hk)
    exact ⟨c, rest, rfl, rfl, hchain⟩
  | succ k ih =>
    obtain ⟨rest, rfl, hgoing, hrest⟩ := cons hchain (List.ne_nil_of_length_pos (by omega))
    have hnext := fat32GetNextCluster_eq hgeo hdisk (hin c List.mem_cons_self).2 hgoing
    have hlonger : k < rest.length := by
      rw [List.length_cons] at hk
      omega
    obtain ⟨-, -, hcont, -⟩ := cons hrest (List.ne_nil_of_length_pos (by omega))
    obtain ⟨c', rest', hskip, hdrop, hchain'⟩ :=
      ih hrest hlonger fun d hd => hin d (List.mem_cons_of_mem _ hd)
    refine ⟨c', rest', ?_, by rw [List.drop_succ_cons, hdrop], hchain'⟩
    rw [skipClusters, run_bind, run_fat32GetNextCluster, Option.bind_some, hnext,
      if_neg hcont, hskip]

variable {buffer : List UInt8}

/-- Without a buffer the first cluster to be read is fatal. -/
theorem run_copyClusters_null (fuel : ℕ) (hc : 2 ≤ c.toNat ∧ c.toNat < clusters + 2)
    (hmore : bytesRead < size) :
    (copyClusters fs size (fuel + 1) none c clusterOffset bytesRead buffer).run host.answer =
      none := by
  have hne : fs.sectorsPerCluster.toUInt8 ≠ 0 := fun h => by
    have hpos := hgeo.pos
    rw [← count_eq hgeo, h] at hpos
    exact absurd hpos (by decide)
  rw [copyClusters, if_pos hmore, run_bind, readCluster, run_diskReadInto_null,
    sectors_cluster hgeo hdisk hc, Option.isSome_some, if_pos rfl, if_neg hne, Option.bind_none]

/-- What the loop copies from a chain with the bytes still to be read. -/
theorem run_copyClusters (fuel : ℕ) (block : Block) (hchain : Chain disk fs c (c :: rest))
    (hin : ∀ d ∈ c :: rest, 2 ≤ d.toNat ∧ d.toNat < clusters + 2)
    (hoff : clusterOffset.toNat < fs.bytesPerCluster.toNat)
    (hread : bytesRead.toNat ≤ size.toNat)
    (hroom : clusterOffset.toNat + (size.toNat - bytesRead.toNat) ≤
      (rest.length + 1) * fs.bytesPerCluster.toNat) (hfuel : size.toNat - bytesRead.toNat < fuel) :
    (copyClusters fs size fuel (some block) c clusterOffset bytesRead buffer).run host.answer =
      some (size, buffer ++ ((content disk fs (c :: rest)).drop clusterOffset.toNat).take
        (size.toNat - bytesRead.toNat)) := by
  induction fuel generalizing c rest clusterOffset bytesRead buffer block with
  | zero => omega
  | succ fuel ih =>
    by_cases hmore : bytesRead < size
    swap
    · have hdone : bytesRead = size :=
        toNat_inj.mp (le_antisymm hread (le_iff_toNat_le.mp (UInt64.not_lt.mp hmore)))
      rw [copyClusters, if_neg hmore, hdone, Nat.sub_self, List.take_zero,
        List.append_nil, run_pure]
    have hless := lt_iff_toNat_lt.mp hmore
    obtain ⟨-, hgoing, hrest⟩ := hchain
    have hc := hin c List.mem_cons_self
    have hlen := length_clusterBytes disk hgeo c
    have hcopied := toCopy_toNat hoff.le hread
    have hz : (0 : UInt32).toNat = 0 := rfl
    simp only [copyClusters, if_pos hmore, run_bind, readCluster, run_diskReadInto,
      sectors_cluster hgeo hdisk hc, Option.map_some, Option.bind_some]
    generalize (if (fs.bytesPerCluster - clusterOffset).toUInt64 > size - bytesRead then
      (size - bytesRead).toUInt32 else fs.bytesPerCluster - clusterOffset) = toCopy at hcopied ⊢
    have hafter : (bytesRead + toCopy.toUInt64).toNat = bytesRead.toNat + toCopy.toNat := by
      have htop := size.toNat_lt
      rw [toNat_add, UInt32.toNat_toUInt64]
      omega
    rw [slice_store hgeo block c (by omega), content, List.flatMap_cons,
      take_drop_append _ _ (by omega), hlen, ← hcopied, ← List.append_assoc]
    by_cases hagain : bytesRead + toCopy.toUInt64 < size
    · have hlt := lt_iff_toNat_lt.mp hagain
      cases rest with
      | nil =>
        simp only [List.length_nil, Nat.zero_add, Nat.one_mul] at hroom
        omega
      | cons d rest =>
        obtain ⟨rfl, hcont, hrest⟩ := hrest
        rw [List.length_cons, Nat.succ_mul] at hroom
        rw [if_pos hagain, run_bind, run_fat32GetNextCluster, Option.bind_some,
          fat32GetNextCluster_eq hgeo hdisk hc.2 hgoing, if_neg hcont,
          ih _ ⟨rfl, hcont, hrest⟩ (fun d hd => hin d (List.mem_cons_of_mem _ hd))
            (by omega) (by omega) (by omega) (by omega)]
        have hleft : size.toNat - (bytesRead + toCopy.toUInt64).toNat =
            size.toNat - bytesRead.toNat - (fs.bytesPerCluster.toNat - clusterOffset.toNat) := by
          omega
        rw [hleft, UInt32.toNat_zero, List.drop_zero]
        rfl
    · have hle := le_iff_toNat_le.mp (UInt64.not_lt.mp hagain)
      rw [if_neg hagain, ih _ ⟨rfl, hgoing, hrest⟩ hin (by omega) (by omega) (by omega) (by omega)]
      have hnone : size.toNat - (bytesRead + toCopy.toUInt64).toNat = 0 := by omega
      have hnone' : size.toNat - bytesRead.toNat -
          (fs.bytesPerCluster.toNat - clusterOffset.toNat) = 0 := by omega
      rw [hnone, hnone', List.take_zero, List.take_zero]

variable (hfile : ValidFile disk fs clusters node chain) (hsum : offset.toNat + size.toNat < 2 ^ 64)
include hfile hsum

/-- A call inside the file comes down to the second loop, from the offset's cluster on. -/
theorem run_fat32Read_inside (hin : offset.toNat < node.fileSize.toNat) :
    ∃ c rest size' clusterOffset, (fat32Read fs node offset size).run host.answer =
      (copyClusters fs size' (size'.toNat + 1) (host.block .buffer fs.bytesPerCluster.toUInt64) c
        clusterOffset 0 []).run host.answer ∧ size'.toNat = readable node offset size ∧
      clusterOffset.toNat = offset.toNat % fs.bytesPerCluster.toNat ∧
      chain.drop (offset.toNat / fs.bytesPerCluster.toNat) = c :: rest ∧
      Chain disk fs c (c :: rest) := by
  have hpos := hgeo.pos
  have hbytes := hgeo.bytes
  have hsize := node.fileSize.toNat_lt
  have hbpc : fs.bytesPerCluster ≠ 0 := by
    intro hz
    rw [hz, UInt32.toNat_zero] at hbytes
    omega
  have hskipped := toNat_div_narrow fs.bytesPerCluster (show offset.toNat < 2 ^ 32 by omega)
  have hoff := toNat_mod_narrow offset (show 0 < fs.bytesPerCluster.toNat by omega)
  have hindex : offset.toNat / fs.bytesPerCluster.toNat < chain.length := by
    rw [Nat.div_lt_iff_lt_mul (by omega)]
    exact hin.trans_le hfile.long
  have hpre : ¬ offset ≥ node.fileSize.toUInt64 := UInt64.not_le.mpr (lt_wide_iff.mpr hin)
  obtain ⟨c, rest, hskip, hdrop, hchain⟩ :=
    run_skipClusters hgeo hdisk _ (hfile.linked (by omega)) hindex hfile.inside
  refine ⟨c, rest, _, _, ?_, clipped_toNat hsum (by rwa [UInt32.toNat_toUInt64]), hoff, hdrop,
    hchain⟩
  rw [fat32Read, if_neg (not_not.mpr hfile.flags), if_neg hpre, if_neg hbpc, run_bind, hskipped,
    hskip, Option.bind_some, run_bind, run_kmalloc, Option.bind_some]

/-- A read of some bytes returns those from the offset on if it gets a buffer, and does not return
without one. -/
theorem run_fat32Read : (fat32Read fs node offset size).run host.answer =
    if readable node offset size = 0 then some (0, [])
    else (host.block .buffer fs.bytesPerCluster.toUInt64).map fun _ =>
      (UInt64.ofNat (readable node offset size),
        ((content disk fs chain).drop offset.toNat).take (readable node offset size)) := by
  have hpos := hgeo.pos
  have hbytes := hgeo.bytes
  have hlong := hfile.long
  by_cases hbehind : node.fileSize.toNat ≤ offset.toNat
  · have hge : offset ≥ node.fileSize.toUInt64 := by
      rwa [ge_iff_le, le_iff_toNat_le]
    have hnone : readable node offset size = 0 := by
      rw [readable]
      omega
    rw [fat32Read, if_neg (not_not.mpr hfile.flags), if_pos hge, if_pos hnone, run_pure]
  obtain ⟨c, rest, size', clusterOffset, hcall, hsize, hoff, hdrop, hchain⟩ :=
    run_fat32Read_inside hgeo hdisk hfile hsum (Nat.lt_of_not_le hbehind)
  have hmember : ∀ d ∈ c :: rest, 2 ≤ d.toNat ∧ d.toNat < clusters + 2 := fun d hd =>
    hfile.inside d (List.mem_of_mem_drop (hdrop ▸ hd))
  rw [hcall, ← hsize]
  split
  · rename_i hnone
    obtain rfl : size' = 0 := toNat_inj.mp hnone
    rfl
  rename_i hsome
  cases host.block .buffer fs.bytesPerCluster.toUInt64 with
  | none =>
    exact run_copyClusters_null hgeo hdisk _ (hmember c List.mem_cons_self)
      (lt_iff_toNat_lt.mpr (Nat.pos_of_ne_zero hsome))
  | some block =>
    have hsplit := Nat.div_add_mod' offset.toNat fs.bytesPerCluster.toNat
    have hlen := congrArg List.length hdrop
    rw [List.length_drop, List.length_cons] at hlen
    have hroom : clusterOffset.toNat + (size'.toNat - (0 : UInt64).toNat) ≤
        (rest.length + 1) * fs.bytesPerCluster.toNat := by
      rw [show chain.length = offset.toNat / fs.bytesPerCluster.toNat + (rest.length + 1) by omega,
        Nat.add_mul] at hlong
      rw [hsize, readable]
      omega
    rw [run_copyClusters hgeo hdisk (size'.toNat + 1) block hchain hmember
      (by rw [hoff]; exact Nat.mod_lt _ (by omega)) (by simp) hroom (by simp),
      content_drop hgeo (show offset.toNat ≤ chain.length * _ by omega), hdrop, hoff,
        List.nil_append, UInt64.toNat_zero, Nat.sub_zero, UInt64.ofNat_toNat, Option.map_some]

end

end NexusKernel.ClusterReads
