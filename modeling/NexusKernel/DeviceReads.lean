import NexusKernel.SyscallBuffers
import Mathlib.Algebra.Group.Nat.Defs

/-!
Reads of block devices. `block_read` starts at the sector of the offset, reads at most 255 whole
sectors and answers with the size of the request.
-/

namespace NexusKernel.DeviceReads

open SyscallBuffers Lib.MemoryTasks Function

def sectors (disk : ℕ → UInt8) (lba : UInt64) (count : UInt8) : List UInt8 :=
  (List.range (512 * count.toNat)).map fun i => disk (512 * lba.toNat + i)

/-- A read that succeeds has the bytes of the disk; it may fail. -/
def Reads (dev : BlockDevice) (disk : ℕ → UInt8) : Prop :=
  ∀ lba count bytes, dev.readSectors lba count = some bytes → bytes = sectors disk lba count

def filled (mem : UInt64 → UInt8) (buf : UInt64) (n : ℕ) (byte : ℕ → UInt8) : UInt64 → UInt8 :=
  fun a => if (a - buf).toNat < n then byte (a - buf).toNat else mem a

/-- If the read answers with a number, exactly that many bytes at the beginning of the buffer were
written; they are the bytes of the region from the offset on, and inside it. -/
def Honest (dev : BlockDevice) (disk : ℕ → UInt8) (offset size buf : UInt64) (mem : UInt64 →
      UInt8) : Prop :=
  ∀ n, ((blockRead dev offset size buf).run mem).1 = some n → 0 < n.toNat →
    ((blockRead dev offset size buf).run mem).2 =
        filled mem buf n.toNat (fun i => disk (512 * dev.lbaStart.toNat + offset.toNat + i)) ∧
      offset.toNat + n.toNat ≤ 512 * dev.sizeSectors.toNat

def sectorCount (size : UInt64) : UInt8 := ((size + 511) / 512).toUInt8

def Refused (dev : BlockDevice) (offset size : UInt64) : Prop :=
  dev.present = false ∨ size = 0 ∨
    dev.sizeSectors.toNat < offset.toNat / 512 + (sectorCount size).toNat

instance (dev : BlockDevice) (offset size : UInt64) : Decidable (Refused dev offset size) :=
  inferInstanceAs (Decidable (_ ∨ _ ∨ _))

theorem toNat_sub_succ {a buf : UInt64} (h : a ≠ buf) :
    (a - buf).toNat = (a - (buf + 1)).toNat + 1 := by
  have hne : a.toNat ≠ buf.toNat := fun heq => h (UInt64.toNat_inj.mp heq)
  have ha := a.toNat_lt
  have hb := buf.toNat_lt
  have hone : (1 : UInt64).toNat = 1 := rfl
  rw [UInt64.toNat_sub, UInt64.toNat_sub, UInt64.toNat_add]
  omega

theorem copyOut_cons (buf : UInt64) (b : UInt8) (bytes : List UInt8) :
    copyOut buf (b :: bytes) = .store buf b (copyOut (buf + 1) bytes) := by
  have hcells : bufferCells buf (b :: bytes) = (buf, b) :: bufferCells (buf + 1) bytes := by
    simp [bufferCells, bufferAddrs, List.range_succ_eq_map, comp_def, UInt64.ofNat_add,
      UInt64.add_assoc, UInt64.add_comm 1]
  rw [copyOut, hcells]
  rfl

theorem run_copyOut (mem : UInt64 → UInt8) (buf : UInt64) (bytes : List UInt8)
    (hlen : bytes.length < 2 ^ 64) :
    ((copyOut buf bytes).run mem).2 = filled mem buf bytes.length (bytes.getD · 0) := by
  induction bytes generalizing buf mem with
  | nil => exact (funext fun a => if_neg (Nat.not_lt_zero _)).symm
  | cons b bytes ih =>
    rw [List.length_cons] at hlen
    rw [copyOut_cons]
    refine (ih (update mem buf b) (buf + 1) (by omega)).trans (funext fun a => ?_)
    by_cases ha : a = buf
    · subst ha
      have hlast : (a - (a + 1)).toNat = 2 ^ 64 - 1 := by
        have hone : (1 : UInt64).toNat = 1 := rfl
        rw [UInt64.toNat_sub, UInt64.toNat_add]
        omega
      rw [filled, filled, if_neg (by omega)]
      simp
    · simp [filled, toNat_sub_succ ha, update_of_ne ha]

theorem run_blockRead (dev : BlockDevice) (offset size buf : UInt64) (mem : UInt64 → UInt8) :
    (blockRead dev offset size buf).run mem =
      if Refused dev offset size then (some 0, mem)
      else match dev.readSectors (dev.lbaStart + offset / 512) (sectorCount size) with
        | some bytes => (some size, ((copyOut buf bytes).run mem).2)
        | none => (some 0, mem) := by
  have hsum :
    (dev.lbaStart + offset / 512 - dev.lbaStart + (sectorCount size).toUInt64 > dev.sizeSectors) ↔
      dev.sizeSectors.toNat < offset.toNat / 512 + (sectorCount size).toNat := by
    have hdiff : dev.lbaStart + offset / 512 - dev.lbaStart = offset / 512 := by
      rw [UInt64.add_comm, UInt64.add_sub_cancel]
    have hoff := offset.toNat_lt
    have hnum := (sectorCount size).toNat_lt
    have hquot : (offset / 512).toNat = offset.toNat / 512 := UInt64.toNat_div _ _
    rw [hdiff, gt_iff_lt, UInt64.lt_iff_toNat_lt, UInt64.toNat_add, UInt8.toNat_toUInt64, hquot]
    omega
  by_cases hst : dev.present = false ∨ size = 0
  · have href : Refused dev offset size := hst.elim .inl fun h => .inr (.inl h)
    have hfirst : (!dev.present || size == 0) = true := by simpa using hst
    simp [blockRead, href, hfirst]
  · have hfirst : ¬ (!dev.present || size == 0) = true := by simpa using hst
    have href : Refused dev offset size ↔
        dev.sizeSectors.toNat < offset.toNat / 512 + (sectorCount size).toNat := by
      simp only [Refused, ← or_assoc, hst, false_or]
    rw [blockRead, if_neg hfirst]
    by_cases hlarge : dev.sizeSectors.toNat < offset.toNat / 512 + (sectorCount size).toNat
    · rw [if_pos (href.mpr hlarge)]
      exact congrArg _ (if_pos (hsum.mpr hlarge))
    · rw [if_neg (href.not.mpr hlarge)]
      refine (congrArg _ (if_neg (hsum.not.mpr hlarge))).trans ?_
      change Task.run mem (match dev.readSectors (dev.lbaStart + offset / 512)
        (sectorCount size) with
        | some bytes => do copyOut buf bytes; pure (some size)
        | none => pure (some 0)) = _
      cases dev.readSectors (dev.lbaStart + offset / 512) (sectorCount size) <;> simp

/-- Whole sectors, at most 255, at an address of the disk. -/
structure Aligned (dev : BlockDevice) (offset size : UInt64) : Prop where
  start : offset.toNat % 512 = 0
  whole : size.toNat % 512 = 0
  few : size.toNat ≤ 255 * 512
  lba : dev.lbaStart.toNat + offset.toNat / 512 < 2 ^ 64

theorem length_sectors (disk : ℕ → UInt8) (lba : UInt64) (count : UInt8) :
    (sectors disk lba count).length = 512 * count.toNat := by
  simp [sectors]

variable {dev : BlockDevice} {offset size : UInt64}

theorem run_success (disk : ℕ → UInt8) (buf : UInt64) (mem : UInt64 → UInt8)
    (href : ¬ Refused dev offset size)
    (hread : dev.readSectors (dev.lbaStart + offset / 512) (sectorCount size) =
      some (sectors disk (dev.lbaStart + offset / 512) (sectorCount size))) :
    (blockRead dev offset size buf).run mem =
      (some size, filled mem buf (512 * (sectorCount size).toNat)
      fun i => disk (512 * (dev.lbaStart + offset / 512).toNat + i)) := by
  have hnum := (sectorCount size).toNat_lt
  have hlen := length_sectors disk (dev.lbaStart + offset / 512) (sectorCount size)
  simp only [run_blockRead, if_neg href, hread]
  rw [run_copyOut _ _ _ (by omega), hlen]
  refine congrArg _ (funext fun a => ?_)
  unfold filled
  split
  · rename_i ha
    simp [sectors, List.getD_eq_getElem?_getD, List.getElem?_range ha]
  · rfl

theorem toNat_sectorCount (size : UInt64) :
    (sectorCount size).toNat = (size.toNat + 511) % 2 ^ 64 / 512 % 256 := by
  simp [sectorCount, UInt64.toNat_div, UInt64.toNat_add]

theorem honest_of_aligned {disk : ℕ → UInt8} (hdisk : Reads dev disk)
    (h : Aligned dev offset size) (buf : UInt64) (mem : UInt64 → UInt8) :
    Honest dev disk offset size buf mem := by
  intro n hn hpos
  obtain ⟨hoff, hsize, hfew, hlba⟩ := h
  by_cases href : Refused dev offset size
  · rw [run_blockRead, if_pos href] at hn
    exact absurd hpos (by simp [← Option.some.inj hn])
  cases hread : dev.readSectors (dev.lbaStart + offset / 512) (sectorCount size) with
  | none =>
    rw [run_blockRead, if_neg href, hread] at hn
    exact absurd hpos (by simp [← Option.some.inj hn])
  | some bytes =>
    rw [hdisk _ _ _ hread] at hread
    have hrun := run_success disk buf mem href hread
    have hnum : 512 * (sectorCount size).toNat = size.toNat := by
      rw [toNat_sectorCount]
      omega
    have hfirst : (dev.lbaStart + offset / 512).toNat =
        dev.lbaStart.toNat + offset.toNat / 512 := by
      have hquot : (offset / 512).toNat = offset.toNat / 512 := UInt64.toNat_div _ _
      rw [UInt64.toNat_add, hquot, Nat.mod_eq_of_lt hlba]
    have hplace : 512 * (dev.lbaStart.toNat + offset.toNat / 512) =
        512 * dev.lbaStart.toNat + offset.toNat := by
      omega
    rw [hrun] at hn ⊢
    cases hn
    rw [hnum, hfirst, hplace]
    refine ⟨rfl, ?_⟩
    simp only [Refused, not_or, Nat.not_lt] at href
    omega

def BlockDevice.on (dev : BlockDevice) (disk : ℕ → UInt8) : BlockDevice :=
  { dev with readSectors := fun lba count => some (sectors disk lba count) }

theorem aligned_of_honest (href : ¬ Refused dev offset size)
    (h : ∀ disk mem, Honest (BlockDevice.on dev disk) disk offset size 0 mem) :
    Aligned dev offset size := by
  have hsize : 0 < size.toNat := by
    simp only [Refused, not_or] at href
    exact Nat.pos_of_ne_zero fun hz => href.2.1 (UInt64.toNat_inj.mp hz)
  have hmem (disk : ℕ → UInt8) (mem : UInt64 → UInt8) :
      filled mem 0 (512 * (sectorCount size).toNat)
        (fun i => disk (512 * (dev.lbaStart + offset / 512).toNat + i)) =
        filled mem 0 size.toNat fun i => disk (512 * dev.lbaStart.toNat + offset.toNat + i) := by
    have hon : ¬ Refused (BlockDevice.on dev disk) offset size := href
    have hrun := run_success disk 0 mem hon rfl
    have hhonest := (h disk mem size (by rw [hrun]) hsize).1
    rw [hrun] at hhonest
    exact hhonest
  have hnum : 512 * (sectorCount size).toNat = size.toNat := by
    by_contra hne
    have hsizeLt := size.toNat_lt
    -- a byte of memory behind the shorter of the two ranges
    obtain ⟨k, hk⟩ : ∃ k, k = min (512 * (sectorCount size).toNat) size.toNat := ⟨_, rfl⟩
    have hbyte := congrFun (hmem (fun _ => 0) fun _ => 1) (UInt64.ofNat k)
    have hat : (UInt64.ofNat k - 0).toNat = k := by
      rw [UInt64.sub_zero, UInt64.toNat_ofNat_of_lt' (by grind)]
    simp only [filled, hat] at hbyte
    split_ifs at hbyte <;> first | omega | cases hbyte
  have hplace : 512 * dev.lbaStart.toNat + offset.toNat =
      512 * (dev.lbaStart + offset / 512).toNat := by
    have hbyte := congrFun (hmem (fun k => if k = 512 * (dev.lbaStart + offset / 512).toNat then 1
      else 0) fun _ => 0) 0
    rw [hnum] at hbyte
    simpa [filled, hsize] using hbyte
  have hlbaLt := (dev.lbaStart + offset / 512).toNat_lt
  have hcut := toNat_sectorCount size
  exact ⟨by omega, by omega, by omega, by omega⟩

/-- For a region and a request, reads of any disk are honest exactly if the request is refused or
asks for at most 255 whole sectors. -/
theorem block_read_honest_iff (dev : BlockDevice) (offset size : UInt64) :
    (∀ readSectors disk buf mem, Reads { dev with readSectors } disk →
      Honest { dev with readSectors } disk offset size buf mem) ↔ Refused dev offset size ∨
        Aligned dev offset size := by
  constructor
  · intro h
    by_cases href : Refused dev offset size
    · exact .inl href
    · exact .inr (aligned_of_honest href fun disk mem =>
        h _ disk 0 mem fun lba count bytes hread => (Option.some.inj hread).symm)
  · rintro (href | halign) readSectors disk buf mem hdisk
    · intro n hn hpos
      rw [run_blockRead, if_pos (show Refused { dev with readSectors } offset size from
        href)] at hn
      exact absurd hpos (by simp [← Option.some.inj hn])
    · exact honest_of_aligned hdisk ⟨halign.start, halign.whole, halign.few,
        halign.lba⟩ buf mem

def smallDevice : BlockDevice := BlockDevice.on ⟨true, 0, 4, fun _ _ => none⟩ fun k => if k =
    1 then 1 else 0

/-- A read of one byte at offset 1 answers 1 and writes a whole sector, from offset 0 on. -/
theorem unaligned_read : Reads smallDevice (fun k => if k = 1 then 1 else 0) ∧
    ¬ Honest smallDevice (fun k => if k = 1 then 1 else 0) 1 1 0 fun _ => 2 := by
  refine ⟨fun lba count bytes hread => (Option.some.inj hread).symm, fun h => ?_⟩
  have href : ¬ Refused smallDevice 1 1 := by decide
  have hrun := run_success (fun k => if k = 1 then 1 else 0) 0 (fun _ => 2) href rfl
  have hmem := (h 1 (by rw [hrun]) (by decide)).1
  rw [hrun] at hmem
  exact absurd (congrFun hmem 0) (by decide)

end NexusKernel.DeviceReads
