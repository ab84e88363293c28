import NexusKernel.MetadataWalks

/-!
What `ntfs_read_mft_record` makes of a record. The last two bytes of each sector are checked
against the sequence number and restored from the array of the record; the check depends on the
bytes as read, and a restored record differs from them at the ends of the sectors only.
-/

namespace NexusKernel.NtfsRecords

open Lib.Iterations Lib.MemoryTasks ElfLoader Ntfs MetadataWalks Function Task Buffer

/-- The number of bytes to copy when `left` are wanted. -/
theorem toNat_toCopy (rest left : UInt64) : (if rest > left then left else rest).toNat =
    min rest.toNat left.toNat := by
  by_cases hmore : rest > left
  · rw [if_pos hmore, Nat.min_eq_right (UInt64.le_iff_toNat_le.mp (UInt64.le_of_lt hmore))]
  · rw [if_neg hmore, Nat.min_eq_left (UInt64.le_iff_toNat_le.mp (UInt64.not_lt.mp hmore))]

def setRecord (mem : Place → UInt8) (record : Buffer) : Place → UInt8
  | .record k => record k
  | place => mem place

@[simp] theorem recordOf_setRecord (mem : Place → UInt8) (record : Buffer) :
    recordOf (setRecord mem record) = record := rfl

theorem setRecord_recordOf (mem : Place → UInt8) : setRecord mem (recordOf mem) = mem := by
  funext place
  cases place <;> rfl

theorem setRecord_memory (record : Buffer) : setRecord (memory record) record = memory record :=
  setRecord_recordOf (memory record)

theorem setRecord_update (mem : Place → UInt8) (record : Buffer) (k : ℕ) (b : UInt8) :
    update (setRecord mem record) (.record k) b = setRecord mem (update record k b) := by
  funext place
  cases place with
  | record j =>
    by_cases hj : j = k
    · simp [setRecord, hj]
    · simp [setRecord, hj]
  | direntName i | asciiName i | childName i => simp [setRecord]

theorem u16_low (record : Buffer) (k : ℕ) : (record.u16 k).toUInt8 = record k := by
  apply UInt8.eq_of_toBitVec_eq
  ext i hi
  simp [u16]

theorem u16_high (record : Buffer) (k : ℕ) : (record.u16 k >>> 8).toUInt8 = record (k + 1) := by
  apply UInt8.eq_of_toBitVec_eq
  ext i hi
  have hlow : i < 16 := by omega
  have hhigh : 8 + i < 16 := by omega
  simp [u16, hlow, hhigh, BitVec.getLsbD_eq_getElem hi]

def fixedTo (raw : Buffer) (usa : ℕ) : ℕ → Buffer
  | 0 => raw
  | i + 1 =>
      update (update (fixedTo raw usa i) (512 * (i + 1) - 2)
        (fixedTo raw usa i (usa + 2 * (i + 1)))) (512 * (i + 1) - 1)
          (fixedTo raw usa i (usa + 2 * (i + 1) + 1))

theorem fixedTo_behind (raw : Buffer) (usa : ℕ) {i k : ℕ} (hk : 512 * i ≤ k) :
    fixedTo raw usa i k = raw k := by
  induction i with
  | zero => rfl
  | succ i ih =>
    have hlast : k ≠ 512 * (i + 1) - 1 := by omega
    have hlast' : k ≠ 512 * (i + 1) - 2 := by omega
    rw [fixedTo, update_of_ne hlast, update_of_ne hlast']
    exact ih (by omega)

theorem fixedTo_end (raw : Buffer) (usa i : ℕ) :
    (fixedTo raw usa i).u16 ((i + 1) * 512 - 2) = raw.u16 (512 * (i + 1) - 2) := by
  rw [Nat.mul_comm]
  simp only [u16]
  rw [fixedTo_behind raw usa (by omega), fixedTo_behind raw usa (by omega)]

section

variable (recordSize : UInt32) (raw : Buffer)

def fixups : ℕ := min ((raw.u16 6).toNat - 1) (recordSize.toNat / 512)

def usaOffset : ℕ := (raw.u16 4).toNat

def Sealed : Prop :=
  raw.u32 0 = fileMagic ∧ ∀ j < fixups recordSize raw, raw.u16 (512 * (j + 1) - 2) =
    raw.u16 (usaOffset raw)

instance : Decidable (Sealed recordSize raw) := inferInstanceAs (Decidable (_ ∧ _))

def fixedRecord : Buffer := fixedTo raw (usaOffset raw) (fixups recordSize raw)

end

variable (recordSize : UInt32) (mem : Place → UInt8) (raw : Buffer)

theorem run_restore (usa i : ℕ) : (do
    let word ← load16 (usa + 2 * (i + 1))
    store16 ((i + 1) * 512 - 2) word : RecordTask Unit).run (setRecord mem (fixedTo raw usa i)) =
    ((), setRecord mem (fixedTo raw usa (i + 1))) := by
  have hend : (i + 1) * 512 - 2 = 512 * (i + 1) - 2 := by omega
  have hlast : 512 * (i + 1) - 2 + 1 = 512 * (i + 1) - 1 := by omega
  simp only [run_bind, run_load16, recordOf_setRecord, store16, stores, run, u16_low, u16_high,
    setRecord_update, hend, hlast, fixedTo]

/-- One round of the fixup behind the first `i` sectors. -/
theorem run_fixupSectors_succ (usa : ℕ) (seqNum : UInt16) (n i : ℕ) :
    (fixupSectors recordSize usa seqNum (n + 1) (i + 1)).run (setRecord mem (fixedTo raw usa i)) =
      if recordSize.toNat / 512 ≤ i then (true, setRecord mem (fixedTo raw usa i))
      else if raw.u16 (512 * (i + 1) - 2) ≠ seqNum then (false, setRecord mem (fixedTo raw usa i))
      else (fixupSectors recordSize usa seqNum n (i + 2)).run
        (setRecord mem (fixedTo raw usa (i + 1))) := by
  rw [fixupSectors]
  by_cases hout : recordSize.toNat / 512 ≤ i
  · rw [if_pos hout, if_pos (by omega)]
    rfl
  rw [if_neg hout, if_neg (by omega), run_bind, run_load16, recordOf_setRecord]
  have hraw := fixedTo_end raw usa i
  by_cases hword : raw.u16 (512 * (i + 1) - 2) = seqNum
  · have hrest := run_restore mem raw usa i
    rw [run_bind] at hrest
    rw [if_neg (not_not_intro hword), if_neg (not_not_intro (hraw.trans hword)), run_bind,
      run_bind, hrest]
  · have hne : (fixedTo raw usa i).u16 ((i + 1) * 512 - 2) ≠ seqNum :=
      fun h => hword (hraw.symm.trans h)
    rw [if_pos hword, if_pos hne]
    rfl

/-- The loop of the fixup behind `i` sectors. It stops with the record. -/
theorem run_fixupSectors (usa : ℕ) (seqNum : UInt16) (n i : ℕ) :
    ((∀ j, i ≤ j → j < min (i + n) (recordSize.toNat / 512) →
      raw.u16 (512 * (j + 1) - 2) = seqNum) →
      (fixupSectors recordSize usa seqNum n (i + 1)).run (setRecord mem (fixedTo raw usa i)) =
        (true, setRecord mem (fixedTo raw usa (max i (min (i + n) (recordSize.toNat / 512)))))) ∧
    ((∃ j, i ≤ j ∧ j < min (i + n) (recordSize.toNat / 512) ∧
      raw.u16 (512 * (j + 1) - 2) ≠ seqNum) → ((fixupSectors recordSize usa seqNum n (i + 1)).run
        (setRecord mem (fixedTo raw usa i))).1 = false) := by
  induction n generalizing i with
  | zero =>
    refine ⟨fun _ => ?_, fun ⟨j, hij, hj, _⟩ => by omega⟩
    rw [Nat.max_eq_left (by omega)]
    rfl
  | succ n ih =>
    rw [run_fixupSectors_succ]
    by_cases hout : recordSize.toNat / 512 ≤ i
    · rw [if_pos hout, Nat.max_eq_left (by omega)]
      exact ⟨fun _ => rfl, fun ⟨j, hij, hj, _⟩ => by omega⟩
    rw [if_neg hout]
    by_cases hword : raw.u16 (512 * (i + 1) - 2) = seqNum
    swap
    · rw [if_pos hword]
      exact ⟨fun hall => absurd (hall i le_rfl (by omega)) hword, fun _ => rfl⟩
    rw [if_neg (not_not_intro hword)]
    obtain ⟨hgood, hbad⟩ := ih (i + 1)
    have hnum : i + 1 + n = i + (n + 1) := by omega
    rw [hnum] at hgood hbad
    constructor
    · intro hall
      have hmax : max (i + 1) (min (i + (n + 1)) (recordSize.toNat / 512)) =
          max i (min (i + (n + 1)) (recordSize.toNat / 512)) := by omega
      rw [hgood (fun j hj => hall j (by omega)), hmax]
    · rintro ⟨j, hij, hj, hne⟩
      have hji : j ≠ i := fun h => hne (h ▸ hword)
      exact hbad ⟨j, by omega, hj, hne⟩

variable {recordSize raw}

theorem run_fixup (hsealed : Sealed recordSize raw) : (fixup recordSize).run (setRecord mem raw) =
      (true, setRecord mem (fixedRecord recordSize raw)) := by
  obtain ⟨hmagic, hends⟩ := hsealed
  have hmagic' : (recordOf (setRecord mem raw)).u32 0 = fileMagic := hmagic
  rw [fixup, run_bind, run_load32, if_neg (not_not_intro hmagic')]
  have hloop := (run_fixupSectors recordSize mem raw (usaOffset raw) (raw.u16 (usaOffset raw))
    ((raw.u16 6).toNat - 1) 0).1
  simp only [Nat.zero_add, Nat.zero_max] at hloop
  exact hloop fun j _ hj => hends j hj

theorem run_fixup_not (hsealed : ¬ Sealed recordSize raw) :
    ((fixup recordSize).run (setRecord mem raw)).1 = false := by
  by_cases hmagic : (recordOf (setRecord mem raw)).u32 0 = fileMagic
  swap
  · rw [fixup, run_bind, run_load32, if_pos hmagic]
    rfl
  have hbad : ∃ j < fixups recordSize raw, raw.u16 (512 * (j + 1) - 2) ≠ raw.u16
      (usaOffset raw) := by
    by_contra hnone
    push Not at hnone
    exact hsealed ⟨hmagic, hnone⟩
  obtain ⟨j, hj, hne⟩ := hbad
  rw [fixup, run_bind, run_load32, if_neg (not_not_intro hmagic)]
  have hloop := (run_fixupSectors recordSize mem raw (usaOffset raw) (raw.u16 (usaOffset raw))
    ((raw.u16 6).toNat - 1) 0).2
  simp only [Nat.zero_add] at hloop
  exact hloop ⟨j, Nat.zero_le j, hj, hne⟩

theorem run_onAttr {α : Type} {type attr : UInt32} {fuel : ℕ} (hsealed : Sealed recordSize raw)
    (hfound : iterate (attrRound (fixedRecord recordSize raw) type recordSize) fuel
      ((fixedRecord recordSize raw).u16 20).toUInt32 = some (some attr))
    (body : ℕ → RecordTask (Option (Option α))) :
    (onAttr recordSize type fuel body).run (setRecord mem raw) =
    (body attr.toNat).run (setRecord mem (fixedRecord recordSize raw)) := by
  rw [onAttr, run_bind, run_fixup mem hsealed, if_pos rfl, run_bind, run_ntfsFindAttr,
    recordOf_setRecord, hfound]

end NexusKernel.NtfsRecords
