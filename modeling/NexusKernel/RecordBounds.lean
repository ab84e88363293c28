import NexusKernel.NtfsRecords

/-!
Which bytes fs/ntfs.c touches while it works on a record. The buffer is as large as a record, and
the fields for names are those of `dirent_t`, of the local array and of `vfs_node_t`. The offsets
of the update sequence, of a value and of the index entries come from the disk unchecked, so only
records with small enough offsets are safe.
-/

namespace NexusKernel.RecordBounds

open Lib.Iterations Lib.MemoryTasks Lib.CStrings ElfLoader Ntfs MetadataWalks
  NtfsRecords Task
open Function

def Inside (size : ℕ) : Place → Prop
  | .record k => k < size
  | .direntName i => i < 256
  | .asciiName i => i < 256
  | .childName i => i < 128

variable {α β σ : Type}

def Stays (size : ℕ) (task : RecordTask α) (mem : Place → UInt8) : Prop :=
  ∀ x ∈ task.accesses mem, Inside size x.1

@[simp] theorem stays_pure {size : ℕ} {a : α} {mem : Place → UInt8} : Stays size (pure a) mem := by
  simp [Stays]

section

variable (size : ℕ) (mem : Place → UInt8)

@[simp] theorem stays_bind (t : RecordTask α) (f : α → RecordTask β) :
    Stays size (t >>= f) mem ↔ Stays size t mem ∧ Stays size (f (t.run mem).1) (t.run mem).2 := by
  simp only [Stays, accesses_bind, List.forall_mem_append]

theorem stays_store (place : Place) (b : UInt8) (t : RecordTask α) :
    Stays size (.store place b t) mem ↔ Inside size place ∧ Stays size t (update mem place b) := by
  simp [Stays, accesses]

@[simp] theorem stays_load8 (k : ℕ) : Stays size (load8 k) mem ↔ k + 1 ≤ size := by
  simp only [Stays, load8, accesses, List.forall_mem_singleton, Inside, Nat.lt_iff_add_one_le]

@[simp] theorem stays_load16 (k : ℕ) : Stays size (load16 k) mem ↔ k + 2 ≤ size := by
  simp only [load16, stays_bind, stays_load8, stays_pure, and_true]
  omega

@[simp] theorem stays_load32 (k : ℕ) : Stays size (load32 k) mem ↔ k + 4 ≤ size := by
  simp only [load32, stays_bind, stays_load16, stays_pure, and_true]
  omega

@[simp] theorem stays_load64 (k : ℕ) : Stays size (load64 k) mem ↔ k + 8 ≤ size := by
  simp only [load64, stays_bind, stays_load32, stays_pure, and_true]
  omega

@[simp] theorem stays_store16 (k : ℕ) (w : UInt16) : Stays size (store16 k w) mem ↔
    k + 2 ≤ size := by
  simp only [Stays, store16, accesses_stores, List.map_cons, List.map_nil, List.forall_mem_cons,
    List.not_mem_nil, IsEmpty.forall_iff, implies_true, and_true, Inside]
  omega

theorem stays_loads (start n : ℕ) :
    Stays size (loads ((List.range n).map (fun i => Place.record (start + i)))) mem ↔
      n = 0 ∨ start + n ≤ size := by
  simp only [Stays, accesses_loads, List.map_map, List.forall_mem_map, List.mem_range, comp_apply,
    Inside]
  constructor
  · intro h
    have hlast := h (n - 1)
    omega
  · rintro (rfl | h) i hi <;> omega

end

section

variable (recordSize : UInt32) (mem : Place → UInt8) (raw : Buffer)

theorem stays_fixupSectors (usa : ℕ) (seqNum : UInt16) (n i : ℕ) :
    Stays recordSize.toNat (fixupSectors recordSize usa seqNum n (i + 1))
      (setRecord mem (fixedTo raw usa i)) ↔ ∀ j, i ≤ j → j < min (i + n) (recordSize.toNat / 512) →
        (∀ k, i ≤ k → k ≤ j → raw.u16 (512 * (k + 1) - 2) = seqNum) →
          usa + 2 * (j + 1) + 2 ≤ recordSize.toNat := by
  induction n generalizing i with
  | zero =>
    exact iff_of_true (stays_pure) fun j hij hj => by omega
  | succ n ih =>
    have hraw := fixedTo_end raw usa i
    rw [fixupSectors]
    by_cases hout : recordSize.toNat / 512 ≤ i
    · rw [if_pos (by omega)]
      exact iff_of_true (stays_pure) fun j hij hj => by omega
    rw [if_neg (by omega), stays_bind, stays_load16, run_load16, recordOf_setRecord]
    by_cases hword : raw.u16 (512 * (i + 1) - 2) = seqNum
    swap
    · have hne : (fixedTo raw usa i).u16 ((i + 1) * 512 - 2) ≠ seqNum :=
        fun h => hword (hraw.symm.trans h)
      rw [if_pos hne]
      refine iff_of_true ⟨by omega, stays_pure⟩ fun j hij hj hall => ?_
      exact absurd (hall i le_rfl hij) hword
    have hrest := run_restore mem raw usa i
    rw [run_bind, run_load16] at hrest
    rw [if_neg (not_not_intro (hraw.trans hword)), stays_bind, stays_load16, run_load16, stays_bind,
      stays_store16, hrest, ih (i + 1)]
    constructor
    · rintro ⟨-, hhere, -, hlater⟩ j hij hj hall
      rcases Nat.eq_or_lt_of_le hij with rfl | hlt
      · exact hhere
      · exact hlater j hlt (by omega) fun k hk => hall k (by omega)
    · intro h
      refine ⟨by omega, h i le_rfl (by omega) (fun k hk hk' => ?_), by omega,
        fun j hj hj' hall => ?_⟩
      · rw [show k = i by omega]
        exact hword
      · refine h j (by omega) (by omega) (fun k hk hk' => ?_)
        rcases Nat.eq_or_lt_of_le hk with rfl | hlt
        · exact hword
        · exact hall k hlt hk'

def FixupBounded : Prop :=
  4 ≤ recordSize.toNat ∧ (raw.u32 0 = fileMagic → 8 ≤ recordSize.toNat ∧
    usaOffset raw + 2 ≤ recordSize.toNat ∧ ∀ j < fixups recordSize raw,
          (∀ k ≤ j, raw.u16 (512 * (k + 1) - 2) = raw.u16 (usaOffset raw)) →
            usaOffset raw + 2 * (j + 1) + 2 ≤ recordSize.toNat)

theorem stays_fixup : Stays recordSize.toNat (fixup recordSize) (setRecord mem raw) ↔
      FixupBounded recordSize raw := by
  rw [fixup, stays_bind, stays_load32, run_load32]
  refine and_congr_right fun _ => ?_
  by_cases hmagic : (recordOf (setRecord mem raw)).u32 0 = fileMagic
  swap
  · rw [if_pos hmagic]
    exact iff_of_true (stays_pure) fun h => absurd h hmagic
  have hloop := stays_fixupSectors recordSize mem raw (usaOffset raw) (raw.u16 (usaOffset raw))
    ((raw.u16 6).toNat - 1) 0
  simp only [Nat.zero_add, Nat.zero_le, forall_const] at hloop
  rw [if_neg (not_not_intro hmagic), stays_bind, stays_load16, stays_bind, stays_load16,
    stays_bind, stays_load16]
  refine Iff.trans ?_ (imp_iff_right hmagic).symm
  constructor
  · rintro ⟨-, husa, hsize, hsectors⟩
    exact ⟨by omega, husa, hloop.mp hsectors⟩
  · rintro ⟨hsize, husa, hsectors⟩
    exact ⟨by omega, husa, by omega, hloop.mpr hsectors⟩

/-- The search compares its offsets with the size of the record. -/
theorem stays_findAttrFrom (type : UInt32) (fuel : ℕ) (off : UInt32) :
    Stays recordSize.toNat (findAttrFrom type recordSize fuel off) mem := by
  induction fuel generalizing off with
  | zero => exact stays_pure
  | succ fuel ih =>
    rw [findAttrFrom]
    by_cases hin : off.toNat + 16 ≤ recordSize.toNat
    swap
    · rw [if_neg hin]
      exact stays_pure
    rw [if_pos hin, stays_bind, stays_load32, run_load32]
    refine ⟨by omega, ?_⟩
    by_cases hend : (recordOf mem).u32 off.toNat = 0xFFFFFFFF
    · rw [if_pos hend]
      exact stays_pure
    rw [if_neg hend, stays_bind, stays_load32, run_load32]
    refine ⟨by omega, ?_⟩
    split_ifs
    · exact stays_pure
    · exact stays_pure
    · exact ih _

theorem stays_ntfsFindAttr (type : UInt32) (fuel : ℕ) :
    Stays recordSize.toNat (ntfsFindAttr type recordSize fuel) mem ↔ 22 ≤ recordSize.toNat := by
  rw [ntfsFindAttr, stays_bind, stays_load16]
  exact and_iff_left (stays_findAttrFrom recordSize mem type fuel _)

def FoundAttr (record : Buffer) (type recordSize attr : UInt32) : Prop :=
  ∃ fuel, iterate (attrRound record type recordSize) fuel (record.u16 20).toUInt32 =
    some (some attr)

theorem stays_onAttr (type : UInt32) (fuel : ℕ) (body : ℕ → RecordTask (Option (Option α))) :
    Stays recordSize.toNat (onAttr recordSize type fuel body) (setRecord mem raw) ↔
      FixupBounded recordSize raw ∧ (Sealed recordSize raw → 22 ≤ recordSize.toNat ∧
          ∀ attr, iterate (attrRound (fixedRecord recordSize raw) type recordSize) fuel
              ((fixedRecord recordSize raw).u16 20).toUInt32 = some (some attr) →
            Stays recordSize.toNat (body attr.toNat)
              (setRecord mem (fixedRecord recordSize raw))) := by
  rw [onAttr, stays_bind, stays_fixup]
  refine and_congr_right (fun _ => ?_)
  by_cases hsealed : Sealed recordSize raw
  swap
  · rw [run_fixup_not mem hsealed]
    exact iff_of_true (stays_pure) (fun h => absurd h hsealed)
  rw [run_fixup mem hsealed, if_pos rfl, stays_bind, stays_ntfsFindAttr, run_ntfsFindAttr,
    recordOf_setRecord]
  refine Iff.trans (and_congr_right (fun _ => ?_)) (imp_iff_right hsealed).symm
  rcases iterate (attrRound (fixedRecord recordSize raw) type recordSize) fuel
    ((fixedRecord recordSize raw).u16 20).toUInt32 with _ | _ | attr
  · exact iff_of_true (stays_pure) (fun _ h => absurd h (by simp))
  · exact iff_of_true (stays_pure) (fun _ h => absurd h (by simp))
  · constructor
    · intro h attr' hattr
      obtain rfl : attr = attr' := by simpa using hattr
      exact h
    · exact fun h => h attr rfl

/-- All numbers of rounds together. A body with more rounds makes at least the accesses it makes
with fewer. -/
theorem forall_stays_onAttr (type : UInt32) (body : ℕ → ℕ → RecordTask (Option (Option α)))
    (hmono : ∀ attr m n, m ≤ n → Stays recordSize.toNat (body n attr)
      (setRecord mem (fixedRecord recordSize raw)) →
        Stays recordSize.toNat (body m attr) (setRecord mem (fixedRecord recordSize raw))) :
    (∀ fuel, Stays recordSize.toNat (onAttr recordSize type fuel (body fuel)) (setRecord mem raw)) ↔
      FixupBounded recordSize raw ∧ (Sealed recordSize raw → 22 ≤ recordSize.toNat ∧
          ∀ attr, FoundAttr (fixedRecord recordSize raw) type recordSize attr →
            ∀ fuel, Stays recordSize.toNat (body fuel attr.toNat)
              (setRecord mem (fixedRecord recordSize raw))) := by
  simp only [stays_onAttr]
  constructor
  · intro h
    refine ⟨(h 0).1, fun hsealed => ⟨((h 0).2 hsealed).1, ?_⟩⟩
    rintro attr ⟨found, hfound⟩ fuel
    have hmax := iterate_mono (fun _ _ hturn => hturn) hfound (Nat.le_max_left found fuel)
    have hboth := ((h (max found fuel)).2 hsealed).2 attr hmax
    exact hmono attr.toNat fuel _ (Nat.le_max_right _ _) hboth
  · rintro ⟨hfixup, hrest⟩ fuel
    refine ⟨hfixup, fun hsealed => ⟨(hrest hsealed).1, fun attr hattr => ?_⟩⟩
    exact (hrest hsealed).2 attr ⟨fuel, hattr⟩ fuel

end

section

variable (record : Buffer)

def Ends (entry : ℕ) : Prop := record.u32 (entry + 12) &&& 0x02 ≠ 0 ∨ record.u16 (entry + 8) < 16

def Keyed (entry : ℕ) : Prop :=
  record.u16 (entry + 10) ≠ 0 ∧ ¬ record.u64 entry &&& 0x0000FFFFFFFFFFFF < 16

instance (entry : ℕ) : Decidable (Ends record entry) := inferInstanceAs (Decidable (_ ∨ _))
instance (entry : ℕ) : Decidable (Keyed record entry) := inferInstanceAs (Decidable (_ ∧ _))

/-- One round of the walk. For the key at a place and the state of the operation, `goesOn` has the
next state, or nothing if the operation returns. -/
def entryRound (goesOn : ℕ → σ → Option σ) (at' : ℕ × σ) : Option ((ℕ × σ) ⊕ Unit) :=
  let next := at'.1 + (record.u16 (at'.1 + 8)).toNat
  if Ends record at'.1 then some (.inr ())
  else if Keyed record at'.1 then
    match goesOn (at'.1 + 16) at'.2 with
    | none => some (.inr ())
    | some s => some (.inl (next, s))
  else some (.inl (next, at'.2))

def EntryBounded (size : ℕ) (key : ℕ → σ → Prop) (at' : ℕ × σ) : Prop :=
  at'.1 + 16 ≤ size ∧ (¬ Ends record at'.1 → Keyed record at'.1 → key (at'.1 + 16) at'.2)

variable {record} {goesOn : ℕ → σ → Option σ} {entry : ℕ} {s : σ}

theorem entryRound_ends (hends : Ends record entry) :
    entryRound record goesOn (entry, s) = some (.inr ()) := if_pos hends

theorem entryRound_skip (hends : ¬ Ends record entry) (hkeyed : ¬ Keyed record entry) :
    entryRound record goesOn (entry, s) = some (.inl (entry + (record.u16 (entry + 8)).toNat, s)) :=
  (if_neg hends).trans (if_neg hkeyed)

theorem entryRound_keyed (hends : ¬ Ends record entry) (hkeyed : Keyed record entry) :
    entryRound record goesOn (entry, s) =
      match goesOn (entry + 16) s with
      | none => some (.inr ())
      | some s' => some (.inl (entry + (record.u16 (entry + 8)).toNat, s')) :=
  (if_neg hends).trans (if_pos hkeyed)

end

structure VisitSpec (size : ℕ) (visit : ℕ → UInt64 → σ → RecordTask (α ⊕ σ))
    (goesOn : Buffer → ℕ → σ → Option σ) (key : Buffer → ℕ → σ → Prop) : Prop where
  keeps : ∀ fn recNum s mem, recordOf ((visit fn recNum s).run mem).2 = recordOf mem
  goes : ∀ fn recNum s mem, ((visit fn recNum s).run mem).1.getRight? = goesOn (recordOf mem) fn s
  stays : ∀ fn recNum s mem, Stays size (visit fn recNum s) mem ↔ key (recordOf mem) fn s

section

variable {size : ℕ} {visit : ℕ → UInt64 → σ → RecordTask (α ⊕ σ)} {goesOn : Buffer →
    ℕ → σ → Option σ} {key : Buffer → ℕ → σ → Prop}

theorem stays_walkEntries (h : VisitSpec size visit goesOn key) (fuel entry : ℕ) (s : σ)
    (mem : Place → UInt8) : Stays size (walkEntries visit fuel entry s) mem ↔
      ∀ i < fuel, ∀ t, stateAt (entryRound (recordOf mem) (goesOn (recordOf mem)))
        (entry, s) i = some t → EntryBounded (recordOf mem) size (key (recordOf mem)) t := by
  induction fuel generalizing entry s mem with
  | zero => exact iff_of_true (stays_pure) (fun i hi => by omega)
  | succ fuel ih =>
    have hhead : ∀ {P : Prop}, (entry + 8 ≤ size ∧ entry + 8 + 2 ≤ size ∧ entry + 10 + 2 ≤ size ∧
        entry + 12 + 4 ≤ size ∧ P) ↔ entry + 16 ≤ size ∧ P := by
      grind
    rw [forall_stateAt_succ, walkEntries, stays_bind, stays_load64, run_load64,
      stays_bind, stays_load16,
      run_load16, stays_bind, stays_load16, run_load16, stays_bind, stays_load32,
        run_load32, hhead, EntryBounded, and_assoc]
    refine and_congr_right (fun _ => ?_)
    by_cases hends : Ends (recordOf mem) entry
    · rw [entryRound_ends hends]
      refine iff_of_true ?_ ⟨fun h => absurd hends h, fun _ h => absurd h (by simp)⟩
      by_cases hlast : (recordOf mem).u32 (entry + 12) &&& 0x02 ≠ 0
      · rw [if_pos hlast]
        exact stays_pure
      · rw [if_neg hlast, if_pos (hends.resolve_left hlast)]
        exact stays_pure
    have hlast : ¬ (recordOf mem).u32 (entry + 12) &&& 0x02 ≠ 0 := fun h => hends (.inl h)
    have hshort : ¬ (recordOf mem).u16 (entry + 8) < 16 := fun h => hends (.inr h)
    rw [if_neg hlast, if_neg hshort]
    by_cases hkeyed : Keyed (recordOf mem) entry
    swap
    · rw [entryRound_skip hends hkeyed]
      dsimp only
      split_ifs with hkey hsystem
      · simp [ih, hkeyed]
      · simp [ih, hkeyed]
      · exact absurd ⟨hkey, hsystem⟩ hkeyed
    have hgoes := h.goes (entry + 16) ((recordOf mem).u64 entry &&& 0x0000FFFFFFFFFFFF) s mem
    have hkeeps := h.keeps (entry + 16) ((recordOf mem).u64 entry &&& 0x0000FFFFFFFFFFFF) s mem
    rw [if_neg hkeyed.1, if_neg hkeyed.2, stays_bind, h.stays,
      entryRound_keyed hends hkeyed, ← hgoes]
    refine and_congr ⟨fun hkey _ _ => hkey, fun hkey => hkey hends hkeyed⟩ ?_
    generalize (visit (entry + 16) ((recordOf mem).u64 entry &&& 0x0000FFFFFFFFFFFF) s).run
      mem = out at hkeeps
    obtain ⟨turn, mem'⟩ := out
    cases turn with
    | inl a => exact iff_of_true (stays_pure) (fun _ h => absurd h (by simp))
    | inr s' =>
      have hwalk := ih (entry + ((recordOf mem).u16 (entry + 8)).toNat) s' mem'
      rw [hkeeps] at hwalk
      simpa using hwalk

end

def asciiFrom (record : Buffer) (src : ℕ) : ℕ → ℕ → List UInt8
  | 0, _ => []
  | n + 1, i =>
      (if record.u16 (src + 2 * i) < 0x80 then (record.u16 (src + 2 * i)).toUInt8 else 0x3F) ::
        asciiFrom record src n (i + 1)

section

variable (size : ℕ) (mem : Place → UInt8)

theorem recordOf_store {dest : ℕ → Place} (hdest : ∀ i k, dest i ≠ .record k) (i : ℕ) (b : UInt8) :
    recordOf (update mem (dest i) b) = recordOf mem := by
  funext k
  exact update_of_ne (hdest i k).symm b mem

theorem run_utf16ToAscii (dest : ℕ → Place) (hdest : ∀ i k, dest i ≠ .record k) (src n i : ℕ) :
    ((utf16ToAscii dest src n i).run mem).1 = asciiFrom (recordOf mem) src n i ∧
      recordOf ((utf16ToAscii dest src n i).run mem).2 = recordOf mem := by
  induction n generalizing i mem with
  | zero => exact ⟨rfl, recordOf_store mem hdest i 0⟩
  | succ n ih =>
    rw [utf16ToAscii, run_bind, run_load16]
    dsimp only [run]
    rw [run_bind, run_pure]
    obtain ⟨hchars, hrec⟩ := ih (update mem (dest i)
      (if (recordOf mem).u16 (src + 2 * i) < 0x80 then ((recordOf mem).u16 (src + 2 * i)).toUInt8
        else 0x3F)) (i + 1)
    rw [recordOf_store mem hdest] at hchars hrec
    exact ⟨by rw [hchars, asciiFrom], hrec⟩

/-- A name that fits into its field is read from the record. -/
theorem stays_utf16ToAscii (dest : ℕ → Place) (src n i : ℕ)
    (hfits : ∀ j ≤ i + n, Inside size (dest j)) :
    Stays size (utf16ToAscii dest src n i) mem ↔ n = 0 ∨ src + 2 * (i + n) ≤ size := by
  induction n generalizing i mem with
  | zero =>
    rw [utf16ToAscii, stays_store]
    exact iff_of_true ⟨hfits i (by omega), stays_pure⟩ (.inl rfl)
  | succ n ih =>
    rw [utf16ToAscii, stays_bind, stays_load16, stays_store, stays_bind, ih _ (i + 1)
      (fun j hj => hfits j (by omega))]
    have hhere := hfits i (by omega)
    constructor
    · rintro ⟨hfirst, -, hrest, -⟩
      omega
    · intro h
      exact ⟨by omega, hhere, by omega, stays_pure⟩

theorem stays_copyName (name : List UInt8) : Stays size (copyName .childName name) mem ↔
    name.length + 1 ≤ 128 := by
  simp only [Stays, copyName, accesses_stores, List.map_map, List.forall_mem_map,
    comp_apply, Inside]
  constructor
  · intro h
    have hlast : ((0 : UInt8), name.length) ∈ (name ++ [0]).zipIdx := by
      rw [List.mk_mem_zipIdx_iff_getElem?]
      simp
    exact h _ hlast
  · intro h x hx
    have hindex := List.snd_lt_of_mem_zipIdx hx
    simp only [List.length_append, List.length_singleton] at hindex
    omega

theorem recordOf_copyName (name : List UInt8) : recordOf ((copyName .childName name).run mem).2 =
    recordOf mem := by
  unfold copyName
  generalize (name ++ [0]).zipIdx = cells
  induction cells generalizing mem with
  | nil => rfl
  | cons cell rest ih =>
    exact (ih _).trans (recordOf_store mem (fun _ _ => Place.noConfusion) cell.2 cell.1)

end

section

variable (record : Buffer) (size fn : ℕ)

def keyName : List UInt8 := cString (asciiFrom record (fn + 66) (record (fn + 64)).toNat 0)

def NameBounded : Prop :=
  fn + 65 ≤ size ∧ ((record (fn + 64)).toNat = 0 ∨ fn + 66 + 2 * (record (fn + 64)).toNat ≤ size)

def readdirGoesOn (index validCount : UInt32) : Option UInt32 :=
  if validCount = index then none else some (validCount + 1)

def finddirGoesOn (name : List UInt8) (_ : Unit) : Option Unit :=
  if keyName record fn = name then none else some ()

def ReaddirKey (index validCount : UInt32) : Prop := validCount = index → NameBounded record size fn

def FinddirKey (name : List UInt8) (_ : Unit) : Prop :=
  NameBounded record size fn ∧ (keyName record fn = name → name.length + 1 ≤ 128)

end

theorem stays_name (size : ℕ) (mem : Place → UInt8) (dest : ℕ → Place)
    (hdest : ∀ i < 256, Inside size (dest i)) (fn : ℕ) (next : List UInt8 → RecordTask α) :
    Stays size (load8 (fn + 64) >>= fun length => utf16ToAscii dest (fn + 66) length.toNat 0
      >>= next) mem ↔ NameBounded (recordOf mem) size fn ∧
        Stays size (next ((utf16ToAscii dest (fn + 66) (recordOf mem (fn + 64)).toNat 0).run mem).1)
          ((utf16ToAscii dest (fn + 66) (recordOf mem (fn + 64)).toNat 0).run mem).2 := by
  have hlen := (recordOf mem (fn + 64)).toNat_lt
  have hname := stays_utf16ToAscii size mem dest (fn + 66) (recordOf mem (fn + 64)).toNat 0
    (fun j hj => hdest j (by omega))
  rw [Nat.zero_add] at hname
  rw [stays_bind, stays_load8, run_load8, stays_bind, hname, NameBounded, and_assoc]

theorem readdirVisit_spec (size : ℕ) (index : UInt32) :
    VisitSpec size (readdirVisit index) (fun _ _ => readdirGoesOn index)
      (fun record fn => ReaddirKey record size fn index) where
  keeps fn recNum s mem := by
    unfold readdirVisit
    by_cases hfound : s = index
    · rw [if_pos hfound, run_bind, run_bind, run_bind]
      exact (run_utf16ToAscii mem .direntName (fun _ _ => Place.noConfusion) _ _ _).2
    · rw [if_neg hfound]
      rfl
  goes fn recNum s mem := by
    unfold readdirVisit readdirGoesOn
    by_cases hfound : s = index
    · rw [if_pos hfound, if_pos hfound, run_bind, run_bind, run_bind]
      rfl
    · rw [if_neg hfound, if_neg hfound]
      rfl
  stays fn recNum s mem := by
    unfold readdirVisit ReaddirKey
    by_cases hfound : s = index
    swap
    · rw [if_neg hfound]
      exact iff_of_true (stays_pure) fun h => absurd h hfound
    rw [if_pos hfound, imp_iff_right hfound,
      stays_name size mem .direntName (fun i hi => hi), stays_bind, stays_load32]
    refine and_iff_left_of_imp fun h => ⟨?_, stays_pure⟩
    have hsize := h.1
    omega

theorem finddirVisit_spec (size : ℕ) (name : List UInt8) :
    VisitSpec size (finddirVisit name) (fun record fn => finddirGoesOn record fn name)
      (fun record fn => FinddirKey record size fn name) where
  keeps fn recNum s mem := by
    obtain ⟨-, hrec⟩ := run_utf16ToAscii mem .asciiName (fun _ _ => Place.noConfusion)
      (fn + 66) (recordOf mem (fn + 64)).toNat 0
    unfold finddirVisit
    rw [run_bind, run_bind]
    split_ifs
    · rw [run_bind, run_bind, run_bind]
      exact (recordOf_copyName _ _).trans hrec
    · exact hrec
  goes fn recNum s mem := by
    obtain ⟨hchars, -⟩ := run_utf16ToAscii mem .asciiName (fun _ _ => Place.noConfusion)
      (fn + 66) (recordOf mem (fn + 64)).toNat 0
    unfold finddirVisit finddirGoesOn keyName
    rw [run_bind, run_load8, run_bind, hchars]
    by_cases hfound :
      cString (asciiFrom (recordOf mem) (fn + 66) (recordOf mem (fn + 64)).toNat 0) = name
    · rw [if_pos hfound, if_pos hfound, run_bind, run_bind, run_bind]
      rfl
    · rw [if_neg hfound, if_neg hfound]
      rfl
  stays fn recNum s mem := by
    obtain ⟨hchars, -⟩ := run_utf16ToAscii mem .asciiName (fun _ _ => Place.noConfusion)
      (fn + 66) (recordOf mem (fn + 64)).toNat 0
    unfold finddirVisit FinddirKey keyName
    rw [stays_name size mem .asciiName (fun i hi => hi), hchars]
    refine and_congr_right fun hname => ?_
    by_cases hfound :
      cString (asciiFrom (recordOf mem) (fn + 66) (recordOf mem (fn + 64)).toNat 0) = name
    swap
    · rw [if_neg hfound]
      exact iff_of_true (stays_pure) fun h => absurd h hfound
    have hsize := hname.1
    rw [if_pos hfound, imp_iff_right hfound, hfound, stays_bind, stays_copyName]
    refine and_iff_left ?_
    rw [stays_bind, stays_load32, stays_bind, stays_load64]
    exact ⟨by omega, by omega, stays_pure⟩

section

variable (record : Buffer) (size attr : ℕ)

def indexHeader : ℕ := attr + (record.u16 (attr + 20)).toNat + 16

def firstEntryAt : ℕ := indexHeader record attr + (record.u32 (indexHeader record attr)).toNat

def IndexBounded (goesOn : ℕ → σ → Option σ) (key : ℕ → σ → Prop) (s : σ) : Prop :=
  attr + 22 ≤ size ∧ indexHeader record attr + 4 ≤ size ∧
    ∀ i t, stateAt (entryRound record goesOn) (firstEntryAt record attr, s) i = some t →
      EntryBounded record size key t

variable {record size attr} {visit : ℕ → UInt64 → σ → RecordTask (α ⊕ σ)} {goesOn : Buffer →
    ℕ → σ → Option σ} {key : Buffer → ℕ → σ → Prop}

theorem stays_index (h : VisitSpec size visit goesOn key) (fuel : ℕ) (s : σ) (mem : Place → UInt8) :
    Stays size (firstEntry attr >>= fun entry => walkEntries visit fuel entry s) mem ↔
      attr + 22 ≤ size ∧ indexHeader (recordOf mem) attr + 4 ≤ size ∧
        ∀ i < fuel, ∀ t, stateAt (entryRound (recordOf mem) (goesOn (recordOf mem)))
            (firstEntryAt (recordOf mem) attr, s) i = some t →
          EntryBounded (recordOf mem) size (key (recordOf mem)) t := by
  rw [stays_bind, firstEntry, stays_bind, stays_load16, stays_bind, stays_load32, run_bind,
    run_load16, run_bind, run_load32, run_pure, stays_walkEntries h]
  simp only [stays_pure, and_true, and_assoc, indexHeader, firstEntryAt]

theorem forall_stays_index (h : VisitSpec size visit goesOn key) (s : σ) (mem : Place → UInt8) :
    (∀ fuel, Stays size (firstEntry attr >>= fun entry => walkEntries visit fuel entry s) mem) ↔
      IndexBounded (recordOf mem) size attr (goesOn (recordOf mem)) (key (recordOf mem)) s := by
  simp only [stays_index h]
  constructor
  · intro hall
    exact ⟨(hall 0).1, (hall 0).2.1, fun i t ht => (hall (i + 1)).2.2 i (Nat.lt_succ_self i) t ht⟩
  · rintro ⟨hvalue, hhead, hentries⟩ fuel
    exact ⟨hvalue, hhead, fun i _ t ht => hentries i t ht⟩

end

section

variable (record : Buffer) (size attr : ℕ) (offset count : UInt64)

def ValueBounded : Prop :=
  attr + 22 ≤ size ∧ (offset.toNat < (record.u32 (attr + 16)).toNat →
      attr + (record.u16 (attr + 20)).toNat + offset.toNat +
        min ((record.u32 (attr + 16)).toNat - offset.toNat) count.toNat ≤ size)

theorem stays_dataOf (mem : Place → UInt8) (hresid : recordOf mem (attr + 8) = 0)
    (hnum : count ≠ 0) : Stays size (dataOf attr offset count) mem ↔
      ValueBounded (recordOf mem) size attr offset count := by
  rw [dataOf, stays_bind, stays_load8, run_load8, if_pos hresid, stays_bind, stays_load16,
    run_load16, stays_bind, stays_load32, run_load32, ValueBounded, ← UInt32.toNat_toUInt64]
  generalize ((recordOf mem).u32 (attr + 16)).toUInt64 = dataLen
  by_cases hbeyond : offset ≥ dataLen
  · have hnot : ¬ offset.toNat < dataLen.toNat := Nat.not_lt.mpr (UInt64.le_iff_toNat_le.mp hbeyond)
    rw [if_pos hbeyond, and_iff_left stays_pure]
    exact ⟨fun h => ⟨h.2.1, fun hlt => absurd hlt hnot⟩, fun h => ⟨by omega, h.1, by omega⟩⟩
  have hpre : offset < dataLen := UInt64.not_le.mp hbeyond
  have hlt := UInt64.lt_iff_toNat_lt.mp hpre
  have hpos : count.toNat ≠ 0 := fun h => hnum (UInt64.toNat_inj.mp h)
  rw [if_neg hbeyond, stays_bind, stays_loads, and_iff_left stays_pure, imp_iff_right hlt,
    toNat_toCopy, UInt64.toNat_sub_of_le _ _ (UInt64.le_of_lt hpre)]
  dsimp only
  constructor
  · rintro ⟨-, hvalue, -, hbytes⟩
    exact ⟨hvalue, by omega⟩
  · rintro ⟨hvalue, hbytes⟩
    exact ⟨by omega, by omega, by omega, .inr hbytes⟩

end

inductive Operation where
  | readMftRecord
  | readdir (index : UInt32)
  | finddir (name : List UInt8)
  | read (node : NtfsNode) (offset size : UInt64)

def clipped (node : NtfsNode) (offset size : UInt64) : UInt64 :=
  if offset + size > node.fileSize then node.fileSize - offset else size

def Reads (node : NtfsNode) (offset size : UInt64) : Prop :=
  node.flags &&& Vfs.fsFile = Vfs.fsFile ∧ offset < node.fileSize ∧ clipped node offset size ≠ 0

section

variable (recordSize : UInt32) (raw : Buffer)

def Resident : Prop :=
  Sealed recordSize raw → ∀ attr, FoundAttr (fixedRecord recordSize raw) attrData recordSize attr →
    fixedRecord recordSize raw (attr.toNat + 8) = 0

def Operation.Stays : Operation → Prop
  | readMftRecord => RecordBounds.Stays recordSize.toNat (fixup recordSize) (memory raw)
  | readdir index =>
    ∀ fuel, RecordBounds.Stays recordSize.toNat (readdirTask recordSize index fuel) (memory raw)
  | finddir name =>
    ∀ fuel, RecordBounds.Stays recordSize.toNat (finddirTask recordSize name fuel) (memory raw)
  | read node offset size =>
      Reads node offset size → Resident recordSize raw → ∀ fuel, RecordBounds.Stays recordSize.toNat
          (readTask recordSize offset (clipped node offset size) fuel) (memory raw)

/-- The fixup is inside the record, and so is what is done with the attribute found in the
restored record. -/
def AttrBounded (type : UInt32) (body : Buffer → ℕ → Prop) : Prop :=
  FixupBounded recordSize raw ∧ (Sealed recordSize raw → 22 ≤ recordSize.toNat ∧
      ∀ attr, FoundAttr (fixedRecord recordSize raw) type recordSize attr →
        body (fixedRecord recordSize raw) attr.toNat)

def Operation.Bounded : Operation → Prop
  | readMftRecord => FixupBounded recordSize raw
  | readdir index =>
      AttrBounded recordSize raw attrIndexRoot (fun record attr =>
        IndexBounded record recordSize.toNat attr (fun _ => readdirGoesOn index)
          (fun fn => ReaddirKey record recordSize.toNat fn index) 0)
  | finddir name =>
      AttrBounded recordSize raw attrIndexRoot (fun record attr =>
        IndexBounded record recordSize.toNat attr (fun fn => finddirGoesOn record fn name)
          (fun fn => FinddirKey record recordSize.toNat fn name) ())
  | read node offset size =>
      Reads node offset size → Resident recordSize raw →
        AttrBounded recordSize raw attrData (fun record attr =>
          ValueBounded record recordSize.toNat attr offset (clipped node offset size))

variable {recordSize raw}

theorem forall_stays_directory {visit : ℕ → UInt64 → σ → RecordTask (α ⊕ σ)} {goesOn : Buffer →
      ℕ → σ → Option σ}
    {key : Buffer → ℕ → σ → Prop} (h : VisitSpec recordSize.toNat visit goesOn key) (s : σ) :
    (∀ fuel, Stays recordSize.toNat (onAttr recordSize attrIndexRoot fuel (fun attr =>
        firstEntry attr >>= fun entry => walkEntries visit fuel entry s)) (memory raw)) ↔
      AttrBounded recordSize raw attrIndexRoot (fun record attr =>
        IndexBounded record recordSize.toNat attr (goesOn record) (key record) s) := by
  have hall := forall_stays_onAttr recordSize (memory raw) raw attrIndexRoot
    (fun fuel attr => firstEntry attr >>= fun entry => walkEntries visit fuel entry s)
      (fun attr m n hmn => by
      rw [stays_index h, stays_index h]
      rintro ⟨hvalue, hhead, hentries⟩
      exact ⟨hvalue, hhead, fun i hi => hentries i (by omega)⟩)
  rw [setRecord_memory] at hall
  simp only [forall_stays_index h, recordOf_setRecord] at hall
  exact hall

theorem forall_stays_readTask {offset count : UInt64} (hnum : count ≠ 0)
    (hresid : Resident recordSize raw) :
    (∀ fuel, Stays recordSize.toNat (readTask recordSize offset count fuel) (memory raw)) ↔
      AttrBounded recordSize raw attrData (fun record attr =>
        ValueBounded record recordSize.toNat attr offset count) := by
  have hall := forall_stays_onAttr recordSize (memory raw) raw attrData
    (fun _ attr => dataOf attr offset count >>= fun data => pure (some (some data)))
      (fun _ _ _ _ h => h)
  rw [setRecord_memory] at hall
  refine hall.trans (and_congr_right (fun _ => ?_))
  refine forall_congr' fun hsealed => and_congr_right (fun _ => ?_)
  refine forall_congr' fun attr => forall_congr' (fun hattr => ?_)
  have hdata := stays_dataOf recordSize.toNat attr.toNat offset count
    (setRecord (memory raw) (fixedRecord recordSize raw)) (hresid hsealed attr hattr) hnum
  rw [forall_const, stays_bind, hdata, and_iff_left stays_pure, recordOf_setRecord]

end

theorem stays_iff (recordSize : UInt32) (raw : Buffer) (op : Operation) :
    op.Stays recordSize raw ↔ op.Bounded recordSize raw := by
  cases op with
  | readMftRecord =>
    have hfixup := stays_fixup recordSize (memory raw) raw
    rwa [setRecord_memory] at hfixup
  | readdir index => exact forall_stays_directory (readdirVisit_spec recordSize.toNat index) 0
  | finddir name => exact forall_stays_directory (finddirVisit_spec recordSize.toNat name) ()
  | read node offset size =>
    exact forall_congr' (fun hreads => forall_congr' (fun hresid =>
      forall_stays_readTask hreads.2.2 hresid))

/-- The operations on a record stay inside it and inside the fields for names exactly if the
offsets they follow do. For records of no bytes nothing is done. -/
theorem record_operations_stay_iff (recordSize : UInt32) (raw : Buffer) (op : Operation) :
    (recordSize ≠ 0 → op.Stays recordSize raw) ↔ recordSize = 0 ∨ op.Bounded recordSize raw := by
  rw [stays_iff, imp_iff_not_or, not_ne_iff]

def plainBpb : NtfsBpb where
  oemId := ntfsOemId
  bytesPerSector := 512
  sectorsPerCluster := 1
  mftCluster := 4
  clustersPerMftRecord := 2

def strayRecord : Buffer := fun k => [0x46, 0x49, 0x4C, 0x45, 0xFF, 0xFF].getD k 0

/-- On a mounted volume, the fixup of such a record loads behind the buffer. -/
theorem fixup_outside_record : plainBpb.Accepted ∧ plainBpb.mftRecordSize = 1024 ∧
    (Place.record 65535, false) ∈ (fixup plainBpb.mftRecordSize).accesses (memory strayRecord) ∧
    ¬ Inside plainBpb.mftRecordSize.toNat (.record 65535) ∧
    ¬ Operation.readMftRecord.Stays plainBpb.mftRecordSize strayRecord := by
  have hload : (Place.record 65535, false) ∈ (fixup plainBpb.mftRecordSize).accesses
      (memory strayRecord) := by
    decide +kernel
  have hout : ¬ Inside plainBpb.mftRecordSize.toNat (.record 65535) := by
    change ¬ 65535 < 1024
    omega
  exact ⟨by decide, by decide, hload, hout, fun hstays => hout (hstays _ hload)⟩

end NexusKernel.RecordBounds
