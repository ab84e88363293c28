import NexusKernel.RamfsFiles

/-!
What one call of `ramfs_read` or `ramfs_write` does to the bytes of a file. Behind its length, up
to the capacity of its block, there are zeros, which a later write beyond the end leaves in the
gap.
-/

namespace NexusKernel.FileContents

open Lib.ByteMemory Hardware PageSupply KernelHeap HeapInvariant HeapMapped HeapBytes Function
open Vfs RamfsFiles
open UInt64 (le_iff_toNat_le lt_iff_toNat_lt ofNat_toNat toNat_add toNat_zero)

variable {s s' : FileStore} {n k i : ℕ} {priv priv' : RamfsInternal}
  {noise noise' mem mem' : Memory}
variable {live live' : List Allocation} {a : Allocation} {length required offset : UInt64}

structure Stored (mem : Memory) (live : List Allocation) (length : UInt64) (priv : RamfsInternal) :
    Prop where
  empty : priv.data = 0 → priv.capacity = 0
  live : priv.data ≠ 0 → ⟨priv.data, priv.capacity⟩ ∈ live
  within : length.toNat ≤ priv.capacity.toNat
  zeros : ∀ i, length.toNat ≤ i → i < priv.capacity.toNat → mem (priv.data + UInt64.ofNat i) = 0

structure FilesOk (s : FileStore) : Prop where
  sane : Sane s.heap.machine
  base : 2 ^ 63 ≤ s.heap.machine.heap.virtBase.toNat
  kept : Kept s.heap.machine.heap s.heap.live
  stored : ∀ n priv, (s.node n).impl = some priv → Stored s.mem s.heap.live (s.node n).length priv
  own : ∀ n n' priv priv', (s.node n).impl = some priv → (s.node n').impl = some priv' →
    priv.data = priv'.data → priv.data ≠ 0 → n = n'

def contents (s : FileStore) (n : ℕ) : List UInt8 :=
  match (s.node n).impl with
  | none => []
  | some priv => load s.mem priv.data (s.node n).length.toNat

theorem contents_eq (h : (s.node n).impl = some priv) :
    contents s n = load s.mem priv.data (s.node n).length.toNat := by
  rw [contents, h]

theorem Stored.byte (h : Stored mem live length priv) (hi : i < priv.capacity.toNat) :
    mem (priv.data + UInt64.ofNat i) = (load mem priv.data length.toNat).getD i 0 := by
  by_cases hlt : i < length.toNat
  · rw [getD_load mem priv.data hlt]
  · rw [h.zeros i (by omega) hi, List.getD_eq_default _ _ (by rw [length_load]; omega)]

structure Held (mem : Memory) (mem' : Memory) (live' : List Allocation)
    (a : Allocation) : Prop where
  live : a ∈ live'
  bytes : ∀ i < a.requested.toNat, mem' (a.ptr + UInt64.ofNat i) = mem (a.ptr + UInt64.ofNat i)

theorem Held.trans {mem'' : Memory} {live'' : List Allocation} (h : Held mem mem' live' a)
    (h' : Held mem' mem'' live'' a) : Held mem mem'' live'' a :=
  ⟨h'.live, fun i hi => (h'.bytes i hi).trans (h.bytes i hi)⟩

theorem Stored.of_held (h : Stored mem live length priv)
    (hheld : priv.data ≠ 0 → Held mem mem' live' ⟨priv.data, priv.capacity⟩) :
    Stored mem' live' length priv ∧
    load mem' priv.data length.toNat = load mem priv.data length.toNat := by
  by_cases hz : priv.data = 0
  · have hcapacity : priv.capacity.toNat = 0 := by rw [h.empty hz, toNat_zero]
    have hwithin := h.within
    refine ⟨⟨h.empty, fun hne => absurd hz hne, hwithin, fun i _ hi => absurd hi (by omega)⟩, ?_⟩
    rw [show length.toNat = 0 by omega]
    rfl
  · obtain ⟨hlive, hbytes⟩ := hheld hz
    have hwithin := h.within
    refine ⟨⟨h.empty, fun _ => hlive, hwithin, fun i hlow hi => ?_⟩, ?_⟩
    · exact (hbytes i hi).trans (h.zeros i hlow hi)
    · exact load_congr fun i hi => hbytes i (hi.trans_le hwithin)

theorem withHeap_held {after : HeapUse} (h : Kept s.heap.machine.heap s.heap.live)
    (h' : Kept after.machine.heap after.live) (ha : a ∈ s.heap.live) (ha' : a ∈ after.live) :
    Held s.mem (s.withHeap noise after).mem (s.withHeap noise after).heap.live a :=
  ⟨ha', fun _ hi => if_neg (not_heapStored h h' ha ha' hi)⟩

theorem newCapacity_toNat (h : required.toNat < 2 ^ 63) :
    (newCapacity required).toNat = (required.toNat + 4096) / 4096 * 4096 := by
  rw [newCapacity, PageEntries.toNat_and_high _ 12 (by decide), toNat_add]
  simp only [UInt64.reduceToNat]
  omega

structure HeapUsed (s s' : FileStore) : Prop where
  sane : Sane s'.heap.machine
  base : s'.heap.machine.heap.virtBase = s.heap.machine.heap.virtBase
  kept : Kept s'.heap.machine.heap s'.heap.live
  node : s'.node = s.node

structure Reserved (s s' : FileStore) (length : UInt64) (priv priv' : RamfsInternal)
    (required : UInt64) : Prop extends HeapUsed s s' where
  room : required.toNat ≤ priv'.capacity.toNat
  stored : Stored s'.mem s'.heap.live length priv'
  bytes : load s'.mem priv'.data length.toNat = load s.mem priv.data length.toNat
  others : ∀ a ∈ s.heap.live, a.ptr ≠ priv.data → a.ptr ≠ priv'.data ∧
    Held s.mem s'.mem s'.heap.live a

variable {request : UInt64}

theorem afterKmalloc_kept (h : FilesOk s) (hne : request ≠ 0)
    (hsize : request.toNat + 8192 < 2 ^ 64) (hfits : Fits s.heap.machine request) :
    Kept (s.heap.afterKmalloc request).machine.heap (s.heap.afterKmalloc request).live :=
  kmalloc_kept_fits h.sane h.kept h.base hne hsize hfits

structure Moved (s s' : FileStore) (length : UInt64) (priv : RamfsInternal) (new : Allocation) :
    Prop extends HeapUsed s s' where
  live : new ∈ s'.heap.live
  bytes : ∀ i < new.requested.toNat, s'.mem (new.ptr + UInt64.ofNat i) =
    (load s.mem priv.data length.toNat).getD i 0
  others : ∀ a ∈ s.heap.live, a.ptr ≠ priv.data → a.ptr ≠ new.ptr → Held s.mem s'.mem s'.heap.live a

variable {new : Allocation}

theorem moveData_moved (noise : Memory) (length : UInt64) (priv : RamfsInternal)
    (hs : Sane s.heap.machine) (h : Kept s.heap.machine.heap s.heap.live) (hnew : new ∈ s.heap.live)
    (hold : priv.data ≠ 0 → ⟨priv.data, priv.capacity⟩ ∈ s.heap.live ∧ priv.data ≠ new.ptr)
    (hnil : priv.data = 0 → length.toNat = 0) (hlen : length.toNat ≤ new.requested.toNat)
    (hz : ∀ i < new.requested.toNat, s.mem (new.ptr + UInt64.ofNat i) = 0) :
    Moved s (moveData s noise length priv new.ptr) length priv new := by
  have hrange := kept_range h hnew
  have htop := s.heap.machine.heap.virtEnd.toNat_lt
  rw [moveData]
  by_cases hnull : priv.data = 0
  · rw [if_pos hnull]
    refine ⟨⟨hs, rfl, h, rfl⟩, hnew, ?_, fun a ha _ _ => ⟨ha, fun _ _ => rfl⟩⟩
    intro i hi
    rw [hnil hnull, hz i hi]
    rfl
  · obtain ⟨hlive, hne⟩ := hold hnull
    have hkept := kfree_kept h hlive
    have hstay : ∀ a ∈ s.heap.live, a.ptr ≠ priv.data →
        a ∈ s.heap.live.erase ⟨priv.data, priv.capacity⟩ := by
      intro a ha hptr
      refine (List.mem_erase_of_ne ?_).mpr ha
      rintro rfl
      exact hptr rfl
    have hheld : ∀ a ∈ s.heap.live, a.ptr ≠ priv.data →
      Held (put s.mem new.ptr (load s.mem priv.data length.toNat))
          (({ s with mem := put s.mem new.ptr (load s.mem priv.data length.toNat) }.withHeap noise
            ⟨kfree s.heap.machine priv.data, s.heap.live.erase ⟨priv.data, priv.capacity⟩⟩).mem)
          (s.heap.live.erase ⟨priv.data, priv.capacity⟩) a :=
      fun a ha hptr => withHeap_held
        (s := { s with mem := put s.mem new.ptr (load s.mem priv.data length.toNat) })
        h hkept ha (hstay a ha hptr)
    have hsane : Sane (kfree s.heap.machine priv.data) ∧
        (kfree s.heap.machine priv.data).heap.virtBase = s.heap.machine.heap.virtBase := by
      rw [kfree, if_neg hnull]
      exact ⟨hs.congr rfl, rfl⟩
    rw [if_neg hnull]
    refine ⟨⟨hsane.1, hsane.2, hkept, rfl⟩, hstay new hnew hne.symm, ?_, ?_⟩
    · intro i hi
      rw [(hheld new hnew hne.symm).bytes i hi, put_same _ _ (by omega), length_load]
      split
      · rfl
      · rw [hz i hi, List.getD_eq_default _ _ (by rw [length_load]; omega)]
    · intro a ha hptr hptr'
      have hapart := (kept_apart h hnew ha hptr'.symm).mono hlen le_rfl
      refine Held.trans ⟨ha, fun i hi => ?_⟩ (hheld a ha hptr)
      exact put_apart s.mem _ (by rwa [length_load]) hi

def cleared (s : FileStore) (noise : Memory) (request : UInt64) : FileStore :=
  { s.withHeap noise (s.heap.afterKmalloc request) with
    mem := fill (s.withHeap noise (s.heap.afterKmalloc request)).mem
      (kmalloc s.heap.machine request).2 request.toNat 0 }

theorem cleared_held (noise : Memory) (h : FilesOk s) (hne : request ≠ 0)
    (hsize : request.toNat + 8192 < 2 ^ 64) (hfits : Fits s.heap.machine request) {ptr : UInt64}
    (hcall : (kmalloc s.heap.machine request).2 = ptr) (hnull : ptr ≠ 0) :
    ⟨ptr, request⟩ ∈ (cleared s noise request).heap.live ∧ ∀ a ∈ s.heap.live, a.ptr ≠ ptr ∧
        Held s.mem (cleared s noise request).mem (cleared s noise request).heap.live a := by
  have hkept := afterKmalloc_kept h hne hsize hfits
  have hlive : (s.heap.afterKmalloc request).live = ⟨ptr, request⟩ :: s.heap.live := by
    subst ptr
    exact if_neg hnull
  have hnew : ⟨ptr, request⟩ ∈ (s.heap.afterKmalloc request).live := by
    rw [hlive]
    exact List.mem_cons_self
  refine ⟨hnew, fun a ha => ?_⟩
  have hstay : a ∈ (s.heap.afterKmalloc request).live := by
    rw [hlive]
    exact List.mem_cons_of_mem _ ha
  have hptr : a.ptr ≠ ptr := by
    have hnodup := hkept.nodup
    rw [hlive, List.map_cons, List.nodup_cons] at hnodup
    intro heq
    exact hnodup.1 (List.mem_map.mpr ⟨a, ha, heq⟩)
  have hcall : Held s.mem (s.withHeap noise (s.heap.afterKmalloc request)).mem
      (s.heap.afterKmalloc request).live a := withHeap_held h.kept hkept ha hstay
  refine ⟨hptr, hcall.trans ⟨hstay, ?_⟩⟩
  intro i hi
  subst ptr
  exact if_neg ((kept_apart hkept hnew hstay hptr.symm).not_inRange hi)

/-- A block moved after it was cleared has room and holds the file. -/
theorem Moved.reserved {s₁ : FileStore}
    (hmoved : Moved s₁ s' length priv new) (hstore : Stored s.mem s.heap.live length priv)
    (hheld : ∀ a ∈ s.heap.live, a.ptr ≠ new.ptr ∧ Held s.mem s₁.mem s₁.heap.live a)
    (hbase : s₁.heap.machine.heap.virtBase = s.heap.machine.heap.virtBase)
    (hnode : s₁.node = s.node) (hlarger : priv.capacity.toNat ≤ required.toNat)
    (hroom : required.toNat ≤ new.requested.toNat) : Reserved s s' length priv
      { priv with data := new.ptr, capacity := new.requested } required := by
  have hwithin := hstore.within
  obtain ⟨-, hload⟩ := hstore.of_held (fun hne => (hheld _ (hstore.live hne)).2)
  have hbytes := hmoved.bytes
  rw [hload] at hbytes
  refine ⟨⟨hmoved.sane, hmoved.base.trans hbase, hmoved.kept, hmoved.node.trans hnode⟩, hroom,
    ⟨?_, fun _ => hmoved.live, ?_, ?_⟩, ?_, ?_⟩
  · intro hz
    exact absurd hz (kept_ptr_ne_zero hmoved.kept hmoved.live)
  · show length.toNat ≤ new.requested.toNat
    omega
  · intro i hlow hi
    rw [hbytes i hi, List.getD_eq_default _ _ (by rw [length_load]; omega)]
  · refine eq_of_getD (by rw [length_load, length_load]) ?_
    intro i hi
    rw [length_load] at hi
    rw [getD_load _ _ hi]
    exact hbytes i (by omega)
  · intro a ha hptr
    obtain ⟨hne, hcleared⟩ := hheld a ha
    exact ⟨hne, hcleared.trans (hmoved.others a hcleared.live hptr hne)⟩

theorem newCapacity_ne_zero (h : required.toNat < 2 ^ 63) : newCapacity required ≠ 0 := by
  have hcapacity := newCapacity_toNat h
  intro hz
  rw [hz, toNat_zero] at hcapacity
  omega

theorem grown_reserved (noise noise' : Memory) (h : FilesOk s)
    (hstore : Stored s.mem s.heap.live length priv) (hrequired : required.toNat < 2 ^ 63)
    (hgrow : required > priv.capacity) (hfits : Fits s.heap.machine (newCapacity required))
    (hnull : (kmalloc s.heap.machine (newCapacity required)).2 ≠ 0) : Reserved s
    (moveData (cleared s noise (newCapacity required)) noise' length priv
      (kmalloc s.heap.machine (newCapacity required)).2) length priv { priv with
      data := (kmalloc s.heap.machine (newCapacity required)).2
      capacity := newCapacity required }
    required := by
  have hcapacity := newCapacity_toNat hrequired
  have hne := newCapacity_ne_zero hrequired
  have hlarger : priv.capacity.toNat < required.toNat := lt_iff_toNat_lt.mp hgrow
  have hwithin := hstore.within
  obtain ⟨hnew, hheld⟩ := cleared_held noise h hne (by omega) hfits rfl hnull
  have hmoved := moveData_moved noise' length priv
    (kmalloc_sane h.sane _) (afterKmalloc_kept h hne (by omega) hfits) hnew ?_ ?_ ?_ ?_
  · refine hmoved.reserved hstore hheld (kmalloc_virtBase _ hne (by omega)) rfl hlarger.le ?_
    show required.toNat ≤ (newCapacity required).toNat
    omega
  · intro hdata
    obtain ⟨hptr, hold⟩ := hheld _ (hstore.live hdata)
    exact ⟨hold.live, hptr⟩
  · intro hdata
    rw [hstore.empty hdata, toNat_zero] at hwithin
    omega
  · show length.toNat ≤ (newCapacity required).toNat
    omega
  · intro i hi
    exact fill_inside _ 0 hi (newCapacity required).toNat_lt.le

structure Refused (s s' : FileStore) : Prop extends HeapUsed s s' where
  held : ∀ a ∈ s.heap.live, Held s.mem s'.mem s'.heap.live a

def Lacks (s : FileStore) (priv : RamfsInternal) (required : UInt64) : Prop :=
  required > priv.capacity ∧ (kmalloc s.heap.machine (newCapacity required)).2 = 0

/-- The allocation for a replaced block stays below the top and is mapped, and so are the headers
that the heap calls meet. -/
structure Served (s : FileStore) (priv : RamfsInternal) (required : UInt64) : Prop where
  fits : required > priv.capacity → Fits s.heap.machine (newCapacity required)
  returns : required > priv.capacity → kmallocReturns s.heap.machine (newCapacity required) = true
  mapped : required > priv.capacity → (kmalloc s.heap.machine (newCapacity required)).2 ≠ 0 →
    ∀ o < (newCapacity required).toNat, Translated (kmalloc s.heap.machine (newCapacity required)).1
        ((kmalloc s.heap.machine (newCapacity required)).2 + UInt64.ofNat o)
  freed : required > priv.capacity → (kmalloc s.heap.machine (newCapacity required)).2 ≠ 0 →
    priv.data ≠ 0 → kfreeReturns (kmalloc s.heap.machine (newCapacity required)).1 priv.data = true

theorem reserve_lacks (noise noise' : Memory) (length : UInt64) (h : FilesOk s)
    (hrequired : required.toNat < 2 ^ 63)
    (hserv : Served s priv required) (hlacks : Lacks s priv required) :
    ∃ s', reserve s noise noise' length priv required = some (s', none) ∧ Refused s s' := by
  obtain ⟨hgrow, hnull⟩ := hlacks
  have hcapacity := newCapacity_toNat hrequired
  have hne := newCapacity_ne_zero hrequired
  have hkept := afterKmalloc_kept h hne (by omega) (hserv.fits hgrow)
  have hlive : (s.heap.afterKmalloc (newCapacity required)).live = s.heap.live := if_pos hnull
  refine ⟨s.withHeap noise (s.heap.afterKmalloc (newCapacity required)), ?_, ⟨kmalloc_sane h.sane _,
    kmalloc_virtBase _ hne (by omega), hkept, rfl⟩, ?_⟩
  · rw [reserve, if_pos hgrow]
    exact (if_neg (ne_false_of_eq_true (hserv.returns hgrow))).trans (if_pos hnull)
  · intro a ha
    exact withHeap_held h.kept hkept ha (by rwa [hlive])

theorem reserve_reserved (noise noise' : Memory) (h : FilesOk s)
    (hstore : Stored s.mem s.heap.live length priv) (hrequired : required.toNat < 2 ^ 63)
    (hserv : Served s priv required) (hlacks : ¬ Lacks s priv required) :
    ∃ s' priv', reserve s noise noise' length priv required = some (s', some priv') ∧
      Reserved s s' length priv priv' required := by
  by_cases hgrow : required > priv.capacity
  · have hnull : (kmalloc s.heap.machine (newCapacity required)).2 ≠ 0 :=
      fun hz => hlacks ⟨hgrow, hz⟩
    refine ⟨_, _, ?_, grown_reserved noise noise' h hstore hrequired hgrow
      (hserv.fits hgrow) hnull⟩
    rw [reserve, if_pos hgrow]
    exact (if_neg (ne_false_of_eq_true (hserv.returns hgrow))).trans ((if_neg hnull).trans
      (if_pos ⟨hserv.mapped hgrow hnull, hserv.freed hgrow hnull⟩))
  · refine ⟨s, priv, if_neg hgrow, ⟨h.sane, rfl, h.kept, rfl⟩, ?_, hstore, rfl,
      fun a ha hptr => ⟨hptr, ha, fun _ _ => rfl⟩⟩
    exact le_iff_toNat_le.mp (UInt64.not_lt.mp hgrow)

variable {buffer : List UInt8}

/-- The bytes of a block after a store at an index of the file. -/
theorem Stored.of_put (h : Stored mem live length priv)
    (hend : offset.toNat + buffer.length ≤ priv.capacity.toNat) {length' : UInt64}
    (hlen : length'.toNat = max length.toNat (offset.toNat + buffer.length)) :
    Stored (put mem (priv.data + offset) buffer) live length' priv ∧
      load (put mem (priv.data + offset) buffer) priv.data length'.toNat =
        overwrite (load mem priv.data length.toNat) offset.toNat buffer := by
  have hwithin := h.within
  have htop := priv.capacity.toNat_lt
  have hbyte : ∀ i < priv.capacity.toNat, put mem (priv.data + offset) buffer
    (priv.data + UInt64.ofNat i) =
        (overwrite (load mem priv.data length.toNat) offset.toNat buffer).getD i 0 := by
    intro i hi
    have hput := put_offset (p := priv.data) (i := i) (o := offset.toNat) mem buffer
      (by omega) (by omega)
    rw [ofNat_toNat] at hput
    rw [hput, getD_overwrite, h.byte hi]
  refine ⟨⟨h.empty, h.live, by omega, ?_⟩, ?_⟩
  · intro i hlow hi
    rw [hbyte i hi, List.getD_eq_default _ _ (by rw [length_overwrite, length_load]; omega)]
  · refine eq_of_getD (by rw [length_load, length_overwrite, length_load, hlen]) ?_
    intro i hi
    rw [length_load] at hi
    rw [getD_load _ _ hi]
    exact hbyte i (by omega)

theorem put_held {heap : HeapState} (h : Kept heap live) (hstore : Stored mem live length priv)
    (hend : offset.toNat + buffer.length ≤ priv.capacity.toNat) (ha : a ∈ live)
    (hptr : a.ptr ≠ priv.data) : Held mem (put mem (priv.data + offset) buffer) live a := by
  refine ⟨ha, fun i hi => ?_⟩
  by_cases hdata : priv.data = 0
  · rw [hstore.empty hdata, toNat_zero] at hend
    refine if_neg ?_
    rw [InRange]
    omega
  · have hapart := kept_apart h (hstore.live hdata) ha hptr.symm
    rw [← @ofNat_toNat offset]
    exact put_within_apart mem buffer hapart hend hi

section

variable {buffer : List UInt8} {s₁ : FileStore}

def written (s s₁ : FileStore) (n : ℕ) (offset : UInt64) (buffer : List UInt8)
    (priv' : RamfsInternal) : FileStore :=
  { s₁ with
    mem := put s₁.mem (priv'.data + offset) buffer
    node := update s₁.node n { s.node n with
        impl := some priv'
        length :=
          if offset + UInt64.ofNat buffer.length > (s.node n).length then
            offset + UInt64.ofNat buffer.length
          else (s.node n).length } }

theorem written_others {priv₂ : RamfsInternal} (h : FilesOk s) (hn : (s.node n).impl = some priv)
    (hroom : Reserved s s₁ (s.node n).length priv priv' (offset + UInt64.ofNat buffer.length))
    (hend : offset.toNat + buffer.length ≤ priv'.capacity.toNat)
    (hk : (s.node k).impl = some priv₂) (hne : k ≠ n) (hdata : priv₂.data ≠ 0) :
    priv₂.data ≠ priv'.data ∧ Held s.mem (written s s₁ n offset buffer priv').mem
      s₁.heap.live ⟨priv₂.data, priv₂.capacity⟩ := by
  have hown : priv₂.data ≠ priv.data := fun heq => hne (h.own k n priv₂ priv hk hn heq hdata)
  obtain ⟨hptr, hheld⟩ := hroom.others _ ((h.stored k priv₂ hk).live hdata) hown
  exact ⟨hptr, hheld.trans (put_held hroom.kept hroom.stored hend hheld.live hptr)⟩

theorem toNat_required (hbound : offset.toNat + buffer.length < 2 ^ 63) :
    (offset + UInt64.ofNat buffer.length).toNat = offset.toNat + buffer.length := by
  rw [toNat_add, UInt64.toNat_ofNat_of_lt' (by grind)]
  omega

theorem toNat_longer (length required : UInt64) :
    (if required > length then required else length).toNat = max length.toNat required.toNat := by
  split
  · rename_i hlonger
    have hlt := lt_iff_toNat_lt.mp hlonger
    omega
  · rename_i hlonger
    have hle := le_iff_toNat_le.mp (UInt64.not_lt.mp hlonger)
    omega

theorem written_self : (written s s₁ n offset buffer priv').node n = { s.node n with
      impl := some priv'
      length :=
        if offset + UInt64.ofNat buffer.length > (s.node n).length then
          offset + UInt64.ofNat buffer.length
        else (s.node n).length } := by
  exact update_self n _ _

theorem written_impl : ((written s s₁ n offset buffer priv').node n).impl = some priv' := by
  rw [written_self]

theorem written_node (hroom : Reserved s s₁ length priv priv' required) (hk : k ≠ n) :
    (written s s₁ n offset buffer priv').node k = s.node k := by
  rw [← hroom.node]
  exact update_of_ne hk _ _

/-- A write with room stores its bytes in the file and nowhere else. -/
theorem written_ok (h : FilesOk s) (hn : (s.node n).impl = some priv)
    (hbound : offset.toNat + buffer.length < 2 ^ 63)
    (hroom : Reserved s s₁ (s.node n).length priv priv' (offset + UInt64.ofNat buffer.length)) :
    let w := written s s₁ n offset buffer priv'
    FilesOk w ∧
      contents w = update (contents s) n (overwrite (contents s n) offset.toNat buffer) := by
  intro w
  have hend := hroom.room
  rw [toNat_required hbound] at hend
  have hlen :
      (w.node n).length.toNat = max (s.node n).length.toNat (offset.toNat + buffer.length) := by
    rw [written_self, ← toNat_required hbound, ← toNat_longer]
  obtain ⟨hstore, hload⟩ := hroom.stored.of_put hend hlen
  have hblock : ∀ k ≠ n, ∀ priv₂, (s.node k).impl = some priv₂ →
      Stored w.mem s₁.heap.live (s.node k).length priv₂ ∧
        load w.mem priv₂.data (s.node k).length.toNat =
          load s.mem priv₂.data (s.node k).length.toNat := fun k hk priv₂ hpriv =>
    (h.stored k priv₂ hpriv).of_held
      (fun hdata => (written_others h hn hroom hend hpriv hk hdata).2)
  have hnew : ∀ k ≠ n, ∀ priv₂, (s.node k).impl = some priv₂ → priv₂.data ≠ 0 →
      priv₂.data ≠ priv'.data := fun k hk priv₂ hpriv hdata =>
    (written_others h hn hroom hend hpriv hk hdata).1
  have himpl : ∀ {k priv₂}, (w.node k).impl = some priv₂ →
      (k = n ∧ priv₂ = priv') ∨ (k ≠ n ∧ (s.node k).impl = some priv₂) := by
    intro k priv₂ hpriv
    by_cases hk : k = n
    · subst hk
      exact .inl ⟨rfl, Option.some.inj (hpriv.symm.trans written_impl)⟩
    · exact .inr ⟨hk, written_node hroom hk ▸ hpriv⟩
  refine ⟨⟨hroom.sane, ?_, hroom.kept, ?_, ?_⟩, ?_⟩
  · show 2 ^ 63 ≤ s₁.heap.machine.heap.virtBase.toNat
    rw [hroom.base]
    exact h.base
  · intro k priv₂ hpriv
    rcases himpl hpriv with ⟨rfl, rfl⟩ | ⟨hk, hpriv⟩
    · exact hstore
    · rw [written_node hroom hk]
      exact (hblock k hk priv₂ hpriv).1
  · intro k k' priv₂ priv₃ hpriv hpriv' heq hdata
    rcases himpl hpriv with ⟨rfl, rfl⟩ | ⟨hk, hold⟩ <;> rcases himpl hpriv'
      with ⟨rfl, rfl⟩ | ⟨hk', hold'⟩
    · rfl
    · exact absurd heq.symm (hnew k' hk' priv₃ hold' (heq ▸ hdata))
    · exact absurd heq (hnew k hk priv₂ hold hdata)
    · exact h.own k k' priv₂ priv₃ hold hold' heq hdata
  · funext k
    by_cases hk : k = n
    · subst hk
      rw [update_self, contents_eq written_impl, contents_eq hn, ← hroom.bytes]
      exact hload
    · rw [update_of_ne hk, contents, contents, written_node hroom hk]
      cases hpriv : (s.node k).impl with
      | none => rfl
      | some priv₂ => exact (hblock k hk priv₂ hpriv).2

theorem refused_ok (h : FilesOk s) (href : Refused s s₁) :
    FilesOk s₁ ∧ contents s₁ = contents s := by
  have hblock : ∀ k priv₂, (s.node k).impl = some priv₂ →
    Stored s₁.mem s₁.heap.live (s.node k).length priv₂ ∧
        load s₁.mem priv₂.data (s.node k).length.toNat =
          load s.mem priv₂.data (s.node k).length.toNat := fun k priv₂ hpriv =>
    (h.stored k priv₂ hpriv).of_held
      (fun hdata => href.held _ ((h.stored k priv₂ hpriv).live hdata))
  refine ⟨⟨href.sane, ?_, href.kept, ?_, ?_⟩, ?_⟩
  · rw [href.base]
    exact h.base
  · rw [href.node]
    exact fun k priv₂ hpriv => (hblock k priv₂ hpriv).1
  · rw [href.node]
    exact h.own
  · funext k
    rw [contents, contents, href.node]
    cases hpriv : (s.node k).impl with
    | none => rfl
    | some priv₂ => exact (hblock k priv₂ hpriv).2

structure IsFile (node : VfsNode) : Prop where
  flags : node.flags &&& fsFile = fsFile
  impl : node.impl.isSome = true

/-- The write needs a new block and there is no memory. -/
def Lacking (s : FileStore) (n : ℕ) (offset : UInt64) (buffer : List UInt8) : Prop :=
  ∃ priv ∈ (s.node n).impl, Lacks s priv (offset + UInt64.ofNat buffer.length)

instance (s : FileStore) (n : ℕ) (offset : UInt64) (buffer : List UInt8) :
    Decidable (Lacking s n offset buffer) := inferInstanceAs (Decidable (∃ priv ∈ _, _ ∧ _))

def Supplied (s : FileStore) (n : ℕ) (offset : UInt64) (buffer : List UInt8) : Prop :=
  ∀ priv, (s.node n).impl = some priv → Served s priv (offset + UInt64.ofNat buffer.length)

theorem ramfsRead_eq (h : FilesOk s) (hfile : IsFile (s.node n)) (offset size : UInt64) :
    ramfsRead s n offset size =
    (UInt64.ofNat (((contents s n).drop offset.toNat).take size.toNat).length,
      ((contents s n).drop offset.toNat).take size.toNat) := by
  obtain ⟨priv, hpriv⟩ := Option.isSome_iff_exists.mp hfile.impl
  have hstore := h.stored n priv hpriv
  have hwithin := hstore.within
  rw [contents_eq hpriv, drop_take_load, length_load, ramfsRead,
    if_neg (not_not.mpr hfile.flags), hpriv, ofNat_toNat]
  dsimp only
  by_cases hdata : priv.data = 0
  · rw [hstore.empty hdata, toNat_zero] at hwithin
    rw [if_pos hdata, show min size.toNat ((s.node n).length.toNat - offset.toNat) = 0 by omega]
    rfl
  rw [if_neg hdata]
  by_cases hbehind : offset ≥ (s.node n).length
  · have hle := le_iff_toNat_le.mp hbehind
    rw [if_pos hbehind, show min size.toNat ((s.node n).length.toNat - offset.toNat) = 0 by omega]
    rfl
  · have hlt := lt_iff_toNat_lt.mp (UInt64.not_le.mp hbehind)
    have hreadable : ((s.node n).length - offset).toNat = (s.node n).length.toNat - offset.toNat :=
      UInt64.toNat_sub_of_le _ _ (le_iff_toNat_le.mpr hlt.le)
    have hsize : (if size > (s.node n).length - offset then (s.node n).length - offset
      else size).toNat = min size.toNat ((s.node n).length.toNat - offset.toNat) := by
      split
      · rename_i hmore
        have hmore' := lt_iff_toNat_lt.mp hmore
        omega
      · rename_i hless
        have hless' := le_iff_toNat_le.mp (UInt64.not_lt.mp hless)
        omega
    rw [if_neg hbehind, ← hsize, ofNat_toNat]

section

variable (noise noise' : Memory) (h : FilesOk s) (hfile : IsFile (s.node n))
  (hbound : offset.toNat + buffer.length < 2 ^ 63) (hsupplied : Supplied s n offset buffer)
include h hfile hbound hsupplied

theorem ramfsWrite_lacking (hlack : Lacking s n offset buffer) :
    ∃ s', ramfsWrite s noise noise' n offset buffer = some (s', 0) ∧ FilesOk s' ∧
      s'.node = s.node ∧ contents s' = contents s := by
  obtain ⟨priv, hpriv, hlacks⟩ := hlack
  obtain ⟨s', hreserve, href⟩ := reserve_lacks noise noise' (s.node n).length h
    (by rw [toNat_required hbound]; exact hbound) (hsupplied priv hpriv) hlacks
  obtain ⟨hok, hsame⟩ := refused_ok h href
  refine ⟨s', ?_, hok, href.node, hsame⟩
  rw [ramfsWrite, if_neg (not_not.mpr hfile.flags), hpriv]
  simp only [hreserve]

theorem ramfsWrite_written (hlack : ¬ Lacking s n offset buffer) :
    ∃ s', ramfsWrite s noise noise' n offset buffer = some (s', UInt64.ofNat buffer.length) ∧
      FilesOk s' ∧ (∀ k, IsFile (s.node k) → IsFile (s'.node k)) ∧
      contents s' = update (contents s) n (overwrite (contents s n) offset.toNat buffer) := by
  obtain ⟨priv, hpriv⟩ := Option.isSome_iff_exists.mp hfile.impl
  have hlow : (offset + UInt64.ofNat buffer.length).toNat < 2 ^ 63 := by
    rwa [toNat_required hbound]
  obtain ⟨s₁, priv', hreserve, hroom⟩ :=
    reserve_reserved noise noise' h (h.stored n priv hpriv) hlow
    (hsupplied priv hpriv) (fun hlacks => hlack ⟨priv, hpriv, hlacks⟩)
  obtain ⟨hok, hsame⟩ := written_ok h hpriv hbound hroom
  refine ⟨written s s₁ n offset buffer priv', ?_, hok, ?_, hsame⟩
  · rw [ramfsWrite, if_neg (not_not.mpr hfile.flags), hpriv]
    simp only [hreserve]
    rfl
  · intro k hk
    by_cases hkn : k = n
    · subst hkn
      rw [written_self]
      exact ⟨hfile.flags, rfl⟩
    · rwa [written_node hroom hkn]

end

end

end NexusKernel.FileContents
