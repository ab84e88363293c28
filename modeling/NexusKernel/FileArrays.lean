import NexusKernel.FileContents

/-!
Files of ramfs refine arrays that grow by zeros, over any sequence of reads and writes, but for a
write of no bytes behind the end, which makes the file longer.
-/

namespace NexusKernel.FileArrays

open Lib.ByteMemory Lib.Runs Hardware PageSupply Function
open KernelHeap HeapInvariant HeapMapped KernelHalf Vfs RamfsFiles FileContents

abbrev Arrays := ℕ → List UInt8

def clip (bytes : List UInt8) (offset size : UInt64) : List UInt8 :=
  (bytes.drop offset.toNat).take size.toNat

def Reads (s : FileStore) (A : Arrays) : Prop :=
  ∀ n, IsFile (s.node n) → ∀ offset size, ramfsRead s n offset size =
      (UInt64.ofNat (clip (A n) offset size).length, clip (A n) offset size)

/-- The arrays after a write: only one with bytes and memory has an effect. -/
def arraysAfter (s : FileStore) (A : Arrays) (n : ℕ) (offset : UInt64) (buffer : List UInt8) :
    Arrays :=
  if Lacking s n offset buffer ∨ buffer = [] then A
  else update A n (overwrite (A n) offset.toNat buffer)

/-- The write does not make the file longer without a byte to store. -/
def Visible (s : FileStore) (A : Arrays) (n : ℕ) (offset : UInt64) (buffer : List UInt8) : Prop :=
  Lacking s n offset buffer ∨ buffer ≠ [] ∨ offset.toNat ≤ (A n).length

/-- Writes to files, beside the arrays. Reads change nothing. -/
inductive Step : FileStore × Arrays → FileStore × Arrays → Prop where
  | write {s s' : FileStore} {A : Arrays} (n : ℕ) (offset : UInt64) (buffer : List UInt8)
      (noise noise' : Memory) (result : UInt64)
      (hfile : IsFile (s.node n)) (hbound : offset.toNat + buffer.length < 2 ^ 63)
      (hsupplied : Supplied s n offset buffer) (hvisible : Visible s A n offset buffer)
      (hwrite : ramfsWrite s noise noise' n offset buffer = some (s', result)) :
      Step (s, A) (s', arraysAfter s A n offset buffer)

variable {s s' s₀ : FileStore} {A A' : Arrays} {n : ℕ} {offset : UInt64} {buffer : List UInt8}

theorem arraysAfter_written (hlack : ¬ Lacking s n offset buffer)
    (hvisible : Visible s A n offset buffer) :
    arraysAfter s A n offset buffer = update A n (overwrite (A n) offset.toNat buffer) := by
  rw [arraysAfter]
  split
  · rename_i hnil
    obtain rfl : buffer = [] := hnil.resolve_left hlack
    have hin : offset.toNat ≤ (A n).length :=
      (hvisible.resolve_left hlack).resolve_left fun hne => hne rfl
    rw [overwrite_nil _ hin, update_eq_self]
  · rfl

theorem write_arrays (noise noise' : Memory) (h : FilesOk s) (hfile : IsFile (s.node n))
    (hbound : offset.toNat + buffer.length < 2 ^ 63) (hsupplied : Supplied s n offset buffer) :
    ∃ s', ramfsWrite s noise noise' n offset buffer =
        some (s', if Lacking s n offset buffer then 0 else UInt64.ofNat buffer.length) ∧
      FilesOk s' ∧ (∀ k, IsFile (s.node k) → IsFile (s'.node k)) ∧
      contents s' = if Lacking s n offset buffer then contents s
        else update (contents s) n (overwrite (contents s n) offset.toNat buffer) := by
  by_cases hlack : Lacking s n offset buffer
  · obtain ⟨s', hwrite, hok, hnode, hsame⟩ :=
      ramfsWrite_lacking noise noise' h hfile hbound hsupplied hlack
    simp only [if_pos hlack]
    exact ⟨s', hwrite, hok, fun k hk => by rwa [hnode], hsame⟩
  · obtain ⟨s', hwrite, hok, hkept, hsame⟩ :=
      ramfsWrite_written noise noise' h hfile hbound hsupplied hlack
    simp only [if_neg hlack]
    exact ⟨s', hwrite, hok, hkept, hsame⟩

theorem step_contents (h : FilesOk s) (hA : contents s = A) (hstep : Step (s, A) (s', A')) :
    FilesOk s' ∧ contents s' = A' := by
  cases hstep with
  | write n offset buffer noise noise' result hfile hbound hsupplied hvisible hwrite =>
    subst hA
    obtain ⟨t, hwritten, hok, -, hsame⟩ := write_arrays noise noise' h hfile hbound hsupplied
    obtain rfl : t = s' := congrArg Prod.fst (Option.some.inj (hwritten.symm.trans hwrite))
    refine ⟨hok, hsame.trans ?_⟩
    by_cases hlack : Lacking s n offset buffer
    · rw [if_pos hlack, arraysAfter, if_pos (.inl hlack)]
    · rw [if_neg hlack, arraysAfter_written hlack hvisible]

theorem run_contents (h : FilesOk s₀) (hrun : Reachable Step (s₀, contents s₀) (s, A)) :
    FilesOk s ∧ contents s = A := by
  refine hrun.invariant (fun c => FilesOk c.1 ∧ contents c.1 = c.2) ?_ ⟨h, rfl⟩
  rintro ⟨s, A⟩ ⟨s', A'⟩ ⟨hok, hA⟩ hstep
  exact step_contents hok hA hstep

theorem reads_contents (h : FilesOk s) : Reads s (contents s) := fun _ hfile offset size =>
  ramfsRead_eq h hfile offset size

/-- The read that tells whether a write of no bytes made the file longer. -/
theorem visible_of_reads (h' : FilesOk s') (hfile' : IsFile (s'.node n))
    (hsame : contents s' = update (contents s) n (overwrite (contents s n) offset.toNat buffer))
    (hreads : Reads s' (arraysAfter s (contents s) n offset buffer)) :
    Visible s (contents s) n offset buffer := by
  by_contra hnot
  simp only [Visible, not_or, not_not, not_le] at hnot
  obtain ⟨-, rfl, hbehind⟩ := hnot
  rw [arraysAfter, if_pos (.inr rfl)] at hreads
  have hlong := congrArg (fun r => r.2.length) (reads_contents h' n hfile' 0 offset)
  have hshort := congrArg (fun r => r.2.length) (hreads n hfile' 0 offset)
  simp only [clip, UInt64.toNat_zero, List.drop_zero, List.length_take, hsame, update_self,
    length_overwrite, List.length_nil] at hlong hshort
  omega

theorem ramfs_files_are_arrays (h₀ : FilesOk s₀) (hrun : Reachable Step (s₀, contents s₀) (s, A)) :
    Reads s A ∧ ∀ n offset buffer noise noise', IsFile (s.node n) →
      offset.toNat + buffer.length < 2 ^ 63 → Supplied s n offset buffer →
      ∃ s', ramfsWrite s noise noise' n offset buffer =
          some (s', if Lacking s n offset buffer then 0 else UInt64.ofNat buffer.length) ∧
        (∀ k, IsFile (s.node k) → IsFile (s'.node k)) ∧
        (Reads s' (arraysAfter s A n offset buffer) ↔ Visible s A n offset buffer) := by
  obtain ⟨hok, rfl⟩ := run_contents h₀ hrun
  refine ⟨reads_contents hok, ?_⟩
  intro n offset buffer noise noise' hfile hbound hsupplied
  obtain ⟨s', hwrite, hok', hkept, hsame⟩ :=
    write_arrays noise noise' hok hfile hbound hsupplied
  refine ⟨s', hwrite, hkept, ?_, ?_⟩
  · intro hreads
    by_cases hlack : Lacking s n offset buffer
    · exact .inl hlack
    · rw [if_neg hlack] at hsame
      exact visible_of_reads hok' (hkept n hfile) hsame hreads
  · intro hvisible
    have hstep := Step.write n offset buffer noise noise' _ hfile hbound hsupplied hvisible hwrite
    rw [← (step_contents hok rfl hstep).2]
    exact reads_contents hok'

theorem filesOk_of_new (hs : Sane s.heap.machine)
    (hbase : 2 ^ 63 ≤ s.heap.machine.heap.virtBase.toNat)
    (hkept : Kept s.heap.machine.heap s.heap.live) (hnew : ∀ n priv, (s.node n).impl = some priv →
      priv.data = 0 ∧ priv.capacity = 0 ∧ (s.node n).length = 0) : FilesOk s := by
  refine ⟨hs, hbase, hkept, ?_, ?_⟩
  · intro n priv hpriv
    obtain ⟨hdata, hcapacity, hlen⟩ := hnew n priv hpriv
    rw [hlen]
    refine ⟨fun _ => hcapacity, fun hne => absurd hdata hne, by simp, ?_⟩
    intro i _ hi
    rw [hcapacity] at hi
    omega
  · intro n n' priv priv' hpriv _ _ hne
    exact absurd (hnew n priv hpriv).1 hne

def newFile : VfsNode where
  name := []
  mask := 0o755
  flags := fsFile
  length := 0
  impl := some ⟨0, 0, []⟩
  ops := some .ramfs
  ptr := none

def edgeStore : FileStore where
  heap := ⟨edgeMachine, []⟩
  mem := fun _ => 0
  node := fun _ => newFile

theorem edge_kept : Kept edgeMachine.heap [] := by
  refine ⟨⟨le_rfl, ?_⟩, List.isChain_singleton _, ?_, fun a ha => absurd ha List.not_mem_nil,
    List.nodup_nil⟩
  · show _ ≤ _
    decide
  · decide

theorem edgeStore_ok : FilesOk edgeStore := by
  refine filesOk_of_new edge_sane (by decide) edge_kept ?_
  rintro n priv hpriv
  obtain rfl : ⟨0, 0, []⟩ = priv := Option.some.inj hpriv
  exact ⟨rfl, rfl, rfl⟩

theorem edgeStore_file (n : ℕ) : IsFile (edgeStore.node n) :=
    ⟨show fsFile &&& fsFile = fsFile by decide, rfl⟩

theorem edge_block : (kmalloc edgeMachine 4096).2 ≠ 0 ∧ kmallocReturns edgeMachine 4096 = true := by
  decide +kernel

section

variable (hrequest : newCapacity (offset + UInt64.ofNat buffer.length) = 4096)
include hrequest

theorem edgeStore_supplied : Supplied edgeStore n offset buffer := by
  rintro priv hpriv
  obtain rfl : ⟨0, 0, []⟩ = priv := Option.some.inj hpriv
  refine ⟨fun _ => ?_, fun _ => ?_, fun _ hptr => ?_, fun _ _ hdata => absurd rfl hdata⟩
  all_goals rw [hrequest]
  · intro _
    rw [show (budget edgeStore.heap.machine).free = 4 from edge_free]
    decide
  · exact edge_block.2
  · exact (kmalloc_translated_iff edge_sane edge_tree rfl (edge_open (by decide)) (by decide)
      edge_block.1).mpr (.inr (by decide))

theorem edgeStore_not_lacking : ¬ Lacking edgeStore n offset buffer := by
  rintro ⟨priv, -, -, hnull⟩
  rw [hrequest] at hnull
  exact edge_block.1 hnull

end

/-- A byte is written to a new file and read again. -/
theorem ramfs_files_are_arrays_edge : ∃ s', ramfsWrite edgeStore (fun _ => 1) (fun _ => 2) 0 0 [7] =
    some (s', 1) ∧ ramfsRead s' 0 0 1 = (1, [7]) := by
  have hrequest : newCapacity (0 + UInt64.ofNat [(7 : UInt8)].length) = 4096 := by decide
  obtain ⟨-, hwrites⟩ := ramfs_files_are_arrays edgeStore_ok .refl
  obtain ⟨s', hwrite, hkept, hreads⟩ := hwrites 0 0 [7] (fun _ => 1) (fun _ => 2)
    (edgeStore_file 0) (by decide) (edgeStore_supplied hrequest)
  rw [if_neg (edgeStore_not_lacking hrequest)] at hwrite
  refine ⟨s', hwrite, ?_⟩
  have hread := hreads.mpr (.inr (.inl (List.cons_ne_nil _ _))) 0 (hkept 0 (edgeStore_file 0)) 0 1
  rw [hread, arraysAfter, if_neg]
  · rfl
  · rintro (hlack | hnil)
    · exact edgeStore_not_lacking hrequest hlack
    · exact List.cons_ne_nil _ _ hnil

/-- A write of no bytes behind the end makes a file five bytes long. -/
theorem empty_write_extends : ramfsRead edgeStore 0 0 5 = (0, []) ∧
    ∀ noise noise', ∃ s', ramfsWrite edgeStore noise noise' 0 5 [] = some (s', 0) ∧
      ramfsRead s' 0 0 5 = (5, [0, 0, 0, 0, 0]) := by
  refine ⟨ramfsRead_eq edgeStore_ok (edgeStore_file 0) 0 5, ?_⟩
  intro noise noise'
  have hrequest : newCapacity (5 + UInt64.ofNat ([] : List UInt8).length) = 4096 := by decide
  obtain ⟨s', hwrite, hok, hkept, hsame⟩ := ramfsWrite_written noise noise' edgeStore_ok
    (edgeStore_file 0) (by decide) (edgeStore_supplied hrequest) (edgeStore_not_lacking hrequest)
  refine ⟨s', hwrite, ?_⟩
  rw [ramfsRead_eq hok (hkept 0 (edgeStore_file 0)), hsame]
  rfl

end NexusKernel.FileArrays
