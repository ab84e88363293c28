import NexusKernel.Fat32Calls
import NexusKernel.Lib.Iterations
import Mathlib.Data.Finite.Prod

/-!
Whether `fat32_readdir` and `fat32_finddir` come to an end. What a round does depends on the
cluster and on what was counted before, so the loop is endless exactly if both come back.
-/

namespace NexusKernel.DirectoryWalks

open Lib.Programs Lib.Iterations DiskPrograms Fat32Calls Program
open Fat32 (Fat32Fs Fat32Node endMark)

variable (host : Host) (fs : Fat32Fs)

section

variable {α β σ : Type} (visit : Fat32Dirent → σ → α ⊕ σ) (deliver : α → Option β)

/-- A round faults, returns what it delivers for an entry or null, or goes on with the next
cluster. -/
def round (clusterBuf : Option Block) (here : UInt32 × σ) : Option ((UInt32 × σ) ⊕ Option β) :=
  if here.1 < endMark then
    ((readCluster fs here.1 clusterBuf).run host.answer).bind fun answer =>
      match answer with
      | none => some (.inr none)
      | some clusterBuf =>
          (entriesOf fs clusterBuf).bind fun entries =>
            match scanEntries visit entries here.2 with
            | none => some (.inr none)
            | some (.inl a) => (deliver a).map (fun b => .inr (some b))
            | some (.inr s) => some (.inl (Fat32.fat32GetNextCluster host.drive fs here.1, s))
  else some (.inr none)

/-- Reading a cluster overwrites what was in the buffer. -/
theorem run_readCluster_again {clusterBuf clusterBuf' : Option Block} {c : UInt32}
    (h : (readCluster fs c clusterBuf).run host.answer = some (some clusterBuf')) (d : UInt32) :
    (readCluster fs d clusterBuf').run host.answer =
      (readCluster fs d clusterBuf).run host.answer := by
  obtain ⟨data, rfl⟩ := diskReadInto_stores host _ _ h
  cases clusterBuf with
  | none => rfl
  | some block => simp only [readCluster, Option.map_some, run_diskReadInto, store_store]

theorem run_walkDirectory (clusterBuf : Option Block) (fuel : ℕ) (c : UInt32) (s : σ) :
    ((walkDirectory fs visit fuel clusterBuf c s).run host.answer).bind
        (fun found => found.elim (some none) (fun a => (deliver a).map some)) =
      iterate (round host fs visit deliver clusterBuf) fuel (c, s) := by
  suffices h : ∀ buf : Option Block, (∀ d, (readCluster fs d buf).run host.answer =
        (readCluster fs d clusterBuf).run host.answer) →
      ((walkDirectory fs visit fuel buf c s).run host.answer).bind
          (fun found => found.elim (some none) (fun a => (deliver a).map some)) =
        iterate (round host fs visit deliver clusterBuf) fuel (c, s) from h clusterBuf
          (fun _ => rfl)
  induction fuel generalizing c s with
  | zero => exact fun _ _ => rfl
  | succ fuel ih =>
    intro buf hbuf
    by_cases hgoing : c < endMark
    swap
    · simp [walkDirectory, iterate, round, hgoing]
    have hsame := hbuf c
    simp only [walkDirectory, iterate, round, if_pos hgoing, run_bind, hsame]
    cases hread : (readCluster fs c clusterBuf).run host.answer with
    | none => rfl
    | some answer =>
      cases answer with
      | none => rfl
      | some buf' =>
        have hagain := run_readCluster_again host fs hread
        cases hentries : entriesOf fs buf' with
        | none => simp [hentries]
        | some entries =>
          cases hscan : scanEntries visit entries s with
          | none => simp [hentries, hscan]
          | some found =>
            cases found with
            | inl a => cases hdeliver : deliver a <;> simp [hentries, hscan, hdeliver]
            | inr s' =>
              simp only [hentries, hscan, Option.bind_some, run_bind,
                run_fat32GetNextCluster, Sum.elim_inl]
              exact ih _ _ buf' fun d => (hagain d).trans rfl

end

def readdirRound (index : UInt32) : UInt32 × UInt32 →
    Option ((UInt32 × UInt32) ⊕ Option Fat32Dirent) :=
  round host fs (readdirVisit index) some (host.block .buffer fs.bytesPerCluster.toUInt64)

/-- The rounds of `fat32_finddir`. A node found takes two blocks of the heap. -/
def finddirRound (name : List UInt8) : UInt32 × Unit →
    Option ((UInt32 × Unit) ⊕ Option Fat32Dirent) :=
  round host fs (finddirVisit name) (fun e => if (host.block .object sizeofVfsNode).isSome ∧
      (host.block .object sizeofNodeData).isSome
      then some e else none)
    (host.block .buffer fs.bytesPerCluster.toUInt64)

instance finite32 : Finite UInt32 :=
    Finite.of_injective UInt32.toFin (fun _ _ => UInt32.toFin_inj.mp)

theorem readdir_returns (node : Fat32Node) (index : UInt32) :
    (∃ fuel r, (fat32Readdir fs node index fuel).run host.answer = some r) ↔
      Returns (readdirRound host fs index) (node.firstCluster, 0) := by
  refine exists_congr fun fuel => ?_
  rw [readdirRound, ← run_walkDirectory]
  simp only [fat32Readdir, run_bind, run_kmalloc, Option.bind_some, run_pure]
  cases (walkDirectory fs (readdirVisit index) fuel (host.block .buffer fs.bytesPerCluster.toUInt64)
    node.firstCluster 0).run host.answer with
  | none => simp
  | some found => cases found <;> simp

theorem finddir_returns (node : Fat32Node) (name : List UInt8) :
    (∃ fuel r, (fat32Finddir fs node name fuel).run host.answer = some r) ↔
      Returns (finddirRound host fs name) (node.firstCluster, ()) := by
  refine exists_congr fun fuel => ?_
  rw [finddirRound, ← run_walkDirectory]
  simp only [fat32Finddir, run_bind, run_kmalloc, Option.bind_some]
  cases (walkDirectory fs (finddirVisit name) fuel (host.block .buffer fs.bytesPerCluster.toUInt64)
    node.firstCluster ()).run host.answer with
  | none => simp
  | some found =>
    cases found with
    | none => simp
    | some e =>
      simp only [Option.bind_some, run_bind, run_kmallocUnchecked, run_pure, Option.elim_some]
      cases host.block .object sizeofVfsNode <;> cases host.block .object sizeofNodeData <;> simp

/-- The walks return exactly if no cluster comes back (with as many valid entries seen, if
they are counted) and there is memory where it is needed. -/
theorem directory_walks_return_iff (node : Fat32Node) (index : UInt32) (name : List UInt8) :
    ((∃ fuel r, (fat32Readdir fs node index fuel).run host.answer = some r) ↔
        NeverRepeats (readdirRound host fs index) (node.firstCluster, 0) ∧
          NeverFaults (readdirRound host fs index) (node.firstCluster, 0)) ∧
      ((∃ fuel r, (fat32Finddir fs node name fuel).run host.answer = some r) ↔
        NeverRepeats (finddirRound host fs name) (node.firstCluster, ()) ∧
          NeverFaults (finddirRound host fs name) (node.firstCluster, ())) :=
  ⟨(readdir_returns host fs node index).trans returns_iff,
    (finddir_returns host fs node name).trans returns_iff⟩

/-! ### A directory without an end

Deleted entries in cluster 2, whose entry in the table is 2. -/

def loopSector (lba : UInt64) : List UInt8 :=
  if lba = 0 then
    [0xEB, 0, 0] ++ List.replicate 8 0 ++ [0, 2, 1, 1, 0, 1] ++ List.replicate 19 0 ++
      [1, 0, 0, 0] ++ List.replicate 4 0 ++ [2, 0, 0, 0]
  else if lba = 1 then List.replicate 8 0 ++ [2, 0, 0, 0]
  else List.replicate 512 0xE5

def loopHost : Host where
  drive := ⟨.ata, fun lba _ => some (loopSector lba), fun _ _ => none⟩
  heap := fun _ _ => some (fun _ => 0)

def loopFs : Fat32Fs where
  fatLba := 1
  dataLba := 2
  sectorsPerCluster := 1
  bytesPerCluster := 512

def loopRoot : Fat32Child where
  name := []
  length := 0
  node := { flags := 2, firstCluster := 2, fileSize := 0 }

theorem cyclic_directory_never_ends : (fat32Mount 0).run loopHost.answer =
    some (some (loopFs, loopRoot)) ∧
    ∀ fuel, (fat32Readdir loopFs loopRoot.node 0 fuel).run loopHost.answer = none ∧
      (fat32Finddir loopFs loopRoot.node [0x41] fuel).run loopHost.answer = none := by
  have hreaddir : stateAt (readdirRound loopHost loopFs 0) (2, 0) 1 =
    some (2, 0) := by decide +kernel
  have hfinddir : stateAt (finddirRound loopHost loopFs [0x41]) (2, ()) 1 =
    some (2, ()) := by decide +kernel
  refine ⟨rfl, fun fuel => ⟨?_, ?_⟩⟩
  · rw [Option.eq_none_iff_forall_ne_some]
    intro r hr
    exact not_returns_of_repeat rfl hreaddir Nat.zero_ne_one
      ((readdir_returns loopHost loopFs loopRoot.node 0).mp ⟨fuel, r, hr⟩)
  · rw [Option.eq_none_iff_forall_ne_some]
    intro r hr
    exact not_returns_of_repeat rfl hfinddir Nat.zero_ne_one
      ((finddir_returns loopHost loopFs loopRoot.node [0x41]).mp ⟨fuel, r, hr⟩)

end NexusKernel.DirectoryWalks
