import NexusKernel.PathResolution

/-!
File systems of ramfs directories and files only. Lookups stay among the nodes, and a path that
resolves is walked from the root mounted on top.
-/

namespace NexusKernel.RamfsNodes

open Vfs PathResolution

variable {fs : Fs} {path name : List UInt8} {n : ℕ}

def Directory (fs : Fs) (n : ℕ) : Prop := (fs.node n).flags &&& fsDirectory ≠ 0

instance (fs : Fs) (n : ℕ) : Decidable (Directory fs n) := by
  unfold Directory
  infer_instance

def children (fs : Fs) (n : ℕ) : List ℕ := (fs.node n).impl.elim [] RamfsInternal.children

/-- All nodes are directories and files of ramfs, and pointers are to nodes. Roots can be mounted
anywhere. -/
structure RamfsOnly (fs : Fs) : Prop where
  root : ∀ r, fs.vfsRoot = some r → r < fs.nodes
  ops : ∀ n < fs.nodes, (fs.node n).ops = some .ramfs
  impl : ∀ n < fs.nodes, (fs.node n).impl ≠ none
  children : ∀ n < fs.nodes, ∀ c ∈ children fs n, c < fs.nodes
  ptr : ∀ n < fs.nodes, ∀ m, (fs.node n).ptr = some m → m < fs.nodes

section

variable (h : RamfsOnly fs) (hn : n < fs.nodes)
include h hn

variable {m : ℕ}

theorem RamfsOnly.mounted (hm : (fs.node n).mounted = some m) : m < fs.nodes := by
  rw [VfsNode.mounted] at hm
  split at hm
  · simp at hm
  · exact h.ptr n hn m hm

theorem RamfsOnly.cross_lt : fs.cross n < fs.nodes := by
  rw [Fs.cross]
  cases hm : (fs.node n).mounted with
  | none => exact hn
  | some m => exact h.mounted hn hm

theorem RamfsOnly.vfsFinddir_eq (name : List UInt8) : vfsFinddir fs (some n) name =
    if Directory fs (fs.cross n) then
      ((RamfsNodes.children fs (fs.cross n)).find? (fun c => (fs.node c).name = name)).map fs.cross
    else none := by
  have hcross := h.cross_lt hn
  obtain ⟨priv, hpriv⟩ := Option.ne_none_iff_exists'.mp (h.impl _ hcross)
  rw [vfsFinddir]
  by_cases hdir : Directory fs (fs.cross n)
  · rw [if_neg hdir, if_pos hdir, opsFinddir, h.ops _ hcross]
    rw [ramfsFinddir, if_neg hdir, RamfsNodes.children, hpriv]
    rfl
  · rw [if_pos (not_not.mp hdir), if_neg hdir]

theorem RamfsOnly.vfsFinddir_lt (hm : vfsFinddir fs (some n) name = some m) : m < fs.nodes := by
  rw [h.vfsFinddir_eq hn] at hm
  split at hm
  · obtain ⟨c, hc, rfl⟩ := Option.map_eq_some_iff.mp hm
    exact h.cross_lt (h.children _ (h.cross_lt hn) c (List.mem_of_find?_eq_some hc))
  · simp at hm

theorem RamfsOnly.topMount_lt {fuel m : ℕ} (hm : topMount fs fuel n = .ok m) : m < fs.nodes := by
  fun_induction topMount fs fuel n with
  | case1 => exact nomatch hm
  | case2 => exact Except.ok.inj hm ▸ hn
  | case3 fuel n next hnext ih => exact ih (h.mounted hn hnext) hm

end

theorem rootMount_eq_some_iff (fs : Fs) (top : ℕ) : rootMount fs = .ok (some top) ↔
    ∃ root, fs.vfsRoot = some root ∧ topMount fs (fs.nodes + 1) root = .ok top := by
  rw [rootMount]
  cases fs.vfsRoot with
  | none => simp
  | some root =>
    cases hmount : topMount fs (fs.nodes + 1) root with
    | error stop | ok m => simp [Except.map, hmount]

theorem RamfsOnly.rootMount_lt (h : RamfsOnly fs) (hm : rootMount fs = .ok (some m)) :
    m < fs.nodes := by
  obtain ⟨root, hroot, htop⟩ := (rootMount_eq_some_iff fs m).mp hm
  exact h.topMount_lt (h.root root hroot) htop

theorem RamfsOnly.walk_lt (h : RamfsOnly fs) {names : List (List UInt8)} (hn : n < fs.nodes)
    (hm : walk fs (some n) names = some m) : m < fs.nodes := by
  induction names generalizing n with
  | nil => exact Option.some.inj hm ▸ hn
  | cons name names ih =>
    obtain ⟨next, hnext, hrest⟩ := walk_cons_eq_some hm
    exact ih (h.vfsFinddir_lt hn hnext) hrest

/-- A path that resolves is walked from the root that is mounted on top. -/
theorem vfsResolvePath_eq_some_iff (fs : Fs) (path : List UInt8) (n : ℕ) :
    vfsResolvePath fs (slash :: path) = .ok (some n) ↔ ∃ top, rootMount fs = .ok (some top) ∧
        walk fs (some top) (lookups (slash :: path)) = some n := by
  rw [vfsResolvePath_eq]
  cases rootMount fs with
  | error stop => simp [Except.map]
  | ok top =>
    cases top with
    | none => simp [Except.map, walk_none]
    | some top => simp [Except.map]

theorem chain_ramfsOnly (names : List (List UInt8)) : RamfsOnly (chain names) where
  root r hr := Option.some.inj hr ▸ Nat.succ_pos _
  ops _ _ := rfl
  impl _ _ := Option.some_ne_none _
  children n _ c hc := by
    have hchildren : RamfsNodes.children (chain names) n = if n < names.length then [n + 1]
      else [] := rfl
    rw [hchildren] at hc
    split at hc
    · rename_i hn
      rw [List.mem_singleton.mp hc]
      exact Nat.succ_lt_succ hn
    · exact absurd hc List.not_mem_nil
  ptr _ _ _ hm := nomatch hm

end NexusKernel.RamfsNodes
