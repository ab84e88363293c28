import NexusKernel.PathBuffers
import NexusKernel.RamfsNodes
import Mathlib.Data.List.Find

/-!
Creation of files and directories by path. `vfs_mkdir` and `vfs_create` resolve what is before the
last slash and hand the rest to the ramfs node found, which appends a new node to its children.
Whether the new node is found under its path depends on what is not checked: the last name can be
empty or taken, the parent a file.
-/

namespace NexusKernel.FileCreation

open Vfs PathResolution PathBuffers RamfsNodes Lib.CStrings Function

inductive Call where
  | mkdir (path : List UInt8)
  | create (path : List UInt8)

def Call.path : Call → List UInt8
  | .mkdir path => path
  | .create path => path

def Call.perform (fs : Fs) : Call → Except Stop Fs
  | .mkdir path => (vfsMkdir fs path).map Prod.fst
  | .create path => (vfsCreate fs path).map Prod.fst

def performAll (fs : Fs) (calls : List Call) : Except Stop Fs := calls.foldlM Call.perform fs

variable {fs fs' : Fs} {path dir name : List UInt8} {parent n : ℕ}

/-- What a creation leaves: every old node with its name, kind and mount, and every list of
children as a beginning of the new one. -/
structure Grows (fs fs' : Fs) : Prop where
  root : fs'.vfsRoot = fs.vfsRoot
  nodes : fs.nodes ≤ fs'.nodes
  name : ∀ n < fs.nodes, (fs'.node n).name = (fs.node n).name
  flags : ∀ n < fs.nodes, (fs'.node n).flags = (fs.node n).flags
  ptr : ∀ n < fs.nodes, (fs'.node n).ptr = (fs.node n).ptr
  children : ∀ n < fs.nodes, children fs n <+: children fs' n

theorem Grows.refl (fs : Fs) : Grows fs fs :=
  ⟨rfl, le_rfl, fun _ _ => rfl, fun _ _ => rfl, fun _ _ => rfl, fun _ _ => List.prefix_rfl⟩

theorem exists_absolute (h : vfsResolvePath fs path = .ok (some n)) :
    ∃ rest, path = slash :: rest := by
  rw [vfsResolvePath] at h
  split at h
  · exact List.head?_eq_some_iff.mp ‹_›
  · cases h

section

variable (h : Grows fs fs')
include h

theorem Grows.mounted (hn : n < fs.nodes) : (fs'.node n).mounted = (fs.node n).mounted := by
  rw [VfsNode.mounted, VfsNode.mounted, h.flags n hn, h.ptr n hn]

theorem Grows.cross (hn : n < fs.nodes) : fs'.cross n = fs.cross n := by
  rw [Fs.cross, Fs.cross, h.mounted hn]

theorem Grows.directory (hn : n < fs.nodes) : Directory fs' n ↔ Directory fs n := by
  rw [Directory, Directory, h.flags n hn]

section

variable (hfs : RamfsOnly fs)
include hfs

theorem Grows.find (hn : n < fs.nodes) {c : ℕ}
    (hc : (RamfsNodes.children fs n).find? (fun c => (fs.node c).name = name) = some c) :
    (RamfsNodes.children fs' n).find? (fun c => (fs'.node c).name = name) = some c := by
  obtain ⟨added, hadded⟩ := h.children n hn
  have hold : (RamfsNodes.children fs n).find? (fun c => (fs'.node c).name = name) = some c := by
    rw [← hc]
    refine List.find?_congr ?_
    intro d hd
    rw [h.name d (hfs.children n hn d hd)]
  rw [← hadded, List.find?_append, hold]
  rfl

theorem Grows.vfsFinddir (hfs' : RamfsOnly fs')
    (hn : n < fs.nodes) {m : ℕ} (hm : vfsFinddir fs (some n) name = some m) :
    Vfs.vfsFinddir fs' (some n) name = some m := by
  have hcross := hfs.cross_lt hn
  rw [hfs.vfsFinddir_eq hn] at hm
  rw [hfs'.vfsFinddir_eq (hn.trans_le h.nodes), h.cross hn]
  split at hm
  · rename_i hdir
    obtain ⟨c, hc, rfl⟩ := Option.map_eq_some_iff.mp hm
    have hlt := hfs.children _ hcross c (List.mem_of_find?_eq_some hc)
    rw [if_pos ((h.directory hcross).mpr hdir), h.find hfs hcross hc, Option.map_some, h.cross hlt]
  · simp at hm

theorem Grows.walk (hfs' : RamfsOnly fs') {names : List (List UInt8)} {m : ℕ} (hn : n < fs.nodes)
    (hm : walk fs (some n) names = some m) : PathResolution.walk fs' (some n) names = some m := by
  induction names generalizing n with
  | nil => exact hm
  | cons name names ih =>
    obtain ⟨next, hnext, hrest⟩ := walk_cons_eq_some hm
    rw [PathResolution.walk, List.foldl_cons, h.vfsFinddir hfs hfs' hn hnext]
    exact ih (hfs.vfsFinddir_lt hn hnext) hrest

theorem Grows.topMount {fuel fuel' m : ℕ}
    (hfuel : fuel ≤ fuel') (hn : n < fs.nodes) (hm : topMount fs fuel n = .ok m) :
    Vfs.topMount fs' fuel' n = .ok m := by
  induction fuel generalizing n fuel' with
  | zero => exact nomatch hm
  | succ fuel ih =>
    obtain ⟨fuel', rfl⟩ : ∃ k, fuel' = k + 1 := ⟨fuel' - 1, by omega⟩
    rw [Vfs.topMount] at hm ⊢
    rw [h.mounted hn]
    cases hmounted : (fs.node n).mounted with
    | none =>
      rw [hmounted] at hm
      exact hm
    | some next =>
      rw [hmounted] at hm
      exact ih (by omega) (hfs.mounted hn hmounted) hm

theorem Grows.rootMount {top : ℕ}
    (htop : rootMount fs = .ok (some top)) : Vfs.rootMount fs' = .ok (some top) := by
  obtain ⟨root, hroot, hmount⟩ := (rootMount_eq_some_iff fs top).mp htop
  have hfuel := Nat.succ_le_succ h.nodes
  exact (rootMount_eq_some_iff fs' top).mpr
    ⟨root, h.root.trans hroot, h.topMount hfs hfuel (hfs.root root hroot) hmount⟩

/-- Every path that resolves still leads to the same node. -/
theorem Grows.vfsResolvePath (hfs' : RamfsOnly fs')
    (hn : vfsResolvePath fs path = .ok (some n)) : Vfs.vfsResolvePath fs' path = .ok (some n) := by
  obtain ⟨path, rfl⟩ := exists_absolute hn
  obtain ⟨top, htop, hwalk⟩ := (vfsResolvePath_eq_some_iff fs path n).mp hn
  have hlt := hfs.rootMount_lt htop
  exact (vfsResolvePath_eq_some_iff fs' path n).mpr ⟨top, h.rootMount hfs htop,
    h.walk hfs hfs' hlt hwalk⟩

end

end

def addChild (fs : Fs) (flags : UInt32) (parent : ℕ) (name : List UInt8) : Fs :=
  { fs with
    node := update (update fs.node fs.nodes
        { name := name
          mask := (fs.node parent).mask
          flags := flags
          length := 0
          impl := some ⟨0, 0, []⟩
          ops := some .ramfs
          ptr := none })
      parent
      { fs.node parent with
        impl := (fs.node parent).impl.map
          (fun priv => { priv with children := priv.children ++ [fs.nodes] }) }
    nodes := fs.nodes + 1 }

/-- A ramfs node takes a child with any name that fits, up to 64. -/
theorem ramfsCreate_eq (flags : UInt32) (hfs : RamfsOnly fs) (hparent : parent < fs.nodes)
    (hname : name.length < 128) (h0 : 0 ∉ name) : ramfsCreate flags fs parent name =
    if ramfsMaxChildren ≤ (children fs parent).length then .ok (fs, none)
    else .ok (addChild fs flags parent name, some fs.nodes) := by
  obtain ⟨priv, hpriv⟩ := Option.ne_none_iff_exists'.mp (hfs.impl parent hparent)
  have hchildren : children fs parent = priv.children := by rw [children, hpriv, Option.elim_some]
  rw [ramfsCreate, hpriv, hchildren]
  dsimp only
  by_cases hfull : ramfsMaxChildren ≤ priv.children.length
  · rw [if_pos hfull, if_pos hfull]
  · rw [if_neg hfull, if_neg hfull, strcpy_eq, length_pathArray, if_pos hname]
    dsimp only
    rw [cString_append_zero h0, addChild, hpriv]
    rfl

variable {flags : UInt32}

theorem addChild_new (h : parent < fs.nodes) : (addChild fs flags parent name).node fs.nodes =
    { name := name
      mask := (fs.node parent).mask
      flags := flags
      length := 0
      impl := some ⟨0, 0, []⟩
      ops := some .ramfs
      ptr := none } := by
  rw [addChild]
  dsimp only
  rw [update_of_ne h.ne', update_self]

theorem addChild_parent : (addChild fs flags parent name).node parent = { fs.node parent with
      impl := (fs.node parent).impl.map
        (fun priv => { priv with children := priv.children ++ [fs.nodes] }) } := by
  exact update_self ..

theorem addChild_other (hparent : n ≠ parent) (hn : n < fs.nodes) :
    (addChild fs flags parent name).node n = fs.node n := by
  rw [addChild]
  dsimp only
  rw [update_of_ne hparent, update_of_ne hn.ne]

theorem children_addChild (hfs : RamfsOnly fs) (hparent : parent < fs.nodes)
    (hn : n < fs.nodes + 1) : children (addChild fs flags parent name) n =
    if n = parent then children fs n ++ [fs.nodes]
    else if n = fs.nodes then [] else children fs n := by
  rw [children]
  by_cases hp : n = parent
  · subst n
    obtain ⟨priv, hpriv⟩ := Option.ne_none_iff_exists'.mp (hfs.impl parent hparent)
    rw [if_pos rfl, addChild_parent, children, hpriv]
    rfl
  · rw [if_neg hp]
    by_cases hnew : n = fs.nodes
    · subst n
      rw [if_pos rfl, addChild_new hparent]
      rfl
    · rw [if_neg hnew, addChild_other hp (by omega), children]

theorem addChild_old (fs : Fs) (flags : UInt32) (parent : ℕ) (name : List UInt8)
    (hn : n < fs.nodes) :
    ∃ impl, (addChild fs flags parent name).node n = { fs.node n with impl := impl } := by
  by_cases hp : n = parent
  · subst n
    exact ⟨_, addChild_parent⟩
  · exact ⟨_, addChild_other hp hn⟩

theorem addChild_grows (hfs : RamfsOnly fs) (flags : UInt32) (hparent : parent < fs.nodes)
    (name : List UInt8) : Grows fs (addChild fs flags parent name) := by
  refine ⟨rfl, Nat.le_succ _, fun n hn => ?_, fun n hn => ?_, fun n hn => ?_, fun n hn => ?_⟩
  case refine_4 =>
    rw [children_addChild hfs hparent (by omega)]
    split
    · exact List.prefix_append _ _
    · rw [if_neg hn.ne]
  all_goals
    obtain ⟨impl, hold⟩ := addChild_old fs flags parent name hn
    rw [hold]

theorem addChild_ramfsOnly (hfs : RamfsOnly fs) (flags : UInt32) (hparent : parent < fs.nodes)
    (name : List UInt8) : RamfsOnly (addChild fs flags parent name) := by
  have hcases : ∀ n < fs.nodes + 1, n = fs.nodes ∨ n < fs.nodes := fun n hn => by omega
  constructor
  · intro r hr
    exact (hfs.root r hr).trans (Nat.lt_succ_self _)
  · intro n hn
    rcases hcases n hn with rfl | hn
    · rw [addChild_new hparent]
    · obtain ⟨impl, hold⟩ := addChild_old fs flags parent name hn
      rw [hold]
      exact hfs.ops n hn
  · intro n hn
    rcases hcases n hn with rfl | hn
    · rw [addChild_new hparent]
      exact Option.some_ne_none _
    · by_cases hp : n = parent
      · subst n
        rw [addChild_parent]
        simpa using hfs.impl parent hparent
      · rw [addChild_other hp hn]
        exact hfs.impl n hn
  · intro n hn c hc
    rw [children_addChild hfs hparent hn] at hc
    have hold : ∀ m < fs.nodes, c ∈ children fs m → c < fs.nodes + 1 :=
      fun m hm hc => (hfs.children m hm c hc).trans (Nat.lt_succ_self _)
    split at hc
    · subst n
      rcases List.mem_append.mp hc with hc | hc
      · exact hold parent hparent hc
      · rw [List.mem_singleton.mp hc]
        exact Nat.lt_succ_self _
    · split at hc
      · exact absurd hc List.not_mem_nil
      · exact hold n (by have := hcases n hn; omega) hc
  · intro n hn m hm
    rcases hcases n hn with rfl | hn
    · rw [addChild_new hparent] at hm
      simp at hm
    · obtain ⟨impl, hold⟩ := addChild_old fs flags parent name hn
      rw [hold] at hm
      exact (hfs.ptr n hn m hm).trans (Nat.lt_succ_self _)

variable {top : Option ℕ}

theorem vfsResolvePath_ok (htop : rootMount fs = .ok top) (path : List UInt8) :
    ∃ r, vfsResolvePath fs path = .ok r := by
  rw [vfsResolvePath, htop]
  split
  · exact ⟨_, rfl⟩
  · exact ⟨_, rfl⟩

/-- What `vfs_mkdir` and `vfs_create` do with a short path, once the root is found: nothing, or a
new child for the node before the last slash. -/
theorem createWith_cases (hfs : RamfsOnly fs) (flags : UInt32)
    (htop : rootMount fs = .ok top) (hlen : path.length < 128) (h0 : 0 ∉ path) :
    createWith (ramfsCreate flags) fs path = .ok (fs, none) ∨
      ∃ dir name parent, path = dir ++ slash :: name ∧ slash ∉ name ∧
        vfsResolvePath fs (slash :: dir) = .ok (some parent) ∧ parent < fs.nodes ∧
        createWith (ramfsCreate flags) fs path = .ok (addChild fs flags parent name,
          some fs.nodes) := by
  by_cases habs : path.head? = some slash
  · obtain ⟨dir, name, rfl, hslash⟩ := exists_last_slash habs
    rw [createWith_short fs habs hslash hlen h0]
    obtain ⟨r, hr⟩ := vfsResolvePath_ok htop (slash :: dir)
    cases r with
    | none =>
      rw [hr]
      exact .inl rfl
    | some parent =>
      obtain ⟨top', htop', hwalk⟩ := (vfsResolvePath_eq_some_iff fs dir parent).mp hr
      have hparent := hfs.walk_lt (hfs.rootMount_lt htop') hwalk
      have hname : name.length < 128 := by
        simp only [List.length_append, List.length_cons] at hlen
        omega
      have h0name : 0 ∉ name := fun h => h0 (List.mem_append_right _ (List.mem_cons_of_mem _ h))
      have hmake : createIn (ramfsCreate flags) fs (some parent) name =
          ramfsCreate flags fs parent name := by
        rw [createIn, hfs.ops parent hparent]
      rw [hr]
      simp only [Except.bind, hmake, ramfsCreate_eq flags hfs hparent hname h0name]
      split
      · exact .inl rfl
      · exact .inr ⟨dir, name, parent, rfl, hslash, hr, hparent, rfl⟩
  · left
    rw [createWith, if_neg habs]

theorem Call.perform_grows (call : Call) (hfs : RamfsOnly fs) {top : ℕ}
    (htop : rootMount fs = .ok (some top)) (hlen : call.path.length < 128) (h0 : 0 ∉ call.path) :
    ∃ fs', call.perform fs = .ok fs' ∧ RamfsOnly fs' ∧ Grows fs fs' := by
  have hmake : ∀ flags, ∃ fs' r, createWith (ramfsCreate flags) fs call.path = .ok (fs', r) ∧
      RamfsOnly fs' ∧ Grows fs fs' := by
    intro flags
    rcases createWith_cases hfs flags htop hlen h0 with h | ⟨dir, name, parent, -, -, -, hparent, h⟩
    · exact ⟨fs, none, h, hfs, Grows.refl fs⟩
    · exact ⟨_, _, h, addChild_ramfsOnly hfs flags hparent name,
        addChild_grows hfs flags hparent name⟩
  cases call with
  | mkdir path =>
    obtain ⟨fs', r, h, hfs', hgrows⟩ := hmake fsDirectory
    refine ⟨fs', ?_, hfs', hgrows⟩
    rw [Call.perform, vfsMkdir]
    exact congrArg _ (congrArg _ h)
  | create path =>
    obtain ⟨fs', r, h, hfs', hgrows⟩ := hmake fsFile
    refine ⟨fs', ?_, hfs', hgrows⟩
    exact congrArg (Except.map Prod.fst) h

/-- Creation does not disturb existing paths: calls with short paths return, and a path that
resolved before does so afterwards. -/
theorem creation_keeps_paths (hfs : RamfsOnly fs) {calls : List Call}
    (hcalls : ∀ call ∈ calls, call.path.length < 128 ∧ 0 ∉ call.path)
    (hpath : vfsResolvePath fs path = .ok (some n)) :
    ∃ fs', performAll fs calls = .ok fs' ∧ vfsResolvePath fs' path = .ok (some n) := by
  induction calls generalizing fs with
  | nil => exact ⟨fs, rfl, hpath⟩
  | cons call calls ih =>
    obtain ⟨⟨hlen, h0⟩, hrest⟩ := List.forall_mem_cons.mp hcalls
    obtain ⟨path, rfl⟩ := exists_absolute hpath
    obtain ⟨top, htop, -⟩ := (vfsResolvePath_eq_some_iff fs path n).mp hpath
    obtain ⟨fs', hperform, hfs', hgrows⟩ := call.perform_grows hfs htop hlen h0
    obtain ⟨fs'', hrun, hres⟩ := ih hfs' hrest (hgrows.vfsResolvePath hfs hfs' hpath)
    refine ⟨fs'', ?_, hres⟩
    rw [performAll, List.foldlM_cons, hperform]
    exact hrun

theorem creation_keeps_paths_chain :
    ∃ fs', performAll (chain [[97]]) [.mkdir [slash, 98], .create [slash, 97]] = .ok fs' ∧
      vfsResolvePath fs' [slash, 97] = .ok (some 1) :=
  creation_keeps_paths (chain_ramfsOnly _) (by simp [Call.path, slash]) rfl

def DistinctNames (fs : Fs) : Prop :=
  ∀ d < fs.nodes, Directory fs d → ((children fs d).map (fun c => (fs.node c).name)).Nodup

/-- The node made by `vfs_mkdir` or `vfs_create`: under its path, in a directory, with a name of
its own. -/
structure Found (fs : Fs) (path : List UInt8) (new : ℕ) : Prop where
  resolves : vfsResolvePath fs path = .ok (some new)
  parent : ∀ p < fs.nodes, new ∈ children fs p → Directory fs p
  distinct : DistinctNames fs

/-- What the code would have to check: a last name, a directory not covered by a mount, no child
of that name. -/
structure Suited (fs : Fs) (path dir name : List UInt8) (parent : ℕ) : Prop where
  split : path = dir ++ slash :: name ∧ slash ∉ name
  nonempty : name ≠ []
  resolves : vfsResolvePath fs (slash :: dir) = .ok (some parent)
  uncovered : fs.cross parent = parent
  directory : Directory fs parent
  unused : ∀ c ∈ children fs parent, (fs.node c).name ≠ name
  distinct : DistinctNames fs

section

variable (hfs : RamfsOnly fs) (hparent : parent < fs.nodes)

include hparent in
theorem cross_addChild_new : (addChild fs flags parent name).cross fs.nodes = fs.nodes := by
  rw [Fs.cross, VfsNode.mounted, addChild_new hparent]
  rw [ite_self, Option.getD_none]

include hfs hparent

/-- Exactly if the parent is an uncovered directory without a child of the name, the new node is
found. -/
theorem vfsFinddir_addChild_iff : vfsFinddir (addChild fs flags parent name) (some parent) name =
    some fs.nodes ↔ fs.cross parent = parent ∧ Directory fs parent ∧ ∀ c ∈ children fs parent,
      (fs.node c).name ≠ name := by
  have hgrows := addChild_grows hfs flags hparent name
  have hfs' := addChild_ramfsOnly hfs flags hparent name
  have hcross := hfs.cross_lt hparent
  rw [hfs'.vfsFinddir_eq (Nat.lt_succ_of_lt hparent), hgrows.cross hparent,
    children_addChild hfs hparent (Nat.lt_succ_of_lt hcross), if_neg hcross.ne]
  have hold : ∀ l : List ℕ, (∀ c ∈ l, c < fs.nodes) →
      (l.find? (fun c => ((addChild fs flags parent name).node c).name = name)).map
        (addChild fs flags parent name).cross ≠ some fs.nodes := by
    intro l hl hfound
    obtain ⟨c, hc, hcross'⟩ := Option.map_eq_some_iff.mp hfound
    have hlt := hl c (List.mem_of_find?_eq_some hc)
    rw [hgrows.cross hlt] at hcross'
    exact (hfs.cross_lt hlt).ne hcross'
  by_cases hcovered : fs.cross parent = parent
  · rw [hcovered, if_pos rfl, List.find?_append]
    by_cases hdir : Directory fs parent
    · rw [if_pos ((hgrows.directory hparent).mpr hdir)]
      cases hfind : (children fs parent).find?
        (fun c => ((addChild fs flags parent name).node c).name = name) with
      | none =>
        have hnew : ((addChild fs flags parent name).node fs.nodes).name = name := by
          rw [addChild_new hparent]
        have hunused : ∀ c ∈ children fs parent, (fs.node c).name ≠ name := by
          intro c hc
          have hne := List.find?_eq_none.mp hfind c hc
          rw [hgrows.name c (hfs.children parent hparent c hc)] at hne
          simpa using hne
        refine iff_of_true ?_ ⟨rfl, hdir, hunused⟩
        simp [hnew, cross_addChild_new hparent]
      | some c =>
        have hmem := List.mem_of_find?_eq_some hfind
        have hlt := hfs.children parent hparent c hmem
        have hname : (fs.node c).name = name := by
          have hpos := List.find?_some hfind
          rw [hgrows.name c hlt] at hpos
          simpa using hpos
        have hmiss := hold _ (hfs.children parent hparent)
        rw [hfind] at hmiss
        exact iff_of_false hmiss fun h => h.2.2 c hmem hname
    · rw [if_neg (fun h => hdir ((hgrows.directory hparent).mp h))]
      simp [hdir]
  · refine iff_of_false ?_ fun h => hcovered h.1
    split
    · exact hold _ (hfs.children _ hcross)
    · simp

theorem distinctNames_addChild_iff : DistinctNames (addChild fs flags parent name) ↔
    DistinctNames fs ∧
    (Directory fs parent → ∀ c ∈ children fs parent, (fs.node c).name ≠ name) := by
  have hgrows := addChild_grows hfs flags hparent name
  have hnames :
    ∀ d < fs.nodes, (children fs d).map (fun c => ((addChild fs flags parent name).node c).name) =
        (children fs d).map (fun c => (fs.node c).name) := by
    intro d hd
    refine List.map_congr_left ?_
    intro c hc
    exact hgrows.name c (hfs.children d hd c hc)
  have hdirs : ∀ d < fs.nodes, Directory fs d → (((children (addChild fs flags parent name) d).map
        (fun c => ((addChild fs flags parent name).node c).name)).Nodup ↔
        ((children fs d).map (fun c => (fs.node c).name)).Nodup ∧
          (d = parent → ∀ c ∈ children fs d, (fs.node c).name ≠ name)) := by
    intro d hd _
    rw [children_addChild hfs hparent (Nat.lt_succ_of_lt hd), if_neg hd.ne]
    by_cases hp : d = parent
    · subst d
      rw [if_pos rfl, List.map_append, hnames parent hd, List.map_singleton,
        addChild_new hparent, List.nodup_append]
      simp
    · rw [if_neg hp, hnames d hd]
      simp [hp]
  constructor
  · intro h
    have hold := fun d hd hdir =>
      (hdirs d hd hdir).mp (h d (Nat.lt_succ_of_lt hd) ((hgrows.directory hd).mpr hdir))
    exact ⟨fun d hd hdir => (hold d hd hdir).1, fun hdir => (hold parent hparent hdir).2 rfl⟩
  · rintro ⟨h, hunused⟩ d hd hdir
    by_cases hnew : d = fs.nodes
    · subst d
      rw [children_addChild hfs hparent hd, if_neg hparent.ne', if_pos rfl]
      exact List.nodup_nil
    · have hlt : d < fs.nodes := lt_of_le_of_ne (Nat.le_of_lt_succ hd) hnew
      have hdir' := (hgrows.directory hlt).mp hdir
      refine (hdirs d hlt hdir').mpr ⟨h d hlt hdir', ?_⟩
      rintro rfl
      exact hunused hdir'

theorem parent_addChild_iff :
    (∀ p < fs.nodes + 1, fs.nodes ∈ children (addChild fs flags parent name) p →
    Directory (addChild fs flags parent name) p) ↔ Directory fs parent := by
  have hgrows := addChild_grows hfs flags hparent name
  have hmem : ∀ p < fs.nodes + 1, fs.nodes ∈ children (addChild fs flags parent name) p ↔
      p = parent := by
    intro p hp
    rw [children_addChild hfs hparent hp]
    by_cases hpar : p = parent
    · simp [hpar]
    · rw [if_neg hpar]
      refine iff_of_false ?_ hpar
      split
      · exact List.not_mem_nil
      · intro hmem
        exact lt_irrefl _ (hfs.children p (by omega) _ hmem)
  constructor
  · intro h
    exact (hgrows.directory hparent).mp
      (h parent (Nat.lt_succ_of_lt hparent) ((hmem parent (Nat.lt_succ_of_lt hparent)).mpr rfl))
  · intro h p hp hnew
    obtain rfl := (hmem p hp).mp hnew
    exact (hgrows.directory hparent).mpr h

end

theorem last_slash_unique {dir' name' : List UInt8} (hname : slash ∉ name) (hname' : slash ∉ name')
    (h : dir ++ slash :: name = dir' ++ slash :: name') : dir = dir' ∧ name = name' := by
  have hlen : dir.length = dir'.length := by
    have hlast := strrchr_append dir hname
    rw [h, strrchr_append dir' hname'] at hlast
    exact (Option.some.inj hlast).symm
  obtain ⟨hdir, hrest⟩ := List.append_inj h hlen
  exact ⟨hdir, (List.cons.inj hrest).2⟩

/-- The condition for a new child to be found, for its path. -/
theorem found_addChild_iff (hfs : RamfsOnly fs) (flags : UInt32)
    (habs : (dir ++ slash :: name).head? = some slash) (hslash : slash ∉ name)
    (hlen : name.length ≤ 127) (hres : vfsResolvePath fs (slash :: dir) = .ok (some parent))
    (hparent : parent < fs.nodes) : Found (addChild fs flags parent name)
    (dir ++ slash :: name) fs.nodes ↔
    ∃ dir' name' parent', Suited fs (dir ++ slash :: name) dir' name' parent' := by
  have hgrows := addChild_grows hfs flags hparent name
  have hfs' := addChild_ramfsOnly hfs flags hparent name
  have hres' := hgrows.vfsResolvePath hfs hfs' hres
  constructor
  · rintro ⟨hpath, hdirectory, hdistinct⟩
    have hname : name ≠ [] := by
      rintro rfl
      rw [vfsResolvePath_trailing _ habs, hres'] at hpath
      exact hparent.ne (Option.some.inj (Except.ok.inj hpath))
    rw [vfsResolvePath_snoc _ habs hname hslash hlen, hres'] at hpath
    obtain ⟨hcross, hdir, hunused⟩ := (vfsFinddir_addChild_iff hfs hparent).mp (Except.ok.inj hpath)
    exact ⟨dir, name, parent, ⟨rfl, hslash⟩, hname, hres, hcross, hdir, hunused,
      ((distinctNames_addChild_iff hfs hparent).mp hdistinct).1⟩
  · rintro ⟨dir', name', parent', ⟨hsplit, hslash'⟩, hname, hresolves, hcross, hdir,
      hunused, hdistinct⟩
    obtain ⟨rfl, rfl⟩ := last_slash_unique hslash hslash' hsplit
    obtain rfl : parent = parent' := Option.some.inj (Except.ok.inj (hres.symm.trans hresolves))
    refine ⟨?_, (parent_addChild_iff hfs hparent).mpr hdir,
      (distinctNames_addChild_iff hfs hparent).mpr ⟨hdistinct, fun _ => hunused⟩⟩
    rw [vfsResolvePath_snoc _ habs hname hslash hlen, hres']
    exact congrArg _ ((vfsFinddir_addChild_iff hfs hparent).mpr ⟨hcross, hdir, hunused⟩)

/-- A node was made in what is before the last slash. -/
theorem createWith_made (hfs : RamfsOnly fs) {flags : UInt32} {new : ℕ} (hlen : path.length < 128)
    (h0 : 0 ∉ path) (h : createWith (ramfsCreate flags) fs path = .ok (fs', some new)) :
    new = fs.nodes ∧ ∃ dir name parent, path = dir ++ slash :: name ∧ slash ∉ name ∧
      vfsResolvePath fs (slash :: dir) = .ok (some parent) ∧ parent < fs.nodes ∧
      fs' = addChild fs flags parent name := by
  obtain ⟨top, htop⟩ : ∃ top, rootMount fs = .ok top := by
    cases hroot : rootMount fs with
    | ok top => exact ⟨top, rfl⟩
    | error stop =>
      by_cases habs : path.head? = some slash
      · obtain ⟨dir, name, rfl, hslash⟩ := exists_last_slash habs
        rw [createWith_short fs habs hslash hlen h0, vfsResolvePath_eq, hroot] at h
        cases h
      · rw [createWith, if_neg habs] at h
        cases h
  rcases createWith_cases hfs flags htop hlen h0 with
    hnone | ⟨dir, name, parent, hsplit, hslash, hres, hparent, hmade⟩
  · rw [hnone] at h
    cases h
  · rw [hmade] at h
    obtain ⟨hstate, hnew⟩ := Prod.mk.inj (Except.ok.inj h)
    exact ⟨(Option.some.inj hnew).symm, dir, name, parent, hsplit, hslash, hres,
      hparent, hstate.symm⟩

/-- After `vfs_mkdir` returned 0, or `vfs_create` a node, it is found under its path exactly if
the call was suited. -/
theorem create_then_resolve_iff (hfs : RamfsOnly fs) {new : ℕ} (habs : path.head? = some slash)
    (hlen : path.length < 128) (h0 : 0 ∉ path) (hcall : vfsMkdir fs path = .ok (fs', 0) ∧
      new = fs.nodes ∨ vfsCreate fs path = .ok (fs', some new)) :
    Found fs' path new ↔ ∃ dir name parent, Suited fs path dir name parent := by
  obtain ⟨flags, hmade⟩ : ∃ flags, createWith (ramfsCreate flags) fs path =
      .ok (fs', some new) := by
    rcases hcall with ⟨hmkdir, rfl⟩ | hmake
    · refine ⟨fsDirectory, ?_⟩
      rw [vfsMkdir, vfsMkdirNode, ramfsCreateDir] at hmkdir
      cases hresult : createWith (ramfsCreate fsDirectory) fs path with
      | error stop =>
        rw [hresult] at hmkdir
        cases hmkdir
      | ok result =>
        obtain ⟨fs'', made⟩ := result
        rw [hresult] at hmkdir
        obtain ⟨hstate, hcode⟩ := Prod.mk.inj (Except.ok.inj hmkdir)
        cases made with
        | none => simp at hcode
        | some m =>
          obtain ⟨rfl, -⟩ := createWith_made hfs hlen h0 hresult
          rw [← hstate]
    · exact ⟨fsFile, hmake⟩
  obtain ⟨rfl, dir, name, parent, rfl, hslash, hres, hparent, rfl⟩ :=
    createWith_made hfs hlen h0 hmade
  have hname : name.length ≤ 127 := by
    simp only [List.length_append, List.length_cons] at hlen
    omega
  exact found_addChild_iff hfs flags habs hslash hname hres hparent

theorem vfsMkdir_chain (names : List (List UInt8)) (hslash : slash ∉ name) (h0 : 0 ∉ name)
    (hlen : name.length < 127) : vfsMkdir (chain names) (slash :: name) =
    .ok (addChild (chain names) fsDirectory 0 name, 0) := by
  have hroom : ¬ ramfsMaxChildren ≤ (children (chain names) 0).length := by
    show ¬ 64 ≤ (if 0 < names.length then [0 + 1] else []).length
    split <;> simp
  have hz : 0 ∉ [] ++ slash :: name := by
    rw [List.nil_append, List.mem_cons, not_or]
    exact ⟨by decide, h0⟩
  have hroot : vfsResolvePath (chain names) [slash] = .ok (some 0) := by
    rw [vfsResolvePath_eq, rootMount_chain]
    rfl
  have hmade : createWith (ramfsCreate fsDirectory) (chain names) ([] ++ slash :: name) =
      .ok (addChild (chain names) fsDirectory 0 name, some (names.length + 1)) := by
    have hshort : ([] ++ slash :: name).length < 128 := Nat.succ_lt_succ hlen
    rw [createWith_short (chain names) (by rfl) hslash hshort hz, hroot]
    show ramfsCreate fsDirectory (chain names) 0 name = _
    rw [ramfsCreate_eq fsDirectory (chain_ramfsOnly names) (Nat.succ_pos _)
      (by omega) h0, if_neg hroom]
    rfl
  exact congrArg _ hmade

theorem distinctNames_chain (names : List (List UInt8)) : DistinctNames (chain names) := by
  intro d _ _
  show (List.map _ (if d < names.length then [d + 1] else [])).Nodup
  split
  · exact List.nodup_singleton _
  · exact List.nodup_nil

theorem create_then_resolve_chain : Found (addChild (chain [[97]]) fsDirectory 0 [98])
    [slash, 98] 2 := by
  refine (create_then_resolve_iff (chain_ramfsOnly [[97]]) rfl (by decide) (by decide)
    (.inl ⟨vfsMkdir_chain [[97]] (by decide) (by decide) (by decide), rfl⟩)).mpr ⟨[], [98], 0,
      ⟨rfl, by decide⟩, by decide, rfl, cross_chain _ _, by decide, ?_, distinctNames_chain _⟩
  intro c hc
  obtain rfl : c = 1 := List.mem_singleton.mp hc
  decide

/-- A directory made under a taken name: the path still leads to the first node, and the root has
two children of the name. -/
theorem taken_name_made : ∃ fs', vfsMkdir (chain [[97]]) [slash, 97] = .ok (fs', 0) ∧
    vfsResolvePath fs' [slash, 97] = .ok (some 1) ∧ ¬ DistinctNames fs' := by
  have hfs := chain_ramfsOnly [[97]]
  have hparent : 0 < (chain [[97]]).nodes := Nat.succ_pos _
  refine ⟨_, vfsMkdir_chain [[97]] (by decide) (by decide) (by decide), ?_, ?_⟩
  · exact (addChild_grows hfs fsDirectory hparent [97]).vfsResolvePath hfs
      (addChild_ramfsOnly hfs fsDirectory hparent [97]) rfl
  · intro hdistinct
    have hunused := ((distinctNames_addChild_iff hfs hparent).mp hdistinct).2
    exact hunused (by decide) 1 (List.mem_singleton_self 1) rfl

end NexusKernel.FileCreation
