import NexusKernel.Vfs
import Mathlib.Data.Finset.Card

/-!
What `vfs_resolve_path` computes. The components of a path are its maximal parts without a slash;
the first 127 bytes of each are looked up, one after the other, from the root with all that is
mounted on it. So a path is resolved by its components exactly if none is longer.
-/

namespace NexusKernel.PathResolution

open Vfs VfsNode

def components (path : List UInt8) : List (List UInt8) := (path.splitOn slash).filter (· ≠ [])

/-- Looking up names one after the other; a null pointer stays one. -/
def walk (fs : Fs) (start : Option ℕ) (names : List (List UInt8)) : Option ℕ :=
  names.foldl (vfsFinddir fs) start

/-- The names passed to `vfs_finddir` as long as they are found. -/
def lookupsFrom : ℕ → List UInt8 → List (List UInt8)
  | 0, _ => []
  | fuel + 1, path =>
      let path := path.dropWhile (· = slash)
      if path = [] then []
      else (copyComponent path []).1 :: lookupsFrom fuel (copyComponent path []).2

def lookups (path : List UInt8) : List (List UInt8) := lookupsFrom path.length path.tail

def Short (n : ℕ) (path : List UInt8) : Prop := ∀ c ∈ components path, c.length ≤ n

variable {fs : Fs} {path path' rest c : List UInt8} {fuel : ℕ}

theorem components_nil : components [] = [] := rfl

/-- A slash separates the components before it from those behind it. -/
theorem components_append_slash (path path' : List UInt8) :
    components (path ++ slash :: path') = components path ++ components path' := by
  rw [components, List.splitOn_append_cons_self, List.filter_append]
  rfl

theorem components_slash (path : List UInt8) : components (slash :: path) = components path :=
  components_append_slash [] path

/-- A part without a slash is one component, unless it is empty. -/
theorem components_of_not_mem (hc : c ≠ []) (hslash : slash ∉ c) : components c = [c] := by
  rw [components, List.splitOn_eq_singleton hslash]
  simp [hc]

theorem components_dropWhile (path : List UInt8) : components (path.dropWhile (· = slash)) =
    components path := by
  induction path with
  | nil => rfl
  | cons b path ih =>
    by_cases hb : b = slash
    · subst b
      rw [List.dropWhile_cons_of_pos (by simp), ih, components_slash]
    · rw [List.dropWhile_cons_of_neg (by simpa using hb)]

theorem components_append (hc : c ≠ []) (hslash : slash ∉ c) (hrest : ∀ b ∈ rest.head?, b = slash) :
    components (c ++ rest) = c :: components rest := by
  cases rest with
  | nil => rw [List.append_nil, components_of_not_mem hc hslash, components_nil]
  | cons b rest =>
    obtain rfl : b = slash := hrest b rfl
    rw [components_append_slash, components_of_not_mem hc hslash]
    rfl

theorem ne_nil_of_mem_components (h : c ∈ components path) : c ≠ [] := by
  have hmem := (List.mem_filter.mp h).2
  simpa using hmem

theorem slash_not_mem_of_mem_splitOn {path : List UInt8} (h : c ∈ path.splitOn slash) :
    slash ∉ c := by
  by_cases hmem : slash ∈ path
  · obtain ⟨before, behind, hpath⟩ := List.append_of_mem hmem
    rw [hpath, List.splitOn_append_cons_self, List.mem_append] at h
    exact h.elim slash_not_mem_of_mem_splitOn slash_not_mem_of_mem_splitOn
  · rw [List.splitOn_eq_singleton hmem, List.mem_singleton] at h
    rwa [h]
termination_by path.length
decreasing_by all_goals grind

theorem copyComponent_eq (path buffer : List UInt8) (hbuffer : buffer.length ≤ 127) :
    copyComponent path buffer = (buffer ++ (path.takeWhile (· ≠ slash)).take (127 - buffer.length),
      path.dropWhile (· ≠ slash)) := by
  induction path generalizing buffer with
  | nil => simp [copyComponent]
  | cons b path ih =>
    rw [copyComponent]
    by_cases hb : b = slash
    · simp [hb]
    · rw [if_neg hb, List.takeWhile_cons_of_pos (by simpa using hb),
        List.dropWhile_cons_of_pos (by simpa using hb)]
      by_cases hroom : buffer.length < 127
      · rw [if_pos hroom, ih _ (by simp only [List.length_append, List.length_singleton]; omega)]
        have hleft : 127 - buffer.length = (127 - (buffer ++ [b]).length) + 1 := by
          simp only [List.length_append, List.length_singleton]
          omega
        rw [hleft, List.take_succ_cons, List.append_assoc, List.singleton_append]
      · have hfull : 127 - buffer.length = 0 := by omega
        rw [if_neg hroom, ih _ hbuffer, hfull, List.take_zero, List.take_zero]

theorem components_eq_cons {b : UInt8} (hb : b ≠ slash) (path : List UInt8) :
    components (b :: path) =
    (b :: path).takeWhile (· ≠ slash) :: components ((b :: path).dropWhile (· ≠ slash)) := by
  have hne : (b :: path).takeWhile (· ≠ slash) ≠ [] := by
    rw [List.takeWhile_cons_of_pos (by simpa using hb)]
    exact List.cons_ne_nil _ _
  have hslash : slash ∉ (b :: path).takeWhile (· ≠ slash) := by
    intro hmem
    have hpos := List.mem_takeWhile_imp hmem
    simp at hpos
  have hrest : ∀ x ∈ ((b :: path).dropWhile (· ≠ slash)).head?, x = slash := by
    intro x hx
    have hneg := List.head?_dropWhile_not (· ≠ slash) (b :: path)
    rw [hx] at hneg
    simpa using hneg
  conv_lhs => rw [← List.takeWhile_append_dropWhile (p := (· ≠ slash)) (l := b :: path)]
  exact components_append hne hslash hrest

theorem length_dropWhile_le (p : UInt8 → Bool) (path : List UInt8) :
    (path.dropWhile p).length ≤ path.length := (List.dropWhile_sublist p).length_le

/-- The next component, without the slashes before it, leaves a shorter path. -/
theorem length_after_component {b : UInt8} {rest path : List UInt8} {fuel : ℕ}
    (hpath : path.dropWhile (· = slash) = b :: rest) (hfuel : path.length < fuel + 1) :
    b ≠ slash ∧ ((b :: rest).dropWhile (· ≠ slash)).length < fuel := by
  have hle := length_dropWhile_le (· = slash) path
  have hhead := List.head?_dropWhile_not (· = slash) path
  rw [hpath] at hle hhead
  have hb : b ≠ slash := by simpa using hhead
  have hle' := length_dropWhile_le (· ≠ slash) rest
  rw [List.dropWhile_cons_of_pos (by simpa using hb)]
  simp only [List.length_cons] at hle
  exact ⟨hb, by omega⟩

/-- Each call looks up a component, in full or its first 127 bytes. -/
theorem lookupsFrom_eq (fuel : ℕ) (path : List UInt8) (hfuel : path.length < fuel) :
    lookupsFrom fuel path = (components path).map (·.take 127) := by
  induction fuel generalizing path with
  | zero => exact absurd hfuel (Nat.not_lt_zero _)
  | succ fuel ih =>
    have hskip := components_dropWhile path
    rw [lookupsFrom]
    cases hpath : path.dropWhile (· = slash) with
    | nil =>
      rw [hpath] at hskip
      rw [← hskip]
      rfl
    | cons b rest =>
      obtain ⟨hb, hshort⟩ := length_after_component hpath hfuel
      rw [hpath, components_eq_cons hb] at hskip
      rw [copyComponent_eq _ [] (Nat.zero_le _), ← hskip, ih _ hshort]
      simp

theorem walk_snoc (start : Option ℕ) (names : List (List UInt8)) (name : List UInt8) :
    walk fs start (names ++ [name]) = vfsFinddir fs (walk fs start names) name := by
  simp [walk]

theorem walk_none (fs : Fs) (names : List (List UInt8)) : walk fs none names = none :=
  List.foldl_fixed' (fun _ => rfl) names

theorem walk_cons_eq_some {start : Option ℕ} {name : List UInt8} {names : List (List UInt8)} {m : ℕ}
    (h : walk fs start (name :: names) = some m) :
    ∃ next, vfsFinddir fs start name = some next ∧ walk fs (some next) names = some m := by
  rw [walk, List.foldl_cons] at h
  cases hnext : vfsFinddir fs start name with
  | none =>
    rw [hnext] at h
    exact absurd ((walk_none fs names).symm.trans h) (by simp)
  | some next => exact ⟨next, rfl, hnext ▸ h⟩

theorem vfsResolveRecursive_eq (fs : Fs) (fuel : ℕ) (current : Option ℕ) (path : List UInt8)
    (hfuel : path.length < fuel) :
    vfsResolveRecursive fs fuel current path = walk fs current (lookupsFrom fuel path) := by
  induction fuel generalizing current path with
  | zero => exact absurd hfuel (Nat.not_lt_zero _)
  | succ fuel ih =>
    rw [vfsResolveRecursive, lookupsFrom]
    cases hpath : path.dropWhile (· = slash) with
    | nil => rfl
    | cons b rest =>
      have hshort : (copyComponent (b :: rest) []).2.length < fuel := by
        rw [copyComponent_eq _ [] (Nat.zero_le _)]
        exact (length_after_component hpath hfuel).2
      rw [if_neg (List.cons_ne_nil b rest), if_neg (List.cons_ne_nil b rest)]
      simp only [walk, List.foldl_cons]
      cases hnext : vfsFinddir fs current (copyComponent (b :: rest) []).1 with
      | none => exact (walk_none fs _).symm
      | some next => exact ih (some next) _ hshort

theorem lookups_eq (path : List UInt8) :
    lookups (slash :: path) = (components (slash :: path)).map (·.take 127) := by
  exact lookupsFrom_eq _ path (Nat.lt_succ_self _)

/-- `vfs_resolve_path` walks through the names it looks up. -/
theorem vfsResolvePath_eq (fs : Fs) (path : List UInt8) : vfsResolvePath fs (slash :: path) =
    (rootMount fs).map (fun top => walk fs top (lookups (slash :: path))) := by
  rw [vfsResolvePath, List.head?_cons, if_pos rfl]
  congr 1
  funext top
  exact vfsResolveRecursive_eq fs _ top path (Nat.lt_succ_self _)

theorem map_take_of_le {names : List (List UInt8)} (h : ∀ c ∈ names, c.length ≤ 127) :
    names.map (·.take 127) = names := by
  rw [List.map_congr_left (fun c hc => List.take_of_length_le (h c hc)), List.map_id']

theorem lookups_of_short (h : Short 127 (slash :: path)) :
    lookups (slash :: path) = components (slash :: path) := by
  rw [lookups_eq, map_take_of_le h]

/-! ### A chain of directories

A long component is told apart from its lookup by the directories in which just this lookup
succeeds. -/

def chain (names : List (List UInt8)) : Fs where
  node i :=
    { name := (slash :: []) :: names |>.getD i []
      mask := 7
      flags := fsDirectory
      length := 0
      impl := some ⟨0, 0, if i < names.length then [i + 1] else []⟩
      ops := some .ramfs
      ptr := none }
  nodes := names.length + 1
  vfsRoot := some 0

section

variable (names : List (List UInt8))
include names

theorem rootMount_chain : rootMount (chain names) = .ok (some 0) := by
  simp [rootMount, topMount, chain, mounted, Except.map, fsDirectory, fsMountpoint]

theorem mounted_chain (n : ℕ) : ((chain names).node n).mounted = none := by
  have hflags : ((chain names).node n).flags &&& fsMountpoint = 0 := by
    show fsDirectory &&& fsMountpoint = 0
    decide
  rw [mounted, if_pos hflags]

theorem cross_chain (n : ℕ) : (chain names).cross n = n := by
  rw [Fs.cross, mounted_chain, Option.getD_none]

theorem vfsFinddir_chain (i : ℕ) (name : List UInt8) :
    vfsFinddir (chain names) (some i) name = if names[i]? = some name then some (i + 1)
      else none := by
  have hfind : vfsFinddir (chain names) (some i) name =
    ((if i < names.length then [i + 1] else []).find?
        (fun c => ((chain names).node c).name = name)).map (chain names).cross := by
    simp [vfsFinddir, opsFinddir, ramfsFinddir, chain, Fs.cross, mounted, fsDirectory, fsMountpoint]
  rw [hfind]
  by_cases hi : i < names.length
  · rw [if_pos hi, List.getElem?_eq_getElem hi]
    by_cases hname : names[i] = name
    · have hfound : ((chain names).node (i + 1)).name = name := by simp [chain, hi, hname]
      simp [hfound, hname, cross_chain]
    · have hmiss : ((chain names).node (i + 1)).name ≠ name := by simp [chain, hi, hname]
      simp [hmiss, hname]
  · rw [if_neg hi, List.getElem?_eq_none (by omega)]
    simp

/-- Only a part of the chain's own names leads down the chain. -/
theorem isPrefix_of_walk_chain {other : List (List UInt8)} {i k : ℕ}
    (h : walk (chain names) (some i) other = some k) : other <+: names.drop i := by
  induction other generalizing i with
  | nil => exact List.nil_prefix
  | cons name other ih =>
    obtain ⟨next, hnext, hrest⟩ := walk_cons_eq_some h
    rw [vfsFinddir_chain] at hnext
    obtain ⟨hname, hnext⟩ := Option.ite_none_right_eq_some.mp hnext
    cases hnext
    obtain ⟨hi, rfl⟩ := List.getElem?_eq_some_iff.mp hname
    rw [List.drop_eq_getElem_cons hi]
    exact List.cons_prefix_cons.mpr ⟨rfl, ih hrest⟩

theorem walk_chain {i : ℕ} (hi : i ≤ names.length) :
    walk (chain names) (some i) (names.drop i) = some names.length := by
  induction hn : names.length - i generalizing i with
  | zero =>
    obtain rfl : i = names.length := by omega
    rw [List.drop_length]
    rfl
  | succ n ih =>
    have hlt : i < names.length := by omega
    rw [List.drop_eq_getElem_cons hlt, walk, List.foldl_cons, vfsFinddir_chain,
      if_pos (List.getElem?_eq_getElem hlt)]
    exact ih hlt (by omega)

end

/-- If a path is resolved like its components in the chain of its lookups, none of them is long. -/
theorem short_of_chain (h : vfsResolvePath (chain (lookups (slash :: path))) (slash :: path) =
      (rootMount (chain (lookups (slash :: path)))).map
        (fun top => walk (chain (lookups (slash :: path))) top (components (slash :: path)))) :
    Short 127 (slash :: path) := by
  rw [vfsResolvePath_eq, rootMount_chain] at h
  have hwalk := walk_chain (lookups (slash :: path)) (Nat.zero_le _)
  have heq := (Except.ok.inj h).symm.trans hwalk
  have hpre := isPrefix_of_walk_chain _ heq
  rw [List.drop_zero] at hpre
  have hsame : components (slash :: path) = lookups (slash :: path) :=
    hpre.eq_of_length (by rw [lookups_eq, List.length_map])
  intro c hc
  rw [hsame, lookups_eq] at hc
  obtain ⟨d, -, rfl⟩ := List.mem_map.mp hc
  exact List.length_take_le _ _

def joinPath (names : List (List UInt8)) : List UInt8 := names.flatMap (slash :: ·)

theorem components_joinPath {names : List (List UInt8)}
    (h : ∀ c ∈ names, c ≠ [] ∧ slash ∉ c) : components (joinPath names) = names := by
  induction names with
  | nil => rfl
  | cons c names ih =>
    obtain ⟨⟨hc, hslash⟩, hrest⟩ := List.forall_mem_cons.mp h
    have hhead : ∀ b ∈ (joinPath names).head?, b = slash := by
      intro b hb
      cases names with
      | nil => exact absurd hb (by simp [joinPath])
      | cons d names => exact (Option.some.inj hb).symm
    rw [joinPath, List.flatMap_cons, List.cons_append, components_slash, ← joinPath,
      components_append hc hslash hhead, ih hrest]

def lengthen (c : List UInt8) : List UInt8 := if 127 ≤ c.length then c ++ [97] else c

theorem take_lengthen (c : List UInt8) : (lengthen c).take 127 = c.take 127 := by
  rw [lengthen]
  split
  · exact List.take_append_of_le_length ‹_›
  · rfl

theorem components_lengthen (path : List UInt8) :
    components (joinPath ((components path).map lengthen)) = (components path).map lengthen := by
  refine components_joinPath ?_
  intro d hd
  obtain ⟨c, hc, rfl⟩ := List.mem_map.mp hd
  have hne := ne_nil_of_mem_components hc
  have hslash := slash_not_mem_of_mem_splitOn (List.mem_of_mem_filter hc)
  rw [lengthen]
  split
  · have hbyte : slash ≠ 97 := by decide
    simp [hslash, hbyte]
  · exact ⟨hne, hslash⟩

theorem eq_of_map_take_eq {l l' : List (List UInt8)} (hshort : ∀ c ∈ l, c.length ≤ 126)
    (h : l'.map (·.take 127) = l.map (·.take 127)) : l' = l := by
  have hshort' : ∀ c ∈ l', c.length ≤ 126 := by
    intro c hc
    have hmem : c.take 127 ∈ l.map (·.take 127) := h ▸ List.mem_map_of_mem hc
    obtain ⟨d, hd, hcd⟩ := List.mem_map.mp hmem
    have hlen := congrArg List.length hcd
    have hle := hshort d hd
    rw [List.length_take, List.length_take] at hlen
    omega
  rwa [map_take_of_le fun c hc => (hshort' c hc).trans (Nat.le_succ _),
    map_take_of_le fun c hc => (hshort c hc).trans (Nat.le_succ _)] at h

/-- Lengthening a component gives another path with the same lookups. -/
theorem exists_same_lookups (hlong : ¬ Short 126 (slash :: path)) :
    ∃ path', lookups (slash :: path') = lookups (slash :: path) ∧
      ¬ components (slash :: path) <+: components (slash :: path') := by
  refine ⟨joinPath ((components path).map lengthen), ?_, ?_⟩
  · rw [lookups_eq, lookups_eq, components_slash, components_lengthen, List.map_map]
    exact List.map_congr_left fun d _ => take_lengthen d
  · rw [components_slash, components_slash, components_lengthen]
    intro hpre
    have hsame := hpre.eq_of_length (List.length_map lengthen).symm
    refine hlong ?_
    intro c hc
    have hfix : lengthen c = c := by
      have hmap : (components path).map lengthen = (components path).map id := by
        rw [← hsame, List.map_id]
      exact List.map_inj_left.mp hmap c hc
    by_contra hc'
    rw [lengthen, if_pos (by omega)] at hfix
    simp at hfix

/-- No other component list has the lookups of a path exactly if every component leaves a byte of
the buffer unused. -/
theorem lookups_injective_iff (path : List UInt8) :
    (∀ path', lookups (slash :: path') = lookups (slash :: path) →
    components (slash :: path') = components (slash :: path)) ↔ Short 126 (slash :: path) := by
  constructor
  · intro h
    by_contra hlong
    obtain ⟨path', hsame, hnot⟩ := exists_same_lookups hlong
    exact hnot (h path' hsame ▸ List.prefix_rfl)
  · intro h path' hsame
    rw [lookups_eq, lookups_eq] at hsame
    exact eq_of_map_take_eq h hsame

theorem components_prefix_of_lookups (h : Short 126 (slash :: path))
    (hpre : lookups (slash :: path) <+: lookups (slash :: path')) :
    components (slash :: path) <+: components (slash :: path') := by
  rw [lookups_eq, lookups_eq, List.prefix_iff_eq_take, ← List.map_take, List.length_map] at hpre
  rw [List.prefix_iff_eq_take]
  exact (eq_of_map_take_eq h hpre.symm).symm

/-- Only the components of a path matter, so extra slashes do not. -/
theorem vfsResolvePath_congr (fs : Fs) (h : components (slash :: path') =
      components (slash :: path)) :
    vfsResolvePath fs (slash :: path') = vfsResolvePath fs (slash :: path) := by
  rw [vfsResolvePath_eq, vfsResolvePath_eq, lookups_eq, lookups_eq, h]

/-- A last name is looked up in what the rest resolves to. -/
theorem vfsResolvePath_snoc (fs : Fs) {dir name : List UInt8}
    (habs : (dir ++ slash :: name).head? = some slash) (hname : name ≠ []) (hslash : slash ∉ name)
    (hshort : name.length ≤ 127) : vfsResolvePath fs (dir ++ slash :: name) =
    (vfsResolvePath fs (slash :: dir)).map (fun parent => vfsFinddir fs parent name) := by
  have hcomps : components (slash :: (dir ++ slash :: name)) =
      components (slash :: dir) ++ [name] := by
    rw [components_slash, components_slash, components_append_slash,
      components_of_not_mem hname hslash]
  have hlookups : lookups (slash :: (dir ++ slash :: name)) = lookups (slash :: dir) ++ [name] := by
    rw [lookups_eq, lookups_eq, hcomps, List.map_append, List.map_singleton,
      List.take_of_length_le hshort]
  have hfirst : vfsResolvePath fs (dir ++ slash :: name) =
      vfsResolvePath fs (slash :: (dir ++ slash :: name)) := by
    obtain ⟨rest, hrest⟩ := List.head?_eq_some_iff.mp habs
    rw [hrest]
    exact vfsResolvePath_congr fs (components_slash _).symm
  rw [hfirst, vfsResolvePath_eq, vfsResolvePath_eq, hlookups]
  cases rootMount fs with
  | error stop => rfl
  | ok top => simp only [Except.map, walk_snoc]

theorem vfsResolvePath_trailing (fs : Fs) {dir : List UInt8}
    (habs : (dir ++ [slash]).head? = some slash) :
    vfsResolvePath fs (dir ++ [slash]) = vfsResolvePath fs (slash :: dir) := by
  have hcomps : components (dir ++ [slash]) = components (slash :: dir) := by
    rw [components_append_slash, components_nil, List.append_nil, components_slash]
  obtain ⟨rest, hrest⟩ := List.head?_eq_some_iff.mp habs
  rw [hrest] at hcomps ⊢
  exact vfsResolvePath_congr fs hcomps

/-- An absolute path is resolved by its full components, in every file system, exactly if each has
at most 127 bytes. No other components share its lookups exactly if each has at most 126. -/
theorem resolve_path_fold_iff (path : List UInt8) : ((∀ fs, vfsResolvePath fs (slash :: path) =
        (rootMount fs).map (fun top => walk fs top (components (slash :: path)))) ↔
      Short 127 (slash :: path)) ∧ ((∀ path', lookups (slash :: path') = lookups (slash :: path) →
        components (slash :: path') = components (slash :: path)) ↔ Short 126 (slash :: path)) ∧
    ∀ fs path', components (slash :: path') = components (slash :: path) →
      vfsResolvePath fs (slash :: path') = vfsResolvePath fs (slash :: path) := by
  refine ⟨⟨fun h => short_of_chain (h _), ?_⟩, lookups_injective_iff path, ?_⟩
  · intro h fs
    rw [vfsResolvePath_eq, lookups_of_short h]
  · intro fs path' h
    exact vfsResolvePath_congr fs h

/-- With a child of 127 letters `a` in the root, the path of 128 letters leads to it. -/
theorem long_component_found :
    vfsResolvePath (chain [List.replicate 127 97]) (slash :: List.replicate 128 97) = .ok (some 1) ∧
      (rootMount (chain [List.replicate 127 97])).map (fun top =>
        walk (chain [List.replicate 127 97]) top (components (slash :: List.replicate 128 97))) =
          .ok none := by
  have hcomps : components (slash :: List.replicate 128 97) = [List.replicate 128 97] := by
    rw [components_slash, components_of_not_mem (by simp) (by simp [slash])]
  have hlookups : lookups (slash :: List.replicate 128 97) = [List.replicate 127 97] := by
    rw [lookups_eq, hcomps]
    simp
  rw [vfsResolvePath_eq, hlookups, hcomps, rootMount_chain]
  simp [Except.map, walk, vfsFinddir_chain]

end NexusKernel.PathResolution
