import NexusKernel.PathResolution

/-!
The arrays of 128 bytes to which `vfs_mkdir`, `vfs_create` and the creation of ramfs nodes copy
paths and names, unbounded. Which copy leaves its array depends on where the last slash is; a path
of less than 128 bytes is split without loss.
-/

namespace NexusKernel.PathBuffers

open Vfs PathResolution Lib.CStrings

variable {path dir name : List UInt8} {i : ℕ}

/-- What the copies of a path need: the `int` index of the last slash is not negative and below
128, and what follows has less than 128 bytes. -/
def Fits (path : List UInt8) : Prop :=
  path.head? = some slash → ∀ lastSlash, strrchr path slash = some lastSlash →
    0 ≤ toInt lastSlash ∧ toInt lastSlash < 128 ∧ (path.drop (lastSlash + 1)).length < 128

theorem length_pathArray : pathArray.length = 128 := by
  unfold pathArray
  exact List.length_replicate

variable {k : ℤ}

theorem copyParent_ne_none_iff (path : List UInt8) (hlow : -2 ^ 31 ≤ k) (hhigh : k < 2 ^ 31) :
    copyParent path k ≠ none ↔ 0 ≤ k ∧ k < 128 := by
  rw [copyParent]
  by_cases hz : k = 0
  · rw [strcpy_eq]
    simp [hz, length_pathArray]
  · rw [if_neg hz, strncpy_eq, length_pathArray]
    by_cases hneg : k < 0
    · have hlong : ¬ (k % 2 ^ 64).toNat ≤ 128 := by omega
      rw [if_neg hlong]
      simp only [Option.bind_none, ne_eq, not_true_eq_false, false_iff]
      omega
    · have hnat : (k % 2 ^ 64).toNat = k.toNat := by omega
      rw [hnat]
      by_cases hroom : k.toNat ≤ 128
      · rw [if_pos hroom, Option.bind_some, if_neg hneg, store]
        simp only [List.length_append, List.length_take, List.length_replicate, List.length_drop,
          length_pathArray]
        split
        · simp only [ne_eq, reduceCtorEq, not_false_eq_true, true_iff]
          omega
        · simp only [ne_eq, not_true_eq_false, false_iff]
          omega
      · rw [if_neg hroom]
        simp only [Option.bind_none, ne_eq, not_true_eq_false, false_iff]
        omega

theorem toInt_bounds (i : ℕ) : -2 ^ 31 ≤ toInt i ∧ toInt i < 2 ^ 31 := by
  have hlow := Int.le_bmod (x := (i : ℤ)) (m := 2 ^ 32) (by omega)
  have hhigh := Int.bmod_lt (x := (i : ℤ)) (m := 2 ^ 32) (by omega)
  unfold toInt
  constructor <;> omega

/-- Neither copy leaves its array exactly if the path fits. -/
theorem splitPath_inside_iff (path : List UInt8) (i : ℕ) (hlow : -2 ^ 31 ≤ k) (hhigh : k < 2 ^ 31) :
    (∃ parts, splitPath path i k = .ok parts) ↔ (0 ≤ k ∧ k < 128) ∧
      (path.drop (i + 1)).length < 128 := by
  rw [← copyParent_ne_none_iff path hlow hhigh, ← length_pathArray, ← strcpy_ne_none_iff]
  unfold splitPath
  cases copyParent path k with
  | none => simp
  | some parentPath =>
    cases strcpy pathArray (path.drop (i + 1)) with
    | none | some name => simp

/-- The only way for the copies to fail is to leave an array. -/
theorem splitPath_error {stop : Stop} (h : splitPath path i k = .error stop) :
    ∃ buffer, stop = .overflow buffer := by
  unfold splitPath at h
  split at h
  · exact ⟨_, (Except.error.inj h).symm⟩
  · split at h
    · exact ⟨_, (Except.error.inj h).symm⟩
    · cases h

theorem length_of_splitPath (h : splitPath path i k = .ok (dir, name)) : name.length < 128 := by
  unfold splitPath at h
  split at h
  · cases h
  · split at h
    · cases h
    · rename_i array hcopy
      obtain ⟨-, rfl⟩ := Prod.mk.inj (Except.ok.inj h)
      exact (length_cString_strcpy hcopy).trans_eq length_pathArray

def Inside {α : Type} (result : Except Stop α) : Prop :=
    ∀ buffer, result ≠ .error (.overflow buffer)

theorem inside_ok {α : Type} (a : α) : Inside (.ok a) := fun _ h => nomatch h

theorem inside_map {α β : Type} (f : α → β) (result : Except Stop α) : Inside (result.map f) ↔
    Inside result := by
  cases result with
  | ok a => exact iff_of_true (inside_ok _) (inside_ok _)
  | error stop =>
    constructor <;>
    · intro h buffer hstop
      exact h buffer (congrArg _ (Except.error.inj hstop))

theorem inside_bind {α β : Type} {f : α → Except Stop β} {result : Except Stop α}
    (h : Inside result) (hf : ∀ a, Inside (f a)) : Inside (result.bind f) := by
  cases result with
  | ok a => exact hf a
  | error stop => exact fun buffer hstop => h buffer (congrArg _ (Except.error.inj hstop))

theorem topMount_inside (fs : Fs) (fuel n : ℕ) : Inside (topMount fs fuel n) := by
  fun_induction topMount fs fuel n with
  | case1 => exact fun _ h => nomatch h
  | case2 => exact inside_ok _
  | case3 fuel n next _ ih => exact ih

theorem vfsResolvePath_inside (fs : Fs) (path : List UInt8) : Inside (vfsResolvePath fs path) := by
  rw [vfsResolvePath]
  split
  · rw [inside_map, rootMount]
    split
    · exact inside_ok _
    · rw [inside_map]
      exact topMount_inside fs _ _
  · exact inside_ok _

section

variable (flags : UInt32) (fs : Fs)
include flags fs

theorem ramfsCreate_inside (parent : ℕ) (hname : name.length < 128) :
    Inside (ramfsCreate flags fs parent name) := by
  rw [ramfsCreate]
  split
  · exact fun _ h => nomatch h
  · split
    · exact inside_ok _
    · have hcopy := (strcpy_ne_none_iff pathArray name).mpr (hname.trans_eq length_pathArray.symm)
      split
      · exact absurd ‹_› hcopy
      · exact inside_ok _

theorem createIn_inside (parent : Option ℕ) (hname : name.length < 128) :
    Inside (createIn (ramfsCreate flags) fs parent name) := by
  unfold createIn
  split
  · exact inside_ok _
  · split
    · exact ramfsCreate_inside flags fs _ hname
    · exact inside_ok _

theorem createAt_inside_iff (path : List UInt8) (i : ℕ)
    (hlow : -2 ^ 31 ≤ k) (hhigh : k < 2 ^ 31) : Inside (createAt (ramfsCreate flags) fs path i k) ↔
    (0 ≤ k ∧ k < 128) ∧ (path.drop (i + 1)).length < 128 := by
  rw [← splitPath_inside_iff path i hlow hhigh, createAt]
  cases hparts : splitPath path i k with
  | error stop =>
    obtain ⟨buffer, rfl⟩ := splitPath_error hparts
    simp [Inside]
  | ok parts =>
    obtain ⟨parentPath, name⟩ := parts
    refine iff_of_true ?_ ⟨_, rfl⟩
    exact inside_bind (vfsResolvePath_inside fs parentPath)
      (fun parent => createIn_inside flags fs parent (length_of_splitPath hparts))

/-- Which calls stay inside their arrays. -/
theorem createWith_inside_iff (path : List UInt8) :
    Inside (createWith (ramfsCreate flags) fs path) ↔ Fits path := by
  rw [createWith, Fits]
  by_cases habs : path.head? = some slash
  · rw [if_pos habs, forall_prop_of_true habs]
    cases hlast : strrchr path slash with
    | none => simp [inside_ok]
    | some i =>
      obtain ⟨hlow, hhigh⟩ := toInt_bounds i
      simp only [Option.some.injEq, forall_eq',
        createAt_inside_iff flags fs path i hlow hhigh, and_assoc]
  · simp [habs, inside_ok]

end

/-- How `sys_open` gets its file, and `touch` and `echo` of the shell with `O_CREAT` set. -/
def sysOpenFile (fs : Fs) (path : List UInt8) (flags : UInt64) : Except Stop (Fs × Option ℕ) :=
  match vfsResolvePath fs path with
  | .error stop => .error stop
  | .ok (some file) => .ok (fs, some file)
  | .ok none => if flags &&& 0x40 = 0 then .ok (fs, none) else vfsCreate fs path

theorem sysOpenFile_inside_iff (fs : Fs) (path : List UInt8) (flags : UInt64) :
    Inside (sysOpenFile fs path flags) ↔
    flags &&& 0x40 = 0 ∨ vfsResolvePath fs path ≠ .ok none ∨ Fits path := by
  have hres := vfsResolvePath_inside fs path
  rw [sysOpenFile]
  split
  · rename_i stop hstop
    rw [hstop] at hres ⊢
    refine iff_of_true ?_ (by simp)
    exact fun buffer h => hres buffer (congrArg _ (Except.error.inj h))
  · rename_i hfound
    simp [hfound, inside_ok]
  · rename_i hnone
    by_cases hflags : flags &&& 0x40 = 0
    · simp [hflags, inside_ok]
    · rw [if_neg hflags, vfsCreate, ramfsCreateFile, createWith_inside_iff]
      simp [hnone, hflags]

/-- `vfs_create` and `vfs_mkdir` stay inside their arrays exactly for paths that fit; `sys_open`
passes others on if they do not resolve and it may create. -/
theorem path_buffers_inside_iff (fs : Fs) (path : List UInt8) :
    (Inside (vfsCreate fs path) ∧ Inside (vfsMkdir fs path) ↔ Fits path) ∧
      ∀ flags, Inside (sysOpenFile fs path flags) ↔
        flags &&& 0x40 = 0 ∨ vfsResolvePath fs path ≠ .ok none ∨ Fits path := by
  refine ⟨?_, sysOpenFile_inside_iff fs path⟩
  rw [vfsMkdir, inside_map, vfsCreate, vfsMkdirNode, ramfsCreateFile, ramfsCreateDir,
    createWith_inside_iff, createWith_inside_iff, and_self]

theorem createWith_long_name (make : Fs → ℕ → List UInt8 → Except Stop (Fs × Option ℕ)) (fs : Fs)
    (hname : slash ∉ name) (hlong : 128 ≤ name.length) :
    createWith make fs (slash :: name) = .error (.overflow .lastName) := by
  have hlast : strrchr (slash :: name) slash = some 0 := strrchr_append [] hname
  have hpar : copyParent (slash :: name) 0 = strcpy pathArray [slash] := if_pos rfl
  have hcopy : strcpy pathArray name = none := by
    rw [strcpy_eq, length_pathArray, if_neg (by omega)]
  have hroom := (strcpy_ne_none_iff pathArray [slash]).mpr (by rw [length_pathArray]; decide)
  obtain ⟨parentPath, hparentPath⟩ := Option.ne_none_iff_exists'.mp hroom
  have hsplit : splitPath (slash :: name) 0 0 = .error (.overflow .lastName) := by
    rw [splitPath, hpar, hparentPath]
    rw [List.drop_succ_cons, List.drop_zero, hcopy]
  rw [createWith, List.head?_cons, hlast]
  show createAt make fs (slash :: name) 0 0 = _
  rw [createAt, hsplit]

/-- A name of 128 letters, opened with `O_CREAT` or made a directory, is written over the end of
the array. -/
theorem long_name_overflows :
    sysOpenFile (chain []) (slash :: List.replicate 128 97) 0x40 = .error (.overflow .lastName) ∧
      vfsMkdir (chain []) (slash :: List.replicate 128 97) = .error (.overflow .lastName) := by
  have hslash : slash ∉ List.replicate 128 (97 : UInt8) := by
    rw [List.mem_replicate]
    exact fun h => absurd h.2 (by decide)
  have hres : vfsResolvePath (chain []) (slash :: List.replicate 128 97) = .ok none := by
    rw [vfsResolvePath_eq, lookups_eq, components_slash, components_of_not_mem (by simp) hslash,
      rootMount_chain]
    simp [Except.map, walk, vfsFinddir_chain]
  have hlong : 128 ≤ (List.replicate 128 (97 : UInt8)).length := List.length_replicate.ge
  constructor
  · rw [sysOpenFile, hres]
    exact createWith_long_name _ _ hslash hlong
  · rw [vfsMkdir, vfsMkdirNode, createWith_long_name _ _ hslash hlong]
    rfl

theorem toInt_of_lt (h : i < 128) : toInt i = i := by
  unfold toInt
  rw [Int.bmod_eq_of_le (by omega) (by omega)]

theorem copyParent_short (h0 : 0 ∉ dir) (hdir : dir.length < 128) (rest : List UInt8) :
    ∃ array, copyParent (dir ++ rest) dir.length = some array ∧
      cString array = if dir = [] then [slash] else dir := by
  rw [copyParent]
  by_cases hnil : dir = []
  · subst dir
    have hslash : 0 ∉ [slash] := by decide
    rw [if_pos (by rfl), strcpy_eq, if_pos (by rw [length_pathArray]; decide)]
    exact ⟨_, rfl, cString_append_zero hslash _⟩
  · have hpos : dir.length ≠ 0 := fun h => hnil (List.length_eq_zero_iff.mp h)
    have hlen : ((dir.length : ℤ) % 2 ^ 64).toNat = dir.length := by omega
    rw [if_neg (by omega), if_neg hnil, hlen, strncpy_eq, length_pathArray, if_pos (by omega),
      Option.bind_some, if_neg (by omega), Int.toNat_natCast, List.take_left, List.length_append,
      Nat.sub_eq_zero_of_le (Nat.le_add_right _ _), List.replicate_zero, List.append_nil]
    have hrest : pathArray.drop dir.length ≠ [] := by
      intro h
      have hle := List.drop_eq_nil_iff.mp h
      rw [length_pathArray] at hle
      omega
    obtain ⟨b, rest', hcons⟩ := List.exists_cons_of_ne_nil hrest
    rw [hcons, store_cons, List.append_assoc]
    exact ⟨_, rfl, cString_append_zero h0 _⟩

theorem splitPath_short (hlen : (dir ++ slash :: name).length < 128)
    (h0 : 0 ∉ dir ++ slash :: name) :
    splitPath (dir ++ slash :: name) dir.length dir.length = .ok (if dir = [] then [slash]
      else dir, name) := by
  simp only [List.length_append, List.length_cons] at hlen
  have h0dir : 0 ∉ dir := fun h => h0 (List.mem_append_left _ h)
  have h0name : 0 ∉ name := fun h => h0 (List.mem_append_right _ (List.mem_cons_of_mem _ h))
  obtain ⟨array, hcopy, harray⟩ := copyParent_short h0dir (by omega) (slash :: name)
  have hdrop : (dir ++ slash :: name).drop (dir.length + 1) = name := by
    rw [← List.drop_drop, List.drop_left, List.drop_one, List.tail_cons]
  rw [splitPath, hcopy, hdrop, strcpy_eq, length_pathArray, if_pos (by omega)]
  dsimp only
  rw [harray, cString_append_zero h0name]

/-- The copy of the parent's path is the part before the last slash. -/
theorem vfsResolvePath_parent (fs : Fs) (habs : (dir ++ slash :: name).head? = some slash) :
    vfsResolvePath fs (if dir = [] then [slash] else dir) = vfsResolvePath fs (slash :: dir) := by
  cases dir with
  | nil => rfl
  | cons b dir =>
    obtain rfl : b = slash := Option.some.inj habs
    exact vfsResolvePath_congr fs (components_slash _).symm

theorem exists_last_slash (habs : path.head? = some slash) :
    ∃ dir name, path = dir ++ slash :: name ∧ slash ∉ name := by
  have hmem : slash ∈ path := List.mem_of_mem_head? habs
  cases hlast : strrchr path slash with
  | none => exact absurd hmem ((strrchr_eq_none_iff path slash).mp hlast)
  | some i =>
    obtain ⟨hsplit, hname⟩ := strrchr_eq_some hlast
    exact ⟨_, _, hsplit, hname⟩

theorem createWith_short {make : Fs → ℕ → List UInt8 → Except Stop (Fs × Option ℕ)} (fs : Fs)
    (habs : (dir ++ slash :: name).head? = some slash) (hname : slash ∉ name)
    (hlen : (dir ++ slash :: name).length < 128) (h0 : 0 ∉ dir ++ slash :: name) :
    createWith make fs (dir ++ slash :: name) =
      (vfsResolvePath fs (slash :: dir)).bind (fun parent => createIn make fs parent name) := by
  have hdir : dir.length < 128 := by
    simp only [List.length_append, List.length_cons] at hlen
    omega
  rw [createWith, if_pos habs, strrchr_append dir hname]
  show createAt make fs (dir ++ slash :: name) dir.length (toInt dir.length) = _
  rw [toInt_of_lt hdir, createAt, splitPath_short hlen h0]
  dsimp only
  rw [vfsResolvePath_parent fs habs]

end NexusKernel.PathBuffers
