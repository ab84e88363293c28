import NexusKernel.Lib.Runs
import NexusKernel.RamfsNodes

/-!
Mounts. The root is followed through all its mounts, an entry of a directory only through one. So
what is mounted on a path is visible unless something was mounted there before.

The nodes form a forest: each is an entry of at most one directory or mounted on at most one node.
Every walk from the root then goes through the entries that lead to its end, which determine the
names.
-/

namespace NexusKernel.Mounts

open Vfs PathResolution RamfsNodes Lib.Runs Function Fs Relation.ReflTransGen

variable {fs fs' : Fs} {path : List UInt8} {names names' : List (List UInt8)}
variable {n m x r top entry entry' : ℕ}

def Child (fs : Fs) (parent c : ℕ) : Prop := parent < fs.nodes ∧ c ∈ children fs parent

def Mounted (fs : Fs) (m r : ℕ) : Prop := m < fs.nodes ∧ (fs.node m).mounted = some r

structure Forest (fs : Fs) : Prop extends RamfsOnly fs where
  oneParent : ∀ {p p' c}, Child fs p c → Child fs p' c → p = p'
  oneMount : ∀ {m m' r}, Mounted fs m r → Mounted fs m' r → m = m'
  notBoth : ∀ {p m c}, Child fs p c → ¬ Mounted fs m c
  rootNoChild : ∀ {p r}, fs.vfsRoot = some r → ¬ Child fs p r
  rootNotMounted : ∀ {m r}, fs.vfsRoot = some r → ¬ Mounted fs m r

/-- A root not in use: no entry, not mounted, nothing mounted on it. -/
structure Fresh (fs : Fs) (r : ℕ) : Prop where
  lt : r < fs.nodes
  notRoot : fs.vfsRoot ≠ some r
  noChild : ∀ p, ¬ Child fs p r
  notMounted : ∀ m, ¬ Mounted fs m r
  bare : (fs.node r).mounted = none

def Covers (fs : Fs) : ℕ → ℕ → Prop := Relation.ReflTransGen (Mounted fs)

/-- The nodes at the bottom of mounts on the way from the root: the root and the entries of
directories. -/
def Base (fs : Fs) (n : ℕ) : Prop := fs.vfsRoot = some n ∨ ∃ p, Child fs p n

theorem Forest.base_notMounted (h : Forest fs) (hn : Base fs n) : ¬ Mounted fs m n := by
  rcases hn with hroot | ⟨p, hchild⟩
  · exact h.rootNotMounted hroot
  · exact h.notBoth hchild

theorem Forest.base_unique (h : Forest fs) (hentry : Base fs entry) (hentry' : Base fs entry')
    (hn : Covers fs entry n) (hn' : Covers fs entry' n) : entry = entry' := by
  induction hn with
  | refl =>
    rcases cases_tail hn' with heq | ⟨m, -, hm⟩
    · exact heq
    · exact absurd hm (h.base_notMounted hentry)
  | tail _ hstep ih =>
    rcases cases_tail hn' with rfl | ⟨m, hm, hstep'⟩
    · exact absurd hstep (h.base_notMounted hentry')
    · rw [h.oneMount hstep' hstep] at hm
      exact ih hm

theorem cross_eq (hn : n < fs.nodes) : fs.cross n = n ∨ Mounted fs n (fs.cross n) := by
  rw [cross]
  cases hm : (fs.node n).mounted with
  | none => exact .inl rfl
  | some r => exact .inr ⟨hn, hm⟩

theorem covers_cross (hn : n < fs.nodes) : Covers fs n (fs.cross n) := by
  rcases cross_eq hn with heq | hm
  · rw [heq]
    exact .refl
  · exact .single hm

theorem Forest.covers_lt (h : Forest fs) (hn : n < fs.nodes) (hm : Covers fs n m) :
    m < fs.nodes := by
  induction hm with
  | refl => exact hn
  | tail _ hstep ih => exact h.mounted hstep.1 hstep.2

def lookupEntry (fs : Fs) (n : ℕ) (name : List UInt8) : Option ℕ :=
  if Directory fs (fs.cross n) then
    (children fs (fs.cross n)).find? (fun c => (fs.node c).name = name)
  else none

theorem Forest.vfsFinddir_eq_map (h : Forest fs) (hn : n < fs.nodes) (name : List UInt8) :
    vfsFinddir fs (some n) name = (lookupEntry fs n name).map fs.cross := by
  rw [h.vfsFinddir_eq hn, lookupEntry]
  split <;> rfl

variable {name : List UInt8}

theorem Forest.child_of_lookup (h : Forest fs) (hn : n < fs.nodes) {e : ℕ}
    (he : lookupEntry fs n name = some e) : Child fs (fs.cross n) e ∧ (fs.node e).name = name ∧
    e < fs.nodes := by
  have hcross := h.cross_lt hn
  rw [lookupEntry] at he
  split at he
  · have hmem := List.mem_of_find?_eq_some he
    have hname := List.find?_some he
    exact ⟨⟨hcross, hmem⟩, by simpa using hname, h.children _ hcross e hmem⟩
  · simp at he

inductive Route (fs : Fs) (top : ℕ) : List (List UInt8) → ℕ → ℕ → Prop where
  | root {r : ℕ} : fs.vfsRoot = some r → Covers fs r top → Route fs top [] r top
  | step {names : List (List UInt8)} {name : List UInt8} {base n e : ℕ} :
      Route fs top names base n → lookupEntry fs n name = some e →
        Route fs top (names ++ [name]) e (fs.cross e)

section

variable (h : Forest fs) (hroute : Route fs top names entry n)
include h hroute

theorem Route.spec : Base fs entry ∧ entry < fs.nodes ∧ Covers fs entry n ∧ n < fs.nodes := by
  induction hroute with
  | root hr htop => exact ⟨.inl hr, h.root _ hr, htop, h.covers_lt (h.root _ hr) htop⟩
  | step _ he ih =>
    obtain ⟨-, -, -, hn⟩ := ih
    obtain ⟨hchild, -, hlt⟩ := h.child_of_lookup hn he
    exact ⟨.inr ⟨_, hchild⟩, hlt, covers_cross hlt, h.cross_lt hlt⟩

theorem Route.names_unique (hroute' : Route fs top names' entry m) : names = names' := by
  induction hroute generalizing names' m with
  | root hr _ =>
    cases hroute' with
    | root => rfl
    | step hprev he =>
      obtain ⟨hchild, -⟩ := h.child_of_lookup (hprev.spec h).2.2.2 he
      exact absurd hchild (h.rootNoChild hr)
  | step hprev he ih =>
    obtain ⟨hbase, -, hcovers, hn⟩ := hprev.spec h
    obtain ⟨hchild, hname, -⟩ := h.child_of_lookup hn he
    cases hroute' with
    | root hr => exact absurd hchild (h.rootNoChild hr)
    | step hprev' he' =>
      obtain ⟨hbase', -, hcovers', hn'⟩ := hprev'.spec h
      obtain ⟨hchild', hname', -⟩ := h.child_of_lookup hn' he'
      have hcross := h.oneParent hchild hchild'
      have hover := hcovers.trans (covers_cross hn)
      have hover' := hcovers'.trans (covers_cross hn')
      rw [← hcross] at hover'
      obtain rfl := h.base_unique hbase hbase' hover hover'
      rw [ih hprev', ← hname, ← hname']

/-- Two routes that end in one node have the same names. -/
theorem Route.names_eq (hroute' : Route fs top names' entry' n) : names = names' := by
  obtain ⟨hbase, -, hcovers, -⟩ := hroute.spec h
  obtain ⟨hbase', -, hcovers', -⟩ := hroute'.spec h
  obtain rfl := h.base_unique hbase hbase' hcovers hcovers'
  exact hroute.names_unique h hroute'

end

theorem Forest.walk_route (h : Forest fs) (hr : fs.vfsRoot = some r) (htop : Covers fs r top)
    (hwalk : walk fs (some top) names = some n) : ∃ base, Route fs top names base n := by
  induction names using List.reverseRecOn generalizing n with
  | nil =>
    cases hwalk
    exact ⟨r, .root hr htop⟩
  | append_singleton names name ih =>
    rw [walk_snoc] at hwalk
    cases hprev : walk fs (some top) names with
    | none =>
      rw [hprev] at hwalk
      exact absurd hwalk (by simp [vfsFinddir])
    | some prev =>
      obtain ⟨base, hroute⟩ := ih hprev
      rw [hprev, h.vfsFinddir_eq_map (hroute.spec h).2.2.2] at hwalk
      obtain ⟨e, he, rfl⟩ := Option.map_eq_some_iff.mp hwalk
      exact ⟨e, hroute.step he⟩

/-- The loop over the mounts of the root ends after the first node without one. -/
theorem topMount_eq_ok_iff (fs : Fs) (fuel n m : ℕ) : topMount fs fuel n = .ok m ↔
    ∃ k < fuel, (∀ i < k, (fs.node (fs.cross^[i] n)).mounted ≠ none) ∧
      (fs.node (fs.cross^[k] n)).mounted = none ∧ fs.cross^[k] n = m := by
  induction fuel generalizing n with
  | zero => simp [topMount]
  | succ fuel ih =>
    simp only [topMount, Nat.exists_lt_succ_left, Nat.forall_lt_succ_left]
    cases hn : (fs.node n).mounted with
    | none => simp [hn]
    | some next =>
      have hcross : fs.cross n = next := by rw [cross, hn, Option.getD_some]
      simp [hn, ih, hcross]

section

variable {k : ℕ}

theorem Forest.iterate_lt (h : Forest fs) (hn : n < fs.nodes) (i : ℕ) :
    fs.cross^[i] n < fs.nodes := by
  induction i with
  | zero => exact hn
  | succ i ih =>
    rw [iterate_succ_apply']
    exact h.cross_lt ih

variable {i base : ℕ}

section

variable (h : Forest fs) (hn : n < fs.nodes)
  (hall : ∀ i < k, (fs.node (fs.cross^[i] n)).mounted ≠ none)
include h hn hall

theorem Forest.mounted_iterate (hi : i < k) : Mounted fs (fs.cross^[i] n) (fs.cross^[i + 1] n) := by
  obtain ⟨next, hnext⟩ := Option.ne_none_iff_exists'.mp (hall i hi)
  refine ⟨h.iterate_lt hn i, ?_⟩
  rw [iterate_succ_apply', cross, hnext, Option.getD_some]

theorem Forest.covers_iterate (hi : i ≤ k) : Covers fs n (fs.cross^[i] n) := by
  induction i with
  | zero => exact .refl
  | succ i ih => exact (ih (Nat.le_of_succ_le hi)).tail (h.mounted_iterate hn hall hi)

end

section

variable (h : Forest fs) (hr : fs.vfsRoot = some r)
  (hall : ∀ i < k, (fs.node (fs.cross^[i] r)).mounted ≠ none)
include h hr hall

/-- The nodes on the way over the mounts of the root are distinct. -/
theorem Forest.iterate_injective {j : ℕ} (hi : i ≤ k)
    (hj : j ≤ k) (heq : fs.cross^[i] r = fs.cross^[j] r) : i = j := by
  have hlt := h.root r hr
  induction i generalizing j with
  | zero =>
    cases j with
    | zero => rfl
    | succ j =>
      have hm := h.mounted_iterate hlt hall hj
      rw [← heq] at hm
      exact absurd hm (h.rootNotMounted hr)
  | succ i ih =>
    have hm := h.mounted_iterate hlt hall hi
    cases j with
    | zero =>
      rw [heq] at hm
      exact absurd hm (h.rootNotMounted hr)
    | succ j =>
      have hm' := h.mounted_iterate hlt hall hj
      rw [heq] at hm
      rw [ih (Nat.le_of_succ_le hi) (Nat.le_of_succ_le hj) (h.oneMount hm hm')]

theorem Forest.iterate_length : k + 1 ≤ fs.nodes := by
  have hcard : (Finset.range (k + 1)).card ≤ (Finset.range fs.nodes).card := by
    refine Finset.card_le_card_of_injOn (fun i => fs.cross^[i] r) ?_ ?_
    · intro i _
      exact Finset.mem_coe.mpr (Finset.mem_range.mpr (h.iterate_lt (h.root r hr) i))
    · intro i hi j hj heq
      have hi' := Finset.mem_range.mp (Finset.mem_coe.mp hi)
      have hj' := Finset.mem_range.mp (Finset.mem_coe.mp hj)
      exact h.iterate_injective hr hall (Nat.le_of_lt_succ hi') (Nat.le_of_lt_succ hj') heq
  rwa [Finset.card_range, Finset.card_range] at hcard

end

end

theorem Forest.rootMount_covers (h : Forest fs) (htop : rootMount fs = .ok (some top)) :
    ∃ r, fs.vfsRoot = some r ∧ Covers fs r top := by
  obtain ⟨r, hr, hmount⟩ := (rootMount_eq_some_iff fs top).mp htop
  obtain ⟨k, -, hall, -, rfl⟩ := (topMount_eq_ok_iff fs _ r top).mp hmount
  exact ⟨r, hr, h.covers_iterate (h.root r hr) hall le_rfl⟩

def mountAt (fs : Fs) (x r : ℕ) : Fs :=
  { fs with
    node := update fs.node x
      { fs.node x with ptr := some r, flags := (fs.node x).flags ||| fsMountpoint } }

theorem vfsMount_eq_zero_iff (fs : Fs) (path : List UInt8) (r : ℕ) :
    vfsMount fs path r = .ok (fs', 0) ↔
    ∃ x, vfsResolvePath fs path = .ok (some x) ∧ fs' = mountAt fs x r := by
  rw [vfsMount]
  cases vfsResolvePath fs path with
  | error stop => simp
  | ok found =>
    cases found with
    | none => simp
    | some x => simp [mountAt, eq_comm]

theorem or_and_mountpoint (flags : UInt32) : (flags ||| fsMountpoint) &&& fsMountpoint ≠ 0 := by
  have hbits : (flags ||| fsMountpoint) &&& fsMountpoint = fsMountpoint := by
    apply UInt32.toBitVec_inj.mp
    rw [UInt32.toBitVec_and, UInt32.toBitVec_or]
    ext i hi
    simp only [BitVec.getElem_and, BitVec.getElem_or]
    cases fsMountpoint.toBitVec[i] <;> simp
  rw [hbits]
  decide

theorem or_and_directory (flags : UInt32) : (flags ||| fsMountpoint) &&& fsDirectory =
    flags &&& fsDirectory := by
  have hapart : fsMountpoint.toBitVec &&& fsDirectory.toBitVec = 0 := by decide
  apply UInt32.toBitVec_inj.mp
  rw [UInt32.toBitVec_and, UInt32.toBitVec_or, UInt32.toBitVec_and,
    BitVec.and_or_distrib_right, hapart]
  simp

section

variable (fs) (x r : ℕ)

theorem mountAt_of_ne {n : ℕ} (hn : n ≠ x) : (mountAt fs x r).node n = fs.node n :=
  update_of_ne hn ..

theorem mountAt_self : (mountAt fs x r).node x =
    { fs.node x with ptr := some r, flags := (fs.node x).flags ||| fsMountpoint } := update_self ..

theorem mounted_mountAt (n : ℕ) :
    ((mountAt fs x r).node n).mounted = if n = x then some r else (fs.node n).mounted := by
  by_cases hn : n = x
  · subst n
    rw [if_pos rfl, mountAt_self]
    exact if_neg (or_and_mountpoint _)
  · rw [if_neg hn, mountAt_of_ne fs x r hn]

theorem cross_mountAt (n : ℕ) : (mountAt fs x r).cross n = if n = x then r else fs.cross n := by
  rw [cross, mounted_mountAt]
  split
  · rfl
  · rw [cross]

theorem name_mountAt (n : ℕ) : ((mountAt fs x r).node n).name = (fs.node n).name := by
  by_cases hn : n = x
  · subst n
    rw [mountAt_self]
  · rw [mountAt_of_ne fs x r hn]

theorem children_mountAt (n : ℕ) : children (mountAt fs x r) n = children fs n := by
  rw [children, children]
  by_cases hn : n = x
  · subst n
    rw [mountAt_self]
  · rw [mountAt_of_ne fs x r hn]

theorem directory_mountAt (n : ℕ) : Directory (mountAt fs x r) n ↔ Directory fs n := by
  rw [Directory, Directory]
  by_cases hn : n = x
  · subst n
    rw [mountAt_self]
    rw [or_and_directory]
  · rw [mountAt_of_ne fs x r hn]

theorem lookupEntry_mountAt {n : ℕ} (hn : n ≠ x) (name : List UInt8) :
    lookupEntry (mountAt fs x r) n name = lookupEntry fs n name := by
  rw [lookupEntry, lookupEntry, cross_mountAt, if_neg hn, children_mountAt]
  simp only [directory_mountAt, name_mountAt]

end

theorem child_mountAt (fs : Fs) (x r : ℕ) {p c : ℕ} : Child (mountAt fs x r) p c ↔
    Child fs p c := by
  rw [Child, children_mountAt]
  rfl

theorem mounted_mountAt_iff (fs : Fs) (x r : ℕ) {m n : ℕ} (h : Mounted (mountAt fs x r) m n) :
    m = x ∧ n = r ∨ Mounted fs m n := by
  obtain ⟨hlt, hm⟩ := h
  rw [mounted_mountAt] at hm
  split at hm
  · exact .inl ⟨‹_›, (Option.some.inj hm).symm⟩
  · exact .inr ⟨hlt, hm⟩

theorem Forest.mountAt (h : Forest fs) (hnew : Fresh fs r) : Forest (mountAt fs x r) where
  root := h.root
  ops n hn := by
    by_cases hx : n = x
    · subst n
      rw [mountAt_self]
      exact h.ops x hn
    · rw [mountAt_of_ne fs x r hx]
      exact h.ops n hn
  impl n hn := by
    by_cases hx : n = x
    · subst n
      rw [mountAt_self]
      exact h.impl x hn
    · rw [mountAt_of_ne fs x r hx]
      exact h.impl n hn
  children n hn c hc := by
    rw [children_mountAt] at hc
    exact h.children n hn c hc
  ptr n hn m hm := by
    by_cases hx : n = x
    · subst n
      rw [mountAt_self] at hm
      exact Option.some.inj hm ▸ hnew.lt
    · rw [mountAt_of_ne fs x r hx] at hm
      exact h.ptr n hn m hm
  oneParent hc hc' := h.oneParent ((child_mountAt fs x r).mp hc) ((child_mountAt fs x r).mp hc')
  oneMount hm hm' := by
    rcases mounted_mountAt_iff fs x r hm with ⟨rfl, rfl⟩ | hold
    · rcases mounted_mountAt_iff fs _ _ hm' with ⟨rfl, -⟩ | hold'
      · rfl
      · exact absurd hold' (hnew.notMounted _)
    · rcases mounted_mountAt_iff fs x r hm' with ⟨rfl, rfl⟩ | hold'
      · exact absurd hold (hnew.notMounted _)
      · exact h.oneMount hold hold'
  notBoth hc hm := by
    rcases mounted_mountAt_iff fs x r hm with ⟨-, rfl⟩ | hold
    · exact hnew.noChild _ ((child_mountAt fs x _).mp hc)
    · exact h.notBoth ((child_mountAt fs x r).mp hc) hold
  rootNoChild hr hc := h.rootNoChild hr ((child_mountAt fs x r).mp hc)
  rootNotMounted hr hm := by
    rcases mounted_mountAt_iff fs x r hm with ⟨-, rfl⟩ | hold
    · exact hnew.notRoot hr
    · exact h.rootNotMounted hr hold

section

variable (h : Forest fs)
include h

theorem Route.ne_fresh (hroute : Route fs top names entry n) (hnew : Fresh fs r) : n ≠ r := by
  rintro rfl
  obtain ⟨hbase, -, hcovers, -⟩ := hroute.spec h
  rcases cases_tail hcovers with heq | ⟨m, -, hm⟩
  · rcases hbase with hroot | ⟨p, hchild⟩
    · exact hnew.notRoot (heq ▸ hroot)
    · exact hnew.noChild p (heq ▸ hchild)
  · exact hnew.notMounted m hm

/-- Lookups behind a walk that has not come to the mount are the old ones. -/
theorem vfsFinddir_mountAt (hroute : Route fs top names entry x)
    (hnew : Fresh fs r) (hprev : Route fs top names' base n)
    (hne : names ≠ names') (hne' : names ≠ names' ++ [name]) :
    vfsFinddir (mountAt fs x r) (some n) name = vfsFinddir fs (some n) name := by
  have hn := (hprev.spec h).2.2.2
  have hnx : n ≠ x := by
    rintro rfl
    exact hne (hroute.names_eq h hprev)
  rw [(h.mountAt hnew).vfsFinddir_eq_map hn, h.vfsFinddir_eq_map hn, lookupEntry_mountAt fs x r hnx]
  cases he : lookupEntry fs n name with
  | none => rfl
  | some e =>
    have hex : e ≠ x := by
      rintro rfl
      have hstep := hprev.step he
      obtain ⟨hbase, -, hcovers, -⟩ := hroute.spec h
      obtain ⟨hbase', -, -, -⟩ := hstep.spec h
      obtain rfl := h.base_unique hbase hbase' hcovers .refl
      exact hne' (hroute.names_unique h hstep)
    rw [Option.map_some, Option.map_some, cross_mountAt, if_neg hex]

/-- A walk that does not go through the mount is the old one. -/
theorem walk_mountAt (hroute : Route fs top names entry x)
    (hnew : Fresh fs r) (hr : fs.vfsRoot = some base) (htop : Covers fs base top)
    (hnot : ¬ names <+: names') : walk (mountAt fs x r) (some top) names' =
    walk fs (some top) names' := by
  induction names' using List.reverseRecOn with
  | nil => rfl
  | append_singleton names' name ih =>
    have hpre : ¬ names <+: names' := fun hp => hnot (hp.trans (List.prefix_append _ _))
    rw [walk_snoc, walk_snoc, ih hpre]
    cases hprev : walk fs (some top) names' with
    | none => rfl
    | some n =>
      obtain ⟨base', hprev'⟩ := h.walk_route hr htop hprev
      refine vfsFinddir_mountAt h hroute hnew hprev' ?_ ?_
      · rintro rfl
        exact hpre List.prefix_rfl
      · rintro rfl
        exact hnot List.prefix_rfl

/-- A mount elsewhere does not change the mounts of the root. -/
theorem Forest.rootMount_mountAt (hr : fs.vfsRoot = some base)
    (hx : ¬ Covers fs base x) : rootMount (Mounts.mountAt fs x r) = rootMount fs := by
  have hsame : ∀ fuel n, Covers fs base n → topMount (Mounts.mountAt fs x r) fuel n =
      topMount fs fuel n := by
    intro fuel
    induction fuel with
    | zero => exact fun _ _ => rfl
    | succ fuel ih =>
      intro n hn
      have hnx : n ≠ x := by
        rintro rfl
        exact hx hn
      rw [topMount, topMount, mounted_mountAt, if_neg hnx]
      cases hm : (fs.node n).mounted with
      | none => rfl
      | some next => exact ih next (hn.tail ⟨h.covers_lt (h.root base hr) hn, hm⟩)
  have hroot : (Mounts.mountAt fs x r).vfsRoot = some base := hr
  rw [rootMount, rootMount, hr, hroot]
  exact congrArg (Except.map some) (hsame (fs.nodes + 1) base .refl)

/-- A root mounted on top of all mounts of the root is the new top. -/
theorem Forest.rootMount_top (hnew : Fresh fs r)
    (htop : rootMount fs = .ok (some top)) : rootMount (Mounts.mountAt fs top r) =
    .ok (some r) := by
  obtain ⟨base, hr, hmount⟩ := (rootMount_eq_some_iff fs top).mp htop
  obtain ⟨k, -, hall, hnone, hk⟩ := (topMount_eq_ok_iff fs _ base top).mp hmount
  have hlen := h.iterate_length hr hall
  have hlow : ∀ i ≤ k, (Mounts.mountAt fs top r).cross^[i] base = fs.cross^[i] base := by
    intro i hi
    induction i with
    | zero => rfl
    | succ i ih =>
      have hne : fs.cross^[i] base ≠ top := by
        intro heq
        rw [hk] at hnone
        exact hall i hi (heq ▸ hnone)
      rw [iterate_succ_apply', iterate_succ_apply', ih (Nat.le_of_succ_le hi),
        cross_mountAt, if_neg hne]
  have hlast : (Mounts.mountAt fs top r).cross^[k + 1] base = r := by
    rw [iterate_succ_apply', hlow k le_rfl, hk, cross_mountAt, if_pos rfl]
  have hr' : r ≠ top := by
    rintro rfl
    exact (Route.root hr (hk ▸ h.covers_iterate (h.root base hr) hall le_rfl)).ne_fresh h hnew rfl
  refine (rootMount_eq_some_iff _ r).mpr ⟨base, hr, ?_⟩
  refine (topMount_eq_ok_iff _ _ base r).mpr ⟨k + 1, Nat.succ_lt_succ hlen, ?_, ?_, hlast⟩
  · intro i hi
    rw [hlow i (Nat.le_of_lt_succ hi), mounted_mountAt]
    split
    · exact Option.some_ne_none _
    · rename_i hne
      refine hall i (lt_of_le_of_ne (Nat.le_of_lt_succ hi) ?_)
      rintro rfl
      exact hne hk
  · rw [hlast, mounted_mountAt, if_neg hr']
    exact hnew.bare

/-- What a path that resolves to a node is walked through. -/
theorem Forest.exists_route (hpath : vfsResolvePath fs (slash :: path) = .ok (some x)) :
    ∃ top base entry, rootMount fs = .ok (some top) ∧ fs.vfsRoot = some base ∧ Covers fs base top ∧
      Route fs top (lookups (slash :: path)) entry x := by
  obtain ⟨top, htop, hwalk⟩ := (vfsResolvePath_eq_some_iff fs path x).mp hpath
  obtain ⟨base, hr, hcovers⟩ := h.rootMount_covers htop
  obtain ⟨entry, hroute⟩ := h.walk_route hr hcovers hwalk
  exact ⟨top, base, entry, htop, hr, hcovers, hroute⟩

/-- The node of a path with components is no mount of the root. -/
theorem Route.not_covers_root (hr : fs.vfsRoot = some base)
    (hroute : Route fs top names entry x) (hnames : names ≠ []) : ¬ Covers fs base x := by
  intro hcovers
  cases hroute with
  | root => exact hnames rfl
  | step hprev he =>
    obtain ⟨hbase, -, hover, -⟩ := (hprev.step he).spec h
    obtain ⟨hchild, -⟩ := h.child_of_lookup (hprev.spec h).2.2.2 he
    obtain rfl := h.base_unique hbase (.inl hr) hover hcovers
    exact h.rootNoChild hr hchild

/-- Paths whose lookups do not begin with the mount's resolve as before. -/
theorem Forest.resolve_elsewhere (hnew : Fresh fs r)
    (hpath : vfsResolvePath fs (slash :: path) = .ok (some x)) {other : List UInt8}
    (hnot : ¬ lookups (slash :: path) <+: lookups (slash :: other)) :
    vfsResolvePath (Mounts.mountAt fs x r) (slash :: other) =
      vfsResolvePath fs (slash :: other) := by
  obtain ⟨top, base, entry, htop, hr, hcovers, hroute⟩ := h.exists_route hpath
  have hnames : lookups (slash :: path) ≠ [] := fun hnil => hnot (hnil ▸ List.nil_prefix)
  rw [vfsResolvePath_eq, vfsResolvePath_eq,
    h.rootMount_mountAt hr (hroute.not_covers_root h hr hnames), htop]
  exact congrArg Except.ok (walk_mountAt h hroute hnew hr hcovers hnot)

theorem Route.mounted_of_ne (hroute : Route fs top names entry x)
    (hnames : names ≠ []) (hne : entry ≠ x) : Mounted fs entry x := by
  cases hroute with
  | root => exact absurd rfl hnames
  | step hprev he =>
    obtain ⟨-, -, hentry⟩ := h.child_of_lookup (hprev.spec h).2.2.2 he
    exact (cross_eq hentry).resolve_left fun hsame => hne hsame.symm

theorem Route.walk_eq (hroute : Route fs top names entry n) :
    walk fs (some top) names = some n := by
  induction hroute with
  | root => rfl
  | step hprev he ih =>
    rw [walk_snoc, ih, h.vfsFinddir_eq_map (hprev.spec h).2.2.2, he, Option.map_some]

/-- The last entry is stepped across once: to the new root if nothing was mounted on it, otherwise
to the old one. -/
theorem Route.walk_mounted (hroute : Route fs top names entry x)
    (hnew : Fresh fs r) (hr : fs.vfsRoot = some base) (htop : Covers fs base top)
    (hnames : names ≠ []) :
    walk (mountAt fs x r) (some top) names = some (if entry = x then r else x) := by
  have hroute' := hroute
  cases hroute with
  | root => exact absurd rfl hnames
  | @step init last base' n e hprev he =>
    have hn := (hprev.spec h).2.2.2
    have hshorter : ¬ init ++ [last] <+: init :=
      fun hpre => by simpa [Nat.not_succ_le_self] using hpre.length_le
    have hnx : n ≠ fs.cross entry := by
      rintro rfl
      simpa using hroute'.names_eq h hprev
    rw [walk_snoc, walk_mountAt h hroute' hnew hr htop hshorter, hprev.walk_eq h,
      (h.mountAt hnew).vfsFinddir_eq_map hn, lookupEntry_mountAt fs _ r hnx, he, Option.map_some,
      cross_mountAt]

/-- Behind a mount on a path with components, it leads to the new root exactly if none was mounted
there. -/
theorem Forest.resolve_mounted_iff (hfresh : Fresh fs r)
    (hpath : vfsResolvePath fs (slash :: path) = .ok (some x))
    (hnames : lookups (slash :: path) ≠ []) :
    vfsResolvePath (Mounts.mountAt fs x r) (slash :: path) = .ok (some r) ↔
      ∀ m, ¬ Mounted fs m x := by
  obtain ⟨top, base, entry, htop, hr, hcovers, hroute⟩ := h.exists_route hpath
  have hroot := h.rootMount_mountAt (r := r) hr (hroute.not_covers_root h hr hnames)
  have hne := hroute.ne_fresh h hfresh
  have hwalk := hroute.walk_mounted h hfresh hr hcovers hnames
  rw [vfsResolvePath_eq, hroot, htop]
  simp only [Except.map, hwalk, Except.ok.injEq, Option.some.injEq, ite_eq_left_iff]
  constructor
  · intro hnew m hm
    have hentry : entry = x := by
      by_contra hother
      exact hne (hnew hother)
    subst entry
    exact h.base_notMounted (hroute.spec h).1 hm
  · intro hnot hother
    exact absurd (hroute.mounted_of_ne h hnames hother) (hnot entry)

end

def MountStep (fs fs' : Fs) : Prop := ∃ path r, Fresh fs r ∧ vfsMount fs path r = .ok (fs', 0)

theorem reachable_forest {fs₀ : Fs} (hst : Forest fs₀) (hrun : Reachable MountStep fs₀ fs) :
    Forest fs := by
  refine Reachable.invariant Forest ?_ hst hrun
  rintro a b ha ⟨path, r, hnew, hmount⟩
  obtain ⟨x, -, rfl⟩ := (vfsMount_eq_zero_iff a path r).mp hmount
  exact ha.mountAt hnew

/-- Mounts are visible and leave other paths alone exactly if the path is the root's or
leads to no mounted root, and its components are short. -/
theorem mounts_visible_iff {fs₀ : Fs} (hst : Forest fs₀) (hrun : Reachable MountStep fs₀ fs)
    (hfresh : Fresh fs r) (hmount : vfsMount fs (slash :: path) r = .ok (fs', 0)) :
    (vfsResolvePath fs' (slash :: path) = .ok (some r) ∧
      ∀ other, ¬ components (slash :: path) <+: components (slash :: other) →
        vfsResolvePath fs' (slash :: other) = vfsResolvePath fs (slash :: other)) ↔
      (components (slash :: path) = [] ∨
        ∀ x, vfsResolvePath fs (slash :: path) = .ok (some x) → ∀ m, ¬ Mounted fs m x) ∧
      Short 126 (slash :: path) := by
  have h := reachable_forest hst hrun
  obtain ⟨x, hpath, rfl⟩ := (vfsMount_eq_zero_iff fs _ r).mp hmount
  obtain ⟨top, base, entry, htop, hr, hcovers, hroute⟩ := h.exists_route hpath
  have hnil : components (slash :: path) = [] ↔ lookups (slash :: path) = [] := by
    rw [lookups_eq, List.map_eq_nil_iff]
  constructor
  · rintro ⟨hnew, hothers⟩
    constructor
    · by_cases hnames : lookups (slash :: path) = []
      · exact .inl (hnil.mpr hnames)
      · right
        intro x' hx'
        obtain rfl : x = x' := Option.some.inj (Except.ok.inj (hpath.symm.trans hx'))
        exact (h.resolve_mounted_iff hfresh hpath hnames).mp hnew
    · by_contra hlong
      obtain ⟨other, hsame, hnot⟩ := exists_same_lookups hlong
      have hother := hothers other hnot
      rw [vfsResolvePath_eq, hsame, ← vfsResolvePath_eq, hnew, vfsResolvePath_eq fs, hsame,
        ← vfsResolvePath_eq, hpath] at hother
      exact hroute.ne_fresh h hfresh (Option.some.inj (Except.ok.inj hother)).symm
  · rintro ⟨hcases, hshort⟩
    constructor
    · by_cases hnames : lookups (slash :: path) = []
      · have hx : top = x := by
          have hwalk := hroute.walk_eq h
          rw [hnames] at hwalk
          exact Option.some.inj hwalk
        subst top
        rw [vfsResolvePath_eq, h.rootMount_top hfresh htop, hnames]
        rfl
      · refine (h.resolve_mounted_iff hfresh hpath hnames).mpr ?_
        rcases hcases with hcomps | hunmounted
        · exact absurd (hnil.mp hcomps) hnames
        · exact hunmounted x hpath
    · intro other hnot
      exact h.resolve_elsewhere hfresh hpath fun hpre => hnot
        (components_prefix_of_lookups hshort hpre)

def spareRoots : Fs := { chain [[97]] with nodes := 4 }

theorem spareRoots_child {p c : ℕ} (h : Child spareRoots p c) : p = 0 ∧ c = 1 := by
  obtain ⟨-, hc⟩ := h
  have hchildren : children spareRoots p = if p < 1 then [p + 1] else [] := rfl
  rw [hchildren] at hc
  split at hc
  · have hz : p = 0 := by omega
    subst p
    exact ⟨rfl, List.mem_singleton.mp hc⟩
  · exact absurd hc List.not_mem_nil

theorem spareRoots_mounted (m r : ℕ) : ¬ Mounted spareRoots m r := by
  rintro ⟨-, hm⟩
  have hnone : (spareRoots.node m).mounted = none := mounted_chain [[97]] m
  cases hnone.symm.trans hm

theorem spareRoots_forest : Forest spareRoots where
  root r hr := Option.some.inj hr ▸ (by decide)
  ops _ _ := rfl
  impl _ _ := Option.some_ne_none _
  children n hn c hc := by
    obtain ⟨-, rfl⟩ := spareRoots_child ⟨hn, hc⟩
    decide
  ptr _ _ _ hm := nomatch hm
  oneParent hc hc' := (spareRoots_child hc).1.trans (spareRoots_child hc').1.symm
  oneMount hm := absurd hm (spareRoots_mounted _ _)
  notBoth _ := spareRoots_mounted _ _
  rootNoChild hr hc := by
    cases hr
    exact absurd (spareRoots_child hc).2 (by decide)
  rootNotMounted _ := spareRoots_mounted _ _

theorem spareRoots_fresh (hr : r = 2 ∨ r = 3) : Fresh spareRoots r where
  lt := by
    show r < 4
    omega
  notRoot h := by
    have hz : 0 = r := Option.some.inj h
    omega
  noChild p hc := by
    have hone := (spareRoots_child hc).2
    omega
  notMounted m := spareRoots_mounted m r
  bare := mounted_chain [[97]] r

theorem spareRoots_mount : vfsMount spareRoots [slash, 97] 2 = .ok (mountAt spareRoots 1 2, 0) :=
  (vfsMount_eq_zero_iff _ _ _).mpr ⟨1, rfl, rfl⟩

theorem short_letter : Short 126 [slash, 97] := by
  have hcomps : components [slash, 97] = [[97]] := by
    rw [components_slash, components_of_not_mem (by simp) (by decide)]
  intro c hc
  rw [hcomps, List.mem_singleton] at hc
  rw [hc]
  decide

theorem mounts_visible_spareRoots : vfsResolvePath (mountAt spareRoots 1 2) [slash, 97] =
    .ok (some 2) :=
  ((mounts_visible_iff spareRoots_forest refl (spareRoots_fresh (Or.inl rfl))
    spareRoots_mount).mpr ⟨Or.inr (fun _ _ m => spareRoots_mounted m _), short_letter⟩).1

/-- The second mount on `a` is marked on the first one's root, where the path still leads. -/
theorem second_mount_hidden : ∃ fs₁ fs₂, Fresh spareRoots 2 ∧ vfsMount spareRoots [slash, 97] 2 =
    .ok (fs₁, 0) ∧ Fresh fs₁ 3 ∧ vfsMount fs₁ [slash, 97] 3 = .ok (fs₂, 0) ∧
    vfsResolvePath fs₂ [slash, 97] = .ok (some 2) := by
  have hnew : Fresh (mountAt spareRoots 1 2) 3 := by
    obtain ⟨hlt, hroot, hchild, -, hbare⟩ := spareRoots_fresh (.inr rfl)
    refine ⟨hlt, hroot, fun p hc => hchild p ((child_mountAt _ 1 2).mp hc), ?_, hbare⟩
    intro m hm
    rcases mounted_mountAt_iff _ 1 2 hm with ⟨-, h⟩ | h
    · cases h
    · exact spareRoots_mounted m 3 h
  have hres : vfsResolvePath (mountAt spareRoots 1 2) [slash, 97] = .ok (some 2) := rfl
  refine ⟨_, _, spareRoots_fresh (.inl rfl), spareRoots_mount, hnew,
    (vfsMount_eq_zero_iff _ _ _).mpr ⟨2, hres, rfl⟩, rfl⟩

end NexusKernel.Mounts
