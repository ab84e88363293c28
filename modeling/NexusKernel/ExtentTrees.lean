import NexusKernel.Ext4
import Mathlib.Data.List.Find

/-!
The extent tree of a file on a disk, and the lookup of a block in it. A tree stands for the list
of its extents: a leaf for its own, an index node for those of its children, each within the range
of its entry. The lookup of the driver is the lookup in this list, if the heap has a buffer for a
block.
-/

namespace NexusKernel.ExtentTrees

open Lib.Programs ElfLoader DiskPrograms Ext4 Program

/-- The largest length of an initialised extent; a larger one means an unwritten extent, longer by
this. -/
def initMaxLen : ℕ := 32768

def count (e : Extent) : ℕ := if e.len.toNat ≤ initMaxLen then e.len.toNat
    else e.len.toNat - initMaxLen

def Initialised (e : Extent) : Prop := e.len.toNat ≤ initMaxLen

instance (e : Extent) : Decidable (Initialised e) := inferInstanceAs (Decidable (_ ≤ _))

def Within (hi : ℕ) : ℕ → List Extent → Prop
  | _, [] => True
  | lo, e :: rest =>
      lo ≤ e.block.toNat ∧ 1 ≤ count e ∧ e.block.toNat + count e ≤ hi ∧
        Within hi (e.block.toNat + count e) rest

def covering (m : List Extent) (l : ℕ) : Option Extent :=
  m.find? (fun e => e.block.toNat ≤ l ∧ l < e.block.toNat + count e)

/-- Where a block is on the disk, 0 for a block of no extent. -/
def lookup (m : List Extent) (l : ℕ) : ℕ :=
  (covering m l).elim 0 (fun e => e.start.toNat + (l - e.block.toNat))

structure NodeOk (size depth : ℕ) (node : Buffer) : Prop where
  magic : (header node).magic = extMagic
  depth : (header node).depth.toNat = depth
  fits : 12 + 12 * (header node).entries.toNat ≤ size

def Children (sub : UInt64 → ℕ → ℕ → List Extent → Prop) (hi : ℕ) :
    ℕ → List ExtentIdx → List Extent → Prop
  | _, [], m => m = []
  | lo, ix :: rest, m =>
      ∃ mid first others, m = first ++ others ∧ lo ≤ ix.block.toNat ∧
        ix.block.toNat ≤ mid ∧ mid ≤ hi ∧
        ix.leaf ≠ 0 ∧ sub ix.leaf ix.block.toNat mid first ∧ Children sub hi mid rest others

/-- A tree in blocks of `size` bytes below a node, whose own place may have another size. -/
def Tree (data : UInt64 → Option Buffer) (size : ℕ) : ℕ → ℕ → ℕ → ℕ → Buffer → List Extent → Prop
  | 0, place, lo, hi, node, m => NodeOk place 0 node ∧ extents node = m ∧ Within hi lo m
  | d + 1, place, lo, hi, node, m =>
      NodeOk place (d + 1) node ∧ Children (fun b lo hi m => ∃ child, data b = some child ∧
          Tree data size d size lo hi child m) hi lo (indexes node) m

variable {m first others : List Extent} {lo hi l d place size : ℕ} {e : Extent}
  {node node' : Buffer} {data : UInt64 → Option Buffer} {sub : UInt64 → ℕ → ℕ → List Extent → Prop}
  {entries : List ExtentIdx} {lBlock : UInt32}

theorem Within.bounds (h : Within hi lo m) (he : e ∈ m) :
    lo ≤ e.block.toNat ∧ e.block.toNat + count e ≤ hi := by
  induction m generalizing lo with
  | nil => exact absurd he List.not_mem_nil
  | cons a rest ih =>
    obtain ⟨hlo, -, hhi, hrest⟩ := h
    rcases List.mem_cons.mp he with rfl | hmem
    · exact ⟨hlo, hhi⟩
    · obtain ⟨hafter, hend⟩ := ih hrest hmem
      exact ⟨by omega, hend⟩

theorem Children.bounds (hsub : ∀ b lo hi m, sub b lo hi m →
      ∀ e ∈ m, lo ≤ e.block.toNat ∧ e.block.toNat + count e ≤ hi)
    (h : Children sub hi lo entries m) (he : e ∈ m) :
    lo ≤ e.block.toNat ∧ e.block.toNat + count e ≤ hi := by
  induction entries generalizing lo m with
  | nil =>
    obtain rfl : m = [] := h
    exact absurd he List.not_mem_nil
  | cons ix rest ih =>
    obtain ⟨mid, first, others, rfl, hlo, hmid, hhi, -, hfirst, hothers⟩ := h
    rcases List.mem_append.mp he with hmem | hmem
    · obtain ⟨hst, hend⟩ := hsub _ _ _ _ hfirst e hmem
      exact ⟨by omega, by omega⟩
    · obtain ⟨hst, hend⟩ := ih hothers hmem
      exact ⟨by omega, hend⟩

theorem Children.le_block (h : Children sub hi lo entries m) {ix : ExtentIdx} (hix : ix ∈ entries) :
    lo ≤ ix.block.toNat := by
  induction entries generalizing lo m with
  | nil => exact absurd hix List.not_mem_nil
  | cons a rest ih =>
    obtain ⟨mid, first, others, -, hlo, hmid, -, -, -, hothers⟩ := h
    rcases List.mem_cons.mp hix with rfl | hmem
    · exact hlo
    · have := ih hothers hmem
      omega

theorem Tree.nodeOk (h : Tree data size d place lo hi node m) : NodeOk place d node := by
  cases d with
  | zero | succ d => exact h.1

theorem Tree.bounds (h : Tree data size d place lo hi node m) (he : e ∈ m) :
    lo ≤ e.block.toNat ∧ e.block.toNat + count e ≤ hi := by
  induction d generalizing place lo hi node m e with
  | zero => exact h.2.2.bounds he
  | succ d ih =>
    refine Children.bounds ?_ h.2 he
    rintro b lo hi m ⟨child, -, hchild⟩ e he
    exact ih hchild he

theorem covering_eq_none (h : ∀ e ∈ m, l < e.block.toNat) : covering m l = none := by
  rw [covering, List.find?_eq_none]
  intro e he
  have := h e he
  simp only [decide_eq_true_eq]
  omega

theorem covering_append_left (h : ∀ e ∈ others, l < e.block.toNat) :
    covering (first ++ others) l = covering first l := by
  rw [covering, List.find?_append]
  change (covering first l).or (covering others l) = covering first l
  rw [covering_eq_none h, Option.or_none]

theorem covering_append_right (h : ∀ e ∈ first, e.block.toNat + count e ≤ l) :
    covering (first ++ others) l = covering others l := by
  have hnone : covering first l = none := by
    rw [covering, List.find?_eq_none]
    intro e he
    have := h e he
    simp only [decide_eq_true_eq]
    omega
  rw [covering, List.find?_append]
  change (covering first l).or (covering others l) = covering others l
  rw [hnone, Option.none_or]

/-- The scan of an index node ends at the child that has the extent of the block, if any can have
it. -/
theorem Children.target (hsub : ∀ b lo hi m, sub b lo hi m →
      ∀ e ∈ m, lo ≤ e.block.toNat ∧ e.block.toNat + count e ≤ hi)
    (h : Children sub hi lo entries m) (lBlock : UInt32) (t : UInt64) :
    let scan := entries.foldl (fun target ix => if lBlock ≥ ix.block then ix.leaf else target) t
    ((∀ ix ∈ entries, lBlock < ix.block) ∧ scan = t ∧ ∀ e ∈ m, lBlock.toNat < e.block.toNat) ∨
      ∃ ix ∈ entries, ∃ mid child, ix.block ≤ lBlock ∧ ix.leaf ≠ 0 ∧ mid ≤ hi ∧ scan = ix.leaf ∧
        sub ix.leaf ix.block.toNat mid child ∧
        covering m lBlock.toNat = covering child lBlock.toNat ∧ (∀ e ∈ child, e ∈ m) := by
  induction entries generalizing lo m t with
  | nil =>
    obtain rfl : m = [] := h
    exact .inl ⟨fun ix hix => absurd hix List.not_mem_nil, rfl,
      fun e he => absurd he List.not_mem_nil⟩
  | cons ix rest ih =>
    obtain ⟨mid, first, others, rfl, hlo, hmid, hhi, hleaf, hfirst, hothers⟩ := h
    by_cases hreach : ix.block ≤ lBlock
    · rw [List.foldl_cons, if_pos hreach]
      rcases ih hothers ix.leaf with ⟨hbeyond, hscan, hlate⟩ |
        ⟨ix', hix', mid', child, hreach', hleaf', hhi', hscan, hchild, hcovering, hmem⟩
      · exact .inr ⟨ix, List.mem_cons_self, mid, first, hreach, hleaf, hhi, hscan, hfirst,
          covering_append_left hlate, fun e he => List.mem_append_left _ he⟩
      · refine .inr ⟨ix', List.mem_cons_of_mem _ hix', mid', child, hreach', hleaf', hhi', hscan,
          hchild, ?_, fun e he => List.mem_append_right _ (hmem e he)⟩
        have hafter := hothers.le_block hix'
        have hle' := UInt32.le_iff_toNat_le.mp hreach'
        rw [← hcovering]
        refine covering_append_right fun e he => ?_
        have := (hsub _ _ _ _ hfirst e he).2
        omega
    · have hlt := UInt32.lt_iff_toNat_lt.mp (UInt32.not_le.mp hreach)
      -- The later entries are not reached either.
      have hrest : ∀ ix' ∈ rest, lBlock < ix'.block := by
        intro ix' hix'
        have := hothers.le_block hix'
        exact UInt32.lt_iff_toNat_lt.mpr (by omega)
      have hscan : ∀ (l : List ExtentIdx) (t : UInt64), (∀ ix' ∈ l, lBlock < ix'.block) →
          l.foldl (fun target ix => if lBlock ≥ ix.block then ix.leaf else target) t = t := by
        intro l t hl
        induction l with
        | nil => rfl
        | cons a l ihl =>
          rw [List.foldl_cons, if_neg (UInt32.not_le.mpr (hl a List.mem_cons_self))]
          exact ihl fun ix' hix' => hl ix' (List.mem_cons_of_mem _ hix')
      have hall : ∀ ix' ∈ ix :: rest, lBlock < ix'.block :=
        List.forall_mem_cons.mpr ⟨UInt32.not_le.mp hreach, hrest⟩
      refine .inl ⟨hall, hscan _ t hall, fun e he => ?_⟩
      rcases List.mem_append.mp he with hmem | hmem
      · have := (hsub _ _ _ _ hfirst e hmem).1
        omega
      · have := (hothers.bounds hsub hmem).1
        omega

theorem blockNumber_lt (hi : UInt16) (lo : UInt32) : (blockNumber hi lo).toNat < 2 ^ 48 := by
  have hhi := hi.toNat_lt
  have hlo := lo.toNat_lt
  rw [blockNumber, UInt64.toNat_or, UInt64.toNat_shiftLeft, UInt16.toNat_toUInt64,
    UInt32.toNat_toUInt64]
  apply Nat.or_lt_two_pow
  · refine (Nat.mod_le _ _).trans_lt ?_
    simp only [UInt64.reduceToNat, Nat.reduceMod, Nat.reducePow]
    omega
  · omega

theorem covers_iff (hinit : Initialised e) (hend : e.block.toNat + count e < 2 ^ 32) :
    e.Covers lBlock ↔ e.block.toNat ≤ lBlock.toNat ∧ lBlock.toNat < e.block.toNat + count e := by
  have hnum : count e = e.len.toNat := if_pos hinit
  have hsum : (e.block + e.len.toUInt32).toNat = e.block.toNat + count e := by
    rw [UInt32.toNat_add, UInt16.toNat_toUInt32, ← hnum, Nat.mod_eq_of_lt hend]
  rw [Extent.Covers, ge_iff_le, UInt32.le_iff_toNat_le, UInt32.lt_iff_toNat_lt, hsum]

theorem leafPhy_eq (hinit : ∀ e ∈ m, Initialised e)
    (hend : ∀ e ∈ m, e.block.toNat + count e < 2 ^ 32) (hst : ∀ e ∈ m, e.start.toNat < 2 ^ 48) :
    (leafPhy m lBlock).toNat = lookup m lBlock.toNat := by
  have hfind : m.find? (fun e => e.Covers lBlock) = covering m lBlock.toNat := by
    refine List.find?_congr ?_
    intro e he
    exact decide_eq_decide.mpr (covers_iff (hinit e he) (hend e he))
  rw [leafPhy, hfind, lookup]
  cases hcase : covering m lBlock.toNat with
  | none => rfl
  | some e =>
    have he := List.mem_of_find?_eq_some hcase
    have hin := List.find?_some hcase
    simp only [decide_eq_true_eq] at hin
    have hsub : (lBlock - e.block).toNat = lBlock.toNat - e.block.toNat :=
      UInt32.toNat_sub_of_le _ _ (UInt32.le_iff_toNat_le.mpr hin.1)
    have hlow := lBlock.toNat_lt
    have := hst e he
    simp only [UInt64.toNat_add, UInt32.toNat_toUInt64, hsub, Option.elim_some]
    omega

theorem header_agree (h : ∀ k < 12, node' k = node k) : header node' = header node := by
  simp only [header, u16_agree h (show 0 + 2 ≤ 12 by omega), u16_agree h (show 2 + 2 ≤ 12 by omega),
    u16_agree h (show 6 + 2 ≤ 12 by omega)]

/-- The driver sees no more of a node than the entries that fit. -/
theorem NodeOk.agree (hok : NodeOk place d node) (h : ∀ k < place, node' k = node k) :
    header node' = header node ∧ indexes node' = indexes node ∧ extents node' = extents node := by
  have hfits := hok.fits
  have hhead : header node' = header node := header_agree fun k hk => h k (by omega)
  have hentry : ∀ i ∈ List.range (header node).entries.toNat, 24 + 12 * i ≤ place := by
    intro i hi
    have hi := List.mem_range.mp hi
    omega
  refine ⟨hhead, ?_, ?_⟩
  · rw [indexes, hhead]
    refine List.map_congr_left fun i hi => ?_
    have hi := hentry i hi
    rw [ExtentIdx.parse, u32_agree h (by omega), u32_agree h (by omega), u16_agree h (by omega)]
    rfl
  · rw [extents, hhead]
    refine List.map_congr_left fun i hi => ?_
    have hi := hentry i hi
    rw [Extent.parse, u32_agree h (by omega), u16_agree h (by omega), u16_agree h (by omega),
      u32_agree h (by omega)]
    rfl

theorem start_lt (he : e ∈ extents node) : e.start.toNat < 2 ^ 48 := by
  obtain ⟨i, -, rfl⟩ := List.mem_map.mp he
  exact blockNumber_lt _ _

variable {host : Host} {fs : Ext4Info} {inode : Ext4Inode} {b : UInt64} {child : Buffer}
  {block : Block}

def sectorCount (fs : Ext4Info) : UInt8 := (fs.blockSize / 512).toUInt8

def blockData (host : Host) (fs : Ext4Info) (b : UInt64) : Option Buffer :=
  host.sectors (fs.lbaStart + b * (fs.blockSize / 512).toUInt64) (sectorCount fs)

theorem run_ext4ReadBlock (h : blockData host fs b = some child) (block : Block) :
    (ext4ReadBlock fs b (some block)).run host.answer =
      some (some (some (block.store (sectorCount fs) child))) := by
  have h' : host.sectors (fs.lbaStart + b * (fs.blockSize / 512).toUInt64)
    (fs.blockSize / 512).toUInt8 = some child := h
  simp only [ext4ReadBlock, run_diskReadInto, h', Option.map_some, sectorCount]

theorem run_ext4ReadBlock_null (h : blockData host fs b = some child)
    (hnum : sectorCount fs ≠ 0) : (ext4ReadBlock fs b none).run host.answer = none := by
  have h' : host.sectors (fs.lbaStart + b * (fs.blockSize / 512).toUInt64)
    (fs.blockSize / 512).toUInt8 = some child := h
  have hcount' : (fs.blockSize / 512).toUInt8 ≠ 0 := hnum
  simp only [ext4ReadBlock, run_diskReadInto_null, h', Option.isSome_some, if_true, if_neg hcount']

theorem NodeOk.store (hok : NodeOk (transfer (sectorCount fs)) d child) (block : Block) :
    NodeOk (transfer (sectorCount fs)) d (block.store (sectorCount fs) child).bytes ∧
      ∀ k < transfer (sectorCount fs), (block.store (sectorCount fs) child).bytes k = child k := by
  have hagree : ∀ k < transfer (sectorCount fs),
    (block.store (sectorCount fs) child).bytes k = child k := fun k hk => store_inside _ _ child hk
  obtain ⟨hhead, -, -⟩ := hok.agree hagree
  exact ⟨⟨hhead ▸ hok.magic, hhead ▸ hok.depth, hhead ▸ hok.fits⟩, hagree⟩

/-- An index node leads to the child with the extent of a block, if any. -/
theorem Tree.below (hsub : Tree data size (d + 1) place lo hi node m) :
    (targetPhy (indexes node) lBlock = 0 ∧ (∀ ix ∈ indexes node, lBlock < ix.block) ∧
        covering m lBlock.toNat = none) ∨ (¬ (∀ ix ∈ indexes node, lBlock < ix.block) ∧
        ∃ lo' mid child below, mid ≤ hi ∧ targetPhy (indexes node) lBlock ≠ 0 ∧
          data (targetPhy (indexes node) lBlock) = some child ∧
            Tree data size d size lo' mid child below ∧
          covering m lBlock.toNat = covering below lBlock.toNat ∧ ∀ e ∈ below, e ∈ m) := by
  have hbounds : ∀ b lo hi m, (∃ child, data b = some child ∧ Tree data size d size lo hi child m) →
      ∀ e ∈ m, lo ≤ e.block.toNat ∧ e.block.toNat + count e ≤ hi := by
    rintro b lo hi m ⟨child, -, hchild⟩ e he
    exact hchild.bounds he
  rcases Children.target hbounds hsub.2 lBlock 0 with ⟨hbeyond, hscan, hlate⟩ |
    ⟨ix, hix, mid, below, hreach, hleaf, hmid, hscan, ⟨child, hdata, hchild⟩, hcovering, hmem⟩
  · exact .inl ⟨hscan, hbeyond, covering_eq_none hlate⟩
  · have htgt : targetPhy (indexes node) lBlock = ix.leaf := hscan
    refine .inr ⟨fun hbeyond => absurd hreach (UInt32.not_le.mpr (hbeyond ix hix)), ?_⟩
    rw [htgt]
    exact ⟨ix.block.toNat, mid, child, below, hmid, hleaf, hdata, hchild, hcovering, hmem⟩

/-- With a buffer the descent ends at the leaf with the extent of the block. -/
theorem run_descend (htree : Tree (blockData host fs)
      (transfer (sectorCount fs)) d place lo hi node m)
    (hagree : ∀ k < place, node' k = node k) (hhi : hi < 2 ^ 32) (hinit : ∀ e ∈ m, Initialised e)
    {fuel : ℕ} (hfuel : d < fuel) (block : Block) :
    ∃ p, (descend fs lBlock fuel node' (some block)).run host.answer = some p ∧
      p.toNat = lookup m lBlock.toNat := by
  induction d generalizing place lo hi node node' m fuel block with
  | zero =>
    obtain ⟨hok, rfl, hwithin⟩ := htree
    obtain ⟨hhead, -, hextents⟩ := hok.agree hagree
    obtain ⟨fuel, rfl⟩ := Nat.exists_eq_add_of_lt hfuel
    have hleaf : ¬ (header node').depth > 0 := by
      rw [hhead, gt_iff_lt, UInt16.lt_iff_toNat_lt, hok.depth]
      exact Nat.lt_irrefl 0
    refine ⟨leafPhy (extents node) lBlock, ?_, ?_⟩
    · rw [descend, if_neg hleaf, hextents, run_pure]
    · refine leafPhy_eq hinit (fun e he => ?_) (fun e he => start_lt he)
      exact (hwithin.bounds he).2.trans_lt hhi
  | succ d ih =>
    have hok := htree.nodeOk
    obtain ⟨hhead, hindexes, -⟩ := hok.agree hagree
    obtain ⟨fuel, rfl⟩ := Nat.exists_eq_succ_of_ne_zero (Nat.ne_of_gt (Nat.zero_lt_of_lt hfuel))
    have hinner : (header node').depth > 0 := by
      rw [hhead, gt_iff_lt, UInt16.lt_iff_toNat_lt, hok.depth]
      exact Nat.succ_pos d
    rw [descend, if_pos hinner, hindexes]
    rcases htree.below with ⟨htgt, -, hcovering⟩ |
      ⟨-, lo', mid, child, below, hmid, htgt, hdata, hchild, hcovering, hmem⟩
    · refine ⟨0, ?_, ?_⟩
      · rw [if_pos htgt, run_pure]
      · rw [lookup, hcovering]
        rfl
    · obtain ⟨hstored, hstore⟩ := hchild.nodeOk.store block
      obtain ⟨p, hrun, hp⟩ := ih hchild hstore (hmid.trans_lt hhi) (fun e he => hinit e (hmem e he))
        (Nat.lt_of_succ_lt_succ hfuel) (block.store (sectorCount fs) child)
      refine ⟨p, ?_, ?_⟩
      · rw [if_neg htgt, run_bind, run_ext4ReadBlock hdata, Option.bind_some]
        simp only [hstored.magic, ne_eq, not_true_eq_false, if_false]
        exact hrun
      · rw [hp, lookup, lookup, hcovering]

theorem run_descend_null (htree : Tree (blockData host fs) (transfer (sectorCount fs))
      (d + 1) place lo hi node m) (hreach : ¬ ∀ ix ∈ indexes node, lBlock < ix.block) (fuel : ℕ) :
    (descend fs lBlock (fuel + 1) node none).run host.answer = none := by
  have hinner : (header node).depth > 0 := by
    rw [gt_iff_lt, UInt16.lt_iff_toNat_lt, htree.nodeOk.depth]
    exact Nat.succ_pos d
  rcases htree.below with ⟨-, hbeyond, -⟩ | ⟨-, lo', mid, child, below, -, htgt,
    hdata, hchild, -, -⟩
  · exact absurd hbeyond hreach
  have hnum : sectorCount fs ≠ 0 := by
    intro hz
    have hfits := hchild.nodeOk.fits
    rw [hz] at hfits
    exact absurd hfits (by simp [transfer])
  rw [descend, if_pos hinner, if_neg htgt, run_bind, run_ext4ReadBlock_null hdata hnum,
    Option.bind_none]

theorem descend_unread (h : d = 0 ∨ ∀ ix ∈ indexes node, lBlock < ix.block)
    (htree : Tree (blockData host fs) (transfer (sectorCount fs)) d place lo hi node m) (fuel : ℕ)
    (buf buf' : Option Block) : descend fs lBlock (fuel + 1) node buf =
    descend fs lBlock (fuel + 1) node buf' := by
  simp only [descend]
  split
  · rename_i hinner
    cases d with
    | zero =>
      rw [gt_iff_lt, UInt16.lt_iff_toNat_lt, htree.nodeOk.depth] at hinner
      exact absurd hinner (Nat.lt_irrefl 0)
    | succ d =>
      have hbeyond := h.resolve_left (Nat.succ_ne_zero d)
      rcases htree.below with ⟨htgt, -, -⟩ | ⟨hreach, -⟩
      · rw [if_pos htgt, if_pos htgt]
      · exact absurd hbeyond hreach
  · rfl

structure ExtentFile (host : Host) (fs : Ext4Info) (inode : Ext4Inode) (d : ℕ)
    (m : List Extent) : Prop where
  flags : usesExtents inode
  tree : Tree (blockData host fs) (transfer (sectorCount fs)) d 60 0 (2 ^ 32 - 1) inode.block m

/-- `ext4_get_physical_block` is the lookup in the list of extents, exactly if it need not read a
block or the heap has a buffer for it, since the result of `kmalloc` is not checked. -/
theorem extent_lookup_exact_iff (hfile : ExtentFile host fs inode d m)
    (hinit : ∀ e ∈ m, Initialised e) (lBlock : UInt32) :
    (∀ fuel, d < fuel → ∃ p, (ext4GetPhysicalBlock fs inode lBlock fuel).run host.answer = some p ∧
        p.toNat = lookup m lBlock.toNat) ↔ d = 0 ∨ (∀ ix ∈ indexes inode.block, lBlock < ix.block) ∨
        (host.block (.extents lBlock) fs.blockSize.toUInt64).isSome := by
  have hrun : ∀ fuel, (ext4GetPhysicalBlock fs inode lBlock fuel).run host.answer =
      (descend fs lBlock fuel inode.block (host.block (.extents lBlock) fs.blockSize.toUInt64)).run
        host.answer := by
    intro fuel
    rw [ext4GetPhysicalBlock, if_pos hfile.flags, if_neg (not_not_intro hfile.tree.nodeOk.magic),
      run_bind, run_kmalloc, Option.bind_some]
  cases hblock : host.block (.extents lBlock) fs.blockSize.toUInt64 with
  | some block =>
    refine ⟨fun _ => .inr (.inr rfl), fun _ fuel hfuel => ?_⟩
    rw [hrun, hblock]
    exact run_descend hfile.tree (fun _ _ => rfl) (by decide) hinit hfuel block
  | none =>
    constructor
    · intro hall
      by_cases hdepth : d = 0
      · exact .inl hdepth
      by_cases hbeyond : ∀ ix ∈ indexes inode.block, lBlock < ix.block
      · exact .inr (.inl hbeyond)
      obtain ⟨d, rfl⟩ := Nat.exists_eq_succ_of_ne_zero hdepth
      obtain ⟨p, hp, -⟩ := hall (d + 2) (by omega)
      rw [hrun, hblock, run_descend_null hfile.tree hbeyond] at hp
      simp at hp
    · intro hcase fuel hfuel
      obtain ⟨fuel, rfl⟩ := Nat.exists_eq_succ_of_ne_zero (Nat.ne_of_gt (Nat.zero_lt_of_lt hfuel))
      have hunread : d = 0 ∨ ∀ ix ∈ indexes inode.block, lBlock < ix.block :=
        hcase.imp id (fun h => h.resolve_right (by simp))
      rw [hrun, hblock, descend_unread hunread hfile.tree fuel none (some ⟨0, fun _ => 0⟩)]
      exact run_descend hfile.tree (fun _ _ => rfl) (by decide) hinit hfuel _

/-! ### A tree of two levels

One index entry, for the node in block 5, with one extent of three blocks from block 100 on. -/

def smallFs : Ext4Info where
  lbaStart := 0
  blockSize := 1024
  inodesPerGroup := 32
  inodeSize := 128
  revLevel := 0
  featureIncompat := 0

def smallInode : Ext4Inode where
  mode := 0x8000
  sizeLo := 3072
  flags := 0x80000
  block := fun k => [0x0A, 0xF3, 1, 0, 4, 0, 1, 0, 0, 0, 0, 0, 0, 0, 0, 0, 5].getD k 0

def smallHost (heap : Purpose → UInt64 → Option Buffer) : Host where
  drive :=
    { type := .ata
      ataReadSectors := fun lba _ =>
        if lba = 10 then some [0x0A, 0xF3, 1, 0, 84, 0, 0, 0, 0, 0, 0, 0, 0, 0, 0, 0,
          3, 0, 0, 0, 100]
        else none
      ahciReadSectors := fun _ _ => none }
  heap

def smallExtent : Extent := ⟨0, 3, 100⟩

theorem smallFile (heap : Purpose → UInt64 → Option Buffer) :
    ExtentFile (smallHost heap) smallFs smallInode 1 [smallExtent] := by
  refine ⟨by decide, ⟨rfl, rfl, by decide⟩, ?_⟩
  refine ⟨2 ^ 32 - 1, [smallExtent], [], rfl, by decide, by decide, le_rfl, by decide, ?_, rfl⟩
  exact ⟨_, rfl, ⟨rfl, rfl, by decide⟩, rfl, by decide, by decide, by decide, trivial⟩

theorem extent_lookup_exact_iff_small :
    ExtentFile (smallHost fun _ _ => some fun _ => 0) smallFs smallInode 1 [smallExtent] ∧
      ∀ fuel, 1 < fuel → ∃ p, (ext4GetPhysicalBlock smallFs smallInode 1 fuel).run
          (smallHost fun _ _ => some fun _ => 0).answer =
          some p ∧ p.toNat = lookup [smallExtent] 1 := by
  have hfile := smallFile fun _ _ => some fun _ => 0
  exact ⟨hfile, (extent_lookup_exact_iff hfile (by decide) 1).mpr (.inr (.inr rfl))⟩

/-- With an empty heap, the lookup of block 1 does not return. -/
theorem lookup_without_buffer :
    ExtentFile (smallHost fun _ _ => none) smallFs smallInode 1 [smallExtent] ∧
    (∀ e ∈ [smallExtent], Initialised e) ∧
    ∀ fuel, (ext4GetPhysicalBlock smallFs smallInode 1 fuel).run
      (smallHost fun _ _ => none).answer = none := by
  have hfile := smallFile fun _ _ => none
  have hreach : ¬ ∀ ix ∈ indexes smallInode.block, (1 : UInt32) < ix.block := by decide
  refine ⟨hfile, by decide, fun fuel => ?_⟩
  cases fuel with
  | zero => rfl
  | succ fuel => exact run_descend_null hfile.tree hreach fuel

end NexusKernel.ExtentTrees
