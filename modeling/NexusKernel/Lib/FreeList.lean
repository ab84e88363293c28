import Mathlib.Algebra.GroupWithZero.Nat
import Mathlib.Data.List.Chain

/-!
Memory handed out from a list of blocks in address order, each a header and behind it the bytes of
its size. Taking memory marks the first free block that is large enough and cuts off what is not
needed, if enough remains for a block; giving back merges free neighbours. There may be gaps
between the blocks, and merging then shifts the free bytes towards the gap.

A list is laid out if its blocks follow each other without overlap, and settled if no two
neighbours are free.
-/

namespace NexusKernel.Lib.FreeList

structure Block where
  start : ℕ
  size : ℕ
  free : Bool
  deriving DecidableEq, Repr

variable (header least : ℕ)

def cut (size : ℕ) (b : Block) : List Block :=
  if size + header + least ≤ b.size then
    [⟨b.start, size, false⟩, ⟨b.start + header + size, b.size - size - header, true⟩]
  else [⟨b.start, b.size, false⟩]

/-- First fit: the start of the block taken and the list afterwards. -/
def take (size : ℕ) : List Block → Option (ℕ × List Block)
  | [] => none
  | b :: rest =>
      if b.free && decide (size ≤ b.size) then some (b.start, cut header least size b ++ rest)
      else (take size rest).map (fun found => (found.1, b :: found.2))

def merge : List Block → List Block
  | [] => []
  | [b] => [b]
  | b :: c :: rest =>
      if b.free && c.free then merge (⟨b.start, b.size + (header + c.size), true⟩ :: rest)
      else b :: merge (c :: rest)
  termination_by blocks => blocks.length

/-- The blocks lie between `lo` and `hi`, each behind the one before it. -/
def Laid (lo hi : ℕ) : List Block → Prop
  | [] => lo ≤ hi
  | b :: rest => lo ≤ b.start ∧ Laid (b.start + header + b.size) hi rest

def Settled (blocks : List Block) : Prop :=
  blocks.IsChain (fun b c => ¬ (b.free = true ∧ c.free = true))

def total (blocks : List Block) : ℕ := (blocks.map (fun b => b.size + header)).sum

variable {header least} {lo hi size a : ℕ} {blocks blocks' l l' : List Block} {b c : Block}

theorem Laid.le (h : Laid header lo hi l) : lo ≤ hi := by
  induction l generalizing lo with
  | nil => exact h
  | cons b rest ih =>
    have := ih h.2
    have := h.1
    omega

theorem Laid.mono {lo' hi' : ℕ} (hlo : lo' ≤ lo) (hhi : hi ≤ hi') (h : Laid header lo hi l) :
    Laid header lo' hi' l := by
  induction l generalizing lo lo' with
  | nil =>
    have : lo ≤ hi := h
    exact (show lo' ≤ hi' by omega)
  | cons b rest ih => exact ⟨hlo.trans h.1, ih le_rfl h.2⟩

theorem laid_append : Laid header lo hi (l ++ l') ↔ ∃ mid, Laid header lo mid l ∧
    Laid header mid hi l' := by
  induction l generalizing lo with
  | nil =>
    constructor
    · exact fun h => ⟨lo, le_refl lo, h⟩
    · rintro ⟨mid, hmid, h⟩
      exact h.mono hmid le_rfl
  | cons b rest ih =>
    constructor
    · rintro ⟨hlow, h⟩
      obtain ⟨mid, hrest, hl⟩ := ih.mp h
      exact ⟨mid, ⟨hlow, hrest⟩, hl⟩
    · rintro ⟨mid, ⟨hlow, hrest⟩, hl⟩
      exact ⟨hlow, ih.mpr ⟨mid, hrest, hl⟩⟩

/-- The layout does not depend on which blocks are free. -/
theorem laid_map_congr {α : Type*} {f g : α → Block} {xs : List α}
    (hst : ∀ x, (f x).start = (g x).start) (hsize : ∀ x, (f x).size = (g x).size)
    (h : Laid header lo hi (xs.map f)) : Laid header lo hi (xs.map g) := by
  induction xs generalizing lo with
  | nil => exact h
  | cons x rest ih =>
    refine ⟨hst x ▸ h.1, ih ?_⟩
    rw [← hst x, ← hsize x]
    exact h.2

section

variable (h : Laid header lo hi l)
include h

theorem Laid.inside (hb : b ∈ l) : lo ≤ b.start ∧ b.start + header + b.size ≤ hi := by
  obtain ⟨pre, post, rfl⟩ := List.append_of_mem hb
  obtain ⟨mid, hpre, hlow, hpost⟩ := laid_append.mp h
  exact ⟨hpre.le.trans hlow, hpost.le⟩

theorem Laid.apart (hb : b ∈ l) (hc : c ∈ l) (hne : b ≠ c) :
    b.start + header + b.size ≤ c.start ∨ c.start + header + c.size ≤ b.start := by
  induction l generalizing lo with
  | nil => exact absurd hb (List.not_mem_nil)
  | cons x rest ih =>
    rcases List.mem_cons.mp hb with rfl | hb' <;> rcases List.mem_cons.mp hc with rfl | hc'
    · exact absurd rfl hne
    · exact .inl (h.2.inside hc').1
    · exact .inr (h.2.inside hb').1
    · exact ih h.2 hb' hc'

theorem Laid.isChain : l.IsChain (fun b c => b.start + header + b.size ≤ c.start) := by
  induction l generalizing lo with
  | nil => exact List.isChain_nil
  | cons b rest ih =>
    refine List.isChain_cons.mpr ⟨?_, ih h.2⟩
    intro c hc
    exact (h.2.inside (List.mem_of_mem_head? hc)).1

end

theorem total_append : total header (l ++ l') = total header l + total header l' := by
  simp [total]

theorem total_cons : total header (b :: l) = b.size + header + total header l := by
  simp [total]

theorem Laid.total_le (h : Laid header lo hi l) : lo + total header l ≤ hi := by
  induction l generalizing lo with
  | nil => exact h
  | cons b rest ih =>
    have := ih h.2
    have := h.1
    rw [total_cons]
    omega

/-- A request is served by the first free block of sufficient size. -/
theorem take_some (h : take header least size blocks = some (a, blocks')) :
    ∃ pre b post, blocks = pre ++ b :: post ∧ b.free = true ∧ size ≤ b.size ∧ a = b.start ∧
      blocks' = pre ++ (cut header least size b ++ post) := by
  fun_induction take header least size blocks generalizing a blocks' with
  | case1 => cases h
  | case2 b rest hfit =>
    cases h
    simp only [Bool.and_eq_true, decide_eq_true_iff] at hfit
    exact ⟨[], b, rest, rfl, hfit.1, hfit.2, rfl, rfl⟩
  | case3 b rest _ ih =>
    obtain ⟨⟨a₁, blocks₁⟩, hrest, heq⟩ := Option.map_eq_some_iff.mp h
    cases heq
    obtain ⟨pre, c, post, rfl, hfree, hsize, rfl, rfl⟩ := ih hrest
    exact ⟨b :: pre, c, post, rfl, hfree, hsize, rfl, rfl⟩

/-- Without a sufficient block the one appended is taken. -/
theorem take_append (header least : ℕ) (h : ∀ c ∈ blocks, ¬ (c.free = true ∧ size ≤ c.size))
    (hfree : b.free = true) (hsize : size ≤ b.size) :
    take header least size (blocks ++ [b]) = some (b.start, blocks ++ cut header least size b) := by
  induction blocks with
  | nil => simp [take, hfree, hsize]
  | cons c rest ih =>
    have hc := h c List.mem_cons_self
    rw [List.cons_append, take, if_neg (by simpa using hc),
      ih (fun d hd => h d (List.mem_cons_of_mem c hd))]
    rfl

theorem laid_cut (h : Laid header lo hi (b :: l)) :
    Laid header lo hi (cut header least size b ++ l) := by
  obtain ⟨hlow, hl⟩ := h
  unfold cut
  split
  · refine ⟨hlow, le_rfl, hl.mono ?_ le_rfl⟩
    dsimp only
    omega
  · exact ⟨hlow, hl⟩

theorem total_cut : total header (cut header least size b) = b.size + header := by
  unfold cut
  split
  · simp only [total, List.map_cons, List.map_nil, List.sum_cons, List.sum_nil]
    omega
  · simp [total]

theorem mem_cut (header least : ℕ) (hsize : size ≤ b.size) :
    ∃ s, size ≤ s ∧ (⟨b.start, s, false⟩ : Block) ∈ cut header least size b := by
  unfold cut
  split
  · exact ⟨size, le_rfl, by simp⟩
  · exact ⟨b.size, hsize, by simp⟩

theorem head_cut : ∀ y ∈ (cut header least size b ++ l).head?, y.free = false := by
  unfold cut
  split
  · simp
  · simp

theorem settled_cut (hfree : b.free = true) (h : Settled (b :: l)) :
    Settled (cut header least size b ++ l) := by
  obtain ⟨hhead, hl⟩ := List.isChain_cons.mp h
  have hfollow : ∀ c : Block, ∀ y ∈ l.head?, ¬ (c.free = true ∧ y.free = true) :=
    fun c y hy hboth => hhead y hy ⟨hfree, hboth.2⟩
  unfold cut
  split
  · refine List.isChain_cons.mpr ⟨?_, List.isChain_cons.mpr ⟨hfollow _, hl⟩⟩
    intro y _ hboth
    exact Bool.noConfusion hboth.1
  · exact List.isChain_cons.mpr ⟨hfollow _, hl⟩

/-- What comes before the pieces may end in a free block. -/
theorem Settled.append_cut (hl : Settled l) (hrest : Settled (cut header least size b ++ l')) :
    Settled (l ++ (cut header least size b ++ l')) := by
  refine List.isChain_append.mpr ⟨hl, hrest, ?_⟩
  intro x _ y hy hboth
  exact Bool.noConfusion ((head_cut y hy).symm.trans hboth.2)

section

variable (h : take header least size blocks = some (a, blocks'))
include h

theorem take_laid (hlaid : Laid header lo hi blocks) : Laid header lo hi blocks' := by
  obtain ⟨pre, b, post, rfl, _, _, _, rfl⟩ := take_some h
  obtain ⟨mid, hpre, hrest⟩ := laid_append.mp hlaid
  exact laid_append.mpr ⟨mid, hpre, laid_cut hrest⟩

theorem take_total : total header blocks' = total header blocks := by
  obtain ⟨pre, b, post, rfl, _, _, _, rfl⟩ := take_some h
  simp only [total_append, total_cons, total_cut]

theorem take_settled (hset : Settled blocks) : Settled blocks' := by
  obtain ⟨pre, b, post, rfl, hfree, _, _, rfl⟩ := take_some h
  exact Settled.append_cut hset.left_of_append (settled_cut hfree hset.right_of_append)

/-- The block taken is in use afterwards and was free before. -/
theorem take_served :
    (∃ s, size ≤ s ∧ (⟨a, s, false⟩ : Block) ∈ blocks') ∧ ∃ b ∈ blocks, b.start = a ∧
      b.free = true := by
  obtain ⟨pre, b, post, rfl, hfree, hsize, rfl, rfl⟩ := take_some h
  obtain ⟨s, hs, hmem⟩ := mem_cut header least hsize
  exact ⟨⟨s, hs, by simp [hmem]⟩, b, by simp, rfl, hfree⟩

theorem take_kept (hc : c ∈ blocks) (hused : c.free = false) : c ∈ blocks' := by
  obtain ⟨pre, b, post, rfl, hfree, _, _, rfl⟩ := take_some h
  have hne : c ≠ b := by
    rintro rfl
    cases hused.symm.trans hfree
  simp only [List.mem_append, List.mem_cons, hne, false_or] at hc ⊢
  tauto

end

theorem merge_laid (h : Laid header lo hi blocks) : Laid header lo hi (merge header blocks) := by
  fun_induction merge header blocks generalizing lo with
  | case1 | case2 b => exact h
  | case3 b c rest _ ih =>
    obtain ⟨hlow, hc, hrest⟩ := h
    refine ih ⟨hlow, hrest.mono ?_ le_rfl⟩
    dsimp only
    omega
  | case4 b c rest _ ih => exact ⟨h.1, ih h.2⟩

theorem merge_total : total header (merge header blocks) = total header blocks := by
  fun_induction merge header blocks with
  | case1 | case2 b => rfl
  | case3 b c rest _ ih =>
    rw [ih]
    simp only [total_cons]
    omega
  | case4 b c rest _ ih => rw [total_cons, ih, ← total_cons]

/-- The merged list has a free head exactly if the list had. -/
theorem head_merge (header : ℕ) (b : Block) (l : List Block) :
    ∃ b' l', merge header (b :: l) = b' :: l' ∧ b'.free = b.free := by
  induction l generalizing b with
  | nil => exact ⟨b, [], by rw [merge], rfl⟩
  | cons c rest ih =>
    rw [merge]
    split
    · rename_i hboth
      obtain ⟨b', l', heq, hfree⟩ := ih ⟨b.start, b.size + (header + c.size), true⟩
      simp only [Bool.and_eq_true] at hboth
      exact ⟨b', l', heq, hfree.trans hboth.1.symm⟩
    · exact ⟨b, _, rfl, rfl⟩

theorem merge_settled : Settled (merge header blocks) := by
  fun_induction merge header blocks with
  | case1 => exact List.isChain_nil
  | case2 b => exact List.isChain_singleton b
  | case3 b c rest _ ih => exact ih
  | case4 b c rest hnot ih =>
    refine List.isChain_cons.mpr ⟨?_, ih⟩
    obtain ⟨c', l', heq, hfree⟩ := head_merge header c rest
    rw [heq]
    simp only [List.head?_cons, Option.mem_some_iff, forall_eq', hfree]
    simpa using hnot

theorem merge_used (hused : c.free = false) : c ∈ merge header blocks ↔ c ∈ blocks := by
  fun_induction merge header blocks with
  | case1 | case2 b => rfl
  | case3 b d rest hboth ih =>
    have hne : ∀ x : Block, x.free = true → c ≠ x := by
      rintro x hx rfl
      cases hused.symm.trans hx
    simp only [Bool.and_eq_true] at hboth
    rw [ih]
    simp only [List.mem_cons, hne b hboth.1, hne d hboth.2, false_or, or_iff_right_iff_imp]
    intro heq
    exact absurd heq (hne _ rfl)
  | case4 b d rest _ ih => rw [List.mem_cons, ih, ← List.mem_cons]

end NexusKernel.Lib.FreeList
