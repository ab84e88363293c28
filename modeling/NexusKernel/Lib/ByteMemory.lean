import Mathlib.Algebra.Group.Nat.Defs
import Mathlib.Data.List.GetD

/-!
Memory as a function from 64-bit addresses to bytes, with stores to ranges, and arrays of bytes
that grow by zeros. A range goes on at address 0 when it reaches the top.
-/

namespace NexusKernel.Lib.ByteMemory

abbrev Memory := UInt64 → UInt8

variable {mem : Memory} {p q a : UInt64} {n k i : ℕ}

def InRange (p : UInt64) (n : ℕ) (a : UInt64) : Prop := (a - p).toNat < n

instance : Decidable (InRange p n a) := inferInstanceAs (Decidable (_ < _))

def fill (mem : Memory) (p : UInt64) (n : ℕ) (b : UInt8) : Memory := fun a =>
  if InRange p n a then b else mem a

/-- `memcpy` from memory that the call does not change. -/
def put (mem : Memory) (p : UInt64) (bytes : List UInt8) : Memory := fun a =>
  if InRange p bytes.length a then bytes.getD (a - p).toNat 0 else mem a

def scribble (P : UInt64 → Prop) [DecidablePred P] (noise mem : Memory) : Memory := fun a =>
  if P a then noise a else mem a

def load (mem : Memory) (p : UInt64) (n : ℕ) : List UInt8 :=
  (List.range n).map (fun i => mem (p + UInt64.ofNat i))

structure Apart (p : UInt64) (n : ℕ) (q : UInt64) (k : ℕ) : Prop where
  left : p.toNat + n ≤ 2 ^ 64
  right : q.toNat + k ≤ 2 ^ 64
  disjoint : p.toNat + n ≤ q.toNat ∨ q.toNat + k ≤ p.toNat

theorem Apart.mono {n' k' : ℕ} (h : Apart p n q k) (hn : n' ≤ n) (hk : k' ≤ k) :
    Apart p n' q k' where
  left := Nat.le_trans (Nat.add_le_add_left hn _) h.left
  right := Nat.le_trans (Nat.add_le_add_left hk _) h.right
  disjoint := h.disjoint.imp (Nat.le_trans (Nat.add_le_add_left hn _))
    (Nat.le_trans (Nat.add_le_add_left hk _))

theorem sub_toNat (hi : i < 2 ^ 64) : (p + UInt64.ofNat i - p).toNat = i := by
  rw [UInt64.toNat_sub, UInt64.toNat_add, UInt64.toNat_ofNat_of_lt' hi]
  have hp := p.toNat_lt
  omega

theorem inRange_iff (hi : i < 2 ^ 64) : InRange p n (p + UInt64.ofNat i) ↔ i < n := by
  rw [InRange, sub_toNat hi]

theorem toNat_add_ofNat (h : q.toNat + k ≤ 2 ^ 64) (hi : i < k) :
    (q + UInt64.ofNat i).toNat = q.toNat + i := by
  rw [UInt64.toNat_add, UInt64.toNat_ofNat_of_lt' (by grind)]
  omega

theorem Apart.not_inRange (h : Apart p n q k) (hi : i < k) :
    ¬ InRange p n (q + UInt64.ofNat i) := by
  have hq := toNat_add_ofNat h.right hi
  have hleft := h.left
  have hdisj := h.disjoint
  have hright := h.right
  rw [InRange, UInt64.toNat_sub]
  omega

theorem length_load (mem : Memory) (p : UInt64) (n : ℕ) : (load mem p n).length = n := by
  rw [load, List.length_map, List.length_range]

theorem getD_load (mem : Memory) (p : UInt64) (hi : i < n) :
    (load mem p n).getD i 0 = mem (p + UInt64.ofNat i) := by
  rw [load, List.getD_eq_getElem _ _ (by simpa using hi), List.getElem_map, List.getElem_range]

theorem drop_take_load (mem : Memory) (p : UInt64) (n o k : ℕ) :
    ((load mem p n).drop o).take k = load mem (p + UInt64.ofNat o) (min k (n - o)) := by
  refine List.ext_getElem (by simp [length_load]) ?_
  intro i hi hi'
  simp only [List.getElem_take, List.getElem_drop, load, List.getElem_map, List.getElem_range]
  rw [UInt64.ofNat_add, UInt64.add_assoc]

theorem load_congr {mem' : Memory} (h : ∀ i < n, mem' (p + UInt64.ofNat i) =
      mem (p + UInt64.ofNat i)) : load mem' p n = load mem p n := by
  refine List.map_congr_left ?_
  intro i hi
  exact h i (List.mem_range.mp hi)

theorem fill_inside (mem : Memory) (b : UInt8) (hi : i < n) (hn : n ≤ 2 ^ 64) :
    fill mem p n b (p + UInt64.ofNat i) = b := if_pos ((inRange_iff (by omega)).mpr hi)

theorem put_same (mem : Memory) (bytes : List UInt8) (hi : i < 2 ^ 64) :
    put mem p bytes (p + UInt64.ofNat i) =
    if i < bytes.length then bytes.getD i 0 else mem (p + UInt64.ofNat i) := by
  simp only [put, inRange_iff hi, sub_toNat hi]

theorem put_offset (mem : Memory) (bytes : List UInt8) {o : ℕ} (hend : o + bytes.length ≤ 2 ^ 64)
    (hi : i < 2 ^ 64) : put mem (p + UInt64.ofNat o) bytes (p + UInt64.ofNat i) =
      if o ≤ i ∧ i < o + bytes.length then bytes.getD (i - o) 0 else mem (p + UInt64.ofNat i) := by
  by_cases ho : o ≤ i
  · have hsplit : p + UInt64.ofNat i = p + UInt64.ofNat o + UInt64.ofNat (i - o) := by
      rw [UInt64.add_assoc, ← UInt64.ofNat_add, Nat.add_sub_cancel' ho]
    rw [hsplit, put_same mem bytes (by omega)]
    by_cases hlt : i - o < bytes.length
    · rw [if_pos hlt, if_pos ⟨ho, by omega⟩]
    · rw [if_neg hlt, if_neg (by omega)]
  · rw [if_neg (fun h => ho h.1)]
    refine if_neg ?_
    by_cases hnil : bytes.length = 0
    · rw [hnil]
      exact Nat.not_lt_zero _
    · rw [InRange, UInt64.toNat_sub, UInt64.toNat_add, UInt64.toNat_add,
        UInt64.toNat_ofNat_of_lt' hi, UInt64.toNat_ofNat_of_lt' (by grind)]
      omega

theorem put_apart (mem : Memory) (bytes : List UInt8) (h : Apart p bytes.length q k) (hi : i < k) :
    put mem p bytes (q + UInt64.ofNat i) = mem (q + UInt64.ofNat i) := if_neg (h.not_inRange hi)

/-- A store inside a range, seen from a range apart from it. -/
theorem put_within_apart (mem : Memory) (bytes : List UInt8) {o : ℕ} (h : Apart p n q k)
    (hend : o + bytes.length ≤ n) (hi : i < k) :
    put mem (p + UInt64.ofNat o) bytes (q + UInt64.ofNat i) = mem (q + UInt64.ofNat i) := by
  by_cases hnil : bytes.length = 0
  · refine if_neg ?_
    rw [hnil]
    exact Nat.not_lt_zero _
  · have hleft := h.left
    have hdisj := h.disjoint
    have hst := toNat_add_ofNat (i := o) hleft (by omega)
    exact put_apart mem bytes ⟨by omega, h.right, by omega⟩ hi

def zeroExtend (l : List UInt8) (n : ℕ) : List UInt8 := l ++ List.replicate (n - l.length) 0

def overwrite (l : List UInt8) (k : ℕ) (bytes : List UInt8) : List UInt8 :=
  (zeroExtend l (k + bytes.length)).take k ++ bytes ++ (zeroExtend l (k + bytes.length)).drop
    (k + bytes.length)

section

variable (l : List UInt8)
include l

theorem length_zeroExtend (n : ℕ) : (zeroExtend l n).length = max l.length n := by
  rw [zeroExtend, List.length_append, List.length_replicate]
  omega

theorem getD_zeroExtend (n i : ℕ) : (zeroExtend l n).getD i 0 = l.getD i 0 := by
  rw [zeroExtend]
  by_cases hi : i < l.length
  · rw [List.getD_append _ _ _ _ hi]
  · rw [List.getD_append_right _ _ _ _ (by omega), List.getD_eq_default l 0 (by omega)]
    by_cases hin : i - l.length < n - l.length
    · rw [List.getD_eq_getElem _ _ (by simpa using hin), List.getElem_replicate]
    · rw [List.getD_eq_default _ _ (by simpa using hin)]

theorem length_overwrite (k : ℕ) (bytes : List UInt8) :
    (overwrite l k bytes).length = max l.length (k + bytes.length) := by
  simp only [overwrite, List.length_append, List.length_take, List.length_drop, length_zeroExtend]
  omega

theorem getD_overwrite (k : ℕ) (bytes : List UInt8) (i : ℕ) : (overwrite l k bytes).getD i 0 =
    if k ≤ i ∧ i < k + bytes.length then bytes.getD (i - k) 0 else l.getD i 0 := by
  have htake : ((zeroExtend l (k + bytes.length)).take k).length = k := by
    rw [List.length_take, length_zeroExtend]
    omega
  rw [overwrite, List.append_assoc]
  by_cases hk : i < k
  · rw [List.getD_append _ _ _ _ (by omega), if_neg (by omega),
      ← getD_zeroExtend l (k + bytes.length)]
    simp only [List.getD_eq_getElem?_getD, List.getElem?_take_of_lt hk]
  · rw [List.getD_append_right _ _ _ _ (by omega), htake]
    by_cases hin : i - k < bytes.length
    · rw [List.getD_append _ _ _ _ hin, if_pos ⟨by omega, by omega⟩]
    · rw [List.getD_append_right _ _ _ _ (by omega), if_neg (by omega),
        ← getD_zeroExtend l (k + bytes.length)]
      simp only [List.getD_eq_getElem?_getD, List.getElem?_drop]
      rw [show k + bytes.length + (i - k - bytes.length) = i by omega]

/-- Without bytes to store, an index inside leaves the array. -/
theorem overwrite_nil (hk : k ≤ l.length) : overwrite l k [] = l := by
  rw [overwrite, zeroExtend, List.length_nil, Nat.add_zero, Nat.sub_eq_zero_of_le hk,
    List.replicate_zero, List.append_nil, List.append_nil, List.take_append_drop]

end

theorem eq_of_getD {l l' : List UInt8} (hlen : l.length = l'.length)
    (h : ∀ i < l.length, l.getD i 0 = l'.getD i 0) : l = l' := by
  refine List.ext_getElem hlen ?_
  intro i hi hi'
  have hbyte := h i hi
  rwa [List.getD_eq_getElem _ _ hi, List.getD_eq_getElem _ _ hi'] at hbyte

end NexusKernel.Lib.ByteMemory
