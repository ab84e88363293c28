import Mathlib.Data.Finset.Card
import Mathlib.Data.Nat.Bitwise
import Mathlib.Tactic.IntervalCases

/-!
The bit operations of lib/bitmap.h, and the number of clear bits below a bound. Later modules read
the bitmap only through `bitmapTest`.
-/

namespace NexusKernel.Bitmap

open Function

abbrev Bytes := ℕ → UInt8

def bitMask (bit : ℕ) : UInt8 := 1 <<< UInt8.ofNat (bit % 8)

def bitmapSet (bitmap : Bytes) (bit : ℕ) : Bytes :=
  Function.update bitmap (bit / 8) (bitmap (bit / 8) ||| bitMask bit)

def bitmapClear (bitmap : Bytes) (bit : ℕ) : Bytes :=
  Function.update bitmap (bit / 8) (bitmap (bit / 8) &&& ~~~bitMask bit)

def bitmapTest (bitmap : Bytes) (bit : ℕ) : Bool := bitmap (bit / 8) &&& bitMask bit != 0

theorem bitMask_toNat (bit : ℕ) : (bitMask bit).toNat = 2 ^ (bit % 8) := by
  have hlt : bit % 8 < 8 := Nat.mod_lt _ (by omega)
  unfold bitMask
  generalize bit % 8 = k at hlt
  interval_cases k <;> rfl

/-- A byte tests positive against a mask exactly if it has the mask's bit. -/
theorem and_bitMask (b : UInt8) (bit : ℕ) :
    (b &&& bitMask bit != 0) = b.toNat.testBit (bit % 8) := by
  have hz : (b &&& bitMask bit = 0) ↔ b.toNat &&& 2 ^ (bit % 8) = 0 := by
    rw [← UInt8.toNat_inj, UInt8.toNat_and, bitMask_toNat]
    rfl
  rw [Bool.eq_iff_iff, bne_iff_ne, ne_eq, hz, Nat.and_two_pow]
  cases b.toNat.testBit (bit % 8) <;> simp

theorem bitmapTest_eq (bitmap : Bytes) (bit : ℕ) :
    bitmapTest bitmap bit = (bitmap (bit / 8)).toNat.testBit (bit % 8) := and_bitMask _ _

private theorem same_bit {a b : ℕ} (hdiv : a / 8 = b / 8) (hmod : a % 8 = b % 8) : a = b := by
  omega

theorem test_set (bitmap : Bytes) (bit n : ℕ) :
    bitmapTest (bitmapSet bitmap bit) n = (decide (n = bit) || bitmapTest bitmap n) := by
  simp only [bitmapTest_eq, bitmapSet]
  by_cases hbyte : n / 8 = bit / 8
  · rw [hbyte, update_self, UInt8.toNat_or, Nat.testBit_or, bitMask_toNat]
    by_cases hn : n = bit
    · subst n
      simp
    · have hmod : bit % 8 ≠ n % 8 := fun h => hn (same_bit hbyte h.symm)
      simp [hn, hmod]
  · have hn : n ≠ bit := fun h => hbyte (congrArg (· / 8) h)
    simp [hbyte, hn]

private theorem not_bitMask_testBit (bit j : ℕ) (hj : j < 8) :
    (~~~bitMask bit).toNat.testBit j = decide (j ≠ bit % 8) := by
  have hlt : bit % 8 < 8 := Nat.mod_lt _ (by omega)
  unfold bitMask
  generalize bit % 8 = k at hlt
  interval_cases k <;> interval_cases j <;> rfl

theorem test_clear (bitmap : Bytes) (bit n : ℕ) :
    bitmapTest (bitmapClear bitmap bit) n = (decide (n ≠ bit) && bitmapTest bitmap n) := by
  simp only [bitmapTest_eq, bitmapClear]
  by_cases hbyte : n / 8 = bit / 8
  · rw [hbyte, update_self, UInt8.toNat_and, Nat.testBit_and, not_bitMask_testBit bit (n % 8)
      (Nat.mod_lt _ (by omega))]
    by_cases hn : n = bit
    · subst n
      simp
    · have hmod : n % 8 ≠ bit % 8 := fun h => hn (same_bit hbyte h)
      simp [hn, hmod]
  · have hn : n ≠ bit := fun h => hbyte (congrArg (· / 8) h)
    simp [hbyte, hn]

theorem test_congr {bitmap bitmap' : Bytes} {bit : ℕ} (h : bitmap (bit / 8) = bitmap' (bit / 8)) :
    bitmapTest bitmap bit = bitmapTest bitmap' bit := by
  simp only [bitmapTest, h]

def fullBytes (n : ℕ) : Bytes := fun k => if k < n then 0xFF else 0

theorem test_fullBytes (n q : ℕ) : bitmapTest (fullBytes n) q = decide (q < 8 * n) := by
  have hones : ∀ k < 8, (0xFF : UInt8).toNat.testBit k = true := by decide
  rw [bitmapTest_eq, fullBytes]
  by_cases hq : q < 8 * n
  · rw [if_pos (by omega), hones (q % 8) (Nat.mod_lt q (by omega)), decide_eq_true hq]
  · rw [if_neg (by omega), decide_eq_false hq]
    exact Nat.zero_testBit _

def clearBits (bitmap : Bytes) (n : ℕ) : Finset ℕ :=
  (Finset.range n).filter (fun i => bitmapTest bitmap i = false)

theorem mem_clearBits {bitmap : Bytes} {n i : ℕ} : i ∈ clearBits bitmap n ↔
    i < n ∧ bitmapTest bitmap i = false := by
  simp [clearBits]

theorem clearBits_card_le (bitmap : Bytes) (n : ℕ) : (clearBits bitmap n).card ≤ n := by
  have h := Finset.card_filter_le (Finset.range n) fun i => bitmapTest bitmap i = false
  rwa [Finset.card_range] at h

/-- Setting a clear bit removes just it from the clear bits. -/
theorem clearBits_set (bitmap : Bytes) {n bit : ℕ} (hbit : bit < n)
    (hclear : bitmapTest bitmap bit = false) :
    (clearBits (bitmapSet bitmap bit) n).card + 1 = (clearBits bitmap n).card := by
  have herase : clearBits (bitmapSet bitmap bit) n = (clearBits bitmap n).erase bit := by
    ext i
    simp only [mem_clearBits, Finset.mem_erase, test_set, Bool.or_eq_false_iff,
      decide_eq_false_iff_not]
    tauto
  rw [herase]
  exact Finset.card_erase_add_one (mem_clearBits.mpr ⟨hbit, hclear⟩)

/-- Clearing a set bit adds exactly it to the clear bits. -/
theorem clearBits_clear (bitmap : Bytes) {n bit : ℕ} (hbit : bit < n)
    (hset : bitmapTest bitmap bit = true) :
    (clearBits (bitmapClear bitmap bit) n).card = (clearBits bitmap n).card + 1 := by
  have hinsert : clearBits (bitmapClear bitmap bit) n = insert bit (clearBits bitmap n) := by
    ext i
    simp only [mem_clearBits, Finset.mem_insert, test_clear, Bool.and_eq_false_iff,
      decide_eq_false_iff_not, not_not]
    constructor
    · rintro ⟨hi, heq | hold⟩
      · exact .inl heq
      · exact .inr ⟨hi, hold⟩
    · rintro (rfl | ⟨hi, hold⟩)
      · exact ⟨hbit, .inl rfl⟩
      · exact ⟨hi, .inr hold⟩
  rw [hinsert]
  simp [mem_clearBits, hset]

end NexusKernel.Bitmap
