import Mathlib.Data.List.Basic

/-!
The end of `usb_enumerate_device`: the device is stored under the slot the controller assigned,
and the descriptors behind the configuration descriptor are walked. Slot, lengths and contents
come from outside.
-/

namespace NexusKernel.UsbEnumeration

def usbMaxDevices : ℕ := 32

/-- `usb_devices[slot_id] = dev`. There is no result outside the array. -/
def storeDevice {Device : Type} (usbDevices : List (Option Device)) (slotId : UInt8)
    (dev : Device) : Option (List (Option Device)) :=
  if slotId.toNat < usbDevices.length then some (usbDevices.set slotId.toNat (some dev)) else none

variable {buf : ℕ → UInt8} {ptr fuel : ℕ} {slotId : UInt8}

def fields (buf : ℕ → UInt8) (ptr : ℕ) : List ℕ :=
  [ptr, ptr + 1] ++ if buf (ptr + 1) = 4 then [ptr + 2, ptr + 5, ptr + 6, ptr + 7] else []

def isHid (buf : ℕ → UInt8) (ptr : ℕ) : Bool := buf (ptr + 1) = 4 ∧ buf (ptr + 5) = 3

def total (buf : ℕ → UInt8) : ℕ := (buf 2).toNat + 256 * (buf 3).toNat

/-- The loop over the descriptors: bytes read and calls of `usb_hid_probe`. -/
def walk (buf : ℕ → UInt8) : ℕ → ℕ → Option (List ℕ × ℕ)
  | 0, _ => none
  | fuel + 1, ptr =>
      if ptr < total buf then
        (walk buf fuel (ptr + (buf ptr).toNat)).map fun r => (fields buf ptr ++ r.1,
          (isHid buf ptr).toNat + r.2)
      else some ([], 0)

/-- The walk over the filled buffer, from the end of the first descriptor, with the three bytes
read of that one. -/
def walkConfig (buf : ℕ → UInt8) (fuel : ℕ) : Option (List ℕ × ℕ) :=
  (walk buf fuel (buf 0).toNat).map fun r => ([0, 2, 3] ++ r.1, r.2)

def Sound (slotId : UInt8) (buf : ℕ → UInt8) : Prop :=
  (∀ (devices : List (Option Unit)), devices.length = usbMaxDevices →
    storeDevice devices slotId () ≠ none) ∧
    ∃ fuel r, walkConfig buf fuel = some r ∧ ∀ i ∈ r.1, i < 256

inductive Visited (buf : ℕ → UInt8) : ℕ → Prop
  | first : (buf 0).toNat < total buf → Visited buf (buf 0).toNat
  | next {ptr : ℕ} : Visited buf ptr → ptr + (buf ptr).toNat < total buf →
      Visited buf (ptr + (buf ptr).toNat)

def Inside (buf : ℕ → UInt8) (ptr : ℕ) : Prop := buf ptr ≠ 0 ∧ ∀ i ∈ fields buf ptr, i < 256

def Ends (buf : ℕ → UInt8) (ptr : ℕ) : Prop := ∃ fuel r, walk buf fuel ptr = some r ∧
    ∀ i ∈ r.1, i < 256

theorem ends_step (hptr : ptr < total buf) :
    Ends buf ptr ↔ (∀ i ∈ fields buf ptr, i < 256) ∧ Ends buf (ptr + (buf ptr).toNat) := by
  constructor
  · rintro ⟨fuel, r, hwalk, hall⟩
    cases fuel with
    | zero => simp [walk] at hwalk
    | succ fuel =>
      rw [walk, if_pos hptr] at hwalk
      obtain ⟨r, hrest, rfl⟩ := Option.map_eq_some_iff.mp hwalk
      rw [List.forall_mem_append] at hall
      exact ⟨hall.1, fuel, r, hrest, hall.2⟩
  · rintro ⟨hfields, fuel, r, hrest, hall⟩
    refine ⟨fuel + 1, _, by rw [walk, if_pos hptr, hrest, Option.map_some], ?_⟩
    exact List.forall_mem_append.mpr ⟨hfields, hall⟩

/-- A descriptor of length zero is visited again and again. -/
theorem Ends.ne_zero (h : Ends buf ptr) (hptr : ptr < total buf) : buf ptr ≠ 0 := by
  intro hz
  obtain ⟨fuel, r, hwalk, -⟩ := h
  induction fuel generalizing r with
  | zero => simp [walk] at hwalk
  | succ fuel ih =>
    rw [walk, if_pos hptr, hz] at hwalk
    obtain ⟨r, hrest, -⟩ := Option.map_eq_some_iff.mp hwalk
    exact ih r hrest

theorem visited_inside (h : (buf 0).toNat < total buf → Ends buf (buf 0).toNat)
    (hptr : Visited buf ptr) : Inside buf ptr := by
  have hends : ptr < total buf ∧ Ends buf ptr := by
    induction hptr with
    | first hlt => exact ⟨hlt, h hlt⟩
    | next _ hlt ih => exact ⟨hlt, ((ends_step ih.1).mp ih.2).2⟩
  exact ⟨hends.2.ne_zero hends.1, ((ends_step hends.1).mp hends.2).1⟩

theorem ends_of_inside (h : ∀ ptr, Visited buf ptr → Inside buf ptr)
    (hptr : ptr < total buf → Visited buf ptr) : Ends buf ptr := by
  induction hn : total buf - ptr using Nat.strongRecOn generalizing ptr with
  | _ n ih =>
    by_cases hlt : ptr < total buf
    · have hvisited := hptr hlt
      obtain ⟨hlen, hfields⟩ := h ptr hvisited
      have hpos : 0 < (buf ptr).toNat := Nat.pos_of_ne_zero fun h => hlen (UInt8.toNat_inj.mp h)
      exact (ends_step hlt).mpr ⟨hfields, ih _ (by omega) (fun hnext => hvisited.next hnext) rfl⟩
    · exact ⟨1, ([], 0), by rw [walk, if_neg hlt], by simp⟩

theorem sound_iff_ends : Sound slotId buf ↔ slotId.toNat < 32 ∧ Ends buf (buf 0).toNat := by
  refine and_congr ⟨fun h => ?_, fun hlt devices hlen => ?_⟩ ⟨?_, ?_⟩
  · by_contra hlt
    exact h (List.replicate 32 none) List.length_replicate (if_neg (by simpa using hlt))
  · rw [storeDevice, if_pos (by rw [hlen]; exact hlt)]
    exact Option.some_ne_none _
  · rintro ⟨fuel, _, hconfig, hall⟩
    obtain ⟨r, hwalk, rfl⟩ := Option.map_eq_some_iff.mp hconfig
    exact ⟨fuel, r, hwalk, (List.forall_mem_append.mp hall).2⟩
  · rintro ⟨fuel, r, hwalk, hall⟩
    refine ⟨fuel, _, by rw [walkConfig, hwalk, Option.map_some], ?_⟩
    exact List.forall_mem_append.mpr ⟨by simp, hall⟩

/-- Exactly the slots below 32, and non-empty descriptors whose bytes were all requested, are
safe. -/
theorem enumeration_sound_iff (slotId : UInt8) (buf : ℕ → UInt8) :
    Sound slotId buf ↔ slotId.toNat < 32 ∧ ∀ ptr, Visited buf ptr → Inside buf ptr := by
  rw [sound_iff_ends]
  exact and_congr_right' ⟨fun h ptr => visited_inside (fun _ => h),
    fun h => ends_of_inside h .first⟩

/-- A descriptor of length zero, and a slot behind the array. -/
theorem hostile_device_breaks : ¬ Sound 1 (fun i => if i = 0 then 9 else if i = 2 then 18 else 0) ∧
    ¬ Sound 32 (fun _ => 0) := by
  refine ⟨fun h => ?_, fun h => ?_⟩
  · exact (sound_iff_ends.mp h).2.ne_zero (by decide) rfl
  · exact absurd (sound_iff_ends.mp h).1 (by decide)

end NexusKernel.UsbEnumeration
