import Mathlib.Data.List.Basic

/-!
The kernel log (lib/klog.c): a ring of 65536 bytes that `kputchar` writes and `klog_dump` prints.
-/

namespace NexusKernel.KernelLog

open Function

structure Klog where
  klogBuffer : ℕ → UInt8
  klogHead : ℕ
  klogWrapped : Bool
  klogActive : Bool

def klogInit (k : Klog) : Klog := { k with klogHead := 0, klogWrapped := false, klogActive := true }

def klogPutc (k : Klog) (c : UInt8) : Klog :=
  if k.klogActive then
    let k := { k with klogBuffer := update k.klogBuffer k.klogHead c, klogHead := k.klogHead + 1 }
    if 65536 ≤ k.klogHead then { k with klogHead := 0, klogWrapped := true } else k
  else k

def kputchar (s : Klog × List UInt8) (c : UInt8) : Klog × List UInt8 := (klogPutc s.1 c, s.2 ++ [c])

def printFrom (start stop : ℕ) (s : Klog × List UInt8) : Klog × List UInt8 :=
  (List.range' start (stop - start)).foldl (fun s i => kputchar s (s.1.klogBuffer i)) s

def klogDump (k : Klog) : Klog × List UInt8 :=
  let s := ({ k with klogActive := false }, [])
  let s := if k.klogWrapped then printFrom k.klogHead 65536 s else s
  let s := printFrom 0 k.klogHead s
  ({ s.1 with klogActive := true }, s.2)

def klogStopRecording (k : Klog) : Klog := { k with klogActive := false }

inductive Call where
  | putc (c : UInt8)
  | stopRecording
  | dump

def step (k : Klog) : Call → Klog
  | .putc c => klogPutc k c
  | .stopRecording => klogStopRecording k
  | .dump => (klogDump k).1

def record (s : Klog × List UInt8) (call : Call) : Klog × List UInt8 :=
  (step s.1 call, match call with
    | .putc c => if s.1.klogActive then s.2 ++ [c] else s.2
    | _ => s.2)

def run (k : Klog) (calls : List Call) : Klog × List UInt8 := calls.foldl record (klogInit k, [])

/-- The ring holds the last characters of the recorded text. -/
structure Holds (k : Klog) (text : List UInt8) : Prop where
  head : k.klogHead = text.length % 65536
  wrapped : k.klogWrapped = decide (65536 ≤ text.length)
  cells : ∀ i (hi : i < text.length), text.length ≤ i + 65536 → k.klogBuffer (i % 65536) = text[i]

variable {k : Klog} {text : List UInt8}

theorem Holds.putc (h : Holds k text) (hactive : k.klogActive = true) (c : UInt8) :
    Holds (klogPutc k c) (text ++ [c]) := by
  have hhead := h.head
  have hcells : ∀ i (hi : i < (text ++ [c]).length), (text ++ [c]).length ≤ i + 65536 →
      update k.klogBuffer k.klogHead c (i % 65536) = (text ++ [c])[i] := by
    intro i hi hlast
    rw [List.length_append, List.length_singleton] at hlast
    by_cases hold : i < text.length
    · rw [update_of_ne (by omega), List.getElem_append_left hold, h.cells i hold (by omega)]
    · obtain rfl : i = text.length := by simp at hi; omega
      simp [hhead]
  rw [klogPutc, if_pos hactive]
  dsimp only
  split
  · exact ⟨by simp; omega, by simp; omega, hcells⟩
  · exact ⟨by simp; omega, by simp [h.wrapped]; omega, hcells⟩

theorem foldl_kputchar (hinactive : k.klogActive = false) (l : List ℕ) (out : List UInt8) :
    l.foldl (fun s i => kputchar s (s.1.klogBuffer i)) (k, out) =
      (k, out ++ l.map k.klogBuffer) := by
  induction l generalizing out with
  | nil => simp
  | cons i l ih =>
    have hputc (c : UInt8) : klogPutc k c = k := by simp [klogPutc, hinactive]
    rw [List.foldl_cons, kputchar, hputc, ih]
    simp

theorem klogDump_eq (k : Klog) : klogDump k = ({ k with klogActive := true },
    ((if k.klogWrapped then List.range' k.klogHead (65536 - k.klogHead) else []) ++
      List.range k.klogHead).map k.klogBuffer) := by
  rw [klogDump]
  split <;> simp [printFrom, foldl_kputchar, List.range_eq_range']

theorem Holds.dump (h : Holds k text) : (klogDump k).2 = text.drop (text.length - 65536) := by
  have hhead := h.head
  rw [klogDump_eq, h.wrapped]
  refine List.ext_getElem ?_ fun i hi hi' => ?_
  · by_cases hfull : 65536 ≤ text.length <;> simp [hfull] <;> omega
  · rw [List.getElem_map, List.getElem_drop, ← h.cells _ (by simp at hi'; omega) (by omega)]
    congr 1
    by_cases hfull : 65536 ≤ text.length
    · simp only [hfull, decide_true, if_true, List.getElem_append, List.getElem_range',
        List.getElem_range]
      simp [hfull] at hi
      split <;> simp at * <;> omega
    · simp [hfull] at hi ⊢
      omega

theorem holds_run (k : Klog) (calls : List Call) : Holds (run k calls).1 (run k calls).2 := by
  have hinit : Holds (klogInit k) [] := ⟨rfl, rfl, nofun⟩
  refine List.foldlRecOn (motive := fun s => Holds s.1 s.2)
    (b := (klogInit k, [])) calls record hinit ?_
  intro s h call _
  cases call with
  | putc c =>
    by_cases hactive : s.1.klogActive = true
    · simpa [record, step, hactive] using h.putc hactive c
    · simpa [record, step, klogPutc, hactive] using h
  | stopRecording => exact ⟨h.head, h.wrapped, h.cells⟩
  | dump =>
    simp only [record, step, klogDump_eq]
    exact ⟨h.head, h.wrapped, h.cells⟩

/-- A dump prints the end of the text recorded so far and keeps the log, but always leaves the
recording on. -/
theorem klog_dump_latest (k : Klog) (calls : List Call) :
    let s : Klog × List UInt8 := run k calls
    (klogDump s.1).2 = s.2.drop (s.2.length - 65536) ∧ (klogDump s.1).1 =
      { s.1 with klogActive := true } ∧ (s.1.klogActive = true → (klogDump s.1).1 = s.1) := by
  intro s
  refine ⟨(holds_run k calls).dump, by rw [klogDump_eq], fun hactive => ?_⟩
  rw [klogDump_eq, ← hactive]

theorem klog_dump_latest_one : (klogDump (run ⟨fun _ => 0, 0, false, false⟩ [.putc 65]).1).1 =
    (run ⟨fun _ => 0, 0, false, false⟩ [.putc 65]).1 :=
  (klog_dump_latest ⟨fun _ => 0, 0, false, false⟩ [.putc 65]).2.2 rfl

theorem dump_resumes_recording :
    (run ⟨fun _ => 0, 0, false, false⟩ [.stopRecording]).1.klogActive = false ∧
    (run ⟨fun _ => 0, 0, false, false⟩ [.stopRecording, .dump]).1.klogActive = true := ⟨rfl, rfl⟩

end NexusKernel.KernelLog
