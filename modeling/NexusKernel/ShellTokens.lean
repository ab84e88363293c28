import NexusKernel.Lib.CStrings

/-!
How the shell cuts a line into arguments. Their bytes are written one after the other into a
zeroed buffer, each closed by a zero, and `argv` holds where each begins. The loop ends with the
line, or as soon as sixteen arguments have begun.
-/

namespace NexusKernel.ShellTokens

open Lib.CStrings

structure Tokens where
  out : List UInt8
  argv : List ℕ
  quote : UInt8
  escaped : Bool
  inToken : Bool

def Tokens.begin (s : Tokens) : Tokens :=
  if s.inToken then s else { s with argv := s.argv ++ [s.out.length], inToken := true }

def Tokens.put (s : Tokens) (b : UInt8) : Tokens := { s with out := s.out ++ [b] }

def Tokens.close (s : Tokens) : Tokens := if s.inToken then { s.put 0 with inToken := false } else s

/-- The loop of `shell_execute`; backslash 92, quotes 34 and 39, blank 32, redirection 62. -/
def tokenize : List UInt8 → Tokens → Tokens
  | [], s => s
  | b :: rest, s =>
    if 16 ≤ s.argv.length then s
    else if s.escaped then tokenize rest { s.begin.put b with escaped := false }
    else if b = 92 ∧ s.quote ≠ 39 then tokenize rest { s with escaped := true }
    else if s.quote ≠ 0 then
      if b = s.quote then tokenize rest { s with quote := 0 } else tokenize rest (s.begin.put b)
    else if b = 34 ∨ b = 39 then tokenize rest { s with quote := b }.begin
    else if b = 32 then tokenize rest s.close
    else if b = 62 then
      let t := { s.close with argv := s.close.argv ++ [s.close.out.length] }.put b
      match rest with
      | 62 :: rest => tokenize rest ((t.put 62).put 0)
      | rest => tokenize rest (t.put 0)
    else tokenize rest (s.begin.put b)

def Tokens.strings (s : Tokens) : List (List UInt8) := s.argv.map fun i => cString (s.out.drop i)

def shellArgs (line : List UInt8) : List (List UInt8) :=
    (tokenize line ⟨[], [], 0, false, false⟩).strings

def escape (a : List UInt8) : List UInt8 := a.flatMap fun b => if b = 34 ∨ b = 92
    then [92, b] else [b]

def quoteArg (a : List UInt8) : List UInt8 := 34 :: escape a ++ [34]

def quoteLine : List (List UInt8) → List UInt8
  | [] => []
  | [a] => quoteArg a
  | a :: args => quoteArg a ++ 32 :: quoteLine args

variable {a out rest : List UInt8} {argv : List ℕ} {args done : List (List UInt8)}

theorem tokenize_escape (hargv : argv.length < 16) :
    tokenize (escape a ++ 34 :: rest) ⟨out, argv, 34, false, true⟩ = tokenize rest ⟨out ++ a, argv,
      0, false, true⟩ := by
  have hgo : ¬ 16 ≤ argv.length := by omega
  induction a generalizing out with
  | nil => simp [escape, tokenize, hgo]
  | cons b a ih =>
    have hput : tokenize (escape (b :: a) ++ 34 :: rest) ⟨out, argv, 34, false, true⟩ =
        tokenize (escape a ++ 34 :: rest) ⟨out ++ [b], argv, 34, false, true⟩ := by
      by_cases hb : b = 34 ∨ b = 92
      · simp [escape, hb, tokenize, hgo, Tokens.begin, Tokens.put]
      · rw [not_or] at hb
        simp [escape, hb, tokenize, hgo, Tokens.begin, Tokens.put]
    rw [hput, ih, List.append_assoc, List.singleton_append]

theorem tokenize_open (hargv : argv.length < 16) :
    tokenize (quoteArg a ++ rest) ⟨out, argv, 0, false, false⟩ =
    tokenize (escape a ++ 34 :: rest) ⟨out, argv ++ [out.length], 34, false, true⟩ := by
  simp [quoteArg, tokenize, Tokens.begin, show ¬ 16 ≤ argv.length by omega]

theorem tokenize_quoteArg (hargv : argv.length < 15) :
    tokenize (quoteArg a ++ rest) ⟨out, argv, 0, false, false⟩ =
    tokenize rest ⟨out ++ a, argv ++ [out.length], 0, false, true⟩ := by
  rw [tokenize_open (by omega),
    tokenize_escape (by rw [List.length_append, List.length_singleton]; omega)]

theorem tokenize_full {s : Tokens} (h : 16 ≤ s.argv.length) : tokenize rest s = s := by
  cases rest with
  | nil => rw [tokenize]
  | cons b rest => rw [tokenize, if_pos h]

theorem cString_of_not_mem (ha : 0 ∉ a) : cString a = a ∧ ∀ x, cString (a ++ 0 :: x) = a := by
  have hpos : ∀ b ∈ a, decide (b ≠ 0) = true :=
    fun b hb => decide_eq_true (ne_of_mem_of_not_mem hb ha)
  refine ⟨List.takeWhile_eq_self_iff.mpr hpos, fun x => ?_⟩
  rw [cString, List.takeWhile_append_of_pos hpos]
  simp

/-- The arguments in `done` are closed, so later writes do not change them. The sixteenth stays
empty. -/
theorem strings_quoteLine (hdone : ∀ x, (argv.map fun i => cString ((out ++ x).drop i)) = done)
    (hz : ∀ b ∈ a :: args, 0 ∉ b) (hlen : argv.length + args.length ≤ 15) :
    (tokenize (quoteLine (a :: args)) ⟨out, argv, 0, false, false⟩).strings =
      done ++ if argv.length + args.length = 15 then (a :: args).dropLast ++ [[]]
        else a :: args := by
  induction args generalizing a out argv done with
  | nil =>
    rw [quoteLine, ← List.append_nil (quoteArg a)]
    by_cases hlast : argv.length = 15
    · rw [tokenize_open (by omega), tokenize_full (by simp [hlast])]
      simpa [Tokens.strings, hlast, cString] using hdone []
    · rw [tokenize_quoteArg (by simp at hlen; omega), tokenize]
      simpa [Tokens.strings, hlast, (cString_of_not_mem (hz a List.mem_cons_self)).1] using hdone a
  | cons b args ih =>
    simp only [List.length_cons] at hlen ⊢
    have hclosed : ∀ x, ((argv ++ [out.length]).map fun i => cString
        ((out ++ a ++ [0] ++ x).drop i)) = done ++ [a] := by
      intro x
      have hkept := hdone (a ++ 0 :: x)
      simpa [(cString_of_not_mem (hz a List.mem_cons_self)).2] using hkept
    have hnext : tokenize (quoteLine (a :: b :: args)) ⟨out, argv, 0, false, false⟩ =
        tokenize (quoteLine (b :: args)) ⟨out ++ a ++ [0], argv ++ [out.length], 0,
          false, false⟩ := by
      rw [quoteLine, tokenize_quoteArg (by omega)]
      · simp [tokenize, Tokens.close, Tokens.put, show ¬ 15 ≤ argv.length by omega]
      · simp
    rw [hnext, ih hclosed (fun c hc => hz c (List.mem_cons_of_mem _ hc)) (by simp; omega)]
    simp only [List.length_append, List.length_singleton, Nat.add_assoc, Nat.add_comm 1]
    split_ifs <;> simp

/-- Quoting round-trips except for a sixteenth argument not empty. -/
theorem shellArgs_quoteLine_iff (args : List (List UInt8)) (hz : ∀ a ∈ args, 0 ∉ a)
    (hlen : args.length ≤ 16) :
    shellArgs (quoteLine args) = args ↔ (args.length = 16 → args.getLast? = some []) := by
  cases args with
  | nil => simp [shellArgs, quoteLine, tokenize, Tokens.strings]
  | cons a args =>
    rw [shellArgs, strings_quoteLine (fun _ => rfl) hz (by simp at hlen ⊢; omega)]
    have hend := List.dropLast_append_getLast (List.cons_ne_nil a args)
    have hlast : (a :: args).dropLast ++ [[]] = a :: args ↔
        (a :: args).getLast (List.cons_ne_nil a args) = [] := by
      constructor
      · intro h
        exact (List.singleton_inj.mp (List.append_cancel_left (h.trans hend.symm))).symm
      · intro h
        rwa [← h]
    rw [List.getLast?_eq_some_getLast (List.cons_ne_nil a args)]
    by_cases h16 : args.length = 15
    · simpa [h16] using hlast
    · simp [h16]

theorem shellArgs_quoteLine_blank : (∀ a ∈ [[32], []], (0 : UInt8) ∉ a) ∧
    shellArgs (quoteLine [[32], []]) = [[32], []] := by
  have hz : ∀ a ∈ [[32], []], (0 : UInt8) ∉ a := by decide
  exact ⟨hz, (shellArgs_quoteLine_iff _ hz (by decide)).mpr (by decide)⟩

theorem sixteenth_argument_lost : shellArgs (quoteLine (List.replicate 16 [97])) =
    List.replicate 15 [97] ++ [[]] := by
  decide +kernel

/-- The bytes written, with the zero still to close an argument, fit in `room`. -/
structure Tokens.Fits (s : Tokens) (room : ℕ) : Prop where
  bytes : s.out.length + s.inToken.toNat ≤ room
  slots : s.argv.length ≤ 16
  starts : ∀ i ∈ s.argv, i ≤ s.out.length

section

variable {s : Tokens} {room : ℕ} (h : s.Fits room)
include h

theorem Tokens.Fits.put (b : UInt8) : (s.put b).Fits (room + 1) := by
  have hbytes := h.bytes
  refine ⟨?_, h.slots, fun i hi => (h.starts i hi).trans (by simp [Tokens.put])⟩
  simp only [Tokens.put, List.length_append, List.length_singleton]
  omega

/-- The next argument starts at the next byte. -/
theorem Tokens.Fits.start (hslots : ¬ 16 ≤ s.argv.length) :
    Fits { s with argv := s.argv ++ [s.out.length] } room := by
  refine ⟨h.bytes, by simp; omega, fun i hi => ?_⟩
  rcases List.mem_append.mp hi with hi | hi
  · exact h.starts i hi
  · exact (List.mem_singleton.mp hi).le

theorem Tokens.Fits.begin (hslots : ¬ 16 ≤ s.argv.length) : s.begin.Fits (room + 1) := by
  have hbytes := h.bytes
  have hst := h.start hslots
  unfold Tokens.begin
  split
  · exact ⟨by omega, h.slots, h.starts⟩
  · exact ⟨by simp; omega, hst.slots, hst.starts⟩

theorem Tokens.Fits.close : s.close.Fits room ∧ s.close.argv = s.argv := by
  have hbytes := h.bytes
  unfold Tokens.close
  split
  · rename_i hopen
    exact ⟨⟨by simpa [Tokens.put, hopen] using hbytes, h.slots, (h.put 0).starts⟩, rfl⟩
  · exact ⟨h, rfl⟩

/-- A character takes at most two bytes: its own and the zero that closes its argument. -/
theorem tokenize_fits {total : ℕ} (hroom : room + 2 * rest.length ≤ total) :
    (tokenize rest s).Fits total := by
  fun_induction tokenize rest s generalizing room with
  | case1 s => exact ⟨h.bytes.trans hroom, h.slots, h.starts⟩
  | case2 b rest s => exact ⟨by have := h.bytes; omega, h.slots, h.starts⟩
  | case3 b rest s hslots _ ih =>
    have hput := (h.begin hslots).put b
    exact ih ⟨hput.bytes, hput.slots, hput.starts⟩ (by grind)
  | case4 b rest s _ _ _ ih | case5 rest s _ _ _ _ ih =>
    exact ih ⟨h.bytes, h.slots, h.starts⟩ (by grind)
  | case6 b rest s hslots _ _ _ _ ih => exact ih ((h.begin hslots).put b) (by grind)
  | case7 b rest s hslots _ _ _ _ ih =>
    exact ih (Tokens.Fits.begin ⟨h.bytes, h.slots, h.starts⟩ hslots) (by grind)
  | case8 rest s _ _ _ _ _ ih => exact ih h.close.1 (by grind)
  | case9 s hslots =>
    rename_i ih
    exact ih ((((h.close.1.start (h.close.2 ▸ hslots)).put 62).put 62).put 0) (by grind)
  | case10 s hslots =>
    rename_i ih
    exact ih (((h.close.1.start (h.close.2 ▸ hslots)).put 62).put 0) (by grind)
  | case11 b rest s hslots _ _ _ _ _ _ ih => exact ih ((h.begin hslots).put b) (by grind)

end

/-- The tokenizer stays inside `argv` and the `2 * strlen(line) + 1` bytes of `out`, which begins
cleared: `out` holds a zero at or behind the start of each argument. -/
theorem tokenizer_fits (line : List UInt8) :
    let s : Tokens := tokenize line ⟨[], [], 0, false, false⟩
    s.out.length + s.inToken.toNat ≤ 2 * line.length + 1 ∧ s.argv.length ≤ 16 ∧
      ∀ i ∈ s.argv, ∃ k, i ≤ k ∧ k < 2 * line.length + 1 ∧
        (s.out ++ List.replicate (2 * line.length + 1 - s.out.length) 0)[k]? = some 0 := by
  intro s
  have hnil : Tokens.Fits ⟨[], [], 0, false, false⟩ 0 := ⟨by simp, by simp, by simp⟩
  have h : s.Fits (2 * line.length) := tokenize_fits hnil (Nat.zero_add _).le
  have hbytes := h.bytes
  refine ⟨by omega, h.slots, fun i hi => ⟨2 * line.length, ?_, by omega, ?_⟩⟩
  · exact (h.starts i hi).trans (by omega)
  · rw [List.getElem?_append_right (by omega), List.getElem?_replicate_of_lt (by omega)]

end NexusKernel.ShellTokens
