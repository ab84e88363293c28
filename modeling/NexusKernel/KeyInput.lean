import Mathlib.Data.List.Basic

/-!
Input from the keyboard: the events made of USB reports (drivers/usb/usb_hid.c), and the line that
`tty0_read` (fs/devfs.c) edits and `fgets` of the C library reads byte by byte.
-/

namespace NexusKernel.KeyInput

inductive EventType where
  | keyPress
  | keyRelease
  | mouseMove
  | mouseButton
  | mouseScroll
deriving DecidableEq

structure InputEvent where
  type : EventType
  scancode : UInt8
  ascii : UInt8
  modifiers : UInt8
deriving DecidableEq

/-! ### Reports of a USB keyboard -/

structure Report where
  modifiers : UInt8
  keys : List UInt8

def hidAsciiNoshft : String :=
  "\x00\x00\x00\x00abcdefghijklmnopqrstuvwxyz1234567890\n\x1b\x08\t -=[]\\\x00;'`,./"

def hidAsciiShift : String :=
  "\x00\x00\x00\x00ABCDEFGHIJKLMNOPQRSTUVWXYZ!@#$%^&*()\n\x1b\x08\t _+\x7b\x7d|\x00:\"~<>?"

def hidKeycodeToAscii (keycode modifiers : UInt8) : UInt8 :=
  if 128 ≤ keycode then 0
  else
    let table := if modifiers &&& 0x22 ≠ 0 then hidAsciiShift else hidAsciiNoshft
    (table.toList.getD keycode.toNat '\x00').toUInt8

def flags (modifiers : UInt8) : UInt8 :=
  (if modifiers &&& 0x22 ≠ 0 then 1 else 0) ||| (if modifiers &&& 0x11 ≠ 0 then 2 else 0) |||
    (if modifiers &&& 0x44 ≠ 0 then 4 else 0)

def hidProcessKeyboard (prev report : Report) : List InputEvent :=
  ((report.keys.filter fun k => k ≠ 0 ∧ k < 128 ∧ k ∉ prev.keys).map fun k =>
    ⟨.keyPress, k, hidKeycodeToAscii k report.modifiers, flags report.modifiers⟩) ++
  (prev.keys.filter fun k => k ≠ 0 ∧ k ∉ report.keys).map fun k => ⟨.keyRelease, k, 0,
    flags report.modifiers⟩

def events : Report → List Report → List InputEvent
  | _, [] => []
  | prev, report :: reports => hidProcessKeyboard prev report ++ events report reports

def noKeys : Report := ⟨0, List.replicate 6 0⟩

def typesOf (key : UInt8) (events : List InputEvent) : List EventType :=
  (events.filter fun ev => ev.scancode = key).map (·.type)

/-- Presses and releases in turn: the key held or not, before and after an event. -/
def turn : Bool → EventType → Option Bool
  | false, .keyPress => some true
  | true, .keyRelease => some false
  | _, _ => none

/-- Each keycode stands in one slot and is below 128. -/
def Clean (report : Report) : Prop := ∀ key ∈ report.keys, key ≠ 0 → key < 128 ∧
    report.keys.count key = 1

variable {key : UInt8} {prev report : Report}

theorem typesOf_append (as bs : List InputEvent) :
    typesOf key (as ++ bs) = typesOf key as ++ typesOf key bs := by
  simp [typesOf]

theorem typesOf_map (type : EventType) (ascii : UInt8 → UInt8) (modifiers : UInt8)
    (keys : List UInt8) : typesOf key (keys.map fun k => ⟨type, k, ascii k, modifiers⟩) =
      List.replicate (keys.count key) type := by
  induction keys with
  | nil => rfl
  | cons k keys ih =>
    rcases eq_or_ne k key with rfl | hne
    · simpa [typesOf, List.replicate_succ] using ih
    · simpa [typesOf, hne] using ih

theorem Clean.count (h : Clean report) (hkey : key ≠ 0) :
    report.keys.count key = if key ∈ report.keys then 1 else 0 := by
  split
  · rename_i hmem
    exact (h key hmem hkey).2
  · rename_i hmem
    exact List.count_eq_zero.mpr hmem

theorem count_filter_eq (p : UInt8 → Bool) (keys : List UInt8) :
    (keys.filter p).count key = if p key then keys.count key else 0 := by
  split
  · rename_i hp
    exact List.count_filter hp
  · rename_i hp
    exact List.count_eq_zero.mpr fun hmem => hp (List.of_mem_filter hmem)

/-- One report turns each key at most once. -/
theorem turn_process (hkey : key ≠ 0) (h : Clean prev) (h' : Clean report) :
    (typesOf key (hidProcessKeyboard prev report)).foldlM turn (decide (key ∈ prev.keys)) =
      some (decide (key ∈ report.keys)) := by
  have hlow : key ∈ report.keys → key < 128 := fun hmem => (h' key hmem hkey).1
  rw [hidProcessKeyboard, typesOf_append, typesOf_map, typesOf_map, count_filter_eq,
    count_filter_eq, h.count hkey, h'.count hkey]
  by_cases hprev : key ∈ prev.keys <;> by_cases hnew :
    key ∈ report.keys <;> simp [hkey, hprev, hnew, hlow, turn]

theorem turn_events (hkey : key ≠ 0) (h : Clean prev) {reports : List Report}
    (hreports : ∀ r ∈ reports, Clean r) :
    (typesOf key (events prev reports)).foldlM turn (decide (key ∈ prev.keys)) =
      some (decide (key ∈ (reports.getLastD prev).keys)) := by
  induction reports generalizing prev with
  | nil => rfl
  | cons report reports ih =>
    rw [List.forall_mem_cons] at hreports
    rw [events, typesOf_append, List.foldlM_append, turn_process hkey h hreports.1,
      List.getLastD_cons]
    exact ih hreports.1 hreports.2

/-- The events of each key alternate, if no report lists a key twice or one from 128 on. Then the
key is held exactly if the last report lists it. -/
theorem usb_key_events_alternate (reports : List Report) (h : ∀ r ∈ reports, Clean r) (key : UInt8)
    (hkey : key ≠ 0) : (typesOf key (events noKeys reports)).foldlM turn false =
      some (decide (key ∈ (reports.getLastD noKeys).keys)) := by
  have hst : decide (key ∈ noKeys.keys) = false := by simp [noKeys, hkey]
  have hclean : Clean noKeys := fun k hk hne => absurd (List.eq_of_mem_replicate hk) hne
  rw [← hst]
  exact turn_events hkey hclean h

def threeReports : List Report :=
  [⟨0, [4, 0, 0, 0, 0, 0]⟩, ⟨2, [4, 5, 0, 0, 0, 0]⟩, ⟨0, [5, 0, 0, 0, 0, 0]⟩]

/-- Key 4 is pressed, held while key 5 is pressed, and released. -/
theorem usb_key_events_alternate_three :
    typesOf 4 (events noKeys threeReports) = [.keyPress, .keyRelease] ∧
      (typesOf 4 (events noKeys threeReports)).foldlM turn false = some false ∧
      (typesOf 5 (events noKeys threeReports)).foldlM turn false = some true := by
  have hclean : ∀ r ∈ threeReports, Clean r := by simp [threeReports, Clean]
  exact ⟨by decide, usb_key_events_alternate threeReports hclean 4 (by decide),
    usb_key_events_alternate threeReports hclean 5 (by decide)⟩

/-- The roll-over report counts as six presses of key 1, and as a release of the key held. -/
theorem rollover_report_makes_events :
    (events noKeys [⟨0, [4, 0, 0, 0, 0, 0]⟩, ⟨0, [1, 1, 1, 1, 1, 1]⟩]).map
      (fun ev => (ev.type, ev.scancode)) =
      (.keyPress, 4) :: List.replicate 6 (.keyPress, 1) ++ [(.keyRelease, 4)] := by
  decide

/-! ### Lines -/

/-- What a key means to `tty0_read`: 8 is backspace, 127 `KEY_DELETE`, 10 the newline. -/
inductive Key where
  | erase
  | newline
  | char (c : UInt8)
  | other
deriving DecidableEq

def keyOf (ev : InputEvent) : Key :=
  if ev.type = .keyPress ∧ ev.ascii ≠ 0 then
    if ev.ascii = 8 ∨ ev.ascii = 127 then .erase
    else if ev.ascii = 10 then .newline
    else if 32 ≤ ev.ascii ∧ ev.ascii ≤ 126 then .char ev.ascii
    else .other
  else .other

def edit (line : List UInt8) (ev : InputEvent) : List UInt8 :=
  match keyOf ev with
  | .erase => line.dropLast
  | .char c => line ++ [c]
  | _ => line

/-- The loop of `tty0_read`. The result is the line and the events left; without a result it still
polls. -/
def tty0Loop (sz : ℕ) : List InputEvent → List UInt8 → Option (List UInt8 × List InputEvent)
  | [], line => if line.length < sz then none else some (line, [])
  | ev :: events, line =>
      if line.length < sz then
        if keyOf ev = .newline then some (line ++ [10], events)
          else tty0Loop sz events (edit line ev)
      else some (line, ev :: events)

def tty0Read (sz : ℕ) (events : List InputEvent) : Option (List UInt8 × List InputEvent) :=
  tty0Loop sz events []

/-- The loop of `fgets`, `n` bytes to go. The string is `none` for NULL. -/
def fgetsLoop : ℕ → List InputEvent → List UInt8 → Option (Option (List UInt8) × List InputEvent)
  | 0, events, s => some (some s, events)
  | n + 1, events, s => (tty0Read 1 events).bind fun (bytes, events) =>
      match bytes with
      | [] => some (if s = [] then none else some s, events)
      | c :: _ => if c = 10 then some (some (s ++ [c]), events) else fgetsLoop n events (s ++ [c])

def fgets (size : ℕ) (events : List InputEvent) : Option (Option (List UInt8) × List InputEvent) :=
  if size = 0 then some (none, events) else fgetsLoop (size - 1) events []

/-- Until the line is full, an erasing key comes only while it is empty. -/
def Unerased (sz : ℕ) : List InputEvent → List UInt8 → Prop
  | [], _ => True
  | ev :: events, line =>
      sz ≤ line.length ∨ (keyOf ev = .erase → line = []) ∧ Unerased sz events (edit line ev)

/-- Both loops return, with the same line and the same events left exactly if `same` holds. If the
line has a newline, this is so for the line alone. -/
def Compared (sz n : ℕ) (events : List InputEvent) (line s : List UInt8) (same : Prop) : Prop :=
  ∃ line' left s' left', tty0Loop sz events line = some (line', left) ∧
    fgetsLoop n events s = some (some s', left') ∧ (s' = line' ∧ left' = left ↔ same) ∧
      (10 ∈ line' → (s' = line' ↔ same))

variable {sz n : ℕ} {ev enter : InputEvent} {events typed rest : List InputEvent}
variable {line s : List UInt8} {c : UInt8} {same : Prop}

theorem tty0Loop_full (h : sz ≤ line.length) (events : List InputEvent) :
    tty0Loop sz events line = some (line, events) := by
  cases events <;> exact if_neg (Nat.not_lt.mpr h)

theorem tty0Loop_next (hless : line.length < sz) (hev : keyOf ev ≠ .newline) :
    tty0Loop sz (ev :: events) line = tty0Loop sz events (edit line ev) :=
  (if_pos hless).trans (if_neg hev)

theorem char_ne_newline (h : keyOf ev = .char c) : c ≠ 10 := by
  grind [keyOf]

/-- `fgets` takes a character in a read of its own. -/
theorem fgetsLoop_char (h : keyOf ev = .char c) :
    fgetsLoop (n + 1) (ev :: events) s = fgetsLoop n events (s ++ [c]) := by
  have hread : tty0Read 1 (ev :: events) = some ([c], events) := by
    rw [tty0Read, tty0Loop_next (by simp) (by simp [h]), edit, h, tty0Loop_full (by simp)]
    rfl
  simp [fgetsLoop, hread, char_ne_newline h]

theorem fgetsLoop_skip (hev : keyOf ev ≠ .newline) (h : ∀ c, keyOf ev ≠ .char c) :
    fgetsLoop (n + 1) (ev :: events) s = fgetsLoop (n + 1) events s := by
  have hread : tty0Read 1 (ev :: events) = tty0Read 1 events := by
    rw [tty0Read, tty0Loop_next (by simp) hev, edit]
    cases hkey : keyOf ev with
    | char c => exact absurd hkey (h c)
    | _ => rfl
  simp only [fgetsLoop, hread]

/-- The step of both loops for a character, and for another key but the newline. -/
theorem Compared.char (hless : line.length < sz) (h : keyOf ev = .char c)
    (hrest : Compared sz n events (line ++ [c]) (s ++ [c]) same) :
    Compared sz (n + 1) (ev :: events) line s same := by
  rw [Compared, tty0Loop_next hless (by simp [h]), fgetsLoop_char h, edit, h]
  exact hrest

theorem Compared.skip (hless : line.length < sz) (hev : keyOf ev ≠ .newline)
    (h : ∀ c, keyOf ev ≠ .char c) (hrest : Compared sz (n + 1) events (edit line ev) s same) :
    Compared sz (n + 1) (ev :: events) line s same := by
  rw [Compared, tty0Loop_next hless hev, fgetsLoop_skip hev h]
  exact hrest

section

variable (henter : keyOf enter = .newline) (htyped : ∀ ev ∈ typed, keyOf ev ≠ .newline)
include henter

theorem Compared.newline (hless : line.length < sz) (h : line = s ↔ same) :
    Compared sz (n + 1) (enter :: rest) line s same := by
  refine ⟨_, rest, s ++ [10], rest, (if_pos hless).trans (if_pos henter), ?_, ?_, fun _ => ?_⟩
  · simp [fgetsLoop, tty0Read, tty0Loop, henter]
  · simpa [eq_comm] using h
  · simpa [eq_comm] using h

include htyped

variable (rest) in
theorem tty0Loop_shorter (hless : line.length < sz) :
    ∃ line' left, tty0Loop sz (typed ++ enter :: rest) line = some (line', left) ∧
      left.length < (typed ++ enter :: rest).length := by
  induction typed generalizing line with
  | nil => exact ⟨_, rest, (if_pos hless).trans (if_pos henter), by simp⟩
  | cons ev typed ih =>
    rw [List.forall_mem_cons] at htyped
    rw [List.cons_append, tty0Loop_next hless htyped.1]
    by_cases hfull : sz ≤ (edit line ev).length
    · exact ⟨_, _, tty0Loop_full hfull _, by simp⟩
    · obtain ⟨line', left, hloop, hshorter⟩ := ih htyped.2 (Nat.not_le.mp hfull)
      exact ⟨line', left, hloop, Nat.lt_succ_of_lt hshorter⟩

/-- Once `fgets` has all its bytes, a line not yet full becomes different. -/
theorem compared_of_spent (hless : line.length < sz) (hplain : 10 ∉ s) :
    Compared sz 0 (typed ++ enter :: rest) line s False := by
  obtain ⟨line', left, hloop, hleft⟩ := tty0Loop_shorter rest henter htyped hless
  refine ⟨line', left, s, _, hloop, rfl, iff_of_false ?_ id, fun hten => ?_⟩
  · rintro ⟨-, rfl⟩
    exact Nat.lt_irrefl _ hleft
  · exact iff_of_false (fun heq => hplain (heq ▸ hten)) id

/-- A line with a character fewer than `fgets` has read stays different. -/
theorem compared_of_shorter (hshort : line.length < s.length) (hroom : n + s.length = sz)
    (hplain : 10 ∉ s) : Compared sz n (typed ++ enter :: rest) line s False := by
  induction typed generalizing n line s with
  | nil =>
    cases n with
    | zero => exact compared_of_spent henter htyped (by omega) hplain
    | succ n =>
      exact .newline henter (by omega) (iff_of_false (fun heq => by simp [heq] at hshort) id)
  | cons ev typed ih =>
    cases n with
    | zero => exact compared_of_spent henter htyped (by omega) hplain
    | succ n =>
      rw [List.forall_mem_cons] at htyped
      cases hkey : keyOf ev with
      | char c =>
        refine .char (by omega) hkey (ih htyped.2 (by simpa using hshort) ?_ ?_)
        · simp only [List.length_append, List.length_singleton]
          omega
        · simpa [eq_comm] using ⟨hplain, char_ne_newline hkey⟩
      | _ =>
        refine .skip (by omega) htyped.1 (by simp [hkey]) (ih htyped.2 ?_ hroom hplain)
        simp only [edit, hkey, List.length_dropLast]
        omega

theorem compared_of_same (hroom : n + s.length = sz) (hplain : 10 ∉ s) :
    Compared sz n (typed ++ enter :: rest) s s (Unerased sz typed s) := by
  induction typed generalizing n s with
  | nil =>
    cases n with
    | zero =>
      exact ⟨s, _, s, _, tty0Loop_full (by omega) _, rfl, by simp [Unerased], by simp [Unerased]⟩
    | succ n => exact .newline henter (by omega) (by simp [Unerased])
  | cons ev typed ih =>
    rw [List.forall_mem_cons] at htyped
    cases n with
    | zero =>
      have hfull : sz ≤ s.length := by omega
      exact ⟨s, _, s, _, tty0Loop_full hfull _, rfl, by simp [Unerased, hfull],
        by simp [Unerased, hfull]⟩
    | succ n =>
      have hopen : ¬ sz ≤ s.length := by omega
      rw [Unerased, or_iff_right hopen]
      cases hkey : keyOf ev with
      | char c =>
        simp only [edit, hkey, reduceCtorEq, false_implies, true_and]
        refine .char (by omega) hkey (ih htyped.2 ?_ ?_)
        · simp only [List.length_append, List.length_singleton]
          omega
        · simpa [eq_comm] using ⟨hplain, char_ne_newline hkey⟩
      | erase =>
        -- The erasing key is harmless exactly if there is nothing to erase.
        by_cases hnil : s = []
        · refine .skip (by omega) htyped.1 (by simp [hkey]) ?_
          subst hnil
          simpa [edit, hkey] using ih htyped.2 hroom hplain
        · simp only [true_implies, hnil, false_and]
          refine .skip (by omega) htyped.1 (by simp [hkey]) ?_
          refine compared_of_shorter henter htyped.2 ?_ hroom hplain
          have hpos := List.length_pos_of_ne_nil hnil
          simp only [edit, hkey, List.length_dropLast]
          omega
      | _ =>
        have hsame : edit s ev = s := by rw [edit, hkey]
        simp only [hsame, reduceCtorEq, false_implies, true_and]
        refine .skip (by omega) htyped.1 (by simp [hkey]) ?_
        rw [hsame]
        exact ih htyped.2 hroom hplain

end

/-- For every line typed both reads return, with the same string and the same events left exactly
if no erasing key has a character to erase before the line is full. If the single read comes to the
newline, this is so for the strings alone. -/
theorem fgets_eq_tty0_read_iff (typed rest : List InputEvent) (enter : InputEvent) (size : ℕ)
    (henter : keyOf enter = .newline) (htyped : ∀ ev ∈ typed, keyOf ev ≠ .newline)
    (hsize : 0 < size) :
    ∃ line left s left', tty0Read (size - 1) (typed ++ enter :: rest) = some (line, left) ∧
      fgets size (typed ++ enter :: rest) = some (some s, left') ∧
      (s = line ∧ left' = left ↔ Unerased (size - 1) typed []) ∧
      (10 ∈ line → (s = line ↔ Unerased (size - 1) typed [])) := by
  rw [fgets, if_neg (by omega)]
  exact compared_of_same henter htyped rfl (by simp)

def press (c : UInt8) : InputEvent := ⟨.keyPress, 0, c, 0⟩

/-- A backspace before the first character is harmless. -/
theorem fgets_eq_tty0_read_iff_early : Unerased 79 [press 8, press 97] [] ∧
    ∃ line, tty0Read 79 [press 8, press 97, press 10] = some (line, []) ∧
      fgets 80 [press 8, press 97, press 10] = some (some line, []) := by
  have hkept : Unerased 79 [press 8, press 97] [] :=
    .inr ⟨fun _ => rfl, .inr ⟨fun h => absurd h (by decide), trivial⟩⟩
  obtain ⟨line, left, s, left', hread, hfgets, hsame, -⟩ :=
    fgets_eq_tty0_read_iff [press 8, press 97] [] (press 10) 80 rfl (by decide) (by decide)
  obtain ⟨rfl, rfl⟩ := hsame.mpr hkept
  have hrun : tty0Read 79 [press 8, press 97, press 10] = some ([97, 10], []) := by decide
  cases hread.symm.trans hrun
  exact ⟨hkept, [97, 10], hrun, hfgets⟩

/-- A read of one byte has returned the character before the backspace comes. -/
theorem backspace_comes_late : tty0Read 79 [press 97, press 8, press 10] = some ([10], []) ∧
    fgets 80 [press 97, press 8, press 10] = some (some [97, 10], []) := by
  decide

end NexusKernel.KeyInput
