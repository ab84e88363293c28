import Mathlib.Algebra.BigOperators.Group.Finset.Sigma
import Mathlib.Order.CompletePartialOrder

/-!
Trees of tables stored in pages. An entry of an upper table leads to a table one level down or to
nothing; the entries of the lowest tables are the leaves, named by the indices on the way. A tree
is given by its level, the page of its root and the number of its root entries.

The pages a tree occupies, its leaves and the condition that no page is used twice depend only on
the contents of the occupied pages.
-/

namespace NexusKernel.Lib.TableTree

abbrev Store (E : Type*) := ℕ → ℕ → E

/-- How entries are read: a lower table has `fanout` entries, a missing leaf is `blank`, `next` is
the table of an upper entry. -/
structure Format (E : Type*) where
  fanout : ℕ
  blank : E
  next : E → Option ℕ
  next_blank : next blank = none

variable {E : Type*} (F : Format E)

def leafAt (ram : Store E) : ℕ → List ℕ → E
  | _, [] => F.blank
  | p, [i] => ram p i
  | p, i :: j :: rest =>
      match F.next (ram p i) with
      | none => F.blank
      | some q => leafAt ram q (j :: rest)

def missing (ram : Store E) : ℕ → List ℕ → ℕ
  | _, [] => 0
  | _, [_] => 0
  | p, i :: j :: rest =>
      match F.next (ram p i) with
      | none => rest.length + 1
      | some q => missing ram q (j :: rest)

def stems : List ℕ → Finset (List ℕ)
  | [] => ∅
  | [_] => ∅
  | i :: j :: rest => insert [i] ((stems (j :: rest)).image (List.cons i))

def lacking (ram : Store E) : ℕ → List ℕ → Finset (List ℕ)
  | _, [] => ∅
  | _, [_] => ∅
  | p, i :: j :: rest =>
      match F.next (ram p i) with
      | none => stems (i :: j :: rest)
      | some q => (lacking ram q (j :: rest)).image (List.cons i)

/-- Two ways of reading agree on the way to a leaf: where `F` finds no table, nor does `G`. -/
def Unblocked (F G : Format E) (ram : Store E) : ℕ → List ℕ → Prop
  | _, [] => True
  | _, [_] => True
  | p, i :: j :: rest =>
      (F.next (ram p i) = none → G.next (ram p i) = none) ∧
        ∀ q, F.next (ram p i) = some q → Unblocked F G ram q (j :: rest)

def paths : ℕ → ℕ → Finset (List ℕ)
  | 0, w => (Finset.range w).image (fun i => [i])
  | n + 1, w => (Finset.range w).biUnion (fun i => (paths n F.fanout).image (List.cons i))

def tables (ram : Store E) : ℕ → ℕ → ℕ → Set ℕ
  | 0, _, p => {p}
  | n + 1, w, p =>
      {q | q = p ∨ ∃ i r, i < w ∧ F.next (ram p i) = some r ∧ q ∈ tables ram n F.fanout r}

def Proper (Good : E → Prop) (ram : Store E) : ℕ → ℕ → ℕ → Prop
  | 0, _, _ => True
  | n + 1, w, p =>
      (∀ i r, i < w → F.next (ram p i) = some r →
        Good (ram p i) ∧ p ∉ tables F ram n F.fanout r ∧ Proper Good ram n F.fanout r) ∧
      (∀ i j r t, i < w → j < w → i ≠ j → F.next (ram p i) = some r → F.next (ram p j) = some t →
        Disjoint (tables F ram n F.fanout r) (tables F ram n F.fanout t))

variable {F} {ram ram' : Store E} {Good : E → Prop} {n w p : ℕ}

variable {G : Format E} {l : List ℕ} {v q r j : ℕ}

theorem mem_paths_zero : l ∈ paths F 0 w ↔ ∃ i, i < w ∧ l = [i] := by
  simp [paths, eq_comm]

theorem mem_paths_succ : l ∈ paths F (n + 1) w ↔ ∃ i r, i < w ∧ r ∈ paths F n F.fanout ∧
    l = i :: r := by
  simp [paths, eq_comm]

theorem paths_ne_nil (h : l ∈ paths F n w) : l ≠ [] := by
  cases n with
  | zero =>
    obtain ⟨i, _, rfl⟩ := mem_paths_zero.mp h
    simp
  | succ n =>
    obtain ⟨i, r, _, _, rfl⟩ := mem_paths_succ.mp h
    simp

theorem length_of_mem_paths (h : l ∈ paths F n w) : l.length = n + 1 := by
  induction n generalizing w l with
  | zero =>
    obtain ⟨i, _, rfl⟩ := mem_paths_zero.mp h
    rfl
  | succ n ih =>
    obtain ⟨i, r, _, hr, rfl⟩ := mem_paths_succ.mp h
    rw [List.length_cons, ih hr]

theorem paths_mono (hw : w ≤ v) : paths F n w ⊆ paths F n v := by
  intro l hl
  cases n with
  | zero =>
    obtain ⟨i, hi, heq⟩ := mem_paths_zero.mp hl
    exact mem_paths_zero.mpr ⟨i, by omega, heq⟩
  | succ n =>
    obtain ⟨i, r, hi, hr, heq⟩ := mem_paths_succ.mp hl
    exact mem_paths_succ.mpr ⟨i, r, by omega, hr, heq⟩

section

variable (hl : l ≠ [])
include hl

/-- Below an upper entry the walk continues in the table it leads to. -/
theorem leafAt_cons (i : ℕ) : leafAt F ram p (i :: l) = match F.next (ram p i) with
    | none => F.blank
    | some q => leafAt F ram q l := by
  cases l with
  | nil => exact absurd rfl hl
  | cons j rest => rfl

variable {i : ℕ}

theorem leafAt_cons_some (hq : F.next (ram p i) = some q) :
    leafAt F ram p (i :: l) = leafAt F ram q l := by
  rw [leafAt_cons hl, hq]

theorem leafAt_cons_none (hq : F.next (ram p i) = none) : leafAt F ram p (i :: l) = F.blank := by
  rw [leafAt_cons hl, hq]

theorem missing_cons_some (hq : F.next (ram p i) = some q) :
    missing F ram p (i :: l) = missing F ram q l := by
  cases l with
  | nil => exact absurd rfl hl
  | cons j rest => simp only [missing, hq]

theorem missing_cons_none (hq : F.next (ram p i) = none) : missing F ram p (i :: l) = l.length := by
  cases l with
  | nil => exact absurd rfl hl
  | cons j rest => simp [missing, hq]

theorem stems_cons (i : ℕ) : stems (i :: l) = insert [i] ((stems l).image (List.cons i)) := by
  cases l with
  | nil => exact absurd rfl hl
  | cons j rest => rfl

end

theorem nil_notMem_stems (l : List ℕ) : [] ∉ stems l := by
  match l with
  | [] | [_] => exact Finset.notMem_empty _
  | i :: j :: rest => simp [stems]

theorem card_stems (l : List ℕ) : (stems l).card = l.length - 1 := by
  induction l with
  | nil => rfl
  | cons i rest ih =>
    by_cases hrest : rest = []
    · subst rest
      rfl
    · have hpos := List.length_pos_of_ne_nil hrest
      have hnot : [i] ∉ (stems rest).image (List.cons i) := by
        simpa using nil_notMem_stems rest
      rw [stems_cons hrest, Finset.card_insert_of_notMem hnot, Finset.card_image_of_injective _
        (List.cons_injective), List.length_cons]
      omega

theorem lacking_cons (hl : l ≠ []) (i : ℕ) : lacking F ram p (i :: l) = match F.next (ram p i) with
    | none => stems (i :: l)
    | some q => (lacking F ram q l).image (List.cons i) := by
  cases l with
  | nil => exact absurd rfl hl
  | cons j rest => rfl

theorem lacking_cons_some (hl : l ≠ []) (hq : F.next (ram p i) = some q) :
    lacking F ram p (i :: l) = (lacking F ram q l).image (List.cons i) := by
  rw [lacking_cons hl, hq]

theorem lacking_cons_none (hl : l ≠ []) (hq : F.next (ram p i) = none) :
    lacking F ram p (i :: l) = stems (i :: l) := by
  rw [lacking_cons hl, hq]

theorem card_lacking (l : List ℕ) : (lacking F ram p l).card = missing F ram p l := by
  induction l generalizing p with
  | nil => rfl
  | cons i rest ih =>
    by_cases hrest : rest = []
    · subst rest
      rfl
    · cases hq : F.next (ram p i) with
      | none =>
        rw [lacking_cons_none hrest hq, missing_cons_none hrest hq, card_stems]
        rfl
      | some q =>
        rw [lacking_cons_some hrest hq, missing_cons_some hrest hq,
          Finset.card_image_of_injective _ (List.cons_injective), ih]

theorem head_of_mem_lacking {x : List ℕ} (hx : x ∈ lacking F ram p (i :: l)) : ∃ y, x = i :: y := by
  by_cases hl : l = []
  · subst l
    exact absurd hx (Finset.notMem_empty x)
  · cases hq : F.next (ram p i) with
    | none =>
      rw [lacking_cons_none hl hq, stems_cons hl, Finset.mem_insert, Finset.mem_image] at hx
      rcases hx with rfl | ⟨y, _, rfl⟩
      · exact ⟨[], rfl⟩
      · exact ⟨y, rfl⟩
    | some q =>
      rw [lacking_cons_some hl hq, Finset.mem_image] at hx
      obtain ⟨y, _, rfl⟩ := hx
      exact ⟨y, rfl⟩

theorem unblocked_cons (hl : l ≠ []) :
    Unblocked F G ram p (i :: l) ↔ (F.next (ram p i) = none → G.next (ram p i) = none) ∧
      ∀ q, F.next (ram p i) = some q → Unblocked F G ram q l := by
  cases l with
  | nil => exact absurd rfl hl
  | cons j rest => rfl

instance decidableUnblocked (F G : Format E) (ram : Store E) :
    ∀ p l, Decidable (Unblocked F G ram p l)
  | _, [] => isTrue trivial
  | _, [_] => isTrue trivial
  | p, i :: j :: rest =>
      match hnext : F.next (ram p i) with
      | none => decidable_of_iff (G.next (ram p i) = none) (by simp [Unblocked, hnext])
      | some q =>
          have := decidableUnblocked F G ram q (j :: rest)
          decidable_of_iff (Unblocked F G ram q (j :: rest)) (by simp [Unblocked, hnext])

theorem unblocked_cons_some (hl : l ≠ [])
    (hq : F.next (ram p i) = some q) : Unblocked F G ram p (i :: l) ↔ Unblocked F G ram q l := by
  rw [unblocked_cons hl]
  simp [hq]

theorem unblocked_cons_none (hF : F.next (ram p i) = none)
    (hG : G.next (ram p i) = none) : Unblocked F G ram p (i :: l) := by
  by_cases hl : l = []
  · subst l
    trivial
  · rw [unblocked_cons hl]
    exact ⟨fun _ => hG, fun q hq => absurd (hF.symm.trans hq) (by simp)⟩

theorem unblocked_refl (l : List ℕ) : Unblocked F F ram p l := by
  induction l generalizing p with
  | nil => trivial
  | cons i rest ih =>
    by_cases hrest : rest = []
    · subst rest
      trivial
    · rw [unblocked_cons hrest]
      exact ⟨id, fun q _ => ih⟩

/-- Summing over the leaves of a tree sums over its root entries. -/
theorem sum_paths_succ {M : Type*} [AddCommMonoid M] (g : List ℕ → M) :
    ∑ l ∈ paths F (n + 1) w, g l = ∑ i ∈ Finset.range w, ∑ l ∈ paths F n F.fanout, g (i :: l) := by
  rw [paths, Finset.sum_biUnion]
  · refine Finset.sum_congr rfl fun i _ => ?_
    rw [Finset.sum_image]
    intro a _ b _ hab
    exact List.cons.inj hab |>.2
  · intro i _ j _ hij
    rw [Function.onFun, Finset.disjoint_left]
    intro l hl hl'
    obtain ⟨a, _, rfl⟩ := Finset.mem_image.mp hl
    obtain ⟨b, _, hb⟩ := Finset.mem_image.mp hl'
    exact hij (List.cons.inj hb).1.symm

theorem sum_paths_zero {M : Type*} [AddCommMonoid M] (g : List ℕ → M) :
    ∑ l ∈ paths F 0 w, g l = ∑ i ∈ Finset.range w, g [i] := by
  rw [paths, Finset.sum_image]
  intro a _ b _ hab
  exact List.cons.inj hab |>.1

-- Paths are used through the lemmas above: unfolding them lists every index.
attribute [irreducible] paths

theorem root_mem_tables : p ∈ tables F ram n w p := by
  cases n with
  | zero => exact rfl
  | succ n => exact .inl rfl

theorem child_tables_subset (hi : i < w) (hr : F.next (ram p i) = some r) :
    tables F ram n F.fanout r ⊆ tables F ram (n + 1) w p := fun _ hq => .inr ⟨i, r, hi, hr, hq⟩

theorem tables_mono (hw : w ≤ v) : tables F ram n w p ⊆ tables F ram n v p := by
  intro q hq
  cases n with
  | zero => exact hq
  | succ n =>
    rcases hq with rfl | ⟨i, r, hi, hr, hq⟩
    · exact root_mem_tables
    · exact .inr ⟨i, r, by omega, hr, hq⟩

theorem Proper.mono (hw : w ≤ v) (h : Proper F Good ram n v p) : Proper F Good ram n w p := by
  cases n with
  | zero => trivial
  | succ n =>
    exact ⟨fun i r hi hr => h.1 i r (by omega) hr,
      fun i j r t hi hj hij hr ht => h.2 i j r t (by omega) (by omega) hij hr ht⟩

theorem Proper.imp {Good' : E → Prop} (hgood : ∀ e, Good e → Good' e)
    (h : Proper F Good ram n w p) : Proper F Good' ram n w p := by
  induction n generalizing w p with
  | zero => trivial
  | succ n ih =>
    refine ⟨fun i r hi hr => ?_, h.2⟩
    obtain ⟨he, hout, hproper⟩ := h.1 i r hi hr
    exact ⟨hgood _ he, hout, ih hproper⟩

def Agree (F : Format E) (ram ram' : Store E) : ℕ → ℕ → ℕ → Prop
  | 0, w, p => ∀ i, i < w → ram' p i = ram p i
  | n + 1, w, p =>
      (∀ i, i < w → ram' p i = ram p i) ∧
      ∀ i r, i < w → F.next (ram p i) = some r → ∀ q ∈ tables F ram n F.fanout r, ram' q = ram q

theorem agree_of_tables (h : ∀ q ∈ tables F ram n w p, ram' q = ram q) :
    Agree F ram ram' n w p := by
  have hroot : ∀ i < w, ram' p i = ram p i := fun i _ => congrFun (h p root_mem_tables) i
  cases n with
  | zero => exact hroot
  | succ n => exact ⟨hroot, fun i r hi hr q hq => h q (child_tables_subset hi hr hq)⟩

theorem Agree.mono (h : Agree F ram ram' n w p) (hv : v ≤ w) : Agree F ram ram' n v p := by
  cases n with
  | zero => exact fun i hi => h i (by omega)
  | succ n => exact ⟨fun i hi => h.1 i (by omega), fun i r hi => h.2 i r (by omega)⟩

theorem Agree.child (h : Agree F ram ram' (n + 1) w p) (hi : i < w)
    (hr : F.next (ram p i) = some r) : Agree F ram ram' n F.fanout r :=
  agree_of_tables (fun q hq => h.2 i r hi hr q hq)

section

variable (h : Agree F ram ram' n w p)
include h

theorem Agree.tables_eq : tables F ram' n w p = tables F ram n w p := by
  induction n generalizing w p with
  | zero => rfl
  | succ n ih =>
    ext q
    refine or_congr_right (exists_congr fun i => exists_congr fun r => and_congr_right fun hi => ?_)
    rw [h.1 i hi]
    refine and_congr_right fun hr => ?_
    rw [ih (h.child hi hr)]

variable {ram'' : Store E}

theorem Agree.trans (h' : Agree F ram' ram'' n w p) : Agree F ram ram'' n w p := by
  cases n with
  | zero => exact fun i hi => (h' i hi).trans (h i hi)
  | succ n =>
    refine ⟨fun i hi => (h'.1 i hi).trans (h.1 i hi), fun i r hi hr q hq => ?_⟩
    have hr' : F.next (ram' p i) = some r := by rwa [h.1 i hi]
    have hq' : q ∈ tables F ram' n F.fanout r := by rwa [(h.child hi hr).tables_eq]
    exact (h'.2 i r hi hr' q hq').trans (h.2 i r hi hr q hq)

theorem Agree.proper (hproper : Proper F Good ram n w p) : Proper F Good ram' n w p := by
  induction n generalizing w p with
  | zero => trivial
  | succ n ih =>
    constructor
    · intro i r hi hr
      rw [h.1 i hi] at hr ⊢
      obtain ⟨hgood, hout, hprop⟩ := hproper.1 i r hi hr
      refine ⟨hgood, ?_, ih (h.child hi hr) hprop⟩
      rwa [(h.child hi hr).tables_eq]
    · intro i j r t hi hj hij hr ht
      rw [h.1 i hi] at hr
      rw [h.1 j hj] at ht
      rw [(h.child hi hr).tables_eq, (h.child hj ht).tables_eq]
      exact hproper.2 i j r t hi hj hij hr ht

section

variable (hl : l ∈ paths F n w)
include hl

theorem Agree.leafAt_eq : leafAt F ram' p l = leafAt F ram p l := by
  induction n generalizing w p l with
  | zero =>
    obtain ⟨i, hi, rfl⟩ := mem_paths_zero.mp hl
    exact h i hi
  | succ n ih =>
    obtain ⟨i, r, hi, hr, rfl⟩ := mem_paths_succ.mp hl
    rw [leafAt_cons (paths_ne_nil hr), leafAt_cons (paths_ne_nil hr), h.1 i hi]
    cases hnext : F.next (ram p i) with
    | none => rfl
    | some q => exact ih (h.child hi hnext) hr

theorem Agree.lacking_eq : lacking F ram' p l = lacking F ram p l := by
  induction n generalizing w p l with
  | zero =>
    obtain ⟨i, _, rfl⟩ := mem_paths_zero.mp hl
    rfl
  | succ n ih =>
    obtain ⟨i, r, hi, hr, rfl⟩ := mem_paths_succ.mp hl
    have hne := paths_ne_nil hr
    rw [lacking_cons hne, lacking_cons hne, h.1 i hi]
    cases hnext : F.next (ram p i) with
    | none => rfl
    | some q => exact congrArg (Finset.image _) (ih (h.child hi hnext) hr)

theorem Agree.missing_eq : missing F ram' p l = missing F ram p l := by
  rw [← card_lacking, h.lacking_eq hl, card_lacking]

theorem Agree.unblocked_iff : Unblocked F G ram' p l ↔ Unblocked F G ram p l := by
  induction n generalizing w p l with
  | zero =>
    obtain ⟨i, _, rfl⟩ := mem_paths_zero.mp hl
    rfl
  | succ n ih =>
    obtain ⟨i, r, hi, hr, rfl⟩ := mem_paths_succ.mp hl
    have hne := paths_ne_nil hr
    rw [unblocked_cons hne, unblocked_cons hne, h.1 i hi]
    exact and_congr_right fun _ => forall₂_congr fun q hq => ih (h.child hi hq) hr

end

end

section

variable {i₀ c : ℕ} (honly : ∀ i r, F.next (ram p i) = some r → i = i₀ ∧ r = c)

include honly

theorem tables_only_child (hq : q ∈ tables F ram (n + 1) w p) :
    q = p ∨ q ∈ tables F ram n F.fanout c := by
  rcases hq with rfl | ⟨i, r, _, hr, hq⟩
  · exact .inl rfl
  · obtain ⟨_, rfl⟩ := honly i r hr
    exact .inr hq

theorem proper_only_child (hgood : Good (ram p i₀)) (hout : p ∉ tables F ram n F.fanout c)
    (h : Proper F Good ram n F.fanout c) : Proper F Good ram (n + 1) w p := by
  refine ⟨fun i r _ hr => ?_, fun i j r t _ _ hij hr ht => ?_⟩
  · obtain ⟨rfl, rfl⟩ := honly i r hr
    exact ⟨hgood, hout, h⟩
  · exact absurd ((honly i r hr).1.trans (honly j t ht).1.symm) hij

end

section

variable (hblank : ∀ i, i < w → ram p i = F.blank)

include hblank

theorem next_of_blank (hi : i < w) : F.next (ram p i) = none := by
  rw [hblank i hi, F.next_blank]

theorem tables_of_blank : tables F ram n w p = {p} := by
  cases n with
  | zero => rfl
  | succ n =>
    ext q
    refine or_iff_left ?_
    rintro ⟨i, r, hi, hr, _⟩
    cases (next_of_blank hblank hi).symm.trans hr

theorem proper_of_blank : Proper F Good ram n w p := by
  cases n with
  | zero => trivial
  | succ n =>
    have hnone : ∀ i r, i < w → F.next (ram p i) ≠ some r := by
      intro i r hi hr
      cases (next_of_blank hblank hi).symm.trans hr
    exact ⟨fun i r hi hr => absurd hr (hnone i r hi), fun i j r t hi _ _ hr _ => absurd hr
      (hnone i r hi)⟩

theorem leafAt_of_blank (hl : l ∈ paths F n w) : leafAt F ram p l = F.blank := by
  cases n with
  | zero =>
    obtain ⟨i, hi, rfl⟩ := mem_paths_zero.mp hl
    exact hblank i hi
  | succ n =>
    obtain ⟨i, r, hi, hr, rfl⟩ := mem_paths_succ.mp hl
    exact leafAt_cons_none (paths_ne_nil hr) (next_of_blank hblank hi)

theorem lacking_of_blank (hl : l ∈ paths F n w) : lacking F ram p l = stems l := by
  cases n with
  | zero =>
    obtain ⟨i, _, rfl⟩ := mem_paths_zero.mp hl
    rfl
  | succ n =>
    obtain ⟨i, r, hi, hr, rfl⟩ := mem_paths_succ.mp hl
    exact lacking_cons_none (paths_ne_nil hr) (next_of_blank hblank hi)

theorem missing_of_blank (hl : l ∈ paths F n w) : missing F ram p l = n := by
  rw [← card_lacking, lacking_of_blank hblank hl, card_stems, length_of_mem_paths hl,
    Nat.add_sub_cancel]

theorem unblocked_of_blank (hnext : G.next F.blank = none) (hl : l ∈ paths F n w) :
    Unblocked F G ram p l := by
  cases n with
  | zero =>
    obtain ⟨i, _, rfl⟩ := mem_paths_zero.mp hl
    trivial
  | succ n =>
    obtain ⟨i, r, hi, hr, rfl⟩ := mem_paths_succ.mp hl
    rw [unblocked_cons (paths_ne_nil hr), hblank i hi]
    refine ⟨fun _ => hnext, fun q hq => ?_⟩
    rw [F.next_blank] at hq
    simp at hq

end

theorem mem_paths_width : l ∈ paths F (n + 1) (w + 1) ↔
    l ∈ paths F (n + 1) w ∨ ∃ r ∈ paths F n F.fanout, l = w :: r := by
  simp only [mem_paths_succ, Nat.lt_succ_iff_lt_or_eq, or_and_right, exists_or]
  simp

theorem mem_tables_width : q ∈ tables F ram (n + 1) (w + 1) p ↔ q ∈ tables F ram (n + 1) w p ∨
    ∃ r, F.next (ram p w) = some r ∧ q ∈ tables F ram n F.fanout r := by
  simp only [tables, Set.mem_ofPred_eq, Nat.lt_succ_iff_lt_or_eq, or_and_right, exists_or]
  simp [or_assoc]

theorem tables_width_none (hnone : F.next (ram p w) = none) :
    tables F ram (n + 1) (w + 1) p = tables F ram (n + 1) w p := by
  ext q
  rw [mem_tables_width]
  simp [hnone]

/-- A proper tree stays proper when the next entry leads to nothing or to a proper tree apart from
it. -/
theorem Proper.extend (h : Proper F Good ram (n + 1) w p) (hlast : ∀ r, F.next (ram p w) = some r →
      Good (ram p w) ∧ Proper F Good ram n F.fanout r ∧
      Disjoint (tables F ram (n + 1) w p) (tables F ram n F.fanout r)) :
    Proper F Good ram (n + 1) (w + 1) p := by
  constructor
  · intro i r hi hr
    by_cases heq : i = w
    · subst i
      obtain ⟨hgood, hproper, hdisj⟩ := hlast r hr
      exact ⟨hgood, Set.disjoint_left.mp hdisj root_mem_tables, hproper⟩
    · exact h.1 i r (by omega) hr
  · intro i j r t hi hj hij hr ht
    by_cases hiw : i = w
    · subst i
      exact ((hlast r hr).2.2.mono_left (child_tables_subset (by omega) ht)).symm
    · by_cases hjw : j = w
      · subst j
        exact (hlast t ht).2.2.mono_left (child_tables_subset (by omega) hr)
      · exact h.2 i j r t (by omega) (by omega) hij hr ht

/-- In a proper tree the table behind an entry is apart from the earlier ones. -/
theorem Proper.last_disjoint (h : Proper F Good ram (n + 1) (w + 1) p)
    (hr : F.next (ram p w) = some r) :
    Disjoint (tables F ram (n + 1) w p) (tables F ram n F.fanout r) := by
  rw [Set.disjoint_left]
  intro q hq hqr
  rcases hq with rfl | ⟨i, t, hi, ht, hqt⟩
  · exact (h.1 w r (Nat.lt_succ_self w) hr).2.1 hqr
  · exact Set.disjoint_left.mp (h.2 i w t r (by omega) (by omega) (by omega) ht hr) hqt hqr

def outside (F : Format E) (ram : Store E) (n w p i : ℕ) : Set ℕ :=
  {q | q = p ∨ ∃ j d, j < w ∧ j ≠ i ∧ F.next (ram p j) = some d ∧ q ∈ tables F ram n F.fanout d}

/-- `ram'` differs from `ram` only in root entry `i` and in what is below it. -/
structure SameOutside (F : Format E) (ram ram' : Store E) (n w p i : ℕ) : Prop where
  root : ∀ j, j < w → j ≠ i → ram' p j = ram p j
  below : ∀ j d, j < w → j ≠ i → F.next (ram p j) = some d → ∀ q ∈ tables F ram n F.fanout d,
    ram' q = ram q

variable {i c : ℕ}

theorem outside_subset_tables : outside F ram n w p i ⊆ tables F ram (n + 1) w p := by
  intro q hq
  rcases hq with rfl | ⟨j, d, hj, _, hd, hq⟩
  · exact root_mem_tables
  · exact child_tables_subset hj hd hq

theorem mem_tables_branch (hi : i < w) (hc : F.next (ram p i) = some c) :
    q ∈ tables F ram (n + 1) w p ↔ q ∈ outside F ram n w p i ∨ q ∈ tables F ram n F.fanout c := by
  constructor
  · intro hq
    rcases hq with hq | ⟨j, d, hj, hd, hq⟩
    · exact .inl (.inl hq)
    · by_cases hji : j = i
      · subst j
        obtain rfl : c = d := Option.some.inj (hc.symm.trans hd)
        exact .inr hq
      · exact .inl (.inr ⟨j, d, hj, hji, hd, hq⟩)
  · intro hq
    rcases hq with hq | hq
    · exact outside_subset_tables hq
    · exact child_tables_subset hi hc hq

theorem tables_eq_outside (hnone : F.next (ram p i) = none) :
    tables F ram (n + 1) w p = outside F ram n w p i := by
  apply Set.Subset.antisymm _ outside_subset_tables
  intro q hq
  rcases hq with hq | ⟨j, d, hj, hd, hq⟩
  · exact .inl hq
  · have hji : j ≠ i := by
      intro heq
      rw [heq, hnone] at hd
      cases hd
    exact .inr ⟨j, d, hj, hji, hd, hq⟩

theorem Proper.disjoint_branch (h : Proper F Good ram (n + 1) w p) (hi : i < w)
    (hc : F.next (ram p i) = some c) :
    Disjoint (outside F ram n w p i) (tables F ram n F.fanout c) := by
  rw [Set.disjoint_left]
  intro q hq hqc
  rcases hq with rfl | ⟨j, d, hj, hji, hd, hq⟩
  · exact (h.1 i c hi hc).2.1 hqc
  · exact Set.disjoint_left.mp (h.2 j i d c hj hi hji hd hc) hq hqc

section

variable (hsame : SameOutside F ram ram' n w p i)

include hsame

theorem SameOutside.agree {d : ℕ} (hj : j < w) (hji : j ≠ i) (hd : F.next (ram p j) = some d) :
    Agree F ram ram' n F.fanout d := agree_of_tables (hsame.below j d hj hji hd)

theorem SameOutside.outside_eq : outside F ram' n w p i = outside F ram n w p i := by
  ext q
  refine or_congr_right (exists_congr fun j => exists_congr fun d =>
    and_congr_right fun hj => and_congr_right fun hji => ?_)
  rw [hsame.root j hj hji]
  refine and_congr_right fun hd => ?_
  rw [(hsame.agree hj hji hd).tables_eq]

/-- A new proper branch apart from the rest keeps the tree proper. -/
theorem SameOutside.proper (h : Proper F Good ram (n + 1) w p)
    (hbranch : ∀ c, F.next (ram' p i) = some c → Good (ram' p i) ∧ Proper F Good ram' n F.fanout c ∧
      Disjoint (outside F ram n w p i) (tables F ram' n F.fanout c)) :
    Proper F Good ram' (n + 1) w p := by
  have hapart : ∀ j d c, j < w → j ≠ i → F.next (ram p j) = some d → F.next (ram' p i) = some c →
      Disjoint (tables F ram' n F.fanout d) (tables F ram' n F.fanout c) := by
    intro j d c hj hji hd hc
    rw [(hsame.agree hj hji hd).tables_eq]
    exact (hbranch c hc).2.2.mono_left (fun q hq => Or.inr ⟨j, d, hj, hji, hd, hq⟩)
  constructor
  · intro j d hj hd
    by_cases hji : j = i
    · subst j
      obtain ⟨hgood, hproper, hdisj⟩ := hbranch d hd
      exact ⟨hgood, Set.disjoint_left.mp hdisj (Or.inl rfl), hproper⟩
    · rw [hsame.root j hj hji] at hd ⊢
      obtain ⟨hgood, hout, hproper⟩ := h.1 j d hj hd
      refine ⟨hgood, ?_, (hsame.agree hj hji hd).proper hproper⟩
      rwa [(hsame.agree hj hji hd).tables_eq]
  · intro j k d f hj hk hjk hd hf
    by_cases hji : j = i
    · subst j
      rw [hsame.root k hk (Ne.symm hjk)] at hf
      exact (hapart k f d hk (Ne.symm hjk) hf hd).symm
    · rw [hsame.root j hj hji] at hd
      by_cases hki : k = i
      · subst k
        exact hapart j d f hj hji hd hf
      · rw [hsame.root k hk hki] at hf
        rw [(hsame.agree hj hji hd).tables_eq, (hsame.agree hk hki hf).tables_eq]
        exact h.2 j k d f hj hk hjk hd hf

theorem SameOutside.leafAt_eq (hj : j < w) (hji : j ≠ i)
    (hl : l ∈ paths F n F.fanout) : leafAt F ram' p (j :: l) = leafAt F ram p (j :: l) := by
  have hne := paths_ne_nil hl
  rw [leafAt_cons hne, leafAt_cons hne, hsame.root j hj hji]
  cases hd : F.next (ram p j) with
  | none => rfl
  | some d => exact (hsame.agree hj hji hd).leafAt_eq hl

theorem SameOutside.trans (hsame' : SameOutside F ram' ram'' n w p i) :
    SameOutside F ram ram'' n w p i := by
  refine ⟨fun j hj hji => (hsame'.root j hj hji).trans (hsame.root j hj hji), ?_⟩
  intro j d hj hji hd q hq
  have hd' : F.next (ram' p j) = some d := by rwa [hsame.root j hj hji]
  have hq' : q ∈ tables F ram' n F.fanout d := by rwa [(hsame.agree hj hji hd).tables_eq]
  exact (hsame'.below j d hj hji hd' q hq').trans (hsame.below j d hj hji hd q hq)

/-- The ways to tables below other entries have nothing in common with those below entry `i`. -/
theorem SameOutside.lacking_eq {s : List ℕ} (hj : j < w) (hji : j ≠ i)
    (hl : l ∈ paths F n F.fanout) :
    lacking F ram' p (j :: l) = lacking F ram p (j :: l) \ lacking F ram p (i :: s) := by
  have hne := paths_ne_nil hl
  have hdisj : Disjoint (lacking F ram p (j :: l)) (lacking F ram p (i :: s)) := by
    rw [Finset.disjoint_left]
    intro x hx hx'
    obtain ⟨y, rfl⟩ := head_of_mem_lacking hx
    obtain ⟨y', heq⟩ := head_of_mem_lacking hx'
    exact hji (List.cons.inj heq).1
  rw [Finset.sdiff_eq_self_of_disjoint hdisj, lacking_cons hne, lacking_cons hne,
    hsame.root j hj hji]
  cases hd : F.next (ram p j) with
  | none => rfl
  | some d => exact congrArg (Finset.image _) ((hsame.agree hj hji hd).lacking_eq hl)

/-- Tables made below entry `i` are the only ones no longer lacking, whether the branch was there
before or is new. -/
theorem SameOutside.lacking_fill {c : ℕ} {s : List ℕ} (hs : s ∈ paths F n F.fanout)
    (hc : F.next (ram' p i) = some c) (hlow : ∀ k ∈ paths F n F.fanout, lacking F ram' c k =
      match F.next (ram p i) with
      | none => stems k \ stems s
      | some d => lacking F ram d k \ lacking F ram d s)
    {k : List ℕ} (hk : k ∈ paths F (n + 1) w) :
    lacking F ram' p k = lacking F ram p k \ lacking F ram p (i :: s) := by
  obtain ⟨j, t, hj, ht, rfl⟩ := mem_paths_succ.mp hk
  by_cases hji : j = i
  · subst j
    have hsne := paths_ne_nil hs
    have htne := paths_ne_nil ht
    rw [lacking_cons_some htne hc, hlow t ht]
    cases hd : F.next (ram p i) with
    | none =>
      have hnot : [i] ∉ (stems t).image (List.cons i) := by simpa using nil_notMem_stems t
      rw [lacking_cons_none htne hd, lacking_cons_none hsne hd, stems_cons htne, stems_cons hsne,
        Finset.image_sdiff _ _ List.cons_injective, Finset.insert_sdiff_insert,
          Finset.sdiff_insert_of_notMem hnot]
    | some d =>
      rw [lacking_cons_some htne hd, lacking_cons_some hsne hd,
        Finset.image_sdiff _ _ List.cons_injective]
  · exact hsame.lacking_eq hj hji ht

theorem SameOutside.unblocked_iff (hj : j < w) (hji : j ≠ i)
    (hl : l ∈ paths F n F.fanout) : Unblocked F G ram' p (j :: l) ↔
    Unblocked F G ram p (j :: l) := by
  have hne := paths_ne_nil hl
  rw [unblocked_cons hne, unblocked_cons hne, hsame.root j hj hji]
  exact and_congr_right fun _ =>
    forall₂_congr fun q hq => (hsame.agree hj hji hq).unblocked_iff hl

end

end NexusKernel.Lib.TableTree
