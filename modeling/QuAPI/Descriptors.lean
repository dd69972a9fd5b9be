import Mathlib.Data.List.AList

/-!
# Tables of descriptors

A process has a table that gives numbers to the files it has open. A fork copies the table, so
that a file may be open in several processes, and it may have several numbers in one of them. What
the others see of it, such as the end of what is written into a pipe, depends on who has it open
(`Descriptors.Table.Holds`).

The operations are those of the system calls: `Descriptors.openAll` at numbers that the caller has
been given, `Descriptors.closeAll`, and `Descriptors.dup2`. Each has one lemma, which says what is
open at a number behind it.
-/

namespace Descriptors

variable {F : Type*}

/-- A table: the files at the numbers that are in use. -/
abbrev Table (F : Type*) := AList fun _ : ℕ => F

/-- The file is open. -/
def Table.Holds (t : Table F) (f : F) : Prop := ∃ n : ℕ, t.lookup n = some f

/-- Files are opened, each at a number. -/
def openAll (t : Table F) (files : List (ℕ × F)) : Table F :=
  files.foldl (fun t x => t.insert x.1 x.2) t

/-- Numbers are closed. One that is not in use changes nothing. -/
def closeAll (t : Table F) (ns : List ℕ) : Table F := ns.foldl (fun t n => t.erase n) t

/-- `dup2`: a second number for a file, instead of what it stood for. -/
def dup2 (t : Table F) (old new : ℕ) : Table F :=
  match t.lookup old with
  | none => t
  | some f => t.insert new f

section

variable {t : Table F} {f g : F} {n m : ℕ}

theorem Table.holds_iff_mem : t.Holds f ↔ f ∈ t.entries.map Sigma.snd := by
  rw [Table.Holds, List.mem_map]
  constructor
  · rintro ⟨n, hn⟩
    exact ⟨⟨n, f⟩, AList.mem_lookup_iff.mp hn, rfl⟩
  · rintro ⟨⟨n, f⟩, hmem, rfl⟩
    exact ⟨n, AList.mem_lookup_iff.mpr hmem⟩

instance [DecidableEq F] (t : Table F) (f : F) : Decidable (t.Holds f) :=
  decidable_of_iff _ Table.holds_iff_mem.symm

theorem lookup_insert : (t.insert n f).lookup m = if m = n then some f else t.lookup m := by
  split
  case isTrue h =>
    subst h
    exact AList.lookup_insert t
  case isFalse h => exact AList.lookup_insert_ne h

theorem lookup_erase : (t.erase n).lookup m = if m = n then none else t.lookup m := by
  split
  case isTrue h =>
    subst h
    exact AList.lookup_erase m t
  case isFalse h => exact AList.lookup_erase_ne h

/-- **What is open behind a close.** -/
theorem lookup_closeAll (ns : List ℕ) :
    (closeAll t ns).lookup n = if n ∈ ns then none else t.lookup n := by
  induction ns generalizing t with
  | nil => exact (if_neg List.not_mem_nil).symm
  | cons m ns ih =>
    have hstep : closeAll t (m :: ns) = closeAll (t.erase m) ns := rfl
    rw [hstep, ih, lookup_erase]
    by_cases hns : n ∈ ns
    · rw [if_pos hns, if_pos (List.mem_cons_of_mem m hns)]
    · rw [if_neg hns]
      refine if_congr ?_ rfl rfl
      rw [List.mem_cons, or_iff_left hns]

/-- **What is open behind an opening**, at numbers that differ. -/
theorem lookup_openAll {files : List (ℕ × F)} (h : (files.map Prod.fst).Nodup) :
    (openAll t files).lookup n = some f ↔
      (n, f) ∈ files ∨ n ∉ files.map Prod.fst ∧ t.lookup n = some f := by
  induction files generalizing t with
  | nil => simp [openAll]
  | cons x files ih =>
    obtain ⟨m, g⟩ := x
    obtain ⟨hm, hrest⟩ := List.nodup_cons.mp h
    have hstep : openAll t ((m, g) :: files) = openAll (t.insert m g) files := rfl
    rw [hstep, ih hrest, lookup_insert, List.mem_cons, List.map_cons, List.mem_cons, not_or]
    by_cases hn : n = m
    · subst hn
      have hfree : (n, f) ∉ files := fun hmem => hm (List.mem_map.mpr ⟨_, hmem, rfl⟩)
      simp [hm, hfree, eq_comm]
    · simp [hn]

/-- **What is open behind a `dup2`** of a number in use. -/
theorem lookup_dup2 {old new : ℕ} (h : t.lookup old = some f) :
    (dup2 t old new).lookup n = if n = new then some f else t.lookup n := by
  rw [dup2, h]
  exact lookup_insert

end

end Descriptors
