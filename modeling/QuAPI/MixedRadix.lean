import Mathlib.Data.List.Lex
import Mathlib.Data.Nat.Bitwise
import Mathlib.Tactic.Ring

/-!
# Counting with places of different sizes

An odometer has a place for each of its radices, the first place being the most significant one.
It runs through the tuples below the radices in lexicographic order (`MixedRadix.tuples`), and the
number of its steps is the value of the tuple in the mixed radix
(`MixedRadix.tuples_eq_map_digits`). Its first place is not reset (`MixedRadix.digits`), so that
the end of the count can be read off it (`MixedRadix.head_digits_lt_iff`).

Numbers with a fixed number of bits, the most significant one first (`MixedRadix.bits`), are at
the end of the file.
-/

namespace MixedRadix

/-! ### Tuples -/

/-- The tuples with a component below each radix, in lexicographic order. -/
def tuples : List ℕ → List (List ℕ)
  | [] => [[]]
  | r :: rs => (List.range r).flatMap fun v => (tuples rs).map (v :: ·)

/-- The places of a counter with the value `k`. The first one is not bounded. -/
def digits : List ℕ → ℕ → List ℕ
  | [], _ => []
  | _ :: rs, k => k / rs.prod :: digits rs (k % rs.prod)

variable {rs vs vs' : List ℕ} {r k : ℕ}

theorem length_digits (rs : List ℕ) (k : ℕ) : (digits rs k).length = rs.length := by
  induction rs generalizing k with
  | nil => rfl
  | cons r rs ih => rw [digits, List.length_cons, ih, List.length_cons]

theorem digits_zero (rs : List ℕ) : digits rs 0 = List.replicate rs.length 0 := by
  induction rs with
  | nil => rfl
  | cons r rs ih => rw [digits, Nat.zero_div, Nat.zero_mod, ih, List.length_cons,
      List.replicate_succ]

theorem prod_pos (h : ∀ r ∈ rs, 0 < r) : 0 < rs.prod := by
  induction rs with
  | nil => exact Nat.one_pos
  | cons r rs ih =>
    rw [List.prod_cons]
    exact Nat.mul_pos (h r List.mem_cons_self) (ih fun s hs => h s (List.mem_cons_of_mem _ hs))

/-- The counter is below its last value as long as its first place is below the radix. -/
theorem head_digits_lt_iff (h : ∀ s ∈ rs, 0 < s) : k / rs.prod < r ↔ k < (r :: rs).prod := by
  rw [List.prod_cons]
  exact Nat.div_lt_iff_lt_mul (prod_pos h)

theorem mem_tuples : vs ∈ tuples rs ↔ List.Forall₂ (· < ·) vs rs := by
  induction rs generalizing vs with
  | nil =>
    rw [tuples, List.mem_singleton]
    constructor
    · rintro rfl
      exact .nil
    · rintro ⟨⟩
      rfl
  | cons r rs ih =>
    rw [tuples, List.mem_flatMap]
    constructor
    · rintro ⟨v, hv, hvs⟩
      obtain ⟨vs, hmem, rfl⟩ := List.mem_map.mp hvs
      exact .cons (List.mem_range.mp hv) (ih.mp hmem)
    · rintro (_ | ⟨hv, hvs⟩)
      exact ⟨_, List.mem_range.mpr hv, List.mem_map.mpr ⟨_, ih.mpr hvs, rfl⟩⟩

/-- **The tuples come in lexicographic order**, each of them once. -/
theorem pairwise_tuples (rs : List ℕ) : (tuples rs).Pairwise (· < ·) := by
  induction rs with
  | nil => exact List.pairwise_singleton _ _
  | cons r rs ih =>
    rw [tuples, List.pairwise_flatMap]
    constructor
    · intro v _
      rw [List.pairwise_map]
      exact ih.imp fun h => List.cons_lt_cons_self.mpr h
    · refine List.pairwise_lt_range.imp fun hlt => ?_
      intro vs hvs vs' hvs'
      obtain ⟨us, -, rfl⟩ := List.mem_map.mp hvs
      obtain ⟨us', -, rfl⟩ := List.mem_map.mp hvs'
      exact List.Lex.rel hlt

/-- **The counter runs through the tuples.** -/
theorem tuples_eq_map_digits (h : ∀ r ∈ rs, 0 < r) :
    tuples rs = (List.range rs.prod).map (digits rs) := by
  induction rs with
  | nil => rfl
  | cons r rs ih =>
    have hpos : 0 < rs.prod := prod_pos fun s hs => h s (List.mem_cons_of_mem _ hs)
    rw [tuples, ih fun s hs => h s (List.mem_cons_of_mem _ hs), List.prod_cons]
    clear ih h
    -- a last value of the first place, with all the tuples of the others
    induction r with
    | zero => simp
    | succ r ih =>
      rw [List.range_succ, List.flatMap_append, ih, Nat.succ_mul, List.range_add, List.map_append,
        List.flatMap_singleton, List.map_map, List.map_map]
      refine congrArg _ (List.map_congr_left ?_)
      intro i hi
      have hi' : i < rs.prod := List.mem_range.mp hi
      rw [Function.comp_apply, Function.comp_apply, digits, Nat.add_comm, Nat.add_mul_div_right _ _
        hpos, Nat.div_eq_of_lt hi', Nat.zero_add, Nat.add_mul_mod_self_right, Nat.mod_eq_of_lt hi']

/-! ### The last place -/

/-- **The last place of a counter** counts fastest. -/
theorem digits_append_singleton (hne : rs ≠ []) (r k : ℕ) :
    digits (rs ++ [r]) k = digits rs (k / r) ++ [k % r] := by
  induction rs generalizing k with
  | nil => exact absurd rfl hne
  | cons s rs ih =>
    have hprod : (rs ++ [r]).prod = r * rs.prod := by
      rw [List.prod_append, List.prod_singleton, Nat.mul_comm]
    rw [List.cons_append, digits, digits, hprod, ← Nat.div_div_eq_div_mul, List.cons_append]
    refine congrArg _ ?_
    -- the place in front of the last one, or one that has others behind it
    by_cases hnil : rs = []
    · subst hnil
      simp [digits]
    · rw [ih hnil, Nat.mod_mul_right_div_self, Nat.mod_mul_right_mod]

/-- A step that the last place takes alone. -/
theorem digits_succ_of_ne (hne : rs ≠ []) (hr : 0 < r) (h : k % r + 1 ≠ r) :
    digits (rs ++ [r]) (k + 1) = digits rs (k / r) ++ [k % r + 1] := by
  have hlt : k % r + 1 < r := lt_of_le_of_ne (Nat.mod_lt k hr) h
  -- there is no carry
  have hdiv : (k + 1) / r = k / r := by
    rw [Nat.succ_div, if_neg, Nat.add_zero]
    rw [Nat.dvd_iff_mod_eq_zero, ← Nat.mod_add_mod, Nat.mod_eq_of_lt hlt]
    exact Nat.succ_ne_zero _
  have hmod : (k + 1) % r = k % r + 1 := by rw [← Nat.mod_add_mod, Nat.mod_eq_of_lt hlt]
  rw [digits_append_singleton hne, hdiv, hmod]

/-- A step with a carry. -/
theorem digits_succ_of_eq (hne : rs ≠ []) (h : k % r + 1 = r) :
    digits (rs ++ [r]) (k + 1) = digits rs (k / r + 1) ++ [0] := by
  have hdvd : r ∣ k + 1 := by
    rw [Nat.dvd_iff_mod_eq_zero, ← Nat.mod_add_mod, h, Nat.mod_self]
  rw [digits_append_singleton hne, Nat.succ_div, if_pos hdvd, Nat.mod_eq_zero_of_dvd hdvd]

/-! ### Bits -/

/-- The lowest `w` bits of a number, the most significant one first. -/
def bits : ℕ → ℕ → List Bool
  | 0, _ => []
  | w + 1, v => v.testBit w :: bits w v

theorem length_bits (w v : ℕ) : (bits w v).length = w := by
  induction w with
  | zero => rfl
  | succ w ih => rw [bits, List.length_cons, ih]

theorem testBit_eq_of_bits_eq {w v v' : ℕ} (h : bits w v = bits w v') {i : ℕ} (hi : i < w) :
    v.testBit i = v'.testBit i := by
  induction w with
  | zero => exact absurd hi (Nat.not_lt_zero i)
  | succ w ih =>
    obtain ⟨hhead, htail⟩ := List.cons.inj h
    rcases Nat.lt_succ_iff_lt_or_eq.mp hi with hlt | rfl
    · exact ih htail hlt
    · exact hhead

/-- **A number that has `w` bits is known from them.** -/
theorem eq_of_bits_eq {w v v' : ℕ} (hv : v < 2 ^ w) (hv' : v' < 2 ^ w) (h : bits w v = bits w v') :
    v = v' := by
  refine Nat.eq_of_testBit_eq ?_
  intro i
  rcases lt_or_ge i w with hi | hi
  · exact testBit_eq_of_bits_eq h hi
  · have hle : 2 ^ w ≤ 2 ^ i := Nat.pow_le_pow_right (by omega) hi
    rw [Nat.testBit_eq_false_of_lt (hv.trans_le hle), Nat.testBit_eq_false_of_lt (hv'.trans_le hle)]

theorem bits_congr {w v v' : ℕ} (h : ∀ i < w, v.testBit i = v'.testBit i) :
    bits w v = bits w v' := by
  induction w with
  | zero => rfl
  | succ w ih =>
    rw [bits, bits, h w (Nat.lt_succ_self w), ih fun i hi => h i (Nat.lt_succ_of_lt hi)]

/-- **All bits are those of a number.** -/
theorem exists_bits (bs : List Bool) : ∃ v < 2 ^ bs.length, bits bs.length v = bs := by
  induction bs with
  | nil => exact ⟨0, Nat.one_pos, rfl⟩
  | cons b bs ih =>
    obtain ⟨v, hv, hbits⟩ := ih
    rw [List.length_cons, Nat.pow_succ]
    cases b with
    | false =>
      refine ⟨v, by omega, ?_⟩
      rw [bits, hbits, Nat.testBit_eq_false_of_lt hv]
    | true =>
      refine ⟨2 ^ bs.length + v, by omega, ?_⟩
      have hlow : bits bs.length (2 ^ bs.length + v) = bits bs.length v :=
        bits_congr fun i hi => Nat.testBit_two_pow_add_gt hi v
      rw [bits, hlow, hbits, Nat.testBit_two_pow_add_eq, Nat.testBit_eq_false_of_lt hv]
      rfl

end MixedRadix
