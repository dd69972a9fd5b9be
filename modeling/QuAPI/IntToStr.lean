import QuAPI.Memory
import QuAPI.Decimal

/-!
# Writing a number backwards

`int_to_str` of `runtime.c`: a number is written right-aligned into the front part of
a buffer, two digits at a time from a table, with a separate tail for the last one or
two digits and a sign patched in front. `QuAPI.intToStr_spec` is all the state
functions use of it: the buffer then holds the canonical decimal representation,
ending exactly where the given space ends.
-/

namespace QuAPI

/-! ### The conversion -/

/-- The table of the two-digit numbers. -/
def digits2Table : List Char :=
  ("0001020304050607080910111213141516171819" ++
   "2021222324252627282930313233343536373839" ++
   "4041424344454647484950515253545556575859" ++
   "6061626364656667686970717273747576777879" ++
   "8081828384858687888990919293949596979899").toList

/-- `digits2`: the two characters of a number below hundred. -/
def digits2 (value : ℕ) : List Char := slice digits2Table (value * 2) 2

/-- The loop of `int_to_str_`: while the number has three digits, its last two go in
front of what was written. The loop divides by hundred, so it runs out before its
counter `fuel` does when that starts at the number. -/
def intToStrLoop : ℕ → ℕ → ℕ → List Char → ℕ × ℕ × List Char
  | 0, i, out, b => (i, out, b)
  | fuel + 1, i, out, b =>
    if 100 ≤ i then
      intToStrLoop fuel (i / 100) (out - 2) (memcpy b (out - 2) (digits2 (i % 100)))
    else (i, out, b)

/-- `int_to_str_`: write a nonnegative number right-aligned into the first `size`
characters; the result is the offset of its first digit. -/
def intToStr_ (i : ℕ) (b : List Char) (size : ℕ) : ℕ × List Char :=
  let r := intToStrLoop i i size b
  if r.1 < 10 then (r.2.1 - 1, memcpy r.2.2 (r.2.1 - 1) [Char.ofNat ('0'.toNat + r.1)])
  else (r.2.1 - 2, memcpy r.2.2 (r.2.1 - 2) (digits2 r.1))

/-- `int_to_str`: the number with its sign. -/
def intToStr (i : ℤ) (b : List Char) (size : ℕ) : ℕ × List Char :=
  let r := intToStr_ i.natAbs b size
  if i < 0 then (r.1 - 1, memcpy r.2 (r.1 - 1) ['-']) else r


/-! ### What it writes -/

theorem digits2_eq_twoDigits : ∀ value < 100, digits2 value = twoDigits value := by
  decide +kernel

theorem singleton_digit : ∀ i < 10, [Char.ofNat ('0'.toNat + i)] = Nat.toDigits 10 i := by
  decide

@[simp] theorem length_twoDigits (n : ℕ) : (twoDigits n).length = 2 := rfl

/-- **The loop moves the low digits to the front of what was written**, and leaves a
number of at most two digits. -/
theorem intToStrLoop_eq {b : List Char} (fuel : ℕ) : ∀ (i out : ℕ) (s : List Char), i ≤ fuel →
    (Nat.toDigits 10 i).length ≤ out → out + s.length ≤ b.length →
    ∃ i' t, i' < 100 ∧ Nat.toDigits 10 i = Nat.toDigits 10 i' ++ t ∧
      intToStrLoop fuel i out (memcpy b out s) =
        (i', out - t.length, memcpy b (out - t.length) (t ++ s)) := by
  induction fuel with
  | zero =>
    intro i out s hi _ _
    exact ⟨i, [], by omega, by rw [List.append_nil], rfl⟩
  | succ fuel ih =>
    intro i out s hi hlen hout
    by_cases h : 100 ≤ i
    · have hsplit := toDigits_of_hundred_le h
      have htwo : digits2 (i % 100) = twoDigits (i % 100) :=
        digits2_eq_twoDigits _ (Nat.mod_lt _ (by norm_num))
      have hlen' : (Nat.toDigits 10 (i / 100)).length + 2 ≤ out := by
        have hl := congrArg List.length hsplit
        rw [List.length_append, length_twoDigits] at hl
        omega
      -- the two digits go right in front of what was written
      have hwrite : memcpy (memcpy b out s) (out - 2) (twoDigits (i % 100)) =
          memcpy b (out - 2) (twoDigits (i % 100) ++ s) := by
        have hmem := memcpy_prepend (b := b) (s := s) (t := twoDigits (i % 100)) (k := out - 2)
          (by rw [length_twoDigits]; omega)
        rwa [length_twoDigits, Nat.sub_add_cancel (by omega)] at hmem
      obtain ⟨i', t, hi', hdig, hrun⟩ := ih (i / 100) (out - 2) (twoDigits (i % 100) ++ s)
        (by omega) (by omega) (by rw [List.length_append, length_twoDigits]; omega)
      refine ⟨i', t ++ twoDigits (i % 100), hi', ?_, ?_⟩
      · rw [hsplit, hdig, List.append_assoc]
      · rw [intToStrLoop, if_pos h, htwo, hwrite, hrun, List.length_append, length_twoDigits,
          List.append_assoc, Nat.sub_sub, Nat.add_comm 2]
    · exact ⟨i, [], by omega, by rw [List.append_nil], by rw [intToStrLoop, if_neg h]; rfl⟩

/-- The digits are written right-aligned, and nothing else. -/
theorem intToStr_nat_eq {i size : ℕ} {b : List Char} (hlen : (Nat.toDigits 10 i).length ≤ size)
    (hb : size ≤ b.length) :
    intToStr_ i b size = (size - (Nat.toDigits 10 i).length,
      memcpy b (size - (Nat.toDigits 10 i).length) (Nat.toDigits 10 i)) := by
  obtain ⟨i', t, hi', hdig, hrun⟩ := intToStrLoop_eq (b := b) i i size [] le_rfl hlen hb
  rw [memcpy_nil, List.append_nil] at hrun
  rw [hdig, List.length_append] at hlen
  -- the last one or two digits, in front of what the loop has written
  have hlast : memcpy (memcpy b (size - t.length) t)
      (size - t.length - (Nat.toDigits 10 i').length) (Nat.toDigits 10 i') =
        memcpy b (size - t.length - (Nat.toDigits 10 i').length) (Nat.toDigits 10 i' ++ t) := by
    have hmem := memcpy_prepend (b := b) (s := t) (t := Nat.toDigits 10 i')
      (k := size - t.length - (Nat.toDigits 10 i').length) (by omega)
    rwa [Nat.sub_add_cancel (by omega)] at hmem
  have hoff : size - (Nat.toDigits 10 i' ++ t).length =
      size - t.length - (Nat.toDigits 10 i').length := by
    rw [List.length_append]
    omega
  rw [hdig, hoff, ← hlast, intToStr_, hrun]
  by_cases h : i' < 10
  · -- one digit is left, and it is written by itself
    have hone : (Nat.toDigits 10 i').length = 1 := by
      rw [Nat.toDigits_of_lt_base h]
      rfl
    simp only [h, if_true]
    rw [singleton_digit i' h, hone]
  · have htwo : digits2 i' = Nat.toDigits 10 i' := by
      rw [digits2_eq_twoDigits i' hi', toDigits_of_lt_hundred (by omega) hi']
    have hl2 : (Nat.toDigits 10 i').length = 2 := by
      rw [toDigits_of_lt_hundred (by omega) hi', length_twoDigits]
    simp only [h, if_false]
    rw [htwo, hl2]

/-- **`int_to_str` writes the canonical decimal representation**, right-aligned into the given
space, and nothing else. -/
theorem intToStr_eq {i : ℤ} {size : ℕ} {b : List Char} (hlen : (decimal i).length ≤ size)
    (hb : size ≤ b.length) :
    intToStr i b size =
      (size - (decimal i).length, memcpy b (size - (decimal i).length) (decimal i)) := by
  by_cases h : i < 0
  · rw [decimal_of_neg h] at hlen ⊢
    rw [List.length_cons] at hlen
    have hmem := memcpy_prepend (b := b) (s := Nat.toDigits 10 i.natAbs) (t := ['-'])
      (k := size - ('-' :: Nat.toDigits 10 i.natAbs).length)
      (by rw [List.length_cons, List.length_singleton]; omega)
    have hoff : size - ('-' :: Nat.toDigits 10 i.natAbs).length + ['-'].length =
        size - (Nat.toDigits 10 i.natAbs).length := by
      rw [List.length_cons, List.length_singleton]
      omega
    rw [hoff] at hmem
    rw [intToStr, intToStr_nat_eq (by omega) hb]
    simp only [h, if_true]
    rw [Nat.sub_sub, ← List.length_cons, hmem]
    rfl
  · have h0 := decimal_of_nonneg (not_lt.mp h)
    rw [h0] at hlen ⊢
    rw [intToStr, intToStr_nat_eq hlen hb]
    simp only [h, if_false]

/-- The buffer then holds the number, ending where the given space ends. -/
theorem intToStr_spec {i : ℤ} {size : ℕ} {b : List Char} (hlen : (decimal i).length ≤ size)
    (hb : size ≤ b.length) :
    (intToStr i b size).1 + (decimal i).length = size ∧
      Holds (intToStr i b size).2 (intToStr i b size).1 (decimal i) ∧
      (intToStr i b size).2.length = b.length := by
  have hfit : size - (decimal i).length + (decimal i).length ≤ b.length := by omega
  rw [intToStr_eq hlen hb]
  exact ⟨Nat.sub_add_cancel hlen, holds_memcpy hfit, length_memcpy hfit⟩

end QuAPI
