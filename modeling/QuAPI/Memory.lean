import Mathlib.Data.List.Basic

/-!
# Character buffers

The small piece of C memory the runtime works with: a fixed buffer of
characters, written in place at an offset and read back as a slice. Nothing here
mentions a message or a solver.

The one notion the proofs use is `QuAPI.Holds`: the buffer holds a string at an
offset. Writing a string puts it there (`QuAPI.holds_memcpy`), and the two ways a
number is patched after it was written – with a character in front of it
(`QuAPI.memcpy_prepend`) and with one behind it (`QuAPI.memcpy_append`) – come to one
write. All of them ask that the write stays inside the buffer, and none of them
changes its length (`QuAPI.length_memcpy`).
-/

namespace QuAPI

/-! ### Writing and reading -/

/-- `memcpy(b + off, s, |s|)`: overwrite the characters of `b` from `off` on. -/
def memcpy (b : List Char) (off : ℕ) (s : List Char) : List Char :=
  b.take off ++ s ++ b.drop (off + s.length)

/-- The `len` characters of `b` from `off` on. -/
def slice (b : List Char) (off len : ℕ) : List Char := (b.drop off).take len

/-- `snprintf(b + off, size, …)` for a format that expands to `s`: at most
`size - 1` characters and a terminator are written, and the full length of `s` is
returned. -/
def snprintf (b : List Char) (off size : ℕ) (s : List Char) : ℕ × List Char :=
  (s.length, memcpy b off (s.take (size - 1) ++ ['\x00']))

theorem length_memcpy {b s : List Char} {off : ℕ} (h : off + s.length ≤ b.length) :
    (memcpy b off s).length = b.length := by
  simp only [memcpy, List.length_append, List.length_take, List.length_drop]
  omega

/-- Nothing is written. -/
theorem memcpy_nil (b : List Char) (off : ℕ) : memcpy b off [] = b := by
  rw [memcpy, List.append_nil, List.length_nil, Nat.add_zero, List.take_append_drop]

/-- Two writes, the second right in front of the first. -/
theorem memcpy_prepend {b s t : List Char} {k : ℕ} (h : k + t.length + s.length ≤ b.length) :
    memcpy (memcpy b (k + t.length) s) k t = memcpy b k (t ++ s) := by
  have hpre : (b.take (k + t.length)).length = k + t.length := by
    rw [List.length_take]
    omega
  have hfront : (memcpy b (k + t.length) s).take k = b.take k := by
    rw [memcpy, List.append_assoc, List.take_append_of_le_length (by omega), List.take_take,
      Nat.min_eq_left (Nat.le_add_right _ _)]
  have hback : (memcpy b (k + t.length) s).drop (k + t.length) =
      s ++ b.drop (k + t.length + s.length) := by
    rw [memcpy, List.append_assoc, List.drop_left' hpre]
  rw [memcpy, hfront, hback, memcpy, List.length_append, Nat.add_assoc, List.append_assoc,
    List.append_assoc, List.append_assoc]

/-- Two writes, the second right behind the first. -/
theorem memcpy_append {b s t : List Char} {k : ℕ} (h : k + s.length ≤ b.length) :
    memcpy (memcpy b k s) (k + s.length) t = memcpy b k (s ++ t) := by
  have hpre : (b.take k ++ s).length = k + s.length := by
    rw [List.length_append, List.length_take]
    omega
  have hback : (memcpy b k s).drop (k + s.length + t.length) =
      b.drop (k + (s ++ t).length) := by
    rw [memcpy, ← List.drop_drop, List.drop_left' hpre, List.drop_drop, List.length_append,
      Nat.add_assoc]
  rw [memcpy, hback, memcpy, List.take_left' hpre, memcpy, List.append_assoc (b.take k)]

/-! ### What a buffer holds -/

/-- **The buffer `b` holds the string `s` at offset `off`.** -/
def Holds (b : List Char) (off : ℕ) (s : List Char) : Prop :=
  ∃ pre post, b = pre ++ s ++ post ∧ pre.length = off

theorem Holds.slice {b s : List Char} {off : ℕ} (h : Holds b off s) :
    slice b off s.length = s := by
  obtain ⟨pre, post, rfl, rfl⟩ := h
  simp [QuAPI.slice]

/-- A suffix of what is held is held further on; this is how a fragment is read in
pieces. -/
theorem Holds.slice_drop {b s : List Char} {off k : ℕ} (h : Holds b off s)
    (hk : k ≤ s.length) (n : ℕ) :
    QuAPI.slice b (off + k) (min (s.length - k) n) = (s.drop k).take n := by
  obtain ⟨pre, post, rfl, rfl⟩ := h
  have hlen : s.length - k = (s.drop k).length := by simp
  rw [QuAPI.slice, List.append_assoc, ← List.drop_drop, List.drop_left,
    List.drop_append_of_le_length hk,
    List.take_append_of_le_length (by simp only [List.length_drop]; omega), hlen, Nat.min_comm,
    ← List.take_eq_take_min]

theorem Holds.length_le {b s : List Char} {off : ℕ} (h : Holds b off s) :
    off + s.length ≤ b.length := by
  obtain ⟨pre, post, rfl, rfl⟩ := h
  simp

theorem Holds.append_left {b s t : List Char} {off : ℕ} (h : Holds b off (s ++ t)) :
    Holds b off s := by
  obtain ⟨pre, post, rfl, rfl⟩ := h
  exact ⟨pre, t ++ post, by simp, rfl⟩

theorem holds_memcpy {b s : List Char} {off : ℕ} (h : off + s.length ≤ b.length) :
    Holds (memcpy b off s) off s :=
  ⟨b.take off, b.drop (off + s.length), rfl, by simp; omega⟩

/-- An expansion that fits is held in full after `snprintf`. -/
theorem holds_snprintf {b s : List Char} {off size : ℕ} (hs : s.length < size)
    (hb : off + size ≤ b.length) : Holds (snprintf b off size s).2 off s := by
  have htake : s.take (size - 1) = s := List.take_of_length_le (by omega)
  rw [snprintf, htake]
  exact (holds_memcpy (by simp; omega)).append_left

theorem length_snprintf {b s : List Char} {off size : ℕ} (hs : s.length < size)
    (hb : off + size ≤ b.length) : (snprintf b off size s).2.length = b.length := by
  have htake : s.take (size - 1) = s := List.take_of_length_le (by omega)
  rw [snprintf, htake]
  exact length_memcpy (by simp; omega)

end QuAPI
