import QuAPI.Runtime

/-!
# Numbers in the output buffer

The state functions that write a number with `int_to_str` patch it on both ends: a space in front,
and a newline behind a closing zero. They also give it different sizes of the 64-byte buffer.
`QuAPI.Printed` is what all of this comes to: the fragment ends where the space that was given
ends, it begins inside of the buffer, its length is `outbuf_len`, and no other byte is written.
There is one lemma for each of the state functions, and `QuAPI.numbers_exact` is all of them, with
the numerals that are canonical.
-/

namespace QuAPI

/-! ### How long a number is -/

theorem Lit.length_decimal_le (l : Lit) : (decimal l.val).length ≤ 11 :=
  QuAPI.length_decimal_le (by have := l.lower; omega) l.upper

theorem Lit.length_decimal_neg_le (l : Lit) : (decimal (-l.val)).length ≤ 11 :=
  (-l).length_decimal_le

theorem CInt.length_decimal_le (i : CInt) : (decimal i.1).length ≤ 11 :=
  QuAPI.length_decimal_le i.2.1 i.2.2

/-! ### The fragment -/

/-- **The fragment `s` has been written** into the buffer of `r`, up to the offset `stop`. -/
structure Printed (r r' : QuapiRuntime) (s : List Char) (stop : ℕ) : Prop where
  start : r'.outbuf + s.length = stop
  inside : stop ≤ outbufSize
  len : r'.outbufLen = s.length
  bytes : slice r'.outbufStack r'.outbuf s.length = s
  rest : r'.outbufStack = memcpy r.outbufStack r'.outbuf s

section

variable {r r' : QuapiRuntime} {s : List Char} {stop : ℕ} {i : ℤ}

theorem Printed.fits (h : Printed r r' s stop) (hsize : r.outbufStack.length = outbufSize) :
    r'.outbuf + s.length ≤ r.outbufStack.length := by
  rw [h.start, hsize]
  exact h.inside

theorem Printed.holds (h : Printed r r' s stop) (hsize : r.outbufStack.length = outbufSize) :
    Holds r'.outbufStack r'.outbuf s := by
  rw [h.rest]
  exact holds_memcpy (h.fits hsize)

theorem Printed.length (h : Printed r r' s stop) (hsize : r.outbufStack.length = outbufSize) :
    r'.outbufStack.length = outbufSize := by
  rw [h.rest, length_memcpy (h.fits hsize), hsize]

/-- The bytes that are written are those that are found. -/
theorem printed_of_memcpy (hsize : r.outbufStack.length = outbufSize)
    (hstart : r'.outbuf + s.length = stop) (hstop : stop ≤ outbufSize)
    (hlen : r'.outbufLen = s.length) (hrest : r'.outbufStack = memcpy r.outbufStack r'.outbuf s) :
    Printed r r' s stop := by
  refine ⟨hstart, hstop, hlen, ?_, hrest⟩
  rw [hrest]
  exact (holds_memcpy (by rw [hstart, hsize]; exact hstop)).slice

/-- A number with a space in front of it, right-aligned into `size` bytes. -/
theorem intToStr_space {b : List Char} {size : ℕ} (hi : (decimal i).length < size)
    (hb : size ≤ b.length) :
    (intToStr i b size).1 - 1 + (' ' :: decimal i).length = size ∧
      memcpy (intToStr i b size).2 ((intToStr i b size).1 - 1) [' '] =
        memcpy b ((intToStr i b size).1 - 1) (' ' :: decimal i) := by
  rw [intToStr_eq hi.le hb]
  constructor
  · rw [List.length_cons]
    omega
  · have hmem := memcpy_prepend (b := b) (s := decimal i) (t := [' '])
      (k := size - (decimal i).length - 1) (by rw [List.length_singleton]; omega)
    rwa [List.length_singleton, Nat.sub_add_cancel (by omega)] at hmem

/-- **A number with a space in front**, up to the end of the buffer. -/
theorem printed_printLit (hi : (decimal i).length ≤ 11)
    (hsize : r.outbufStack.length = outbufSize) :
    Printed r (r.printLit i) (' ' :: decimal i) outbufSize := by
  have hlt : (decimal i).length < outbufSize := hi.trans_lt (by decide)
  obtain ⟨hstart, hmem⟩ := intToStr_space hlt hsize.ge
  refine printed_of_memcpy hsize hstart le_rfl ?_ hmem
  change (outbufSize : ℤ) - ((intToStr i r.outbufStack outbufSize).1 - 1 : ℕ) = _
  omega

end

/-! ### The state functions -/

section

variable {r : QuapiRuntime} {l : Lit}

/-- `READING_EXISTS`, for another variable of the block. -/
theorem printed_readingExists (hsize : r.outbufStack.length = outbufSize) (hl : 0 < l.val) :
    Printed r (r.readingExists (.quantifier l)) (' ' :: decimal l.val) outbufSize := by
  obtain ⟨hstart, hstop, hlen, hbytes, hrest⟩ := printed_printLit l.length_decimal_le hsize
  rw [QuapiRuntime.readingExists]
  simp only [not_lt.mpr hl.le, hl, if_true, if_false]
  exact ⟨hstart, hstop, hlen, hbytes, hrest⟩

/-- `READING_FORALL`, for another variable of the block. -/
theorem printed_readingForall (hsize : r.outbufStack.length = outbufSize) (hl : l.val < 0) :
    Printed r (r.readingForall (.quantifier l)) (' ' :: decimal (-l.val)) outbufSize := by
  obtain ⟨hstart, hstop, hlen, hbytes, hrest⟩ := printed_printLit l.length_decimal_neg_le hsize
  rw [QuapiRuntime.readingForall]
  simp only [not_lt.mpr hl.le, hl, if_true, if_false]
  exact ⟨hstart, hstop, hlen, hbytes, hrest⟩

/-- `READING_CLAUSE`, for a literal: the last byte of the buffer is not used. -/
theorem printed_readingClause (hsize : r.outbufStack.length = outbufSize) (hl : l.val ≠ 0) :
    Printed r (r.readingClause (.literal l)) (' ' :: decimal l.val) (outbufSize - 1) := by
  have hlt : (decimal l.val).length < outbufSize - 1 := l.length_decimal_le.trans_lt (by decide)
  have hb : outbufSize - 1 ≤ r.outbufStack.length := by omega
  obtain ⟨hstart, hmem⟩ := intToStr_space hlt hb
  rw [QuapiRuntime.readingClause]
  simp only [hl, if_false]
  refine printed_of_memcpy hsize hstart (Nat.sub_le _ _) ?_ hmem
  change ((outbufSize - 1 : ℕ) : ℤ) - _ = _
  omega

/-- `READING_CLAUSE`, for a closing zero: its newline is the last byte of the buffer. -/
theorem printed_readingClause_zero (hsize : r.outbufStack.length = outbufSize) (hl : l.val = 0) :
    Printed r (r.readingClause (.literal l)) " 0\n".toList outbufSize := by
  have hlt : (decimal (0 : ℤ)).length < outbufSize - 1 := by decide
  have hb : outbufSize - 1 ≤ r.outbufStack.length := by omega
  obtain ⟨hstart, hmem⟩ := intToStr_space hlt hb
  rw [decimal_zero] at hstart hmem
  have hout : (intToStr 0 r.outbufStack (outbufSize - 1)).1 - 1 + 3 = outbufSize := by
    change _ + 2 = outbufSize - 1 at hstart
    omega
  rw [QuapiRuntime.readingClause]
  simp only [hl, if_true]
  refine printed_of_memcpy hsize hout le_rfl ?_ ?_
  · change ((outbufSize - 1 : ℕ) : ℤ) - _ + 1 = (3 : ℕ)
    omega
  · change memcpy (memcpy _ _ _) _ _ = memcpy _ _ ([' ', '0'] ++ ['\n'])
    rw [hmem, ← memcpy_append (by rw [hsize]; exact hout ▸ Nat.le_succ _)]
    congr 1

/-- `READING_MATRIX`, for the first literal of a clause. -/
theorem printed_readingMatrix (l : Lit) (hsize : r.outbufStack.length = outbufSize) :
    Printed r (r.readingMatrix (.literal l)) (decimal l.val) outbufSize := by
  have hle : (decimal l.val).length ≤ outbufSize := l.length_decimal_le.trans (by decide)
  have heq := intToStr_eq hle hsize.ge
  have hfit : outbufSize - (decimal l.val).length + (decimal l.val).length = outbufSize :=
    Nat.sub_add_cancel hle
  rw [QuapiRuntime.readingMatrix]
  simp only [heq]
  split
  all_goals
    refine printed_of_memcpy hsize hfit le_rfl ?_ rfl
    change (outbufSize : ℤ) - (outbufSize - (decimal l.val).length : ℕ) = _
    omega

end

/-- **Numbers are rendered exactly, and stay in the buffer.** For every literal above `INT32_MIN`
and every space that it fits into, `int_to_str` writes the canonical numeral so that it ends where
the space ends, and no other byte. Eleven bytes are always enough. Each of the four state functions
that use it leaves exactly its fragment in the 64-byte buffer, with the space and with the newline
of a closing zero: the fragment begins and ends inside of the buffer, and `outbuf_len` is the
number of its bytes. -/
theorem numbers_exact :
    (∀ (l : Lit) (b : List Char) (size : ℕ), (decimal l.val).length ≤ size → size ≤ b.length →
      Canonical l.val (decimal l.val) ∧ (decimal l.val).length ≤ 11 ∧
      (intToStr l.val b size).1 + (decimal l.val).length = size ∧
      (intToStr l.val b size).2 = memcpy b (intToStr l.val b size).1 (decimal l.val)) ∧
    ∀ r : QuapiRuntime, r.outbufStack.length = outbufSize → ∀ l : Lit,
      (0 < l.val →
        Printed r (r.readingExists (.quantifier l)) (' ' :: decimal l.val) outbufSize) ∧
      (l.val < 0 →
        Printed r (r.readingForall (.quantifier l)) (' ' :: decimal (-l.val)) outbufSize) ∧
      (l.val ≠ 0 →
        Printed r (r.readingClause (.literal l)) (' ' :: decimal l.val) (outbufSize - 1)) ∧
      (l.val = 0 → Printed r (r.readingClause (.literal l)) " 0\n".toList outbufSize) ∧
      Printed r (r.readingMatrix (.literal l)) (decimal l.val) outbufSize := by
  constructor
  · intro l b size hlen hb
    refine ⟨canonical_iff.mpr rfl, l.length_decimal_le, (intToStr_spec hlen hb).1, ?_⟩
    rw [intToStr_eq hlen hb]
  · intro r hsize l
    exact ⟨printed_readingExists hsize, printed_readingForall hsize, printed_readingClause hsize,
      printed_readingClause_zero hsize, printed_readingMatrix l hsize⟩

/-- The longest number there is, in a clause. -/
theorem longest_literal_printed :
    Printed quapiRuntimeInit
      (quapiRuntimeInit.readingClause (.literal (lit (-2147483647)))) " -2147483647".toList 63 ∧
    (quapiRuntimeInit.readingClause (.literal (lit (-2147483647)))).outbuf = 51 := by
  have hlit : (lit (-2147483647)).val ≠ 0 := by decide
  have hprinted := (numbers_exact.2 quapiRuntimeInit rfl (lit (-2147483647))).2.2.1 hlit
  have htext : ' ' :: decimal (lit (-2147483647)).val = " -2147483647".toList := by decide
  rw [htext] at hprinted
  exact ⟨hprinted, Nat.add_right_cancel hprinted.start⟩

end QuAPI
