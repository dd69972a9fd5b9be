import QuAPI.EndOfInput
import QuAPI.Matrix
import QuAPI.Quapify.Parse
import QuAPI.Rendering

/-!
# Rendering and parsing agree

What the runtime renders, `kissat_parse_dimacs` reads back. The two machines are followed
together, one message at a time: the encoder adds a fragment to the text, and the parser, which
has read what is in front of it, reads the fragment. A fragment may end with a number, and then
the parser does not know yet that the number is over: its callback is owed
(`QuAPI.Quapify.Decodes`).

The result is `QuAPI.Quapify.parse_rendered`: for every prefix in blocks, every list of clauses
that are not empty and every list of assumptions, the text that a child reads is accepted in all
three degrees of strictness, and what is reported is what was sent, the filler clauses included.
-/

namespace QuAPI

namespace Quapify

/-! ### Numerals -/

section

variable {bound n : ℕ} {ch : Char} {ds rest : List Char}

theorem le_ofDigitChars (ds : List Char) (n : ℕ) : n ≤ Nat.ofDigitChars 10 ds n := by
  induction ds generalizing n with
  | nil => rw [Nat.ofDigitChars_nil]
  | cons d ds ih =>
    rw [Nat.ofDigitChars_cons]
    exact le_trans (by omega) (ih _)

/-- A number below the bound takes the digit. -/
theorem pushDigit_of_le (h : n * 10 + digit ch ≤ bound) :
    pushDigit bound n ch = some (n * 10 + digit ch) := by
  have hten : ¬bound / 10 < n := by omega
  have hdigit : ¬bound - digit ch < n * 10 := by omega
  rw [pushDigit, if_neg hten, if_neg hdigit]

theorem pushDigit_of_ofDigitChars (h : Nat.ofDigitChars 10 (ch :: ds) n ≤ bound) :
    pushDigit bound n ch = some (10 * n + digit ch) ∧
      Nat.ofDigitChars 10 ds (10 * n + digit ch) ≤ bound := by
  rw [Nat.ofDigitChars_cons] at h
  have hle := (le_ofDigitChars ds (10 * n + digit ch)).trans h
  rw [mul_comm] at hle ⊢
  refine ⟨pushDigit_of_le hle, ?_⟩
  rw [mul_comm]
  exact h

/-- **The digits of a number of the header.** -/
theorem headerDigits_append {message : String} (hds : ∀ d ∈ ds, d.isDigit = true)
    (hch : ¬ch.isDigit = true) (h : Nat.ofDigitChars 10 ds n ≤ bound) :
    headerDigits bound message n (ds ++ ch :: rest) =
      .ok (Nat.ofDigitChars 10 ds n, ch :: rest) := by
  induction ds generalizing n with
  | nil => rw [List.nil_append, headerDigits, if_neg hch, Nat.ofDigitChars_nil]
  | cons d ds ih =>
    obtain ⟨hpush, hle⟩ := pushDigit_of_ofDigitChars h
    rw [List.cons_append, headerDigits, if_pos (hds d List.mem_cons_self), hpush,
      Nat.ofDigitChars_cons]
    exact ih (fun e he => hds e (List.mem_cons_of_mem _ he)) hle

/-- A numeral begins with a digit. -/
theorem toDigits_cons (n : ℕ) : ∃ d ds, Nat.toDigits 10 n = d :: ds ∧ d.isDigit = true ∧
    (∀ e ∈ ds, e.isDigit = true) ∧ Nat.ofDigitChars 10 ds (digit d) = n := by
  have hall : ∀ d ∈ Nat.toDigits 10 n, d.isDigit = true := fun d hd =>
    Nat.isDigit_of_mem_toDigits (by norm_num) (by norm_num) hd
  have hval : Nat.ofDigitChars 10 (Nat.toDigits 10 n) 0 = n := Nat.ofDigitChars_ten_toDigits
  cases hds : Nat.toDigits 10 n with
  | nil => exact absurd hds Nat.toDigits_ne_nil
  | cons d ds =>
    rw [hds] at hall hval
    rw [Nat.ofDigitChars_cons, Nat.mul_zero, Nat.zero_add] at hval
    exact ⟨d, ds, rfl, hall d List.mem_cons_self, fun e he => hall e (List.mem_cons_of_mem _ he),
      hval⟩

/-- **A number of the header is read.** -/
theorem headerNumber_decimal {missing message : String} {i : ℤ} (hi : 0 ≤ i)
    (hbound : i.toNat ≤ bound) (hch : ¬ch.isDigit = true) :
    headerNumber bound missing message (decimal i ++ ch :: rest) = .ok (i.toNat, ch :: rest) := by
  obtain ⟨d, ds, hds, hd, hall, hval⟩ := toDigits_cons i.natAbs
  have habs : i.natAbs = i.toNat := by omega
  rw [decimal_of_nonneg hi, hds, List.cons_append, headerNumber, if_pos hd,
    headerDigits_append hall hch (by omega), hval, habs]

end

/-! ### The header -/

theorem isDigit_ne {ch c : Char} (h : ch.isDigit = true) (hc : ¬c.isDigit = true) : ch ≠ c :=
  fun he => hc (he ▸ h)

theorem skipBlanks_cons {strict : Strictness} {ch : Char} {rest : List Char}
    (h : ch ≠ ' ' ∧ ch ≠ '\t') : skipBlanks strict (ch :: rest) = ch :: rest := by
  rw [skipBlanks]
  split
  · rfl
  · rw [List.dropWhile_cons_of_neg (by simp [h])]

/-- There is nothing to skip in front of a number. -/
theorem skipBlanks_decimal {strict : Strictness} {i : ℤ} (hi : 0 ≤ i) (rest : List Char) :
    skipBlanks strict (decimal i ++ rest) = decimal i ++ rest := by
  obtain ⟨d, ds, hds, hd, -⟩ := toDigits_cons i.natAbs
  rw [decimal_of_nonneg hi, hds, List.cons_append]
  exact skipBlanks_cons ⟨isDigit_ne hd (by decide), isDigit_ne hd (by decide)⟩

/-- **The header line is read**, in every mode. -/
theorem parseHeader_headerLine {strict : Strictness} {d : QuapiMsgHeaderData}
    (hl : 0 ≤ d.literals.1) (hc : 0 ≤ d.clauses.1) (body : List Char) :
    parseHeader strict (headerLine d ++ body) =
      .ok ⟨d.literals.1.toNat, d.clauses.1.toNat, body⟩ := by
  have hline : headerLine d ++ body = 'p' :: ' ' :: 'c' :: 'n' :: 'f' :: ' ' ::
      (decimal d.literals.1 ++ ' ' :: (decimal d.clauses.1 ++ '\n' :: body)) := by
    simp only [headerLine, List.cons_append, List.nil_append, List.append_assoc]
  have hlmax : d.literals.1.toNat ≤ maxVars := by
    have := d.literals.2
    rw [maxVars]
    omega
  have hcmax : d.clauses.1.toNat ≤ uint64Max := by
    have := d.clauses.2
    rw [uint64Max]
    omega
  have hcomment : ∀ text, commentLines strict true ('p' :: text) = .ok text := by
    intro text
    rw [commentLines.eq_def]
    rfl
  have hvars : headerNumber maxVars "expected digit after 'p cnf '" "maximum variable too large"
      (decimal d.literals.1 ++ ' ' :: (decimal d.clauses.1 ++ '\n' :: body)) = _ :=
    headerNumber_decimal hl hlmax (by decide)
  have hclauses : headerNumber uint64Max "expected number of clauses after maximum variable"
      "number of clauses too large" (decimal d.clauses.1 ++ '\n' :: body) = _ :=
    headerNumber_decimal hc hcmax (by decide)
  have hblank : ∀ text, skipBlanks strict ('c' :: text) = 'c' :: text := fun text =>
    skipBlanks_cons (by decide)
  have hend : ∀ text, skipBlanks strict ('\n' :: text) = '\n' :: text := fun text =>
    skipBlanks_cons (by decide)
  have hspace : ∀ text, carriageReturn (' ' :: text) = .ok (' ' :: text) := fun text => rfl
  have hline' : ∀ text, carriageReturn ('\n' :: text) = .ok ('\n' :: text) := fun text => rfl
  rw [parseHeader, hline, hcomment]
  simp only [bind, Except.bind, problemLine, expect, if_true, hblank, skipBlanks_decimal hl, hvars,
    skipBlanks_decimal hc, hclauses, hend, hspace, hline', reduceCtorEq, if_false, pure,
    Except.pure]
  exact if_neg (by simp)

/-! ### Reading a number of the body -/

/-- What comes behind calls. -/
def prepend (calls : List Callback) (x : Outcome) : Outcome := (calls ++ x.1, x.2)

theorem prepend_nil (x : Outcome) : prepend [] x = x := rfl

theorem prepend_append (c c' : List Callback) (x : Outcome) :
    prepend (c ++ c') x = prepend c (prepend c' x) := by
  rw [prepend, prepend, prepend, List.append_assoc]

theorem andThen_ok {s : BodyState} {calls : List Callback} {k : BodyState → Outcome} :
    andThen (.ok (s, calls)) k = prepend calls (k s) := rfl

/-- The sign of a literal, as the parser keeps it. -/
def signOf (i : ℤ) : ℤ := if i < 0 then -1 else 1

theorem signOf_mul (i : ℤ) : signOf i * (i.natAbs : ℤ) = i := by
  rw [signOf]
  split <;> omega

section

variable {strict : Strictness} {vars clauses : ℕ} {s : BodyState} {sign : ℤ} {idx : ℕ}

theorem parseBody_digit {ch : Char} (h : ch.isDigit = true) (rest : List Char) :
    parseBody strict vars clauses s (ch :: rest) =
      number strict vars clauses s 1 (digit ch) rest := by
  have hwhite : ¬(ch = ' ' ∨ ch = '\t' ∨ ch = '\n') := by
    rintro (rfl | rfl | rfl) <;> exact absurd h (by decide)
  have hletter : ¬(ch = 'e' ∨ ch = 'a') := by
    rintro (rfl | rfl) <;> exact absurd h (by decide)
  rw [parseBody.eq_def]
  simp only [if_neg hwhite, if_neg (isDigit_ne (c := '\r') h (by decide)),
    if_neg (isDigit_ne (c := 'c') h (by decide)), if_neg (isDigit_ne (c := '-') h (by decide)),
    if_neg hletter, h, not_true, if_false]

theorem parseBody_minus {ch : Char} (h : ch.isDigit = true) (h0 : ch ≠ '0') (rest : List Char) :
    parseBody strict vars clauses s ('-' :: ch :: rest) =
      number strict vars clauses s (-1) (digit ch) rest := by
  have hwhite : ¬('-' = ' ' ∨ '-' = '\t' ∨ '-' = '\n') := by decide
  have hreturn : ¬('-' = '\r') := by decide
  have hcomment : ¬('-' = 'c') := by decide
  rw [parseBody.eq_def]
  simp only [if_neg hwhite, if_neg hreturn, if_neg hcomment, if_true,
    if_neg (isDigit_ne (c := '\n') h (by decide)), h, not_true, if_false, if_neg h0]

theorem number_digits {ds : List Char} (hds : ∀ d ∈ ds, d.isDigit = true)
    (h : Nat.ofDigitChars 10 ds idx ≤ maxVars) (rest : List Char) :
    number strict vars clauses s sign idx (ds ++ rest) =
      number strict vars clauses s sign (Nat.ofDigitChars 10 ds idx) rest := by
  induction ds generalizing idx with
  | nil => rw [List.nil_append, Nat.ofDigitChars_nil]
  | cons d ds ih =>
    obtain ⟨hpush, hle⟩ := pushDigit_of_ofDigitChars h
    have hd := hds d List.mem_cons_self
    rw [List.cons_append, number.eq_def]
    simp only [hd, if_true, hpush]
    rw [Nat.ofDigitChars_cons]
    exact ih (fun e he => hds e (List.mem_cons_of_mem _ he)) hle

/-- **A numeral is read**, up to the character that ends it. -/
theorem parseBody_decimal {i : ℤ} (hi : i.natAbs ≤ maxVars) (rest : List Char) :
    parseBody strict vars clauses s (decimal i ++ rest) =
      number strict vars clauses s (signOf i) i.natAbs rest := by
  obtain ⟨d, ds, hds, hd, hall, hval⟩ := toDigits_cons i.natAbs
  rcases lt_or_ge i 0 with hneg | hpos
  · have h0 : d ≠ '0' := head_toDigits_ne (by omega) hds
    rw [decimal_of_neg hneg, hds, List.cons_append, List.cons_append, parseBody_minus hd h0,
      number_digits hall (by omega), hval, signOf, if_pos hneg]
  · rw [decimal_of_nonneg hpos, hds, List.cons_append, parseBody_digit hd,
      number_digits hall (by omega), hval, signOf, if_neg (not_lt.mpr hpos)]

/-- White space behind a number. -/
theorem number_white {ch : Char} (h : ch = ' ' ∨ ch = '\n') (rest : List Char) :
    number strict vars clauses s sign idx (ch :: rest) =
      andThen (useNumber strict vars clauses s sign idx)
        fun s => parseBody strict vars clauses s rest := by
  have hdigit : ¬ch.isDigit = true := by rcases h with rfl | rfl <;> decide
  have hreturn : ¬ch = '\r' := by rcases h with rfl | rfl <;> decide
  have hcomment : ¬ch = 'c' := by rcases h with rfl | rfl <;> decide
  have hwhite : ¬(ch ≠ ' ' ∧ ch ≠ '\t' ∧ ch ≠ '\n') := by rcases h with rfl | rfl <;> decide
  rw [number.eq_def]
  simp only [if_neg hdigit, if_neg hreturn, if_neg hcomment, if_neg hwhite]

/-- The letter of a block, and the character behind it. -/
theorem parseBody_letter {ch sep : Char} (h : ch = 'e' ∨ ch = 'a') (hs : s.inBlock = false)
    (rest : List Char) : parseBody strict vars clauses s (ch :: sep :: rest) =
      parseBody strict vars clauses (if ch = 'e' then { s with blockExists := true }
        else { s with blockForall := true }) rest := by
  have hwhite : ¬(ch = ' ' ∨ ch = '\t' ∨ ch = '\n') := by rcases h with rfl | rfl <;> decide
  have hreturn : ¬ch = '\r' := by rcases h with rfl | rfl <;> decide
  have hcomment : ¬ch = 'c' := by rcases h with rfl | rfl <;> decide
  have hminus : ¬ch = '-' := by rcases h with rfl | rfl <;> decide
  rw [parseBody.eq_def]
  simp only [if_neg hwhite, if_neg hreturn, if_neg hcomment, if_neg hminus, if_pos h, hs,
    Bool.false_eq_true, if_false]

/-- **A variable of a block** is reported. -/
theorem useNumber_variable (hs : s.inBlock = true) (h0 : idx ≠ 0) (hidx : idx ≤ vars) :
    useNumber strict vars clauses s 1 idx = .ok ({ s with lit := 1 * idx },
      [.addQuantifier (if s.blockForall then -idx else idx)]) := by
  have hbig : ¬(strict ≠ .relaxedParsing ∧ vars < idx) := fun h => absurd h.2 (not_lt.mpr hidx)
  have habs : |1 * (idx : ℤ)| = idx := by rw [one_mul, Nat.abs_cast]
  rw [useNumber, if_neg hbig, if_pos h0, if_pos hs, habs]

/-- **A literal** is reported. -/
theorem useNumber_literal (hs : s.inBlock = false) (h0 : idx ≠ 0) (hidx : idx ≤ vars) :
    useNumber strict vars clauses s sign idx =
      .ok ({ s with lit := sign * idx }, [.addLit (sign * idx)]) := by
  have hbig : ¬(strict ≠ .relaxedParsing ∧ vars < idx) := fun h => absurd h.2 (not_lt.mpr hidx)
  rw [useNumber, if_neg hbig, if_pos h0, if_neg (by rw [hs]; exact Bool.false_ne_true)]

/-- **The 0 of a block** closes it, as long as there are clauses to come. -/
theorem useNumber_close (hs : s.inBlock = true) (hroom : s.parsed < clauses) :
    useNumber strict vars clauses s sign 0 =
      .ok ({ s with blockExists := false, blockForall := false, lit := 0 }, []) := by
  have hbig : ¬(strict ≠ .relaxedParsing ∧ vars < 0) := fun h => absurd h.2 (Nat.not_lt_zero _)
  have hfull : ¬(strict ≠ .relaxedParsing ∧ s.parsed = clauses) := fun h => absurd h.2 hroom.ne
  rw [useNumber, if_neg hbig, if_neg (not_not.mpr rfl), if_neg hfull, if_pos hs]

/-- **The 0 of a clause** is reported and counted. -/
theorem useNumber_clause (hs : s.inBlock = false) (hroom : s.parsed < clauses) :
    useNumber strict vars clauses s sign 0 =
      .ok ({ s with parsed := s.parsed + 1, lit := 0 }, [.addLit 0]) := by
  have hbig : ¬(strict ≠ .relaxedParsing ∧ vars < 0) := fun h => absurd h.2 (Nat.not_lt_zero _)
  have hfull : ¬(strict ≠ .relaxedParsing ∧ s.parsed = clauses) := fun h => absurd h.2 hroom.ne
  rw [useNumber, if_neg hbig, if_neg (not_not.mpr rfl), if_neg hfull,
    if_neg (by rw [hs]; exact Bool.false_ne_true)]

/-- A zero on its own, and the end of its line. -/
theorem parseBody_zero (rest : List Char) :
    parseBody strict vars clauses s ('0' :: '\n' :: rest) =
      andThen (useNumber strict vars clauses s 1 0)
        fun s => parseBody strict vars clauses s rest := by
  rw [parseBody_digit (by decide)]
  exact number_white (Or.inr rfl) rest

/-! ### Reading a fragment -/

theorem natAbs_le_maxVars (l : Lit) : l.val.natAbs ≤ maxVars := by
  have hl := l.lower
  have hu := l.upper
  rw [maxVars]
  omega

theorem signOf_abs (i : ℤ) : signOf |i| = 1 := if_neg (not_lt.mpr (abs_nonneg i))

/-- A numeral without a sign. -/
theorem parseBody_abs (l : Lit) (rest : List Char) :
    parseBody strict vars clauses s (decimal |l.val| ++ rest) =
      number strict vars clauses s 1 l.val.natAbs rest := by
  rw [parseBody_decimal (by rw [Int.natAbs_abs]; exact natAbs_le_maxVars l), signOf_abs,
    Int.natAbs_abs]

/-- The value that is reported for a variable of a block. -/
theorem quantifier_natAbs (q : Lit) :
    (if decide (0 < q.val) = true then (q.val.natAbs : ℤ) else -(q.val.natAbs : ℤ)) = q.val := by
  rcases lt_or_ge 0 q.val with h | h
  · rw [decide_eq_true h, if_pos rfl]
    omega
  · rw [decide_eq_false (not_lt.mpr h), if_neg Bool.false_ne_true]
    omega

/-- A block is opened, with its first variable. -/
theorem parseBody_open (hs : s.inBlock = false) (q : Lit) (rest : List Char) :
    parseBody strict vars clauses s (quantifierLetter q :: ' ' :: (decimal |q.val| ++ rest)) =
      number strict vars clauses ⟨decide (0 < q.val), !decide (0 < q.val), s.parsed, s.lit⟩ 1
        q.val.natAbs rest := by
  obtain ⟨e, a, n, l⟩ := s
  obtain ⟨rfl, rfl⟩ : e = false ∧ a = false := by
    rwa [BodyState.inBlock, Bool.or_eq_false_iff] at hs
  rcases lt_or_ge 0 q.val with h | h
  · rw [quantifierLetter, if_pos h, parseBody_letter (Or.inl rfl) rfl, if_pos rfl, parseBody_abs,
      decide_eq_true h]
    rfl
  · have hle := not_lt.mpr h
    rw [quantifierLetter, if_neg hle, parseBody_letter (Or.inr rfl) rfl, if_neg (by decide),
      parseBody_abs, decide_eq_false hle]
    rfl

section

variable {e : Bool} {n q : ℕ} {l : ℤ}

theorem useNumber_block (h0 : q ≠ 0) (hq : q ≤ vars) :
    useNumber strict vars clauses ⟨e, !e, n, l⟩ 1 q = .ok (⟨e, !e, n, 1 * q⟩,
      [.addQuantifier (if e = true then (q : ℤ) else -(q : ℤ))]) := by
  rw [useNumber_variable (by cases e <;> rfl) h0 hq]
  cases e <;> rfl

/-- The next variable of a block. -/
theorem number_next (h0 : q ≠ 0) (hq : q ≤ vars) (p : Lit) (rest : List Char) :
    number strict vars clauses ⟨e, !e, n, l⟩ 1 q (' ' :: (decimal |p.val| ++ rest)) =
      prepend [.addQuantifier (if e = true then (q : ℤ) else -(q : ℤ))]
        (number strict vars clauses ⟨e, !e, n, 1 * q⟩ 1 p.val.natAbs rest) := by
  rw [number_white (Or.inl rfl), useNumber_block h0 hq, andThen_ok, parseBody_abs]

/-- The end of a block. -/
theorem number_closing (h0 : q ≠ 0) (hq : q ≤ vars) (hroom : n < clauses) (rest : List Char) :
    number strict vars clauses ⟨e, !e, n, l⟩ 1 q (closing ++ rest) =
      prepend [.addQuantifier (if e = true then (q : ℤ) else -(q : ℤ))]
        (parseBody strict vars clauses ⟨false, false, n, 0⟩ rest) := by
  have hclosing : closing ++ rest = ' ' :: '0' :: '\n' :: rest := rfl
  rw [hclosing, number_white (Or.inl rfl), useNumber_block h0 hq, andThen_ok, parseBody_zero,
    useNumber_close (by cases e <;> rfl) hroom, andThen_ok, prepend_nil]

end

/-- The next literal of a clause. -/
theorem number_literal (hs : s.inBlock = false) (l : NzLit) (hl : l.1.val.natAbs ≤ vars) (p : Lit)
    (rest : List Char) :
    number strict vars clauses s (signOf l.1.val) l.1.val.natAbs
        (' ' :: (decimal p.val ++ rest)) =
      prepend [.addLit l.1.val] (number strict vars clauses { s with lit := l.1.val }
        (signOf p.val) p.val.natAbs rest) := by
  have h0 : l.1.val.natAbs ≠ 0 := Int.natAbs_ne_zero.mpr l.val_ne_zero
  rw [number_white (Or.inl rfl), useNumber_literal hs h0 hl, andThen_ok, signOf_mul,
    parseBody_decimal (natAbs_le_maxVars p)]

/-- The end of a clause. -/
theorem number_endOfClause (hs : s.inBlock = false) (l : NzLit) (hl : l.1.val.natAbs ≤ vars)
    (hroom : s.parsed < clauses) (rest : List Char) :
    number strict vars clauses s (signOf l.1.val) l.1.val.natAbs (closing ++ rest) =
      prepend [.addLit l.1.val, .addLit 0]
        (parseBody strict vars clauses { s with parsed := s.parsed + 1, lit := 0 } rest) := by
  have h0 : l.1.val.natAbs ≠ 0 := Int.natAbs_ne_zero.mpr l.val_ne_zero
  have hclosing : closing ++ rest = ' ' :: '0' :: '\n' :: rest := rfl
  have hs' : BodyState.inBlock { s with lit := l.1.val } = false := hs
  rw [hclosing, number_white (Or.inl rfl), useNumber_literal hs h0 hl, andThen_ok, signOf_mul,
    parseBody_zero, useNumber_clause hs' hroom, andThen_ok, ← prepend_append]
  rfl

end

/-! ### The encoder and the parser together -/

/-- **The parser has read what the encoder has written**: `k` is what it makes of the rest of the
text, behind the callbacks that are owed. -/
inductive Decodes (strict : Strictness) (vars clauses : ℕ) (c : Encoder) :
    (List Char → Outcome) → List Callback → Prop
  /-- Between two lines. -/
  | between (s : BodyState) (hst : c.state = .readingPrefix ∨ c.state = .readingMatrix)
      (hs : s.inBlock = false) (hlit : s.lit = 0) (hparsed : (s.parsed : ℤ) = c.written) :
      Decodes strict vars clauses c (parseBody strict vars clauses s) []
  /-- In a block of existential (`e`) or universal quantifiers, behind the digits of a
  variable. -/
  | block (e : Bool) (n q : ℕ) (l : ℤ) (hst : c.state = openState e)
      (hparsed : (n : ℤ) = c.written) (h0 : q ≠ 0) (hq : q ≤ vars) :
      Decodes strict vars clauses c (number strict vars clauses ⟨e, !e, n, l⟩ 1 q)
        [.addQuantifier (if e = true then (q : ℤ) else -(q : ℤ))]
  /-- In a clause, behind the digits of a literal. -/
  | clause (s : BodyState) (l : NzLit) (hst : c.state = .readingClause) (hs : s.inBlock = false)
      (hparsed : (s.parsed : ℤ) = c.written) (hl : l.1.val.natAbs ≤ vars) :
      Decodes strict vars clauses c
        (number strict vars clauses s (signOf l.1.val) l.1.val.natAbs) [.addLit l.1.val]

/-- What is called for a message. -/
def callbacks : QuapiMsg → List Callback
  | .quantifier q => if q = 0 then [] else [.addQuantifier q.val]
  | .literal l => [.addLit l.val]
  | _ => []

/-- **The messages are decoded**: the parser reads the text that the encoder makes of them, and
calls what belongs to them, sooner or later. -/
def Decoded (strict : Strictness) (vars clauses : ℕ) (c : Encoder) (msgs : List QuapiMsg)
    (c' : Encoder) : Prop :=
  ∃ text, c.encode msgs = some (text, c') ∧ ∀ k owed, Decodes strict vars clauses c k owed →
    ∃ k' calls owed', Decodes strict vars clauses c' k' owed' ∧
      (∀ rest, k (text ++ rest) = prepend calls (k' rest)) ∧
      owed ++ msgs.flatMap callbacks = calls ++ owed'

section

variable {strict : Strictness} {vars clauses : ℕ} {c c' c'' : Encoder} {msgs more : List QuapiMsg}
  {msg : QuapiMsg} {text : List Char}

theorem decoded_nil : Decoded strict vars clauses c [] c :=
  ⟨[], rfl, fun k owed h => ⟨k, [], owed, h, fun _ => rfl, List.append_nil _⟩⟩

theorem Decoded.append (h : Decoded strict vars clauses c msgs c')
    (h' : Decoded strict vars clauses c' more c'') :
    Decoded strict vars clauses c (msgs ++ more) c'' := by
  obtain ⟨text, he, hk⟩ := h
  obtain ⟨text', he', hk'⟩ := h'
  refine ⟨text ++ text', Encoder.encode_append he he', ?_⟩
  intro k owed hd
  obtain ⟨k₁, calls, owed₁, hd₁, hread, hcalls⟩ := hk k owed hd
  obtain ⟨k₂, calls', owed₂, hd₂, hread', hcalls'⟩ := hk' k₁ owed₁ hd₁
  refine ⟨k₂, calls ++ calls', owed₂, hd₂, ?_, ?_⟩
  · intro rest
    rw [List.append_assoc, hread, hread', prepend_append]
  · rw [List.flatMap_append, ← List.append_assoc, hcalls, List.append_assoc, hcalls',
      List.append_assoc]

/-- One message. -/
theorem decoded_of_emit (he : c.emit msg = some (text, c'))
    (h : ∀ k owed, Decodes strict vars clauses c k owed →
      ∃ k' calls owed', Decodes strict vars clauses c' k' owed' ∧
        (∀ rest, k (text ++ rest) = prepend calls (k' rest)) ∧
        owed ++ callbacks msg = calls ++ owed') :
    Decoded strict vars clauses c [msg] c' := by
  refine ⟨text, Encoder.encode_cons.mpr ⟨text, c', [], he, rfl, List.append_nil _⟩, ?_⟩
  intro k owed hd
  obtain ⟨k', calls, owed', hd', hread, hcalls⟩ := h k owed hd
  exact ⟨k', calls, owed', hd', hread, by rw [List.flatMap_singleton, hcalls]⟩

/-- The encoder after a message is the one that the message leaves. -/
theorem Decoded.of_emit (h : Decoded strict vars clauses c [msg] c'')
    (he : c.emit msg = some (text, c')) : Decoded strict vars clauses c [msg] c' := by
  obtain ⟨t, hencode, hk⟩ := h
  obtain ⟨t', c₁, t'', hemit, hnil, -⟩ := Encoder.encode_cons.mp hencode
  obtain ⟨-, rfl⟩ := Prod.mk.inj (Option.some.inj (he.symm.trans hemit))
  obtain ⟨-, rfl⟩ := Prod.mk.inj (Option.some.inj hnil)
  exact ⟨t, hencode, hk⟩

/-- A variable of the prefix. -/
theorem decoded_variable {q : Lit} (hq : q ≠ 0) (hvars : q.val.natAbs ≤ vars)
    (hroom : c.written < clauses) {o : Bool} (hst : BlockState o c.state) :
    ∃ text c', c.emit (.quantifier q) = some (text, c') ∧
      Decoded strict vars clauses c [.quantifier q] c' := by
  have h0 : q.val.natAbs ≠ 0 := Int.natAbs_ne_zero.mpr fun hc => hq (Lit.val_eq_zero.mp hc)
  have hcall : callbacks (.quantifier q) = [.addQuantifier q.val] := if_neg hq
  cases o with
  | false =>
    have hpre : c.state = .readingPrefix := hst
    -- a new block
    obtain ⟨c', he, hst', hw⟩ : ∃ c', c.emit (.quantifier q) =
        some (quantifierLetter q :: ' ' :: decimal |q.val|, c') ∧
          c'.state = openState (decide (0 < q.val)) ∧ c'.written = c.written := by
      rcases lt_trichotomy q.val 0 with hneg | hzero | hpos
      · have hle : ¬0 < q.val := not_lt.mpr (le_of_lt hneg)
        simp only [Encoder.emit, hpre, if_neg hle, if_pos hneg, abs_of_neg hneg,
          decide_eq_false hle, quantifierLetter]
        exact ⟨_, rfl, rfl, rfl⟩
      · exact absurd (Lit.val_eq_zero.mp hzero) hq
      · simp only [Encoder.emit, hpre, if_pos hpos, abs_of_pos hpos, decide_eq_true hpos,
          quantifierLetter]
        exact ⟨_, rfl, rfl, rfl⟩
    refine ⟨_, c', he, decoded_of_emit he ?_⟩
    intro k owed hd
    cases hd with
    | between s _ hs hlit hparsed =>
      refine ⟨_, [], _, .block (decide (0 < q.val)) s.parsed q.val.natAbs s.lit hst'
        (hparsed.trans hw.symm) h0 hvars, fun rest => parseBody_open hs q rest, ?_⟩
      rw [quantifier_natAbs, hcall]
    | block e n p l hst'' =>
      rw [hpre] at hst''
      cases e <;> exact QuapiPreloadState.noConfusion hst''
    | clause s l hst'' => exact QuapiPreloadState.noConfusion (hpre.symm.trans hst'')
  | true =>
    obtain ⟨e, hopen⟩ : ∃ e, c.state = openState e := hst
    have he := emit_openState hopen hq
    refine ⟨_, _, he, decoded_of_emit he ?_⟩
    intro k owed hd
    cases hd with
    | between s hst'' =>
      rw [hopen] at hst''
      cases e <;> rcases hst'' with hst'' | hst'' <;> exact QuapiPreloadState.noConfusion hst''
    | clause s l hst'' =>
      rw [hopen] at hst''
      cases e <;> exact QuapiPreloadState.noConfusion hst''
    | block e' n p l hst'' hparsed hp0 hp =>
      obtain rfl : e' = e := by
        rw [hopen] at hst''
        cases e <;> cases e' <;> first | rfl | exact QuapiPreloadState.noConfusion hst''
      have hn : n < clauses := by omega
      by_cases hsame : decide (0 < q.val) = e'
      · -- the block goes on
        refine ⟨_, [.addQuantifier (if e' = true then (p : ℤ) else -(p : ℤ))], _,
          .block e' n q.val.natAbs (1 * p) (by rw [hsame]) hparsed h0 hvars, ?_, ?_⟩
        · intro rest
          rw [if_pos hsame]
          exact number_next hp0 hp q rest
        · rw [← hsame, quantifier_natAbs, hcall]
      · -- another block
        refine ⟨_, [.addQuantifier (if e' = true then (p : ℤ) else -(p : ℤ))], _,
          .block (decide (0 < q.val)) n q.val.natAbs 0 rfl hparsed h0 hvars, ?_, ?_⟩
        · intro rest
          rw [if_neg hsame, List.append_assoc, number_closing hp0 hp hn]
          exact congrArg _ (parseBody_open rfl q rest)
        · rw [quantifier_natAbs, hcall]

/-- The 0 that closes a block. -/
theorem decoded_closing {e : Bool} (hst : c.state = openState e) (hroom : c.written < clauses) :
    Decoded strict vars clauses c [.quantifier 0] { c with state := .readingPrefix } := by
  have he : c.emit (.quantifier 0) = some (closing, { c with state := .readingPrefix }) := by
    obtain ⟨d, st, f, w, m⟩ := c
    obtain rfl : st = openState e := hst
    cases e <;> rfl
  refine decoded_of_emit he ?_
  intro k owed hd
  cases hd with
  | between s hst'' =>
    rw [hst] at hst''
    cases e <;> rcases hst'' with hst'' | hst'' <;> exact QuapiPreloadState.noConfusion hst''
  | clause s l hst'' =>
    rw [hst] at hst''
    cases e <;> exact QuapiPreloadState.noConfusion hst''
  | block e' n p l _ hparsed hp0 hp =>
    have hn : n < clauses := by omega
    exact ⟨_, _, [], .between ⟨false, false, n, 0⟩ (Or.inl rfl) rfl rfl hparsed,
      fun rest => number_closing hp0 hp hn rest, rfl⟩

/-- The first literal of a clause. -/
theorem decoded_first {l : NzLit} (hl : l.1.val.natAbs ≤ vars) (hst : MayBegin c.state)
    (hroom : c.written < clauses) :
    Decoded strict vars clauses c [.literal l.1] { c with state := .readingClause } := by
  refine decoded_of_emit (emit_first hst) ?_
  intro k owed hd
  cases hd with
  | between s hst'' hs _ hparsed =>
    have hpending : pending c.state = [] := by
      rcases hst'' with hst'' | hst'' <;> rw [hst''] <;> rfl
    refine ⟨_, [], _, .clause s l rfl hs hparsed hl, ?_, rfl⟩
    intro rest
    rw [hpending, List.nil_append]
    exact parseBody_decimal (natAbs_le_maxVars l.1) rest
  | clause s l' hst'' => exact absurd hst'' hst.ne_readingClause
  | block e n p l' hst'' hparsed hp0 hp =>
    have hpending : pending c.state = closing := by
      rw [hst'']
      cases e <;> rfl
    have hn : n < clauses := by omega
    refine ⟨_, _, _, .clause ⟨false, false, n, 0⟩ l rfl rfl hparsed hl, ?_, rfl⟩
    intro rest
    rw [hpending, List.append_assoc, number_closing hp0 hp hn,
      parseBody_decimal (natAbs_le_maxVars l.1)]

/-- The rest of a clause. -/
theorem decoded_openClause {ls : List NzLit} (hls : ∀ l ∈ ls, l.1.val.natAbs ≤ vars)
    (hst : c.state = .readingClause) (hroom : c.written < clauses) :
    Decoded strict vars clauses c (Api.clauseMsgs ls)
      { c with state := .readingMatrix, written := c.written + 1 } := by
  induction ls generalizing c with
  | nil =>
    have he : c.emit (.literal 0) = some (closing,
        { c with state := .readingMatrix, written := c.written + 1 }) := by
      simp only [Encoder.emit, hst, Lit.val_zero, if_true]
      rfl
    refine decoded_of_emit he ?_
    intro k owed hd
    cases hd with
    | between s hst'' =>
      rw [hst] at hst''
      rcases hst'' with hst'' | hst'' <;> exact QuapiPreloadState.noConfusion hst''
    | block e n p l' hst'' =>
      rw [hst] at hst''
      cases e <;> exact QuapiPreloadState.noConfusion hst''
    | clause s l _ hs hparsed hl =>
      refine ⟨_, _, [], .between { s with parsed := s.parsed + 1, lit := 0 } (Or.inr rfl) hs rfl
        ?_, fun rest => number_endOfClause hs l hl (by omega) rest, rfl⟩
      change ((s.parsed + 1 : ℕ) : ℤ) = c.written + 1
      omega
  | cons l ls ih =>
    have he : c.emit (.literal l.1) = some (' ' :: decimal l.1.val, c) := by
      simp only [Encoder.emit, hst, if_neg l.val_ne_zero]
    have hl := hls l List.mem_cons_self
    have hfirst : Decoded strict vars clauses c [.literal l.1] c := by
      refine decoded_of_emit he ?_
      intro k owed hd
      cases hd with
      | between s hst'' =>
        rw [hst] at hst''
        rcases hst'' with hst'' | hst'' <;> exact QuapiPreloadState.noConfusion hst''
      | block e n p l' hst'' =>
        rw [hst] at hst''
        cases e <;> exact QuapiPreloadState.noConfusion hst''
      | clause s p _ hs hparsed hp =>
        exact ⟨_, _, _, .clause { s with lit := p.1.val } l hst hs hparsed hl,
          fun rest => number_literal hs p hp l.1 rest, rfl⟩
    exact hfirst.append (ih (fun p hp => hls p (List.mem_cons_of_mem _ hp)) hst hroom)

/-- **A clause that is not empty is decoded.** -/
theorem decoded_clause {ls : List NzLit} (hne : ls ≠ [])
    (hls : ∀ l ∈ ls, l.1.val.natAbs ≤ vars) (hst : MayBegin c.state)
    (hroom : c.written < clauses) : Decoded strict vars clauses c (Api.clauseMsgs ls)
      { c with state := .readingMatrix, written := c.written + 1 } := by
  cases ls with
  | nil => exact absurd rfl hne
  | cons l ls =>
    exact (decoded_first (hls l List.mem_cons_self) hst hroom).append
      (decoded_openClause (c := { c with state := .readingClause })
        (fun p hp => hls p (List.mem_cons_of_mem _ hp)) rfl hroom)

/-- **A list of clauses that are not empty is decoded.** -/
theorem decoded_clauses {matrix : List (List NzLit)} (hne : ∀ ls ∈ matrix, ls ≠ [])
    (hls : ∀ ls ∈ matrix, ∀ l ∈ ls, l.1.val.natAbs ≤ vars) (hst : MayBegin c.state)
    (hroom : c.written + matrix.length ≤ clauses) :
    Decoded strict vars clauses c (matrix.flatMap Api.clauseMsgs)
      { c with state := clausesState matrix c.state, written := c.written + matrix.length } := by
  -- on the clauses: behind the first one, the encoder is in the matrix for good
  induction matrix generalizing c with
  | nil =>
    have hsame : ({ c with state := clausesState [] c.state, written := c.written +
        ([] : List (List NzLit)).length } : Encoder) = c := by simp [clausesState]
    rw [hsame]
    exact decoded_nil
  | cons ls matrix ih =>
    rw [List.length_cons] at hroom
    push_cast at hroom
    have hclause : Decoded strict vars clauses c (Api.clauseMsgs ls)
        { c with state := .readingMatrix, written := c.written + 1 } :=
      decoded_clause (hne ls List.mem_cons_self) (hls ls List.mem_cons_self) hst (by omega)
    have hrest := ih (c := { c with state := .readingMatrix, written := c.written + 1 })
      (fun l hl => hne l (List.mem_cons_of_mem _ hl))
      (fun l hl => hls l (List.mem_cons_of_mem _ hl)) (Or.inr (Or.inl rfl))
      (by change c.written + 1 + _ ≤ _; omega)
    have hend : ({ c with
        state := clausesState matrix .readingMatrix
        written := c.written + 1 + matrix.length } : Encoder) = { c with
          state := clausesState (ls :: matrix) c.state
          written := c.written + (ls :: matrix).length } := by
      have hstate : clausesState matrix .readingMatrix = .readingMatrix := by
        rw [clausesState]
        split <;> rfl
      have hstate' : clausesState (ls :: matrix) c.state = .readingMatrix :=
        if_neg (List.cons_ne_nil ls matrix)
      rw [hstate, hstate', List.length_cons]
      simp only [Encoder.mk.injEq, true_and, and_true]
      push_cast
      ring
    rw [← hend]
    exact hclause.append hrest

/-! ### The prefix -/

/-- A quantifier changes the filler clause if it is the first one, and existential. -/
theorem filler_of_emit {q : Lit} (he : c.emit (.quantifier q) = some (text, c')) :
    (c'.filler = c.filler ∨ c.quantifiers = 0 ∧ 0 < q.val ∧ c'.filler = quantifierFiller q) ∧
      (c.state = .readingPrefix → c.quantifiers = 0 → 0 < q.val →
        c'.filler = quantifierFiller q) ∧
      (q ≠ 0 → 0 < c'.quantifiers) ∧ c.quantifiers ≤ c'.quantifiers := by
  obtain ⟨d, st, f, w, m⟩ := c
  have hval : q ≠ 0 → ¬0 < q.val → ¬q.val < 0 → False := fun h0 h1 h2 =>
    h0 (Lit.val_eq_zero.mp (by omega))
  cases st with
  | readingPrefix =>
    simp only [Encoder.emit] at he
    split_ifs at he with h1 h2 h3
    · obtain ⟨-, rfl⟩ := Prod.mk.inj (Option.some.inj he)
      subst h2
      exact ⟨Or.inr ⟨rfl, h1, rfl⟩, fun _ _ _ => rfl, fun _ => Nat.succ_pos _, Nat.le_succ _⟩
    · obtain ⟨-, rfl⟩ := Prod.mk.inj (Option.some.inj he)
      exact ⟨Or.inl rfl, fun _ h => absurd h h2, fun _ => Nat.succ_pos _, Nat.le_succ _⟩
    · obtain ⟨-, rfl⟩ := Prod.mk.inj (Option.some.inj he)
      exact ⟨Or.inl rfl, fun _ _ h => absurd h h1, fun _ => Nat.succ_pos _, Nat.le_succ _⟩
  | readingExists =>
    simp only [Encoder.emit] at he
    split_ifs at he with h1 h2 <;> obtain ⟨-, rfl⟩ := Prod.mk.inj (Option.some.inj he)
    · exact ⟨Or.inl rfl, fun h => QuapiPreloadState.noConfusion h, fun _ => Nat.succ_pos _,
        Nat.le_succ _⟩
    · exact ⟨Or.inl rfl, fun h => QuapiPreloadState.noConfusion h, fun _ => Nat.succ_pos _,
        Nat.le_succ _⟩
    · exact ⟨Or.inl rfl, fun h => QuapiPreloadState.noConfusion h,
        fun h0 => (hval h0 h2 h1).elim, le_rfl⟩
  | readingForall =>
    simp only [Encoder.emit] at he
    split_ifs at he with h1 h2 <;> obtain ⟨-, rfl⟩ := Prod.mk.inj (Option.some.inj he)
    · exact ⟨Or.inl rfl, fun h => QuapiPreloadState.noConfusion h, fun _ => Nat.succ_pos _,
        Nat.le_succ _⟩
    · exact ⟨Or.inl rfl, fun h => QuapiPreloadState.noConfusion h, fun _ => Nat.succ_pos _,
        Nat.le_succ _⟩
    · exact ⟨Or.inl rfl, fun h => QuapiPreloadState.noConfusion h,
        fun h0 => (hval h0 h1 h2).elim, le_rfl⟩
  | _ => simp [Encoder.emit] at he

/-- **A prefix in blocks is decoded.** -/
theorem decoded_prefix {qs : List Lit} {o o' : Bool} (hvars : ∀ q ∈ qs, q.val.natAbs ≤ vars)
    (hroom : c.written < clauses) (hf : IsFiller c.filler) (hst : BlockState o c.state)
    (ho : openBlock o qs = some o') :
    ∃ c', Decoded strict vars clauses c (qs.map .quantifier) c' ∧ Quantified c c' o' ∧
      (0 < c.quantifiers → c'.filler = c.filler) ∧
      (c.quantifiers = 0 → o = false → c'.filler = match qs with
        | q :: _ => if 0 < q.val then quantifierFiller q else c.filler
        | [] => c.filler) := by
  -- on the quantifiers, with the line that is open behind each of them
  induction qs generalizing c o with
  | nil =>
    obtain rfl := Option.some.inj ho
    exact ⟨c, decoded_nil, ⟨rfl, rfl, hf, hst⟩, fun _ => rfl, fun _ _ => rfl⟩
  | cons q qs ih =>
    obtain ⟨o'', h₁, h₂⟩ := openBlock_cons ho
    obtain ⟨text, c₁, hemit, hq⟩ := emit_quantifier hf hst h₁
    have hfirst : Decoded strict vars clauses c [.quantifier q] c₁ := by
      -- a zero closes the line, and anything else is a variable
      by_cases h0 : q = 0
      · subst h0
        cases o with
        | false => exact absurd h₁ (by simp [openBlock])
        | true =>
          obtain ⟨e, he⟩ : ∃ e, c.state = openState e := hst
          have hclose : Decoded strict vars clauses c [.quantifier 0] _ :=
            decoded_closing he hroom
          exact hclose.of_emit hemit
      · obtain ⟨text', c', he', hdec⟩ :=
          decoded_variable h0 (hvars q List.mem_cons_self) hroom hst
        exact hdec.of_emit hemit
    obtain ⟨hchange, hset, hcount, hle⟩ := filler_of_emit hemit
    obtain ⟨c', hrest, hq', hkeep, -⟩ := ih (c := c₁)
      (fun p hp => hvars p (List.mem_cons_of_mem _ hp)) (hq.written ▸ hroom) hq.filler hq.state h₂
    refine ⟨c', hfirst.append hrest,
      ⟨hq'.header.trans hq.header, hq'.written.trans hq.written, hq'.filler, hq'.state⟩, ?_, ?_⟩
    · intro hpos
      rw [hkeep (hpos.trans_le hle)]
      rcases hchange with h | ⟨h, -⟩
      · exact h
      · exact absurd h hpos.ne'
    · intro hzero hclosed
      subst hclosed
      have h0 : q ≠ 0 := by
        rintro rfl
        exact absurd h₁ (by simp [openBlock])
      rw [hkeep (hcount h0)]
      change c₁.filler = if 0 < q.val then quantifierFiller q else c.filler
      split
      case isTrue hpos => exact hset hst hzero hpos
      case isFalse hneg =>
        rcases hchange with h | ⟨-, h, -⟩
        · exact h
        · exact absurd h hneg

end

/-! ### Lines of clauses -/

/-- The calls for a clause. -/
def clauseCallbacks (ls : List NzLit) : List Callback :=
  ls.map (fun l => .addLit l.1.val) ++ [.addLit 0]

theorem clauseCallbacks_cons (l : NzLit) (ls : List NzLit) :
    clauseCallbacks (l :: ls) = .addLit l.1.val :: clauseCallbacks ls := rfl

section

variable {strict : Strictness} {vars clauses : ℕ} {s : BodyState}

/-- A literal, and the space behind it. -/
theorem parseBody_literal (hs : s.inBlock = false) (l : NzLit) (hl : l.1.val.natAbs ≤ vars)
    (rest : List Char) : parseBody strict vars clauses s (decimal l.1.val ++ ' ' :: rest) =
      prepend [.addLit l.1.val] (parseBody strict vars clauses { s with lit := l.1.val } rest) := by
  have h0 : l.1.val.natAbs ≠ 0 := Int.natAbs_ne_zero.mpr l.val_ne_zero
  rw [parseBody_decimal (natAbs_le_maxVars l.1), number_white (Or.inl rfl),
    useNumber_literal hs h0 hl, andThen_ok, signOf_mul]

/-- **The line of a clause is read**, be it empty or not. -/
theorem parseBody_clauseLine (hs : s.inBlock = false) (hroom : s.parsed < clauses)
    {ls : List NzLit} (hls : ∀ l ∈ ls, l.1.val.natAbs ≤ vars) (rest : List Char) :
    parseBody strict vars clauses s (clauseLine ls ++ rest) = prepend (clauseCallbacks ls)
      (parseBody strict vars clauses { s with parsed := s.parsed + 1, lit := 0 } rest) := by
  -- on the literals, which leave the count as it is until the zero
  induction ls generalizing s with
  | nil =>
    have hline : clauseLine [] ++ rest = '0' :: '\n' :: rest := rfl
    rw [hline, parseBody_zero, useNumber_clause hs hroom]
    rfl
  | cons l ls ih =>
    have hline : clauseLine (l :: ls) ++ rest =
        decimal l.1.val ++ ' ' :: (clauseLine ls ++ rest) := by
      simp only [clauseLine, List.flatMap_cons, List.append_assoc, List.cons_append,
        List.nil_append]
    rw [hline, parseBody_literal hs l (hls l List.mem_cons_self),
      ih (s := { s with lit := l.1.val }) hs hroom fun p hp => hls p (List.mem_cons_of_mem _ hp),
      clauseCallbacks_cons, ← prepend_append]
    rfl

/-- The end of the text, when all clauses have come. -/
theorem parseBody_nil (hlit : s.lit = 0) (hfull : s.parsed = clauses) :
    parseBody strict vars clauses s [] = ([], none) := by
  have hmissing : ¬(strict ≠ .relaxedParsing ∧ s.parsed < clauses) := fun h => by omega
  rw [parseBody.eq_def]
  simp only [endOfBody, hlit, ne_eq, not_true, if_false, if_neg hmissing]

/-- **The last clauses are read**, as many as are announced. -/
theorem parseBody_clauseLines (hs : s.inBlock = false) (hlit : s.lit = 0)
    {matrix : List (List NzLit)} (hfull : s.parsed + matrix.length = clauses)
    (hls : ∀ ls ∈ matrix, ∀ l ∈ ls, l.1.val.natAbs ≤ vars) :
    parseBody strict vars clauses s (matrix.flatMap clauseLine) =
      (matrix.flatMap clauseCallbacks, none) := by
  -- on the lines, each of them one clause more
  induction matrix generalizing s with
  | nil => exact parseBody_nil hlit hfull
  | cons ls matrix ih =>
    rw [List.length_cons] at hfull
    have hrest := ih (s := { s with parsed := s.parsed + 1, lit := 0 }) hs rfl
      (by change s.parsed + 1 + _ = _; omega) fun l hl => hls l (List.mem_cons_of_mem _ hl)
    rw [List.flatMap_cons, parseBody_clauseLine hs (by omega) (hls ls List.mem_cons_self), hrest,
      List.flatMap_cons]
    rfl

end

/-! ### Filler clauses -/

/-- The filler clause of the header, as a clause. -/
def headerFiller (d : QuapiMsgHeaderData) : List NzLit :=
  if d.literals.1 = 0 then [] else [nzLit (-1), nzLit 1]

/-- The filler clause that header and prefix leave, as a clause. -/
def fillerClause (d : QuapiMsgHeaderData) (qs : List Lit) : List NzLit :=
  match qs with
  | q :: _ =>
    if h : 0 < q.val then
      have h0 : q ≠ 0 := fun hc => h.ne' (Lit.val_eq_zero.mpr hc)
      [⟨q, h0⟩, ⟨-q, fun hc => h0 (Lit.neg_eq_zero.mp hc)⟩]
    else headerFiller d
  | [] => headerFiller d

theorem clauseLine_headerFiller (d : QuapiMsgHeaderData) :
    clauseLine (headerFiller d) = if d.literals.1 = 0 then emptyFiller else defaultFiller := by
  rw [headerFiller]
  split
  · rfl
  · decide

/-- **The filler clause is the line of a clause.** -/
theorem clauseLine_fillerClause (d : QuapiMsgHeaderData) (qs : List Lit) :
    clauseLine (fillerClause d qs) = fillerOf d qs := by
  cases qs with
  | nil => exact clauseLine_headerFiller d
  | cons q qs =>
    rw [fillerClause, fillerOf]
    split
    case isTrue h =>
      have hneg : (-q).val < 0 := by
        rw [Lit.val_neg]
        omega
      have habs : (-q).val.natAbs = q.val.natAbs := Int.natAbs_neg q.val
      simp only [clauseLine, List.flatMap_cons, List.flatMap_nil, decimal_of_nonneg h.le,
        decimal_of_neg hneg, habs, quantifierFiller, List.append_assoc, List.cons_append,
        List.nil_append, List.append_nil]
      rfl
    case isFalse h => exact clauseLine_headerFiller d

/-- The variables of the filler clause are among those that are announced. -/
theorem fillerClause_le {d : QuapiMsgHeaderData} {qs : List Lit} {vars : ℕ}
    (hd : d.literals.1 ≠ 0 → 1 ≤ vars) (hq : ∀ q ∈ qs, q.val.natAbs ≤ vars) :
    ∀ l ∈ fillerClause d qs, l.1.val.natAbs ≤ vars := by
  have hheader : ∀ l ∈ headerFiller d, l.1.val.natAbs ≤ vars := by
    intro l hl
    rw [headerFiller] at hl
    split at hl
    case isTrue => exact absurd hl List.not_mem_nil
    case isFalse h =>
      rcases List.mem_pair.mp hl with rfl | rfl <;> exact hd h
  cases qs with
  | nil => exact hheader
  | cons q qs =>
    rw [fillerClause]
    split
    case isTrue h =>
      intro l hl
      have hle := hq q List.mem_cons_self
      rcases List.mem_pair.mp hl with rfl | rfl
      · exact hle
      · exact (Int.natAbs_neg q.val).le.trans hle
    case isFalse h => exact hheader

/-! ### The two machines on a session -/

/-- The encoder behind the header. -/
def headerEncoder (d : QuapiMsgHeaderData) : Encoder :=
  { Encoder.init with
    header := d
    state := .readingPrefix
    filler := if d.literals.1 = 0 then emptyFiller else defaultFiller }

theorem emit_header (v : ℤ) (d : QuapiMsgHeaderData) :
    Encoder.init.emit (.header v d) = some (headerLine d, headerEncoder d) := rfl

/-- The calls for a prefix. -/
def prefixCallbacks (qs : List Lit) : List Callback :=
  (qs.filter (· ≠ 0)).map fun q => .addQuantifier q.val

theorem flatMap_callbacks_quantifiers (qs : List Lit) :
    (qs.map QuapiMsg.quantifier).flatMap callbacks = prefixCallbacks qs := by
  induction qs with
  | nil => rfl
  | cons q qs ih =>
    rw [List.map_cons, List.flatMap_cons, ih, prefixCallbacks, prefixCallbacks, callbacks]
    by_cases h : q = 0
    · rw [if_pos h, List.filter_cons_of_neg (by simp [h]), List.nil_append]
    · rw [if_neg h, List.filter_cons_of_pos (by simp [h]), List.map_cons, List.singleton_append]

theorem flatMap_callbacks_clause (ls : List NzLit) :
    (Api.clauseMsgs ls).flatMap callbacks = clauseCallbacks ls := by
  rw [Api.clauseMsgs, clauseCallbacks, List.flatMap_append, List.flatMap_map]
  exact congrArg (· ++ [Callback.addLit 0]) (List.flatMap_pure_eq_map _ ls)

theorem flatMap_callbacks_clauses (matrix : List (List NzLit)) :
    (matrix.flatMap Api.clauseMsgs).flatMap callbacks = matrix.flatMap clauseCallbacks := by
  rw [List.flatMap_assoc]
  exact List.flatMap_congr fun ls _ => flatMap_callbacks_clause ls

section

variable {strict : Strictness} {vars clauses : ℕ} {d : QuapiMsgHeaderData} {qs : List Lit}
  {matrix : List (List NzLit)} {o : Bool}

/-- The prefix and the clauses of a session are decoded. -/
theorem decoded_formula (ho : openBlock false qs = some o) (hne : ∀ ls ∈ matrix, ls ≠ [])
    (hqs : ∀ q ∈ qs, q.val.natAbs ≤ vars)
    (hmatrix : ∀ ls ∈ matrix, ∀ l ∈ ls, l.1.val.natAbs ≤ vars) (hone : 1 ≤ clauses)
    (hroom : matrix.length ≤ clauses) :
    ∃ c, Decoded strict vars clauses (headerEncoder d)
        (qs.map .quantifier ++ matrix.flatMap Api.clauseMsgs) c ∧
      c.header = d ∧ c.filler = fillerOf d qs ∧ c.written = matrix.length ∧
      ((c.state = .readingPrefix ∨ c.state = .readingMatrix) ∨ ∃ e, c.state = openState e) := by
  have hzero : (headerEncoder d).written = 0 := rfl
  have hstart : BlockState false (headerEncoder d).state := rfl
  obtain ⟨c₁, hprefix, hq, -, hfill⟩ : ∃ c', Decoded strict vars clauses (headerEncoder d)
      (qs.map .quantifier) c' ∧ Quantified (headerEncoder d) c' o ∧ _ ∧ _ :=
    decoded_prefix hqs (by omega) (isFiller_header d) hstart ho
  have hw : c₁.written = 0 := hq.written.trans hzero
  have hclauses : Decoded strict vars clauses c₁ (matrix.flatMap Api.clauseMsgs) _ :=
    decoded_clauses hne hmatrix hq.state.mayBegin (by omega)
  have happ := hprefix.append hclauses
  refine ⟨_, happ, hq.header, ?_, ?_, ?_⟩
  · refine (hfill rfl rfl).trans ?_
    cases qs <;> rfl
  · change c₁.written + matrix.length = _
    omega
  · change (clausesState matrix c₁.state = _ ∨ clausesState matrix c₁.state = _) ∨
      ∃ e, clausesState matrix c₁.state = _
    rw [clausesState]
    split
    case isFalse => exact Or.inl (Or.inr rfl)
    case isTrue =>
      have hst := hq.state
      cases o with
      | false => exact Or.inl (Or.inl hst)
      | true => exact Or.inr hst

/-- **The text of a formula in full is read**: what the prefix and the clauses have left in the
encoder, and the clauses that come behind it, up to the number that is announced. -/
theorem parse_formula {text : List Char} {c : Encoder} {v : ℤ} {more : List (List NzLit)}
    (ho : openBlock false qs = some o) (hne : ∀ ls ∈ matrix, ls ≠ [])
    (hl : 0 ≤ d.literals.1) (hc : 1 ≤ d.clauses.1)
    (hqs : ∀ q ∈ qs, |q.val| ≤ d.literals.1)
    (hmatrix : ∀ ls ∈ matrix ++ more, ∀ l ∈ ls, |l.1.val| ≤ d.literals.1)
    (hfull : (matrix.length : ℤ) + more.length = d.clauses.1)
    (he : Encoder.init.encode (.header v d ::
      (qs.map .quantifier ++ matrix.flatMap Api.clauseMsgs)) = some (text, c))
    (hst : c.state = .readingPrefix ∨ c.state = .readingMatrix) :
    kissatParseDimacs strict (text ++ more.flatMap clauseLine) =
      (prefixCallbacks qs ++ (matrix ++ more).flatMap clauseCallbacks, none) := by
  have hle : ∀ i : ℤ, |i| ≤ d.literals.1 → i.natAbs ≤ d.literals.1.toNat := fun i h => by
    rw [Int.abs_eq_natAbs] at h
    omega
  -- the two machines are followed through the prefix and the first clauses
  obtain ⟨c', ⟨t, hencode, hdec⟩, -, -, hw, -⟩ : ∃ c', Decoded strict d.literals.1.toNat
      d.clauses.1.toNat (headerEncoder d) _ c' ∧ _ ∧ _ ∧ _ ∧ _ :=
    decoded_formula ho hne (fun q hq => hle _ (hqs q hq))
      (fun ls hls l hl => hle _ (hmatrix ls (List.mem_append_left _ hls) l hl)) (by omega)
      (by omega)
  obtain ⟨t', c₁, t'', hemit, hrest, rfl⟩ := Encoder.encode_cons.mp he
  obtain ⟨rfl, rfl⟩ := Prod.mk.inj (Option.some.inj ((emit_header v d).symm.trans hemit))
  obtain ⟨rfl, rfl⟩ := Prod.mk.inj (Option.some.inj (hencode.symm.trans hrest))
  obtain ⟨k, calls, owed, hd, hread, hcalls⟩ := hdec _ _
    (.between BodyState.init (Or.inl rfl) rfl rfl rfl)
  cases hd with
  | block e n q l hst' =>
    rw [hst'] at hst
    cases e <;> rcases hst with hst | hst <;> exact QuapiPreloadState.noConfusion hst
  | clause s l hst' =>
    rw [hst'] at hst
    rcases hst with hst | hst <;> exact QuapiPreloadState.noConfusion hst
  | between s _ hs hlit hparsed =>
    -- what is left are lines
    have hlines : parseBody strict d.literals.1.toNat d.clauses.1.toNat s
        (more.flatMap clauseLine) = _ :=
      parseBody_clauseLines hs hlit (by omega)
        fun ls hls l hl => hle _ (hmatrix ls (List.mem_append_right _ hls) l hl)
    rw [kissatParseDimacs, List.append_assoc, parseHeader_headerLine hl (by omega)]
    change parseBody strict d.literals.1.toNat d.clauses.1.toNat BodyState.init _ = _
    rw [hread, hlines, prepend]
    rw [List.nil_append, List.flatMap_append, flatMap_callbacks_quantifiers,
      flatMap_callbacks_clauses, List.append_nil] at hcalls
    rw [← hcalls, List.flatMap_append, List.append_assoc]

/-! ### What the processes read -/

variable {sizes : ℕ → ℕ}

/-- A FORK in an open quantifier line is never answered. -/
theorem tick_fork {p : Reader} {c : Encoder} (hp : p.Waits c) {e wait : Bool}
    {rest : List QuapiMsg} (hst : c.state = openState e) (hi : p.input = .fork wait :: rest) :
    p.tick sizes = none := by
  obtain ⟨n, -, hb⟩ := hp.blocked
  have hline : p.runtime.state = .readingExists ∨ p.runtime.state = .readingForall := by
    rw [hp.encodes.state, hst]
    cases e
    · exact Or.inr rfl
    · exact Or.inl rfl
  have hstuck : advanceMsg p.runtime n (.fork wait) = none :=
    Option.map_eq_none_iff.mpr (Reader.stateLoop_line hline rfl fun lit => ⟨by simp, by simp⟩)
  simp only [Reader.tick, hp.closed, hb, hi, hstuck, Option.isSome_none, Bool.false_eq_true,
    if_false, Option.map_none]

/-- A process that waits for a message which does not come. -/
theorem tick_waiting {p : Reader} (hb : p.blocked.isSome) (hi : p.input = []) :
    p.tick sizes = none := by
  obtain ⟨n, hn⟩ := Option.isSome_iff_exists.mp hb
  simp only [Reader.tick, hn, hi, ite_self]

theorem tick_closed {p : Reader} {i : ℤ} (hc : p.closed = some i) : p.tick sizes = none := by
  rw [Reader.tick, hc, Option.isSome_some, if_pos rfl]

/-- **Rendering and parsing agree.** A seeding process takes a header, a prefix in blocks, clauses
that are not empty, and a FORK, and waits again; its child takes the units of the assumptions and
a SOLVE, and comes to the end of its input. If the header announces at least one clause, no fewer
clauses than there are, and every variable in use, then `kissat_parse_dimacs` accepts what has
been read, however strict it is, and calls are made for the quantifiers, the clauses, the
assumptions and the filler clauses, in this order and for nothing else. -/
theorem parse_rendered {accepted : List NzLit} {v : ℤ} {wait : Bool} {after : List QuapiMsg}
    {p q : Reader} (hs : ∀ i, 0 < sizes i)
    (ho : (openBlock false qs).isSome) (hne : ∀ ls ∈ matrix, ls ≠ [])
    (hc : 1 ≤ d.clauses.1) (hroom : (matrix.length : ℤ) + accepted.length ≤ d.clauses.1)
    (hl : 0 ≤ d.literals.1) (hqs : ∀ q ∈ qs, |q.val| ≤ d.literals.1)
    (hmatrix : ∀ ls ∈ matrix, ∀ l ∈ ls, |l.1.val| ≤ d.literals.1)
    (haccepted : ∀ l ∈ accepted, |l.1.val| ≤ d.literals.1)
    (hp : Reader.Reaches sizes (Reader.start (.header v d ::
      (qs.map .quantifier ++ matrix.flatMap Api.clauseMsgs ++ [.fork wait]))) p)
    (hi : p.input = []) (hb : p.blocked.isSome)
    (hq : Reader.Reaches sizes { p with input := roundMsgs accepted ++ after } q)
    (hclosed : q.closed = some 0) (strict : Strictness) :
    kissatParseDimacs strict q.out = (prefixCallbacks qs ++ (matrix ++ units accepted ++
      List.replicate (d.clauses.1.toNat - (matrix.length + accepted.length))
        (fillerClause d qs)).flatMap clauseCallbacks, none) := by
  have hle : ∀ i : ℤ, |i| ≤ d.literals.1 → i.natAbs ≤ d.literals.1.toNat := fun i h => by
    rw [Int.abs_eq_natAbs] at h
    omega
  obtain ⟨o, ho⟩ := Option.isSome_iff_exists.mp ho
  obtain ⟨c, ⟨text, hencode, -⟩, hh, hf, hw, hst⟩ : ∃ c, Decoded strict d.literals.1.toNat
      d.clauses.1.toNat (headerEncoder d) _ c ∧ _ ∧ _ ∧ _ ∧ _ :=
    decoded_formula ho hne (fun q hq => hle _ (hqs q hq))
      (fun ls hls l hl => hle _ (hmatrix ls hls l hl)) (by omega) (by omega)
  have hfull : Encoder.init.encode (.header v d ::
      (qs.map .quantifier ++ matrix.flatMap Api.clauseMsgs)) = some (headerLine d ++ text, c) :=
    Encoder.encode_cons.mpr ⟨_, _, _, emit_header v d, hencode, rfl⟩
  -- the seeding process is where the encoder says
  obtain ⟨p₀, h₀, hw₀, ho₀, hi₀⟩ := Reader.reaches_start hs (.header v d ::
    (qs.map .quantifier ++ matrix.flatMap Api.clauseMsgs ++ [.fork wait]))
  obtain ⟨p₁, h₁, hw₁, ho₁, hi₁⟩ := Reader.reaches_encode hs hw₀ (hi₀.trans
    (List.cons_append ..).symm) hfull
  have hstuck : p.tick sizes = none := tick_waiting hb hi
  rcases hst with hst | ⟨e, hst⟩
  case inr =>
    have heq : p = p₁ := hp.eq_of_stuck (h₀.trans h₁) hstuck (tick_fork hw₁ hst hi₁)
    rw [heq, hi₁] at hi
    exact absurd hi (List.cons_ne_nil _ _)
  case inl =>
    have hfork : c.encode [.fork wait] = some ([], c) := by
      refine Encoder.encode_cons.mpr ⟨[], c, [], ?_, rfl, rfl⟩
      rcases hst with hst | hst <;> simp only [Encoder.emit, hst]
    obtain ⟨p₂, h₂, hw₂, ho₂, hi₂⟩ := Reader.reaches_encode hs hw₁
      (hi₁.trans (List.append_nil _).symm) hfork
    obtain rfl : p = p₂ := hp.eq_of_stuck ((h₀.trans h₁).trans h₂) hstuck
      (tick_waiting hw₂.isSome hi₂)
    -- and the child as well
    obtain ⟨q', hq', hclosed', hout, -⟩ := reaches_child hs
      (p := { p with input := roundMsgs accepted ++ after })
      ⟨hw₂.blocked, hw₂.closed, hw₂.encodes, hw₂.outbuf, hw₂.written⟩
      (hf ▸ fillerOf_ne_nil d qs) hst rfl
    obtain rfl : q = q' := hq.eq_of_stuck hq' (tick_closed hclosed) (tick_closed hclosed')
    have hcount : (d.clauses.1 - (c.written + accepted.length)).toNat =
        d.clauses.1.toNat - (matrix.length + accepted.length) := by omega
    have hlines : q.out = headerLine d ++ text ++ (units accepted ++
        List.replicate (d.clauses.1.toNat - (matrix.length + accepted.length))
          (fillerClause d qs)).flatMap clauseLine := by
      rw [hout, hh, hf, hcount, ho₂, ho₁, ho₀, List.append_nil, List.nil_append,
        List.flatMap_append, units, List.flatMap_map, ← clauseLine_fillerClause,
        List.flatMap_replicate, List.append_assoc (headerLine d ++ text)]
    rw [hlines, List.append_assoc matrix]
    refine parse_formula ho hne hl hc hqs ?_ ?_ hfull hst
    · intro ls hls l hl'
      rcases List.mem_append.mp hls with hls | hls
      · exact hmatrix ls hls l hl'
      rcases List.mem_append.mp hls with hls | hls
      · obtain ⟨a, ha, rfl⟩ := List.mem_map.mp hls
        exact List.mem_singleton.mp hl' ▸ haccepted a ha
      · rw [List.eq_of_mem_replicate hls] at hl'
        have hfill : l.1.val.natAbs ≤ d.literals.1.toNat :=
          fillerClause_le (fun h => by omega) (fun q hq => hle _ (hqs q hq)) l hl'
        rw [Int.abs_eq_natAbs]
        omega
    · rw [List.length_append, List.length_replicate, units, List.length_map]
      omega

/-- **A text that is read back**: two blocks, a clause, an assumption and a filler clause. -/
theorem forallExists_parsed : ∃ p q : Reader,
    Reader.Reaches (fun _ => 64) (Reader.start (.header quapiApiVersion
      ⟨⟨2, by decide⟩, ⟨3, by decide⟩, ⟨1, by decide⟩⟩ :: ([lit 1, lit (-2)].map .quantifier ++
        [[nzLit 1, nzLit (-2)]].flatMap Api.clauseMsgs ++ [.fork true]))) p ∧
    Reader.Reaches (fun _ => 64) { p with input := roundMsgs [nzLit 1] ++ [] } q ∧
    q.out = "p cnf 2 3\ne 1 0\na 2 0\n1 -2 0\n1 0\n1 -1 0\n".toList ∧
    ∀ strict, kissatParseDimacs strict q.out = ([.addQuantifier 1, .addQuantifier (-2),
      .addLit 1, .addLit (-2), .addLit 0, .addLit 1, .addLit 0, .addLit 1, .addLit (-1),
      .addLit 0], none) := by
  have hrun : ((Reader.start (.header quapiApiVersion
      ⟨⟨2, by decide⟩, ⟨3, by decide⟩, ⟨1, by decide⟩⟩ :: ([lit 1, lit (-2)].map .quantifier ++
        [[nzLit 1, nzLit (-2)]].flatMap Api.clauseMsgs ++ [.fork true]))).ticks
          (fun _ => 64) 14).bind (fun p =>
        (Reader.ticks (fun _ => 64) 6 { p with input := roundMsgs [nzLit 1] ++ [] }).map fun q =>
          (p.input, p.blocked, q.closed, q.out)) = some ([], some 64, some 0,
            "p cnf 2 3\ne 1 0\na 2 0\n1 -2 0\n1 0\n1 -1 0\n".toList) := rfl
  obtain ⟨p, hp, hrest⟩ := Option.bind_eq_some_iff.mp hrun
  obtain ⟨q, hq, hread⟩ := Option.map_eq_some_iff.mp hrest
  simp only [Prod.mk.injEq] at hread
  obtain ⟨hpi, hpb, hqc, hqo⟩ := hread
  refine ⟨p, q, Reader.reaches_ticks hp, Reader.reaches_ticks hq, hqo, ?_⟩
  intro strict
  exact parse_rendered (fun _ => by decide) (by decide) (by decide)
    (by decide) (by decide) (by decide) (by decide) (by decide) (by decide)
    (Reader.reaches_ticks hp) hpi (by rw [hpb]; rfl) (Reader.reaches_ticks hq) hqc strict

end

end Quapify

end QuAPI
