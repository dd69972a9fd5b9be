import Mathlib.Tactic

/-!
# Decimal numerals and the integers of a text

The canonical decimal representation `QuAPI.decimal` of an integer, the reading
`QuAPI.readInt` that undoes it, and the list `QuAPI.integers` of the integers a text
spells between white space. The digits themselves are the core library's
`Nat.toDigits`; this file only adds the sign, the two-digits-at-a-time
decomposition a table-driven printer goes by (`QuAPI.toDigits_of_hundred_le`), what a
numeral is known by (`QuAPI.canonical_iff`), and the token structure.

A text is built of numerals, each followed by a separator, so the integers of a text
are computed front to back by `QuAPI.integers_decimal`.
-/

namespace QuAPI

/-! ### Numerals -/

/-- The canonical decimal representation: no leading zeros, a sign exactly for
negative numbers. -/
def decimal (i : ℤ) : List Char :=
  if i < 0 then '-' :: Nat.toDigits 10 i.natAbs else Nat.toDigits 10 i.natAbs

theorem decimal_of_nonneg {i : ℤ} (h : 0 ≤ i) : decimal i = Nat.toDigits 10 i.natAbs := by
  rw [decimal, if_neg (by omega)]

theorem decimal_of_neg {i : ℤ} (h : i < 0) :
    decimal i = '-' :: Nat.toDigits 10 i.natAbs := by
  rw [decimal, if_pos h]

@[simp] theorem decimal_zero : decimal 0 = ['0'] := by decide

/-- A negative number is its absolute value behind a sign. -/
theorem decimal_neg {i : ℤ} (h : 0 < i) : decimal (-i) = '-' :: decimal i := by
  rw [decimal_of_neg (by omega), decimal_of_nonneg h.le, Int.natAbs_neg]

theorem decimal_ne_nil (i : ℤ) : decimal i ≠ [] := by
  rw [decimal]
  split
  · simp
  · exact Nat.toDigits_ne_nil

theorem length_toDigits_le {n k : ℕ} (hk : 0 < k) (h : n < 10 ^ k) :
    (Nat.toDigits 10 n).length ≤ k :=
  (Nat.length_toDigits_le_iff (by norm_num) hk).mpr h

/-- A number of 32 bits takes at most eleven characters. -/
theorem length_decimal_le {i : ℤ} (hl : -2147483648 ≤ i) (hu : i ≤ 2147483647) :
    (decimal i).length ≤ 11 := by
  have hd : (Nat.toDigits 10 i.natAbs).length ≤ 10 :=
    length_toDigits_le (by norm_num) (by norm_num; omega)
  rw [decimal]
  split
  · rw [List.length_cons]
    omega
  · omega

/-! ### Two digits at a time -/

/-- The two decimal digits of a number below hundred, the tens first. -/
def twoDigits (n : ℕ) : List Char := [(n / 10).digitChar, (n % 10).digitChar]

/-- From hundred on, the last two digits split off. -/
theorem toDigits_of_hundred_le {n : ℕ} (h : 100 ≤ n) :
    Nat.toDigits 10 n = Nat.toDigits 10 (n / 100) ++ twoDigits (n % 100) := by
  have h1 : n % 100 / 10 = n / 10 % 10 := by omega
  have h2 : n % 100 % 10 = n % 10 := by omega
  have h3 : n / 10 / 10 = n / 100 := by omega
  rw [Nat.toDigits_of_base_le (by norm_num) (by omega : 10 ≤ n),
    Nat.toDigits_of_base_le (by norm_num) (by omega : 10 ≤ n / 10), twoDigits, h1, h2, h3]
  simp

/-- Between ten and ninety-nine there are exactly two digits. -/
theorem toDigits_of_lt_hundred {n : ℕ} (h : 10 ≤ n) (h' : n < 100) :
    Nat.toDigits 10 n = twoDigits n := by
  rw [Nat.toDigits_of_base_le (by norm_num) h, Nat.toDigits_of_lt_base (by omega), twoDigits]
  simp

/-- There is no zero in front of a numeral. -/
theorem head_toDigits_ne {n : ℕ} {d : Char} {ds : List Char} (hn : n ≠ 0)
    (h : Nat.toDigits 10 n = d :: ds) : d ≠ '0' := by
  -- on the number, a digit at a time
  induction n using Nat.strong_induction_on generalizing ds with
  | _ n ih =>
    rcases lt_or_ge n 10 with hlt | hge
    · rw [Nat.toDigits_of_lt_base hlt] at h
      obtain ⟨rfl, -⟩ := List.cons.inj h
      interval_cases n <;> first | exact absurd rfl hn | decide
    · rw [Nat.toDigits_of_base_le (by norm_num) hge] at h
      obtain ⟨e, es, hes⟩ : ∃ e es, Nat.toDigits 10 (n / 10) = e :: es :=
        List.exists_cons_of_ne_nil Nat.toDigits_ne_nil
      rw [hes, List.cons_append] at h
      obtain ⟨rfl, -⟩ := List.cons.inj h
      exact ih (n / 10) (by omega) (by omega) hes

/-! ### Reading a numeral -/

/-- The number a nonempty string of digits spells. -/
def readNat (s : List Char) : Option ℕ :=
  if s ≠ [] ∧ s.all Char.isDigit then some (Nat.ofDigitChars 10 s 0) else none

/-- The integer a string spells, with an optional sign in front. -/
def readInt : List Char → Option ℤ
  | '-' :: s => (readNat s).map fun n : ℕ => -(n : ℤ)
  | s => (readNat s).map fun n : ℕ => (n : ℤ)

theorem readNat_toDigits (n : ℕ) : readNat (Nat.toDigits 10 n) = some n := by
  have hall : (Nat.toDigits 10 n).all Char.isDigit = true := by
    rw [List.all_eq_true]
    exact fun c hc => Nat.isDigit_of_mem_toDigits (by norm_num) (by norm_num) hc
  rw [readNat, if_pos ⟨Nat.toDigits_ne_nil, hall⟩, Nat.ofDigitChars_ten_toDigits]

/-- A numeral of a natural number has no sign. -/
theorem toDigits_ne_minus (n : ℕ) (s : List Char) : Nat.toDigits 10 n ≠ '-' :: s := by
  intro hs
  have hmem : '-' ∈ Nat.toDigits 10 n := by rw [hs]; exact List.mem_cons_self
  have hd := Nat.isDigit_of_mem_toDigits (by norm_num) (by norm_num) hmem
  exact absurd hd (by decide)

/-- **Reading a numeral back gives the integer it represents.** -/
theorem readInt_decimal (i : ℤ) : readInt (decimal i) = some i := by
  rcases lt_or_ge i 0 with h | h
  · rw [decimal_of_neg h, readInt, readNat_toDigits, Option.map_some]
    congr 1
    omega
  · rw [decimal_of_nonneg h]
    rw [readInt, readNat_toDigits, Option.map_some]
    · congr 1
      omega
    · exact fun s hs => toDigits_ne_minus _ s hs

/-! ### Canonical numerals -/

/-- A digit is the one of its value. -/
theorem exists_digitChar {d : Char} (h : d.isDigit = true) : ∃ k < 10, d = k.digitChar := by
  have hrange : 48 ≤ d.toNat ∧ d.toNat ≤ 57 := Char.isDigit_iff_toNat.mp h
  refine ⟨d.toNat - 48, by omega, Char.toNat_inj.mp ?_⟩
  rw [Nat.toNat_digitChar_of_lt_ten (by omega)]
  omega

/-- Digits behind a number that is not 0 continue its numeral. -/
theorem toDigits_append {ds : List Char} (hds : ∀ d ∈ ds, d.isDigit = true) {n : ℕ} (hn : 0 < n) :
    Nat.toDigits 10 n ++ ds = Nat.toDigits 10 (Nat.ofDigitChars 10 ds n) := by
  induction ds generalizing n with
  | nil => rw [List.append_nil, Nat.ofDigitChars_nil]
  | cons d ds ih =>
    obtain ⟨k, hk, rfl⟩ := exists_digitChar (hds d List.mem_cons_self)
    rw [Nat.ofDigitChars_cons_digitChar_of_lt_ten hk,
      ← ih (fun e he => hds e (List.mem_cons_of_mem _ he)) (by omega),
      ← Nat.toDigits_append_toDigits (by norm_num) hn hk, Nat.toDigits_of_lt_base hk,
      List.append_assoc, List.singleton_append]

/-- **Digits without a zero in front of others are the numeral of what they spell.** -/
theorem eq_toDigits {s : List Char} {n : ℕ} (h : readNat s = some n)
    (hzero : ∀ ds, ds ≠ [] → s ≠ '0' :: ds) : s = Nat.toDigits 10 n := by
  rw [readNat] at h
  split at h
  · rename_i hs
    obtain ⟨hne, hall⟩ := hs
    rw [List.all_eq_true] at hall
    obtain ⟨d, ds, rfl⟩ := List.exists_cons_of_ne_nil hne
    obtain ⟨k, hk, rfl⟩ := exists_digitChar (hall d List.mem_cons_self)
    have hval := Option.some.inj h
    rw [Nat.ofDigitChars_cons_digitChar_of_lt_ten hk, Nat.mul_zero, Nat.zero_add] at hval
    rw [← hval]
    rcases Nat.eq_zero_or_pos k with rfl | hpos
    · -- a zero stands alone
      have hnil : ds = [] := by
        by_contra hds
        exact hzero ds hds rfl
      rw [hnil, Nat.ofDigitChars_nil, Nat.toDigits_of_lt_base hk]
    · rw [← toDigits_append (fun e he => hall e (List.mem_cons_of_mem _ he)) hpos,
        Nat.toDigits_of_lt_base hk, List.singleton_append]
  · exact absurd h (Option.some_ne_none n).symm

/-- **A canonical numeral** of an integer: it is read as the integer, a sign stands in front of
exactly the negative ones, and no zero in front of other digits. -/
structure Canonical (i : ℤ) (s : List Char) : Prop where
  reads : readInt s = some i
  sign : s.head? = some '-' ↔ i < 0
  zero : ∀ ds, ds ≠ [] → s ≠ '0' :: ds ∧ s ≠ '-' :: '0' :: ds

theorem toDigits_ne_zero_cons (n : ℕ) {ds : List Char} (hds : ds ≠ []) :
    Nat.toDigits 10 n ≠ '0' :: ds := by
  intro h
  rcases eq_or_ne n 0 with rfl | hn
  · exact hds (List.cons.inj h).2.symm
  · exact head_toDigits_ne hn h rfl

/-- **There is one canonical numeral.** -/
theorem canonical_iff {i : ℤ} {s : List Char} : Canonical i s ↔ s = decimal i := by
  constructor
  · rintro ⟨hreads, hsign, hzero⟩
    rcases lt_or_ge i 0 with hi | hi
    · obtain ⟨ds, rfl⟩ := List.head?_eq_some_iff.mp (hsign.mpr hi)
      rw [readInt] at hreads
      obtain ⟨n, hn, hval⟩ := Option.map_eq_some_iff.mp hreads
      rw [decimal_of_neg hi, eq_toDigits hn fun es hes he => (hzero es hes).2 (by rw [he])]
      congr 2
      omega
    · have hhead : ∀ ds, s ≠ '-' :: ds := by
        rintro ds rfl
        exact not_lt.mpr hi (hsign.mp rfl)
      rw [readInt] at hreads
      · obtain ⟨n, hn, hval⟩ := Option.map_eq_some_iff.mp hreads
        rw [decimal_of_nonneg hi, eq_toDigits hn fun es hes => (hzero es hes).1]
        congr 1
        omega
      · exact fun ds hds => hhead ds hds
  · rintro rfl
    refine ⟨readInt_decimal i, ?_, ?_⟩
    · rcases lt_or_ge i 0 with hi | hi
      · rw [decimal_of_neg hi]
        exact iff_of_true rfl hi
      · rw [decimal_of_nonneg hi]
        refine iff_of_false ?_ (not_lt.mpr hi)
        intro hhead
        obtain ⟨ds, hds⟩ := List.head?_eq_some_iff.mp hhead
        exact toDigits_ne_minus _ _ hds
    · intro ds hds
      rcases lt_or_ge i 0 with hi | hi
      · rw [decimal_of_neg hi]
        constructor
        · intro h
          exact absurd (List.cons.inj h).1 (by decide)
        · intro h
          exact toDigits_ne_zero_cons _ hds (List.cons.inj h).2
      · rw [decimal_of_nonneg hi]
        exact ⟨toDigits_ne_zero_cons _ hds, toDigits_ne_minus _ _⟩

/-! ### The integers of a text -/

/-- White space between tokens. -/
def isWhite (c : Char) : Bool := c = ' ' || c = '\n'

/-- The nonempty stretches of a text between white space. -/
def words (text : List Char) : List (List Char) :=
  (text.splitOnP isWhite).filter fun w => !w.isEmpty

/-- **The integers of a text**, split at white space; `none` when some word is not an
integer. -/
def integers (text : List Char) : Option (List ℤ) := (words text).mapM readInt

@[simp] theorem integers_nil : integers [] = some [] := rfl

theorem isWhite_of_mem_decimal {i : ℤ} {c : Char} (h : c ∈ decimal i) : isWhite c = false := by
  have hd : ∀ c ∈ Nat.toDigits 10 i.natAbs, isWhite c = false := by
    intro c hc
    have hdig := Nat.isDigit_of_mem_toDigits (by norm_num) (by norm_num) hc
    rw [isWhite, Bool.or_eq_false_iff]
    constructor <;> refine decide_eq_false fun he => ?_ <;> rw [he] at hdig <;>
      exact absurd hdig (by decide)
  rw [decimal] at h
  split at h
  · rcases List.mem_cons.mp h with rfl | h
    · rfl
    · exact hd c h
  · exact hd c h

/-- **A numeral followed by white space spells its integer.** -/
theorem integers_decimal {c : Char} (hc : isWhite c = true) (i : ℤ) (text : List Char) :
    integers (decimal i ++ c :: text) = (integers text).map (i :: ·) := by
  have h : (decimal i ++ c :: text).splitOnP isWhite = decimal i :: text.splitOnP isWhite :=
    List.splitOnP_append_cons_of_forall_mem (fun _ hd => isWhite_of_mem_decimal hd) c hc text
  have hne : (decimal i).isEmpty = false := by
    simpa using decimal_ne_nil i
  simp only [integers, words, h, List.filter_cons, hne, Bool.not_false, if_true,
    List.mapM_cons, readInt_decimal]
  cases (List.filter (fun w => !w.isEmpty) (List.splitOnP isWhite text)).mapM readInt <;> rfl

end QuAPI
