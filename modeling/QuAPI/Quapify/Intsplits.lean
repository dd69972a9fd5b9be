import Mathlib.Data.List.SplitLengths
import Mathlib.Data.Nat.Log
import QuAPI.Message
import QuAPI.MixedRadix
import QuAPI.Quapify.Parse

/-!
# Integer splits

quapify reads the first quantifiers of a formula as numbers: a split `-i 3` makes a number below
3 of the next two of them. `inflate_intsplits` generates a cube for every tuple of such numbers,
with an odometer whose carries run from the last place to the first one.

`QuAPI.Quapify.inflateIntsplits_enumerates` is the result: the odometer ends, no tuple is left out
or generated twice, the cubes come in lexicographic order of the tuples, and any two of them
disagree in a sign. The odometer itself is `MixedRadix.digits`, and the cube of a tuple is stated
with the bits of its components (`QuAPI.Quapify.cube`). How many bits a component has is what
`ceil_log2` computes, and `QuAPI.Quapify.splitWidth_exact` says that there are just enough of them.
-/

namespace QuAPI

namespace Quapify

/-! ### The configuration -/

/-- An integer split: `add_intsplit_nesting_level` ignores the others. -/
abbrev Intsplit := {s : CInt // 0 < s.1}

/-- The fields of `struct config` that decide what is assumed and solved, and the static variable
of `add_to_assumptions`. -/
structure Config where
  assumptionsCount : ℕ
  assumptionsMaxAssumptionSize : ℕ
  /-- The cubes, each with a zero behind it. -/
  assumptions : List ℤ
  intsplitsHighestIntsplit : ℕ
  intsplits : List Intsplit
  generateAssumptionList : Bool
  /-- The one cube to be solved, or -1 for all of them. -/
  selectedAssumption : ℤ
  strictness : Strictness
  /-- `current_assumption_size`. -/
  currentAssumptionSize : ℕ

/-- The configuration that `parse_cli` begins with. -/
def Config.init : Config where
  assumptionsCount := 0
  assumptionsMaxAssumptionSize := 0
  assumptions := []
  intsplitsHighestIntsplit := 0
  intsplits := []
  generateAssumptionList := false
  selectedAssumption := -1
  strictness := .normalParsing
  currentAssumptionSize := 0

/-- `add_to_assumptions`. -/
def Config.addToAssumptions (cfg : Config) (assumption : ℤ) : Config :=
  let cfg := if assumption = 0 then
      { cfg with
        assumptionsMaxAssumptionSize :=
          if cfg.assumptionsMaxAssumptionSize < cfg.currentAssumptionSize then
            cfg.currentAssumptionSize
          else cfg.assumptionsMaxAssumptionSize
        assumptionsCount := cfg.assumptionsCount + 1
        currentAssumptionSize := 0 }
    else { cfg with currentAssumptionSize := cfg.currentAssumptionSize + 1 }
  { cfg with assumptions := cfg.assumptions ++ [assumption] }

/-- `add_intsplit_nesting_level`. -/
def Config.addIntsplitNestingLevel (cfg : Config) (intsplit : CInt) : Config :=
  if h : 0 < intsplit.1 then
    { cfg with
      intsplitsHighestIntsplit :=
        if cfg.intsplitsHighestIntsplit < intsplit.1.toNat then intsplit.1.toNat
        else cfg.intsplitsHighestIntsplit
      intsplits := cfg.intsplits ++ [⟨intsplit, h⟩] }
  else cfg

/-! ### The length of a split -/

/-- The table of `ceil_log2`. -/
def ceilLog2Table : List ℕ :=
  [0xFFFFFFFF00000000, 0x00000000FFFF0000, 0x000000000000FF00, 0x00000000000000F0,
    0x000000000000000C, 0x0000000000000002]

/-- The loop of `ceil_log2`, over what is left of the table. -/
def ceilLog2Loop : List ℕ → ℕ → ℕ → ℕ → ℕ
  | [], _, y, _ => y
  | t :: ts, j, y, x =>
    let k := if x &&& t = 0 then 0 else j
    ceilLog2Loop ts (j >>> 1) (y + k) (x >>> k)

/-- `ceil_log2`. -/
def ceilLog2 (x : ℕ) : ℕ :=
  ceilLog2Loop ceilLog2Table 32 (if x &&& (x - 1) = 0 then 0 else 1) x

/-- `get_bit`. The -1 of the source is returned as an `unsigned char`. -/
def getBit (n b : ℕ) : ℕ := if 32 ≤ b then 255 else (n >>> b) &&& 1

/-- `intsplits_current_length`, for the split at the index. -/
def currentLength (intSplit : Intsplit) : ℕ :=
  if intSplit.1.1 ≠ 0 then ceilLog2 intSplit.1.1.toNat else 1

/-- `intsplits_summed_length`. -/
def Config.intsplitsSummedLength (cfg : Config) (index : ℕ) : ℕ :=
  ((cfg.intsplits.take index).map currentLength).sum

/-- The entry of the table for a half of `j` bits. -/
def halfMask (j : ℕ) : ℕ := (2 ^ j - 1) <<< j

/-- A half is empty if the number fits into the other one. -/
theorem and_halfMask_eq_zero_iff {x j : ℕ} (h : x < 2 ^ (j + j)) :
    x &&& halfMask j = 0 ↔ x < 2 ^ j := by
  constructor
  · intro hzero
    by_contra hle
    have hx : x ≠ 0 := by
      rintro rfl
      exact hle (Nat.two_pow_pos j)
    have hlow : j ≤ x.log2 := (Nat.le_log2 hx).mpr (not_lt.mp hle)
    have hhigh : x.log2 < j + j := (Nat.log2_lt hx).mpr h
    have hbit : (x &&& halfMask j).testBit x.log2 = true := by
      rw [Nat.testBit_and, Nat.testBit_log2 hx, halfMask, Nat.testBit_shiftLeft,
        Nat.testBit_two_pow_sub_one]
      simp only [ge_iff_le, hlow, decide_true, Bool.true_and, decide_eq_true_eq]
      omega
    rw [hzero, Nat.zero_testBit] at hbit
    exact Bool.false_ne_true hbit
  · intro hlt
    refine Nat.eq_of_testBit_eq ?_
    intro i
    rw [Nat.testBit_and, halfMask, Nat.testBit_shiftLeft, Nat.zero_testBit]
    rcases lt_or_ge i j with hi | hi
    · rw [decide_eq_false (not_le.mpr hi), Bool.false_and, Bool.and_false]
    · rw [Nat.testBit_eq_false_of_lt (hlt.trans_le (Nat.pow_le_pow_right (by omega) hi)),
        Bool.false_and]

/-- **The loop adds the binary logarithm**, with the masks of `m` halvings to come. -/
theorem ceilLog2Loop_eq {m x : ℕ} (y : ℕ) (hx : x ≠ 0) (h : x < 2 ^ 2 ^ m) :
    ceilLog2Loop ((List.range m).reverse.map fun i => halfMask (2 ^ i)) (2 ^ m / 2) y x =
      y + x.log2 := by
  -- on the halvings that are left: the upper half of the bits is looked at, or the lower one
  induction m generalizing x y with
  | zero =>
    obtain rfl : x = 1 := by
      rw [Nat.pow_zero, Nat.pow_one] at h
      omega
    rfl
  | succ m ih =>
    have hhalf : 2 ^ (m + 1) / 2 = 2 ^ m := by rw [Nat.pow_succ, Nat.mul_div_cancel _ two_pos]
    have hdouble : 2 ^ (m + 1) = 2 ^ m + 2 ^ m := by rw [Nat.pow_succ, Nat.mul_two]
    rw [List.range_succ, List.reverse_append, List.reverse_singleton, List.singleton_append,
      List.map_cons, hhalf, ceilLog2Loop, Nat.shiftRight_eq_div_pow, Nat.pow_one]
    rw [hdouble] at h
    by_cases hlt : x < 2 ^ 2 ^ m
    · simp only [(and_halfMask_eq_zero_iff h).mpr hlt, if_true, Nat.add_zero, Nat.shiftRight_zero]
      exact ih y hx hlt
    · have hle := not_lt.mp hlt
      have hdiv : x >>> 2 ^ m = x / 2 ^ 2 ^ m := Nat.shiftRight_eq_div_pow _ _
      have hpos : x / 2 ^ 2 ^ m ≠ 0 := Nat.div_ne_zero_iff.mpr ⟨(Nat.two_pow_pos _).ne', hle⟩
      have hsmall : x / 2 ^ 2 ^ m < 2 ^ 2 ^ m := by
        rw [Nat.div_lt_iff_lt_mul (Nat.two_pow_pos _), ← Nat.pow_add]
        exact h
      -- the bits that are shifted out are counted
      have hlog : (x / 2 ^ 2 ^ m).log2 + 2 ^ m = x.log2 := by
        refine ((Nat.log2_eq_iff hx).mpr ?_).symm
        obtain ⟨hlow, hhigh⟩ := (Nat.log2_eq_iff hpos).mp rfl
        constructor
        · rw [Nat.pow_add]
          exact (Nat.le_div_iff_mul_le (Nat.two_pow_pos _)).mp hlow
        · rw [Nat.add_right_comm, Nat.pow_add]
          exact (Nat.div_lt_iff_lt_mul (Nat.two_pow_pos _)).mp hhigh
      simp only [mt (and_halfMask_eq_zero_iff h).mp hlt, if_false, hdiv]
      rw [ih _ hpos hsmall]
      omega

/-- **`ceil_log2` is the logarithm, rounded up.** -/
theorem ceilLog2_eq_clog {x : ℕ} (hx : x ≠ 0) (h : x < 2 ^ 64) : ceilLog2 x = Nat.clog 2 x := by
  have htable : ceilLog2Table = (List.range 6).reverse.map fun i => halfMask (2 ^ i) := by decide
  have hloop : ∀ y, ceilLog2Loop ceilLog2Table 32 y x = y + x.log2 := fun y => by
    rw [htable]
    exact ceilLog2Loop_eq y hx h
  obtain ⟨hlow, hhigh⟩ := (Nat.log2_eq_iff hx).mp rfl
  rw [ceilLog2, hloop]
  -- a power of two is not rounded
  by_cases hpow : x &&& (x - 1) = 0
  · obtain ⟨e, rfl⟩ := (Nat.and_sub_one_eq_zero_iff_isPowerOfTwo hx).mp hpow
    rw [if_pos hpow, Nat.zero_add, Nat.log2_two_pow, Nat.clog_pow 2 e one_lt_two]
  · have hne : 2 ^ x.log2 ≠ x := fun he =>
      hpow ((Nat.and_sub_one_eq_zero_iff_isPowerOfTwo hx).mpr ⟨x.log2, he.symm⟩)
    rw [if_neg hpow]
    refine (le_antisymm (Nat.clog_le_of_le_pow ?_) ?_).symm
    · rw [Nat.add_comm]
      exact hhigh.le
    · rw [Nat.add_comm]
      exact (Nat.lt_clog_iff_pow_lt one_lt_two).mpr (lt_of_le_of_ne hlow hne)

/-! ### The cube of a state -/

/-- `(a ^ b) < 0`: the two quantifiers have different signs. -/
def signChange (a b : NzLit) : Bool :=
  (BitVec.ofInt 32 a.1.val ^^^ BitVec.ofInt 32 b.1.val).toInt < 0

/-- The inner loop of `intsplit_state_to_assumption`, with `bit` bits to come: the literals it
sets, and the quantifiers behind them. There is no result if the sign changes in between. -/
def splitLiterals (state : ℕ) : ℕ → List NzLit → Option (List ℤ × List NzLit)
  | 0, quantifiers => some ([], quantifiers)
  | _ + 1, [] => none
  | bit + 1, q :: quantifiers =>
    if 0 < bit ∧ quantifiers.head?.any (signChange q) then none
    else (splitLiterals state bit quantifiers).map fun r =>
      ((if getBit state bit = 0 then -|q.1.val| else |q.1.val|) :: r.1, r.2)

/-- The outer loop, over the splits and the quantifiers that are left. -/
def stateLiterals : List Intsplit → List ℕ → List NzLit → Option (List ℤ)
  | s :: intsplits, v :: state, quantifiers =>
    (splitLiterals v (currentLength s) quantifiers).bind fun r =>
      (stateLiterals intsplits state r.2).map (r.1 ++ ·)
  | _, _, _ => some []

/-- `intsplit_state_to_assumption`; where it returns false, it has not changed anything. -/
def Config.intsplitStateToAssumption (quantifiers : List NzLit) (cfg : Config)
    (state : List ℕ) : Option Config :=
  if quantifiers.length < cfg.intsplitsSummedLength state.length then none
  else (stateLiterals cfg.intsplits state quantifiers).map fun assumption =>
    (assumption ++ [0]).foldl Config.addToAssumptions cfg

/-! ### The width is exact -/

/-- The number of values of a split. -/
def Intsplit.radix (s : Intsplit) : ℕ := s.1.1.toNat

theorem Intsplit.radix_pos (s : Intsplit) : 0 < s.radix := by
  have h := s.2
  rw [Intsplit.radix]
  omega

theorem Intsplit.radix_lt (s : Intsplit) : s.radix < 2 ^ 31 := by
  have h := s.1.2.2
  rw [Intsplit.radix]
  omega

theorem currentLength_eq (s : Intsplit) : currentLength s = Nat.clog 2 s.radix := by
  have h := s.radix_pos
  have hlt : s.radix < 2 ^ 64 := s.radix_lt.trans (by norm_num)
  rw [currentLength, if_pos s.2.ne']
  exact ceilLog2_eq_clog h.ne' hlt

theorem currentLength_le (s : Intsplit) : currentLength s ≤ 31 := by
  rw [currentLength_eq]
  exact Nat.clog_le_of_le_pow s.radix_lt.le

theorem getBit_eq_zero_iff {n b : ℕ} (h : b < 32) : getBit n b = 0 ↔ n.testBit b = false := by
  rw [getBit, if_neg (not_le.mpr h), Nat.testBit, Nat.and_comm]
  simp

theorem getBit_eq {n b : ℕ} (h : b < 32) : getBit n b = n / 2 ^ b % 2 := by
  rw [getBit, if_neg (not_le.mpr h), Nat.and_one_is_mod, Nat.shiftRight_eq_div_pow]

/-- The number that the lowest `w` bits of a number make. -/
def bitsValue (w n : ℕ) : ℕ := ∑ b ∈ Finset.range w, getBit n b * 2 ^ b

theorem bitsValue_eq {w : ℕ} (hw : w ≤ 32) (n : ℕ) : bitsValue w n = n % 2 ^ w := by
  induction w with
  | zero => rw [bitsValue, Finset.sum_range_zero, Nat.pow_zero, Nat.mod_one]
  | succ w ih =>
    rw [bitsValue, Finset.sum_range_succ, ← bitsValue, ih (Nat.le_of_succ_le hw), getBit_eq hw,
      Nat.mod_pow_succ, Nat.mul_comm]

/-- The bits below a power of two are those of 0. -/
theorem getBit_two_pow {w b : ℕ} (hw : w ≤ 32) (h : b < w) : getBit (2 ^ w) b = getBit 0 b := by
  have hb : b < 32 := h.trans_le hw
  have hpow : 2 ^ w = 2 ^ b * 2 ^ (w - b) := by rw [← Nat.pow_add, Nat.add_sub_cancel' h.le]
  have heven : 2 ^ (w - b) % 2 = 0 := Nat.mod_eq_zero_of_dvd (dvd_pow_self 2 (by omega))
  rw [getBit_eq hb, getBit_eq hb, hpow, Nat.mul_div_cancel_left _ (Nat.two_pow_pos b), heven,
    Nat.zero_div]

/-- A shorter width has a power of two below the split. -/
theorem two_pow_lt_radix {s : Intsplit} {w : ℕ} (h : w < currentLength s) :
    w ≤ 32 ∧ 2 ^ w < s.radix := by
  have hle : w ≤ 31 := h.le.trans (currentLength_le s)
  rw [currentLength_eq] at h
  exact ⟨hle.trans (by norm_num), (Nat.lt_clog_iff_pow_lt one_lt_two).mp h⟩

theorem bitsValue_currentLength {s : Intsplit} {v : ℕ} (hv : v < s.radix) :
    bitsValue (currentLength s) v = v := by
  have hle := currentLength_le s
  have hpow : s.radix ≤ 2 ^ currentLength s := by
    rw [currentLength_eq]
    exact Nat.le_pow_clog one_lt_two _
  rw [bitsValue_eq (by omega), Nat.mod_eq_of_lt (hv.trans_le hpow)]

/-- **The width of a split is exact.** `ceil_log2` returns the least exponent whose power of two
is not below its argument, for every argument of 64 bits that is not 0. So the width of a split is
the least one at which `get_bit` represents the values below the split: at which every value is
made up by its bits, and at which two values never have the same bits. -/
theorem splitWidth_exact :
    (∀ x : ℕ, 1 ≤ x → x < 2 ^ 64 → IsLeast {r | x ≤ 2 ^ r} (ceilLog2 x)) ∧
    ∀ s : Intsplit,
      IsLeast {w | ∀ v < s.radix, bitsValue w v = v} (currentLength s) ∧
      IsLeast {w | ∀ v < s.radix, ∀ v' < s.radix,
        (∀ b < w, getBit v b = getBit v' b) → v = v'} (currentLength s) := by
  refine ⟨?_, ?_⟩
  · intro x hx h
    rw [ceilLog2_eq_clog (Nat.one_le_iff_ne_zero.mp hx) h]
    constructor
    · exact Nat.le_pow_clog one_lt_two x
    · intro r hr
      exact Nat.clog_le_of_le_pow hr
  · intro s
    refine ⟨⟨?_, ?_⟩, ?_, ?_⟩
    · intro v hv
      exact bitsValue_currentLength hv
    · intro w hw
      by_contra hlt
      -- the power of two has no bit that is looked at
      obtain ⟨hle, hpow⟩ := two_pow_lt_radix (not_le.mp hlt)
      have hzero := hw (2 ^ w) hpow
      rw [bitsValue_eq hle, Nat.mod_self] at hzero
      exact (Nat.two_pow_pos w).ne hzero
    · intro v hv v' hv' hbits
      rw [← bitsValue_currentLength hv, ← bitsValue_currentLength hv', bitsValue, bitsValue]
      refine Finset.sum_congr rfl ?_
      intro b hb
      rw [hbits b (Finset.mem_range.mp hb)]
    · intro w hw
      by_contra hlt
      -- and cannot be told from 0
      obtain ⟨hle, hpow⟩ := two_pow_lt_radix (not_le.mp hlt)
      have hzero := hw (2 ^ w) hpow 0 s.radix_pos fun b hb => getBit_two_pow hle hb
      exact (Nat.two_pow_pos w).ne' hzero

/-- The argument `2 ^ 63 + 1` takes all 64 bits. -/
theorem ceilLog2_large : IsLeast {r | 2 ^ 63 + 1 ≤ 2 ^ r} (ceilLog2 (2 ^ 63 + 1)) ∧
    ceilLog2 (2 ^ 63 + 1) = 64 :=
  ⟨splitWidth_exact.1 (2 ^ 63 + 1) (by norm_num) (by norm_num), by decide⟩

/-! ### The literals for the bits -/

/-- The literal for a bit: positive for a 1. -/
def bitLiteral (b : Bool) (q : NzLit) : ℤ := if b then |q.1.val| else -|q.1.val|

/-- Quantifiers of one kind. -/
def Uniform (quantifiers : List NzLit) : Prop :=
  ∀ p ∈ quantifiers, ∀ q ∈ quantifiers, (0 < p.1.val ↔ 0 < q.1.val)

instance (quantifiers : List NzLit) : Decidable (Uniform quantifiers) :=
  inferInstanceAs (Decidable (∀ p ∈ quantifiers, ∀ q ∈ quantifiers, (0 < p.1.val ↔ 0 < q.1.val)))

/-- The sign bit of the exclusive or tells whether the signs differ. -/
theorem signChange_eq_false_iff {a b : NzLit} :
    signChange a b = false ↔ (0 < a.1.val ↔ 0 < b.1.val) := by
  have hmsb : ∀ l : NzLit, (BitVec.ofInt 32 l.1.val).msb = decide (l.1.val < 0) := fun l => by
    have hlo := l.1.lower
    have hup := l.1.upper
    rw [BitVec.msb_eq_toInt, BitVec.toInt_ofInt, Int.bmod_eq_of_le (by omega) (by omega)]
  have ha := a.val_ne_zero
  have hb := b.val_ne_zero
  rw [signChange, ← BitVec.msb_eq_toInt, BitVec.msb_xor, hmsb, hmsb]
  by_cases h : a.1.val < 0 <;> by_cases h' : b.1.val < 0 <;> simp [h, h'] <;> omega

theorem uniform_cons_cons {p q : NzLit} {quantifiers : List NzLit} :
    Uniform (p :: q :: quantifiers) ↔ (0 < p.1.val ↔ 0 < q.1.val) ∧ Uniform (q :: quantifiers) := by
  constructor
  · intro h
    exact ⟨h p List.mem_cons_self q (List.mem_cons_of_mem _ List.mem_cons_self),
      fun a ha b hb => h a (List.mem_cons_of_mem _ ha) b (List.mem_cons_of_mem _ hb)⟩
  · rintro ⟨hpq, h⟩
    have hall : ∀ a ∈ p :: q :: quantifiers, (0 < a.1.val ↔ 0 < q.1.val) := by
      intro a ha
      rcases List.mem_cons.mp ha with rfl | ha
      · exact hpq
      · exact h a ha q List.mem_cons_self
    exact fun a ha b hb => (hall a ha).trans (hall b hb).symm

/-- **The literals of one split**: its bits, if its quantifiers are of one kind. -/
theorem splitLiterals_eq {w : ℕ} (hw : w ≤ 32) {quantifiers : List NzLit}
    (hlen : w ≤ quantifiers.length) (v : ℕ) : splitLiterals v w quantifiers =
      if Uniform (quantifiers.take w) then
        some (List.zipWith bitLiteral (MixedRadix.bits w v) quantifiers, quantifiers.drop w)
      else none := by
  -- on the bits, from the most significant one
  induction w generalizing quantifiers with
  | zero =>
    have huniform : Uniform (quantifiers.take 0) := fun p hp => absurd hp List.not_mem_nil
    rw [if_pos huniform, splitLiterals, MixedRadix.bits, List.zipWith_nil_left, List.drop_zero]
  | succ w ih =>
    cases quantifiers with
    | nil => exact absurd hlen (Nat.not_succ_le_zero w)
    | cons q quantifiers =>
      have hlen' : w ≤ quantifiers.length := Nat.le_of_succ_le_succ hlen
      have hlit : (if getBit v w = 0 then -|q.1.val| else |q.1.val|) =
          bitLiteral (v.testBit w) q := by
        rw [bitLiteral]
        by_cases hbit : v.testBit w = false
        · rw [if_pos ((getBit_eq_zero_iff hw).mpr hbit), hbit, if_neg Bool.false_ne_true]
        · rw [if_neg (mt (getBit_eq_zero_iff hw).mp hbit), if_pos (Bool.not_eq_false _ ▸ hbit)]
      rw [splitLiterals, ih (Nat.le_of_succ_le hw) hlen', hlit]
      cases w with
      | zero =>
        have hnil : Uniform (quantifiers.take 0) := fun p hp => absurd hp List.not_mem_nil
        have hone : Uniform ((q :: quantifiers).take 1) := fun a ha b hb => by
          rw [List.mem_singleton.mp ha, List.mem_singleton.mp hb]
        rw [if_neg (fun h => lt_irrefl 0 h.1), if_pos hnil, if_pos hone]
        rfl
      | succ w =>
        cases quantifiers with
        | nil => exact absurd hlen' (Nat.not_succ_le_zero w)
        | cons p quantifiers =>
          have hhead : (p :: quantifiers).head?.any (signChange q) = signChange q p := rfl
          -- two neighbours of different kinds stop it, and otherwise the rest decides
          by_cases hsign : signChange q p = false
          · have hgoes : ¬(0 < w + 1 ∧ (p :: quantifiers).head?.any (signChange q) = true) :=
              fun h => Bool.false_ne_true (hsign.symm.trans (hhead.symm.trans h.2))
            rw [if_neg hgoes]
            simp only [List.take_succ_cons, uniform_cons_cons, ← signChange_eq_false_iff, hsign,
              true_and]
            by_cases hrest : Uniform (p :: quantifiers.take w)
            · simp only [hrest, if_true, Option.map_some]
              rfl
            · simp only [hrest, if_false, Option.map_none]
          · have hstops : 0 < w + 1 ∧ (p :: quantifiers).head?.any (signChange q) = true :=
              ⟨Nat.succ_pos w, hhead.trans (Bool.eq_true_of_not_eq_false hsign)⟩
            have hmixed : ¬Uniform ((q :: p :: quantifiers).take (w + 1 + 1)) := fun h =>
              hsign (signChange_eq_false_iff.mpr (uniform_cons_cons.mp h).1)
            rw [if_pos hstops, if_neg hmixed]

/-- The bits of a tuple, a split after the other. -/
def tupleBits (intsplits : List Intsplit) (vs : List ℕ) : List Bool :=
  (List.zipWith (fun s v => MixedRadix.bits (Nat.clog 2 s.radix) v) intsplits vs).flatten

/-- **The cube of a tuple**: the bits of its components, most significant first, as the signs of
the first quantifiers. -/
def cube (intsplits : List Intsplit) (quantifiers : List NzLit) (vs : List ℕ) : List ℤ :=
  List.zipWith bitLiteral (tupleBits intsplits vs) quantifiers

/-- How many quantifiers the splits take. -/
def summedLength (intsplits : List Intsplit) : ℕ :=
  (intsplits.map fun s => Nat.clog 2 s.radix).sum

/-- No split spans a sign change: where the quantifiers are cut into the lengths of the splits,
every piece is of one kind. -/
def Unmixed (intsplits : List Intsplit) (quantifiers : List NzLit) : Prop :=
  ∀ piece ∈ (intsplits.map fun s => Nat.clog 2 s.radix).splitLengths quantifiers, Uniform piece

instance (intsplits : List Intsplit) (quantifiers : List NzLit) :
    Decidable (Unmixed intsplits quantifiers) :=
  inferInstanceAs (Decidable (∀ piece ∈ _, Uniform piece))

theorem tupleBits_cons (s : Intsplit) (intsplits : List Intsplit) (v : ℕ) (vs : List ℕ) :
    tupleBits (s :: intsplits) (v :: vs) =
      MixedRadix.bits (Nat.clog 2 s.radix) v ++ tupleBits intsplits vs := rfl

theorem unmixed_cons {s : Intsplit} {intsplits : List Intsplit} {quantifiers : List NzLit} :
    Unmixed (s :: intsplits) quantifiers ↔ Uniform (quantifiers.take (Nat.clog 2 s.radix)) ∧
      Unmixed intsplits (quantifiers.drop (Nat.clog 2 s.radix)) := by
  rw [Unmixed, List.map_cons, List.splitLengths_cons, List.forall_mem_cons]
  exact Iff.rfl

/-- Two lists behind each other are zipped one after the other. -/
theorem zipWith_append_left {α β γ : Type*} (f : α → β → γ) (as bs : List α) (cs : List β) :
    List.zipWith f (as ++ bs) cs =
      List.zipWith f as cs ++ List.zipWith f bs (cs.drop as.length) := by
  induction as generalizing cs with
  | nil => rfl
  | cons a as ih =>
    cases cs with
    | nil => simp
    | cons c cs =>
      rw [List.cons_append, List.zipWith_cons_cons, List.zipWith_cons_cons, List.cons_append, ih]
      rfl

theorem cube_cons (s : Intsplit) (intsplits : List Intsplit) (quantifiers : List NzLit) (v : ℕ)
    (vs : List ℕ) : cube (s :: intsplits) quantifiers (v :: vs) =
      List.zipWith bitLiteral (MixedRadix.bits (Nat.clog 2 s.radix) v) quantifiers ++
        cube intsplits (quantifiers.drop (Nat.clog 2 s.radix)) vs := by
  rw [cube, tupleBits_cons, zipWith_append_left, MixedRadix.length_bits]
  rfl

/-- **The literals of a state** are the cube of its tuple. -/
theorem stateLiterals_eq {intsplits : List Intsplit} {state : List ℕ} {quantifiers : List NzLit}
    (hstate : state.length = intsplits.length)
    (hlen : summedLength intsplits ≤ quantifiers.length) :
    stateLiterals intsplits state quantifiers =
      if Unmixed intsplits quantifiers then some (cube intsplits quantifiers state) else none := by
  induction intsplits generalizing state quantifiers with
  | nil =>
    have hnil : Unmixed [] quantifiers := fun piece hp => absurd hp List.not_mem_nil
    rw [if_pos hnil, stateLiterals]
    · rfl
    · simp
  | cons s intsplits ih =>
    cases state with
    | nil => exact absurd hstate (by simp)
    | cons v state =>
      rw [summedLength, List.map_cons, List.sum_cons] at hlen
      have hw : Nat.clog 2 s.radix ≤ quantifiers.length := (Nat.le_add_right _ _).trans hlen
      have hle : Nat.clog 2 s.radix ≤ 32 :=
        (currentLength_eq s ▸ currentLength_le s).trans (by norm_num)
      have hrest : summedLength intsplits ≤ (quantifiers.drop (Nat.clog 2 s.radix)).length := by
        rw [List.length_drop, summedLength]
        omega
      rw [stateLiterals, currentLength_eq, splitLiterals_eq hle hw]
      by_cases huniform : Uniform (quantifiers.take (Nat.clog 2 s.radix))
      · rw [if_pos huniform, Option.bind_some, ih (Nat.succ.inj hstate) hrest]
        simp only [unmixed_cons, huniform, true_and]
        split
        · rw [Option.map_some, cube_cons]
        · rfl
      · rw [if_neg huniform, Option.bind_none, if_neg fun h => huniform (unmixed_cons.mp h).1]

/-- A configuration with one more cube. -/
def Config.addCube (cfg : Config) (literals : List ℤ) : Config :=
  { cfg with
    assumptionsCount := cfg.assumptionsCount + 1
    assumptionsMaxAssumptionSize :=
      max cfg.assumptionsMaxAssumptionSize (cfg.currentAssumptionSize + literals.length)
    assumptions := cfg.assumptions ++ (literals ++ [0])
    currentAssumptionSize := 0 }

/-- **A cube is added**, a literal at a time. -/
theorem foldl_addToAssumptions {literals : List ℤ} (h : ∀ l ∈ literals, l ≠ 0) (cfg : Config) :
    (literals ++ [0]).foldl Config.addToAssumptions cfg = cfg.addCube literals := by
  induction literals generalizing cfg with
  | nil =>
    have hmax : (if cfg.assumptionsMaxAssumptionSize < cfg.currentAssumptionSize then
        cfg.currentAssumptionSize else cfg.assumptionsMaxAssumptionSize) =
          max cfg.assumptionsMaxAssumptionSize cfg.currentAssumptionSize := by
      split <;> omega
    rw [List.nil_append, List.foldl_cons, List.foldl_nil, Config.addToAssumptions, if_pos rfl,
      hmax]
    rfl
  | cons l literals ih =>
    have hl := h l List.mem_cons_self
    rw [List.cons_append, List.foldl_cons, ih fun a ha => h a (List.mem_cons_of_mem _ ha),
      Config.addToAssumptions, if_neg hl, Config.addCube, Config.addCube]
    simp only [List.append_assoc, List.nil_append, List.cons_append, List.length_cons,
      Nat.add_assoc, Nat.add_comm 1]

theorem bitLiteral_ne_zero (b : Bool) (q : NzLit) : bitLiteral b q ≠ 0 := by
  have hq := q.val_ne_zero
  rw [bitLiteral]
  split
  · exact abs_ne_zero.mpr hq
  · exact neg_ne_zero.mpr (abs_ne_zero.mpr hq)

theorem cube_ne_zero {intsplits : List Intsplit} {quantifiers : List NzLit} {vs : List ℕ} :
    ∀ l ∈ cube intsplits quantifiers vs, l ≠ 0 := by
  intro l hl
  obtain ⟨i, hi, rfl⟩ := List.getElem_of_mem hl
  rw [cube, List.length_zipWith] at hi
  simp only [cube, List.getElem_zipWith]
  exact bitLiteral_ne_zero _ _

theorem length_tupleBits {intsplits : List Intsplit} {vs : List ℕ}
    (h : vs.length = intsplits.length) :
    (tupleBits intsplits vs).length = summedLength intsplits := by
  induction intsplits generalizing vs with
  | nil => rfl
  | cons s intsplits ih =>
    cases vs with
    | nil => exact absurd h (by simp)
    | cons v vs =>
      rw [tupleBits_cons, List.length_append, MixedRadix.length_bits, ih (Nat.succ.inj h)]
      rfl

theorem length_cube {intsplits : List Intsplit} {quantifiers : List NzLit} {vs : List ℕ}
    (h : vs.length = intsplits.length) (hlen : summedLength intsplits ≤ quantifiers.length) :
    (cube intsplits quantifiers vs).length = summedLength intsplits := by
  rw [cube, List.length_zipWith, length_tupleBits h, min_eq_left hlen]

/-- **`intsplit_state_to_assumption`** adds the cube of the state, if there are enough quantifiers
and no split spans a sign change. -/
theorem intsplitStateToAssumption_eq {cfg : Config} {state : List ℕ} (quantifiers : List NzLit)
    (h : state.length = cfg.intsplits.length) :
    cfg.intsplitStateToAssumption quantifiers state =
      if summedLength cfg.intsplits ≤ quantifiers.length ∧ Unmixed cfg.intsplits quantifiers then
        some (cfg.addCube (cube cfg.intsplits quantifiers state))
      else none := by
  have hsum : cfg.intsplitsSummedLength state.length = summedLength cfg.intsplits := by
    rw [Config.intsplitsSummedLength, h, List.take_length, summedLength]
    exact congrArg List.sum (List.map_congr_left fun s _ => currentLength_eq s)
  rw [Config.intsplitStateToAssumption, hsum]
  by_cases hlen : summedLength cfg.intsplits ≤ quantifiers.length
  -- there are variables enough for all splits
  · rw [if_neg (not_lt.mpr hlen), stateLiterals_eq h hlen]
    by_cases hmixed : Unmixed cfg.intsplits quantifiers
    · rw [if_pos hmixed, if_pos ⟨hlen, hmixed⟩, Option.map_some,
        foldl_addToAssumptions cube_ne_zero]
    · rw [if_neg hmixed, if_neg fun hc => hmixed hc.2, Option.map_none]
  · rw [if_pos (not_le.mp hlen), if_neg fun hc => hlen hc.1]

/-! ### The odometer -/

/-- A sum of two `int`s that may overflow: the one below does for the largest split, and then
it equals no digit. -/
def wrappingAdd (a b : ℤ) : ℤ := (a + b).bmod (2 ^ 32)

/-- The inner loop of `inflate_intsplits`, from the place `d` on: a place that has reached its
split is reset, and the one in front of it grows. There is no place in front of the first one. -/
def carry (intsplits : List Intsplit) (d : ℕ) (state : List ℕ) : Option (List ℕ) :=
  match state[d]?, intsplits[d]? with
  | some v, some s =>
    if (v : ℤ) = wrappingAdd s.1.1 (if d = 0 then 1 else 0) then
      match d with
      | 0 => none
      | d + 1 => carry intsplits d ((state.set (d + 1) 0).modify d (· + 1))
    else some state
  | _, _ => none

/-- The outer loop, with what it returns. -/
def inflateLoop (quantifiers : List NzLit) : ℕ → List ℕ → Config → Option (Bool × Config)
  | 0, _, _ => none
  | fuel + 1, state, cfg =>
    match state[0]?, cfg.intsplits[0]? with
    | some v, some s =>
      if ((v : ℕ) : ℤ) ≤ s.1.1 - 1 then
        match cfg.intsplitStateToAssumption quantifiers state with
        | none => some (false, cfg)
        | some cfg =>
          let last := cfg.intsplits.length - 1
          (carry cfg.intsplits last (state.modify last (· + 1))).bind fun state =>
            inflateLoop quantifiers fuel state cfg
      else some (true, cfg)
    | _, _ => none

/-- `inflate_intsplits`, which asserts that there are quantifiers and splits. -/
def Config.inflateIntsplits (fuel : ℕ) (quantifiers : List NzLit) (cfg : Config) :
    Option (Bool × Config) :=
  if quantifiers = [] ∨ cfg.intsplits = [] then none
  else inflateLoop quantifiers fuel (List.replicate cfg.intsplits.length 0) cfg

theorem wrappingAdd_zero (s : Intsplit) : wrappingAdd s.1.1 0 = s.radix := by
  have hpos := s.2
  have hup := s.1.2.2
  rw [wrappingAdd, Int.add_zero, Intsplit.radix, Int.bmod_eq_of_le (by omega) (by omega)]
  omega

/-- The bound of the first place is out of its reach. -/
theorem wrappingAdd_one_ne (s : Intsplit) {v : ℕ} (hv : v ≤ s.radix) :
    (v : ℤ) ≠ wrappingAdd s.1.1 1 := by
  have hpos := s.2
  have hup := s.1.2.2
  rw [Intsplit.radix] at hv
  rw [wrappingAdd]
  rcases lt_or_eq_of_le hup with hlt | heq
  · rw [Int.bmod_eq_of_le (by omega) (by omega)]
    omega
  · have hwrap : (s.1.1 + 1).bmod (2 ^ 32) = -2147483648 := by
      rw [heq]
      rfl
    rw [hwrap]
    omega

theorem modify_append_left {α : Type*} (f : α → α) {as : List α} (bs : List α) {d : ℕ}
    (h : d < as.length) : (as ++ bs).modify d f = as.modify d f ++ bs := by
  induction as generalizing d with
  | nil => exact absurd h (Nat.not_lt_zero d)
  | cons a as ih =>
    cases d with
    | zero => rfl
    | succ d =>
      rw [List.cons_append, List.modify_succ_cons, List.modify_succ_cons, List.cons_append,
        ih (Nat.lt_of_succ_lt_succ h)]

theorem modify_append_length {α : Type*} (f : α → α) (as : List α) (b : α) :
    (as ++ [b]).modify as.length f = as ++ [f b] := by
  induction as with
  | nil => rfl
  | cons a as ih => rw [List.cons_append, List.length_cons, List.modify_succ_cons, ih,
      List.cons_append]

section

variable {intsplits : List Intsplit} {d : ℕ} {state : List ℕ} {s : Intsplit} {v : ℕ}

theorem carry_of_lt (hs : intsplits[d]? = some s) (hv : state[d]? = some v) (h : v < s.radix) :
    carry intsplits d state = some state := by
  rw [carry.eq_def]
  simp only [hv, hs]
  refine if_neg ?_
  intro heq
  cases d with
  | zero => exact wrappingAdd_one_ne s h.le heq
  | succ d =>
    rw [if_neg (Nat.succ_ne_zero d), wrappingAdd_zero] at heq
    omega

/-- The first place does not wrap around. -/
theorem carry_zero (hs : intsplits[0]? = some s) (hv : state[0]? = some v) (h : v ≤ s.radix) :
    carry intsplits 0 state = some state := by
  rw [carry.eq_def]
  simp only [hv, hs]
  exact if_neg fun heq => wrappingAdd_one_ne s h heq

theorem carry_succ_of_eq (hs : intsplits[d + 1]? = some s) (hv : state[d + 1]? = some v)
    (h : v = s.radix) : carry intsplits (d + 1) state =
      carry intsplits d ((state.set (d + 1) 0).modify d (· + 1)) := by
  rw [carry.eq_def]
  simp only [hv, hs]
  refine if_pos ?_
  rw [if_neg (Nat.succ_ne_zero d), wrappingAdd_zero, h]

/-- The carries in front of the last place leave it alone. -/
theorem carry_append (s : Intsplit) (v : ℕ) (h : state.length = intsplits.length)
    (hd : d < intsplits.length) :
    carry (intsplits ++ [s]) d (state ++ [v]) = (carry intsplits d state).map (· ++ [v]) := by
  induction d generalizing state with
  | zero =>
    rw [carry.eq_def, carry.eq_def intsplits, List.getElem?_append_left hd,
      List.getElem?_append_left (h ▸ hd), List.getElem?_eq_getElem hd,
      List.getElem?_eq_getElem (h ▸ hd)]
    simp only [if_true]
    split <;> rfl
  | succ d ih =>
    rw [carry.eq_def, carry.eq_def intsplits, List.getElem?_append_left hd,
      List.getElem?_append_left (h ▸ hd), List.getElem?_eq_getElem hd,
      List.getElem?_eq_getElem (h ▸ hd)]
    simp only [Nat.succ_ne_zero, if_false]
    split
    · rw [← ih (by rw [List.length_modify, List.length_set, h]) (Nat.lt_of_succ_lt hd),
        List.set_append_left _ _ (h ▸ hd), modify_append_left]
      rw [List.length_set, h]
      exact Nat.lt_of_succ_lt hd
    · rfl

/-- **One step of the odometer**: from the digits of `k` to those of `k + 1`. -/
theorem carry_digits {intsplits : List Intsplit} (hne : intsplits ≠ []) {k : ℕ}
    (hk : k < (intsplits.map Intsplit.radix).prod) :
    carry intsplits (intsplits.length - 1) ((MixedRadix.digits (intsplits.map Intsplit.radix)
      k).modify (intsplits.length - 1) (· + 1)) =
        some (MixedRadix.digits (intsplits.map Intsplit.radix) (k + 1)) := by
  -- from the last place on
  induction intsplits using List.reverseRecOn generalizing k with
  | nil => exact absurd rfl hne
  | append_singleton intsplits s ih =>
    rw [List.length_append, List.length_singleton, Nat.add_sub_cancel, List.map_append,
      List.map_singleton]
    rw [List.map_append, List.map_singleton, List.prod_append, List.prod_singleton] at hk
    by_cases hnil : intsplits = []
    · subst hnil
      have hone : ∀ k, MixedRadix.digits [s.radix] k = [k] := fun k => by
        rw [MixedRadix.digits, List.prod_nil, Nat.div_one]
        rfl
      have hle : k + 1 ≤ s.radix := by
        rw [List.map_nil, List.prod_nil, Nat.one_mul] at hk
        exact hk
      rw [List.map_nil, List.nil_append, List.nil_append, hone, hone]
      exact carry_zero rfl rfl hle
    · have hlen : (MixedRadix.digits (intsplits.map Intsplit.radix) (k / s.radix)).length =
          intsplits.length := by rw [MixedRadix.length_digits, List.length_map]
      have hmap : intsplits.map Intsplit.radix ≠ [] := mt List.map_eq_nil_iff.mp hnil
      obtain ⟨d, hd⟩ : ∃ d, intsplits.length = d + 1 :=
        Nat.exists_eq_succ_of_ne_zero (mt List.length_eq_zero_iff.mp hnil)
      have hlast : (intsplits ++ [s])[d + 1]? = some s := by
        rw [← hd, List.getElem?_append_right le_rfl, Nat.sub_self]
        rfl
      rw [MixedRadix.digits_append_singleton hmap, ← hlen, modify_append_length, hlen, hd]
      have hlast' : (MixedRadix.digits (intsplits.map Intsplit.radix) (k / s.radix) ++
          [k % s.radix + 1])[d + 1]? = some (k % s.radix + 1) := by
        rw [← hd, ← hlen, List.getElem?_append_right le_rfl, Nat.sub_self]
        rfl
      have hmod : k % s.radix < s.radix := Nat.mod_lt k s.radix_pos
      -- the last place overflows, and the carry goes to the places in front of it
      by_cases hcarry : k % s.radix + 1 = s.radix
      · have hset : (MixedRadix.digits (intsplits.map Intsplit.radix) (k / s.radix) ++
            [k % s.radix + 1]).set (d + 1) 0 =
              MixedRadix.digits (intsplits.map Intsplit.radix) (k / s.radix) ++ [0] := by
          rw [List.set_append_right _ _ (by omega), hlen, hd, Nat.sub_self]
          rfl
        have hdiv : k / s.radix < (intsplits.map Intsplit.radix).prod :=
          (Nat.div_lt_iff_lt_mul s.radix_pos).mpr hk
        have hrest := ih hnil hdiv
        rw [hd, Nat.add_sub_cancel] at hrest
        rw [carry_succ_of_eq hlast hlast' hcarry, MixedRadix.digits_succ_of_eq hmap hcarry, hset,
          modify_append_left _ _ (by omega), carry_append s 0 (by rw [List.length_modify, hlen])
            (by omega), hrest, Option.map_some]
      · rw [carry_of_lt hlast hlast' (by omega),
          MixedRadix.digits_succ_of_ne hmap s.radix_pos hcarry]

/-- The cubes of the tuples that the odometer has yet to reach, from the value `k` on. -/
def cubesFrom (intsplits : List Intsplit) (quantifiers : List NzLit) (k n : ℕ) : List (List ℤ) :=
  (List.range' k n).map fun i =>
    cube intsplits quantifiers (MixedRadix.digits (intsplits.map Intsplit.radix) i)

/-- The test of the outer loop. -/
theorem inflateLoop_test (hne : intsplits ≠ []) (k : ℕ) : ∃ (v : ℕ) (s : Intsplit),
    (MixedRadix.digits (intsplits.map Intsplit.radix) k)[0]? = some v ∧
      intsplits[0]? = some s ∧
      ((v : ℤ) ≤ s.1.1 - 1 ↔ k < (intsplits.map Intsplit.radix).prod) := by
  obtain ⟨s, rest, rfl⟩ := List.exists_cons_of_ne_nil hne
  have hpos : ∀ r ∈ rest.map Intsplit.radix, 0 < r := by
    intro r hr
    obtain ⟨t, -, rfl⟩ := List.mem_map.mp hr
    exact t.radix_pos
  refine ⟨_, s, rfl, rfl, Iff.trans ?_ (MixedRadix.head_digits_lt_iff hpos)⟩
  have hs := s.2
  rw [Intsplit.radix]
  omega

/-- **The odometer runs to its end**, and adds the cubes on its way. -/
theorem inflateLoop_eq {cfg : Config} {quantifiers : List NzLit} (hcfg : cfg.intsplits = intsplits)
    (hne : intsplits ≠ []) (hlen : summedLength intsplits ≤ quantifiers.length)
    (hmixed : Unmixed intsplits quantifiers) {fuel k n : ℕ}
    (hn : k + n = (intsplits.map Intsplit.radix).prod) (hfuel : n < fuel) :
    inflateLoop quantifiers fuel (MixedRadix.digits (intsplits.map Intsplit.radix) k) cfg =
      some (true, (cubesFrom intsplits quantifiers k n).foldl Config.addCube cfg) := by
  -- on the number of steps that are left
  induction n generalizing fuel k cfg with
  | zero =>
    obtain ⟨fuel, rfl⟩ := Nat.exists_eq_succ_of_ne_zero hfuel.ne'
    obtain ⟨v, s, hv, hs, htest⟩ := inflateLoop_test hne k
    have hend : ¬(v : ℤ) ≤ s.1.1 - 1 := mt htest.mp (by omega)
    rw [inflateLoop, hcfg, hv, hs]
    exact if_neg hend
  | succ n ih =>
    obtain ⟨fuel, rfl⟩ := Nat.exists_eq_succ_of_ne_zero (Nat.ne_zero_of_lt hfuel)
    obtain ⟨v, s, hv, hs, htest⟩ := inflateLoop_test hne k
    have hk : k < (intsplits.map Intsplit.radix).prod := by omega
    have hstate : (MixedRadix.digits (intsplits.map Intsplit.radix) k).length =
        cfg.intsplits.length := by rw [MixedRadix.length_digits, List.length_map, hcfg]
    have hcube := intsplitStateToAssumption_eq quantifiers hstate
    rw [hcfg, if_pos ⟨hlen, hmixed⟩] at hcube
    have hrest (cfg : Config) (hcfg : cfg.intsplits = intsplits) : inflateLoop quantifiers fuel
        (MixedRadix.digits (intsplits.map Intsplit.radix) (k + 1)) cfg =
          some (true, (cubesFrom intsplits quantifiers (k + 1) n).foldl Config.addCube cfg) :=
      ih hcfg (by omega) (by omega)
    rw [inflateLoop, hcfg, hv, hs, hcube]
    refine (if_pos (htest.mpr hk)).trans ?_
    change (carry cfg.intsplits (cfg.intsplits.length - 1)
      (List.modify _ (cfg.intsplits.length - 1) _)).bind _ = _
    rw [hcfg, carry_digits hne hk, Option.bind_some]
    refine (hrest (cfg.addCube _) hcfg).trans ?_
    rw [cubesFrom, cubesFrom, List.range'_succ]
    rfl

end

/-! ### All cubes -/

/-- Cubes of one length, added one after the other. -/
theorem foldl_addCube {cubes : List (List ℤ)} {l : ℕ} (hlen : ∀ c ∈ cubes, c.length = l)
    (hne : cubes ≠ []) (cfg : Config) : cubes.foldl Config.addCube cfg =
      { cfg with
        assumptionsCount := cfg.assumptionsCount + cubes.length
        assumptionsMaxAssumptionSize :=
          max cfg.assumptionsMaxAssumptionSize (cfg.currentAssumptionSize + l)
        assumptions := cfg.assumptions ++ cubes.flatMap (· ++ [0])
        currentAssumptionSize := 0 } := by
  induction cubes generalizing cfg with
  | nil => exact absurd rfl hne
  | cons c cubes ih =>
    have hc : c.length = l := hlen c List.mem_cons_self
    rw [List.foldl_cons]
    by_cases hnil : cubes = []
    · subst hnil
      rw [List.foldl_nil, Config.addCube, hc, List.flatMap_singleton, List.length_singleton]
    · have hmax : max (max cfg.assumptionsMaxAssumptionSize (cfg.currentAssumptionSize + l))
          (0 + l) = max cfg.assumptionsMaxAssumptionSize (cfg.currentAssumptionSize + l) := by
        omega
      rw [ih (fun d hd => hlen d (List.mem_cons_of_mem _ hd)) hnil, Config.addCube, hc,
        List.flatMap_cons, List.length_cons, hmax]
      simp only [List.append_assoc, Nat.add_assoc, Nat.add_comm 1]

/-- Two cubes that have opposite literals at some position. -/
def Disagree (a b : List ℤ) : Prop :=
  ∃ (i : ℕ) (x y : ℤ), a[i]? = some x ∧ b[i]? = some y ∧ x * y < 0

/-- A tuple is known from its bits. -/
theorem eq_of_tupleBits_eq {intsplits : List Intsplit} {vs vs' : List ℕ}
    (h : List.Forall₂ (· < ·) vs (intsplits.map Intsplit.radix))
    (h' : List.Forall₂ (· < ·) vs' (intsplits.map Intsplit.radix))
    (heq : tupleBits intsplits vs = tupleBits intsplits vs') : vs = vs' := by
  induction intsplits generalizing vs vs' with
  | nil =>
    cases h
    cases h'
    rfl
  | cons s intsplits ih =>
    cases h with
    | cons hv hvs =>
      cases h' with
      | cons hv' hvs' =>
        rw [tupleBits_cons, tupleBits_cons] at heq
        obtain ⟨hbits, hrest⟩ := List.append_inj heq (by
          rw [MixedRadix.length_bits, MixedRadix.length_bits])
        have hle := Nat.le_pow_clog one_lt_two s.radix
        rw [MixedRadix.eq_of_bits_eq (hv.trans_le hle) (hv'.trans_le hle) hbits,
          ih hvs hvs' hrest]

/-- Different lists of one length differ at some position. -/
theorem exists_getElem?_ne {α : Type*} {as bs : List α} (hlen : as.length = bs.length)
    (hne : as ≠ bs) : ∃ (i : ℕ) (x y : α), as[i]? = some x ∧ bs[i]? = some y ∧ x ≠ y := by
  induction as generalizing bs with
  | nil => exact absurd (List.length_eq_zero_iff.mp hlen.symm).symm hne
  | cons a as ih =>
    cases bs with
    | nil => exact absurd hlen (by simp)
    | cons b bs =>
      by_cases hab : a = b
      · subst hab
        obtain ⟨i, x, y, hx, hy, hxy⟩ := ih (Nat.succ.inj hlen) fun h => hne (by rw [h])
        exact ⟨i + 1, x, y, hx, hy, hxy⟩
      · exact ⟨0, a, b, rfl, rfl, hab⟩

/-- Opposite bits make opposite literals. -/
theorem bitLiteral_mul_neg {b b' : Bool} (h : b ≠ b') (q : NzLit) :
    bitLiteral b q * bitLiteral b' q < 0 := by
  have hq : 0 < |q.1.val| := abs_pos.mpr q.val_ne_zero
  have hsq : 0 < |q.1.val| * |q.1.val| := Int.mul_pos hq hq
  cases b <;> cases b'
  · exact absurd rfl h
  · change -|q.1.val| * |q.1.val| < 0
    rw [Int.neg_mul]
    omega
  · change |q.1.val| * -|q.1.val| < 0
    rw [Int.mul_neg]
    omega
  · exact absurd rfl h

/-- **Cubes of different tuples disagree.** -/
theorem disagree_of_ne {intsplits : List Intsplit} {quantifiers : List NzLit} {vs vs' : List ℕ}
    (h : vs ∈ MixedRadix.tuples (intsplits.map Intsplit.radix))
    (h' : vs' ∈ MixedRadix.tuples (intsplits.map Intsplit.radix))
    (hlen : summedLength intsplits ≤ quantifiers.length) (hne : vs ≠ vs') :
    Disagree (cube intsplits quantifiers vs) (cube intsplits quantifiers vs') := by
  have hvs := MixedRadix.mem_tuples.mp h
  have hvs' := MixedRadix.mem_tuples.mp h'
  have hl : (tupleBits intsplits vs).length = summedLength intsplits :=
    length_tupleBits (hvs.length_eq.trans (List.length_map _))
  have hl' : (tupleBits intsplits vs').length = summedLength intsplits :=
    length_tupleBits (hvs'.length_eq.trans (List.length_map _))
  -- some bit is not the same
  obtain ⟨i, b, b', hb, hb', hbb⟩ := exists_getElem?_ne (hl.trans hl'.symm)
    fun heq => hne (eq_of_tupleBits_eq hvs hvs' heq)
  have hi : i < quantifiers.length := by
    have := (List.getElem?_eq_some_iff.mp hb).1
    omega
  have hq := List.getElem?_eq_getElem hi
  refine ⟨i, bitLiteral b quantifiers[i], bitLiteral b' quantifiers[i], ?_, ?_,
    bitLiteral_mul_neg hbb _⟩
  · rw [cube, List.getElem?_zipWith, hb, hq]
  · rw [cube, List.getElem?_zipWith, hb', hq]

section

variable {cfg : Config} {quantifiers : List NzLit}

/-- The cubes that the splits of a configuration stand for. -/
def allCubes (intsplits : List Intsplit) (quantifiers : List NzLit) : List (List ℤ) :=
  (MixedRadix.tuples (intsplits.map Intsplit.radix)).map (cube intsplits quantifiers)

theorem radices_pos (intsplits : List Intsplit) : ∀ r ∈ intsplits.map Intsplit.radix, 0 < r := by
  intro r hr
  obtain ⟨s, -, rfl⟩ := List.mem_map.mp hr
  exact s.radix_pos

theorem length_allCubes (intsplits : List Intsplit) (quantifiers : List NzLit) :
    (allCubes intsplits quantifiers).length = (intsplits.map Intsplit.radix).prod := by
  rw [allCubes, List.length_map, MixedRadix.tuples_eq_map_digits (radices_pos intsplits),
    List.length_map, List.length_range]

theorem length_of_mem_allCubes {intsplits : List Intsplit}
    (hlen : summedLength intsplits ≤ quantifiers.length) :
    ∀ c ∈ allCubes intsplits quantifiers, c.length = summedLength intsplits := by
  intro c hc
  obtain ⟨vs, hvs, rfl⟩ := List.mem_map.mp hc
  exact length_cube ((MixedRadix.mem_tuples.mp hvs).length_eq.trans (List.length_map _)) hlen

theorem pairwise_allCubes {intsplits : List Intsplit}
    (hlen : summedLength intsplits ≤ quantifiers.length) :
    (allCubes intsplits quantifiers).Pairwise Disagree := by
  rw [allCubes, List.pairwise_map]
  refine List.Pairwise.imp_of_mem ?_ (MixedRadix.pairwise_tuples _)
  intro vs vs' hvs hvs' hlt
  exact disagree_of_ne hvs hvs' hlen hlt.ne

theorem replicate_eq_digits (intsplits : List Intsplit) :
    List.replicate intsplits.length 0 =
      MixedRadix.digits (intsplits.map Intsplit.radix) 0 := by
  rw [MixedRadix.digits_zero, List.length_map]

/-- **What `inflate_intsplits` appends.** -/
theorem inflateIntsplits_eq (hq : quantifiers ≠ []) (hs : cfg.intsplits ≠ [])
    (hlen : summedLength cfg.intsplits ≤ quantifiers.length)
    (hmixed : Unmixed cfg.intsplits quantifiers) {fuel : ℕ}
    (hfuel : (cfg.intsplits.map Intsplit.radix).prod < fuel) :
    cfg.inflateIntsplits fuel quantifiers = some (true, { cfg with
      assumptionsCount := cfg.assumptionsCount + (allCubes cfg.intsplits quantifiers).length
      assumptionsMaxAssumptionSize :=
        max cfg.assumptionsMaxAssumptionSize
          (cfg.currentAssumptionSize + summedLength cfg.intsplits)
      assumptions := cfg.assumptions ++ (allCubes cfg.intsplits quantifiers).flatMap (· ++ [0])
      currentAssumptionSize := 0 }) := by
  have hcubes : cubesFrom cfg.intsplits quantifiers 0 (cfg.intsplits.map Intsplit.radix).prod =
      allCubes cfg.intsplits quantifiers := by
    rw [allCubes, MixedRadix.tuples_eq_map_digits (radices_pos _), List.map_map, cubesFrom,
      List.range_eq_range']
    rfl
  have hne : allCubes cfg.intsplits quantifiers ≠ [] := by
    rw [← List.length_pos_iff, length_allCubes]
    exact MixedRadix.prod_pos (radices_pos _)
  rw [Config.inflateIntsplits, if_neg (not_or.mpr ⟨hq, hs⟩), replicate_eq_digits,
    inflateLoop_eq rfl hs hlen hmixed (Nat.zero_add _) hfuel, hcubes,
    foldl_addCube (length_of_mem_allCubes hlen) hne]

/-- A cube that cannot be built stops the odometer at once. -/
theorem inflateIntsplits_fails (hq : quantifiers ≠ []) (hs : cfg.intsplits ≠ [])
    (hfails : ¬(summedLength cfg.intsplits ≤ quantifiers.length ∧
      Unmixed cfg.intsplits quantifiers)) (fuel : ℕ) :
    cfg.inflateIntsplits (fuel + 1) quantifiers = some (false, cfg) := by
  obtain ⟨v, s, hv, hs', htest⟩ := inflateLoop_test hs 0
  have hstate : (List.replicate cfg.intsplits.length 0).length = cfg.intsplits.length :=
    List.length_replicate
  have hcube := intsplitStateToAssumption_eq quantifiers hstate
  rw [if_neg hfails] at hcube
  rw [← replicate_eq_digits] at hv
  rw [Config.inflateIntsplits, if_neg (not_or.mpr ⟨hq, hs⟩), inflateLoop, hv, hs', hcube]
  exact if_pos (htest.mpr (MixedRadix.prod_pos (radices_pos _)))

end

/-- **Integer splits enumerate every cube once.** If there are enough quantifiers and no split
spans a sign change, `inflate_intsplits` ends and appends one cube for each tuple of numbers below
the splits, in lexicographic order; any two of the cubes disagree in a sign. Otherwise it returns
false and appends nothing. It asserts that there are quantifiers: a formula without any is refused
by `main` before the call (`QuAPI.Quapify.inflate`). -/
theorem inflateIntsplits_enumerates (cfg : Config) (quantifiers : List NzLit)
    (hq : quantifiers ≠ []) (hs : cfg.intsplits ≠ []) :
    (summedLength cfg.intsplits ≤ quantifiers.length → Unmixed cfg.intsplits quantifiers →
      ∃ cfg' : Config,
        (∃ n, ∀ fuel, n ≤ fuel → cfg.inflateIntsplits fuel quantifiers = some (true, cfg')) ∧
        cfg'.assumptions =
          cfg.assumptions ++ (allCubes cfg.intsplits quantifiers).flatMap (· ++ [0]) ∧
        cfg'.assumptionsCount =
          cfg.assumptionsCount + (cfg.intsplits.map Intsplit.radix).prod ∧
        summedLength cfg.intsplits ≤ cfg'.assumptionsMaxAssumptionSize ∧
        (allCubes cfg.intsplits quantifiers).length = (cfg.intsplits.map Intsplit.radix).prod ∧
        (∀ c ∈ allCubes cfg.intsplits quantifiers, c.length = summedLength cfg.intsplits) ∧
        (allCubes cfg.intsplits quantifiers).Pairwise Disagree) ∧
    (¬(summedLength cfg.intsplits ≤ quantifiers.length ∧ Unmixed cfg.intsplits quantifiers) →
      ∃ n, ∀ fuel, n ≤ fuel → cfg.inflateIntsplits fuel quantifiers = some (false, cfg)) := by
  constructor
  · intro hlen hmixed
    refine ⟨_, ⟨_, fun fuel hfuel => inflateIntsplits_eq hq hs hlen hmixed hfuel⟩, rfl, ?_, ?_,
      length_allCubes _ _, length_of_mem_allCubes hlen, pairwise_allCubes hlen⟩
    · exact congrArg (cfg.assumptionsCount + ·) (length_allCubes _ _)
    · exact (Nat.le_add_left _ _).trans (le_max_right _ _)
  · intro hfails
    refine ⟨1, ?_⟩
    intro fuel hfuel
    obtain ⟨fuel, rfl⟩ := Nat.exists_eq_succ_of_ne_zero (Nat.ne_zero_of_lt hfuel)
    exact inflateIntsplits_fails hq hs hfails fuel

/-- The splits `-i 3 -i 1 -i 2`. -/
def threeSplits : Config :=
  ((Config.init.addIntsplitNestingLevel (.of 3)).addIntsplitNestingLevel
    (.of 1)).addIntsplitNestingLevel (.of 2)

/-- **Six cubes** over two universal quantifiers and an existential one; and none where the first
split takes one of each. -/
theorem threeSplits_enumerated :
    (∃ cfg' : Config, (∃ n, ∀ fuel, n ≤ fuel → threeSplits.inflateIntsplits fuel
        [nzLit (-1), nzLit (-2), nzLit 3] = some (true, cfg')) ∧
      cfg'.assumptions = [-1, -2, -3, 0, -1, -2, 3, 0, -1, 2, -3, 0, -1, 2, 3, 0, 1, -2, -3, 0,
        1, -2, 3, 0]) ∧
    ∃ n, ∀ fuel, n ≤ fuel → threeSplits.inflateIntsplits fuel
      [nzLit (-1), nzLit 2, nzLit 3] = some (false, threeSplits) := by
  constructor
  · obtain ⟨cfg', hrun, hassumptions, -⟩ := (inflateIntsplits_enumerates threeSplits
      [nzLit (-1), nzLit (-2), nzLit 3] (by decide) (by decide)).1 (by decide +kernel)
        (by decide +kernel)
    exact ⟨cfg', hrun, hassumptions.trans (by decide +kernel)⟩
  · exact (inflateIntsplits_enumerates threeSplits [nzLit (-1), nzLit 2, nzLit 3] (by decide)
      (by decide)).2 (by decide +kernel)

end Quapify

end QuAPI
