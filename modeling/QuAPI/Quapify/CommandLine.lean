import Mathlib.Data.List.TakeWhile
import QuAPI.Decimal
import QuAPI.Quapify.Rounds

/-!
# The command line of quapify

`parse_cli` behind the name of the formula file: the options, with the numbers that `-a` takes,
and `print_assumptions`, which `-g` calls for the list of the cubes.

`QuAPI.Quapify.generated_runs` is the result: where the lines that `-g` prints are given back
with `-a`, quapify does what it does for the splits themselves, whatever becomes of the calls of
the library. A split by 1 is a case of its own: it may be that there is one cube, which is empty,
and its line gives no `-a` at all.
-/

namespace QuAPI

/-- A number that is assigned to an `int`. -/
def CInt.ofLong (i : ℤ) : CInt :=
  ⟨i.bmod (2 ^ 32), by
    have hlow := Int.le_bmod (x := i) (m := 2 ^ 32) (by norm_num)
    have hup := Int.bmod_lt (x := i) (m := 2 ^ 32) (by norm_num)
    omega⟩

theorem CInt.ofLong_val (i : CInt) : CInt.ofLong i.1 = i := by
  have h := i.2
  exact Subtype.ext (Int.bmod_eq_of_le (by omega) (by omega))

namespace Quapify

/-! ### Numbers -/

/-- `isspace`. -/
def isSpace (ch : Char) : Bool := ch = ' ' || ('\t' ≤ ch && ch ≤ '\r')

/-- `strtol` with the base 10; there is no number where it leaves its end at the start. -/
def strtol (value : List Char) : Option ℤ :=
  let rest := value.dropWhile isSpace
  let unsigned := match rest with
    | '-' :: cs => cs
    | '+' :: cs => cs
    | cs => cs
  let digits := unsigned.takeWhile Char.isDigit
  if digits = [] then none
  else
    let n : ℤ := Nat.ofDigitChars 10 digits 0
    some (max (-2 ^ 63) (min (2 ^ 63 - 1) (if rest.head? = some '-' then -n else n)))

/-- `atoi`. -/
def atoi (value : List Char) : CInt := CInt.ofLong ((strtol value).getD 0)

/-! ### The options -/

/-- The test of the loop of `-a`: a word that begins with a letter ends it, or with a minus sign
without a digit behind it. -/
def isAssumption (arg : List Char) : Bool :=
  !arg.head?.any Char.isAlpha && (arg.head? != some '-' || arg.tail.head?.any Char.isDigit)

/-- The loop of `-a`: the last number, and the words that are left. -/
def Config.readAssumptions (cfg : Config) (l : Option CInt) :
    List (List Char) → Option (Config × Option CInt × List (List Char))
  | [] => some (cfg, l, [])
  | arg :: args =>
    if isAssumption arg then
      match strtol arg with
      | none => none
      | some value =>
        let l := CInt.ofLong value
        (cfg.addToAssumptions l.1).readAssumptions (some l) args
    else some (cfg, l, arg :: args)

/-- The case of `-a`, from its argument on. Where the loop takes nothing, the last number has no
value, and there is no result. -/
def Config.optionA (cfg : Config) (args : List (List Char)) :
    Option (Config × List (List Char)) :=
  if args.head? = some ['-', '-'] then none
  else
    (cfg.readAssumptions none args).bind fun r =>
      r.2.1.map fun l => (if l.1 ≠ 0 then r.1.addToAssumptions 0 else r.1, r.2.2)

/-- The options without an argument. -/
def Config.flag (cfg : Config) (c : Char) : Option Config :=
  if c = 'g' then some { cfg with generateAssumptionList := true }
  else if c = 'r' then some { cfg with strictness := .relaxedParsing }
  else if c = 's' then some { cfg with strictness := .pedanticParsing }
  else if c ∈ ['v', 'd', 't', 'p', 'S', 'H', 'W'] then some cfg
  else none

/-- The options with an argument, but for `-a`. -/
def Config.valued (cfg : Config) (c : Char) (optarg : List Char) : Option Config :=
  if c = 'i' then some (cfg.addIntsplitNestingLevel (atoi optarg))
  else if c = 'I' then some { cfg with selectedAssumption := (atoi optarg).1 }
  else none

theorem Config.length_readAssumptions {cfg : Config} {l : Option CInt} {args : List (List Char)}
    {r : Config × Option CInt × List (List Char)} (h : cfg.readAssumptions l args = some r) :
    r.2.2.length ≤ args.length ∧ (l = none → r.2.1.isSome → r.2.2.length < args.length) := by
  induction args generalizing cfg l with
  | nil =>
    obtain rfl := Option.some.inj h
    refine ⟨le_rfl, ?_⟩
    rintro rfl hsome
    exact absurd hsome Bool.false_ne_true
  | cons arg args ih =>
    rw [readAssumptions] at h
    split at h
    · split at h
      · exact absurd h (by simp)
      · have hle := (ih h).1
        exact ⟨Nat.le_succ_of_le hle, fun _ _ => Nat.lt_succ_of_le hle⟩
    · obtain rfl := Option.some.inj h
      refine ⟨le_rfl, ?_⟩
      rintro rfl hsome
      exact absurd hsome Bool.false_ne_true

/-- `-a` takes a word at least. -/
theorem Config.length_optionA {cfg : Config} {args : List (List Char)}
    {r : Config × List (List Char)} (h : cfg.optionA args = some r) :
    r.2.length < args.length := by
  rw [optionA] at h
  split at h
  · exact absurd h (by simp)
  · obtain ⟨r', hread, hrest⟩ := Option.bind_eq_some_iff.mp h
    obtain ⟨l, hl, rfl⟩ := Option.map_eq_some_iff.mp hrest
    exact (length_readAssumptions hread).2 rfl (hl ▸ rfl)

/-- The loop over the options, with the options that are left of a word (`getopt`). A word in
front of `--` that belongs to no option is not modelled: `getopt` moves it behind the others. -/
def Config.parseOptions (cfg : Config) :
    List Char → List (List Char) → Option (Config × List (List Char))
  | [], [] => some (cfg, [])
  | [], arg :: args =>
    match arg with
    | ['-', '-'] => some (cfg, args)
    | '-' :: c :: cs => cfg.parseOptions (c :: cs) args
    | _ => none
  | c :: cs, args =>
    if c = 'a' then
      -- where its argument is in the same word, the loop of `-a` sees that word
      if cs ≠ [] then none
      else
        match _h : cfg.optionA args with
        | none => none
        | some (cfg', rest) => cfg'.parseOptions [] rest
    else if c = 'i' ∨ c = 'I' ∨ c = 'h' then
      match cs, args with
      | [], [] => none
      | [], optarg :: args =>
        match cfg.valued c optarg with
        | none => none
        | some cfg' => cfg'.parseOptions [] args
      | c' :: cs, args =>
        match cfg.valued c (c' :: cs) with
        | none => none
        | some cfg' => cfg'.parseOptions [] args
    else
      match cfg.flag c with
      | none => none
      | some cfg' => cfg'.parseOptions cs args
termination_by chars args => (args.length, chars.length)
decreasing_by
  · exact Prod.Lex.left _ _ (Nat.lt_succ_self _)
  · exact Prod.Lex.left _ _ (length_optionA _h)
  · exact Prod.Lex.left _ _ (Nat.lt_succ_self _)
  · exact Prod.Lex.right _ (Nat.zero_lt_succ _)
  · exact Prod.Lex.right _ (Nat.lt_succ_self _)

/-- `parse_cli`, behind the name of the formula file: the configuration, and the words of the
solver. -/
def parseCli (args : List (List Char)) : Option (Config × List (List Char)) :=
  (Config.init.parseOptions [] args).bind fun r =>
    let cfg := if r.1.assumptionsCount = 0 ∧ r.1.intsplits = [] then r.1.addToAssumptions 0 else r.1
    if cfg.generateAssumptionList = false ∧ r.2 = [] then none else some (cfg, r.2)

/-! ### The list of the cubes -/

/-- `print_assumption`: what it prints, and the numbers behind the zero. -/
def printAssumption (first : Bool) : List ℤ → List Char × List ℤ
  | [] => ([], [])
  | a :: rest =>
    if a = 0 then ([], rest)
    else ((if first then [] else [' ']) ++ decimal a ++ (printAssumption false rest).1,
      (printAssumption false rest).2)

theorem length_printAssumption (first : Bool) (as : List ℤ) :
    (printAssumption first as).2.length ≤ as.length - 1 := by
  induction as generalizing first with
  | nil => exact le_rfl
  | cons a as ih =>
    rw [printAssumption]
    split
    · exact le_rfl
    · exact (ih false).trans (Nat.sub_le _ _)

/-- `print_assumptions`. -/
def printAssumptions : List ℤ → List Char
  | [] => []
  | a :: as => (printAssumption true (a :: as)).1 ++
      '\n' :: printAssumptions (printAssumption true (a :: as)).2
termination_by as => as.length
decreasing_by exact Nat.lt_succ_of_le (length_printAssumption true (a :: as))

/-- `main` with the option `-g`. -/
def generate (fuel : ℕ) (cfg : Config) (file : List Char) : Option (List Char) :=
  let first := kissatParseDimacs cfg.strictness file
  if first.2.isSome then none
  else
    (inflate fuel (first.1.foldl Scan.callback Scan.init) cfg).bind fun cfg =>
      if cfg.generateAssumptionList then some (printAssumptions cfg.assumptions) else none

section

variable {cfg : Config} {args rest : List (List Char)} {i : ℤ} {c : List NzLit}
  {cubes : List (List NzLit)}

/-! ### Numbers on the command line -/

/-- A digit is no white space and no sign. -/
theorem isDigit_plain {ch : Char} (h : ch.isDigit = true) :
    isSpace ch = false ∧ ch ≠ '-' ∧ ch ≠ '+' := by
  obtain ⟨k, hk, rfl⟩ := exists_digitChar h
  interval_cases k <;> decide

/-- **`strtol` reads a decimal back.** -/
theorem strtol_decimal (i : CInt) : strtol (decimal i.1) = some i.1 := by
  have hrange := i.2
  have hall : ∀ n : ℕ, ∀ ch ∈ Nat.toDigits 10 n, ch.isDigit = true := fun n ch hch =>
    Nat.isDigit_of_mem_toDigits (by norm_num) (by norm_num) hch
  have hdigits : ∀ n : ℕ, (Nat.toDigits 10 n).takeWhile Char.isDigit = Nat.toDigits 10 n :=
    fun n => List.takeWhile_eq_self_iff.mpr (hall n)
  rcases lt_or_ge i.1 0 with h | h
  · have hspace : ¬isSpace '-' = true := by decide
    rw [decimal_of_neg h, strtol, List.dropWhile_cons_of_neg hspace]
    simp only [hdigits, Nat.toDigits_ne_nil, if_false, Nat.ofDigitChars_ten_toDigits,
      List.head?_cons, if_true]
    congr 1
    omega
  · obtain ⟨ch, cs, hcs⟩ : ∃ ch cs, Nat.toDigits 10 i.1.natAbs = ch :: cs :=
      List.exists_cons_of_ne_nil Nat.toDigits_ne_nil
    obtain ⟨hspace, hminus, hplus⟩ := isDigit_plain (hall i.1.natAbs ch (hcs ▸ List.mem_cons_self))
    have hunsigned : (match ch :: cs with
        | '-' :: cs => cs
        | '+' :: cs => cs
        | cs => cs) = ch :: cs := by
      split
      case h_1 heq => exact absurd (List.cons.inj heq).1 hminus
      case h_2 heq => exact absurd (List.cons.inj heq).1 hplus
      case h_3 => rfl
    have hsign : ¬(ch :: cs).head? = some '-' := fun heq => hminus (Option.some.inj heq)
    rw [decimal_of_nonneg h, strtol, hcs, List.dropWhile_cons_of_neg (by rw [hspace]; decide)]
    simp only [hunsigned]
    rw [← hcs, hdigits, if_neg Nat.toDigits_ne_nil, Nat.ofDigitChars_ten_toDigits, hcs,
      if_neg hsign]
    congr 1
    omega

/-- A number goes on with the loop of `-a`. -/
theorem isAssumption_decimal (i : ℤ) : isAssumption (decimal i) = true := by
  have halpha : ∀ ch : Char, ch.isDigit = true → ch.isAlpha = false ∧ ch ≠ '-' := by
    intro ch hch
    obtain ⟨k, hk, rfl⟩ := exists_digitChar hch
    interval_cases k <;> decide
  obtain ⟨ch, cs, hcs⟩ : ∃ ch cs, Nat.toDigits 10 i.natAbs = ch :: cs :=
    List.exists_cons_of_ne_nil Nat.toDigits_ne_nil
  have hdigit : ch.isDigit = true := Nat.isDigit_of_mem_toDigits (by norm_num) (by norm_num)
    (hcs ▸ List.mem_cons_self)
  obtain ⟨hletter, hminus⟩ := halpha ch hdigit
  rcases lt_or_ge i 0 with h | h
  · rw [decimal_of_neg h, hcs, isAssumption]
    simp [hdigit]
  · rw [decimal_of_nonneg h, hcs, isAssumption]
    simp [hletter, hminus]

/-! ### Cubes on the command line -/

/-- A literal as it is written. -/
def word (l : NzLit) : List Char := decimal l.1.val

/-- The number of a literal. -/
def litInt (l : NzLit) : CInt := ⟨l.1.val, l.1.lower.le, l.1.upper⟩

/-- The loop of `-a` goes no further. -/
def Stops (rest : List (List Char)) : Prop := ∀ arg ∈ rest.head?, isAssumption arg = false

theorem isAssumption_word (l : NzLit) : isAssumption (word l) = true := isAssumption_decimal _

theorem strtol_word (l : NzLit) : strtol (word l) = some (litInt l).1 := strtol_decimal (litInt l)

/-- **The loop of `-a`** takes the literals of a cube. -/
theorem readAssumptions_words (hrest : Stops rest) (c : List NzLit) (l : Option CInt) :
    cfg.readAssumptions l (c.map word ++ rest) =
      some ((vals c).foldl Config.addToAssumptions cfg, (c.getLast?.map litInt).or l, rest) := by
  induction c generalizing cfg l with
  | nil =>
    cases rest with
    | nil => rfl
    | cons arg rest =>
      have harg : ¬isAssumption arg = true := by rw [hrest arg rfl]; exact Bool.false_ne_true
      rw [List.map_nil, List.nil_append, Config.readAssumptions, if_neg harg]
      rfl
  | cons x c ih =>
    rw [List.map_cons, List.cons_append, Config.readAssumptions, if_pos (isAssumption_word x)]
    simp only [strtol_word, CInt.ofLong_val, ih]
    refine congrArg some (Prod.ext rfl (Prod.ext ?_ rfl))
    cases c with
    | nil => rfl
    | cons y c =>
      rw [List.getLast?_cons_cons, List.getLast?_eq_some_getLast (List.cons_ne_nil y c)]
      rfl

/-- **The case of `-a`** adds a cube. -/
theorem optionA_words (hrest : Stops rest) (hc : c ≠ []) :
    cfg.optionA (c.map word ++ rest) = some (cfg.addCube (vals c), rest) := by
  obtain ⟨l, c', rfl⟩ := List.exists_cons_of_ne_nil hc
  have hhead : ((l :: c').map word ++ rest).head? ≠ some ['-', '-'] := by
    intro heq
    have hword : word l = ['-', '-'] := Option.some.inj heq
    have hnumber := isAssumption_decimal l.1.val
    rw [show decimal l.1.val = ['-', '-'] from hword] at hnumber
    exact absurd hnumber (by decide)
  rw [Config.optionA, if_neg hhead, readAssumptions_words hrest, Option.bind_some,
    ← foldl_addToAssumptions (vals_ne_zero _), List.foldl_append]
  have hlast : (litInt (List.getLast (l :: c') hc)).1 ≠ 0 :=
    (List.getLast (l :: c') hc).val_ne_zero
  simp only [List.getLast?_eq_some_getLast hc, Option.map_some, Option.some_or]
  rw [if_pos hlast]
  rfl

/-- A word of options. -/
theorem parse_word (cfg : Config) {ch : Char} (hch : ch ≠ '-') (chars : List Char)
    (args : List (List Char)) :
    cfg.parseOptions [] (('-' :: ch :: chars) :: args) = cfg.parseOptions (ch :: chars) args := by
  rw [Config.parseOptions]
  exact fun heq => absurd heq hch

theorem parse_optionA (cfg : Config) (args : List (List Char)) :
    cfg.parseOptions [] (['-', 'a'] :: args) =
      (cfg.optionA args).bind fun r => r.1.parseOptions [] r.2 := by
  rw [parse_word cfg (by decide), Config.parseOptions.eq_def]
  simp only [if_true, ne_eq, not_true_eq_false, if_false]
  split
  case h_1 h => rw [h, Option.bind_none]
  case h_2 h => rw [h, Option.bind_some]

/-- Options `-a` for cubes. -/
def givenWords (cubes : List (List NzLit)) : List (List Char) :=
  cubes.flatMap fun c => ['-', 'a'] :: c.map word

theorem stops_givenWords (cubes : List (List NzLit)) (solver : List (List Char)) :
    Stops (givenWords cubes ++ ['-', '-'] :: solver) := by
  cases cubes with
  | nil =>
    rintro arg harg
    obtain rfl := Option.some.inj harg
    decide
  | cons c cubes =>
    rintro arg harg
    obtain rfl := Option.some.inj harg
    decide

/-- The two have the options in common that are not cubes or splits. -/
structure Config.Alike (cfg cfg' : Config) : Prop where
  generateAssumptionList : cfg.generateAssumptionList = cfg'.generateAssumptionList
  selectedAssumption : cfg.selectedAssumption = cfg'.selectedAssumption
  strictness : cfg.strictness = cfg'.strictness

/-- **The cubes of the command line.** -/
theorem parse_given (cfg : Config) (hne : ∀ c ∈ cubes, c ≠ []) (solver : List (List Char)) :
    ∃ cfg', cfg.parseOptions [] (givenWords cubes ++ ['-', '-'] :: solver) =
        some (cfg', solver) ∧ cfg'.Alike cfg ∧ cfg'.intsplits = cfg.intsplits ∧
      cfg'.assumptionsCount = cfg.assumptionsCount + cubes.length ∧
      ∀ given, cfg.HasCubes given → cfg'.HasCubes (given ++ cubes) := by
  induction cubes generalizing cfg with
  | nil =>
    refine ⟨cfg, ?_, ⟨rfl, rfl, rfl⟩, rfl, rfl, fun given h => (List.append_nil given).symm ▸ h⟩
    rw [givenWords, List.flatMap_nil, List.nil_append, Config.parseOptions]
  | cons c cubes ih =>
    obtain ⟨hc, hne⟩ := List.forall_mem_cons.mp hne
    obtain ⟨cfg', hparse, halike, hsplits, hcount, hcubes⟩ := ih (cfg.addCube (vals c)) hne
    refine ⟨cfg', ?_, ⟨halike.1, halike.2, halike.3⟩, hsplits, ?_, ?_⟩
    · have hstop := stops_givenWords cubes solver
      rw [givenWords, List.flatMap_cons, ← givenWords, List.cons_append, List.cons_append,
        List.append_assoc, parse_optionA, optionA_words hstop hc, Option.bind_some, hparse]
    · rw [hcount, List.length_cons]
      change cfg.assumptionsCount + 1 + cubes.length = _
      omega
    · intro given h
      rw [List.append_cons]
      exact hcubes _ (h.addCube c)

/-! ### Other options -/

theorem parse_valued (cfg : Config) {ch : Char} (hch : ch = 'i' ∨ ch = 'I')
    (optarg : List Char) (args : List (List Char)) :
    cfg.parseOptions [] (['-', ch] :: optarg :: args) =
      (cfg.valued ch optarg).bind fun cfg' => cfg'.parseOptions [] args := by
  have hne : ch ≠ '-' ∧ ch ≠ 'a' := by rcases hch with rfl | rfl <;> decide
  rw [parse_word cfg hne.1, Config.parseOptions.eq_def]
  simp only [hne.2, if_false, hch.imp_right Or.inl, if_true]
  split
  case h_1 h => rw [h, Option.bind_none]
  case h_2 h => rw [h, Option.bind_some]

theorem parse_flag (cfg : Config) {ch : Char} (hch : ch ∈ ['g', 'r', 's'])
    (args : List (List Char)) : cfg.parseOptions [] (['-', ch] :: args) =
      (cfg.flag ch).bind fun cfg' => cfg'.parseOptions [] args := by
  have hne : ch ≠ '-' ∧ ch ≠ 'a' ∧ ¬(ch = 'i' ∨ ch = 'I' ∨ ch = 'h') := by
    simp only [List.mem_cons, List.not_mem_nil, or_false] at hch
    rcases hch with rfl | rfl | rfl <;> decide
  rw [parse_word cfg hne.1, Config.parseOptions.eq_def]
  simp only [hne.2.1, hne.2.2, if_false]
  split
  case h_1 h => rw [h, Option.bind_none]
  case h_2 h => rw [h, Option.bind_some]

/-- Options `-i` for splits. -/
def splitWords (intsplits : List Intsplit) : List (List Char) :=
  intsplits.flatMap fun s => [['-', 'i'], decimal s.1.1]

/-- The option for the strictness. -/
def strictnessWords : Strictness → List (List Char)
  | .relaxedParsing => [['-', 'r']]
  | .normalParsing => []
  | .pedanticParsing => [['-', 's']]

/-- The option for the selection. -/
def selectionWords : Option CInt → List (List Char)
  | none => []
  | some k => [['-', 'I'], decimal k.1]

/-- The configuration that they make. -/
def chosenConfig (strict : Strictness) (selected : Option CInt) : Config :=
  { Config.init with
    strictness := strict
    selectedAssumption := (selected.map Subtype.val).getD (-1) }

theorem atoi_decimal (i : CInt) : atoi (decimal i.1) = i := by
  rw [atoi, strtol_decimal, Option.getD_some, CInt.ofLong_val]

theorem parse_strictness (strict : Strictness) (args : List (List Char)) :
    Config.init.parseOptions [] (strictnessWords strict ++ args) =
      { Config.init with strictness := strict }.parseOptions [] args := by
  cases strict with
  | relaxedParsing => exact parse_flag _ (by decide) _
  | normalParsing => rfl
  | pedanticParsing => exact parse_flag _ (by decide) _

theorem parse_choices (strict : Strictness) (selected : Option CInt) (args : List (List Char)) :
    Config.init.parseOptions [] (strictnessWords strict ++ (selectionWords selected ++ args)) =
      (chosenConfig strict selected).parseOptions [] args := by
  rw [parse_strictness]
  cases selected with
  | none => rfl
  | some k =>
    refine (parse_valued _ (Or.inr rfl) _ _).trans ?_
    rw [Config.valued, if_neg (by decide), if_pos rfl, atoi_decimal]
    rfl

/-- **The splits of the command line.** -/
theorem parse_splits (cfg : Config) (intsplits : List Intsplit) :
    ∃ highest, ∀ args, cfg.parseOptions [] (splitWords intsplits ++ args) =
      { cfg with
        intsplits := cfg.intsplits ++ intsplits
        intsplitsHighestIntsplit := highest }.parseOptions [] args := by
  induction intsplits generalizing cfg with
  | nil => exact ⟨cfg.intsplitsHighestIntsplit, fun args => by rw [List.append_nil]; rfl⟩
  | cons s intsplits ih =>
    have hvalued : cfg.valued 'i' (decimal s.1.1) = some (cfg.addIntsplitNestingLevel s.1) := by
      rw [Config.valued, if_pos rfl, atoi_decimal]
    obtain ⟨highest, hrest⟩ := ih (cfg.addIntsplitNestingLevel s.1)
    refine ⟨highest, fun args => ?_⟩
    have hstep := parse_valued cfg (Or.inl rfl) (decimal s.1.1) (splitWords intsplits ++ args)
    rw [hvalued, Option.bind_some, hrest, Config.addIntsplitNestingLevel, dif_pos s.2] at hstep
    rw [List.append_cons]
    exact hstep

/-! ### The lines of the list -/

/-- The line of a cube, without its end. -/
def cubeText (c : List NzLit) : List Char := List.intercalate [' '] (c.map word)

theorem printAssumption_vals (first : Bool) (c : List NzLit) (rest : List ℤ) :
    printAssumption first (vals c ++ 0 :: rest) =
      ((if first ∨ c = [] then [] else [' ']) ++ cubeText c, rest) := by
  induction c generalizing first with
  | nil => cases first <;> rfl
  | cons l c ih =>
    have hl : l.1.val ≠ 0 := l.val_ne_zero
    rw [vals, List.map_cons, List.cons_append, ← vals, printAssumption, if_neg hl, ih]
    cases first <;> cases c <;>
      simp [cubeText, word, List.intercalate_cons_cons]

/-- **The list of the cubes.** -/
theorem printAssumptions_stored (cubes : List (List NzLit)) :
    printAssumptions (stored cubes) = cubes.flatMap fun c => cubeText c ++ ['\n'] := by
  induction cubes with
  | nil => rw [stored, List.flatMap_nil, printAssumptions, List.flatMap_nil]
  | cons c cubes ih =>
    obtain ⟨a, as, has⟩ : ∃ a as, vals c ++ 0 :: stored cubes = a :: as := by
      cases c with
      | nil => exact ⟨0, stored cubes, rfl⟩
      | cons l c => exact ⟨l.1.val, _, rfl⟩
    rw [stored, List.flatMap_cons, ← stored, List.append_assoc, List.singleton_append, has,
      printAssumptions, ← has, printAssumption_vals, ih, List.flatMap_cons]
    simp

theorem cubeText_cons (l l' : NzLit) (c : List NzLit) :
    cubeText (l :: l' :: c) = word l ++ ' ' :: cubeText (l' :: c) := by
  rw [cubeText, List.map_cons, List.map_cons, List.intercalate_cons_cons]
  simp [cubeText]

/-- The words of a line are the numbers in it. -/
theorem words_cubeText (c : List NzLit) : words (cubeText c) = c.map word := by
  have hplain : ∀ l : NzLit, ∀ ch ∈ word l, isWhite ch = false :=
    fun l ch hch => isWhite_of_mem_decimal hch
  have hne : ∀ l : NzLit, (word l).isEmpty = false := fun l =>
    List.isEmpty_eq_false_iff.mpr (decimal_ne_nil _)
  induction c with
  | nil => rfl
  | cons l c ih =>
    cases c with
    | nil =>
      have hone : cubeText [l] = word l := List.append_nil _
      rw [hone, words, List.splitOnP_eq_singleton (hplain l), List.filter_cons, hne]
      rfl
    | cons l' c =>
      rw [cubeText_cons, words, List.splitOnP_append_cons_of_forall_mem (hplain l) ' ' rfl,
        List.filter_cons, hne, ← words, ih]
      rfl

/-- A line is given back with `-a`, but for an empty one. -/
def givenLine (line : List Char) : List (List Char) :=
  if words line = [] then [] else ['-', 'a'] :: words line

/-- **The lines of a list**, given back. -/
def givenList (text : List Char) : List (List Char) := (text.splitOn '\n').flatMap givenLine

theorem newline_notMem_cubeText (c : List NzLit) : '\n' ∉ cubeText c := by
  have hword : ∀ l : NzLit, '\n' ∉ word l := fun l hmem =>
    absurd (isWhite_of_mem_decimal hmem) (by decide)
  induction c with
  | nil => exact List.not_mem_nil
  | cons l c ih =>
    cases c with
    | nil =>
      have hone : cubeText [l] = word l := List.append_nil _
      rw [hone]
      exact hword l
    | cons l' c =>
      rw [cubeText_cons]
      intro hmem
      rcases List.mem_append.mp hmem with hmem | hmem
      · exact hword l hmem
      · exact ih ((List.mem_cons.mp hmem).resolve_left (by decide))

/-- **What is given back** is the cubes that are not empty. -/
theorem givenList_stored (cubes : List (List NzLit)) :
    givenList (printAssumptions (stored cubes)) = givenWords (cubes.filter (· ≠ [])) := by
  rw [printAssumptions_stored, givenList]
  induction cubes with
  | nil => rfl
  | cons c cubes ih =>
    rw [List.flatMap_cons, List.append_assoc, List.singleton_append,
      List.splitOn_append_cons_self_of_not_mem (newline_notMem_cubeText c), List.flatMap_cons, ih,
      givenLine, words_cubeText, List.filter_cons]
    by_cases hc : c = []
    · rw [if_pos (by rw [hc]; rfl), if_neg (by simp [hc])]
      rfl
    · rw [if_neg (mt List.map_eq_nil_iff.mp hc), if_pos (decide_eq_true hc), givenWords, givenWords,
        List.flatMap_cons]

end

/-! ### The list only prints -/

/-- The configuration, with the option `-g` or without it. -/
def Config.listing (b : Bool) (cfg : Config) : Config := { cfg with generateAssumptionList := b }

section

variable {cfg : Config} {b : Bool} {qs : List NzLit} {intsplits : List Intsplit}

theorem addToAssumptions_listing (a : ℤ) :
    (cfg.listing b).addToAssumptions a = (cfg.addToAssumptions a).listing b := by
  rw [Config.addToAssumptions, Config.addToAssumptions]
  split <;> rfl

theorem foldl_listing (as : List ℤ) : as.foldl Config.addToAssumptions (cfg.listing b) =
    (as.foldl Config.addToAssumptions cfg).listing b := by
  induction as generalizing cfg with
  | nil => rfl
  | cons a as ih => rw [List.foldl_cons, List.foldl_cons, addToAssumptions_listing, ih]

theorem inflateLoop_listing (fuel : ℕ) (state : List ℕ) :
    inflateLoop qs fuel state (cfg.listing b) =
      (inflateLoop qs fuel state cfg).map fun r => (r.1, r.2.listing b) := by
  have hcube : ∀ (cfg : Config) state, (cfg.listing b).intsplitStateToAssumption qs state =
      (cfg.intsplitStateToAssumption qs state).map (Config.listing b) := by
    intro cfg state
    have hsplits : (cfg.listing b).intsplits = cfg.intsplits := rfl
    have hsum : (cfg.listing b).intsplitsSummedLength state.length =
        cfg.intsplitsSummedLength state.length := rfl
    rw [Config.intsplitStateToAssumption, Config.intsplitStateToAssumption, hsplits, hsum]
    split
    · rfl
    · rw [Option.map_map]
      exact congrArg (Option.map · _) (funext fun as => foldl_listing _)
  induction fuel generalizing state cfg with
  | zero => rfl
  | succ fuel ih =>
    have hsplits : (cfg.listing b).intsplits = cfg.intsplits := rfl
    rw [inflateLoop, inflateLoop, hsplits, hcube]
    split
    case h_2 => rfl
    case h_1 =>
      split
      case isFalse => rfl
      case isTrue =>
        cases hstep : cfg.intsplitStateToAssumption qs state with
        | none => rfl
        | some cfg' =>
          have hsplits' : (cfg'.listing b).intsplits = cfg'.intsplits := rfl
          simp only [Option.map_some, hsplits', Option.map_bind]
          exact congrArg _ (funext fun state' => ih state')

theorem inflate_listing (fuel : ℕ) (scan : Scan) :
    inflate fuel scan (cfg.listing b) = (inflate fuel scan cfg).map (Config.listing b) := by
  have hsplits : (cfg.listing b).intsplits = cfg.intsplits := rfl
  rw [inflate, inflate, hsplits]
  split
  · rfl
  split
  · rfl
  rw [Config.inflateIntsplits, Config.inflateIntsplits, hsplits, inflateLoop_listing]
  by_cases hempty : scan.quantifiers = [] ∨ cfg.intsplits = []
  · rw [if_pos hempty, if_pos hempty]
    rfl
  · rw [if_neg hempty, if_neg hempty]
    cases hloop : inflateLoop scan.quantifiers fuel (List.replicate cfg.intsplits.length 0) cfg with
    | none => rfl
    | some r =>
      obtain ⟨y, cfg'⟩ := r
      cases y <;> rfl

theorem listing_self (h : cfg.generateAssumptionList = b) : cfg.listing b = cfg := by
  rw [Config.listing, ← h]

theorem generate_inflate {fuel : ℕ} {scan : Scan} {c : Config}
    (h : inflate fuel scan cfg = some c) :
    c.generateAssumptionList = cfg.generateAssumptionList := by
  have hself : cfg.listing cfg.generateAssumptionList = cfg := listing_self rfl
  rw [← hself, inflate_listing] at h
  obtain ⟨c, -, rfl⟩ := Option.map_eq_some_iff.mp h
  rfl

/-- Splits by 1 leave one cube, which is empty. -/
theorem splitCubes_of_zero (hs : intsplits ≠ []) (h : summedLength intsplits = 0) :
    splitCubes intsplits qs = [[]] := by
  have hone : ∀ r ∈ intsplits.map Intsplit.radix, r = 1 := by
    intro r hr
    obtain ⟨s, hmem, rfl⟩ := List.mem_map.mp hr
    have hzero : Nat.clog 2 s.radix = 0 := List.sum_eq_zero_iff_forall_eq_nat.mp h _
      (List.mem_map_of_mem hmem)
    have hle := Nat.le_pow_clog one_lt_two s.radix
    rw [hzero] at hle
    exact le_antisymm hle s.radix_pos
  have hlength : (splitCubes intsplits qs).length = 1 := by
    have hmap := congrArg List.length (map_vals_splitCubes hs qs)
    rw [List.length_map, length_allCubes, List.prod_eq_one hone] at hmap
    exact hmap
  obtain ⟨c, hc⟩ := List.length_eq_one_iff.mp hlength
  have hempty := length_of_mem_splitCubes (by omega) (hc ▸ List.mem_singleton_self c)
  rw [hc, List.eq_nil_of_length_eq_zero (hempty.trans h)]

end

/-! ### The list, given back -/

section

variable {w : Setting} {fuel : ℕ} {file text : List Char} {cfg cfg' c c' : Config}

/-- quapify uses the cubes, and the options that are not splits. -/
theorem quapify_congr (hstrict : cfg.strictness = cfg'.strictness)
    (hc : inflate fuel ((kissatParseDimacs cfg.strictness file).1.foldl Scan.callback Scan.init)
      cfg = some c)
    (hc' : inflate fuel ((kissatParseDimacs cfg.strictness file).1.foldl Scan.callback Scan.init)
      cfg' = some c')
    (hassumptions : c.assumptions = c'.assumptions)
    (hsize : c.assumptionsMaxAssumptionSize = c'.assumptionsMaxAssumptionSize)
    (halike : c.Alike c') : quapify w fuel cfg file = quapify w fuel cfg' file := by
  rw [quapify, quapify, ← hstrict]
  simp only [hc, hc', Option.bind_some, halike.generateAssumptionList, halike.strictness,
    halike.selectedAssumption, hassumptions, hsize]

/-- A list is printed where the splits fit. -/
theorem generate_cases (h : generate fuel cfg file = some text) : ∃ c,
    inflate fuel ((kissatParseDimacs cfg.strictness file).1.foldl Scan.callback Scan.init) cfg =
      some c ∧ text = printAssumptions c.assumptions := by
  rw [generate] at h
  split at h
  · exact absurd h (by simp)
  · obtain ⟨c, hc, hrest⟩ := Option.bind_eq_some_iff.mp h
    split at hrest
    · exact ⟨c, hc, (Option.some.inj hrest).symm⟩
    · exact absurd hrest (by simp)

end

section

variable {fuel : ℕ} {file text : List Char} {strict : Strictness} {selected : Option CInt}
  {intsplits : List Intsplit} {solver : List (List Char)}

theorem parse_solver (cfg : Config) (solver : List (List Char)) :
    cfg.parseOptions [] (['-', '-'] :: solver) = some (cfg, solver) := by
  rw [Config.parseOptions]

theorem parse_list (cfg : Config) :
    cfg.parseOptions [] [['-', 'g']] = some (cfg.listing true, []) := by
  rw [parse_flag cfg (by decide), Config.flag, if_pos rfl, Option.bind_some, Config.parseOptions]
  rfl

/-- Where there are cubes or splits, and a solver or the option `-g`. -/
theorem parseCli_eq {cfg : Config} {args rest : List (List Char)}
    (h : Config.init.parseOptions [] args = some (cfg, rest))
    (hmany : cfg.assumptionsCount ≠ 0 ∨ cfg.intsplits ≠ [])
    (hends : cfg.generateAssumptionList = true ∨ rest ≠ []) : parseCli args = some (cfg, rest) := by
  have hsome : ¬(cfg.assumptionsCount = 0 ∧ cfg.intsplits = []) := not_and_or.mpr hmany
  rw [parseCli, h, Option.bind_some]
  simp only [if_neg hsome]
  refine if_neg ?_
  rintro ⟨hquiet, hrest⟩
  rcases hends with hlist | hne
  · exact Bool.false_ne_true (hquiet.symm.trans hlist)
  · exact hne hrest

/-- **Cubes that are given**, or the empty one where none are. -/
theorem parseCli_given (strict : Strictness) (selected : Option CInt) {cubes : List (List NzLit)}
    (hsolver : solver ≠ [])
    (hcubes : cubes = [[]] ∨ cubes ≠ [] ∧ ∀ c ∈ cubes, c ≠ []) :
    ∃ cfg, parseCli (strictnessWords strict ++ (selectionWords selected ++
        (givenWords (cubes.filter (· ≠ [])) ++ ['-', '-'] :: solver))) = some (cfg, solver) ∧
      cfg.HasCubes cubes ∧ cfg.Alike (chosenConfig strict selected) ∧ cfg.intsplits = [] := by
  have hstart : (chosenConfig strict selected).HasCubes [] := ⟨rfl, rfl, rfl⟩
  have hfilter : ∀ c ∈ cubes.filter (· ≠ []), c ≠ [] := fun c hc =>
    of_decide_eq_true (List.mem_filter.mp hc).2
  obtain ⟨cfg, hparse, halike, hsplits, hcount, hgiven⟩ :=
    parse_given (chosenConfig strict selected) hfilter solver
  have hhas := hgiven [] hstart
  rw [← parse_choices] at hparse
  rcases hcubes with rfl | ⟨hne, hall⟩
  · -- nothing is given, and `parse_cli` adds the empty cube
    have hnone : cfg.assumptionsCount = 0 ∧ cfg.intsplits = [] := ⟨hcount, hsplits⟩
    have hends : ¬(cfg.generateAssumptionList = false ∧ solver = []) := fun h => hsolver h.2
    refine ⟨cfg.addToAssumptions 0, ?_, hhas.add [], ⟨halike.1, halike.2, halike.3⟩, hsplits⟩
    rw [parseCli, hparse, Option.bind_some]
    simp only [if_pos hnone]
    exact if_neg hends
  · have hsame : cubes.filter (· ≠ []) = cubes :=
      List.filter_eq_self.mpr fun c hc => decide_eq_true (hall c hc)
    have hmany : cfg.assumptionsCount ≠ 0 := by
      rw [hcount, hsame]
      exact fun h => hne (List.eq_nil_of_length_eq_zero (Nat.add_eq_zero_iff.mp h).2)
    exact ⟨cfg, parseCli_eq hparse (Or.inl hmany) (Or.inr hsolver), hsame ▸ hhas, halike, hsplits⟩

/-- Splits that are given, with a solver or with the option `-g`. -/
theorem parseCli_splits (strict : Strictness) (selected : Option CInt) (hs : intsplits ≠ [])
    (hsolver : solver ≠ []) :
    ∃ cfg, parseCli (strictnessWords strict ++ (selectionWords selected ++
        (splitWords intsplits ++ ['-', '-'] :: solver))) = some (cfg, solver) ∧
      parseCli (strictnessWords strict ++ (selectionWords selected ++
        (splitWords intsplits ++ [['-', 'g']]))) = some (cfg.listing true, []) ∧
      cfg.HasCubes [] ∧ cfg.Alike (chosenConfig strict selected) ∧
      cfg.intsplits = intsplits := by
  obtain ⟨highest, hparse⟩ := parse_splits (chosenConfig strict selected) intsplits
  refine ⟨{ chosenConfig strict selected with
    intsplits := intsplits
    intsplitsHighestIntsplit := highest }, ?_, ?_, ⟨rfl, rfl, rfl⟩, ⟨rfl, rfl, rfl⟩, rfl⟩
  · refine parseCli_eq ?_ (Or.inr hs) (Or.inr hsolver)
    rw [parse_choices, hparse, parse_solver]
    rfl
  · refine parseCli_eq ?_ (Or.inr hs) (Or.inl rfl)
    rw [parse_choices, hparse, parse_list]
    rfl

/-- The cubes of splits that fit are none but the empty one, or not empty. -/
theorem splitCubes_cases {qs : List NzLit} (hs : intsplits ≠ [])
    (hlen : summedLength intsplits ≤ qs.length) : splitCubes intsplits qs = [[]] ∨
      splitCubes intsplits qs ≠ [] ∧ ∀ c ∈ splitCubes intsplits qs, c ≠ [] := by
  by_cases hzero : summedLength intsplits = 0
  · exact Or.inl (splitCubes_of_zero hs hzero)
  · have hcubes : ∀ c ∈ splitCubes intsplits qs, c ≠ [] := by
      rintro c hc rfl
      exact hzero (length_of_mem_splitCubes hlen hc).symm
    refine Or.inr ⟨?_, hcubes⟩
    intro hnil
    have hwidth := width_splitCubes hs hlen
    rw [hnil] at hwidth
    exact hzero hwidth.symm

/-- **The list of the cubes may be given back.** quapify is run with the option `-g` for splits,
and what it prints is given back with `-a`, a line at a time. Then quapify does what it does for
the splits, whatever becomes of the calls of the library. -/
theorem generated_runs (hsolver : solver ≠ [])
    (hgenerate : (parseCli (strictnessWords strict ++ (selectionWords selected ++
      (splitWords intsplits ++ [['-', 'g']])))).bind (fun r => generate fuel r.1 file) =
        some text) :
    ∃ cfg cfg', parseCli (strictnessWords strict ++ (selectionWords selected ++
        (splitWords intsplits ++ ['-', '-'] :: solver))) = some (cfg, solver) ∧
      parseCli (strictnessWords strict ++ (selectionWords selected ++
        (givenList text ++ ['-', '-'] :: solver))) = some (cfg', solver) ∧
      ∀ w, quapify w fuel cfg' file = quapify w fuel cfg file := by
  obtain ⟨⟨r, rest⟩, hparse, hlist⟩ := Option.bind_eq_some_iff.mp hgenerate
  obtain ⟨c, hinflate, rfl⟩ := generate_cases hlist
  by_cases hs : intsplits = []
  · -- there are no splits: the empty cube is all there is, and nothing is given back
    subst hs
    obtain ⟨cfg, hcfg, -, -, -⟩ := parseCli_given strict selected hsolver (Or.inl rfl)
    have hassumptions : c.assumptions = stored [[]] := by
      have hlisted : parseCli (strictnessWords strict ++ (selectionWords selected ++
          (splitWords [] ++ [['-', 'g']]))) =
            some (((chosenConfig strict selected).listing true).addToAssumptions 0, []) := by
        rw [splitWords, List.flatMap_nil, List.nil_append, parseCli, parse_choices, parse_list]
        rfl
      obtain ⟨rfl, -⟩ := Prod.mk.inj (Option.some.inj (hlisted.symm.trans hparse))
      obtain rfl := Option.some.inj hinflate
      rfl
    rw [hassumptions, givenList_stored]
    exact ⟨cfg, cfg, hcfg, hcfg, fun w => rfl⟩
  · obtain ⟨cfg, hcfg, hlisted, hhas, halike, hsplits⟩ :=
      parseCli_splits strict selected hs hsolver
    obtain ⟨rfl, -⟩ := Prod.mk.inj (Option.some.inj (hlisted.symm.trans hparse))
    -- without `-g`, the same cubes are made
    have hstrict : (cfg.listing true).strictness = cfg.strictness := rfl
    rw [hstrict, inflate_listing] at hinflate
    obtain ⟨c, hc, rfl⟩ := Option.map_eq_some_iff.mp hinflate
    have hsplits' : cfg.intsplits ≠ [] := hsplits ▸ hs
    obtain ⟨hcubes, hselected, -⟩ := inflate_hasCubes hhas hc
    obtain ⟨hlen, -⟩ := inflate_fits hsplits' hc
    obtain ⟨cfg', hcfg', hhas', halike', hnil⟩ :=
      parseCli_given strict selected hsolver (splitCubes_cases hsplits' hlen)
    have hlines := (congrArg (fun as => givenList (printAssumptions as)) hcubes.assumptions).trans
      (givenList_stored _)
    refine ⟨cfg, cfg', hcfg, hlines ▸ hcfg', fun w => ?_⟩
    have hread : cfg'.strictness = cfg.strictness := halike'.strictness.trans halike.strictness.symm
    refine quapify_congr hread (if_pos hnil) (hread ▸ hc) ?_ ?_ ⟨?_, ?_, ?_⟩
    · rw [hhas'.assumptions, hcubes.assumptions, List.nil_append]
    · rw [hhas'.size, hcubes.size, List.nil_append]
    · rw [generate_inflate hc, halike'.generateAssumptionList, halike.generateAssumptionList]
    · rw [hselected, halike'.selectedAssumption, halike.selectedAssumption]
    · rw [strictness_inflate hc, hread]

end

/-- The list for `-i 2` is given back as `-a -1 -a 1`. -/
theorem forallExists_given : ∃ cfg cfg',
    parseCli [['-', 'i'], ['2'], ['-', '-'], ['s']] = some (cfg, [['s']]) ∧
      parseCli [['-', 'a'], ['-', '1'], ['-', 'a'], ['1'], ['-', '-'], ['s']] =
        some (cfg', [['s']]) ∧
      ∀ w, quapify w 3 cfg' forallExistsFile = quapify w 3 cfg forallExistsFile := by
  have hparse : parseCli (strictnessWords .normalParsing ++ (selectionWords none ++
      (splitWords [⟨.of 2, by decide⟩] ++ [['-', 'g']]))) = some (bothCubes.listing true, []) := by
    refine parseCli_eq ?_ (Or.inr (by decide)) (Or.inl rfl)
    rw [parse_choices]
    exact (parse_valued _ (Or.inl rfl) _ _).trans (parse_list bothCubes)
  have hinflate : (inflate 3 ((kissatParseDimacs .normalParsing forallExistsFile).1.foldl
      Scan.callback Scan.init) (bothCubes.listing true)).map (fun c =>
        (c.generateAssumptionList, c.assumptions)) =
      some (true, stored [[nzLit (-1)], [nzLit 1]]) := by decide +kernel
  have hlisted : (parseCli (strictnessWords .normalParsing ++ (selectionWords none ++
      (splitWords [⟨.of 2, by decide⟩] ++ [['-', 'g']])))).bind
        (fun r => generate 3 r.1 forallExistsFile) = some "-1\n1\n".toList := by
    obtain ⟨c, hc, hvals⟩ := Option.map_eq_some_iff.mp hinflate
    obtain ⟨hlist, hassumptions⟩ := Prod.mk.inj hvals
    rw [hparse, Option.bind_some, generate, if_neg (by decide +kernel)]
    refine Option.bind_eq_some_iff.mpr ⟨c, hc, ?_⟩
    rw [if_pos hlist, hassumptions, printAssumptions_stored]
    rfl
  have hsolver : [['s']] ≠ [] := List.cons_ne_nil _ _
  obtain ⟨cfg, cfg', hcfg, hcfg', hruns⟩ := generated_runs hsolver hlisted
  exact ⟨cfg, cfg', hcfg, hcfg', hruns⟩

end Quapify

end QuAPI
