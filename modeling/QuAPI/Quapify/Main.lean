import QuAPI.Quapify.Intsplits
import QuAPI.Session

/-!
# quapify

`main`: the formula file is parsed twice. In the first pass there is no solver yet, and the two
functions that the parser calls count: the clauses, the largest variable of a clause, and the
quantifiers, which the integer splits need. In the second pass the same two functions hand what
they get to the library, and then every cube is assumed and solved.

The `p cnf` line that the solver reads is announced between the two passes.
`QuAPI.Quapify.announced_iff` says when it bounds every variable that comes behind it: when no
variable of the prefix is larger than all variables of the clauses.
-/

namespace QuAPI

namespace Quapify

/-! ### What the parser reports -/

/-- What a callback may get: an `int` whose absolute value is a variable, and no 0 for a
quantifier. -/
def Callback.InRange : Callback → Prop
  | .addQuantifier i => i ≠ 0 ∧ i.natAbs ≤ maxVars
  | .addLit i => i.natAbs ≤ maxVars

/-- All callbacks are in range. -/
def Ranged (x : Outcome) : Prop := ∀ c ∈ x.1, c.InRange

section

variable {strict : Strictness} {vars clauses : ℕ} {s : BodyState} {sign : ℤ} {idx : ℕ}

theorem ranged_fail (message : String) : Ranged (fail message) := fun _ h =>
  absurd h List.not_mem_nil

theorem ranged_endOfBody (s : BodyState) : Ranged (endOfBody strict clauses s) := by
  intro c hc
  rw [endOfBody] at hc
  split_ifs at hc <;> exact absurd hc List.not_mem_nil

theorem digit_le {ch : Char} (h : ch.isDigit = true) : digit ch ≤ 9 := by
  have h0 : '0'.toNat = 48 := rfl
  have h9 : '9'.toNat = 57 := rfl
  obtain ⟨hlow, hhigh⟩ := Char.isDigit_iff_toNat.mp h
  rw [digit]
  omega

theorem digit_le_maxVars {ch : Char} (h : ch.isDigit = true) : digit ch ≤ maxVars :=
  (digit_le h).trans (by decide)

/-- The bound is not exceeded. -/
theorem pushDigit_le {n : ℕ} {ch : Char} (hch : ch.isDigit = true)
    (h : pushDigit maxVars idx ch = some n) : n ≤ maxVars := by
  have hdigit := digit_le_maxVars hch
  rw [pushDigit] at h
  split_ifs at h with h1 h2
  obtain rfl := Option.some.inj h
  omega

/-- A number that is used. -/
theorem ranged_andThen (hsign : sign.natAbs = 1) (hidx : idx ≤ maxVars)
    {k : BodyState → Outcome} (hk : ∀ s, Ranged (k s)) :
    Ranged (andThen (useNumber strict vars clauses s sign idx) k) := by
  have habs : (sign * (idx : ℤ)).natAbs = idx := by
    rw [Int.natAbs_mul, hsign, Int.natAbs_natCast, Nat.one_mul]
  have hcall : ∀ (s' : BodyState) (calls : List Callback), (∀ c ∈ calls, c.InRange) →
      Ranged (andThen (.ok (s', calls)) k) := fun s' calls hcalls c hc => by
    rcases List.mem_append.mp hc with hc | hc
    · exact hcalls c hc
    · exact hk s' c hc
  rw [useNumber]
  split_ifs with hbig h0 hblock huniversal hfull
  · exact ranged_fail _
  · refine hcall _ _ ?_
    intro c hc
    have hneg : (-|sign * (idx : ℤ)|).natAbs = idx := by
      rw [Int.natAbs_neg, Int.natAbs_abs, habs]
    rw [List.mem_singleton.mp hc]
    exact ⟨Int.natAbs_ne_zero.mp (hneg.trans_ne h0), hneg.trans_le hidx⟩
  · refine hcall _ _ ?_
    intro c hc
    have hpos : |sign * (idx : ℤ)|.natAbs = idx := by rw [Int.natAbs_abs, habs]
    rw [List.mem_singleton.mp hc]
    exact ⟨Int.natAbs_ne_zero.mp (hpos.trans_ne h0), hpos.trans_le hidx⟩
  · refine hcall _ _ ?_
    intro c hc
    rw [List.mem_singleton.mp hc]
    exact habs.trans_le hidx
  · exact ranged_fail _
  · exact hcall _ _ fun c hc => absurd hc List.not_mem_nil
  · refine hcall _ _ ?_
    intro c hc
    rw [List.mem_singleton.mp hc]
    exact Nat.zero_le _

/-- **Everything that is reported is in range.** -/
structure RangedFrom (strict : Strictness) (vars clauses : ℕ) (cs : List Char) : Prop where
  body : ∀ s, Ranged (parseBody strict vars clauses s cs)
  comment : ∀ s, Ranged (bodyComment strict vars clauses s cs)
  number : ∀ s sign idx, sign.natAbs = 1 → idx ≤ maxVars →
    Ranged (number strict vars clauses s sign idx cs)
  numberComment : ∀ s sign idx, sign.natAbs = 1 → idx ≤ maxVars →
    Ranged (numberComment strict vars clauses s sign idx cs)

theorem rangedFrom (cs : List Char) : RangedFrom strict vars clauses cs := by
  -- on the number of characters that are left
  induction hn : cs.length using Nat.strong_induction_on generalizing cs with
  | _ n ih =>
    subst hn
    cases cs with
    | nil =>
      refine ⟨ranged_endOfBody, ?_, ?_, ?_⟩
      · intro s
        rw [bodyComment]
        split
        · exact ranged_endOfBody s
        · exact ranged_fail _
      · intro s sign idx hsign hidx
        rw [number]
        split
        · split <;> exact ranged_fail _
        · exact ranged_andThen hsign hidx ranged_endOfBody
      · intro s sign idx hsign hidx
        rw [numberComment]
        split
        · exact ranged_andThen hsign hidx ranged_endOfBody
        · exact ranged_fail _
    | cons ch rest =>
      have hrest : ∀ cs, cs.length < rest.length + 1 → RangedFrom strict vars clauses cs :=
        fun cs hlen => ih cs.length hlen cs rfl
      have hself : RangedFrom strict vars clauses rest := hrest rest (Nat.lt_succ_self _)
      refine ⟨?_, ?_, ?_, ?_⟩
      · intro s
        rw [parseBody.eq_def]
        simp only []
        split
        · exact hself.body s
        split
        · split
          · exact (hrest _ (by rw [List.length_cons]; omega)).body s
          · exact ranged_fail _
        split
        · exact hself.comment s
        split
        · split
          · exact ranged_fail _
          split_ifs with hline hdigit hzero
          · exact ranged_fail _
          · exact ranged_fail _
          · exact (hrest _ (by rw [List.length_cons]; omega)).number s (-1) _ rfl
              (digit_le_maxVars hdigit)
          · exact ranged_fail _
        split
        · split
          · exact ranged_fail _
          split
          · exact ranged_endOfBody _
          · exact (hrest _ (by rw [List.length_cons]; omega)).body _
        split
        case isTrue => exact ranged_fail _
        case isFalse hdigit =>
          exact hself.number s 1 _ rfl (digit_le_maxVars (not_not.mp hdigit))
      · intro s
        rw [bodyComment]
        split
        · exact hself.body s
        · exact hself.comment s
      · intro s sign idx hsign hidx
        rw [number.eq_def]
        simp only []
        split
        case isTrue hdigit =>
          split
          · exact ranged_fail _
          case h_2 hpush => exact hself.number s sign _ hsign (pushDigit_le hdigit hpush)
        split
        · split
          · exact ranged_andThen hsign hidx
              (hrest _ (by rw [List.length_cons]; omega)).body
          · exact ranged_fail _
        split
        · exact hself.numberComment s sign idx hsign hidx
        split
        · exact ranged_fail _
        · exact ranged_andThen hsign hidx hself.body
      · intro s sign idx hsign hidx
        rw [numberComment]
        split
        · exact ranged_andThen hsign hidx hself.body
        · exact hself.numberComment s sign idx hsign hidx

end

/-- **Every callback of the parser is in range.** -/
theorem ranged_kissatParseDimacs (strict : Strictness) (input : List Char) :
    Ranged (kissatParseDimacs strict input) := by
  rw [kissatParseDimacs]
  split
  · exact ranged_fail _
  · exact (rangedFrom _).body _

/-! ### Two passes -/

/-- An `int` as a literal: all but the smallest one. -/
def lit? (i : ℤ) : Option Lit :=
  if h : -2147483648 < i ∧ i ≤ 2147483647 then some ⟨i, h.1, h.2⟩ else none

theorem val_lit? {i : ℤ} {l : Lit} (h : lit? i = some l) : l.val = i := by
  rw [lit?] at h
  split at h
  · rw [← Option.some.inj h]
  · exact absurd h (by simp)

theorem exists_lit? {i : ℤ} (h : i.natAbs ≤ maxVars) : ∃ l, lit? i = some l := by
  have hle : i.natAbs ≤ 2147483647 := h
  exact ⟨_, dif_pos ⟨by omega, by omega⟩⟩

/-- A `size_t` that is passed as an `int`. -/
def CInt.ofSize (n : ℕ) : CInt :=
  ⟨(n : ℤ).bmod (2 ^ 32), by
    have hlow := Int.le_bmod (x := n) (m := 2 ^ 32) (by norm_num)
    have hup := Int.bmod_lt (x := n) (m := 2 ^ 32) (by norm_num)
    omega⟩

/-- The static variables of quapify. -/
structure Scan where
  varcount : ℕ
  clausecount : ℕ
  quantifiers : List NzLit

/-- The static variables at the start. -/
def Scan.init : Scan := ⟨0, 0, []⟩

/-- `add_quantifier`, without a solver. -/
def Scan.addQuantifier (s : Scan) (lit : ℤ) : Scan :=
  match lit? lit with
  | none => s
  | some l => if h : l ≠ 0 then { s with quantifiers := s.quantifiers ++ [⟨l, h⟩] } else s

/-- `add_lit`, without a solver. -/
def Scan.addLit (s : Scan) (lit : ℤ) : Scan :=
  if lit = 0 then { s with clausecount := s.clausecount + 1 }
  else { s with varcount := if s.varcount < lit.natAbs then lit.natAbs else s.varcount }

/-- A callback of the first pass. -/
def Scan.callback (s : Scan) : Callback → Scan
  | .addQuantifier lit => s.addQuantifier lit
  | .addLit lit => s.addLit lit

/-- What surrounds the calls of the library: whether
`QUAPI_ALLOW_MISSING_UNIVERSAL_ASSUMPTIONS` is set, and what comes of each call. -/
structure Setting where
  allowMissing : Bool
  io : Api → Io

/-- A call of the library, with what it returns. -/
def Setting.call (w : Setting) (a : Api) (c : ApiCall) : Option (Bool × Api) :=
  (a.solver.call w.allowMissing c (w.io a)).map fun e =>
    (e.returned, ⟨e.solver, a.toSeed ++ e.toSeed, a.toChild ++ e.toChild⟩)

/-- How `main` goes on. -/
inductive Status where
  | running
  /-- `goto ERROR`. -/
  | error
  /-- An assertion has failed. -/
  | aborted
deriving DecidableEq

/-- `main`, once there is a solver. -/
structure Main where
  scan : Scan
  api : Api
  /-- What `quapi_assume` has been called with. -/
  assumed : List ℤ
  assumptionId : ℕ
  status : Status

namespace Main

variable (w : Setting)

/-- A call whose result does not matter. -/
def perform (m : Main) (c : ApiCall) : Main :=
  match w.call m.api c with
  | none => { m with status := .aborted }
  | some (_, api) => { m with api := api }

/-- `add_quantifier` and `add_lit`, with a solver. -/
def callback (m : Main) (c : Callback) : Main :=
  if m.status ≠ .running then m
  else
    match c with
    | .addQuantifier lit => ((lit? lit).map fun l => m.perform w (.quantify l)).getD m
    | .addLit lit => ((lit? lit).map fun l => m.perform w (.add l)).getD m

/-- One turn of the loop over the cubes. The macro `ABS` asserts that its argument is not the
smallest `int`. -/
def assumption (selected : ℤ) (m : Main) (ass : ℤ) : Main :=
  if m.status ≠ .running then m
  else
    let chosen := selected = -1 ∨ 0 ≤ selected ∧ m.assumptionId = selected
    if ass ≠ 0 then
      if chosen then
        match lit? ass with
        | none => { m with status := .aborted }
        | some l =>
          if m.scan.varcount < ass.natAbs then { m with status := .error }
          else
            let m := { m with assumed := m.assumed ++ [ass] }
            match w.call m.api (.assume l) with
            | none => { m with status := .aborted }
            | some (true, api) => { m with api := api }
            | some (false, api) => { m with api := api, status := .error }
      else m
    else
      let m := if chosen then m.perform w .solve else m
      { m with assumptionId := m.assumptionId + 1 }

end Main

/-- The integer splits between the passes, where there are any. -/
def inflate (fuel : ℕ) (scan : Scan) (cfg : Config) : Option Config :=
  if cfg.intsplits = [] then some cfg
  else if scan.quantifiers = [] then none
  else
    match cfg.inflateIntsplits fuel scan.quantifiers with
    | some (true, cfg) => some cfg
    | _ => none

/-- `main`, from the configuration of the command line and the contents of the formula file.
There is no result where no solver is started. -/
def quapify (w : Setting) (fuel : ℕ) (cfg : Config) (file : List Char) : Option Main :=
  let first := kissatParseDimacs cfg.strictness file
  if first.2.isSome then none
  else
    let scan := first.1.foldl Scan.callback Scan.init
    (inflate fuel scan cfg).bind fun cfg =>
      if cfg.generateAssumptionList then none
      else
        (quapiInit (CInt.ofSize scan.varcount) (CInt.ofSize scan.clausecount)
          (CInt.ofSize cfg.assumptionsMaxAssumptionSize) none).map fun solver =>
            let second := kissatParseDimacs cfg.strictness file
            let m := second.1.foldl (Main.callback w) ⟨scan, Api.start solver, [], 0, .running⟩
            let m := if second.2.isSome ∧ m.status = .running then { m with status := .error }
              else m
            cfg.assumptions.foldl (Main.assumption w cfg.selectedAssumption) m

/-! ### The first pass -/

/-- **The first pass finds the largest variable of the clauses.** -/
theorem le_varcount_iff {calls : List Callback} {s : Scan} {n : ℕ} :
    n ≤ (calls.foldl Scan.callback s).varcount ↔
      n ≤ s.varcount ∨ ∃ l, .addLit l ∈ calls ∧ n ≤ l.natAbs := by
  induction calls generalizing s with
  | nil => simp
  | cons c calls ih =>
    rw [List.foldl_cons, ih]
    cases c with
    | addQuantifier q =>
      have hsame : (s.callback (.addQuantifier q)).varcount = s.varcount := by
        rw [Scan.callback, Scan.addQuantifier]
        split
        · rfl
        · split <;> rfl
      rw [hsame]
      simp
    | addLit l =>
      have hmax : n ≤ (s.callback (.addLit l)).varcount ↔ n ≤ s.varcount ∨ n ≤ l.natAbs := by
        rw [Scan.callback, Scan.addLit]
        split
        case isTrue h0 =>
          subst h0
          change n ≤ s.varcount ↔ _
          omega
        case isFalse =>
          change n ≤ (if s.varcount < l.natAbs then l.natAbs else s.varcount) ↔ _
          split <;> omega
      rw [hmax, or_assoc]
      refine or_congr_right ?_
      constructor
      · rintro (h | ⟨k, hk, h⟩)
        · exact ⟨l, List.mem_cons_self, h⟩
        · exact ⟨k, List.mem_cons_of_mem _ hk, h⟩
      · rintro ⟨k, hk, h⟩
        rcases List.mem_cons.mp hk with heq | hk
        · exact Or.inl (Callback.addLit.inj heq ▸ h)
        · exact Or.inr ⟨k, hk, h⟩

theorem ofSize_val (n : ℕ) : (CInt.ofSize n).1 = (n : ℤ).bmod 4294967296 := by
  unfold CInt.ofSize
  norm_num

/-- The number of variables is passed as it is. -/
theorem ofSize_eq {n : ℕ} (h : n ≤ maxVars) : (CInt.ofSize n).1 = n := by
  have hn : n ≤ 2147483647 := h
  rw [ofSize_val, Int.bmod_eq_of_le (by omega) (by omega)]

/-! ### What is sent -/

/-- The literal of a message. -/
def literalOf : QuapiMsg → List ℤ
  | .quantifier l => [l.val]
  | .literal l => [l.val]
  | _ => []

/-- Every literal that has been sent, and every literal that has been assumed. -/
def Main.literals (m : Main) : List ℤ :=
  m.api.toSeed.flatMap literalOf ++ m.api.toChild.flatMap literalOf ++ m.assumed

/-- The literal that a call is made with. -/
def argument : ApiCall → ℤ
  | .quantify l => l.val
  | .add l => l.val
  | .assume l => l.val
  | _ => 0

/-- The handshake sends no literal. -/
theorem literalOf_makeSolvable (s : QuapiSolver) (k : Handshake) :
    (s.makeSolvable k).2.2.flatMap literalOf = [] := by
  by_cases h : s.needsFork
  · rw [QuapiSolver.makeSolvable_of_needsFork h]
    cases k <;> rfl
  · rw [QuapiSolver.makeSolvable_of_not h]
    rfl

theorem natAbs_sentQuantifier (s : QuapiSolver) (l : Lit) :
    (s.sentQuantifier l).val.natAbs = l.val.natAbs := by
  rw [QuapiSolver.sentQuantifier]
  split
  · exact Int.natAbs_neg l.val
  · rfl

/-- A call sends nothing larger than what it is made with. -/
theorem le_argument {s : QuapiSolver} {allowMissing : Bool} {c : ApiCall} {io : Io} {e : Effect}
    (he : s.call allowMissing c io = some e) :
    ∀ l ∈ e.toSeed.flatMap literalOf ++ e.toChild.flatMap literalOf,
      l.natAbs ≤ (argument c).natAbs := by
  intro l hl
  cases c with
  | quantify lit =>
    change s.quapiQuantify lit = some e at he
    rw [QuapiSolver.quapiQuantify] at he
    split at he
    case isFalse => exact absurd he (by simp)
    case isTrue =>
      obtain rfl := Option.some.inj he
      rw [List.mem_singleton.mp hl]
      exact (natAbs_sentQuantifier s lit).le
  | add lit =>
    change s.quapiAdd lit = some e at he
    rw [QuapiSolver.quapiAdd] at he
    split at he
    case isFalse => exact absurd he (by simp)
    case isTrue =>
      obtain rfl := Option.some.inj he
      rw [List.mem_singleton.mp hl]
      exact le_rfl
  | assume lit =>
    have hunit : ∀ n, ∀ l ∈ ([QuapiMsg.literal lit, .literal 0].take n).flatMap literalOf,
        l.natAbs ≤ lit.val.natAbs := by
      intro n l hl
      obtain ⟨msg, hmsg, hl⟩ := List.mem_flatMap.mp hl
      rcases List.mem_pair.mp (List.mem_of_mem_take hmsg) with rfl | rfl
      · rw [List.mem_singleton.mp hl]
      · rw [List.mem_singleton.mp hl]
        exact Nat.zero_le _
    rcases QuapiSolver.quapiAssume_cases he with ⟨-, rfl⟩ | ⟨-, -, rfl⟩ | ⟨-, -, -, rfl⟩ |
      ⟨-, -, -, -, rfl⟩ | ⟨-, -, -, rfl⟩
    · exact absurd hl List.not_mem_nil
    · exact absurd hl List.not_mem_nil
    · rw [literalOf_makeSolvable] at hl
      exact absurd hl List.not_mem_nil
    · rw [literalOf_makeSolvable] at hl
      exact hunit _ l hl
    · rw [literalOf_makeSolvable] at hl
      exact hunit 2 l hl
  | reset =>
    obtain rfl := Option.some.inj he
    rw [QuapiSolver.quapiResetAssumptions] at hl
    split at hl <;> exact absurd hl List.not_mem_nil
  | solve =>
    obtain rfl := Option.some.inj he
    rcases s.quapiSolve_cases allowMissing io with ⟨-, h⟩ | ⟨-, -, h⟩ | ⟨-, -, -, h⟩ |
      ⟨-, -, -, -, h⟩
    all_goals
      rw [h] at hl
      try rw [literalOf_makeSolvable] at hl
      exact absurd hl List.not_mem_nil

theorem Setting.call_writes {w : Setting} {a b : Api} {c : ApiCall} {y : Bool}
    (h : w.call a c = some (y, b)) : ∃ s t, b.toSeed = a.toSeed ++ s ∧
      b.toChild = a.toChild ++ t ∧
      ∀ l ∈ s.flatMap literalOf ++ t.flatMap literalOf, l.natAbs ≤ (argument c).natAbs := by
  obtain ⟨e, he, hb⟩ := Option.map_eq_some_iff.mp h
  obtain ⟨-, rfl⟩ := Prod.mk.inj hb
  exact ⟨e.toSeed, e.toChild, rfl, rfl, le_argument he⟩

namespace Main

variable {w : Setting} {v : ℕ} {m m' m'' : Main}

/-- **A piece of a run**, in which nothing larger than `v` is sent or assumed. -/
structure Extends (v : ℕ) (m m' : Main) : Prop where
  scan : m'.scan = m.scan
  seed : m.api.toSeed <+: m'.api.toSeed
  kept : m.literals ⊆ m'.literals
  bounded : ∀ l ∈ m'.literals, l ∈ m.literals ∨ l.natAbs ≤ v

/-- What does not touch the streams. -/
theorem Extends.of_eq (hscan : m'.scan = m.scan) (happi : m'.api = m.api)
    (hassumed : m'.assumed = m.assumed) : Extends v m m' := by
  have hsame : m'.literals = m.literals := by rw [literals, literals, happi, hassumed]
  exact ⟨hscan, happi ▸ List.prefix_rfl, hsame ▸ List.Subset.refl _,
    fun l hl => Or.inl (hsame ▸ hl)⟩

theorem Extends.trans (h : Extends v m m') (h' : Extends v m' m'') : Extends v m m'' := by
  refine ⟨h'.scan.trans h.scan, h.seed.trans h'.seed, fun l hl => h'.kept (h.kept hl), ?_⟩
  intro l hl
  rcases h'.bounded l hl with hl | hle
  · exact h.bounded l hl
  · exact Or.inr hle

/-- A call that is made. -/
theorem extends_call {a : Api} {c : ApiCall} {y : Bool} (hcall : w.call m.api c = some (y, a))
    (hle : (argument c).natAbs ≤ v) (hscan : m'.scan = m.scan) (happi : m'.api = a)
    (hassumed : m'.assumed = m.assumed) : Extends v m m' := by
  obtain ⟨s, t, hseed, hchild, hnew⟩ := Setting.call_writes hcall
  have hlits : ∀ l, l ∈ m'.literals ↔
      l ∈ m.literals ∨ l ∈ s.flatMap literalOf ++ t.flatMap literalOf := fun l => by
    rw [literals, literals, happi, hassumed, hseed, hchild, List.flatMap_append,
      List.flatMap_append]
    simp only [List.mem_append]
    tauto
  refine ⟨hscan, ⟨s, by rw [happi, hseed]⟩, fun l hl => (hlits l).mpr (Or.inl hl),
    fun l hl => ?_⟩
  rcases (hlits l).mp hl with hl | hl
  · exact Or.inl hl
  · exact Or.inr ((hnew l hl).trans hle)

theorem extends_perform {c : ApiCall} (hle : (argument c).natAbs ≤ v) :
    Extends v m (m.perform w c) := by
  rw [perform]
  split
  · exact .of_eq rfl rfl rfl
  case h_2 hcall => exact extends_call hcall hle rfl rfl rfl

/-- **A callback of the second pass** sends what it gets. -/
theorem extends_callback {c : Callback} (hle : ∀ i, c = .addQuantifier i ∨ c = .addLit i →
    i.natAbs ≤ v) : Extends v m (m.callback w c) := by
  rw [callback.eq_def]
  split
  · exact .of_eq rfl rfl rfl
  cases c with
  | addQuantifier i =>
    change Extends v m (((lit? i).map fun l => m.perform w (.quantify l)).getD m)
    cases h : lit? i with
    | none => exact .of_eq rfl rfl rfl
    | some l =>
      refine extends_perform ?_
      change l.val.natAbs ≤ v
      rw [val_lit? h]
      exact hle i (Or.inl rfl)
  | addLit i =>
    change Extends v m (((lit? i).map fun l => m.perform w (.add l)).getD m)
    cases h : lit? i with
    | none => exact .of_eq rfl rfl rfl
    | some l =>
      refine extends_perform ?_
      change l.val.natAbs ≤ v
      rw [val_lit? h]
      exact hle i (Or.inr rfl)

theorem extends_assumed {ass : ℤ} (h : ass.natAbs ≤ v) :
    Extends v m { m with assumed := m.assumed ++ [ass] } := by
  refine ⟨rfl, List.prefix_rfl, ?_, ?_⟩
  · intro l hl
    rw [literals, ← List.append_assoc]
    exact List.mem_append_left _ hl
  · intro l hl
    rw [literals, ← List.append_assoc] at hl
    rcases List.mem_append.mp hl with hl | hl
    · exact Or.inl hl
    · exact Or.inr (List.mem_singleton.mp hl ▸ h)

/-- **A turn of the loop over the cubes** assumes nothing larger than what the first pass
found. -/
theorem extends_assumption {selected ass : ℤ} (hv : m.scan.varcount ≤ v) :
    Extends v m (m.assumption w selected ass) := by
  rw [assumption]
  split
  · exact .of_eq rfl rfl rfl
  by_cases h0 : ass ≠ 0
  · rw [if_pos h0]
    -- all cubes, or only the one that has been chosen
    by_cases hchosen : selected = -1 ∨ 0 ≤ selected ∧ m.assumptionId = selected
    · rw [if_pos hchosen]
      cases hl : lit? ass with
      | none => exact .of_eq rfl rfl rfl
      | some l =>
        simp only []
        split
        case isTrue => exact .of_eq rfl rfl rfl
        case isFalse hle =>
          have hbound : ass.natAbs ≤ v := (not_lt.mp hle).trans hv
          have harg : (argument (.assume l)).natAbs ≤ v := by
            change l.val.natAbs ≤ v
            rw [val_lit? hl]
            exact hbound
          refine (extends_assumed hbound).trans ?_
          split
          · exact .of_eq rfl rfl rfl
          case h_2 hcall => exact extends_call hcall harg rfl rfl rfl
          case h_3 hcall => exact extends_call hcall harg rfl rfl rfl
    · rw [if_neg hchosen]
      exact .of_eq rfl rfl rfl
  · rw [if_neg h0]
    simp only []
    split
    · exact (extends_perform (c := .solve) (Nat.zero_le v)).trans (.of_eq rfl rfl rfl)
    · exact .of_eq rfl rfl rfl

/-- **A run extends what its steps extend.** -/
theorem extends_foldl {α : Type*} {f : Main → α → Main} {as : List α}
    (h : ∀ m, ∀ a ∈ as, Extends v m (f m a)) (m : Main) : Extends v m (as.foldl f m) := by
  induction as generalizing m with
  | nil => exact .of_eq rfl rfl rfl
  | cons a as ih =>
    exact (h m a List.mem_cons_self).trans
      (ih (fun m b hb => h m b (List.mem_cons_of_mem _ hb)) _)

/-- The loop over the cubes. -/
theorem extends_assumptions {selected : ℤ} (as : List ℤ) (hv : m.scan.varcount ≤ v) :
    Extends v m (as.foldl (assumption w selected) m) := by
  induction as generalizing m with
  | nil => exact .of_eq rfl rfl rfl
  | cons a as ih =>
    have hstep : Extends v m (m.assumption w selected a) := extends_assumption hv
    exact hstep.trans (ih (hstep.scan ▸ hv))

end Main

/-! ### The quantifiers in front of the clauses -/

/-- The quantifiers that are reported before the first literal. -/
def leadingQuantifiers : List Callback → List ℤ
  | .addQuantifier q :: calls => q :: leadingQuantifiers calls
  | _ => []

/-- **The variables of the prefix are covered**: none is larger than all variables of the
clauses. -/
def PrefixCovered (calls : List Callback) : Prop :=
  ∀ q ∈ leadingQuantifiers calls, ∃ l, .addLit l ∈ calls ∧ q.natAbs ≤ l.natAbs

namespace Main

variable {w : Setting} {v : ℕ} {m : Main}

theorem callback_of_ne (h : m.status ≠ .running) (c : Callback) : m.callback w c = m := by
  rw [callback.eq_def, if_pos h]

theorem callback_addQuantifier (h : m.status = .running) {i : ℤ} {l : Lit} (hl : lit? i = some l) :
    m.callback w (.addQuantifier i) = m.perform w (.quantify l) := by
  rw [callback.eq_def, if_neg (not_not.mpr h)]
  simp only [hl, Option.map_some, Option.getD_some]

theorem callback_addLit (h : m.status = .running) {i : ℤ} {l : Lit} (hl : lit? i = some l) :
    m.callback w (.addLit i) = m.perform w (.add l) := by
  rw [callback.eq_def, if_neg (not_not.mpr h)]
  simp only [hl, Option.map_some, Option.getD_some]

/-- A quantifier is sent as long as there is no clause. -/
theorem perform_quantify (hst : m.api.solver.state = .input) (l : Lit) :
    (m.perform w (.quantify l)).status = m.status ∧
      (m.perform w (.quantify l)).api.solver.state = .input ∧
      ∃ k ∈ (m.perform w (.quantify l)).literals, k.natAbs = l.val.natAbs := by
  obtain ⟨a, hcall, hstate, hseed⟩ : ∃ a, w.call m.api (.quantify l) = some (true, a) ∧
      a.solver.state = .input ∧
      a.toSeed = m.api.toSeed ++ [.quantifier (m.api.solver.sentQuantifier l)] := by
    rw [Setting.call]
    change ∃ a, (m.api.solver.quapiQuantify l).map _ = some (true, a) ∧ _
    rw [QuapiSolver.quapiQuantify_of_input hst]
    exact ⟨_, rfl, hst, rfl⟩
  rw [perform, hcall]
  refine ⟨rfl, hstate, (m.api.solver.sentQuantifier l).val, ?_, natAbs_sentQuantifier _ l⟩
  rw [literals, hseed, List.flatMap_append]
  exact List.mem_append_left _ (List.mem_append_left _ (List.mem_append_right _
    List.mem_cons_self))

/-- Behind a clause, it is not. -/
theorem perform_quantify_of_ne (hst : m.api.solver.state ≠ .input) (l : Lit) :
    m.perform w (.quantify l) = { m with status := .aborted } := by
  have hcall : w.call m.api (.quantify l) = none := by
    rw [Setting.call, Option.map_eq_none_iff]
    exact if_neg hst
  rw [perform, hcall]

/-- A literal ends the prefix. -/
theorem state_perform_add (l : Lit) : (m.perform w (.add l)).status = .aborted ∨
    (m.perform w (.add l)).api.solver.state ≠ .input := by
  rw [perform]
  split
  · exact Or.inl rfl
  case h_2 api hcall =>
    obtain ⟨e, he, hb⟩ := Option.map_eq_some_iff.mp hcall
    obtain ⟨-, rfl⟩ := Prod.mk.inj hb
    change m.api.solver.quapiAdd l = some e at he
    rw [QuapiSolver.quapiAdd] at he
    split at he
    case isFalse => exact absurd he (by simp)
    case isTrue =>
      obtain rfl := Option.some.inj he
      refine Or.inr ?_
      change (if l = 0 then _ else _ : QuapiSolver).state ≠ .input
      split <;> exact QuapiState.noConfusion

/-- **The second pass** sends nothing larger than `v`, if the quantifiers in front of the clauses
are not, and the literals of the clauses are not. -/
theorem extends_secondPass {calls : List Callback} (hv : v ≤ maxVars)
    (hrange : ∀ c ∈ calls, c.InRange) (hlits : ∀ l, .addLit l ∈ calls → l.natAbs ≤ v)
    (hlead : m.status = .running → m.api.solver.state = .input →
      ∀ q ∈ leadingQuantifiers calls, q.natAbs ≤ v) :
    Extends v m (calls.foldl (callback w) m) := by
  -- on the callbacks: a quantifier is in front, or it is not sent
  induction calls generalizing m with
  | nil => exact .of_eq rfl rfl rfl
  | cons c calls ih =>
    have ih' := fun m' => @ih m' (fun d hd => hrange d (List.mem_cons_of_mem _ hd))
      (fun l hl => hlits l (List.mem_cons_of_mem _ hl))
    -- where the program has ended, no callback does anything
    by_cases hrun : m.status = .running
    case neg =>
      rw [List.foldl_cons, callback_of_ne hrun]
      exact ih' m fun h => absurd h hrun
    case pos =>
      rw [List.foldl_cons]
      cases c with
      | addQuantifier q =>
        obtain ⟨l, hl⟩ := exists_lit? (hrange _ List.mem_cons_self).2
        rw [callback_addQuantifier hrun hl]
        by_cases hst : m.api.solver.state = .input
        · have hle : (argument (.quantify l)).natAbs ≤ v := by
            change l.val.natAbs ≤ v
            rw [val_lit? hl]
            exact hlead hrun hst q List.mem_cons_self
          exact (extends_perform hle).trans (ih' _ fun _ _ p hp =>
            hlead hrun hst p (List.mem_cons_of_mem _ hp))
        · rw [perform_quantify_of_ne hst]
          have hstop : Extends v m { m with status := .aborted } := .of_eq rfl rfl rfl
          exact hstop.trans (ih' _ fun h => Status.noConfusion h)
      | addLit i =>
        have hi : i.natAbs ≤ v := hlits i List.mem_cons_self
        obtain ⟨l, hl⟩ := exists_lit? (hi.trans hv)
        have hle : (argument (.add l)).natAbs ≤ v := by
          change l.val.natAbs ≤ v
          rw [val_lit? hl]
          exact hi
        rw [callback_addLit hrun hl]
        refine (extends_perform hle).trans (ih' _ ?_)
        intro hrun' hst
        rcases state_perform_add (w := w) (m := m) l with h | h
        · exact Status.noConfusion (hrun'.symm.trans h)
        · exact absurd hst h

/-- **The second pass sends** the quantifiers in front of the clauses. -/
theorem secondPass_sends {calls : List Callback} (hrange : ∀ c ∈ calls, c.InRange)
    (hrun : m.status = .running) (hst : m.api.solver.state = .input) :
    ∀ q ∈ leadingQuantifiers calls,
      ∃ l ∈ (calls.foldl (callback w) m).literals, l.natAbs = q.natAbs := by
  induction calls generalizing m with
  | nil => exact fun q hq => absurd hq List.not_mem_nil
  | cons c calls ih =>
    cases c with
    | addLit i => exact fun q hq => absurd hq List.not_mem_nil
    | addQuantifier p =>
      obtain ⟨l, hl⟩ := exists_lit? (hrange _ List.mem_cons_self).2
      have hrest : ∀ c ∈ calls, c.InRange := fun c hc => hrange c (List.mem_cons_of_mem _ hc)
      obtain ⟨hstatus, hstate, k, hk, hkl⟩ := perform_quantify (w := w) hst l
      rw [List.foldl_cons, callback_addQuantifier hrun hl]
      intro q hq
      rcases List.mem_cons.mp hq with rfl | hq
      · -- what has been sent stays sent
        have hkeep : Extends maxVars (m.perform w (.quantify l))
            (calls.foldl (callback w) (m.perform w (.quantify l))) :=
          extends_foldl (fun m c hc => extends_callback fun i hi => by
            rcases hi with rfl | rfl
            · exact (hrest _ hc).2
            · exact hrest _ hc) _
        exact ⟨k, hkeep.kept hk, by rw [hkl, val_lit? hl]⟩
      · exact ih hrest (hstatus.trans hrun) hstate q hq

end Main

/-! ### What is announced -/

theorem strictness_foldl (cfg : Config) (as : List ℤ) :
    (as.foldl Config.addToAssumptions cfg).strictness = cfg.strictness := by
  induction as generalizing cfg with
  | nil => rfl
  | cons a as ih =>
    rw [List.foldl_cons, ih, Config.addToAssumptions]
    split <;> rfl

/-- The splits change the cubes, not how the file is read. -/
theorem strictness_inflateLoop {quantifiers : List NzLit} {fuel : ℕ} {state : List ℕ}
    {cfg cfg' : Config} {y : Bool}
    (h : inflateLoop quantifiers fuel state cfg = some (y, cfg')) :
    cfg'.strictness = cfg.strictness := by
  induction fuel generalizing state cfg with
  | zero => exact absurd h (by simp [inflateLoop])
  | succ fuel ih =>
    rw [inflateLoop] at h
    split at h
    case h_2 => exact absurd h (by simp)
    split at h
    case isFalse =>
      obtain ⟨-, rfl⟩ := Prod.mk.inj (Option.some.inj h)
      rfl
    split at h
    case h_1 =>
      obtain ⟨-, rfl⟩ := Prod.mk.inj (Option.some.inj h)
      rfl
    case h_2 next hcube =>
      obtain ⟨state', -, hrest⟩ := Option.bind_eq_some_iff.mp h
      rw [ih hrest]
      rw [Config.intsplitStateToAssumption] at hcube
      split at hcube
      case isTrue => exact absurd hcube (by simp)
      obtain ⟨as, -, rfl⟩ := Option.map_eq_some_iff.mp hcube
      exact strictness_foldl cfg _

theorem strictness_inflate {fuel : ℕ} {scan : Scan} {cfg cfg' : Config}
    (h : inflate fuel scan cfg = some cfg') : cfg'.strictness = cfg.strictness := by
  rw [inflate] at h
  split at h
  · rw [Option.some.inj h]
  split at h
  · exact absurd h (by simp)
  split at h
  case h_2 => exact absurd h (by simp)
  case h_1 hrun =>
    obtain rfl := Option.some.inj h
    rw [Config.inflateIntsplits] at hrun
    split at hrun
    · exact absurd hrun (by simp)
    · exact strictness_inflateLoop hrun

section

variable {calls : List Callback}

/-- The number of variables, as the first pass counts them. -/
theorem varcount_le (hrange : ∀ c ∈ calls, c.InRange) :
    (calls.foldl Scan.callback Scan.init).varcount ≤ maxVars := by
  rcases le_varcount_iff.mp (le_refl (calls.foldl Scan.callback Scan.init).varcount) with h | h
  · exact h.trans (Nat.zero_le _)
  · obtain ⟨l, hl, hle⟩ := h
    exact hle.trans (hrange _ hl)

theorem le_varcount {l : ℤ} (h : .addLit l ∈ calls) :
    l.natAbs ≤ (calls.foldl Scan.callback Scan.init).varcount :=
  le_varcount_iff.mpr (Or.inr ⟨l, h, le_rfl⟩)

theorem mem_of_leading {q : ℤ} (h : q ∈ leadingQuantifiers calls) : .addQuantifier q ∈ calls := by
  induction calls with
  | nil => exact absurd h List.not_mem_nil
  | cons c calls ih =>
    cases c with
    | addLit l => exact absurd h List.not_mem_nil
    | addQuantifier p =>
      rcases List.mem_cons.mp h with rfl | h
      · exact List.mem_cons_self
      · exact List.mem_cons_of_mem _ (ih h)

/-- The prefix is covered if the number of variables bounds it. -/
theorem prefixCovered_iff (hrange : ∀ c ∈ calls, c.InRange) : PrefixCovered calls ↔
    ∀ q ∈ leadingQuantifiers calls,
      q.natAbs ≤ (calls.foldl Scan.callback Scan.init).varcount := by
  refine forall₂_congr ?_
  intro q hq
  rw [le_varcount_iff]
  refine (or_iff_right ?_).symm
  intro h
  exact (hrange _ (mem_of_leading hq)).1 (Int.natAbs_eq_zero.mp (Nat.le_zero.mp h))

variable {w : Setting} {m : Main}

/-- The second pass and the cubes, between the variables that have been counted and what has been
sent in the end. -/
theorem literals_le_iff (hrange : ∀ c ∈ calls, c.InRange)
    (hscan : m.scan = calls.foldl Scan.callback Scan.init) (hrun : m.status = .running)
    (hst : m.api.solver.state = .input) (hnone : m.literals = []) (selected : ℤ) (as : List ℤ) :
    m.api.toSeed <+: (as.foldl (Main.assumption w selected)
        (calls.foldl (Main.callback w) m)).api.toSeed ∧
      ((∀ l ∈ (as.foldl (Main.assumption w selected)
          (calls.foldl (Main.callback w) m)).literals, l.natAbs ≤ m.scan.varcount) ↔
        PrefixCovered calls) := by
  have hany : Main.Extends maxVars m (calls.foldl (Main.callback w) m) :=
    Main.extends_foldl (fun m c hc => Main.extends_callback fun i hi => by
      rcases hi with rfl | rfl
      · exact (hrange _ hc).2
      · exact hrange _ hc) m
  have hcubes : Main.Extends m.scan.varcount (calls.foldl (Main.callback w) m)
      (as.foldl (Main.assumption w selected) (calls.foldl (Main.callback w) m)) :=
    Main.extends_assumptions as (hany.scan ▸ le_rfl)
  refine ⟨hany.seed.trans hcubes.seed, ?_⟩
  rw [prefixCovered_iff hrange, ← hscan]
  constructor
  · intro hall q hq
    obtain ⟨l, hl, heq⟩ := Main.secondPass_sends (w := w) hrange hrun hst q hq
    exact heq ▸ hall l (hcubes.kept hl)
  · intro hlead l hl
    have hpass : Main.Extends m.scan.varcount m (calls.foldl (Main.callback w) m) :=
      Main.extends_secondPass (hscan ▸ varcount_le hrange) hrange
        (fun l hl => hscan ▸ le_varcount hl) fun _ _ => hlead
    rcases (hpass.trans hcubes).bounded l hl with h | h
    · exact absurd (hnone ▸ h) List.not_mem_nil
    · exact h

end

/-- **When quapify announces enough variables**: for every formula file that is accepted, in any
degree of strictness, for all splits and cubes, and whatever comes of the calls of the library,
every literal that is sent or assumed is at most the number of variables in the header if and only
if no variable of the prefix is larger than all variables of the clauses. -/
theorem announced_iff {w : Setting} {fuel : ℕ} {cfg : Config} {file : List Char} {m : Main}
    (h : quapify w fuel cfg file = some m) :
    ∃ d, m.api.toSeed.head? = some (.header quapiApiVersion d) ∧
      ((∀ l ∈ m.literals, |l| ≤ d.literals.1) ↔
        PrefixCovered (kissatParseDimacs cfg.strictness file).1) := by
  rw [quapify] at h
  simp only [] at h
  split at h
  case isTrue => exact absurd h (by simp)
  case isFalse haccept =>
    obtain ⟨cfg', hinflate, h⟩ := Option.bind_eq_some_iff.mp h
    split at h
    case isTrue => exact absurd h (by simp)
    case isFalse =>
      obtain ⟨solver, hinit, rfl⟩ := Option.map_eq_some_iff.mp h
      obtain ⟨-, clauses, -, rfl⟩ := quapiInit_cases hinit
      have hrange := ranged_kissatParseDimacs cfg.strictness file
      let scan := (kissatParseDimacs cfg.strictness file).1.foldl Scan.callback Scan.init
      let d : QuapiMsgHeaderData :=
        ⟨CInt.ofSize scan.varcount, clauses, CInt.ofSize cfg'.assumptionsMaxAssumptionSize⟩
      obtain ⟨⟨t, ht⟩, hiff⟩ := literals_le_iff (w := w)
        (m := ⟨scan, Api.start ⟨d, none, none, .input, -1, 0, 0, 0, none⟩, [], 0, .running⟩)
        hrange rfl rfl rfl rfl cfg'.selectedAssumption cfg'.assumptions
      rw [strictness_inflate hinflate, if_neg fun hc => haccept hc.1]
      refine ⟨d, ?_, ?_⟩
      · rw [← ht]
        rfl
      · rw [← hiff]
        refine forall₂_congr ?_
        intro l _
        rw [ofSize_eq (varcount_le hrange), Int.abs_eq_natAbs]
        exact Int.ofNat_le

/-- A file whose prefix is covered, read with one empty cube. -/
theorem covered_announced : ∃ m : Main, ∃ d,
    m.api.toSeed.head? = some (.header quapiApiVersion d) ∧ m.literals = [1, 1, -2, 0] ∧
      ∀ l ∈ m.literals, |l| ≤ d.literals.1 := by
  have hrun : (quapify ⟨false, fun _ => Io.ok 7⟩ 0 { Config.init with assumptions := [0] }
      "p cnf 2 1\ne 1 0\n1 -2 0\n".toList).map Main.literals = some [1, 1, -2, 0] := by
    decide +kernel
  have hcalls : (kissatParseDimacs .normalParsing "p cnf 2 1\ne 1 0\n1 -2 0\n".toList).1 =
      [.addQuantifier 1, .addLit 1, .addLit (-2), .addLit 0] := by decide +kernel
  obtain ⟨m, hm, hlits⟩ := Option.map_eq_some_iff.mp hrun
  obtain ⟨d, hhead, hiff⟩ := announced_iff hm
  refine ⟨m, d, hhead, hlits, hiff.mpr ?_⟩
  intro q hq
  change q ∈ leadingQuantifiers (kissatParseDimacs .normalParsing _).1 at hq
  change ∃ l, .addLit l ∈ (kissatParseDimacs .normalParsing _).1 ∧ _
  rw [hcalls] at hq ⊢
  exact ⟨1, by decide, by rw [List.mem_singleton.mp hq]⟩

/-- The variable 2 is quantified and occurs in no clause: the header announces one variable, and
the quantifier is sent behind it. -/
theorem quantified_not_announced : ∃ m d, ∃ l : ℤ,
    quapify ⟨false, fun _ => Io.ok 7⟩ 0 { Config.init with assumptions := [0] }
        "p cnf 2 1\ne 1 2 0\n1 0\n".toList = some m ∧
      m.api.toSeed.head? = some (.header quapiApiVersion d) ∧
        l ∈ m.literals ∧ d.literals.1 < |l| := by
  have hrun : (quapify ⟨false, fun _ => Io.ok 7⟩ 0 { Config.init with assumptions := [0] }
      "p cnf 2 1\ne 1 2 0\n1 0\n".toList).map (fun m => (m.literals, m.api.toSeed.head?)) =
      some ([1, 2, 1, 0], some (.header quapiApiVersion
        ⟨CInt.ofSize 1, CInt.ofSize 1, CInt.ofSize 0⟩)) := by decide +kernel
  obtain ⟨m, hm, hvals⟩ := Option.map_eq_some_iff.mp hrun
  obtain ⟨hlits, hhead⟩ := Prod.mk.inj hvals
  refine ⟨m, _, 2, hm, hhead, ?_, ?_⟩
  · rw [hlits]
    decide
  · rw [ofSize_eq (by decide)]
    decide

end Quapify

end QuAPI
