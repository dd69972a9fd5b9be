import Mathlib.Tactic

/-!
# Literals and messages

The data the library, the preloaded runtime and the forked children exchange.

A literal of the API is an `int32_t` strictly above `INT32_MIN`, as `quapi.h`
requires so that a negation cannot overflow; `QuAPI.Lit` carries those bounds, and
negation stays inside it. The counts of a header are plain `int`s
(`QuAPI.CInt`), and a sum of two of them exists only when it does not overflow
(`QuAPI.CInt.add?`).

A message is a type tag and at most one payload (`QuAPI.QuapiMsg`). The header
message is the only longer one: the counts that trail it are what
`read_trailing_into_header` installs on the receiving side.
-/

namespace QuAPI

/-! ### Machine integers -/

/-- The values of a C `int`. -/
abbrev CInt := {i : ℤ // -2147483648 ≤ i ∧ i ≤ 2147483647}

/-- The `int` with the given value. Its bounds are checked by `rfl` of `true`, so that the term
is the same wherever it stands. -/
abbrev CInt.of (i : ℤ) (h : decide (-2147483648 ≤ i ∧ i ≤ 2147483647) = true := by
    exact (rfl : true = true)) : CInt := ⟨i, of_decide_eq_true h⟩

/-- The sum of two `int`s, where it is one. -/
def CInt.add? (a b : CInt) : Option CInt :=
  if h : -2147483648 ≤ a.1 + b.1 ∧ a.1 + b.1 ≤ 2147483647 then some ⟨a.1 + b.1, h⟩ else none

theorem CInt.add?_eq_some {a b c : CInt} (h : a.add? b = some c) : c.1 = a.1 + b.1 := by
  rw [CInt.add?] at h
  split at h
  · exact congrArg Subtype.val (Option.some.inj h).symm
  · exact absurd h (by simp)

/-- **A literal argument of the API**: an `int32_t` strictly above `INT32_MIN`. Zero
closes a clause or a quantifier block. -/
@[ext] structure Lit where
  /-- The literal itself. -/
  val : ℤ
  /-- Negation does not overflow. -/
  lower : -2147483648 < val
  /-- The literal is an `int32_t`. -/
  upper : val ≤ 2147483647
deriving DecidableEq

namespace Lit

instance : Zero Lit := ⟨⟨0, by omega, by omega⟩⟩

instance : Neg Lit := ⟨fun l =>
  ⟨-l.val, by have := l.upper; omega, by have := l.lower; omega⟩⟩

@[simp] theorem val_zero : (0 : Lit).val = 0 := rfl

@[simp] theorem val_neg (l : Lit) : (-l).val = -l.val := rfl

theorem val_eq_zero {l : Lit} : l.val = 0 ↔ l = 0 :=
  ⟨fun h => Lit.ext h, fun h => by rw [h, val_zero]⟩

@[simp] theorem neg_eq_zero {l : Lit} : -l = 0 ↔ l = 0 := by
  rw [← val_eq_zero, ← val_eq_zero, val_neg]
  omega

end Lit

/-- A literal that is not zero: a variable with a sign. -/
abbrev NzLit := {l : Lit // l ≠ 0}

theorem NzLit.val_ne_zero (l : NzLit) : l.1.val ≠ 0 := fun h => l.2 (Lit.val_eq_zero.mp h)

/-- The literal with the given value, for concrete sessions. -/
def lit (i : ℤ) (h : decide (-2147483648 < i ∧ i ≤ 2147483647) = true := by
    exact (rfl : true = true)) : Lit :=
  ⟨i, (of_decide_eq_true h).1, (of_decide_eq_true h).2⟩

/-- The nonzero literal with the given value, for concrete sessions. -/
def nzLit (i : ℤ) (h : decide (-2147483648 < i ∧ i ≤ 2147483647) = true := by
    exact (rfl : true = true)) (h0 : decide (i ≠ 0) = true := by exact (rfl : true = true)) :
    NzLit :=
  ⟨lit i h, fun hc => of_decide_eq_true h0 (Lit.val_eq_zero.mpr hc)⟩

/-! ### Messages -/

/-- `quapi_msg_header_data`: the counts announced in the header. Its file descriptors
name the pipes of the system and are not values here. -/
structure QuapiMsgHeaderData where
  /-- The number of variables of the `p cnf` line. -/
  literals : CInt
  /-- The number of clauses of the `p cnf` line. -/
  clauses : CInt
  /-- How many leading quantifiers may be assumed. -/
  prefixdepth : CInt
deriving DecidableEq

/-- `quapi_msg`: the messages, with the payload of each type. A header carries the
counts that follow it on the stream. -/
inductive QuapiMsg where
  | undefined
  | header (apiVersion : ℤ) (data : QuapiMsgHeaderData)
  | quantifier (lit : Lit)
  | literal (lit : Lit)
  | fork (waitForExitCodeAndReport : Bool)
  | forkReport (solverChildPid : ℤ)
  | started (apiVersion : ℤ)
  | solve
  | exitCode (exitCode : ℤ)
  | destructed
deriving DecidableEq

/-- `QUAPI_API_VERSION`. -/
def quapiApiVersion : ℤ := 3

/-- `quapi_state`: the states of the library. -/
inductive QuapiState where
  | input
  | inputLiterals
  | inputAssumptions
  | working
  | sat
  | unsat
  | aborted
  | error
  | unknown
  | undefined
deriving DecidableEq

/-- `quapi_preload_state`: the states of the preloaded runtime that have a state
function. -/
inductive QuapiPreloadState where
  | waitingForHeader
  | readingPrefix
  | readingExists
  | readingForall
  | readingClause
  | readingMatrix
  | working
deriving DecidableEq

end QuAPI
