import QuAPI.Message

/-!
# The library

The calls of `quapi.h` on the record they share, `QuAPI.QuapiSolver`. Each call is a
function from the record before it to what it does: the record after it, the messages
it writes on the two streams, and what it returns (`QuAPI.Effect`). A call whose
assertion fails has no effect at all.

Two streams leave the library: one to the seeding process, and one that all solving
children share. What the environment decides about a call – whether the FORK could be
written and its report read, and how many messages the children's stream took – is a
parameter (`QuAPI.Io`), so that the failure branches of the calls are there too.

`quapi_solve` is cut into its parts, because the poll loop runs between
`QuAPI.QuapiSolver.startSolve` and `QuAPI.QuapiSolver.endSolve`;
`QuAPI.QuapiSolver.makeSolvable` is cut the same way at the read of the fork report.
-/

namespace QuAPI

/-! ### The record -/

/-- `quapi_solver`, as far as the calls read it. The two regular expressions are
predicates on a line; both are set or none is. -/
structure QuapiSolver where
  /-- `config.header`. -/
  header : QuapiMsgHeaderData
  /-- `config.SAT_regex` and `config.UNSAT_regex`. -/
  regexes : Option ((List Char → Bool) × (List Char → Bool))
  /-- The callback for the lines on the standard output of a child. -/
  stdoutCb : Option (List Char → ℤ)
  /-- The state. -/
  state : QuapiState
  /-- Where the last universal quantifier was flipped, or `-1`. -/
  universalPrefixDepth : ℤ
  /-- The clauses closed so far, the assumptions included. -/
  writtenClauses : ℤ
  /-- The assumptions since the last solve or reset. -/
  writtenAssumptions : ℤ
  /-- The quantified variables so far. -/
  writtenQuantifierLiterals : ℤ
  /-- The pid of the last fork report. -/
  solverchildPid : Option ℤ

/-- `quapi_init`, without the start of the solver process: `none` for a negative number
of assumptions, and where the clause count of the header would overflow. -/
def quapiInit (litcount clausecount maxassumptions : CInt)
    (regexes : Option ((List Char → Bool) × (List Char → Bool))) : Option QuapiSolver :=
  if maxassumptions.1 < 0 then none
  else
    (if 0 < maxassumptions.1 then clausecount.add? maxassumptions else some clausecount).map
      fun clauses =>
        { header := ⟨litcount, clauses, maxassumptions⟩
          regexes := regexes
          stdoutCb := none
          state := .input
          universalPrefixDepth := -1
          writtenClauses := 0
          writtenAssumptions := 0
          writtenQuantifierLiterals := 0
          solverchildPid := none }

/-- **What `quapi_init` announces**: the clauses of the caller and one for each
assumption. -/
theorem quapiInit_cases {litcount clausecount maxassumptions : CInt}
    {regexes : Option ((List Char → Bool) × (List Char → Bool))} {s : QuapiSolver}
    (h : quapiInit litcount clausecount maxassumptions regexes = some s) :
    0 ≤ maxassumptions.1 ∧ ∃ clauses : CInt, clauses.1 = clausecount.1 + maxassumptions.1 ∧
      s = ⟨⟨litcount, clauses, maxassumptions⟩, regexes, none, .input, -1, 0, 0, 0, none⟩ := by
  rw [quapiInit] at h
  split at h
  · exact absurd h (by simp)
  · obtain ⟨clauses, hc, rfl⟩ := Option.map_eq_some_iff.mp h
    refine ⟨by omega, clauses, ?_, rfl⟩
    split at hc
    · exact CInt.add?_eq_some hc
    · obtain rfl := Option.some.inj hc
      omega

/-- What a call does. -/
structure Effect where
  /-- The record after the call. -/
  solver : QuapiSolver
  /-- What it writes to the seeding process. -/
  toSeed : List QuapiMsg
  /-- What it writes to the stream of the solving children. -/
  toChild : List QuapiMsg
  /-- The return value of an assume; whether a solve has sent its SOLVE. -/
  returned : Bool

/-- How the fork handshake ends. -/
inductive Handshake where
  /-- The FORK could not be written. -/
  | writeFailed
  /-- The report could not be read. -/
  | reportFailed
  /-- The report gives the pid of the new child. -/
  | forked (pid : ℤ)
deriving DecidableEq

/-- What the environment decides about one call. -/
structure Io where
  /-- The handshake, if there is one. -/
  fork : Handshake
  /-- How many messages the stream of the children takes. -/
  childWrites : ℕ
deriving DecidableEq

/-- Nothing fails. -/
def Io.ok (pid : ℤ) : Io := ⟨.forked pid, 2⟩

namespace QuapiSolver

variable (s : QuapiSolver)

/-! ### Quantifiers and clauses -/

/-- The literal that `quapi_quantify` sends: a universal quantifier that may be assumed is
turned into an existential one. -/
def sentQuantifier (lit : Lit) : Lit :=
  if s.header.prefixdepth.1 > s.writtenQuantifierLiterals ∧ lit.val < 0 then -lit else lit

theorem sentQuantifier_eq_zero {s : QuapiSolver} {lit : Lit} :
    s.sentQuantifier lit = 0 ↔ lit = 0 := by
  rw [sentQuantifier]
  split
  · exact Lit.neg_eq_zero
  · exact Iff.rfl

/-- `quapi_quantify`. -/
def quapiQuantify (litOrZero : Lit) : Option Effect :=
  if s.state = .input then
    -- where the last of the quantifiers stands that are turned around
    let t := if litOrZero.val < 0 ∧ s.writtenQuantifierLiterals < s.header.prefixdepth.1 then
        { s with universalPrefixDepth := s.writtenQuantifierLiterals }
      else s
    let lit := s.sentQuantifier litOrZero
    some {
      solver := if lit ≠ 0 then
          { t with writtenQuantifierLiterals := t.writtenQuantifierLiterals + 1 }
        else t
      toSeed := [.quantifier lit]
      toChild := []
      returned := true }
  else none

/-- The two counters that a quantifier changes. -/
theorem quapiQuantify_of_input {s : QuapiSolver} (hs : s.state = .input) (litOrZero : Lit) :
    s.quapiQuantify litOrZero = some {
      solver := { s with
        universalPrefixDepth :=
          if litOrZero.val < 0 ∧ s.writtenQuantifierLiterals < s.header.prefixdepth.1 then
            s.writtenQuantifierLiterals
          else s.universalPrefixDepth
        writtenQuantifierLiterals :=
          if s.sentQuantifier litOrZero ≠ 0 then s.writtenQuantifierLiterals + 1
          else s.writtenQuantifierLiterals }
      toSeed := [.quantifier (s.sentQuantifier litOrZero)]
      toChild := []
      returned := true } := by
  rw [quapiQuantify, if_pos hs]
  by_cases hd : litOrZero.val < 0 ∧ s.writtenQuantifierLiterals < s.header.prefixdepth.1 <;>
    by_cases hq : s.sentQuantifier litOrZero ≠ 0 <;>
    simp only [if_pos, if_neg, hd, hq, not_false_eq_true, ne_eq, and_self]

/-- `quapi_add`. -/
def quapiAdd (litOrZero : Lit) : Option Effect :=
  if s.state = .inputLiterals ∨ s.state = .input then
    let t := { s with state := .inputLiterals }
    some {
      solver := if litOrZero = 0 then { t with writtenClauses := t.writtenClauses + 1 } else t
      toSeed := [.literal litOrZero]
      toChild := []
      returned := true }
  else none

/-! ### Assumptions -/

/-- The next child has not been forked yet. -/
def needsFork : Prop := s.state = .inputLiterals ∨ s.state = .input

instance : Decidable s.needsFork := inferInstanceAs (Decidable (_ ∨ _))

/-- The record while `make_solvable` waits for the report. -/
def askFork : QuapiSolver := { s with state := .inputAssumptions }

/-- The FORK message: the seeding process waits for the child where no regular
expression reads its output. -/
def forkMsg : QuapiMsg := .fork s.regexes.isNone

/-- The record once the report has come. -/
def gotReport (pid : ℤ) : QuapiSolver := { s with solverchildPid := some pid }

/-- `make_solvable`: whether it succeeds, the record after it, and what it writes to the
seeding process. -/
def makeSolvable (h : Handshake) : Bool × QuapiSolver × List QuapiMsg :=
  if s.needsFork then
    -- the state has changed already when the handshake fails
    match h with
    | .writeFailed => (false, s.askFork, [])
    | .reportFailed => (false, s.askFork, [s.forkMsg])
    | .forked pid => (true, s.askFork.gotReport pid, [s.forkMsg])
  else (true, s, [])

/-- The bound that an assume tests leaves room for another assumption. -/
def HasRoom : Prop := ∃ bound, s.header.clauses.add? s.header.prefixdepth = some bound ∧
  s.writtenClauses < bound.1

instance : Decidable s.HasRoom :=
  match h : s.header.clauses.add? s.header.prefixdepth with
  | none => isFalse fun ⟨bound, hb, _⟩ => by simp [h] at hb
  | some bound => decidable_of_iff (s.writtenClauses < bound.1)
    ⟨fun hlt => ⟨bound, h, hlt⟩, fun ⟨_, hb, hlt⟩ => Option.some.inj (h.symm.trans hb) ▸ hlt⟩

/-- `quapi_assume`. The bound it tests is a sum of two `int`s, so there is no step where
that sum overflows. -/
def quapiAssume (litOrZero : Lit) (io : Io) : Option Effect :=
  if s.state = .inputLiterals ∨ s.state = .inputAssumptions then
    if litOrZero = 0 then some ⟨s, [], [], true⟩
    else (s.header.clauses.add? s.header.prefixdepth).map fun bound =>
      if s.writtenClauses ≥ bound.1 then ⟨s, [], [], false⟩
      else
        let m := s.makeSolvable io.fork
        if m.1 then
          let t := { m.2.1 with state := .inputAssumptions }
          -- the two messages, as far as the stream takes them
          let msgs := [QuapiMsg.literal litOrZero, .literal 0].take io.childWrites
          if io.childWrites < 2 then ⟨t, m.2.2, msgs, false⟩
          else ⟨{ t with
            writtenClauses := t.writtenClauses + 1
            writtenAssumptions := t.writtenAssumptions + 1 }, m.2.2, msgs, true⟩
        else ⟨m.2.1, m.2.2, [], false⟩
  else none

/-- The counters and the state once the assumptions are gone. -/
def clearAssumptions : QuapiSolver :=
  { s with
    writtenClauses := s.writtenClauses - s.writtenAssumptions
    writtenAssumptions := 0
    state := .inputLiterals }

/-- `quapi_reset_assumptions`; the child is killed and reaped on the way. -/
def quapiResetAssumptions : Effect :=
  if s.state = .inputAssumptions then ⟨s.clearAssumptions, [], [], true⟩
  else ⟨s, [], [], true⟩

/-! ### Solving -/

/-- The universal gate of `quapi_solve`: too few assumptions for the leading universal
quantifiers, and the environment variable that allows it is not set. -/
def Refuses (allowMissing : Bool) : Prop :=
  s.writtenAssumptions < s.universalPrefixDepth ∧ allowMissing = false

instance (allowMissing : Bool) : Decidable (s.Refuses allowMissing) :=
  inferInstanceAs (Decidable (_ ∧ _))

/-- `solve_internal` accepts the state. -/
def canSolve : Prop :=
  s.state = .input ∨ s.state = .inputLiterals ∨ s.state = .inputAssumptions

instance : Decidable s.canSolve := inferInstanceAs (Decidable (_ ∨ _))

/-- The record while the poll loop runs. -/
def startSolve : QuapiSolver := { s with state := .working }

/-- The record once the poll loop has returned. -/
def endSolve : QuapiSolver := s.clearAssumptions

/-- `quapi_solve`, with the poll loop left out: the value it returns does not touch the
record. -/
def quapiSolve (allowMissing : Bool) (io : Io) : Effect :=
  if s.Refuses allowMissing then ⟨s, [], [], false⟩
  else
    let m := s.makeSolvable io.fork
    if m.1 then
      -- `solve_internal`; without its SOLVE, a child is left that waits for one
      if m.2.1.canSolve then
        if io.childWrites < 1 then ⟨m.2.1.startSolve.endSolve, m.2.2, [], false⟩
        else ⟨m.2.1.startSolve.endSolve, m.2.2, [.solve], true⟩
      else ⟨m.2.1.endSolve, m.2.2, [], false⟩
    else ⟨m.2.1, m.2.2, [], false⟩

/-! ### What the calls can do -/

variable {s} {lit : Lit} {io : Io} {e : Effect}

theorem makeSolvable_of_needsFork (h : s.needsFork) (k : Handshake) :
    s.makeSolvable k = match k with
      | .writeFailed => (false, s.askFork, [])
      | .reportFailed => (false, s.askFork, [s.forkMsg])
      | .forked pid => (true, s.askFork.gotReport pid, [s.forkMsg]) := if_pos h

theorem makeSolvable_of_not (h : ¬s.needsFork) (k : Handshake) :
    s.makeSolvable k = (true, s, []) := if_neg h

/-- `make_solvable` changes the state and the pid at most. -/
theorem makeSolvable_cases (s : QuapiSolver) (k : Handshake) :
    (s.makeSolvable k).2.1 = s ∨ (s.makeSolvable k).2.1 = s.askFork ∨
      ∃ pid, (s.makeSolvable k).2.1 = s.askFork.gotReport pid := by
  by_cases h : s.needsFork
  · rw [makeSolvable_of_needsFork h]
    cases k with
    | writeFailed => exact Or.inr (Or.inl rfl)
    | reportFailed => exact Or.inr (Or.inl rfl)
    | forked pid => exact Or.inr (Or.inr ⟨pid, rfl⟩)
  · rw [makeSolvable_of_not h]
    exact Or.inl rfl

/-- The record of an accepted assumption. -/
def countAssumption (s : QuapiSolver) : QuapiSolver :=
  { s with
    state := .inputAssumptions
    writtenClauses := s.writtenClauses + 1
    writtenAssumptions := s.writtenAssumptions + 1 }

/-- **What an assume can do**: nothing for a zero, be refused by the bound, fail in the
handshake, fail in the middle of its two messages, or send both. -/
theorem quapiAssume_cases (he : s.quapiAssume lit io = some e) :
    (lit = 0 ∧ e = ⟨s, [], [], true⟩) ∨
    (lit ≠ 0 ∧ (∃ bound, s.header.clauses.add? s.header.prefixdepth = some bound ∧
        bound.1 ≤ s.writtenClauses) ∧ e = ⟨s, [], [], false⟩) ∨
    (lit ≠ 0 ∧ s.HasRoom ∧ (s.makeSolvable io.fork).1 = false ∧
      e = ⟨(s.makeSolvable io.fork).2.1, (s.makeSolvable io.fork).2.2, [], false⟩) ∨
    (lit ≠ 0 ∧ s.HasRoom ∧ (s.makeSolvable io.fork).1 = true ∧ io.childWrites < 2 ∧
      e = ⟨{ (s.makeSolvable io.fork).2.1 with state := .inputAssumptions },
        (s.makeSolvable io.fork).2.2,
        [QuapiMsg.literal lit, .literal 0].take io.childWrites, false⟩) ∨
    (lit ≠ 0 ∧ s.HasRoom ∧ (s.makeSolvable io.fork).1 = true ∧
      e = ⟨(s.makeSolvable io.fork).2.1.countAssumption, (s.makeSolvable io.fork).2.2,
        [QuapiMsg.literal lit, .literal 0], true⟩) := by
  rw [quapiAssume] at he
  split at he
  case isFalse => exact absurd he (by simp)
  case isTrue =>
    split at he
    case isTrue h0 => exact Or.inl ⟨h0, (Option.some.inj he).symm⟩
    case isFalse h0 =>
      obtain ⟨bound, hbound, rfl⟩ := Option.map_eq_some_iff.mp he
      -- the bound, then the handshake, then the two messages
      by_cases hfull : s.writtenClauses ≥ bound.1
      · exact Or.inr (Or.inl ⟨h0, ⟨bound, hbound, hfull⟩, if_pos hfull⟩)
      · have hroom : s.HasRoom := ⟨bound, hbound, not_le.mp hfull⟩
        simp only [if_neg hfull]
        rcases Bool.eq_false_or_eq_true (s.makeSolvable io.fork).1 with hm | hm
        · simp only [hm, if_true]
          by_cases hw : io.childWrites < 2
          · exact Or.inr (Or.inr (Or.inr (Or.inl ⟨h0, hroom, trivial, hw, if_pos hw⟩)))
          · refine Or.inr (Or.inr (Or.inr (Or.inr ⟨h0, hroom, trivial, ?_⟩)))
            rw [if_neg hw, List.take_of_length_le (not_lt.mp hw)]
            rfl
        · simp only [hm]
          exact Or.inr (Or.inr (Or.inl ⟨h0, hroom, trivial, rfl⟩))

/-- An assume asserts that clauses have been started. -/
theorem state_of_quapiAssume (he : s.quapiAssume lit io = some e) :
    s.state = .inputLiterals ∨ s.state = .inputAssumptions := by
  by_contra hc
  rw [quapiAssume, if_neg hc] at he
  exact absurd he (by simp)

/-- **What a solve can do**: be refused by the gate, fail in the handshake, lose its
SOLVE, or send it. -/
theorem quapiSolve_cases (s : QuapiSolver) (allowMissing : Bool) (io : Io) :
    (s.Refuses allowMissing ∧ s.quapiSolve allowMissing io = ⟨s, [], [], false⟩) ∨
    (¬s.Refuses allowMissing ∧ (s.makeSolvable io.fork).1 = false ∧
      s.quapiSolve allowMissing io =
        ⟨(s.makeSolvable io.fork).2.1, (s.makeSolvable io.fork).2.2, [], false⟩) ∨
    (¬s.Refuses allowMissing ∧ (s.makeSolvable io.fork).1 = true ∧
      ¬((s.makeSolvable io.fork).2.1.canSolve ∧ 1 ≤ io.childWrites) ∧
      s.quapiSolve allowMissing io = ⟨(s.makeSolvable io.fork).2.1.clearAssumptions,
        (s.makeSolvable io.fork).2.2, [], false⟩) ∨
    (¬s.Refuses allowMissing ∧ (s.makeSolvable io.fork).1 = true ∧
      (s.makeSolvable io.fork).2.1.canSolve ∧ 1 ≤ io.childWrites ∧
      s.quapiSolve allowMissing io = ⟨(s.makeSolvable io.fork).2.1.clearAssumptions,
        (s.makeSolvable io.fork).2.2, [.solve], true⟩) := by
  by_cases hr : s.Refuses allowMissing
  · exact Or.inl ⟨hr, if_pos hr⟩
  · rw [quapiSolve, if_neg hr]
    rcases Bool.eq_false_or_eq_true (s.makeSolvable io.fork).1 with hm | hm
    · simp only [hm, if_true]
      by_cases hc : (s.makeSolvable io.fork).2.1.canSolve
      · rw [if_pos hc]
        by_cases hw : io.childWrites < 1
        · exact Or.inr (Or.inr (Or.inl ⟨hr, trivial, fun h => absurd hw (not_lt.mpr h.2),
            if_pos hw⟩))
        · exact Or.inr (Or.inr (Or.inr ⟨hr, trivial, hc, not_lt.mp hw, if_neg hw⟩))
      · exact Or.inr (Or.inr (Or.inl ⟨hr, trivial, fun h => hc h.1, if_neg hc⟩))
    · simp only [hm]
      exact Or.inr (Or.inl ⟨hr, trivial, rfl⟩)

end QuapiSolver

/-- The calls of a session. -/
inductive ApiCall where
  | quantify (litOrZero : Lit)
  | add (litOrZero : Lit)
  | assume (litOrZero : Lit)
  | reset
  | solve
deriving DecidableEq

/-- What a call does to the library. -/
def QuapiSolver.call (allowMissing : Bool) (s : QuapiSolver) (c : ApiCall) (io : Io) :
    Option Effect :=
  match c with
  | .quantify lit => s.quapiQuantify lit
  | .add lit => s.quapiAdd lit
  | .assume lit => s.quapiAssume lit io
  | .reset => some s.quapiResetAssumptions
  | .solve => some (s.quapiSolve allowMissing io)

end QuAPI
