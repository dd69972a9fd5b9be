import QuAPI.Library
import QuAPI.Machine

/-!
# Sessions

A session calls the library from `quapi_init` on, in an environment where nothing fails:
every FORK is written and reported, and the streams take every message. What is written
is kept in full (`QuAPI.Api`), and a session (`QuAPI.Session`) also keeps what was asked
of the library: the clauses, the assumptions that were accepted since the last solve or
reset, and one record for each SOLVE that was sent (`QuAPI.Round`).

A session is a list of commands (`QuAPI.Command`), a clause being all the `quapi_add`
calls up to the closing zero. All that a command can do is said once for each kind of them,
from `QuAPI.Session.step_clause` to `QuAPI.Session.step_solve`; they rest on the
specifications of an assume and of a solve that do not fail (`QuAPI.Api.call_assume` and
`QuAPI.Api.call_solve`).
-/

namespace QuAPI

/-! ### Calls that do not fail -/

/-- What a session does not decide itself: whether missing universal assumptions are
allowed, and the pid of the child that is forked after the given messages. -/
structure Env where
  /-- `QUAPI_ALLOW_MISSING_UNIVERSAL_ASSUMPTIONS` is set. -/
  allowMissing : Bool
  /-- The pid in the fork report. -/
  pid : List QuapiMsg → ℤ

/-- The library with everything it has written. -/
structure Api where
  /-- The record of the library. -/
  solver : QuapiSolver
  /-- Everything written to the seeding process. -/
  toSeed : List QuapiMsg
  /-- Everything written to the stream of the solving children. -/
  toChild : List QuapiMsg

namespace Api

/-- The library after `quapi_init`, which has sent the header. -/
def start (s : QuapiSolver) : Api := ⟨s, [.header quapiApiVersion s.header], []⟩

/-- A call, with what it returns. -/
def call (env : Env) (a : Api) (c : ApiCall) : Option (Bool × Api) :=
  (a.solver.call env.allowMissing c (Io.ok (env.pid a.toSeed))).map fun e =>
    (e.returned, ⟨e.solver, a.toSeed ++ e.toSeed, a.toChild ++ e.toChild⟩)

/-- One call after the other. -/
def calls (env : Env) (a : Api) (cs : List ApiCall) : Option Api :=
  Machine.run (fun a c => (a.call env c).map Prod.snd) a cs

/-- The library once the child of the round has been forked. -/
def forked (env : Env) (a : Api) : Api :=
  if a.solver.needsFork then
    ⟨a.solver.askFork.gotReport (env.pid a.toSeed), a.toSeed ++ [a.solver.forkMsg], a.toChild⟩
  else a

section

variable {env : Env} {a b : Api} {lit : Lit} {y : Bool}

theorem forked_solver (env : Env) (a : Api) :
    (a.solver.makeSolvable (.forked (env.pid a.toSeed))) =
      (true, (a.forked env).solver, if a.solver.needsFork then [a.solver.forkMsg] else []) := by
  by_cases h : a.solver.needsFork
  · rw [QuapiSolver.makeSolvable_of_needsFork h, forked, if_pos h, if_pos h]
  · rw [QuapiSolver.makeSolvable_of_not h, forked, if_neg h, if_neg h]

theorem forked_toSeed (env : Env) (a : Api) : (a.forked env).toSeed =
    a.toSeed ++ if a.solver.needsFork then [a.solver.forkMsg] else [] := by
  by_cases h : a.solver.needsFork
  · rw [forked, if_pos h, if_pos h]
  · rw [forked, if_neg h, if_neg h, List.append_nil]

theorem forked_toChild (env : Env) (a : Api) : (a.forked env).toChild = a.toChild := by
  rw [forked]
  split <;> rfl

/-- **An assume** does nothing for a zero, is refused without a trace, or forks the child
if need be and sends it a unit clause. -/
theorem call_assume (h : a.call env (.assume lit) = some (y, b)) :
    (lit = 0 ∧ y = true ∧ b = a) ∨ (lit ≠ 0 ∧ y = false ∧ b = a ∧
      ∃ bound, a.solver.header.clauses.add? a.solver.header.prefixdepth = some bound ∧
        bound.1 ≤ a.solver.writtenClauses) ∨
    (lit ≠ 0 ∧ y = true ∧
      (∃ bound, a.solver.header.clauses.add? a.solver.header.prefixdepth = some bound ∧
        a.solver.writtenClauses < bound.1) ∧
      b = ⟨(a.forked env).solver.countAssumption, (a.forked env).toSeed,
        (a.forked env).toChild ++ [.literal lit, .literal 0]⟩) := by
  obtain ⟨e, he, hb⟩ := Option.map_eq_some_iff.mp h
  obtain ⟨rfl, rfl⟩ := Prod.mk.inj hb
  have hm := forked_solver env a
  have hnil : Api.mk a.solver (a.toSeed ++ []) (a.toChild ++ []) = a := by
    rw [List.append_nil, List.append_nil]
  rcases QuapiSolver.quapiAssume_cases he with ⟨h0, rfl⟩ | ⟨h0, hfull, rfl⟩ | ⟨-, -, hf, -⟩ |
    ⟨-, -, -, hw, -⟩ | ⟨h0, hroom, -, rfl⟩
  · exact Or.inl ⟨h0, rfl, hnil⟩
  · exact Or.inr (Or.inl ⟨h0, rfl, hnil, hfull⟩)
  · rw [Io.ok, hm] at hf
    exact absurd hf.symm Bool.false_ne_true
  · exact absurd hw (lt_irrefl 2)
  · refine Or.inr (Or.inr ⟨h0, rfl, hroom, ?_⟩)
    rw [forked_toSeed, forked_toChild]
    simp only [Io.ok, hm]

/-- **A solve** is refused without a trace, or forks the child if need be and sends it the
SOLVE. -/
theorem call_solve (hs : a.solver.canSolve) (h : a.call env .solve = some (y, b)) :
    (y = false ∧ a.solver.Refuses env.allowMissing ∧ b = a) ∨
    (y = true ∧ ¬a.solver.Refuses env.allowMissing ∧
      b = ⟨(a.forked env).solver.clearAssumptions, (a.forked env).toSeed,
        (a.forked env).toChild ++ [.solve]⟩) := by
  obtain ⟨e, he, hb⟩ := Option.map_eq_some_iff.mp h
  obtain rfl := Option.some.inj he
  obtain ⟨rfl, rfl⟩ := Prod.mk.inj hb
  have hm := forked_solver env a
  have hc : (a.forked env).solver.canSolve := by
    rw [forked]
    split
    · exact Or.inr (Or.inr rfl)
    · exact hs
  rcases a.solver.quapiSolve_cases env.allowMissing (Io.ok (env.pid a.toSeed)) with
    ⟨hr, he⟩ | ⟨-, hf, -⟩ | ⟨-, -, hn, -⟩ | ⟨hr, -, -, -, he⟩
  · refine Or.inl ⟨?_, hr, ?_⟩
    · rw [he]
    · rw [he, List.append_nil, List.append_nil]
  · rw [Io.ok, hm] at hf
    exact absurd hf.symm Bool.false_ne_true
  · refine absurd ⟨?_, one_le_two⟩ hn
    rw [Io.ok, hm]
    exact hc
  · refine Or.inr ⟨?_, hr, ?_⟩
    · rw [he]
    · rw [he, forked_toSeed, forked_toChild]
      simp only [Io.ok, hm]

/-- The messages of a clause. -/
def clauseMsgs (ls : List NzLit) : List QuapiMsg :=
  ls.map (fun l => .literal l.1) ++ [.literal 0]

/-- The calls of a clause. -/
def clauseCalls (ls : List NzLit) : List ApiCall :=
  ls.map (fun l => .add l.1) ++ [.add 0]

/-- The record after the calls of a clause. -/
def countClause (s : QuapiSolver) : QuapiSolver :=
  { s with state := .inputLiterals, writtenClauses := s.writtenClauses + 1 }

theorem call_add (h : a.call env (.add lit) = some (y, b)) : a.solver.needsFork ∧
    b = ⟨if lit = 0 then countClause a.solver else { a.solver with state := .inputLiterals },
      a.toSeed ++ [.literal lit], a.toChild⟩ := by
  obtain ⟨e, he, hb⟩ := Option.map_eq_some_iff.mp h
  obtain ⟨rfl, rfl⟩ := Prod.mk.inj hb
  change a.solver.quapiAdd lit = some e at he
  rw [QuapiSolver.quapiAdd] at he
  split at he
  case isFalse => exact absurd he (by simp)
  case isTrue hs =>
    obtain rfl := Option.some.inj he
    refine ⟨hs, ?_⟩
    rw [List.append_nil]
    rfl

/-- **The calls of a clause** write its messages. -/
theorem calls_clause {ls : List NzLit} (h : a.calls env (clauseCalls ls) = some b) :
    a.solver.needsFork ∧
      b = ⟨countClause a.solver, a.toSeed ++ clauseMsgs ls, a.toChild⟩ := by
  induction ls generalizing a with
  | nil =>
    obtain ⟨c, hc, hr⟩ := Machine.run_cons.mp h
    obtain ⟨⟨y, c'⟩, hcall, rfl⟩ := Option.map_eq_some_iff.mp hc
    obtain ⟨hs, rfl⟩ := call_add hcall
    exact ⟨hs, (Option.some.inj hr).symm.trans (by rw [if_pos rfl]; rfl)⟩
  | cons l ls ih =>
    obtain ⟨c, hc, hr⟩ := Machine.run_cons.mp h
    obtain ⟨⟨y, c'⟩, hcall, rfl⟩ := Option.map_eq_some_iff.mp hc
    obtain ⟨hs, rfl⟩ := call_add hcall
    obtain ⟨-, rfl⟩ := ih hr
    refine ⟨hs, ?_⟩
    rw [if_neg l.2, List.append_assoc]
    rfl

/-! ### The prefix -/

/-- The prefix that is sent when `k` more quantifiers may be assumed: the universal
quantifiers among them are turned into existential ones. -/
def sentPrefix : ℤ → List Lit → List Lit
  | _, [] => []
  | k, q :: qs =>
    (if 0 < k ∧ q.val < 0 then -q else q) :: sentPrefix (if q = 0 then k else k - 1) qs

theorem sentPrefix_ne_zero {k : ℤ} {qs : List Lit} (hq : ∀ q ∈ qs, q ≠ 0) :
    ∀ q ∈ sentPrefix k qs, q ≠ 0 := by
  induction qs generalizing k with
  | nil => exact hq
  | cons p qs ih =>
    intro q hmem
    rcases List.mem_cons.mp hmem with rfl | hmem
    · split
      · exact fun hc => hq p List.mem_cons_self (Lit.neg_eq_zero.mp hc)
      · exact hq p List.mem_cons_self
    · exact ih (fun r hr => hq r (List.mem_cons_of_mem _ hr)) q hmem

theorem call_quantify (h : a.call env (.quantify lit) = some (y, b)) :
    a.solver.state = .input ∧ ∃ d, b = ⟨{ a.solver with
      universalPrefixDepth := d
      writtenQuantifierLiterals := a.solver.writtenQuantifierLiterals + if lit = 0 then 0 else 1 },
      a.toSeed ++ [.quantifier (a.solver.sentQuantifier lit)], a.toChild⟩ := by
  obtain ⟨e, he, hb⟩ := Option.map_eq_some_iff.mp h
  obtain ⟨rfl, rfl⟩ := Prod.mk.inj hb
  change a.solver.quapiQuantify lit = some e at he
  have hs : a.solver.state = .input := by
    by_contra hs
    rw [QuapiSolver.quapiQuantify, if_neg hs] at he
    exact absurd he (Option.some_ne_none e).symm
  rw [QuapiSolver.quapiQuantify_of_input hs] at he
  obtain rfl := Option.some.inj he
  refine ⟨hs, if lit.val < 0 ∧ a.solver.writtenQuantifierLiterals <
    a.solver.header.prefixdepth.1 then a.solver.writtenQuantifierLiterals
    else a.solver.universalPrefixDepth, ?_⟩
  simp only [ne_eq, QuapiSolver.sentQuantifier_eq_zero, ite_not, List.append_nil]
  by_cases hlit : lit = 0
  · rw [if_pos hlit, if_pos hlit, add_zero]
  · rw [if_neg hlit, if_neg hlit]

/-- **The calls of a prefix** write its messages and touch nothing else that later calls
read but the depth. -/
theorem calls_quantify {qs : List Lit} (h : a.calls env (qs.map .quantify) = some b) :
    (∃ d w, b = ⟨{ a.solver with universalPrefixDepth := d, writtenQuantifierLiterals := w },
      a.toSeed ++ (sentPrefix (a.solver.header.prefixdepth.1 -
        a.solver.writtenQuantifierLiterals) qs).map .quantifier, a.toChild⟩) ∧
      (qs ≠ [] → a.solver.state = .input) := by
  induction qs generalizing a with
  | nil =>
    obtain rfl := Option.some.inj h
    refine ⟨⟨a.solver.universalPrefixDepth, a.solver.writtenQuantifierLiterals, ?_⟩,
      fun hne => absurd rfl hne⟩
    rw [sentPrefix, List.map_nil, List.append_nil]
  | cons q qs ih =>
    obtain ⟨c, hc, hr⟩ := Machine.run_cons.mp h
    obtain ⟨⟨y, c'⟩, hcall, rfl⟩ := Option.map_eq_some_iff.mp hc
    obtain ⟨hs, d, rfl⟩ := call_quantify hcall
    obtain ⟨⟨d', w, rfl⟩, -⟩ := ih hr
    refine ⟨⟨d', w, ?_⟩, fun _ => hs⟩
    -- a zero takes no place of the depth
    have hk : a.solver.header.prefixdepth.1 - (a.solver.writtenQuantifierLiterals +
        if q = 0 then 0 else 1) = if q = 0 then
          a.solver.header.prefixdepth.1 - a.solver.writtenQuantifierLiterals
        else a.solver.header.prefixdepth.1 - a.solver.writtenQuantifierLiterals - 1 := by
      split <;> omega
    have hq : a.solver.sentQuantifier q = if 0 < a.solver.header.prefixdepth.1 -
        a.solver.writtenQuantifierLiterals ∧ q.val < 0 then -q else q := by
      rw [QuapiSolver.sentQuantifier]
      exact if_congr (and_congr_left fun _ => sub_pos.symm) rfl rfl
    simp only [hk, hq, sentPrefix, List.map_cons, List.append_assoc, List.singleton_append]

end

end Api

/-! ### Sessions -/

/-- A command of a session. -/
inductive Command where
  /-- A clause, closed. -/
  | clause (ls : List NzLit)
  | assume (litOrZero : Lit)
  | reset
  | solve
deriving DecidableEq

/-- What a solve that sends its SOLVE was for. -/
structure Round where
  /-- The clauses so far. -/
  clauses : List (List NzLit)
  /-- The assumptions accepted since the last solve or reset. -/
  accepted : List NzLit
  /-- The calls with a non-zero assumption since the last solve or reset. -/
  tried : ℕ
  /-- What has been written to the seeding process, up to the FORK of the child. -/
  toSeed : List QuapiMsg

/-- A session: the library, and what has been asked of it. -/
structure Session where
  /-- The library. -/
  api : Api
  /-- The clauses so far. -/
  clauses : List (List NzLit)
  /-- The assumptions accepted since the last solve or reset. -/
  accepted : List NzLit
  /-- The calls with a non-zero assumption since the last solve or reset. -/
  tried : ℕ
  /-- One record for each SOLVE. -/
  rounds : List Round

namespace Session

/-- A session after its prefix. -/
def start (a : Api) : Session := ⟨a, [], [], 0, []⟩

/-- One command: `none` where an assertion of the library fails. -/
def step (env : Env) (x : Session) : Command → Option Session
  | .clause ls => (x.api.calls env (Api.clauseCalls ls)).map fun a =>
      { x with api := a, clauses := x.clauses ++ [ls] }
  | .assume lit => (x.api.call env (.assume lit)).map fun r =>
      if h : lit = 0 then { x with api := r.2 }
      else { x with
        api := r.2
        accepted := if r.1 then x.accepted ++ [⟨lit, h⟩] else x.accepted
        tried := x.tried + 1 }
  | .reset => (x.api.call env .reset).map fun r =>
      { x with api := r.2, accepted := [], tried := 0 }
  | .solve => (x.api.call env .solve).map fun r =>
      if r.1 then { x with
        api := r.2
        accepted := []
        tried := 0
        rounds := x.rounds ++ [⟨x.clauses, x.accepted, x.tried, r.2.toSeed⟩] }
      else { x with api := r.2 }

section

variable {env : Env} {x y : Session} {lit : Lit}

theorem step_clause {ls : List NzLit} (h : x.step env (.clause ls) = some y) :
    x.api.solver.needsFork ∧ y = { x with
      api := ⟨Api.countClause x.api.solver, x.api.toSeed ++ Api.clauseMsgs ls, x.api.toChild⟩
      clauses := x.clauses ++ [ls] } := by
  obtain ⟨a, ha, rfl⟩ := Option.map_eq_some_iff.mp h
  obtain ⟨hs, rfl⟩ := Api.calls_clause ha
  exact ⟨hs, rfl⟩

theorem step_assume (h : x.step env (.assume lit) = some y) :
    (lit = 0 ∧ y = x) ∨
    (lit ≠ 0 ∧ y = { x with tried := x.tried + 1 } ∧ ∃ bound, x.api.solver.header.clauses.add?
      x.api.solver.header.prefixdepth = some bound ∧ bound.1 ≤ x.api.solver.writtenClauses) ∨
    ∃ hlit : lit ≠ 0, y = { x with
      api := ⟨(x.api.forked env).solver.countAssumption, (x.api.forked env).toSeed,
        (x.api.forked env).toChild ++ [.literal lit, .literal 0]⟩
      accepted := x.accepted ++ [⟨lit, hlit⟩]
      tried := x.tried + 1 } ∧ ∃ bound, x.api.solver.header.clauses.add?
      x.api.solver.header.prefixdepth = some bound ∧ x.api.solver.writtenClauses < bound.1 := by
  obtain ⟨⟨r, a⟩, ha, rfl⟩ := Option.map_eq_some_iff.mp h
  rcases Api.call_assume ha with ⟨h0, -, rfl⟩ | ⟨h0, rfl, rfl, hb⟩ | ⟨h0, rfl, hb, rfl⟩
  · exact Or.inl ⟨h0, dif_pos h0⟩
  · exact Or.inr (Or.inl ⟨h0, dif_neg h0, hb⟩)
  · exact Or.inr (Or.inr ⟨h0, dif_neg h0, hb⟩)

theorem state_of_step_assume (h : x.step env (.assume lit) = some y) :
    x.api.solver.state ≠ .input := by
  obtain ⟨r, ha, -⟩ := Option.map_eq_some_iff.mp h
  obtain ⟨e, he, -⟩ := Option.map_eq_some_iff.mp ha
  rcases QuapiSolver.state_of_quapiAssume he with hs | hs <;> rw [hs] <;>
    exact QuapiState.noConfusion

theorem step_reset (h : x.step env .reset = some y) : y = { x with
    api := if x.api.solver.state = .inputAssumptions then
      { x.api with solver := x.api.solver.clearAssumptions } else x.api
    accepted := []
    tried := 0 } := by
  rw [step, Option.map_eq_some_iff] at h
  obtain ⟨r, ha, rfl⟩ := h
  obtain ⟨e, he, rfl⟩ := Option.map_eq_some_iff.mp ha
  obtain rfl := Option.some.inj he
  rw [QuapiSolver.quapiResetAssumptions]
  split <;> simp only [List.append_nil]

theorem step_solve (hs : x.api.solver.canSolve) (h : x.step env .solve = some y) :
    (x.api.solver.Refuses env.allowMissing ∧ y = x) ∨
    (¬x.api.solver.Refuses env.allowMissing ∧ y = { x with
      api := ⟨(x.api.forked env).solver.clearAssumptions, (x.api.forked env).toSeed,
        (x.api.forked env).toChild ++ [.solve]⟩
      accepted := []
      tried := 0
      rounds := x.rounds ++ [⟨x.clauses, x.accepted, x.tried, (x.api.forked env).toSeed⟩] }) := by
  rw [step, Option.map_eq_some_iff] at h
  obtain ⟨⟨r, a⟩, ha, rfl⟩ := h
  rcases Api.call_solve hs ha with ⟨rfl, hr, rfl⟩ | ⟨rfl, hr, rfl⟩
  · exact Or.inl ⟨hr, rfl⟩
  · exact Or.inr ⟨hr, rfl⟩

/-- No command takes a clause back. -/
theorem clauses_of_step {c : Command} (h : x.step env c = some y) : x.clauses <+: y.clauses := by
  cases c with
  | clause ls =>
    obtain ⟨-, rfl⟩ := step_clause h
    exact List.prefix_append _ _
  | assume lit =>
    rcases step_assume h with ⟨-, rfl⟩ | ⟨-, rfl, -⟩ | ⟨hlit, rfl, -⟩ <;> exact List.prefix_rfl
  | reset =>
    obtain rfl := step_reset h
    exact List.prefix_rfl
  | solve =>
    rw [step, Option.map_eq_some_iff] at h
    obtain ⟨r, -, rfl⟩ := h
    split <;> exact List.prefix_rfl

/-! ### The counters of the library -/

/-- **The counters are right**: the library counts the clauses and the accepted
assumptions, and a child that has not been forked has none. -/
structure Counted (x : Session) : Prop where
  written : x.api.solver.writtenClauses = x.clauses.length + x.accepted.length
  assumptions : x.api.solver.writtenAssumptions = x.accepted.length
  canSolve : x.api.solver.canSolve
  fresh : x.api.solver.needsFork → x.accepted = []

theorem counted_start {a : Api} (hw : a.solver.writtenClauses = 0)
    (ha : a.solver.writtenAssumptions = 0) (hs : a.solver.canSolve) : Counted (start a) :=
  ⟨hw, ha, hs, fun _ => rfl⟩

theorem Counted.clear {x : Session} (h : Counted x) {a : Api}
    (hw : a.solver.writtenClauses = x.api.solver.writtenClauses)
    (ha : a.solver.writtenAssumptions = x.api.solver.writtenAssumptions) :
    a.solver.clearAssumptions.writtenClauses = x.clauses.length := by
  have h₁ := h.written
  have h₂ := h.assumptions
  change a.solver.writtenClauses - a.solver.writtenAssumptions = _
  rw [hw, ha]
  omega

theorem forked_counts (env : Env) (a : Api) :
    (a.forked env).solver.writtenClauses = a.solver.writtenClauses ∧
      (a.forked env).solver.writtenAssumptions = a.solver.writtenAssumptions ∧
      (a.forked env).solver.header = a.solver.header := by
  rw [Api.forked]
  split <;> exact ⟨rfl, rfl, rfl⟩

/-- **Every command keeps the counters right.** -/
theorem Counted.step {c : Command} (hx : Counted x) (h : x.step env c = some y) :
    Counted y := by
  have hw := hx.written
  have ha := hx.assumptions
  obtain ⟨hfw, hfa, -⟩ := forked_counts env x.api
  cases c with
  | clause ls =>
    obtain ⟨hs, rfl⟩ := step_clause h
    have hfresh := hx.fresh hs
    refine ⟨?_, ha, Or.inr (Or.inl rfl), fun _ => hfresh⟩
    change x.api.solver.writtenClauses + 1 = ((x.clauses ++ [ls]).length : ℤ) + x.accepted.length
    rw [List.length_append, List.length_singleton, hw]
    push_cast
    ring
  | assume lit =>
    rcases step_assume h with ⟨-, rfl⟩ | ⟨-, rfl, -⟩ | ⟨hlit, rfl, -⟩
    · exact hx
    · exact ⟨hw, ha, hx.canSolve, hx.fresh⟩
    · have hlen : (((x.accepted ++ [⟨lit, hlit⟩] : List NzLit)).length : ℤ) =
          x.accepted.length + 1 := by simp
      refine ⟨?_, ?_, Or.inr (Or.inr rfl), fun hc => absurd hc (by simp [QuapiSolver.needsFork,
        QuapiSolver.countAssumption])⟩
      · change (x.api.forked env).solver.writtenClauses + 1 = _
        rw [hlen, hfw, hw]
        ring
      · change (x.api.forked env).solver.writtenAssumptions + 1 = _
        rw [hlen, hfa, ha]
  | reset =>
    obtain rfl := step_reset h
    by_cases hs : x.api.solver.state = .inputAssumptions
    · simp only [if_pos hs]
      exact ⟨(hx.clear rfl rfl).trans (by simp), rfl, Or.inr (Or.inl rfl), fun _ => rfl⟩
    · simp only [if_neg hs]
      have hfork : x.api.solver.needsFork := by
        rcases hx.canSolve with hc | hc | hc
        · exact Or.inr hc
        · exact Or.inl hc
        · exact absurd hc hs
      rw [hx.fresh hfork] at hw ha
      exact ⟨hw, ha, hx.canSolve, fun _ => rfl⟩
  | solve =>
    rcases step_solve hx.canSolve h with ⟨-, rfl⟩ | ⟨-, rfl⟩
    · exact hx
    · exact ⟨(hx.clear hfw hfa).trans (by simp), rfl, Or.inr (Or.inl rfl), fun _ => rfl⟩

end

end Session

/-! ### A session to look at -/

/-- The library for two variables, one clause and one assumption. -/
def forallExistsStart : QuapiSolver where
  header := ⟨.of 2, .of 2, .of 1⟩
  regexes := none
  stdoutCb := none
  state := .input
  universalPrefixDepth := -1
  writtenClauses := 0
  writtenAssumptions := 0
  writtenQuantifierLiterals := 0
  solverchildPid := none

/-- The library after the prefix `∀x₁∃x₂`. -/
def forallExistsApi : Api where
  solver := { forallExistsStart with universalPrefixDepth := 0, writtenQuantifierLiterals := 2 }
  toSeed := [.header quapiApiVersion forallExistsStart.header, .quantifier (lit 1),
    .quantifier (lit 2)]
  toChild := []

/-- An environment in which every child is process 1. -/
def plainEnv : Env := ⟨false, fun _ => 1⟩

theorem forallExists_calls : (Api.start forallExistsStart).calls plainEnv
    ([nzLit (-1), nzLit 2].map fun q => .quantify q.1) = some forallExistsApi := rfl

end QuAPI
