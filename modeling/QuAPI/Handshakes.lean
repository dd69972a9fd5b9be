import QuAPI.Session
import QuAPI.Stream

/-!
# The fork handshake

`make_solvable` sets the state to `INPUT_ASSUMPTIONS` before it writes the FORK and reads
the report, and it skips the handshake where that is the state already. So a handshake that
fails leaves a library that behaves as if it had a child.

Here the calls follow each other as a caller makes them, and a solve is cut at its poll
loop (`QuAPI.Caller.step`), so that the state `WORKING` is there as well. Two things are
followed beside the record: the reports that have not been read, and the pid that was
reported for the round, if one was. `QuAPI.Caller.handshakes_iff` says that the library is
sound in every state of a run exactly when no handshake of the run fails.
-/

namespace QuAPI

/-! ### A solve, up to its poll loop -/

namespace QuapiSolver

/-- `quapi_solve`, up to the poll loop or to its return without one. -/
def beginSolve (s : QuapiSolver) (allowMissing : Bool) (io : Io) : QuapiSolver :=
  if s.Refuses allowMissing then s
  else
    let m := s.makeSolvable io.fork
    if m.1 then
      if m.2.1.canSolve then
        if io.childWrites < 1 then m.2.1.startSolve.endSolve else m.2.1.startSolve
      else m.2.1.endSolve
    else m.2.1

/-- **What a solve can do before its poll loop**: be refused, fail in the handshake, return
without its SOLVE, or be in the poll loop. -/
theorem beginSolve_cases (s : QuapiSolver) (allowMissing : Bool) (io : Io) :
    (s.Refuses allowMissing ∧ s.beginSolve allowMissing io = s) ∨
    (¬s.Refuses allowMissing ∧ (s.makeSolvable io.fork).1 = false ∧
      s.beginSolve allowMissing io = (s.makeSolvable io.fork).2.1) ∨
    (¬s.Refuses allowMissing ∧ (s.makeSolvable io.fork).1 = true ∧
      s.beginSolve allowMissing io = (s.makeSolvable io.fork).2.1.clearAssumptions) ∨
    (¬s.Refuses allowMissing ∧ (s.makeSolvable io.fork).1 = true ∧
      (s.makeSolvable io.fork).2.1.canSolve ∧
      s.beginSolve allowMissing io = (s.makeSolvable io.fork).2.1.startSolve) := by
  by_cases hr : s.Refuses allowMissing
  · exact Or.inl ⟨hr, if_pos hr⟩
  · rw [beginSolve, if_neg hr]
    rcases Bool.eq_false_or_eq_true (s.makeSolvable io.fork).1 with hm | hm
    · simp only [hm, if_true]
      by_cases hc : (s.makeSolvable io.fork).2.1.canSolve
      · rw [if_pos hc]
        by_cases hw : io.childWrites < 1
        · exact Or.inr (Or.inr (Or.inl ⟨hr, trivial, if_pos hw⟩))
        · exact Or.inr (Or.inr (Or.inr ⟨hr, trivial, hc, if_neg hw⟩))
      · exact Or.inr (Or.inr (Or.inl ⟨hr, trivial, if_neg hc⟩))
    · simp only [hm]
      exact Or.inr (Or.inl ⟨hr, trivial, rfl⟩)

/-- The two halves of a solve are the call. -/
theorem quapiSolve_solver {s : QuapiSolver} (hs : s.state ≠ .working) (allowMissing : Bool)
    (io : Io) : (s.quapiSolve allowMissing io).solver =
      if (s.beginSolve allowMissing io).state = .working then
        (s.beginSolve allowMissing io).endSolve
      else s.beginSolve allowMissing io := by
  have hclear : ∀ t : QuapiSolver, t.clearAssumptions.state ≠ .working := fun t =>
    QuapiState.noConfusion
  have hmade : (s.makeSolvable io.fork).2.1.state ≠ .working := by
    rcases s.makeSolvable_cases io.fork with hm | hm | ⟨pid, hm⟩ <;> rw [hm]
    · exact hs
    · exact QuapiState.noConfusion
    · exact QuapiState.noConfusion
  by_cases hr : s.Refuses allowMissing
  · rw [quapiSolve, if_pos hr, beginSolve, if_pos hr, if_neg hs]
  · rw [quapiSolve, beginSolve, if_neg hr, if_neg hr]
    rcases Bool.eq_false_or_eq_true (s.makeSolvable io.fork).1 with hm | hm
    · simp only [hm, if_true]
      by_cases hc : (s.makeSolvable io.fork).2.1.canSolve
      · rw [if_pos hc, if_pos hc]
        by_cases hw : io.childWrites < 1
        · rw [if_pos hw, if_pos hw]
          exact (if_neg (hclear _)).symm
        · rw [if_neg hw, if_neg hw]
          exact (if_pos rfl).symm
      · rw [if_neg hc, if_neg hc]
        exact (if_neg (hclear _)).symm
    · simp only [hm]
      exact (if_neg hmade).symm

end QuapiSolver

/-! ### The caller's view -/

/-- The library between two calls, or in the poll loop of a solve. -/
structure Caller where
  solver : QuapiSolver
  /-- The pids of the reports that have not been read. -/
  reports : List ℤ
  /-- The pid that was reported for the round, for the statements only. -/
  reported : Option ℤ

namespace Caller

/-- What happens in a session. -/
inductive Act where
  /-- A call; a solve only up to its poll loop. -/
  | call (c : ApiCall) (io : CallIo)
  /-- The poll loop of a solve returns. -/
  | finish
deriving DecidableEq

/-- A session after `quapi_init`. -/
def start (s : QuapiSolver) : Caller := ⟨s, [], none⟩

/-- The handshake of a call, if it has one: the report that is read is the first in the
pipe. -/
def handshake (x : Caller) (io : CallIo) : Handshake :=
  if io.forkWritten then
    if io.reportRead then .forked (x.reports.headD io.pid) else .reportFailed
  else .writeFailed

/-- The reports after a call. -/
def reportsAfter (x : Caller) (allowMissing : Bool) (c : ApiCall) (io : CallIo) : List ℤ :=
  if x.solver.AsksFork allowMissing c ∧ io.forkWritten then
    if io.reportRead then (x.reports ++ [io.pid]).tail else x.reports ++ [io.pid]
  else x.reports

/-- What has been reported for the round after a call. -/
def reportedAfter (x : Caller) (allowMissing : Bool) (c : ApiCall) (io : CallIo) : Option ℤ :=
  if x.solver.AsksFork allowMissing c then
    if io.forkWritten ∧ io.reportRead then some io.pid else none
  else x.reported

/-- The record after a call, or in the poll loop of a solve. -/
def solverAfter (x : Caller) (allowMissing : Bool) (c : ApiCall) (io : CallIo) :
    Option QuapiSolver :=
  match c with
  | .solve => some (x.solver.beginSolve allowMissing ⟨x.handshake io, io.childWrites⟩)
  | c => (x.solver.call allowMissing c ⟨x.handshake io, io.childWrites⟩).map Effect.solver

/-- One act: there is no other call while a solve is in its poll loop. -/
def step (allowMissing : Bool) (x : Caller) : Act → Option Caller
  | .call c io =>
    if x.solver.state = .working then none
    else (x.solverAfter allowMissing c io).map fun s =>
      ⟨s, x.reportsAfter allowMissing c io, x.reportedAfter allowMissing c io⟩
  | .finish =>
    if x.solver.state = .working then some ⟨x.solver.endSolve, x.reports, none⟩ else none

/-! ### Failed handshakes -/

/-- The call asks for a child, and the FORK is not written or the report not read. -/
def Fails (allowMissing : Bool) (x : Caller) : Act → Prop
  | .call c io => x.solver.AsksFork allowMissing c ∧ ¬(io.forkWritten ∧ io.reportRead)
  | .finish => False

instance (allowMissing : Bool) (x : Caller) : ∀ a, Decidable (x.Fails allowMissing a)
  | .call _ _ => inferInstanceAs (Decidable (_ ∧ ¬_))
  | .finish => isFalse id

/-- The four fields of the record that a failed handshake is to leave alone. -/
structure Unchanged (s t : QuapiSolver) : Prop where
  state : t.state = s.state
  writtenClauses : t.writtenClauses = s.writtenClauses
  writtenAssumptions : t.writtenAssumptions = s.writtenAssumptions
  solverchildPid : t.solverchildPid = s.solverchildPid

/-- A handshake that fails changes nothing. -/
def KeepsOnFailure (allowMissing : Bool) (x : Caller) (a : Act) : Prop :=
  x.Fails allowMissing a → ∀ y, x.step allowMissing a = some y → Unchanged x.solver y.solver

/-- **The library knows its child**: where it writes assumptions or kills, the pid is the one
that was reported for the round. -/
def Sound (x : Caller) : Prop :=
  x.solver.state = .inputAssumptions ∨ x.solver.state = .working →
    ∃ pid, x.reported = some pid ∧ x.solver.solverchildPid = some pid

section

variable {allowMissing : Bool} {x y : Caller} {c : ApiCall} {io : CallIo}

theorem step_call (h : x.step allowMissing (.call c io) = some y) :
    x.solver.state ≠ .working ∧ x.solverAfter allowMissing c io = some y.solver ∧
      y.reports = x.reportsAfter allowMissing c io ∧
      y.reported = x.reportedAfter allowMissing c io := by
  rw [step] at h
  split at h
  case isTrue => exact absurd h (by simp)
  case isFalse hw =>
    obtain ⟨s, hs, rfl⟩ := Option.map_eq_some_iff.mp h
    exact ⟨hw, hs, rfl, rfl⟩

theorem step_finish (h : x.step allowMissing .finish = some y) :
    y = ⟨x.solver.endSolve, x.reports, none⟩ := by
  rw [step] at h
  split at h
  case isTrue => exact (Option.some.inj h).symm
  case isFalse => exact absurd h (by simp)

/-- Outside a round there is nothing to know. -/
theorem sound_of_needsFork (h : x.solver.needsFork) : x.Sound := by
  rintro (hs | hs) <;> rcases h with h | h <;> exact absurd (h.symm.trans hs) (by simp)

theorem sound_of_clear {s : QuapiSolver} (h : x.solver = s.clearAssumptions) : x.Sound :=
  sound_of_needsFork (Or.inl (by rw [h]; rfl))

/-- A handshake that fails gives `make_solvable` no child. -/
theorem makeSolvable_of_fails (hn : x.solver.needsFork) (hf : ¬(io.forkWritten ∧ io.reportRead)) :
    (x.solver.makeSolvable (x.handshake io)).1 = false ∧
      (x.solver.makeSolvable (x.handshake io)).2.1 = x.solver.askFork := by
  rw [QuapiSolver.makeSolvable_of_needsFork hn, handshake]
  -- the FORK is lost, or its report
  by_cases hw : io.forkWritten = true
  · rw [if_pos hw, if_neg fun hr => hf ⟨hw, hr⟩]
    exact ⟨rfl, rfl⟩
  · rw [if_neg hw]
    exact ⟨rfl, rfl⟩

/-- **What a failed handshake leaves**: the state of a round, and no report for it. -/
theorem step_of_fails (hf : x.Fails allowMissing (.call c io))
    (h : x.step allowMissing (.call c io) = some y) :
    y.solver = x.solver.askFork ∧ y.reported = none := by
  obtain ⟨-, hs, -, hr⟩ := step_call h
  obtain ⟨hasks, hfail⟩ := hf
  refine ⟨?_, by rw [hr, reportedAfter, if_pos hasks, if_neg hfail]⟩
  cases c with
  | assume lit =>
    obtain ⟨hn, h0, bound, hb, hlt⟩ := hasks
    obtain ⟨hm, hmade⟩ := makeSolvable_of_fails hn hfail
    obtain ⟨e, he, hes⟩ := Option.map_eq_some_iff.mp hs
    rw [← hes]
    rcases QuapiSolver.quapiAssume_cases he with ⟨hz, -⟩ | ⟨-, ⟨bound', hb', hle⟩, -⟩ |
      ⟨-, -, -, rfl⟩ | ⟨-, -, hm', -⟩ | ⟨-, -, hm', -⟩
    · exact absurd hz h0
    · obtain rfl := Option.some.inj (hb.symm.trans hb')
      exact absurd hlt (not_lt.mpr hle)
    · exact hmade
    · exact absurd (hm.symm.trans hm') Bool.false_ne_true
    · exact absurd (hm.symm.trans hm') Bool.false_ne_true
  | solve =>
    obtain ⟨hm, hmade⟩ := makeSolvable_of_fails hasks.1 hfail
    obtain hs := Option.some.inj hs
    rw [← hs]
    rcases x.solver.beginSolve_cases allowMissing ⟨x.handshake io, io.childWrites⟩ with
      ⟨hr, -⟩ | ⟨-, -, he⟩ | ⟨-, hm', -⟩ | ⟨-, hm', -⟩
    · exact absurd hr hasks.2
    · exact he.trans hmade
    · exact absurd (hm.symm.trans hm') Bool.false_ne_true
    · exact absurd (hm.symm.trans hm') Bool.false_ne_true
  | _ => exact absurd hasks id

/-- **A round starts with its report.** -/
theorem sound_of_asks (hr : x.reports = []) (hasks : x.solver.AsksFork allowMissing c)
    (hf : ¬x.Fails allowMissing (.call c io)) (h : x.step allowMissing (.call c io) = some y) :
    y.Sound := by
  obtain ⟨-, hs, -, hrep⟩ := step_call h
  have hio : io.forkWritten ∧ io.reportRead := not_not.mp fun hc => hf ⟨hasks, hc⟩
  rw [reportedAfter, if_pos hasks, if_pos hio] at hrep
  have hshake : x.handshake io = .forked io.pid := by
    rw [handshake, if_pos hio.1, if_pos hio.2, hr]
    rfl
  have hpid : x.solver.needsFork → (x.solver.makeSolvable (x.handshake io)).2.1.solverchildPid =
      some io.pid := by
    intro hn
    rw [QuapiSolver.makeSolvable_of_needsFork hn, hshake]
    rfl
  have hsome : y.solver.solverchildPid = some io.pid → y.Sound := fun hp _ => ⟨io.pid, hrep, hp⟩
  cases c with
  | assume lit =>
    obtain ⟨e, he, hes⟩ := Option.map_eq_some_iff.mp hs
    rcases QuapiSolver.quapiAssume_cases he with ⟨-, rfl⟩ | ⟨-, -, rfl⟩ | ⟨-, -, -, rfl⟩ |
      ⟨-, -, -, -, rfl⟩ | ⟨-, -, -, rfl⟩
    · exact sound_of_needsFork (hes ▸ hasks.1)
    · exact sound_of_needsFork (hes ▸ hasks.1)
    all_goals exact hsome (hes ▸ hpid hasks.1)
  | solve =>
    obtain hs := Option.some.inj hs
    rcases x.solver.beginSolve_cases allowMissing ⟨x.handshake io, io.childWrites⟩ with
      ⟨-, he⟩ | ⟨-, -, he⟩ | ⟨-, -, he⟩ | ⟨-, -, -, he⟩
    · refine sound_of_needsFork ?_
      rw [← hs, he]
      exact hasks.1
    · refine hsome ?_
      rw [← hs, he]
      exact hpid hasks.1
    · exact sound_of_clear (hs.symm.trans he)
    · refine hsome ?_
      rw [← hs, he]
      exact hpid hasks.1
  | _ => exact absurd hasks id

/-- **A call without a handshake keeps to the child of the round.** -/
theorem sound_of_not_asks (hx : x.Sound) (hasks : ¬x.solver.AsksFork allowMissing c)
    (h : x.step allowMissing (.call c io) = some y) : y.Sound := by
  obtain ⟨hw, hs, -, hrep⟩ := step_call h
  rw [reportedAfter, if_neg hasks] at hrep
  have hkept : y.solver = x.solver → y.Sound := by
    intro he hst
    rw [he] at hst ⊢
    rw [hrep]
    exact hx hst
  have hchild : x.solver.state = .inputAssumptions →
      y.solver.solverchildPid = x.solver.solverchildPid → y.Sound := by
    intro hst hp _
    rw [hrep, hp]
    exact hx (Or.inl hst)
  cases c with
  | quantify lit =>
    obtain ⟨e, he, hes⟩ := Option.map_eq_some_iff.mp hs
    have hin : x.solver.state = .input := by
      by_contra hc
      change x.solver.quapiQuantify lit = some e at he
      rw [QuapiSolver.quapiQuantify, if_neg hc] at he
      exact absurd he (by simp)
    change x.solver.quapiQuantify lit = some e at he
    rw [QuapiSolver.quapiQuantify_of_input hin] at he
    obtain rfl := Option.some.inj he
    exact sound_of_needsFork (Or.inr (hes ▸ hin))
  | add lit =>
    obtain ⟨e, he, hes⟩ := Option.map_eq_some_iff.mp hs
    change x.solver.quapiAdd lit = some e at he
    rw [QuapiSolver.quapiAdd] at he
    split at he
    case isTrue =>
      obtain rfl := Option.some.inj he
      refine sound_of_needsFork (Or.inl ?_)
      rw [← hes]
      change (if _ then _ else _ : QuapiSolver).state = _
      split <;> rfl
    case isFalse => exact absurd he (by simp)
  | assume lit =>
    obtain ⟨e, he, hes⟩ := Option.map_eq_some_iff.mp hs
    have hround : lit ≠ 0 → x.solver.HasRoom → x.solver.state = .inputAssumptions ∧
        ∀ k, x.solver.makeSolvable k = (true, x.solver, []) := by
      intro h0 hroom
      have hn : ¬x.solver.needsFork := fun hn => hasks ⟨hn, h0, hroom⟩
      refine ⟨?_, fun k => QuapiSolver.makeSolvable_of_not hn k⟩
      rcases QuapiSolver.state_of_quapiAssume he with hst | hst
      · exact absurd (Or.inl hst) hn
      · exact hst
    rcases QuapiSolver.quapiAssume_cases he with ⟨-, rfl⟩ | ⟨-, -, rfl⟩ | ⟨h0, hroom, hm, -⟩ |
      ⟨h0, hroom, -, -, rfl⟩ | ⟨h0, hroom, -, rfl⟩
    · exact hkept hes.symm
    · exact hkept hes.symm
    · rw [(hround h0 hroom).2] at hm
      exact absurd hm (by simp)
    · obtain ⟨hst, hmade⟩ := hround h0 hroom
      refine hchild hst ?_
      rw [← hes, hmade]
    · obtain ⟨hst, hmade⟩ := hround h0 hroom
      refine hchild hst ?_
      rw [← hes, hmade]
      rfl
  | reset =>
    have hes : x.solver.quapiResetAssumptions.solver = y.solver := Option.some.inj hs
    rw [QuapiSolver.quapiResetAssumptions] at hes
    split at hes
    · exact sound_of_clear hes.symm
    · exact hkept hes.symm
  | solve =>
    obtain hs := Option.some.inj hs
    by_cases hr : x.solver.Refuses allowMissing
    · exact hkept (hs.symm.trans (if_pos hr))
    · have hn : ¬x.solver.needsFork := fun hn => hasks ⟨hn, hr⟩
      have hmade := QuapiSolver.makeSolvable_of_not hn (x.handshake io)
      rcases x.solver.beginSolve_cases allowMissing ⟨x.handshake io, io.childWrites⟩ with
        ⟨hr', -⟩ | ⟨-, hm, -⟩ | ⟨-, -, he⟩ | ⟨-, -, hc, he⟩
      · exact absurd hr' hr
      · rw [hmade] at hm
        exact absurd hm (by simp)
      · exact sound_of_clear (hs.symm.trans he)
      -- the only state that accepts a solve without a handshake
      · rw [hmade] at hc he
        have hst : x.solver.state = .inputAssumptions := by
          rcases hc with hc | hc | hc
          · exact absurd (Or.inr hc) hn
          · exact absurd (Or.inl hc) hn
          · exact hc
        refine hchild hst ?_
        rw [← hs, he]
        rfl

/-- **A step without a failed handshake** reads every report and keeps the library sound. -/
theorem sound_step {a : Act} (hf : ¬x.Fails allowMissing a)
    (h : x.step allowMissing a = some y) (hx : x.reports = [] ∧ x.Sound) :
    y.reports = [] ∧ y.Sound := by
  cases a with
  | finish =>
    obtain rfl := step_finish h
    exact ⟨hx.1, sound_of_clear rfl⟩
  | call c io =>
    obtain ⟨-, -, hr, -⟩ := step_call h
    -- a call that asks for a child gets one, and the others leave the round as it is
    by_cases hasks : x.solver.AsksFork allowMissing c
    · refine ⟨?_, sound_of_asks hx.1 hasks hf h⟩
      have hio : io.forkWritten ∧ io.reportRead := not_not.mp fun hc => hf ⟨hasks, hc⟩
      rw [hr, reportsAfter, if_pos ⟨hasks, hio.1⟩, if_pos hio.2, hx.1]
      rfl
    · refine ⟨?_, sound_of_not_asks hx.2 hasks h⟩
      rw [hr, reportsAfter, if_neg fun hc => hasks hc.1]
      exact hx.1

end

/-- **The library is sound exactly where no handshake fails.** In every run of calls and
poll loops after `quapi_init`, whatever the environment does: a failed handshake changes
nothing, and wherever the state is `INPUT_ASSUMPTIONS` or `WORKING` the pid of the library
is the one reported for the round, if and only if no handshake of the run fails. -/
theorem handshakes_iff {litcount clausecount maxassumptions : CInt}
    {regexes : Option ((List Char → Bool) × (List Char → Bool))} {s : QuapiSolver}
    {allowMissing : Bool} {acts : List Act} {y : Caller}
    (hinit : quapiInit litcount clausecount maxassumptions regexes = some s)
    (hrun : Machine.run (step allowMissing) (start s) acts = some y) :
    (Machine.Meets (step allowMissing) (KeepsOnFailure allowMissing) (start s) acts ∧
      Machine.Always (step allowMissing) Sound (start s) acts) ↔
      Machine.Meets (step allowMissing) (fun x a => ¬x.Fails allowMissing a) (start s) acts := by
  obtain ⟨-, clauses, -, rfl⟩ := quapiInit_cases hinit
  constructor
  · rintro ⟨-, hsound⟩
    refine Machine.meets_of_always ?_ hrun hsound
    intro x a t ht _ hst hf
    cases a with
    | finish => exact hf
    | call c io =>
      obtain ⟨hsolver, hreported⟩ := step_of_fails hf ht
      obtain ⟨pid, hp, -⟩ := hst (Or.inl (by rw [hsolver]; rfl))
      exact absurd (hreported.symm.trans hp) (by simp)
  · intro hmeets
    refine ⟨hmeets.mono fun x a hn hf => absurd hf hn, ?_⟩
    have hstart : (start ⟨⟨litcount, clauses, maxassumptions⟩, regexes, none, .input, -1, 0, 0, 0,
        none⟩).Sound := sound_of_needsFork (Or.inr rfl)
    have hall := Machine.always_of_meets (I := fun x : Caller => x.reports = [] ∧ x.Sound)
      (fun _ _ _ hf ht hx => sound_step hf ht hx) hmeets ⟨rfl, hstart⟩
    exact hall.mono fun x hx => hx.2

/-- A clause, an assumption, a solve, and an assumption with a reset in the next round. -/
def twoRounds : List Act :=
  [.call (.add (lit 1)) ⟨true, true, 7, 2⟩, .call (.add 0) ⟨true, true, 7, 2⟩,
    .call (.assume (lit 2)) ⟨true, true, 7, 2⟩, .call .solve ⟨true, true, 7, 2⟩, .finish,
    .call (.assume (lit 1)) ⟨true, true, 9, 2⟩, .call .reset ⟨true, true, 9, 2⟩]

/-- Nothing fails in the two rounds. -/
theorem twoRounds_sound :
    Machine.Meets (step false) (KeepsOnFailure false) (start forallExistsStart) twoRounds ∧
      Machine.Always (step false) Sound (start forallExistsStart) twoRounds := by
  have hsome : (Machine.run (step false) (start forallExistsStart) twoRounds).isSome = true := rfl
  obtain ⟨y, hy⟩ := Option.isSome_iff_exists.mp hsome
  have hinit : quapiInit ⟨2, by decide⟩ ⟨1, by decide⟩ ⟨1, by decide⟩ none =
      some forallExistsStart := rfl
  exact (handshakes_iff hinit hy).mpr (by decide)

/-- A clause, and an assumption whose report is not read. -/
def interrupted : List Act :=
  [.call (.add (lit 1)) ⟨true, true, 7, 2⟩, .call (.add 0) ⟨true, true, 7, 2⟩,
    .call (.assume (lit 2)) ⟨true, false, 7, 2⟩]

/-- **An interrupted read of the report**: the assume returns false and leaves the state
`INPUT_ASSUMPTIONS` without a pid, and the next assume is accepted and written to the
children without a handshake. -/
theorem interrupted_accepts : ∃ x y z : Caller,
    quapiInit ⟨2, by decide⟩ ⟨1, by decide⟩ ⟨1, by decide⟩ none = some forallExistsStart ∧
      Machine.run (step false) (start forallExistsStart) (interrupted.take 2) = some x ∧
      x.solver.state = .inputLiterals ∧
      x.step false (.call (.assume (lit 2)) ⟨true, false, 7, 2⟩) = some y ∧
      y.solver.state = .inputAssumptions ∧ y.solver.solverchildPid = none ∧
      (y.solver.quapiAssume (lit 2) ⟨.writeFailed, 2⟩).map
        (fun e => (e.toSeed, e.toChild, e.returned)) =
          some ([], [.literal (lit 2), .literal 0], true) ∧
      y.step false (.call (.assume (lit 2)) ⟨false, false, 8, 2⟩) = some z ∧
      ¬(Machine.Meets (step false) (KeepsOnFailure false) (start forallExistsStart) interrupted ∧
        Machine.Always (step false) Sound (start forallExistsStart) interrupted) := by
  refine ⟨_, _, _, rfl, rfl, rfl, rfl, rfl, rfl, rfl, rfl, ?_⟩
  rintro ⟨-, -, hrest⟩
  have hlast := ((hrest _ rfl).2 _ rfl).2 _ rfl
  obtain ⟨pid, hp, -⟩ := hlast (Or.inl rfl)
  exact absurd (show (none : Option ℤ) = some pid from hp) (by simp)

end Caller

end QuAPI
