import QuAPI.Session
import QuAPI.Attribution

/-!
# The system refines the sequence of its calls

`QuAPI.System` interleaves the library with all the other processes, and `QuAPI.Api` makes one
call after the other. Here the first is a refinement of the second: whatever the other processes
do between the steps of the library, and wherever it is terminated, what it has written on its two
streams is what the calls write one after the other (`QuAPI.System.calls_refine`).

The calls that wait are what has to be settled. `QuAPI.System.settled` is the record of the
library once the call that is on its way is over, and `QuAPI.System.owed` what it will still write
to the children; the message to the seeding process is written before a call waits. Nothing of
this depends on the pid of a child or on the callback (`QuAPI.QuapiSolver.bare`).

What the processes read is recorded beside the run (`QuAPI.History`), since a system only knows
what is still on its way.
-/

namespace QuAPI

/-! ### What a call does not depend on -/

/-- The record without the pid and the callback. -/
def QuapiSolver.bare (s : QuapiSolver) : QuapiSolver :=
  { s with solverchildPid := none, stdoutCb := none }

section

variable {s t : QuapiSolver} {allowMissing : Bool} {c : ApiCall} {e : Effect} {p q : ℤ}

/-- Two records that agree up to the pid and the callback. -/
theorem QuapiSolver.eq_of_bare (h : s.bare = t.bare) :
    t = { s with solverchildPid := t.solverchildPid, stdoutCb := t.stdoutCb } := by
  obtain ⟨d, re, cb, st, u, wc, wa, wq, pid⟩ := s
  obtain ⟨d', re', cb', st', u', wc', wa', wq', pid'⟩ := t
  simp only [bare, QuapiSolver.mk.injEq] at h
  obtain ⟨rfl, rfl, -, rfl, rfl, rfl, rfl, rfl, -⟩ := h
  rfl

/-- **A call depends neither on the pid nor on the callback.** -/
theorem QuapiSolver.call_of_bare (h : s.bare = t.bare)
    (he : s.call allowMissing c (Io.ok p) = some e) :
    ∃ f, t.call allowMissing c (Io.ok q) = some f ∧ e.solver.bare = f.solver.bare ∧
      e.toSeed = f.toSeed ∧ e.toChild = f.toChild := by
  rw [QuapiSolver.eq_of_bare h]
  generalize t.solverchildPid = pid
  generalize t.stdoutCb = cb
  have hneeds : ({ s with solverchildPid := pid, stdoutCb := cb } : QuapiSolver).needsFork ↔
    s.needsFork := Iff.rfl
  cases c with
  | quantify lit =>
    change s.quapiQuantify lit = some e at he
    by_cases hs : s.state = .input
    case neg =>
      rw [quapiQuantify, if_neg hs] at he
      exact absurd he (by simp)
    case pos =>
      rw [quapiQuantify_of_input hs] at he
      obtain rfl := Option.some.inj he
      exact ⟨_, quapiQuantify_of_input (s := { s with solverchildPid := pid, stdoutCb := cb }) hs
        lit, rfl, rfl, rfl⟩
  | add lit =>
    change s.quapiAdd lit = some e at he
    rw [quapiAdd] at he
    split at he
    case isFalse => exact absurd he (by simp)
    case isTrue hs =>
      obtain rfl := Option.some.inj he
      refine ⟨_, if_pos hs, ?_, rfl, rfl⟩
      simp only []
      split <;> rfl
  | assume lit =>
    change s.quapiAssume lit _ = some e at he
    rw [quapiAssume] at he
    split at he
    case isFalse => exact absurd he (by simp)
    case isTrue hs =>
      split at he
      case isTrue h0 =>
        obtain rfl := Option.some.inj he
        exact ⟨_, (if_pos hs).trans (if_pos h0), rfl, rfl, rfl⟩
      case isFalse h0 =>
        obtain ⟨bound, hb, rfl⟩ := Option.map_eq_some_iff.mp he
        refine ⟨_, (if_pos hs).trans ((if_neg h0).trans (congrArg _ hb)), ?_⟩
        by_cases hfull : s.writtenClauses ≥ bound.1
        · simp only [if_pos hfull]
          exact ⟨rfl, trivial, trivial⟩
        · simp only [if_neg hfull]
          by_cases hn : s.needsFork
          · simp only [makeSolvable_of_needsFork hn, makeSolvable_of_needsFork (hneeds.mpr hn),
              Io.ok]
            exact ⟨rfl, rfl, rfl⟩
          · simp only [makeSolvable_of_not hn, makeSolvable_of_not (mt hneeds.mp hn), Io.ok]
            exact ⟨rfl, rfl, rfl⟩
  | reset =>
    obtain rfl := Option.some.inj he
    refine ⟨_, rfl, ?_⟩
    simp only [quapiResetAssumptions]
    split <;> exact ⟨rfl, rfl, rfl⟩
  | solve =>
    obtain rfl := Option.some.inj he
    refine ⟨_, rfl, ?_⟩
    by_cases hr : s.Refuses allowMissing
    · have hr' : ({ s with solverchildPid := pid, stdoutCb := cb } : QuapiSolver).Refuses
        allowMissing := hr
      simp only [quapiSolve, if_pos hr, if_pos hr']
      exact ⟨rfl, trivial, trivial⟩
    · have hr' : ¬({ s with solverchildPid := pid, stdoutCb := cb } : QuapiSolver).Refuses
        allowMissing := hr
      simp only [quapiSolve, if_neg hr, if_neg hr']
      by_cases hn : s.needsFork
      · simp only [makeSolvable_of_needsFork hn, makeSolvable_of_needsFork (hneeds.mpr hn), Io.ok]
        exact ⟨rfl, rfl, rfl⟩
      · simp only [makeSolvable_of_not hn, makeSolvable_of_not (mt hneeds.mp hn), Io.ok]
        by_cases hc : s.canSolve
        · have hc' : ({ s with solverchildPid := pid, stdoutCb := cb } : QuapiSolver).canSolve := hc
          simp only [if_pos hc, if_pos hc']
          exact ⟨rfl, rfl, rfl⟩
        · have hc' : ¬({ s with solverchildPid := pid, stdoutCb := cb } : QuapiSolver).canSolve :=
            hc
          simp only [if_neg hc, if_neg hc']
          exact ⟨rfl, rfl, rfl⟩

end

/-! ### What the processes have read -/

/-- The FORKs among some messages. -/
def forks (msgs : List QuapiMsg) : ℕ := msgs.countP Stream.isFork

/-- The messages up to the `k`-th FORK. -/
def uptoFork : ℕ → List QuapiMsg → List QuapiMsg
  | 0, _ | _, [] => []
  | k + 1, msg :: msgs => msg :: uptoFork (if Stream.isFork msg then k else k + 1) msgs

section

variable {k : ℕ} {msgs more : List QuapiMsg} {msg : QuapiMsg}

theorem forks_append (msgs more : List QuapiMsg) :
    forks (msgs ++ more) = forks msgs + forks more := List.countP_append

theorem forks_cons (msg : QuapiMsg) (msgs : List QuapiMsg) :
    forks (msg :: msgs) = forks msgs + if Stream.isFork msg then 1 else 0 := List.countP_cons

/-- What is sent later does not matter. -/
theorem uptoFork_append (hk : k ≤ forks msgs) (more : List QuapiMsg) :
    uptoFork k (msgs ++ more) = uptoFork k msgs := by
  induction msgs generalizing k with
  | nil =>
    obtain rfl := Nat.le_zero.mp hk
    rw [uptoFork, uptoFork]
  | cons msg msgs ih =>
    cases k with
    | zero => rw [uptoFork, uptoFork]
    | succ k =>
      rw [forks_cons] at hk
      rw [List.cons_append, uptoFork, uptoFork, ih]
      by_cases hm : Stream.isFork msg
      · rw [if_pos hm] at hk ⊢
        exact Nat.le_of_succ_le_succ hk
      · rwa [if_neg hm] at hk ⊢

/-- The messages end with their last FORK. -/
theorem uptoFork_concat (hmsg : Stream.isFork msg = true) :
    uptoFork (forks msgs + 1) (msgs ++ [msg]) = msgs ++ [msg] := by
  induction msgs with
  | nil =>
    rw [List.nil_append, uptoFork, if_pos hmsg]
    rfl
  | cons m msgs ih =>
    rw [List.cons_append, uptoFork, forks_cons]
    by_cases hm : Stream.isFork m
    · rw [if_pos hm, if_pos hm, ih]
    · rw [if_neg hm, if_neg hm, Nat.add_zero, ih]

end

/-- What a run has read. -/
structure History where
  /-- What the seeding process has read. -/
  read : List QuapiMsg
  /-- What it had read when it forked each of the children. -/
  seeds : List (List QuapiMsg)
deriving DecidableEq

namespace History

/-- The header has been read when `quapi_init` returns. -/
def start (s : QuapiSolver) : History := ⟨[.header quapiApiVersion s.header], []⟩

/-- The record behind an act. -/
def next (x : System) (a : System.Act) (h : History) : History :=
  match a with
  | .seedRead => { h with read := h.read ++ x.toSeed.take 1 }
  | .seedFork _ =>
    { read := h.read ++ x.toSeed.take 1, seeds := h.seeds ++ [h.read ++ x.toSeed.take 1] }
  | _ => h

end History

namespace System

/-- A step, with the record. -/
def tracked (allowMissing : Bool) : System × History → Act → Option (System × History) :=
  Machine.track (step allowMissing) History.next

/-- The calls of an act. -/
def Act.calls : Act → List ApiCall
  | .call c => [c]
  | _ => []

/-! ### Calls on their way -/

/-- The record of the library, once the call on its way is over. -/
def settled (x : System) : QuapiSolver :=
  match x.pc with
  | .idle => x.solver
  | .forking (.assume _) => x.solver.countAssumption
  | .forking .solve | .polling _ | .finishing _ => x.solver.endSolve

/-- What the call on its way will still write to the children. -/
def owed (x : System) : List QuapiMsg :=
  match x.pc with
  | .forking (.assume lit) => [.literal lit, .literal 0]
  | .forking .solve => [.solve]
  | _ => []

/-- What has been written to the children, and what will be, with its round. -/
def addressed (x : System) : List (QuapiMsg × ℕ) := x.sent ++ x.owed.map fun m => (m, x.round)

/-- A call waits in states of its own, and can be made in all others. -/
structure Waits (x : System) : Prop where
  asked : ∀ pending, x.pc = .forking pending → x.solver.state = .inputAssumptions
  ready : x.pc = .idle → x.solver.canSolve

/-- **What a call does at once**, and what it will have done: as in one go (`e`). -/
structure Begins (x : System) (e : Effect) (y : System) : Prop where
  solver : y.settled.bare = e.solver.bare
  seed : y.toSeed = x.toSeed ++ e.toSeed
  round : y.round = x.round + forks e.toSeed
  sent : y.addressed = x.addressed ++ e.toChild.map fun m => (m, y.round)
  waits : y.Waits

section

variable {x y : System} {g : History} {a : Act} {c : ApiCall} {allowMissing : Bool} {e : Effect}
  {pending : PendingCall} {env : Env} {lit : Lit}

theorem settled_of_idle (h : x.pc = .idle) : x.settled = x.solver := by
  rw [settled, h]

theorem addressed_of_idle (h : x.pc = .idle) : x.addressed = x.sent := by
  rw [addressed, owed, h]
  exact List.append_nil _

/-- A call that does nothing. -/
theorem begins_rfl (hpc : x.pc = .idle) (hw : x.Waits) (b : Bool) :
    Begins x ⟨x.solver, [], [], b⟩ x :=
  ⟨by rw [settled_of_idle hpc], (List.append_nil _).symm, rfl, (List.append_nil _).symm, hw⟩

/-- **A call that waits for the report of a fork.** -/
theorem begins_ask (hpc : x.pc = .idle) (pending : PendingCall) (b : Bool) :
    Begins x ⟨match pending with
        | .assume _ => x.solver.askFork.countAssumption
        | .solve => x.solver.askFork.endSolve,
      [x.solver.forkMsg], match pending with
        | .assume lit => [.literal lit, .literal 0]
        | .solve => [.solve], b⟩
      { x with
        solver := x.solver.askFork
        pc := .forking pending
        round := x.round + 1
        toSeed := x.toSeed ++ [x.solver.forkMsg] } := by
  have hidle : x.addressed = x.sent := addressed_of_idle hpc
  cases pending <;> refine ⟨rfl, rfl, rfl, ?_, fun _ _ => rfl, fun h => LibraryPc.noConfusion h⟩
  all_goals
    rw [hidle]
    rfl

/-- **A call that need not wait.** -/
theorem begins_proceed (hpc : x.pc = .idle) (hs : x.solver.canSolve) (pending : PendingCall)
    (b : Bool) : Begins x ⟨match pending with
        | .assume _ => x.solver.countAssumption
        | .solve => x.solver.endSolve,
      [], match pending with
        | .assume lit => [.literal lit, .literal 0]
        | .solve => [.solve], b⟩ (x.proceed pending) := by
  have hidle : x.addressed = x.sent := addressed_of_idle hpc
  cases pending with
  | assume lit =>
    refine ⟨rfl, (List.append_nil _).symm, rfl, ?_, fun _ h => LibraryPc.noConfusion h,
      fun _ => Or.inr (Or.inr rfl)⟩
    rw [hidle]
    exact List.append_nil _
  | solve =>
    rw [proceed, if_pos hs]
    refine ⟨rfl, (List.append_nil _).symm, rfl, ?_, fun _ h => LibraryPc.noConfusion h,
      fun h => LibraryPc.noConfusion h⟩
    rw [hidle]
    exact List.append_nil _

/-- **A call that writes to the seeding process at most**, and no FORK. -/
theorem begins_pass (hpc : x.pc = .idle) (hseed : forks e.toSeed = 0) (hchild : e.toChild = [])
    (hs : e.solver.canSolve) : Begins x e { x with
      solver := e.solver
      toSeed := x.toSeed ++ e.toSeed } := by
  refine ⟨?_, rfl, ?_, ?_, fun pending h => ?_, fun _ => hs⟩
  · exact congrArg QuapiSolver.bare (settled_of_idle (x := { x with
      solver := e.solver
      toSeed := x.toSeed ++ e.toSeed }) hpc)
  · rw [hseed]
    rfl
  · rw [hchild]
    exact (List.append_nil _).symm
  · exact absurd (hpc.symm.trans h) (by simp)

/-- **Every call begins as it is made in one go.** -/
theorem call_begins (hpc : x.pc = .idle) (hw : x.Waits) (h : x.call allowMissing c = some y) :
    ∃ e, x.solver.call allowMissing c (Io.ok 0) = some e ∧ Begins x e y := by
  have hcan := hw.ready hpc
  cases c with
  | quantify lit =>
    obtain ⟨e, he, rfl⟩ := Option.map_eq_some_iff.mp h
    have hs : x.solver.state = .input := by
      by_contra hc
      rw [QuapiSolver.quapiQuantify, if_neg hc] at he
      exact absurd he (by simp)
    have he' := he
    rw [QuapiSolver.quapiQuantify_of_input hs] at he'
    obtain rfl := Option.some.inj he'
    exact ⟨_, he, begins_pass hpc rfl rfl (Or.inl hs)⟩
  | add lit =>
    obtain ⟨e, he, rfl⟩ := Option.map_eq_some_iff.mp h
    have he' := he
    rw [QuapiSolver.quapiAdd] at he'
    split at he'
    case isFalse => exact absurd he' (by simp)
    case isTrue =>
      obtain rfl := Option.some.inj he'
      refine ⟨_, he, begins_pass hpc rfl rfl (Or.inr (Or.inl ?_))⟩
      simp only []
      split <;> rfl
  | assume lit =>
    change ∃ e, x.solver.quapiAssume lit (Io.ok 0) = some e ∧ _
    rw [call] at h
    split at h
    case isFalse => exact absurd h (by simp)
    case isTrue hs =>
      rw [QuapiSolver.quapiAssume, if_pos hs]
      split at h
      case isTrue h0 =>
        obtain rfl := Option.some.inj h
        exact ⟨_, if_pos h0, begins_rfl hpc hw true⟩
      case isFalse h0 =>
        obtain ⟨bound, hb, rfl⟩ := Option.map_eq_some_iff.mp h
        refine ⟨_, (if_neg h0).trans (congrArg _ hb), ?_⟩
        by_cases hfull : x.solver.writtenClauses ≥ bound.1
        · simp only [if_pos hfull]
          exact begins_rfl hpc hw false
        · simp only [if_neg hfull, makeSolvable]
          -- the two messages are written, behind the report of the fork if there is none yet
          by_cases hn : x.solver.needsFork
          · rw [if_pos hn, QuapiSolver.makeSolvable_of_needsFork hn]
            have hb := begins_ask hpc (.assume lit) true
            exact ⟨hb.solver, hb.seed, hb.round, hb.sent, hb.waits⟩
          · rw [if_neg hn, QuapiSolver.makeSolvable_of_not hn]
            exact begins_proceed hpc hcan (.assume lit) true
  | reset =>
    obtain rfl := Option.some.inj h
    refine ⟨_, rfl, ?_⟩
    have hpass : Begins x x.solver.quapiResetAssumptions { x with
        solver := x.solver.quapiResetAssumptions.solver
        toSeed := x.toSeed ++ x.solver.quapiResetAssumptions.toSeed } := by
      rw [QuapiSolver.quapiResetAssumptions]
      split
      · exact begins_pass hpc rfl rfl (Or.inr (Or.inl rfl))
      · exact begins_pass hpc rfl rfl hcan
    have hnil : x.solver.quapiResetAssumptions.toSeed = [] := by
      rw [QuapiSolver.quapiResetAssumptions]
      split <;> rfl
    rw [hnil, List.append_nil] at hpass
    -- killing the child changes nothing that has been written
    by_cases hs : x.solver.state = .inputAssumptions
    · simp only [if_pos hs]
      rcases x.abortSolverchild_cases with heq | ⟨pid, heq⟩ <;> rw [heq]
      · exact hpass
      · exact ⟨hpass.solver, hpass.seed.trans (by rw [hnil]), hpass.round, hpass.sent,
          hpass.waits.asked, hpass.waits.ready⟩
    · simp only [if_neg hs]
      exact hpass
  | solve =>
    obtain rfl := Option.some.inj h
    change ∃ e, some (x.solver.quapiSolve allowMissing (Io.ok 0)) = some e ∧ _
    refine ⟨_, rfl, ?_⟩
    rw [QuapiSolver.quapiSolve]
    by_cases hr : x.solver.Refuses allowMissing
    · rw [if_pos hr, if_pos hr]
      exact begins_rfl hpc hw false
    · rw [if_neg hr, if_neg hr, makeSolvable]
      by_cases hn : x.solver.needsFork
      · rw [if_pos hn, QuapiSolver.makeSolvable_of_needsFork hn]
        have hb := begins_ask hpc .solve true
        exact ⟨hb.solver, hb.seed, hb.round, hb.sent, hb.waits⟩
      · rw [if_neg hn, QuapiSolver.makeSolvable_of_not hn]
        simp only [if_true, if_pos hcan]
        exact begins_proceed hpc hcan .solve true

/-! ### The other acts -/

/-- In the poll loop and behind it, the call on its way is a solve. -/
def Working (x : System) : Prop := (∃ d, x.pc = .polling d) ∨ ∃ retcode, x.pc = .finishing retcode

theorem Working.settled (h : x.Working) : x.settled = x.solver.endSolve := by
  rcases h with ⟨d, h⟩ | ⟨retcode, h⟩ <;> rw [System.settled, h]

theorem Working.addressed (h : x.Working) : x.addressed = x.sent := by
  rcases h with ⟨d, h⟩ | ⟨retcode, h⟩ <;> rw [System.addressed, owed, h] <;>
    exact List.append_nil _

theorem Working.waits (h : x.Working) : x.Waits := by
  constructor
  · intro pending hc
    rcases h with ⟨d, h⟩ | ⟨retcode, h⟩ <;> exact absurd (h.symm.trans hc) (by simp)
  · intro hc
    rcases h with ⟨d, h⟩ | ⟨retcode, h⟩ <;> exact absurd (h.symm.trans hc) (by simp)

/-- **What the library is about to have done** stays the same. -/
structure Same (x y : System) : Prop where
  solver : y.settled.bare = x.settled.bare
  sent : y.addressed = x.addressed
  round : y.round = x.round
  waits : y.Waits

/-- An act of another process. -/
theorem same_of_eq (hw : x.Waits) (hpc : y.pc = x.pc) (hsolver : y.solver = x.solver)
    (hsent : y.sent = x.sent) (hround : y.round = x.round) : Same x y := by
  refine ⟨?_, ?_, hround, ?_⟩
  · rw [settled, settled, hpc, hsolver]
  · rw [addressed, addressed, owed, owed, hpc, hsent, hround]
  · exact ⟨fun p h => hsolver ▸ hw.asked p (hpc ▸ h), fun h => hsolver ▸ hw.ready (hpc ▸ h)⟩

/-- An act within the poll loop. -/
theorem same_of_working (hx : x.Working) (hy : y.Working) (hsolver : y.solver = x.solver)
    (hsent : y.sent = x.sent) (hround : y.round = x.round) : Same x y :=
  ⟨by rw [hy.settled, hx.settled, hsolver], by rw [hy.addressed, hx.addressed, hsent], hround,
    hy.waits⟩

/-- A message decides whether to go on polling. -/
theorem working_afterMessage (d : PollData) (msg : QuapiMsg) :
    (∃ d', x.afterMessage d msg = .polling d') ∨ ∃ r, x.afterMessage d msg = .finishing r := by
  cases msg with
  | exitCode code =>
    rw [afterMessage]
    split
    · exact Or.inl ⟨_, rfl⟩
    · exact Or.inr ⟨_, rfl⟩
  | _ => exact Or.inr ⟨_, rfl⟩

theorem working_afterOutput (d : PollData) (n : ℕ) :
    (∃ d', x.afterOutput d n = .polling d') ∨ ∃ r, x.afterOutput d n = .finishing r := by
  rw [afterOutput]
  split
  · exact Or.inr ⟨_, rfl⟩
  · exact Or.inl ⟨_, rfl⟩

/-- The report that a call waits for. -/
theorem same_report {toParent : List (QuapiMsg × ℕ)} {log : List Event} {pid : ℤ} (hw : x.Waits)
    (hpc : x.pc = .forking pending) : Same x (System.proceed { x with
      toParent := toParent
      solver := x.solver.gotReport pid
      log := log } pending) := by
  have hs : x.solver.state = .inputAssumptions := hw.asked pending hpc
  have hcan : (x.solver.gotReport pid).canSolve := Or.inr (Or.inr hs)
  cases pending with
  | assume lit =>
    refine ⟨?_, ?_, rfl, fun _ h => LibraryPc.noConfusion h, fun _ => Or.inr (Or.inr rfl)⟩
    · rw [settled, settled, hpc]
      rfl
    · rw [addressed, addressed, owed, owed, hpc]
      exact List.append_nil _
  | solve =>
    rw [proceed, if_pos hcan]
    refine ⟨?_, ?_, rfl, fun _ h => LibraryPc.noConfusion h, fun h => LibraryPc.noConfusion h⟩
    · rw [settled, settled, hpc]
      rfl
    · rw [addressed, addressed, owed, owed, hpc]
      exact List.append_nil _

/-- A callback is set. -/
theorem same_setStdoutCb (hw : x.Waits) (cb : Option (List Char → ℤ)) (listens : Bool) :
    Same x { x with solver := { x.solver with stdoutCb := cb }, listens := listens } := by
  refine ⟨?_, ?_, rfl, ⟨hw.asked, hw.ready⟩⟩
  · rw [settled, settled]
    rcases x.pc with _ | pending | _ | _
    case forking => cases pending <;> rfl
    all_goals rfl
  · rw [addressed, addressed, owed, owed]

/-- **No other act changes what the library is about to have done.** -/
theorem Does.same (h : Does x a y) (hw : x.Waits) (ha : ∀ c, a ≠ .call c)
    (hcb : ∀ cb, a ≠ .setStdoutCb cb) : Same x y := by
  cases h with
  | pass solver listens msgs hpid hregexes hcb' hstate hmsgs hlistens hact =>
    rcases hact with ⟨c, hc, -⟩ | ⟨cb, hc⟩
    · exact absurd hc (ha c)
    · exact absurd hc (hcb cb)
  | reset hpc hstate => exact absurd rfl (ha _)
  | ask pending hpc hneeds => exact absurd rfl (ha _)
  | proceed pending hpc hneeds => exact absurd rfl (ha _)
  | report pending pid source rest hpc hparent => exact same_report hw hpc
  | message d msg source rest hpc hchild hparent =>
    exact same_of_working (Or.inl ⟨d, hpc⟩) (working_afterMessage _ msg) rfl rfl rfl
  | poll d hpc hnone => exact same_of_working (Or.inl ⟨d, hpc⟩) (Or.inl ⟨_, rfl⟩) rfl rfl rfl
  | abort d hpc hchild heventfd hrequests =>
    rcases x.abortSolverchild_cases with heq | ⟨pid, heq⟩ <;> rw [heq] <;>
      exact same_of_working (Or.inl ⟨d, hpc⟩) (Or.inr ⟨_, rfl⟩) rfl rfl rfl
  | output n d hpc hchild heventfd hsolverchild hn =>
    exact same_of_working (Or.inl ⟨d, hpc⟩) (working_afterOutput _ n) rfl rfl rfl
  | finish retcode hpc =>
    have hx : x.Working := Or.inr ⟨retcode, hpc⟩
    refine ⟨by rw [hx.settled]; rfl, ?_, rfl, fun _ h => LibraryPc.noConfusion h,
      fun _ => Or.inr (Or.inl rfl)⟩
    rw [hx.addressed]
    exact List.append_nil _
  | _ => exact same_of_eq hw rfl rfl rfl rfl

/-- **What the seeding process has read and what is on its way** stays the same, but for what a
call writes. -/
theorem Does.read (h : Does x a y) (hw : x.Waits) (ha : ∀ c, a ≠ .call c)
    (hcb : ∀ cb, a ≠ .setStdoutCb cb) : (g.next x a).read ++ y.toSeed = g.read ++ x.toSeed := by
  cases h with
  | pass solver listens msgs hpid hregexes hcb' hstate hmsgs hlistens hact =>
    rcases hact with ⟨c, hc, -⟩ | ⟨cb, hc⟩
    · exact absurd hc (ha c)
    · exact absurd hc (hcb cb)
  | reset hpc hstate => exact absurd rfl (ha _)
  | ask pending hpc hneeds => exact absurd rfl (ha _)
  | proceed pending hpc hneeds => exact absurd rfl (ha _)
  | report pending pid source rest hpc hparent =>
    cases pending with
    | assume lit => rfl
    | solve =>
      rw [System.proceed, if_pos]
      · rfl
      · exact Or.inr (Or.inr (hw.asked _ hpc))
  | abort d hpc hchild heventfd hrequests =>
    rcases x.abortSolverchild_cases with heq | ⟨pid, heq⟩ <;> rw [heq] <;> rfl
  | seedRead msg rest hseed htoSeed hmsg =>
    simp only [History.next, htoSeed, List.take_succ_cons, List.take_zero, List.append_assoc,
      List.singleton_append]
  | seedFork pid wait rest hseed htoSeed hfree =>
    simp only [History.next, fork, htoSeed, List.take_succ_cons, List.take_zero, List.append_assoc,
      List.singleton_append]
  | _ => rfl

/-- **The seeds**: the seeding process forks at every FORK that it reads. -/
structure Seeded (x : System × History) : Prop where
  born : x.1.children.length = forks x.2.read
  seeds : x.2.seeds = (List.range' 1 (forks x.2.read)).map fun k => uptoFork k x.2.read

theorem seeded_start (s : QuapiSolver) : Seeded (start s, History.start s) := ⟨rfl, rfl⟩

theorem length_exit (x : System) (pid : ℤ) (status : ExitStatus) :
    (x.exit pid status).children.length = x.children.length := List.length_map _

theorem length_abortSolverchild (x : System) :
    x.abortSolverchild.children.length = x.children.length := by
  rcases x.abortSolverchild_cases with heq | ⟨pid, heq⟩ <;> rw [heq]
  exact length_exit x pid _

/-- Children are forked by the seeding process only. -/
theorem Does.length (h : Does x a y) (ha : ∀ pid, a ≠ .seedFork pid) :
    y.children.length = x.children.length := by
  cases h with
  | reset hpc hstate => exact length_abortSolverchild x
  | proceed pending hpc hneeds | report pending pid source rest hpc hparent =>
    cases pending with
    | assume lit => rfl
    | solve =>
      rw [System.proceed]
      split <;> rfl
  | abort d hpc hchild heventfd hrequests => exact length_abortSolverchild x
  | seedFork pid wait rest hseed htoSeed hfree => exact absurd rfl (ha pid)
  | destruct pid c hrunning hsend => exact List.length_map _
  | exit pid status c hrunning => exact length_exit x pid status
  | _ => rfl

/-- What is read later leaves the seeds as they are. -/
theorem seeds_append (msgs more : List QuapiMsg) :
    ((List.range' 1 (forks msgs)).map fun k => uptoFork k (msgs ++ more)) =
      (List.range' 1 (forks msgs)).map fun k => uptoFork k msgs := by
  refine List.map_congr_left ?_
  intro k hk
  obtain ⟨-, hk⟩ := List.mem_range'_1.mp hk
  exact uptoFork_append (by omega) more

theorem Does.seeded (h : Does x a y) (hx : Seeded (x, g)) : Seeded (y, g.next x a) := by
  obtain ⟨hborn, hseeds⟩ := hx
  have hsame : (∀ pid, a ≠ .seedFork pid) → g.next x a = g → Seeded (y, g.next x a) := by
    intro ha hg
    rw [hg]
    exact ⟨(h.length ha).trans hborn, hseeds⟩
  cases h with
  | seedRead msg rest hseed htoSeed hmsg =>
    have hnext : g.next x .seedRead = ⟨g.read ++ [msg], g.seeds⟩ := by
      simp only [History.next, htoSeed, List.take_succ_cons, List.take_zero]
    have hforks : forks (g.read ++ [msg]) = forks g.read := by
      rw [forks_append, forks_cons, if_neg (Bool.eq_false_iff.mp hmsg)]
      rfl
    rw [hnext]
    refine ⟨hborn.trans hforks.symm, ?_⟩
    rw [hforks, seeds_append]
    exact hseeds
  | seedFork pid wait rest hseed htoSeed hfree =>
    have hnext : g.next x (.seedFork pid) =
        ⟨g.read ++ [.fork wait], g.seeds ++ [g.read ++ [.fork wait]]⟩ := by
      simp only [History.next, htoSeed, List.take_succ_cons, List.take_zero]
    have hforks : forks (g.read ++ [.fork wait]) = forks g.read + 1 := by
      rw [forks_append]
      rfl
    rw [hnext]
    refine ⟨?_, ?_⟩
    · change (x.children ++ [_]).length = _
      rw [List.length_append, List.length_singleton, hforks]
      exact congrArg (· + 1) hborn
    · change g.seeds ++ [_] = (List.range' 1 (forks (g.read ++ [.fork wait]))).map _
      rw [hforks, List.range'_concat, List.map_append, seeds_append, Nat.one_mul, Nat.add_comm 1]
      refine congrArg₂ (· ++ ·) hseeds ?_
      rw [List.map_singleton, uptoFork_concat rfl]
  | pass solver listens msgs hpid hregexes hcb hstate hmsgs hlistens hact =>
    rcases hact with ⟨c, rfl, -⟩ | ⟨cb, rfl⟩ <;> exact hsame (fun pid => Act.noConfusion) rfl
  | _ => exact hsame (fun pid => Act.noConfusion) rfl

end

end System

/-! ### The calls, one after the other -/

namespace Api

/-- What a call writes to the children is for the child of the round. -/
def address (env : Env) (a : Api) (c : ApiCall) (sent : List (QuapiMsg × ℕ)) :
    List (QuapiMsg × ℕ) :=
  match a.call env c with
  | none => sent
  | some (_, b) => sent ++ (b.toChild.drop a.toChild.length).map fun m => (m, forks b.toSeed)

/-- One call, with what it writes to the children. -/
def tracked (env : Env) :
    Api × List (QuapiMsg × ℕ) → ApiCall → Option (Api × List (QuapiMsg × ℕ)) :=
  Machine.track (fun a c => (a.call env c).map Prod.snd) (address env)

/-- **A call with its effect** writes to both streams. -/
theorem tracked_of_effect {env : Env} {a : Api} {c : ApiCall} {e : Effect}
    (sent : List (QuapiMsg × ℕ))
    (he : a.solver.call env.allowMissing c (Io.ok (env.pid a.toSeed)) = some e) :
    tracked env (a, sent) c = some (⟨e.solver, a.toSeed ++ e.toSeed, a.toChild ++ e.toChild⟩,
      sent ++ e.toChild.map fun m => (m, forks (a.toSeed ++ e.toSeed))) := by
  have hcall : a.call env c =
      some (e.returned, ⟨e.solver, a.toSeed ++ e.toSeed, a.toChild ++ e.toChild⟩) := by
    rw [call, he]
    rfl
  refine Machine.track_eq_some.mpr ⟨?_, ?_⟩
  · simp only [hcall, Option.map_some]
  · simp only [address, hcall, List.drop_left]

section

variable {env : Env} {a b : Api} {sent sent' : List (QuapiMsg × ℕ)}

/-- **One call of the tracked library.** -/
theorem tracked_eq_some {c : ApiCall} : tracked env (a, sent) c = some (b, sent') ↔
    ∃ r, a.call env c = some (r, b) ∧
      sent' = sent ++ (b.toChild.drop a.toChild.length).map fun m => (m, forks b.toSeed) := by
  constructor
  · intro h
    obtain ⟨hb, hsent⟩ := Machine.track_eq_some.mp h
    obtain ⟨⟨r, b'⟩, hcall, rfl⟩ := Option.map_eq_some_iff.mp hb
    refine ⟨r, hcall, ?_⟩
    simpa only [address, hcall] using hsent
  · rintro ⟨r, hcall, rfl⟩
    refine Machine.track_eq_some.mpr ⟨?_, ?_⟩
    · simp only [hcall, Option.map_some]
    · simp only [address, hcall]

/-- What the calls address is beside what they write. -/
theorem calls_of_tracked {cs : List ApiCall}
    (h : Machine.run (tracked env) (a, sent) cs = some (b, sent')) :
    a.calls env cs = some b := (Machine.run_track sent).mp ⟨sent', h⟩

/-- What is addressed to the children is what is written to them. -/
theorem sent_of_tracked {cs : List ApiCall} (hsent : sent.map Prod.fst = a.toChild)
    (h : Machine.run (tracked env) (a, sent) cs = some (b, sent')) :
    sent'.map Prod.fst = b.toChild := by
  refine Machine.invariant (I := fun x => x.2.map Prod.fst = x.1.toChild) ?_ h hsent
  rintro ⟨a, sent⟩ c ⟨b, sent'⟩ hstep hsent
  obtain ⟨r, hcall, rfl⟩ := tracked_eq_some.mp hstep
  obtain ⟨e, -, hb⟩ := Option.map_eq_some_iff.mp hcall
  obtain ⟨-, rfl⟩ := Prod.mk.inj hb
  change (sent ++ ((a.toChild ++ e.toChild).drop a.toChild.length).map _).map Prod.fst =
    a.toChild ++ e.toChild
  rw [List.drop_left, List.map_append, List.map_map, hsent]
  exact congrArg _ (List.map_id _)

end

end Api

namespace System

/-! ### The refinement -/

/-- **A system behind some calls**: once the call on its way is over, its library is theirs, and
the messages are theirs: those the seeding process has read, those it will read, and those for
the children. -/
structure Behind (x : System × History) (a : Api × List (QuapiMsg × ℕ)) : Prop where
  solver : x.1.settled.bare = a.1.solver.bare
  written : x.2.read ++ x.1.toSeed = a.1.toSeed
  round : x.1.round = forks a.1.toSeed
  sent : x.1.addressed = a.2
  waits : x.1.Waits

section

variable {x y : System × History} {a : Act} {b : Api × List (QuapiMsg × ℕ)} {env : Env}
  {s : QuapiSolver} {acts : List Act}

theorem behind_start (hs : s.canSolve) : Behind (start s, History.start s) (Api.start s, []) :=
  ⟨rfl, rfl, rfl, rfl, ⟨fun _ h => LibraryPc.noConfusion h, fun _ => hs⟩⟩

/-- **A call is made in one go** by the abstract library. -/
theorem Behind.call {c : ApiCall} (h : Behind x b)
    (hy : tracked env.allowMissing x (.call c) = some y) :
    ∃ b', Api.tracked env b c = some b' ∧ Behind y b' := by
  obtain ⟨hstep, hg⟩ := Machine.track_eq_some.mp hy
  rw [step] at hstep
  split at hstep
  case h_2 => exact absurd hstep (by simp)
  case h_1 hpc =>
    obtain ⟨e, he, hbegins⟩ := call_begins hpc h.waits hstep
    have hbare : x.1.solver.bare = b.1.solver.bare := by
      rw [← h.solver, settled_of_idle hpc]
    obtain ⟨f, hf, hsolver, hseed, hchild⟩ := QuapiSolver.call_of_bare hbare he
      (q := env.pid b.1.toSeed)
    have hwritten : y.2.read ++ y.1.toSeed = b.1.toSeed ++ f.toSeed := by
      rw [hg, hbegins.seed, ← hseed, ← h.written, List.append_assoc]
      rfl
    have hround : y.1.round = forks (b.1.toSeed ++ f.toSeed) := by
      rw [hbegins.round, h.round, hseed, forks_append]
    refine ⟨_, Api.tracked_of_effect b.2 hf, hbegins.solver.trans hsolver, hwritten, hround, ?_,
      hbegins.waits⟩
    rw [hbegins.sent, h.sent, hchild, hround]

/-- **Every other act** is one the abstract library does not see. -/
theorem Behind.other (h : Behind x b) (ha : ∀ c, a ≠ .call c)
    (hy : tracked env.allowMissing x a = some y) : Behind y b := by
  obtain ⟨hstep, hg⟩ := Machine.track_eq_some.mp hy
  have hsame : Same x.1 y.1 ∧ y.2.read ++ y.1.toSeed = x.2.read ++ x.1.toSeed := by
    by_cases hcb : ∃ cb, a = .setStdoutCb cb
    · obtain ⟨cb, rfl⟩ := hcb
      have hy' := Option.some.inj hstep
      rw [hg, ← hy']
      exact ⟨same_setStdoutCb h.waits cb true, rfl⟩
    · have hcb' := not_exists.mp hcb
      have hdoes := does_of_step hstep
      rw [hg]
      exact ⟨hdoes.same h.waits ha hcb', hdoes.read h.waits ha hcb'⟩
  obtain ⟨hs, hread⟩ := hsame
  exact ⟨hs.solver.trans h.solver, hread.trans h.written, hs.round.trans h.round,
    hs.sent.trans h.sent, hs.waits⟩

/-- **The system refines the sequence of its calls.** In every interleaving, wherever the library
is terminated and whatever the other processes do, the messages that the seeding process has read
and those it will read are what the calls write one after the other, and so are those for the
children, each for the child of its round. -/
theorem calls_refine (hs : s.canSolve)
    (hrun : Machine.run (tracked env.allowMissing) (start s, History.start s) acts = some x) :
    ∃ b, Machine.run (Api.tracked env) (Api.start s, []) (acts.flatMap Act.calls) = some b ∧
      Behind x b ∧ Seeded x := by
  have hstep : ∀ x a y b, tracked env.allowMissing x a = some y → Behind x b ∧ Seeded x →
      ∃ b', Machine.run (Api.tracked env) b a.calls = some b' ∧ Behind y b' ∧ Seeded y := by
    intro x a y b hy hx
    obtain ⟨hdoes, hg⟩ := Machine.track_eq_some.mp hy
    have hseeded : Seeded y := by
      have h := (does_of_step hdoes).seeded hx.2
      rwa [← hg] at h
    by_cases ha : ∃ c, a = .call c
    · obtain ⟨c, rfl⟩ := ha
      obtain ⟨b', hb', hbehind⟩ := hx.1.call hy
      exact ⟨b', Machine.run_cons.mpr ⟨b', hb', rfl⟩, hbehind, hseeded⟩
    · have hnone : a.calls = [] := by
        cases a with
        | call c => exact absurd ⟨c, rfl⟩ ha
        | _ => rfl
      rw [hnone]
      exact ⟨b, rfl, hx.1.other (not_exists.mp ha) hy, hseeded⟩
  exact Machine.simulation hstep hrun ⟨behind_start hs, seeded_start s⟩

/-- The seed of the child of a round is what is written up to its FORK. -/
theorem Seeded.seed {b : Api × List (QuapiMsg × ℕ)} (h : Seeded x) (hb : Behind x b) {i : ℕ}
    (hi : i < x.1.children.length) : x.2.seeds[i]? = some (uptoFork (i + 1) b.1.toSeed) := by
  have hle : i + 1 ≤ forks x.2.read := h.born ▸ hi
  have hlt : i < (List.range' 1 (forks x.2.read)).length := by rwa [List.length_range']
  rw [h.seeds, List.getElem?_map, List.getElem?_eq_getElem hlt, List.getElem_range', ← hb.written,
    uptoFork_append hle, Option.map_some, Nat.one_mul, Nat.add_comm]

/-- **Any interleaving comes to what the calls do in one go**: what has been written to the seeding
process, read or not, is what they write, and so is what has been written to the children, but for
what the call on its way still owes. Where no call is on its way, the library is in their state,
but for the pid and the callback. And each child has inherited what is written up to its FORK. -/
theorem refines_calls (hs : s.canSolve)
    (hrun : Machine.run (tracked env.allowMissing) (start s, History.start s) acts = some x) :
    ∃ b, (Api.start s).calls env (acts.flatMap Act.calls) = some b ∧
      x.2.read ++ x.1.toSeed = b.toSeed ∧ (x.1.sent.map Prod.fst) ++ x.1.owed = b.toChild ∧
      (x.1.pc = .idle → x.1.solver.bare = b.solver.bare ∧ x.1.sent.map Prod.fst = b.toChild) ∧
      ∀ i < x.1.children.length, x.2.seeds[i]? = some (uptoFork (i + 1) b.toSeed) := by
  obtain ⟨⟨b, sent⟩, hb, hbehind, hseeded⟩ := calls_refine hs hrun
  have hsent : x.1.addressed.map Prod.fst = b.toChild :=
    hbehind.sent ▸ Api.sent_of_tracked rfl hb
  refine ⟨b, Api.calls_of_tracked hb, hbehind.written, ?_, ?_, fun i hi => hseeded.seed hbehind hi⟩
  · rw [← hsent, addressed, List.map_append, List.map_map]
    exact congrArg _ (List.map_id _).symm
  · intro hidle
    rw [← hbehind.solver, settled_of_idle hidle, ← hsent, addressed_of_idle hidle]
    exact ⟨rfl, rfl⟩

/-- **The schedule does not matter.** Two interleavings of the same calls, wherever the library is
terminated in them and whatever the other processes do, write the same: the same messages to the
seeding process and the same messages to the children, each for the child of the same round; and
the children of a round have inherited the same in both. -/
theorem schedules_agree {acts' : List Act} {x' : System × History} (hs : s.canSolve)
    (hrun : Machine.run (tracked env.allowMissing) (start s, History.start s) acts = some x)
    (hrun' : Machine.run (tracked env.allowMissing) (start s, History.start s) acts' = some x')
    (hcalls : acts.flatMap Act.calls = acts'.flatMap Act.calls) :
    x.2.read ++ x.1.toSeed = x'.2.read ++ x'.1.toSeed ∧ x.1.addressed = x'.1.addressed ∧
      (x.1.pc = .idle → x'.1.pc = .idle →
        x.1.sent = x'.1.sent ∧ x.1.solver.bare = x'.1.solver.bare) ∧
      ∀ i < x.1.children.length, i < x'.1.children.length → x.2.seeds[i]? = x'.2.seeds[i]? := by
  obtain ⟨b, hb, hbehind, hseeded⟩ := calls_refine hs hrun
  obtain ⟨b', hb', hbehind', hseeded'⟩ := calls_refine hs hrun'
  rw [hcalls] at hb
  obtain rfl := Option.some.inj (hb.symm.trans hb')
  refine ⟨hbehind.written.trans hbehind'.written.symm, hbehind.sent.trans hbehind'.sent.symm,
    ?_, ?_⟩
  · intro hidle hidle'
    rw [← settled_of_idle hidle, ← settled_of_idle hidle', ← addressed_of_idle hidle,
      ← addressed_of_idle hidle']
    exact ⟨hbehind.sent.trans hbehind'.sent.symm, hbehind.solver.trans hbehind'.solver.symm⟩
  · intro i hi hi'
    rw [hseeded.seed hbehind hi, hseeded'.seed hbehind' hi']

end

/-! ### A run to look at -/

/-- `∀x₁∃x₂` with the clause `x₁ ∨ x₂`, solved under the assumption `-x₁`. -/
def forallExistsActs : List Act :=
  [.call (.quantify (lit (-1))), .call (.quantify (lit 2)), .call (.add (lit 1)),
    .call (.add (lit 2)), .call (.add 0), .call (.assume (lit (-1))), .seedRead, .seedRead,
    .seedRead, .seedRead, .seedRead, .seedFork 7, .seedReport, .readReport, .call .solve,
    .take 7 3, .exit 7 (.exited 10), .seedReap, .poll, .handle 0, .finish]

/-- What the only child inherits there. -/
def forallExistsSeed : List QuapiMsg :=
  [.header quapiApiVersion (small none).header, .quantifier (lit 1), .quantifier (lit 2),
    .literal (lit 1), .literal (lit 2), .literal 0, .fork true]

theorem forallExists_tracked : ∃ x,
    Machine.run (tracked false) (start (small none), History.start (small none))
        forallExistsActs = some x ∧
      x.1.children = [⟨1, 7, false, some (.exited 10)⟩] ∧
      x.1.stream.readers =
        [⟨7, false, [(.literal (lit (-1)), 1), (.literal 0, 1), (.solve, 1)]⟩] ∧
      x.2.seeds = [forallExistsSeed] ∧ .returned 1 10 ∈ x.1.log := by
  have hrun : (Machine.run (tracked false) (start (small none), History.start (small none))
      forallExistsActs).map (fun x => (x.1.children, x.1.stream.readers, x.2.seeds, x.1.log)) =
    some ([⟨1, 7, false, some (.exited 10)⟩],
      [⟨7, false, [(.literal (lit (-1)), 1), (.literal 0, 1), (.solve, 1)]⟩],
      [forallExistsSeed],
      [.report 1 7 1, .message 1 (.exitCode 10) 1 (some 7), .returned 1 10]) := rfl
  obtain ⟨x, hx, hvals⟩ := Option.map_eq_some_iff.mp hrun
  simp only [Prod.mk.injEq] at hvals
  obtain ⟨hchildren, hreaders, hseeds, hlog⟩ := hvals
  exact ⟨x, hx, hchildren, hreaders, hseeds, by rw [hlog]; decide⟩

theorem forallExists_refines : ∃ x b,
    Machine.run (tracked false) (start (small none), History.start (small none))
        forallExistsActs = some x ∧
      (Api.start (small none)).calls plainEnv [.quantify (lit (-1)), .quantify (lit 2),
        .add (lit 1), .add (lit 2), .add 0, .assume (lit (-1)), .solve] = some b ∧
      x.2.read ++ x.1.toSeed = b.toSeed ∧ (x.1.sent.map Prod.fst) ++ x.1.owed = b.toChild := by
  obtain ⟨x, hx, -⟩ := forallExists_tracked
  obtain ⟨b, hb, hseed, hchild, -⟩ := refines_calls (Or.inl rfl)
    (show Machine.run (tracked plainEnv.allowMissing) _ _ = some x from hx)
  exact ⟨x, b, hx, hb, hseed, hchild⟩

/-- The same calls, with a seeding process that keeps up with them. -/
def promptActs : List Act :=
  [.call (.quantify (lit (-1))), .seedRead, .call (.quantify (lit 2)), .seedRead,
    .call (.add (lit 1)), .seedRead, .call (.add (lit 2)), .seedRead, .call (.add 0), .seedRead,
    .call (.assume (lit (-1))), .seedFork 9, .seedReport, .readReport,
    .call .solve, .take 9 3]

theorem prompt_agrees : ∃ x x',
    Machine.run (tracked false) (start (small none), History.start (small none))
        forallExistsActs = some x ∧
      Machine.run (tracked false) (start (small none), History.start (small none))
        promptActs = some x' ∧ x.1.addressed = x'.1.addressed := by
  obtain ⟨x, hx, -⟩ := forallExists_tracked
  have hrun : (Machine.run (tracked false) (start (small none), History.start (small none))
      promptActs).isSome = true := rfl
  obtain ⟨x', hx'⟩ := Option.isSome_iff_exists.mp hrun
  obtain ⟨-, haddressed, -⟩ := schedules_agree (Or.inl rfl)
    (show Machine.run (tracked plainEnv.allowMissing) _ _ = some x from hx) hx' rfl
  exact ⟨x, x', hx, hx', haddressed⟩

end System

end QuAPI
