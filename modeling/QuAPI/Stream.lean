import QuAPI.Library
import QuAPI.Machine
import QuAPI.SharedPipe

/-!
# The stream of the solving children

The library calls one after the other, with everything that the environment may do in
between: the stream is flushed, a child takes messages off it, a child dies. All children
share one pipe and one buffer (`SharedPipe.Pipe`), and what a killed child has not taken
stays there. What a padded child reads behind its SOLVE is left out here; it has a step of its
own in `QuAPI.System`.

A call may fail: the FORK may not be written, its report may not be read, the stream may
take only some of the messages (`QuAPI.CallIo`). A report that was not read stays in its
pipe, and the next handshake reads it.

Three fields count what has been asked of the library, for the statements only: the
clauses that have been closed, the solves that have returned, and for each child how many
solves had returned when it was forked. Each message of the stream carries the number of
solves before it.
-/

namespace QuAPI

/-- A message of the stream, with the number of solves before it. -/
abbrev Letter := QuapiMsg × ℕ

/-- A child reads up to its SOLVE: there it closes its input, unless it has been padded. -/
def isSolve (l : Letter) : Bool := decide (l.1 = .solve)

/-- What the environment decides about one call. -/
structure CallIo where
  /-- The FORK is written. -/
  forkWritten : Bool
  /-- The report is read. -/
  reportRead : Bool
  /-- The pid of the new child. -/
  pid : ℤ
  /-- How many messages the stream of the children takes. -/
  childWrites : ℕ
deriving DecidableEq

/-- The library, and the children on their stream. -/
structure Stream where
  solver : QuapiSolver
  /-- The pids of the reports that have not been read. -/
  reports : List ℤ
  /-- The stream, with the children as its readers. -/
  pipe : SharedPipe.Pipe Letter ℤ
  /-- The clauses that have been closed. -/
  base : ℕ
  /-- The solves that have returned. -/
  solves : ℕ
  /-- For each child, the solves that had returned when it was forked. -/
  births : List ℕ

namespace Stream

/-- What happens in a session. -/
inductive Act where
  | call (c : ApiCall) (io : CallIo)
  /-- The first `n` messages of the buffer are flushed, because it was full. -/
  | flush (n : ℕ)
  /-- A child reads `n` messages. -/
  | take (pid : ℤ) (n : ℕ)
  /-- A child exits, or is killed by a terminate. -/
  | exit (pid : ℤ)
deriving DecidableEq

/-- A session after `quapi_init`. -/
def start (s : QuapiSolver) : Stream := ⟨s, [], ⟨[], [], []⟩, 0, 0, []⟩

/-- The handshake of a call, if it has one: the report that is read is the first in the
pipe. -/
def handshake (x : Stream) (io : CallIo) : Handshake :=
  if io.forkWritten then
    if io.reportRead then .forked (x.reports.headD io.pid) else .reportFailed
  else .writeFailed

/-- A message that makes the seeding process fork. -/
def isFork : QuapiMsg → Bool
  | .fork _ => true
  | _ => false

/-- The stream once a call has killed the child that the library knows. -/
def abortSolverchild (p : SharedPipe.Pipe Letter ℤ) : Option ℤ → SharedPipe.Pipe Letter ℤ
  | none => p
  | some pid => p.close pid

/-- The children and their stream after a call. -/
def pipeAfter (x : Stream) (c : ApiCall) (io : CallIo) (e : Effect) :
    SharedPipe.Pipe Letter ℤ :=
  let p := if e.toSeed.any isFork then x.pipe.start io.pid else x.pipe
  let p := if c = .reset ∧ x.solver.state = .inputAssumptions then
      abortSolverchild p x.solver.solverchildPid
    else p
  let p := p.write (e.toChild.map fun msg => (msg, x.solves))
  if .solve ∈ e.toChild then p.flush p.buffer.length else p

/-- The session after a call. -/
def afterCall (x : Stream) (c : ApiCall) (io : CallIo) (e : Effect) : Stream where
  solver := e.solver
  reports :=
    if e.toSeed.any isFork then
      if io.reportRead then (x.reports ++ [io.pid]).tail else x.reports ++ [io.pid]
    else x.reports
  pipe := x.pipeAfter c io e
  base := if c = .add 0 then x.base + 1 else x.base
  solves := if c = .solve then x.solves + 1 else x.solves
  births := if e.toSeed.any isFork then x.births ++ [x.solves] else x.births

/-- One act: `none` where an assertion of the library fails, where a pid is still in use,
and where the messages are not there. -/
def step (allowMissing : Bool) (x : Stream) : Act → Option Stream
  | .call c io =>
    (x.solver.call allowMissing c ⟨x.handshake io, io.childWrites⟩).bind fun e =>
      if e.toSeed.any isFork ∧ SharedPipe.Reading isSolve x.pipe.readers io.pid then none
      else some (x.afterCall c io e)
  | .flush n => some { x with pipe := x.pipe.flush n }
  | .take pid n => (x.pipe.take isSolve pid n).map fun p => { x with pipe := p }
  | .exit pid => some { x with pipe := x.pipe.close pid }

section

variable {allowMissing : Bool} {x y : Stream} {c : ApiCall} {io : CallIo}

/-- **A call** has the effect it has on the library. -/
theorem step_call (h : x.step allowMissing (.call c io) = some y) : ∃ e,
    x.solver.call allowMissing c ⟨x.handshake io, io.childWrites⟩ = some e ∧
      ¬(e.toSeed.any isFork ∧ SharedPipe.Reading isSolve x.pipe.readers io.pid) ∧
      y = x.afterCall c io e := by
  obtain ⟨e, he, hy⟩ := Option.bind_eq_some_iff.mp h
  split at hy
  case isTrue => exact absurd hy (by simp)
  case isFalse hc => exact ⟨e, he, hc, (Option.some.inj hy).symm⟩

end

end Stream

/-! ### What a call asks for -/

namespace QuapiSolver

variable {s : QuapiSolver} {allowMissing : Bool} {c : ApiCall} {io : Io} {e : Effect}

/-- A call that asks for a new child. -/
def AsksFork (s : QuapiSolver) (allowMissing : Bool) : ApiCall → Prop
  | .assume lit => s.needsFork ∧ lit ≠ 0 ∧ s.HasRoom
  | .solve => s.needsFork ∧ ¬s.Refuses allowMissing
  | _ => False

instance (s : QuapiSolver) (allowMissing : Bool) : ∀ c, Decidable (s.AsksFork allowMissing c)
  | .assume lit => inferInstanceAs (Decidable (s.needsFork ∧ lit ≠ 0 ∧ s.HasRoom))
  | .solve => inferInstanceAs (Decidable (s.needsFork ∧ ¬s.Refuses allowMissing))
  | .quantify _ => isFalse id
  | .add _ => isFalse id
  | .reset => isFalse id

/-- A solve that comes to its SOLVE. -/
def SendsSolve (s : QuapiSolver) (allowMissing : Bool) (io : Io) : Prop :=
  ¬s.Refuses allowMissing ∧ (s.makeSolvable io.fork).1 = true ∧ 1 ≤ io.childWrites

instance (s : QuapiSolver) (allowMissing : Bool) (io : Io) :
    Decidable (s.SendsSolve allowMissing io) :=
  inferInstanceAs (Decidable (_ ∧ _))

theorem makeSolvable_toSeed {k : Handshake} (h : (s.makeSolvable k).2.2.any Stream.isFork = true) :
    s.needsFork := by
  by_contra hn
  rw [makeSolvable_of_not hn] at h
  exact absurd h (by simp)

/-- **Only a call that asks for a child forks one.** -/
theorem asksFork_of_call (he : s.call allowMissing c io = some e)
    (hf : e.toSeed.any Stream.isFork = true) : s.AsksFork allowMissing c := by
  cases c with
  | quantify lit =>
    change s.quapiQuantify lit = some e at he
    rw [quapiQuantify] at he
    split at he
    · obtain rfl := Option.some.inj he
      exact absurd hf (by simp [Stream.isFork])
    · exact absurd he (by simp)
  | add lit =>
    change s.quapiAdd lit = some e at he
    rw [quapiAdd] at he
    split at he
    · obtain rfl := Option.some.inj he
      exact absurd hf (by simp [Stream.isFork])
    · exact absurd he (by simp)
  | assume lit =>
    rcases quapiAssume_cases he with ⟨-, rfl⟩ | ⟨-, -, rfl⟩ | ⟨h0, hroom, -, rfl⟩ |
      ⟨h0, hroom, -, -, rfl⟩ | ⟨h0, hroom, -, rfl⟩
    · exact absurd hf (by simp)
    · exact absurd hf (by simp)
    · exact ⟨makeSolvable_toSeed hf, h0, hroom⟩
    · exact ⟨makeSolvable_toSeed hf, h0, hroom⟩
    · exact ⟨makeSolvable_toSeed hf, h0, hroom⟩
  | reset =>
    obtain rfl := Option.some.inj he
    rw [quapiResetAssumptions] at hf
    split at hf <;> exact absurd hf (by simp)
  | solve =>
    obtain rfl := Option.some.inj he
    rcases s.quapiSolve_cases allowMissing io with ⟨-, hs⟩ | ⟨hr, -, hs⟩ | ⟨hr, -, -, hs⟩ |
      ⟨hr, -, -, -, hs⟩ <;> rw [hs] at hf
    · exact absurd hf (by simp)
    · exact ⟨makeSolvable_toSeed hf, hr⟩
    · exact ⟨makeSolvable_toSeed hf, hr⟩
    · exact ⟨makeSolvable_toSeed hf, hr⟩

/-- **Only a solve that comes to it sends SOLVE**, and it sends nothing else. -/
theorem toChild_of_call (hs : s.canSolve) (he : s.call allowMissing c io = some e) :
    (c ≠ .solve ∧ ∀ msg ∈ e.toChild, msg ≠ .solve) ∨ (c = .solve ∧ e.toChild = [.solve]) ∨
      (c = .solve ∧ e.toChild = [] ∧ ¬s.SendsSolve allowMissing io) := by
  cases c with
  | quantify lit =>
    change s.quapiQuantify lit = some e at he
    rw [quapiQuantify] at he
    split at he
    · obtain rfl := Option.some.inj he
      exact Or.inl ⟨by simp, List.forall_mem_nil _⟩
    · exact absurd he (by simp)
  | add lit =>
    change s.quapiAdd lit = some e at he
    rw [quapiAdd] at he
    split at he
    · obtain rfl := Option.some.inj he
      exact Or.inl ⟨by simp, List.forall_mem_nil _⟩
    · exact absurd he (by simp)
  | assume lit =>
    have hmsgs : ∀ msg ∈ [QuapiMsg.literal lit, .literal 0], msg ≠ .solve := by simp
    refine Or.inl ⟨by simp, ?_⟩
    intro msg hm
    rcases quapiAssume_cases he with ⟨-, rfl⟩ | ⟨-, -, rfl⟩ | ⟨-, -, -, rfl⟩ |
      ⟨-, -, -, -, rfl⟩ | ⟨-, -, -, rfl⟩
    · exact absurd hm List.not_mem_nil
    · exact absurd hm List.not_mem_nil
    · exact absurd hm List.not_mem_nil
    · exact hmsgs msg (List.mem_of_mem_take hm)
    · exact hmsgs msg hm
  | reset =>
    obtain rfl := Option.some.inj he
    refine Or.inl ⟨by simp, ?_⟩
    rw [quapiResetAssumptions]
    split <;> exact List.forall_mem_nil _
  | solve =>
    obtain rfl := Option.some.inj he
    refine Or.inr ?_
    rcases s.quapiSolve_cases allowMissing io with ⟨hr, hc⟩ | ⟨-, hf, hc⟩ | ⟨-, -, hw, hc⟩ |
      ⟨-, -, -, -, hc⟩
    · exact Or.inr ⟨rfl, by rw [hc], fun h => h.1 hr⟩
    · refine Or.inr ⟨rfl, by rw [hc], fun h => ?_⟩
      rw [h.2.1] at hf
      exact absurd hf (by simp)
    · refine Or.inr ⟨rfl, by rw [hc], fun h => hw ⟨?_, h.2.2⟩⟩
      rcases s.makeSolvable_cases io.fork with hm | hm | ⟨pid, hm⟩ <;> rw [hm]
      · exact hs
      · exact Or.inr (Or.inr rfl)
      · exact Or.inr (Or.inr rfl)
    · exact Or.inl ⟨rfl, by rw [hc]⟩

end QuapiSolver

end QuAPI
