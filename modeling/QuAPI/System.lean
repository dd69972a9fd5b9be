import QuAPI.Stream

/-!
# The whole system

The library, the seeding process and the children, with everything that runs between them:
the pipe to the seeding process, the stream that all children read, the pipe of messages
to the library, the standard output that all children share, and the eventfd of
`quapi_terminate`. An act is one step of one process, so that a run is any interleaving.
Nothing fails here: forks, reads and writes succeed, and a message is written in one piece.
What the text of a message is, and whether there is a case for it, is left open: the seeding
process takes every message, and any child may read on behind its SOLVE. The runs in which the
processes do what their runtimes do are those of `QuAPI.System.live`.

Where the calls of `QuAPI.QuapiSolver` wait, the library has a program counter
(`QuAPI.LibraryPc`): for the report of a fork (`make_solvable`), in the poll loop
(`solve_internal`), and behind it, where the state is still `WORKING`.

A *round* is the time from one FORK to the next. What is on a pipe carries the round it
belongs to, and `QuAPI.System.log` records what the library takes off its pipes; both
are there for the statements only.
-/

namespace QuAPI

/-! ### The processes -/

/-- How a child ends, as `waitpid` tells. -/
inductive ExitStatus where
  | exited (code : ℤ)
  | signaled
deriving DecidableEq

/-- The exit code that the seeding process reports. -/
def ExitStatus.exitCode : ExitStatus → ℤ
  | exited code => code
  | signaled => 0

/-- A solving child. -/
structure Child where
  /-- The round it was forked for, the first being `1`. -/
  round : ℕ
  pid : ℤ
  /-- `quapi_runtime_send_destructed_msg`, until it has been sent. -/
  sendDestructedMsg : Bool
  /-- How it has ended. -/
  status : Option ExitStatus
deriving DecidableEq

/-- What the seeding process does: it reads, or is inside `fork_solving_child`. -/
inductive SeedState where
  | reading
  /-- The child has been forked, its report not been written. -/
  | reporting (round : ℕ) (pid : ℤ) (wait : Bool)
  /-- It waits for the child to exit. -/
  | waiting (round : ℕ)
deriving DecidableEq

/-- The call that waits for the report of a fork. -/
inductive PendingCall where
  | assume (lit : Lit)
  | solve
deriving DecidableEq

/-- `S_data`, with the `revents` of the three descriptors. -/
structure PollData where
  child : Bool
  eventfd : Bool
  solverchild : Bool
  /-- The output that no line has been made of yet. -/
  buf : List Char
deriving DecidableEq

/-- Where the library is. -/
inductive LibraryPc where
  | idle
  /-- In `make_solvable`, before the report. -/
  | forking (pending : PendingCall)
  /-- In the poll loop. -/
  | polling (d : PollData)
  /-- Behind the poll loop, in state `WORKING`. -/
  | finishing (retcode : ℤ)
deriving DecidableEq

/-- What the library takes off its pipes, and the round it is in then. -/
inductive Event where
  /-- A message read while it waits for a report. -/
  | skipped (round : ℕ) (msg : QuapiMsg) (source : ℕ)
  /-- The report that it waits for. -/
  | report (round : ℕ) (pid : ℤ) (source : ℕ)
  /-- A message read in the poll loop, and the pid that the library knows then. -/
  | message (round : ℕ) (msg : QuapiMsg) (source : ℕ) (pid : Option ℤ)
  /-- Output read in the poll loop. -/
  | output (round : ℕ) (data : List (Char × ℕ))
  /-- The eventfd has been read: the rounds of the requests it counted. -/
  | aborted (round : ℕ) (requests : List ℕ)
  /-- A solve returns. -/
  | returned (round : ℕ) (retcode : ℤ)
deriving DecidableEq

/-- The library, the seeding process, the children, and the pipes between them. -/
structure System where
  solver : QuapiSolver
  pc : LibraryPc
  /-- `POLLIN` is requested for the output of the children. -/
  listens : Bool
  /-- The FORKs that have been written. -/
  round : ℕ
  toSeed : List QuapiMsg
  seed : SeedState
  /-- The messages to the library, with the round of the child they are about. -/
  toParent : List (QuapiMsg × ℕ)
  /-- The stream of the children: reader by reader, the children. -/
  stream : SharedPipe.Pipe (QuapiMsg × ℕ) ℤ
  /-- What has been written to the stream. -/
  sent : List (QuapiMsg × ℕ)
  children : List Child
  /-- The standard output of the children, with the round of the child that printed it. -/
  stdout : List (Char × ℕ)
  /-- The rounds of the termination requests since the eventfd was read. -/
  eventfd : List ℕ
  log : List Event

/-! ### The library -/

/-- What a line of output decides: `some` return code, or to go on reading. The buffer has
been cut at the newline by then, and the regular expressions see the cut. -/
def QuapiSolver.rule (s : QuapiSolver) (line : List Char) : Option ℤ :=
  let callback := s.stdoutCb.bind fun cb => if cb line ≠ 0 then some (cb line) else none
  -- the callback is called where no regular expression matches
  match s.regexes with
  | none => callback
  | some (sat, unsat) =>
    if sat (line ++ ['\x00']) then some 10
    else if unsat (line ++ ['\x00']) then some 20
    else callback

/-- The loop of `S_HANDLE_SOLVERCHILD` over the lines in the buffer: the return code, if one
of them decides, and the buffer after it. -/
def QuapiSolver.serveLines (s : QuapiSolver) : ℕ → List Char → Option ℤ × List Char
  | 0, buf => (none, buf)
  | lines + 1, buf =>
    let line := buf.takeWhile (· ≠ '\n')
    match s.rule line with
    | some retcode => (some retcode, buf)
    | none => s.serveLines lines (buf.drop (line.length + 1))

namespace System

variable (x : System)

/-- A system after `quapi_init`. -/
def start (s : QuapiSolver) : System where
  solver := s
  pc := .idle
  listens := s.regexes.isSome
  round := 0
  toSeed := []
  seed := .reading
  toParent := []
  stream := ⟨[], [], []⟩
  sent := []
  children := []
  stdout := []
  eventfd := []
  log := []

/-- The child with a pid, while it runs. -/
def running (pid : ℤ) : Option Child :=
  x.children.find? fun c => c.pid = pid ∧ c.status = none

/-- The child with a pid ends. -/
def exit (pid : ℤ) (status : ExitStatus) : System :=
  { x with
    children := x.children.map fun c =>
      if c.pid = pid ∧ c.status = none then { c with status := some status } else c
    stream := x.stream.close pid }

/-- `abort_solverchild`. -/
def abortSolverchild : System :=
  match x.solver.solverchildPid with
  | none => x
  | some pid => x.exit pid .signaled

/-- The library writes on the stream of the children. -/
def write (msgs : List QuapiMsg) : System :=
  { x with
    stream := x.stream.write (msgs.map fun msg => (msg, x.round))
    sent := x.sent ++ msgs.map fun msg => (msg, x.round) }

/-- A call goes on behind `make_solvable`. -/
def proceed : PendingCall → System
  | .assume lit =>
    { x.write [.literal lit, .literal 0] with
      solver := x.solver.countAssumption
      pc := .idle }
  | .solve =>
    if x.solver.canSolve then
      let y := x.write [.solve]
      { y with
        solver := x.solver.startSolve
        pc := .polling ⟨false, false, false, []⟩
        -- everything that is in front of the SOLVE goes with it
        stream := y.stream.flush y.stream.buffer.length }
    else { x with solver := x.solver.endSolve, pc := .idle }

/-- `make_solvable`, up to its report. -/
def makeSolvable (pending : PendingCall) : System :=
  if x.solver.needsFork then
    { x with
      solver := x.solver.askFork
      pc := .forking pending
      round := x.round + 1
      toSeed := x.toSeed ++ [x.solver.forkMsg] }
  else x.proceed pending

/-- A call of the library. -/
def call (allowMissing : Bool) : ApiCall → Option System
  | .assume lit =>
    if x.solver.state = .inputLiterals ∨ x.solver.state = .inputAssumptions then
      if lit = 0 then some x
      else (x.solver.header.clauses.add? x.solver.header.prefixdepth).map fun bound =>
        if x.solver.writtenClauses ≥ bound.1 then x else x.makeSolvable (.assume lit)
    else none
  | .solve =>
    some (if x.solver.Refuses allowMissing then x else x.makeSolvable .solve)
  | .reset =>
    let y := if x.solver.state = .inputAssumptions then x.abortSolverchild else x
    some { y with solver := x.solver.quapiResetAssumptions.solver }
  | .quantify lit => (x.solver.quapiQuantify lit).map fun e =>
    { x with solver := e.solver, toSeed := x.toSeed ++ e.toSeed }
  | .add lit => (x.solver.quapiAdd lit).map fun e =>
    { x with solver := e.solver, toSeed := x.toSeed ++ e.toSeed }

/-- One message in the loop of `make_solvable`. -/
def readReport (pending : PendingCall) : Option System :=
  match x.toParent with
  | [] => none
  | (.forkReport pid, source) :: rest =>
    let y : System := { x with
      toParent := rest
      solver := x.solver.gotReport pid
      log := x.log ++ [.report x.round pid source] }
    some (y.proceed pending)
  -- what is left of an earlier round is read over
  | (msg, source) :: rest =>
    some { x with toParent := rest, log := x.log ++ [.skipped x.round msg source] }

/-- `poll`, in `S_POLL`. -/
def poll (d : PollData) : Option System :=
  -- what was ready before is served before the next poll
  if d.child ∨ d.eventfd ∨ d.solverchild then none
  else
    let ready : PollData :=
      { d with
        child := !x.toParent.isEmpty
        eventfd := !x.eventfd.isEmpty
        solverchild := x.listens && !x.stdout.isEmpty }
    if ready.child ∨ ready.eventfd ∨ ready.solverchild then
      some { x with pc := .polling ready }
    else none

/-- What a message from a child or about it decides in the poll loop. -/
def afterMessage (d : PollData) : QuapiMsg → LibraryPc
  | .destructed => .finishing 0
  | .exitCode code =>
    -- with a callback, there may be more output, and the return code comes from there
    if code = 0 ∧ x.solver.stdoutCb.isSome then .polling d else .finishing code
  | _ => .finishing 0

/-- `S_HANDLE_CHILD`. -/
def handleChild (d : PollData) : Option System :=
  match x.toParent with
  | [] => none
  | (msg, source) :: rest =>
    some { x with
      toParent := rest
      log := x.log ++ [.message x.round msg source x.solver.solverchildPid]
      pc := x.afterMessage d msg }

/-- `S_HANDLE_EVENTFD`. -/
def handleEventfd : Option System :=
  if x.eventfd = [] then none
  else some { x.abortSolverchild with
    eventfd := []
    log := x.log ++ [.aborted x.round x.eventfd]
    pc := .finishing 0 }

/-- `read_all_available_into_buffer`: what it appends of the first `n` bytes of output. A
zero byte ends the reading, and what came with it is lost. -/
def heard (n : ℕ) : List Char :=
  ((x.stdout.take n).map Prod.fst).takeWhile (· ≠ '\x00')

/-- It reads all that is there, or up to a zero byte at least. -/
def CanRead (n : ℕ) : Prop :=
  n ≤ x.stdout.length ∧ (n = x.stdout.length ∨ '\x00' ∈ (x.stdout.take n).map Prod.fst)

instance (n : ℕ) : Decidable (x.CanRead n) := inferInstanceAs (Decidable (_ ∧ _))

/-- What `n` bytes of output decide in the poll loop. -/
def afterOutput (d : PollData) (n : ℕ) : LibraryPc :=
  match x.solver.serveLines ((x.heard n).count '\n') (d.buf ++ x.heard n) with
  | (some retcode, _) => .finishing retcode
  | (none, buf) => .polling { d with buf := buf }

/-- `S_HANDLE_SOLVERCHILD`. -/
def handleSolverchild (d : PollData) (n : ℕ) : Option System :=
  if x.CanRead n then
    some { x with
      stdout := x.stdout.drop n
      log := x.log ++ [.output x.round (x.stdout.take n)]
      pc := x.afterOutput d n }
  else none

/-- `S_POLL` serves the first descriptor that was ready. -/
def handle (d : PollData) (n : ℕ) : Option System :=
  if d.child then x.handleChild { d with child := false }
  else if d.eventfd then x.handleEventfd
  else if d.solverchild then x.handleSolverchild { d with solverchild := false } n
  else none

/-! ### The steps -/

/-- What happens in a session. -/
inductive Act where
  /-- A call begins; one that need not wait is over at once. -/
  | call (c : ApiCall)
  /-- `quapi_set_stdout_cb`, or a callback that changes its mind. -/
  | setStdoutCb (cb : Option (List Char → ℤ))
  /-- The library reads a message in `make_solvable`. -/
  | readReport
  | poll
  /-- The library serves a descriptor; `n` bytes of output are there. -/
  | handle (n : ℕ)
  /-- `quapi_solve` returns. -/
  | finish
  /-- `quapi_terminate`, from another thread. -/
  | terminate
  /-- The first `n` messages of the library's buffer are flushed, because it was full. -/
  | flush (n : ℕ)
  /-- The seeding process reads a message that is not a FORK. -/
  | seedRead
  | seedFork (pid : ℤ)
  | seedReport
  /-- The seeding process sees its child exit. -/
  | seedReap
  /-- A child reads `n` messages. -/
  | take (pid : ℤ) (n : ℕ)
  /-- The child of round `i + 1` reads on behind its SOLVE. -/
  | readOn (i n : ℕ)
  | print (pid : ℤ) (text : List Char)
  | destruct (pid : ℤ)
  | exit (pid : ℤ) (status : ExitStatus)

/-- The fork of `fork_solving_child`. -/
def fork (pid : ℤ) (wait : Bool) (rest : List QuapiMsg) : System :=
  { x with
    toSeed := rest
    seed := .reporting (x.children.length + 1) pid wait
    children := x.children ++ [⟨x.children.length + 1, pid, !wait, none⟩]
    stream := x.stream.start pid }

/-- One act: `none` where it cannot happen. -/
def step (allowMissing : Bool) (x : System) : Act → Option System
  | .call c =>
    match x.pc with
    | .idle => x.call allowMissing c
    | _ => none
  | .setStdoutCb cb => some { x with solver := { x.solver with stdoutCb := cb }, listens := true }
  -- the calls that are not over go on in steps of their own
  | .readReport =>
    match x.pc with
    | .forking pending => x.readReport pending
    | _ => none
  | .poll =>
    match x.pc with
    | .polling d => x.poll d
    | _ => none
  | .handle n =>
    match x.pc with
    | .polling d => x.handle d n
    | _ => none
  | .finish =>
    match x.pc with
    | .finishing retcode => some { x with
        solver := x.solver.endSolve
        pc := .idle
        log := x.log ++ [.returned x.round retcode] }
    | _ => none
  | .terminate =>
    if x.solver.state = .working then some { x with eventfd := x.eventfd ++ [x.round] } else none
  | .flush n => some { x with stream := x.stream.flush n }
  | .seedRead =>
    match x.seed, x.toSeed with
    | .reading, msg :: rest => if Stream.isFork msg then none else some { x with toSeed := rest }
    | _, _ => none
  | .seedFork pid =>
    match x.seed, x.toSeed with
    | .reading, .fork wait :: rest =>
      -- a pid is not given twice while its process runs
      if x.running pid = none then some (x.fork pid wait rest) else none
    | _, _ => none
  | .seedReport =>
    match x.seed with
    | .reporting round pid wait => some { x with
        toParent := x.toParent ++ [(.forkReport pid, round)]
        -- where it waits for its child, it reads no message
        seed := if wait then .waiting round else .reading }
    | _ => none
  | .seedReap =>
    match x.seed with
    | .waiting round =>
      ((x.children.find? fun c => c.round = round).bind Child.status).map fun status => { x with
        toParent := x.toParent ++ [(.exitCode status.exitCode, round)]
        seed := .reading }
    | _ => none
  | .take pid n => (x.stream.take isSolve pid n).map fun p => { x with stream := p }
  | .readOn i n => (x.stream.readOn isSolve i n).map fun p => { x with stream := p }
  | .print pid text => (x.running pid).map fun c =>
    { x with stdout := x.stdout ++ text.map fun ch => (ch, c.round) }
  | .destruct pid => (x.running pid).bind fun c =>
    -- the message is sent once
    if c.sendDestructedMsg then some { x with
      toParent := x.toParent ++ [(.destructed, c.round)]
      children := x.children.map fun d =>
        if d.round = c.round then { d with sendDestructedMsg := false } else d }
    else none
  | .exit pid status => (x.running pid).map fun _ => x.exit pid status

/-! ### What an act does -/

/-- **What an act does**, case by case. -/
inductive Does (x : System) : Act → System → Prop where
  /-- The library changes its own record, or writes to the seeding process. -/
  | pass {a : Act} (solver : QuapiSolver) (listens : Bool) (msgs : List QuapiMsg)
      (hpid : solver.solverchildPid = x.solver.solverchildPid)
      (hregexes : solver.regexes = x.solver.regexes)
      (hcb : solver.stdoutCb = x.solver.stdoutCb ∨ ∃ cb, a = .setStdoutCb cb ∧ solver.stdoutCb = cb)
      (hstate : solver.state = x.solver.state ∨ x.pc = .idle ∧ solver.state ≠ .working)
      (hmsgs : ∀ msg ∈ msgs, Stream.isFork msg = false)
      (hlistens : x.listens = true → listens = true)
      (hact : (∃ c, a = .call c ∧ x.pc = .idle) ∨ ∃ cb, a = .setStdoutCb cb) :
      Does x a { x with solver := solver, listens := listens, toSeed := x.toSeed ++ msgs }
  | reset (hpc : x.pc = .idle) (hstate : x.solver.state = .inputAssumptions) :
      Does x (.call .reset) { x.abortSolverchild with solver := x.solver.clearAssumptions }
  /-- A FORK is written. -/
  | ask {c : ApiCall} (pending : PendingCall) (hpc : x.pc = .idle)
      (hneeds : x.solver.needsFork) :
      Does x (.call c) { x with
        solver := x.solver.askFork
        pc := .forking pending
        round := x.round + 1
        toSeed := x.toSeed ++ [x.solver.forkMsg] }
  | proceed {c : ApiCall} (pending : PendingCall) (hpc : x.pc = .idle)
      (hneeds : ¬x.solver.needsFork) : Does x (.call c) (x.proceed pending)
  | report (pending : PendingCall) (pid : ℤ) (source : ℕ) (rest : List (QuapiMsg × ℕ))
      (hpc : x.pc = .forking pending)
      (hparent : x.toParent = (.forkReport pid, source) :: rest) :
      Does x .readReport (System.proceed { x with
        toParent := rest
        solver := x.solver.gotReport pid
        log := x.log ++ [.report x.round pid source] } pending)
  | skip (pending : PendingCall) (msg : QuapiMsg) (source : ℕ) (rest : List (QuapiMsg × ℕ))
      (hpc : x.pc = .forking pending) (hparent : x.toParent = (msg, source) :: rest)
      (hmsg : ∀ pid, msg ≠ .forkReport pid) :
      Does x .readReport { x with
        toParent := rest
        log := x.log ++ [.skipped x.round msg source] }
  | poll (d : PollData) (hpc : x.pc = .polling d)
      (hnone : ¬(d.child ∨ d.eventfd ∨ d.solverchild)) :
      Does x .poll { x with
        pc := .polling ⟨!x.toParent.isEmpty, !x.eventfd.isEmpty, x.listens && !x.stdout.isEmpty,
          d.buf⟩ }
  | message {n : ℕ} (d : PollData) (msg : QuapiMsg) (source : ℕ) (rest : List (QuapiMsg × ℕ))
      (hpc : x.pc = .polling d) (hchild : d.child = true)
      (hparent : x.toParent = (msg, source) :: rest) :
      Does x (.handle n) { x with
        toParent := rest
        log := x.log ++ [.message x.round msg source x.solver.solverchildPid]
        pc := x.afterMessage { d with child := false } msg }
  | abort {n : ℕ} (d : PollData) (hpc : x.pc = .polling d) (hchild : d.child = false)
      (heventfd : d.eventfd = true) (hrequests : x.eventfd ≠ []) :
      Does x (.handle n) { x.abortSolverchild with
        eventfd := []
        log := x.log ++ [.aborted x.round x.eventfd]
        pc := .finishing 0 }
  | output (n : ℕ) (d : PollData) (hpc : x.pc = .polling d) (hchild : d.child = false)
      (heventfd : d.eventfd = false) (hsolverchild : d.solverchild = true) (hn : x.CanRead n) :
      Does x (.handle n) { x with
        stdout := x.stdout.drop n
        log := x.log ++ [.output x.round (x.stdout.take n)]
        pc := x.afterOutput { d with solverchild := false } n }
  | finish (retcode : ℤ) (hpc : x.pc = .finishing retcode) :
      Does x .finish { x with
        solver := x.solver.endSolve
        pc := .idle
        log := x.log ++ [.returned x.round retcode] }
  | terminate (hstate : x.solver.state = .working) :
      Does x .terminate { x with eventfd := x.eventfd ++ [x.round] }
  | flush (n : ℕ) : Does x (.flush n) { x with stream := x.stream.flush n }
  | seedRead (msg : QuapiMsg) (rest : List QuapiMsg) (hseed : x.seed = .reading)
      (htoSeed : x.toSeed = msg :: rest) (hmsg : Stream.isFork msg = false) :
      Does x .seedRead { x with toSeed := rest }
  | seedFork (pid : ℤ) (wait : Bool) (rest : List QuapiMsg) (hseed : x.seed = .reading)
      (htoSeed : x.toSeed = .fork wait :: rest) (hfree : x.running pid = none) :
      Does x (.seedFork pid) (x.fork pid wait rest)
  | seedReport (round : ℕ) (pid : ℤ) (wait : Bool) (hseed : x.seed = .reporting round pid wait) :
      Does x .seedReport { x with
        toParent := x.toParent ++ [(.forkReport pid, round)]
        seed := if wait then .waiting round else .reading }
  | seedReap (c : Child) (status : ExitStatus) (hseed : x.seed = .waiting c.round)
      (hc : c ∈ x.children) (hstatus : c.status = some status) :
      Does x .seedReap { x with
        toParent := x.toParent ++ [(.exitCode status.exitCode, c.round)]
        seed := .reading }
  | take (pid : ℤ) (n : ℕ) (p : SharedPipe.Pipe (QuapiMsg × ℕ) ℤ)
      (htake : x.stream.take isSolve pid n = some p) :
      Does x (.take pid n) { x with stream := p }
  | readOn (i n : ℕ) (p : SharedPipe.Pipe (QuapiMsg × ℕ) ℤ)
      (hread : x.stream.readOn isSolve i n = some p) :
      Does x (.readOn i n) { x with stream := p }
  | print (pid : ℤ) (text : List Char) (c : Child) (hrunning : x.running pid = some c) :
      Does x (.print pid text) { x with stdout := x.stdout ++ text.map fun ch => (ch, c.round) }
  | destruct (pid : ℤ) (c : Child) (hrunning : x.running pid = some c)
      (hsend : c.sendDestructedMsg = true) :
      Does x (.destruct pid) { x with
        toParent := x.toParent ++ [(.destructed, c.round)]
        children := x.children.map fun d =>
          if d.round = c.round then { d with sendDestructedMsg := false } else d }
  | exit (pid : ℤ) (status : ExitStatus) (c : Child) (hrunning : x.running pid = some c) :
      Does x (.exit pid status) (x.exit pid status)

section

variable {x y : System} {allowMissing : Bool} {a : Act} {c : ApiCall} {pending : PendingCall}
  {d : PollData} {n : ℕ}

theorem makeSolvable_does (hpc : x.pc = .idle) : Does x (.call c) (x.makeSolvable pending) := by
  rw [makeSolvable]
  split
  case isTrue hneeds => exact .ask pending hpc hneeds
  case isFalse hneeds => exact .proceed pending hpc hneeds

theorem call_does (hpc : x.pc = .idle) (h : x.call allowMissing c = some y) :
    Does x (.call c) y := by
  have hnil : ∀ msg ∈ ([] : List QuapiMsg), Stream.isFork msg = false := List.forall_mem_nil _
  have hcall : (∃ d, Act.call c = .call d ∧ x.pc = .idle) ∨ ∃ cb, Act.call c = .setStdoutCb cb :=
    Or.inl ⟨c, rfl, hpc⟩
  have hsame : Does x (.call c) x := by
    have hpass := Does.pass (x := x) (a := .call c) x.solver x.listens [] rfl rfl (Or.inl rfl)
      (Or.inl rfl) hnil id hcall
    rwa [List.append_nil] at hpass
  cases c with
  | quantify lit =>
    obtain ⟨e, he, rfl⟩ := Option.map_eq_some_iff.mp h
    have hs : x.solver.state = .input := by
      by_contra hc
      rw [QuapiSolver.quapiQuantify, if_neg hc] at he
      exact absurd he (by simp)
    rw [QuapiSolver.quapiQuantify_of_input hs] at he
    obtain rfl := Option.some.inj he
    exact .pass _ x.listens _ rfl rfl (Or.inl rfl) (Or.inl rfl) (by simp [Stream.isFork]) id
      hcall
  | add lit =>
    obtain ⟨e, he, rfl⟩ := Option.map_eq_some_iff.mp h
    rw [QuapiSolver.quapiAdd] at he
    split at he
    case isFalse => exact absurd he (by simp)
    case isTrue =>
      obtain rfl := Option.some.inj he
      refine .pass _ x.listens _ ?_ ?_ (Or.inl ?_) (Or.inr ⟨hpc, ?_⟩) (by simp [Stream.isFork])
        id hcall <;> simp only []
      · split <;> rfl
      · split <;> rfl
      · split <;> rfl
      · split <;> exact QuapiState.noConfusion
  | assume lit =>
    rw [call] at h
    split at h
    case isFalse => exact absurd h (by simp)
    case isTrue =>
      split at h
      case isTrue =>
        obtain rfl := Option.some.inj h
        exact hsame
      case isFalse =>
        obtain ⟨bound, -, rfl⟩ := Option.map_eq_some_iff.mp h
        split
        · exact hsame
        · exact makeSolvable_does hpc
  | reset =>
    obtain rfl := Option.some.inj h
    by_cases hs : x.solver.state = .inputAssumptions
    · have hreset : x.solver.quapiResetAssumptions = ⟨x.solver.clearAssumptions, [], [], true⟩ :=
        if_pos hs
      simp only [hreset, if_pos hs]
      exact .reset hpc hs
    · have hreset : x.solver.quapiResetAssumptions = ⟨x.solver, [], [], true⟩ := if_neg hs
      simp only [hreset, if_neg hs]
      exact hsame
  | solve =>
    obtain rfl := Option.some.inj h
    split
    · exact hsame
    · exact makeSolvable_does hpc

theorem readReport_does (hpc : x.pc = .forking pending) (h : x.readReport pending = some y) :
    Does x .readReport y := by
  rw [readReport] at h
  split at h
  case h_1 => exact absurd h (by simp)
  case h_2 pid source rest hparent =>
    obtain rfl := Option.some.inj h
    exact .report pending pid source rest hpc hparent
  case h_3 msg source rest hne hparent =>
    obtain rfl := Option.some.inj h
    refine .skip pending msg source rest hpc hparent ?_
    intro pid hc
    exact hne pid hc

theorem poll_does (hpc : x.pc = .polling d) (h : x.poll d = some y) : Does x .poll y := by
  rw [System.poll] at h
  split at h
  case isTrue => exact absurd h (by simp)
  case isFalse hnone =>
    simp only [] at h
    split at h
    case isTrue =>
      obtain rfl := Option.some.inj h
      exact .poll d hpc hnone
    case isFalse => exact absurd h (by simp)

theorem handle_does (hpc : x.pc = .polling d) (h : x.handle d n = some y) :
    Does x (.handle n) y := by
  rw [handle] at h
  split at h
  case isTrue hchild =>
    rw [handleChild] at h
    split at h
    case h_1 => exact absurd h (by simp)
    case h_2 msg source rest hparent =>
      obtain rfl := Option.some.inj h
      exact .message d msg source rest hpc hchild hparent
  case isFalse hchild =>
    split at h
    case isTrue heventfd =>
      rw [handleEventfd] at h
      split at h
      case isTrue => exact absurd h (by simp)
      case isFalse hne =>
        obtain rfl := Option.some.inj h
        exact .abort d hpc (Bool.eq_false_iff.mpr hchild) heventfd hne
    case isFalse heventfd =>
      split at h
      case isFalse => exact absurd h (by simp)
      case isTrue hsolverchild =>
        rw [handleSolverchild] at h
        split at h
        case isFalse => exact absurd h (by simp)
        case isTrue hn =>
          obtain rfl := Option.some.inj h
          exact .output n d hpc (Bool.eq_false_iff.mpr hchild) (Bool.eq_false_iff.mpr heventfd)
            hsolverchild hn

theorem setStdoutCb_does {cb : Option (List Char → ℤ)} : Does x (.setStdoutCb cb)
    { x with solver := { x.solver with stdoutCb := cb }, listens := true } := by
  have hpass := Does.pass (x := x) (a := .setStdoutCb cb) { x.solver with stdoutCb := cb } true []
    rfl rfl (Or.inr ⟨cb, rfl, rfl⟩) (Or.inl rfl) (List.forall_mem_nil _) (fun _ => rfl)
    (Or.inr ⟨cb, rfl⟩)
  rwa [List.append_nil] at hpass

theorem seedRead_does (h : x.step allowMissing .seedRead = some y) : Does x .seedRead y := by
  rw [step.eq_def] at h
  simp only [] at h
  split at h
  case h_1 msg rest hseed htoSeed =>
    split at h
    case isTrue => exact absurd h (by simp)
    case isFalse hmsg =>
      obtain rfl := Option.some.inj h
      exact .seedRead msg rest hseed htoSeed (Bool.eq_false_iff.mpr hmsg)
  case h_2 => exact absurd h (by simp)

theorem seedFork_does {pid : ℤ} (h : x.step allowMissing (.seedFork pid) = some y) :
    Does x (.seedFork pid) y := by
  rw [step.eq_def] at h
  simp only [] at h
  split at h
  case h_1 wait rest hseed htoSeed =>
    split at h
    case isTrue hfree =>
      obtain rfl := Option.some.inj h
      exact .seedFork pid wait rest hseed htoSeed hfree
    case isFalse => exact absurd h (by simp)
  case h_2 => exact absurd h (by simp)

theorem seedReap_does (h : x.step allowMissing .seedReap = some y) : Does x .seedReap y := by
  rw [step.eq_def] at h
  simp only [] at h
  split at h
  case h_1 round hseed =>
    obtain ⟨status, hfind, rfl⟩ := Option.map_eq_some_iff.mp h
    obtain ⟨c, hc, hstatus⟩ := Option.bind_eq_some_iff.mp hfind
    have hround := List.find?_some hc
    obtain rfl : c.round = round := of_decide_eq_true hround
    exact .seedReap c status hseed (List.mem_of_find?_eq_some hc) hstatus
  case h_2 => exact absurd h (by simp)

theorem destruct_does {pid : ℤ} (h : x.step allowMissing (.destruct pid) = some y) :
    Does x (.destruct pid) y := by
  obtain ⟨c, hc, hy⟩ := Option.bind_eq_some_iff.mp h
  split at hy
  case isTrue hsend =>
    obtain rfl := Option.some.inj hy
    exact .destruct pid c hc hsend
  case isFalse => exact absurd hy (by simp)

/-- **Every step does one of these things.** -/
theorem does_of_step (h : x.step allowMissing a = some y) : Does x a y := by
  cases a with
  | call c =>
    rw [step.eq_def] at h
    simp only [] at h
    split at h
    case h_1 hpc => exact call_does hpc h
    case h_2 => exact absurd h (by simp)
  | setStdoutCb cb =>
    obtain rfl := Option.some.inj h
    exact setStdoutCb_does
  | readReport =>
    rw [step.eq_def] at h
    simp only [] at h
    split at h
    case h_1 pending hpc => exact readReport_does hpc h
    case h_2 => exact absurd h (by simp)
  | poll =>
    rw [step.eq_def] at h
    simp only [] at h
    split at h
    case h_1 d hpc => exact poll_does hpc h
    case h_2 => exact absurd h (by simp)
  | handle n =>
    rw [step.eq_def] at h
    simp only [] at h
    split at h
    case h_1 d hpc => exact handle_does hpc h
    case h_2 => exact absurd h (by simp)
  | finish =>
    rw [step.eq_def] at h
    simp only [] at h
    split at h
    case h_1 retcode hpc =>
      obtain rfl := Option.some.inj h
      exact .finish retcode hpc
    case h_2 => exact absurd h (by simp)
  | terminate =>
    rw [step.eq_def] at h
    simp only [] at h
    split at h
    case isTrue hstate =>
      obtain rfl := Option.some.inj h
      exact .terminate hstate
    case isFalse => exact absurd h (by simp)
  | flush n =>
    obtain rfl := Option.some.inj h
    exact .flush n
  | seedRead => exact seedRead_does h
  | seedFork pid => exact seedFork_does h
  | seedReport =>
    rw [step.eq_def] at h
    simp only [] at h
    split at h
    case h_1 round pid wait hseed =>
      obtain rfl := Option.some.inj h
      exact .seedReport round pid wait hseed
    case h_2 => exact absurd h (by simp)
  | seedReap => exact seedReap_does h
  | take pid n =>
    obtain ⟨p, hp, rfl⟩ := Option.map_eq_some_iff.mp h
    exact .take pid n p hp
  | readOn i n =>
    obtain ⟨p, hp, rfl⟩ := Option.map_eq_some_iff.mp h
    exact .readOn i n p hp
  | print pid text =>
    obtain ⟨c, hc, rfl⟩ := Option.map_eq_some_iff.mp h
    exact .print pid text c hc
  | destruct pid => exact destruct_does h
  | exit pid status =>
    obtain ⟨c, hc, rfl⟩ := Option.map_eq_some_iff.mp h
    exact .exit pid status c hc

end

/-! ### A library for concrete sessions -/

/-- Three variables, one clause and three assumptions. -/
def small (regexes : Option ((List Char → Bool) × (List Char → Bool))) : QuapiSolver where
  header := ⟨.of 3, .of 4, .of 3⟩
  regexes := regexes
  stdoutCb := none
  state := .input
  universalPrefixDepth := -1
  writtenClauses := 0
  writtenAssumptions := 0
  writtenQuantifierLiterals := 0
  solverchildPid := none

theorem small_init (regexes : Option ((List Char → Bool) × (List Char → Bool))) :
    quapiInit ⟨3, by decide⟩ ⟨1, by decide⟩ ⟨3, by decide⟩ regexes = some (small regexes) := rfl

/-- The regular expressions `^SAT` and `^UNSAT`: what a line begins with. -/
def verdicts : (List Char → Bool) × (List Char → Bool) :=
  (fun line => ['S', 'A', 'T'].isPrefixOf line,
    fun line => ['U', 'N', 'S', 'A', 'T'].isPrefixOf line)

end System

end QuAPI
