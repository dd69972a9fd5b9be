import QuAPI.ForkProtocol

/-!
# Whose result it is

Which child a result comes from. The library reads a round's messages and output without
being told which child they are from, so that this rests on the order in which they are
written.

* Without regular expressions and without a callback, the seeding process waits for each
  child before it forks the next one. Then every exit code is that of the child of the
  round (`QuAPI.System.exit_codes_attributed`).
* With regular expressions, the child of a round may outlive it.
  `QuAPI.System.results_own` says that everything the poll loop consumes is from the child
  of its round as long as no older child prints or sends DESTRUCTED once a newer one has
  been reported, and nothing of an older one is left in the output by then.
-/

namespace QuAPI

namespace System

open ForkProtocol (Sound Own)

section

variable {x y : System} {a : Act} {allowMissing : Bool} {acts : List Act} {s : QuapiSolver}

/-! ### The handshake along a run -/

theorem sound_start (s : QuapiSolver) : (start s).protocol.Sound := by
  refine ⟨rfl, rfl, rfl, ?_, ?_, ?_, ?_, ?_⟩
  · intro r hr
    exact absurd hr (by simp [protocol, start, SeedState.round])
  · intro r pid wait hr
    exact absurd hr (by simp [protocol, start])
  · intro pid r hm
    exact absurd hm List.not_mem_nil
  · intro code r hm
    exact absurd hm List.not_mem_nil
  · intro _ c hc
    exact absurd hc List.not_mem_nil

theorem Does.sound (h : Does x a y) (hs : x.protocol.Sound) : y.protocol.Sound := by
  rcases h.protocol with heq | ⟨label, hstep, -⟩
  · rwa [heq]
  · exact hs.step hstep

/-- DESTRUCTED of an older child does no harm before the next one has been reported. -/
theorem Does.own (h : Does x a y) (hs : x.protocol.Sound) (ho : x.protocol.Own)
    (hdestruct : ∀ pid c, a = .destruct pid → x.running pid = some c →
      c.sendDestructedMsg = true → c.round = x.children.length ∨ x.seed.reports = 1) :
    y.protocol.Own := by
  rcases h.protocol with heq | ⟨label, hstep, hlabel⟩
  · rwa [heq]
  · refine ho.step hs hstep ?_
    intro r hr
    obtain ⟨pid, c, ha, hrunning, hsend, rfl⟩ := hlabel r hr
    exact hdestruct pid c ha hrunning hsend

/-- Every child is still there. -/
theorem Does.later (h : Does x a y) {c : Child} (hc : c ∈ x.children) :
    ∃ d ∈ y.children, c.Later d := by
  rcases h.protocol with heq | ⟨label, hstep, -⟩
  · have hchildren : y.children = x.children := congrArg ForkProtocol.children heq
    exact ⟨c, hchildren ▸ hc, rfl, rfl, fun _ hs => hs⟩
  · exact hstep.later hc

/-- Messages are read in the order in which they are there. -/
theorem own_head (ho : x.protocol.Own) (hforking : x.forking = false) {m : QuapiMsg × ℕ}
    {rest : List (QuapiMsg × ℕ)} (hparent : x.toParent = m :: rest) : m.2 = x.round := by
  refine ho m ?_
  have hf : ¬x.protocol.forking = true := by
    rw [show x.protocol.forking = false from hforking]
    exact Bool.false_ne_true
  rw [ForkProtocol.fresh, if_neg hf]
  change m ∈ x.toParent
  rw [hparent]
  exact List.mem_cons_self

/-- The report that is read is that of the round. -/
theorem report_head (hs : x.protocol.Sound) (hforking : x.forking = true) {pid : ℤ} {source : ℕ}
    {rest : List (QuapiMsg × ℕ)} (hparent : x.toParent = (.forkReport pid, source) :: rest) :
    source = x.round ∧ ∃ c ∈ x.children, c.round = x.round ∧ c.pid = pid := by
  have hmem : (.forkReport pid, source) ∈ x.toParent := hparent ▸ List.mem_cons_self
  obtain ⟨hsource, c, hc, hround, hpid⟩ := hs.report pid source hmem
  have hcount : x.protocol.forks + x.protocol.seed.reports + x.toParent.countP isReport =
      x.forking.toNat := hs.count
  rw [hforking, hparent, List.countP_cons_of_pos rfl, Bool.toNat_true] at hcount
  have hlength : x.children.length + x.protocol.forks = x.round := hs.length
  have hround' : source = x.round := by
    change source = x.children.length at hsource
    omega
  exact ⟨hround', c, hc, hround.trans hround', hpid⟩

/-! ### The mode of the session -/

/-- **The mode of the session**: without regular expressions, all children are waited for and
none sends DESTRUCTED; with them, it is the other way round. -/
structure Mode (x : System) : Prop where
  send : ∀ c ∈ x.children, c.sendDestructedMsg = true → x.solver.regexes.isNone = false
  forks : ∀ wait, .fork wait ∈ x.toSeed → wait = x.solver.regexes.isNone
  reporting : ∀ r pid wait, x.seed = .reporting r pid wait → wait = x.solver.regexes.isNone
  waiting : ∀ r, x.seed = .waiting r → x.solver.regexes.isNone = true
  parent : ∀ m ∈ x.toParent, (∃ pid, m.1 = .forkReport pid) ∨
    (x.solver.regexes.isNone = true ∧ ∃ code, m.1 = .exitCode code) ∨
    (x.solver.regexes.isNone = false ∧ m.1 = .destructed)

theorem mem_of_running {pid : ℤ} {c : Child} (h : x.running pid = some c) : c ∈ x.children :=
  List.mem_of_find?_eq_some h

theorem proceed_regexes (x : System) (pending : PendingCall) :
    (x.proceed pending).solver.regexes = x.solver.regexes ∧
      (x.proceed pending).solver.stdoutCb = x.solver.stdoutCb := by
  cases pending with
  | assume lit => exact ⟨rfl, rfl⟩
  | solve =>
    rw [System.proceed]
    split <;> exact ⟨rfl, rfl⟩

/-- The regular expressions stay. -/
theorem Does.regexes (h : Does x a y) : y.solver.regexes = x.solver.regexes := by
  cases h with
  | pass solver listens msgs hpid hregexes hcb hstate hmsgs => exact hregexes
  | proceed pending hpc hneeds => exact (proceed_regexes x pending).1
  | report pending pid source rest hpc hparent => exact (proceed_regexes _ pending).1
  | abort d hpc hchild heventfd hrequests =>
    rcases x.abortSolverchild_cases with heq | ⟨pid, heq⟩ <;> rw [heq]
    rfl
  | _ => rfl

theorem Mode.proceed (h : x.Mode) (pending : PendingCall) : (x.proceed pending).Mode := by
  cases pending with
  | assume lit => exact ⟨h.send, h.forks, h.reporting, h.waiting, h.parent⟩
  | solve =>
    rw [System.proceed]
    split <;> exact ⟨h.send, h.forks, h.reporting, h.waiting, h.parent⟩

theorem Mode.exit (h : x.Mode) (pid : ℤ) (status : ExitStatus) : (x.exit pid status).Mode := by
  refine ⟨?_, h.forks, h.reporting, h.waiting, h.parent⟩
  intro d hd hsend
  obtain ⟨c, hc, rfl⟩ := List.mem_map.mp hd
  split at hsend <;> exact h.send c hc hsend

theorem Mode.abortSolverchild (h : x.Mode) : x.abortSolverchild.Mode := by
  rcases x.abortSolverchild_cases with heq | ⟨pid, heq⟩ <;> rw [heq]
  · exact h
  · exact h.exit pid _

/-- The library writes, and not a FORK. -/
theorem Mode.write {solver : QuapiSolver} {listens : Bool} {msgs : List QuapiMsg} (h : x.Mode)
    (hregexes : solver.regexes = x.solver.regexes)
    (hmsgs : ∀ msg ∈ msgs, Stream.isFork msg = false) :
    Mode { x with solver := solver, listens := listens, toSeed := x.toSeed ++ msgs } := by
  refine ⟨?_, ?_, ?_, ?_, ?_⟩ <;> simp only [hregexes]
  · exact h.send
  · intro wait hw
    rcases List.mem_append.mp hw with hw | hw
    · exact h.forks wait hw
    · exact absurd (hmsgs _ hw) (by simp [Stream.isFork])
  · exact h.reporting
  · exact h.waiting
  · exact h.parent

/-- A FORK is written, in the mode of the session. -/
theorem Mode.ask (h : x.Mode) (pending : PendingCall) : Mode { x with
    solver := x.solver.askFork
    pc := .forking pending
    round := x.round + 1
    toSeed := x.toSeed ++ [x.solver.forkMsg] } := by
  refine ⟨h.send, ?_, h.reporting, h.waiting, h.parent⟩
  intro wait hw
  rcases List.mem_append.mp hw with hw | hw
  · exact h.forks wait hw
  · exact QuapiMsg.fork.inj (List.mem_singleton.mp hw)

/-- The library reads a message. -/
theorem Mode.read {m : QuapiMsg × ℕ} {rest : List (QuapiMsg × ℕ)} (h : x.Mode)
    (hparent : x.toParent = m :: rest) : Mode { x with toParent := rest } :=
  ⟨h.send, h.forks, h.reporting, h.waiting,
    fun n hn => h.parent n (hparent ▸ List.mem_cons_of_mem _ hn)⟩

/-- The child is waited for or sends DESTRUCTED, as the FORK says. -/
theorem Mode.fork {pid : ℤ} {wait : Bool} {rest : List QuapiMsg} (h : x.Mode)
    (htoSeed : x.toSeed = .fork wait :: rest) : (x.fork pid wait rest).Mode := by
  have hwait : wait = x.solver.regexes.isNone := h.forks wait (htoSeed ▸ List.mem_cons_self)
  refine ⟨?_, fun w hw => h.forks w (htoSeed ▸ List.mem_cons_of_mem _ hw), ?_,
    fun r hr => absurd hr (by simp [System.fork]), h.parent⟩
  · intro c hc hsend
    rcases List.mem_append.mp hc with hc | hc
    · exact h.send c hc hsend
    · rw [List.mem_singleton.mp hc, hwait] at hsend
      exact Bool.not_eq_true' _ |>.mp hsend
  · intro r p w hr
    exact (SeedState.reporting.inj hr).2.2 ▸ hwait

theorem Mode.seedReport {round : ℕ} {pid : ℤ} {wait : Bool} (h : x.Mode)
    (hseed : x.seed = .reporting round pid wait) : Mode { x with
      toParent := x.toParent ++ [(.forkReport pid, round)]
      seed := if wait then .waiting round else .reading } := by
  have hwait := h.reporting round pid wait hseed
  refine ⟨h.send, h.forks, ?_, ?_, ?_⟩
  · intro r p w hr
    change (if wait then SeedState.waiting round else .reading) = .reporting r p w at hr
    split at hr <;> exact absurd hr (by simp)
  · intro r hr
    change (if wait then SeedState.waiting round else .reading) = .waiting r at hr
    split at hr
    case isTrue hw => exact hwait.symm.trans hw
    case isFalse => exact absurd hr (by simp)
  · intro m hm
    rcases List.mem_append.mp hm with hm | hm
    · exact h.parent m hm
    · exact Or.inl ⟨pid, by rw [List.mem_singleton.mp hm]⟩

/-- Only a child that is waited for has its exit code reported. -/
theorem Mode.seedReap {r : ℕ} {code : ℤ} (h : x.Mode) (hseed : x.seed = .waiting r) :
    Mode { x with toParent := x.toParent ++ [(.exitCode code, r)], seed := .reading } := by
  refine ⟨h.send, h.forks, fun r p w hr => absurd hr (by simp), fun r hr => absurd hr (by simp),
    ?_⟩
  intro m hm
  rcases List.mem_append.mp hm with hm | hm
  · exact h.parent m hm
  · exact Or.inr (Or.inl ⟨h.waiting _ hseed, _, by rw [List.mem_singleton.mp hm]⟩)

/-- Only a child that is not waited for sends DESTRUCTED, and does so once. -/
theorem Mode.destruct {c : Child} (h : x.Mode) (hc : c ∈ x.children)
    (hsend : c.sendDestructedMsg = true) : Mode { x with
      toParent := x.toParent ++ [(.destructed, c.round)]
      children := x.children.map fun d =>
        if d.round = c.round then { d with sendDestructedMsg := false } else d } := by
  refine ⟨?_, h.forks, h.reporting, h.waiting, ?_⟩
  · intro d hd hsend'
    obtain ⟨e, he, rfl⟩ := List.mem_map.mp hd
    split at hsend'
    · exact absurd hsend' Bool.false_ne_true
    · exact h.send e he hsend'
  · intro m hm
    rcases List.mem_append.mp hm with hm | hm
    · exact h.parent m hm
    · refine Or.inr (Or.inr ⟨h.send c hc hsend, ?_⟩)
      rw [List.mem_singleton.mp hm]

/-- **Every act keeps the mode.** -/
theorem Mode.step (h : x.Mode) (hy : Does x a y) : y.Mode := by
  cases hy with
  | pass solver listens msgs hpid hregexes hcb hstate hmsgs => exact h.write hregexes hmsgs
  | reset hpc hstate =>
    have hx := h.abortSolverchild
    rcases x.abortSolverchild_cases with heq | ⟨pid, heq⟩ <;> rw [heq] at hx ⊢ <;>
      exact ⟨hx.send, hx.forks, hx.reporting, hx.waiting, hx.parent⟩
  | ask pending hpc hneeds => exact h.ask pending
  | proceed pending hpc hneeds => exact h.proceed pending
  | report pending pid source rest hpc hparent =>
    have hread := h.read hparent
    have hx : Mode { x with
        toParent := rest
        solver := x.solver.gotReport pid
        log := x.log ++ [.report x.round pid source] } :=
      ⟨h.send, h.forks, h.reporting, h.waiting, hread.parent⟩
    exact hx.proceed pending
  | skip pending msg source rest hpc hparent hmsg =>
    exact ⟨h.send, h.forks, h.reporting, h.waiting, (h.read hparent).parent⟩
  | message d msg source rest hpc hchild hparent =>
    exact ⟨h.send, h.forks, h.reporting, h.waiting, (h.read hparent).parent⟩
  | abort d hpc hchild heventfd hrequests =>
    have hx := h.abortSolverchild
    exact ⟨hx.send, hx.forks, hx.reporting, hx.waiting, hx.parent⟩
  | seedRead msg rest hseed htoSeed hmsg =>
    exact ⟨h.send, fun wait hw => h.forks wait (htoSeed ▸ List.mem_cons_of_mem _ hw),
      h.reporting, h.waiting, h.parent⟩
  | seedFork pid wait rest hseed htoSeed hfree => exact h.fork htoSeed
  | seedReport round pid wait hseed => exact h.seedReport hseed
  | seedReap c status hseed hc hstatus => exact h.seedReap hseed
  | destruct pid c hrunning hsend => exact h.destruct (mem_of_running hrunning) hsend
  | exit pid status c hrunning => exact h.exit pid status
  | _ => exact ⟨h.send, h.forks, h.reporting, h.waiting, h.parent⟩

theorem mode_start (s : QuapiSolver) : (start s).Mode :=
  ⟨List.forall_mem_nil _, fun _ hw => absurd hw List.not_mem_nil, fun _ _ _ hr => absurd hr (by
    simp [start]), fun _ hr => absurd hr (by simp [start]), List.forall_mem_nil _⟩

/-! ### Without regular expressions -/

/-- Neither regular expressions nor a callback. -/
structure Plain (x : System) : Prop where
  mode : x.Mode
  regexes : x.solver.regexes = none
  stdoutCb : x.solver.stdoutCb = none

theorem Plain.send (h : x.Plain) {c : Child} (hc : c ∈ x.children) :
    c.sendDestructedMsg = false := by
  by_contra hsend
  have hnone := h.mode.send c hc (Bool.not_eq_false _ |>.mp hsend)
  rw [h.regexes] at hnone
  exact absurd hnone (by simp)

theorem Plain.step (h : x.Plain) (hcb : ∀ cb, a ≠ .setStdoutCb (some cb)) (hy : Does x a y) :
    y.Plain := by
  refine ⟨h.mode.step hy, hy.regexes.trans h.regexes, ?_⟩
  cases hy with
  | pass solver listens msgs hpid hregexes hcb' hstate hmsgs =>
    rcases hcb' with hsame | ⟨cb, rfl, hset⟩
    · exact hsame.trans h.stdoutCb
    · cases cb with
      | none => exact hset
      | some cb => exact absurd rfl (hcb cb)
  | proceed pending hpc hneeds => exact (proceed_regexes x pending).2.trans h.stdoutCb
  | report pending pid source rest hpc hparent =>
    exact (proceed_regexes _ pending).2.trans h.stdoutCb
  | abort d hpc hchild heventfd hrequests =>
    rcases x.abortSolverchild_cases with heq | ⟨pid, heq⟩ <;> rw [heq] <;> exact h.stdoutCb
  | _ => exact h.stdoutCb

end

end System

/-- A child of the given round has the pid, and has ended with the exit code. -/
def System.Ended (x : System) (r : ℕ) (pid code : ℤ) : Prop :=
  ∃ c ∈ x.children, c.round = r ∧ c.pid = pid ∧
    ∃ status, c.status = some status ∧ status.exitCode = code

/-- **Where an event belongs**: an exit code read in the poll loop is that of the child of
the round, whose pid the library knows; a report is read in its own round; and a solve
returns an exit code that it has read, or it has been aborted. -/
def Event.Attributed (x : System) : Event → Prop
  | .skipped _ _ _ => True
  | .report r pid source => source = r ∧ ∃ c ∈ x.children, c.round = r ∧ c.pid = pid
  | .message r msg source pid => source = r ∧
    ∃ code known, msg = .exitCode code ∧ pid = some known ∧ x.Ended r known code
  | .output _ _ => True
  | .aborted _ _ => True
  | .returned r code => (∃ source pid, .message r (.exitCode code) source pid ∈ x.log) ∨
    code = 0 ∧ ∃ requests, .aborted r requests ∈ x.log

namespace System

section

variable {x y : System} {a : Act} {allowMissing : Bool} {acts : List Act} {s : QuapiSolver}

/-- What is true of an event stays true. -/
theorem attributed_mono {ev : Event} (h : ev.Attributed x)
    (hchildren : ∀ c ∈ x.children, ∃ d ∈ y.children, c.Later d)
    (hlog : ∀ ev ∈ x.log, ev ∈ y.log) : ev.Attributed y := by
  cases ev with
  | skipped r msg source => exact trivial
  | report r pid source =>
    obtain ⟨hsource, c, hc, hround, hpid⟩ := h
    obtain ⟨d, hd, hround', hpid', -⟩ := hchildren c hc
    exact ⟨hsource, d, hd, hround'.trans hround, hpid'.trans hpid⟩
  | message r msg source pid =>
    obtain ⟨hsource, code, known, hmsg, hpid, c, hc, hround, hknown, status, hstatus, hcode⟩ := h
    obtain ⟨d, hd, hround', hpid', hstatus'⟩ := hchildren c hc
    exact ⟨hsource, code, known, hmsg, hpid, d, hd, hround'.trans hround, hpid'.trans hknown,
      status, hstatus' status hstatus, hcode⟩
  | output r data => exact trivial
  | aborted r requests => exact trivial
  | returned r code =>
    rcases h with ⟨source, pid, hev⟩ | ⟨hcode, requests, hev⟩
    · exact Or.inl ⟨source, pid, hlog _ hev⟩
    · exact Or.inr ⟨hcode, requests, hlog _ hev⟩

theorem serveLines_of_rule (h : ∀ line, s.rule line = none) (lines : ℕ) (buf : List Char) :
    (s.serveLines lines buf).1 = none := by
  induction lines generalizing buf with
  | zero => rfl
  | succ lines ih =>
    rw [QuapiSolver.serveLines, h]
    exact ih _

/-- Without regular expressions and a callback, no line decides anything. -/
theorem Plain.afterOutput (h : x.Plain) (d : PollData) (n : ℕ) :
    ∃ buf, x.afterOutput d n = .polling { d with buf := buf } := by
  have hrule : ∀ line, x.solver.rule line = none := by
    intro line
    rw [QuapiSolver.rule, h.regexes, h.stdoutCb]
    rfl
  -- the loop goes through all lines
  have hserve := serveLines_of_rule hrule ((x.heard n).count '\n') (d.buf ++ x.heard n)
  rw [System.afterOutput]
  split
  case h_1 retcode buf heq => exact absurd ((congrArg Prod.fst heq).symm.trans hserve) (by simp)
  case h_2 buf heq => exact ⟨buf, rfl⟩

/-- **The exit codes have been the right ones** so far. -/
structure Reported (x : System) : Prop where
  sound : x.protocol.Sound
  own : x.protocol.Own
  plain : x.Plain
  log : ∀ ev ∈ x.log, ev.Attributed x
  finishing : ∀ code, x.pc = .finishing code → Event.Attributed x (.returned x.round code)

theorem log_proceed (x : System) (pending : PendingCall) :
    (x.proceed pending).log = x.log ∧ (x.proceed pending).children = x.children ∧
      ∀ retcode, (x.proceed pending).pc ≠ .finishing retcode := by
  cases pending with
  | assume lit => exact ⟨rfl, rfl, fun _ => LibraryPc.noConfusion⟩
  | solve =>
    rw [System.proceed]
    split <;> exact ⟨rfl, rfl, fun _ => LibraryPc.noConfusion⟩

/-- The exit code at the head of the messages is that of the child of the round. -/
theorem Reported.head (h : x.Reported) (hforking : x.forking = false) {msg : QuapiMsg}
    {source : ℕ} {rest : List (QuapiMsg × ℕ)} (hparent : x.toParent = (msg, source) :: rest) :
    source = x.round ∧ ∃ code known, msg = .exitCode code ∧
      x.solver.solverchildPid = some known ∧ x.Ended x.round known code := by
  have hmem : (msg, source) ∈ x.toParent := hparent ▸ List.mem_cons_self
  have hsource : source = x.round := own_head h.own hforking hparent
  refine ⟨hsource, ?_⟩
  rcases h.plain.mode.parent _ hmem with ⟨pid, hmsg⟩ | ⟨-, code, hmsg⟩ | ⟨hnone, -⟩
  · -- a report is only on its way while the library waits for it
    have hcount : x.protocol.forks + x.protocol.seed.reports + x.toParent.countP isReport =
        x.forking.toNat := h.sound.count
    obtain rfl : msg = .forkReport pid := hmsg
    rw [hforking, hparent, List.countP_cons_of_pos rfl, Bool.toNat_false] at hcount
    exact absurd hcount (by omega)
  · obtain rfl : msg = .exitCode code := hmsg
    obtain ⟨c, hc, hround, status, hstatus, hcode⟩ := h.sound.exit code source hmem
    have hround' : c.round = x.round := hround.trans hsource
    exact ⟨code, c.pid, rfl, h.sound.pid hforking c hc hround', c, hc, hround', rfl, status,
      hstatus, hcode⟩
  · rw [h.plain.regexes] at hnone
    exact absurd hnone (by simp)

/-- The events so far stay where they belong, and new ones join them. -/
theorem attributed_append (h : ∀ e ∈ x.log, e.Attributed x)
    (hchildren : ∀ c ∈ x.children, ∃ d ∈ y.children, c.Later d) {evs : List Event}
    (hlog : y.log = x.log ++ evs) (hevs : ∀ e ∈ evs, e.Attributed y) :
    ∀ e ∈ y.log, e.Attributed y := by
  intro e he
  rw [hlog] at he
  rcases List.mem_append.mp he with he | he
  · exact attributed_mono (h e he) hchildren fun e he => hlog ▸ List.mem_append_left _ he
  · exact hevs e he

/-- What the poll loop reads is an exit code, and becomes the result. -/
theorem Reported.finishing_of_message (h : x.Reported) {d : PollData} {code code' : ℤ}
    (hc : x.afterMessage d (.exitCode code) = .finishing code') : code' = code := by
  have hnone : ¬(code = 0 ∧ x.solver.stdoutCb.isSome = true) := by
    rw [h.plain.stdoutCb]
    exact fun hc => Bool.false_ne_true hc.2
  exact (LibraryPc.finishing.inj ((if_neg hnone).symm.trans hc)).symm

theorem Reported.step (h : x.Reported) (hcb : ∀ cb, a ≠ .setStdoutCb (some cb)) (hy : Does x a y) :
    y.Reported := by
  have hplain := h.plain.step hcb hy
  have hown : y.protocol.Own := hy.own h.sound h.own fun pid c _ hrunning hsend =>
    absurd ((h.plain.send (mem_of_running hrunning)).symm.trans hsend) Bool.false_ne_true
  have hsound := hy.sound h.sound
  have hlater : ∀ c ∈ x.children, ∃ d ∈ y.children, c.Later d := fun c hc => hy.later hc
  have hnew : ∀ {ev : Event}, y.log = x.log ++ [ev] → ev.Attributed y →
      ∀ e ∈ y.log, e.Attributed y := fun hlog hev =>
    attributed_append h.log hlater hlog (List.forall_mem_singleton.mpr hev)
  have hsame : y.log = x.log → ∀ e ∈ y.log, e.Attributed y := fun hlog =>
    attributed_append h.log hlater (hlog.trans (List.append_nil _).symm) (List.forall_mem_nil _)
  have hquiet : y.log = x.log → y.pc = x.pc → y.round = x.round → y.Reported := by
    refine fun hlog hpc hround => ⟨hsound, hown, hplain, hsame hlog, ?_⟩
    intro code hc
    rw [hround]
    exact attributed_mono (h.finishing code (hpc.symm.trans hc)) hlater fun e he => hlog ▸ he
  cases hy with
  | reset hpc hstate =>
    have hlog : x.abortSolverchild.log = x.log ∧ x.abortSolverchild.pc = x.pc ∧
        x.abortSolverchild.round = x.round := by
      rcases x.abortSolverchild_cases with heq | ⟨pid, heq⟩ <;> rw [heq] <;> exact ⟨rfl, rfl, rfl⟩
    exact hquiet hlog.1 hlog.2.1 hlog.2.2
  | ask pending hpc hneeds =>
    exact ⟨hsound, hown, hplain, hsame rfl, fun code hc => LibraryPc.noConfusion hc⟩
  | proceed pending hpc hneeds =>
    obtain ⟨hlog, -, hpc'⟩ := log_proceed x pending
    exact ⟨hsound, hown, hplain, hsame hlog, fun code hc => absurd hc (hpc' code)⟩
  | report pending pid source rest hpc hparent =>
    obtain ⟨hlog, hchildren, hpc'⟩ := log_proceed { x with
      toParent := rest
      solver := x.solver.gotReport pid
      log := x.log ++ [.report x.round pid source] } pending
    refine ⟨hsound, hown, hplain, hnew hlog ?_, fun code hc => absurd hc (hpc' code)⟩
    obtain ⟨hsource, c, hc, hround, hpid⟩ := report_head h.sound (forking_of_eq hpc) hparent
    refine ⟨hsource, c, ?_, hround, hpid⟩
    rw [hchildren]
    exact hc
  | skip pending msg source rest hpc hparent hmsg =>
    exact ⟨hsound, hown, hplain, hnew rfl trivial,
      fun code hc => LibraryPc.noConfusion (hpc.symm.trans hc)⟩
  | poll d hpc hnone =>
    exact ⟨hsound, hown, hplain, hsame rfl, fun code hc => LibraryPc.noConfusion hc⟩
  | message d msg source rest hpc hchild hparent =>
    obtain ⟨hsource, code, known, rfl, hpid, hended⟩ := h.head (forking_of_polling hpc) hparent
    refine ⟨hsound, hown, hplain, hnew rfl ⟨hsource, code, known, rfl, hpid, hended⟩,
      fun code' hc => Or.inl ⟨source, x.solver.solverchildPid, ?_⟩⟩
    rw [h.finishing_of_message hc]
    exact List.mem_append_right _ (List.mem_singleton.mpr rfl)
  | abort d hpc hchild heventfd hrequests =>
    refine ⟨hsound, hown, hplain, hnew rfl trivial, fun code hc => Or.inr ⟨?_, x.eventfd, ?_⟩⟩
    · exact (LibraryPc.finishing.inj hc).symm
    · have hround : x.abortSolverchild.round = x.round := by
        rcases x.abortSolverchild_cases with heq | ⟨pid, heq⟩ <;> rw [heq]
        rfl
      change Event.aborted x.abortSolverchild.round _ ∈ _
      rw [hround]
      exact List.mem_append_right _ (List.mem_singleton.mpr rfl)
  | output n d hpc hchild heventfd hsolverchild hn =>
    obtain ⟨buf, hbuf⟩ := h.plain.afterOutput { d with solverchild := false } n
    exact ⟨hsound, hown, hplain, hnew rfl trivial,
      fun code hc => LibraryPc.noConfusion (hbuf.symm.trans hc)⟩
  | finish retcode hpc =>
    have hreturned := attributed_mono (h.finishing retcode hpc) hlater fun e he =>
      List.mem_append_left [Event.returned x.round retcode] he
    exact ⟨hsound, hown, hplain, hnew rfl hreturned, fun code hc => LibraryPc.noConfusion hc⟩
  | _ => exact hquiet rfl rfl rfl

/-- **Exit codes are attributed**: without regular expressions and without a callback, in
every run, every event is that of its round; and there is one child for each round. -/
theorem exit_codes_attributed {litcount clausecount maxassumptions : CInt}
    (hinit : quapiInit litcount clausecount maxassumptions none = some s)
    (hcb : ∀ a ∈ acts, ∀ cb, a ≠ .setStdoutCb (some cb))
    (hrun : Machine.run (step allowMissing) (start s) acts = some x) :
    (∀ ev ∈ x.log, ev.Attributed x) ∧
      x.children.map Child.round = List.range' 1 x.children.length := by
  have hstart : (start s).Reported := by
    obtain ⟨-, clauses, -, rfl⟩ := quapiInit_cases hinit
    exact ⟨sound_start _, fun m hm => absurd hm List.not_mem_nil, ⟨mode_start _, rfl, rfl⟩,
      List.forall_mem_nil _, fun code hc => LibraryPc.noConfusion hc⟩
  have hreported := Machine.invariant_of_meets (P := fun _ a => ∀ cb, a ≠ .setStdoutCb (some cb))
    (fun _ _ _ ha hy hx => hx.step ha (does_of_step hy)) hrun
    (Machine.meets_of_forall fun a ha _ => hcb a ha) hstart
  exact ⟨hreported.log, hreported.sound.rounds⟩

end

/-- A clause and a round that is terminated. -/
def terminatedActs : List Act :=
  [.call (.add (lit 1)), .call (.add 0), .call (.assume (lit 2)), .seedRead, .seedRead,
    .seedFork 7, .seedReport, .readReport, .call .solve, .terminate, .poll, .handle 0, .finish,
    .seedReap]

/-- The next round: the exit code of the first child is skipped, and the second child takes
its messages and exits with the code `10`. -/
def solvedActs : List Act :=
  [.call (.assume (lit 3)), .seedFork 8, .seedReport, .readReport, .readReport, .call .solve,
    .take 8 5, .exit 8 (.exited 10), .seedReap, .poll, .handle 0, .finish]

theorem solved_attributed : ∃ x,
    Machine.run (step false) (start (small none)) (terminatedActs ++ solvedActs) = some x ∧
      x.log = [.report 1 7 1, .aborted 1 [1], .returned 1 0, .skipped 2 (.exitCode 0) 1,
        .report 2 8 2, .message 2 (.exitCode 10) 2 (some 8), .returned 2 10] ∧
      (∀ ev ∈ x.log, ev.Attributed x) ∧
      x.children.map Child.round = List.range' 1 x.children.length := by
  have hrun : ((Machine.run (step false) (start (small none))
      (terminatedActs ++ solvedActs)).map System.log) =
        some [.report 1 7 1, .aborted 1 [1], .returned 1 0, .skipped 2 (.exitCode 0) 1,
          .report 2 8 2, .message 2 (.exitCode 10) 2 (some 8), .returned 2 10] := by
    decide
  obtain ⟨x, hx, hlog⟩ := Option.map_eq_some_iff.mp hrun
  refine ⟨x, hx, hlog, exit_codes_attributed (small_init none) ?_ hx⟩
  intro a ha cb
  simp only [terminatedActs, solvedActs, List.cons_append, List.nil_append, List.mem_cons,
    List.not_mem_nil, or_false] at ha
  rintro rfl
  simp at ha

/-! ### With regular expressions -/

section

variable {x y : System} {a : Act} {allowMissing : Bool} {acts : List Act} {s : QuapiSolver}

/-- **An older child is done**: it neither prints nor sends DESTRUCTED once a newer one has
been reported, and by then nothing that it printed is left. -/
def OlderDone (x : System) : Act → Prop
  | .print pid _ => ∀ c, c ∈ x.running pid → c.round = x.children.length ∨ x.seed.reports = 1
  | .destruct pid => ∀ c, c ∈ x.running pid → c.round = x.children.length ∨ x.seed.reports = 1
  | .seedReport => ∀ d ∈ x.stdout, d.2 = x.children.length
  | _ => True

instance (x : System) : ∀ a, Decidable (x.OlderDone a)
  | .print pid _ => inferInstanceAs (Decidable (∀ c, c ∈ x.running pid → _ ∨ _))
  | .destruct pid => inferInstanceAs (Decidable (∀ c, c ∈ x.running pid → _ ∨ _))
  | .seedReport => inferInstanceAs (Decidable (∀ d ∈ x.stdout, _))
  | .call _ | .setStdoutCb _ | .readReport | .poll | .handle _ | .finish | .terminate
  | .flush _ | .seedRead | .seedFork _ | .seedReap | .take _ _ | .readOn _ _ | .exit _ _ =>
    isTrue trivial

/-- The report of the round has been written. -/
def Announced (x : System) : Prop := x.forking = false ∨ 0 < x.toParent.countP isReport

/-- Once the report of the round has been written, the output is that of its child. -/
def Heard (x : System) : Prop := x.Announced → ∀ d ∈ x.stdout, d.2 = x.round

/-- While a report is on its way, all children have been reported or are about to be. -/
theorem Announced.length (hs : x.protocol.Sound) (h : x.Announced) :
    x.seed.reports = 0 ∧ x.children.length = x.round := by
  have hcount : x.toSeed.countP Stream.isFork + x.seed.reports + x.toParent.countP isReport =
      x.forking.toNat := hs.count
  have hlength : x.children.length + x.toSeed.countP Stream.isFork = x.round := hs.length
  have hle := Bool.toNat_le x.forking
  rcases h with hf | hpos
  · rw [hf, Bool.toNat_false] at hcount
    omega
  · omega

theorem proceed_frame (x : System) (pending : PendingCall) :
    (x.proceed pending).stdout = x.stdout ∧ (x.proceed pending).round = x.round ∧
      (x.proceed pending).eventfd = x.eventfd := by
  cases pending with
  | assume lit => exact ⟨rfl, rfl, rfl⟩
  | solve =>
    rw [System.proceed]
    split <;> exact ⟨rfl, rfl, rfl⟩

/-- A message that is no report announces nothing. -/
theorem announced_of_append (h : y.Announced) {m : QuapiMsg × ℕ} (hm : isReport m = false)
    (hparent : y.toParent = x.toParent ++ [m]) (hforking : y.forking = x.forking) :
    x.Announced := by
  rcases h with hf | hpos
  · exact Or.inl (hforking.symm.trans hf)
  · rw [hparent, List.countP_append, List.countP_singleton, hm] at hpos
    exact Or.inr hpos

/-- **The output stays that of the child of the round.** -/
theorem Heard.step (h : x.Heard) (hs : x.protocol.Sound) (ha : x.OlderDone a) (hy : Does x a y) :
    y.Heard := by
  have hcount : x.toSeed.countP Stream.isFork + x.seed.reports + x.toParent.countP isReport =
      x.forking.toNat := hs.count
  cases hy with
  | reset hpc hstate =>
    rcases x.abortSolverchild_cases with heq | ⟨pid, heq⟩ <;> rw [heq] <;> exact h
  | ask pending hpc hneeds =>
    -- nothing has been announced
    rw [forking_of_idle hpc, Bool.toNat_false] at hcount
    rintro (hf | hpos)
    · exact absurd hf (by simp [forking])
    · change 0 < x.toParent.countP isReport at hpos
      omega
  | proceed pending hpc hneeds =>
    obtain ⟨hstdout, hround, -⟩ := proceed_frame x pending
    intro _ e he
    rw [hround]
    exact h (Or.inl (forking_of_idle hpc)) e (hstdout ▸ he)
  | report pending pid source rest hpc hparent =>
    obtain ⟨hstdout, hround, -⟩ := proceed_frame { x with
      toParent := rest
      solver := x.solver.gotReport pid
      log := x.log ++ [.report x.round pid source] } pending
    intro _ e he
    rw [hstdout] at he
    rw [hround]
    refine h (Or.inr ?_) e he
    rw [hparent, List.countP_cons_of_pos rfl]
    exact Nat.succ_pos _
  | skip pending msg source rest hpc hparent hmsg =>
    rintro (hf | hpos)
    · exact h (Or.inl hf)
    · refine h (Or.inr ?_)
      rw [hparent, List.countP_cons]
      exact Nat.lt_of_lt_of_le hpos (Nat.le_add_right _ _)
  | poll d hpc hnone => exact fun _ => h (Or.inl (forking_of_polling hpc))
  | message d msg source rest hpc hchild hparent =>
    exact fun _ => h (Or.inl (forking_of_polling hpc))
  | abort d hpc hchild heventfd hrequests =>
    have hx := h (Or.inl (forking_of_polling hpc))
    rcases x.abortSolverchild_cases with heq | ⟨pid, heq⟩ <;> rw [heq] <;> exact fun _ => hx
  | output n d hpc hchild heventfd hsolverchild hn =>
    exact fun _ e he => h (Or.inl (forking_of_polling hpc)) e (List.mem_of_mem_drop he)
  | finish retcode hpc => exact fun _ => h (Or.inl (forking_of_finishing hpc))
  | seedFork pid wait rest hseed htoSeed hfree =>
    -- the FORK has not been answered
    rw [htoSeed, List.countP_cons_of_pos rfl] at hcount
    have hle := Bool.toNat_le x.forking
    rintro (hf | hpos)
    · change x.forking = false at hf
      rw [hf, Bool.toNat_false] at hcount
      omega
    · change 0 < x.toParent.countP isReport at hpos
      omega
  | seedReport round pid wait hseed =>
    have hlength : x.children.length + x.toSeed.countP Stream.isFork = x.round := hs.length
    have hle := Bool.toNat_le x.forking
    rw [hseed, SeedState.reports] at hcount
    intro _ e he
    change e.2 = x.round
    rw [ha e he]
    omega
  | seedReap c status hseed hc hstatus =>
    exact fun hy => h (announced_of_append hy rfl rfl rfl)
  | print pid text c hrunning =>
    intro hy e he
    rcases List.mem_append.mp he with he | he
    · exact h hy e he
    · obtain ⟨ch, -, rfl⟩ := List.mem_map.mp he
      obtain ⟨hreports, hlength⟩ := Announced.length hs hy
      rcases ha c hrunning with hround | hone
      · exact hround.trans hlength
      · exact absurd (hreports.symm.trans hone) (by simp)
  | destruct pid c hrunning hsend =>
    exact fun hy => h (announced_of_append hy (m := (.destructed, c.round)) rfl rfl rfl)
  | exit pid status c hrunning => exact h
  | _ => exact h

end

end System

/-- Something that the poll loop consumes is from the child of its round. -/
def Event.Own : Event → Prop
  | .message r _ source _ => source = r
  | .output r data => ∀ d ∈ data, d.2 = r
  | _ => True

namespace System

section

variable {x y : System} {a : Act} {allowMissing : Bool} {acts : List Act} {s : QuapiSolver}

/-- **The rounds have been kept apart** so far. -/
structure Apart (x : System) : Prop where
  sound : x.protocol.Sound
  own : x.protocol.Own
  heard : x.Heard
  log : ∀ ev ∈ x.log, ev.Own

theorem Apart.step (h : x.Apart) (ha : x.OlderDone a) (hy : Does x a y) : y.Apart := by
  have hsound := hy.sound h.sound
  have hheard := h.heard.step h.sound ha hy
  have hown : y.protocol.Own := by
    refine hy.own h.sound h.own ?_
    intro pid c hact hrunning _
    subst hact
    exact ha c hrunning
  have hnew : ∀ {ev : Event}, ev.Own → ∀ e ∈ x.log ++ [ev], e.Own := by
    intro ev hev e he
    rcases List.mem_append.mp he with he | he
    · exact h.log e he
    · rwa [List.mem_singleton.mp he]
  refine ⟨hsound, hown, hheard, ?_⟩
  cases hy with
  | reset hpc hstate =>
    rcases x.abortSolverchild_cases with heq | ⟨pid, heq⟩ <;> rw [heq] <;> exact h.log
  | proceed pending hpc hneeds =>
    rw [(log_proceed x pending).1]
    exact h.log
  | report pending pid source rest hpc hparent =>
    rw [(log_proceed _ pending).1]
    exact hnew trivial
  | skip pending msg source rest hpc hparent hmsg => exact hnew trivial
  | message d msg source rest hpc hchild hparent =>
    exact hnew (own_head h.own (forking_of_polling hpc) hparent)
  | abort d hpc hchild heventfd hrequests => exact hnew trivial
  | output n d hpc hchild heventfd hsolverchild hn =>
    exact hnew fun e he =>
      h.heard (Or.inl (forking_of_polling hpc)) e (List.mem_of_mem_take he)
  | finish retcode hpc => exact hnew trivial
  | _ => exact h.log

/-- **Results are the child's own**: in every run in which an older child is done once a
newer one has been reported, every message and all output that the poll loop consumes is
from the child of its round. -/
theorem results_own
    (hdone : Machine.Meets (step allowMissing) OlderDone (start s) acts)
    (hrun : Machine.run (step allowMissing) (start s) acts = some x) : ∀ ev ∈ x.log, ev.Own := by
  have hstart : (start s).Apart :=
    ⟨sound_start s, fun m hm => absurd hm List.not_mem_nil, fun _ => List.forall_mem_nil _,
      List.forall_mem_nil _⟩
  exact (Machine.invariant_of_meets (fun _ _ _ ha hy hx => Apart.step hx ha (does_of_step hy))
    hrun hdone hstart).log

end

/-- A clause and a round in which the child prints its verdict. -/
def verdictActs : List Act :=
  [.call (.add (lit 1)), .call (.add 0), .call (.assume (lit 2)), .seedRead, .seedRead,
    .seedFork 7, .seedReport, .readReport, .call .solve, .take 7 3,
    .print 7 ['S', 'A', 'T', '\n'], .poll, .handle 4, .finish]

/-- The next round: the first child is destructed before the second one prints its verdict. -/
def nextActs : List Act :=
  [.destruct 7, .call (.assume (lit 3)), .seedFork 8, .seedReport, .readReport, .readReport,
    .call .solve, .take 8 3, .print 8 ['U', 'N', 'S', 'A', 'T', '\n'], .poll, .handle 6, .finish]

theorem verdicts_own : ∃ x,
    Machine.run (step false) (start (small (some verdicts)))
      (verdictActs ++ nextActs) = some x ∧
      .returned 1 10 ∈ x.log ∧ .returned 2 20 ∈ x.log ∧ ∀ ev ∈ x.log, ev.Own := by
  have hrun : ((Machine.run (step false) (start (small (some verdicts)))
      (verdictActs ++ nextActs)).map fun x =>
        (decide (.returned 1 10 ∈ x.log), decide (.returned 2 20 ∈ x.log))) =
        some (true, true) := by
    decide
  obtain ⟨x, hx, hlog⟩ := Option.map_eq_some_iff.mp hrun
  obtain ⟨hfirst, hsecond⟩ := Prod.mk.inj hlog
  exact ⟨x, hx, of_decide_eq_true hfirst, of_decide_eq_true hsecond,
    results_own (by decide) hx⟩

/-- **A result that is not the child's own**: the first child sends DESTRUCTED once the
second one has been reported, and the second solve returns `0`. -/
theorem late_destructed : ∃ x,
    Machine.run (step false) (start (small (some verdicts)))
      (verdictActs ++ [.call (.assume (lit 3)), .seedFork 8, .seedReport, .readReport,
        .call .solve, .destruct 7, .poll, .handle 0, .finish]) = some x ∧
      .returned 1 10 ∈ x.log ∧ .message 2 .destructed 1 (some 8) ∈ x.log ∧
      .returned 2 0 ∈ x.log ∧ ¬∀ ev ∈ x.log, ev.Own := by
  have hrun : ((Machine.run (step false) (start (small (some verdicts)))
      (verdictActs ++ [.call (.assume (lit 3)), .seedFork 8, .seedReport, .readReport,
        .call .solve, .destruct 7, .poll, .handle 0, .finish])).map fun x =>
        (decide (.returned 1 10 ∈ x.log), decide (.message 2 .destructed 1 (some 8) ∈ x.log),
          decide (.returned 2 0 ∈ x.log))) = some (true, true, true) := by
    decide
  obtain ⟨x, hx, hlog⟩ := Option.map_eq_some_iff.mp hrun
  obtain ⟨hfirst, hrest⟩ := Prod.mk.inj hlog
  obtain ⟨hmessage, hsecond⟩ := Prod.mk.inj hrest
  have hmem := of_decide_eq_true hmessage
  refine ⟨x, hx, of_decide_eq_true hfirst, hmem, of_decide_eq_true hsecond, ?_⟩
  intro h
  have hround : 1 = 2 := h _ hmem
  exact absurd hround (by decide)

end System

end QuAPI
