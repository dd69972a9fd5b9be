import Mathlib.Data.Set.Finite.Lattice
import QuAPI.Processes
import QuAPI.Verdict

/-!
# Whether a call comes back

What the library waits for, and whether it is going to come. The acts are told apart by who
makes them: those of the library and the seeding process (`QuAPI.System.Act.Own`) happen as
soon as they can, those of the children when the children like, and the others are calls.

* `QuAPI.System.comes_to_rest`: the library and the seeding process cannot go on forever by
  themselves, and where they stop, every call has returned, or the poll loop has served all
  that is there, or a fork waits for an older child to end, or for a seeding process that has
  no case for its next message.
* `QuAPI.System.returns_iff`: a poll loop at rest comes back without help exactly if one of
  the children is still able to say something (`QuAPI.System.CanTell`); where a child has been
  killed before it did, `quapi_solve` stays in `poll`.
* `QuAPI.System.terminate_returns`: a request makes every solve come back.

The poll loop does not depend on what the processes are able to do; for a fork it matters
(`QuAPI.System.live`).
-/

namespace QuAPI

/-! ### What is left to do -/

/-- What the library has to do before it is idle. -/
def LibraryPc.owed : LibraryPc → ℕ
  | idle => 0
  | finishing _ => 1
  | forking _ => 2
  | polling d => if d.child ∨ d.eventfd ∨ d.solverchild then 2 else 3

/-- What the seeding process has to do before it reads again. It writes a message to the
library in each step. -/
def SeedState.owed : SeedState → ℕ
  | reading => 0
  | reporting _ _ _ => 6
  | waiting _ => 3

namespace System

/-- **The acts of the library and the seeding process**, but for the beginning of a call. -/
def Act.Own : Act → Prop
  | .readReport | .poll | .handle _ | .finish => True
  | .seedRead | .seedFork _ | .seedReport | .seedReap => True
  | _ => False

/-- The acts of the library among them. -/
def Act.Library : Act → Prop
  | .readReport | .poll | .handle _ | .finish => True
  | _ => False

/-- The acts that need no help: neither a call nor a request nor another callback. -/
def Act.Spontaneous : Act → Prop
  | .call _ | .setStdoutCb _ | .terminate => False
  | _ => True

/-- The spontaneous acts that do not depend on what has been padded. -/
def Act.Plain (a : Act) : Prop := a.Spontaneous ∧ ∀ i n, a ≠ .readOn i n

instance : DecidablePred Act.Own
  | .readReport | .poll | .handle _ | .finish | .seedRead | .seedFork _ | .seedReport
  | .seedReap => isTrue trivial
  | .call _ | .setStdoutCb _ | .terminate | .flush _ | .take _ _ | .readOn _ _ | .print _ _
  | .destruct _ | .exit _ _ => isFalse id

instance : DecidablePred Act.Spontaneous
  | .call _ | .setStdoutCb _ | .terminate => isFalse id
  | .readReport | .poll | .handle _ | .finish | .seedRead | .seedFork _ | .seedReport
  | .seedReap | .flush _ | .take _ _ | .readOn _ _ | .print _ _ | .destruct _
  | .exit _ _ => isTrue trivial

theorem Act.Own.plain {a : Act} (h : a.Own) : a.Plain := by
  refine ⟨?_, ?_⟩
  · cases a <;> first | exact trivial | exact absurd h id
  · rintro i n rfl
    exact h

theorem Act.Own.spontaneous {a : Act} (h : a.Own) : a.Spontaneous := h.plain.1

theorem Act.Library.own {a : Act} (h : a.Library) : a.Own := by
  cases a <;> first | exact trivial | exact absurd h id

section

variable (x : System)

/-- **The work that is left** for the library and the seeding process. -/
def work : ℕ :=
  2 * x.toParent.length + 2 * x.stdout.length + 7 * x.toSeed.length + x.seed.owed + x.pc.owed

/-- The library and the seeding process have stopped. -/
def Settled (allowMissing : Bool) : Prop := ∀ a : Act, a.Own → x.step allowMissing a = none

/-- The library has stopped. -/
def Halted (allowMissing : Bool) : Prop := ∀ a : Act, a.Library → x.step allowMissing a = none

/-- **A call can come back** without help. -/
def CanReturn (allowMissing : Bool) : Prop :=
  Machine.Leads (step allowMissing) Act.Spontaneous x fun y => y.pc = .idle

/-- What a child can print in a line that the library sees in one piece. -/
def Printable (line : List Char) : Prop := '\n' ∉ line ∧ '\x00' ∉ line

/-- **Somebody can tell the result**: the seeding process waits for a child, or a child that
runs can send DESTRUCTED, or print a line that is ruled on. -/
def CanTell : Prop :=
  (∃ r, x.seed = .waiting r) ∨
  (∃ pid c, x.running pid = some c ∧ c.sendDestructedMsg = true) ∨
  x.listens = true ∧ (∃ pid c, x.running pid = some c) ∧
    ∃ line, Printable line ∧ x.solver.rule line ≠ none

end

/-! ### The poll loop is sane -/

section

variable {x y : System} {a : Act} {allowMissing : Bool} {acts : List Act} {s : QuapiSolver}
  {pending : PendingCall} {d : PollData}

/-- **What the flags of the poll loop say is so**, and the rest of a line is in its buffer. -/
structure Sane (x : System) (d : PollData) : Prop where
  child : d.child = true → x.toParent ≠ []
  eventfd : d.eventfd = true → x.eventfd ≠ []
  solverchild : d.solverchild = true → x.stdout ≠ [] ∧ x.listens = true
  buf : Printable d.buf
  working : x.solver.state = .working

/-- A state in which the poll loop is sane, and the child that is waited for is there. -/
structure Alive (x : System) : Prop where
  sound : x.protocol.Sound
  polling : ∀ d, x.pc = .polling d → x.Sane d
  waiting : ∀ r, x.seed = .waiting r → ∃ c ∈ x.children, c.round = r

theorem sane_begin (hstate : x.solver.state = .working) : x.Sane ⟨false, false, false, []⟩ :=
  ⟨fun h => absurd h Bool.false_ne_true, fun h => absurd h Bool.false_ne_true,
    fun h => absurd h Bool.false_ne_true, ⟨List.not_mem_nil, List.not_mem_nil⟩, hstate⟩

theorem sane_proceed (x : System) (pending : PendingCall) (d : PollData)
    (hpc : (x.proceed pending).pc = .polling d) : (x.proceed pending).Sane d := by
  cases pending with
  | assume lit => exact LibraryPc.noConfusion hpc
  | solve =>
    rw [System.proceed] at hpc ⊢
    split at hpc
    case isTrue hc =>
      obtain rfl := LibraryPc.polling.inj hpc
      rw [if_pos hc]
      exact sane_begin rfl
    case isFalse hc => exact LibraryPc.noConfusion hpc

/-- What the pipes get more of. -/
theorem Sane.later (h : x.Sane d) (hparent : x.toParent <+: y.toParent)
    (heventfd : x.eventfd <+: y.eventfd) (hstdout : x.stdout <+: y.stdout)
    (hlistens : x.listens = true → y.listens = true) (hstate : y.solver.state = x.solver.state) :
    y.Sane d := by
  have hsome : ∀ {β : Type} {l m : List β}, l <+: m → l ≠ [] → m ≠ [] := by
    intro β l m hlm hl hm
    rw [hm] at hlm
    exact hl (List.prefix_nil.mp hlm)
  exact ⟨fun hc => hsome hparent (h.child hc), fun he => hsome heventfd (h.eventfd he),
    fun hs => ⟨hsome hstdout (h.solverchild hs).1, hlistens (h.solverchild hs).2⟩, h.buf,
    hstate.trans h.working⟩

/-- What is in the buffer after a reading. -/
theorem Sane.afterOutput (h : x.Sane d) (n : ℕ) {e : PollData}
    (he : x.afterOutput { d with solverchild := false } n = .polling e) :
    Printable e.buf ∧ e.child = d.child ∧ e.eventfd = d.eventfd ∧ e.solverchild = false := by
  have hbuf : '\n' ∉ ({ d with solverchild := false } : PollData).buf := h.buf.1
  rcases x.afterOutput_spec hbuf n with ⟨v, hv, -⟩ | ⟨hv, -⟩
  · exact LibraryPc.noConfusion (he.symm.trans hv)
  · obtain rfl := LibraryPc.polling.inj (he.symm.trans hv)
    refine ⟨⟨notMem_unfinishedLine List.not_mem_nil, ?_⟩, rfl, rfl, rfl⟩
    intro hzero
    rcases mem_of_mem_unfinishedLine hzero with hnil | hmem
    · exact absurd hnil List.not_mem_nil
    · rcases List.mem_append.mp hmem with hmem | hmem
      · exact h.buf.2 hmem
      -- what is heard ends in front of a zero byte
      · have hne := List.mem_takeWhile_imp hmem
        exact absurd hne (by simp)

/-- **The poll loop stays sane.** -/
theorem Sane.step (h : ∀ d, x.pc = .polling d → x.Sane d) (hy : Does x a y) :
    ∀ d, y.pc = .polling d → y.Sane d := by
  intro e he
  cases hy with
  | pass solver listens msgs hpid hregexes hcb hstate hmsgs hlistens hact =>
    have hx := h e he
    refine hx.later List.prefix_rfl List.prefix_rfl List.prefix_rfl hlistens ?_
    rcases hstate with hstate | ⟨hidle, -⟩
    · exact hstate
    · exact LibraryPc.noConfusion (hidle.symm.trans he)
  | reset hpc hstate =>
    rcases x.abortSolverchild_cases with heq | ⟨pid, heq⟩ <;> rw [heq] at he <;>
      exact LibraryPc.noConfusion (hpc.symm.trans he)
  | ask pending hpc hneeds => exact LibraryPc.noConfusion he
  | proceed pending hpc hneeds => exact sane_proceed x pending e he
  | report pending pid source rest hpc hparent => exact sane_proceed _ pending e he
  | skip pending msg source rest hpc hparent hmsg =>
    exact LibraryPc.noConfusion (hpc.symm.trans he)
  | poll d hpc hnone =>
    obtain rfl := LibraryPc.polling.inj he
    have hx := h d hpc
    refine ⟨?_, ?_, ?_, hx.buf, hx.working⟩
    · intro hc hnil
      change (!x.toParent.isEmpty) = true at hc
      rw [show x.toParent = [] from hnil] at hc
      exact absurd hc (by simp)
    · intro hc hnil
      change (!x.eventfd.isEmpty) = true at hc
      rw [show x.eventfd = [] from hnil] at hc
      exact absurd hc (by simp)
    · intro hc
      obtain ⟨hlistens, hsome⟩ := Bool.and_eq_true_iff.mp hc
      refine ⟨?_, hlistens⟩
      intro hnil
      rw [show x.stdout = [] from hnil] at hsome
      exact absurd hsome (by simp)
  | message d msg source rest hpc hchild hparent =>
    have hx := h d hpc
    rcases x.afterMessage_cases { d with child := false } msg with ⟨retcode, hm⟩ | hm
    · exact LibraryPc.noConfusion (he.symm.trans hm)
    · obtain rfl := LibraryPc.polling.inj (he.symm.trans hm)
      exact ⟨fun hc => absurd hc Bool.false_ne_true, hx.eventfd, hx.solverchild, hx.buf,
        hx.working⟩
  | abort d hpc hchild heventfd hrequests => exact LibraryPc.noConfusion he
  | output n d hpc hchild heventfd hsolverchild hn =>
    have hx := h d hpc
    obtain ⟨hbuf, hc, hev, hs⟩ := hx.afterOutput n he
    refine ⟨?_, ?_, ?_, hbuf, hx.working⟩
    · rw [hc]
      exact hx.child
    · rw [hev]
      exact hx.eventfd
    · rw [hs]
      exact fun hc => absurd hc Bool.false_ne_true
  | finish retcode hpc => exact LibraryPc.noConfusion he
  | terminate hstate =>
    exact (h e he).later List.prefix_rfl (List.prefix_append _ _) List.prefix_rfl id rfl
  | seedReport round pid wait hseed =>
    exact (h e he).later (List.prefix_append _ _) List.prefix_rfl List.prefix_rfl id rfl
  | seedReap c status hseed hc hstatus =>
    exact (h e he).later (List.prefix_append _ _) List.prefix_rfl List.prefix_rfl id rfl
  | print pid text c hrunning =>
    exact (h e he).later List.prefix_rfl List.prefix_rfl (List.prefix_append _ _) id rfl
  | destruct pid c hrunning hsend =>
    exact (h e he).later (List.prefix_append _ _) List.prefix_rfl List.prefix_rfl id rfl
  | _ => exact (h e he).later List.prefix_rfl List.prefix_rfl List.prefix_rfl id rfl

theorem proceed_frame_seed (x : System) (pending : PendingCall) :
    (x.proceed pending).seed = x.seed ∧ (x.proceed pending).toParent = x.toParent :=
  ⟨congrArg ForkProtocol.seed (proceed_protocol x pending),
    congrArg ForkProtocol.parent (proceed_protocol x pending)⟩

/-- **Every act keeps a system alive.** -/
theorem Alive.step (h : x.Alive) (hy : Does x a y) : y.Alive := by
  refine ⟨hy.sound h.sound, Sane.step h.polling hy, ?_⟩
  intro r hr
  -- a child that is there stays there
  have hkeep : x.seed = .waiting r → ∃ c ∈ y.children, c.round = r := by
    intro hx
    obtain ⟨c, hc, hround⟩ := h.waiting r hx
    obtain ⟨d, hd, hround', -⟩ := hy.later hc
    exact ⟨d, hd, hround'.trans hround⟩
  cases hy with
  | reset hpc hstate =>
    refine hkeep ?_
    rcases x.abortSolverchild_cases with heq | ⟨pid, heq⟩ <;> rw [heq] at hr <;> exact hr
  | proceed pending hpc hneeds =>
    rw [(proceed_frame_seed x pending).1] at hr
    exact hkeep hr
  | report pending pid source rest hpc hparent =>
    rw [(proceed_frame_seed _ pending).1] at hr
    exact hkeep hr
  | abort d hpc hchild heventfd hrequests =>
    refine hkeep ?_
    rcases x.abortSolverchild_cases with heq | ⟨pid, heq⟩ <;> rw [heq] at hr <;> exact hr
  | seedFork pid wait rest hseed htoSeed hfree => exact SeedState.noConfusion hr
  | seedReport round pid wait hseed =>
    change (if wait then SeedState.waiting round else .reading) = .waiting r at hr
    split at hr
    · obtain rfl := SeedState.waiting.inj hr
      obtain ⟨c, hc, hround, -⟩ := h.sound.seedPid _ _ _ hseed
      exact ⟨c, hc, hround⟩
    · exact SeedState.noConfusion hr
  | seedReap c status hseed hc hstatus => exact SeedState.noConfusion hr
  | _ => exact hkeep hr

theorem alive_start (s : QuapiSolver) : (start s).Alive :=
  ⟨sound_start s, fun _ h => LibraryPc.noConfusion h, fun _ h => SeedState.noConfusion h⟩

theorem alive_of_run (hrun : Machine.run (step allowMissing) (start s) acts = some x) :
    x.Alive :=
  Machine.invariant (fun _ _ _ hy hx => Alive.step hx (does_of_step hy)) hrun (alive_start s)

/-! ### The work gets less -/

theorem owed_proceed (x : System) (pending : PendingCall) :
    (x.proceed pending).work ≤ 2 * x.toParent.length + 2 * x.stdout.length +
      7 * x.toSeed.length + x.seed.owed + 3 := by
  cases pending with
  | assume lit => exact Nat.le_add_right _ 3
  | solve =>
    rw [System.proceed]
    split
    · exact le_rfl
    · exact Nat.le_add_right _ 3

theorem owed_polling_le (d : PollData) : (LibraryPc.polling d).owed ≤ 3 := by
  rw [LibraryPc.owed]
  split
  · exact Nat.le_succ 2
  · exact le_rfl

theorem owed_polling_of_ready (h : d.child = true ∨ d.eventfd = true ∨ d.solverchild = true) :
    (LibraryPc.polling d).owed = 2 := if_pos h

theorem owed_afterMessage_le (x : System) (d : PollData) (msg : QuapiMsg) :
    (x.afterMessage d msg).owed ≤ 3 := by
  rcases x.afterMessage_cases d msg with ⟨retcode, hm⟩ | hm <;> rw [hm]
  · exact Nat.le_add_left 1 2
  · exact owed_polling_le _

theorem owed_afterOutput_le (x : System) (d : PollData) (n : ℕ) :
    (x.afterOutput d n).owed ≤ 3 := by
  rcases x.afterOutput_cases d n with ⟨retcode, ho⟩ | ⟨buf, ho⟩ <;> rw [ho]
  · exact Nat.le_add_left 1 2
  · exact owed_polling_le _

/-- A reading takes something, where there is something. -/
theorem CanRead.pos {n : ℕ} (h : x.CanRead n) (hsome : x.stdout ≠ []) : 0 < n := by
  rcases h.2 with hall | hzero
  · rw [hall]
    exact List.length_pos_iff.mpr hsome
  · by_contra hnot
    rw [Nat.eq_zero_of_not_pos hnot] at hzero
    exact absurd hzero List.not_mem_nil

/-- Where a poll comes back, something is ready. -/
theorem ready_of_poll {d : PollData} (hpc : x.pc = .polling d)
    (hnone : ¬(d.child ∨ d.eventfd ∨ d.solverchild)) (hy : x.step allowMissing .poll = some y) :
    (!x.toParent.isEmpty) = true ∨ (!x.eventfd.isEmpty) = true ∨
      (x.listens && !x.stdout.isEmpty) = true := by
  by_contra hnot
  rw [step.eq_def] at hy
  simp only [hpc] at hy
  rw [System.poll, if_neg hnone, if_neg hnot] at hy
  exact absurd hy (by simp)

/-- **Each act of its own is work done.** -/
theorem work_lt (h : x.Alive) (ha : a.Own) (hy : x.step allowMissing a = some y) :
    y.work < x.work := by
  have hdoes := does_of_step hy
  cases hdoes with
  | pass solver listens msgs hpid hregexes hcb hstate hmsgs hlistens hact =>
    rcases hact with ⟨c, rfl, -⟩ | ⟨cb, rfl⟩ <;> exact absurd ha id
  | report pending pid source rest hpc hparent =>
    refine (owed_proceed _ pending).trans_lt ?_
    rw [work, hpc, hparent, List.length_cons, LibraryPc.owed]
    simp only []
    omega
  | skip pending msg source rest hpc hparent hmsg =>
    rw [work, work, hparent, List.length_cons]
    simp only []
    omega
  | poll d hpc hnone =>
    rw [work, work, hpc, LibraryPc.owed, LibraryPc.owed, if_neg hnone,
      if_pos (ready_of_poll hpc hnone hy)]
    exact Nat.lt_succ_self _
  | message d msg source rest hpc hchild hparent =>
    have howed := x.owed_afterMessage_le { d with child := false } msg
    rw [work, work, hpc, hparent, List.length_cons, owed_polling_of_ready (Or.inl hchild)]
    simp only []
    omega
  | abort d hpc hchild heventfd hrequests =>
    rw [work, work, hpc, owed_polling_of_ready (Or.inr (Or.inl heventfd))]
    rcases x.abortSolverchild_cases with heq | ⟨pid, heq⟩ <;> rw [heq] <;>
      exact Nat.lt_succ_self _
  | output n d hpc hchild heventfd hsolverchild hn =>
    have hsome := (h.polling d hpc).solverchild hsolverchild |>.1
    have howed := x.owed_afterOutput_le { d with solverchild := false } n
    have hpos : 0 < x.stdout.length := List.length_pos_iff.mpr hsome
    have hread := CanRead.pos hn hsome
    rw [work, work, hpc, owed_polling_of_ready (Or.inr (Or.inr hsolverchild))]
    simp only [List.length_drop]
    omega
  | finish retcode hpc =>
    rw [work, work, hpc]
    exact Nat.lt_succ_self _
  | seedRead msg rest hseed htoSeed hmsg =>
    rw [work, work, htoSeed, List.length_cons]
    simp only []
    omega
  | seedFork pid wait rest hseed htoSeed hfree =>
    rw [work, work, fork, htoSeed, hseed, List.length_cons, SeedState.owed, SeedState.owed]
    simp only []
    omega
  | seedReport round pid wait hseed =>
    have howed : (if wait then SeedState.waiting round else .reading).owed ≤ 3 := by
      split
      · exact le_rfl
      · exact Nat.zero_le 3
    rw [work, work, hseed, List.length_append, List.length_singleton, SeedState.owed.eq_2]
    simp only []
    omega
  | seedReap c status hseed hc hstatus =>
    rw [work, work, hseed, List.length_append, List.length_singleton, SeedState.owed,
      SeedState.owed]
    simp only []
    omega
  | _ => exact absurd ha id

/-! ### Where everything stops -/

/-- **The library is in `poll`**, and there is nothing for it to read. -/
structure Blocked (x : System) (d : PollData) : Prop where
  pc : x.pc = .polling d
  child : d.child = false
  eventfd : d.eventfd = false
  solverchild : d.solverchild = false
  messages : x.toParent = []
  requests : x.eventfd = []
  stdout : x.listens = true → x.stdout = []

theorem step_readReport (hpc : x.pc = .forking pending) :
    x.step allowMissing .readReport = x.readReport pending := by
  rw [step.eq_def]
  simp only [hpc]

theorem step_poll (hpc : x.pc = .polling d) : x.step allowMissing .poll = x.poll d := by
  rw [step.eq_def]
  simp only [hpc]

theorem step_handle (hpc : x.pc = .polling d) (n : ℕ) :
    x.step allowMissing (.handle n) = x.handle d n := by
  rw [step.eq_def]
  simp only [hpc]

theorem step_finish {retcode : ℤ} (hpc : x.pc = .finishing retcode) :
    x.step allowMissing .finish = some { x with
      solver := x.solver.endSolve
      pc := .idle
      log := x.log ++ [.returned x.round retcode] } := by
  rw [step.eq_def]
  simp only [hpc]

theorem handle_of_child (hchild : d.child = true) {msg : QuapiMsg} {source : ℕ}
    {rest : List (QuapiMsg × ℕ)} (hparent : x.toParent = (msg, source) :: rest) (n : ℕ) :
    x.handle d n = some { x with
      toParent := rest
      log := x.log ++ [.message x.round msg source x.solver.solverchildPid]
      pc := x.afterMessage { d with child := false } msg } := by
  rw [handle, if_pos hchild, handleChild.eq_def]
  simp only [hparent]

/-- A ready descriptor is served. -/
theorem handle_ne_none (h : x.Sane d)
    (hready : d.child = true ∨ d.eventfd = true ∨ d.solverchild = true) :
    ∃ n, x.handle d n ≠ none := by
  rcases Bool.eq_false_or_eq_true d.child with hchild | hchild
  · obtain ⟨⟨msg, source⟩, rest, hparent⟩ := List.exists_cons_of_ne_nil (h.child hchild)
    refine ⟨0, ?_⟩
    rw [handle_of_child hchild hparent]
    exact Option.some_ne_none _
  rcases Bool.eq_false_or_eq_true d.eventfd with heventfd | heventfd
  · refine ⟨0, ?_⟩
    rw [handle, if_neg (by rw [hchild]; simp), if_pos heventfd, handleEventfd,
      if_neg (h.eventfd heventfd)]
    exact Option.some_ne_none _
  · have hsolverchild : d.solverchild = true := by
      rcases hready with hc | he | hs
      · exact absurd (hc.symm.trans hchild) (by simp)
      · exact absurd (he.symm.trans heventfd) (by simp)
      · exact hs
    refine ⟨x.stdout.length, ?_⟩
    rw [handle, if_neg (by rw [hchild]; simp), if_neg (by rw [heventfd]; simp), if_pos hsolverchild,
      handleSolverchild, if_pos ⟨le_rfl, Or.inl rfl⟩]
    exact Option.some_ne_none _

theorem Settled.halted (hs : x.Settled allowMissing) : x.Halted allowMissing :=
  fun a ha => hs a ha.own

/-- Where the poll loop has stopped, it is in `poll`. -/
theorem Halted.blocked (hs : x.Halted allowMissing) (h : x.Alive) (hpc : x.pc = .polling d) :
    x.Blocked d := by
  have hnone : ¬(d.child = true ∨ d.eventfd = true ∨ d.solverchild = true) := by
    intro hready
    obtain ⟨n, hn⟩ := handle_ne_none (h.polling d hpc) hready
    exact hn ((step_handle hpc n).symm.trans (hs (.handle n) trivial))
  have hquiet : ¬((!x.toParent.isEmpty) = true ∨ (!x.eventfd.isEmpty) = true ∨
      (x.listens && !x.stdout.isEmpty) = true) := by
    intro hready
    have hpoll := (step_poll hpc).symm.trans (hs .poll trivial)
    rw [System.poll, if_neg hnone, if_pos hready] at hpoll
    exact Option.some_ne_none _ hpoll
  obtain ⟨hchild, hrest⟩ := not_or.mp hnone
  obtain ⟨heventfd, hsolverchild⟩ := not_or.mp hrest
  obtain ⟨hmessages, hrest⟩ := not_or.mp hquiet
  obtain ⟨hrequests, hstdout⟩ := not_or.mp hrest
  refine ⟨hpc, Bool.not_eq_true _ |>.mp hchild, Bool.not_eq_true _ |>.mp heventfd,
    Bool.not_eq_true _ |>.mp hsolverchild, ?_, ?_, ?_⟩
  · simpa using hmessages
  · simpa using hrequests
  · intro hlistens
    rw [hlistens] at hstdout
    simpa using hstdout

theorem exists_free_pid (x : System) : ∃ pid, x.running pid = none := by
  obtain ⟨pid, hpid⟩ := Infinite.exists_notMem_finset (x.children.map Child.pid).toFinset
  refine ⟨pid, List.find?_eq_none.mpr ?_⟩
  intro c hc hsame
  have hp : c.pid = pid ∧ c.status = none := of_decide_eq_true hsame
  exact hpid (List.mem_toFinset.mpr (List.mem_map.mpr ⟨c, hc, hp.1⟩))

/-- Where the seeding process has stopped, it has read everything, or it waits for a child that
runs. -/
theorem Settled.seed (hs : x.Settled allowMissing) (h : x.Alive) :
    x.seed = .reading ∧ x.toSeed = [] ∨
      ∃ c ∈ x.children, c.status = none ∧ x.seed = .waiting c.round := by
  cases hseed : x.seed with
  | reading =>
    refine Or.inl ⟨rfl, ?_⟩
    by_contra hsome
    obtain ⟨msg, rest, htoSeed⟩ := List.exists_cons_of_ne_nil hsome
    cases hmsg : Stream.isFork msg with
    | false =>
      have hread := hs .seedRead trivial
      rw [step.eq_def] at hread
      simp only [hseed, htoSeed, hmsg] at hread
      exact absurd hread (by simp)
    | true =>
      obtain ⟨wait, rfl⟩ : ∃ wait, msg = .fork wait := by
        cases msg <;> first | exact ⟨_, rfl⟩ | exact absurd hmsg (by simp [Stream.isFork])
      obtain ⟨pid, hpid⟩ := exists_free_pid x
      have hfork := hs (.seedFork pid) trivial
      rw [step.eq_def] at hfork
      simp only [hseed, htoSeed, hpid] at hfork
      exact absurd hfork (by simp)
  | reporting round pid wait =>
    have hreport := hs .seedReport trivial
    rw [step.eq_def] at hreport
    simp only [hseed] at hreport
    exact absurd hreport (by simp)
  | waiting r =>
    obtain ⟨c, hc, rfl⟩ := h.waiting r hseed
    refine Or.inr ⟨c, hc, ?_, rfl⟩
    by_contra hended
    obtain ⟨status, hstatus⟩ := Option.ne_none_iff_exists'.mp hended
    have hreap := hs .seedReap trivial
    -- there is one child of the round
    have hfind : x.children.find? (fun d => d.round = c.round) = some c := by
      have hsome : x.children.find? (fun d => d.round = c.round) ≠ none :=
        fun hnone => List.find?_eq_none.mp hnone c hc (decide_eq_true rfl)
      obtain ⟨d, hd⟩ := Option.ne_none_iff_exists'.mp hsome
      have hround := List.find?_some hd
      rw [hd, h.sound.eq_of_round (List.mem_of_find?_eq_some hd) hc (of_decide_eq_true hround)]
    rw [step.eq_def] at hreap
    simp only [hseed, hfind, Option.bind_some, hstatus, Option.map_some] at hreap
    exact absurd hreap (by simp)

theorem Halted.messages (hs : x.Halted allowMissing) (hpc : x.pc = .forking pending) :
    x.toParent = [] := by
  by_contra hsome
  obtain ⟨⟨msg, source⟩, rest, hparent⟩ := List.exists_cons_of_ne_nil hsome
  have hread := (step_readReport hpc).symm.trans (hs .readReport trivial)
  cases msg <;> simp [readReport.eq_def, hparent] at hread

/-- Where a fork has stopped, the seeding process waits for an older child. -/
theorem Settled.forking (hs : x.Settled allowMissing) (h : x.Alive)
    (hpc : x.pc = .forking pending) :
    ∃ c ∈ x.children, c.status = none ∧ x.seed = .waiting c.round := by
  rcases hs.seed h with ⟨hseed, htoSeed⟩ | hwaiting
  -- the FORK must be somewhere
  · have hcount : x.toSeed.countP Stream.isFork + x.seed.reports + x.toParent.countP isReport =
        x.forking.toNat := h.sound.count
    rw [htoSeed, hseed, hs.halted.messages hpc, forking_of_eq hpc] at hcount
    exact absurd hcount (by simp [SeedState.reports])
  · exact hwaiting

theorem Halted.not_finishing (hs : x.Halted allowMissing) (retcode : ℤ) :
    x.pc ≠ .finishing retcode := by
  intro hpc
  have hfinish := (step_finish hpc).symm.trans (hs .finish trivial)
  exact Option.some_ne_none _ hfinish

/-- Where a fork has stopped, the child is that of the round before. -/
theorem Settled.older (hs : x.Settled allowMissing) (h : x.Alive) (hpc : x.pc = .forking pending) :
    ∃ c ∈ x.children, c.status = none ∧ x.seed = .waiting c.round ∧ c.round + 1 = x.round := by
  obtain ⟨c, hc, hstatus, hseed⟩ := hs.forking h hpc
  have hmessages : x.toParent = [] := hs.halted.messages hpc
  have hcount : x.toSeed.countP Stream.isFork + x.seed.reports + x.toParent.countP isReport =
      x.forking.toNat := h.sound.count
  have hlength : x.children.length + x.toSeed.countP Stream.isFork = x.round := h.sound.length
  have hround : c.round = x.children.length :=
    h.sound.seed c.round (by rw [show x.protocol.seed = x.seed from rfl, hseed, SeedState.round])
  rw [hseed, hmessages, forking_of_eq hpc] at hcount
  simp only [SeedState.reports, List.countP_nil, Bool.toNat_true] at hcount
  exact ⟨c, hc, hstatus, hseed, by omega⟩

/-- The library and the seeding process have stopped, doing all that they are able to do. -/
def Stopped (allowMissing : Bool) (x : System × History) : Prop :=
  ∀ a : Act, a.Own → live allowMissing x a = none

theorem Stopped.step {x : System × History} (h : Stopped allowMissing x) (ha : a.Own)
    (hable : Able x a) : x.1.step allowMissing a = none := by
  have hnone : live allowMissing x a = none := h a ha
  rw [live, Machine.guard_eq_none] at hnone
  have htrack := hnone hable
  rwa [tracked, Machine.track, Option.map_eq_none_iff] at htrack

theorem Stopped.halted {x : System × History} (h : Stopped allowMissing x) :
    x.1.Halted allowMissing := by
  intro a ha
  refine h.step ha.own ?_
  cases a <;> first | exact trivial | exact absurd ha id

/-- **Where they have stopped, nothing goes on at all**, or the seeding process has no case for
its next message. -/
theorem Stopped.settled {x : System × History} (h : Stopped allowMissing x) :
    x.1.Settled allowMissing ∨ x.1.seed = .reading ∧ x.1.toSeed ≠ [] ∧ ¬Heeded x := by
  by_cases hheeded : Heeded x
  · refine Or.inl fun a ha => h.step ha ?_
    cases a <;> first | exact hheeded | exact trivial | exact absurd ha id
  by_cases hreads : x.1.seed = .reading ∧ x.1.toSeed ≠ []
  · exact Or.inr ⟨hreads.1, hreads.2, hheeded⟩
  -- it reads no message
  have hno : x.1.seed = .reading → x.1.toSeed = [] := fun hseed =>
    not_not.mp fun hsome => hreads ⟨hseed, hsome⟩
  refine Or.inl fun a ha => ?_
  cases a with
  | seedRead =>
    rw [System.step.eq_def]
    cases hseed : x.1.seed with
    | reading => simp only [hno hseed]
    | _ => rfl
  | seedFork pid =>
    rw [System.step.eq_def]
    cases hseed : x.1.seed with
    | reading => simp only [hno hseed]
    | _ => rfl
  | readOn i n => exact absurd ha id
  | _ => exact h.step ha trivial

/-- **The library and the seeding process come to rest.** From every state that a session can
reach, their acts alone are over after a bounded number of steps; and where they have stopped,
the library is idle, or it is in `poll` and there is nothing to read, or it waits for the report
of a fork. Then the seeding process waits for the child of the round before, which is only
possible without regular expressions; or it has no case for its next message, and the calls have
not been proper. -/
theorem comes_to_rest {env : Env} {x : System × History}
    {litcount clausecount maxassumptions : CInt}
    {regexes : Option ((List Char → Bool) × (List Char → Bool))}
    (hinit : quapiInit litcount clausecount maxassumptions regexes = some s)
    (hrun : Machine.run (live env.allowMissing) (start s, History.start s) acts = some x) :
    (∀ more y, (∀ a ∈ more, a.Own) → Machine.run (live env.allowMissing) x more = some y →
      more.length + y.1.work ≤ x.1.work) ∧
    (Machine.Leads (live env.allowMissing) Act.Own x fun y => Stopped env.allowMissing y) ∧
    (Stopped env.allowMissing x → x.1.pc = .idle ∨ (∃ d, x.1.Blocked d) ∨
      ∃ pending, x.1.pc = .forking pending ∧
        (s.regexes = none ∧ (∃ c ∈ x.1.children,
            c.status = none ∧ x.1.seed = .waiting c.round ∧ c.round + 1 = x.1.round) ∨
          (x.1.seed = .reading ∧ x.1.toSeed ≠ [] ∧ ¬Heeded x) ∧
            ¬Machine.Meets (fun a c => (a.call env c).map Prod.snd) (Api.Proper env)
              (Api.start s) (acts.flatMap Act.calls))) := by
  have hbase := step_of_live hrun
  have halive := alive_of_run hbase
  have hwork : ∀ (x : System × History) (a : Act) (y : System × History), a.Own →
      live env.allowMissing x a = some y → x.1.Alive → y.1.Alive ∧ y.1.work < x.1.work := by
    rintro x a y ha hy hx
    obtain ⟨-, hstep, -⟩ := live_eq_some.mp hy
    exact ⟨hx.step (does_of_step hstep), work_lt hx ha hstep⟩
  refine ⟨fun more y hmore hy => ?_, ?_, ?_⟩
  · exact Machine.length_le_of_measure (I := fun x => x.1.Alive) (μ := fun x => x.1.work) hwork
      hmore hy halive
  · obtain ⟨more, y, hmore, hy, -, hstopped⟩ := Machine.leads_to_rest
      (I := fun x : System × History => x.1.Alive) (μ := fun x => x.1.work) hwork halive
    exact ⟨more, y, hmore, hy, hstopped⟩
  · intro hs
    cases hpc : x.1.pc with
    | idle => exact Or.inl rfl
    | polling d => exact Or.inr (Or.inl ⟨d, hs.halted.blocked halive hpc⟩)
    | finishing retcode => exact absurd hpc (hs.halted.not_finishing retcode)
    | forking pending =>
      refine Or.inr (Or.inr ⟨pending, rfl, ?_⟩)
      rcases hs.settled with hsettled | hstuck
      · refine Or.inl ⟨?_, hsettled.older halive hpc⟩
        -- with regular expressions, the seeding process waits for no child
        have hmode : x.1.Mode ∧ x.1.solver.regexes = s.regexes :=
          Machine.invariant (I := fun x => x.Mode ∧ x.solver.regexes = s.regexes)
            (fun _ _ _ hy hx =>
              ⟨hx.1.step (does_of_step hy), (does_of_step hy).regexes.trans hx.2⟩)
            hbase ⟨mode_start s, rfl⟩
        obtain ⟨c, -, -, hseed, -⟩ := hsettled.older halive hpc
        have hnone := hmode.1.waiting _ hseed
        rw [hmode.2] at hnone
        exact Option.isNone_iff_eq_none.mp hnone
      · refine Or.inr ⟨hstuck, fun hproper => hstuck.2.2 ?_⟩
        obtain ⟨b, hb, hhandled⟩ := handled_of_proper hinit (tracked_of_live hrun) hproper
        exact (hhandled x hb).heeded

/-- A round that the callback ends while the child goes on, and the fork of the next one. -/
def overlappingActs : List Act :=
  [.setStdoutCb (some fun _ => 10), .call (.add (lit 1)), .call (.add 0), .call (.assume (lit 2)),
    .seedRead, .seedRead, .seedFork 7, .seedReport, .readReport, .call .solve, .print 7 ['\n'],
    .poll, .handle 1, .finish, .call (.assume (lit 3))]

theorem overlapping_rests : ∃ x,
    Machine.run (live false) (start (small none), History.start (small none)) overlappingActs =
        some x ∧
      x.1.pc = .forking (.assume (lit 3)) ∧ x.1.seed = .waiting 1 ∧
      Machine.Leads (live false) Act.Own x fun y => Stopped false y := by
  have hrun : (Machine.run (live false) (start (small none), History.start (small none))
      overlappingActs).map (fun x => (x.1.pc, x.1.seed)) =
        some (.forking (.assume (lit 3)), .waiting 1) := by
    decide
  obtain ⟨x, hx, hpc⟩ := Option.map_eq_some_iff.mp hrun
  obtain ⟨-, hleads, -⟩ := comes_to_rest (small_init none)
    (show Machine.run (live plainEnv.allowMissing) _ _ = some x from hx)
  exact ⟨x, hx, congrArg Prod.fst hpc, congrArg Prod.snd hpc, hleads⟩

/-! ### Somebody tells -/

theorem leads_of_finishing {retcode : ℤ} (hpc : x.pc = .finishing retcode) :
    Machine.Leads (step allowMissing) Act.Own x fun y => y.pc = .idle :=
  .head (a := .finish) trivial (step_finish hpc) (.refl rfl)

/-- A message that decides is read, and the solve returns. -/
theorem Blocked.returns_of_message (h : x.Blocked d) {y : System} {msg : QuapiMsg} {source : ℕ}
    (hpc : y.pc = x.pc) (hparent : y.toParent = [(msg, source)])
    (hdecides : ∀ e, ∃ retcode, y.afterMessage e msg = .finishing retcode) :
    Machine.Leads (step allowMissing) Act.Own y fun z => z.pc = .idle := by
  have hy : y.pc = .polling d := hpc.trans h.pc
  obtain ⟨e, hchild, hpoll⟩ : ∃ e : PollData, e.child = true ∧
      y.poll d = some { y with pc := .polling e } := by
    refine ⟨⟨true, !y.eventfd.isEmpty, y.listens && !y.stdout.isEmpty, d.buf⟩, rfl, ?_⟩
    rw [System.poll, h.child, h.eventfd, h.solverchild, hparent]
    simp
  have hhandle := handle_of_child (x := { y with pc := .polling e }) hchild hparent 0
  refine .head (a := .poll) trivial ((step_poll hy).trans hpoll) ?_
  refine .head (a := .handle 0) trivial ((step_handle rfl 0).trans hhandle) ?_
  obtain ⟨retcode, hretcode⟩ := hdecides { e with child := false }
  exact leads_of_finishing hretcode

/-- A line that is ruled on is read, and the solve returns. -/
theorem Blocked.returns_of_line (h : x.Blocked d) (hsane : x.Sane d) (hlistens : x.listens = true)
    {y : System} {line : List Char} (hsolver : y.solver = x.solver) (hpc : y.pc = x.pc)
    (hlistens' : y.listens = x.listens) (hparent : y.toParent = []) (heventfd : y.eventfd = [])
    (htext : y.text = '\n' :: line ++ ['\n']) (hline : Printable line)
    (hrule : x.solver.rule line ≠ none) :
    Machine.Leads (step allowMissing) Act.Own y fun z => z.pc = .idle := by
  have hlisten : y.Listening x.solver d.buf d :=
    ⟨hpc.trans h.pc, h.child, h.eventfd, hsane.buf.1, congrArg _ hsolver,
      QuapiSolver.verdict_of_notMem hsane.buf.1, fun _ => rfl⟩
  have hheard : y.heard y.stdout.length = '\n' :: line ++ ['\n'] := by
    have hlength : y.text.length = y.stdout.length := List.length_map _
    rw [heard_eq, ← hlength, List.take_length, htext, List.takeWhile_eq_self_iff]
    intro c hc
    rcases List.mem_append.mp hc with hc | hc
    · rcases List.mem_cons.mp hc with rfl | hc
      · decide
      · exact decide_eq_true fun hzero => hline.2 (hzero ▸ hc)
    · obtain rfl := List.mem_singleton.mp hc
      decide
  -- the first line is what was in the buffer, the second one is ruled on
  have hlines : completeLines [] (d.buf ++ ('\n' :: line ++ ['\n'])) = [d.buf, line] := by
    rw [List.cons_append, completeLines_line hsane.buf.1, completeLines_line hline.1]
    rfl
  obtain ⟨v, hv⟩ : ∃ v, x.solver.verdict (d.buf ++ y.heard y.stdout.length) = some v := by
    refine Option.ne_none_iff_exists'.mp ?_
    rw [hheard, QuapiSolver.verdict, hlines]
    intro hnone
    exact hrule (List.findSome?_eq_none_iff.mp hnone line (List.mem_cons_of_mem _
      List.mem_cons_self))
  obtain ⟨more, z, hmore, hz, hdone⟩ : ∃ more z, (∀ a ∈ more, a = .poll ∨ ∃ n, a = .handle n) ∧
      Machine.run (step allowMissing) y more = some z ∧ z.pc = .finishing v :=
    hlisten.returns (hlistens'.trans hlistens) hparent heventfd hv
  have hleads : Machine.Leads (step allowMissing) Act.Own y fun z => z.pc = .finishing v := by
    refine ⟨more, z, ?_, hz, hdone⟩
    intro a ha
    rcases hmore a ha with rfl | ⟨n, rfl⟩ <;> exact trivial
  exact hleads.trans fun z hz => leads_of_finishing hz

theorem exists_running {c : Child} (hc : c ∈ x.children) (hstatus : c.status = none) :
    ∃ e, x.running c.pid = some e := by
  refine Option.ne_none_iff_exists'.mp fun hnone => ?_
  exact List.find?_eq_none.mp hnone c hc (decide_eq_true ⟨rfl, hstatus⟩)

theorem step_exit {pid : ℤ} {c : Child} (hrunning : x.running pid = some c) (status : ExitStatus) :
    x.step allowMissing (.exit pid status) = some (x.exit pid status) := by
  rw [step.eq_def]
  simp only [hrunning, Option.map_some]

theorem afterMessage_exitCode {code : ℤ} (hcode : code ≠ 0) (d : PollData) :
    x.afterMessage d (.exitCode code) = .finishing code := if_neg fun hc => hcode hc.1

/-- **The child that is waited for exits**, and its exit code is there. -/
theorem exits_reaped (h : x.Alive) {c : Child} (hc : c ∈ x.children) (hstatus : c.status = none)
    (hseed : x.seed = .waiting c.round) (code : ℤ) :
    Machine.Leads (step allowMissing) Act.Plain x fun y =>
      y = { x.exit c.pid (.exited code) with
        toParent := x.toParent ++ [(.exitCode code, c.round)]
        seed := .reading } := by
  obtain ⟨e, he⟩ := exists_running hc hstatus
  refine .head (a := .exit c.pid (.exited code)) ⟨trivial, fun _ _ => Act.noConfusion⟩
    (step_exit he _) ?_
  refine .head (a := .seedReap) (t := { x.exit c.pid (.exited code) with
    toParent := x.toParent ++ [(.exitCode code, c.round)]
    seed := .reading }) ⟨trivial, fun _ _ => Act.noConfusion⟩ ?_ (.refl rfl)
  have hmem : ({ c with status := some (.exited code) } : Child) ∈
      (x.exit c.pid (.exited code)).children :=
    List.mem_map.mpr ⟨c, hc, if_pos ⟨rfl, hstatus⟩⟩
  have hsound : (x.exit c.pid (.exited code)).protocol.Sound :=
    h.sound.change (later_exit x c.pid (.exited code))
  have hfind : (x.exit c.pid (.exited code)).children.find? (fun d => d.round = c.round) =
      some { c with status := some (.exited code) } := by
    have hsome : (x.exit c.pid (.exited code)).children.find? (fun d => d.round = c.round) ≠ none :=
      fun hnone => List.find?_eq_none.mp hnone _ hmem (decide_eq_true rfl)
    obtain ⟨d, hd⟩ := Option.ne_none_iff_exists'.mp hsome
    have hround := List.find?_some hd
    rw [hd, hsound.eq_of_round (List.mem_of_find?_eq_some hd) hmem (of_decide_eq_true hround)]
  rw [step.eq_def]
  simp only [show (x.exit c.pid (.exited code)).seed = _ from hseed, hfind]
  rfl

/-- **Who can tell does so**, and the solve returns. -/
theorem Blocked.returns (h : x.Blocked d) (halive : x.Alive) (hs : x.Settled allowMissing)
    (htell : x.CanTell) :
    Machine.Leads (step allowMissing) Act.Plain x fun y => y.pc = .idle := by
  have hown : ∀ {y : System}, (Machine.Leads (step allowMissing) Act.Own y fun z => z.pc = .idle) →
      Machine.Leads (step allowMissing) Act.Plain y fun z => z.pc = .idle :=
    fun hy => hy.mono fun _ ha => ha.plain
  rcases htell with ⟨r, hseed⟩ | ⟨pid, c, hrunning, hsend⟩ | ⟨hlistens, ⟨pid, c, hrunning⟩, hline⟩
  · -- the child exits, with a code that no callback makes the library wait for
    obtain ⟨hreading, -⟩ | ⟨c, hc, hstatus, hwaiting⟩ := hs.seed halive
    · exact SeedState.noConfusion (hreading.symm.trans hseed)
    · refine (exits_reaped halive hc hstatus hwaiting 1).trans ?_
      rintro y rfl
      have hparent : x.toParent ++ [(.exitCode 1, c.round)] = [(QuapiMsg.exitCode 1, c.round)] := by
        rw [h.messages, List.nil_append]
      exact hown (h.returns_of_message rfl hparent fun e =>
        ⟨1, afterMessage_exitCode (by decide) e⟩)
  · have hstep : x.step allowMissing (.destruct pid) = some { x with
        toParent := x.toParent ++ [(.destructed, c.round)]
        children := x.children.map fun d =>
          if d.round = c.round then { d with sendDestructedMsg := false } else d } := by
      rw [step.eq_def]
      simp only [hrunning, Option.bind_some, hsend, if_true]
    refine .head (a := .destruct pid) ⟨trivial, fun _ _ => Act.noConfusion⟩ hstep (hown ?_)
    have hparent : x.toParent ++ [(.destructed, c.round)] = [(QuapiMsg.destructed, c.round)] := by
      rw [h.messages, List.nil_append]
    exact h.returns_of_message rfl hparent fun e => ⟨0, rfl⟩
  · obtain ⟨line, hprintable, hrule⟩ := hline
    have hstep : x.step allowMissing (.print pid ('\n' :: line ++ ['\n'])) = some { x with
        stdout := x.stdout ++ ('\n' :: line ++ ['\n']).map fun ch => (ch, c.round) } := by
      rw [step.eq_def]
      simp only [hrunning, Option.map_some]
    refine .head (a := .print pid _) ⟨trivial, fun _ _ => Act.noConfusion⟩ hstep (hown ?_)
    refine h.returns_of_line (halive.polling d h.pc) hlistens rfl rfl rfl h.messages h.requests ?_
      hprintable hrule
    rw [text, h.stdout hlistens, List.nil_append, List.map_map]
    exact List.map_id _

/-! ### Nobody tells -/

theorem printable_of_mem_completeLines {l line text : List Char} (hl : Printable l)
    (htext : '\x00' ∉ text) (h : line ∈ completeLines l text) : Printable line := by
  induction text generalizing l with
  | nil => exact absurd h List.not_mem_nil
  | cons c text ih =>
    have hrest : '\x00' ∉ text := List.not_mem_of_not_mem_cons htext
    rw [completeLines] at h
    split at h
    case isTrue hc =>
      rcases List.mem_cons.mp h with rfl | h
      · exact hl
      · exact ih ⟨List.not_mem_nil, List.not_mem_nil⟩ hrest h
    case isFalse hc =>
      refine ih ⟨?_, ?_⟩ hrest h
      · intro hmem
        rcases List.mem_append.mp hmem with hmem | hmem
        · exact hl.1 hmem
        · exact hc (List.mem_singleton.mp hmem).symm
      · intro hmem
        rcases List.mem_append.mp hmem with hmem | hmem
        · exact hl.2 hmem
        · exact htext (List.mem_singleton.mp hmem ▸ List.mem_cons_self)

/-- A process that ends runs no more, and the others go on. -/
theorem running_exit (x : System) (pid p : ℤ) (status : ExitStatus) :
    (x.exit pid status).running p = if p = pid then none else x.running p := by
  rw [running, exit]
  simp only [List.find?_map]
  split
  case isTrue hp =>
    rw [Option.map_eq_none_iff, List.find?_eq_none]
    intro c _ hc
    simp only [Function.comp, decide_eq_true_eq] at hc
    split at hc
    · exact absurd hc.2 (by simp)
    case isFalse hnot => exact hnot ⟨hc.1.trans hp, hc.2⟩
  case isFalse hp =>
    have hpred : ∀ c : Child, (decide ((if c.pid = pid ∧ c.status = none then
        { c with status := some status } else c).pid = p ∧
        (if c.pid = pid ∧ c.status = none then
          { c with status := some status } else c).status = none)) =
        decide (c.pid = p ∧ c.status = none) := by
      intro c
      refine decide_eq_decide.mpr ?_
      split
      case isTrue hc =>
        exact ⟨fun h => absurd h.2 (by simp), fun h => absurd (h.1.symm.trans hc.1) hp⟩
      case isFalse => exact Iff.rfl
    rw [running, show _ ∘ _ = _ from funext hpred]
    cases hfind : x.children.find? fun c => c.pid = p ∧ c.status = none with
    | none => rfl
    | some c =>
      have hc := List.find?_some hfind
      have hsame : c.pid = p ∧ c.status = none := of_decide_eq_true hc
      exact congrArg some (if_neg fun h => hp (hsame.1.symm.trans h.1))

/-- **Nobody tells the library anything** any more. -/
structure Mute (x : System) (d : PollData) : Prop where
  pc : x.pc = .polling d
  child : d.child = false
  eventfd : d.eventfd = false
  buf : Printable d.buf
  messages : x.toParent = []
  requests : x.eventfd = []
  seed : x.seed = .reading
  toSeed : x.toSeed = []
  destruct : ∀ pid c, x.running pid = some c → c.sendDestructedMsg = false
  /-- No line is ruled on, or none will be read. -/
  output : (∀ line, Printable line → x.solver.rule line = none) ∨
    d.solverchild = false ∧ (x.listens = false ∨ x.stdout = [] ∧ ∀ pid, x.running pid = none)

/-- What is ruled on is a line of the text. -/
theorem verdict_of_unruled {t : QuapiSolver} (hrule : ∀ line, Printable line → t.rule line = none)
    {text : List Char} (htext : '\x00' ∉ text) : t.verdict text = none := by
  refine List.findSome?_eq_none_iff.mpr fun line hline => hrule line ?_
  exact printable_of_mem_completeLines ⟨List.not_mem_nil, List.not_mem_nil⟩ htext hline

/-- A poll finds nothing that matters. -/
theorem Mute.poll (h : x.Mute d) : ∃ e, Mute { x with
    pc := .polling ⟨!x.toParent.isEmpty, !x.eventfd.isEmpty, x.listens && !x.stdout.isEmpty,
      d.buf⟩ } e := by
  refine ⟨_, rfl, ?_, ?_, h.buf, h.messages, h.requests, h.seed, h.toSeed, h.destruct, ?_⟩
  · simp only [h.messages]
    rfl
  · simp only [h.requests]
    rfl
  · rcases h.output with hrule | ⟨-, hdeaf | ⟨hstdout, hnone⟩⟩
    · exact Or.inl hrule
    · refine Or.inr ⟨?_, Or.inl hdeaf⟩
      simp only [hdeaf, Bool.false_and]
    · refine Or.inr ⟨?_, Or.inr ⟨hstdout, hnone⟩⟩
      simp only [hstdout, List.isEmpty_nil, Bool.not_true, Bool.and_false]

/-- What is read decides nothing. -/
theorem Mute.read {n : ℕ} {stdout : List (Char × ℕ)} {log : List Event} (h : x.Mute d)
    (hsolverchild : d.solverchild = true) : ∃ e, Mute { x with
      stdout := stdout
      log := log
      pc := x.afterOutput { d with solverchild := false } n } e := by
  rcases h.output with hrule | ⟨hdeaf, -⟩
  case inr => exact absurd (hsolverchild.symm.trans hdeaf) (by simp)
  have hbuf : '\n' ∉ ({ d with solverchild := false } : PollData).buf := h.buf.1
  have hheard : '\x00' ∉ d.buf ++ x.heard n := by
    intro hzero
    rcases List.mem_append.mp hzero with hzero | hzero
    · exact h.buf.2 hzero
    · exact absurd (List.mem_takeWhile_imp hzero) (by simp)
  rcases x.afterOutput_spec hbuf n with ⟨v, -, hv⟩ | ⟨hafter, -⟩
  · exact absurd ((verdict_of_unruled hrule hheard).symm.trans hv) (by simp)
  · refine ⟨_, hafter, h.child, h.eventfd, ⟨notMem_unfinishedLine List.not_mem_nil, ?_⟩,
      h.messages, h.requests, h.seed, h.toSeed, h.destruct, Or.inl hrule⟩
    intro hzero
    rcases mem_of_mem_unfinishedLine hzero with hzero | hzero
    · exact List.not_mem_nil hzero
    · exact hheard hzero

/-- One child less may tell it something. -/
theorem Mute.exit (h : x.Mute d) (pid : ℤ) (status : ExitStatus) : (x.exit pid status).Mute d := by
  have hless : ∀ p e, (x.exit pid status).running p = some e → x.running p = some e := by
    intro p e hp
    rw [running_exit] at hp
    split at hp
    · exact absurd hp (by simp)
    · exact hp
  refine ⟨h.pc, h.child, h.eventfd, h.buf, h.messages, h.requests, h.seed, h.toSeed,
    fun p e hp => h.destruct p e (hless p e hp), ?_⟩
  rcases h.output with hrule | ⟨hflag, hdeaf | ⟨hstdout, hnone⟩⟩
  · exact Or.inl hrule
  · exact Or.inr ⟨hflag, Or.inl hdeaf⟩
  · refine Or.inr ⟨hflag, Or.inr ⟨hstdout, fun p => ?_⟩⟩
    rw [running_exit, hnone p, ite_self]

/-- **Nobody ever tells it anything.** -/
theorem Mute.step (h : x.Mute d) (ha : a.Spontaneous) (hy : Does x a y) : ∃ e, y.Mute e := by
  have hforking : ∀ pending, x.pc ≠ .forking pending :=
    fun pending hc => LibraryPc.noConfusion (hc.symm.trans h.pc)
  have hidle : x.pc ≠ .idle := fun hc => LibraryPc.noConfusion (hc.symm.trans h.pc)
  cases hy with
  | pass solver listens msgs hpid hregexes hcb hstate hmsgs hlistens hact =>
    rcases hact with ⟨c, rfl, -⟩ | ⟨cb, rfl⟩ <;> exact absurd ha id
  | reset hpc hstate => exact absurd hpc hidle
  | ask pending hpc hneeds => exact absurd hpc hidle
  | proceed pending hpc hneeds => exact absurd hpc hidle
  | report pending pid source rest hpc hparent => exact absurd hpc (hforking pending)
  | skip pending msg source rest hpc hparent hmsg => exact absurd hpc (hforking pending)
  | poll e hpc hnone =>
    obtain rfl := LibraryPc.polling.inj (hpc.symm.trans h.pc)
    exact h.poll
  | message e msg source rest hpc hchild hparent =>
    exact absurd (hparent.symm.trans h.messages) (by simp)
  | abort e hpc hchild heventfd hrequests => exact absurd h.requests hrequests
  | output n e hpc hchild heventfd hsolverchild hn =>
    obtain rfl := LibraryPc.polling.inj (hpc.symm.trans h.pc)
    exact h.read hsolverchild
  | finish retcode hpc => exact LibraryPc.noConfusion (hpc.symm.trans h.pc)
  | terminate hstate => exact absurd ha id
  | seedRead msg rest hseed htoSeed hmsg =>
    exact absurd (htoSeed.symm.trans h.toSeed) (by simp)
  | seedFork pid wait rest hseed htoSeed hfree =>
    exact absurd (htoSeed.symm.trans h.toSeed) (by simp)
  | seedReport round pid wait hseed => exact SeedState.noConfusion (hseed.symm.trans h.seed)
  | seedReap c status hseed hc hstatus => exact SeedState.noConfusion (hseed.symm.trans h.seed)
  | destruct pid c hrunning hsend =>
    exact absurd (hsend.symm.trans (h.destruct pid c hrunning)) (by simp)
  | flush n =>
    exact ⟨d, h.pc, h.child, h.eventfd, h.buf, h.messages, h.requests, h.seed, h.toSeed, h.destruct,
      h.output⟩
  | take pid n p htake | readOn i n p hread =>
    exact ⟨d, h.pc, h.child, h.eventfd, h.buf, h.messages, h.requests, h.seed, h.toSeed, h.destruct,
      h.output⟩
  | print pid text c hrunning =>
    refine ⟨d, h.pc, h.child, h.eventfd, h.buf, h.messages, h.requests, h.seed, h.toSeed,
      h.destruct, ?_⟩
    rcases h.output with hrule | ⟨hflag, hdeaf | ⟨-, hnone⟩⟩
    · exact Or.inl hrule
    · exact Or.inr ⟨hflag, Or.inl hdeaf⟩
    · exact absurd (hrunning.symm.trans (hnone pid)) (by simp)
  | exit pid status c hrunning => exact ⟨d, h.exit pid status⟩

/-- A poll loop at rest to which nobody can tell anything is mute. -/
theorem Blocked.mute (h : x.Blocked d) (halive : x.Alive) (hs : x.Settled allowMissing)
    (htell : ¬x.CanTell) : x.Mute d := by
  obtain ⟨hwaiting, hrest⟩ := not_or.mp htell
  obtain ⟨hdestruct, hline⟩ := not_or.mp hrest
  obtain ⟨hseed, htoSeed⟩ | ⟨c, -, -, hseed⟩ := hs.seed halive
  · refine ⟨h.pc, h.child, h.eventfd, (halive.polling d h.pc).buf, h.messages, h.requests, hseed,
      htoSeed, ?_, ?_⟩
    · intro pid c hrunning
      by_contra hsend
      exact hdestruct ⟨pid, c, hrunning, Bool.not_eq_false _ |>.mp hsend⟩
    · by_cases hlistens : x.listens = true
      · by_cases hrunning : ∃ pid c, x.running pid = some c
        · refine Or.inl fun line hprintable => ?_
          by_contra hrule
          exact hline ⟨hlistens, hrunning, line, hprintable, hrule⟩
        · refine Or.inr ⟨h.solverchild, Or.inr ⟨h.stdout hlistens, fun pid => ?_⟩⟩
          by_contra hsome
          obtain ⟨c, hc⟩ := Option.ne_none_iff_exists'.mp hsome
          exact hrunning ⟨pid, c, hc⟩
      · exact Or.inr ⟨h.solverchild, Or.inl (Bool.not_eq_true _ |>.mp hlistens)⟩
  · exact absurd ⟨_, hseed⟩ hwaiting

/-- **When `quapi_solve` comes back.** Where the library and the seeding process have stopped in
the poll loop, the solve can come back without help if and only if somebody can tell the result:
the seeding process waits for a child, or a child that runs has still to send DESTRUCTED, or it
can print a line that a regular expression or the callback rules on. In all other cases it
stays in `poll`, whatever the processes do. -/
theorem returns_iff (hrun : Machine.run (step allowMissing) (start s) acts = some x)
    (hpc : x.pc = .polling d) (hs : x.Settled allowMissing) :
    x.CanReturn allowMissing ↔ x.CanTell := by
  have halive := alive_of_run hrun
  have hblocked := hs.halted.blocked halive hpc
  refine ⟨?_, fun htell => (hblocked.returns halive hs htell).mono fun _ ha => ha.1⟩
  contrapose
  intro htell
  refine Machine.not_leads_of_invariant (I := fun x => ∃ d, x.Mute d) ?_ ?_
    ⟨d, hblocked.mute halive hs htell⟩
  · rintro x a y ha hy ⟨d, hx⟩
    exact hx.step ha (does_of_step hy)
  · rintro x ⟨d, hx⟩ hidle
    exact LibraryPc.noConfusion (hidle.symm.trans hx.pc)

theorem Blocked.settled (h : x.Blocked d) (hseed : x.seed = .reading) (htoSeed : x.toSeed = []) :
    x.Settled allowMissing := by
  intro a ha
  rw [step.eq_def]
  cases a with
  | readReport => simp only [h.pc]
  | poll =>
    cases hlistens : x.listens with
    | false => simp [h.pc, System.poll, h.child, h.eventfd, h.solverchild, h.messages, h.requests,
        hlistens]
    | true => simp [h.pc, System.poll, h.child, h.eventfd, h.solverchild, h.messages, h.requests,
        hlistens, h.stdout hlistens]
  | handle n => simp [h.pc, handle, h.child, h.eventfd, h.solverchild]
  | finish => simp only [h.pc]
  | seedRead => simp only [hseed, htoSeed]
  | seedFork pid => simp only [hseed, htoSeed]
  | seedReport => simp only [hseed]
  | seedReap => simp only [hseed]
  | _ => exact absurd ha id

/-- A child is killed before it has said anything. -/
def killedActs : List Act := solvingActs ++ [.exit 7 .signaled]

theorem killed_stays : ∃ x,
    Machine.run (step false) (start (small (some verdicts))) killedActs = some x ∧
      ¬x.CanReturn false := by
  have hrun : (Machine.run (step false) (start (small (some verdicts))) killedActs).map
      (fun x => (x.pc, x.seed, x.toSeed, x.toParent, x.eventfd, x.stdout, x.children)) =
        some (.polling ⟨false, false, false, []⟩, .reading, [], [], [], [],
          [⟨1, 7, true, some .signaled⟩]) := rfl
  obtain ⟨x, hx, hfields⟩ := Option.map_eq_some_iff.mp hrun
  simp only [Prod.mk.injEq] at hfields
  obtain ⟨hpc, hseed, htoSeed, hparent, heventfd, hstdout, hchildren⟩ := hfields
  have hblocked : x.Blocked ⟨false, false, false, []⟩ :=
    ⟨hpc, rfl, rfl, rfl, hparent, heventfd, fun _ => hstdout⟩
  refine ⟨x, hx, fun hreturn => ?_⟩
  have hnone : ∀ pid, x.running pid = none := by
    intro pid
    rw [running, hchildren]
    simp
  rcases (returns_iff hx hpc (hblocked.settled hseed htoSeed)).mp hreturn with
    ⟨r, hr⟩ | ⟨pid, c, hc, -⟩ | ⟨-, ⟨pid, c, hc⟩, -⟩
  · exact SeedState.noConfusion (hseed.symm.trans hr)
  · exact absurd ((hnone pid).symm.trans hc) (by simp)
  · exact absurd ((hnone pid).symm.trans hc) (by simp)

/-! ### A request -/

/-- **The solve is bound to return**: there is a request that the poll loop has not served, or
it is over. -/
def Urged (x : System) : Prop :=
  (∃ d, x.pc = .polling d ∧ x.eventfd ≠ []) ∨ (∃ retcode, x.pc = .finishing retcode) ∨ x.pc = .idle

theorem Urged.step (h : x.Urged) (ha : a.Spontaneous) (hy : Does x a y) : y.Urged := by
  have hforking : ∀ pending, x.pc ≠ .forking pending := by
    rintro pending hpc
    rcases h with ⟨d, hc, -⟩ | ⟨retcode, hc⟩ | hc
    all_goals exact LibraryPc.noConfusion (hc.symm.trans hpc)
  -- while it polls, the request is there
  have hrequest : ∀ d, x.pc = .polling d → x.eventfd ≠ [] := by
    intro d hpc
    rcases h with ⟨e, -, hne⟩ | ⟨retcode, hc⟩ | hc
    · exact hne
    · exact LibraryPc.noConfusion (hc.symm.trans hpc)
    · exact LibraryPc.noConfusion (hc.symm.trans hpc)
  cases hy with
  | pass solver listens msgs hpid hregexes hcb hstate hmsgs hlistens hact =>
    rcases hact with ⟨c, rfl, -⟩ | ⟨cb, rfl⟩ <;> exact absurd ha id
  | reset hpc hstate => exact absurd ha id
  | ask pending hpc hneeds => exact absurd ha id
  | proceed pending hpc hneeds => exact absurd ha id
  | report pending pid source rest hpc hparent => exact absurd hpc (hforking pending)
  | skip pending msg source rest hpc hparent hmsg => exact absurd hpc (hforking pending)
  | poll d hpc hnone => exact Or.inl ⟨_, rfl, hrequest d hpc⟩
  | message d msg source rest hpc hchild hparent =>
    rcases x.afterMessage_cases { d with child := false } msg with ⟨retcode, hm⟩ | hm
    · exact Or.inr (Or.inl ⟨retcode, hm⟩)
    · exact Or.inl ⟨_, hm, hrequest d hpc⟩
  | abort d hpc hchild heventfd hrequests => exact Or.inr (Or.inl ⟨0, rfl⟩)
  | output n d hpc hchild heventfd hsolverchild hn =>
    rcases x.afterOutput_cases { d with solverchild := false } n with ⟨retcode, ho⟩ | ⟨buf, ho⟩
    · exact Or.inr (Or.inl ⟨retcode, ho⟩)
    · exact Or.inl ⟨_, ho, hrequest d hpc⟩
  | finish retcode hpc => exact Or.inr (Or.inr rfl)
  | terminate hstate => exact absurd ha id
  | _ => exact h

/-- **A request makes a solve return.** In every state of the poll loop that a session can reach,
`quapi_terminate` can be called; and then, whatever the children do, the call has returned as
soon as the library and the seeding process have stopped, which they do by themselves. -/
theorem terminate_returns (hrun : Machine.run (step allowMissing) (start s) acts = some x)
    (hpc : x.pc = .polling d) : ∃ y, x.step allowMissing .terminate = some y ∧
      (Machine.Leads (step allowMissing) Act.Own y fun z => z.pc = .idle) ∧
      ∀ more z, (∀ a ∈ more, a.Spontaneous) → Machine.run (step allowMissing) y more = some z →
        z.Settled allowMissing → z.pc = .idle := by
  have halive := alive_of_run hrun
  have hterminate : x.step allowMissing .terminate =
      some { x with eventfd := x.eventfd ++ [x.round] } := by
    rw [step.eq_def]
    exact if_pos (halive.polling d hpc).working
  have hurged : System.Urged { x with eventfd := x.eventfd ++ [x.round] } :=
    Or.inl ⟨d, hpc, List.append_ne_nil_of_right_ne_nil _ (List.cons_ne_nil _ _)⟩
  have hstopped : ∀ z : System, z.Alive → z.Urged → z.Settled allowMissing → z.pc = .idle := by
    rintro z hz (⟨e, he, hne⟩ | ⟨retcode, hretcode⟩ | hidle) hs
    · exact absurd (hs.halted.blocked hz he).requests hne
    · exact absurd hretcode (hs.halted.not_finishing retcode)
    · exact hidle
  have hboth : ∀ (x : System) (a : Act) (y : System), a.Spontaneous →
      x.step allowMissing a = some y → x.Alive ∧ x.Urged → y.Alive ∧ y.Urged :=
    fun _ _ _ ha hy hx => ⟨hx.1.step (does_of_step hy), hx.2.step ha (does_of_step hy)⟩
  have hy := halive.step (does_of_step hterminate)
  refine ⟨_, hterminate, ?_, ?_⟩
  · obtain ⟨more, z, hmore, hz, hrest, hsettled⟩ := Machine.leads_to_rest
      (I := fun x => x.Alive ∧ x.Urged) (fun x a y ha hy hx =>
        ⟨hboth x a y ha.spontaneous hy hx, work_lt hx.1 ha hy⟩) ⟨hy, hurged⟩
    exact ⟨more, z, hmore, hz, hstopped z hrest.1 hrest.2 hsettled⟩
  · intro more z hmore hz hsettled
    have hrest := Machine.invariant_of_meets (P := fun _ a => Act.Spontaneous a) hboth hz
      (Machine.meets_of_forall fun a ha _ => hmore a ha) ⟨hy, hurged⟩
    exact hstopped z hrest.1 hrest.2 hsettled

theorem killed_terminated : ∃ x y,
    Machine.run (step false) (start (small (some verdicts))) killedActs = some x ∧
      x.step false .terminate = some y ∧
      Machine.Leads (step false) Act.Own y fun z => z.pc = .idle := by
  have hrun : (Machine.run (step false) (start (small (some verdicts))) killedActs).map System.pc =
      some (.polling ⟨false, false, false, []⟩) := by
    decide
  obtain ⟨x, hx, hpc⟩ := Option.map_eq_some_iff.mp hrun
  obtain ⟨y, hy, hleads, -⟩ := terminate_returns hx hpc
  exact ⟨x, y, hx, hy, hleads⟩

end

end System

end QuAPI
