import QuAPI.Attribution

/-!
# Requests to terminate

`quapi_terminate` ends a round from outside, and its request may outlive the round: what was not
served stays in the eventfd. If every solve returns with the eventfd empty, then a solve is only
aborted by requests of its own round (`QuAPI.System.requests_served`).
-/

namespace QuAPI

namespace System

/-! ### Requests that have not been served -/

section

variable {x y : System} {a : Act} {allowMissing : Bool} {acts : List Act} {s : QuapiSolver}
  {pending : PendingCall}

/-- **All requests have been served** where a solve returns. -/
def NoneLeft (x : System) : Act → Prop
  | .finish => x.eventfd = []
  | _ => True

instance (x : System) : ∀ a, Decidable (x.NoneLeft a)
  | .finish => inferInstanceAs (Decidable (_ = _))
  | .call _ | .setStdoutCb _ | .readReport | .poll | .handle _ | .terminate | .flush _
  | .seedRead | .seedFork _ | .seedReport | .seedReap | .take _ _ | .readOn _ _ | .print _ _
  | .destruct _ | .exit _ _ => isTrue trivial

/-- The poll loop is not running. -/
def Resting (x : System) : Prop := x.pc = .idle ∨ ∃ pending, x.pc = .forking pending

end

end System

/-- A solve is only aborted by requests of its own round. -/
def Event.Prompt : Event → Prop
  | .aborted r requests => ∀ q ∈ requests, q = r
  | _ => True

namespace System

section

variable {x y : System} {a : Act} {allowMissing : Bool} {acts : List Act} {s : QuapiSolver}
  {pending : PendingCall}

/-- **The requests have been served in their rounds** so far. -/
structure Served (x : System) : Prop where
  /-- The requests that are left are of the round. -/
  requests : ∀ q ∈ x.eventfd, q = x.round
  /-- Outside the poll loop, there are none, and there can be none. -/
  resting : x.Resting → x.eventfd = [] ∧ x.solver.state ≠ .working
  log : ∀ ev ∈ x.log, ev.Prompt

theorem not_resting_of_polling {d : PollData} (h : x.pc = .polling d) : ¬x.Resting := by
  rintro (hc | ⟨pending, hc⟩) <;> exact LibraryPc.noConfusion (h.symm.trans hc)

theorem not_resting_of_finishing {retcode : ℤ} (h : x.pc = .finishing retcode) : ¬x.Resting := by
  rintro (hc | ⟨pending, hc⟩) <;> exact LibraryPc.noConfusion (h.symm.trans hc)

theorem Served.proceed (h : x.Served) (hx : x.eventfd = []) : (x.proceed pending).Served := by
  obtain ⟨-, hround, heventfd⟩ := proceed_frame x pending
  have hnone : (x.proceed pending).eventfd = [] := heventfd.trans hx
  refine ⟨?_, fun hrest => ⟨hnone, ?_⟩, ?_⟩
  · intro q hq
    rw [hnone] at hq
    exact absurd hq List.not_mem_nil
  · cases pending with
    | assume lit => exact QuapiState.noConfusion
    | solve =>
      rw [System.proceed] at hrest ⊢
      split at hrest
      case isTrue hc => exact absurd hrest (not_resting_of_polling rfl)
      case isFalse hc =>
        rw [if_neg hc]
        exact QuapiState.noConfusion
  · rw [(log_proceed x pending).1]
    exact h.log

theorem Served.step (h : x.Served) (ha : x.NoneLeft a) (hy : Does x a y) : y.Served := by
  have hnew : ∀ ev : Event, ev.Prompt → ∀ e ∈ x.log ++ [ev], e.Prompt := by
    intro ev hev e he
    rcases List.mem_append.mp he with he | he
    · exact h.log e he
    · rwa [List.mem_singleton.mp he]
  have hsame : y.eventfd = x.eventfd → y.round = x.round → y.pc = x.pc →
      y.solver.state = x.solver.state → y.log = x.log → y.Served := by
    intro heventfd hround hpc hstate hlog
    refine ⟨?_, ?_, ?_⟩
    · rw [heventfd, hround]
      exact h.requests
    · intro hrest
      rw [heventfd, hstate]
      refine h.resting ?_
      rwa [Resting, ← hpc]
    · rw [hlog]
      exact h.log
  cases hy with
  | pass solver listens msgs hpid hregexes hcb hstate hmsgs =>
    refine ⟨h.requests, fun hrest => ⟨(h.resting hrest).1, ?_⟩, h.log⟩
    rcases hstate with hstate | ⟨-, hstate⟩
    · change solver.state ≠ _
      rw [hstate]
      exact (h.resting hrest).2
    · exact hstate
  | reset hpc hstate =>
    have hidle := h.resting (Or.inl hpc)
    rcases x.abortSolverchild_cases with heq | ⟨pid, heq⟩ <;> rw [heq] <;>
      exact ⟨h.requests, fun _ => ⟨hidle.1, QuapiState.noConfusion⟩, h.log⟩
  | ask pending hpc hneeds =>
    have hidle := h.resting (Or.inl hpc)
    refine ⟨?_, fun _ => ⟨hidle.1, QuapiState.noConfusion⟩, h.log⟩
    intro q hq
    change q ∈ x.eventfd at hq
    rw [hidle.1] at hq
    exact absurd hq List.not_mem_nil
  | proceed pending hpc hneeds => exact h.proceed (h.resting (Or.inl hpc)).1
  | report pending pid source rest hpc hparent =>
    have hforking := h.resting (Or.inr ⟨pending, hpc⟩)
    have hx : Served { x with
        toParent := rest
        solver := x.solver.gotReport pid
        log := x.log ++ [.report x.round pid source] } :=
      ⟨h.requests, fun _ => hforking, hnew _ trivial⟩
    exact hx.proceed hforking.1
  | skip pending msg source rest hpc hparent hmsg => exact ⟨h.requests, h.resting, hnew _ trivial⟩
  | poll d hpc hnone =>
    exact ⟨h.requests, fun hrest => absurd hrest (not_resting_of_polling rfl), h.log⟩
  | message d msg source rest hpc hchild hparent =>
    refine ⟨h.requests, fun hrest => absurd hrest ?_, hnew _ trivial⟩
    rcases x.afterMessage_cases { d with child := false } msg with ⟨retcode, hm⟩ | hm
    · exact not_resting_of_finishing hm
    · exact not_resting_of_polling hm
  | abort d hpc hchild heventfd hrequests =>
    rcases x.abortSolverchild_cases with heq | ⟨pid, heq⟩ <;> rw [heq] <;>
      exact ⟨List.forall_mem_nil _, fun hrest => absurd hrest (not_resting_of_finishing rfl),
        hnew _ h.requests⟩
  | output n d hpc hchild heventfd hsolverchild hn =>
    refine ⟨h.requests, fun hrest => absurd hrest ?_, hnew _ trivial⟩
    rcases x.afterOutput_cases { d with solverchild := false } n with ⟨retcode, ho⟩ | ⟨buf, ho⟩
    · exact not_resting_of_finishing ho
    · exact not_resting_of_polling ho
  | finish retcode hpc => exact ⟨h.requests, fun _ => ⟨ha, QuapiState.noConfusion⟩, hnew _ trivial⟩
  | terminate hstate =>
    refine ⟨?_, fun hrest => absurd hstate (h.resting hrest).2, h.log⟩
    intro q hq
    rcases List.mem_append.mp hq with hq | hq
    · exact h.requests q hq
    · exact List.mem_singleton.mp hq
  | exit pid status c hrunning => exact hsame rfl rfl rfl rfl rfl
  | _ => exact hsame rfl rfl rfl rfl rfl

/-- **Requests are served in their rounds**, in every run in which each solve returns with no
request left: then a solve is only aborted by requests made while it was working. -/
theorem requests_served {litcount clausecount maxassumptions : CInt}
    {regexes : Option ((List Char → Bool) × (List Char → Bool))}
    (hinit : quapiInit litcount clausecount maxassumptions regexes = some s)
    (hleft : Machine.Meets (step allowMissing) NoneLeft (start s) acts)
    (hrun : Machine.run (step allowMissing) (start s) acts = some x) :
    ∀ ev ∈ x.log, ev.Prompt := by
  have hstart : (start s).Served := by
    obtain ⟨-, clauses, -, rfl⟩ := quapiInit_cases hinit
    exact ⟨List.forall_mem_nil _, fun _ => ⟨rfl, QuapiState.noConfusion⟩, List.forall_mem_nil _⟩
  exact (Machine.invariant_of_meets (fun _ _ _ ha hy hx => Served.step hx ha (does_of_step hy))
    hrun hleft hstart).log

end

theorem solved_served : ∃ x,
    Machine.run (step false) (start (small none)) (terminatedActs ++ solvedActs) = some x ∧
      .aborted 1 [1] ∈ x.log ∧ .returned 2 10 ∈ x.log ∧ ∀ ev ∈ x.log, ev.Prompt := by
  have hrun : ((Machine.run (step false) (start (small none))
      (terminatedActs ++ solvedActs)).map fun x =>
        (decide (.aborted 1 [1] ∈ x.log), decide (.returned 2 10 ∈ x.log))) =
        some (true, true) := by
    decide
  obtain ⟨x, hx, hlog⟩ := Option.map_eq_some_iff.mp hrun
  obtain ⟨hfirst, hsecond⟩ := Prod.mk.inj hlog
  exact ⟨x, hx, of_decide_eq_true hfirst, of_decide_eq_true hsecond,
    requests_served (small_init none) (by decide) hx⟩

/-- A round whose child exits before its request is served. -/
def racedActs : List Act :=
  [.call (.add (lit 1)), .call (.add 0), .call (.assume (lit 2)), .seedRead, .seedRead,
    .seedFork 7, .seedReport, .readReport, .call .solve, .take 7 3, .terminate,
    .exit 7 (.exited 10), .seedReap, .poll, .handle 0, .finish]

/-- **A request that crosses rounds**: the first round returns `10`, and the second one is
aborted by its request, before its child has read anything. -/
theorem request_crosses : ∃ x,
    Machine.run (step false) (start (small none)) (racedActs ++ [.call (.assume (lit 3)),
      .seedFork 8, .seedReport, .readReport, .call .solve, .poll, .handle 0, .finish]) = some x ∧
      .returned 1 10 ∈ x.log ∧ .aborted 2 [1] ∈ x.log ∧ .returned 2 0 ∈ x.log ∧
      ⟨2, 8, false, some .signaled⟩ ∈ x.children ∧ ¬∀ ev ∈ x.log, ev.Prompt := by
  have hrun : ((Machine.run (step false) (start (small none)) (racedActs ++
      [.call (.assume (lit 3)), .seedFork 8, .seedReport, .readReport, .call .solve, .poll,
        .handle 0, .finish])).map fun x =>
        decide (.returned 1 10 ∈ x.log ∧ .aborted 2 [1] ∈ x.log ∧ .returned 2 0 ∈ x.log ∧
          ⟨2, 8, false, some .signaled⟩ ∈ x.children)) = some true := by
    decide
  obtain ⟨x, hx, hlog⟩ := Option.map_eq_some_iff.mp hrun
  obtain ⟨hfirst, haborted, hsecond, hkilled⟩ := of_decide_eq_true hlog
  refine ⟨x, hx, hfirst, haborted, hsecond, hkilled, ?_⟩
  intro h
  have hround : 1 = 2 := h _ haborted 1 (List.mem_singleton.mpr rfl)
  exact absurd hround (by decide)

end System

end QuAPI
