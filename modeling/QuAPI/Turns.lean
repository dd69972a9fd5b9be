import QuAPI.Children
import QuAPI.Progress

/-!
# One child at a time

Without regular expressions and without a callback, the children take turns. A solve is over
only once the child of its round has ended, by itself or because it has been killed, and so
is the round when the assumptions are reset; the next FORK is written behind that. Hence no
two children ever run at the same time; and where the calls have been proper
(`QuAPI.Api.Proper`), so that the seeding process takes every FORK, the library never waits for
anybody but the child of its round, and every call comes back
(`QuAPI.System.waits_for_child`). A child counts as ended from its SIGKILL on.
-/

namespace QuAPI

namespace System

open ForkProtocol (Sound Own)

section

variable {x y : System} {a : Act} {allowMissing : Bool} {acts : List Act} {s : QuapiSolver}
  {pending : PendingCall} {d : PollData}

/-! ### What a call begins with -/

/-- A record with the same turn: whether the next call needs a fork. -/
def SameTurn (s t : QuapiSolver) : Prop := (t.needsFork ↔ s.needsFork) ∧ (s.canSolve → t.canSolve)

theorem makeSolvable_cases (x : System) (pending : PendingCall) :
    (x.solver.needsFork ∧ x.makeSolvable pending = { x with
      solver := x.solver.askFork
      pc := .forking pending
      round := x.round + 1
      toSeed := x.toSeed ++ [x.solver.forkMsg] }) ∨
    ¬x.solver.needsFork ∧ x.makeSolvable pending = x.proceed pending := by
  rw [makeSolvable]
  split
  case isTrue hneeds => exact Or.inl ⟨hneeds, rfl⟩
  case isFalse hneeds => exact Or.inr ⟨hneeds, rfl⟩

/-- **What a call does to the turn**: nothing, or it kills the child, or it asks for a fork, or
it goes on with the child that is there. -/
theorem call_cases {c : ApiCall} (h : x.call allowMissing c = some y) :
    (∃ t msgs, SameTurn x.solver t ∧ y = { x with solver := t, toSeed := x.toSeed ++ msgs }) ∨
    x.solver.state = .inputAssumptions ∧
      y = { x.abortSolverchild with solver := x.solver.clearAssumptions } ∨
    ∃ pending, y = x.makeSolvable pending := by
  have hsame : (∃ t msgs, SameTurn x.solver t ∧
      x = { x with solver := t, toSeed := x.toSeed ++ msgs }) :=
    ⟨x.solver, [], ⟨Iff.rfl, id⟩, by rw [List.append_nil]⟩
  cases c with
  | quantify lit =>
    obtain ⟨e, he, rfl⟩ := Option.map_eq_some_iff.mp h
    have hs : x.solver.state = .input := by
      by_contra hc
      rw [QuapiSolver.quapiQuantify, if_neg hc] at he
      exact absurd he (by simp)
    rw [QuapiSolver.quapiQuantify_of_input hs] at he
    obtain rfl := Option.some.inj he
    refine Or.inl ⟨_, _, ?_, rfl⟩
    exact ⟨Iff.rfl, id⟩
  | add lit =>
    obtain ⟨e, he, rfl⟩ := Option.map_eq_some_iff.mp h
    rw [QuapiSolver.quapiAdd] at he
    split at he
    case isFalse => exact absurd he (by simp)
    case isTrue hs =>
      obtain rfl := Option.some.inj he
      refine Or.inl ⟨_, _, ⟨⟨fun _ => hs, fun _ => Or.inl ?_⟩, fun _ => Or.inr (Or.inl ?_)⟩, rfl⟩
      all_goals
        simp only []
        split <;> rfl
  | assume lit =>
    rw [call] at h
    split at h
    case isFalse => exact absurd h (by simp)
    case isTrue =>
      split at h
      case isTrue =>
        obtain rfl := Option.some.inj h
        exact Or.inl hsame
      case isFalse =>
        obtain ⟨bound, -, rfl⟩ := Option.map_eq_some_iff.mp h
        split
        · exact Or.inl hsame
        · exact Or.inr (Or.inr ⟨_, rfl⟩)
  | reset =>
    obtain rfl := Option.some.inj h
    by_cases hs : x.solver.state = .inputAssumptions
    · have hreset : x.solver.quapiResetAssumptions = ⟨x.solver.clearAssumptions, [], [], true⟩ :=
        if_pos hs
      refine Or.inr (Or.inl ⟨hs, ?_⟩)
      simp only [hreset, if_pos hs]
    · have hreset : x.solver.quapiResetAssumptions = ⟨x.solver, [], [], true⟩ := if_neg hs
      simp only [hreset, if_neg hs]
      exact Or.inl hsame
  | solve =>
    obtain rfl := Option.some.inj h
    split
    · exact Or.inl hsame
    · exact Or.inr (Or.inr ⟨_, rfl⟩)

/-! ### The turn -/

/-- **Between two turns**: no child has been asked for, or the solve of the last one is over. -/
def Between (x : System) : Prop :=
  x.pc = .idle ∧ x.solver.needsFork ∨ ∃ retcode, x.pc = .finishing retcode

/-- The exit code of the child of the round has still to come. -/
def Expects (x : System) : Prop :=
  (∃ r, x.seed = .waiting r) ∨ ∃ m ∈ x.protocol.fresh, ∃ code, m.1 = .exitCode code

/-- **The children take turns.** -/
structure Turn (x : System) : Prop where
  older : ∀ c ∈ x.children, c.round < x.round → c.status ≠ none
  between : x.Between → ∀ c ∈ x.children, c.status ≠ none
  expects : x.Announced → ¬x.Between → x.Expects
  asked : ∀ pending, x.pc = .forking pending → x.solver.state = .inputAssumptions
  canSolve : x.pc = .idle → x.solver.canSolve

theorem not_between_of_forking (h : x.pc = .forking pending) : ¬x.Between := by
  rintro (⟨hc, -⟩ | ⟨retcode, hc⟩) <;> exact LibraryPc.noConfusion (h.symm.trans hc)

theorem not_between_of_polling (h : x.pc = .polling d) : ¬x.Between := by
  rintro (⟨hc, -⟩ | ⟨retcode, hc⟩) <;> exact LibraryPc.noConfusion (h.symm.trans hc)

theorem not_needsFork_of_state {t : QuapiSolver} (h : t.state = .inputAssumptions) :
    ¬t.needsFork := by
  rw [QuapiSolver.needsFork, h]
  rintro (hc | hc) <;> exact QuapiState.noConfusion hc

/-- What is read behind the report. -/
theorem fresh_of_not_forking (h : x.forking = false) : x.protocol.fresh = x.toParent := by
  rw [ForkProtocol.fresh, show x.protocol.forking = false from h]
  rfl

theorem fresh_of_forking (h : x.pc = .forking pending) :
    x.protocol.fresh = ForkProtocol.afterReport x.toParent := by
  rw [ForkProtocol.fresh, show x.protocol.forking = true from forking_of_eq h]
  rfl

theorem pc_of_forking (h : x.forking = true) : ∃ pending, x.pc = .forking pending := by
  rw [System.forking] at h
  split at h
  case h_1 pending hpc => exact ⟨pending, hpc⟩
  case h_2 => exact absurd h Bool.false_ne_true

/-- What is written behind the report is read behind it. -/
theorem mem_fresh_of_append (h : x.Announced) {m : QuapiMsg × ℕ} {ms : List (QuapiMsg × ℕ)}
    (hparent : x.toParent = ms ++ [m]) (hm : isReport m = false) : m ∈ x.protocol.fresh := by
  have hmem : m ∈ [m] := List.mem_singleton.mpr rfl
  rcases Bool.eq_false_or_eq_true x.forking with hforking | hforking
  · obtain ⟨pending, hpc⟩ := pc_of_forking hforking
    have hpos : 0 < ms.countP isReport := by
      rcases h with hf | hpos
      · exact absurd (hforking.symm.trans hf) (by simp)
      · rwa [hparent, List.countP_append, List.countP_singleton, hm] at hpos
    rw [fresh_of_forking hpc, hparent, ForkProtocol.afterReport_append hpos]
    exact List.mem_append_right _ hmem
  · rw [fresh_of_not_forking hforking, hparent]
    exact List.mem_append_right _ hmem

/-- Who has ended stays so. -/
theorem ended_later {cs ds : List Child} (h : List.Forall₂ Child.Later cs ds) {P : ℕ → Prop}
    (hcs : ∀ c ∈ cs, P c.round → c.status ≠ none) : ∀ d ∈ ds, P d.round → d.status ≠ none := by
  intro d hd hP
  obtain ⟨c, hc, hround, -, hstatus⟩ := ForkProtocol.exists_earlier h hd
  obtain ⟨status, hs⟩ := Option.ne_none_iff_exists'.mp (hcs c hc (hround ▸ hP))
  rw [hstatus status hs]
  exact Option.some_ne_none status

/-- There is no child of a later round. -/
theorem round_le (hs : x.protocol.Sound) {c : Child} (hc : c ∈ x.children) : c.round ≤ x.round := by
  have hrounds : x.children.map Child.round = List.range' 1 x.children.length := hs.rounds
  have hmem : c.round ∈ List.range' 1 x.children.length := hrounds ▸ List.mem_map_of_mem hc
  have hlength : x.children.length + x.toSeed.countP Stream.isFork = x.round := hs.length
  have hlt := (List.mem_range'_1.mp hmem).2
  omega

/-- Once the child of the round has ended, all have. -/
theorem all_ended (hs : x.protocol.Sound)
    (holder : ∀ c ∈ x.children, c.round < x.round → c.status ≠ none)
    (hlast : ∀ c ∈ x.children, c.round = x.round → c.status ≠ none) :
    ∀ c ∈ x.children, c.status ≠ none := by
  intro c hc
  rcases Nat.lt_or_eq_of_le (round_le hs hc) with hlt | heq
  · exact holder c hc hlt
  · exact hlast c hc heq

/-- **Who is killed is the child of the round**, and so all have ended. -/
theorem abort_ends (hs : x.protocol.Sound) (hforking : x.forking = false)
    (holder : ∀ c ∈ x.children, c.round < x.round → c.status ≠ none) :
    ∀ c ∈ x.abortSolverchild.children, c.status ≠ none := by
  have hpid : ∀ c ∈ x.children, c.round = x.round → x.solver.solverchildPid = some c.pid :=
    hs.pid hforking
  by_cases hlast : ∀ c ∈ x.children, c.round ≠ x.round
  · have hall := all_ended hs holder fun c hc hround => absurd hround (hlast c hc)
    have hlater : List.Forall₂ Child.Later x.children x.abortSolverchild.children := by
      rcases x.abortSolverchild_cases with heq | ⟨pid, heq⟩ <;> rw [heq]
      · exact ForkProtocol.later_refl _
      · exact later_exit x pid _
    exact fun d hd => ended_later (P := fun _ => True) hlater (fun c hc _ => hall c hc) d hd trivial
  · push Not at hlast
    obtain ⟨c, hc, hround⟩ := hlast
    have habort : x.abortSolverchild = x.exit c.pid .signaled := by
      rw [abortSolverchild, hpid c hc hround]
    rw [habort]
    intro d hd
    obtain ⟨e, he, rfl⟩ := List.mem_map.mp hd
    split
    case isTrue => exact Option.some_ne_none _
    case isFalse hnot =>
      intro hstatus
      rcases Nat.lt_or_eq_of_le (round_le hs he) with hlt | heq
      · exact holder e he hlt hstatus
      · have hec : e = c := hs.eq_of_round he hc (heq.trans hround.symm)
        exact hnot ⟨congrArg Child.pid hec, hstatus⟩

/-! ### The turn along a run -/

/-- Nothing happens to the turn. -/
theorem Turn.same (h : x.Turn) (hpc : y.pc = x.pc) (hround : y.round = x.round)
    (hchildren : List.Forall₂ Child.Later x.children y.children)
    (hsolver : SameTurn x.solver y.solver)
    (hstate : x.pc ≠ .idle → y.solver.state = x.solver.state)
    (hannounced : y.Announced → x.Announced)
    (hexpects : y.Announced → x.Expects → y.Expects) : y.Turn := by
  have hbetween : y.Between ↔ x.Between := by
    rw [Between, Between, hpc, hsolver.1]
  refine ⟨?_, ?_, ?_, ?_, ?_⟩
  · rw [hround]
    exact ended_later (P := fun r => r < x.round) hchildren h.older
  · intro hy d hd
    exact ended_later (P := fun _ => True) hchildren
      (fun c hc _ => h.between (hbetween.mp hy) c hc) d hd trivial
  · exact fun ha hn => hexpects ha (h.expects (hannounced ha) fun hx => hn (hbetween.mpr hx))
  · intro pending hy
    have hx : x.pc = .forking pending := hpc.symm.trans hy
    refine (hstate ?_).trans (h.asked pending hx)
    intro hidle
    exact LibraryPc.noConfusion (hidle.symm.trans hx)
  · exact fun hy => hsolver.2 (h.canSolve (hpc.symm.trans hy))

/-- A call goes on with the child that is there. -/
theorem turn_proceed (hstate : x.solver.state = .inputAssumptions)
    (holder : ∀ c ∈ x.children, c.round < x.round → c.status ≠ none)
    (hexpects : (∃ r, x.seed = .waiting r) ∨ ∃ m ∈ x.toParent, ∃ code, m.1 = .exitCode code)
    (pending : PendingCall) : (x.proceed pending).Turn := by
  obtain ⟨hseed, hparent⟩ := proceed_frame_seed x pending
  obtain ⟨-, hchildren, -⟩ := log_proceed x pending
  have hround := (proceed_frame x pending).2.1
  have hcan : x.solver.canSolve := Or.inr (Or.inr hstate)
  have hforking : (x.proceed pending).forking = false := by
    cases pending with
    | assume lit => rfl
    | solve =>
      rw [System.proceed, if_pos hcan]
      rfl
  have hbetween : ¬(x.proceed pending).Between := by
    cases pending with
    | assume lit =>
      rintro (⟨-, hneeds⟩ | ⟨retcode, hc⟩)
      · exact not_needsFork_of_state (t := x.solver.countAssumption) rfl hneeds
      · exact LibraryPc.noConfusion hc
    | solve =>
      rw [System.proceed, if_pos hcan]
      exact not_between_of_polling rfl
  refine ⟨?_, fun hc => absurd hc hbetween, fun _ _ => ?_, ?_, ?_⟩
  · rw [hchildren, hround]
    exact holder
  · rw [Expects, hseed, fresh_of_not_forking hforking, hparent]
    exact hexpects
  · intro p hp
    exact absurd ((forking_of_eq hp).symm.trans hforking) (by simp)
  · intro hidle
    cases pending with
    | assume lit => exact Or.inr (Or.inr rfl)
    | solve =>
      rw [System.proceed, if_pos hcan] at hidle
      exact LibraryPc.noConfusion hidle

theorem step_call (hpc : x.pc = .idle) (c : ApiCall) :
    x.step allowMissing (.call c) = x.call allowMissing c := by
  rw [step.eq_def]
  simp only [hpc]

/-- **A call keeps the turns.** -/
theorem Turn.call (h : x.Turn) (hr : x.Reported) (hpc : x.pc = .idle) {c : ApiCall}
    (hy : x.call allowMissing c = some y) : y.Turn := by
  have hforking := forking_of_idle hpc
  rcases call_cases hy with ⟨t, msgs, hsame, rfl⟩ | ⟨hstate, rfl⟩ | ⟨pending, rfl⟩
  · exact h.same rfl rfl (ForkProtocol.later_refl _) hsame (fun hc => absurd hpc hc) id fun _ => id
  -- the child is killed
  · have hended := abort_ends hr.sound hforking h.older
    have hpc' : x.abortSolverchild.pc = .idle := by
      rcases x.abortSolverchild_cases with heq | ⟨pid, heq⟩ <;> rw [heq] <;> exact hpc
    refine ⟨fun c hc _ => hended c hc, fun _ => hended, fun _ hn => absurd ?_ hn, ?_, ?_⟩
    · exact Or.inl ⟨hpc', Or.inl rfl⟩
    · exact fun pending hc => LibraryPc.noConfusion (hc.symm.trans hpc')
    · exact fun _ => Or.inr (Or.inl rfl)
  · rcases x.makeSolvable_cases pending with ⟨hneeds, heq⟩ | ⟨hneeds, heq⟩ <;> rw [heq]
    -- nobody runs when the FORK is written
    · have hended := h.between (Or.inl ⟨hpc, hneeds⟩)
      have hcount : x.toSeed.countP Stream.isFork + x.seed.reports + x.toParent.countP isReport =
          x.forking.toNat := hr.sound.count
      rw [hforking, Bool.toNat_false] at hcount
      refine ⟨fun c hc _ => hended c hc, fun hc => absurd hc (not_between_of_forking rfl),
        fun ha _ => ?_, fun _ _ => rfl, fun hc => LibraryPc.noConfusion hc⟩
      rcases ha with hf | hpos
      · exact absurd hf (by simp [System.forking])
      · change 0 < x.toParent.countP isReport at hpos
        omega
    · have hbetween : ¬x.Between := by
        rintro (⟨-, hc⟩ | ⟨retcode, hc⟩)
        · exact hneeds hc
        · exact LibraryPc.noConfusion (hc.symm.trans hpc)
      have hexpects := h.expects (Or.inl hforking) hbetween
      rw [Expects, fresh_of_not_forking hforking] at hexpects
      exact turn_proceed ((needsFork_or (h.canSolve hpc)).resolve_left hneeds) h.older hexpects
        pending

theorem expects_of_eq (hseed : y.seed = x.seed) (hparent : y.toParent = x.toParent)
    (hforking : y.forking = x.forking) (h : x.Expects) : y.Expects := by
  rw [Expects, ForkProtocol.fresh] at h ⊢
  rw [show y.protocol.forking = x.forking from hforking,
    show y.protocol.parent = x.toParent from hparent, hseed]
  exact h

/-- What changes nothing but the pipes to the children and who has ended. -/
theorem Turn.keep (h : x.Turn) (hpc : y.pc = x.pc) (hround : y.round = x.round)
    (hsolver : y.solver = x.solver) (hseed : y.seed = x.seed) (hparent : y.toParent = x.toParent)
    (hchildren : List.Forall₂ Child.Later x.children y.children) : y.Turn := by
  have hforking : y.forking = x.forking := by rw [System.forking, System.forking, hpc]
  refine h.same hpc hround hchildren ?_ (fun _ => congrArg _ hsolver) ?_
    fun _ => expects_of_eq hseed hparent hforking
  · rw [hsolver]
    exact ⟨Iff.rfl, id⟩
  · rw [Announced, Announced, hforking, hparent]
    exact id

/-- **The report is there**, and the exit code comes behind it. -/
theorem Turn.report (h : x.Turn) (hpc : x.pc = .forking pending) {pid : ℤ} {source : ℕ}
    {rest : List (QuapiMsg × ℕ)} (hparent : x.toParent = (.forkReport pid, source) :: rest) :
    (System.proceed { x with
      toParent := rest
      solver := x.solver.gotReport pid
      log := x.log ++ [.report x.round pid source] } pending).Turn := by
  refine turn_proceed (x := { x with
    toParent := rest
    solver := x.solver.gotReport pid
    log := x.log ++ [.report x.round pid source] }) (h.asked pending hpc) h.older ?_ pending
  have hpos : 0 < x.toParent.countP isReport := by
    rw [hparent, List.countP_cons_of_pos rfl]
    exact Nat.succ_pos _
  have hexpects := h.expects (Or.inr hpos) (not_between_of_forking hpc)
  rwa [Expects, fresh_of_forking hpc, hparent, ForkProtocol.afterReport_report] at hexpects

/-- A message is read over. -/
theorem Turn.skip (h : x.Turn) (hpc : x.pc = .forking pending) {msg : QuapiMsg} {source : ℕ}
    {rest : List (QuapiMsg × ℕ)} (hparent : x.toParent = (msg, source) :: rest)
    (hmsg : ∀ pid, msg ≠ .forkReport pid) :
    Turn { x with toParent := rest, log := x.log ++ [.skipped x.round msg source] } := by
  have hno : ¬isReport (msg, source) = true := by
    cases msg with
    | forkReport pid => exact absurd rfl (hmsg pid)
    | _ => exact Bool.false_ne_true
  refine h.same rfl rfl (ForkProtocol.later_refl _) ⟨Iff.rfl, id⟩ (fun _ => rfl) ?_ ?_
  · intro ha
    rw [Announced, hparent, List.countP_cons_of_neg hno]
    exact ha
  · intro _ hx
    rw [Expects, fresh_of_forking hpc, hparent, ForkProtocol.afterReport, if_neg hno] at hx
    have hfresh : ({ x with
        toParent := rest
        log := x.log ++ [.skipped x.round msg source] } : System).protocol.fresh =
          ForkProtocol.afterReport rest := fresh_of_forking hpc
    rw [Expects, hfresh]
    exact hx

/-- The poll loop goes on. -/
theorem Turn.polls (h : x.Turn) (hpc : x.pc = .polling d) {e : PollData}
    (hpc' : y.pc = .polling e) (hround : y.round = x.round) (hchildren : y.children = x.children)
    (hseed : y.seed = x.seed) (hparent : y.toParent = x.toParent) : y.Turn := by
  have hforking := forking_of_polling hpc
  refine ⟨?_, fun hc => absurd hc (not_between_of_polling hpc'), fun _ _ => ?_,
    fun _ hc => LibraryPc.noConfusion (hpc'.symm.trans hc),
    fun hc => LibraryPc.noConfusion (hpc'.symm.trans hc)⟩
  · rw [hchildren, hround]
    exact h.older
  · refine expects_of_eq hseed hparent ((forking_of_polling hpc').trans hforking.symm) ?_
    exact h.expects (Or.inl hforking) (not_between_of_polling hpc)

/-- **The solve is over** once all children have ended. -/
theorem turn_finishing {retcode : ℤ} (hpc : y.pc = .finishing retcode)
    (hended : ∀ c ∈ y.children, c.status ≠ none) : y.Turn :=
  ⟨fun c hc _ => hended c hc, fun _ => hended, fun _ hn => absurd (Or.inr ⟨retcode, hpc⟩) hn,
    fun _ hc => LibraryPc.noConfusion (hpc.symm.trans hc),
    fun hc => LibraryPc.noConfusion (hpc.symm.trans hc)⟩

/-- **The exit code is that of the child of the round**, which has ended. -/
theorem Turn.message (h : x.Turn) (hr : x.Reported) (hpc : x.pc = .polling d) {msg : QuapiMsg}
    {source : ℕ} {rest : List (QuapiMsg × ℕ)} (hparent : x.toParent = (msg, source) :: rest) :
    Turn { x with
      toParent := rest
      log := x.log ++ [.message x.round msg source x.solver.solverchildPid]
      pc := x.afterMessage { d with child := false } msg } := by
  obtain ⟨-, code, known, rfl, -, e, he, hround, -, status, hstatus, -⟩ :=
    hr.head (forking_of_polling hpc) hparent
  have hfinishing : x.afterMessage { d with child := false } (.exitCode code) =
      .finishing code := by
    refine if_neg ?_
    rw [hr.plain.stdoutCb]
    exact fun hc => absurd hc.2 (by simp)
  have hended : ∀ c ∈ x.children, c.status ≠ none := by
    refine all_ended hr.sound h.older ?_
    intro c hc hc'
    have hce : c = e := hr.sound.eq_of_round hc he (hc'.trans hround.symm)
    rw [hce, hstatus]
    exact Option.some_ne_none status
  exact turn_finishing hfinishing hended

/-- **A child is forked**, the one that is asked for. -/
theorem Turn.fork (h : x.Turn) (hs : x.protocol.Sound) {pid : ℤ} {wait : Bool}
    {rest : List QuapiMsg} (htoSeed : x.toSeed = .fork wait :: rest) :
    (x.fork pid wait rest).Turn := by
  have hcount : x.toSeed.countP Stream.isFork + x.seed.reports + x.toParent.countP isReport =
      x.forking.toNat := hs.count
  have hlength : x.children.length + x.toSeed.countP Stream.isFork = x.round := hs.length
  rw [htoSeed, List.countP_cons_of_pos rfl] at hcount hlength
  have hle := Bool.toNat_le x.forking
  have hforking : x.forking = true := by
    by_contra hf
    rw [Bool.not_eq_true _ |>.mp hf, Bool.toNat_false] at hcount
    omega
  obtain ⟨pending, hpc⟩ := pc_of_forking hforking
  refine ⟨?_, fun hc => absurd hc (not_between_of_forking hpc), fun ha _ => ?_, h.asked,
    h.canSolve⟩
  · intro c hc hlt
    rcases List.mem_append.mp hc with hc | hc
    · exact h.older c hc hlt
    -- the new child is that of the round
    · obtain rfl := List.mem_singleton.mp hc
      change x.children.length + 1 < x.round at hlt
      omega
  · rcases ha with hf | hpos
    · exact absurd (hforking.symm.trans hf) (by simp)
    · change 0 < x.toParent.countP isReport at hpos
      omega

/-- **Every act keeps the turns.** -/
theorem Turn.step (h : x.Turn) (hr : x.Reported)
    (hcb : ∀ cb, a ≠ .setStdoutCb (some cb)) (hy : x.step allowMissing a = some y) : y.Turn := by
  have hdoes := does_of_step hy
  have hrefl := ForkProtocol.later_refl x.children
  cases hdoes with
  | pass solver listens msgs hpid hregexes hcb' hstate hmsgs hlistens hact =>
    rcases hact with ⟨c, rfl, hpc⟩ | ⟨cb, rfl⟩
    · exact h.call hr hpc ((step_call hpc _).symm.trans hy)
    · rw [step.eq_def] at hy
      rw [← Option.some.inj hy]
      exact h.same rfl rfl hrefl ⟨Iff.rfl, id⟩ (fun _ => rfl) id fun _ => id
  | reset hpc hstate => exact h.call hr hpc ((step_call hpc _).symm.trans hy)
  | ask pending hpc hneeds => exact h.call hr hpc ((step_call hpc _).symm.trans hy)
  | proceed pending hpc hneeds => exact h.call hr hpc ((step_call hpc _).symm.trans hy)
  | report pending pid source rest hpc hparent => exact h.report hpc hparent
  | skip pending msg source rest hpc hparent hmsg => exact h.skip hpc hparent hmsg
  | poll d hpc hnone => exact h.polls hpc rfl rfl rfl rfl rfl
  | message d msg source rest hpc hchild hparent => exact h.message hr hpc hparent
  | abort d hpc hchild heventfd hrequests =>
    exact turn_finishing rfl (abort_ends hr.sound (forking_of_polling hpc) h.older)
  | output n d hpc hchild heventfd hsolverchild hn =>
    obtain ⟨buf, hafter⟩ := hr.plain.afterOutput { d with solverchild := false } n
    exact h.polls hpc hafter rfl rfl rfl rfl
  | finish retcode hpc =>
    have hended := h.between (Or.inr ⟨retcode, hpc⟩)
    exact ⟨h.older, fun _ => hended, fun _ hn => absurd (Or.inl ⟨rfl, Or.inl rfl⟩) hn,
      fun _ hc => LibraryPc.noConfusion hc, fun _ => Or.inr (Or.inl rfl)⟩
  | seedFork pid wait rest hseed htoSeed hfree => exact h.fork hr.sound htoSeed
  | seedReport round pid wait hseed =>
    -- the seeding process waits for each child
    have hwait : wait = true := by
      rw [hr.plain.mode.reporting round pid wait hseed, hr.plain.regexes]
      rfl
    exact ⟨h.older, h.between, fun _ _ => Or.inl ⟨round, if_pos hwait⟩, h.asked, h.canSolve⟩
  | seedReap c status hseed hc hstatus =>
    exact ⟨h.older, h.between, fun ha _ => Or.inr ⟨(.exitCode status.exitCode, c.round),
      mem_fresh_of_append ha rfl rfl, status.exitCode, rfl⟩, h.asked, h.canSolve⟩
  | destruct pid c hrunning hsend =>
    exact absurd (hsend.symm.trans (hr.plain.send (mem_of_running hrunning))) (by simp)
  | exit pid status c hrunning => exact h.keep rfl rfl rfl rfl rfl (later_exit x pid status)
  | _ => exact h.keep rfl rfl rfl rfl rfl hrefl

/-! ### Waiting for one child -/

/-- What holds in every state of a session without regular expressions and a callback. -/
structure InTurn (x : System) : Prop where
  alive : x.Alive
  reported : x.Reported
  turn : x.Turn

theorem InTurn.step (h : x.InTurn) (hcb : ∀ cb, a ≠ .setStdoutCb (some cb))
    (hy : x.step allowMissing a = some y) : y.InTurn :=
  ⟨h.alive.step (does_of_step hy), h.reported.step hcb (does_of_step hy),
    h.turn.step h.reported hcb hy⟩

theorem inTurn_start {litcount clausecount maxassumptions : CInt}
    (hinit : quapiInit litcount clausecount maxassumptions none = some s) : (start s).InTurn := by
  obtain ⟨-, clauses, -, rfl⟩ := quapiInit_cases hinit
  refine ⟨alive_start _, ?_, ?_⟩
  · exact ⟨sound_start _, fun m hm => absurd hm List.not_mem_nil, ⟨mode_start _, rfl, rfl⟩,
      List.forall_mem_nil _, fun code hc => LibraryPc.noConfusion hc⟩
  · exact ⟨List.forall_mem_nil _, fun _ => List.forall_mem_nil _,
      fun _ hn => absurd (Or.inl ⟨rfl, Or.inr rfl⟩) hn, fun _ hc => LibraryPc.noConfusion hc,
      fun _ => Or.inl rfl⟩

/-- **Where everything has stopped, the library waits for the child of its round.** -/
theorem InTurn.settled (h : x.InTurn) (hs : x.Settled allowMissing) : x.pc = .idle ∨
    ∃ d, x.Blocked d ∧ ∃ c ∈ x.children, c.status = none ∧ c.round = x.round ∧
      x.seed = .waiting c.round := by
  cases hpc : x.pc with
  | idle => exact Or.inl rfl
  | finishing retcode => exact absurd hpc (hs.halted.not_finishing retcode)
  | forking pending =>
    -- the child of the round before has ended
    obtain ⟨c, hc, hstatus, -, hround⟩ := hs.older h.alive hpc
    exact absurd hstatus (h.turn.older c hc (by omega))
  | polling d =>
    have hblocked := hs.halted.blocked h.alive hpc
    have hforking := forking_of_polling hpc
    refine Or.inr ⟨d, hblocked, ?_⟩
    have hexpects := h.turn.expects (Or.inl hforking) (not_between_of_polling hpc)
    rw [Expects, fresh_of_not_forking hforking, hblocked.messages] at hexpects
    rcases hs.seed h.alive with ⟨hseed, -⟩ | ⟨c, hc, hstatus, hseed⟩
    · rcases hexpects with ⟨r, hr⟩ | ⟨m, hm, -⟩
      · exact SeedState.noConfusion (hseed.symm.trans hr)
      · exact absurd hm List.not_mem_nil
    · have hround : c.round = x.children.length :=
        h.alive.sound.seed c.round
          (by rw [show x.protocol.seed = x.seed from rfl, hseed, SeedState.round])
      have hlength := (Announced.length h.alive.sound (Or.inl hforking)).2
      exact ⟨c, hc, hstatus, hround.trans hlength, hseed⟩

/-- What the processes do with the messages of proper calls, they are able to do. -/
theorem leads_live {env : Env} {z : System × History} {b : Api × List (QuapiMsg × ℕ)}
    {Q : System → Prop} (hz : Behind z b) (hhandled : ∀ y, Behind y b → Handled y)
    (hleads : Machine.Leads (System.step env.allowMissing) Act.Plain z.1 Q) :
    Machine.Leads (live env.allowMissing) Act.Plain z fun y => Q y.1 := by
  have hkeep : ∀ (y : System × History) (a : Act) (u : System × History), a.Plain →
      tracked env.allowMissing y a = some u → Behind y b → Behind u b := by
    rintro y a u ha hu hy
    refine hy.other ?_ hu
    rintro c rfl
    exact ha.1
  have hable : ∀ (y : System × History) (a : Act), a.Plain → Behind y b → Able y a := by
    rintro y a ha hy
    have hheeded := (hhandled y hy).heeded
    cases a with
    | seedRead => exact hheeded
    | seedFork pid => exact hheeded
    | readOn i n => exact absurd rfl (ha.2 i n)
    | _ => exact trivial
  obtain ⟨more, y, hmore, hy, -, hQ⟩ := (hleads.track z.2).guard hkeep hable hz
  exact ⟨more, y, hmore, hy, hQ⟩

/-- **The library only ever waits for the child of its round.** Without regular expressions and
without a callback, in every state that a session can reach: no child of an earlier round runs,
and between two rounds none at all. Where the calls have been proper, and the library and the
seeding process have stopped, no call is on its way, or the library is in `poll` and the seeding
process waits for the child of the round, which runs; and every call can come back. -/
theorem waits_for_child {env : Env} {z : System × History}
    {litcount clausecount maxassumptions : CInt}
    (hinit : quapiInit litcount clausecount maxassumptions none = some s)
    (hcb : ∀ a ∈ acts, ∀ cb, a ≠ .setStdoutCb (some cb))
    (hrun : Machine.run (live env.allowMissing) (start s, History.start s) acts = some z) :
    (∀ c ∈ z.1.children, c.status = none → c.round = z.1.round ∧ ¬z.1.Between) ∧
    (Machine.Meets (fun a c => (a.call env c).map Prod.snd) (Api.Proper env) (Api.start s)
        (acts.flatMap Act.calls) →
      (Stopped env.allowMissing z → z.1.pc = .idle ∨ ∃ d, z.1.Blocked d ∧ ∃ c ∈ z.1.children,
        c.status = none ∧ c.round = z.1.round ∧ z.1.seed = .waiting c.round) ∧
      Machine.Leads (live env.allowMissing) Act.Spontaneous z fun y => y.1.pc = .idle) := by
  have h : z.1.InTurn := Machine.invariant_of_meets
    (P := fun _ a => ∀ cb, a ≠ .setStdoutCb (some cb))
    (fun _ _ _ ha hy hx => InTurn.step hx ha hy) (step_of_live hrun)
    (Machine.meets_of_forall fun a ha _ => hcb a ha) (inTurn_start hinit)
  refine ⟨?_, fun hproper => ?_⟩
  · intro c hc hstatus
    refine ⟨?_, fun hbetween => h.turn.between hbetween c hc hstatus⟩
    rcases Nat.lt_or_eq_of_le (round_le h.alive.sound hc) with hlt | heq
    · exact absurd hstatus (h.turn.older c hc hlt)
    · exact heq
  obtain ⟨b, hb, hhandled⟩ := handled_of_proper hinit (tracked_of_live hrun) hproper
  constructor
  · intro hs
    refine h.settled (hs.settled.resolve_right ?_)
    exact fun hstuck => hstuck.2.2 (hhandled z hb).heeded
  · have hwork : ∀ (x : System) (a : Act) (y : System), a.Own →
        x.step env.allowMissing a = some y → x.InTurn → y.InTurn ∧ y.work < x.work := by
      rintro x a y ha hy hx
      refine ⟨hx.step ?_ hy, work_lt hx.alive ha hy⟩
      rintro cb rfl
      exact ha
    have hleads : Machine.Leads (System.step env.allowMissing) Act.Plain z.1
        fun y => y.pc = .idle := by
      refine ((Machine.leads_to_rest hwork h).mono fun a ha => ha.plain).trans ?_
      rintro y ⟨hy, hsettled⟩
      rcases hy.settled hsettled with hidle | ⟨d, hblocked, c, -, -, -, hseed⟩
      · exact .refl hidle
      · exact hblocked.returns hy.alive hsettled (Or.inl ⟨_, hseed⟩)
    exact (leads_live hb hhandled hleads).mono fun a ha => ha.1

theorem second_waits : ∃ x,
    Machine.run (live false) (start (small none), History.start (small none))
      (terminatedActs ++ [.call (.assume (lit 3)), .seedFork 8]) = some x ∧
      (∀ c ∈ x.1.children, c.status = none → c.round = x.1.round ∧ ¬x.1.Between) ∧
      Machine.Leads (live false) Act.Spontaneous x fun y => y.1.pc = .idle := by
  have hrun : (Machine.run (live false) (start (small none), History.start (small none))
      (terminatedActs ++ [.call (.assume (lit 3)), .seedFork 8])).isSome = true := rfl
  obtain ⟨x, hx⟩ := Option.isSome_iff_exists.mp hrun
  obtain ⟨a, hcalls, hfits⟩ : ∃ a, (Api.start (small none)).calls plainEnv
      ((terminatedActs ++ [Act.call (.assume (lit 3)), .seedFork 8]).flatMap Act.calls) = some a ∧
      Machine.run QuapiPreloadState.next .waitingForHeader a.toSeed = some .readingMatrix :=
    ⟨_, rfl, rfl⟩
  obtain ⟨halone, hproper⟩ := waits_for_child (small_init none) (by
    intro a ha cb
    simp only [terminatedActs, List.cons_append, List.nil_append, List.mem_cons,
      List.not_mem_nil, or_false] at ha
    rintro rfl
    simp at ha) (show Machine.run (live plainEnv.allowMissing) _ _ = some x from hx)
  obtain ⟨-, hreturn⟩ := hproper
    (((fitted_start (small_init none)).meets_iff hcalls).mpr ⟨_, hfits⟩)
  exact ⟨x, hx, halone, hreturn⟩

end

end System

end QuAPI
