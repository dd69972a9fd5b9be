import QuAPI.Clearing

/-!
# Resetting the assumptions

A reset kills the child of the round and puts the counters back, but it cannot take back
what has been written to the stream. `QuAPI.Stream.Forgets` says that nothing later can
tell: whatever is called from then on, and whatever the children do, a run behind the reset
and a run in which the assumptions and the reset were never made are the same, up to the
moments at which the buffer is flushed.

`QuAPI.Stream.forgets_iff` says that this is so exactly when the stream holds what it held
before the assumptions, and the same children read it. One direction is a bisimulation
(`QuAPI.Stream.Twin`): a state in which the library differs in the pid of a dead child
only, and in which the pipes are alike (`SharedPipe.Alike`). The other lets one more child
read all there is.
-/

namespace QuAPI

open SharedPipe (Alike Reading)

/-! ### Libraries that differ in the pid -/

/-- The library with another pid. -/
def QuapiSolver.withPid (s : QuapiSolver) (pid : Option ℤ) : QuapiSolver :=
  { s with solverchildPid := pid }

/-- **Two libraries are twins**: they are equal, or differ in the pid of a child that no
call will use any more. -/
def QuapiSolver.Twins (s t : QuapiSolver) : Prop :=
  s = t ∨ s.needsFork ∧ ∃ pid, t = s.withPid pid

/-- The effect on a twin. -/
def Effect.Twins (e f : Effect) : Prop :=
  e.solver.Twins f.solver ∧ e.toSeed = f.toSeed ∧ e.toChild = f.toChild

section Twins

variable {s t : QuapiSolver} {allowMissing : Bool} {c : ApiCall} {io : Io} {e : Effect}

theorem QuapiSolver.Twins.symm (h : s.Twins t) : t.Twins s := by
  rcases h with rfl | ⟨hn, pid, rfl⟩
  · exact Or.inl rfl
  · exact Or.inr ⟨hn, s.solverchildPid, rfl⟩

/-- The handshake forgets the old pid. -/
theorem makeSolvable_withPid (hn : s.needsFork) (k : Handshake) (hk : ∃ p, k = .forked p)
    (pid : Option ℤ) : (s.withPid pid).makeSolvable k = s.makeSolvable k := by
  obtain ⟨p, rfl⟩ := hk
  have hn' : (s.withPid pid).needsFork := hn
  rw [QuapiSolver.makeSolvable_of_needsFork hn, QuapiSolver.makeSolvable_of_needsFork hn']
  rfl

/-- **A call on a twin** does the same. -/
theorem QuapiSolver.Twins.call (h : s.Twins t) (hk : ∃ p, io.fork = .forked p)
    (he : s.call allowMissing c io = some e) :
    ∃ f, t.call allowMissing c io = some f ∧ e.Twins f := by
  rcases h with rfl | ⟨hn, pid, rfl⟩
  · exact ⟨e, he, Or.inl rfl, rfl, rfl⟩
  · have hm := makeSolvable_withPid hn io.fork hk pid
    cases c with
    | quantify lit =>
      change s.quapiQuantify lit = some e at he
      by_cases hs : s.state = .input
      case neg =>
        rw [QuapiSolver.quapiQuantify, if_neg hs] at he
        exact absurd he (by simp)
      case pos =>
        have hs' : (s.withPid pid).state = .input := hs
        rw [QuapiSolver.quapiQuantify_of_input hs] at he
        obtain rfl := Option.some.inj he
        exact ⟨_, QuapiSolver.quapiQuantify_of_input hs' lit, Or.inr ⟨hn, pid, rfl⟩, rfl, rfl⟩
    | add lit =>
      change s.quapiAdd lit = some e at he
      rw [QuapiSolver.quapiAdd] at he
      split at he
      case isFalse => exact absurd he (by simp)
      case isTrue hs =>
        obtain rfl := Option.some.inj he
        refine ⟨_, if_pos hs, Or.inr ⟨?_, pid, ?_⟩, rfl, rfl⟩
        · simp only [QuapiSolver.needsFork]
          split_ifs <;> exact Or.inl rfl
        · simp only [QuapiSolver.withPid]
          split_ifs <;> rfl
    | assume lit =>
      change s.quapiAssume lit io = some e at he
      change ∃ f, (s.withPid pid).quapiAssume lit io = some f ∧ _
      rw [QuapiSolver.quapiAssume] at he ⊢
      rw [hm]
      split at he
      case isFalse => exact absurd he (by simp)
      case isTrue hs =>
        have hs' : (s.withPid pid).state = .inputLiterals ∨
          (s.withPid pid).state = .inputAssumptions := hs
        rw [if_pos hs']
        split at he
        case isTrue h0 =>
          obtain rfl := Option.some.inj he
          exact ⟨_, if_pos h0, Or.inr ⟨hn, pid, rfl⟩, rfl, rfl⟩
        case isFalse h0 =>
          obtain ⟨bound, hb, rfl⟩ := Option.map_eq_some_iff.mp he
          refine ⟨_, (if_neg h0).trans (congrArg _ hb), ?_⟩
          by_cases hfull : s.writtenClauses ≥ bound.1
          · have hfull' : (s.withPid pid).writtenClauses ≥ bound.1 := hfull
            beta_reduce
            rw [if_pos hfull, if_pos hfull']
            exact ⟨Or.inr ⟨hn, pid, rfl⟩, rfl, rfl⟩
          · have hfull' : ¬(s.withPid pid).writtenClauses ≥ bound.1 := hfull
            beta_reduce
            rw [if_neg hfull, if_neg hfull']
            exact ⟨Or.inl rfl, rfl, rfl⟩
    | reset =>
      obtain rfl := Option.some.inj he
      have hs : s.state ≠ .inputAssumptions := by
        rcases hn with h | h <;> rw [h] <;> exact QuapiState.noConfusion
      have hs' : (s.withPid pid).state ≠ .inputAssumptions := hs
      refine ⟨_, rfl, ?_⟩
      have hreset : s.quapiResetAssumptions = ⟨s, [], [], true⟩ := if_neg hs
      have hreset' : (s.withPid pid).quapiResetAssumptions = ⟨s.withPid pid, [], [], true⟩ :=
        if_neg hs'
      rw [hreset, hreset']
      exact ⟨Or.inr ⟨hn, pid, rfl⟩, rfl, rfl⟩
    | solve =>
      obtain rfl := Option.some.inj he
      refine ⟨_, rfl, ?_⟩
      by_cases hr : s.Refuses allowMissing
      · have hr' : (s.withPid pid).Refuses allowMissing := hr
        have hsolve : s.quapiSolve allowMissing io = ⟨s, [], [], false⟩ := if_pos hr
        have hsolve' : (s.withPid pid).quapiSolve allowMissing io =
            ⟨s.withPid pid, [], [], false⟩ := if_pos hr'
        rw [hsolve, hsolve']
        exact ⟨Or.inr ⟨hn, pid, rfl⟩, rfl, rfl⟩
      · have hr' : ¬(s.withPid pid).Refuses allowMissing := hr
        have hsolve : (s.withPid pid).quapiSolve allowMissing io =
            s.quapiSolve allowMissing io := by
          rw [QuapiSolver.quapiSolve, if_neg hr', QuapiSolver.quapiSolve, if_neg hr, hm]
        rw [hsolve]
        exact ⟨Or.inl rfl, rfl, rfl⟩

theorem QuapiSolver.Twins.eq_of_assumptions (h : s.Twins t)
    (hs : s.state = .inputAssumptions) : s = t := by
  rcases h with h | ⟨hn, -⟩
  · exact h
  · rcases hn with h | h <;> exact absurd (hs.symm.trans h) QuapiState.noConfusion

theorem QuapiSolver.Twins.state (h : s.Twins t) : s.state = t.state := by
  rcases h with rfl | ⟨-, pid, rfl⟩ <;> rfl

end Twins

namespace Stream

/-! ### Runs up to flushes -/

/-- Nothing fails. -/
def Act.Ok : Act → Prop
  | .call _ io => io.forkWritten = true ∧ io.reportRead = true ∧ 2 ≤ io.childWrites
  | _ => True

instance : ∀ a : Act, Decidable a.Ok
  | .call _ _ => inferInstanceAs (Decidable (_ ∧ _ ∧ _))
  | .flush _ => isTrue trivial
  | .take _ _ => isTrue trivial
  | .exit _ => isTrue trivial

/-- The act shows: it is not a flush. -/
def Act.shows : Act → Bool
  | .flush _ => false
  | _ => true

/-- **Every later run of the one session is a run of the other**, up to the flushes, and the
children that are forked from now on read the same. -/
def Follows (allowMissing : Bool) (x y : Stream) : Prop :=
  ∀ (post : List Act) (x' : Stream), (∀ a ∈ post, a.Ok) →
    Machine.run (step allowMissing) x post = some x' →
    ∃ post' y', Machine.run (step allowMissing) y post' = some y' ∧
      post'.filter Act.shows = post.filter Act.shows ∧
      y'.pipe.readers.drop y.pipe.readers.length = x'.pipe.readers.drop x.pipe.readers.length

/-- **Nothing later can tell two sessions apart.** -/
def Forgets (allowMissing : Bool) (x y : Stream) : Prop :=
  Follows allowMissing x y ∧ Follows allowMissing y x

/-- Two sessions whose libraries are twins and whose pipes are alike. -/
structure Twin (m n : ℕ) (x y : Stream) : Prop where
  solver : x.solver.Twins y.solver
  reports : x.reports = [] ∧ y.reports = []
  solves : x.solves = y.solves
  pipe : Alike isSolve m n x.pipe y.pipe

section

variable {allowMissing : Bool} {m n : ℕ} {x y x' y' : Stream} {a : Act} {c : ApiCall}
  {io : CallIo} {e f : Effect}

theorem handshake_ok (ha : Act.Ok (.call c io)) (hx : x.reports = []) :
    x.handshake io = .forked io.pid := by
  rw [handshake, if_pos ha.1, if_pos ha.2.1, hx, List.headD_nil]

/-- Where nothing fails, no report is left unread. -/
theorem reports_step (hx : x.reports = []) (ha : a.Ok)
    (h : x.step allowMissing a = some x') : x'.reports = [] := by
  cases a with
  | call c io =>
    obtain ⟨e, -, -, rfl⟩ := step_call h
    change (if _ then if _ then _ else _ else _) = _
    rw [if_pos ha.2.1, hx]
    split <;> rfl
  | flush n => exact Option.some.inj h ▸ hx
  | take pid n =>
    obtain ⟨p, -, rfl⟩ := Option.map_eq_some_iff.mp h
    exact hx
  | exit pid => exact Option.some.inj h ▸ hx

theorem Twin.symm (h : Twin m n x y) : Twin n m y x :=
  ⟨h.solver.symm, h.reports.symm, h.solves.symm, h.pipe.symm⟩

/-- What a call does to the stream, it does to its twin. -/
theorem Twin.pipeAfter (h : Twin m n x y) (hef : e.Twins f) :
    Alike isSolve m n (x.pipeAfter c io e) (y.pipeAfter c io f) := by
  obtain ⟨-, hseed, hchild⟩ := hef
  have hborn : Alike isSolve m n (if e.toSeed.any isFork then x.pipe.start io.pid else x.pipe)
      (if e.toSeed.any isFork then y.pipe.start io.pid else y.pipe) := by
    split
    · exact h.pipe.start io.pid
    · exact h.pipe
  have hkill : ∀ {p q : SharedPipe.Pipe Letter ℤ}, Alike isSolve m n p q → Alike isSolve m n
      (if c = .reset ∧ x.solver.state = .inputAssumptions then
        abortSolverchild p x.solver.solverchildPid else p)
      (if c = .reset ∧ y.solver.state = .inputAssumptions then
        abortSolverchild q y.solver.solverchildPid else q) := by
    intro p q hpq
    rw [← h.solver.state]
    split
    case isTrue hc =>
      rw [← h.solver.eq_of_assumptions hc.2]
      cases x.solver.solverchildPid with
      | none => exact hpq
      | some pid => exact hpq.close pid
    case isFalse => exact hpq
  have hwrite := (hkill hborn).write (e.toChild.map fun msg => (msg, x.solves))
  rw [Stream.pipeAfter, Stream.pipeAfter, ← hseed, ← hchild, ← h.solves]
  split
  · exact hwrite.flush _ _
  · exact hwrite

/-- **Every act has a twin**: itself, or itself once all is flushed. -/
theorem Twin.step (h : Twin m n x y) (ha : a.Ok) (hx : x.step allowMissing a = some x') :
    ∃ as y', Machine.run (step allowMissing) y as = some y' ∧
      as.filter Act.shows = [a].filter Act.shows ∧ Twin m n x' y' := by
  cases a with
  | call c io =>
    obtain ⟨e, he, hfree, rfl⟩ := step_call hx
    rw [handshake_ok ha h.reports.1] at he
    obtain ⟨f, hf, hef⟩ := h.solver.call ⟨io.pid, rfl⟩ he
    have hstep : y.step allowMissing (.call c io) = some (y.afterCall c io f) := by
      rw [Stream.step, handshake_ok ha h.reports.2, hf, Option.bind_some, if_neg]
      rwa [← hef.2.1, ← h.pipe.reading]
    refine ⟨[.call c io], _, Machine.run_cons.mpr ⟨_, hstep, rfl⟩, rfl, hef.1,
      ⟨reports_step h.reports.1 ha hx, reports_step h.reports.2 ha hstep⟩, ?_,
      h.pipeAfter hef⟩
    change (if c = .solve then _ else _) = if c = .solve then _ else _
    rw [h.solves]
  | flush k =>
    obtain rfl := Option.some.inj hx
    exact ⟨[.flush k], _, rfl, rfl, h.solver, h.reports, h.solves, h.pipe.flush k k⟩
  | take pid k =>
    obtain ⟨p, hp, rfl⟩ := Option.map_eq_some_iff.mp hx
    obtain ⟨q, hq, hpq⟩ := h.pipe.take hp
    refine ⟨[.flush y.pipe.buffer.length, .take pid k], { y with pipe := q }, ?_, rfl,
      h.solver, h.reports, h.solves, hpq⟩
    -- the other session flushes first, so that as much can be read
    refine Machine.run_cons.mpr ⟨_, rfl, Machine.run_cons.mpr ⟨_, ?_, rfl⟩⟩
    exact congrArg (Option.map _) hq
  | exit pid =>
    obtain rfl := Option.some.inj hx
    exact ⟨[.exit pid], _, rfl, rfl, h.solver, h.reports, h.solves, h.pipe.close pid⟩

/-- **Every run has a twin.** -/
theorem Twin.run {post : List Act} (h : Twin m n x y) (hpost : ∀ a ∈ post, a.Ok)
    (hx : Machine.run (Stream.step allowMissing) x post = some x') :
    ∃ post' y', Machine.run (Stream.step allowMissing) y post' = some y' ∧
      post'.filter Act.shows = post.filter Act.shows ∧ Twin m n x' y' := by
  -- on the acts, each of them answered by some of the other session
  induction post generalizing x y with
  | nil =>
    obtain rfl := Option.some.inj hx
    exact ⟨[], y, rfl, rfl, h⟩
  | cons a post ih =>
    obtain ⟨u, hu, hr⟩ := Machine.run_cons.mp hx
    obtain ⟨as, v, hv, has, huv⟩ := h.step (hpost a List.mem_cons_self) hu
    obtain ⟨post', y', hy', hfilter, hxy⟩ :=
      ih huv (fun b hb => hpost b (List.mem_cons_of_mem _ hb)) hr
    refine ⟨as ++ post', y', Machine.run_append_some.mpr ⟨v, hv, hy'⟩, ?_, hxy⟩
    rw [List.filter_append, has, hfilter, ← List.filter_append, List.singleton_append]

/-- **Twins follow each other.** -/
theorem Twin.forgets (h : Twin x.pipe.readers.length y.pipe.readers.length x y) :
    Forgets allowMissing x y := by
  constructor
  · intro post x' hpost hx
    obtain ⟨post', y', hy, hfilter, hxy⟩ := h.run hpost hx
    exact ⟨post', y', hy, hfilter, hxy.pipe.young.symm⟩
  · intro post y' hpost hy
    obtain ⟨post', x', hx, hfilter, hyx⟩ := h.symm.run hpost hy
    exact ⟨post', x', hx, hfilter, hyx.pipe.young.symm⟩

/-! ### What a later child can see -/

/-- Flushes change neither what is left nor who reads. -/
theorem run_flushes {fs : List Act} (hfs : ∀ a ∈ fs, ¬a.shows = true)
    (h : Machine.run (Stream.step allowMissing) x fs = some y) : ∃ p, y = { x with pipe := p } ∧
      p.queue = x.pipe.queue ∧ p.readers = x.pipe.readers := by
  refine Machine.invariant_of_meets (P := fun _ a => ¬Act.shows a = true)
    (I := fun y => ∃ p, y = { x with pipe := p } ∧ p.queue = x.pipe.queue ∧
      p.readers = x.pipe.readers) ?_ h (Machine.meets_of_forall fun a ha _ => hfs a ha)
    ⟨x.pipe, rfl, rfl, rfl⟩
  rintro _ a v ha hv ⟨p, rfl, hq, hr⟩
  cases a with
  | flush n =>
    obtain rfl := Option.some.inj hv
    exact ⟨p.flush n, rfl, (SharedPipe.queue_flush n).trans hq, hr⟩
  | call c io => exact absurd rfl ha
  | take pid n => exact absurd rfl ha
  | exit pid => exact absurd rfl ha

/-- A run that shows one act first. -/
theorem run_shows {post as : List Act} (h : Machine.run (Stream.step allowMissing) x post = some y)
    (hpost : post.filter Act.shows = a :: as) : ∃ p u rest,
      p.queue = x.pipe.queue ∧ p.readers = x.pipe.readers ∧
      Stream.step allowMissing { x with pipe := p } a = some u ∧
      Machine.run (Stream.step allowMissing) u rest = some y ∧ rest.filter Act.shows = as := by
  obtain ⟨fs, rest, rfl, hfs, -, hrest⟩ := List.filter_eq_cons_iff.mp hpost
  obtain ⟨v, hv, hr⟩ := Machine.run_append_some.mp h
  obtain ⟨p, rfl, hq, hreaders⟩ := run_flushes hfs hv
  obtain ⟨u, hu, hy⟩ := Machine.run_cons.mp hr
  exact ⟨p, u, rest, hq, hreaders, hu, hy, hrest⟩

/-- **Who reads** can be seen: a child that reads can take nothing. -/
theorem Follows.reading (h : Follows allowMissing x y) {name : ℤ}
    (hr : Reading isSolve x.pipe.readers name) : Reading isSolve y.pipe.readers name := by
  have htake : ∃ p, x.pipe.take isSolve name 0 = some p := ⟨_, if_pos ⟨hr, Nat.zero_le _⟩⟩
  obtain ⟨p, hp⟩ := htake
  have hstep : x.step allowMissing (.take name 0) = some { x with pipe := p } :=
    congrArg (Option.map _) hp
  obtain ⟨post, y', hy, hfilter, -⟩ := h [.take name 0] _ (by simp [Act.Ok])
    (Machine.run_cons.mpr ⟨_, hstep, rfl⟩)
  obtain ⟨q, u, rest, -, hreaders, hu, -, -⟩ := run_shows hy hfilter
  obtain ⟨p', hp', -⟩ := Option.map_eq_some_iff.mp hu
  rw [SharedPipe.Pipe.take] at hp'
  split at hp'
  case isTrue hc => exact hreaders ▸ hc.1
  case isFalse => exact absurd hp' (by simp)

/-- The library can take an assumption, and nothing has been assumed yet. -/
structure Ready (x : Stream) : Prop where
  state : x.solver.state = .inputLiterals
  hasRoom : x.solver.HasRoom
  reports : x.reports = []

/-- An assumption of the literal `1`, where nothing fails. -/
def probe (pid : ℤ) : Act := .call (.assume (lit 1)) ⟨true, true, pid, 2⟩

/-- What the probe writes. -/
def probed (n : ℕ) : List Letter := [(.literal (lit 1), n), (.literal 0, n)]

/-- **A probe** forks a child and writes for it. -/
theorem step_probe (allowMissing : Bool) (h : Ready x) {pid : ℤ}
    (hfree : ¬Reading isSolve x.pipe.readers pid) : ∃ u,
    x.step allowMissing (probe pid) = some u ∧
      u.pipe = (x.pipe.start pid).write (probed x.solves) := by
  obtain ⟨bound, hb, hlt⟩ := h.hasRoom
  have hneeds : x.solver.needsFork := Or.inl h.state
  have hhand : x.handshake ⟨true, true, pid, 2⟩ = .forked pid :=
    handshake_ok (c := .solve) ⟨rfl, rfl, le_rfl⟩ h.reports
  have hcall : x.solver.quapiAssume (lit 1) ⟨.forked pid, 2⟩ = some
      ⟨(x.solver.askFork.gotReport pid).countAssumption, [x.solver.forkMsg],
        [.literal (lit 1), .literal 0], true⟩ := by
    rw [QuapiSolver.quapiAssume, if_pos (Or.inl h.state), if_neg (by decide), hb,
      Option.map_some, if_neg (not_le.mpr hlt), QuapiSolver.makeSolvable_of_needsFork hneeds]
    rfl
  have hstep : x.step allowMissing (probe pid) = some (x.afterCall (.assume (lit 1))
      ⟨true, true, pid, 2⟩ ⟨(x.solver.askFork.gotReport pid).countAssumption,
        [x.solver.forkMsg], [.literal (lit 1), .literal 0], true⟩) := by
    rw [probe, Stream.step, hhand]
    change (x.solver.quapiAssume (lit 1) ⟨.forked pid, 2⟩).bind _ = _
    rw [hcall, Option.bind_some, if_neg fun hc => hfree hc.2]
  exact ⟨_, hstep, rfl⟩

/-- A pid that is not in use. -/
theorem exists_free (rs ss : List (SharedPipe.Reader Letter ℤ)) :
    ∃ pid, ¬Reading isSolve rs pid ∧ ¬Reading isSolve ss pid := by
  obtain ⟨pid, hpid⟩ := Infinite.exists_notMem_finset ((rs ++ ss).map fun r => r.name).toFinset
  rw [List.mem_toFinset] at hpid
  refine ⟨pid, ?_, ?_⟩
  · rintro ⟨r, hr, rfl, -⟩
    exact hpid (List.mem_map.mpr ⟨r, List.mem_append_left _ hr, rfl⟩)
  · rintro ⟨r, hr, rfl, -⟩
    exact hpid (List.mem_map.mpr ⟨r, List.mem_append_right _ hr, rfl⟩)

/-- **A run that reads everything**: a probe, whose child takes all there is. -/
theorem run_probe (allowMissing : Bool) (h : Ready x) {pid : ℤ}
    (hfree : ¬Reading isSolve x.pipe.readers pid) :
    ∃ post y, (∀ a ∈ post, a.Ok) ∧ Machine.run (step allowMissing) x post = some y ∧
      post.filter Act.shows = [probe pid, .take pid (x.pipe.queue ++ probed x.solves).length] ∧
      y.pipe.readers.drop x.pipe.readers.length =
        [⟨pid, true, x.pipe.queue ++ probed x.solves⟩] := by
  obtain ⟨u, hu, hpipe⟩ := step_probe allowMissing h hfree
  have hqueue : (u.pipe.flush u.pipe.buffer.length).pipe = x.pipe.queue ++ probed x.solves := by
    rw [SharedPipe.pipe_flush_all, hpipe, SharedPipe.queue_write]
    rfl
  have hreaders : (u.pipe.flush u.pipe.buffer.length).readers =
      x.pipe.readers ++ [⟨pid, true, []⟩] := by
    change u.pipe.readers = _
    rw [hpipe]
    rfl
  obtain ⟨q, hq, hdrop⟩ := SharedPipe.take_young isSolve hreaders
    (n := (x.pipe.queue ++ probed x.solves).length) (by rw [hqueue])
  rw [hqueue, List.take_length] at hdrop
  refine ⟨[probe pid, .flush u.pipe.buffer.length, .take pid _], { u with pipe := q }, ?_,
    Machine.run_cons.mpr ⟨u, hu, Machine.run_cons.mpr ⟨_, rfl, Machine.run_cons.mpr ⟨_, ?_, rfl⟩⟩⟩,
    rfl, hdrop⟩
  · simp [Act.Ok, probe]
  · exact congrArg (Option.map _) hq

/-- **What is left** can be seen by a child that takes all there is. -/
theorem Follows.queue (h : Follows allowMissing x y) (hx : Ready x) (hy : Ready y)
    (hsolves : x.solves = y.solves) :
    x.pipe.queue ++ probed x.solves <+: y.pipe.queue ++ probed x.solves := by
  obtain ⟨pid, hfree, hfree'⟩ := exists_free x.pipe.readers y.pipe.readers
  obtain ⟨post, x', hpost, hrun, hshows, hdrop⟩ := run_probe allowMissing hx hfree
  obtain ⟨post', y', hrun', hshows', hdrop'⟩ := h post x' hpost hrun
  rw [hshows] at hshows'
  rw [hdrop] at hdrop'
  -- the same probe on the other side
  obtain ⟨p, u, rest, hq, hreaders, hu, hrest, hfilter⟩ := run_shows hrun' hshows'
  obtain ⟨v, hv, hpipe⟩ := step_probe (x := { y with pipe := p }) allowMissing
    ⟨hy.state, hy.hasRoom, hy.reports⟩ (hreaders.symm ▸ hfree')
  obtain rfl := Option.some.inj (hu.symm.trans hv)
  obtain ⟨q, w, fs, hq', hreaders', hw, hfs, hnil⟩ := run_shows hrest hfilter
  obtain ⟨p', hp', rfl⟩ := Option.map_eq_some_iff.mp hw
  obtain ⟨q', rfl, -, hlast⟩ := run_flushes (List.filter_eq_nil_iff.mp hnil) hfs
  have hyoung : q.readers = y.pipe.readers ++ [⟨pid, true, []⟩] := by
    rw [hreaders', hpipe]
    change p.readers ++ _ = _
    rw [hreaders]
  have hleft : q.queue = y.pipe.queue ++ probed x.solves := by
    rw [hq', hpipe, SharedPipe.queue_write, hsolves]
    exact congrArg (· ++ _) hq
  have hn : (x.pipe.queue ++ probed x.solves).length ≤ q.pipe.length := by
    change q.take isSolve pid _ = some p' at hp'
    rw [SharedPipe.Pipe.take] at hp'
    split at hp'
    case isTrue hc => exact hc.2
    case isFalse => exact absurd hp' (by simp)
  obtain ⟨p'', hp'', htaken⟩ := SharedPipe.take_young isSolve hyoung hn
  obtain rfl := Option.some.inj (hp'.symm.trans hp'')
  have hread : x.pipe.queue ++ probed x.solves =
      q.pipe.take (x.pipe.queue ++ probed x.solves).length := by
    change q'.readers.drop _ = _ at hdrop'
    rw [hlast, htaken] at hdrop'
    exact (SharedPipe.Reader.mk.inj (List.singleton_inj.mp hdrop')).2.2.symm
  rw [hread, ← hleft]
  exact (List.take_prefix _ _).trans (List.prefix_append _ _)

/-- The same is left, and the same children read. -/
def SameLeft (x y : Stream) : Prop :=
  x.pipe.queue = y.pipe.queue ∧
    ∀ name, Reading isSolve x.pipe.readers name ↔ Reading isSolve y.pipe.readers name

/-- **What is left, and who reads it, is all that can be seen later.** -/
theorem forgets_of_ready (hx : Ready x) (hy : Ready y) (hsolves : x.solves = y.solves)
    (hsolver : x.solver.Twins y.solver) : Forgets allowMissing x y ↔ SameLeft x y := by
  constructor
  · rintro ⟨hxy, hyx⟩
    refine ⟨?_, fun name => ⟨hxy.reading, hyx.reading⟩⟩
    have hle := hxy.queue hx hy hsolves
    have hge := hyx.queue hy hx hsolves.symm
    rw [← hsolves] at hge
    exact List.append_cancel_right (hle.eq_of_length_le hge.length_le)
  · rintro ⟨hqueue, hreading⟩
    exact Twin.forgets ⟨hsolver, ⟨hx.reports, hy.reports⟩, hsolves,
      SharedPipe.alike_of_reading hqueue hreading⟩

end

end Stream

/-! ### The library behind a reset -/

section

variable {s t : QuapiSolver} {allowMissing : Bool} {lit : Lit} {io : Io} {e : Effect} {base : ℕ}

/-- **The library has taken assumptions**, or is as it was (`s`) before the first of them. -/
def QuapiSolver.Assumed (s t : QuapiSolver) : Prop :=
  t = s ∨ t.state = .inputAssumptions ∧ s.state = .inputLiterals ∧ s.HasRoom ∧
    t.clearAssumptions = s.withPid t.solverchildPid

theorem clear_countAssumption (s : QuapiSolver) :
    s.countAssumption.clearAssumptions = s.clearAssumptions := by
  simp only [QuapiSolver.clearAssumptions, QuapiSolver.countAssumption,
    QuapiSolver.mk.injEq, true_and, and_true]
  omega

/-- Where nothing has been assumed, there is nothing to clear. -/
theorem clear_of_books (h : Books s base) (hs : s.state = .inputLiterals) :
    s.clearAssumptions = s := by
  have h0 : s.writtenAssumptions = 0 := h.fresh (Or.inl hs)
  obtain ⟨header, regexes, stdoutCb, state, depth, clauses, assumptions, quantifiers, pid⟩ := s
  obtain rfl : state = .inputLiterals := hs
  obtain rfl : assumptions = 0 := h0
  rw [QuapiSolver.clearAssumptions, sub_zero]

/-- **An assume in which nothing fails** is accepted, or does nothing at all. -/
theorem assume_of_ok (hk : ∃ p, io.fork = .forked p) (hw : 2 ≤ io.childWrites)
    (he : t.quapiAssume lit io = some e) :
    (∃ b, e = ⟨t, [], [], b⟩) ∨ t.HasRoom ∧
      e.solver = (t.makeSolvable io.fork).2.1.countAssumption := by
  obtain ⟨p, hp⟩ := hk
  -- the handshake succeeds, if there is one
  have hm : (t.makeSolvable io.fork).1 = true := by
    by_cases hn : t.needsFork
    · rw [hp, QuapiSolver.makeSolvable_of_needsFork hn]
    · rw [QuapiSolver.makeSolvable_of_not hn]
  rcases QuapiSolver.quapiAssume_cases he with ⟨-, rfl⟩ | ⟨-, -, rfl⟩ | ⟨-, -, hf, -⟩ |
    ⟨-, -, -, hlt, -⟩ | ⟨-, hroom, -, rfl⟩
  · exact Or.inl ⟨true, rfl⟩
  · exact Or.inl ⟨false, rfl⟩
  · exact absurd (hm.symm.trans hf) (by simp)
  · exact absurd hlt (not_lt.mpr hw)
  · exact Or.inr ⟨hroom, rfl⟩

/-- **Each assumption is cleared by a reset**: what is left of them is the pid. -/
theorem QuapiSolver.Assumed.assume (h : s.Assumed t) (hb : Books s base)
    (hnone : s.state ≠ .inputAssumptions) (hk : ∃ p, io.fork = .forked p)
    (hw : 2 ≤ io.childWrites) (he : t.quapiAssume lit io = some e) : s.Assumed e.solver := by
  have hstate := QuapiSolver.state_of_quapiAssume he
  rcases assume_of_ok hk hw he with ⟨b, rfl⟩ | ⟨hroom, hsolver⟩
  · exact h
  · obtain ⟨p, hp⟩ := hk
    rw [hsolver]
    rcases h with rfl | ⟨ht, hs, hroom', hclear⟩
    · rcases hstate with hs | hs
      · -- the first of them forks the child
        refine Or.inr ⟨rfl, hs, hroom, ?_⟩
        rw [clear_countAssumption, hp, QuapiSolver.makeSolvable_of_needsFork (Or.inl hs)]
        change t.clearAssumptions.withPid (some p) = t.withPid (some p)
        rw [clear_of_books hb hs]
      · exact absurd hs hnone
    · have hn : ¬t.needsFork := by
        rintro (hc | hc) <;> exact absurd (ht.symm.trans hc) QuapiState.noConfusion
      rw [QuapiSolver.makeSolvable_of_not hn]
      exact Or.inr ⟨rfl, hs, hroom', (clear_countAssumption t).trans hclear⟩

end

namespace Stream

/-! ### Assumptions and a reset -/

/-- If the library does something, it assumes. -/
def Act.Assumes (a : Act) : Prop := ∀ c io, a = .call c io → ∃ lit, c = .assume lit

/-- An act of the library. -/
def Act.isCall : Act → Bool
  | .call _ _ => true
  | _ => false

theorem Act.exists_of_isCall {a : Act} (h : a.isCall = true) : ∃ c io, a = .call c io := by
  cases a with
  | call c io => exact ⟨c, io, rfl⟩
  | flush n => exact absurd h Bool.false_ne_true
  | take pid n => exact absurd h Bool.false_ne_true
  | exit pid => exact absurd h Bool.false_ne_true

section

variable {allowMissing : Bool} {x y : Stream} {a : Act} {es ds : List Act}

/-- What the environment does touches the pipe only. -/
theorem step_of_not_call (ha : ¬a.isCall = true) (h : x.step allowMissing a = some y) :
    ∃ p, y = { x with pipe := p } := by
  cases a with
  | call c io => exact absurd rfl ha
  | flush n => exact ⟨_, (Option.some.inj h).symm⟩
  | take pid n =>
    obtain ⟨p, -, rfl⟩ := Option.map_eq_some_iff.mp h
    exact ⟨p, rfl⟩
  | exit pid => exact ⟨_, (Option.some.inj h).symm⟩

theorem run_of_not_call (hds : ∀ a ∈ ds, ¬a.isCall = true)
    (h : Machine.run (step allowMissing) x ds = some y) : ∃ p, y = { x with pipe := p } := by
  refine Machine.invariant_of_meets (P := fun _ a => ¬Act.isCall a = true)
    (I := fun y => ∃ p, y = { x with pipe := p }) ?_ h
    (Machine.meets_of_forall fun a ha _ => hds a ha) ⟨x.pipe, rfl⟩
  rintro _ a z ha hz ⟨p, rfl⟩
  obtain ⟨q, rfl⟩ := step_of_not_call ha hz
  exact ⟨q, rfl⟩

/-- A call that does nothing. -/
theorem afterCall_nothing {c : ApiCall} {io : CallIo} (hsolve : c ≠ .solve) (hadd : c ≠ .add 0)
    (hreset : ¬(c = .reset ∧ x.solver.state = .inputAssumptions)) (b : Bool) :
    x.afterCall c io ⟨x.solver, [], [], b⟩ = x := by
  have hpipe : x.pipeAfter c io ⟨x.solver, [], [], b⟩ = x.pipe := by
    rw [pipeAfter, if_neg hreset]
    change x.pipe.write [] = x.pipe
    rw [SharedPipe.Pipe.write, List.append_nil]
  rw [afterCall, hpipe, if_neg hsolve, if_neg hadd]
  rfl

/-- An assume that is accepted or does nothing, in a session. -/
theorem step_assume {lit : Lit} {io : CallIo} (hok : Act.Ok (.call (.assume lit) io))
    (hx : x.reports = []) (h : x.step allowMissing (.call (.assume lit) io) = some y) :
    y = x ∨ y.solver.state = .inputAssumptions := by
  obtain ⟨e, he, -, rfl⟩ := step_call h
  rw [handshake_ok hok hx] at he
  rcases assume_of_ok ⟨io.pid, rfl⟩ hok.2.2 he with ⟨b, rfl⟩ | ⟨-, hsolver⟩
  · exact Or.inl (afterCall_nothing ApiCall.noConfusion ApiCall.noConfusion
      (fun hc => ApiCall.noConfusion hc.1) b)
  · refine Or.inr ?_
    change e.solver.state = _
    rw [hsolver]
    rfl

/-- A session in which assumptions have been made since `x`. -/
structure Begun (x y : Stream) : Prop where
  solver : x.solver.Assumed y.solver
  reports : y.reports = []
  solves : x.solves = y.solves

theorem Begun.step {z : Stream} (h : Begun x y) (hb : Books x.solver x.base)
    (hnone : x.solver.state ≠ .inputAssumptions) (hok : a.Ok) (ha : a.Assumes)
    (hz : y.step allowMissing a = some z) : Begun x z := by
  -- an assume that is accepted counts, and all else leaves the record alone
  by_cases hcall : a.isCall = true
  · obtain ⟨c, io, rfl⟩ := Act.exists_of_isCall hcall
    obtain ⟨lit, rfl⟩ := ha c io rfl
    have hreports := reports_step h.reports hok hz
    obtain ⟨e, he, -, rfl⟩ := step_call hz
    rw [handshake_ok hok h.reports] at he
    exact ⟨h.solver.assume hb hnone ⟨io.pid, rfl⟩ hok.2.2 he, hreports, h.solves⟩
  · obtain ⟨p, rfl⟩ := step_of_not_call hcall hz
    exact ⟨h.solver, h.reports, h.solves⟩

theorem Begun.of_run (hb : Books x.solver x.base) (hnone : x.solver.state ≠ .inputAssumptions)
    (hreports : x.reports = []) (hes : ∀ a ∈ es, a.Ok ∧ a.Assumes)
    (h : Machine.run (Stream.step allowMissing) x es = some y) : Begun x y :=
  Machine.invariant_of_meets (P := fun _ a => a.Ok ∧ a.Assumes) (I := Begun x)
    (fun _ _ _ ha hz hy => hy.step hb hnone ha.1 ha.2 hz) h
    (Machine.meets_of_forall fun a ha _ => hes a ha) ⟨Or.inl rfl, hreports, rfl⟩

/-- Once an assumption has been accepted, the session stays where it is. -/
theorem state_of_assumes (hx : x.solver.state = .inputAssumptions) (hreports : x.reports = [])
    (hes : ∀ a ∈ es, a.Ok ∧ a.Assumes)
    (h : Machine.run (Stream.step allowMissing) x es = some y) :
    y.solver.state = .inputAssumptions := by
  refine (Machine.invariant_of_meets (P := fun _ a => a.Ok ∧ a.Assumes)
    (I := fun y => y.solver.state = .inputAssumptions ∧ y.reports = []) ?_ h
    (Machine.meets_of_forall fun a ha _ => hes a ha) ⟨hx, hreports⟩).1
  rintro u a v ⟨hok, ha⟩ hv ⟨hu, hr⟩
  refine ⟨?_, reports_step hr hok hv⟩
  by_cases hcall : a.isCall = true
  · obtain ⟨c, io, rfl⟩ := Act.exists_of_isCall hcall
    obtain ⟨lit, rfl⟩ := ha c io rfl
    rcases step_assume hok hr hv with rfl | hstate
    · exact hu
    · exact hstate
  · obtain ⟨p, rfl⟩ := step_of_not_call hcall hv
    exact hu

/-- **Assumptions that are not accepted do nothing**: the session is the one in which they
are left out. -/
theorem run_without_assumes (hreports : x.reports = []) (hes : ∀ a ∈ es, a.Ok ∧ a.Assumes)
    (h : Machine.run (Stream.step allowMissing) x es = some y)
    (hnone : y.solver.state ≠ .inputAssumptions) :
    Machine.run (Stream.step allowMissing) x (es.filter fun a => !a.isCall) = some y := by
  induction es generalizing x with
  | nil => exact h
  | cons a es ih =>
    obtain ⟨u, hu, hr⟩ := Machine.run_cons.mp h
    obtain ⟨hok, ha⟩ := hes a List.mem_cons_self
    have hrest :=
      ih (reports_step hreports hok hu) (fun b hb => hes b (List.mem_cons_of_mem _ hb)) hr
    by_cases hcall : a.isCall = true
    · obtain ⟨c, io, rfl⟩ := Act.exists_of_isCall hcall
      obtain ⟨lit, rfl⟩ := ha c io rfl
      rcases step_assume hok hreports hu with rfl | hstate
      · exact hrest
      · exact absurd (state_of_assumes hstate (reports_step hreports hok hu)
          (fun b hb => hes b (List.mem_cons_of_mem _ hb)) hr) hnone
    · rw [List.filter_cons_of_pos (by simpa using hcall)]
      exact Machine.run_cons.mpr ⟨u, hu, hrest⟩

/-- What is known of every session in which nothing has failed. -/
theorem begun_of_run {s : QuapiSolver} (hb : Books s 0) {pre : List Act}
    (h : Machine.run (Stream.step allowMissing) (start s) pre = some x) (hpre : ∀ a ∈ pre, a.Ok) :
    Books x.solver x.base ∧ x.reports = [] :=
  Machine.invariant_of_meets (P := fun _ a => Act.Ok a)
    (I := fun x => Books x.solver x.base ∧ x.reports = [])
    (fun _ _ _ ha hy hx => ⟨books_step hx.1 hy, reports_step hx.2 ha hy⟩) h
    (Machine.meets_of_forall fun a ha _ => hpre a ha) ⟨hb, rfl⟩

/-- **A reset forgets** the assumptions exactly when the stream holds what it holds in the
session without them (`w`), and the same children read it: then nothing later tells the two
sessions apart. Where no assumption has been accepted, the session is the one without
them. -/
theorem forgets_iff {litcount clausecount maxassumptions : CInt}
    {regexes : Option ((List Char → Bool) × (List Char → Bool))} {s : QuapiSolver}
    {pre : List Act} {io : CallIo} {v w : Stream}
    (hinit : quapiInit litcount clausecount maxassumptions regexes = some s)
    (hpre : Machine.run (Stream.step allowMissing) (start s) pre = some x)
    (hpreOk : ∀ a ∈ pre, a.Ok) (hnone : x.solver.state ≠ .inputAssumptions)
    (hes : Machine.run (Stream.step allowMissing) x es = some y)
    (hesOk : ∀ a ∈ es, a.Ok ∧ a.Assumes)
    (hreset : y.step allowMissing (.call .reset io) = some v)
    (hds : Machine.run (Stream.step allowMissing) x ds = some w)
    (hdsEnv : ∀ a ∈ ds, ¬a.isCall = true) :
    (y.solver.state = .inputAssumptions → (Forgets allowMissing w v ↔ SameLeft w v)) ∧
      (y.solver.state ≠ .inputAssumptions →
        Machine.run (Stream.step allowMissing) x (es.filter fun a => !a.isCall) = some v) := by
  obtain ⟨hb, hreports⟩ := begun_of_run (books_init hinit) hpre hpreOk
  have hbegun := Begun.of_run hb hnone hreports hesOk hes
  obtain ⟨p, rfl⟩ := run_of_not_call hdsEnv hds
  obtain ⟨e, he, -, rfl⟩ := step_call hreset
  obtain rfl := Option.some.inj he
  constructor
  · intro hy
    have heffect : y.solver.quapiResetAssumptions = ⟨y.solver.clearAssumptions, [], [], true⟩ :=
      if_pos hy
    rcases hbegun.solver with heq | ⟨-, hs, hroom, hclear⟩
    · rw [heq] at hy
      exact absurd hy hnone
    · have hsolver : y.solver.quapiResetAssumptions.solver =
          x.solver.withPid y.solver.solverchildPid := by
        rw [heffect, hclear]
      have hready : Ready (y.afterCall .reset io y.solver.quapiResetAssumptions) := by
        refine ⟨?_, ?_, ?_⟩
        · change y.solver.quapiResetAssumptions.solver.state = _
          rw [hsolver]
          exact hs
        · change y.solver.quapiResetAssumptions.solver.HasRoom
          rw [hsolver]
          exact hroom
        · rw [heffect]
          exact hbegun.reports
      refine forgets_of_ready ⟨hs, hroom, hreports⟩ hready hbegun.solves
        (Or.inr ⟨Or.inl hs, _, hsolver⟩)
  · intro hy
    have heffect : y.solver.quapiResetAssumptions = ⟨y.solver, [], [], true⟩ := if_neg hy
    have hstay : y.afterCall .reset io ⟨y.solver, [], [], true⟩ = y :=
      afterCall_nothing ApiCall.noConfusion ApiCall.noConfusion (fun hc => hy hc.2) true
    rw [← heffect] at hstay
    rw [hstay]
    exact run_without_assumes hreports hesOk hes hy

end

/-! ### Two resets to look at -/

/-- The clause `x₁`. -/
def oneClause : List Act := [.call (.add (lit 1)) (ok 0), .call (.add 0) (ok 0)]

/-- The library for one clause, and for no assumption. -/
def roomlessStart : QuapiSolver := { universalStart with header := ⟨.of 3, .of 1, .of 0⟩ }

theorem roomlessStart_init :
    quapiInit ⟨3, by decide⟩ ⟨1, by decide⟩ ⟨0, by decide⟩ none = some roomlessStart := rfl

/-- The assumption `x₂`, for which there is no room. -/
def roomlessActs : List Act := [.call (.assume (lit 2)) (ok 7)]

/-- **A reset that forgets**: the assumption has been refused, and nothing has been written. -/
theorem reset_forgets : ∃ x y,
    Machine.run (Stream.step false) (start roomlessStart) oneClause = some x ∧
      Machine.run (Stream.step false) x roomlessActs = some y ∧
      y.step false (.call .reset (ok 0)) = some x := by
  have hbefore : ((Machine.run (Stream.step false) (start roomlessStart) oneClause).map fun x =>
      x.solver.state) = some .inputLiterals := by
    decide
  have hrefused : ((Machine.run (Stream.step false) (start roomlessStart)
      (oneClause ++ roomlessActs)).map fun y => y.solver.state) = some .inputLiterals := by
    decide
  have hreset : (Machine.run (Stream.step false) (start roomlessStart)
      (oneClause ++ roomlessActs ++ [.call .reset (ok 0)])).isSome = true := by
    decide
  obtain ⟨v, hv⟩ := Option.isSome_iff_exists.mp hreset
  obtain ⟨y, hy, hreset⟩ := Machine.run_concat.mp hv
  obtain ⟨x, hx, hes⟩ := Machine.run_append_some.mp hy
  rw [hx] at hbefore
  rw [hy] at hrefused
  have hstate : x.solver.state = .inputLiterals := Option.some.inj hbefore
  have hstate' : y.solver.state = .inputLiterals := Option.some.inj hrefused
  have hstay : Machine.run (Stream.step false) x [] = some x := rfl
  obtain ⟨-, hsame⟩ := forgets_iff roomlessStart_init hx (by decide)
    (by rw [hstate]; decide) hes (by simp [roomlessActs, Act.Ok, Act.Assumes, ok]) hreset hstay
    (List.forall_mem_nil _)
  obtain rfl : x = v := Option.some.inj (hsame (by rw [hstate']; decide))
  exact ⟨x, y, hx, hes, hreset⟩

/-- The assumption `x₃`, solved by a child that reads its round. -/
def thirdActs (n : ℕ) : List Act :=
  [.call (.assume (lit 3)) (ok 8), .call .solve (ok 0), .take 8 n]

/-- **A reset that does not forget**: the child for `x₂` is killed before it reads, and the
child for `x₃` reads both. Without the first assumption and the reset, it reads `x₃`. -/
theorem reset_keeps : ∃ x v y w,
    Machine.run (Stream.step false) (start universalStart) oneClause = some x ∧
      Machine.run (Stream.step false) x
        [.call (.assume (lit 2)) (ok 7), .call .reset (ok 0)] = some v ∧
      Machine.run (Stream.step false) v (thirdActs 5) = some y ∧
      y.pipe.readers = [⟨7, false, []⟩, ⟨8, true, [(.literal (lit 2), 0), (.literal 0, 0),
        (.literal (lit 3), 0), (.literal 0, 0), (.solve, 0)]⟩] ∧
      Machine.run (Stream.step false) x (thirdActs 3) = some w ∧
      w.pipe.readers = [⟨8, true, [(.literal (lit 3), 0), (.literal 0, 0), (.solve, 0)]⟩] ∧
      ¬Forgets false x v := by
  have hbefore : ((Machine.run (Stream.step false) (start universalStart) oneClause).map fun x =>
      (decide (x.solver.state = .inputLiterals ∧ x.solver.HasRoom ∧ x.reports = []),
        x.pipe.queue, x.solves)) = some (true, [], 0) := by
    decide
  have hbehind : ((Machine.run (Stream.step false) (start universalStart)
      (oneClause ++ [.call (.assume (lit 2)) (ok 7), .call .reset (ok 0)])).map fun x =>
      (decide (x.solver.state = .inputLiterals ∧ x.solver.HasRoom ∧ x.reports = []),
        x.pipe.queue, x.solves)) = some (true, [(.literal (lit 2), 0), (.literal 0, 0)], 0) := by
    decide
  have hboth : ((Machine.run (Stream.step false) (start universalStart)
      (oneClause ++ [.call (.assume (lit 2)) (ok 7), .call .reset (ok 0)] ++ thirdActs 5)).map
        fun y => y.pipe.readers) = some [⟨7, false, []⟩, ⟨8, true, [(.literal (lit 2), 0),
          (.literal 0, 0), (.literal (lit 3), 0), (.literal 0, 0), (.solve, 0)]⟩] := by
    decide
  have hwithout : ((Machine.run (Stream.step false) (start universalStart)
      (oneClause ++ thirdActs 3)).map fun w => w.pipe.readers) =
        some [⟨8, true, [(.literal (lit 3), 0), (.literal 0, 0), (.solve, 0)]⟩] := by
    decide
  obtain ⟨y, hy, hyreaders⟩ := Option.map_eq_some_iff.mp hboth
  obtain ⟨w, hw, hwreaders⟩ := Option.map_eq_some_iff.mp hwithout
  obtain ⟨v, hv, hvy⟩ := Machine.run_append_some.mp hy
  obtain ⟨x, hx, hxv⟩ := Machine.run_append_some.mp hv
  rw [Machine.run_append, hx, Option.bind_some] at hw
  rw [hx] at hbefore
  rw [hv] at hbehind
  obtain ⟨hready, hrest⟩ := Prod.mk.inj (Option.some.inj hbefore)
  obtain ⟨hqueue, hsolves⟩ := Prod.mk.inj hrest
  obtain ⟨hready', hrest⟩ := Prod.mk.inj (Option.some.inj hbehind)
  obtain ⟨hqueue', hsolves'⟩ := Prod.mk.inj hrest
  obtain ⟨hstate, hroom, hreports⟩ := of_decide_eq_true hready
  obtain ⟨hstate', hroom', hreports'⟩ := of_decide_eq_true hready'
  refine ⟨x, v, y, w, hx, hxv, hvy, hyreaders, hw, hwreaders, ?_⟩
  intro h
  have hle := (h.2.queue ⟨hstate', hroom', hreports'⟩ ⟨hstate, hroom, hreports⟩
    (hsolves'.trans hsolves.symm)).length_le
  rw [hqueue, hqueue', List.length_append, List.length_append] at hle
  exact absurd (Nat.le_of_add_le_add_right hle) (by decide)

end Stream

end QuAPI
