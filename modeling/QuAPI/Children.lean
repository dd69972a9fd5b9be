import QuAPI.Feeding
import QuAPI.Rendering

/-!
# What the children of a session are given

A session (`QuAPI.Session`) in the interleaved system. Its rounds are those of the system: the
child of a round has what the seeding process had read by its FORK, and what it reads on its own
stream, up to SOLVE, are the assumptions that the session records for the round
(`QuAPI.System.children_given`). Rounds may be reset or terminated, as long as each child is
forked once the stream has been drained (`QuAPI.System.Drained`).

The invariant (`QuAPI.Lettered`) is about the calls alone: for each round it says what has been
addressed to the child. That the children read it follows from the refinement.
-/

namespace QuAPI

open SharedPipe (upTo)

/-- What can be solved needs a child, or has one. -/
theorem needsFork_or {s : QuapiSolver} (h : s.canSolve) :
    s.needsFork ∨ s.state = .inputAssumptions := by
  rcases h with h | h | h
  · exact Or.inl (Or.inr h)
  · exact Or.inl (Or.inl h)
  · exact Or.inr h

/-! ### Sessions as calls -/

/-- The calls of a command. -/
def Command.calls : Command → List ApiCall
  | clause ls => Api.clauseCalls ls
  | assume lit => [.assume lit]
  | reset => [.reset]
  | solve => [.solve]

/-- The messages for the child of a round. -/
def msgsFor (sent : List (QuapiMsg × ℕ)) (k : ℕ) : List QuapiMsg := (sentFor sent k).map Prod.fst

section

variable {env : Env} {x y : Session} {c : Command} {a b : Api} {cmds : List Command}
  {sent sent' : List (QuapiMsg × ℕ)} {k : ℕ}

theorem calls_singleton {c : ApiCall} :
    a.calls env [c] = some b ↔ ∃ r, a.call env c = some (r, b) := by
  rw [Api.calls, Machine.run_cons]
  constructor
  · rintro ⟨u, hu, hb⟩
    obtain ⟨⟨r, b'⟩, hcall, rfl⟩ := Option.map_eq_some_iff.mp hu
    exact ⟨r, hcall.trans (congrArg _ (Prod.ext rfl (Option.some.inj hb)))⟩
  · rintro ⟨r, hr⟩
    exact ⟨b, by rw [hr]; rfl, rfl⟩

/-- **The calls of a command** make the command. -/
theorem Session.exists_step (h : x.api.calls env c.calls = some b) :
    ∃ y, x.step env c = some y ∧ y.api = b := by
  cases c with
  | clause ls => exact ⟨_, Option.map_eq_some_iff.mpr ⟨b, h, rfl⟩, rfl⟩
  | assume lit =>
    obtain ⟨r, hr⟩ := calls_singleton.mp h
    refine ⟨_, Option.map_eq_some_iff.mpr ⟨_, hr, rfl⟩, ?_⟩
    split <;> rfl
  | reset =>
    obtain ⟨r, hr⟩ := calls_singleton.mp h
    exact ⟨_, by rw [step, hr, Option.map_some], rfl⟩
  | solve =>
    obtain ⟨r, hr⟩ := calls_singleton.mp h
    refine ⟨_, by rw [step, hr, Option.map_some], ?_⟩
    split <;> rfl

theorem Api.tracked_singleton {c : ApiCall}
    (h : Machine.run (Api.tracked env) (a, sent) [c] = some (b, sent')) :
    sent' = sent ++ (b.toChild.drop a.toChild.length).map fun m => (m, forks b.toSeed) := by
  obtain ⟨u, hu, hr⟩ := Machine.run_cons.mp h
  rw [Option.some.inj hr] at hu
  obtain ⟨r, -, hsent⟩ := Api.tracked_eq_some.mp hu
  exact hsent

/-- Literals are for the seeding process. -/
theorem Api.tracked_adds {lits : List Lit}
    (h : Machine.run (Api.tracked env) (a, sent) (lits.map .add) = some (b, sent')) :
    sent' = sent ∧ b.toChild = a.toChild := by
  induction lits generalizing a sent with
  | nil =>
    obtain ⟨rfl, rfl⟩ := Prod.mk.inj (Option.some.inj h)
    exact ⟨rfl, rfl⟩
  | cons lit lits ih =>
    obtain ⟨⟨u, sent₁⟩, hu, hr⟩ := Machine.run_cons.mp h
    obtain ⟨r, hcall, hsent⟩ := Api.tracked_eq_some.mp hu
    obtain ⟨-, rfl⟩ := Api.call_add hcall
    obtain ⟨rfl, hchild⟩ := ih hr
    refine ⟨hsent.trans ?_, hchild⟩
    rw [List.drop_length, List.map_nil, List.append_nil]

/-- **What a command addresses** is for the child of its last FORK. -/
theorem Session.sent_of_calls
    (h : Machine.run (Api.tracked env) (a, sent) c.calls = some (b, sent')) :
    sent' = sent ++ (b.toChild.drop a.toChild.length).map fun m => (m, forks b.toSeed) := by
  cases c with
  | clause ls =>
    have hadds : Command.calls (.clause ls) = (ls.map Subtype.val ++ [0]).map .add := by
      rw [List.map_append, List.map_map]
      rfl
    rw [hadds] at h
    obtain ⟨hsent, hchild⟩ := Api.tracked_adds h
    rw [hsent, hchild, List.drop_length, List.map_nil, List.append_nil]
  | assume lit => exact Api.tracked_singleton h
  | reset => exact Api.tracked_singleton h
  | solve => exact Api.tracked_singleton h

/-! ### The invariant -/

theorem msgsFor_append (sent more : List (QuapiMsg × ℕ)) (k : ℕ) :
    msgsFor (sent ++ more) k = msgsFor sent k ++ msgsFor more k := by
  rw [msgsFor, sentFor, List.filter_append, List.map_append]
  rfl

theorem msgsFor_same (msgs : List QuapiMsg) (k : ℕ) :
    msgsFor (msgs.map fun m => (m, k)) k = msgs := by
  have hall : (msgs.map fun m => (m, k)).filter (fun l => l.2 = k) = msgs.map fun m => (m, k) := by
    refine List.filter_eq_self.mpr ?_
    intro l hl
    obtain ⟨m, -, rfl⟩ := List.mem_map.mp hl
    exact decide_eq_true rfl
  rw [msgsFor, sentFor, hall, List.map_map]
  exact List.map_id _

theorem msgsFor_of_ne {sent : List (QuapiMsg × ℕ)} (h : ∀ l ∈ sent, l.2 ≠ k) :
    msgsFor sent k = [] := by
  rw [msgsFor, sentFor, List.filter_eq_nil_iff.mpr, List.map_nil]
  intro l hl
  simpa only [decide_eq_true_eq] using h l hl

theorem msgsFor_other {msgs : List QuapiMsg} {j : ℕ} (h : j ≠ k) :
    msgsFor (msgs.map fun m => (m, j)) k = [] := by
  refine msgsFor_of_ne ?_
  intro l hl
  obtain ⟨m, -, rfl⟩ := List.mem_map.mp hl
  exact h

/-- **What a session has addressed to its children.** -/
structure Lettered (x : Session) (sent : List (QuapiMsg × ℕ)) : Prop where
  /-- A round ends its messages to the seeding process with the FORK of its child. -/
  seeds : ∀ r ∈ x.rounds, forks r.toSeed ≤ forks x.api.toSeed ∧
    uptoFork (forks r.toSeed) x.api.toSeed = r.toSeed
  /-- While there is a child, its FORK is the last thing the seeding process was sent. -/
  asked : x.api.solver.state = .inputAssumptions →
    uptoFork (forks x.api.toSeed) x.api.toSeed = x.api.toSeed
  /-- The child has no round yet. -/
  young : x.api.solver.state = .inputAssumptions → ∀ r ∈ x.rounds,
    forks r.toSeed < forks x.api.toSeed
  rounds : (x.rounds.map fun r => forks r.toSeed).Pairwise (· < ·)
  old : ∀ l ∈ sent, l.2 ≤ forks x.api.toSeed
  given : ∀ r ∈ x.rounds, msgsFor sent (forks r.toSeed) = roundMsgs r.accepted
  pending : x.api.solver.state = .inputAssumptions →
    msgsFor sent (forks x.api.toSeed) = (units x.accepted).flatMap Api.clauseMsgs
  solved : ∀ l ∈ sent, l.1 = .solve → ∃ r ∈ x.rounds, forks r.toSeed = l.2

theorem lettered_start {a : Api} (hs : a.solver.state ≠ .inputAssumptions) :
    Lettered (Session.start a) [] where
  seeds := List.forall_mem_nil _
  asked := fun h => absurd h hs
  young := fun h => absurd h hs
  rounds := List.Pairwise.nil
  old := List.forall_mem_nil _
  given := List.forall_mem_nil _
  pending := fun h => absurd h hs
  solved := List.forall_mem_nil _

/-- The library once the child of the round has been asked for. -/
theorem Lettered.forked (h : Lettered x sent) (hx : x.Counted) (env : Env) :
    Lettered { x with api := x.api.forked env } sent ∧
      (x.api.forked env).solver.state = .inputAssumptions := by
  by_cases hn : x.api.solver.needsFork
  case neg =>
    rw [Api.forked, if_neg hn]
    refine ⟨h, ?_⟩
    exact (needsFork_or hx.canSolve).resolve_left hn
  case pos =>
    rw [Api.forked, if_pos hn]
    have hforks : forks (x.api.toSeed ++ [x.api.solver.forkMsg]) = forks x.api.toSeed + 1 := by
      rw [forks_append]
      rfl
    have hold : ∀ l ∈ sent, l.2 ≠ forks x.api.toSeed + 1 := by
      intro l hl
      have hle := h.old l hl
      omega
    refine ⟨⟨?_, ?_, ?_, h.rounds, ?_, h.given, ?_, h.solved⟩, rfl⟩
    · intro r hr
      obtain ⟨hle, hseed⟩ := h.seeds r hr
      exact ⟨hforks.symm ▸ Nat.le_succ_of_le hle, (uptoFork_append hle _).trans hseed⟩
    · intro _
      change uptoFork (forks (x.api.toSeed ++ [x.api.solver.forkMsg])) _ = _
      rw [hforks]
      exact uptoFork_concat rfl
    · intro _ r hr
      exact hforks.symm ▸ Nat.lt_succ_of_le (h.seeds r hr).1
    · intro l hl
      exact hforks.symm ▸ Nat.le_succ_of_le (h.old l hl)
    · intro _
      change msgsFor sent (forks (x.api.toSeed ++ [x.api.solver.forkMsg])) = _
      rw [hforks, msgsFor_of_ne hold, hx.fresh hn]
      rfl

/-- A round that is over, or has not begun: the seeding process is sent more clauses. -/
theorem Lettered.close (h : Lettered x sent) (hrounds : y.rounds = x.rounds) {more : List QuapiMsg}
    (hseed : y.api.toSeed = x.api.toSeed ++ more) (hmore : forks more = 0)
    (hs : y.api.solver.state ≠ .inputAssumptions) : Lettered y sent := by
  have hforks : forks y.api.toSeed = forks x.api.toSeed := by
    rw [hseed, forks_append, hmore, Nat.add_zero]
  refine ⟨?_, fun hc => absurd hc hs, fun hc => absurd hc hs, ?_, ?_, ?_,
    fun hc => absurd hc hs, ?_⟩
  · intro r hr
    rw [hrounds] at hr
    obtain ⟨hle, hupto⟩ := h.seeds r hr
    rw [hforks, hseed, uptoFork_append hle]
    exact ⟨hle, hupto⟩
  · rw [hrounds]
    exact h.rounds
  · rw [hforks]
    exact h.old
  · rw [hrounds]
    exact h.given
  · rw [hrounds]
    exact h.solved

/-- No clause has a FORK. -/
theorem forks_clauseMsgs (ls : List NzLit) : forks (Api.clauseMsgs ls) = 0 := by
  refine List.countP_eq_zero.mpr ?_
  intro m hm
  rcases List.mem_append.mp hm with hm | hm
  · obtain ⟨l, -, rfl⟩ := List.mem_map.mp hm
    exact Bool.false_ne_true
  · rw [List.mem_singleton.mp hm]
    exact Bool.false_ne_true

/-- **An assumption** is for the child of the round. -/
theorem Lettered.assume (h : Lettered x sent) (hs : x.api.solver.state = .inputAssumptions)
    (l : NzLit) : Lettered { x with
        api := ⟨x.api.solver.countAssumption, x.api.toSeed,
          x.api.toChild ++ [.literal l.1, .literal 0]⟩
        accepted := x.accepted ++ [l]
        tried := x.tried + 1 }
      (sent ++ [QuapiMsg.literal l.1, .literal 0].map fun m => (m, forks x.api.toSeed)) := by
  have hnew : ∀ m ∈ [QuapiMsg.literal l.1, .literal 0].map fun m => (m, forks x.api.toSeed),
      m.2 = forks x.api.toSeed ∧ m.1 ≠ .solve := by
    simp
  refine ⟨h.seeds, fun _ => h.asked hs, fun _ => h.young hs, h.rounds, ?_, ?_, ?_, ?_⟩
  · intro m hm
    rcases List.mem_append.mp hm with hm | hm
    · exact h.old m hm
    · exact (hnew m hm).1.le
  · intro r hr
    rw [msgsFor_append, msgsFor_other (h.young hs r hr).ne', List.append_nil]
    exact h.given r hr
  · intro _
    change msgsFor _ (forks x.api.toSeed) = (units (x.accepted ++ [l])).flatMap _
    rw [msgsFor_append, msgsFor_same, h.pending hs, units, units, List.map_append,
      List.flatMap_append]
    rfl
  · intro m hm hsolve
    rcases List.mem_append.mp hm with hm | hm
    · exact h.solved m hm hsolve
    · exact absurd hsolve (hnew m hm).2

/-- **A SOLVE** ends the messages to the child of the round. -/
theorem Lettered.solve (h : Lettered x sent) (hs : x.api.solver.state = .inputAssumptions) :
    Lettered { x with
        api := ⟨x.api.solver.clearAssumptions, x.api.toSeed, x.api.toChild ++ [.solve]⟩
        accepted := []
        tried := 0
        rounds := x.rounds ++ [⟨x.clauses, x.accepted, x.tried, x.api.toSeed⟩] }
      (sent ++ [QuapiMsg.solve].map fun m => (m, forks x.api.toSeed)) := by
  have hstate : x.api.solver.clearAssumptions.state ≠ .inputAssumptions := QuapiState.noConfusion
  refine ⟨?_, fun hc => absurd hc hstate, fun hc => absurd hc hstate, ?_, ?_, ?_,
    fun hc => absurd hc hstate, ?_⟩
  · intro r hr
    rcases List.mem_append.mp hr with hr | hr
    · exact h.seeds r hr
    · rw [List.mem_singleton.mp hr]
      exact ⟨le_rfl, h.asked hs⟩
  · rw [List.map_append, List.pairwise_append]
    refine ⟨h.rounds, List.pairwise_singleton _ _, ?_⟩
    intro j hj k hk
    obtain ⟨r, hr, rfl⟩ := List.mem_map.mp hj
    rw [List.mem_singleton.mp hk]
    exact h.young hs r hr
  · intro m hm
    rcases List.mem_append.mp hm with hm | hm
    · exact h.old m hm
    · rw [List.mem_singleton.mp hm]
  · intro r hr
    rcases List.mem_append.mp hr with hr | hr
    · rw [msgsFor_append, msgsFor_other (h.young hs r hr).ne', List.append_nil]
      exact h.given r hr
    · rw [List.mem_singleton.mp hr]
      change msgsFor _ (forks x.api.toSeed) = roundMsgs x.accepted
      rw [msgsFor_append, msgsFor_same, h.pending hs, roundMsgs]
  · intro m hm hsolve
    rcases List.mem_append.mp hm with hm | hm
    · obtain ⟨r, hr, hround⟩ := h.solved m hm hsolve
      exact ⟨r, List.mem_append_left _ hr, hround⟩
    · exact ⟨_, List.mem_append_right _ (List.mem_singleton.mpr rfl), by
        rw [List.mem_singleton.mp hm]⟩

/-- **Every command addresses what it accepts to the child of the round.** -/
theorem Lettered.step (h : Lettered x sent) (hx : x.Counted) (he : x.step env c = some y) :
    Lettered y (sent ++ (y.api.toChild.drop x.api.toChild.length).map
      fun m => (m, forks y.api.toSeed)) := by
  have hquiet : y.api.toChild = x.api.toChild → Lettered y sent →
      Lettered y (sent ++ (y.api.toChild.drop x.api.toChild.length).map
        fun m => (m, forks y.api.toSeed)) := by
    intro hchild hy
    rwa [hchild, List.drop_length, List.map_nil, List.append_nil]
  obtain ⟨hforked, hstate⟩ := h.forked hx env
  have hlength : (x.api.forked env).toChild.length = x.api.toChild.length := by
    rw [Api.forked_toChild]
  cases c with
  | clause ls =>
    obtain ⟨-, rfl⟩ := Session.step_clause he
    exact hquiet rfl (h.close rfl rfl (forks_clauseMsgs ls) QuapiState.noConfusion)
  | assume lit =>
    rcases Session.step_assume he with ⟨-, rfl⟩ | ⟨-, rfl, -⟩ | ⟨hlit, rfl, -⟩
    · exact hquiet rfl h
    · exact hquiet rfl ⟨h.seeds, h.asked, h.young, h.rounds, h.old, h.given, h.pending, h.solved⟩
    · have hy := hforked.assume hstate ⟨lit, hlit⟩
      rwa [← hlength, List.drop_left]
  | reset =>
    obtain rfl := Session.step_reset he
    refine hquiet ?_ ?_
    · split <;> rfl
    · by_cases hs : x.api.solver.state = .inputAssumptions
      · simp only [if_pos hs]
        exact h.close rfl (List.append_nil _).symm rfl QuapiState.noConfusion
      · simp only [if_neg hs]
        exact h.close rfl (List.append_nil _).symm rfl hs
  | solve =>
    rcases Session.step_solve hx.canSolve he with ⟨-, rfl⟩ | ⟨-, rfl⟩
    · exact hquiet rfl h
    · have hy := hforked.solve hstate
      rwa [← hlength, List.drop_left]

/-- **The calls of a session** make the session, and address what it has accepted. -/
theorem lettered_run (h : Lettered x sent) (hx : x.Counted)
    (hrun : Machine.run (Api.tracked env) (x.api, sent) (cmds.flatMap Command.calls) =
      some (b, sent')) :
    ∃ y, Machine.run (Session.step env) x cmds = some y ∧ y.api = b ∧ y.Counted ∧
      Lettered y sent' := by
  induction cmds generalizing x sent with
  | nil =>
    obtain ⟨rfl, rfl⟩ := Prod.mk.inj (Option.some.inj hrun)
    exact ⟨x, rfl, rfl, hx, h⟩
  | cons c cmds ih =>
    rw [List.flatMap_cons, Machine.run_append_some] at hrun
    obtain ⟨⟨a, sent₁⟩, hc, hr⟩ := hrun
    obtain ⟨z, he, rfl⟩ := Session.exists_step (Api.calls_of_tracked hc)
    have hz := h.step hx he
    rw [← Session.sent_of_calls hc] at hz
    obtain ⟨y, hy, hrest⟩ := ih hz (hx.step he) hr
    exact ⟨y, Machine.run_cons.mpr ⟨z, he, hy⟩, hrest⟩

/-- Quantifiers are for the seeding process. -/
theorem Api.tracked_quantifies {qs : List Lit}
    (h : Machine.run (Api.tracked env) (a, sent) (qs.map .quantify) = some (b, sent')) :
    sent' = sent ∧ b.solver.state = a.solver.state := by
  induction qs generalizing a sent with
  | nil =>
    obtain ⟨rfl, rfl⟩ := Prod.mk.inj (Option.some.inj h)
    exact ⟨rfl, rfl⟩
  | cons q qs ih =>
    obtain ⟨⟨u, sent₁⟩, hu, hr⟩ := Machine.run_cons.mp h
    obtain ⟨r, hcall, hsent⟩ := Api.tracked_eq_some.mp hu
    obtain ⟨-, d, rfl⟩ := Api.call_quantify hcall
    obtain ⟨rfl, hstate⟩ := ih hr
    refine ⟨hsent.trans ?_, hstate⟩
    rw [List.drop_length, List.map_nil, List.append_nil]

/-- **The rounds of a session without resets are numbered**: each has one more FORK, and so have
assumptions that have no round yet. -/
structure Numbered (x : Session) : Prop where
  asked : forks x.api.toSeed = x.rounds.length + if x.accepted = [] then 0 else 1
  rounds : (x.rounds.map fun r => forks r.toSeed) = List.range' 1 x.rounds.length
  pending : x.api.solver.state = .inputAssumptions → x.accepted ≠ []

theorem numbered_start (hforks : forks a.toSeed = 0) (hs : a.solver.state ≠ .inputAssumptions) :
    Numbered (Session.start a) := ⟨hforks, rfl, fun hc => absurd hc hs⟩

theorem Numbered.forked (h : Numbered x) (hx : x.Counted) (env : Env) :
    forks (x.api.forked env).toSeed = x.rounds.length + 1 := by
  rw [Api.forked_toSeed, forks_append, h.asked]
  by_cases hn : x.api.solver.needsFork
  · rw [if_pos hn, if_pos (hx.fresh hn)]
    rfl
  · rw [if_neg hn, if_neg (h.pending ((needsFork_or hx.canSolve).resolve_left hn))]
    rfl

/-- Every command but a reset keeps the numbers. -/
theorem Numbered.step (h : Numbered x) (hx : x.Counted) (hc : c ≠ .reset)
    (he : x.step env c = some y) : Numbered y := by
  cases c with
  | clause ls =>
    obtain ⟨hneeds, rfl⟩ := Session.step_clause he
    refine ⟨?_, h.rounds, fun hc => QuapiState.noConfusion hc⟩
    change forks (x.api.toSeed ++ Api.clauseMsgs ls) = _
    rw [forks_append, forks_clauseMsgs, h.asked]
    rfl
  | assume lit =>
    rcases Session.step_assume he with ⟨-, rfl⟩ | ⟨-, rfl, -⟩ | ⟨hlit, rfl, -⟩
    · exact h
    · exact ⟨h.asked, h.rounds, h.pending⟩
    · have hne : x.accepted ++ [⟨lit, hlit⟩] ≠ [] := by simp
      refine ⟨?_, h.rounds, fun _ => hne⟩
      change forks (x.api.forked env).toSeed = x.rounds.length + _
      rw [h.forked hx env, if_neg hne]
  | reset => exact absurd rfl hc
  | solve =>
    rcases Session.step_solve hx.canSolve he with ⟨-, rfl⟩ | ⟨-, rfl⟩
    · exact h
    · refine ⟨?_, ?_, fun hc => QuapiState.noConfusion hc⟩
      · change forks (x.api.forked env).toSeed = (x.rounds ++ [_]).length + 0
        rw [h.forked hx env, List.length_append]
        rfl
      · rw [List.map_append, List.map_singleton, h.rounds, List.length_append,
          List.length_singleton, List.range'_concat]
        simp only [h.forked hx env]
        rw [Nat.one_mul, Nat.add_comm]

theorem numbered_run (h : Numbered x) (hx : x.Counted) (hreset : .reset ∉ cmds)
    (hrun : Machine.run (Session.step env) x cmds = some y) : Numbered y :=
  (Machine.invariant_of_meets (I := fun x => x.Counted ∧ Numbered x) (P := fun _ c => c ≠ .reset)
    (fun _ _ _ hc he hx => ⟨hx.1.step he, hx.2.step hx.1 hc he⟩) hrun
    (Machine.meets_of_forall fun _ hc _ heq => hreset (heq ▸ hc)) ⟨hx, h⟩).2

/-! ### What a child has read -/

/-- A beginning of a list with one SOLVE, at its end, that has it. -/
theorem eq_of_solve {us zs : List QuapiMsg} (h : us ++ [.solve] <+: zs ++ [.solve])
    (hzs : .solve ∉ zs) : us ++ [.solve] = zs ++ [.solve] := by
  refine (List.prefix_concat_iff.mp h).resolve_right fun hpre => hzs ?_
  exact hpre.subset (List.mem_append_right _ (List.mem_singleton.mpr rfl))

theorem solve_notMem_units (vs : List NzLit) : .solve ∉ (units vs).flatMap Api.clauseMsgs := by
  intro h
  obtain ⟨ls, -, hls⟩ := List.mem_flatMap.mp h
  rcases List.mem_append.mp hls with hls | hls
  · obtain ⟨l, -, hl⟩ := List.mem_map.mp hls
    exact QuapiMsg.noConfusion hl
  · exact QuapiMsg.noConfusion (List.mem_singleton.mp hls)

end

namespace System

section

variable {x : System × History} {env : Env} {s : QuapiSolver} {acts : List Act}
  {litcount clausecount maxassumptions : CInt}
  {regexes : Option ((List Char → Bool) × (List Char → Bool))} {qs : List Lit}
  {cmds : List Command}

/-- What has been written is some of what the calls address. -/
theorem sent_prefix {b : Api × List (QuapiMsg × ℕ)} (h : Behind x b) : x.1.sent <+: b.2 := by
  rw [← h.sent, addressed]
  exact List.prefix_append _ _

theorem canSolve_of_init
    (hinit : quapiInit litcount clausecount maxassumptions regexes = some s) : s.canSolve := by
  obtain ⟨-, clauses, -, rfl⟩ := quapiInit_cases hinit
  exact Or.inl rfl

/-- The counters behind a prefix. -/
theorem counted_calls {a : Api}
    (hinit : quapiInit litcount clausecount maxassumptions regexes = some s)
    (h : (Api.start s).calls env (qs.map .quantify) = some a) :
    (Session.start a).Counted ∧ a.solver.state = .input := by
  obtain ⟨-, clauses, -, rfl⟩ := quapiInit_cases hinit
  obtain ⟨⟨d, w, rfl⟩, -⟩ := Api.calls_quantify h
  exact ⟨Session.counted_start rfl rfl (Or.inl rfl), rfl⟩

/-- **The children are given what the session records.** In every interleaving of a session, its
rounds reset or terminated or not, in which each child is forked once the stream has been
drained: a child that reads up to a SOLVE is that of a round of the session, has inherited what
was written up to the FORK of the round, and has been told the assumptions that were accepted for
it, all of them and nothing else. -/
theorem children_given
    (hinit : quapiInit litcount clausecount maxassumptions regexes = some s)
    (hdrained : Machine.Meets (live env.allowMissing) Drained (start s, History.start s) acts)
    (hrun : Machine.run (live env.allowMissing) (start s, History.start s) acts = some x)
    (hcalls : acts.flatMap Act.calls = qs.map .quantify ++ cmds.flatMap Command.calls) :
    ∃ a y, (Api.start s).calls env (qs.map .quantify) = some a ∧
      Machine.run (Session.step env) (Session.start a) cmds = some y ∧
      (y.rounds.map fun r => forks r.toSeed).Pairwise (· < ·) ∧
      ∀ i r, x.1.stream.readers[i]? = some r → .solve ∈ r.taken.map Prod.fst →
        ∃ ρ ∈ y.rounds, forks ρ.toSeed = i + 1 ∧ x.2.seeds[i]? = some ρ.toSeed ∧
          (upTo isSolve r.taken).map Prod.fst = roundMsgs ρ.accepted := by
  obtain ⟨b, hb, hbehind, hseeded⟩ := calls_refine (canSolve_of_init hinit) (tracked_of_live hrun)
  have hfed := fed_run hdrained hrun
  -- the calls are those of the session
  rw [hcalls, Machine.run_append_some] at hb
  obtain ⟨⟨a, sent₀⟩, hpre, hcmds⟩ := hb
  obtain ⟨rfl, -⟩ := Api.tracked_quantifies hpre
  have ha := Api.calls_of_tracked hpre
  obtain ⟨hcounted, hstate⟩ := counted_calls hinit ha
  obtain ⟨y, hy, hapi, -, hlettered⟩ := lettered_run
    (lettered_start (a := a) (by rw [hstate]; exact QuapiState.noConfusion)) hcounted hcmds
  refine ⟨a, y, ha, hy, hlettered.rounds, ?_⟩
  intro i r hr hsolve
  obtain ⟨hi, rfl⟩ := List.getElem?_eq_some_iff.mp hr
  have hread := List.forall₂_map_right_iff.mp hfed.fed.forall₂
  have hlength : i < x.1.children.length := hread.length_eq ▸ hi
  -- the child is that of the round `i + 1`, and has read messages of that round
  have hround : x.1.children[i].round = i + 1 := by
    have hmap : (x.1.children.map Child.round)[i]? = (List.range' 1 x.1.children.length)[i]? := by
      rw [hfed.rounds]
    rw [List.getElem?_map, List.getElem?_eq_getElem hlength, List.getElem?_range' hlength] at hmap
    have hval := Option.some.inj hmap
    omega
  have hown : ReadsOwn x.1.sent x.1.stream.readers[i].taken x.1.children[i].round :=
    (List.forall₂_iff_get.mp hread).2 i hi hlength
  rw [hround] at hown
  obtain ⟨sentBehind, hsent⟩ := sent_prefix hbehind
  have hpre : (upTo isSolve x.1.stream.readers[i].taken).map Prod.fst <+: msgsFor b.2 (i + 1) := by
    rw [← hsent]
    exact ((SharedPipe.prefix_upTo _ _).trans (hown.append sentBehind)).map Prod.fst
  -- they end with a SOLVE, which is that of a round of the session
  obtain ⟨⟨m, k⟩, hm, rfl⟩ := List.mem_map.mp hsolve
  have hfinal : ∃ l ∈ x.1.stream.readers[i].taken, isSolve l = true := ⟨_, hm, decide_eq_true rfl⟩
  obtain ⟨ls, l, hupto, hl⟩ := SharedPipe.upTo_of_mem hfinal
  have hl' : l.1 = .solve := of_decide_eq_true hl
  have hmem : l ∈ sentFor b.2 (i + 1) := by
    have hall := (hown.append sentBehind)
    rw [hsent] at hall
    refine hall.subset ((SharedPipe.prefix_upTo isSolve _).subset ?_)
    rw [hupto]
    exact List.mem_append_right _ (List.mem_singleton.mpr rfl)
  obtain ⟨hmem, hk⟩ := List.mem_filter.mp hmem
  obtain ⟨ρ, hρ, hforks⟩ := hlettered.solved l hmem hl'
  have hforks : forks ρ.toSeed = i + 1 := hforks.trans (of_decide_eq_true hk)
  refine ⟨ρ, hρ, hforks, ?_, ?_⟩
  · rw [hseeded.seed hbehind hlength, ← hforks, ← hapi]
    exact congrArg some (hlettered.seeds ρ hρ).2
  · rw [← hforks, hlettered.given ρ hρ, roundMsgs, hupto, List.map_append, List.map_singleton,
      hl'] at hpre
    rw [hupto, List.map_append, List.map_singleton, hl', roundMsgs]
    exact eq_of_solve hpre (solve_notMem_units _)

end

end System

end QuAPI
