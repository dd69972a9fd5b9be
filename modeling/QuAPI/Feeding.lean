import QuAPI.Processes

/-!
# What a killed child leaves on the stream

All children read one stream, and a killed one leaves there what it has not taken, for whoever
reads next. So does a padded one the other way round: it does not close its input at its SOLVE, and
if it reads on, it takes what has been written for the next child.

If a child is only forked once the stream is empty and no older child can read it any more
(`QuAPI.System.Drained`), then every child reads what was written for its own round
(`QuAPI.System.rounds_fed`).
-/

namespace QuAPI

open SharedPipe (upTo Owned)

/-! ### What has been written for a child -/

section

variable {p q : SharedPipe.Pipe (QuapiMsg × ℕ) ℤ} {sent xs : List (QuapiMsg × ℕ)}
  {rounds : List ℕ} {k : ℕ}

/-- What has been written for a round. -/
def sentFor (sent : List (QuapiMsg × ℕ)) (k : ℕ) : List (QuapiMsg × ℕ) :=
  sent.filter fun l => l.2 = k

/-- What a child has taken is a beginning of what was written for its round. -/
def ReadsOwn (sent : List (QuapiMsg × ℕ)) (taken : List (QuapiMsg × ℕ)) (k : ℕ) : Prop :=
  taken <+: sentFor sent k

theorem ReadsOwn.append {taken : List (QuapiMsg × ℕ)} (h : ReadsOwn sent taken k)
    (xs : List (QuapiMsg × ℕ)) : ReadsOwn (sent ++ xs) taken k := by
  rw [ReadsOwn, sentFor, List.filter_append]
  exact h.trans (List.prefix_append _ _)

/-- **The children are fed apart**: the youngest one, while it is alive, may take what is left of
its round, and the older ones have stopped. -/
inductive FedApart (p : SharedPipe.Pipe (QuapiMsg × ℕ) ℤ) (sent : List (QuapiMsg × ℕ)) :
    List ℕ → Prop
  | none (readers : p.readers = []) : FedApart p sent []
  | owned {rounds : List ℕ} {k : ℕ} {r : SharedPipe.Reader (QuapiMsg × ℕ) ℤ}
      (owned : Owned isSolve (ReadsOwn sent) p rounds r) (taken : ReadsOwn sent r.taken k)
      (left : r.alive = true → r.taken ++ p.queue = sentFor sent k) :
      FedApart p sent (rounds ++ [k])

namespace FedApart

/-- **Every child has read its own messages.** -/
theorem forall₂ (h : FedApart p sent rounds) :
    List.Forall₂ (fun r k => ReadsOwn sent r.taken k) p.readers rounds := by
  cases h with
  | none hr =>
    rw [hr]
    exact List.Forall₂.nil
  | owned ho ht _ => exact ho.forall₂ ht

theorem flush (h : FedApart p sent rounds) (n : ℕ) : FedApart (p.flush n) sent rounds := by
  cases h with
  | none hr => exact none hr
  | owned ho ht hl =>
    refine owned (ho.of_readers rfl) ht ?_
    intro halive
    rw [SharedPipe.queue_flush]
    exact hl halive

theorem close (h : FedApart p sent rounds) (pid : ℤ) : FedApart (p.close pid) sent rounds := by
  cases h with
  | none hr =>
    refine none ?_
    change p.readers.map _ = []
    rw [hr, List.map_nil]
  | owned ho ht hl =>
    refine owned (ho.close pid) ?_ ?_
    · rwa [SharedPipe.taken_close]
    · intro halive
      rw [SharedPipe.taken_close]
      exact hl (SharedPipe.alive_of_close halive)

/-- The front of what is left has been taken by the youngest child. -/
theorem of_taken {r s : SharedPipe.Reader (QuapiMsg × ℕ) ℤ}
    (hs : Owned isSolve (ReadsOwn sent) q rounds s) (hleft : r.taken ++ p.queue = sentFor sent k)
    (heq : s.taken ++ q.queue = r.taken ++ p.queue) : FedApart q sent (rounds ++ [k]) := by
  rw [hleft] at heq
  refine owned hs ?_ fun _ => heq
  rw [ReadsOwn, ← heq]
  exact List.prefix_append _ _

theorem take (h : FedApart p sent rounds) {pid : ℤ} {n : ℕ} (hq : p.take isSolve pid n = some q) :
    FedApart q sent rounds := by
  cases h with
  | none hr =>
    rw [SharedPipe.Pipe.take, if_neg] at hq
    · exact absurd hq (by simp)
    · rintro ⟨⟨r, hmem, -⟩, -⟩
      rw [hr] at hmem
      exact absurd hmem List.not_mem_nil
  | owned ho ht hl =>
    obtain ⟨hreads, s, hs, heq⟩ := ho.take hq
    exact of_taken hs (hl hreads.1) heq

/-- The youngest child reads on. -/
theorem readOn (h : FedApart p sent rounds) {i n : ℕ} (hi : i + 1 = p.readers.length)
    (hq : p.readOn isSolve i n = some q) : FedApart q sent rounds := by
  cases h with
  | none hr => exact absurd (hr ▸ hi) (by simp)
  | owned ho ht hl =>
    obtain ⟨halive, s, hs, heq⟩ := ho.readOn hi hq
    exact of_taken hs (hl halive) heq

/-- What is written is for the youngest child. -/
theorem write (h : FedApart p sent rounds)
    (hxs : ∀ rs k, rounds = rs ++ [k] → ∀ l ∈ xs, l.2 = k) :
    FedApart (p.write xs) (sent ++ xs) rounds := by
  cases h with
  | none hr => exact none hr
  | owned ho ht hl =>
    have hfilter : ∀ l ∈ xs, l.2 = _ := hxs _ _ rfl
    obtain ⟨rs, hp, hstop, hold⟩ := ho
    refine owned ⟨rs, hp, hstop, hold.imp fun r j hr => hr.append xs⟩ (ht.append xs)
      ?_
    intro halive
    rw [SharedPipe.queue_write, ← List.append_assoc, hl halive, sentFor, sentFor,
      List.filter_append, List.filter_eq_self.mpr fun l hl => decide_eq_true (hfilter l hl)]

/-- **A new child**, once nothing is left over and no child reads. -/
theorem start (h : FedApart p sent rounds) (hqueue : p.queue = [])
    (hstop : ∀ r ∈ p.readers, ¬r.Reads isSolve) (hk : sentFor sent k = []) (pid : ℤ) :
    FedApart (p.start pid) sent (rounds ++ [k]) := by
  have hleft : [] ++ (p.start pid).queue = sentFor sent k := by
    rw [hk]
    exact hqueue
  cases h with
  | none hr =>
    exact owned (SharedPipe.owned_start_nil hr pid) List.nil_prefix fun _ => hleft
  | owned ho ht hl =>
    exact owned (ho.start ht (hstop _ ho.mem) pid) List.nil_prefix fun _ => hleft

end FedApart

end

/-! ### Children that are done with the stream -/

/-- **A child is done with the stream**: it has ended, or it has taken its SOLVE and closed its
input there. -/
def Done (seed : List QuapiMsg) (r : SharedPipe.Reader (QuapiMsg × ℕ) ℤ) : Prop :=
  r.alive = false ∨
    .solve ∈ r.taken.map Prod.fst ∧ ¬IsPadded seed (r.taken.map Prod.fst)

instance (seed : List QuapiMsg) (r : SharedPipe.Reader (QuapiMsg × ℕ) ℤ) :
    Decidable (Done seed r) := inferInstanceAs (Decidable (_ ∨ _))

/-- **All children but the youngest are done** with the stream. -/
def EldersDone (p : SharedPipe.Pipe (QuapiMsg × ℕ) ℤ) (seeds : List (List QuapiMsg)) : Prop :=
  ∀ i, i + 1 < p.readers.length → ∀ r seed, p.readers[i]? = some r → seeds[i]? = some seed →
    Done seed r

section

variable {p q : SharedPipe.Pipe (QuapiMsg × ℕ) ℤ} {seeds : List (List QuapiMsg)}
  {seed : List QuapiMsg} {r : SharedPipe.Reader (QuapiMsg × ℕ) ℤ}

theorem Done.not_reads (h : Done seed r) : ¬r.Reads isSolve := by
  rintro ⟨halive, hopen⟩
  rcases h with hdead | ⟨hsolve, -⟩
  · exact Bool.false_ne_true (hdead.symm.trans halive)
  · obtain ⟨l, hl, hl'⟩ := List.mem_map.mp hsolve
    have hnot : decide (l.1 = .solve) = false := hopen l hl
    exact absurd hl' (of_decide_eq_false hnot)

theorem Done.close (h : Done seed r) (pid : ℤ) : Done seed (r.close pid) := by
  rw [SharedPipe.Reader.close]
  split
  · exact Or.inl rfl
  · exact h

namespace EldersDone

theorem close (h : EldersDone p seeds) (pid : ℤ) : EldersDone (p.close pid) seeds := by
  intro i hi r seed hr hseed
  change (p.readers.map _)[i]? = some r at hr
  rw [List.getElem?_map, Option.map_eq_some_iff] at hr
  obtain ⟨e, he, rfl⟩ := hr
  change i + 1 < (p.readers.map _).length at hi
  rw [List.length_map] at hi
  exact (h i hi e seed he hseed).close pid

/-- Who is done takes nothing. -/
theorem take (h : EldersDone p seeds) {pid : ℤ} {n : ℕ} (hq : p.take isSolve pid n = some q) :
    EldersDone q seeds := by
  rw [SharedPipe.Pipe.take] at hq
  split at hq
  case isFalse => exact absurd hq (by simp)
  case isTrue =>
    obtain rfl := Option.some.inj hq
    intro i hi r seed hr hseed
    simp only [List.length_map] at hi
    simp only [List.getElem?_map, Option.map_eq_some_iff] at hr
    obtain ⟨e, he, rfl⟩ := hr
    have hdone := h i hi e seed he hseed
    rwa [SharedPipe.Reader.take, if_neg fun hc => hdone.not_reads hc.2]

theorem readOn (h : EldersDone p seeds) {i n : ℕ} (hi : i + 1 = p.readers.length)
    (hq : p.readOn isSolve i n = some q) : EldersDone q seeds := by
  rw [SharedPipe.Pipe.readOn] at hq
  split at hq
  case isFalse => exact absurd hq (by simp)
  case isTrue =>
    obtain rfl := Option.some.inj hq
    intro j hj r seed hr hseed
    simp only [List.length_modify] at hj
    simp only [List.getElem?_modify_ne _ _ (show i ≠ j by omega)] at hr
    exact h j hj r seed hr hseed

/-- A new child, once all are done. -/
theorem start (hdone : ∀ e ∈ p.readers.zip seeds, Done e.2 e.1)
    (hlength : seeds.length = p.readers.length) (pid : ℤ) :
    EldersDone (p.start pid) (seeds ++ [seed]) := by
  intro i hi r seed' hr hseed
  change i + 1 < (p.readers ++ [_]).length at hi
  rw [List.length_append, List.length_singleton] at hi
  change (p.readers ++ [_])[i]? = some r at hr
  rw [List.getElem?_append_left (by omega)] at hr hseed
  refine hdone (r, seed') ?_
  exact List.mem_of_getElem? (List.getElem?_zip_eq_some.mpr ⟨hr, hseed⟩)

end EldersDone

end

namespace System

section

variable {x y : System} {g : History} {a : Act} {allowMissing : Bool} {acts : List Act}
  {s : QuapiSolver} {pending : PendingCall}

/-- **The stream is empty** where a child is forked, and all children are done with it. -/
def Drained (x : System × History) : Act → Prop
  | .seedFork _ => x.1.stream.queue = [] ∧ ∀ e ∈ x.1.stream.readers.zip x.2.seeds, Done e.2 e.1
  | _ => True

instance (x : System × History) : ∀ a, Decidable (Drained x a)
  | .seedFork _ => inferInstanceAs (Decidable (_ ∧ _))
  | .call _ | .setStdoutCb _ | .readReport | .poll | .handle _ | .finish | .terminate
  | .flush _ | .seedRead | .seedReport | .seedReap | .take _ _ | .readOn _ _ | .print _ _
  | .destruct _ | .exit _ _ => isTrue trivial

/-- **The children have been fed apart** so far. -/
structure Fed (x : System × History) : Prop where
  rounds : x.1.children.map Child.round = List.range' 1 x.1.children.length
  sent : ∀ l ∈ x.1.sent, l.2 ≤ x.1.children.length
  seeds : x.2.seeds.length = x.1.children.length
  fed : FedApart x.1.stream x.1.sent (x.1.children.map Child.round)
  elders : EldersDone x.1.stream x.2.seeds

theorem fed_start (s : QuapiSolver) : Fed (start s, History.start s) :=
  ⟨rfl, List.forall_mem_nil _, rfl, .none rfl, fun _ hi => absurd hi (Nat.not_lt_zero _)⟩

/-- There is a reader for each child. -/
theorem Fed.readers (h : Fed (x, g)) : x.stream.readers.length = x.children.length := by
  rw [h.fed.forall₂.length_eq, List.length_map]

/-- What the library writes is for the youngest child, where that is the child of the
round. -/
theorem Fed.write (h : Fed (x, g)) (hlength : x.children.length = x.round)
    (msgs : List QuapiMsg) : Fed (x.write msgs, g) := by
  have htag : ∀ l ∈ msgs.map fun msg => (msg, x.round), l.2 = x.children.length := by
    intro l hl
    obtain ⟨msg, -, rfl⟩ := List.mem_map.mp hl
    exact hlength.symm
  refine ⟨h.rounds, ?_, h.seeds, h.fed.write fun rs k hrs l hl => (htag l hl).trans ?_, h.elders⟩
  · intro l hl
    rcases List.mem_append.mp hl with hl | hl
    · exact h.sent l hl
    · exact (htag l hl).le
  · have hrounds : x.children.map Child.round = List.range' 1 x.children.length := h.rounds
    rw [hrounds] at hrs
    cases hn : x.children.length with
    | zero =>
      rw [hn] at hrs
      exact absurd hrs (by simp)
    | succ n =>
      rw [hn, List.range'_concat, Nat.one_mul] at hrs
      have hlast := List.singleton_inj.mp (List.append_inj' hrs rfl).2
      rw [← hlast, Nat.add_comm]

theorem Fed.proceed (h : Fed (x, g)) (hlength : x.children.length = x.round) :
    Fed (x.proceed pending, g) := by
  cases pending with
  | assume lit =>
    have hw := h.write hlength [.literal lit, .literal 0]
    exact ⟨hw.rounds, hw.sent, hw.seeds, hw.fed, hw.elders⟩
  | solve =>
    rw [System.proceed]
    split
    · have hw := h.write hlength [.solve]
      exact ⟨hw.rounds, hw.sent, hw.seeds, hw.fed.flush _, hw.elders⟩
    · exact ⟨h.rounds, h.sent, h.seeds, h.fed, h.elders⟩

/-- Children that change their state only. -/
theorem Fed.later (h : Fed (x, g)) {cs : List Child} (hcs : List.Forall₂ Child.Later x.children cs)
    (hchildren : y.children = cs) (hsent : y.sent = x.sent)
    (hfed : FedApart y.stream x.sent (x.children.map Child.round))
    (helders : EldersDone y.stream g.seeds) : Fed (y, g) := by
  have hlength := hcs.length_eq
  have hrounds := ForkProtocol.map_round_of_later hcs
  refine ⟨?_, ?_, ?_, ?_, helders⟩ <;> rw [hchildren]
  · rw [hrounds, ← hlength]
    exact h.rounds
  · rw [hsent, ← hlength]
    exact h.sent
  · rw [← hlength]
    exact h.seeds
  · rwa [hsent, hrounds]

theorem Fed.exit (h : Fed (x, g)) (pid : ℤ) (status : ExitStatus) : Fed (x.exit pid status, g) :=
  h.later (later_exit x pid status) rfl rfl (h.fed.close pid) (h.elders.close pid)

theorem Fed.abortSolverchild (h : Fed (x, g)) : Fed (x.abortSolverchild, g) := by
  rcases x.abortSolverchild_cases with heq | ⟨pid, heq⟩ <;> rw [heq]
  · exact h
  · exact h.exit pid _

/-- **Who reads on is the youngest child**: the older ones are done. -/
theorem Fed.youngest (h : Fed (x, g)) {i n : ℕ} {p : SharedPipe.Pipe (QuapiMsg × ℕ) ℤ}
    (hpadded : PaddedAt (x, g) i) (hread : x.stream.readOn isSolve i n = some p) :
    i + 1 = x.stream.readers.length := by
  obtain ⟨r, hr, seed, hseed, hpad⟩ := hpadded
  have hr' : x.stream.readers[i]? = some r := hr
  have hlt : i < x.stream.readers.length := (List.getElem?_eq_some_iff.mp hr').1
  by_contra hne
  have hdone : Done seed r := h.elders i (by simp only []; omega) r seed hr hseed
  rw [SharedPipe.Pipe.readOn, hr'] at hread
  split at hread
  case isFalse => exact absurd hread (by simp)
  case isTrue hg =>
    rw [Option.any_some, Bool.and_eq_true] at hg
    rcases hdone with hdead | ⟨-, hfull⟩
    · exact Bool.false_ne_true (hdead.symm.trans hg.1.1)
    · exact hfull hpad

/-- **A child is forked**, where the stream has been drained. -/
theorem Fed.fork (h : Fed (x, g)) {pid : ℤ} (wait : Bool) (rest : List QuapiMsg)
    (hdrained : Drained (x, g) (.seedFork pid)) :
    Fed (x.fork pid wait rest, g.next x (.seedFork pid)) := by
  obtain ⟨hqueue, hdone⟩ := hdrained
  have hlength : g.seeds.length = x.stream.readers.length := h.seeds.trans h.readers.symm
  have hnone : sentFor x.sent (x.children.length + 1) = [] := by
    refine List.filter_eq_nil_iff.mpr ?_
    intro l hl
    have hle : l.2 ≤ x.children.length := h.sent l hl
    simp only [decide_eq_true_eq]
    omega
  have hstop : ∀ r ∈ x.stream.readers, ¬r.Reads isSolve := by
    intro r hr
    obtain ⟨i, hi, rfl⟩ := List.mem_iff_getElem.mp hr
    have hi' : i < g.seeds.length := hlength.symm ▸ hi
    refine Done.not_reads (hdone (x.stream.readers[i], g.seeds[i]) ?_)
    exact List.mem_of_getElem? (List.getElem?_zip_eq_some.mpr
      ⟨List.getElem?_eq_getElem hi, List.getElem?_eq_getElem hi'⟩)
  have hrounds : x.children.map Child.round = List.range' 1 x.children.length := h.rounds
  refine ⟨?_, ?_, ?_, ?_, EldersDone.start hdone hlength pid⟩
  · change (x.children ++ [_]).map Child.round = List.range' 1 (x.children ++ [_]).length
    rw [List.map_append, hrounds, List.length_append, List.length_singleton,
      List.range'_concat, Nat.one_mul, Nat.add_comm 1]
    rfl
  · intro l hl
    change l.2 ≤ (x.children ++ [_]).length
    rw [List.length_append]
    exact (h.sent l hl).trans (Nat.le_add_right _ _)
  · change (g.seeds ++ [_]).length = (x.children ++ [_]).length
    rw [List.length_append, List.length_append]
    exact congrArg (· + 1) h.seeds
  · change FedApart (x.stream.start pid) x.sent ((x.children ++ [_]).map Child.round)
    rw [List.map_append]
    exact h.fed.start hqueue hstop hnone pid

/-- **Every act feeds the children apart**, under the condition. -/
theorem Fed.step (h : Fed (x, g)) (hs : x.protocol.Sound) (ha : Drained (x, g) a)
    (hable : Able (x, g) a) (hy : Does x a y) : Fed (y, g.next x a) := by
  cases hy with
  | pass solver listens msgs hpid hregexes hcb hstate hmsgs hlistens hact =>
    rcases hact with ⟨c, rfl, -⟩ | ⟨cb, rfl⟩ <;>
      exact ⟨h.rounds, h.sent, h.seeds, h.fed, h.elders⟩
  | reset hpc hstate =>
    have hx := h.abortSolverchild
    exact ⟨hx.rounds, hx.sent, hx.seeds, hx.fed, hx.elders⟩
  | proceed pending hpc hneeds =>
    exact h.proceed (Announced.length hs (Or.inl (forking_of_idle hpc))).2
  | report pending pid source rest hpc hparent =>
    have hannounced : x.Announced := by
      refine Or.inr ?_
      rw [hparent, List.countP_cons_of_pos rfl]
      exact Nat.succ_pos _
    have hx : Fed ({ x with
        toParent := rest
        solver := x.solver.gotReport pid
        log := x.log ++ [.report x.round pid source] }, g) :=
      ⟨h.rounds, h.sent, h.seeds, h.fed, h.elders⟩
    exact hx.proceed (Announced.length hs hannounced).2
  | abort d hpc hchild heventfd hrequests =>
    have hx := h.abortSolverchild
    exact ⟨hx.rounds, hx.sent, hx.seeds, hx.fed, hx.elders⟩
  | flush n => exact ⟨h.rounds, h.sent, h.seeds, h.fed.flush n, h.elders⟩
  | seedFork pid wait rest hseed htoSeed hfree => exact h.fork wait rest ha
  | take pid n p htake =>
    exact ⟨h.rounds, h.sent, h.seeds, h.fed.take htake, h.elders.take htake⟩
  | readOn i n p hread =>
    have hi := h.youngest hable hread
    exact ⟨h.rounds, h.sent, h.seeds, h.fed.readOn hi hread, h.elders.readOn hi hread⟩
  | destruct pid c hrunning hsend =>
    exact h.later (later_destruct x.children c.round) rfl rfl h.fed h.elders
  | exit pid status c hrunning => exact h.exit pid status
  | _ => exact ⟨h.rounds, h.sent, h.seeds, h.fed, h.elders⟩

/-- Children that are forked once the stream has been drained are fed apart. -/
theorem fed_run {x : System × History}
    (hdrained : Machine.Meets (live allowMissing) Drained (start s, History.start s) acts)
    (hrun : Machine.run (live allowMissing) (start s, History.start s) acts = some x) : Fed x := by
  refine (Machine.invariant_of_meets (I := fun x => Fed x ∧ x.1.protocol.Sound) ?_ hrun hdrained
    ⟨fed_start s, sound_start s⟩).1
  rintro ⟨x, g⟩ a ⟨y, g'⟩ ha hy ⟨hx, hs⟩
  obtain ⟨hable, hstep, hg⟩ := live_eq_some.mp hy
  have hdoes := does_of_step hstep
  obtain rfl : g' = g.next x a := hg
  exact ⟨hx.step hs ha hable hdoes, hdoes.sound hs⟩

/-- **No assumption crosses rounds**, in every run in which a child is only forked once the
stream is empty and no older child can read it any more: what every child has taken off the
stream is a beginning of what the library has written for its round. -/
theorem rounds_fed {x : System × History}
    (hdrained : Machine.Meets (live allowMissing) Drained (start s, History.start s) acts)
    (hrun : Machine.run (live allowMissing) (start s, History.start s) acts = some x) :
    List.Forall₂ (fun r c => ReadsOwn x.1.sent r.taken c.round) x.1.stream.readers
      x.1.children :=
  List.forall₂_map_right_iff.mp (fed_run hdrained hrun).fed.forall₂

end

/-- Two rounds: the first child has taken all that was written for it when it is killed. -/
def drainedActs : List Act :=
  [.call (.add (lit 1)), .call (.add 0), .call (.assume (lit 2)), .seedRead, .seedRead,
    .seedFork 7, .seedReport, .readReport, .call .solve, .take 7 3, .terminate, .poll, .handle 0,
    .finish, .seedReap, .call (.assume (lit 3)), .seedFork 8, .seedReport, .readReport,
    .readReport, .call .solve, .take 8 3]

theorem drained_fed : ∃ x,
    Machine.run (live false) (start (small none), History.start (small none)) drainedActs =
        some x ∧
      x.1.stream.readers.map (fun r => r.taken.map Prod.fst) =
        [[.literal (lit 2), .literal 0, .solve], [.literal (lit 3), .literal 0, .solve]] ∧
      List.Forall₂ (fun r c => ReadsOwn x.1.sent r.taken c.round) x.1.stream.readers
        x.1.children := by
  have hrun : ((Machine.run (live false) (start (small none), History.start (small none))
      drainedActs).map fun x => x.1.stream.readers.map fun r => r.taken.map Prod.fst) =
        some [[.literal (lit 2), .literal 0, .solve], [.literal (lit 3), .literal 0, .solve]] := by
    decide
  obtain ⟨x, hx, hread⟩ := Option.map_eq_some_iff.mp hrun
  exact ⟨x, hx, hread, rounds_fed (by decide) hx⟩

/-- The next round, in which the second child takes three messages. -/
def afterTerminate : List Act :=
  [.call (.assume (lit 3)), .seedFork 8, .seedReport, .readReport, .readReport, .call .solve,
    .take 8 3]

/-- **Messages that cross rounds**: the first child is killed before it has read anything,
and the second child, forked for `x₃`, reads `x₂` up to the SOLVE of the first round. -/
theorem terminated_crosses : ∃ x r c,
    Machine.run (live false) (start (small none), History.start (small none))
        (terminatedActs ++ afterTerminate) = some x ∧
      x.1.stream.readers[1]? = some r ∧ x.1.children[1]? = some c ∧ c.round = 2 ∧
      r.taken.map Prod.fst = [.literal (lit 2), .literal 0, .solve] ∧
      (sentFor x.1.sent 2).map Prod.fst = [.literal (lit 3), .literal 0, .solve] ∧
      ¬ReadsOwn x.1.sent r.taken c.round := by
  have hrun : ((Machine.run (live false) (start (small none), History.start (small none))
      (terminatedActs ++ afterTerminate)).map fun x =>
        (x.1.stream.readers[1]?, x.1.children[1]?, x.1.sent)) =
        some (some ⟨8, true, [(.literal (lit 2), 1), (.literal 0, 1), (.solve, 1)]⟩,
          some ⟨2, 8, false, none⟩, [(.literal (lit 2), 1), (.literal 0, 1), (.solve, 1),
            (.literal (lit 3), 2), (.literal 0, 2), (.solve, 2)]) := by
    decide
  obtain ⟨x, hx, hread⟩ := Option.map_eq_some_iff.mp hrun
  obtain ⟨hr, hrest⟩ := Prod.mk.inj hread
  obtain ⟨hc, hsent⟩ := Prod.mk.inj hrest
  refine ⟨x, _, _, hx, hr, hc, rfl, rfl, ?_, ?_⟩ <;> rw [hsent]
  · decide
  · rw [ReadsOwn]
    decide

/-- A round with regular expressions, and the next one, in which the first child reads on. -/
def readOnActs : List Act :=
  [.call (.add (lit 1)), .call (.add 0), .seedRead, .seedRead, .call .solve, .seedFork 7,
    .seedReport, .readReport, .take 7 1, .print 7 ['S', 'A', 'T', '\n'], .poll, .handle 4, .finish,
    .call (.assume (lit 1)), .seedFork 8, .seedReport, .readReport, .call .solve, .readOn 0 3]

/-- **A padded child crosses rounds, too**: it has printed its verdict and lives on, and what it
reads behind its SOLVE is the second round. -/
theorem padded_crosses : ∃ x r,
    Machine.run (live false) (start (small (some verdicts)), History.start (small (some verdicts)))
        readOnActs = some x ∧
      x.1.stream.readers[0]? = some r ∧ .returned 1 10 ∈ x.1.log ∧
      r.taken = [(.solve, 1), (.literal (lit 1), 2), (.literal 0, 2), (.solve, 2)] := by
  have hrun : ((Machine.run (live false) (start (small (some verdicts)),
      History.start (small (some verdicts))) readOnActs).map fun x =>
        (x.1.stream.readers[0]?, decide (.returned 1 10 ∈ x.1.log))) =
        some (some ⟨7, true, [(.solve, 1), (.literal (lit 1), 2), (.literal 0, 2), (.solve, 2)]⟩,
          true) := by
    decide
  obtain ⟨x, hx, hread⟩ := Option.map_eq_some_iff.mp hrun
  obtain ⟨hr, hlog⟩ := Prod.mk.inj hread
  exact ⟨x, _, hx, hr, of_decide_eq_true hlog, rfl⟩

end System

end QuAPI
