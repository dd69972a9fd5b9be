import QuAPI.Children
import QuAPI.Quapify.Formula

/-!
# What a solve answers

The processes put together: a session in the interleaved system, the texts that its children
read, and the exit codes that its solves return. Where each child is right about the formula that
it has read (`QuAPI.System.Right`), each solve that returns 10 or 20 is right about the question
of its round (`QuAPI.System.answers_asked`): is the formula true under the assumptions that were
accepted for the round?

Nothing is asked of the order in which the processes run but that a child is forked once the
stream has been drained (`QuAPI.System.Drained`). Rounds may be reset or terminated; a terminated
solve returns 0, which is no answer.
-/

namespace QuAPI

open SharedPipe (upTo)
open Quapify (Strictness readFormula Asked Decides Fits)

/-! ### The text of a child -/

/-- **What a child reads**: the seeding process takes its messages and waits, and the child goes
on from there, on its own messages, up to the end of its input. -/
def ReadsText (seedSizes sizes : ℕ → ℕ) (seed own : List QuapiMsg) (text : List Char) : Prop :=
  ∃ p q, Reader.Reaches seedSizes (Reader.start seed) p ∧ p.input = [] ∧ p.blocked.isSome ∧
    Reader.Reaches sizes { p with input := own } q ∧ q.closed = some 0 ∧ q.out = text

section

variable {seedSizes sizes : ℕ → ℕ} {d : QuapiMsgHeaderData} {P : PrefixText} {r : Round}
  {text : List Char}

/-- **The child of a round reads its text, and no other one.** -/
theorem readsText_iff (hseed : ∀ n, 0 < seedSizes n) (hsizes : ∀ n, 0 < sizes n)
    (hfill : P.filler ≠ []) (hread : SeedRead d P r.clauses r.toSeed)
    (hclosed : P.opened = false ∨ r.clauses ≠ []) :
    ReadsText seedSizes sizes r.toSeed (roundMsgs r.accepted) text ↔ text = roundText d P r := by
  obtain ⟨p, c, hp, hwait, hin, hout, hh, hf, hw, hst⟩ := reaches_fork hseed hread hclosed
  have hwait' : Reader.Waits { p with input := roundMsgs r.accepted } c :=
    ⟨hwait.blocked, hwait.closed, hwait.encodes, hwait.outbuf, hwait.written⟩
  obtain ⟨q, hq, hend, htext, -⟩ := reaches_round hsizes hfill hwait'
    (List.append_nil (roundMsgs r.accepted)).symm hout hh hf hw hst
  constructor
  · rintro ⟨p', q', hp', hin', hb', hq', hend', rfl⟩
    -- both are stuck where they are
    obtain rfl : p = p' := hp.eq_of_stuck hp' (Quapify.tick_waiting hwait.isSome hin)
      (Quapify.tick_waiting hb' hin')
    obtain rfl : q = q' := hq.eq_of_stuck hq' (Quapify.tick_closed hend)
      (Quapify.tick_closed hend')
    exact htext
  · rintro rfl
    exact ⟨p, q, hp, hin, hwait.isSome, hq, hend, htext⟩

end

namespace System

section

variable {x : System × History} {env : Env} {s : QuapiSolver} {acts : List Act}
  {litcount clausecount maxassumptions : CInt}
  {regexes : Option ((List Char → Bool) × (List Char → Bool))} {qs : List NzLit}
  {cmds : List Command} {strict : Strictness}

/-! ### Right children -/

/-- **The children are right**: one that exits with 10 or 20 has read its input to the end, and
there is a formula in its text, which is true exactly where the exit code is 10. -/
def Right (strict : Strictness) (x : System × History) : Prop :=
  ∀ (i : ℕ) (c : Child) (code : ℤ), x.1.children[i]? = some c → c.status = some (.exited code) →
    code = 10 ∨ code = 20 → ∃ r seed seedSizes sizes text f,
      x.1.stream.readers[i]? = some r ∧ .solve ∈ r.taken.map Prod.fst ∧
      x.2.seeds[i]? = some seed ∧ (∀ n, 0 < seedSizes n) ∧ (∀ n, 0 < sizes n) ∧
      ReadsText seedSizes sizes seed ((upTo isSolve r.taken).map Prod.fst) text ∧
      readFormula strict text = some f ∧ (code = 10 ↔ f.Holds)

/-- A session in which the prefix is closed by a clause: the processes keep up with it. -/
theorem readable_run {P : PrefixText} {a : Api} (hclause : ∀ ls, .clause ls ∈ cmds → ls ≠ [])
    (hfirst : P.opened = false ∨ ∃ ls rest, cmds = .clause ls :: rest) :
    Machine.Meets (Session.step env) (Readable env P) (Session.start a) cmds := by
  rcases hfirst with hopen | ⟨ls, rest, rfl⟩
  · exact meets_of_clause hclause (Or.inl hopen)
  · refine ⟨hclause ls List.mem_cons_self, fun z hz => meets_of_clause
      (fun l hl => hclause l (List.mem_cons_of_mem _ hl)) (Or.inr ?_)⟩
    obtain ⟨-, rfl⟩ := Session.step_clause hz
    exact List.cons_ne_nil _ _

/-- **The rounds of a session are read as they were meant.** -/
theorem rendered_rounds {a : Api} {y : Session}
    (hinit : quapiInit litcount clausecount maxassumptions regexes = some s)
    (hcalls : (Api.start s).calls env ((qs.map Subtype.val).map .quantify) = some a)
    (hclause : ∀ ls, .clause ls ∈ cmds → ls ≠ [])
    (hfirst : qs = [] ∨ ∃ ls rest, cmds = .clause ls :: rest)
    (hrun : Machine.run (Session.step env) (Session.start a) cmds = some y) :
    Rendered s.header (prefixText s.header (Api.sentPrefix maxassumptions.1
      (qs.map Subtype.val))) y := by
  obtain ⟨hstart, -, -⟩ := rendered_calls (Quapify.val_ne_zero qs) hinit hcalls
  refine rendered_run hstart hrun (readable_run hclause (hfirst.imp_left fun h => ?_))
  rw [h]
  rfl

/-- No clause of a round is empty. -/
theorem rounds_clauses {x y : Session} (hx : x.Counted)
    (hrun : Machine.run (Session.step env) x cmds = some y)
    (hclause : ∀ ls, .clause ls ∈ cmds → ls ≠ []) (hclauses : ∀ ls ∈ x.clauses, ls ≠ [])
    (hrounds : ∀ r ∈ x.rounds, ∀ ls ∈ r.clauses, ls ≠ []) :
    ∀ r ∈ y.rounds, ∀ ls ∈ r.clauses, ls ≠ [] := by
  induction cmds generalizing x with
  | nil => exact Option.some.inj hrun ▸ hrounds
  | cons c cmds ih =>
    obtain ⟨z, hz, hr⟩ := Machine.run_cons.mp hrun
    have hrest : ∀ ls, .clause ls ∈ cmds → ls ≠ [] :=
      fun ls hls => hclause ls (List.mem_cons_of_mem _ hls)
    have hsame : z.clauses = x.clauses → z.rounds = x.rounds →
        ∀ r ∈ y.rounds, ∀ ls ∈ r.clauses, ls ≠ [] := by
      intro hzc hzr
      exact ih (hx.step hz) hr hrest (hzc ▸ hclauses) (hzr ▸ hrounds)
    cases c with
    | clause ls =>
      obtain ⟨-, rfl⟩ := Session.step_clause hz
      refine ih (hx.step hz) hr hrest ?_ hrounds
      intro l hl
      rcases List.mem_append.mp hl with hl | hl
      · exact hclauses l hl
      · rw [List.mem_singleton.mp hl]
        exact hclause ls List.mem_cons_self
    | assume lit =>
      rcases Session.step_assume hz with ⟨-, rfl⟩ | ⟨-, rfl, -⟩ | ⟨hlit, rfl, -⟩ <;>
        exact hsame rfl rfl
    | reset =>
      obtain rfl := Session.step_reset hz
      exact hsame rfl rfl
    | solve =>
      rcases Session.step_solve hx.canSolve hz with ⟨-, rfl⟩ | ⟨-, rfl⟩
      · exact hsame rfl rfl
      · refine ih (hx.step hz) hr hrest hclauses ?_
        intro r hr
        rcases List.mem_append.mp hr with hr | hr
        · exact hrounds r hr
        · rw [List.mem_singleton.mp hr]
          exact hclauses

/-- **A round has its question in its text**, if its assumptions decide the leading universal
variables and the header has room for it. -/
theorem holds_of_rendered {y : Session} {ρ : Round} (strict : Strictness) {d : QuapiMsgHeaderData}
    {k : ℤ} (hrendered : Rendered d (prefixText d (Api.sentPrefix k (qs.map Subtype.val))) y)
    (hclauses : ∀ r ∈ y.rounds, ∀ ls ∈ r.clauses, ls ≠ [])
    (hn : (qs.map fun q => q.1.var).Nodup) (hρ : ρ ∈ y.rounds)
    (hdecides : Decides k qs ρ.accepted)
    (hfits : Fits d (Api.sentPrefix k (qs.map Subtype.val)) ρ.clauses ρ.accepted) :
    ∃ f, readFormula strict (roundText d
        (prefixText d (Api.sentPrefix k (qs.map Subtype.val))) ρ) = some f ∧
      (f.Holds ↔ Asked qs ρ.clauses ρ.accepted) := by
  obtain ⟨-, hclosed, -⟩ := hrendered.rounds ρ hρ
  refine Quapify.holds_roundText_iff strict hdecides hn (hclauses ρ hρ) ?_ hfits
  refine hclosed.imp_left fun h => ?_
  cases qs with
  | nil => rfl
  | cons q qs => exact absurd h (by simp [prefixText, Api.sentPrefix])

/-- **Every child reads the question of its round.** In every interleaving of a session whose
prefix is closed by a clause, its rounds reset or terminated or not: a child that reads up to a
SOLVE reads one text, however its reads are sized, and where the assumptions of its round decide
the leading universal variables, and the header has room for them, the formula in that text is
true if and only if the given formula is true under those assumptions. -/
theorem children_asked (strict : Strictness)
    (hinit : quapiInit litcount clausecount maxassumptions regexes = some s)
    (hdrained : Machine.Meets (live env.allowMissing) Drained (start s, History.start s) acts)
    (hrun : Machine.run (live env.allowMissing) (start s, History.start s) acts = some x)
    (hcalls : acts.flatMap Act.calls =
      (qs.map Subtype.val).map .quantify ++ cmds.flatMap Command.calls)
    (hn : (qs.map fun q => q.1.var).Nodup) (hclause : ∀ ls, .clause ls ∈ cmds → ls ≠ [])
    (hfirst : qs = [] ∨ ∃ ls rest, cmds = .clause ls :: rest) :
    ∃ a y, (Api.start s).calls env ((qs.map Subtype.val).map .quantify) = some a ∧
      Machine.run (Session.step env) (Session.start a) cmds = some y ∧
      ∀ i r, x.1.stream.readers[i]? = some r → .solve ∈ r.taken.map Prod.fst →
        ∃ ρ ∈ y.rounds, forks ρ.toSeed = i + 1 ∧ ∃ seed text, x.2.seeds[i]? = some seed ∧
          (∀ seedSizes sizes other, (∀ n, 0 < seedSizes n) → (∀ n, 0 < sizes n) →
            (ReadsText seedSizes sizes seed ((upTo isSolve r.taken).map Prod.fst) other ↔
              other = text)) ∧
          (Decides maxassumptions.1 qs ρ.accepted →
            Fits s.header (Api.sentPrefix maxassumptions.1 (qs.map Subtype.val)) ρ.clauses
              ρ.accepted →
            ∃ f, readFormula strict text = some f ∧
              (f.Holds ↔ Asked qs ρ.clauses ρ.accepted)) := by
  obtain ⟨a, y, ha, hy, -, hgiven⟩ := children_given hinit hdrained hrun hcalls
  have hrendered := rendered_rounds hinit ha hclause hfirst hy
  have hclauses := rounds_clauses (counted_calls hinit ha).1 hy hclause
    (List.forall_mem_nil _) (List.forall_mem_nil _)
  refine ⟨a, y, ha, hy, ?_⟩
  intro i r hr hsolve
  obtain ⟨ρ, hρ, hforks, hseed, htaken⟩ := hgiven i r hr hsolve
  obtain ⟨hread, hclosed, -⟩ := hrendered.rounds ρ hρ
  refine ⟨ρ, hρ, hforks, ρ.toSeed, roundText s.header (prefixText s.header
    (Api.sentPrefix maxassumptions.1 (qs.map Subtype.val))) ρ, hseed, ?_, ?_⟩
  · intro seedSizes sizes other hseedSizes hsizes
    rw [htaken]
    exact readsText_iff hseedSizes hsizes (fillerOf_ne_nil _ _) hread hclosed
  · exact holds_of_rendered strict hrendered hclauses hn hρ

/-- Without regular expressions and without a callback, an exit code is that of a child. -/
theorem returned_exited (hinit : quapiInit litcount clausecount maxassumptions none = some s)
    (hcb : ∀ a ∈ acts, ∀ cb, a ≠ .setStdoutCb (some cb)) {y : System}
    (hrun : Machine.run (step env.allowMissing) (start s) acts = some y) {k : ℕ} {code : ℤ}
    (hreturned : .returned k code ∈ y.log) (hcode : code ≠ 0) :
    ∃ (i : ℕ) (c : Child), k = i + 1 ∧ y.children[i]? = some c ∧
      c.status = some (.exited code) := by
  have hstart : (start s).Reported := by
    obtain ⟨-, clauses, -, rfl⟩ := quapiInit_cases hinit
    exact ⟨sound_start _, fun m hm => absurd hm List.not_mem_nil, ⟨mode_start _, rfl, rfl⟩,
      List.forall_mem_nil _, fun code hc => LibraryPc.noConfusion hc⟩
  have h := Machine.invariant_of_meets (P := fun _ a => ∀ cb, a ≠ .setStdoutCb (some cb))
    (fun _ _ _ ha hy hx => hx.step ha (does_of_step hy)) hrun
    (Machine.meets_of_forall fun a ha _ => hcb a ha) hstart
  -- the solve has read the exit code of the child of its round
  rcases h.log _ hreturned with ⟨source, pid, hmessage⟩ | ⟨h0, -⟩
  case inr => exact absurd h0 hcode
  case inl =>
    obtain ⟨-, code', known, hmsg, -, c, hc, hround, -, status, hstatus, hexit⟩ := h.log _ hmessage
    obtain rfl := QuapiMsg.exitCode.inj hmsg
    obtain ⟨i, hi, rfl⟩ := List.mem_iff_getElem.mp hc
    have hround' : y.children[i].round = i + 1 := by
      have hmap : (y.children.map Child.round)[i]? = (List.range' 1 y.children.length)[i]? := by
        have hrounds : y.children.map Child.round = List.range' 1 y.children.length :=
          h.sound.rounds
        rw [hrounds]
      rw [List.getElem?_map, List.getElem?_eq_getElem hi, List.getElem?_range' hi] at hmap
      have hval := Option.some.inj hmap
      omega
    refine ⟨i, y.children[i], hround.symm.trans hround', List.getElem?_eq_getElem hi, ?_⟩
    cases status with
    | exited n =>
      obtain rfl : n = code := hexit
      exact hstatus
    | signaled => exact absurd hexit.symm hcode

/-- **What a solve returns is the truth of the text of a round**, if the children are right. -/
theorem returned_holds (hinit : quapiInit litcount clausecount maxassumptions none = some s)
    (hcb : ∀ a ∈ acts, ∀ cb, a ≠ .setStdoutCb (some cb))
    (hdrained : Machine.Meets (live env.allowMissing) Drained (start s, History.start s) acts)
    (hrun : Machine.run (live env.allowMissing) (start s, History.start s) acts = some x)
    (hcalls : acts.flatMap Act.calls =
      (qs.map Subtype.val).map .quantify ++ cmds.flatMap Command.calls)
    (hclause : ∀ ls, .clause ls ∈ cmds → ls ≠ [])
    (hfirst : qs = [] ∨ ∃ ls rest, cmds = .clause ls :: rest) (hright : Right strict x) :
    ∃ a y, (Api.start s).calls env ((qs.map Subtype.val).map .quantify) = some a ∧
      Machine.run (Session.step env) (Session.start a) cmds = some y ∧
      Rendered s.header (prefixText s.header (Api.sentPrefix maxassumptions.1
        (qs.map Subtype.val))) y ∧
      ∀ k code, .returned k code ∈ x.1.log → code = 10 ∨ code = 20 →
        ∃ ρ ∈ y.rounds, forks ρ.toSeed = k ∧
          ∃ f, readFormula strict (roundText s.header (prefixText s.header
            (Api.sentPrefix maxassumptions.1 (qs.map Subtype.val))) ρ) = some f ∧
            (code = 10 ↔ f.Holds) := by
  obtain ⟨a, y, ha, hy, -, hgiven⟩ := children_given hinit hdrained hrun hcalls
  have hrendered := rendered_rounds hinit ha hclause hfirst hy
  refine ⟨a, y, ha, hy, hrendered, ?_⟩
  intro k code hreturned hcode
  have hne : code ≠ 0 := by
    rcases hcode with rfl | rfl <;> decide
  obtain ⟨i, c, rfl, hc, hstatus⟩ := returned_exited hinit hcb
    (step_of_live hrun) hreturned hne
  obtain ⟨r, seed, seedSizes, sizes, text, f, hr, hsolve, hseed, hseedSizes, hsizes, htext, hf,
    hverdict⟩ := hright i c code hc hstatus hcode
  obtain ⟨ρ, hρ, hforks, hseed', htaken⟩ := hgiven i r hr hsolve
  obtain ⟨hread, hclosed, -⟩ := hrendered.rounds ρ hρ
  -- the text that the child has read is that of the round
  obtain rfl := Option.some.inj (hseed.symm.trans hseed')
  rw [htaken] at htext
  obtain rfl := (readsText_iff hseedSizes hsizes (fillerOf_ne_nil _ _) hread hclosed).mp htext
  exact ⟨ρ, hρ, hforks, f, hf, hverdict⟩

/-- **Solves are right.** Without regular expressions and without a callback, in every
interleaving of a session as above in which the children are right: where `quapi_solve` returns
10 or 20, it is in a round of the session, and it returns 10 if and only if the given formula is
true under the assumptions that were accepted for the round. -/
theorem answers_asked (hinit : quapiInit litcount clausecount maxassumptions none = some s)
    (hcb : ∀ a ∈ acts, ∀ cb, a ≠ .setStdoutCb (some cb))
    (hdrained : Machine.Meets (live env.allowMissing) Drained (start s, History.start s) acts)
    (hrun : Machine.run (live env.allowMissing) (start s, History.start s) acts = some x)
    (hcalls : acts.flatMap Act.calls =
      (qs.map Subtype.val).map .quantify ++ cmds.flatMap Command.calls)
    (hn : (qs.map fun q => q.1.var).Nodup) (hclause : ∀ ls, .clause ls ∈ cmds → ls ≠ [])
    (hfirst : qs = [] ∨ ∃ ls rest, cmds = .clause ls :: rest) (hright : Right strict x) :
    ∃ a y, (Api.start s).calls env ((qs.map Subtype.val).map .quantify) = some a ∧
      Machine.run (Session.step env) (Session.start a) cmds = some y ∧
      ∀ k code, .returned k code ∈ x.1.log → code = 10 ∨ code = 20 →
        ∃ ρ ∈ y.rounds, forks ρ.toSeed = k ∧ (Decides maxassumptions.1 qs ρ.accepted →
          Fits s.header (Api.sentPrefix maxassumptions.1 (qs.map Subtype.val)) ρ.clauses
            ρ.accepted → (code = 10 ↔ Asked qs ρ.clauses ρ.accepted)) := by
  obtain ⟨a, y, ha, hy, hrendered, hreturned⟩ := returned_holds hinit hcb hdrained hrun hcalls
    hclause hfirst hright
  have hclauses := rounds_clauses (counted_calls hinit ha).1 hy hclause
    (List.forall_mem_nil _) (List.forall_mem_nil _)
  refine ⟨a, y, ha, hy, ?_⟩
  intro k code hlog hcode
  obtain ⟨ρ, hρ, hforks, f, hf, hverdict⟩ := hreturned k code hlog hcode
  refine ⟨ρ, hρ, hforks, fun hdecides hfits => ?_⟩
  obtain ⟨f', hf', hholds⟩ :=
    holds_of_rendered strict hrendered hclauses hn hρ hdecides hfits
  obtain rfl := Option.some.inj (hf.symm.trans hf')
  exact hverdict.trans hholds

end

/-! ### The run of a session -/

theorem forallExistsActs_calls : forallExistsActs.flatMap Act.calls =
    ([nzLit (-1), nzLit 2].map Subtype.val).map .quantify ++
      [.clause [nzLit 1, nzLit 2], .assume (lit (-1)), .solve].flatMap Command.calls := rfl

/-- Its processes have a case for all they read. -/
theorem forallExists_live : ∃ x,
    Machine.run (live false) (start (small none), History.start (small none))
        forallExistsActs = some x ∧
      x.1.children = [⟨1, 7, false, some (.exited 10)⟩] ∧
      x.1.stream.readers =
        [⟨7, false, [(.literal (lit (-1)), 1), (.literal 0, 1), (.solve, 1)]⟩] ∧
      x.2.seeds = [forallExistsSeed] ∧ .returned 1 10 ∈ x.1.log := by
  obtain ⟨x, hx, hread⟩ := forallExists_tracked
  exact ⟨x, Machine.run_guard.mpr ⟨by decide, hx⟩, hread⟩

/-- What the child of the run has been told. -/
def forallExistsTaken : List (QuapiMsg × ℕ) :=
  [(.literal (lit (-1)), 1), (.literal 0, 1), (.solve, 1)]

/-- The text of the child, with reads of 64 characters. -/
theorem forallExists_readsText : ReadsText (fun _ => 64) (fun _ => 64) forallExistsSeed
    ((upTo isSolve forallExistsTaken).map Prod.fst)
    "p cnf 3 4\ne 1 2 0\n1 2 0\n-1 0\n1 -1 0\n1 -1 0\n".toList := by
  have hrun : ((Reader.start forallExistsSeed).ticks (fun _ => 64) 14).bind (fun p =>
      (Reader.ticks (fun _ => 64) 7 { p with
        input := (upTo isSolve forallExistsTaken).map Prod.fst }).map fun q =>
          (p.input, p.blocked, q.closed, q.out)) = some ([], some 64, some 0,
            "p cnf 3 4\ne 1 2 0\n1 2 0\n-1 0\n1 -1 0\n1 -1 0\n".toList) := rfl
  obtain ⟨p, hp, hrest⟩ := Option.bind_eq_some_iff.mp hrun
  obtain ⟨q, hq, hread⟩ := Option.map_eq_some_iff.mp hrest
  simp only [Prod.mk.injEq] at hread
  obtain ⟨hinput, hblocked, hclosed, hout⟩ := hread
  exact ⟨p, q, Reader.reaches_ticks hp, hinput, by rw [hblocked]; rfl, Reader.reaches_ticks hq,
    hclosed, hout⟩

/-- The formula in that text. -/
def forallExistsFormula : Quapify.Formula :=
  ⟨[(.ex, 1), (.ex, 2)], [[1, 2], [-1], [1, -1], [1, -1]]⟩

theorem forallExists_readFormula : readFormula .normalParsing
    "p cnf 3 4\ne 1 2 0\n1 2 0\n-1 0\n1 -1 0\n1 -1 0\n".toList = some forallExistsFormula := by
  decide +kernel

/-- `x₂` makes it true. -/
theorem forallExists_holds : forallExistsFormula.Holds := by
  refine ⟨fun _ => false, false, true, ?_⟩
  intro c hc
  simp only [forallExistsFormula, List.mem_cons, List.not_mem_nil, or_false] at hc
  rcases hc with rfl | rfl | rfl | rfl
  · exact ⟨2, by decide, by decide⟩
  · exact ⟨-1, by decide, by decide⟩
  · exact ⟨-1, by decide, by decide⟩
  · exact ⟨-1, by decide, by decide⟩

/-- A single child that answers 10 is right, if the formula in its text holds. -/
theorem right_of_child {x : System × History} {strict : Strictness} {pid : ℤ}
    {r : SharedPipe.Reader (QuapiMsg × ℕ) ℤ} {seed : List QuapiMsg} {text : List Char}
    {f : Quapify.Formula} (hchildren : x.1.children = [⟨1, pid, false, some (.exited 10)⟩])
    (hreaders : x.1.stream.readers = [r]) (hsolve : .solve ∈ r.taken.map Prod.fst)
    (hseeds : x.2.seeds = [seed])
    (htext : ReadsText (fun _ => 64) (fun _ => 64) seed ((upTo isSolve r.taken).map Prod.fst) text)
    (hf : readFormula strict text = some f) (hholds : f.Holds) : Right strict x := by
  intro i c code hc hstatus _
  rw [hchildren] at hc
  obtain ⟨rfl, rfl⟩ : i = 0 ∧ c = ⟨1, pid, false, some (.exited 10)⟩ := by
    cases i with
    | zero => exact ⟨rfl, (Option.some.inj hc).symm⟩
    | succ i => exact absurd hc (by simp)
  obtain rfl := ExitStatus.exited.inj (Option.some.inj hstatus)
  exact ⟨r, seed, fun _ => 64, fun _ => 64, text, f, by rw [hreaders]; rfl, hsolve,
    by rw [hseeds]; rfl, fun _ => (by decide : 0 < 64), fun _ => (by decide : 0 < 64), htext, hf,
    iff_of_true rfl hholds⟩

/-- The only child of the run reads the question of its round. -/
theorem forallExists_asked : ∃ x a y,
    Machine.run (live false) (start (small none), History.start (small none))
        forallExistsActs = some x ∧
      Machine.run (Session.step plainEnv) (Session.start a)
        [.clause [nzLit 1, nzLit 2], .assume (lit (-1)), .solve] = some y ∧
      ∃ ρ ∈ y.rounds, forks ρ.toSeed = 1 := by
  obtain ⟨x, hx, -, hreaders, -⟩ := forallExists_live
  obtain ⟨a, y, -, hy, hasked⟩ := children_asked .normalParsing (small_init none)
    (by decide : Machine.Meets (live plainEnv.allowMissing) Drained _ _) hx forallExistsActs_calls
    (by decide) (by simp) (Or.inr ⟨_, _, rfl⟩)
  have hr : x.1.stream.readers[0]? = some ⟨7, false, forallExistsTaken⟩ := by
    rw [hreaders]
    rfl
  obtain ⟨ρ, hρ, hforks, -⟩ := hasked 0 _ hr (by decide)
  exact ⟨x, a, y, hx, hy, ρ, hρ, hforks⟩

/-- The solve returns 10, and the formula is true under the assumption. -/
theorem forallExists_answers : ∃ x,
    Machine.run (live false) (start (small none), History.start (small none))
        forallExistsActs = some x ∧ .returned 1 10 ∈ x.1.log ∧
      Asked [nzLit (-1), nzLit 2] [[nzLit 1, nzLit 2]] [nzLit (-1)] := by
  obtain ⟨x, hx, hchildren, hreaders, hseeds, hlog⟩ := forallExists_live
  obtain ⟨a, y, ha, hy, hanswers⟩ := answers_asked (small_init none) (by simp [forallExistsActs])
    (by decide : Machine.Meets (live plainEnv.allowMissing) Drained _ _) hx forallExistsActs_calls
    (by decide) (by simp) (Or.inr ⟨_, _, rfl⟩) (right_of_child hchildren hreaders (by decide) hseeds
      forallExists_readsText forallExists_readFormula forallExists_holds)
  obtain ⟨ρ, hρ, -, hiff⟩ := hanswers 1 10 hlog (Or.inl rfl)
  -- the session has one round
  have hrounds : ((Api.start (small none)).calls plainEnv
      (([nzLit (-1), nzLit 2].map Subtype.val).map .quantify)).bind (fun a =>
        (Machine.run (Session.step plainEnv) (Session.start a)
          [.clause [nzLit 1, nzLit 2], .assume (lit (-1)), .solve]).map Session.rounds) =
      some [⟨[[nzLit 1, nzLit 2]], [nzLit (-1)], 1, forallExistsSeed⟩] := rfl
  rw [ha, Option.bind_some, hy, Option.map_some] at hrounds
  rw [Option.some.inj hrounds, List.mem_singleton] at hρ
  subst hρ
  exact ⟨x, hx, hlog, (hiff (by decide) ⟨by decide, by decide, by decide, by decide, by decide,
    by decide⟩).mp rfl⟩

end System

end QuAPI
