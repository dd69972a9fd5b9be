import QuAPI.Runtime.Reader
import QuAPI.Text

/-!
# What the solving children read

A session, the seeding process and the solving children together. The invariant is
`QuAPI.Rendered`: whatever the session has written so far, the seeding process reads it
as the header, the prefix and the clauses, a FORK is the last thing it was sent while
assumptions are being made, and the children's stream carries one block of unit clauses
closed by a SOLVE for each round. Every command keeps it (`QuAPI.Rendered.step`).

`QuAPI.reaches_round` turns it into text: the seeding process reads up to the FORK of the
round, and a child that goes on from there, on what the children before it have left of
their stream, reads its assumptions, the filler clauses and then the end of its input.
`QuAPI.session_rendered` is the whole session.
-/

namespace QuAPI

/-! ### What the seeding process reads -/

/-- What a prefix leaves: its lines, the filler clause, and whether its last line is
still open. -/
structure PrefixText where
  /-- The lines, the last one with its end. -/
  lines : List Char
  /-- The filler clause. -/
  filler : List Char
  /-- The end of the last line is written by what follows. -/
  opened : Bool

/-- The text of a prefix without zeros. -/
def prefixText (d : QuapiMsgHeaderData) (qs : List Lit) : PrefixText :=
  ⟨prefixLines qs, fillerOf d qs, !qs.isEmpty⟩

/-- **The messages are read as the header, the prefix and the clauses**, but for the end
of the last quantifier line if no clause has closed it yet. -/
def SeedRead (d : QuapiMsgHeaderData) (P : PrefixText) (clauses : List (List NzLit))
    (msgs : List QuapiMsg) : Prop :=
  ∃ t c, Encoder.init.encode msgs = some (headerLine d ++ t, c) ∧ c.header = d ∧
    c.filler = P.filler ∧ c.written = clauses.length ∧ MayBegin c.state ∧
    t ++ pending c.state = P.lines ++ clauses.flatMap clauseLine ∧
    (P.opened = false ∨ clauses ≠ [] → pending c.state = [])

theorem MayBegin.of_pending {st : QuapiPreloadState} (h : MayBegin st) (hp : pending st = []) :
    st = .readingPrefix ∨ st = .readingMatrix := by
  rcases h with h | h | ⟨e, rfl⟩
  · exact Or.inl h
  · exact Or.inr h
  · cases e <;> exact absurd hp (List.cons_ne_nil _ _)

section SeedRead

variable {d : QuapiMsgHeaderData} {P : PrefixText} {clauses : List (List NzLit)}
  {msgs : List QuapiMsg}

theorem seedRead_prefix {qs : List Lit} (hq : ∀ q ∈ qs, q ≠ 0) :
    SeedRead d (prefixText d qs) [] (.header quapiApiVersion d :: qs.map .quantifier) := by
  obtain ⟨t, c, he, hh, hw, hf, hst, ht⟩ := encode_prefix (d := d) hq
  obtain ⟨hmay, hpend⟩ := hst.mayBegin
  refine ⟨t, c, he, hh, hf, hw, hmay, ?_, ?_⟩
  · rw [hpend, ht]
    exact (List.append_nil _).symm
  · rintro (hopen | hne)
    · rw [hpend]
      cases qs with
      | nil => rfl
      | cons q qs => exact absurd hopen (by simp [prefixText])
    · exact absurd rfl hne

theorem SeedRead.clause (h : SeedRead d P clauses msgs) {ls : List NzLit} (hls : ls ≠ []) :
    SeedRead d P (clauses ++ [ls]) (msgs ++ Api.clauseMsgs ls) := by
  obtain ⟨t, c, he, hh, hf, hw, hmay, ht, -⟩ := h
  refine ⟨t ++ (pending c.state ++ clauseLine ls),
    { c with state := .readingMatrix, written := c.written + 1 }, ?_, hh, hf, ?_,
    Or.inr (Or.inl rfl), ?_, fun _ => rfl⟩
  · rw [← List.append_assoc]
    exact Encoder.encode_append he (encode_clause hmay hls)
  · change c.written + 1 = _
    rw [hw, List.length_append, List.length_singleton]
    push_cast
    rfl
  · change t ++ (pending c.state ++ clauseLine ls) ++ [] = _
    rw [List.append_nil, ← List.append_assoc, ht, List.flatMap_append, List.flatMap_singleton,
      List.append_assoc]

theorem SeedRead.fork (h : SeedRead d P clauses msgs) (hne : P.opened = false ∨ clauses ≠ [])
    (w : Bool) : SeedRead d P clauses (msgs ++ [.fork w]) := by
  obtain ⟨t, c, he, hh, hf, hw, hmay, ht, hp⟩ := h
  refine ⟨t, c, ?_, hh, hf, hw, hmay, ht, hp⟩
  have hfork : c.encode [.fork w] = some ([], c) := by
    refine Encoder.encode_cons.mpr ⟨[], c, [], ?_, rfl, rfl⟩
    rcases hmay.of_pending (hp hne) with hst | hst <;> simp only [Encoder.emit, hst]
  have happ := Encoder.encode_append he hfork
  rwa [List.append_nil] at happ

end SeedRead

theorem fillerOf_ne_nil (d : QuapiMsgHeaderData) (qs : List Lit) : fillerOf d qs ≠ [] := by
  have hlit : (if d.literals.1 = 0 then emptyFiller else defaultFiller) ≠ [] := by
    split <;> exact List.cons_ne_nil _ _
  cases qs with
  | nil => exact hlit
  | cons q qs =>
    rw [fillerOf]
    split
    · rw [quantifierFiller]
      simp
    · exact hlit

/-! ### The invariant of a session -/

/-- The unit clauses of a list of assumptions. -/
def units (accepted : List NzLit) : List (List NzLit) := accepted.map fun l => [l]

theorem length_units (accepted : List NzLit) : (units accepted).length = accepted.length :=
  List.length_map _

/-- A unit clause has a literal. -/
theorem units_ne_nil {accepted : List NzLit} : ∀ ls ∈ units accepted, ls ≠ [] := by
  intro ls hls
  obtain ⟨l, -, rfl⟩ := List.mem_map.mp hls
  exact List.cons_ne_nil _ _

/-- The messages to the child of a round. -/
def roundMsgs (accepted : List NzLit) : List QuapiMsg :=
  (units accepted).flatMap Api.clauseMsgs ++ [.solve]

/-- The commands that the processes keep up with: clauses that are not empty, and no FORK
while a quantifier line is open. -/
def Readable (env : Env) (P : PrefixText) (x : Session) : Command → Prop
  | .clause ls => ls ≠ []
  | .solve => x.api.solver.Refuses env.allowMissing ∨ P.opened = false ∨ x.clauses ≠ []
  | _ => True

/-- **What a session has written.** -/
structure Rendered (d : QuapiMsgHeaderData) (P : PrefixText) (x : Session) : Prop where
  counted : x.Counted
  header : x.api.solver.header = d
  /-- The seeding process reads the prefix and the clauses. -/
  seed : SeedRead d P x.clauses x.api.toSeed
  /-- While there is a child, its FORK is the last thing the seeding process was sent. -/
  asked : x.api.solver.state = .inputAssumptions → ∃ msgs w, x.api.toSeed = msgs ++ [.fork w]
  /-- Behind the prefix, a quantifier line has been closed. -/
  closed : x.api.solver.state ≠ .input → P.opened = false ∨ x.clauses ≠ []
  rounds : ∀ r ∈ x.rounds, SeedRead d P r.clauses r.toSeed ∧ (P.opened = false ∨ r.clauses ≠ []) ∧
    (∃ msgs w, r.toSeed = msgs ++ [.fork w]) ∧ r.toSeed <+: x.api.toSeed

section Rendered

variable {env : Env} {d : QuapiMsgHeaderData} {P : PrefixText} {x y : Session}

/-- Asking for the child: it is there, and its FORK is the last message. -/
theorem Rendered.forked (h : Rendered d P x) (env : Env) (hne : P.opened = false ∨ x.clauses ≠ []) :
    SeedRead d P x.clauses (x.api.forked env).toSeed ∧
      (∃ msgs w, (x.api.forked env).toSeed = msgs ++ [.fork w]) ∧
      x.api.toSeed <+: (x.api.forked env).toSeed := by
  rw [Api.forked_toSeed]
  by_cases hf : x.api.solver.needsFork
  · rw [if_pos hf]
    exact ⟨h.seed.fork hne _, ⟨_, _, rfl⟩, List.prefix_append _ _⟩
  · rw [if_neg hf, List.append_nil]
    refine ⟨h.seed, h.asked ?_, List.prefix_rfl⟩
    rcases h.counted.canSolve with hc | hc | hc
    · exact absurd (Or.inr hc) hf
    · exact absurd (Or.inl hc) hf
    · exact hc

/-- **Every command keeps the invariant.** -/
theorem Rendered.step {c : Command} (h : Rendered d P x) (hc : Readable env P x c)
    (he : x.step env c = some y) : Rendered d P y := by
  have hcount := h.counted.step he
  cases c with
  | clause ls =>
    obtain ⟨-, rfl⟩ := Session.step_clause he
    refine ⟨hcount, h.header, h.seed.clause hc, ?_, fun _ => Or.inr (by simp), ?_⟩
    · intro hs
      exact absurd hs (by simp [Api.countClause])
    · intro r hr
      obtain ⟨h₁, h₂, h₃, h₄⟩ := h.rounds r hr
      exact ⟨h₁, h₂, h₃, h₄.trans (List.prefix_append _ _)⟩
  | assume lit =>
    rcases Session.step_assume he with ⟨-, rfl⟩ | ⟨-, rfl, -⟩ | ⟨hlit, rfl, -⟩
    · exact h
    · exact ⟨hcount, h.header, h.seed, h.asked, h.closed, h.rounds⟩
    · have hne := h.closed (Session.state_of_step_assume he)
      obtain ⟨hseed, hlast, hpre⟩ := h.forked env hne
      refine ⟨hcount, (Session.forked_counts env x.api).2.2.trans h.header, hseed, fun _ => hlast,
        fun _ => hne, ?_⟩
      intro r hr
      obtain ⟨h₁, h₂, h₃, h₄⟩ := h.rounds r hr
      exact ⟨h₁, h₂, h₃, h₄.trans hpre⟩
  | reset =>
    obtain rfl := Session.step_reset he
    by_cases hs : x.api.solver.state = .inputAssumptions
    · simp only [if_pos hs] at hcount ⊢
      refine ⟨hcount, h.header, h.seed, ?_, fun _ => h.closed ?_, h.rounds⟩
      · intro hs'
        exact absurd hs' (by simp [QuapiSolver.clearAssumptions])
      · rw [hs]
        simp
    · simp only [if_neg hs] at hcount ⊢
      exact ⟨hcount, h.header, h.seed, h.asked, h.closed, h.rounds⟩
  | solve =>
    rcases Session.step_solve h.counted.canSolve he with ⟨-, rfl⟩ | ⟨hr, rfl⟩
    · exact h
    · have hne : P.opened = false ∨ x.clauses ≠ [] := hc.resolve_left hr
      obtain ⟨hseed, hlast, hpre⟩ := h.forked env hne
      refine ⟨hcount, (Session.forked_counts env x.api).2.2.trans h.header, hseed,
        fun hs => absurd hs (by simp [QuapiSolver.clearAssumptions]), fun _ => hne, ?_⟩
      intro r hr
      rcases List.mem_append.mp hr with hr | hr
      · obtain ⟨h₁, h₂, h₃, h₄⟩ := h.rounds r hr
        exact ⟨h₁, h₂, h₃, h₄.trans hpre⟩
      · obtain rfl := List.mem_singleton.mp hr
        exact ⟨hseed, hne, hlast, List.prefix_rfl⟩

/-- A session after its prefix. -/
theorem rendered_start {a : Api} (hw : a.solver.writtenClauses = 0)
    (ha : a.solver.writtenAssumptions = 0) (hs : a.solver.state = .input)
    (hd : a.solver.header = d) (hseed : SeedRead d P [] a.toSeed) :
    Rendered d P (Session.start a) where
  counted := Session.counted_start hw ha (Or.inl hs)
  header := hd
  seed := hseed
  asked := fun hc => absurd (hs.symm.trans hc) QuapiState.noConfusion
  closed := fun hc => absurd hs hc
  rounds := fun _ hr => absurd hr List.not_mem_nil

/-- **The whole session.** -/
theorem rendered_run {cmds : List Command} (h : Rendered d P x)
    (hrun : Machine.run (Session.step env) x cmds = some y)
    (hmeets : Machine.Meets (Session.step env) (Readable env P) x cmds) : Rendered d P y :=
  Machine.invariant_of_meets (fun _ _ _ hc he hr => hr.step hc he) hrun hmeets h

end Rendered

/-! ### One round -/

section Round

variable {d : QuapiMsgHeaderData} {P : PrefixText} {r : Round} {sizes : ℕ → ℕ}

/-- The text that the child of a round reads, its share of the seeding process
included. -/
def roundText (d : QuapiMsgHeaderData) (P : PrefixText) (r : Round) : List Char :=
  headerLine d ++ P.lines ++ r.clauses.flatMap clauseLine ++
    r.accepted.flatMap (fun l => clauseLine [l]) ++
    (List.replicate (d.clauses.1 - (r.clauses.length + r.accepted.length)).toNat
      P.filler).flatten

/-- **The seeding process reads up to the FORK of the round**, and waits there. -/
theorem reaches_fork (hs : ∀ n, 0 < sizes n) {clauses : List (List NzLit)}
    {msgs : List QuapiMsg} (h : SeedRead d P clauses msgs) (hne : P.opened = false ∨ clauses ≠ []) :
    ∃ (p : Reader) (c : Encoder), Reader.Reaches sizes (Reader.start msgs) p ∧ p.Waits c ∧
      p.input = [] ∧ p.out = headerLine d ++ P.lines ++ clauses.flatMap clauseLine ∧
      c.header = d ∧ c.filler = P.filler ∧ c.written = clauses.length ∧
      (c.state = .readingPrefix ∨ c.state = .readingMatrix) := by
  obtain ⟨t, c, he, hh, hf, hw, hmay, ht, hp⟩ := h
  obtain ⟨p₀, h₀, hw₀, ho₀, hi₀⟩ := Reader.reaches_start hs msgs
  obtain ⟨p, hr, hwait, hout, hin⟩ := Reader.reaches_encode hs hw₀
    (hi₀.trans (List.append_nil msgs).symm) he
  rw [hp hne, List.append_nil] at ht
  refine ⟨p, c, h₀.trans hr, hwait, hin, ?_, hh, hf, hw, hmay.of_pending (hp hne)⟩
  rw [hout, ho₀, ht, List.nil_append, List.append_assoc]

/-- **A child reads its assumptions.** -/
theorem reaches_units (hs : ∀ n, 0 < sizes n) {accepted : List NzLit} {p : Reader}
    {c : Encoder} {rest : List QuapiMsg} (hp : p.Waits c)
    (hst : c.state = .readingPrefix ∨ c.state = .readingMatrix)
    (hi : p.input = (units accepted).flatMap Api.clauseMsgs ++ rest) :
    ∃ (q : Reader) (c' : Encoder), Reader.Reaches sizes p q ∧ q.Waits c' ∧
      q.out = p.out ++ accepted.flatMap (fun l => clauseLine [l]) ∧ q.input = rest ∧
      c'.header = c.header ∧ c'.filler = c.filler ∧ c'.written = c.written + accepted.length ∧
      (c'.state = .readingPrefix ∨ c'.state = .readingMatrix) := by
  have hmay : MayBegin c.state := hst.imp_right Or.inl
  have hpend : pending c.state = [] := by
    rcases hst with hst | hst <;> rw [hst] <;> rfl
  obtain ⟨q, hr, hwait, hout, hin⟩ :=
    Reader.reaches_encode hs hp hi (encode_clauses hmay units_ne_nil)
  have hpend' : clausesPending (units accepted) c.state = [] := by
    rw [clausesPending, hpend, ite_self]
  refine ⟨q, _, hr, hwait, ?_, hin, rfl, rfl, ?_, ?_⟩
  · rw [hout, hpend', List.nil_append, units, List.flatMap_map]
  · change c.written + _ = _
    rw [length_units]
  · change clausesState _ _ = _ ∨ clausesState _ _ = _
    rw [clausesState]
    split
    · exact hst
    · exact Or.inr rfl

/-- **A child reads its assumptions and the filler clauses**, and is at the end of its
input. -/
theorem reaches_child (hs : ∀ n, 0 < sizes n) {accepted : List NzLit} {p : Reader}
    {c : Encoder} {rest : List QuapiMsg} (hp : p.Waits c) (hfill : c.filler ≠ [])
    (hst : c.state = .readingPrefix ∨ c.state = .readingMatrix)
    (hi : p.input = roundMsgs accepted ++ rest) :
    ∃ q, Reader.Reaches sizes p q ∧ q.closed = some 0 ∧ q.out = p.out ++
        accepted.flatMap (fun l => clauseLine [l]) ++ (List.replicate
          (c.header.clauses.1 - (c.written + accepted.length)).toNat c.filler).flatten ∧
      q.input = rest ∧ q.runtime.writtenClauses =
        max (c.written + accepted.length) c.header.clauses.1 := by
  rw [roundMsgs, List.append_assoc] at hi
  obtain ⟨p', c', hr, hwait, hout, hin, hh, hf, hw, hst'⟩ := reaches_units hs hp hst hi
  obtain ⟨q, hq, hend⟩ := Reader.reaches_solve hs hwait (hf ▸ hfill) hst' hin
  refine ⟨q, hr.trans hq, hend.closed, ?_, hend.input, ?_⟩
  · rw [hend.out, hh, hf, hw]
    change p'.out ++ _ = _
    rw [hout]
  · rw [hend.written, hh]
    change max p'.runtime.writtenClauses c.header.clauses.1 = _
    rw [hwait.encodes.written, hw]

/-- **The child of a round** goes on from the FORK on its own stream. -/
theorem reaches_round (hs : ∀ n, 0 < sizes n) (hfill : P.filler ≠ []) {p : Reader}
    {c : Encoder} {rest : List QuapiMsg} (hp : p.Waits c)
    (hi : p.input = roundMsgs r.accepted ++ rest)
    (hout : p.out = headerLine d ++ P.lines ++ r.clauses.flatMap clauseLine)
    (hh : c.header = d) (hf : c.filler = P.filler) (hw : c.written = r.clauses.length)
    (hst : c.state = .readingPrefix ∨ c.state = .readingMatrix) :
    ∃ q, Reader.Reaches sizes p q ∧ q.closed = some 0 ∧ q.out = roundText d P r ∧
      q.input = rest := by
  obtain ⟨q, hq, hclosed, hqout, hrest, -⟩ := reaches_child hs hp (hf ▸ hfill) hst hi
  refine ⟨q, hq, hclosed, ?_, hrest⟩
  rw [hqout, hout, hh, hf, hw, roundText]

end Round

/-! ### The session -/

section Session

variable {env : Env} {x y : Session}

/-- **The stream of the children** carries one block for each round. -/
def Streamed (x : Session) : Prop :=
  x.api.toChild = x.rounds.flatMap (fun r => roundMsgs r.accepted) ++
    (units x.accepted).flatMap Api.clauseMsgs

theorem Streamed.step {c : Command} (h : Streamed x) (hc : c ≠ .reset) (hx : x.Counted)
    (he : x.step env c = some y) : Streamed y := by
  cases c with
  | clause ls =>
    obtain ⟨-, rfl⟩ := Session.step_clause he
    exact h
  | assume lit =>
    rcases Session.step_assume he with ⟨-, rfl⟩ | ⟨-, rfl, -⟩ | ⟨hlit, rfl, -⟩
    · exact h
    · exact h
    · change (x.api.forked env).toChild ++ _ = _
      rw [Api.forked_toChild, h, List.append_assoc]
      refine congrArg _ ?_
      rw [units, units, List.map_append, List.flatMap_append]
      rfl
  | reset => exact absurd rfl hc
  | solve =>
    rcases Session.step_solve hx.canSolve he with ⟨-, rfl⟩ | ⟨-, rfl⟩
    · exact h
    · change (x.api.forked env).toChild ++ [.solve] =
        (x.rounds ++ [Round.mk x.clauses x.accepted x.tried (x.api.forked env).toSeed]).flatMap
          (fun r => roundMsgs r.accepted) ++ []
      rw [Api.forked_toChild, h, List.flatMap_append, List.flatMap_singleton, List.append_nil,
        List.append_assoc]
      rfl

theorem streamed_run {cmds : List Command} (h : x.Counted ∧ Streamed x)
    (hrun : Machine.run (Session.step env) x cmds = some y) (hreset : .reset ∉ cmds) :
    Streamed y := by
  have hmeets : Machine.Meets (Session.step env) (fun _ c => c ≠ .reset) x cmds :=
    Machine.meets_of_forall fun c hc _ hcr => hreset (hcr ▸ hc)
  have hy : y.Counted ∧ Streamed y := Machine.invariant_of_meets
    (I := fun z => z.Counted ∧ Streamed z)
    (fun _ _ _ hc he hs => ⟨hs.1.step he, hs.2.step hc hs.1 he⟩) hrun hmeets h
  exact hy.2

/-- The commands of a session without a reset that meet the conditions of a rendering:
once a clause has been added, any order of clauses, assumptions and solves. -/
theorem meets_of_clause {P : PrefixText} {cmds : List Command}
    (hclause : ∀ ls, .clause ls ∈ cmds → ls ≠ []) (h : P.opened = false ∨ x.clauses ≠ []) :
    Machine.Meets (Session.step env) (Readable env P) x cmds := by
  induction cmds generalizing x with
  | nil => exact trivial
  | cons c cmds ih =>
    refine ⟨?_, fun y he => ih (fun ls hls => hclause ls (List.mem_cons_of_mem _ hls)) ?_⟩
    · cases c with
      | clause ls => exact hclause ls List.mem_cons_self
      | solve => exact Or.inr h
      | _ => exact trivial
    · refine h.imp_right fun hne hnil => hne ?_
      have hpre := Session.clauses_of_step he
      rw [hnil] at hpre
      exact List.prefix_nil.mp hpre

/-- The same from the start on, as long as the first command forks no child while a
quantifier line is open. -/
theorem meets_start {P : PrefixText} {cmds : List Command} {a : Api}
    (hclause : ∀ ls, .clause ls ∈ cmds → ls ≠ []) (hreset : .reset ∉ cmds)
    (hfirst : P.opened = false ∨ cmds.head? ≠ some .solve) (ha : a.solver.state = .input) :
    Machine.Meets (Session.step env) (Readable env P) (Session.start a) cmds := by
  cases cmds with
  | nil => exact trivial
  | cons c cmds =>
    rcases hfirst with hopen | hfirst
    · exact meets_of_clause hclause (Or.inl hopen)
    · have htail : ∀ ls, .clause ls ∈ cmds → ls ≠ [] := fun ls hls =>
        hclause ls (List.mem_cons_of_mem _ hls)
      cases c with
      | clause ls =>
        refine ⟨hclause ls List.mem_cons_self, fun y he => meets_of_clause htail (Or.inr ?_)⟩
        obtain ⟨-, rfl⟩ := Session.step_clause he
        exact List.cons_ne_nil _ _
      | assume lit =>
        exact ⟨trivial, fun y he => absurd ha (Session.state_of_step_assume he)⟩
      | reset => exact absurd List.mem_cons_self hreset
      | solve => exact absurd rfl hfirst

/-- The prefix that `quapi_quantify` sends is read as its lines. -/
theorem rendered_calls {litcount clausecount maxassumptions : CInt}
    {regexes : Option ((List Char → Bool) × (List Char → Bool))} {s : QuapiSolver} {a : Api}
    {qs : List Lit} (hq : ∀ q ∈ qs, q ≠ 0)
    (hinit : quapiInit litcount clausecount maxassumptions regexes = some s)
    (hcalls : (Api.start s).calls env (qs.map .quantify) = some a) :
    Rendered s.header (prefixText s.header (Api.sentPrefix maxassumptions.1 qs))
      (Session.start a) ∧ a.toChild = [] ∧ a.solver.state = .input := by
  obtain ⟨-, clauses, -, rfl⟩ := quapiInit_cases hinit
  obtain ⟨⟨depth, w, rfl⟩, -⟩ := Api.calls_quantify hcalls
  refine ⟨rendered_start rfl rfl rfl rfl ?_, rfl, rfl⟩
  have hk : maxassumptions.1 - 0 = maxassumptions.1 := sub_zero _
  have hread := seedRead_prefix (d := ⟨litcount, clauses, maxassumptions⟩)
    (Api.sentPrefix_ne_zero (k := maxassumptions.1 - 0) hq)
  rw [← hk]
  exact hread

/-- What the children from round `i` on find in their stream. -/
def streamFrom (x : Session) (i : ℕ) : List QuapiMsg :=
  (x.rounds.drop i).flatMap (fun r => roundMsgs r.accepted) ++
    (units x.accepted).flatMap Api.clauseMsgs

theorem streamFrom_of_getElem? {i : ℕ} {r : Round} (h : x.rounds[i]? = some r) :
    streamFrom x i = roundMsgs r.accepted ++ streamFrom x (i + 1) := by
  obtain ⟨hi, rfl⟩ := List.getElem?_eq_some_iff.mp h
  rw [streamFrom, List.drop_eq_getElem_cons hi, List.flatMap_cons, List.append_assoc]
  rfl

/-- **Whole-session rendering.** In every session of quantifiers, clauses that are not empty,
assumptions and solves, with a clause before the first fork if there is a prefix, and for
all positive sizes of the reads: the seeding process reads up to the FORK of round `i`, the
child that goes on from there, on what the child before it left of the stream, is told the
end of its input by a 0, and what the two have read is the header, the prefix, the clauses
before that fork, the accepted assumptions of that round, and the filler clauses. -/
theorem session_rendered {litcount clausecount maxassumptions : CInt}
    {regexes : Option ((List Char → Bool) × (List Char → Bool))} {s : QuapiSolver} {a : Api}
    {qs : List NzLit} {cmds : List Command} (seedSizes : ℕ → ℕ) (sizes : ℕ → ℕ → ℕ)
    (hinit : quapiInit litcount clausecount maxassumptions regexes = some s)
    (hcalls : (Api.start s).calls env (qs.map fun q => .quantify q.1) = some a)
    (hrun : Machine.run (Session.step env) (Session.start a) cmds = some x)
    (hclause : ∀ ls, .clause ls ∈ cmds → ls ≠ []) (hreset : .reset ∉ cmds)
    (hfirst : qs = [] ∨ cmds.head? ≠ some .solve)
    (hseed : ∀ n, 0 < seedSizes n) (hsizes : ∀ i n, 0 < sizes i n) :
    ∃ seed child : ℕ → Reader, ∀ (i : ℕ) (r : Round), x.rounds[i]? = some r →
      (∃ msgs wait, r.toSeed = msgs ++ [.fork wait]) ∧ r.toSeed <+: x.api.toSeed ∧
      Reader.Reaches seedSizes (Reader.start r.toSeed) (seed i) ∧
      (seed i).input = [] ∧ (seed i).blocked.isSome ∧
      Reader.Reaches (sizes i) { seed i with
        input := if i = 0 then x.api.toChild else (child (i - 1)).input } (child i) ∧
      (child i).closed = some 0 ∧ (child i).out =
        roundText s.header (prefixText s.header
          (Api.sentPrefix maxassumptions.1 (qs.map Subtype.val))) r := by
  have hq : ∀ q ∈ qs.map Subtype.val, q ≠ 0 := List.forall_mem_map.mpr fun q _ => q.2
  have hmap : (qs.map fun q => ApiCall.quantify q.1) = (qs.map Subtype.val).map .quantify := by
    rw [List.map_map]
    rfl
  rw [hmap] at hcalls
  obtain ⟨hstart, hchild, hinput⟩ := rendered_calls hq hinit hcalls
  have hfirst' : (prefixText s.header (Api.sentPrefix maxassumptions.1
      (qs.map Subtype.val))).opened = false ∨ cmds.head? ≠ some .solve :=
    hfirst.imp_left fun hqs => by rw [hqs]; rfl
  have hx := rendered_run hstart hrun (meets_start hclause hreset hfirst' hinput)
  have hstream := streamed_run ⟨hstart.counted, hchild⟩ hrun hreset
  -- one round after the other, each on what the stream still holds
  have hround : ∀ i, ∃ p q : Reader, ∀ r, x.rounds[i]? = some r →
      Reader.Reaches seedSizes (Reader.start r.toSeed) p ∧ p.input = [] ∧ p.blocked.isSome ∧
      Reader.Reaches (sizes i) { p with input := streamFrom x i } q ∧ q.closed = some 0 ∧
      q.out = roundText s.header (prefixText s.header
        (Api.sentPrefix maxassumptions.1 (qs.map Subtype.val))) r ∧
      q.input = streamFrom x (i + 1) := by
    intro i
    cases hri : x.rounds[i]? with
    | none => exact ⟨Reader.start [], Reader.start [], fun r hr => by simp at hr⟩
    | some r =>
      obtain ⟨hsr, hne, -⟩ := hx.rounds r (List.mem_of_getElem? hri)
      obtain ⟨p, c, hp, hwait, hin, hout, hh, hf, hw, hst⟩ := reaches_fork hseed hsr hne
      have hwait' : Reader.Waits { p with input := streamFrom x i } c :=
        ⟨hwait.blocked, hwait.closed, hwait.encodes, hwait.outbuf, hwait.written⟩
      obtain ⟨q, hq, hclosed, htext, hrest⟩ := reaches_round (hsizes i)
        (fillerOf_ne_nil s.header _) hwait'
        (streamFrom_of_getElem? hri) hout hh hf hw hst
      refine ⟨p, q, ?_⟩
      intro r' hr'
      obtain rfl := Option.some.inj hr'
      obtain ⟨n, -, hb⟩ := hwait.blocked
      exact ⟨hp, hin, by rw [hb]; rfl, hq, hclosed, htext, hrest⟩
  choose seed child hprop using hround
  refine ⟨seed, child, ?_⟩
  intro i r hr
  obtain ⟨-, -, hlast, hpre⟩ := hx.rounds r (List.mem_of_getElem? hr)
  obtain ⟨hp, hin, hb, hq, hclosed, htext, -⟩ := hprop i r hr
  refine ⟨hlast, hpre, hp, hin, hb, ?_, hclosed, htext⟩
  cases i with
  | zero =>
    rw [if_pos rfl, hstream]
    exact hq
  | succ i =>
    obtain ⟨hi, -⟩ := List.getElem?_eq_some_iff.mp hr
    obtain ⟨-, -, -, -, -, -, hleft⟩ :=
      hprop i _ (List.getElem?_eq_getElem (i.lt_succ_self.trans hi))
    rw [if_neg (Nat.succ_ne_zero i), Nat.add_sub_cancel, hleft]
    exact hq

/-- The prefix `∀x₁∃x₂` and the clause `x₁ ∨ x₂`, solved under the assumption `-x₁` and then
without one, with reads of five and of three characters. -/
theorem forallExists_rendered : ∃ x : Session, x.rounds.length = 2 ∧
    ∃ seed child : ℕ → Reader, ∀ (i : ℕ) (r : Round), x.rounds[i]? = some r →
      Reader.Reaches (fun _ => 5) (Reader.start r.toSeed) (seed i) ∧
      (child i).closed = some 0 ∧ (child i).out =
        roundText forallExistsStart.header
          (prefixText forallExistsStart.header [lit 1, lit 2]) r := by
  have hsome : (Machine.run (Session.step plainEnv) (Session.start forallExistsApi)
      [.clause [nzLit 1, nzLit 2], .assume (lit (-1)), .solve, .solve]).isSome = true := rfl
  obtain ⟨x, hx⟩ := Option.isSome_iff_exists.mp hsome
  have hinit : quapiInit ⟨2, by decide⟩ ⟨1, by decide⟩ ⟨1, by decide⟩ none =
      some forallExistsStart := rfl
  obtain ⟨seed, child, h⟩ := session_rendered (fun _ => 5) (fun _ _ => 3) hinit
    forallExists_calls hx (fun ls hls => by
      rcases List.mem_cons.mp hls with h | h
      · rw [Command.clause.inj h]
        exact List.cons_ne_nil _ _
      · simp at h)
    (by decide) (Or.inr (by decide)) (fun _ => by decide) (fun _ _ => by decide)
  refine ⟨x, ?_, seed, child, ?_⟩
  · have hlen : (Machine.run (Session.step plainEnv) (Session.start forallExistsApi)
        [.clause [nzLit 1, nzLit 2], .assume (lit (-1)), .solve, .solve]).map
          (fun x => x.rounds.length) = some 2 := rfl
    rw [hx] at hlen
    exact Option.some.inj hlen
  · intro i r hr
    obtain ⟨-, -, hseed, -, -, -, hclosed, hout⟩ := h i r hr
    exact ⟨hseed, hclosed, hout⟩

end Session

end QuAPI
