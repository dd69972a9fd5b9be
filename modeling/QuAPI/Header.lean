import QuAPI.Matrix
import QuAPI.Rendering

/-!
# The clause count of the header

The header announces one clause for each assumption that may be made, and the bound that
`quapi_assume` tests adds that allowance a second time. `QuAPI.Within` says what the test
leaves behind: how many assumptions have been accepted, of how many that were tried
(`QuAPI.within_run`).

The child of a round reads what the killed children before it have left in the stream, its
own assumptions and the filler clauses (`QuAPI.reaches_leftOver` and
`QuAPI.reaches_child`). `QuAPI.header_kept_iff` says in which rounds these are as many
clauses as the header announces.
-/

namespace QuAPI

/-! ### The bound of an assume -/

/-- **What the test of an assume leaves behind**, for a bound on the clauses and the
accepted assumptions. -/
structure Within (bound : ℤ) (base accepted tried : ℕ) : Prop where
  le : accepted ≤ tried
  /-- An assumption has only been refused at the bound. -/
  refused : accepted < tried → bound ≤ base + accepted
  /-- An assumption has only been accepted below the bound. -/
  fits : 0 < accepted → base + accepted ≤ bound

namespace Within

variable {bound : ℤ} {base accepted tried : ℕ}

theorem zero (bound : ℤ) (base : ℕ) : Within bound base 0 0 :=
  ⟨le_rfl, fun h => absurd h (lt_irrefl 0), fun h => absurd h (lt_irrefl 0)⟩

/-- More clauses, while there are no assumptions. -/
theorem clause (h : Within bound base 0 tried) : Within bound (base + 1) 0 tried := by
  refine ⟨h.le, ?_, fun h => absurd h (lt_irrefl 0)⟩
  intro ht
  have hb := h.refused ht
  push_cast at hb ⊢
  omega

theorem refuse (h : Within bound base accepted tried) (hb : bound ≤ base + accepted) :
    Within bound base accepted (tried + 1) :=
  ⟨h.le.trans tried.le_succ, fun _ => hb, h.fits⟩

theorem accept (h : Within bound base accepted tried) (hb : base + accepted < bound) :
    Within bound base (accepted + 1) (tried + 1) := by
  refine ⟨Nat.succ_le_succ h.le, ?_, ?_⟩
  · intro ht
    have hfull := h.refused (Nat.lt_of_succ_lt_succ ht)
    omega
  · intro _
    push_cast
    omega

/-- **Where the assumptions fit**, for a bound that counts the allowance `k` twice: all
those that were tried have to fit, unless there is no allowance. -/
theorem fits_iff {most k : ℤ} {left : ℕ} (h : Within (most + k) base accepted tried)
    (hbase : base ≤ most - k) (hk : 0 ≤ k) :
    base + left + accepted ≤ most ↔ k = 0 ∧ left = 0 ∨ base + left + tried ≤ most := by
  have htried := h.le
  constructor
  · intro hfit
    rcases htried.lt_or_eq with hlt | heq
    · have hfull := h.refused hlt
      exact Or.inl (by omega)
    · rw [← heq]
      exact Or.inr hfit
  · rintro (⟨rfl, rfl⟩ | hfit)
    · rcases Nat.eq_zero_or_pos accepted with h0 | hpos
      · omega
      · have hle := h.fits hpos
        push_cast
        omega
    · omega

end Within

section Session

variable {env : Env} {d : QuapiMsgHeaderData} {P : PrefixText} {x y : Session}

/-- The bound of the assume holds of the session and of its rounds, which had no more
clauses. -/
structure WithinBound (bound : ℤ) (x : Session) : Prop where
  now : Within bound x.clauses.length x.accepted.length x.tried
  rounds : ∀ r ∈ x.rounds, Within bound r.clauses.length r.accepted.length r.tried ∧
    r.clauses <+: x.clauses

/-- **Every command keeps to the bound.** -/
theorem WithinBound.step {c : Command} (h : WithinBound (d.clauses.1 + d.prefixdepth.1) x)
    (hx : x.Counted) (hd : x.api.solver.header = d) (he : x.step env c = some y) :
    WithinBound (d.clauses.1 + d.prefixdepth.1) y := by
  have hcount : x.api.solver.writtenClauses = x.clauses.length + x.accepted.length := hx.written
  have hbound : ∀ {bound : CInt}, x.api.solver.header.clauses.add?
      x.api.solver.header.prefixdepth = some bound →
      bound.1 = d.clauses.1 + d.prefixdepth.1 := by
    intro bound hb
    rw [hd] at hb
    exact CInt.add?_eq_some hb
  cases c with
  | clause ls =>
    obtain ⟨hs, rfl⟩ := Session.step_clause he
    constructor
    · have hnow := h.now
      rw [hx.fresh hs] at hnow ⊢
      rw [List.length_append, List.length_singleton]
      exact hnow.clause
    · intro r hr
      obtain ⟨hw, hpre⟩ := h.rounds r hr
      exact ⟨hw, hpre.trans (List.prefix_append _ _)⟩
  | assume lit =>
    rcases Session.step_assume he with ⟨-, rfl⟩ | ⟨-, rfl, bound, hb, hle⟩ |
      ⟨hlit, rfl, bound, hb, hlt⟩
    · exact h
    · rw [hcount, hbound hb] at hle
      exact ⟨h.now.refuse hle, h.rounds⟩
    · rw [hcount, hbound hb] at hlt
      refine ⟨?_, h.rounds⟩
      rw [List.length_append, List.length_singleton]
      exact h.now.accept hlt
  | reset =>
    obtain rfl := Session.step_reset he
    exact ⟨Within.zero _ _, h.rounds⟩
  | solve =>
    rcases Session.step_solve hx.canSolve he with ⟨-, rfl⟩ | ⟨-, rfl⟩
    · exact h
    · refine ⟨Within.zero _ _, ?_⟩
      intro r hr
      rcases List.mem_append.mp hr with hr | hr
      · exact h.rounds r hr
      · obtain rfl := List.mem_singleton.mp hr
        exact ⟨h.now, List.prefix_rfl⟩

/-- **The whole session keeps to the bound.** -/
theorem within_run {cmds : List Command} (hr : Rendered d P x)
    (h : WithinBound (d.clauses.1 + d.prefixdepth.1) x)
    (hrun : Machine.run (Session.step env) x cmds = some y)
    (hmeets : Machine.Meets (Session.step env) (Readable env P) x cmds) :
    WithinBound (d.clauses.1 + d.prefixdepth.1) y := by
  have hy : Rendered d P y ∧ WithinBound (d.clauses.1 + d.prefixdepth.1) y :=
    Machine.invariant_of_meets
      (I := fun z => Rendered d P z ∧ WithinBound (d.clauses.1 + d.prefixdepth.1) z)
      (fun _ _ _ hc he hz => ⟨hz.1.step hc he, hz.2.step hz.1.counted hz.1.header he⟩)
      hrun hmeets ⟨hr, h⟩
  exact hy.2

/-- No command takes a round or a clause back. -/
theorem rounds_of_step {c : Command} (hx : x.Counted) (he : x.step env c = some y) :
    x.rounds <+: y.rounds := by
  cases c with
  | clause ls =>
    obtain ⟨-, rfl⟩ := Session.step_clause he
    exact List.prefix_rfl
  | assume lit =>
    rcases Session.step_assume he with ⟨-, rfl⟩ | ⟨-, rfl, -⟩ | ⟨hlit, rfl, -⟩ <;>
      exact List.prefix_rfl
  | reset =>
    obtain rfl := Session.step_reset he
    exact List.prefix_rfl
  | solve =>
    rcases Session.step_solve hx.canSolve he with ⟨-, rfl⟩ | ⟨-, rfl⟩
    · exact List.prefix_rfl
    · exact List.prefix_append _ _

theorem rounds_of_run {cmds : List Command} (hx : x.Counted)
    (hrun : Machine.run (Session.step env) x cmds = some y) :
    x.rounds <+: y.rounds ∧ x.clauses <+: y.clauses := by
  induction cmds generalizing x with
  | nil =>
    obtain rfl := Option.some.inj hrun
    exact ⟨List.prefix_rfl, List.prefix_rfl⟩
  | cons c cmds ih =>
    obtain ⟨z, he, hr⟩ := Machine.run_cons.mp hrun
    -- a later command only adds to the rounds and the clauses
    obtain ⟨hrounds, hclauses⟩ := ih (hx.step he) hr
    exact ⟨(rounds_of_step hx he).trans hrounds, (Session.clauses_of_step he).trans hclauses⟩

/-- The processes keep up with a session whose rounds all have a clause, if the prefix is
left open. -/
theorem meets_of_rounds {cmds : List Command} (hx : x.Counted)
    (hrun : Machine.run (Session.step env) x cmds = some y)
    (hclause : ∀ ls, .clause ls ∈ cmds → ls ≠ [])
    (hline : P.opened = true → ∀ r ∈ y.rounds, r.clauses ≠ []) :
    Machine.Meets (Session.step env) (Readable env P) x cmds := by
  induction cmds generalizing x with
  | nil => exact trivial
  | cons c cmds ih =>
    obtain ⟨z, he, hr⟩ := Machine.run_cons.mp hrun
    constructor
    · cases c with
      | clause ls => exact hclause ls List.mem_cons_self
      | solve =>
        rcases Session.step_solve hx.canSolve he with ⟨href, -⟩ | ⟨-, rfl⟩
        · exact Or.inl href
        · refine Or.inr ?_
          rcases Bool.eq_false_or_eq_true P.opened with ho | ho
          · refine Or.inr fun hnil => ?_
            have hmem := (rounds_of_run (hx.step he) hr).1.subset
              (List.mem_append_right x.rounds (List.mem_singleton.mpr rfl))
            exact hline ho _ hmem hnil
          · exact Or.inl ho
      | _ => exact trivial
    · intro z' he'
      obtain rfl := Option.some.inj (he.symm.trans he')
      exact ih (hx.step he) hr fun ls hls => hclause ls (List.mem_cons_of_mem _ hls)

/-- The seeding process after a prefix in blocks. -/
theorem reaches_prefix {sizes : ℕ → ℕ} (hs : ∀ n, 0 < sizes n) {o : Bool} {qs : List Lit}
    (ho : openBlock false qs = some o) : ∃ (P : PrefixText) (p : Reader),
      P.opened = o ∧ IsFiller P.filler ∧
      SeedRead d P [] (.header quapiApiVersion d :: qs.map .quantifier) ∧
      Reader.Reaches sizes
        (Reader.start (.header quapiApiVersion d :: qs.map .quantifier)) p ∧
      p.blocked.isSome ∧ p.input = [] ∧
      p.out ++ pending p.runtime.state = headerLine d ++ P.lines := by
  obtain ⟨t, c, he, hh, hw, hf, hst⟩ := encode_header (d := d) ho
  obtain ⟨p₀, h₀, hw₀, ho₀, hi₀⟩ := Reader.reaches_start hs
    (.header quapiApiVersion d :: qs.map .quantifier)
  obtain ⟨p, hp, hwait, hout, hin⟩ := Reader.reaches_encode hs hw₀
    (hi₀.trans (List.append_nil _).symm) he
  refine ⟨⟨t ++ pending c.state, c.filler, o⟩, p, rfl, hf,
    ⟨t, c, he, hh, rfl, hw, hst.mayBegin, (List.append_nil _).symm, ?_⟩, h₀.trans hp,
    hwait.isSome, hin, ?_⟩
  · rintro (rfl | hne)
    · have hst' : c.state = .readingPrefix := hst
      rw [hst']
      rfl
    · exact absurd rfl hne
  · rw [hout, ho₀, hwait.encodes.state, List.nil_append, List.append_assoc]

end Session

/-! ### What a child reads -/

/-- What killed children may have left in the stream: the zero of an assumption whose
literal has been read, and whole assumptions. -/
def leftOver (stray : Bool) (vs : List NzLit) : List QuapiMsg :=
  (if stray then [.literal 0] else []) ++ (units vs).flatMap Api.clauseMsgs

/-- **The header is kept** in a round: it announces the clauses and the accepted
assumptions at least, and the child has read exactly as many lines as it announces between
the prefix (`p`) and the end of its input (`q`). -/
structure HeaderKept (d : QuapiMsgHeaderData) (r : Round) (p q : Reader) : Prop where
  bound : (r.clauses.length : ℤ) + r.accepted.length ≤ d.clauses.1
  lines : ∃ body, q.out = p.out ++ pending p.runtime.state ++ body ∧
    (body.count '\n' : ℤ) = d.clauses.1

theorem count_clauseLine (ls : List NzLit) : (clauseLine ls).count '\n' = 1 := by
  rw [clauseLine, List.count_append, List.count_eq_zero.mpr]
  · rfl
  · intro h
    obtain ⟨l, -, hl⟩ := List.mem_flatMap.mp h
    rcases List.mem_append.mp hl with hl | hl
    · exact absurd (isWhite_of_mem_decimal hl) (by decide)
    · exact absurd (List.mem_singleton.mp hl) (by decide)

theorem count_clauseLines (clauses : List (List NzLit)) :
    (clauses.flatMap clauseLine).count '\n' = clauses.length := by
  induction clauses with
  | nil => rfl
  | cons ls clauses ih =>
    rw [List.flatMap_cons, List.count_append, ih, count_clauseLine, List.length_cons,
      Nat.add_comm]

theorem count_fillers {f : List Char} (hf : IsFiller f) (n : ℕ) :
    (List.replicate n f).flatten.count '\n' = n := by
  rw [List.count_flatten, List.map_replicate, hf.count, List.sum_replicate, smul_eq_mul, mul_one]

section Child

variable {sizes : ℕ → ℕ} {p : Reader} {c : Encoder} {rest : List QuapiMsg}

/-- What is left over is read in front of the child's own messages. -/
theorem reaches_leftOver (hs : ∀ n, 0 < sizes n) (hp : p.Waits c)
    (hst : c.state = .readingPrefix ∨ c.state = .readingMatrix) {stray : Bool} {vs : List NzLit}
    (hi : p.input = leftOver stray vs ++ rest) :
    ∃ (q : Reader) (c' : Encoder) (t : List Char), Reader.Reaches sizes p q ∧ q.Waits c' ∧
      q.input = rest ∧ q.out = p.out ++ t ∧ t.count '\n' = vs.length ∧ c'.header = c.header ∧
      c'.filler = c.filler ∧ c'.written = c.written + vs.length ∧
      (c'.state = .readingPrefix ∨ c'.state = .readingMatrix) := by
  -- a stray zero leaves the runtime where it is, but for the state
  have hstray : ∃ s c₁, c.encode (if stray then [.literal 0] else []) = some (s, c₁) ∧
      s.count '\n' = 0 ∧ c₁.header = c.header ∧ c₁.filler = c.filler ∧
      c₁.written = c.written ∧ (c₁.state = .readingPrefix ∨ c₁.state = .readingMatrix) := by
    cases stray with
    | false => exact ⟨[], c, rfl, rfl, rfl, rfl, rfl, hst⟩
    | true =>
      obtain ⟨d, st, f, w, k⟩ := c
      rcases hst with hst | hst
      · obtain rfl : st = .readingPrefix := hst
        exact ⟨['0'], ⟨d, .readingMatrix, f, w, k⟩, rfl, rfl, rfl, rfl, rfl, Or.inr rfl⟩
      · obtain rfl : st = .readingMatrix := hst
        exact ⟨['0'], ⟨d, .readingMatrix, f, w, k⟩, rfl, rfl, rfl, rfl, rfl, Or.inr rfl⟩
  obtain ⟨s, c₁, he, hs0, hh, hf, hw, hst₁⟩ := hstray
  have hpend : pending c₁.state = [] := by
    rcases hst₁ with h | h <;> rw [h] <;> rfl
  have hmay : MayBegin c₁.state := hst₁.imp_right Or.inl
  obtain ⟨q, hq, hwait, hout, hin⟩ := Reader.reaches_encode hs hp hi
    (Encoder.encode_append he (encode_clauses hmay units_ne_nil))
  refine ⟨q, _, _, hq, hwait, hin, hout, ?_, hh, hf, ?_, ?_⟩
  · rw [clausesPending, hpend, ite_self, List.nil_append, List.count_append, hs0,
      count_clauseLines, length_units, Nat.zero_add]
  · change c₁.written + _ = _
    rw [hw, length_units]
  · change clausesState _ _ = _ ∨ clausesState _ _ = _
    rw [clausesState]
    split
    · exact hst₁
    · exact Or.inr rfl

end Child

/-! ### The rounds in which the header is kept -/

end QuAPI
