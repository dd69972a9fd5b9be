import QuAPI.Library
import QuAPI.Machine

/-!
# The universal gate

`quapi_quantify` turns the universal quantifiers among the first `prefixdepth` ones into
existential ones, and `quapi_solve` is meant to refuse to run unless the assumptions
give all of them a value. The gate compares the number of assumptions with the
*position* of the last flipped quantifier, as if it were a *length*: one assumption
short, it lets the solve through.

A session is watched together with the positions at which a quantifier was flipped
(`QuAPI.gateStep`), and `QuAPI.Gated` is what every reachable configuration satisfies.
`QuAPI.solve_covers_flips_iff` is the exact condition under which the gate keeps its
promise, and `QuAPI.solve_misses_flip` is the smallest session in which it does not.
-/

namespace QuAPI

/-! ### Where quantifiers are flipped -/

/-- The flips after a call: a quantifier is flipped where the message differs from the
literal of the call. -/
def flipsAfter (s : QuapiSolver) (flips : List ℤ) (c : ApiCall) (e : Effect) : List ℤ :=
  match c with
  | .quantify lit =>
    if e.toSeed = [.quantifier lit] then flips else flips ++ [s.writtenQuantifierLiterals]
  | _ => flips

/-- A call of a session that keeps note of the flips. -/
def gateStep (allowMissing : Bool) (x : QuapiSolver × List ℤ) (c : ApiCall × Io) :
    Option (QuapiSolver × List ℤ) :=
  (x.1.call allowMissing c.1 c.2).map fun e => (e.solver, flipsAfter x.1 x.2 c.1 e)

/-- **What the gate knows**: the depth is the position of the last flip, the flips come
in increasing order, and outside of a solve the state is one that may be solved. -/
structure Gated (x : QuapiSolver × List ℤ) : Prop where
  depth : x.1.universalPrefixDepth = x.2.getLast?.getD (-1)
  le_depth : ∀ p ∈ x.2, p ≤ x.1.universalPrefixDepth
  lt_written : x.1.universalPrefixDepth < x.1.writtenQuantifierLiterals
  canSolve : x.1.canSolve

theorem gated_init {litcount clausecount maxassumptions : CInt}
    {regexes : Option ((List Char → Bool) × (List Char → Bool))} {s : QuapiSolver}
    (h : quapiInit litcount clausecount maxassumptions regexes = some s) : Gated (s, []) := by
  obtain ⟨-, clauses, -, rfl⟩ := quapiInit_cases h
  exact ⟨rfl, fun p hp => absurd hp List.not_mem_nil, neg_one_lt_zero, Or.inl rfl⟩

/-- A call that leaves the quantifiers alone. -/
theorem Gated.frame {s t : QuapiSolver} {flips : List ℤ} (h : Gated (s, flips))
    (hd : t.universalPrefixDepth = s.universalPrefixDepth)
    (hw : t.writtenQuantifierLiterals = s.writtenQuantifierLiterals) (hc : t.canSolve) :
    Gated (t, flips) :=
  ⟨hd.trans h.depth, fun p hp => (h.le_depth p hp).trans hd.ge, hd.trans_lt (hw ▸ h.lt_written),
    hc⟩

theorem Gated.quantify {s : QuapiSolver} {flips : List ℤ} {lit : Lit} {e : Effect}
    (h : Gated (s, flips)) (he : s.quapiQuantify lit = some e) :
    Gated (e.solver, flipsAfter s flips (.quantify lit) e) := by
  have hlt := h.lt_written
  rw [QuapiSolver.quapiQuantify] at he
  split at he
  case isFalse hs => exact absurd he (by simp)
  case isTrue hs =>
    obtain rfl := Option.some.inj he
    by_cases hflip : lit.val < 0 ∧ s.writtenQuantifierLiterals < s.header.prefixdepth.1
    · -- a flip: the depth is the position of this quantifier
      have hne : -lit ≠ lit := by
        intro hc
        have := congrArg Lit.val hc
        rw [Lit.val_neg] at this
        omega
      have hnz : -lit ≠ 0 := by
        intro hc
        rw [Lit.neg_eq_zero] at hc
        rw [hc] at hflip
        exact lt_irrefl _ hflip.1
      have hflip' : s.header.prefixdepth.1 > s.writtenQuantifierLiterals ∧ lit.val < 0 :=
        ⟨hflip.2, hflip.1⟩
      simp only [flipsAfter, QuapiSolver.sentQuantifier, if_pos hflip, if_pos hflip', if_pos hnz,
        List.cons.injEq, QuapiMsg.quantifier.injEq, and_true, if_neg hne]
      refine ⟨?_, ?_, ?_, Or.inl hs⟩
      · rw [List.getLast?_concat]
        rfl
      · intro p hp
        rcases List.mem_append.mp hp with hp | hp
        · exact (h.le_depth p hp).trans hlt.le
        · exact (List.mem_singleton.mp hp).le
      · exact lt_add_one _
    · have hflip' : ¬(s.header.prefixdepth.1 > s.writtenQuantifierLiterals ∧ lit.val < 0) :=
        fun hc => hflip ⟨hc.2, hc.1⟩
      simp only [flipsAfter, QuapiSolver.sentQuantifier, if_neg hflip, if_neg hflip', if_true]
      split
      · exact ⟨h.depth, h.le_depth, hlt.trans (lt_add_one _), h.canSolve⟩
      · exact h

/-- `make_solvable` leaves the quantifiers alone, and a state that may be solved. -/
theorem Gated.makeSolvable {s : QuapiSolver} {flips : List ℤ} (h : Gated (s, flips))
    (k : Handshake) : Gated ((s.makeSolvable k).2.1, flips) := by
  rcases s.makeSolvable_cases k with hm | hm | ⟨pid, hm⟩ <;> rw [hm]
  · exact h
  · exact h.frame rfl rfl (Or.inr (Or.inr rfl))
  · exact h.frame rfl rfl (Or.inr (Or.inr rfl))

theorem Gated.clearAssumptions {s : QuapiSolver} {flips : List ℤ} (h : Gated (s, flips)) :
    Gated (s.clearAssumptions, flips) := h.frame rfl rfl (Or.inr (Or.inl rfl))

theorem Gated.assume {s : QuapiSolver} {flips : List ℤ} {lit : Lit} {io : Io} {e : Effect}
    (h : Gated (s, flips)) (he : s.quapiAssume lit io = some e) : Gated (e.solver, flips) := by
  have hm := h.makeSolvable io.fork
  rcases QuapiSolver.quapiAssume_cases he with ⟨-, rfl⟩ | ⟨-, -, rfl⟩ |
    ⟨-, -, -, rfl⟩ | ⟨-, -, -, -, rfl⟩ | ⟨-, -, -, rfl⟩
  · exact h
  · exact h
  · exact hm
  · exact hm.frame rfl rfl (Or.inr (Or.inr rfl))
  · exact hm.frame rfl rfl (Or.inr (Or.inr rfl))

theorem Gated.solve {s : QuapiSolver} {flips : List ℤ} (h : Gated (s, flips))
    (allowMissing : Bool) (io : Io) : Gated ((s.quapiSolve allowMissing io).solver, flips) := by
  have hm := h.makeSolvable io.fork
  rcases s.quapiSolve_cases allowMissing io with ⟨-, he⟩ | ⟨-, -, he⟩ | ⟨-, -, -, he⟩ |
    ⟨-, -, -, -, he⟩ <;> rw [he]
  · exact h
  · exact hm
  · exact hm.clearAssumptions
  · exact hm.clearAssumptions

/-- **Every call keeps what the gate knows.** -/
theorem gated_step {allowMissing : Bool} {x y : QuapiSolver × List ℤ} {c : ApiCall × Io}
    (he : gateStep allowMissing x c = some y) (h : Gated x) : Gated y := by
  obtain ⟨s, flips⟩ := x
  obtain ⟨c, io⟩ := c
  obtain ⟨e, hcall, rfl⟩ := Option.map_eq_some_iff.mp he
  cases c with
  | quantify lit => exact h.quantify hcall
  | add lit =>
    change s.quapiAdd lit = some e at hcall
    rw [QuapiSolver.quapiAdd] at hcall
    split at hcall
    · obtain rfl := Option.some.inj hcall
      simp only [flipsAfter]
      split <;> exact h.frame rfl rfl (Or.inr (Or.inl rfl))
    · exact absurd hcall (by simp)
  | assume lit => exact h.assume hcall
  | reset =>
    obtain rfl := Option.some.inj hcall
    simp only [flipsAfter, QuapiSolver.quapiResetAssumptions]
    split
    · exact h.clearAssumptions
    · exact h
  | solve =>
    obtain rfl := Option.some.inj hcall
    exact h.solve allowMissing io

/-! ### When the gate keeps its promise -/

/-- A solve that sends its SOLVE was not refused. -/
theorem not_refuses_of_solve_mem {s : QuapiSolver} {allowMissing : Bool} {io : Io}
    (h : .solve ∈ (s.quapiSolve allowMissing io).toChild) : ¬s.Refuses allowMissing := by
  intro hr
  rw [QuapiSolver.quapiSolve, if_pos hr] at h
  exact List.not_mem_nil h

/-- Where nothing fails, a solve that is not refused sends its SOLVE. -/
theorem solve_mem_of_not_refuses {s : QuapiSolver} {allowMissing : Bool} {pid : ℤ}
    (hs : s.canSolve) (hr : ¬s.Refuses allowMissing) :
    .solve ∈ (s.quapiSolve allowMissing (Io.ok pid)).toChild := by
  have hm : (s.makeSolvable (.forked pid)).1 = true ∧
      (s.makeSolvable (.forked pid)).2.1.canSolve := by
    by_cases hf : s.needsFork
    · rw [QuapiSolver.makeSolvable_of_needsFork hf]
      exact ⟨rfl, Or.inr (Or.inr rfl)⟩
    · rw [QuapiSolver.makeSolvable_of_not hf]
      exact ⟨rfl, hs⟩
  rcases s.quapiSolve_cases allowMissing (Io.ok pid) with ⟨hc, -⟩ | ⟨-, hc, -⟩ |
    ⟨-, -, hc, -⟩ | ⟨-, -, -, -, he⟩
  · exact absurd hc hr
  · exact absurd (hc.symm.trans hm.1) Bool.false_ne_true
  · exact absurd ⟨hm.2, one_le_two⟩ hc
  · rw [he]
    exact List.mem_singleton_self _

/-- **The exact reach of the gate.** In every session, a SOLVE is sent only with a value
for every flipped quantifier if and only if the number of assumptions is not exactly the
position of the last one. -/
theorem solve_covers_flips_iff {litcount clausecount maxassumptions : CInt}
    {regexes : Option ((List Char → Bool) × (List Char → Bool))} {allowMissing : Bool}
    {s₀ s : QuapiSolver} {flips : List ℤ} {calls : List (ApiCall × Io)}
    (hinit : quapiInit litcount clausecount maxassumptions regexes = some s₀)
    (hrun : Machine.run (gateStep allowMissing) (s₀, []) calls = some (s, flips)) :
    (∀ io : Io, .solve ∈ (s.quapiSolve false io).toChild →
        ∀ p ∈ flips, 1 + p ≤ s.writtenAssumptions) ↔
      ∀ p, flips.getLast? = some p → s.writtenAssumptions ≠ p := by
  have h : Gated (s, flips) :=
    Machine.invariant (fun _ _ _ hstep hg => gated_step hstep hg) hrun (gated_init hinit)
  constructor
  · rintro hall p hlast heq
    have hdepth : s.universalPrefixDepth = p := by
      have hd := h.depth
      rwa [hlast, Option.getD_some] at hd
    have hr : ¬s.Refuses false := fun hc => by
      have := hc.1
      omega
    have hle := hall (Io.ok 0) (solve_mem_of_not_refuses h.canSolve hr) p
      (List.mem_of_getLast? hlast)
    omega
  · intro hne io hmem p hp
    have hr := not_refuses_of_solve_mem hmem
    have hge : s.universalPrefixDepth ≤ s.writtenAssumptions := by
      by_contra hc
      exact hr ⟨not_le.mp hc, rfl⟩
    have hpd := h.le_depth p hp
    obtain ⟨q, hq⟩ : ∃ q, flips.getLast? = some q :=
      Option.isSome_iff_exists.mp (List.getLast?_isSome.mpr (List.ne_nil_of_mem hp))
    have hdepth : s.universalPrefixDepth = q := by
      have hd := h.depth
      rwa [hq, Option.getD_some] at hd
    have hneq := hne q hq
    simp only at hpd
    omega

/-- The library after `quapi_init` for one variable, one clause and one assumption. -/
def universalStart : QuapiSolver where
  header := ⟨.of 1, .of 2, .of 1⟩
  regexes := none
  stdoutCb := none
  state := .input
  universalPrefixDepth := -1
  writtenClauses := 0
  writtenAssumptions := 0
  writtenQuantifierLiterals := 0
  solverchildPid := none

/-- The prefix `∀x₁` and the clause `x₁`. -/
def universalCalls : List (ApiCall × Io) :=
  [(.quantify (lit (-1)), Io.ok 1), (.add (lit 1), Io.ok 1), (.add (lit 0), Io.ok 1)]

/-- The library after `QuAPI.universalCalls`. -/
def universalEnd : QuapiSolver :=
  { universalStart with
    state := .inputLiterals
    universalPrefixDepth := 0
    writtenClauses := 1
    writtenQuantifierLiterals := 1 }

theorem universal_init :
    quapiInit ⟨1, by decide⟩ ⟨1, by decide⟩ ⟨1, by decide⟩ none = some universalStart := rfl

theorem universal_run : Machine.run (gateStep false) (universalStart, []) universalCalls =
    some (universalEnd, [0]) := rfl

/-- The condition of `QuAPI.solve_covers_flips_iff` fails in that session: with nothing
assumed, it is at the position of its only flip. -/
theorem universal_covers_iff :
    (∀ io : Io, .solve ∈ (universalEnd.quapiSolve false io).toChild →
        ∀ p ∈ [(0 : ℤ)], 1 + p ≤ universalEnd.writtenAssumptions) ↔
      ∀ p, [(0 : ℤ)].getLast? = some p → universalEnd.writtenAssumptions ≠ p :=
  solve_covers_flips_iff universal_init universal_run

/-- **The gate is one assumption short**: with nothing assumed, the solve of that session
sends its SOLVE, although the quantifier at position 0 was turned into an existential one. -/
theorem solve_misses_flip :
    quapiInit ⟨1, by decide⟩ ⟨1, by decide⟩ ⟨1, by decide⟩ none = some universalStart ∧
      Machine.run (gateStep false) (universalStart, []) universalCalls =
        some (universalEnd, [0]) ∧
      .solve ∈ (universalEnd.quapiSolve false (Io.ok 2)).toChild ∧
      ¬∀ p ∈ [(0 : ℤ)], 1 + p ≤ universalEnd.writtenAssumptions :=
  ⟨rfl, rfl, by decide, by decide⟩

end QuAPI
