import QuAPI.Children
import QuAPI.Quapify.Formula
import QuAPI.Quapify.Main

/-!
# quapify as a session

`main` of quapify calls the library: in the second pass for the quantifiers and the clauses of
the file, and then for each cube. Where nothing fails and it runs to its end, these calls are a
session (`QuAPI.Session`), and `QuAPI.Quapify.quapify_session` says which one: the clauses of the
file, and one round for each cube that is to be solved, with the literals of the cube as its
accepted assumptions.

`quapi_solve` refuses a cube that is shorter than the position of the last universal quantifier
that is turned, and a refused solve leaves its assumptions to the next cube
(`QuAPI.Quapify.carried`); where no cube is so short, the rounds are the cubes
(`QuAPI.Quapify.carried_eq`).
-/

namespace QuAPI

namespace Quapify

/-! ### The calls of the second pass -/

/-- The call that a callback makes. -/
def Makes : Callback → ApiCall → Prop
  | .addQuantifier i, c => ∃ l, lit? i = some l ∧ c = .quantify l
  | .addLit i, c => ∃ l, lit? i = some l ∧ c = .add l

/-- The calls of the library succeed. -/
def working (env : Env) : Setting := ⟨env.allowMissing, fun a => Io.ok (env.pid a.toSeed)⟩

theorem lit?_val (l : Lit) : lit? l.val = some l := by
  rw [lit?, dif_pos ⟨l.2, l.3⟩]

theorem makes_quantifiers {qs : List Lit} (hq : ∀ q ∈ qs, q ≠ 0) :
    List.Forall₂ Makes (prefixCallbacks qs) (qs.map .quantify) := by
  have hfilter : qs.filter (· ≠ 0) = qs :=
    List.filter_eq_self.mpr fun q h => decide_eq_true (hq q h)
  rw [prefixCallbacks, hfilter, List.forall₂_map_left_iff, List.forall₂_map_right_iff]
  exact List.forall₂_same.mpr fun q _ => ⟨q, lit?_val q, rfl⟩

theorem makes_clause (ls : List NzLit) :
    List.Forall₂ Makes (clauseCallbacks ls) (Api.clauseCalls ls) := by
  refine List.rel_append ?_ (.cons ⟨0, lit?_val 0, rfl⟩ .nil)
  rw [List.forall₂_map_left_iff, List.forall₂_map_right_iff]
  exact List.forall₂_same.mpr fun l _ => ⟨l.1, lit?_val l.1, rfl⟩

theorem makes_clauses (clauses : List (List NzLit)) : List.Forall₂ Makes
    (clauses.flatMap clauseCallbacks) ((clauses.map Command.clause).flatMap Command.calls) := by
  induction clauses with
  | nil => exact .nil
  | cons ls clauses ih =>
    rw [List.flatMap_cons, List.map_cons, List.flatMap_cons]
    exact List.rel_append (makes_clause ls) ih

namespace Main

variable {env : Env} {m m' : Main} {c : ApiCall} {cb : Callback}

/-- Where the program has ended, it stays ended. -/
theorem status_callback (h : (m.callback (working env) cb).status = .running) :
    m.status = .running := by
  by_contra hne
  rw [callback_of_ne hne] at h
  exact hne h

/-- **A callback makes its call**, or ends the program. -/
theorem callback_makes (hc : Makes cb c)
    (hrun : (m.callback (working env) cb).status = .running) :
    ∃ b, m.callback (working env) cb = { m with api := b } ∧ m.api.calls env [c] = some b := by
  have hm := status_callback hrun
  have hperform : m.callback (working env) cb = m.perform (working env) c := by
    cases cb with
    | addQuantifier i =>
      obtain ⟨l, hl, rfl⟩ := hc
      exact callback_addQuantifier hm hl
    | addLit i =>
      obtain ⟨l, hl, rfl⟩ := hc
      exact callback_addLit hm hl
  rw [hperform] at hrun ⊢
  cases hcall : (working env).call m.api c with
  | none =>
    rw [perform, hcall] at hrun
    exact Status.noConfusion hrun
  | some y =>
    obtain ⟨r, b⟩ := y
    exact ⟨b, by rw [perform, hcall], calls_singleton.mpr ⟨r, hcall⟩⟩

theorem status_foldl {cbs : List Callback}
    (h : (cbs.foldl (callback (working env)) m).status = .running) : m.status = .running := by
  induction cbs generalizing m with
  | nil => exact h
  | cons cb cbs ih => exact status_callback (ih h)

/-- **The second pass makes its calls**, if it comes to its end. -/
theorem secondPass_calls {cbs : List Callback} {cs : List ApiCall}
    (hcs : List.Forall₂ Makes cbs cs)
    (hrun : (cbs.foldl (callback (working env)) m).status = .running) :
    ∃ b, cbs.foldl (callback (working env)) m = { m with api := b } ∧
      m.api.calls env cs = some b := by
  induction hcs generalizing m with
  | nil => exact ⟨m.api, rfl, rfl⟩
  | cons hc _ ih =>
    rw [List.foldl_cons] at hrun ⊢
    obtain ⟨b, hsame, hcall⟩ := callback_makes hc (status_foldl hrun)
    rw [hsame] at hrun ⊢
    obtain ⟨b', hrest, hcalls⟩ := ih hrun
    refine ⟨b', hrest, ?_⟩
    obtain ⟨u, hu, hnil⟩ := Machine.run_cons.mp hcall
    obtain rfl := Option.some.inj hnil
    exact Machine.run_cons.mpr ⟨_, hu, hcalls⟩

end Main

/-! ### The last quantifier that is turned -/

/-- The position of the last universal quantifier that is turned, `w` quantifiers having been
written before: the gate of `quapi_solve` asks for as many assumptions. -/
def lastTurned (k : ℤ) : ℤ → ℤ → List NzLit → ℤ
  | _, d, [] => d
  | w, d, q :: qs => lastTurned k (w + 1) (if q.1.val < 0 ∧ w < k then w else d) qs

/-- **A number is at least the last position** if and only if it is at least each of them. -/
theorem lastTurned_le_iff {k w d n : ℤ} {qs : List NzLit} (hd : d < w) :
    lastTurned k w d qs ≤ n ↔ d ≤ n ∧
      ∀ (i : ℕ) (hi : i < qs.length), qs[i].1.val < 0 → w + i < k → w + i ≤ n := by
  induction qs generalizing w d with
  | nil => exact ⟨fun h => ⟨h, fun i hi => absurd hi (Nat.not_lt_zero i)⟩, fun h => h.1⟩
  | cons q qs ih =>
    have hd' : (if q.1.val < 0 ∧ w < k then w else d) < w + 1 := by
      split <;> omega
    have htail : (∀ (i : ℕ) (hi : i < qs.length), qs[i].1.val < 0 → w + 1 + i < k → w + 1 + i ≤ n) ↔
        ∀ (i : ℕ) (hi : i + 1 < (q :: qs).length), (q :: qs)[i + 1].1.val < 0 →
          w + (i + 1 : ℕ) < k → w + (i + 1 : ℕ) ≤ n := by
      refine forall_congr' fun i => ?_
      rw [Nat.cast_add, Nat.cast_one, add_comm (i : ℤ) 1, ← add_assoc]
      exact ⟨fun h hi => h (Nat.lt_of_succ_lt_succ hi), fun h hi => h (Nat.succ_lt_succ hi)⟩
    rw [lastTurned, ih hd', htail]
    constructor
    · rintro ⟨hle, hall⟩
      refine ⟨?_, ?_⟩
      · split at hle <;> omega
      · intro i hi hneg hk
        cases i with
        | zero =>
          rw [Nat.cast_zero, add_zero] at hk ⊢
          rwa [if_pos ⟨hneg, hk⟩] at hle
        | succ i => exact hall i hi hneg hk
    · rintro ⟨hle, hall⟩
      refine ⟨?_, fun i hi => hall (i + 1) hi⟩
      split
      case isTrue h =>
        have := hall 0 (Nat.zero_lt_succ _) h.1
        rw [Nat.cast_zero, add_zero] at this
        exact this h.2
      case isFalse => exact hle

/-- **The depth behind the prefix.** -/
theorem depth_of_calls {env : Env} {a b : Api} {qs : List NzLit}
    (h : a.calls env ((qs.map Subtype.val).map .quantify) = some b) :
    b.solver.universalPrefixDepth = lastTurned a.solver.header.prefixdepth.1
      a.solver.writtenQuantifierLiterals a.solver.universalPrefixDepth qs := by
  induction qs generalizing a with
  | nil => rw [← Option.some.inj h, lastTurned]
  | cons q qs ih =>
    obtain ⟨u, hu, hr⟩ := Machine.run_cons.mp h
    obtain ⟨⟨y, a'⟩, hcall, rfl⟩ := Option.map_eq_some_iff.mp hu
    obtain ⟨e, he, hb⟩ := Option.map_eq_some_iff.mp hcall
    obtain ⟨-, rfl⟩ := Prod.mk.inj hb
    have hs := (Api.call_quantify hcall).1
    change a.solver.quapiQuantify q.1 = some e at he
    rw [QuapiSolver.quapiQuantify_of_input hs] at he
    obtain rfl := Option.some.inj he
    have hne : a.solver.sentQuantifier q.1 ≠ 0 := mt a.solver.sentQuantifier_eq_zero.mp q.2
    rw [ih hr, lastTurned]
    simp only [if_pos hne]

/-! ### Cubes -/

/-- The numbers of literals. -/
def vals (c : List NzLit) : List ℤ := c.map fun l => l.1.val

/-- The cubes as `add_to_assumptions` stores them, each with a zero behind it. -/
def stored (cubes : List (List NzLit)) : List ℤ := cubes.flatMap fun c => vals c ++ [0]

/-- The cube with this index is to be solved. -/
def Selects (selected : ℤ) (id : ℕ) : Prop := selected = -1 ∨ 0 ≤ selected ∧ (id : ℤ) = selected

instance (selected : ℤ) (id : ℕ) : Decidable (Selects selected id) :=
  inferInstanceAs (Decidable (_ ∨ _))

/-- The cubes that are to be solved, where `id` cubes come before. -/
def chosen (selected : ℤ) : ℕ → List (List NzLit) → List (List NzLit)
  | _, [] => []
  | id, c :: cubes =>
    if Selects selected id then c :: chosen selected (id + 1) cubes
    else chosen selected (id + 1) cubes

/-- The commands of a cube. -/
def cubeCommands (c : List NzLit) : List Command := c.map (fun l => .assume l.1) ++ [.solve]

/-- **The assumptions of the rounds** that come of cubes, and those that have no round: where a
solve is refused, there is none, and what has been assumed stays for the next cube. -/
def carried (allowMissing : Bool) (depth : ℤ) :
    List NzLit → List (List NzLit) → List (List NzLit) × List NzLit
  | p, [] => ([], p)
  | p, c :: cubes =>
    if ((p ++ c).length : ℤ) < depth ∧ allowMissing = false then
      carried allowMissing depth (p ++ c) cubes
    else ((p ++ c) :: (carried allowMissing depth [] cubes).1,
      (carried allowMissing depth [] cubes).2)

/-- Cubes that are long enough are rounds of their own. -/
theorem carried_eq {allowMissing : Bool} {depth : ℤ} {cubes : List (List NzLit)}
    (h : ∀ c ∈ cubes, allowMissing = true ∨ depth ≤ c.length) :
    carried allowMissing depth [] cubes = (cubes, []) := by
  induction cubes with
  | nil => rfl
  | cons c cubes ih =>
    rw [carried, List.nil_append, if_neg, ih fun c hc => h c (List.mem_cons_of_mem _ hc)]
    rintro ⟨hlt, hfalse⟩
    rcases h c List.mem_cons_self with htrue | hle
    · exact Bool.false_ne_true (hfalse.symm.trans htrue)
    · exact not_lt.mpr hle hlt

/-- All cubes. -/
theorem chosen_all (id : ℕ) (cubes : List (List NzLit)) : chosen (-1) id cubes = cubes := by
  induction cubes generalizing id with
  | nil => rfl
  | cons c cubes ih =>
    have hselects : Selects (-1) id := Or.inl rfl
    rw [chosen, if_pos hselects, ih]

/-- One cube, or none where there are not so many. -/
theorem chosen_one (k id : ℕ) (cubes : List (List NzLit)) :
    chosen (id + k : ℕ) id cubes = (cubes[k]?).toList := by
  induction cubes generalizing k id with
  | nil => rfl
  | cons c cubes ih =>
    have hselects : Selects (id + k : ℕ) id ↔ k = 0 := by
      rw [Selects]
      omega
    rw [chosen]
    cases k with
    | zero =>
      have hrest : ∀ n, id < n → chosen (id + 0 : ℕ) n cubes = [] := by
        clear ih hselects
        induction cubes with
        | nil => exact fun _ _ => rfl
        | cons c cubes ih =>
          intro n hn
          rw [chosen, if_neg, ih (n + 1) (by omega)]
          rw [Selects]
          omega
      rw [if_pos (hselects.mpr rfl), hrest (id + 1) (Nat.lt_succ_self id)]
      rfl
    | succ k =>
      have hswap : id + (k + 1) = id + 1 + k := by omega
      rw [if_neg (mt hselects.mp (Nat.succ_ne_zero k)), hswap, ih]
      rfl

theorem mem_of_chosen {selected : ℤ} {id : ℕ} {cubes : List (List NzLit)} {c : List NzLit}
    (h : c ∈ chosen selected id cubes) : c ∈ cubes := by
  induction cubes generalizing id with
  | nil => exact absurd h List.not_mem_nil
  | cons d cubes ih =>
    rw [chosen] at h
    split at h
    · rcases List.mem_cons.mp h with rfl | h
      · exact List.mem_cons_self
      · exact List.mem_cons_of_mem _ (ih h)
    · exact List.mem_cons_of_mem _ (ih h)

namespace Main

variable {env : Env} {m : Main} {x y : Session} {selected : ℤ} {l : NzLit} {c : List NzLit}
  {cubes : List (List NzLit)}

/-! ### The loop over the cubes -/

/-- Where the program has ended, no turn does anything. -/
theorem assumption_of_ne (h : m.status ≠ .running) (ass : ℤ) :
    m.assumption (working env) selected ass = m := by
  rw [assumption, if_pos h]

theorem status_assumptions {as : List ℤ}
    (h : (as.foldl (assumption (working env) selected) m).status = .running) :
    m.status = .running := by
  induction as generalizing m with
  | nil => exact h
  | cons a as ih =>
    by_contra hne
    have hm := ih h
    rw [assumption_of_ne hne] at hm
    exact hne hm

/-- A literal of a cube that is not to be solved. -/
theorem assumption_skip (hskip : ¬Selects selected m.assumptionId) (l : NzLit) :
    m.assumption (working env) selected l.1.val = m := by
  have hl : l.1.val ≠ 0 := mt Lit.val_eq_zero.mp l.2
  rw [assumption]
  split
  · rfl
  · simp only [if_pos hl]
    exact if_neg hskip

/-- **A literal of a cube** is an assumption that the library accepts, or the program ends. -/
theorem assumption_assume (hselects : Selects selected m.assumptionId) (hapi : x.api = m.api)
    (hrun : (m.assumption (working env) selected l.1.val).status = .running) :
    l.1.val.natAbs ≤ m.scan.varcount ∧ ∃ b,
      m.assumption (working env) selected l.1.val =
        { m with api := b, assumed := m.assumed ++ [l.1.val] } ∧
      x.step env (.assume l.1) =
        some { x with api := b, accepted := x.accepted ++ [l], tried := x.tried + 1 } := by
  have hl : l.1.val ≠ 0 := mt Lit.val_eq_zero.mp l.2
  have hsel : selected = -1 ∨ 0 ≤ selected ∧ (m.assumptionId : ℤ) = selected := hselects
  have hm : m.status = .running := by
    by_contra hne
    rw [assumption_of_ne hne] at hrun
    exact hne hrun
  rw [assumption, if_neg (not_not.mpr hm)] at hrun ⊢
  simp only [if_pos hl, if_pos hsel, lit?_val] at hrun ⊢
  split at hrun
  case isTrue => exact Status.noConfusion hrun
  case isFalse hle =>
    refine ⟨not_lt.mp hle, ?_⟩
    rw [if_neg hle]
    split at hrun
    case h_1 => exact Status.noConfusion hrun
    case h_3 => exact Status.noConfusion hrun
    case h_2 b hcall =>
      have hstep : x.api.call env (.assume l.1) = some (true, b) := by
        rw [hapi]
        exact hcall
      refine ⟨b, rfl, ?_⟩
      rw [Session.step, hstep, Option.map_some, dif_neg l.2]
      rfl

/-- **The literals of a cube** are its assumptions. -/
theorem assumptions_assume (hselects : Selects selected m.assumptionId) (hapi : x.api = m.api)
    (hrun : ((vals c).foldl (assumption (working env) selected) m).status =
      .running) :
    (∀ l ∈ c, l.1.val.natAbs ≤ m.scan.varcount) ∧ ∃ b as,
      (vals c).foldl (assumption (working env) selected) m =
        { m with api := b, assumed := as } ∧
      Machine.run (Session.step env) x (c.map fun l => .assume l.1) =
        some { x with api := b, accepted := x.accepted ++ c, tried := x.tried + c.length } := by
  induction c generalizing m x with
  | nil =>
    refine ⟨List.forall_mem_nil _, m.api, m.assumed, rfl, ?_⟩
    rw [List.append_nil, ← hapi]
    rfl
  | cons l c ih =>
    rw [vals, List.map_cons, List.foldl_cons] at hrun ⊢
    obtain ⟨hle, b, hm, hx⟩ := assumption_assume hselects hapi (status_assumptions hrun)
    rw [hm] at hrun ⊢
    obtain ⟨hall, b', as, hm', hx'⟩ := @ih { m with api := b, assumed := m.assumed ++ [l.1.val] }
      { x with api := b, accepted := x.accepted ++ [l], tried := x.tried + 1 } hselects rfl hrun
    refine ⟨List.forall_mem_cons.mpr ⟨hle, hall⟩, b', as, hm', ?_⟩
    refine Machine.run_cons.mpr ⟨_, hx, hx'.trans ?_⟩
    have hlength : x.tried + 1 + c.length = x.tried + (l :: c).length := by
      rw [List.length_cons]
      omega
    rw [hlength, List.append_assoc]
    rfl

/-- **The zero of a cube** is its solve, where the cube is to be solved. -/
theorem assumption_zero (hselects : Selects selected m.assumptionId) (hapi : x.api = m.api)
    (hrun : m.status = .running) : ∃ y, x.step env .solve = some y ∧
      m.assumption (working env) selected 0 =
        { m with api := y.api, assumptionId := m.assumptionId + 1 } := by
  have hsel : selected = -1 ∨ 0 ≤ selected ∧ (m.assumptionId : ℤ) = selected := hselects
  obtain ⟨r, b, hcall⟩ : ∃ r b, m.api.call env .solve = some (r, b) := ⟨_, _, rfl⟩
  obtain ⟨y, hy, rfl⟩ := Session.exists_step (c := .solve) (calls_singleton.mpr ⟨r, hapi ▸ hcall⟩)
  refine ⟨y, hy, ?_⟩
  have hperform : m.perform (working env) .solve = { m with api := y.api } := by
    rw [perform, show (working env).call m.api .solve = some (r, y.api) from hcall]
  rw [assumption, if_neg (not_not.mpr hrun)]
  simp only [ne_eq, not_true, if_false, if_pos hsel, hperform]

/-- A cube that is not to be solved. -/
theorem cube_skip (hskip : ¬Selects selected m.assumptionId) (hrun : m.status = .running) :
    (vals c ++ [0]).foldl (assumption (working env) selected) m =
      { m with assumptionId := m.assumptionId + 1 } := by
  induction c with
  | nil =>
    have hsel : ¬(selected = -1 ∨ 0 ≤ selected ∧ (m.assumptionId : ℤ) = selected) := hskip
    change m.assumption (working env) selected 0 = _
    rw [assumption, if_neg (not_not.mpr hrun)]
    simp only [ne_eq, not_true, if_false, if_neg hsel]
  | cons l c ih =>
    rw [vals, List.map_cons, List.cons_append, List.foldl_cons, assumption_skip hskip]
    exact ih

end Main

/-- No command changes the depth of the prefix, or the header. -/
theorem depth_of_step {env : Env} {x y : Session} {c : Command} (hx : x.Counted)
    (h : x.step env c = some y) :
    y.api.solver.universalPrefixDepth = x.api.solver.universalPrefixDepth := by
  have hforked : (x.api.forked env).solver.universalPrefixDepth =
      x.api.solver.universalPrefixDepth := by
    rw [Api.forked]
    split <;> rfl
  cases c with
  | clause ls =>
    obtain ⟨-, rfl⟩ := Session.step_clause h
    rfl
  | assume lit =>
    rcases Session.step_assume h with ⟨-, rfl⟩ | ⟨-, rfl, -⟩ | ⟨hlit, rfl, -⟩
    · rfl
    · rfl
    · exact hforked
  | reset =>
    obtain rfl := Session.step_reset h
    simp only []
    split <;> rfl
  | solve =>
    rcases Session.step_solve hx.canSolve h with ⟨-, rfl⟩ | ⟨-, rfl⟩
    · rfl
    · exact hforked

theorem depth_of_run {env : Env} {x y : Session} {cmds : List Command} (hx : x.Counted)
    (h : Machine.run (Session.step env) x cmds = some y) :
    y.api.solver.universalPrefixDepth = x.api.solver.universalPrefixDepth ∧ y.Counted :=
  Machine.invariant (I := fun y => y.api.solver.universalPrefixDepth =
      x.api.solver.universalPrefixDepth ∧ y.Counted)
    (fun _ _ _ hstep hz => ⟨(depth_of_step hz.2 hstep).trans hz.1, hz.2.step hstep⟩) h ⟨rfl, hx⟩

namespace Main

variable {env : Env} {m : Main} {x : Session} {selected : ℤ} {c : List NzLit}
  {cubes : List (List NzLit)}

/-- **A cube**: its solve is refused, and its assumptions stay, or it has a round. -/
theorem cube_run (hselects : Selects selected m.assumptionId) (hx : x.Counted)
    (hapi : x.api = m.api)
    (hrun : ((vals c ++ [0]).foldl (assumption (working env) selected) m).status =
      .running) :
    (∀ l ∈ c, l.1.val.natAbs ≤ m.scan.varcount) ∧ ∃ y as,
      (vals c ++ [0]).foldl (assumption (working env) selected) m =
        { m with api := y.api, assumed := as, assumptionId := m.assumptionId + 1 } ∧
      Machine.run (Session.step env) x (cubeCommands c) = some y ∧ y.clauses = x.clauses ∧
      if ((x.accepted ++ c).length : ℤ) < x.api.solver.universalPrefixDepth ∧
          env.allowMissing = false then
        y.accepted = x.accepted ++ c ∧ y.rounds = x.rounds
      else y.accepted = [] ∧ ∃ ρ, y.rounds = x.rounds ++ [ρ] ∧ ρ.clauses = x.clauses ∧
        ρ.accepted = x.accepted ++ c := by
  rw [List.foldl_append] at hrun ⊢
  obtain ⟨hall, b, as, hm, hassumed⟩ := assumptions_assume hselects hapi (status_assumptions hrun)
  rw [hm] at hrun ⊢
  let z : Session := ⟨b, x.clauses, x.accepted ++ c, x.tried + c.length, x.rounds⟩
  obtain ⟨hdepth, hz⟩ := depth_of_run hx (y := z) hassumed
  obtain ⟨y, hy, hzero⟩ := assumption_zero (x := z)
    (m := { m with api := b, assumed := as }) hselects rfl (status_assumptions hrun)
  have hrefuses : z.api.solver.Refuses env.allowMissing ↔
      ((x.accepted ++ c).length : ℤ) < x.api.solver.universalPrefixDepth ∧
        env.allowMissing = false := by
    rw [QuapiSolver.Refuses, hz.assumptions, hdepth]
  refine ⟨hall, y, as, hzero, ?_, ?_⟩
  · exact Machine.run_append_some.mpr ⟨z, hassumed, Machine.run_cons.mpr ⟨y, hy, rfl⟩⟩
  · rcases Session.step_solve hz.canSolve hy with ⟨hrefused, rfl⟩ | ⟨hmade, rfl⟩
    · rw [if_pos (hrefuses.mp hrefused)]
      exact ⟨rfl, rfl, rfl⟩
    · rw [if_neg (mt hrefuses.mpr hmade)]
      exact ⟨rfl, rfl, _, rfl, rfl, rfl⟩

/-- **The loop over the cubes** is a session, one round after the other. -/
theorem cubes_run (hx : x.Counted) (hapi : x.api = m.api)
    (hrun : ((stored cubes).foldl (assumption (working env) selected) m).status = .running) :
    (∀ c ∈ chosen selected m.assumptionId cubes, ∀ l ∈ c, l.1.val.natAbs ≤ m.scan.varcount) ∧
      ((stored cubes).foldl (assumption (working env) selected) m).scan = m.scan ∧
      ∃ y, Machine.run (Session.step env) x
          ((chosen selected m.assumptionId cubes).flatMap cubeCommands) = some y ∧
        y.api = ((stored cubes).foldl (assumption (working env) selected) m).api ∧
        ∃ rounds, y.rounds = x.rounds ++ rounds ∧ (∀ ρ ∈ rounds, ρ.clauses = x.clauses) ∧
          (rounds.map Round.accepted, y.accepted) = carried env.allowMissing
            x.api.solver.universalPrefixDepth x.accepted
              (chosen selected m.assumptionId cubes) := by
  induction cubes generalizing m x with
  | nil => exact ⟨List.forall_mem_nil _, rfl, x, rfl, hapi, [], (List.append_nil _).symm,
      List.forall_mem_nil _, rfl⟩
  | cons c cubes ih =>
    rw [stored, List.flatMap_cons, List.foldl_append] at hrun ⊢
    by_cases hselects : Selects selected m.assumptionId
    case neg =>
      have hm : m.status = .running := status_assumptions (status_assumptions hrun)
      rw [cube_skip hselects hm] at hrun ⊢
      rw [chosen, if_neg hselects]
      exact @ih { m with assumptionId := m.assumptionId + 1 } x hx hapi hrun
    case pos =>
      obtain ⟨hall, z, as, hm, hz, hclauses, hcase⟩ :=
        cube_run hselects hx hapi (status_assumptions hrun)
      rw [hm] at hrun ⊢
      obtain ⟨hdepth, hcounted⟩ := depth_of_run hx hz
      obtain ⟨hrest, hscan, y, hy, hyapi, rounds, hrounds, hsame, hcarried⟩ :=
        @ih { m with api := z.api, assumed := as, assumptionId := m.assumptionId + 1 } z
          hcounted rfl hrun
      rw [chosen, if_pos hselects, List.flatMap_cons, carried]
      rw [hdepth] at hcarried
      refine ⟨List.forall_mem_cons.mpr ⟨hall, hrest⟩, hscan, y,
        Machine.run_append_some.mpr ⟨z, hz, hy⟩, hyapi, ?_⟩
      rw [hclauses] at hsame
      split at hcase
      case isTrue hrefused =>
        obtain ⟨haccepted, hnone⟩ := hcase
        rw [if_pos hrefused, ← haccepted]
        exact ⟨rounds, by rw [hrounds, hnone], hsame, hcarried⟩
      case isFalse hmade =>
        obtain ⟨haccepted, ρ, hone, hρc, hρ⟩ := hcase
        rw [haccepted] at hcarried
        rw [if_neg hmade, ← hρ, ← hcarried]
        refine ⟨ρ :: rounds, ?_, List.forall_mem_cons.mpr ⟨hρc, hsame⟩, rfl⟩
        rw [hrounds, hone, List.append_assoc, List.singleton_append]

end Main

/-! ### The cubes of a configuration -/

/-- The length of the longest cube. -/
def width (cubes : List (List NzLit)) : ℕ := (cubes.map List.length).foldr max 0

theorem width_append (cubes more : List (List NzLit)) :
    width (cubes ++ more) = max (width cubes) (width more) := by
  induction cubes with
  | nil => exact (Nat.zero_max _).symm
  | cons c cubes ih =>
    change max c.length (width (cubes ++ more)) = _
    rw [ih, ← max_assoc]
    rfl

theorem width_le_iff {cubes : List (List NzLit)} {n : ℕ} :
    width cubes ≤ n ↔ ∀ c ∈ cubes, c.length ≤ n := by
  induction cubes with
  | nil => exact ⟨fun _ => List.forall_mem_nil _, fun _ => Nat.zero_le n⟩
  | cons c cubes ih =>
    rw [List.forall_mem_cons, ← ih]
    exact max_le_iff

theorem length_le_width {cubes : List (List NzLit)} {c : List NzLit} (h : c ∈ cubes) :
    c.length ≤ width cubes := width_le_iff.mp le_rfl c h

/-- **A configuration has these cubes**, and every cube is closed. -/
structure Config.HasCubes (cfg : Config) (cubes : List (List NzLit)) : Prop where
  assumptions : cfg.assumptions = stored cubes
  size : cfg.assumptionsMaxAssumptionSize = width cubes
  closed : cfg.currentAssumptionSize = 0

theorem vals_ne_zero (c : List NzLit) : ∀ l ∈ vals c, l ≠ 0 :=
  List.forall_mem_map.mpr fun l _ => mt Lit.val_eq_zero.mp l.2

/-- One more cube. -/
theorem Config.HasCubes.addCube {cfg : Config} {cubes : List (List NzLit)}
    (h : cfg.HasCubes cubes) (c : List NzLit) : (cfg.addCube (vals c)).HasCubes (cubes ++ [c]) := by
  refine ⟨?_, ?_, rfl⟩
  · change cfg.assumptions ++ (vals c ++ [0]) = _
    rw [h.assumptions, stored, stored, List.flatMap_append, List.flatMap_singleton]
  · change max cfg.assumptionsMaxAssumptionSize (cfg.currentAssumptionSize + (vals c).length) = _
    rw [h.size, h.closed, width_append, Nat.zero_add, vals, List.length_map]
    exact congrArg _ (Nat.max_zero _).symm

/-- **A cube of the command line**, closed by a zero. -/
theorem Config.HasCubes.add {cfg : Config} {cubes : List (List NzLit)} (h : cfg.HasCubes cubes)
    (c : List NzLit) :
    ((vals c ++ [0]).foldl Config.addToAssumptions cfg).HasCubes (cubes ++ [c]) := by
  rw [foldl_addToAssumptions (vals_ne_zero c)]
  exact h.addCube c

/-- The quantifier with the sign of a bit. -/
def signed (b : Bool) (q : NzLit) : NzLit :=
  if decide (0 < q.1.val) = b then q else ⟨-q.1, mt Lit.neg_eq_zero.mp q.2⟩

theorem val_signed (b : Bool) (q : NzLit) : (signed b q).1.val = bitLiteral b q := by
  have hq := q.val_ne_zero
  have hneg : (-q.1).val = -q.1.val := Lit.val_neg q.1
  rcases lt_or_gt_of_ne hq with hlt | hlt <;> cases b <;>
    simp [signed, bitLiteral, hlt, not_lt.mpr hlt.le, hneg, abs_of_neg, abs_of_pos]

theorem var_signed (b : Bool) (q : NzLit) : (signed b q).1.var = q.1.var := by
  rw [signed]
  split
  · rfl
  · exact Lit.var_neg q.1

/-- The cube of a tuple, in literals. -/
def splitCube (intsplits : List Intsplit) (qs : List NzLit) (vs : List ℕ) : List NzLit :=
  List.zipWith signed (tupleBits intsplits vs) qs

theorem vals_splitCube (intsplits : List Intsplit) (qs : List NzLit) (vs : List ℕ) :
    vals (splitCube intsplits qs vs) = cube intsplits qs vs := by
  rw [vals, splitCube, cube, List.map_zipWith]
  exact congrArg (fun f => List.zipWith f _ _) (funext₂ val_signed)

/-- **The cubes of the splits**, in lexicographic order of the tuples. -/
def splitCubes (intsplits : List Intsplit) (qs : List NzLit) : List (List NzLit) :=
  if intsplits = [] then []
  else (MixedRadix.tuples (intsplits.map Intsplit.radix)).map (splitCube intsplits qs)

theorem map_vals_splitCubes {intsplits : List Intsplit} (hne : intsplits ≠ []) (qs : List NzLit) :
    (splitCubes intsplits qs).map vals = allCubes intsplits qs := by
  rw [splitCubes, if_neg hne, allCubes, List.map_map]
  exact List.map_congr_left fun vs _ => vals_splitCube intsplits qs vs

theorem stored_eq (cubes : List (List NzLit)) :
    stored cubes = (cubes.map vals).flatMap (· ++ [0]) := by
  rw [stored, List.flatMap_map]

/-- All cubes of the splits are as long as the splits together. -/
theorem length_of_mem_splitCubes {intsplits : List Intsplit} {qs : List NzLit}
    (hlen : summedLength intsplits ≤ qs.length) {c : List NzLit}
    (h : c ∈ splitCubes intsplits qs) : c.length = summedLength intsplits := by
  by_cases hne : intsplits = []
  · rw [splitCubes, if_pos hne] at h
    exact absurd h List.not_mem_nil
  · have hmem : vals c ∈ allCubes intsplits qs :=
      map_vals_splitCubes hne qs ▸ List.mem_map_of_mem h
    exact (List.length_map _).symm.trans (length_of_mem_allCubes hlen _ hmem)

/-- The splits are as wide as they are long. -/
theorem width_splitCubes {intsplits : List Intsplit} {qs : List NzLit} (hne : intsplits ≠ [])
    (hlen : summedLength intsplits ≤ qs.length) :
    width (splitCubes intsplits qs) = summedLength intsplits := by
  have hmany : 0 < (splitCubes intsplits qs).length := by
    have hlength := congrArg List.length (map_vals_splitCubes hne qs)
    rw [List.length_map, length_allCubes] at hlength
    exact hlength ▸ MixedRadix.prod_pos (radices_pos intsplits)
  obtain ⟨c, hc⟩ := List.exists_mem_of_length_pos hmany
  refine le_antisymm ?_ ?_
  · exact width_le_iff.mpr fun c hc => (length_of_mem_splitCubes hlen hc).le
  · exact (length_of_mem_splitCubes hlen hc).ge.trans (length_le_width hc)

/-- More fuel changes nothing. -/
theorem inflateLoop_succ {quantifiers : List NzLit} {fuel : ℕ} {state : List ℕ} {cfg : Config}
    {r : Bool × Config} (h : inflateLoop quantifiers fuel state cfg = some r) :
    inflateLoop quantifiers (fuel + 1) state cfg = some r := by
  induction fuel generalizing state cfg with
  | zero => exact absurd h (by simp [inflateLoop])
  | succ fuel ih =>
    rw [inflateLoop] at h ⊢
    split at h
    case h_2 => exact absurd h (by simp)
    case h_1 =>
      split at h
      case isFalse hend =>
        rw [if_neg hend]
        exact h
      case isTrue htest =>
        rw [if_pos htest]
        split at h
        case h_1 => exact h
        case h_2 =>
          obtain ⟨state', hcarry, hrest⟩ := Option.bind_eq_some_iff.mp h
          exact Option.bind_eq_some_iff.mpr ⟨state', hcarry, ih hrest⟩

theorem inflateLoop_mono {quantifiers : List NzLit} {fuel fuel' : ℕ} {state : List ℕ}
    {cfg : Config} {r : Bool × Config} (hle : fuel ≤ fuel')
    (h : inflateLoop quantifiers fuel state cfg = some r) :
    inflateLoop quantifiers fuel' state cfg = some r := by
  induction fuel', hle using Nat.le_induction with
  | base => exact h
  | succ fuel' _ ih => exact inflateLoop_succ ih

/-- **Between the passes**, the splits fit the prefix, or quapify ends. -/
theorem inflate_fits {fuel : ℕ} {scan : Scan} {cfg cfg' : Config} (hs : cfg.intsplits ≠ [])
    (h : inflate fuel scan cfg = some cfg') :
    summedLength cfg.intsplits ≤ scan.quantifiers.length ∧
      Unmixed cfg.intsplits scan.quantifiers := by
  by_contra hfits
  rw [inflate, if_neg hs] at h
  split at h
  case isTrue => exact absurd h (by simp)
  case isFalse hq =>
    split at h
    case h_2 => exact absurd h (by simp)
    case h_1 hrun =>
      -- the first cube cannot be built
      have hfails := inflateIntsplits_fails hq hs hfits fuel
      rw [Config.inflateIntsplits, if_neg (not_or.mpr ⟨hq, hs⟩)] at hrun hfails
      rw [inflateLoop_succ hrun] at hfails
      exact absurd (Prod.mk.inj (Option.some.inj hfails)).1.symm Bool.false_ne_true

/-- The cubes of the splits come behind those of the command line. -/
theorem inflate_hasCubes {fuel : ℕ} {scan : Scan} {cfg cfg' : Config} {given : List (List NzLit)}
    (hcfg : cfg.HasCubes given) (h : inflate fuel scan cfg = some cfg') :
    cfg'.HasCubes (given ++ splitCubes cfg.intsplits scan.quantifiers) ∧
      cfg'.selectedAssumption = cfg.selectedAssumption ∧
      (cfg.intsplits ≠ [] → summedLength cfg.intsplits ≤ scan.quantifiers.length) := by
  have hfits := fun hs => inflate_fits hs h
  rw [inflate] at h
  split at h
  case isTrue hnil =>
    obtain rfl := Option.some.inj h
    rw [splitCubes, if_pos hnil, List.append_nil]
    exact ⟨hcfg, rfl, fun hne => absurd hnil hne⟩
  case isFalse hs =>
    obtain ⟨hlen, hmixed⟩ := hfits hs
    split at h
    case isTrue => exact absurd h (by simp)
    case isFalse hq =>
      split at h
      case h_2 => exact absurd h (by simp)
      case h_1 hrun =>
        obtain rfl := Option.some.inj h
        have hfuel : (cfg.intsplits.map Intsplit.radix).prod <
            max fuel ((cfg.intsplits.map Intsplit.radix).prod + 1) :=
          lt_of_lt_of_le (Nat.lt_succ_self _) (le_max_right _ _)
        have heq := inflateIntsplits_eq hq hs hlen hmixed hfuel
        rw [Config.inflateIntsplits, if_neg (not_or.mpr ⟨hq, hs⟩)] at hrun heq
        rw [inflateLoop_mono (le_max_left _ _) hrun] at heq
        obtain ⟨-, rfl⟩ := Prod.mk.inj (Option.some.inj heq)
        refine ⟨⟨?_, ?_, rfl⟩, rfl, fun _ => hlen⟩
        · rw [stored, List.flatMap_append, ← stored, ← stored, stored_eq (splitCubes _ _),
            map_vals_splitCubes hs, hcfg.assumptions]
        · simp only [hcfg.size, hcfg.closed, width_append, Nat.zero_add]
          rw [width_splitCubes hs hlen]

/-! ### quapify is a session -/

/-- **The file is in order**: the parser reports a prefix and clauses that are closed, and
accepts it. -/
def Reported (strict : Strictness) (file : List Char) (qs : List NzLit)
    (clauses : List (List NzLit)) : Prop :=
  kissatParseDimacs strict file =
    (prefixCallbacks (qs.map Subtype.val) ++ clauses.flatMap clauseCallbacks, none)

/-- The commands for a formula and cubes. -/
def commandsOf (clauses cubes : List (List NzLit)) : List Command :=
  clauses.map .clause ++ cubes.flatMap cubeCommands

theorem scan_prefix (qs : List NzLit) (scan : Scan) :
    (prefixCallbacks (qs.map Subtype.val)).foldl Scan.callback scan =
      { scan with quantifiers := scan.quantifiers ++ qs } := by
  have hfilter : (qs.map Subtype.val).filter (· ≠ 0) = qs.map Subtype.val :=
    List.filter_eq_self.mpr fun q h => decide_eq_true (val_ne_zero qs q h)
  rw [prefixCallbacks, hfilter]
  induction qs generalizing scan with
  | nil => rw [List.append_nil]; rfl
  | cons q qs ih =>
    rw [List.map_cons, List.map_cons, List.foldl_cons, ih _ (List.filter_eq_self.mpr fun q h =>
      decide_eq_true (val_ne_zero qs q h)), Scan.callback, Scan.addQuantifier, lit?_val]
    simp only [dif_pos q.2, List.append_assoc]
    rfl

/-- The clauses are counted. -/
theorem scan_clauses (clauses : List (List NzLit)) (scan : Scan) :
    ((clauses.flatMap clauseCallbacks).foldl Scan.callback scan).clausecount =
        scan.clausecount + clauses.length ∧
      ((clauses.flatMap clauseCallbacks).foldl Scan.callback scan).quantifiers =
        scan.quantifiers := by
  have hclause : ∀ (ls : List NzLit) (scan : Scan),
      ((clauseCallbacks ls).foldl Scan.callback scan).clausecount = scan.clausecount + 1 ∧
        ((clauseCallbacks ls).foldl Scan.callback scan).quantifiers = scan.quantifiers := by
    intro ls
    induction ls with
    | nil => exact fun scan => ⟨rfl, rfl⟩
    | cons l ls ih =>
      intro scan
      rw [clauseCallbacks_cons, List.foldl_cons]
      have hl : l.1.val ≠ 0 := mt Lit.val_eq_zero.mp l.2
      have hadd : (scan.callback (.addLit l.1.val)).clausecount = scan.clausecount ∧
          (scan.callback (.addLit l.1.val)).quantifiers = scan.quantifiers := by
        rw [Scan.callback, Scan.addLit, if_neg hl]
        exact ⟨rfl, rfl⟩
      exact ⟨(ih _).1.trans (by rw [hadd.1]), (ih _).2.trans hadd.2⟩
  induction clauses generalizing scan with
  | nil => exact ⟨rfl, rfl⟩
  | cons ls clauses ih =>
    rw [List.flatMap_cons, List.foldl_append, List.length_cons]
    refine ⟨(ih _).1.trans ?_, (ih _).2.trans (hclause ls scan).2⟩
    rw [(hclause ls scan).1]
    omega

/-- The clauses of a session. -/
theorem clauses_run {env : Env} {x : Session} {b : Api} {clauses : List (List NzLit)}
    (h : x.api.calls env ((clauses.map Command.clause).flatMap Command.calls) = some b) :
    Machine.run (Session.step env) x (clauses.map .clause) =
      some { x with api := b, clauses := x.clauses ++ clauses } := by
  induction clauses generalizing x with
  | nil =>
    obtain rfl := Option.some.inj h
    rw [List.append_nil]
    rfl
  | cons ls clauses ih =>
    rw [List.map_cons, List.flatMap_cons] at h
    obtain ⟨u, hu, hr⟩ := Machine.run_append_some.mp h
    have hstep : x.step env (.clause ls) =
        some { x with api := u, clauses := x.clauses ++ [ls] } := by
      rw [Session.step, show x.api.calls env (Api.clauseCalls ls) = some u from hu]
      rfl
    refine Machine.run_cons.mpr ⟨_, hstep, ?_⟩
    rw [ih (x := { x with api := u, clauses := x.clauses ++ [ls] }) hr, List.append_assoc]
    rfl

section

variable {env : Env} {fuel : ℕ} {cfg : Config} {file : List Char} {m : Main}
  {given : List (List NzLit)} {qs : List NzLit} {clauses : List (List NzLit)} {scan : Scan}

/-- The cubes that quapify solves: those of the command line and of the splits, or one of them. -/
def cubesOf (cfg : Config) (given : List (List NzLit)) (qs : List NzLit) : List (List NzLit) :=
  chosen cfg.selectedAssumption 0 (given ++ splitCubes cfg.intsplits qs)

/-- How many assumptions quapify announces. -/
def announced (cfg : Config) (given : List (List NzLit)) (qs : List NzLit) : ℕ :=
  width (given ++ splitCubes cfg.intsplits qs)

/-- What is left of `main` where the file is accepted. -/
theorem quapify_cases {w : Setting} (hnone : (kissatParseDimacs cfg.strictness file).2 = none)
    (h : quapify w fuel cfg file = some m) :
    ∃ cfg' s, inflate fuel
        ((kissatParseDimacs cfg.strictness file).1.foldl Scan.callback Scan.init) cfg =
          some cfg' ∧
      quapiInit (CInt.ofSize ((kissatParseDimacs cfg.strictness file).1.foldl Scan.callback
          Scan.init).varcount)
        (CInt.ofSize ((kissatParseDimacs cfg.strictness file).1.foldl Scan.callback
          Scan.init).clausecount)
        (CInt.ofSize cfg'.assumptionsMaxAssumptionSize) none = some s ∧
      m = cfg'.assumptions.foldl (Main.assumption w cfg'.selectedAssumption)
        ((kissatParseDimacs cfg.strictness file).1.foldl (Main.callback w)
          ⟨(kissatParseDimacs cfg.strictness file).1.foldl Scan.callback Scan.init,
            Api.start s, [], 0, .running⟩) := by
  rw [quapify] at h
  simp only [hnone, Option.isSome_none, Bool.false_eq_true, if_false] at h
  obtain ⟨cfg', hinflate, h⟩ := Option.bind_eq_some_iff.mp h
  split at h
  case isTrue => exact absurd h (by simp)
  case isFalse =>
    obtain ⟨s, hinit, rfl⟩ := Option.map_eq_some_iff.mp h
    refine ⟨cfg', s, hinflate, hinit, ?_⟩
    simp only [strictness_inflate hinflate, hnone, Option.isSome_none, Bool.false_eq_true,
      false_and, if_false]

/-- **quapify is a session.** Where it runs to its end, no call of the library having failed, it
has made the calls of the prefix, the clauses and the cubes, in this order. -/
theorem quapify_session (hcfg : cfg.HasCubes given)
    (hfile : Reported cfg.strictness file qs clauses)
    (h : quapify (working env) fuel cfg file = some m) (hrun : m.status = .running) :
    m.scan = (kissatParseDimacs cfg.strictness file).1.foldl Scan.callback Scan.init ∧
      (cfg.intsplits ≠ [] → summedLength cfg.intsplits ≤ qs.length) ∧
      (∀ c ∈ cubesOf cfg given qs, ∀ l ∈ c, l.1.val.natAbs ≤ m.scan.varcount) ∧
      ∃ s a y, quapiInit (CInt.ofSize m.scan.varcount)
          (CInt.ofSize clauses.length) (CInt.ofSize (announced cfg given qs)) none = some s ∧
        (Api.start s).calls env ((qs.map Subtype.val).map .quantify) = some a ∧
        Machine.run (Session.step env) (Session.start a)
          (commandsOf clauses (cubesOf cfg given qs)) = some y ∧ y.api = m.api ∧
        (∀ ρ ∈ y.rounds, ρ.clauses = clauses) ∧
        (y.rounds.map Round.accepted, y.accepted) = carried env.allowMissing
          (lastTurned (CInt.ofSize (announced cfg given qs)).1 0 (-1) qs) []
            (cubesOf cfg given qs) := by
  obtain ⟨cfg', s, hinflate, hinit, hm⟩ := quapify_cases (by rw [hfile]) h
  obtain ⟨hcubes, hselected, hlen⟩ := inflate_hasCubes hcfg hinflate
  -- the first pass
  have hfirst : (kissatParseDimacs cfg.strictness file).1 =
      prefixCallbacks (qs.map Subtype.val) ++ clauses.flatMap clauseCallbacks := by rw [hfile]
  obtain ⟨hcount, hquants⟩ := scan_clauses clauses (Scan.mk 0 0 qs)
  have hscan : (prefixCallbacks (qs.map Subtype.val) ++
      clauses.flatMap clauseCallbacks).foldl Scan.callback Scan.init =
        (clauses.flatMap clauseCallbacks).foldl Scan.callback ⟨0, 0, qs⟩ := by
    rw [List.foldl_append, scan_prefix]
    rfl
  rw [hfirst, hscan] at hcubes hlen hinit hm ⊢
  rw [hquants] at hcubes hlen
  rw [hcubes.size, hcount, Nat.zero_add] at hinit
  rw [hcubes.assumptions, hselected] at hm
  -- the second pass makes the calls of the prefix and of the clauses
  rw [hm] at hrun
  have hmakes : List.Forall₂ Makes
      (prefixCallbacks (qs.map Subtype.val) ++ clauses.flatMap clauseCallbacks)
      ((qs.map Subtype.val).map .quantify ++
        (clauses.map Command.clause).flatMap Command.calls) :=
    List.rel_append (makes_quantifiers (val_ne_zero qs)) (makes_clauses clauses)
  obtain ⟨b, hsecond, hcalls⟩ := Main.secondPass_calls hmakes (Main.status_assumptions hrun)
  rw [hsecond] at hm hrun
  obtain ⟨a, ha, hclauses⟩ := Machine.run_append_some.mp hcalls
  have hstart := clauses_run (x := Session.start a) hclauses
  obtain ⟨hcounted, -⟩ := System.counted_calls hinit ha
  obtain ⟨hdepth, hz⟩ := depth_of_run hcounted hstart
  -- and the loop over the cubes those of the rounds
  obtain ⟨hall, hsame, y, hy, hapi, rounds, hrounds, hρ, hcarried⟩ :=
    Main.cubes_run hz rfl hrun
  rw [← hm] at hsame hapi
  have hpre := depth_of_calls ha
  obtain ⟨-, bound, -, rfl⟩ := quapiInit_cases hinit
  refine ⟨hsame, hlen, hsame ▸ hall, _, a, y, hsame ▸ hinit, ha, ?_, hapi, ?_, ?_⟩
  · exact Machine.run_append_some.mpr ⟨_, hstart, hy⟩
  · intro ρ hmem
    rw [hrounds] at hmem
    exact hρ ρ hmem
  · have hnil : y.rounds = rounds := hrounds
    rw [hnil, hcarried, hdepth]
    change carried env.allowMissing a.solver.universalPrefixDepth [] _ = _
    rw [hpre]
    rfl

/-! ### What quapify writes -/

/-- A cube has assumptions and a solve. -/
theorem mem_cubeCommands {cubes : List (List NzLit)} {c : Command}
    (h : c ∈ cubes.flatMap cubeCommands) : (∃ l, c = .assume l) ∨ c = .solve := by
  obtain ⟨cube, -, hc⟩ := List.mem_flatMap.mp h
  rcases List.mem_append.mp hc with hc | hc
  · obtain ⟨l, -, rfl⟩ := List.mem_map.mp hc
    exact Or.inl ⟨l.1, rfl⟩
  · exact Or.inr (List.mem_singleton.mp hc)

theorem clause_notMem_cubes (ls : List NzLit) (cubes : List (List NzLit)) :
    .clause ls ∉ cubes.flatMap cubeCommands := by
  intro h
  rcases mem_cubeCommands h with ⟨l, hl⟩ | hl <;> exact Command.noConfusion hl

theorem clause_mem_commandsOf {cubes : List (List NzLit)} {ls : List NzLit} :
    .clause ls ∈ commandsOf clauses cubes ↔ ls ∈ clauses := by
  constructor
  · intro h
    rcases List.mem_append.mp h with h | h
    · obtain ⟨ls', hls, heq⟩ := List.mem_map.mp h
      exact Command.clause.inj heq ▸ hls
    · exact absurd h (clause_notMem_cubes ls cubes)
  · exact fun h => List.mem_append_left _ (List.mem_map_of_mem h)

theorem reset_notMem_commandsOf (clauses cubes : List (List NzLit)) :
    .reset ∉ commandsOf clauses cubes := by
  intro h
  rcases List.mem_append.mp h with h | h
  · obtain ⟨ls, -, hls⟩ := List.mem_map.mp h
    exact Command.noConfusion hls
  · rcases mem_cubeCommands h with ⟨l, hl⟩ | hl <;> exact Command.noConfusion hl

/-- Clauses are written one after the other. -/
theorem clauses_toSeed {x y : Session}
    (h : Machine.run (Session.step env) x (clauses.map .clause) = some y) :
    y.api.toSeed = x.api.toSeed ++ clauses.flatMap Api.clauseMsgs ∧
      y.api.solver.regexes = x.api.solver.regexes := by
  induction clauses generalizing x with
  | nil =>
    obtain rfl := Option.some.inj h
    exact ⟨(List.append_nil _).symm, rfl⟩
  | cons ls clauses ih =>
    obtain ⟨z, hz, hr⟩ := Machine.run_cons.mp h
    obtain ⟨-, rfl⟩ := Session.step_clause hz
    obtain ⟨hseed, hregexes⟩ := ih hr
    exact ⟨by rw [hseed, List.append_assoc]; rfl, hregexes⟩

/-- A cube asks for children at most. -/
theorem cube_toSeed {x y : Session} {c : Command} (hx : x.Counted) (hc : ∀ ls, c ≠ .clause ls)
    (h : x.step env c = some y) : ∃ n,
      y.api.toSeed = x.api.toSeed ++ List.replicate n x.api.solver.forkMsg ∧
        y.api.solver.regexes = x.api.solver.regexes := by
  have hquiet : y.api.toSeed = x.api.toSeed → y.api.solver.regexes = x.api.solver.regexes →
      ∃ n, y.api.toSeed = x.api.toSeed ++ List.replicate n x.api.solver.forkMsg ∧
        y.api.solver.regexes = x.api.solver.regexes := fun hseed hregexes =>
    ⟨0, hseed.trans (List.append_nil _).symm, hregexes⟩
  obtain ⟨hforked, hregexes⟩ : (∃ n, (x.api.forked env).toSeed =
      x.api.toSeed ++ List.replicate n x.api.solver.forkMsg) ∧
        (x.api.forked env).solver.regexes = x.api.solver.regexes := by
    rw [Api.forked]
    split
    · exact ⟨⟨1, rfl⟩, rfl⟩
    · exact ⟨⟨0, (List.append_nil _).symm⟩, rfl⟩
  obtain ⟨n, hn⟩ := hforked
  cases c with
  | clause ls => exact absurd rfl (hc ls)
  | assume lit =>
    rcases Session.step_assume h with ⟨-, rfl⟩ | ⟨-, rfl, -⟩ | ⟨hlit, rfl, -⟩
    · exact hquiet rfl rfl
    · exact hquiet rfl rfl
    · exact ⟨n, hn, hregexes⟩
  | reset =>
    obtain rfl := Session.step_reset h
    refine hquiet ?_ ?_ <;> simp only [] <;> split <;> rfl
  | solve =>
    rcases Session.step_solve hx.canSolve h with ⟨-, rfl⟩ | ⟨-, rfl⟩
    · exact hquiet rfl rfl
    · exact ⟨n, hn, hregexes⟩

theorem cubes_toSeed {x y : Session} {cmds : List Command} (hx : x.Counted)
    (hcmds : ∀ ls, .clause ls ∉ cmds) (h : Machine.run (Session.step env) x cmds = some y) :
    ∃ n, y.api.toSeed = x.api.toSeed ++ List.replicate n x.api.solver.forkMsg := by
  refine (Machine.invariant_of_meets (P := fun _ c => ∀ ls, c ≠ .clause ls) (I := fun z =>
    z.Counted ∧ z.api.solver.forkMsg = x.api.solver.forkMsg ∧
      ∃ n, z.api.toSeed = x.api.toSeed ++ List.replicate n x.api.solver.forkMsg) ?_ h
    (Machine.meets_of_forall fun c hc _ ls hls => hcmds ls (hls ▸ hc))
    ⟨hx, rfl, 0, (List.append_nil _).symm⟩).2.2
  rintro z c z' hc hz ⟨hcounted, hfork, n, hn⟩
  obtain ⟨k, hk, hregexes⟩ := cube_toSeed hcounted hc hz
  refine ⟨hcounted.step hz, ?_, n + k, ?_⟩
  · rw [← hfork, QuapiSolver.forkMsg, hregexes]
    rfl
  · rw [hk, hn, hfork, List.append_assoc, List.replicate_append_replicate]

/-- The messages of a formula. -/
def formulaMsgs (d : QuapiMsgHeaderData) (qs : List NzLit) (clauses : List (List NzLit)) :
    List QuapiMsg :=
  .header quapiApiVersion d :: (Api.sentPrefix d.prefixdepth.1 (qs.map Subtype.val)).map
    .quantifier ++ clauses.flatMap Api.clauseMsgs

theorem forks_formulaMsgs (d : QuapiMsgHeaderData) (qs : List NzLit)
    (clauses : List (List NzLit)) : forks (formulaMsgs d qs clauses) = 0 := by
  refine List.countP_eq_zero.mpr ?_
  intro msg hmsg
  rcases List.mem_append.mp hmsg with hmsg | hmsg
  · rcases List.mem_cons.mp hmsg with rfl | hmsg
    · exact Bool.false_ne_true
    · obtain ⟨q, -, rfl⟩ := List.mem_map.mp hmsg
      exact Bool.false_ne_true
  · obtain ⟨ls, -, hls⟩ := List.mem_flatMap.mp hmsg
    exact List.countP_eq_zero.mp (forks_clauseMsgs ls) msg hls

/-- What a prefix leaves written. -/
theorem prefix_toSeed {litcount clausecount maxassumptions : CInt} {s : QuapiSolver} {a : Api}
    (hinit : quapiInit litcount clausecount maxassumptions none = some s)
    (ha : (Api.start s).calls env ((qs.map Subtype.val).map .quantify) = some a) :
    a.toSeed = formulaMsgs s.header qs [] ∧ a.toChild = [] ∧ a.solver.regexes = none := by
  obtain ⟨-, bound, -, rfl⟩ := quapiInit_cases hinit
  obtain ⟨⟨depth, w, rfl⟩, -⟩ := Api.calls_quantify ha
  refine ⟨?_, rfl, rfl⟩
  have hk : maxassumptions.1 - 0 = maxassumptions.1 := sub_zero _
  rw [formulaMsgs, List.flatMap_nil, List.append_nil]
  change [QuapiMsg.header quapiApiVersion ⟨litcount, bound, maxassumptions⟩] ++
    (Api.sentPrefix (maxassumptions.1 - 0) (qs.map Subtype.val)).map .quantifier = _
  rw [hk]
  rfl

/-- The rounds of a formula and cubes are numbered. -/
theorem numbered_commands {litcount clausecount maxassumptions : CInt} {s : QuapiSolver} {a : Api}
    {y : Session} {cubes : List (List NzLit)}
    (hinit : quapiInit litcount clausecount maxassumptions none = some s)
    (ha : (Api.start s).calls env ((qs.map Subtype.val).map .quantify) = some a)
    (hy : Machine.run (Session.step env) (Session.start a) (commandsOf clauses cubes) = some y) :
    Numbered y := by
  obtain ⟨hcounted, hstate⟩ := System.counted_calls hinit ha
  have hforks : forks a.toSeed = 0 := by
    rw [(prefix_toSeed hinit ha).1, forks_formulaMsgs]
  have hidle : a.solver.state ≠ .inputAssumptions := by
    rw [hstate]
    exact QuapiState.noConfusion
  exact numbered_run (numbered_start hforks hidle) hcounted (reset_notMem_commandsOf clauses cubes)
    hy

/-- **The streams of a session for a formula and cubes**: the formula and the FORKs go to the
seeding process, the rounds to the children. -/
theorem commands_streams {litcount clausecount maxassumptions : CInt} {s : QuapiSolver} {a : Api}
    {y : Session} {cubes : List (List NzLit)}
    (hinit : quapiInit litcount clausecount maxassumptions none = some s)
    (ha : (Api.start s).calls env ((qs.map Subtype.val).map .quantify) = some a)
    (hy : Machine.run (Session.step env) (Session.start a) (commandsOf clauses cubes) = some y) :
    y.api.toSeed = formulaMsgs s.header qs clauses ++
        List.replicate (y.rounds.length + if y.accepted = [] then 0 else 1) (.fork true) ∧
      y.api.toChild = y.rounds.flatMap (fun ρ => roundMsgs ρ.accepted) ++
        (units y.accepted).flatMap Api.clauseMsgs := by
  obtain ⟨hcounted, -⟩ := System.counted_calls hinit ha
  obtain ⟨hpre, hnone, hplain⟩ := prefix_toSeed hinit ha
  have hstreamed := streamed_run ⟨hcounted, hnone⟩ hy (reset_notMem_commandsOf clauses cubes)
  obtain ⟨z, hz, hr⟩ := Machine.run_append_some.mp hy
  obtain ⟨hclauses, hregexes⟩ := clauses_toSeed hz
  obtain ⟨n, hn⟩ := cubes_toSeed (depth_of_run hcounted hz).2
    (fun ls => clause_notMem_cubes ls cubes) hr
  have hfork : z.api.solver.forkMsg = .fork true := by
    rw [QuapiSolver.forkMsg, hregexes]
    exact congrArg (fun r => QuapiMsg.fork (Option.isNone r)) hplain
  have hseed : y.api.toSeed = formulaMsgs s.header qs clauses ++ List.replicate n (.fork true) := by
    rw [hn, hclauses, hfork]
    refine congrArg (· ++ _) ((congrArg (· ++ _) hpre).trans ?_)
    rw [formulaMsgs, formulaMsgs, List.flatMap_nil, List.append_nil]
  -- there are as many FORKs as the rounds and the pending assumptions need
  have hcount := (numbered_commands hinit ha hy).asked
  have hisFork : Stream.isFork (.fork true) = true := rfl
  rw [hseed, forks_append, forks_formulaMsgs, Nat.zero_add, forks, List.countP_replicate,
    if_pos hisFork] at hcount
  exact ⟨hcount ▸ hseed, hstreamed⟩

/-- The header that quapify announces. -/
def headerOf (cfg : Config) (given : List (List NzLit)) (qs : List NzLit) (m : Main)
    (clauses : CInt) : QuapiMsgHeaderData :=
  ⟨CInt.ofSize m.scan.varcount, clauses, CInt.ofSize (announced cfg given qs)⟩

/-- **What quapify writes.** Where it runs to its end, no call of the library having failed, the
seeding process gets the formula, with the universal quantifiers turned that may be assumed, and
then one FORK for each round; and the children get the cubes, one round for each cube, but for
cubes that are too short: they have no round, and are part of the round of the next cube that is
long enough. -/
theorem quapify_sends (hcfg : cfg.HasCubes given)
    (hfile : Reported cfg.strictness file qs clauses)
    (h : quapify (working env) fuel cfg file = some m) (hrun : m.status = .running) :
    ∃ (bound : CInt) (rounds : List (List NzLit)) (pending : List NzLit),
      bound.1 = (CInt.ofSize clauses.length).1 + (CInt.ofSize (announced cfg given qs)).1 ∧
      (rounds, pending) = carried env.allowMissing
        (lastTurned (CInt.ofSize (announced cfg given qs)).1 0 (-1) qs) []
          (cubesOf cfg given qs) ∧
      m.api.toSeed = formulaMsgs (headerOf cfg given qs m bound) qs clauses ++
        List.replicate (rounds.length + if pending = [] then 0 else 1) (.fork true) ∧
      m.api.toChild = rounds.flatMap roundMsgs ++ (units pending).flatMap Api.clauseMsgs := by
  obtain ⟨-, -, -, s, a, y, hinit, ha, hy, hapi, -, hcarried⟩ := quapify_session hcfg hfile h hrun
  obtain ⟨hseed, hchild⟩ := commands_streams hinit ha hy
  obtain ⟨-, bound, hbound, rfl⟩ := quapiInit_cases hinit
  refine ⟨bound, _, _, hbound, hcarried, ?_, ?_⟩
  · rw [← hapi, hseed, List.length_map]
    rfl
  · rw [← hapi, hchild, List.flatMap_map]

/-- Where all cubes that are solved are long enough, each of them has its round. -/
theorem streams_of_long (d : QuapiMsgHeaderData) (hcfg : cfg.HasCubes given)
    (hfile : Reported cfg.strictness file qs clauses)
    (hscan : (kissatParseDimacs cfg.strictness file).1.foldl Scan.callback Scan.init = scan)
    (hd : d.literals = CInt.ofSize scan.varcount ∧
      d.prefixdepth = CInt.ofSize (announced cfg given qs) ∧
      d.clauses.1 = (CInt.ofSize clauses.length).1 + d.prefixdepth.1)
    (hlong : ∀ c ∈ cubesOf cfg given qs, env.allowMissing = true ∨
      lastTurned (CInt.ofSize (announced cfg given qs)).1 0 (-1) qs ≤ c.length)
    (h : quapify (working env) fuel cfg file = some m) (hrun : m.status = .running) :
    m.api.toSeed = formulaMsgs d qs clauses ++
        (cubesOf cfg given qs).map (fun _ => .fork true) ∧
      m.api.toChild = (cubesOf cfg given qs).flatMap roundMsgs := by
  obtain ⟨hsame, -, -, s, a, y, hinit, ha, hy, hapi, -, hcarried⟩ :=
    quapify_session hcfg hfile h hrun
  obtain ⟨hseed, hchild⟩ := commands_streams hinit ha hy
  rw [carried_eq hlong] at hcarried
  obtain ⟨hrounds, hpending⟩ := Prod.mk.inj hcarried
  obtain ⟨-, bound, hbound, rfl⟩ := quapiInit_cases hinit
  have hheader : d =
      ⟨CInt.ofSize m.scan.varcount, bound, CInt.ofSize (announced cfg given qs)⟩ := by
    obtain ⟨literals, n, depth⟩ := d
    obtain ⟨rfl, rfl, hclauses⟩ := hd
    obtain rfl : n = bound := Subtype.ext (hclauses.trans hbound.symm)
    rw [hsame, hscan]
  refine ⟨?_, ?_⟩
  · rw [← hapi, hseed, hpending, if_pos rfl, Nat.add_zero, hheader, ← hrounds, List.map_const',
      List.length_map]
  · rw [← hapi, hchild, hpending, ← hrounds, List.flatMap_map]
    exact List.append_nil _

/-- **The runs for the single cubes are the rounds of the run for all of them.** If the cubes are
long enough, a run with the option `-I k` sends the formula and one round, and the run without
the option sends the formula and these rounds, in this order. -/
theorem quapify_shards (hcfg : cfg.HasCubes given)
    (hfile : Reported cfg.strictness file qs clauses)
    (hall : cfg.selectedAssumption = -1)
    (hlong : ∀ c ∈ given ++ splitCubes cfg.intsplits qs, env.allowMissing = true ∨
      lastTurned (CInt.ofSize (announced cfg given qs)).1 0 (-1) qs ≤ c.length)
    (h : quapify (working env) fuel cfg file = some m) (hrun : m.status = .running) :
    ∃ formula, m.api.toSeed =
        formula ++ (given ++ splitCubes cfg.intsplits qs).map (fun _ => .fork true) ∧
      m.api.toChild = (given ++ splitCubes cfg.intsplits qs).flatMap roundMsgs ∧
      ∀ (k : ℕ) (mk : Main), quapify (working env) fuel { cfg with selectedAssumption := k } file =
          some mk → mk.status = .running →
        mk.api.toSeed =
            formula ++ ((given ++ splitCubes cfg.intsplits qs)[k]?).toList.map
              (fun _ => .fork true) ∧
          mk.api.toChild =
            ((given ++ splitCubes cfg.intsplits qs)[k]?).toList.flatMap roundMsgs := by
  obtain ⟨hsame, -, -, s, -, -, hinit, -⟩ := quapify_session hcfg hfile h hrun
  obtain ⟨-, bound, hbound, -⟩ := quapiInit_cases hinit
  have hcubes : cubesOf cfg given qs = given ++ splitCubes cfg.intsplits qs := by
    rw [cubesOf, hall, chosen_all]
  obtain ⟨hseed, hchild⟩ := streams_of_long (headerOf cfg given qs m bound) hcfg hfile
    hsame.symm ⟨rfl, rfl, hbound⟩ (hcubes.symm ▸ hlong) h hrun
  rw [hcubes] at hseed hchild
  refine ⟨_, hseed, hchild, ?_⟩
  intro k mk hk hkrun
  let cfgk : Config := { cfg with selectedAssumption := k }
  have hone : cubesOf cfgk given qs = ((given ++ splitCubes cfg.intsplits qs)[k]?).toList := by
    have := chosen_one k 0 (given ++ splitCubes cfg.intsplits qs)
    rwa [Nat.zero_add] at this
  have hcfgk : cfgk.HasCubes given := ⟨hcfg.assumptions, hcfg.size, hcfg.closed⟩
  obtain ⟨hseed, hchild⟩ := streams_of_long (headerOf cfg given qs m bound) hcfgk hfile
    hsame.symm ⟨rfl, rfl, hbound⟩ (fun c hc => hlong c (mem_of_chosen hc)) hk hkrun
  rw [hone] at hseed hchild
  exact ⟨hseed, hchild⟩

end

/-! ### A formula with two cubes -/

/-- `∀x₁∃x₂` with the clause `x₁ ∨ x₂`. -/
def forallExistsFile : List Char := "p cnf 2 1\na 1 0\ne 2 0\n1 2 0\n".toList

/-- The split `-i 2`. -/
def bothCubes : Config := Config.init.addIntsplitNestingLevel (.of 2)

theorem hasCubes_bothCubes : bothCubes.HasCubes [] := ⟨rfl, rfl, rfl⟩

theorem forallExists_reported : Reported .normalParsing forallExistsFile [nzLit (-1), nzLit 2]
    [[nzLit 1, nzLit 2]] := by
  rw [Reported]
  decide +kernel

/-- The two cubes of the split are what is sent to the children. -/
theorem forallExists_sends : ∃ m : Main,
    quapify (working plainEnv) 3 bothCubes forallExistsFile = some m ∧
      m.api.toChild = roundMsgs [nzLit (-1)] ++ roundMsgs [nzLit 1] := by
  have hrun : (quapify (working plainEnv) 3 bothCubes forallExistsFile).map Main.status =
      some .running := by decide +kernel
  obtain ⟨m, hm, hend⟩ := Option.map_eq_some_iff.mp hrun
  obtain ⟨-, rounds, pending, -, hcarried, -, hchild⟩ :=
    quapify_sends hasCubes_bothCubes forallExists_reported hm hend
  have hcubes : carried plainEnv.allowMissing (lastTurned (CInt.ofSize (announced bothCubes []
      [nzLit (-1), nzLit 2])).1 0 (-1) [nzLit (-1), nzLit 2]) []
      (cubesOf bothCubes [] [nzLit (-1), nzLit 2]) = ([[nzLit (-1)], [nzLit 1]], []) := by
    decide +kernel
  rw [hcubes] at hcarried
  obtain ⟨rfl, rfl⟩ := Prod.mk.inj hcarried
  exact ⟨m, hm, hchild⟩

/-- One of them is what `-I 1` sends. -/
theorem forallExists_shards : ∃ m : Main,
    quapify (working plainEnv) 3 { bothCubes with selectedAssumption := 1 } forallExistsFile =
        some m ∧ m.api.toChild = roundMsgs [nzLit 1] := by
  have hrun : (quapify (working plainEnv) 3 bothCubes forallExistsFile).map Main.status =
      some .running := by decide +kernel
  obtain ⟨m, hm, hend⟩ := Option.map_eq_some_iff.mp hrun
  have hrun' : (quapify (working plainEnv) 3 { bothCubes with selectedAssumption := 1 }
      forallExistsFile).map Main.status = some .running := by decide +kernel
  obtain ⟨m', hm', hend'⟩ := Option.map_eq_some_iff.mp hrun'
  obtain ⟨formula, -, -, hshards⟩ := quapify_shards hasCubes_bothCubes
    forallExists_reported rfl (by decide +kernel) hm hend
  obtain ⟨-, hchild⟩ := hshards 1 m' hm' hend'
  have hcube : (([] ++ splitCubes bothCubes.intsplits [nzLit (-1), nzLit 2])[1]?).toList =
      [[nzLit 1]] := by decide +kernel
  rw [hcube] at hchild
  exact ⟨m', hm', hchild⟩

end Quapify

end QuAPI
