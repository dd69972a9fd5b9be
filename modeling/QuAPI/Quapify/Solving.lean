import QuAPI.Answers
import QuAPI.Quapify.Rounds

/-!
# The answers that quapify gets

quapify in the interleaved system: its calls (`QuAPI.Quapify.quapify_session`) are made while the
seeding process and the children run on their own. `QuAPI.Quapify.cubes_answered` says what the
answers mean where the children are right: the solve of the `k`-th cube returns 10 if and only if
the formula in the file is true under this cube.

The cubes of integer splits need no assumption for that. They are as long as the leading part of
the prefix that is turned, so none is refused (`QuAPI.Quapify.lastTurned_lt`), and each decides the
variables of that part and no others (`QuAPI.Quapify.decides_of_vars`).
-/

namespace QuAPI

namespace Quapify

/-! ### The cubes of splits -/

section

variable {qs accepted : List NzLit} {n : ℕ}

/-- **A cube over the first variables of the prefix** decides just these. -/
theorem decides_of_vars (hn : (qs.map fun q => q.1.var).Nodup)
    (h : (accepted.map fun l => l.1.var) = (qs.take n).map fun q => q.1.var) :
    Decides n qs accepted := by
  intro i hi _
  rw [h, List.map_take]
  have hi' : i < (qs.map fun q => q.1.var).length := by rwa [List.length_map]
  have hget : (qs.map fun q => q.1.var)[i] = qs[i].1.var := by rw [List.getElem_map]
  constructor
  · intro hlt
    rw [← hget]
    exact List.mem_take_iff_getElem.mpr ⟨i, lt_min (Nat.cast_lt.mp hlt) hi', rfl⟩
  · intro hmem
    obtain ⟨j, hj, heq⟩ := List.mem_take_iff_getElem.mp hmem
    rw [← hget] at heq
    have hij := (List.Nodup.getElem_inj_iff hn).mp heq
    omega

theorem vars_splitCube {intsplits : List Intsplit} {vs : List ℕ}
    (hvs : vs.length = intsplits.length) :
    ((splitCube intsplits qs vs).map fun l => l.1.var) =
      (qs.take (summedLength intsplits)).map fun q => q.1.var := by
  have hzip : ∀ (bs : List Bool) (qs : List NzLit),
      ((List.zipWith signed bs qs).map fun l => l.1.var) =
        (qs.take bs.length).map fun q => q.1.var := by
    intro bs
    induction bs with
    | nil => exact fun qs => rfl
    | cons b bs ih =>
      intro qs
      cases qs with
      | nil => rfl
      | cons q qs =>
        rw [List.zipWith_cons_cons, List.map_cons, ih, var_signed]
        rfl
  rw [splitCube, hzip, length_tupleBits hvs]

theorem decides_of_split {intsplits : List Intsplit} {c : List NzLit}
    (hn : (qs.map fun q => q.1.var).Nodup) (hc : c ∈ splitCubes intsplits qs) :
    Decides (summedLength intsplits) qs c := by
  rw [splitCubes] at hc
  split at hc
  · exact absurd hc List.not_mem_nil
  · obtain ⟨vs, hvs, rfl⟩ := List.mem_map.mp hc
    exact decides_of_vars hn (vars_splitCube
      ((MixedRadix.mem_tuples.mp hvs).length_eq.trans (List.length_map _)))

/-- What is turned is in the leading part. -/
theorem lastTurned_lt {k : ℤ} (hk : 0 ≤ k) : lastTurned k 0 (-1) qs ≤ k := by
  refine (lastTurned_le_iff (by omega)).mpr ⟨by omega, ?_⟩
  intro i _ _ hlt
  exact hlt.le

end

/-! ### The answers -/

/-- The rounds of a session without resets, by their numbers. -/
theorem getElem?_of_forks {y : Session} {ρ : Round} {k : ℕ} (h : Numbered y) (hρ : ρ ∈ y.rounds)
    (hk : forks ρ.toSeed = k) : 0 < k ∧ y.rounds[k - 1]? = some ρ := by
  obtain ⟨i, hi, rfl⟩ := List.mem_iff_getElem.mp hρ
  have hnumber : (y.rounds.map fun r => forks r.toSeed)[i]? =
      (List.range' 1 y.rounds.length)[i]? := by rw [h.rounds]
  rw [List.getElem?_map, List.getElem?_eq_getElem hi, List.getElem?_range' hi] at hnumber
  have hval : forks y.rounds[i].toSeed = 1 + 1 * i := Option.some.inj hnumber
  have hk' : k = i + 1 := by omega
  subst hk'
  exact ⟨Nat.succ_pos i, List.getElem?_eq_getElem hi⟩

section

variable {env : Env} {fuel : ℕ} {cfg : Config} {file : List Char} {m : Main}
  {given : List (List NzLit)} {qs : List NzLit} {clauses : List (List NzLit)}

/-- A quantifier that is sent is one of a variable of the prefix. -/
theorem var_of_sent {k : ℤ} {q : Lit} (h : q ∈ Api.sentPrefix k (qs.map Subtype.val)) :
    ∃ p ∈ qs, q.var = p.1.var := by
  have hmem : q.var ∈ (qs.map Subtype.val).map Lit.var := by
    rw [← vars_sentPrefix k, List.map_map]
    exact List.mem_map_of_mem h
  rw [List.map_map] at hmem
  obtain ⟨p, hp, heq⟩ := List.mem_map.mp hmem
  exact ⟨p, hp, heq.symm⟩

theorem addLit_mem {strict : Strictness} (hfile : Reported strict file qs clauses)
    {ls : List NzLit} (hls : ls ∈ clauses) {l : NzLit} (hl : l ∈ ls) :
    .addLit l.1.val ∈ (kissatParseDimacs strict file).1 := by
  rw [hfile]
  refine List.mem_append_right _ (List.mem_flatMap.mpr ⟨ls, hls, ?_⟩)
  exact List.mem_append_left _ (List.mem_map_of_mem hl)

/-- **The header of quapify has room** for every cube that is solved, if no variable of the prefix
is larger than all variables of the clauses. -/
theorem fits_of_cube {d : QuapiMsgHeaderData} {k : ℤ} {c : List NzLit}
    (hfile : Reported cfg.strictness file qs clauses)
    (hscan : m.scan = (kissatParseDimacs cfg.strictness file).1.foldl Scan.callback Scan.init)
    (hlits : d.literals = CInt.ofSize m.scan.varcount)
    (hbound : d.clauses.1 = (CInt.ofSize clauses.length).1 +
      (CInt.ofSize (announced cfg given qs)).1)
    (hcount : clauses.length ≤ maxVars) (hsize : announced cfg given qs ≤ maxVars)
    (hclauses : clauses ≠ []) (hne : ∀ ls ∈ clauses, ls ≠ [])
    (hcovered : ∀ q ∈ qs, q.1.var ≤ m.scan.varcount) (hc : c ∈ cubesOf cfg given qs)
    (hle : ∀ l ∈ c, l.1.val.natAbs ≤ m.scan.varcount) :
    Fits d (Api.sentPrefix k (qs.map Subtype.val)) clauses c := by
  have hrange := varcount_le (ranged_kissatParseDimacs cfg.strictness file)
  rw [← hscan] at hrange
  have hvars : d.literals.1 = m.scan.varcount := hlits ▸ ofSize_eq hrange
  have habs : ∀ l : Lit, l.val.natAbs ≤ m.scan.varcount → |l.val| ≤ d.literals.1 := by
    intro l hl
    rw [hvars, Int.abs_eq_natAbs]
    exact Int.ofNat_le.mpr hl
  have hmatrix : ∀ ls ∈ clauses, ∀ l ∈ ls, l.1.val.natAbs ≤ m.scan.varcount :=
    fun ls hls l hl => hscan ▸ le_varcount (addLit_mem hfile hls hl)
  rw [ofSize_eq hcount, ofSize_eq hsize] at hbound
  have hmany : 0 < clauses.length := List.length_pos_iff.mpr hclauses
  have hlen : c.length ≤ announced cfg given qs := length_le_width (mem_of_chosen hc)
  refine ⟨?_, ?_, fun ls hls l hl => habs l.1 (hmatrix ls hls l hl),
    fun l hl => habs l.1 (hle l hl), by omega, by omega⟩
  · -- there is a literal
    obtain ⟨ls, hls⟩ := List.exists_mem_of_length_pos hmany
    obtain ⟨l, hl⟩ := List.exists_mem_of_ne_nil ls (hne ls hls)
    have hpos := Int.natAbs_pos.mpr l.val_ne_zero
    have hbig := hmatrix ls hls l hl
    omega
  · intro q hq
    obtain ⟨p, hp, hvar⟩ := var_of_sent hq
    exact habs q (hvar.trans_le (hcovered p hp))

/-- The cubes of splits decide the leading universal variables, and none is refused. -/
theorem decides_splits {c : List NzLit} (hn : (qs.map fun q => q.1.var).Nodup)
    (hlen : cfg.intsplits ≠ [] → summedLength cfg.intsplits ≤ qs.length)
    (hc : c ∈ cubesOf cfg [] qs) : Decides (announced cfg [] qs) qs c ∧
      lastTurned (announced cfg [] qs) 0 (-1) qs ≤ c.length := by
  have hmem : c ∈ splitCubes cfg.intsplits qs := mem_of_chosen hc
  have hsplits : cfg.intsplits ≠ [] := by
    intro hnil
    rw [splitCubes, if_pos hnil] at hmem
    exact List.not_mem_nil hmem
  have hwidth : announced cfg [] qs = summedLength cfg.intsplits :=
    width_splitCubes hsplits (hlen hsplits)
  rw [hwidth, length_of_mem_splitCubes (hlen hsplits) hmem]
  exact ⟨decides_of_split hn hmem, lastTurned_lt (Int.natCast_nonneg _)⟩

/-- **Cubes that are not refused are answered**, where each decides the leading universal
variables. -/
theorem asked_of_returned {strict : Strictness} {s : QuapiSolver} {acts : List System.Act}
    {x : System × History}
    (hcfg : cfg.HasCubes given) (hfile : Reported cfg.strictness file qs clauses)
    (hm : quapify (working env) fuel cfg file = some m) (hend : m.status = .running)
    (hinit : quapiInit (CInt.ofSize m.scan.varcount) (CInt.ofSize clauses.length)
      (CInt.ofSize (announced cfg given qs)) none = some s)
    (hcb : ∀ a ∈ acts, ∀ cb, a ≠ .setStdoutCb (some cb))
    (hdrained : Machine.Meets (System.live env.allowMissing) System.Drained
      (System.start s, History.start s) acts)
    (hrun : Machine.run (System.live env.allowMissing) (System.start s, History.start s) acts =
      some x)
    (hcalls : acts.flatMap System.Act.calls = (qs.map Subtype.val).map .quantify ++
      (commandsOf clauses (cubesOf cfg given qs)).flatMap Command.calls)
    (hn : (qs.map fun q => q.1.var).Nodup) (hclauses : clauses ≠ [])
    (hne : ∀ ls ∈ clauses, ls ≠ []) (hcovered : ∀ q ∈ qs, q.1.var ≤ m.scan.varcount)
    (hcount : clauses.length ≤ maxVars) (hsize : announced cfg given qs ≤ maxVars)
    (hgood : ∀ c ∈ cubesOf cfg given qs, Decides (announced cfg given qs) qs c ∧
      (env.allowMissing = true ∨ lastTurned (announced cfg given qs) 0 (-1) qs ≤ c.length))
    (hright : System.Right strict x) {k : ℕ} {code : ℤ} (hlog : .returned k code ∈ x.1.log)
    (hcode : code = 10 ∨ code = 20) :
    0 < k ∧ ∃ c, (cubesOf cfg given qs)[k - 1]? = some c ∧ (code = 10 ↔ Asked qs clauses c) := by
  obtain ⟨hscan, -, hle, s', a, y, hinit', ha, hy, -, hsame, hcarried⟩ :=
    quapify_session hcfg hfile hm hend
  obtain rfl := Option.some.inj (hinit'.symm.trans hinit)
  have hk : (CInt.ofSize (announced cfg given qs)).1 = announced cfg given qs := ofSize_eq hsize
  rw [hk, carried_eq fun c hc => (hgood c hc).2] at hcarried
  obtain ⟨hrounds, -⟩ := Prod.mk.inj hcarried
  have hnumbered := numbered_commands hinit ha hy
  -- what is returned is the truth of the text of a round
  have hclause : ∀ ls, .clause ls ∈ commandsOf clauses (cubesOf cfg given qs) → ls ≠ [] :=
    fun ls hls => hne ls (clause_mem_commandsOf.mp hls)
  have hfirst : ∃ ls rest, commandsOf clauses (cubesOf cfg given qs) = .clause ls :: rest := by
    obtain ⟨ls, rest, rfl⟩ := List.exists_cons_of_ne_nil hclauses
    exact ⟨ls, _, rfl⟩
  obtain ⟨a', y', ha', hy', hrendered, hreturned⟩ := System.returned_holds hinit hcb hdrained hrun
    hcalls hclause (Or.inr hfirst) hright
  obtain rfl := Option.some.inj (ha.symm.trans ha')
  obtain rfl := Option.some.inj (hy.symm.trans hy')
  obtain ⟨ρ, hρ, hforks, f, hf, hverdict⟩ := hreturned k code hlog hcode
  obtain ⟨hpos, hget⟩ := getElem?_of_forks hnumbered hρ hforks
  have hcube : (cubesOf cfg given qs)[k - 1]? = some ρ.accepted := by
    rw [← hrounds, List.getElem?_map, hget]
    rfl
  have hmem := List.mem_of_getElem? hcube
  refine ⟨hpos, ρ.accepted, hcube, hverdict.trans ?_⟩
  obtain ⟨-, bound, hbound, rfl⟩ := quapiInit_cases hinit
  obtain ⟨f', hf', hholds⟩ := System.holds_of_rendered strict hrendered
    (fun r hr ls hls => hne ls (hsame r hr ▸ hls)) hn hρ (hk.symm ▸ (hgood _ hmem).1)
    (hsame ρ hρ ▸ fits_of_cube hfile hscan rfl hbound hcount hsize hclauses hne hcovered hmem
      (hle _ hmem))
  obtain rfl := Option.some.inj (hf.symm.trans hf')
  rw [hholds, hsame ρ hρ]

/-- **The cubes are answered.** quapify has run to its end, no call of the library having failed;
its splits are the only cubes, or the cubes of the command line decide the leading universal
variables and are long enough. In every interleaving of its calls in which the children are right:
where `quapi_solve` returns 10 or 20 in round `k`, it returns 10 if and only if the formula in the
file is true under the `k`-th cube that is solved. -/
theorem cubes_answered {strict : Strictness} {s : QuapiSolver} {acts : List System.Act}
    {x : System × History}
    (hcfg : cfg.HasCubes given) (hfile : Reported cfg.strictness file qs clauses)
    (hm : quapify (working env) fuel cfg file = some m) (hend : m.status = .running)
    (hinit : quapiInit (CInt.ofSize m.scan.varcount) (CInt.ofSize clauses.length)
      (CInt.ofSize (announced cfg given qs)) none = some s)
    (hcb : ∀ a ∈ acts, ∀ cb, a ≠ .setStdoutCb (some cb))
    (hdrained : Machine.Meets (System.live env.allowMissing) System.Drained
      (System.start s, History.start s) acts)
    (hrun : Machine.run (System.live env.allowMissing) (System.start s, History.start s) acts =
      some x)
    (hcalls : acts.flatMap System.Act.calls = (qs.map Subtype.val).map .quantify ++
      (commandsOf clauses (cubesOf cfg given qs)).flatMap Command.calls)
    (hn : (qs.map fun q => q.1.var).Nodup) (hclauses : clauses ≠ [])
    (hne : ∀ ls ∈ clauses, ls ≠ []) (hcovered : ∀ q ∈ qs, q.1.var ≤ m.scan.varcount)
    (hcount : clauses.length ≤ maxVars) (hsize : announced cfg given qs ≤ maxVars)
    (hcubes : given = [] ∨ ∀ c ∈ cubesOf cfg given qs, Decides (announced cfg given qs) qs c ∧
      (env.allowMissing = true ∨ lastTurned (announced cfg given qs) 0 (-1) qs ≤ c.length))
    (hright : System.Right strict x) :
    ∀ k code, .returned k code ∈ x.1.log → code = 10 ∨ code = 20 →
      0 < k ∧ ∃ c, (cubesOf cfg given qs)[k - 1]? = some c ∧ (code = 10 ↔ Asked qs clauses c) := by
  obtain ⟨-, hlen, -⟩ := quapify_session hcfg hfile hm hend
  intro k code hlog hcode
  refine asked_of_returned hcfg hfile hm hend hinit hcb hdrained hrun hcalls hn hclauses hne
    hcovered hcount hsize ?_ hright hlog hcode
  rcases hcubes with rfl | hcubes
  · intro c hc
    exact (decides_splits hn hlen hc).imp_right Or.inr
  · exact hcubes

end

/-! ### The first of two cubes -/

/-- The split `-i 2`, and only its first cube, `-x₁`. -/
def firstCube : Config := { bothCubes with selectedAssumption := 0 }

theorem hasCubes_firstCube : firstCube.HasCubes [] := ⟨rfl, rfl, rfl⟩

/-- What the child inherits. -/
def firstSeed : List QuapiMsg :=
  [.header quapiApiVersion forallExistsStart.header, .quantifier (lit 1), .quantifier (lit 2),
    .literal (lit 1), .literal (lit 2), .literal 0, .fork true]

theorem firstCube_live : ∃ x,
    Machine.run (System.live plainEnv.allowMissing)
        (System.start forallExistsStart, History.start forallExistsStart)
        System.forallExistsActs = some x ∧
      x.1.children = [⟨1, 7, false, some (.exited 10)⟩] ∧
      x.1.stream.readers = [⟨7, false, System.forallExistsTaken⟩] ∧
      x.2.seeds = [firstSeed] ∧ .returned 1 10 ∈ x.1.log := by
  have hrun : (Machine.run (System.live plainEnv.allowMissing)
      (System.start forallExistsStart, History.start forallExistsStart)
      System.forallExistsActs).map
        (fun x => (x.1.children, x.1.stream.readers, x.2.seeds, x.1.log)) =
    some ([⟨1, 7, false, some (.exited 10)⟩], [⟨7, false, System.forallExistsTaken⟩], [firstSeed],
      [.report 1 7 1, .message 1 (.exitCode 10) 1 (some 7), .returned 1 10]) := rfl
  obtain ⟨x, hx, hvals⟩ := Option.map_eq_some_iff.mp hrun
  simp only [Prod.mk.injEq] at hvals
  obtain ⟨hchildren, hreaders, hseeds, hlog⟩ := hvals
  exact ⟨x, hx, hchildren, hreaders, hseeds, by rw [hlog]; decide⟩

/-- The text of the child. -/
def firstText : List Char := "p cnf 2 2\ne 1 2 0\n1 2 0\n-1 0\n".toList

theorem first_readsText : ReadsText (fun _ => 64) (fun _ => 64) firstSeed
    ((SharedPipe.upTo isSolve System.forallExistsTaken).map Prod.fst) firstText := by
  have hrun : ((Reader.start firstSeed).ticks (fun _ => 64) 14).bind (fun p =>
      (Reader.ticks (fun _ => 64) 5 { p with
        input := (SharedPipe.upTo isSolve System.forallExistsTaken).map Prod.fst }).map fun q =>
          (p.input, p.blocked, q.closed, q.out)) = some ([], some 64, some 0, firstText) := rfl
  obtain ⟨p, hp, hrest⟩ := Option.bind_eq_some_iff.mp hrun
  obtain ⟨q, hq, hread⟩ := Option.map_eq_some_iff.mp hrest
  simp only [Prod.mk.injEq] at hread
  obtain ⟨hinput, hblocked, hclosed, hout⟩ := hread
  exact ⟨p, q, Reader.reaches_ticks hp, hinput, by rw [hblocked]; rfl, Reader.reaches_ticks hq,
    hclosed, hout⟩

/-- The formula in that text. -/
def firstFormula : Formula := ⟨[(.ex, 1), (.ex, 2)], [[1, 2], [-1]]⟩

theorem first_readFormula : readFormula .normalParsing firstText = some firstFormula := by
  decide +kernel

/-- `x₂` makes it true. -/
theorem first_holds : firstFormula.Holds := by
  refine ⟨fun _ => false, false, true, ?_⟩
  intro c hc
  simp only [firstFormula, List.mem_cons, List.not_mem_nil, or_false] at hc
  rcases hc with rfl | rfl
  · exact ⟨2, by decide, by decide⟩
  · exact ⟨-1, by decide, by decide⟩

/-- The solve of the cube `-x₁` returns 10, and the formula of the file is true under it. -/
theorem firstCube_answered : ∃ m x,
    quapify (working plainEnv) 3 firstCube forallExistsFile = some m ∧
      Machine.run (System.live plainEnv.allowMissing)
        (System.start forallExistsStart, History.start forallExistsStart)
        System.forallExistsActs = some x ∧
      .returned 1 10 ∈ x.1.log ∧
      Asked [nzLit (-1), nzLit 2] [[nzLit 1, nzLit 2]] [nzLit (-1)] := by
  have hrun : (quapify (working plainEnv) 3 firstCube forallExistsFile).map
      (fun m => (m.status, m.scan.varcount)) = some (.running, 2) := by decide +kernel
  obtain ⟨m, hm, hvals⟩ := Option.map_eq_some_iff.mp hrun
  obtain ⟨hend, hvars⟩ := Prod.mk.inj hvals
  obtain ⟨x, hx, hchildren, hreaders, hseeds, hlog⟩ := firstCube_live
  have hcubes : cubesOf firstCube [] [nzLit (-1), nzLit 2] = [[nzLit (-1)]] := by decide +kernel
  have hwidth : announced firstCube [] [nzLit (-1), nzLit 2] = 1 := by decide +kernel
  have hinit : quapiInit (CInt.ofSize m.scan.varcount) (CInt.ofSize [[nzLit 1, nzLit 2]].length)
      (CInt.ofSize (announced firstCube [] [nzLit (-1), nzLit 2])) none =
        some forallExistsStart := by
    rw [hvars, hwidth]
    rfl
  obtain ⟨-, c, hc, hiff⟩ := cubes_answered hasCubes_firstCube forallExists_reported hm hend hinit
    (by simp [System.forallExistsActs]) (by decide) hx (by rw [hcubes]; rfl) (by decide)
    (List.cons_ne_nil _ _) (by simp) (by rw [hvars]; decide) (by decide) (by rw [hwidth]; decide)
    (Or.inl rfl) (System.right_of_child hchildren hreaders (by decide) hseeds first_readsText
      first_readFormula first_holds) 1 10 hlog (Or.inl rfl)
  rw [hcubes] at hc
  obtain rfl := Option.some.inj hc
  exact ⟨m, x, hm, hx, hlog, hiff.mp rfl⟩

end Quapify

end QuAPI
