import QuAPI.Splitting
import QuAPI.Quapify.Solving

/-!
# The answers of all cubes

An integer split takes a block of variables of one quantifier, and its cubes are the numbers
below the split, bit by bit. So the answers to the cubes of all splits are the outcomes of a
game, in which the quantifier of a block says who moves (`QuAPI.Quapify.levels`).

* `QuAPI.Quapify.valid_of_conquer`: if the universal splits are full, which are those by powers
  of two, a won game means a true formula;
* `QuAPI.Quapify.conquer_of_valid`: if the existential splits are, a true formula means a won
  game;
* `QuAPI.Quapify.splits_conquered`: this is what quapify gets for its integer splits, in every
  interleaving of its calls.

The formula has no free variables here. The cubes are asked one by one, and each
answer may be due to other values of free variables.
-/

namespace QuAPI

open Qbf (Quant Valid Agrees Game conquer play playAll)

namespace Quapify

/-! ### The blocks of the splits -/

/-- The quantifier of a block. -/
def blockQuant : List NzLit → Quant
  | [] => .ex
  | q :: _ => q.1.quantifier.1

/-- **The integer splits** with the variables they take. -/
def splitsOf : List Intsplit → List NzLit → List (Qbf.Split ℕ)
  | [], _ => []
  | s :: intsplits, qs =>
    let block := qs.take (Nat.clog 2 s.radix)
    ⟨blockQuant block, block.map fun q => q.1.var, s.radix⟩ ::
      splitsOf intsplits (qs.drop (Nat.clog 2 s.radix))

/-- Who moves for a split, and how many moves there are. -/
def levels (intsplits : List Intsplit) (qs : List NzLit) : List (Quant × ℕ) :=
  (splitsOf intsplits qs).map Qbf.Split.level

section

variable {intsplits : List Intsplit} {qs : List NzLit} {clauses : List (List NzLit)}
  {vs : List ℕ} {a b : ℕ → Bool}

theorem levels_snd (intsplits : List Intsplit) (qs : List NzLit) :
    (levels intsplits qs).map Prod.snd = intsplits.map Intsplit.radix := by
  rw [levels, List.map_map]
  induction intsplits generalizing qs with
  | nil => rfl
  | cons s intsplits ih =>
    rw [splitsOf, List.map_cons, ih, List.map_cons]
    rfl

/-- A piece of the prefix that is of one kind. -/
theorem map_blockQuant (h : Uniform qs) :
    (qs.map fun q => q.1.var).map (fun x => (blockQuant qs, x)) =
      qs.map fun q => q.1.quantifier := by
  rw [List.map_map]
  refine List.map_congr_left ?_
  intro q hq
  cases qs with
  | nil => exact absurd hq List.not_mem_nil
  | cons p qs =>
    have hsame := h p List.mem_cons_self q hq
    exact congrArg (·, q.1.var) (if_congr hsame rfl rfl)

/-- **The blocks are the leading part of the prefix.** -/
theorem flatMap_block (h : Unmixed intsplits qs) :
    (splitsOf intsplits qs).flatMap Qbf.Split.block ++
        (qs.drop (summedLength intsplits)).map (fun q => q.1.quantifier) =
      qs.map fun q => q.1.quantifier := by
  induction intsplits generalizing qs with
  | nil => rfl
  | cons s intsplits ih =>
    obtain ⟨huniform, hrest⟩ := unmixed_cons.mp h
    have hsum : summedLength (s :: intsplits) = Nat.clog 2 s.radix + summedLength intsplits := rfl
    rw [splitsOf, List.flatMap_cons, List.append_assoc, hsum, ← List.drop_drop, ih hrest,
      Qbf.Split.block, map_blockQuant huniform, ← List.map_append, List.take_append_drop]

/-- **The moves of a tuple** are its bits. -/
theorem playAll_splitsOf (hvs : vs.length = intsplits.length)
    (hlen : summedLength intsplits ≤ qs.length) :
    playAll (splitsOf intsplits qs) vs a =
      play (qs.map fun q => q.1.var) (tupleBits intsplits vs) a := by
  induction intsplits generalizing qs vs a with
  | nil => cases qs <;> rfl
  | cons s intsplits ih =>
    cases vs with
    | nil => exact absurd hvs (by simp)
    | cons v vs =>
      rw [summedLength, List.map_cons, List.sum_cons, ← summedLength] at hlen
      have hrest : summedLength intsplits ≤ (qs.drop (Nat.clog 2 s.radix)).length := by
        rw [List.length_drop]
        omega
      have hwidth : ((qs.take (Nat.clog 2 s.radix)).map fun q => q.1.var).length =
          Nat.clog 2 s.radix := by
        rw [List.length_map, List.length_take]
        omega
      rw [splitsOf, playAll, ih (Nat.succ.inj hvs) hrest, tupleBits_cons, Qbf.play_append,
        MixedRadix.length_bits, ← List.map_drop, ← List.map_take, Qbf.Split.values, hwidth]

/-! ### The question of a cube -/

theorem sign_signed (b : Bool) (q : NzLit) : (signed b q).1.sign = b := by
  have hq := q.val_ne_zero
  have hval := val_signed b q
  rw [Lit.sign, hval, bitLiteral]
  cases b <;> simp [hq]

theorem pinsOf_splitCube (intsplits : List Intsplit) (qs : List NzLit) (vs : List ℕ) :
    pinsOf (splitCube intsplits qs vs) =
      (qs.map fun q => q.1.var).zip (tupleBits intsplits vs) := by
  rw [pinsOf, splitCube]
  generalize tupleBits intsplits vs = bs
  induction bs generalizing qs with
  | nil => cases qs <;> rfl
  | cons b bs ih =>
    cases qs with
    | nil => rfl
    | cons q qs =>
      rw [List.zipWith_cons_cons, List.map_cons, ih, var_signed, sign_signed]
      rfl

/-- What a cube does not decide is quantified still. -/
theorem unpinned_splitCube (hn : (qs.map fun q => q.1.var).Nodup)
    (hvs : vs.length = intsplits.length) :
    Qbf.unpinned (pinsOf (splitCube intsplits qs vs)) (qs.map fun q => q.1.quantifier) =
      (qs.drop (summedLength intsplits)).map fun q => q.1.quantifier := by
  have hvars : (pinsOf (splitCube intsplits qs vs)).map Prod.fst =
      (qs.take (summedLength intsplits)).map fun q => q.1.var := by
    rw [fst_pinsOf, vars_splitCube hvs]
  have hcut : qs.map (fun q => q.1.quantifier) =
      (qs.take (summedLength intsplits)).map (fun q => q.1.quantifier) ++
        (qs.drop (summedLength intsplits)).map fun q => q.1.quantifier := by
    rw [← List.map_append, List.take_append_drop]
  have hdisjoint : ((qs.take (summedLength intsplits)).map fun q => q.1.var).Disjoint
      ((qs.drop (summedLength intsplits)).map fun q => q.1.var) := by
    rw [← List.take_append_drop (summedLength intsplits) qs, List.map_append] at hn
    exact List.disjoint_of_nodup_append hn
  rw [Qbf.unpinned, hvars, hcut, List.filter_append, List.filter_eq_nil_iff.mpr ?_,
    List.filter_eq_self.mpr ?_, List.nil_append]
  · intro x hx
    obtain ⟨q, hq, rfl⟩ := List.mem_map.mp hx
    exact decide_eq_true fun hmem => hdisjoint hmem (List.mem_map_of_mem hq)
  · intro x hx hdec
    obtain ⟨q, hq, rfl⟩ := List.mem_map.mp hx
    exact of_decide_eq_true hdec (List.mem_map_of_mem hq)

/-- **A formula is closed** if all its variables are in the prefix. -/
def Closed (qs : List NzLit) (clauses : List (List NzLit)) : Prop :=
  ∀ ls ∈ clauses, ∀ l ∈ ls, l.1.var ∈ qs.map fun q => q.1.var

instance (qs : List NzLit) (clauses : List (List NzLit)) : Decidable (Closed qs clauses) :=
  inferInstanceAs (Decidable (∀ ls ∈ clauses, ∀ l ∈ ls, _))

/-- The clauses only depend on the variables in the prefix. -/
theorem Closed.matrixSat_congr (h : Closed qs clauses) (a b : ℕ → Bool)
    (hab : ∀ y, y ∈ qs.map (fun q => q.1.var) → a y = b y) :
    MatrixSat clauses a ↔ MatrixSat clauses b := by
  refine forall₂_congr ?_
  intro ls hls
  refine exists_congr fun l => and_congr_right fun hl => ?_
  rw [hab _ (h ls hls l hl)]

/-- A closed formula is true under some assignment if it is true under all. -/
theorem Closed.exists_valid_iff (h : Closed qs clauses) (a : ℕ → Bool) :
    (∃ v, Valid (qs.map fun q => q.1.quantifier) (MatrixSat clauses) v) ↔
      Valid (qs.map fun q => q.1.quantifier) (MatrixSat clauses) a := by
  have hall : ∀ y, y ∈ qs.map (fun q => q.1.var) →
      y ∈ (qs.map fun q => q.1.quantifier).map Prod.snd := by
    intro y hy
    rwa [List.map_map]
  constructor
  · rintro ⟨v, hv⟩
    exact (Qbf.valid_congr_on h.matrixSat_congr fun y hy hne => absurd (hall y hy) hne).mp hv
  · exact fun ha => ⟨a, ha⟩

/-- **The question of a cube** is the rest of the formula under the moves of its tuple. -/
theorem Closed.asked_iff (h : Closed qs clauses) (hn : (qs.map fun q => q.1.var).Nodup)
    (hvs : vs.length = intsplits.length) (hlen : summedLength intsplits ≤ qs.length)
    (a : ℕ → Bool) : Asked qs clauses (splitCube intsplits qs vs) ↔
      Valid ((qs.drop (summedLength intsplits)).map fun q => q.1.quantifier) (MatrixSat clauses)
        (playAll (splitsOf intsplits qs) vs a) := by
  have hplay : Agrees (pinsOf (splitCube intsplits qs vs))
      (playAll (splitsOf intsplits qs) vs a) := by
    rw [playAll_splitsOf hvs hlen, pinsOf_splitCube]
    exact Qbf.agrees_play hn
  rw [Asked, unpinned_splitCube hn hvs]
  constructor
  · rintro ⟨v, hv, hvalid⟩
    refine (Qbf.valid_congr_on h.matrixSat_congr ?_).mp hvalid
    -- a variable of the prefix is in the cube, or it is quantified still
    intro y hy hfree
    rw [← List.take_append_drop (summedLength intsplits) qs, List.map_append] at hy
    rw [List.map_map] at hfree
    have hcube : y ∈ (pinsOf (splitCube intsplits qs vs)).map Prod.fst := by
      rw [fst_pinsOf, vars_splitCube hvs]
      exact (List.mem_append.mp hy).resolve_right hfree
    obtain ⟨x, hx, rfl⟩ := List.mem_map.mp hcube
    rw [hv x hx, hplay x hx]
  · exact fun hvalid => ⟨_, hplay, hvalid⟩

/-! ### The game of the cubes -/

/-- The answers are right. -/
def RightAnswers (qs : List NzLit) (clauses cubes : List (List NzLit)) (answers : List Bool) :
    Prop :=
  List.Forall₂ (fun answer c => answer = true ↔ Asked qs clauses c) answers cubes

/-- **Right answers are the outcomes of the game.** -/
theorem RightAnswers.conquer_iff {answers : List Bool} (hs : intsplits ≠ [])
    (h : RightAnswers qs clauses (splitCubes intsplits qs) answers) :
    conquer (levels intsplits qs) answers = true ↔
      Game (levels intsplits qs) fun vs => Asked qs clauses (splitCube intsplits qs vs) := by
  classical
  have hanswers : answers = (MixedRadix.tuples ((levels intsplits qs).map Prod.snd)).map
      fun vs => decide (Asked qs clauses (splitCube intsplits qs vs)) := by
    rw [RightAnswers, splitCubes, if_neg hs, List.forall₂_map_right_iff] at h
    rw [levels_snd, ← List.forall₂_eq_eq_eq, List.forall₂_map_right_iff]
    refine h.imp fun answer vs hiff => ?_
    rw [Bool.eq_iff_iff, hiff, decide_eq_true_iff]
  rw [hanswers, Qbf.conquer_iff]
  simp only [decide_eq_true_iff]

section

variable {answers : List Bool} (hclosed : Closed qs clauses)
  (hn : (qs.map fun q => q.1.var).Nodup) (hs : intsplits ≠ [])
  (hlen : summedLength intsplits ≤ qs.length) (hmixed : Unmixed intsplits qs)
  (hanswers : RightAnswers qs clauses (splitCubes intsplits qs) answers)

include hclosed hn hs hlen hanswers

/-- The outcomes are the rests of the formula. -/
theorem conquer_iff_game (a : ℕ → Bool) : conquer (levels intsplits qs) answers = true ↔
    Game (levels intsplits qs) fun vs =>
      Valid ((qs.drop (summedLength intsplits)).map fun q => q.1.quantifier) (MatrixSat clauses)
        (playAll (splitsOf intsplits qs) vs a) := by
  rw [hanswers.conquer_iff hs]
  refine Qbf.game_congr ?_
  intro vs hvs
  rw [levels_snd] at hvs
  have hlength := (MixedRadix.mem_tuples.mp hvs).length_eq.trans (List.length_map _)
  exact hclosed.asked_iff hn hlength hlen a

include hmixed

/-- **Where the universal splits are full, a won game means a true formula.** -/
theorem valid_of_conquer (hfull : ∀ t ∈ splitsOf intsplits qs, t.quant = .all → t.Full)
    (h : conquer (levels intsplits qs) answers = true) :
    ∃ v, Valid (qs.map fun q => q.1.quantifier) (MatrixSat clauses) v := by
  have hgame := (conquer_iff_game hclosed hn hs hlen hanswers fun _ => false).mp h
  refine ⟨fun _ => false, ?_⟩
  rw [← flatMap_block hmixed]
  exact Qbf.valid_of_game hfull hgame

/-- **Where the existential splits are full, a true formula means a won game.** -/
theorem conquer_of_valid (hfull : ∀ t ∈ splitsOf intsplits qs, t.quant = .ex → t.Full)
    (h : ∃ v, Valid (qs.map fun q => q.1.quantifier) (MatrixSat clauses) v) :
    conquer (levels intsplits qs) answers = true := by
  refine (conquer_iff_game hclosed hn hs hlen hanswers fun _ => false).mpr ?_
  have hvalid := (hclosed.exists_valid_iff fun _ => false).mp h
  rw [← flatMap_block hmixed] at hvalid
  exact Qbf.game_of_valid hfull hvalid

end

/-- A split takes all values of its variables if and only if it is a power of two. -/
theorem full_iff_two_pow {t : Qbf.Split ℕ} (hlen : summedLength intsplits ≤ qs.length)
    (ht : t ∈ splitsOf intsplits qs) : t.Full ↔ ∃ n, t.moves = 2 ^ n := by
  induction intsplits generalizing qs with
  | nil => exact absurd ht List.not_mem_nil
  | cons s intsplits ih =>
    rw [summedLength, List.map_cons, List.sum_cons, ← summedLength] at hlen
    rw [splitsOf] at ht
    rcases List.mem_cons.mp ht with rfl | ht
    · have hwidth : ((qs.take (Nat.clog 2 s.radix)).map fun q => q.1.var).length =
          Nat.clog 2 s.radix := by
        rw [List.length_map, List.length_take]
        omega
      rw [Qbf.Split.Full, hwidth]
      constructor
      · exact fun h => ⟨_, le_antisymm (Nat.le_pow_clog one_lt_two _) h⟩
      · rintro ⟨n, hn⟩
        have hradix : s.radix = 2 ^ n := hn
        rw [hradix, Nat.clog_pow _ _ one_lt_two]
    · refine ih ?_ ht
      rw [List.length_drop]
      omega

end

/-! ### The answers that quapify gets -/

section

variable {env : Env} {fuel : ℕ} {cfg : Config} {file : List Char} {m : Main}
  {qs : List NzLit} {clauses : List (List NzLit)}

/-- The splits fit the prefix of the file, or no solver is started. -/
theorem quapify_fits {w : Setting} (hs : cfg.intsplits ≠ [])
    (hfile : Reported cfg.strictness file qs clauses) (h : quapify w fuel cfg file = some m) :
    summedLength cfg.intsplits ≤ qs.length ∧ Unmixed cfg.intsplits qs := by
  obtain ⟨cfg', s, hinflate, -⟩ := quapify_cases (by rw [hfile]) h
  have hfits := inflate_fits hs hinflate
  have hquants : ((prefixCallbacks (qs.map Subtype.val) ++
      clauses.flatMap clauseCallbacks).foldl Scan.callback Scan.init).quantifiers = qs := by
    rw [List.foldl_append, scan_prefix, (scan_clauses clauses _).2]
    rfl
  rwa [hfile, hquants] at hfits

/-- **The formula of a file that is split.** quapify has run to its end on integer splits, without
cubes of the command line or a selection, no call of the library having failed, and every solve
has returned 10 or 20. In every interleaving of its calls in which the children are right: if the
universal splits are full, the answers are a won game only if the formula in the file is true; and
if the existential splits are full, they are one whenever it is true. -/
theorem splits_conquered {strict : Strictness} {s : QuapiSolver} {acts : List System.Act}
    {x : System × History} {codes : List ℤ}
    (hcfg : cfg.HasCubes []) (hs : cfg.intsplits ≠ []) (hall : cfg.selectedAssumption = -1)
    (hfile : Reported cfg.strictness file qs clauses)
    (hm : quapify (working env) fuel cfg file = some m) (hend : m.status = .running)
    (hinit : quapiInit (CInt.ofSize m.scan.varcount) (CInt.ofSize clauses.length)
      (CInt.ofSize (summedLength cfg.intsplits)) none = some s)
    (hcb : ∀ a ∈ acts, ∀ cb, a ≠ .setStdoutCb (some cb))
    (hdrained : Machine.Meets (System.live env.allowMissing) System.Drained
      (System.start s, History.start s) acts)
    (hrun : Machine.run (System.live env.allowMissing) (System.start s, History.start s) acts =
      some x)
    (hcalls : acts.flatMap System.Act.calls = (qs.map Subtype.val).map .quantify ++
      (commandsOf clauses (splitCubes cfg.intsplits qs)).flatMap Command.calls)
    (hn : (qs.map fun q => q.1.var).Nodup) (hclauses : clauses ≠ [])
    (hne : ∀ ls ∈ clauses, ls ≠ []) (hcovered : ∀ q ∈ qs, q.1.var ≤ m.scan.varcount)
    (hcount : clauses.length ≤ maxVars) (hsize : summedLength cfg.intsplits ≤ maxVars)
    (hclosed : Closed qs clauses) (hright : System.Right strict x)
    (hlength : codes.length = (splitCubes cfg.intsplits qs).length)
    (hreturned : ∀ k code, codes[k]? = some code →
      .returned (k + 1) code ∈ x.1.log ∧ (code = 10 ∨ code = 20)) :
    ∃ f, readFormula cfg.strictness file = some f ∧
      ((∀ t ∈ splitsOf cfg.intsplits qs, t.quant = .all → t.Full) →
        conquer (levels cfg.intsplits qs) (codes.map fun code => decide (code = 10)) = true →
          f.Holds) ∧
      ((∀ t ∈ splitsOf cfg.intsplits qs, t.quant = .ex → t.Full) → f.Holds →
        conquer (levels cfg.intsplits qs) (codes.map fun code => decide (code = 10)) = true) := by
  obtain ⟨hlen, hmixed⟩ := quapify_fits hs hfile hm
  have hcubes : cubesOf cfg [] qs = splitCubes cfg.intsplits qs := by
    rw [cubesOf, hall, chosen_all]
    rfl
  have hwidth : announced cfg [] qs = summedLength cfg.intsplits := width_splitCubes hs hlen
  -- the answers are right, one by one
  have hanswers : RightAnswers qs clauses (splitCubes cfg.intsplits qs)
      (codes.map fun code => decide (code = 10)) := by
    rw [RightAnswers, List.forall₂_map_left_iff, List.forall₂_iff_get]
    refine ⟨hlength, ?_⟩
    intro k hk hk'
    obtain ⟨hlog, hcode⟩ := hreturned k codes[k] (List.getElem?_eq_getElem hk)
    obtain ⟨-, c, hc, hiff⟩ := asked_of_returned hcfg hfile hm hend (hwidth ▸ hinit) hcb hdrained
      hrun (hcubes ▸ hcalls) hn hclauses hne hcovered hcount (hwidth ▸ hsize)
      (fun c hc => (decides_splits hn (fun _ => hlen) hc).imp_right Or.inr) hright hlog hcode
    rw [hcubes, Nat.add_sub_cancel, List.getElem?_eq_getElem hk'] at hc
    obtain rfl := Option.some.inj hc
    rw [decide_eq_true_iff]
    exact hiff
  obtain ⟨f, hf, hholds⟩ := holds_of_reported (val_ne_zero qs) hfile
  rw [List.map_map] at hholds
  refine ⟨f, hf, fun hfull h => ?_, fun hfull h => ?_⟩
  · exact hholds.mpr (valid_of_conquer hclosed hn hs hlen hmixed hanswers hfull h)
  · exact conquer_of_valid hclosed hn hs hlen hmixed hanswers hfull (hholds.mp h)

end

/-! ### Both cubes of a split -/

/-- The calls for the cubes `-x₁` and `x₁`, with a child for each. -/
def bothActs : List System.Act :=
  System.forallExistsActs ++ [.call (.assume (lit 1)), .seedFork 8, .seedReport, .readReport,
    .call .solve, .take 8 3, .exit 8 (.exited 10), .seedReap, .poll, .handle 0, .finish]

/-- What the second child has been told. -/
def secondTaken : List (QuapiMsg × ℕ) :=
  [(.literal (lit 1), 2), (.literal 0, 2), (.solve, 2)]

theorem bothCubes_live : ∃ x,
    Machine.run (System.live plainEnv.allowMissing)
        (System.start forallExistsStart, History.start forallExistsStart) bothActs = some x ∧
      x.1.children = [⟨1, 7, false, some (.exited 10)⟩, ⟨2, 8, false, some (.exited 10)⟩] ∧
      x.1.stream.readers = [⟨7, false, System.forallExistsTaken⟩, ⟨8, false, secondTaken⟩] ∧
      x.2.seeds = [firstSeed, firstSeed ++ [.fork true]] ∧
      .returned 1 10 ∈ x.1.log ∧ .returned 2 10 ∈ x.1.log := by
  have hrun : (Machine.run (System.live plainEnv.allowMissing)
      (System.start forallExistsStart, History.start forallExistsStart) bothActs).map
        (fun x => (x.1.children, x.1.stream.readers, x.2.seeds, x.1.log)) =
    some ([⟨1, 7, false, some (.exited 10)⟩, ⟨2, 8, false, some (.exited 10)⟩],
      [⟨7, false, System.forallExistsTaken⟩, ⟨8, false, secondTaken⟩],
      [firstSeed, firstSeed ++ [.fork true]],
      [.report 1 7 1, .message 1 (.exitCode 10) 1 (some 7), .returned 1 10, .report 2 8 2,
        .message 2 (.exitCode 10) 2 (some 8), .returned 2 10]) := rfl
  obtain ⟨x, hx, hvals⟩ := Option.map_eq_some_iff.mp hrun
  simp only [Prod.mk.injEq] at hvals
  obtain ⟨hchildren, hreaders, hseeds, hlog⟩ := hvals
  exact ⟨x, hx, hchildren, hreaders, hseeds, by rw [hlog]; decide, by rw [hlog]; decide⟩

/-- The text of the second child. -/
def secondText : List Char := "p cnf 2 2\ne 1 2 0\n1 2 0\n1 0\n".toList

theorem second_readsText : ReadsText (fun _ => 64) (fun _ => 64) (firstSeed ++ [.fork true])
    ((SharedPipe.upTo isSolve secondTaken).map Prod.fst) secondText := by
  have hrun : ((Reader.start (firstSeed ++ [.fork true])).ticks (fun _ => 64) 15).bind (fun p =>
      (Reader.ticks (fun _ => 64) 5 { p with
        input := (SharedPipe.upTo isSolve secondTaken).map Prod.fst }).map fun q =>
          (p.input, p.blocked, q.closed, q.out)) = some ([], some 64, some 0, secondText) := rfl
  obtain ⟨p, hp, hrest⟩ := Option.bind_eq_some_iff.mp hrun
  obtain ⟨q, hq, hread⟩ := Option.map_eq_some_iff.mp hrest
  simp only [Prod.mk.injEq] at hread
  obtain ⟨hinput, hblocked, hclosed, hout⟩ := hread
  exact ⟨p, q, Reader.reaches_ticks hp, hinput, by rw [hblocked]; rfl, Reader.reaches_ticks hq,
    hclosed, hout⟩

/-- The formula in that text. -/
def secondFormula : Formula := ⟨[(.ex, 1), (.ex, 2)], [[1, 2], [1]]⟩

theorem second_readFormula : readFormula .normalParsing secondText = some secondFormula := by
  decide +kernel

/-- `x₁` makes it true. -/
theorem second_holds : secondFormula.Holds := by
  refine ⟨fun _ => false, true, true, ?_⟩
  intro c hc
  simp only [secondFormula, List.mem_cons, List.not_mem_nil, or_false] at hc
  rcases hc with rfl | rfl
  · exact ⟨1, by decide, by decide⟩
  · exact ⟨1, by decide, by decide⟩

/-- Both children are right. -/
theorem both_right {x : System × History}
    (hchildren : x.1.children =
      [⟨1, 7, false, some (.exited 10)⟩, ⟨2, 8, false, some (.exited 10)⟩])
    (hreaders : x.1.stream.readers =
      [⟨7, false, System.forallExistsTaken⟩, ⟨8, false, secondTaken⟩])
    (hseeds : x.2.seeds = [firstSeed, firstSeed ++ [.fork true]]) :
    System.Right .normalParsing x := by
  have hpos : ∀ n : ℕ, 0 < (fun _ => 64) n := fun _ => (by decide : 0 < 64)
  intro i c code hc hstatus _
  rw [hchildren] at hc
  rw [hreaders, hseeds]
  cases i with
  | zero =>
    obtain rfl := Option.some.inj hc
    obtain rfl := ExitStatus.exited.inj (Option.some.inj hstatus)
    exact ⟨_, _, _, _, _, _, rfl, by decide, rfl, hpos, hpos, first_readsText, first_readFormula,
      iff_of_true rfl first_holds⟩
  | succ i =>
    cases i with
    | zero =>
      obtain rfl := Option.some.inj hc
      obtain rfl := ExitStatus.exited.inj (Option.some.inj hstatus)
      exact ⟨_, _, _, _, _, _, rfl, by decide, rfl, hpos, hpos, second_readsText,
        second_readFormula, iff_of_true rfl second_holds⟩
    | succ i => exact absurd hc (by simp)

/-- Both solves return 10, and the formula `∀x₁ ∃x₂ (x₁ ∨ x₂)` is true. -/
theorem bothCubes_conquered : ∃ m x f,
    quapify (working plainEnv) 3 bothCubes forallExistsFile = some m ∧
      Machine.run (System.live plainEnv.allowMissing)
        (System.start forallExistsStart, History.start forallExistsStart) bothActs = some x ∧
      readFormula .normalParsing forallExistsFile = some f ∧ f.Holds := by
  have hrun : (quapify (working plainEnv) 3 bothCubes forallExistsFile).map
      (fun m => (m.status, m.scan.varcount)) = some (.running, 2) := by decide +kernel
  obtain ⟨m, hm, hvals⟩ := Option.map_eq_some_iff.mp hrun
  obtain ⟨hend, hvars⟩ := Prod.mk.inj hvals
  obtain ⟨x, hx, hchildren, hreaders, hseeds, hfirst, hsecond⟩ := bothCubes_live
  have hcubes : splitCubes bothCubes.intsplits [nzLit (-1), nzLit 2] =
      [[nzLit (-1)], [nzLit 1]] := by decide +kernel
  have hwidth : summedLength bothCubes.intsplits = 1 := by decide +kernel
  have hinit : quapiInit (CInt.ofSize m.scan.varcount) (CInt.ofSize [[nzLit 1, nzLit 2]].length)
      (CInt.ofSize (summedLength bothCubes.intsplits)) none = some forallExistsStart := by
    rw [hvars, hwidth]
    rfl
  have hreturned : ∀ k code, [(10 : ℤ), 10][k]? = some code →
      .returned (k + 1) code ∈ x.1.log ∧ (code = 10 ∨ code = 20) := by
    intro k code hk
    match k, hk with
    | 0, hk => exact Option.some.inj hk ▸ ⟨hfirst, Or.inl rfl⟩
    | 1, hk => exact Option.some.inj hk ▸ ⟨hsecond, Or.inl rfl⟩
  obtain ⟨f, hf, hsound, -⟩ := splits_conquered hasCubes_bothCubes (by decide) rfl
    forallExists_reported hm hend hinit (by simp [bothActs, System.forallExistsActs]) (by decide) hx
    (by rw [hcubes]; rfl) (by decide) (List.cons_ne_nil _ _) (by simp) (by rw [hvars]; decide)
    (by decide) (by rw [hwidth]; decide) (by decide) (both_right hchildren hreaders hseeds)
    (by rw [hcubes]; rfl) hreturned
  exact ⟨m, x, f, hm, hx, hf, hsound (by decide +kernel) (by decide +kernel)⟩

end Quapify

end QuAPI
