import Mathlib.Data.List.TakeWhile
import QuAPI.Attribution

/-!
# Verdicts on the output

With regular expressions, a round ends with the first line of output that is ruled on
(`QuAPI.QuapiSolver.rule`). Output comes in pieces that do not end with lines, so that the
poll loop keeps what is unfinished; `QuAPI.QuapiSolver.serveLines_spec` says that the pieces
do not matter.

The child also announces its end, on another descriptor. Whether a verdict that has been
printed is returned depends on what the polls find: `QuAPI.System.verdict_returned_iff` says
that it is returned if and only if no poll of the round finds a message or a request. There the
output is that of the child of the round alone (`QuAPI.System.Clean`); on any output, what counts
is what the library hears first (`QuAPI.System.returned_iff_heard`).
-/

namespace QuAPI

/-! ### Lines -/

/-- The complete lines of a text, `line` being what has been read of the first one. -/
def completeLines (line : List Char) : List Char → List (List Char)
  | [] => []
  | c :: text =>
    if c = '\n' then line :: completeLines [] text else completeLines (line ++ [c]) text

/-- What follows the last complete line. -/
def unfinishedLine (line : List Char) : List Char → List Char
  | [] => line
  | c :: text =>
    if c = '\n' then unfinishedLine [] text else unfinishedLine (line ++ [c]) text

section

variable {line text more : List Char}

theorem completeLines_newline : completeLines line ('\n' :: text) = line :: completeLines [] text :=
  if_pos rfl

theorem unfinishedLine_newline : unfinishedLine line ('\n' :: text) = unfinishedLine [] text :=
  if_pos rfl

theorem completeLines_append : completeLines line (text ++ more) =
    completeLines line text ++ completeLines (unfinishedLine line text) more := by
  induction text generalizing line with
  | nil => rfl
  | cons c text ih =>
    rw [List.cons_append, completeLines, completeLines, unfinishedLine]
    split
    · rw [ih, List.cons_append]
    · exact ih

theorem unfinishedLine_append :
    unfinishedLine line (text ++ more) = unfinishedLine (unfinishedLine line text) more := by
  induction text generalizing line with
  | nil => rfl
  | cons c text ih =>
    rw [List.cons_append, unfinishedLine, unfinishedLine]
    split <;> exact ih

theorem unfinishedLine_of_notMem (h : '\n' ∉ text) : unfinishedLine line text = line ++ text := by
  induction text generalizing line with
  | nil => exact (List.append_nil line).symm
  | cons c text ih =>
    rw [unfinishedLine, if_neg (List.ne_of_not_mem_cons h).symm,
      ih (List.not_mem_of_not_mem_cons h), List.append_assoc, List.singleton_append]

theorem completeLines_of_notMem (h : '\n' ∉ text) : completeLines line text = [] := by
  induction text generalizing line with
  | nil => rfl
  | cons c text ih =>
    rw [completeLines, if_neg (List.ne_of_not_mem_cons h).symm,
      ih (List.not_mem_of_not_mem_cons h)]

/-- A text begins with its first line. -/
theorem completeLines_line (hline : '\n' ∉ line) (text : List Char) :
    completeLines [] (line ++ '\n' :: text) = line :: completeLines [] text := by
  rw [completeLines_append, completeLines_of_notMem hline, unfinishedLine_of_notMem hline,
    completeLines_newline, List.nil_append, List.nil_append]

theorem unfinishedLine_line (line text : List Char) :
    unfinishedLine [] (line ++ '\n' :: text) = unfinishedLine [] text := by
  rw [unfinishedLine_append, unfinishedLine_newline]

/-- What is unfinished has been read. -/
theorem mem_of_mem_unfinishedLine {c : Char} (h : c ∈ unfinishedLine line text) :
    c ∈ line ∨ c ∈ text := by
  induction text generalizing line with
  | nil => exact Or.inl h
  | cons d text ih =>
    rw [unfinishedLine] at h
    split at h
    · rcases ih h with hnil | hmem
      · exact absurd hnil List.not_mem_nil
      · exact Or.inr (List.mem_cons_of_mem d hmem)
    · rcases ih h with hmem | hmem
      · rcases List.mem_append.mp hmem with hmem | hmem
        · exact Or.inl hmem
        · exact Or.inr (List.mem_singleton.mp hmem ▸ List.mem_cons_self)
      · exact Or.inr (List.mem_cons_of_mem d hmem)

/-- The first lines of a text are the lines of a beginning of it. -/
theorem exists_prefix_lines {lines : List (List Char)} (h : lines <+: completeLines line text) :
    ∃ u, u <+: text ∧ completeLines line u = lines := by
  induction text generalizing line lines with
  | nil => exact ⟨[], List.prefix_rfl, (List.prefix_nil.mp h).symm⟩
  | cons c text ih =>
    cases lines with
    | nil => exact ⟨[], List.nil_prefix, rfl⟩
    | cons l lines =>
      rw [completeLines] at h
      split at h
      -- the line ends here, and the others are those of the rest
      case isTrue hc =>
        obtain ⟨rfl, hrest⟩ := List.cons_prefix_cons.mp h
        obtain ⟨u, hu, hlines⟩ := ih hrest
        refine ⟨c :: u, (List.prefix_cons_inj c).mpr hu, ?_⟩
        rw [completeLines, if_pos hc, hlines]
      case isFalse hc =>
        obtain ⟨u, hu, hlines⟩ := ih h
        refine ⟨c :: u, (List.prefix_cons_inj c).mpr hu, ?_⟩
        rw [completeLines, if_neg hc, hlines]

theorem notMem_unfinishedLine (h : '\n' ∉ line) : '\n' ∉ unfinishedLine line text := by
  induction text generalizing line with
  | nil => exact h
  | cons c text ih =>
    rw [unfinishedLine]
    split
    case isTrue => exact ih List.not_mem_nil
    case isFalse hc =>
      refine ih ?_
      intro hmem
      rcases List.mem_append.mp hmem with hmem | hmem
      · exact h hmem
      · exact hc (List.mem_singleton.mp hmem).symm

end

/-! ### What a text decides -/

namespace QuapiSolver

variable {s : QuapiSolver} {text more : List Char} {v : ℤ}

/-- What a text decides: its first complete line that is ruled on. -/
def verdict (s : QuapiSolver) (text : List Char) : Option ℤ :=
  (completeLines [] text).findSome? s.rule

/-- What a text decides by the regular expressions alone. -/
def regexVerdict (s : QuapiSolver) (text : List Char) : Option ℤ :=
  verdict { s with stdoutCb := none } text

/-- **A verdict stays.** -/
theorem verdict_append_of_some (h : s.verdict text = some v) :
    s.verdict (text ++ more) = some v := by
  rw [verdict, completeLines_append, List.findSome?_append, ← verdict, h]
  rfl

/-- A text without a verdict may be cut down to its unfinished line. -/
theorem verdict_append_of_none (h : s.verdict text = none) :
    s.verdict (text ++ more) = s.verdict (unfinishedLine [] text ++ more) := by
  have hline : '\n' ∉ unfinishedLine [] text := notMem_unfinishedLine List.not_mem_nil
  have hsame : unfinishedLine [] (unfinishedLine [] text) = unfinishedLine [] text :=
    unfinishedLine_of_notMem hline
  rw [verdict, completeLines_append, List.findSome?_append, ← verdict, h, Option.none_or,
    verdict, completeLines_append, completeLines_of_notMem hline, hsame, List.nil_append]

theorem verdict_of_notMem (h : '\n' ∉ text) : s.verdict text = none := by
  rw [verdict, completeLines_of_notMem h]
  rfl

/-- The loop takes the first line of a text. -/
theorem serveLines_line {line : List Char} (s : QuapiSolver) (hline : '\n' ∉ line) (n : ℕ)
    (rest : List Char) : s.serveLines (n + 1) (line ++ '\n' :: rest) =
      match s.rule line with
      | some v => (some v, line ++ '\n' :: rest)
      | none => s.serveLines n rest := by
  have hnot : ∀ c ∈ line, decide (c ≠ '\n') = true :=
    fun c hc => decide_eq_true fun heq => hline (heq ▸ hc)
  have htake : (line ++ '\n' :: rest).takeWhile (· ≠ '\n') = line := by
    rw [List.takeWhile_append_of_pos hnot]
    exact List.append_nil line
  have hdrop : (line ++ '\n' :: rest).drop (line.length + 1) = rest := by
    rw [List.drop_length_add_append]
    rfl
  cases hrule : s.rule line with
  | some v => rw [serveLines, htake, hdrop, hrule]
  | none => rw [serveLines, htake, hdrop, hrule]

/-- A text with a newline is its first line and the rest. -/
theorem exists_line {n : ℕ} (hn : text.count '\n' = n + 1) :
    ∃ line rest, text = line ++ '\n' :: rest ∧ '\n' ∉ line ∧ rest.count '\n' = n := by
  have hpos : '\n' ∈ text := List.count_pos_iff.mp (hn ▸ Nat.succ_pos n)
  obtain ⟨line, rest, rfl, hline⟩ := List.eq_append_cons_of_mem hpos
  refine ⟨line, rest, rfl, hline, ?_⟩
  rw [List.count_append, List.count_eq_zero.mpr hline, List.count_cons_self] at hn
  omega

/-- **The loop over the lines** decides what the text decides, and keeps its unfinished line
if that is nothing. -/
theorem serveLines_spec (s : QuapiSolver) (text : List Char) :
    (∃ v buf, s.serveLines (text.count '\n') text = (some v, buf) ∧ s.verdict text = some v) ∨
      s.serveLines (text.count '\n') text = (none, unfinishedLine [] text) ∧
        s.verdict text = none := by
  generalize hn : text.count '\n' = n
  induction n generalizing text with
  | zero =>
    have hmem : '\n' ∉ text := List.count_eq_zero.mp hn
    rw [unfinishedLine_of_notMem hmem, List.nil_append]
    exact Or.inr ⟨rfl, verdict_of_notMem hmem⟩
  | succ n ih =>
    obtain ⟨line, rest, rfl, hline, hcount⟩ := exists_line hn
    rw [serveLines_line s hline, verdict, completeLines_line hline, unfinishedLine_line,
      List.findSome?_cons]
    cases hrule : s.rule line with
    | some v => exact Or.inl ⟨v, _, rfl, rfl⟩
    | none => exact ih rest hcount

/-- The regular expressions know two verdicts. -/
theorem regexVerdict_cases {r : (List Char → Bool) × (List Char → Bool)}
    (hregexes : s.regexes = some r) (h : s.regexVerdict text = some v) : v = 10 ∨ v = 20 := by
  obtain ⟨line, -, hrule⟩ := List.exists_of_findSome?_eq_some h
  simp only [rule, hregexes, Option.bind_none] at hrule
  split at hrule
  · exact Or.inl (Option.some.inj hrule).symm
  · split at hrule
    · exact Or.inr (Option.some.inj hrule).symm
    · exact absurd hrule (by simp)

end QuapiSolver

/-! ### The output of a round -/

namespace System

/-- What an act puts on the output. -/
def Act.printed : Act → List Char
  | .print _ text => text
  | _ => []

/-- What the library hears in a course of acts: a reading gets what is there, and of that what
is in front of the first zero byte. -/
def hears : List Char → List Act → List Char
  | _, [] => []
  | stdout, .handle n :: acts =>
    (stdout.take n).takeWhile (· ≠ '\x00') ++ hears (stdout.drop n) acts
  | stdout, a :: acts => hears (stdout ++ a.printed) acts

/-- What has been read in this round, each character with the round of its child. -/
def logged (x : System) : List (Char × ℕ) :=
  x.log.flatMap fun
    | .output r data => if r = x.round then data else []
    | _ => []

/-- What the child of the round has written, as far as it has been read in this round or is
still there. -/
def written (x : System) : List Char :=
  ((x.logged ++ x.stdout).filter fun d => d.2 = x.round).map Prod.fst

/-- **A poll finds output only**, neither a message nor a request. -/
def Quiet (x : System) : Act → Prop
  | .poll => x.toParent = [] ∧ x.eventfd = []
  | _ => True

instance (x : System) : ∀ a, Decidable (x.Quiet a)
  | .poll => inferInstanceAs (Decidable (_ ∧ _))
  | .call _ | .setStdoutCb _ | .readReport | .handle _ | .finish | .terminate | .flush _
  | .seedRead | .seedFork _ | .seedReport | .seedReap | .take _ _ | .readOn _ _ | .print _ _
  | .destruct _ | .exit _ _ => isTrue trivial

/-- **Only the child of the round prints**, and no zero byte. -/
def Alone (x : System) : Act → Prop
  | .print pid text => (∀ c ∈ x.running pid, c.round = x.round) ∧ '\x00' ∉ text
  | _ => True

instance (x : System) : ∀ a, Decidable (x.Alone a)
  | .print _ _ => inferInstanceAs (Decidable (_ ∧ _))
  | .call _ | .setStdoutCb _ | .readReport | .poll | .handle _ | .finish | .terminate | .flush _
  | .seedRead | .seedFork _ | .seedReport | .seedReap | .take _ _ | .readOn _ _ | .destruct _
  | .exit _ _ => isTrue trivial

/-- **A round with clean output**: what is there and what is printed is all of the child of the
round, without a zero byte, and the callback rules on no line. -/
structure Clean (allowMissing : Bool) (x : System) (acts : List Act) : Prop where
  stdout : ∀ d ∈ x.stdout, d.2 = x.round ∧ d.1 ≠ '\x00'
  printed : Machine.Meets (step allowMissing) Alone x acts
  callback : ∀ cb ∈ x.solver.stdoutCb, ∀ line, cb line = 0

section

variable {x y : System} {a : Act} {allowMissing : Bool} {acts : List Act} {s : QuapiSolver}
  {d : PollData} {retcode v : ℤ}

/-- The characters on the output. -/
def text (x : System) : List Char := x.stdout.map Prod.fst

/-- **What happens in the poll loop**, as long as the callback stays. -/
inductive Polls (x : System) (d : PollData) : Act → System → Prop
  /-- Nothing happens to the library. -/
  | other {a : Act} {y : System} (hpc : y.pc = .polling d) (htext : y.text = x.text ++ a.printed)
      (hpoll : a ≠ .poll) (hhandle : ∀ n, a ≠ .handle n) : Polls x d a y
  | poll {y : System} (hnone : ¬(d.child ∨ d.eventfd ∨ d.solverchild)) (htext : y.text = x.text)
      (hpc : y.pc = .polling ⟨!x.toParent.isEmpty, !x.eventfd.isEmpty,
        x.listens && !x.stdout.isEmpty, d.buf⟩) : Polls x d .poll y
  | message {y : System} {n : ℕ} {msg : QuapiMsg} {source : ℕ} (hchild : d.child = true)
      (hmsg : (msg, source) ∈ x.toParent)
      (hpc : y.pc = x.afterMessage { d with child := false } msg) : Polls x d (.handle n) y
  | abort {y : System} {n : ℕ} (hchild : d.child = false) (heventfd : d.eventfd = true)
      (hpc : y.pc = .finishing 0) : Polls x d (.handle n) y
  | output {y : System} {n : ℕ} (hchild : d.child = false) (heventfd : d.eventfd = false)
      (htext : y.text = x.text.drop n)
      (hpc : y.pc = x.afterOutput { d with solverchild := false } n) : Polls x d (.handle n) y

/-- The callback stays. -/
theorem Does.rule (h : Does x a y) (hcb : ∀ cb, a ≠ .setStdoutCb cb) :
    y.solver.rule = x.solver.rule := by
  have hrule : y.solver.stdoutCb = x.solver.stdoutCb → y.solver.rule = x.solver.rule := by
    intro hsame
    funext line
    rw [QuapiSolver.rule, QuapiSolver.rule, h.regexes, hsame]
  refine hrule ?_
  cases h with
  | pass solver listens msgs hpid hregexes hcb' hstate hmsgs =>
    rcases hcb' with hsame | ⟨cb, rfl, -⟩
    · exact hsame
    · exact absurd rfl (hcb cb)
  | proceed pending hpc hneeds => exact (proceed_regexes x pending).2
  | report pending pid source rest hpc hparent => exact (proceed_regexes _ pending).2
  | abort d hpc hchild heventfd hrequests =>
    rcases x.abortSolverchild_cases with heq | ⟨pid, heq⟩ <;> rw [heq]
    rfl
  | _ => rfl

theorem Does.polls (h : Does x a y) (hx : x.pc = .polling d) : Polls x d a y := by
  have hnil : x.text = x.text ++ [] := (List.append_nil _).symm
  have hidle : x.pc ≠ .idle := by
    rw [hx]
    exact LibraryPc.noConfusion
  have hsame : ∀ e, x.pc = .polling e → e = d := fun e he =>
    LibraryPc.polling.inj (he.symm.trans hx)
  cases h with
  | reset hpc hstate => exact absurd hpc hidle
  | ask pending hpc hneeds => exact absurd hpc hidle
  | proceed pending hpc hneeds => exact absurd hpc hidle
  | report pending pid source rest hpc hparent => exact LibraryPc.noConfusion (hpc.symm.trans hx)
  | skip pending msg source rest hpc hparent hmsg => exact LibraryPc.noConfusion (hpc.symm.trans hx)
  | finish retcode hpc => exact LibraryPc.noConfusion (hpc.symm.trans hx)
  | poll e hpc hnone =>
    obtain rfl := hsame e hpc
    exact .poll hnone rfl rfl
  | message e msg source rest hpc hchild hparent =>
    obtain rfl := hsame e hpc
    exact .message hchild (hparent ▸ List.mem_cons_self) rfl
  | abort e hpc hchild heventfd hrequests =>
    obtain rfl := hsame e hpc
    exact .abort hchild heventfd rfl
  | output n e hpc hchild heventfd hsolverchild hn =>
    obtain rfl := hsame e hpc
    exact .output hchild heventfd List.map_drop rfl
  | print pid text c hrunning =>
    refine .other hx ?_ Act.noConfusion fun _ => Act.noConfusion
    change (x.stdout ++ text.map _).map Prod.fst = x.stdout.map Prod.fst ++ text
    rw [List.map_append, List.map_map]
    exact congrArg _ (List.map_id text)
  | pass solver listens msgs hpid hregexes hcb hstate hmsgs hlistens hact =>
    rcases hact with ⟨c, rfl, hpc⟩ | ⟨cb, rfl⟩
    · exact absurd hpc hidle
    · exact .other hx hnil Act.noConfusion fun _ => Act.noConfusion
  | _ => exact .other hx hnil Act.noConfusion fun _ => Act.noConfusion

/-- Behind the poll loop, the return code stays. -/
theorem Does.finishing (h : Does x a y) (hx : x.pc = .finishing v) (ha : a ≠ .finish) :
    y.pc = .finishing v ∧ a ≠ .poll := by
  have hidle : x.pc ≠ .idle := by
    rw [hx]
    exact LibraryPc.noConfusion
  cases h with
  | reset hpc hstate => exact absurd hpc hidle
  | ask pending hpc hneeds => exact absurd hpc hidle
  | proceed pending hpc hneeds => exact absurd hpc hidle
  | report pending pid source rest hpc hparent => exact LibraryPc.noConfusion (hpc.symm.trans hx)
  | skip pending msg source rest hpc hparent hmsg => exact LibraryPc.noConfusion (hpc.symm.trans hx)
  | poll e hpc hnone => exact LibraryPc.noConfusion (hpc.symm.trans hx)
  | message e msg source rest hpc hchild hparent => exact LibraryPc.noConfusion (hpc.symm.trans hx)
  | abort e hpc hchild heventfd hrequests => exact LibraryPc.noConfusion (hpc.symm.trans hx)
  | output n e hpc hchild heventfd hsolverchild hn =>
    exact LibraryPc.noConfusion (hpc.symm.trans hx)
  | finish retcode hpc => exact absurd rfl ha
  | pass solver listens msgs hpid hregexes hcb hstate hmsgs hlistens hact =>
    rcases hact with ⟨c, rfl, hpc⟩ | ⟨cb, rfl⟩
    · exact absurd hpc hidle
    · exact ⟨hx, Act.noConfusion⟩
  | _ => exact ⟨hx, Act.noConfusion⟩

theorem run_finishing (hrun : Machine.run (step allowMissing) x acts = some y)
    (hx : x.pc = .finishing v) (hround : .finish ∉ acts) : y.pc = .finishing v := by
  induction acts generalizing x with
  | nil =>
    rw [← Option.some.inj hrun]
    exact hx
  | cons a acts ih =>
    obtain ⟨u, hu, hrest⟩ := Machine.run_cons.mp hrun
    have ha : a ≠ .finish := (List.ne_of_not_mem_cons hround).symm
    exact ih hrest ((does_of_step hu).finishing hx ha).1 (List.not_mem_of_not_mem_cons hround)

/-! ### What has been heard -/

/-- **The poll loop listens**: what it has heard is no verdict yet, and for what comes only the
buffer matters. -/
structure Listening (s : QuapiSolver) (heard : List Char) (x : System) (d : PollData) : Prop where
  pc : x.pc = .polling d
  child : d.child = false
  eventfd : d.eventfd = false
  buf : '\n' ∉ d.buf
  rule : x.solver.rule = s.rule
  undecided : s.verdict heard = none
  more : ∀ text, s.verdict (heard ++ text) = s.verdict (d.buf ++ text)

/-- **The poll loop has decided** what it has heard. -/
def Decided (s : QuapiSolver) (heard : List Char) (x : System) : Prop :=
  ∃ v, x.pc = .finishing v ∧ s.verdict heard = some v

theorem Decided.append {heard : List Char} (h : x.Decided s heard) (text : List Char) :
    x.Decided s (heard ++ text) := by
  obtain ⟨v, hpc, hv⟩ := h
  exact ⟨v, hpc, QuapiSolver.verdict_append_of_some hv⟩

theorem hears_handle (stdout : List Char) (n : ℕ) (acts : List Act) :
    hears stdout (.handle n :: acts) =
      (stdout.take n).takeWhile (· ≠ '\x00') ++ hears (stdout.drop n) acts := rfl

theorem hears_of_ne (stdout : List Char) (ha : ∀ n, a ≠ .handle n) :
    hears stdout (a :: acts) = hears (stdout ++ a.printed) acts := by
  cases a with
  | handle n => exact absurd rfl (ha n)
  | _ => rfl

theorem heard_eq (x : System) (n : ℕ) :
    x.heard n = (x.text.take n).takeWhile (· ≠ '\x00') := by
  rw [heard, text, List.map_take]

theorem verdict_of_rule {t : QuapiSolver} (h : s.rule = t.rule) (text : List Char) :
    s.verdict text = t.verdict text := by
  rw [QuapiSolver.verdict, QuapiSolver.verdict, h]

/-- What a reading of the output decides. -/
theorem afterOutput_spec (x : System) (hbuf : '\n' ∉ d.buf) (n : ℕ) :
    (∃ v, x.afterOutput d n = .finishing v ∧ x.solver.verdict (d.buf ++ x.heard n) = some v) ∨
      x.afterOutput d n =
          .polling { d with buf := unfinishedLine [] (d.buf ++ x.heard n) } ∧
        x.solver.verdict (d.buf ++ x.heard n) = none := by
  have hcount : (x.heard n).count '\n' = (d.buf ++ x.heard n).count '\n' := by
    rw [List.count_append, List.count_eq_zero.mpr hbuf, Nat.zero_add]
  rw [afterOutput, hcount]
  rcases x.solver.serveLines_spec (d.buf ++ x.heard n) with ⟨v, buf, hserve, hv⟩ | ⟨hserve, hv⟩ <;>
    rw [hserve]
  · exact Or.inl ⟨v, rfl, hv⟩
  · exact Or.inr ⟨rfl, hv⟩

/-- **A quiet round goes by what is heard.** -/
theorem Listening.run {heard : List Char} (h : x.Listening s heard d)
    (hquiet : Machine.Meets (step allowMissing) Quiet x acts) (hround : .finish ∉ acts)
    (hcb : ∀ cb, .setStdoutCb cb ∉ acts)
    (hrun : Machine.run (step allowMissing) x acts = some y) :
    y.Decided s (heard ++ hears x.text acts) ∨
      ∃ e, y.Listening s (heard ++ hears x.text acts) e := by
  induction acts generalizing x d heard with
  | nil =>
    obtain rfl := Option.some.inj hrun
    refine Or.inr ⟨d, ?_⟩
    rwa [hears, List.append_nil]
  | cons a acts ih =>
    obtain ⟨u, hu, hrest⟩ := Machine.run_cons.mp hrun
    have hdoes := does_of_step hu
    -- the rule is that of the round's beginning
    have hset : ∀ cb, a ≠ .setStdoutCb cb := fun cb => (List.ne_of_not_mem_cons (hcb cb)).symm
    have hrule := (hdoes.rule hset).trans h.rule
    have hround' := List.not_mem_of_not_mem_cons hround
    have hcb' := fun cb => List.not_mem_of_not_mem_cons (hcb cb)
    have hquiet' := hquiet.2 u hu
    cases hdoes.polls h.pc with
    | other hpc htext hpoll hhandle =>
      rw [hears_of_ne _ hhandle, ← htext]
      exact ih ⟨hpc, h.child, h.eventfd, h.buf, hrule, h.undecided, h.more⟩ hquiet' hround' hcb'
        hrest
    | poll hnone htext hpc =>
      obtain ⟨hparent, heventfd⟩ := hquiet.1
      have hnothing : x.text ++ Act.poll.printed = u.text := (List.append_nil _).trans htext.symm
      rw [hears_of_ne _ fun _ => Act.noConfusion, hnothing]
      rw [hparent, heventfd] at hpc
      exact ih ⟨hpc, rfl, rfl, h.buf, hrule, h.undecided, h.more⟩ hquiet' hround' hcb' hrest
    | message hchild hmsg hpc => exact absurd (h.child.symm.trans hchild) Bool.false_ne_true
    | abort hchild heventfd hpc => exact absurd (h.eventfd.symm.trans heventfd) Bool.false_ne_true
    | @output _ n hchild heventfd htext hpc =>
      rw [hears_handle, ← heard_eq, ← htext, ← List.append_assoc]
      have hmore := h.more (x.heard n)
      rcases x.afterOutput_spec (d := { d with solverchild := false }) h.buf n with
        ⟨v, hafter, hv⟩ | ⟨hafter, hv⟩ <;> rw [verdict_of_rule h.rule] at hv <;>
        rw [hafter] at hpc
      -- a line has decided, and no other act of the round changes that
      · have hdecided : y.Decided s (heard ++ x.heard n) :=
          ⟨v, run_finishing hrest hpc hround', hmore.trans hv⟩
        exact Or.inl (hdecided.append _)
      · refine ih ⟨hpc, h.child, h.eventfd, notMem_unfinishedLine List.not_mem_nil, hrule,
          hmore.trans hv, ?_⟩ hquiet' hround' hcb' hrest
        -- nothing is decided, and the buffer holds the unfinished line
        intro text
        rw [List.append_assoc, h.more, ← List.append_assoc, QuapiSolver.verdict_append_of_none hv]

/-! ### What is printed is heard -/

/-- **The library attends to the output**: neither a message nor a request has been found. -/
def Attentive (x : System) : Prop :=
  (∃ d, x.pc = .polling d ∧ d.child = false ∧ d.eventfd = false) ∨ ∃ v, x.pc = .finishing v

/-- The output over one act: it is read, or what is printed is put behind it. -/
inductive Hears (x : System) : Act → System → Prop
  | reading {y : System} (n : ℕ) (hlogged : y.logged = x.logged ++ x.stdout.take n)
      (hstdout : y.stdout = x.stdout.drop n) : Hears x (.handle n) y
  | other {a : Act} {y : System} (ha : ∀ n, a ≠ .handle n) (hlogged : y.logged = x.logged)
      (hstdout : y.stdout = x.stdout ++ a.printed.map fun c => (c, x.round)) : Hears x a y

theorem logged_append_output (x : System) (pc : LibraryPc) (stdout data : List (Char × ℕ)) :
    logged { x with stdout := stdout, log := x.log ++ [.output x.round data], pc := pc } =
      x.logged ++ data := by
  rw [logged, List.flatMap_append, List.flatMap_singleton]
  simp only [if_true]
  rfl

/-- **A quiet act of a round**, in which only the child of the round prints. -/
theorem Does.hear (h : Does x a y) (hx : x.Attentive) (hquiet : x.Quiet a) (halone : x.Alone a)
    (ha : a ≠ .finish) : y.Attentive ∧ y.round = x.round ∧ Hears x a y := by
  have hbusy : ∀ d, x.pc = .polling d → d.child = false ∧ d.eventfd = false := by
    rintro d hd
    rcases hx with ⟨e, he, hfound⟩ | ⟨v, hv⟩
    · obtain rfl := LibraryPc.polling.inj (hd.symm.trans he)
      exact hfound
    · exact absurd (hd.symm.trans hv) LibraryPc.noConfusion
  have hidle : x.pc ≠ .idle := by
    rintro hc
    rcases hx with ⟨e, he, -⟩ | ⟨v, hv⟩
    · exact absurd (hc.symm.trans he) LibraryPc.noConfusion
    · exact absurd (hc.symm.trans hv) LibraryPc.noConfusion
  have hforking : ∀ pending, x.pc ≠ .forking pending := by
    rintro pending hc
    rcases hx with ⟨e, he, -⟩ | ⟨v, hv⟩
    · exact absurd (hc.symm.trans he) LibraryPc.noConfusion
    · exact absurd (hc.symm.trans hv) LibraryPc.noConfusion
  have hnil : x.stdout = x.stdout ++ ([] : List Char).map fun c => (c, x.round) :=
    (List.append_nil _).symm
  cases h with
  | reset hpc hstate => exact absurd hpc hidle
  | ask pending hpc hneeds => exact absurd hpc hidle
  | proceed pending hpc hneeds => exact absurd hpc hidle
  | report pending pid source rest hpc hparent => exact absurd hpc (hforking pending)
  | skip pending msg source rest hpc hparent hmsg => exact absurd hpc (hforking pending)
  | finish retcode hpc => exact absurd rfl ha
  | message d msg source rest hpc hchild hparent =>
    exact absurd ((hbusy d hpc).1.symm.trans hchild) Bool.false_ne_true
  | abort d hpc hchild heventfd hrequests =>
    exact absurd ((hbusy d hpc).2.symm.trans heventfd) Bool.false_ne_true
  | poll d hpc hnone =>
    obtain ⟨hparent, heventfd⟩ := hquiet
    refine ⟨Or.inl ⟨_, rfl, ?_, ?_⟩, rfl, .other (fun _ => Act.noConfusion) rfl hnil⟩
    · rw [hparent]
      rfl
    · rw [heventfd]
      rfl
  | output n d hpc hchild heventfd hsolverchild hn =>
    refine ⟨?_, rfl, .reading n (logged_append_output x _ _ _) rfl⟩
    rcases x.afterOutput_cases { d with solverchild := false } n with ⟨v, ho⟩ | ⟨buf, ho⟩
    · exact Or.inr ⟨v, ho⟩
    · exact Or.inl ⟨_, ho, hchild, heventfd⟩
  | print pid text c hrunning =>
    refine ⟨hx, rfl, .other (fun _ => Act.noConfusion) rfl ?_⟩
    rw [halone.1 c hrunning]
    rfl
  | pass solver listens msgs hpid hregexes hcb hstate hmsgs hlistens hact =>
    rcases hact with ⟨c, rfl, hpc⟩ | ⟨cb, rfl⟩
    · exact absurd hpc hidle
    · exact ⟨hx, rfl, .other (fun _ => Act.noConfusion) rfl hnil⟩
  | _ => exact ⟨hx, rfl, .other (fun _ => Act.noConfusion) rfl hnil⟩

/-- Nothing is cut from output without a zero byte. -/
theorem takeWhile_clean {data : List (Char × ℕ)} {k : ℕ}
    (h : ∀ d ∈ data, d.2 = k ∧ d.1 ≠ '\x00') :
    (data.map Prod.fst).takeWhile (· ≠ '\x00') = data.map Prod.fst := by
  refine List.takeWhile_eq_self_iff.mpr ?_
  rintro c hc
  obtain ⟨d, hd, rfl⟩ := List.mem_map.mp hc
  exact decide_eq_true (h d hd).2

/-- **What is printed is heard**, in a quiet round with clean output: what is read is what the
library hears, and with what is left it is all that was there and has been printed. -/
theorem hears_append (hx : x.Attentive)
    (hquiet : Machine.Meets (step allowMissing) Quiet x acts)
    (halone : Machine.Meets (step allowMissing) Alone x acts)
    (hclean : ∀ d ∈ x.stdout, d.2 = x.round ∧ d.1 ≠ '\x00') (hround : .finish ∉ acts)
    (hrun : Machine.run (step allowMissing) x acts = some y) :
    ∃ data, y.logged = x.logged ++ data ∧ data.map Prod.fst = hears x.text acts ∧
      data ++ y.stdout =
        x.stdout ++ (acts.flatMap Act.printed).map (fun c => (c, x.round)) ∧
      y.round = x.round ∧ ∀ d ∈ y.stdout, d.2 = x.round ∧ d.1 ≠ '\x00' := by
  induction acts generalizing x with
  | nil =>
    obtain rfl := Option.some.inj hrun
    exact ⟨[], (List.append_nil _).symm, rfl, (List.append_nil _).symm, rfl, hclean⟩
  | cons a acts ih =>
    obtain ⟨u, hu, hrest⟩ := Machine.run_cons.mp hrun
    have ha : a ≠ .finish := (List.ne_of_not_mem_cons hround).symm
    obtain ⟨hu', hsame, hhears⟩ := (does_of_step hu).hear hx hquiet.1 halone.1 ha
    have hrest' := ih hu' (hquiet.2 u hu) (halone.2 u hu)
    rw [hsame] at hrest'
    cases hhears with
    | reading n hlogged hstdout =>
      rw [hlogged, hstdout] at hrest'
      obtain ⟨data, hdata, hmap, heq, hr, hy⟩ := hrest'
        (fun d hd => hclean d (List.mem_of_mem_drop hd)) (List.not_mem_of_not_mem_cons hround) hrest
      have htake : (x.text.take n).takeWhile (· ≠ '\x00') = (x.stdout.take n).map Prod.fst := by
        rw [text, ← List.map_take, takeWhile_clean fun d hd => hclean d (List.mem_of_mem_take hd)]
      have htext : u.text = x.text.drop n := by
        rw [text, hstdout, List.map_drop, text]
      refine ⟨x.stdout.take n ++ data, ?_, ?_, ?_, hr, hy⟩
      · rw [hdata, List.append_assoc]
      · rw [List.map_append, hmap, hears_handle, htake, htext]
      · rw [List.append_assoc, heq, ← List.append_assoc, List.take_append_drop]
        rfl
    | other hhandle hlogged hstdout =>
      have hprinted : ∀ d ∈ u.stdout, d.2 = x.round ∧ d.1 ≠ '\x00' := by
        rw [hstdout]
        rintro d hd
        rcases List.mem_append.mp hd with hd | hd
        · exact hclean d hd
        · obtain ⟨c, hc, rfl⟩ := List.mem_map.mp hd
          refine ⟨rfl, ?_⟩
          cases a with
          | print pid text => exact fun hzero => halone.1.2 (hzero ▸ hc)
          | _ => exact absurd hc List.not_mem_nil
      obtain ⟨data, hdata, hmap, heq, hr, hy⟩ := hrest' hprinted
        (List.not_mem_of_not_mem_cons hround) hrest
      have htext : u.text = x.text ++ a.printed := by
        rw [text, hstdout, List.map_append, List.map_map, text]
        exact congrArg _ (List.map_id a.printed)
      refine ⟨data, hlogged ▸ hdata, ?_, ?_, hr, hy⟩
      · rw [hmap, hears_of_ne _ hhandle, htext]
      · rw [heq, hstdout, List.flatMap_cons, List.map_append, List.append_assoc]

/-- A callback that rules on nothing changes no verdict. -/
theorem verdict_of_callback (hcb : ∀ cb ∈ s.stdoutCb, ∀ line, cb line = 0) (text : List Char) :
    s.verdict text = s.regexVerdict text := by
  refine verdict_of_rule ?_ text
  funext line
  have hnone : (s.stdoutCb.bind fun cb => if cb line ≠ 0 then some (cb line) else none) = none := by
    rw [Option.bind_eq_none_iff]
    rintro cb hmem
    rw [hcb cb hmem line]
    rfl
  rw [QuapiSolver.rule, QuapiSolver.rule, hnone]
  rfl

/-! ### What is lost -/

/-- **A message that a poll has found ends the round**, and so does a request: in regex mode,
`quapi_solve` returns `0` then. -/
theorem run_found (hmode : x.Mode) {r : (List Char → Bool) × (List Char → Bool)}
    (hregexes : x.solver.regexes = some r) (hpc : x.pc = .polling d)
    (hfound : d.child = true ∨ d.eventfd = true) (hround : .finish ∉ acts)
    (hrun : Machine.run (step allowMissing) x acts = some y) (hy : y.pc = .finishing retcode) :
    retcode = 0 := by
  induction acts generalizing x d with
  | nil =>
    rw [← Option.some.inj hrun, hpc] at hy
    exact absurd hy LibraryPc.noConfusion
  | cons a acts ih =>
    obtain ⟨u, hu, hrest⟩ := Machine.run_cons.mp hrun
    have hround' := List.not_mem_of_not_mem_cons hround
    have hdoes := does_of_step hu
    -- behind the poll loop, the return code stays what it is
    have hzero : u.pc = .finishing 0 → retcode = 0 := fun hu =>
      LibraryPc.finishing.inj (hy.symm.trans (run_finishing hrest hu hround'))
    cases hdoes.polls hpc with
    | other hpc' htext hpoll hhandle =>
      exact ih (hmode.step hdoes) (hdoes.regexes.trans hregexes) hpc' hfound hround' hrest
    | poll hnone htext hpc' =>
      refine absurd ?_ hnone
      rcases hfound with hf | hf
      · exact Or.inl hf
      · exact Or.inr (Or.inl hf)
    | @message _ n msg source hchild hmsg hpc' =>
      refine hzero (hpc'.trans ?_)
      rcases hmode.parent _ hmsg with ⟨pid, rfl⟩ | ⟨hnone, -⟩ | ⟨-, rfl⟩
      · rfl
      · rw [hregexes] at hnone
        exact absurd hnone Bool.false_ne_true
      · rfl
    | abort hchild heventfd hpc' => exact hzero hpc'
    | output hchild heventfd htext hpc' =>
      rcases hfound with hf | hf
      · exact absurd (hchild.symm.trans hf) Bool.false_ne_true
      · exact absurd (heventfd.symm.trans hf) Bool.false_ne_true

/-- A round that returns something else has been quiet. -/
theorem quiet_of_returned (hmode : x.Mode) {r : (List Char → Bool) × (List Char → Bool)}
    (hregexes : x.solver.regexes = some r)
    (hpc : x.Attentive) (hround : .finish ∉ acts)
    (hrun : Machine.run (step allowMissing) x acts = some y) (hy : y.pc = .finishing retcode)
    (hretcode : retcode ≠ 0) :
    Machine.Meets (step allowMissing) Quiet x acts := by
  induction acts generalizing x with
  | nil => exact trivial
  | cons a acts ih =>
    obtain ⟨u, hu, hrest⟩ := Machine.run_cons.mp hrun
    have hround' := List.not_mem_of_not_mem_cons hround
    have hdoes := does_of_step hu
    have hmeets : x.Quiet a → u.Attentive →
        Machine.Meets (step allowMissing) Quiet x (a :: acts) := by
      intro hquiet hpc'
      refine ⟨hquiet, ?_⟩
      intro t ht
      obtain rfl := Option.some.inj (hu.symm.trans ht)
      exact ih (hmode.step hdoes) (hdoes.regexes.trans hregexes) hpc' hround' hrest
    have hother : a ≠ .poll → x.Quiet a := by
      intro ha
      cases a with
      | poll => exact absurd rfl ha
      | _ => exact trivial
    rcases hpc with ⟨d, hpc, hchild, heventfd⟩ | ⟨v, hpc⟩
    · cases hdoes.polls hpc with
      | other hpc' htext hpoll hhandle =>
        exact hmeets (hother hpoll) (Or.inl ⟨d, hpc', hchild, heventfd⟩)
      | poll hnone htext hpc' =>
        -- a poll that finds a message or a request would have ended the round with 0
        by_cases hfound : (!x.toParent.isEmpty) = true ∨ (!x.eventfd.isEmpty) = true
        · exact absurd (run_found (hmode.step hdoes) (hdoes.regexes.trans hregexes) hpc' hfound
            hround' hrest hy) hretcode
        · obtain ⟨hparent, hrequest⟩ := not_or.mp hfound
          refine hmeets ⟨?_, ?_⟩ (Or.inl ⟨_, hpc', ?_, ?_⟩)
          · simpa using hparent
          · simpa using hrequest
          · exact Bool.eq_false_iff.mpr hparent
          · exact Bool.eq_false_iff.mpr hrequest
      | message hfound hmsg hpc' => exact absurd (hchild.symm.trans hfound) Bool.false_ne_true
      | abort _ hfound hpc' => exact absurd (heventfd.symm.trans hfound) Bool.false_ne_true
      | @output _ n _ _ htext hpc' =>
        refine hmeets trivial ?_
        rcases x.afterOutput_cases { d with solverchild := false } n with ⟨v, ho⟩ | ⟨buf, ho⟩
        · exact Or.inr ⟨v, hpc'.trans ho⟩
        · exact Or.inl ⟨_, hpc'.trans ho, hchild, heventfd⟩
    · have hround'' : a ≠ .finish := (List.ne_of_not_mem_cons hround).symm
      obtain ⟨hpc', hpoll⟩ := hdoes.finishing hpc hround''
      exact hmeets (hother hpoll) (Or.inr ⟨v, hpc'⟩)

/-! ### The library alone -/

/-- The output is polled for in regex mode. -/
theorem Does.listens (h : Does x a y) (hx : x.listens = true) : y.listens = true := by
  have hproceed : ∀ (z : System) (pending : PendingCall),
      (z.proceed pending).listens = z.listens := by
    intro z pending
    cases pending with
    | assume lit => rfl
    | solve =>
      rw [System.proceed]
      split <;> rfl
  cases h with
  | pass solver listens msgs hpid hregexes hcb hstate hmsgs hlistens => exact hlistens hx
  | reset hpc hstate =>
    rcases x.abortSolverchild_cases with heq | ⟨pid, heq⟩ <;> rw [heq] <;> exact hx
  | proceed pending hpc hneeds => exact (hproceed x pending).trans hx
  | report pending pid source rest hpc hparent => exact (hproceed _ pending).trans hx
  | abort d hpc hchild heventfd hrequests =>
    rcases x.abortSolverchild_cases with heq | ⟨pid, heq⟩ <;> rw [heq] <;> exact hx
  | _ => exact hx

/-- **The library returns a verdict that is there**, by its own steps, as long as it finds
nothing else. -/
theorem Listening.returns {heard : List Char} (h : x.Listening s heard d)
    (hlistens : x.listens = true) (hparent : x.toParent = []) (heventfd : x.eventfd = [])
    (hv : s.verdict (heard ++ x.heard x.stdout.length) = some v) :
    ∃ acts z, (∀ a ∈ acts, a = .poll ∨ ∃ n, a = .handle n) ∧
      Machine.run (step allowMissing) x acts = some z ∧ z.pc = .finishing v := by
  have hbuf : s.verdict (d.buf ++ x.heard x.stdout.length) = some v := (h.more _).symm.trans hv
  -- reading all that is there decides
  have hhandle : ∀ e : PollData, e.child = false → e.eventfd = false → e.solverchild = true →
      e.buf = d.buf → ∃ z, step allowMissing { x with pc := .polling e } (.handle x.stdout.length) =
        some z ∧ z.pc = .finishing v := by
    intro e hc he hs hb
    have hcan : System.CanRead { x with pc := .polling e } x.stdout.length := ⟨le_rfl, Or.inl rfl⟩
    have hstep : step allowMissing { x with pc := .polling e } (.handle x.stdout.length) =
        System.handleSolverchild { x with pc := .polling e } { e with solverchild := false }
          x.stdout.length := by
      change System.handle _ e _ = _
      rw [handle, if_neg (by rw [hc]; simp), if_neg (by rw [he]; simp), if_pos hs]
    rw [hstep, handleSolverchild, if_pos hcan]
    refine ⟨_, rfl, ?_⟩
    have hnone : '\n' ∉ ({ e with solverchild := false } : PollData).buf := by
      change '\n' ∉ e.buf
      rw [hb]
      exact h.buf
    have hsame : x.solver.verdict (e.buf ++ x.heard x.stdout.length) = some v := by
      rw [hb, verdict_of_rule h.rule]
      exact hbuf
    -- the verdict on the text is what the loop over the lines finds
    rcases System.afterOutput_spec { x with pc := .polling e } hnone x.stdout.length with
      ⟨w, hafter, hw⟩ | ⟨-, hw⟩
    · obtain rfl : w = v := Option.some.inj (hw.symm.trans hsame)
      exact hafter
    · exact absurd (hw.symm.trans hsame) (by simp)
  have hself : { x with pc := .polling d } = x := by
    rw [← h.pc]
  cases hready : d.solverchild with
  | true =>
    obtain ⟨z, hz, hpc⟩ := hhandle d h.child h.eventfd hready rfl
    rw [hself] at hz
    exact ⟨[.handle x.stdout.length], z, fun a ha => Or.inr ⟨_, List.mem_singleton.mp ha⟩,
      Machine.run_cons.mpr ⟨z, hz, rfl⟩, hpc⟩
  | false =>
    have hsome : x.stdout ≠ [] := by
      intro hnil
      rw [System.heard, hnil, QuapiSolver.verdict_of_notMem] at hbuf
      · exact absurd hbuf (by simp)
      · rw [List.take_nil, List.map_nil, List.takeWhile_nil, List.append_nil]
        exact h.buf
    have hpoll : step allowMissing x .poll =
        some { x with pc := .polling ⟨false, false, true, d.buf⟩ } := by
      have hstep : step allowMissing x .poll = x.poll d := by
        rw [step.eq_def]
        simp only [h.pc]
      rw [hstep, System.poll, h.child, h.eventfd, hready, hlistens, hparent, heventfd,
        List.isEmpty_eq_false_iff.mpr hsome]
      rfl
    obtain ⟨z, hz, hpc⟩ := hhandle ⟨false, false, true, d.buf⟩ rfl rfl rfl rfl
    refine ⟨[.poll, .handle x.stdout.length], z, ?_,
      Machine.run_cons.mpr ⟨_, hpoll, Machine.run_cons.mpr ⟨z, hz, rfl⟩⟩, hpc⟩
    intro a ha
    rcases List.mem_cons.mp ha with rfl | ha
    · exact Or.inl rfl
    · exact Or.inr ⟨_, List.mem_singleton.mp ha⟩

section

variable {before : List Act} {r : (List Char → Bool) × (List Char → Bool)}
  (hbefore : Machine.run (step allowMissing) (start s) before = some x)
  (hregexes : s.regexes = some r)

include hbefore hregexes in
/-- In regex mode, the output is always polled for. -/
theorem regex_mode : x.Mode ∧ x.listens = true ∧ x.solver.regexes = some r :=
  Machine.invariant (I := fun x => x.Mode ∧ x.listens = true ∧ x.solver.regexes = some r)
    (fun _ _ _ hy hx => ⟨hx.1.step (does_of_step hy), (does_of_step hy).listens hx.2.1,
      (does_of_step hy).regexes.trans hx.2.2⟩)
    hbefore ⟨mode_start s, by rw [start, hregexes]; rfl, hregexes⟩

variable (hpc : x.pc = .polling ⟨false, false, false, []⟩) (hround : .finish ∉ acts)
  (hcb : ∀ cb, .setStdoutCb cb ∉ acts)
  (hrun : Machine.run (step allowMissing) x acts = some y)

include hpc hround hcb hrun

/-- **What a quiet round returns** is the verdict on what has been heard. -/
theorem heard_of_returned (hquiet : Machine.Meets (step allowMissing) Quiet x acts)
    (hy : y.pc = .finishing retcode) : x.solver.verdict (hears x.text acts) = some retcode := by
  have hbegin : x.Listening x.solver [] ⟨false, false, false, []⟩ :=
    ⟨hpc, rfl, rfl, List.not_mem_nil, rfl, rfl, fun _ => rfl⟩
  rcases hbegin.run hquiet hround hcb hrun with ⟨w, hw, hverdict⟩ | ⟨e, he⟩
  · obtain rfl := LibraryPc.finishing.inj (hy.symm.trans hw)
    exact hverdict
  · exact absurd (hy.symm.trans he.pc) LibraryPc.noConfusion

include hbefore hregexes

/-- On any output, a verdict is returned if and only if the round is quiet and it is the first
that the library has heard. -/
theorem returned_iff_heard (hv : v ≠ 0) (hy : y.pc = .finishing retcode) :
    retcode = v ↔ Machine.Meets (step allowMissing) Quiet x acts ∧
      x.solver.verdict (hears x.text acts) = some v := by
  obtain ⟨hmode, -, hregexes'⟩ := regex_mode hbefore hregexes
  constructor
  · rintro rfl
    have hquiet := quiet_of_returned hmode hregexes' (Or.inl ⟨_, hpc, rfl, rfl⟩) hround hrun hy hv
    exact ⟨hquiet, heard_of_returned hpc hround hcb hrun hquiet hy⟩
  · rintro ⟨hquiet, hverdict⟩
    have hheard := heard_of_returned hpc hround hcb hrun hquiet hy
    exact Option.some.inj (hheard.symm.trans hverdict)

/-- **What has been heard, or is there, is returned**, by the library's own steps. -/
theorem heard_returns (hquiet : Machine.Meets (step allowMissing) Quiet x acts)
    (hparent : y.toParent = []) (heventfd : y.eventfd = [])
    (hheard : x.solver.verdict (hears x.text acts ++ y.heard y.stdout.length) = some v) :
    ∃ more z, (∀ a ∈ more, a = .poll ∨ ∃ n, a = .handle n) ∧
      Machine.run (step allowMissing) y more = some z ∧ z.pc = .finishing v := by
  have hlistens : y.listens = true :=
    Machine.invariant (I := fun x => x.listens = true)
      (fun _ _ _ hy hx => (does_of_step hy).listens hx) hrun (regex_mode hbefore hregexes).2.1
  have hbegin : x.Listening x.solver [] ⟨false, false, false, []⟩ :=
    ⟨hpc, rfl, rfl, List.not_mem_nil, rfl, rfl, fun _ => rfl⟩
  rcases hbegin.run hquiet hround hcb hrun with ⟨w, hw, hverdict⟩ | ⟨e, he⟩
  · obtain rfl : w = v :=
      Option.some.inj ((QuapiSolver.verdict_append_of_some hverdict).symm.trans hheard)
    exact ⟨[], y, List.forall_mem_nil _, rfl, hw⟩
  · exact he.returns hlistens hparent heventfd hheard

end

end

/-- A clause and the beginning of a round. -/
def solvingActs : List Act :=
  [.call (.add (lit 1)), .call (.add 0), .call (.assume (lit 2)), .seedRead, .seedRead,
    .seedFork 7, .seedReport, .readReport, .call .solve, .take 7 3]

/-- The child prints its verdict in two pieces, and is destructed once it has been heard. -/
def heardActs : List Act :=
  [.print 7 ['c', '\n', 'S', 'A'], .poll, .handle 4, .print 7 ['T', '\n'], .poll, .destruct 7,
    .handle 2]

end System

end QuAPI
