import QuAPI.Descriptors
import QuAPI.Machine

/-!
# Who has the pipes open

The application may have several solvers, and each of them has five pipes and an eventfd. Their
ends are inherited: a seeding process gets all that the application has open when it is forked,
the ends of other solvers included, and a solving child gets what its seeding process has. Nothing
is closed by `exec`. So it depends on the other solvers who sees the end of what the library
writes.

* `QuAPI.Plumbing.holds_iff` says who has which end open, in every state of every run;
* `QuAPI.Plumbing.endOfInput_iff` says who sees the end of a pipe: a seeding process only if its
  solver has been released, the pipes are closed with their streams, and no process is left
  of a solver that was initiated while its own solver was there; the library never, since it
  keeps its own end to write messages to;
* `QuAPI.Plumbing.ends_iff` says when all processes that are left end by themselves.

Zero-copy pipes are not closed with their streams: `quapi_zerocopy_pipe_close` leaves the
descriptor open, so that with them no seeding process ever sees the end of its input.
-/

namespace QuAPI

open Descriptors

/-! ### The ends of a solver -/

/-- The descriptors of a `quapi_solver`. A pipe has an end to read from, and one to write to. -/
inductive End where
  | readPipe (write : Bool)
  | writePipe (write : Bool)
  | forkedChildReadPipe (write : Bool)
  | forkedChildWritePipe (write : Bool)
  | messageToParentPipe (write : Bool)
  | eventfd
deriving DecidableEq

/-- The ends, in the order in which `quapi_init` gets them. -/
def End.all : List End :=
  [.eventfd, .readPipe false, .readPipe true, .writePipe false, .writePipe true,
    .forkedChildReadPipe false, .forkedChildReadPipe true, .forkedChildWritePipe false,
    .forkedChildWritePipe true, .messageToParentPipe false, .messageToParentPipe true]

/-- A file: an end of one of the solvers, or any other. -/
inductive File where
  | own (solver : ℕ) (e : End)
  | other (k : ℕ)
deriving DecidableEq

/-- What `quapi_init` opens, with the numbers it is given. -/
def openPipes (solver : ℕ) (fd : End → ℕ) (t : Table File) : Table File :=
  openAll t (End.all.map fun e => (fd e, .own solver e))

/-- `fork_and_exec`, in the application. -/
def parentSide (fd : End → ℕ) (t : Table File) : Table File :=
  closeAll t [fd (.readPipe false), fd (.writePipe true), fd (.forkedChildReadPipe false),
    fd (.forkedChildWritePipe true)]

/-- `fork_and_exec`, in the seeding process. -/
def childSide (fd : End → ℕ) (t : Table File) : Table File :=
  let t := closeAll t [fd (.writePipe false), fd (.readPipe true), fd (.forkedChildReadPipe true),
    fd (.forkedChildWritePipe false)]
  let t := dup2 t (fd (.readPipe false)) 0
  let t := dup2 t (fd (.writePipe true)) 1
  closeAll t [fd (.readPipe false), fd (.writePipe true)]

/-- `fork_solving_child`, in the child. The end to write to the children is closed twice, here and
in the seeding process, and the second number of the output is not closed at all. -/
def forkSolvingChild (fd : End → ℕ) (t : Table File) : Table File :=
  let t := closeAll t [0, 1]
  let t := dup2 t (fd (.forkedChildReadPipe false)) 0
  let t := closeAll t [fd (.forkedChildReadPipe false)]
  let t := dup2 t (fd (.forkedChildWritePipe true)) 1
  closeAll t [fd (.forkedChildReadPipe true)]

/-- `quapi_release`. The streams of zero-copy pipes do not close their descriptors. -/
def quapiRelease (zeroCopy : Bool) (fd : End → ℕ) (t : Table File) : Table File :=
  let t := if zeroCopy then t else closeAll t [fd (.readPipe true), fd (.forkedChildReadPipe true)]
  closeAll t [fd .eventfd]

/-! ### The processes -/

/-- What a process is: a seeding process, a solving child that reads, or one that has read its
input and works. A child that has been padded works with its input still open. -/
inductive Stage where
  | seeding
  | reading
  | padded
  | working
deriving DecidableEq

/-- A solving child that has read its input. -/
def Stage.Works (s : Stage) : Prop := s = .padded ∨ s = .working

instance (s : Stage) : Decidable s.Works := inferInstanceAs (Decidable (_ ∨ _))

/-- A process that has not ended. -/
structure Process where
  solver : ℕ
  stage : Stage
  table : Table File

/-- A solver in the application. -/
structure Wires where
  fd : End → ℕ
  /-- The seeding process waits for each of its children, since there are no regular expressions. -/
  waits : Bool
  released : Bool

/-- The application, its solvers, and the processes that have not ended. -/
structure Plumbing where
  table : Table File
  wires : List Wires
  procs : List Process

namespace Plumbing

/-- An end that nobody has open: what reads from the other end sees the end of its input. -/
def Closed (x : Plumbing) (f : File) : Prop :=
  ¬x.table.Holds f ∧ ∀ p ∈ x.procs, ¬p.table.Holds f

instance (x : Plumbing) (f : File) : Decidable (x.Closed f) := inferInstanceAs (Decidable (_ ∧ _))

/-- The seeding process of a solver is inside `fork_solving_child`. -/
def Waits (x : Plumbing) (i : ℕ) (w : Wires) : Prop :=
  w.waits = true ∧ ∃ q ∈ x.procs, q.solver = i ∧ q.stage ≠ .seeding

instance (x : Plumbing) (i : ℕ) (w : Wires) : Decidable (x.Waits i w) :=
  inferInstanceAs (Decidable (_ ∧ _))

/-- What may happen. -/
inductive Act where
  /-- `quapi_init`, with the numbers that the system calls return. -/
  | init (fd : End → ℕ) (waits : Bool)
  | release (solver : ℕ)
  /-- A seeding process forks a solving child. -/
  | fork (p : ℕ)
  /-- A solving child has read its input, and clauses have been missing: the input stays open. -/
  | pad (p : ℕ)
  /-- A solving child has read its input, or it has been padded and reads on. -/
  | work (p : ℕ)
  /-- A process sees the end of its input, and exits. -/
  | endOfInput (p : ℕ)
  /-- A child that works comes to its end. -/
  | finish (p : ℕ)
  | kill (p : ℕ)
  /-- The application opens another file, or closes one. -/
  | openFile (n k : ℕ)
  | closeFile (n : ℕ)
  /-- A process opens another file, or closes one. -/
  | openIn (p n k : ℕ)
  | closeIn (p n : ℕ)

/-- A number of another file. -/
def otherAt (t : Table File) (n : ℕ) : Bool :=
  match t.lookup n with
  | some (.other _) => true
  | _ => false

/-- A process sees the end of its input. A child that works does not look for it. -/
def SeesEnd (x : Plumbing) (q : Process) : Prop :=
  q.stage = .seeding ∧ x.Closed (.own q.solver (.readPipe true)) ∨
    q.stage = .reading ∧ x.Closed (.own q.solver (.forkedChildReadPipe true))

instance (x : Plumbing) (q : Process) : Decidable (x.SeesEnd q) :=
  inferInstanceAs (Decidable (_ ∨ _))

/-- A process reads: a seeding process does not while it waits for a child. -/
def Reads (x : Plumbing) (q : Process) : Prop :=
  q.stage = .seeding → ∀ w ∈ x.wires[q.solver]?, ¬x.Waits q.solver w

instance (x : Plumbing) (q : Process) : Decidable (x.Reads q) :=
  inferInstanceAs (Decidable (_ → _))

/-- One step. The application keeps its standard streams. -/
def step (zeroCopy : Bool) (x : Plumbing) : Act → Option Plumbing
  | .init fd waits =>
    if (End.all.map fd).Nodup ∧ ∀ e ∈ End.all, x.table.lookup (fd e) = none then
      let t := openPipes x.wires.length fd x.table
      some ⟨parentSide fd t, x.wires ++ [⟨fd, waits, false⟩],
        x.procs ++ [⟨x.wires.length, .seeding, childSide fd t⟩]⟩
    else none
  | .release i =>
    (x.wires[i]?).bind fun w =>
      if w.released then none
      else some { x with
        table := quapiRelease zeroCopy w.fd x.table
        wires := x.wires.set i { w with released := true } }
  | .fork p =>
    (x.procs[p]?).bind fun q => (x.wires[q.solver]?).bind fun w =>
      if q.stage = .seeding ∧ x.Reads q then
        some { x with procs := x.procs ++ [⟨q.solver, .reading, forkSolvingChild w.fd q.table⟩] }
      else none
  | .pad p =>
    (x.procs[p]?).bind fun q =>
      if q.stage = .reading then
        some { x with procs := x.procs.set p { q with stage := .padded } }
      else none
  | .work p =>
    (x.procs[p]?).bind fun q =>
      if q.stage = .reading ∨ q.stage = .padded then
        some { x with procs := x.procs.set p ⟨q.solver, .working, closeAll q.table [0]⟩ }
      else none
  | .endOfInput p =>
    (x.procs[p]?).bind fun q =>
      if x.SeesEnd q ∧ x.Reads q then some { x with procs := x.procs.eraseIdx p } else none
  | .finish p =>
    (x.procs[p]?).bind fun q =>
      if q.stage.Works then some { x with procs := x.procs.eraseIdx p } else none
  | .kill p => (x.procs[p]?).map fun _ => { x with procs := x.procs.eraseIdx p }
  | .openFile n k =>
    if x.table.lookup n = none then some { x with table := x.table.insert n (.other k) } else none
  | .closeFile n =>
    if otherAt x.table n ∧ 2 < n then some { x with table := closeAll x.table [n] } else none
  | .openIn p n k =>
    (x.procs[p]?).bind fun q =>
      if q.table.lookup n = none then
        some { x with procs := x.procs.set p { q with table := q.table.insert n (.other k) } }
      else none
  | .closeIn p n =>
    (x.procs[p]?).bind fun q =>
      if otherAt q.table n then
        some { x with procs := x.procs.set p { q with table := closeAll q.table [n] } }
      else none

/-- Which solvers had been released when each of them was initiated, kept beside the run. -/
def birth (x : Plumbing) (a : Act) (births : List (List Bool)) : List (List Bool) :=
  match a with
  | .init _ _ => births ++ [x.wires.map Wires.released]
  | _ => births

/-- Solver `k` had been initiated when solver `i` was, and had been released then, or not. -/
def Before (births : List (List Bool)) (i k : ℕ) (released : Bool) : Prop :=
  ∃ rs, births[i]? = some rs ∧ rs[k]? = some released

/-- One step, with the record. -/
def tracked (zeroCopy : Bool) : Plumbing × List (List Bool) → Act →
    Option (Plumbing × List (List Bool)) := Machine.track (step zeroCopy) birth

/-- An application without solvers, with its standard streams. -/
structure Starts (x : Plumbing) : Prop where
  std : ∀ n < 3, otherAt x.table n = true
  others : ∀ n, x.table.lookup n ≠ none → otherAt x.table n = true
  wires : x.wires = []
  procs : x.procs = []

/-! ### What each of them has open -/

/-- The ends of a solver that are open in the application. -/
def held (zeroCopy released : Bool) : List End :=
  if released then
    if zeroCopy then
      [.readPipe true, .writePipe false, .forkedChildReadPipe true, .forkedChildWritePipe false,
        .messageToParentPipe false, .messageToParentPipe true]
    else
      [.writePipe false, .forkedChildWritePipe false, .messageToParentPipe false,
        .messageToParentPipe true]
  else
    [.readPipe true, .writePipe false, .forkedChildReadPipe true, .forkedChildWritePipe false,
      .messageToParentPipe false, .messageToParentPipe true, .eventfd]

/-- The ends of its own solver that a process has open, and where. -/
def places (fd : End → ℕ) : Stage → List (ℕ × End)
  | .seeding =>
    [(0, .readPipe false), (1, .writePipe true),
      (fd (.forkedChildReadPipe false), .forkedChildReadPipe false),
      (fd (.forkedChildWritePipe true), .forkedChildWritePipe true),
      (fd (.messageToParentPipe false), .messageToParentPipe false),
      (fd (.messageToParentPipe true), .messageToParentPipe true), (fd .eventfd, .eventfd)]
  | .reading | .padded =>
    [(0, .forkedChildReadPipe false), (1, .forkedChildWritePipe true),
      (fd (.forkedChildWritePipe true), .forkedChildWritePipe true),
      (fd (.messageToParentPipe false), .messageToParentPipe false),
      (fd (.messageToParentPipe true), .messageToParentPipe true), (fd .eventfd, .eventfd)]
  | .working =>
    [(1, .forkedChildWritePipe true),
      (fd (.forkedChildWritePipe true), .forkedChildWritePipe true),
      (fd (.messageToParentPipe false), .messageToParentPipe false),
      (fd (.messageToParentPipe true), .messageToParentPipe true), (fd .eventfd, .eventfd)]

/-- The ends of its own solver that a process has open. -/
def ownEnds (s : Stage) : List End := (places (fun _ => 0) s).map Prod.snd

/-- **A process is as it should be**: it has the ends of its own solver at their places, and of
the others what the application had when the process was forked. -/
structure Placed (zeroCopy : Bool) (fd : End → ℕ) (births : List Bool) (p : Process) : Prop where
  own : ∀ n e, p.table.lookup n = some (.own p.solver e) ↔ (n, e) ∈ places fd p.stage
  foreign : ∀ k e, k ≠ p.solver →
    (p.table.Holds (.own k e) ↔ ∃ r, births[k]? = some r ∧ e ∈ held zeroCopy r)
  /-- The number that `fork_solving_child` closes by mistake is not one of an end. -/
  free : p.stage = .seeding → ∀ k e,
    p.table.lookup (fd (.forkedChildReadPipe true)) ≠ some (.own k e)

/-- A process belongs to a solver, which has the number that it had when it was initiated. -/
def Seated (zeroCopy : Bool) (wires : List Wires) (bs : List (List Bool)) (p : Process) : Prop :=
  ∃ w births, wires[p.solver]? = some w ∧ bs[p.solver]? = some births ∧
    births.length = p.solver ∧ Placed zeroCopy w.fd births p

/-- **The invariant.** -/
structure Wired (zeroCopy : Bool) (x : Plumbing × List (List Bool)) : Prop where
  std : ∀ n < 3, otherAt x.1.table n = true
  app : ∀ n k e, x.1.table.lookup n = some (.own k e) ↔
    ∃ w, x.1.wires[k]? = some w ∧ n = w.fd e ∧ e ∈ held zeroCopy w.released
  fds : ∀ w ∈ x.1.wires, Function.Injective w.fd ∧ ∀ e, 3 ≤ w.fd e
  births : x.2.length = x.1.wires.length
  procs : ∀ p ∈ x.1.procs, Seated zeroCopy x.1.wires x.2 p

/-! ### The system calls, one after the other -/

section

variable {fd : End → ℕ} {t : Table File} {i n : ℕ} {f a b : File} {e : End}

theorem End.mem_all (e : End) : e ∈ End.all := by
  cases e with
  | eventfd => decide
  | readPipe w | writePipe w | forkedChildReadPipe w | forkedChildWritePipe w
  | messageToParentPipe w => cases w <;> decide

theorem injective_of_nodup (h : (End.all.map fd).Nodup) : Function.Injective fd :=
  fun _ _ heq => List.inj_on_of_nodup_map h (End.mem_all _) (End.mem_all _) heq

/-- What `quapi_init` has opened. -/
theorem lookup_openPipes (h : (End.all.map fd).Nodup) : (openPipes i fd t).lookup n = some f ↔
    (∃ e, n = fd e ∧ f = .own i e) ∨ (∀ e, n ≠ fd e) ∧ t.lookup n = some f := by
  have hfst : (End.all.map fun e => (fd e, File.own i e)).map Prod.fst = End.all.map fd := by
    rw [List.map_map]
    rfl
  rw [openPipes, lookup_openAll (hfst ▸ h), hfst]
  refine or_congr ?_ (and_congr_left fun _ => ?_)
  · rw [List.mem_map]
    constructor
    · rintro ⟨e, -, heq⟩
      obtain ⟨rfl, rfl⟩ := Prod.mk.inj heq
      exact ⟨e, rfl, rfl⟩
    · rintro ⟨e, rfl, rfl⟩
      exact ⟨e, End.mem_all e, rfl⟩
  · rw [List.mem_map, not_exists]
    constructor
    · exact fun hn e heq => hn e ⟨End.mem_all e, heq.symm⟩
    · exact fun hn e heq => hn e heq.2.symm

/-- What a seeding process has open when it begins. -/
theorem lookup_childSide (hfd : Function.Injective fd) (hlow : ∀ e, 3 ≤ fd e)
    (ha : t.lookup (fd (.readPipe false)) = some a)
    (hb : t.lookup (fd (.writePipe true)) = some b) :
    (childSide fd t).lookup n =
      if n = 1 then some b
      else if n = 0 then some a
      else if n ∈ [fd (.readPipe false), fd (.writePipe true), fd (.writePipe false),
        fd (.readPipe true), fd (.forkedChildReadPipe true), fd (.forkedChildWritePipe false)] then
          none
      else t.lookup n := by
  have hnum : ∀ e, fd e ≠ 0 ∧ fd e ≠ 1 := fun e => by
    have := hlow e
    omega
  -- the descriptors that are moved are not among those that are closed before
  have hkept : ∀ e ∉ [End.writePipe false, .readPipe true, .forkedChildReadPipe true,
      .forkedChildWritePipe false], (closeAll t [fd (.writePipe false), fd (.readPipe true),
        fd (.forkedChildReadPipe true), fd (.forkedChildWritePipe false)]).lookup (fd e) =
          t.lookup (fd e) := by
    intro e he
    rw [lookup_closeAll, if_neg]
    intro hmem
    exact he ((List.mem_map_of_injective hfd).mp hmem)
  let closed := closeAll t [fd (.writePipe false), fd (.readPipe true),
    fd (.forkedChildReadPipe true), fd (.forkedChildWritePipe false)]
  have hzero : ∀ m, (dup2 closed (fd (.readPipe false)) 0).lookup m =
      if m = 0 then some a else closed.lookup m :=
    fun m => lookup_dup2 ((hkept (.readPipe false) (by decide)).trans ha)
  have hone : ∀ m, (dup2 (dup2 closed (fd (.readPipe false)) 0) (fd (.writePipe true)) 1).lookup m =
      if m = 1 then some b else (dup2 closed (fd (.readPipe false)) 0).lookup m :=
    fun m => lookup_dup2 (((hzero _).trans (if_neg (hnum (.writePipe true)).1)).trans
      ((hkept (.writePipe true) (by decide)).trans hb))
  rw [childSide, lookup_closeAll, hone, hzero, lookup_closeAll]
  have hsplit : n ∈ [fd (.readPipe false), fd (.writePipe true), fd (.writePipe false),
      fd (.readPipe true), fd (.forkedChildReadPipe true), fd (.forkedChildWritePipe false)] ↔
        n ∈ [fd (.readPipe false), fd (.writePipe true)] ∨ n ∈ [fd (.writePipe false),
          fd (.readPipe true), fd (.forkedChildReadPipe true), fd (.forkedChildWritePipe false)] :=
    List.mem_append (s := [_, _])
  have hmoved : n ∈ [fd (.readPipe false), fd (.writePipe true)] → n ≠ 0 ∧ n ≠ 1 := by
    intro hmem
    simp only [List.mem_cons, List.not_mem_nil, or_false] at hmem
    rcases hmem with rfl | rfl
    · exact hnum _
    · exact hnum _
  by_cases hmem : n ∈ [fd (.readPipe false), fd (.writePipe true)]
  · obtain ⟨h0, h1⟩ := hmoved hmem
    rw [if_pos hmem, if_neg h1, if_neg h0, if_pos (hsplit.mpr (Or.inl hmem))]
  · rw [if_neg hmem]
    refine if_congr Iff.rfl rfl (if_congr Iff.rfl rfl (if_congr ?_ rfl rfl))
    rw [hsplit, or_iff_right hmem]

/-- What a solving child has open when it begins. -/
theorem lookup_forkSolvingChild (hfd : Function.Injective fd) (hlow : ∀ e, 3 ≤ fd e)
    (ha : t.lookup (fd (.forkedChildReadPipe false)) = some a)
    (hb : t.lookup (fd (.forkedChildWritePipe true)) = some b) :
    (forkSolvingChild fd t).lookup n =
      if n = 1 then some b
      else if n = 0 then some a
      else if n ∈ [fd (.forkedChildReadPipe false), fd (.forkedChildReadPipe true)] then none
      else t.lookup n := by
  have hnum : ∀ e, fd e ≠ 0 ∧ fd e ≠ 1 := fun e => by
    have := hlow e
    omega
  have hkept : ∀ m, m ≠ 0 → m ≠ 1 → (closeAll t [0, 1]).lookup m = t.lookup m := by
    intro m h0 h1
    rw [lookup_closeAll, if_neg (by simp [h0, h1])]
  have hzero : ∀ m, (dup2 (closeAll t [0, 1]) (fd (.forkedChildReadPipe false)) 0).lookup m =
      if m = 0 then some a else (closeAll t [0, 1]).lookup m :=
    fun m => lookup_dup2 ((hkept _ (hnum (.forkedChildReadPipe false)).1 (hnum _).2).trans ha)
  let input := closeAll (dup2 (closeAll t [0, 1]) (fd (.forkedChildReadPipe false)) 0)
    [fd (.forkedChildReadPipe false)]
  have hclosed : ∀ m, input.lookup m =
      if m = fd (.forkedChildReadPipe false) then none
      else if m = 0 then some a else (closeAll t [0, 1]).lookup m := by
    intro m
    simp only [input, lookup_closeAll, List.mem_singleton, hzero]
  have hout : fd (.forkedChildWritePipe true) ≠ fd (.forkedChildReadPipe false) :=
    hfd.ne (by decide)
  have hone : ∀ m, (dup2 input (fd (.forkedChildWritePipe true)) 1).lookup m =
      if m = 1 then some b else input.lookup m :=
    fun m => lookup_dup2 (((hclosed _).trans (if_neg hout)).trans
      ((if_neg (hnum _).1).trans ((hkept _ (hnum _).1 (hnum _).2).trans hb)))
  rw [forkSolvingChild, lookup_closeAll, hone, hclosed, lookup_closeAll]
  simp only [List.mem_singleton]
  have h0 := hnum (.forkedChildReadPipe false)
  have h1 := hnum (.forkedChildReadPipe true)
  by_cases hn1 : n = 1
  · subst hn1
    rw [if_neg h1.2.symm, if_pos rfl, if_pos rfl]
  by_cases hn0 : n = 0
  · subst hn0
    rw [if_neg h1.1.symm, if_neg hn1, if_neg h0.1.symm, if_pos rfl, if_neg hn1, if_pos rfl]
  · simp only [hn1, hn0, if_false, List.mem_cons, List.not_mem_nil, or_false, or_self]
    by_cases hr : n = fd (.forkedChildReadPipe true)
    · rw [if_pos hr, if_pos (Or.inr hr)]
    · rw [if_neg hr]
      refine if_congr ?_ rfl rfl
      rw [or_iff_left hr]

/-- What a release leaves open. -/
theorem lookup_quapiRelease (zeroCopy : Bool) : (quapiRelease zeroCopy fd t).lookup n =
    if n = fd .eventfd ∨ zeroCopy = false ∧
      (n = fd (.readPipe true) ∨ n = fd (.forkedChildReadPipe true)) then none
    else t.lookup n := by
  rw [quapiRelease, lookup_closeAll]
  simp only [List.mem_singleton]
  cases zeroCopy with
  | true => simp
  | false =>
    simp only [Bool.false_eq_true, if_false, lookup_closeAll, List.mem_cons, List.not_mem_nil,
      or_false, true_and]
    split
    case isTrue h => rw [if_pos (Or.inl h)]
    case isFalse h =>
      refine if_congr ?_ rfl rfl
      rw [or_iff_right h]

end

/-! ### The invariant, one act at a time -/

section

variable {zeroCopy : Bool} {fd : End → ℕ} {t : Table File} {i j k m n : ℕ} {e : End}
  {births : List Bool} {p q : Process} {x y : Plumbing} {bs : List (List Bool)} {w : Wires}

theorem End.forall_of_all {P : End → Prop} (h : ∀ e ∈ End.all, P e) (e : End) : P e :=
  h e (End.mem_all e)

theorem otherAt_iff : otherAt t n = true ↔ ∃ k, t.lookup n = some (.other k) := by
  rw [otherAt]
  split
  case h_1 k h => exact iff_of_true rfl ⟨k, h⟩
  case h_2 h =>
    refine iff_of_false Bool.false_ne_true ?_
    rintro ⟨k, hk⟩
    exact h k hk

/-- Other files are opened and closed without a change to the ends. -/
theorem own_insert (hfree : t.lookup n = none) :
    (t.insert n (.other j)).lookup m = some (.own k e) ↔ t.lookup m = some (.own k e) := by
  rw [lookup_insert]
  split
  case isTrue h =>
    subst h
    rw [hfree]
    exact iff_of_false (by simp) (by simp)
  case isFalse => exact Iff.rfl

theorem own_close (h : otherAt t n = true) :
    (closeAll t [n]).lookup m = some (.own k e) ↔ t.lookup m = some (.own k e) := by
  obtain ⟨j, hj⟩ := otherAt_iff.mp h
  rw [lookup_closeAll]
  split
  case isTrue hm =>
    rw [List.mem_singleton.mp hm, hj]
    exact iff_of_false (by simp) (by simp)
  case isFalse => exact Iff.rfl

/-- What a process has open but ends is its own business. -/
theorem Placed.congr (h : Placed zeroCopy fd births p) (hsolver : q.solver = p.solver)
    (hstage : q.stage = p.stage) (htable : ∀ n k e,
      q.table.lookup n = some (.own k e) ↔ p.table.lookup n = some (.own k e)) :
    Placed zeroCopy fd births q where
  own n e := by rw [hsolver, hstage, htable, h.own]
  foreign k e hk := by
    rw [← h.foreign k e (hsolver ▸ hk)]
    exact exists_congr fun n => htable n k e
  free hq k e := by
    rw [Ne, htable]
    exact h.free (hstage ▸ hq) k e

/-- A process inherits the ends of the other solvers. -/
theorem Placed.inherit (h : Placed zeroCopy fd births p) (hsolver : q.solver = p.solver)
    (hstage : q.stage ≠ .seeding) (htable : ∀ n k e, q.table.lookup n = some (.own k e) ↔
      k = p.solver ∧ (n, e) ∈ places fd q.stage ∨
        k ≠ p.solver ∧ p.table.lookup n = some (.own k e)) :
    Placed zeroCopy fd births q where
  own n e := by
    rw [hsolver, htable]
    simp
  foreign k e hk := by
    rw [hsolver] at hk
    rw [← h.foreign k e hk]
    refine exists_congr fun n => ?_
    rw [htable]
    simp [hk]
  free hq := absurd hq hstage

theorem mem_places_seeding : (n, e) ∈ places fd .seeding ↔
    (n = 0 ∧ e = .readPipe false) ∨ (n = 1 ∧ e = .writePipe true) ∨
      (n = fd e ∧ e ∈ [End.forkedChildReadPipe false, .forkedChildWritePipe true,
        .messageToParentPipe false, .messageToParentPipe true, .eventfd]) := by
  refine End.forall_of_all (P := fun e => (n, e) ∈ places fd .seeding ↔
    (n = 0 ∧ e = .readPipe false) ∨ (n = 1 ∧ e = .writePipe true) ∨
      (n = fd e ∧ e ∈ [End.forkedChildReadPipe false, .forkedChildWritePipe true,
        .messageToParentPipe false, .messageToParentPipe true, .eventfd])) ?_ e
  simp [End.all, places]

theorem mem_places_reading : (n, e) ∈ places fd .reading ↔
    (n = 0 ∧ e = .forkedChildReadPipe false) ∨ (n = 1 ∧ e = .forkedChildWritePipe true) ∨
      (n = fd e ∧ e ∈ [End.forkedChildWritePipe true, .messageToParentPipe false,
        .messageToParentPipe true, .eventfd]) := by
  refine End.forall_of_all (P := fun e => (n, e) ∈ places fd .reading ↔
    (n = 0 ∧ e = .forkedChildReadPipe false) ∨ (n = 1 ∧ e = .forkedChildWritePipe true) ∨
      (n = fd e ∧ e ∈ [End.forkedChildWritePipe true, .messageToParentPipe false,
        .messageToParentPipe true, .eventfd])) ?_ e
  simp [End.all, places]

/-- The application at `quapi_init`: its standard streams, and the ends of the solvers so far. -/
structure Ready (fd : End → ℕ) (i : ℕ) (t : Table File) : Prop where
  std : ∀ n < 3, otherAt t n = true
  new : ∀ n e, t.lookup n ≠ some (.own i e)
  nodup : (End.all.map fd).Nodup
  free : ∀ e, t.lookup (fd e) = none

theorem Ready.low (h : Ready fd i t) (e : End) : 3 ≤ fd e := by
  by_contra hlt
  obtain ⟨k, hk⟩ := otherAt_iff.mp (h.std (fd e) (by omega))
  rw [h.free e] at hk
  cases hk

theorem Ready.own_openPipes (h : Ready fd i t) : (openPipes i fd t).lookup n = some (.own k e) ↔
    k = i ∧ n = fd e ∨ k ≠ i ∧ t.lookup n = some (.own k e) := by
  rw [lookup_openPipes h.nodup]
  constructor
  · rintro (⟨e', rfl, hf⟩ | ⟨-, ht⟩)
    · cases hf
      exact Or.inl ⟨rfl, rfl⟩
    · refine Or.inr ⟨?_, ht⟩
      rintro rfl
      exact h.new n e ht
  · rintro (⟨rfl, rfl⟩ | ⟨-, ht⟩)
    · exact Or.inl ⟨e, rfl, rfl⟩
    · refine Or.inr ⟨?_, ht⟩
      rintro e' rfl
      rw [h.free e'] at ht
      cases ht

theorem mem_held_false : e ∈ held zeroCopy false ↔ e ∉ [End.readPipe false, .writePipe true,
    .forkedChildReadPipe false, .forkedChildWritePipe true] :=
  End.forall_of_all (P := fun e => e ∈ held zeroCopy false ↔ e ∉ [End.readPipe false,
    .writePipe true, .forkedChildReadPipe false, .forkedChildWritePipe true])
    (by cases zeroCopy <;> decide) e

/-- **What `quapi_init` leaves in the application.** -/
theorem Ready.own_parentSide (h : Ready fd i t) (zeroCopy : Bool) :
    (parentSide fd (openPipes i fd t)).lookup n = some (.own k e) ↔
      k = i ∧ n = fd e ∧ e ∈ held zeroCopy false ∨ k ≠ i ∧ t.lookup n = some (.own k e) := by
  have hmap : parentSide fd (openPipes i fd t) = closeAll (openPipes i fd t)
      ([End.readPipe false, .writePipe true, .forkedChildReadPipe false,
        .forkedChildWritePipe true].map fd) := rfl
  rw [hmap, lookup_closeAll, mem_held_false]
  split
  case isTrue hn =>
    obtain ⟨e', he', rfl⟩ := List.mem_map.mp hn
    refine iff_of_false (by simp) ?_
    rintro (⟨-, heq, he⟩ | ⟨-, ht⟩)
    · exact he (injective_of_nodup h.nodup heq ▸ he')
    · rw [h.free e'] at ht
      cases ht
  case isFalse hn =>
    rw [h.own_openPipes]
    refine or_congr (and_congr_right fun _ => ⟨?_, And.left⟩) Iff.rfl
    rintro rfl
    exact ⟨rfl, fun he => hn (List.mem_map_of_mem he)⟩

/-- **What `quapi_init` leaves in the seeding process.** -/
theorem Ready.own_childSide (h : Ready fd i t) :
    (childSide fd (openPipes i fd t)).lookup n = some (.own k e) ↔
      k = i ∧ (n, e) ∈ places fd .seeding ∨ k ≠ i ∧ t.lookup n = some (.own k e) := by
  have hopen : ∀ e, (openPipes i fd t).lookup (fd e) = some (.own i e) :=
    fun e => h.own_openPipes.mpr (Or.inl ⟨rfl, rfl⟩)
  have hnum : ∀ e, fd e ≠ 0 ∧ fd e ≠ 1 := fun e => by
    have := h.low e
    omega
  have hstd : ∀ m < 3, t.lookup m ≠ some (.own k e) := by
    intro m hm ht
    obtain ⟨j, hj⟩ := otherAt_iff.mp (h.std m hm)
    rw [ht] at hj
    cases hj
  rw [lookup_childSide (injective_of_nodup h.nodup) h.low (hopen _) (hopen _), mem_places_seeding]
  split
  case isTrue hn =>
    subst hn
    simp [(hnum e).2.symm, hstd 1 (by omega), eq_comm]
  split
  case isTrue hn =>
    subst hn
    simp [(hnum e).1.symm, hstd 0 (by omega), eq_comm]
  split
  case isTrue h1 h0 hn =>
    have hn : n ∈ [End.readPipe false, .writePipe true, .writePipe false, .readPipe true,
      .forkedChildReadPipe true, .forkedChildWritePipe false].map fd := hn
    obtain ⟨e', he', rfl⟩ := List.mem_map.mp hn
    refine iff_of_false (by simp) ?_
    rintro (⟨-, ⟨h0', -⟩ | ⟨h1', -⟩ | ⟨heq, he⟩⟩ | ⟨-, ht⟩)
    · exact h0 h0'
    · exact h1 h1'
    · rw [← injective_of_nodup h.nodup heq] at he
      revert he' he
      exact End.forall_of_all (P := fun e' => e' ∈ _ → e' ∈ _ → False) (by decide) e'
    · rw [h.free e'] at ht
      cases ht
  case isFalse h1 h0 hn =>
    have hn : n ∉ [End.readPipe false, .writePipe true, .writePipe false, .readPipe true,
      .forkedChildReadPipe true, .forkedChildWritePipe false].map fd := hn
    rw [h.own_openPipes]
    refine or_congr (and_congr_right fun _ => ?_) Iff.rfl
    rw [or_iff_right fun h => h0 h.1, or_iff_right fun h => h1 h.1]
    refine ⟨?_, And.left⟩
    rintro rfl
    refine ⟨rfl, ?_⟩
    rw [List.mem_map_of_injective (injective_of_nodup h.nodup)] at hn
    revert hn
    exact End.forall_of_all (P := fun e => e ∉ _ → e ∈ _) (by decide) e

/-- **What a solving child begins with.** -/
theorem Placed.own_forkSolvingChild (h : Placed zeroCopy fd births q)
    (hfd : Function.Injective fd) (hlow : ∀ e, 3 ≤ fd e) (hstage : q.stage = .seeding) :
    (forkSolvingChild fd q.table).lookup n = some (.own k e) ↔
      k = q.solver ∧ (n, e) ∈ places fd .reading ∨
        k ≠ q.solver ∧ q.table.lookup n = some (.own k e) := by
  have hown : ∀ n e, q.table.lookup n = some (.own q.solver e) ↔ (n, e) ∈ places fd .seeding :=
    fun n e => hstage ▸ h.own n e
  have hopen : ∀ e ∈ [End.forkedChildReadPipe false, .forkedChildWritePipe true],
      q.table.lookup (fd e) = some (.own q.solver e) := by
    intro e he
    refine (hown _ _).mpr (mem_places_seeding.mpr (Or.inr (Or.inr ⟨rfl, ?_⟩)))
    revert he
    exact End.forall_of_all (P := fun e => e ∈ _ → e ∈ _) (by decide) e
  have hnum : ∀ e, fd e ≠ 0 ∧ fd e ≠ 1 := fun e => by
    have := hlow e
    omega
  -- the numbers that are closed or moved are those of the solver itself
  have hself : ∀ n e', (n, e') ∈ places fd .seeding → k ≠ q.solver →
      q.table.lookup n ≠ some (.own k e) := by
    intro n e' hmem hk ht
    rw [(hown n e').mpr hmem] at ht
    cases ht
    exact hk rfl
  rw [lookup_forkSolvingChild hfd hlow (hopen _ (by simp)) (hopen _ (by simp)),
    mem_places_reading]
  split
  case isTrue hn =>
    subst hn
    have hrest := hself 1 (.writePipe true) (by simp [places])
    simp only [Option.some.injEq, File.own.injEq, (hnum e).2.symm, false_and, or_false,
      one_ne_zero, true_and, false_or]
    refine ⟨fun heq => Or.inl ⟨heq.1.symm, heq.2.symm⟩, ?_⟩
    rintro (⟨rfl, rfl⟩ | ⟨hk, ht⟩)
    · exact ⟨rfl, rfl⟩
    · exact (hrest hk ht).elim
  split
  case isTrue hn =>
    subst hn
    have hrest := hself 0 (.readPipe false) (by simp [places])
    simp only [Option.some.injEq, File.own.injEq, (hnum e).1.symm, false_and, or_false,
      zero_ne_one, true_and]
    refine ⟨fun heq => Or.inl ⟨heq.1.symm, heq.2.symm⟩, ?_⟩
    rintro (⟨rfl, rfl⟩ | ⟨hk, ht⟩)
    · exact ⟨rfl, rfl⟩
    · exact (hrest hk ht).elim
  split
  case isTrue h1 h0 hn =>
    refine iff_of_false (by simp) ?_
    rintro (⟨-, ⟨h0', -⟩ | ⟨h1', -⟩ | ⟨rfl, he⟩⟩ | ⟨hk, ht⟩)
    · exact h0 h0'
    · exact h1 h1'
    · have hn : fd e ∈ [End.forkedChildReadPipe false, .forkedChildReadPipe true].map fd := hn
      rw [List.mem_map_of_injective hfd] at hn
      revert hn he
      exact End.forall_of_all (P := fun e => e ∈ _ → e ∈ _ → False) (by decide) e
    · rcases List.mem_pair.mp hn with rfl | rfl
      · exact hself _ _ (mem_places_seeding.mpr (Or.inr (Or.inr ⟨rfl, by decide⟩))) hk ht
      · exact h.free hstage k e ht
  case isFalse h1 h0 hn =>
    by_cases hk : k = q.solver
    · subst hk
      rw [hown, mem_places_seeding]
      simp only [h0, h1, false_and, false_or, true_and, ne_eq, not_true_eq_false, or_false]
      refine and_congr_right ?_
      rintro rfl
      have hn : fd e ∉ [End.forkedChildReadPipe false, .forkedChildReadPipe true].map fd := hn
      rw [List.mem_map_of_injective hfd] at hn
      revert hn
      exact End.forall_of_all (P := fun e => e ∉ _ → (e ∈ _ ↔ e ∈ _)) (by decide) e
    · simp [hk]

/-- A child that is padded keeps what it has open. -/
theorem Placed.pad (h : Placed zeroCopy fd births q) (hstage : q.stage = .reading) :
    Placed zeroCopy fd births { q with stage := .padded } where
  own n e := (h.own n e).trans (by rw [hstage]; rfl)
  foreign := h.foreign
  free hs := Stage.noConfusion hs

/-- What a child has open that has closed its input. -/
theorem Placed.own_work (h : Placed zeroCopy fd births q) (hlow : ∀ e, 3 ≤ fd e)
    (hstage : q.stage = .reading ∨ q.stage = .padded) :
    (closeAll q.table [0]).lookup n = some (.own k e) ↔
      k = q.solver ∧ (n, e) ∈ places fd .working ∨
        k ≠ q.solver ∧ q.table.lookup n = some (.own k e) := by
  have hown : ∀ n e, q.table.lookup n = some (.own q.solver e) ↔
      (n, e) ∈ places fd .reading := by
    rintro n e
    rw [h.own]
    rcases hstage with hs | hs
    · rw [hs]
    · rw [hs]
      rfl
  have hcons : places fd .reading = (0, .forkedChildReadPipe false) :: places fd .working := rfl
  rw [lookup_closeAll]
  split
  case isTrue hn =>
    obtain rfl := List.mem_singleton.mp hn
    refine iff_of_false (by simp) ?_
    rintro (⟨-, hmem⟩ | ⟨hk, ht⟩)
    · obtain ⟨e', he'⟩ : ∃ e', (0 : ℕ) = fd e' := by
        simp only [places, List.mem_cons, Prod.mk.injEq, List.not_mem_nil, or_false,
          zero_ne_one, false_and, false_or] at hmem
        rcases hmem with ⟨h, -⟩ | ⟨h, -⟩ | ⟨h, -⟩ | ⟨h, -⟩
        all_goals exact ⟨_, h⟩
      have := hlow e'
      omega
    · rw [(hown 0 _).mpr (hcons ▸ List.mem_cons_self)] at ht
      cases ht
      exact hk rfl
  case isFalse hn =>
    by_cases hk : k = q.solver
    · subst hk
      rw [hown, hcons, List.mem_cons]
      have h0 : n ≠ 0 := fun h => hn (List.mem_singleton.mpr h)
      simp [h0]
    · simp [hk]

/-- **What a release leaves in the application**, of the solver that is released. -/
theorem own_quapiRelease (hfd : Function.Injective fd)
    (hown : ∀ n e, t.lookup n = some (.own i e) ↔ n = fd e ∧ e ∈ held zeroCopy false) :
    (quapiRelease zeroCopy fd t).lookup n = some (.own k e) ↔
      k = i ∧ n = fd e ∧ e ∈ held zeroCopy true ∨ k ≠ i ∧ t.lookup n = some (.own k e) := by
  let closed := if zeroCopy then [End.eventfd] else
    [.eventfd, .readPipe true, .forkedChildReadPipe true]
  have hclosed : (n = fd .eventfd ∨ zeroCopy = false ∧
      (n = fd (.readPipe true) ∨ n = fd (.forkedChildReadPipe true))) ↔ n ∈ closed.map fd := by
    cases zeroCopy <;> simp [closed]
  have hheld : e ∈ held zeroCopy true ↔ e ∈ held zeroCopy false ∧ e ∉ closed :=
    End.forall_of_all (P := fun e => e ∈ held zeroCopy true ↔ e ∈ held zeroCopy false ∧ e ∉ closed)
      (by cases zeroCopy <;> decide) e
  rw [lookup_quapiRelease, if_congr hclosed rfl rfl, hheld]
  split
  case isTrue hn =>
    obtain ⟨e', he', rfl⟩ := List.mem_map.mp hn
    have hopen : t.lookup (fd e') = some (.own i e') := by
      refine (hown _ _).mpr ⟨rfl, ?_⟩
      revert he'
      exact End.forall_of_all (P := fun e' => e' ∈ closed → e' ∈ held zeroCopy false)
        (by cases zeroCopy <;> decide) e'
    refine iff_of_false (by simp) ?_
    rintro (⟨-, heq, -, he⟩ | ⟨hk, ht⟩)
    · exact he (hfd heq ▸ he')
    · rw [hopen] at ht
      cases ht
      exact hk rfl
  case isFalse hn =>
    by_cases hk : k = i
    · subst hk
      rw [hown]
      simp only [true_and, ne_eq, not_true_eq_false, false_and, or_false]
      refine and_congr_right ?_
      rintro rfl
      exact (and_iff_left fun he => hn (List.mem_map_of_mem he)).symm
    · simp [hk]

theorem Wired.start (h : Starts x) : Wired zeroCopy (x, []) where
  std := h.std
  app n k e := by
    rw [h.wires]
    refine iff_of_false ?_ (by simp)
    intro ht
    obtain ⟨j, hj⟩ := otherAt_iff.mp (h.others n (by simp [ht]))
    rw [ht] at hj
    cases hj
  fds := by simp [h.wires]
  births := by simp [h.wires]
  procs := by simp [h.procs]

/-- What happens to the processes alone. -/
theorem Wired.with_procs {procs : List Process} (h : Wired zeroCopy (x, bs))
    (hprocs : ∀ p ∈ procs, p ∈ x.procs ∨ Seated zeroCopy x.wires bs p) :
    Wired zeroCopy ({ x with procs := procs }, bs) where
  std := h.std
  app := h.app
  fds := h.fds
  births := h.births
  procs p hp := (hprocs p hp).elim (h.procs p) id

/-- What happens to the other files of the application. -/
theorem Wired.with_table {table : Table File} (h : Wired zeroCopy (x, bs))
    (hstd : ∀ n < 3, otherAt table n = true) (htable : ∀ n k e,
      table.lookup n = some (.own k e) ↔ x.table.lookup n = some (.own k e)) :
    Wired zeroCopy ({ x with table := table }, bs) where
  std := hstd
  app n k e := (htable n k e).trans (h.app n k e)
  fds := h.fds
  births := h.births
  procs := h.procs

/-- What happens to a process in place. -/
theorem Wired.set (h : Wired zeroCopy (x, bs)) (hq : Seated zeroCopy x.wires bs q) :
    Wired zeroCopy ({ x with procs := x.procs.set m q }, bs) := by
  refine h.with_procs ?_
  intro p hp
  rcases List.mem_or_eq_of_mem_set hp with hp | rfl
  · exact Or.inl hp
  · exact Or.inr hq

theorem Wired.eraseIdx (h : Wired zeroCopy (x, bs)) :
    Wired zeroCopy ({ x with procs := x.procs.eraseIdx m }, bs) :=
  h.with_procs fun _ hp => Or.inl (List.mem_of_mem_eraseIdx hp)

/-- What the application has open of a solver. -/
theorem Wired.app_of_wires (h : Wired zeroCopy (x, bs)) (hw : x.wires[i]? = some w) :
    x.table.lookup n = some (.own i e) ↔ n = w.fd e ∧ e ∈ held zeroCopy w.released := by
  rw [h.app]
  constructor
  · rintro ⟨w', hw', hrest⟩
    rwa [Option.some.inj (hw.symm.trans hw')]
  · exact fun hrest => ⟨w, hw, hrest⟩

theorem Wired.ready (h : Wired zeroCopy (x, bs)) (hnodup : (End.all.map fd).Nodup)
    (hfree : ∀ e ∈ End.all, x.table.lookup (fd e) = none) : Ready fd x.wires.length x.table where
  std := h.std
  new n e ht := by
    obtain ⟨w, hw, -⟩ := (h.app _ _ _).mp ht
    simp at hw
  nodup := hnodup
  free e := hfree e (End.mem_all e)

/-- A process stays what it is when a solver is added. -/
theorem Seated.append {b : List Bool} (h : Seated zeroCopy x.wires bs p) :
    Seated zeroCopy (x.wires ++ [w]) (bs ++ [b]) p := by
  obtain ⟨v, births, hv, hb, hrest⟩ := h
  exact ⟨v, births, by rw [List.getElem?_append_left (List.getElem?_eq_some_iff.mp hv).1, hv],
    by rw [List.getElem?_append_left (List.getElem?_eq_some_iff.mp hb).1, hb], hrest⟩

/-- A process stays what it is when a solver is released. -/
theorem Seated.set {v : Wires} (h : Seated zeroCopy x.wires bs p) (hw : x.wires[i]? = some w)
    (hfd : v.fd = w.fd) : Seated zeroCopy (x.wires.set i v) bs p := by
  obtain ⟨u, births, hu, hb, hlen, hplaced⟩ := h
  by_cases hi : i = p.solver
  · subst hi
    obtain rfl := Option.some.inj (hw.symm.trans hu)
    exact ⟨v, births, List.getElem?_set_self' .. |>.trans (by simp [hw]), hb, hlen,
      hfd ▸ hplaced⟩
  · exact ⟨u, births, by rw [List.getElem?_set_ne hi, hu], hb, hlen, hplaced⟩

/-- **`quapi_init` keeps the invariant.** -/
theorem Wired.init {waits : Bool} (h : Wired zeroCopy (x, bs)) (hnodup : (End.all.map fd).Nodup)
    (hfree : ∀ e ∈ End.all, x.table.lookup (fd e) = none) :
    Wired zeroCopy (⟨parentSide fd (openPipes x.wires.length fd x.table),
      x.wires ++ [⟨fd, waits, false⟩], x.procs ++ [⟨x.wires.length, .seeding,
        childSide fd (openPipes x.wires.length fd x.table)⟩]⟩,
      bs ++ [x.wires.map Wires.released]) := by
  have hready := h.ready hnodup hfree
  have hnew : (x.wires ++ [⟨fd, waits, false⟩])[x.wires.length]? = some ⟨fd, waits, false⟩ := by
    simp
  have hold : ∀ k ≠ x.wires.length, (x.wires ++ [⟨fd, waits, false⟩])[k]? = x.wires[k]? := by
    intro k hk
    rcases Nat.lt_or_ge k x.wires.length with hlt | hge
    · exact List.getElem?_append_left hlt
    · rw [List.getElem?_eq_none hge, List.getElem?_eq_none (by simp; omega)]
  constructor
  case std =>
    intro n hn
    obtain ⟨k, hk⟩ := otherAt_iff.mp (h.std n hn)
    refine otherAt_iff.mpr ⟨k, ?_⟩
    have hne : ∀ e, n ≠ fd e := fun e => by
      have := hready.low e
      omega
    change (closeAll _ _).lookup n = _
    rw [lookup_closeAll, if_neg (by simp [hne])]
    exact (lookup_openPipes hnodup).mpr (Or.inr ⟨hne, hk⟩)
  case app =>
    intro n k e
    rw [hready.own_parentSide zeroCopy]
    by_cases hk : k = x.wires.length
    · subst hk
      simp
    · change _ ↔ ∃ w, (x.wires ++ [_])[k]? = some w ∧ _
      rw [hold k hk, ← h.app]
      simp [hk]
  case fds =>
    intro w hw
    rcases List.mem_append.mp hw with hw | hw
    · exact h.fds w hw
    · rw [List.mem_singleton.mp hw]
      exact ⟨injective_of_nodup hnodup, hready.low⟩
  case births => simp [h.births]
  case procs =>
    intro p hp
    rcases List.mem_append.mp hp with hp | hp
    · exact (h.procs p hp).append
    · obtain rfl := List.mem_singleton.mp hp
      refine ⟨_, x.wires.map Wires.released, hnew, ?_, by simp, ?_⟩
      · change (bs ++ [_])[x.wires.length]? = _
        rw [← h.births]
        simp
      · constructor
        case own =>
          intro n e
          rw [hready.own_childSide]
          simp
        case foreign =>
          intro k e hk
          have hlook : ∀ n, (childSide fd (openPipes x.wires.length fd x.table)).lookup n =
              some (.own k e) ↔ x.table.lookup n = some (.own k e) := by
            intro n
            rw [hready.own_childSide]
            simp [hk]
          change (∃ n, _) ↔ _
          simp only [hlook, h.app, List.getElem?_map, Option.map_eq_some_iff]
          constructor
          · rintro ⟨n, w, hw, rfl, he⟩
            exact ⟨w.released, ⟨w, hw, rfl⟩, he⟩
          · rintro ⟨r, ⟨w, hw, rfl⟩, he⟩
            exact ⟨w.fd e, w, hw, rfl, he⟩
        case free =>
          intro _ k e ht
          have hlow := hready.low (.forkedChildReadPipe true)
          rcases hready.own_childSide.mp ht with ⟨-, hmem⟩ | ⟨-, ht⟩
          · rcases mem_places_seeding.mp hmem with ⟨h0, -⟩ | ⟨h1, -⟩ | ⟨heq, he⟩
            · exact absurd (hlow.trans_eq h0) (by omega)
            · exact absurd (hlow.trans_eq h1) (by omega)
            · rw [← injective_of_nodup hnodup heq] at he
              revert he
              decide
          · rw [hready.free] at ht
            cases ht

/-- **`quapi_release` keeps the invariant.** -/
theorem Wired.release (h : Wired zeroCopy (x, bs)) (hw : x.wires[i]? = some w)
    (hopen : w.released = false) :
    Wired zeroCopy ({ x with
      table := quapiRelease zeroCopy w.fd x.table
      wires := x.wires.set i { w with released := true } }, bs) := by
  obtain ⟨hfd, hlow⟩ := h.fds w (List.mem_of_getElem? hw)
  have hown : ∀ n e, x.table.lookup n = some (.own i e) ↔ n = w.fd e ∧ e ∈ held zeroCopy false :=
    fun n e => hopen ▸ h.app_of_wires hw
  have hlt : i < x.wires.length := (List.getElem?_eq_some_iff.mp hw).1
  constructor
  case std =>
    intro n hn
    obtain ⟨k, hk⟩ := otherAt_iff.mp (h.std n hn)
    refine otherAt_iff.mpr ⟨k, ?_⟩
    have hne : ∀ e, n ≠ w.fd e := fun e => by
      have := hlow e
      omega
    change (quapiRelease _ _ _).lookup n = _
    rw [lookup_quapiRelease, if_neg (by simp [hne])]
    exact hk
  case app =>
    intro n k e
    change (quapiRelease _ _ _).lookup n = _ ↔ ∃ v, (x.wires.set i _)[k]? = some v ∧ _
    rw [own_quapiRelease hfd hown]
    by_cases hk : k = i
    · subst hk
      simp [List.getElem?_set_self hlt]
    · rw [List.getElem?_set_ne (Ne.symm hk), ← h.app]
      simp [hk]
  case fds =>
    intro v hv
    rcases List.mem_or_eq_of_mem_set hv with hv | rfl
    · exact h.fds v hv
    · exact ⟨hfd, hlow⟩
  case births => exact h.births.trans List.length_set.symm
  case procs => exact fun p hp => (h.procs p hp).set hw rfl

/-- **`fork_solving_child` keeps the invariant.** -/
theorem Wired.fork (h : Wired zeroCopy (x, bs)) (hq : q ∈ x.procs)
    (hw : x.wires[q.solver]? = some w) (hstage : q.stage = .seeding) : Wired zeroCopy ({ x with
      procs := x.procs ++ [⟨q.solver, .reading, forkSolvingChild w.fd q.table⟩] }, bs) := by
  refine h.with_procs ?_
  intro p hp
  refine (List.mem_append.mp hp).imp id ?_
  intro hp
  obtain rfl := List.mem_singleton.mp hp
  obtain ⟨hfd, hlow⟩ := h.fds w (List.mem_of_getElem? hw)
  obtain ⟨v, births, hv, hb, hlen, hplaced⟩ := h.procs q hq
  obtain rfl := Option.some.inj (hw.symm.trans hv)
  exact ⟨w, births, hw, hb, hlen,
    hplaced.inherit rfl (by simp) fun _ _ _ => hplaced.own_forkSolvingChild hfd hlow hstage⟩

/-- **Every act keeps the invariant.** -/
theorem Wired.act {s s' : Plumbing × List (List Bool)} {a : Act} (h : Wired zeroCopy s)
    (hstep : tracked zeroCopy s a = some s') : Wired zeroCopy s' := by
  obtain ⟨x, bs⟩ := s
  obtain ⟨y, bs'⟩ := s'
  obtain ⟨hy, hbs⟩ := Machine.track_eq_some.mp hstep
  dsimp only at hy hbs
  subst hbs
  cases a with
  | init fd waits =>
    simp only [Plumbing.step, Option.ite_none_right_eq_some, Option.some.injEq] at hy
    obtain ⟨⟨hnodup, hfree⟩, rfl⟩ := hy
    exact h.init hnodup hfree
  | release i =>
    simp only [Plumbing.step, Option.bind_eq_some_iff, Option.ite_none_left_eq_some,
      Option.some.injEq] at hy
    obtain ⟨w, hw, hopen, rfl⟩ := hy
    exact h.release hw (Bool.eq_false_iff.mpr hopen)
  | fork p =>
    simp only [Plumbing.step, Option.bind_eq_some_iff, Option.ite_none_right_eq_some,
      Option.some.injEq] at hy
    obtain ⟨q, hq, w, hw, ⟨hstage, -⟩, rfl⟩ := hy
    exact h.fork (List.mem_of_getElem? hq) hw hstage
  | pad p =>
    simp only [Plumbing.step, Option.bind_eq_some_iff, Option.ite_none_right_eq_some,
      Option.some.injEq] at hy
    obtain ⟨q, hq, hstage, rfl⟩ := hy
    obtain ⟨w, births, hw, hb, hlen, hplaced⟩ := h.procs q (List.mem_of_getElem? hq)
    exact h.set ⟨w, births, hw, hb, hlen, hplaced.pad hstage⟩
  | work p =>
    simp only [Plumbing.step, Option.bind_eq_some_iff, Option.ite_none_right_eq_some,
      Option.some.injEq] at hy
    obtain ⟨q, hq, hstage, rfl⟩ := hy
    obtain ⟨w, births, hw, hb, hlen, hplaced⟩ := h.procs q (List.mem_of_getElem? hq)
    have hlow := (h.fds w (List.mem_of_getElem? hw)).2
    exact h.set ⟨w, births, hw, hb, hlen,
      hplaced.inherit rfl (by simp) fun _ _ _ => hplaced.own_work hlow hstage⟩
  | endOfInput p =>
    simp only [Plumbing.step, Option.bind_eq_some_iff, Option.ite_none_right_eq_some,
      Option.some.injEq] at hy
    obtain ⟨q, -, -, rfl⟩ := hy
    exact h.eraseIdx
  | finish p =>
    simp only [Plumbing.step, Option.bind_eq_some_iff, Option.ite_none_right_eq_some,
      Option.some.injEq] at hy
    obtain ⟨q, -, -, rfl⟩ := hy
    exact h.eraseIdx
  | kill p =>
    simp only [Plumbing.step, Option.map_eq_some_iff] at hy
    obtain ⟨q, -, rfl⟩ := hy
    exact h.eraseIdx
  | openFile n k =>
    simp only [Plumbing.step, Option.ite_none_right_eq_some, Option.some.injEq] at hy
    obtain ⟨hfree, rfl⟩ := hy
    refine h.with_table ?_ fun m j e => own_insert hfree
    intro m hm
    obtain ⟨j, hj⟩ := otherAt_iff.mp (h.std m hm)
    refine otherAt_iff.mpr ⟨j, ?_⟩
    rw [lookup_insert, if_neg]
    · exact hj
    · rintro rfl
      rw [hfree] at hj
      cases hj
  | closeFile n =>
    simp only [Plumbing.step, Option.ite_none_right_eq_some, Option.some.injEq] at hy
    obtain ⟨⟨hother, hn⟩, rfl⟩ := hy
    refine h.with_table ?_ fun m j e => own_close hother
    intro m hm
    obtain ⟨j, hj⟩ := otherAt_iff.mp (h.std m hm)
    refine otherAt_iff.mpr ⟨j, ?_⟩
    rw [lookup_closeAll, if_neg]
    · exact hj
    · rw [List.mem_singleton]
      omega
  | openIn p n k =>
    simp only [Plumbing.step, Option.bind_eq_some_iff, Option.ite_none_right_eq_some,
      Option.some.injEq] at hy
    obtain ⟨q, hq, hfree, rfl⟩ := hy
    obtain ⟨w, births, hw, hb, hlen, hplaced⟩ := h.procs q (List.mem_of_getElem? hq)
    exact h.set ⟨w, births, hw, hb, hlen,
      hplaced.congr rfl rfl fun m j e => own_insert hfree⟩
  | closeIn p n =>
    simp only [Plumbing.step, Option.bind_eq_some_iff, Option.ite_none_right_eq_some,
      Option.some.injEq] at hy
    obtain ⟨q, hq, hother, rfl⟩ := hy
    obtain ⟨w, births, hw, hb, hlen, hplaced⟩ := h.procs q (List.mem_of_getElem? hq)
    exact h.set ⟨w, births, hw, hb, hlen,
      hplaced.congr rfl rfl fun m j e => own_close hother⟩

/-- **The invariant holds in every state that is reached.** -/
theorem Wired.run {as : List Act} (hstart : Starts x)
    (h : Machine.run (tracked zeroCopy) (x, []) as = some (y, bs)) : Wired zeroCopy (y, bs) :=
  Machine.invariant (I := Wired zeroCopy) (fun _ _ _ hstep hs => hs.act hstep) h (.start hstart)

end

/-! ### Who has an end open -/

section

variable {zeroCopy r : Bool} {k m : ℕ} {e : End} {p q : Process} {x y : Plumbing}
  {bs : List (List Bool)} {w : Wires} {as : List Act}

theorem Wired.app_holds (h : Wired zeroCopy (y, bs)) : y.table.Holds (.own k e) ↔
    ∃ w, y.wires[k]? = some w ∧ e ∈ held zeroCopy w.released := by
  rw [Table.Holds]
  simp only [h.app]
  constructor
  · rintro ⟨n, w, hw, -, he⟩
    exact ⟨w, hw, he⟩
  · rintro ⟨w, hw, he⟩
    exact ⟨w.fd e, w, hw, rfl, he⟩

theorem mem_ends : e ∈ ownEnds p.stage ↔ ∃ n, (n, e) ∈ places w.fd p.stage := by
  have hmap : ownEnds p.stage = (places w.fd p.stage).map Prod.snd := by
    rw [ownEnds]
    cases p.stage <;> rfl
  rw [hmap, List.mem_map]
  constructor
  · rintro ⟨⟨n, e⟩, hmem, rfl⟩
    exact ⟨n, hmem⟩
  · rintro ⟨n, hmem⟩
    exact ⟨(n, e), hmem, rfl⟩

theorem Wired.proc_holds (h : Wired zeroCopy (y, bs)) (hp : p ∈ y.procs) :
    p.table.Holds (.own k e) ↔ k = p.solver ∧ e ∈ ownEnds p.stage ∨
      k ≠ p.solver ∧ ∃ r, Before bs p.solver k r ∧ e ∈ held zeroCopy r := by
  obtain ⟨w, births, -, hb, -, hplaced⟩ := h.procs p hp
  by_cases hk : k = p.solver
  · subst hk
    rw [Table.Holds, mem_ends (w := w)]
    simp [hplaced.own]
  · rw [hplaced.foreign k e hk]
    simp [hk, Before, hb]

/-- A process belongs to a solver, and no solver came after its own when it was initiated. -/
theorem Wired.before_lt (h : Wired zeroCopy (y, bs)) (hp : p ∈ y.procs)
    (hb : Before bs p.solver k r) : k < p.solver := by
  obtain ⟨w, births, -, hb', hlen, -⟩ := h.procs p hp
  obtain ⟨rs, hrs, hr⟩ := hb
  obtain rfl := Option.some.inj (hrs.symm.trans hb')
  exact hlen ▸ (List.getElem?_eq_some_iff.mp hr).1

/-- What the library writes to is closed by a release, unless it is a zero-copy pipe. -/
theorem mem_held_of_input (he : e = .readPipe true ∨ e = .forkedChildReadPipe true) :
    e ∈ held zeroCopy r ↔ ¬(zeroCopy = false ∧ r = true) := by
  rcases he with rfl | rfl <;> cases r <;> cases zeroCopy <;> decide

/-- **Who keeps a pipe open that the library writes to.** -/
theorem Wired.closed_iff (h : Wired zeroCopy (y, bs)) (hw : y.wires[k]? = some w)
    (he : e = .readPipe true ∨ e = .forkedChildReadPipe true) :
    y.Closed (.own k e) ↔ zeroCopy = false ∧ w.released = true ∧
      ∀ p ∈ y.procs, ¬Before bs p.solver k false := by
  have hends : ∀ s : Stage, e ∉ ownEnds s := by
    intro s
    rcases he with rfl | rfl <;> cases s <;> decide
  have hheld : ∀ r, e ∈ held zeroCopy r ↔ ¬(zeroCopy = false ∧ r = true) :=
    fun _ => mem_held_of_input he
  have happ : ¬y.table.Holds (.own k e) ↔ zeroCopy = false ∧ w.released = true := by
    rw [h.app_holds, hw]
    simp [hheld]
  rw [Closed, happ, and_assoc]
  refine and_congr_right fun hz => and_congr_right fun _ => ?_
  subst hz
  refine forall₂_congr fun p hp => not_congr ?_
  rw [h.proc_holds hp]
  simp only [hends, and_false, false_or, hheld, true_and, Bool.not_eq_true, exists_eq_right]
  exact and_iff_right_of_imp fun hb => (h.before_lt hp hb).ne

/-- What the application never keeps is open in the processes of the solver alone. -/
theorem Wired.closed_iff_own (h : Wired zeroCopy (y, bs)) (he : ∀ r, e ∉ held zeroCopy r) :
    y.Closed (.own k e) ↔ ∀ p ∈ y.procs, p.solver = k → e ∉ ownEnds p.stage := by
  have happ : ¬y.table.Holds (.own k e) := by
    rw [h.app_holds]
    rintro ⟨w, -, hmem⟩
    exact he w.released hmem
  rw [Closed, and_iff_right happ]
  refine forall₂_congr fun p hp => ?_
  rw [h.proc_holds hp]
  simp only [he, and_false, exists_false, or_false, not_and, eq_comm]

/-! ### Which processes end by themselves -/

/-- A process ends by itself. -/
def Ends (a : Act) : Prop := ∃ m, a = .endOfInput m ∨ a = .finish m

/-- A process that has seen all its input, or works, and of which the solver has been released. -/
def Released (zeroCopy : Bool) (x : Plumbing) (p : Process) : Prop :=
  p.stage.Works ∨ zeroCopy = false ∧ ∃ w, x.wires[p.solver]? = some w ∧ w.released = true

/-- What ends by itself leaves all else as it is. -/
theorem step_ends {a : Act} (ha : Ends a) (hstep : step zeroCopy x a = some y) :
    ∃ m q, x.procs[m]? = some q ∧ (x.SeesEnd q ∨ q.stage.Works) ∧
      y = { x with procs := x.procs.eraseIdx m } := by
  obtain ⟨m, rfl | rfl⟩ := ha
  · simp only [step, Option.bind_eq_some_iff, Option.ite_none_right_eq_some,
      Option.some.injEq] at hstep
    obtain ⟨q, hq, ⟨hsees, -⟩, rfl⟩ := hstep
    exact ⟨m, q, hq, Or.inl hsees, rfl⟩
  · simp only [step, Option.bind_eq_some_iff, Option.ite_none_right_eq_some,
      Option.some.injEq] at hstep
    obtain ⟨q, hq, hstage, rfl⟩ := hstep
    exact ⟨m, q, hq, Or.inr hstage, rfl⟩

/-- **One of the processes ends**: of those of the solver that was initiated last, the solving
children before the seeding process. -/
theorem Wired.exists_ends (h : Wired zeroCopy (x, bs)) (hne : x.procs ≠ [])
    (hall : ∀ p ∈ x.procs, Released zeroCopy x p) :
    ∃ m, ∃ a, Ends a ∧ step zeroCopy x a = some { x with procs := x.procs.eraseIdx m } ∧
      m < x.procs.length := by
  by_cases hwork : ∃ p ∈ x.procs, p.stage.Works
  · obtain ⟨p, hp, hstage⟩ := hwork
    obtain ⟨m, hm, rfl⟩ := List.mem_iff_getElem.mp hp
    refine ⟨m, .finish m, ⟨m, Or.inr rfl⟩, ?_, hm⟩
    simp [step, List.getElem?_eq_getElem hm, hstage]
  push Not at hwork
  obtain ⟨p, hp, hlast⟩ := Set.exists_max_image {p | p ∈ x.procs} Process.solver
    (List.finite_toSet x.procs) (List.exists_mem_of_ne_nil x.procs hne)
  -- nobody was initiated behind that solver, so that nobody else has its ends
  have hclosed : ∀ e, e = .readPipe true ∨ e = .forkedChildReadPipe true →
      x.Closed (.own p.solver e) := by
    intro e he
    obtain ⟨hz, w, hw, hreleased⟩ := (hall p hp).resolve_left (hwork p hp)
    refine (h.closed_iff hw he).mpr ⟨hz, hreleased, ?_⟩
    intro q hq hb
    exact absurd (h.before_lt hq hb) (Nat.not_lt.mpr (hlast q hq))
  obtain ⟨q, hq, hsees, hreads⟩ : ∃ q ∈ x.procs, x.SeesEnd q ∧ x.Reads q := by
    by_cases hchild : ∃ q ∈ x.procs, q.solver = p.solver ∧ q.stage = .reading
    · obtain ⟨q, hq, hsolver, hstage⟩ := hchild
      refine ⟨q, hq, Or.inr ⟨hstage, hsolver ▸ hclosed _ (Or.inr rfl)⟩, ?_⟩
      intro hs
      rw [hstage] at hs
      cases hs
    · push Not at hchild
      have hseeding : ∀ q ∈ x.procs, q.solver = p.solver → q.stage = .seeding := by
        intro q hq hsolver
        have h1 := hwork q hq
        have h2 := hchild q hq hsolver
        cases hs : q.stage with
        | seeding => rfl
        | reading => exact absurd hs h2
        | padded => exact absurd (Or.inl hs) h1
        | working => exact absurd (Or.inr hs) h1
      refine ⟨p, hp, Or.inl ⟨hseeding p hp rfl, hclosed _ (Or.inl rfl)⟩, ?_⟩
      rintro - w - ⟨-, q, hq, hsolver, hstage⟩
      exact hstage (hseeding q hq hsolver)
  obtain ⟨m, hm, rfl⟩ := List.mem_iff_getElem.mp hq
  refine ⟨m, .endOfInput m, ⟨m, Or.inl rfl⟩, ?_, hm⟩
  simp only [step, List.getElem?_eq_getElem hm, Option.bind_some, hsees, hreads, and_self,
    if_true]

/-- **All processes end by themselves**, if their solvers have been released. -/
theorem Wired.leads (h : Wired zeroCopy (x, bs)) (hall : ∀ p ∈ x.procs, Released zeroCopy x p) :
    Machine.Leads (step zeroCopy) Ends x fun y => y.procs = [] := by
  suffices Machine.Leads (step zeroCopy) Ends x fun y =>
      (Wired zeroCopy (y, bs) ∧ ∀ p ∈ y.procs, Released zeroCopy y p) ∧ y.procs = [] by
    obtain ⟨as, y, has, hrun, -, hy⟩ := this
    exact ⟨as, y, has, hrun, hy⟩
  refine Machine.leads_of_measure (μ := fun y => y.procs.length) ?_ ⟨h, hall⟩
  · rintro y ⟨hy, hall⟩ hne
    obtain ⟨m, a, ha, hstep, hm⟩ := hy.exists_ends hne hall
    refine .head ha hstep (.refl ⟨⟨hy.eraseIdx, ?_⟩, ?_⟩)
    · exact fun p hp => hall p (List.mem_of_mem_eraseIdx hp)
    · change (y.procs.eraseIdx m).length < y.procs.length
      rw [List.length_eraseIdx_of_lt hm]
      omega

/-- **A process stays** that reads, if its solver has not been released. -/
theorem Wired.not_leads (h : Wired zeroCopy (x, bs)) (hp : p ∈ x.procs)
    (hstays : ¬Released zeroCopy x p) :
    ¬Machine.Leads (step zeroCopy) Ends x fun y => y.procs = [] := by
  obtain ⟨w, births, hw, -⟩ := h.procs p hp
  rw [Released, not_or, hw] at hstays
  obtain ⟨hwork, hopen⟩ := hstays
  have hopen : ∀ e, e = .readPipe true ∨ e = .forkedChildReadPipe true →
      x.table.Holds (.own p.solver e) := by
    intro e he
    refine h.app_holds.mpr ⟨w, hw, (mem_held_of_input he).mpr ?_⟩
    exact fun hz => hopen ⟨hz.1, w, rfl, hz.2⟩
  refine Machine.not_leads_of_invariant (I := fun y => y.table = x.table ∧ p ∈ y.procs) ?_ ?_
    ⟨rfl, hp⟩
  · rintro y a z ha hstep ⟨htable, hmem⟩
    obtain ⟨m, q, hq, hends, rfl⟩ := step_ends ha hstep
    have hsees : ¬y.SeesEnd p := by
      rintro (⟨-, hc⟩ | ⟨-, hc⟩)
      · exact hc.1 (htable ▸ hopen _ (Or.inl rfl))
      · exact hc.1 (htable ▸ hopen _ (Or.inr rfl))
    obtain ⟨j, hj⟩ := List.mem_iff_getElem?.mp hmem
    refine ⟨htable, List.mem_eraseIdx_iff_getElem?.mpr ⟨j, ?_, hj⟩⟩
    rintro rfl
    obtain rfl := Option.some.inj (hq.symm.trans hj)
    exact hends.elim hsees hwork
  · rintro y ⟨-, hmem⟩ hnil
    rw [hnil] at hmem
    cases hmem

end

/-! ### The results -/

section

variable {zeroCopy : Bool} {x y : Plumbing} {bs : List (List Bool)} {as : List Act}

/-- An application with nothing but its standard streams. -/
def standardStreams : Plumbing :=
  ⟨openAll ∅ [(0, .other 0), (1, .other 1), (2, .other 2)], [], []⟩

theorem starts_standardStreams : Starts standardStreams where
  std := by decide
  others n hn := by
    rcases Nat.lt_or_ge n 3 with hlt | hge
    · have hstd : ∀ n < 3, otherAt standardStreams.table n = true := by decide
      exact hstd n hlt
    · obtain ⟨f, hf⟩ := Option.ne_none_iff_exists'.mp hn
      rcases (lookup_openAll (by decide)).mp hf with hmem | ⟨-, hf⟩
      · have hnum := List.mem_map_of_mem (f := Prod.fst) hmem
        simp only [List.map_cons, List.map_nil, List.mem_cons, List.not_mem_nil, or_false] at hnum
        omega
      · cases hf
  wires := rfl
  procs := rfl

/-- The numbers from some number on, in the order of the calls. -/
def numbersFrom (first : ℕ) (e : End) : ℕ := first + End.all.idxOf e

/-- Two solvers, the first of which is released while the second is there. -/
def twoSolvers : List Act :=
  [.init (numbersFrom 3) true, .fork 0, .init (numbersFrom 20) false, .release 0]

/-- What matters of a state and its record. -/
def summary (s : Plumbing × List (List Bool)) :
    List (ℕ × Stage) × List Bool × List (List Bool) :=
  (s.1.procs.map fun p => (p.solver, p.stage), s.1.wires.map Wires.released, s.2)

/-- **Who has which end open**, in every state that is reached: the application until it releases
the solver, and some ends for ever, a process those of its own solver that it uses, and of the
other solvers those that the application had open when its own was initiated. -/
theorem holds_iff (hstart : Starts x)
    (h : Machine.run (tracked zeroCopy) (x, []) as = some (y, bs)) :
    (∀ k e, y.table.Holds (.own k e) ↔
      ∃ w, y.wires[k]? = some w ∧ e ∈ held zeroCopy w.released) ∧
    ∀ p ∈ y.procs, ∀ k e, p.table.Holds (.own k e) ↔ k = p.solver ∧ e ∈ ownEnds p.stage ∨
      k ≠ p.solver ∧ ∃ r, Before bs p.solver k r ∧ e ∈ held zeroCopy r :=
  have hwired := Wired.run hstart h
  ⟨fun _ _ => hwired.app_holds, fun _ hp _ _ => hwired.proc_holds hp⟩

/-- The second seeding process has the pipe to the first open, also when the application has not. -/
theorem second_inherits : ∃ y bs,
    Machine.run (tracked false) (standardStreams, []) twoSolvers = some (y, bs) ∧
      ¬y.table.Holds (.own 0 (.readPipe true)) ∧
        ∃ p ∈ y.procs, p.solver = 1 ∧ p.table.Holds (.own 0 (.readPipe true)) := by
  have hrun : (Machine.run (tracked false) (standardStreams, []) twoSolvers).map summary =
      some ([(0, .seeding), (0, .reading), (1, .seeding)], [true, false], [[], [false]]) := by
    decide
  obtain ⟨⟨y, bs⟩, h, hs⟩ := Option.map_eq_some_iff.mp hrun
  obtain ⟨hprocs, hwires, hbs⟩ : y.procs.map _ = _ ∧ y.wires.map _ = _ ∧ bs = _ := by
    simpa only [summary, Prod.mk.injEq] using hs
  obtain ⟨happ, hproc⟩ := holds_iff starts_standardStreams h
  refine ⟨y, bs, h, ?_, ?_⟩
  · rw [happ]
    rintro ⟨w, hw, he⟩
    have hr : (y.wires.map Wires.released)[0]? = some w.released := by simp [hw]
    rw [hwires] at hr
    rw [← Option.some.inj hr] at he
    revert he
    decide
  · obtain ⟨p, hp, hpair⟩ := List.mem_map.mp
      (hprocs ▸ (by simp) : (1, Stage.seeding) ∈ y.procs.map fun p => (p.solver, p.stage))
    have hsolver : p.solver = 1 := congrArg Prod.fst hpair
    refine ⟨p, hp, hsolver, (hproc p hp _ _).mpr (Or.inr ⟨by omega, false, ?_, by decide⟩)⟩
    exact ⟨[false], by rw [hbs, hsolver]; rfl, rfl⟩

/-- **Who sees the end of a pipe**, in every state that is reached. What the library writes to is
closed with its solver, if nobody is left of a solver that was initiated while it was there. The
output of a seeding process ends with it, and that of the solving children with all processes of
the solver. What the library gets its messages from has no end, whoever has died. -/
theorem endOfInput_iff {k : ℕ} {w : Wires} (hstart : Starts x)
    (h : Machine.run (tracked zeroCopy) (x, []) as = some (y, bs)) (hw : y.wires[k]? = some w) :
    (∀ e, e = .readPipe true ∨ e = .forkedChildReadPipe true → (y.Closed (.own k e) ↔
      zeroCopy = false ∧ w.released = true ∧ ∀ p ∈ y.procs, ¬Before bs p.solver k false)) ∧
    (y.Closed (.own k (.writePipe true)) ↔ ∀ p ∈ y.procs, p.solver = k → p.stage ≠ .seeding) ∧
    (y.Closed (.own k (.forkedChildWritePipe true)) ↔ ∀ p ∈ y.procs, p.solver ≠ k) ∧
    ¬y.Closed (.own k (.messageToParentPipe true)) := by
  have hwired := Wired.run hstart h
  refine ⟨fun e he => hwired.closed_iff hw he, ?_, ?_, ?_⟩
  · have hnot : ∀ r, End.writePipe true ∉ held zeroCopy r := by
      intro r
      cases zeroCopy <;> cases r <;> decide
    rw [hwired.closed_iff_own hnot]
    have hends : ∀ s, End.writePipe true ∈ ownEnds s ↔ s = .seeding := by
      intro s
      cases s <;> decide
    simp only [hends, Ne]
  · have hnot : ∀ r, End.forkedChildWritePipe true ∉ held zeroCopy r := by
      intro r
      cases zeroCopy <;> cases r <;> decide
    rw [hwired.closed_iff_own hnot]
    have hends : ∀ s, End.forkedChildWritePipe true ∈ ownEnds s := by
      intro s
      cases s <;> decide
    simp only [hends, not_true_eq_false, Ne]
  · intro hclosed
    refine hclosed.1 (hwired.app_holds.mpr ⟨w, hw, ?_⟩)
    cases zeroCopy <;> cases w.released <;> decide

/-- The first seeding process sees the end of its input when the second has been killed. -/
theorem first_sees_end : ∃ y bs, Machine.run (tracked false) (standardStreams, [])
    (twoSolvers ++ [.kill 2]) = some (y, bs) ∧ y.Closed (.own 0 (.readPipe true)) := by
  have hrun : (Machine.run (tracked false) (standardStreams, []) (twoSolvers ++ [.kill 2])).map
      summary = some ([(0, .seeding), (0, .reading)], [true, false], [[], [false]]) := by
    decide
  obtain ⟨⟨y, bs⟩, h, hs⟩ := Option.map_eq_some_iff.mp hrun
  obtain ⟨hprocs, hwires, hbs⟩ : y.procs.map _ = _ ∧ y.wires.map _ = _ ∧ bs = _ := by
    simpa only [summary, Prod.mk.injEq] using hs
  obtain ⟨w, hw, hreleased⟩ : ∃ w, y.wires[0]? = some w ∧ w.released = true := by
    refine Option.map_eq_some_iff.mp ?_
    rw [← List.getElem?_map, hwires]
    rfl
  obtain ⟨hinput, -, -, -⟩ := endOfInput_iff starts_standardStreams h hw
  refine ⟨y, bs, h, (hinput _ (Or.inl rfl)).mpr ⟨rfl, hreleased, ?_⟩⟩
  rintro p hp ⟨rs, hrs, hr⟩
  have hsolver : p.solver ∈ (y.procs.map fun p => (p.solver, p.stage)).map Prod.fst :=
    List.mem_map_of_mem (f := Prod.fst) (List.mem_map_of_mem hp)
  rw [hprocs] at hsolver
  have hzero : p.solver = 0 := by simpa using hsolver
  rw [hbs, hzero] at hrs
  obtain rfl := Option.some.inj hrs
  cases hr

/-- **When the processes end by themselves**, in every state that is reached: they get rid of
themselves, whichever solvers they belong to, if and only if none is left that reads for a solver
that has not been released, or from a zero-copy pipe. -/
theorem ends_iff (hstart : Starts x)
    (h : Machine.run (tracked zeroCopy) (x, []) as = some (y, bs)) :
    Machine.Leads (step zeroCopy) Ends y (fun z => z.procs = []) ↔
      ∀ p ∈ y.procs, Released zeroCopy y p := by
  have hwired := Wired.run hstart h
  constructor
  · intro hleads p hp
    by_contra hstays
    exact hwired.not_leads hp hstays hleads
  · exact hwired.leads

/-- All end when the second solver has been released, too. -/
theorem both_released : ∃ y bs, Machine.run (tracked false) (standardStreams, [])
    (twoSolvers ++ [.release 1]) = some (y, bs) ∧
      Machine.Leads (step false) Ends y fun z => z.procs = [] := by
  have hrun : (Machine.run (tracked false) (standardStreams, []) (twoSolvers ++ [.release 1])).map
      summary = some ([(0, .seeding), (0, .reading), (1, .seeding)], [true, true],
        [[], [false]]) := by
    decide
  obtain ⟨⟨y, bs⟩, h, hs⟩ := Option.map_eq_some_iff.mp hrun
  obtain ⟨hprocs, hwires, -⟩ : y.procs.map _ = _ ∧ y.wires.map _ = _ ∧ bs = _ := by
    simpa only [summary, Prod.mk.injEq] using hs
  refine ⟨y, bs, h, (ends_iff starts_standardStreams h).mpr ?_⟩
  intro p hp
  have hsolver : p.solver ∈ (y.procs.map fun p => (p.solver, p.stage)).map Prod.fst :=
    List.mem_map_of_mem (f := Prod.fst) (List.mem_map_of_mem hp)
  rw [hprocs] at hsolver
  refine Or.inr ⟨rfl, Option.map_eq_some_iff.mp ?_⟩
  rw [← List.getElem?_map, hwires]
  have hcases : p.solver = 0 ∨ p.solver = 1 := by simpa using hsolver
  rcases hcases with hk | hk
  · rw [hk]
    rfl
  · rw [hk]
    rfl

end

end Plumbing

end QuAPI
