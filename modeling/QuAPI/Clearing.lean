import QuAPI.Stream

/-!
# Solving clears the assumptions

After a solve, the library should be back at its base clauses, and the next child should
read only what is assumed from then on. The library's own counters are right after every
solve but one that the universal gate refuses (`QuAPI.Books.call`, and
`QuAPI.counts_of_solve`). What the children read is right as long as a child is only forked
once nothing is left over in the stream, and a solve only ends without a SOLVE where
nothing has been assumed (`QuAPI.Stream.Tidy`).

The invariant of such a run is `QuAPI.Stream.Kept`: what is left in the stream was written
for the youngest child, and if that child still reads, then all of it since the last solve.
-/

namespace QuAPI

/-! ### The counters of the library -/

/-- **The counters are right**: the clauses that the library has counted are the base
clauses and the assumptions, and a child that has not been asked for has none. -/
structure Books (s : QuapiSolver) (base : ℕ) : Prop where
  written : s.writtenClauses = base + s.writtenAssumptions
  fresh : s.needsFork → s.writtenAssumptions = 0
  canSolve : s.canSolve

section Books

variable {s : QuapiSolver} {allowMissing : Bool} {c : ApiCall} {io : Io} {e : Effect} {base : ℕ}

theorem not_needsFork_makeSolvable (s : QuapiSolver) (k : Handshake) :
    ¬(s.makeSolvable k).2.1.needsFork := by
  by_cases h : s.needsFork
  · rw [QuapiSolver.makeSolvable_of_needsFork h]
    cases k <;> simp [QuapiSolver.needsFork, QuapiSolver.askFork, QuapiSolver.gotReport]
  · rw [QuapiSolver.makeSolvable_of_not h]
    exact h

theorem Books.makeSolvable (h : Books s base) (k : Handshake) :
    Books (s.makeSolvable k).2.1 base := by
  refine ⟨?_, fun hn => absurd hn (not_needsFork_makeSolvable s k), ?_⟩
  · rcases s.makeSolvable_cases k with hm | hm | ⟨pid, hm⟩ <;> rw [hm] <;> exact h.written
  · rcases s.makeSolvable_cases k with hm | hm | ⟨pid, hm⟩ <;> rw [hm]
    · exact h.canSolve
    · exact Or.inr (Or.inr rfl)
    · exact Or.inr (Or.inr rfl)

theorem Books.clear (h : Books s base) : Books s.clearAssumptions base := by
  refine ⟨?_, fun _ => rfl, Or.inr (Or.inl rfl)⟩
  have hw := h.written
  change s.writtenClauses - s.writtenAssumptions = base + 0
  omega

/-- **Every call keeps the counters right**, whatever fails. -/
theorem Books.call (h : Books s base) (he : s.call allowMissing c io = some e) :
    Books e.solver (if c = .add 0 then base + 1 else base) := by
  have hw := h.written
  cases c with
  | quantify lit =>
    rw [if_neg (by simp)]
    change s.quapiQuantify lit = some e at he
    rw [QuapiSolver.quapiQuantify] at he
    split at he
    case isFalse => exact absurd he (by simp)
    case isTrue hs =>
      obtain rfl := Option.some.inj he
      have hfresh := h.fresh (Or.inr hs)
      refine ⟨?_, fun _ => ?_, ?_⟩ <;> simp only [] <;> split <;> split <;>
        first | exact hw | exact hfresh | exact h.canSolve
  | add lit =>
    change s.quapiAdd lit = some e at he
    rw [QuapiSolver.quapiAdd] at he
    split at he
    case isFalse => exact absurd he (by simp)
    case isTrue hs =>
      obtain rfl := Option.some.inj he
      have hfresh := h.fresh hs
      rcases eq_or_ne lit 0 with rfl | h0
      · rw [if_pos rfl]
        refine ⟨?_, fun _ => hfresh, Or.inr (Or.inl rfl)⟩
        push_cast
        change s.writtenClauses + 1 = base + 1 + s.writtenAssumptions
        omega
      · rw [if_neg fun hc => h0 (ApiCall.add.inj hc)]
        simp only [if_neg h0]
        exact ⟨hw, fun _ => hfresh, Or.inr (Or.inl rfl)⟩
  | assume lit =>
    rw [if_neg (by simp)]
    have hm := h.makeSolvable io.fork
    rcases QuapiSolver.quapiAssume_cases he with ⟨-, rfl⟩ | ⟨-, -, rfl⟩ |
      ⟨-, -, -, rfl⟩ | ⟨-, -, -, -, rfl⟩ | ⟨-, -, -, rfl⟩
    · exact h
    · exact h
    · exact hm
    · exact ⟨hm.written, fun hn => absurd hn (by simp [QuapiSolver.needsFork]),
        Or.inr (Or.inr rfl)⟩
    · refine ⟨?_, fun hn => absurd hn (by simp [QuapiSolver.needsFork,
        QuapiSolver.countAssumption]), Or.inr (Or.inr rfl)⟩
      have hmw := hm.written
      change (s.makeSolvable io.fork).2.1.writtenClauses + 1 =
        base + ((s.makeSolvable io.fork).2.1.writtenAssumptions + 1)
      omega
  | reset =>
    rw [if_neg (by simp)]
    obtain rfl := Option.some.inj he
    rw [QuapiSolver.quapiResetAssumptions]
    split
    · exact h.clear
    · exact h
  | solve =>
    rw [if_neg (by simp)]
    obtain rfl := Option.some.inj he
    have hm := h.makeSolvable io.fork
    rcases s.quapiSolve_cases allowMissing io with ⟨-, hs⟩ | ⟨-, -, hs⟩ | ⟨-, -, -, hs⟩ |
      ⟨-, -, -, -, hs⟩ <;> rw [hs]
    · exact h
    · exact hm
    · exact hm.clear
    · exact hm.clear

theorem books_init {litcount clausecount maxassumptions : CInt}
    {regexes : Option ((List Char → Bool) × (List Char → Bool))}
    (h : quapiInit litcount clausecount maxassumptions regexes = some s) : Books s 0 := by
  obtain ⟨-, clauses, -, rfl⟩ := quapiInit_cases h
  exact ⟨rfl, fun _ => rfl, Or.inl rfl⟩

/-- **After a solve, the counters are clear**, unless the universal gate has refused it
while there were assumptions. -/
theorem counts_of_solve (h : Books s base) (he : s.call allowMissing .solve io = some e) :
    e.solver.writtenAssumptions = 0 ∧ e.solver.writtenClauses = base ↔
      ¬(s.Refuses allowMissing ∧ s.writtenAssumptions ≠ 0) := by
  have hbase : e.solver.writtenClauses = base + e.solver.writtenAssumptions := by
    have hb := h.call he
    rw [if_neg (by simp)] at hb
    exact hb.written
  have hiff : e.solver.writtenAssumptions = 0 ∧ e.solver.writtenClauses = base ↔
      e.solver.writtenAssumptions = 0 := by
    rw [hbase]
    refine ⟨And.left, fun h0 => ⟨h0, ?_⟩⟩
    rw [h0, add_zero]
  rw [hiff]
  obtain rfl := Option.some.inj he
  rcases s.quapiSolve_cases allowMissing io with ⟨hr, hs⟩ | ⟨hr, hf, hs⟩ | ⟨hr, -, -, hs⟩ |
    ⟨hr, -, -, -, hs⟩ <;> rw [hs]
  · exact ⟨fun h0 hc => hc.2 h0, fun hc => not_not.mp fun h0 => hc ⟨hr, h0⟩⟩
  · -- the handshake fails where there are no assumptions yet
    refine ⟨fun _ hc => hr hc.1, ?_⟩
    intro _
    have hneeds : s.needsFork := by
      by_contra hn
      rw [QuapiSolver.makeSolvable_of_not hn] at hf
      exact absurd hf (by simp)
    have hfresh := h.fresh hneeds
    rcases s.makeSolvable_cases io.fork with hm | hm | ⟨pid, hm⟩ <;> rw [hm] <;> exact hfresh
  · exact ⟨fun _ hc => hr hc.1, fun _ => rfl⟩
  · exact ⟨fun _ hc => hr hc.1, fun _ => rfl⟩

end Books

/-! ### What a child may have read -/

open SharedPipe (upTo)

/-- **A child reads one round**: if it has read up to a SOLVE, then nothing from before its
own fork (`b` solves), and nothing from before the solve that came before that SOLVE. -/
def Clear (b : ℕ) (w : List Letter) : Prop :=
  ∀ n, (QuapiMsg.solve, n) ∈ upTo isSolve w → b ≤ n ∧ ∀ l ∈ upTo isSolve w, l.2 = n

theorem clear_of_forall {b : ℕ} {w : List Letter} (h : ∀ l ∈ w, isSolve l = false) :
    Clear b w := by
  intro n hn
  have hfalse := h _ (SharedPipe.mem_of_mem_upTo hn)
  exact absurd hfalse (by simp [isSolve])

theorem Clear.of_prefix {b : ℕ} {v w : List Letter} (h : Clear b w) (hv : v <+: w) :
    Clear b v := by
  have hsub : upTo isSolve v ⊆ upTo isSolve w := (SharedPipe.upTo_of_prefix hv).subset
  intro n hn
  obtain ⟨hb, hall⟩ := h n (hsub hn)
  exact ⟨hb, fun l hl => hall l (hsub hl)⟩

/-- **What is written for a child that still reads**: all of it since the last solve (`n`
of them), or a whole round. -/
inductive Pending (n b : ℕ) (w : List Letter) : Prop
  | fresh (born : b ≤ n) (all : ∀ l ∈ w, isSolve l = false ∧ l.2 = n)
  | solved (solve : ∃ l ∈ w, isSolve l = true) (clear : Clear b w)

namespace Pending

variable {n b : ℕ} {w xs : List Letter}

theorem clear (h : Pending n b w) : Clear b w := by
  cases h with
  | fresh _ hall => exact clear_of_forall fun l hl => (hall l hl).1
  | solved _ hc => exact hc

theorem append (h : Pending n b w) (hx : ∀ l ∈ xs, isSolve l = false ∧ l.2 = n) :
    Pending n b (w ++ xs) := by
  cases h with
  | fresh hb hall =>
    refine fresh hb ?_
    intro l hl
    rcases List.mem_append.mp hl with hl | hl
    · exact hall l hl
    · exact hx l hl
  | solved hs hc =>
    obtain ⟨l, hl, hf⟩ := hs
    refine solved ⟨l, List.mem_append_left _ hl, hf⟩ ?_
    rwa [Clear, SharedPipe.upTo_append ⟨l, hl, hf⟩]

/-- The SOLVE of the round. -/
theorem solve (h : Pending n b w) (m : ℕ) : Pending m b (w ++ [(.solve, n)]) := by
  have hsolve : ∃ l ∈ w ++ [(QuapiMsg.solve, n)], isSolve l = true :=
    ⟨_, List.mem_append_right _ (List.mem_singleton.mpr rfl), rfl⟩
  cases h with
  | fresh hb hall =>
    refine solved hsolve ?_
    intro k hk
    have hepoch : ∀ l ∈ upTo isSolve (w ++ [(QuapiMsg.solve, n)]), l.2 = n := by
      intro l hl
      rcases List.mem_append.mp (SharedPipe.mem_of_mem_upTo hl) with hl | hl
      · exact (hall l hl).2
      · rw [List.mem_singleton.mp hl]
    obtain rfl : k = n := hepoch _ hk
    exact ⟨hb, hepoch⟩
  | solved hs hc =>
    refine solved hsolve ?_
    rwa [Clear, SharedPipe.upTo_append hs]

/-- Another solve, where nothing has been written. -/
theorem succ (h : Pending n b w) (hw : w = []) : Pending (n + 1) b w := by
  cases h with
  | fresh hb hall =>
    refine fresh (hb.trans n.le_succ) ?_
    intro l hl
    rw [hw] at hl
    exact absurd hl List.not_mem_nil
  | solved hs hc => exact solved hs hc

end Pending

/-! ### The invariant of the stream -/

namespace Stream

/-- **The children and their stream are kept apart**: only the youngest child may still
read, and what it has read and what is left was written for it. -/
inductive Kept (p : SharedPipe.Pipe Letter ℤ) : List ℕ → ℕ → Prop
  | none {n : ℕ} (readers : p.readers = []) : Kept p [] n
  | owned {births : List ℕ} {n b : ℕ} {r : SharedPipe.Reader Letter ℤ}
      (owned : SharedPipe.Owned isSolve (fun w b => Clear b w) p births r)
      (clear : Clear b r.taken)
      (pending : r.Reads isSolve → Pending n b (r.taken ++ p.queue)) : Kept p (births ++ [b]) n

namespace Kept

variable {p q : SharedPipe.Pipe Letter ℤ} {births : List ℕ} {n : ℕ} {xs : List Letter}

/-- **Every child has read one round at most.** -/
theorem forall₂ (h : Kept p births n) :
    List.Forall₂ (fun r b => Clear b r.taken) p.readers births := by
  cases h with
  | none hr =>
    rw [hr]
    exact List.Forall₂.nil
  | owned ho hc _ => exact ho.forall₂ hc

theorem flush (h : Kept p births n) (k : ℕ) : Kept (p.flush k) births n := by
  cases h with
  | none hr => exact none hr
  | owned ho hc hp =>
    refine owned (ho.of_readers rfl) hc ?_
    intro hreads
    rw [SharedPipe.queue_flush]
    exact hp hreads

theorem close (h : Kept p births n) (pid : ℤ) : Kept (p.close pid) births n := by
  cases h with
  | none hr =>
    refine none ?_
    change p.readers.map _ = []
    rw [hr, List.map_nil]
  | owned ho hc hp =>
    refine owned (ho.close pid) ?_ ?_
    · rwa [SharedPipe.taken_close]
    · intro hreads
      rw [SharedPipe.taken_close]
      exact hp (SharedPipe.reads_of_close hreads)

theorem take (h : Kept p births n) {pid : ℤ} {k : ℕ} (ht : p.take isSolve pid k = some q) :
    Kept q births n := by
  cases h with
  | none hr =>
    rw [SharedPipe.Pipe.take, if_neg] at ht
    · exact absurd ht (by simp)
    · rintro ⟨⟨r, hmem, -⟩, -⟩
      rw [hr] at hmem
      exact absurd hmem List.not_mem_nil
  | owned ho hc hp =>
    obtain ⟨hreads, s, hs, heq⟩ := ho.take ht
    have hpend := hp hreads
    rw [← heq] at hpend
    exact owned hs (hpend.clear.of_prefix ⟨_, rfl⟩) fun _ => hpend

/-- Assumptions are written for the youngest child. -/
theorem write (h : Kept p births n) (hx : ∀ l ∈ xs, isSolve l = false ∧ l.2 = n) :
    Kept (p.write xs) births n := by
  cases h with
  | none hr => exact none hr
  | owned ho hc hp =>
    refine owned (ho.of_readers rfl) hc ?_
    intro hreads
    rw [SharedPipe.queue_write, ← List.append_assoc]
    exact (hp hreads).append hx

/-- A SOLVE ends the round. -/
theorem solve (h : Kept p births n) (m : ℕ) : Kept (p.write [(.solve, n)]) births m := by
  cases h with
  | none hr => exact none hr
  | owned ho hc hp =>
    refine owned (ho.of_readers rfl) hc ?_
    intro hreads
    rw [SharedPipe.queue_write, ← List.append_assoc]
    exact (hp hreads).solve m

/-- A solve without a SOLVE, where nothing has been written for a child that reads. -/
theorem succ (h : Kept p births n) (hq : p.queue = [])
    (hr : ∀ r ∈ p.readers, r.Reads isSolve → r.taken = []) : Kept p births (n + 1) := by
  cases h with
  | none hr => exact none hr
  | owned ho hc hp =>
    refine owned ho hc fun hreads => (hp hreads).succ ?_
    rw [hr _ ho.mem hreads, hq, List.append_nil]

/-- **A new child**, once nothing is left over and no child reads. -/
theorem start (h : Kept p births n) (hq : p.queue = [])
    (hr : ∀ r ∈ p.readers, ¬r.Reads isSolve) (pid : ℤ) :
    Kept (p.start pid) (births ++ [n]) n := by
  have hclear : Clear n ([] : List Letter) := clear_of_forall (List.forall_mem_nil _)
  have hpend : Pending n n ([] ++ (p.start pid).queue) := by
    refine Pending.fresh le_rfl ?_
    intro l hl
    have hnil : (p.start pid).queue = [] := hq
    rw [hnil] at hl
    exact absurd hl List.not_mem_nil
  cases h with
  | none hr' => exact owned (SharedPipe.owned_start_nil hr' pid) hclear fun _ => hpend
  | owned ho hc _ => exact owned (ho.start hc (hr _ ho.mem) pid) hclear fun _ => hpend

end Kept

/-! ### Whole runs -/

/-- Nothing is left over in the stream, and no child reads it. -/
def Settled (x : Stream) : Prop :=
  x.pipe.queue = [] ∧ ∀ r ∈ x.pipe.readers, ¬r.Reads isSolve

instance (x : Stream) : Decidable x.Settled := inferInstanceAs (Decidable (_ ∧ _))

/-- Nothing has been assumed, and nothing has been written for a child that reads. -/
def Untouched (x : Stream) : Prop :=
  x.solver.writtenAssumptions = 0 ∧ x.pipe.queue = [] ∧
    ∀ r ∈ x.pipe.readers, r.Reads isSolve → r.taken = []

instance (x : Stream) : Decidable x.Untouched := inferInstanceAs (Decidable (_ ∧ _ ∧ _))

/-- **The condition on a step**: a child is only asked for once the stream is settled, and
a solve only fails to send its SOLVE where nothing has been assumed. -/
def Tidy (allowMissing : Bool) (x : Stream) : Act → Prop
  | .call c io => (x.solver.AsksFork allowMissing c → x.Settled) ∧ (c = .solve →
    ¬x.solver.SendsSolve allowMissing ⟨x.handshake io, io.childWrites⟩ → x.Untouched)
  | _ => True

instance (allowMissing : Bool) (x : Stream) : ∀ a, Decidable (Tidy allowMissing x a)
  | .call _ _ => inferInstanceAs (Decidable ((_ → _) ∧ (_ → _ → _)))
  | .flush _ => isTrue trivial
  | .take _ _ => isTrue trivial
  | .exit _ => isTrue trivial

section

variable {allowMissing : Bool} {x y : Stream} {c : ApiCall} {io : CallIo} {e : Effect}

theorem Kept.abortSolverchild {p : SharedPipe.Pipe Letter ℤ} {births : List ℕ} {n : ℕ}
    (h : Kept p births n) (pid : Option ℤ) : Kept (abortSolverchild p pid) births n := by
  cases pid with
  | none => exact h
  | some pid => exact h.close pid

/-- **A call keeps the children apart.** -/
theorem Kept.afterCall (h : Kept x.pipe x.births x.solves) (hs : x.solver.canSolve)
    (he : x.solver.call allowMissing c ⟨x.handshake io, io.childWrites⟩ = some e)
    (ht : Tidy allowMissing x (.call c io)) :
    Kept (x.afterCall c io e).pipe (x.afterCall c io e).births (x.afterCall c io e).solves := by
  obtain ⟨hfork, hsolve⟩ := ht
  -- the child, and then the kill
  have hborn : Kept (if e.toSeed.any isFork then x.pipe.start io.pid else x.pipe)
      (x.afterCall c io e).births x.solves := by
    change Kept _ (if e.toSeed.any isFork then x.births ++ [x.solves] else x.births) _
    split
    case isTrue hf =>
      obtain ⟨hq, hr⟩ := hfork (QuapiSolver.asksFork_of_call he hf)
      exact h.start hq hr io.pid
    case isFalse => exact h
  have hkill := hborn
  replace hkill : Kept (if c = .reset ∧ x.solver.state = .inputAssumptions then
      Stream.abortSolverchild (if e.toSeed.any isFork then x.pipe.start io.pid else x.pipe)
        x.solver.solverchildPid
      else if e.toSeed.any isFork then x.pipe.start io.pid else x.pipe)
      (x.afterCall c io e).births x.solves := by
    split
    · exact hborn.abortSolverchild _
    · exact hborn
  -- and then what is written
  change Kept (x.pipeAfter c io e) _ (if c = .solve then x.solves + 1 else x.solves)
  rw [pipeAfter]
  rcases QuapiSolver.toChild_of_call hs he with ⟨hc, hmsgs⟩ | ⟨rfl, hmsgs⟩ | ⟨rfl, hmsgs, hsends⟩
  · rw [if_neg hc, if_neg fun hmem => hmsgs _ hmem rfl]
    refine hkill.write ?_
    intro l hl
    obtain ⟨msg, hmsg, rfl⟩ := List.mem_map.mp hl
    exact ⟨decide_eq_false (hmsgs msg hmsg), rfl⟩
  · simp only [hmsgs, List.map_singleton, List.mem_singleton, if_true]
    exact (hkill.solve _).flush _
  · simp only [hmsgs, List.map_nil, List.not_mem_nil, if_false, if_true]
    obtain ⟨-, hq, hr⟩ := hsolve rfl hsends
    have hreset : ¬(ApiCall.solve = .reset ∧ x.solver.state = .inputAssumptions) := by simp
    rw [if_neg hreset] at hkill ⊢
    refine (hkill.write (List.forall_mem_nil _)).succ ?_ ?_
    · split <;> rw [SharedPipe.queue_write, List.append_nil] <;> exact hq
    · split
      · intro r hmem hreads
        rcases List.mem_append.mp hmem with hmem | hmem
        · exact hr r hmem hreads
        · rw [List.mem_singleton.mp hmem]
      · exact hr

/-- **Every act keeps the children apart**, under the condition. -/
theorem Kept.step (h : Kept x.pipe x.births x.solves) (hs : x.solver.canSolve) {a : Act}
    (ht : Tidy allowMissing x a) (hy : x.step allowMissing a = some y) :
    Kept y.pipe y.births y.solves := by
  cases a with
  | call c io =>
    obtain ⟨e, he, -, rfl⟩ := step_call hy
    exact h.afterCall hs he ht
  | flush n =>
    obtain rfl := Option.some.inj hy
    exact h.flush n
  | take pid n =>
    obtain ⟨p, hp, rfl⟩ := Option.map_eq_some_iff.mp hy
    exact h.take hp
  | exit pid =>
    obtain rfl := Option.some.inj hy
    exact h.close pid

theorem books_step {a : Act} (h : Books x.solver x.base) (hy : x.step allowMissing a = some y) :
    Books y.solver y.base := by
  cases a with
  | call c io =>
    obtain ⟨e, he, -, rfl⟩ := step_call hy
    exact h.call he
  | flush n =>
    obtain rfl := Option.some.inj hy
    exact h
  | take pid n =>
    obtain ⟨p, hp, rfl⟩ := Option.map_eq_some_iff.mp hy
    exact h
  | exit pid =>
    obtain rfl := Option.some.inj hy
    exact h

/-- **Solving clears the assumptions**, in every run in which a child is only asked for once
nothing is left over in the stream and no child reads it, and in which a solve only fails
to send its SOLVE where nothing has been assumed: after every solve the counters are clear,
and at any time, a child that has read up to a SOLVE has only read what was assumed since
the solve before it, and since its own fork. -/
theorem solve_clears {litcount clausecount maxassumptions : CInt}
    {regexes : Option ((List Char → Bool) × (List Char → Bool))} {s : QuapiSolver}
    {acts : List Act} (hinit : quapiInit litcount clausecount maxassumptions regexes = some s)
    (hrun : Machine.run (step allowMissing) (start s) acts = some x)
    (htidy : Machine.Meets (step allowMissing) (Tidy allowMissing) (start s) acts) :
    (∀ acts' io, acts = acts' ++ [.call .solve io] →
      x.solver.writtenAssumptions = 0 ∧ x.solver.writtenClauses = x.base) ∧
    List.Forall₂ (fun r b => Clear b r.taken) x.pipe.readers x.births := by
  have hinv : ∀ {as : List Act} {y : Stream},
      Machine.run (step allowMissing) (start s) as = some y →
      Machine.Meets (step allowMissing) (Tidy allowMissing) (start s) as →
      Books y.solver y.base ∧ Kept y.pipe y.births y.solves := fun hr hm =>
    Machine.invariant_of_meets (I := fun y => Books y.solver y.base ∧ Kept y.pipe y.births y.solves)
      (fun _ _ _ ht hy hx => ⟨books_step hx.1 hy, hx.2.step hx.1.canSolve ht hy⟩) hr hm
      ⟨books_init hinit, Kept.none rfl⟩
  refine ⟨?_, (hinv hrun htidy).2.forall₂⟩
  rintro acts' io rfl
  obtain ⟨u, hu, hstep⟩ := Machine.run_concat.mp hrun
  obtain ⟨hmeets, hlast⟩ := Machine.meets_append.mp htidy
  obtain ⟨hbooks, -⟩ := hinv hu hmeets
  obtain ⟨⟨-, huntouched⟩, -⟩ := hlast u hu
  obtain ⟨e, he, -, rfl⟩ := step_call hstep
  refine (counts_of_solve hbooks he).mpr ?_
  rintro ⟨hr, hne⟩
  exact hne (huntouched rfl fun hsends => hsends.1 hr).1

end

/-! ### Two runs to look at -/

/-- A call in which nothing fails. -/
def ok (pid : ℤ) : CallIo := ⟨true, true, pid, 2⟩

/-- The library for three variables, one clause and three assumptions. -/
def universalStart : QuapiSolver where
  header := ⟨.of 3, .of 4, .of 3⟩
  regexes := none
  stdoutCb := none
  state := .input
  universalPrefixDepth := -1
  writtenClauses := 0
  writtenAssumptions := 0
  writtenQuantifierLiterals := 0
  solverchildPid := none

theorem universalStart_init :
    quapiInit ⟨3, by decide⟩ ⟨1, by decide⟩ ⟨3, by decide⟩ none = some universalStart := rfl

/-- The clause `x₁`, solved under the assumptions `x₁` and then `-x₁`, each by a child that
reads its round and exits. -/
def clearedActs : List Act :=
  [.call (.add (lit 1)) (ok 0), .call (.add 0) (ok 0), .call (.assume (lit 1)) (ok 7),
    .call .solve (ok 0), .take 7 3, .exit 7, .call (.assume (lit (-1))) (ok 8),
    .call .solve (ok 0)]

theorem cleared_run : ∃ x, Machine.run (step false) (start universalStart) clearedActs = some x ∧
    x.solver.writtenAssumptions = 0 ∧ x.solver.writtenClauses = x.base ∧
    List.Forall₂ (fun r b => Clear b r.taken) x.pipe.readers x.births := by
  have hsome : (Machine.run (step false) (start universalStart) clearedActs).isSome = true := by
    decide
  obtain ⟨x, hx⟩ := Option.isSome_iff_exists.mp hsome
  obtain ⟨hcounts, hclear⟩ := solve_clears universalStart_init hx (by decide)
  obtain ⟨ha, hc⟩ := hcounts [.call (.add (lit 1)) (ok 0), .call (.add 0) (ok 0),
    .call (.assume (lit 1)) (ok 7), .call .solve (ok 0), .take 7 3, .exit 7,
    .call (.assume (lit (-1))) (ok 8)] (ok 0) rfl
  exact ⟨x, hx, ha, hc, hclear⟩

/-- The prefix `∀x₁∀x₂∀x₃`, the clause `x₁`, the assumption `x₁` and a solve. -/
def refusedActs : List Act :=
  [.call (.quantify (lit (-1))) (ok 0), .call (.quantify (lit (-2))) (ok 0),
    .call (.quantify (lit (-3))) (ok 0), .call (.add (lit 1)) (ok 0), .call (.add 0) (ok 0),
    .call (.assume (lit 1)) (ok 7), .call .solve (ok 0)]

/-- Another three assumptions and a solve, and the child reads. -/
def nextCubeActs : List Act :=
  [.call (.assume (lit (-1))) (ok 8), .call (.assume (lit 2)) (ok 8),
    .call (.assume (lit 3)) (ok 8), .call .solve (ok 0), .take 7 9]

/-- **The solve is refused and clears nothing**: the assumption stays, and the child reads
it together with the next three, up to the SOLVE of the next solve. -/
theorem refused_keeps : ∃ x y r,
    Machine.run (step false) (start universalStart) refusedActs = some x ∧
      x.solver.writtenAssumptions = 1 ∧ x.solver.writtenClauses = 2 ∧ x.base = 1 ∧
      Machine.run (step false) x nextCubeActs = some y ∧ y.solver.writtenAssumptions = 0 ∧
      r ∈ y.pipe.readers ∧ r.taken = [(.literal (lit 1), 0), (.literal 0, 0),
        (.literal (lit (-1)), 1), (.literal 0, 1), (.literal (lit 2), 1), (.literal 0, 1),
        (.literal (lit 3), 1), (.literal 0, 1), (.solve, 1)] ∧ ¬Clear 0 r.taken := by
  have hfirst : (Machine.run (step false) (start universalStart) refusedActs).map (fun x =>
      (x.solver.writtenAssumptions, x.solver.writtenClauses, x.base)) = some (1, 2, 1) := by
    decide
  obtain ⟨x, hx, hcounts⟩ := Option.map_eq_some_iff.mp hfirst
  obtain ⟨ha, hc⟩ := Prod.mk.inj hcounts
  obtain ⟨hw, hb⟩ := Prod.mk.inj hc
  have hnext : (Machine.run (step false) (start universalStart) (refusedActs ++ nextCubeActs)).map
      (fun y => (y.solver.writtenAssumptions, y.pipe.readers.map fun r => r.taken)) =
      some (0, [[(.literal (lit 1), 0), (.literal 0, 0), (.literal (lit (-1)), 1),
        (.literal 0, 1), (.literal (lit 2), 1), (.literal 0, 1), (.literal (lit 3), 1),
        (.literal 0, 1), (.solve, 1)]]) := by
    decide
  obtain ⟨y, hy, hout⟩ := Option.map_eq_some_iff.mp hnext
  obtain ⟨ha', hr⟩ := Prod.mk.inj hout
  rw [Machine.run_append, hx] at hy
  obtain ⟨r, rs, hrs, htaken, -⟩ := List.map_eq_cons_iff.mp hr
  refine ⟨x, y, r, hx, ha, hw, hb, hy, ha', by rw [hrs]; exact List.mem_cons_self, htaken,
    fun h => ?_⟩
  rw [htaken] at h
  obtain ⟨-, hall⟩ := h 1 (by decide)
  exact absurd (hall (.literal (lit 1), 0) (by decide)) (by decide)

end Stream

end QuAPI
