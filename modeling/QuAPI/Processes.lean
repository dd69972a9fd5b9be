import QuAPI.Fitting
import QuAPI.Refinement

/-!
# What the processes really do

`QuAPI.System` leaves two things open that the runtime decides. Its seeding process takes every
message, and any of its children may read on behind its SOLVE. Here the two are settled by what
the processes have read, and `QuAPI.System.live` has the runs that are left.

* The seeding process takes a message that its state function has a case for
  (`QuAPI.System.Heeded`), and no other one: in a default branch it crashes or loops. It is the
  messages of a process that `QuAPI.Reader.Fits`, where it reads alone
  (`QuAPI.System.heeded_iff_fits`), and all of them if the calls are proper
  (`QuAPI.System.handled_of_proper`).
* A child reads on behind its SOLVE only where it has been padded (`QuAPI.IsPadded`): where its end
  of input is not a final one, if it reads alone (`QuAPI.end_final_iff_not_padded`).
-/

namespace QuAPI

/-! ### Padded children -/

/-- **A child is padded**: it inherits `seed`, and where it takes its SOLVE it has written fewer
clauses than the header announces. -/
def IsPadded (seed taken : List QuapiMsg) : Prop :=
  ((Encoder.init.encode (seed ++ taken.takeWhile (· ≠ .solve))).any fun x =>
    x.2.written < x.2.header.clauses.1) = true

instance (seed taken : List QuapiMsg) : Decidable (IsPadded seed taken) :=
  inferInstanceAs (Decidable (_ = true))

section

variable {ms own left : List QuapiMsg} {v : ℤ} {d : QuapiMsgHeaderData} {s s' : List Char}
  {c c' : Encoder} {seedSizes sizes : ℕ → ℕ}

theorem isPadded_iff {seed : List QuapiMsg} (hseed : Encoder.init.encode seed = some (s, c))
    (hown : c.encode own = some (s', c')) (hsolve : .solve ∉ own) :
    IsPadded seed (own ++ .solve :: left) ↔ c'.written < c'.header.clauses.1 := by
  have hnot : ∀ m ∈ own, decide (m ≠ .solve) = true := by
    intro m hm
    refine decide_eq_true ?_
    rintro rfl
    exact hsolve hm
  have htake : (own ++ .solve :: left).takeWhile (· ≠ .solve) = own := by
    rw [List.takeWhile_append_of_pos hnot]
    exact List.append_nil own
  rw [IsPadded, htake, Encoder.encode_append hseed hown, Option.any_some, decide_eq_true_eq]

/-- **The end of a child is final if and only if it has not been padded.** A child that inherits
what the seeding process has read, takes messages of its own and then a SOLVE, comes to the end of
its input; and every later read returns 0 and takes no message if and only if the child has not
been padded. -/
theorem end_final_iff_not_padded (hseedSizes : ∀ i, 0 < seedSizes i) (hsizes : ∀ i, 0 < sizes i)
    (hseed : Encoder.init.encode (.header v d :: ms) = some (s, c))
    (hown : c.encode own = some (s', c'))
    (hst : c'.state = .readingPrefix ∨ c'.state = .readingMatrix) (hsolve : .solve ∉ own) :
    ∃ p q, Reader.Reaches seedSizes (Reader.start (.header v d :: ms)) p ∧ p.input = [] ∧
      p.blocked.isSome ∧ Reader.Reaches sizes { p with input := own ++ .solve :: left } q ∧
      q.closed = some 0 ∧ q.input = left ∧
      ((∀ ns, EndFinal q.runtime ns) ↔
        ¬IsPadded (.header v d :: ms) (own ++ .solve :: left)) := by
  obtain ⟨p₀, hp₀, hw₀, -, hi₀⟩ := Reader.reaches_start hseedSizes (.header v d :: ms)
  obtain ⟨p, hp, hw, -, hi⟩ := Reader.reaches_encode hseedSizes hw₀
    (hi₀.trans (List.append_nil _).symm) hseed
  obtain ⟨n, -, hblocked⟩ := hw.blocked
  have hw' : Reader.Waits { p with input := own ++ .solve :: left } c :=
    ⟨hw.blocked, hw.closed, hw.encodes, hw.outbuf, hw.written⟩
  obtain ⟨t, ht, hwt, -, hit⟩ := Reader.reaches_encode hsizes hw' rfl hown
  -- the header has been read
  have hsane : p.Sane := Reader.sane_start.reaches (hp₀.trans hp)
  have hpst : p.runtime.state ≠ .waitingForHeader := by
    intro hc
    obtain ⟨v, d, more, hmore⟩ := hsane.header hc
    exact absurd (hi.symm.trans hmore) (by simp)
  have hsane' : Reader.Sane { p with input := own ++ .solve :: left } :=
    ⟨hsane.filler, fun hc => absurd hc hpst, hsane.working, hsane.blocked⟩
  have hst' : t.runtime.state ≠ .waitingForHeader := by
    rw [hwt.encodes.state]
    rcases hst with hc | hc <;> rw [hc] <;> exact QuapiPreloadState.noConfusion
  have hfill : c'.filler ≠ [] := by
    have hpos := (hsane'.reaches ht).filler
    rw [hwt.encodes.fillerLen] at hpos
    exact List.length_pos_iff.mp hpos
  obtain ⟨q, hq, hends⟩ := Reader.reaches_solve hsizes hwt hfill hst hit
  obtain ⟨m, -, hm⟩ := hwt.blocked
  obtain ⟨hfinal, hpadded⟩ := (hsane'.reaches ht).endFinal_iff hst' hit (by rw [hm]; rfl) hq
    hends.closed
  rw [hwt.encodes.header, hwt.encodes.written] at hfinal hpadded
  refine ⟨p, q, hp₀.trans hp, hi, by rw [hblocked]; rfl, ht.trans hq, hends.closed, hends.input, ?_⟩
  rw [isPadded_iff hseed hown hsolve, not_lt]
  exact ⟨hpadded hsizes, hfinal⟩

end

namespace System

/-! ### What the processes are able to do -/

/-- **The next message of the seeding process has a case** in the state function that it has come
to. -/
def Heeded (x : System × History) : Prop :=
  (Machine.run QuapiPreloadState.next .waitingForHeader
    (x.2.read ++ x.1.toSeed.take 1)).isSome = true

instance (x : System × History) : Decidable (Heeded x) := inferInstanceAs (Decidable (_ = true))

/-- Every message to the seeding process has a case, read or not. -/
def Handled (x : System × History) : Prop :=
  (Machine.run QuapiPreloadState.next .waitingForHeader (x.2.read ++ x.1.toSeed)).isSome = true

/-- The child of round `i + 1` has been padded. -/
def PaddedAt (x : System × History) (i : ℕ) : Prop :=
  ∃ r ∈ x.1.stream.readers[i]?, ∃ seed ∈ x.2.seeds[i]?, IsPadded seed (r.taken.map Prod.fst)

instance (x : System × History) (i : ℕ) : Decidable (PaddedAt x i) :=
  inferInstanceAs (Decidable (∃ r ∈ x.1.stream.readers[i]?, ∃ seed ∈ x.2.seeds[i]?, _))

/-- **What the processes are able to do**: the seeding process takes a message that it has a case
for, and a child reads on behind its SOLVE if it has been padded. -/
def Able (x : System × History) : Act → Prop
  | .seedRead | .seedFork _ => Heeded x
  | .readOn i _ => PaddedAt x i
  | _ => True

instance (x : System × History) : ∀ a, Decidable (Able x a)
  | .seedRead | .seedFork _ => inferInstanceAs (Decidable (Heeded x))
  | .readOn i _ => inferInstanceAs (Decidable (PaddedAt x i))
  | .call _ | .setStdoutCb _ | .readReport | .poll | .handle _ | .finish | .terminate | .flush _
  | .seedReport | .seedReap | .take _ _ | .print _ _ | .destruct _ | .exit _ _ => isTrue trivial

/-- **A step of the processes as they are**, with the record of what they have read. -/
def live (allowMissing : Bool) : System × History → Act → Option (System × History) :=
  Machine.guard (tracked allowMissing) Able

section

variable {x y : System × History} {a : Act} {acts : List Act} {allowMissing : Bool} {env : Env}
  {s : QuapiSolver}

theorem live_eq_some : live allowMissing x a = some y ↔
    Able x a ∧ x.1.step allowMissing a = some y.1 ∧ y.2 = x.2.next x.1 a := by
  rw [live, Machine.guard_eq_some, tracked, Machine.track_eq_some]

/-- What the processes do is one of the interleavings. -/
theorem tracked_of_live (hrun : Machine.run (live allowMissing) x acts = some y) :
    Machine.run (tracked allowMissing) x acts = some y := (Machine.run_guard.mp hrun).2

theorem step_of_live (hrun : Machine.run (live allowMissing) x acts = some y) :
    Machine.run (step allowMissing) x.1 acts = some y.1 :=
  (Machine.run_track x.2).mp ⟨y.2, tracked_of_live hrun⟩

/-! ### What the seeding process handles -/

/-- **A message is heeded if and only if it is handled** by a process that reads it behind what
the seeding process has read. -/
theorem heeded_iff_fits {msg : QuapiMsg} {rest : List QuapiMsg} (hseed : x.1.toSeed = msg :: rest)
    (hsolve : .solve ∉ x.2.read ++ [msg]) : Heeded x ↔
      ∀ sizes p, Reader.Rereads sizes (Reader.start (x.2.read ++ [msg])) p → p.Fits := by
  rw [Heeded, hseed, List.take_succ_cons, List.take_zero, Option.isSome_iff_exists]
  -- the messages of a library that has written nothing else
  constructor
  · rintro ⟨st, hst⟩
    exact seedFits_of_run (a := ⟨x.1.solver, x.2.read ++ [msg], []⟩) hst
  · exact run_of_seedFits (a := ⟨x.1.solver, x.2.read ++ [msg], []⟩) hsolve

theorem Handled.heeded (h : Handled x) : Heeded x := by
  obtain ⟨st, hst⟩ := Option.isSome_iff_exists.mp h
  rw [← List.take_append_drop 1 x.1.toSeed, ← List.append_assoc, Machine.run_append_some] at hst
  obtain ⟨u, hu, -⟩ := hst
  exact Option.isSome_iff_exists.mpr ⟨u, hu⟩

/-- **Where the calls are proper, every message is handled**, now and as long as no other call is
made: what has been written stays the same. -/
theorem handled_of_proper {litcount clausecount maxassumptions : CInt}
    {regexes : Option ((List Char → Bool) × (List Char → Bool))}
    (hinit : quapiInit litcount clausecount maxassumptions regexes = some s)
    (hrun : Machine.run (tracked env.allowMissing) (start s, History.start s) acts = some x)
    (hproper : Machine.Meets (fun a c => (a.call env c).map Prod.snd) (Api.Proper env)
      (Api.start s) (acts.flatMap Act.calls)) : ∃ b, Behind x b ∧ ∀ y, Behind y b → Handled y := by
  have hs : s.canSolve := (fitted_start hinit).canSolve
  obtain ⟨b, hb, hbehind, -⟩ := calls_refine hs hrun
  refine ⟨b, hbehind, fun y hy => ?_⟩
  rw [Handled, hy.written]
  exact Option.isSome_iff_exists.mpr
    (((fitted_start hinit).meets_iff (Api.calls_of_tracked hb)).mp hproper)

end

end System

end QuAPI
