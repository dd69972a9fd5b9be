import Mathlib.Tactic

/-!
# Labelled partial machines

A machine is a partial step on a type of states, one label at a time; a run is a list
of labels. The rules here are the ones every development about runs needs:

* `Machine.run_append` and `Machine.run_concat` cut a run;
* `Machine.invariant` carries a property along a run, `Machine.invariant_of_meets`
  carries it along a run all of whose steps meet a condition (`Machine.Meets`);
* `Machine.always_of_meets` and `Machine.meets_of_always` relate what holds in every state
  of a run (`Machine.Always`) to such a condition;
* `Machine.length_le_of_measure` bounds a run by a measure that every step decreases, and
  `Machine.leads_of_measure` says that a state leads somewhere (`Machine.Leads`) if one gets
  nearer from every state that is not there;
* `Machine.simulation` carries a relation to another machine along a run, each step of the
  one being a run of the other;
* `Machine.track` keeps a record of a run beside its states, and neither adds nor removes a
  run (`Machine.run_track`);
* `Machine.guard` forbids the steps that do not meet a condition: its runs are the runs all of
  whose steps meet it (`Machine.run_guard`), and one gets as far as before where an invariant
  has the condition (`Machine.Leads.guard`).
-/

namespace Machine

variable {σ τ α β γ : Type*}

/-- The run of a list of labels. -/
def run (step : σ → α → Option σ) : σ → List α → Option σ
  | s, [] => some s
  | s, a :: as => (step s a).bind fun t => run step t as

/-- **Every step of a run meets a condition** on the state before it and its label. -/
def Meets (step : σ → α → Option σ) (P : σ → α → Prop) : σ → List α → Prop
  | _, [] => True
  | s, a :: as => P s a ∧ ∀ t, step s a = some t → Meets step P t as

instance decidableMeets {step : σ → α → Option σ} {P : σ → α → Prop}
    [∀ s a, Decidable (P s a)] : ∀ s as, Decidable (Meets step P s as)
  | _, [] => isTrue trivial
  | s, a :: as =>
    match h : step s a with
    | none => decidable_of_iff (P s a) ⟨fun hP => ⟨hP, fun t ht => by simp [h] at ht⟩, And.left⟩
    | some t =>
      have : Decidable (Meets step P t as) := decidableMeets t as
      decidable_of_iff (P s a ∧ Meets step P t as) <| and_congr_right fun _ =>
        ⟨fun ht u hu => Option.some.inj (h.symm.trans hu) ▸ ht, fun ht => ht t h⟩

/-- **Every state of a run has a property**, the first and the last included. -/
def Always (step : σ → α → Option σ) (I : σ → Prop) : σ → List α → Prop
  | s, [] => I s
  | s, a :: as => I s ∧ ∀ t, step s a = some t → Always step I t as

section

variable {step : σ → α → Option σ} {P : σ → α → Prop} {s t : σ} {a : α} {as bs : List α}

theorem run_cons : run step s (a :: as) = some t ↔
    ∃ u, step s a = some u ∧ run step u as = some t := by
  rw [run, Option.bind_eq_some_iff]

theorem run_append : run step s (as ++ bs) = (run step s as).bind fun t => run step t bs := by
  induction as generalizing s with
  | nil => rfl
  | cons a as ih =>
    rw [List.cons_append, run, run, Option.bind_assoc]
    exact congrArg _ (funext fun u => ih)

theorem run_append_some : run step s (as ++ bs) = some t ↔
    ∃ u, run step s as = some u ∧ run step u bs = some t := by
  rw [run_append, Option.bind_eq_some_iff]

theorem run_concat : run step s (as ++ [a]) = some t ↔
    ∃ u, run step s as = some u ∧ step u a = some t := by
  rw [run_append_some]
  refine exists_congr fun u => and_congr_right ?_
  intro _
  rw [run_cons]
  constructor
  · rintro ⟨v, hv, hvt⟩
    rwa [← Option.some.inj hvt]
  · exact fun h => ⟨t, h, rfl⟩

/-- **The invariant rule.** -/
theorem invariant {I : σ → Prop} (hstep : ∀ s a t, step s a = some t → I s → I t)
    (h : run step s as = some t) (hs : I s) : I t := by
  induction as generalizing s with
  | nil => exact Option.some.inj h ▸ hs
  | cons a as ih =>
    obtain ⟨u, hu, hr⟩ := run_cons.mp h
    exact ih hr (hstep s a u hu hs)

/-- **The conditional invariant rule**: the steps that meet the condition preserve the
property, and so do the runs all of whose steps meet it. -/
theorem invariant_of_meets {I : σ → Prop}
    (hstep : ∀ s a t, P s a → step s a = some t → I s → I t)
    (h : run step s as = some t) (hP : Meets step P s as) (hs : I s) : I t := by
  induction as generalizing s with
  | nil => exact Option.some.inj h ▸ hs
  | cons a as ih =>
    obtain ⟨u, hu, hr⟩ := run_cons.mp h
    exact ih hr (hP.2 u hu) (hstep s a u hP.1 hu hs)

theorem Meets.mono {Q : σ → α → Prop} (h : Meets step P s as) (hPQ : ∀ s a, P s a → Q s a) :
    Meets step Q s as := by
  induction as generalizing s with
  | nil => exact trivial
  | cons a as ih => exact ⟨hPQ s a h.1, fun t ht => ih (h.2 t ht)⟩

theorem Always.mono {I J : σ → Prop} (h : Always step I s as) (hIJ : ∀ s, I s → J s) :
    Always step J s as := by
  induction as generalizing s with
  | nil => exact hIJ s h
  | cons a as ih => exact ⟨hIJ s h.1, fun t ht => ih (h.2 t ht)⟩

theorem Always.head {I : σ → Prop} (h : Always step I s as) : I s := by
  cases as with
  | nil => exact h
  | cons a as => exact h.1

/-- The conditional invariant rule for all the states of a run. -/
theorem always_of_meets {I : σ → Prop}
    (hstep : ∀ s a t, P s a → step s a = some t → I s → I t) (hP : Meets step P s as)
    (hs : I s) : Always step I s as := by
  induction as generalizing s with
  | nil => exact hs
  | cons a as ih => exact ⟨hs, fun t ht => ih (hP.2 t ht) (hstep s a t hP.1 ht hs)⟩

/-- What holds in every state of a run, and forces a condition on the step behind each, makes
the run meet the condition. -/
theorem meets_of_always {I : σ → Prop}
    (hstep : ∀ s a t, step s a = some t → I s → I t → P s a) (h : run step s as = some t)
    (hI : Always step I s as) : Meets step P s as := by
  induction as generalizing s with
  | nil => exact trivial
  | cons a as ih =>
    obtain ⟨u, hu, hr⟩ := run_cons.mp h
    refine ⟨hstep s a u hu hI.1 (hI.2 u hu).head, ?_⟩
    intro v hv
    obtain rfl := Option.some.inj (hu.symm.trans hv)
    exact ih hr (hI.2 u hu)

/-- A condition is met by a run where it is met by its two parts. -/
theorem meets_append : Meets step P s (as ++ bs) ↔
    Meets step P s as ∧ ∀ t, run step s as = some t → Meets step P t bs := by
  induction as generalizing s with
  | nil =>
    refine ⟨fun h => ⟨trivial, ?_⟩, fun h => h.2 s rfl⟩
    intro t ht
    rwa [← Option.some.inj ht]
  | cons a as ih =>
    constructor
    · rintro ⟨hP, hrest⟩
      refine ⟨⟨hP, fun t ht => (ih.mp (hrest t ht)).1⟩, ?_⟩
      intro u hu
      obtain ⟨t, ht, hr⟩ := run_cons.mp hu
      exact (ih.mp (hrest t ht)).2 u hr
    · rintro ⟨⟨hP, hrest⟩, hbs⟩
      refine ⟨hP, fun t ht => ih.mpr ⟨hrest t ht, ?_⟩⟩
      intro u hu
      exact hbs u (run_cons.mpr ⟨t, ht, hu⟩)

/-- A condition on the labels alone. -/
theorem meets_of_forall (h : ∀ a ∈ as, ∀ s, P s a) : Meets step P s as := by
  induction as generalizing s with
  | nil => exact trivial
  | cons a as ih =>
    exact ⟨h a List.mem_cons_self s, fun t _ => ih fun b hb => h b (List.mem_cons_of_mem _ hb)⟩

end

/-! ### Where a run can get -/

/-- **A state leads somewhere**: a run of labels of some kind gets there. -/
def Leads (step : σ → α → Option σ) (A : α → Prop) (s : σ) (Q : σ → Prop) : Prop :=
  ∃ as t, (∀ a ∈ as, A a) ∧ run step s as = some t ∧ Q t

section

variable {step : σ → α → Option σ} {A B : α → Prop} {I Q R : σ → Prop} {μ : σ → ℕ} {s t : σ}
  {a : α} {as : List α}

theorem Leads.refl (h : Q s) : Leads step A s Q := ⟨[], s, List.forall_mem_nil _, rfl, h⟩

theorem Leads.head (ha : A a) (hstep : step s a = some t) (h : Leads step A t Q) :
    Leads step A s Q := by
  obtain ⟨as, u, hA, hrun, hu⟩ := h
  exact ⟨a :: as, u, List.forall_mem_cons.mpr ⟨ha, hA⟩, run_cons.mpr ⟨t, hstep, hrun⟩, hu⟩

theorem Leads.trans (h : Leads step A s Q) (hQ : ∀ t, Q t → Leads step A t R) :
    Leads step A s R := by
  obtain ⟨as, t, hA, hrun, ht⟩ := h
  obtain ⟨bs, u, hB, hrun', hu⟩ := hQ t ht
  refine ⟨as ++ bs, u, ?_, run_append_some.mpr ⟨t, hrun, hrun'⟩, hu⟩
  intro b hb
  exact (List.mem_append.mp hb).elim (hA b) (hB b)

theorem Leads.mono (h : Leads step A s Q) (hA : ∀ a, A a → B a) : Leads step B s Q := by
  obtain ⟨as, t, has, hrest⟩ := h
  exact ⟨as, t, fun a ha => hA a (has a ha), hrest⟩

/-- **What cannot be reached**: an invariant of the steps excludes it. -/
theorem not_leads_of_invariant (hstep : ∀ s a t, A a → step s a = some t → I s → I t)
    (hQ : ∀ s, I s → ¬Q s) (hs : I s) : ¬Leads step A s Q := by
  rintro ⟨as, t, hA, hrun, ht⟩
  exact hQ t (invariant_of_meets (P := fun _ a => A a) hstep hrun
    (meets_of_forall fun a ha _ => hA a ha) hs) ht

/-- **The measure rule**: where every step decreases a measure, a run is no longer than that. -/
theorem length_le_of_measure (hstep : ∀ s a t, A a → step s a = some t → I s → I t ∧ μ t < μ s)
    (hA : ∀ a ∈ as, A a) (h : run step s as = some t) (hs : I s) : as.length + μ t ≤ μ s := by
  induction as generalizing s with
  | nil =>
    rw [Option.some.inj h, List.length_nil, Nat.zero_add]
  | cons a as ih =>
    obtain ⟨u, hu, hr⟩ := run_cons.mp h
    obtain ⟨hIu, hlt⟩ := hstep s a u (hA a List.mem_cons_self) hu hs
    have hle := ih (fun b hb => hA b (List.mem_cons_of_mem a hb)) hr hIu
    rw [List.length_cons]
    omega

/-- **The progress rule**: where one gets nearer from every state that is not there, every state
leads there. -/
theorem leads_of_measure (hnear : ∀ s, I s → ¬Q s → Leads step A s fun t => I t ∧ μ t < μ s)
    (hs : I s) : Leads step A s fun t => I t ∧ Q t := by
  induction hn : μ s using Nat.strong_induction_on generalizing s with
  | _ n ih =>
    by_cases hQ : Q s
    · exact .refl ⟨hs, hQ⟩
    · refine (hnear s hs hQ).trans ?_
      rintro t ⟨ht, hlt⟩
      exact ih (μ t) (hn ▸ hlt) ht rfl

/-- **Runs come to rest**, where every step decreases a measure. -/
theorem leads_to_rest (hstep : ∀ s a t, A a → step s a = some t → I s → I t ∧ μ t < μ s)
    (hs : I s) : Leads step A s fun t => I t ∧ ∀ a, A a → step t a = none := by
  refine leads_of_measure (μ := μ) ?_ hs
  intro s hs hmoves
  push Not at hmoves
  obtain ⟨a, ha, hsome⟩ := hmoves
  obtain ⟨t, ht⟩ := Option.ne_none_iff_exists'.mp hsome
  exact .head ha ht (.refl (hstep s a t ha ht hs))

end

/-! ### Two machines -/

section

variable {step : σ → α → Option σ} {step' : τ → β → Option τ} {s s' : σ} {t : τ} {as : List α}

/-- **The simulation rule**: where every step of one machine is a run of another, from related
states to related states, so is every run of it. -/
theorem simulation {R : σ → τ → Prop} {label : α → List β}
    (hstep : ∀ s a s' t, step s a = some s' → R s t →
      ∃ t', run step' t (label a) = some t' ∧ R s' t')
    (h : run step s as = some s') (hR : R s t) :
    ∃ t', run step' t (as.flatMap label) = some t' ∧ R s' t' := by
  induction as generalizing s t with
  | nil => exact ⟨t, rfl, Option.some.inj h ▸ hR⟩
  | cons a as ih =>
    obtain ⟨u, hu, hr⟩ := run_cons.mp h
    obtain ⟨v, hv, hR'⟩ := hstep s a u t hu hR
    obtain ⟨t', ht', hR''⟩ := ih hr hR'
    exact ⟨t', by rw [List.flatMap_cons, run_append_some]; exact ⟨v, hv, ht'⟩, hR''⟩

/-! ### A record of the run -/

/-- The machine with a record that every step updates. -/
def track (step : σ → α → Option σ) (f : σ → α → γ → γ) (x : σ × γ) (a : α) : Option (σ × γ) :=
  (step x.1 a).map fun t => (t, f x.1 a x.2)

variable {f : σ → α → γ → γ} {x y : σ × γ} {a : α}

theorem track_eq_some : track step f x a = some y ↔
    step x.1 a = some y.1 ∧ y.2 = f x.1 a x.2 := by
  rw [track, Option.map_eq_some_iff]
  constructor
  · rintro ⟨t, ht, rfl⟩
    exact ⟨ht, rfl⟩
  · rintro ⟨ht, hg⟩
    exact ⟨y.1, ht, Prod.ext rfl hg.symm⟩

/-- **The record leaves the runs as they are.** -/
theorem run_track (g : γ) : (∃ g', run (track step f) (s, g) as = some (s', g')) ↔
    run step s as = some s' := by
  induction as generalizing s g with
  | nil =>
    constructor
    · rintro ⟨g', h⟩
      exact congrArg some (Prod.mk.inj (Option.some.inj h)).1
    · intro h
      exact ⟨g, by rw [← Option.some.inj h]; rfl⟩
  | cons a as ih =>
    simp only [run_cons]
    constructor
    · rintro ⟨g', ⟨u, e⟩, hu, hr⟩
      exact ⟨u, (track_eq_some.mp hu).1, (ih e).mp ⟨g', hr⟩⟩
    · rintro ⟨u, hu, hr⟩
      obtain ⟨g', hg'⟩ := (ih (f s a g)).mpr hr
      exact ⟨g', (u, f s a g), track_eq_some.mpr ⟨hu, rfl⟩, hg'⟩

/-- Where one can get, one gets with a record as well. -/
theorem Leads.track {A : α → Prop} {Q : σ → Prop} (h : Leads step A s Q) (g : γ) :
    Leads (track step f) A (s, g) fun x => Q x.1 := by
  obtain ⟨as, t, hA, hrun, ht⟩ := h
  obtain ⟨g', hg'⟩ := (run_track g).mpr hrun
  exact ⟨as, (t, g'), hA, hg', ht⟩

end

/-! ### Steps that are forbidden -/

/-- The machine whose steps meet a condition. -/
def guard (step : σ → α → Option σ) (P : σ → α → Prop) [∀ s a, Decidable (P s a)] (s : σ) (a : α) :
    Option σ :=
  if P s a then step s a else none

section

variable {step : σ → α → Option σ} {P : σ → α → Prop} [∀ s a, Decidable (P s a)] {s t : σ} {a : α}
  {as : List α}

theorem guard_eq_some : guard step P s a = some t ↔ P s a ∧ step s a = some t := by
  rw [guard]
  split
  case isTrue hP => exact (and_iff_right hP).symm
  case isFalse hP => exact iff_of_false (by simp) fun h => hP h.1

theorem guard_eq_none : guard step P s a = none ↔ (P s a → step s a = none) := by
  rw [guard]
  split
  case isTrue hP => exact ⟨fun h _ => h, fun h => h hP⟩
  case isFalse hP => exact iff_of_true rfl fun h => absurd h hP

/-- **The runs that are left** are those all of whose steps meet the condition. -/
theorem run_guard :
    run (guard step P) s as = some t ↔ Meets step P s as ∧ run step s as = some t := by
  induction as generalizing s with
  | nil => exact (and_iff_right trivial).symm
  | cons a as ih =>
    simp only [run_cons, guard_eq_some, Meets]
    constructor
    · rintro ⟨u, ⟨hP, hu⟩, hr⟩
      obtain ⟨hmeets, hrun⟩ := ih.mp hr
      refine ⟨⟨hP, fun v hv => ?_⟩, u, hu, hrun⟩
      rwa [← Option.some.inj (hu.symm.trans hv)]
    · rintro ⟨⟨hP, hmeets⟩, u, hu, hr⟩
      exact ⟨u, ⟨hP, hu⟩, ih.mpr ⟨hmeets u hu, hr⟩⟩

/-- **Where one can get**, one gets under the condition as well, if an invariant of the steps on
the way has it. -/
theorem Leads.guard {A : α → Prop} {Q I : σ → Prop} (h : Leads step A s Q)
    (hstep : ∀ s a t, A a → step s a = some t → I s → I t) (hP : ∀ s a, A a → I s → P s a)
    (hs : I s) : Leads (guard step P) A s fun t => I t ∧ Q t := by
  obtain ⟨as, t, hA, hrun, ht⟩ := h
  induction as generalizing s with
  | nil =>
    obtain rfl := Option.some.inj hrun
    exact .refl ⟨hs, ht⟩
  | cons a as ih =>
    obtain ⟨u, hu, hr⟩ := run_cons.mp hrun
    have ha := hA a List.mem_cons_self
    refine .head ha (guard_eq_some.mpr ⟨hP s a ha hs, hu⟩) ?_
    exact ih (hstep s a u ha hu hs) (fun b hb => hA b (List.mem_cons_of_mem a hb)) hr

end

end Machine
