import QuAPI.System

/-!
# The fork handshake

What the library and the seeding process agree on when a child is forked, with everything
else left out: the FORKs that have not been read, where the seeding process is, the
messages to the library, and the children (`QuAPI.ForkProtocol`). Each act of the system is
a step of this protocol, or does not touch it (`QuAPI.System.Does.protocol`).

* `QuAPI.ForkProtocol.Sound` is the invariant: there is one FORK, or report being written, or
  report on its way, exactly while the library waits for one; and what a message says of a
  child is true.
* `QuAPI.ForkProtocol.Own` says that what the library reads behind the report of a round is
  about the child of that round. It is kept by every step but a DESTRUCTED of an older
  child.
-/

namespace QuAPI

/-! ### The protocol -/

/-- The report of a fork. -/
def isReport : QuapiMsg × ℕ → Bool
  | (.forkReport _, _) => true
  | _ => false

/-- What a child keeps: its round and its pid, and how it ended. -/
def Child.Later (c d : Child) : Prop :=
  d.round = c.round ∧ d.pid = c.pid ∧ ∀ status, c.status = some status → d.status = some status

/-- The fork that the seeding process is busy with. -/
def SeedState.round : SeedState → Option ℕ
  | reading => none
  | reporting round _ _ => some round
  | waiting round => some round

/-- A report is being written. -/
def SeedState.reports : SeedState → ℕ
  | reporting _ _ _ => 1
  | _ => 0

/-- **The fork handshake.** -/
structure ForkProtocol where
  /-- The library waits for a report. -/
  forking : Bool
  /-- The FORKs that have been written. -/
  round : ℕ
  /-- The FORKs that have not been read. -/
  forks : ℕ
  seed : SeedState
  /-- The messages to the library. -/
  parent : List (QuapiMsg × ℕ)
  children : List Child
  /-- The pid that the library knows. -/
  pid : Option ℤ

namespace ForkProtocol

/-- The steps of the protocol. A step that sends DESTRUCTED is labelled with the round of
the child. -/
inductive Step : Option ℕ → ForkProtocol → ForkProtocol → Prop where
  | ask {h : ForkProtocol} (hforking : h.forking = false) : Step none h
      { h with forking := true, round := h.round + 1, forks := h.forks + 1 }
  | report {h : ForkProtocol} {pid : ℤ} {source : ℕ} {rest : List (QuapiMsg × ℕ)}
      (hforking : h.forking = true) (hparent : h.parent = (.forkReport pid, source) :: rest) :
      Step none h { h with forking := false, parent := rest, pid := some pid }
  /-- The library reads a message, and goes on waiting if it does. -/
  | read {h : ForkProtocol} {m : QuapiMsg × ℕ} {rest : List (QuapiMsg × ℕ)}
      (hparent : h.parent = m :: rest) (hm : h.forking = true → isReport m = false) :
      Step none h { h with parent := rest }
  | fork {h : ForkProtocol} {n : ℕ} {pid : ℤ} {wait : Bool} (hseed : h.seed = .reading)
      (hforks : h.forks = n + 1) : Step none h { h with
        forks := n
        seed := .reporting (h.children.length + 1) pid wait
        children := h.children ++ [⟨h.children.length + 1, pid, !wait, none⟩] }
  | announce {h : ForkProtocol} {round : ℕ} {pid : ℤ} {wait : Bool}
      (hseed : h.seed = .reporting round pid wait) : Step none h { h with
        parent := h.parent ++ [(.forkReport pid, round)]
        seed := if wait then .waiting round else .reading }
  | reap {h : ForkProtocol} {c : Child} {status : ExitStatus} (hseed : h.seed = .waiting c.round)
      (hc : c ∈ h.children) (hstatus : c.status = some status) : Step none h { h with
        parent := h.parent ++ [(.exitCode status.exitCode, c.round)]
        seed := .reading }
  | destruct {h : ForkProtocol} {c : Child} {cs : List Child}
      (hcs : List.Forall₂ Child.Later h.children cs) : Step (some c.round) h { h with
        parent := h.parent ++ [(.destructed, c.round)]
        children := cs }
  | change {h : ForkProtocol} {cs : List Child} (hcs : List.Forall₂ Child.Later h.children cs) :
      Step none h { h with children := cs }

/-! ### Children as they change -/

section

variable {cs ds : List Child} {r : ℕ} {pid : ℤ}

theorem map_round_of_later (h : List.Forall₂ Child.Later cs ds) :
    ds.map Child.round = cs.map Child.round := by
  induction h with
  | nil => rfl
  | cons hcd _ ih => rw [List.map_cons, List.map_cons, hcd.1, ih]

theorem later_refl (cs : List Child) : List.Forall₂ Child.Later cs cs :=
  List.forall₂_same.mpr fun _ _ => ⟨rfl, rfl, fun _ h => h⟩

/-- A child is still there. -/
theorem exists_later (h : List.Forall₂ Child.Later cs ds) {c : Child} (hc : c ∈ cs) :
    ∃ d ∈ ds, c.Later d := by
  induction h with
  | nil => exact absurd hc List.not_mem_nil
  | cons hcd _ ih =>
    rcases List.mem_cons.mp hc with rfl | hc
    · exact ⟨_, List.mem_cons_self, hcd⟩
    · obtain ⟨d, hd, hlater⟩ := ih hc
      exact ⟨d, List.mem_cons_of_mem _ hd, hlater⟩

/-- A child was there before. -/
theorem exists_earlier (h : List.Forall₂ Child.Later cs ds) {d : Child} (hd : d ∈ ds) :
    ∃ c ∈ cs, c.Later d := by
  induction h with
  | nil => exact absurd hd List.not_mem_nil
  | cons hcd _ ih =>
    rcases List.mem_cons.mp hd with rfl | hd
    · exact ⟨_, List.mem_cons_self, hcd⟩
    · obtain ⟨c, hc, hlater⟩ := ih hd
      exact ⟨c, List.mem_cons_of_mem _ hc, hlater⟩

end

/-! ### The invariant -/

/-- The child of a round has the pid. -/
def HasPid (h : ForkProtocol) (r : ℕ) (pid : ℤ) : Prop :=
  ∃ c ∈ h.children, c.round = r ∧ c.pid = pid

/-- The child of a round has ended with the exit code. -/
def HasExited (h : ForkProtocol) (r : ℕ) (code : ℤ) : Prop :=
  ∃ c ∈ h.children, c.round = r ∧ ∃ status, c.status = some status ∧ status.exitCode = code

/-- **The handshake is sound.** -/
structure Sound (h : ForkProtocol) : Prop where
  /-- One FORK, or one report, is on its way exactly while the library waits. -/
  count : h.forks + h.seed.reports + h.parent.countP isReport = h.forking.toNat
  length : h.children.length + h.forks = h.round
  rounds : h.children.map Child.round = List.range' 1 h.children.length
  seed : ∀ r, h.seed.round = some r → r = h.children.length
  seedPid : ∀ r pid wait, h.seed = .reporting r pid wait → h.HasPid r pid
  /-- A report is about the youngest child, and has its pid. -/
  report : ∀ pid r, (.forkReport pid, r) ∈ h.parent → r = h.children.length ∧ h.HasPid r pid
  /-- An exit code is the one that the child has ended with. -/
  exit : ∀ code r, (.exitCode code, r) ∈ h.parent → h.HasExited r code
  /-- The library knows the pid of the child of its round. -/
  pid : h.forking = false → ∀ c ∈ h.children, c.round = h.round → h.pid = some c.pid

/-- What comes behind the first report. -/
def afterReport : List (QuapiMsg × ℕ) → List (QuapiMsg × ℕ)
  | [] => []
  | m :: ms => if isReport m then ms else afterReport ms

/-- What the library will read in this round behind the report. -/
def fresh (h : ForkProtocol) : List (QuapiMsg × ℕ) :=
  if h.forking then afterReport h.parent else h.parent

/-- **What is read in a round is about the child of that round.** -/
def Own (h : ForkProtocol) : Prop := ∀ m ∈ h.fresh, m.2 = h.round

section

variable {h k : ForkProtocol} {r : ℕ} {pid code : ℤ} {label : Option ℕ} {cs : List Child}
  {ms : List (QuapiMsg × ℕ)} {m : QuapiMsg × ℕ}

/-- There is one child for each round. -/
theorem Sound.eq_of_round (hs : h.Sound) {c d : Child} (hc : c ∈ h.children)
    (hd : d ∈ h.children) (hround : c.round = d.round) : c = d := by
  refine List.inj_on_of_nodup_map ?_ hc hd hround
  rw [hs.rounds]
  exact List.nodup_range'

theorem HasPid.later (hp : h.HasPid r pid) (hcs : List.Forall₂ Child.Later h.children k.children) :
    k.HasPid r pid := by
  obtain ⟨c, hc, hround, hpid⟩ := hp
  obtain ⟨d, hd, hround', hpid', -⟩ := exists_later hcs hc
  exact ⟨d, hd, hround'.trans hround, hpid'.trans hpid⟩

theorem HasExited.later (hp : h.HasExited r code)
    (hcs : List.Forall₂ Child.Later h.children k.children) : k.HasExited r code := by
  obtain ⟨c, hc, hround, status, hstatus, hcode⟩ := hp
  obtain ⟨d, hd, hround', -, hstatus'⟩ := exists_later hcs hc
  exact ⟨d, hd, hround'.trans hround, status, hstatus' status hstatus, hcode⟩

theorem HasPid.append (hp : h.HasPid r pid) (hcs : k.children = h.children ++ cs) :
    k.HasPid r pid := by
  obtain ⟨c, hc, hrest⟩ := hp
  exact ⟨c, hcs ▸ List.mem_append_left _ hc, hrest⟩

theorem HasExited.append (hp : h.HasExited r code) (hcs : k.children = h.children ++ cs) :
    k.HasExited r code := by
  obtain ⟨c, hc, hrest⟩ := hp
  exact ⟨c, hcs ▸ List.mem_append_left _ hc, hrest⟩

/-- Where no report is on its way, none is among the messages. -/
theorem not_isReport_of_count (hcount : ms.countP isReport = 0) (hm : m ∈ ms) :
    isReport m = false := by
  rw [List.countP_eq_zero] at hcount
  exact Bool.eq_false_iff.mpr (hcount m hm)

theorem afterReport_report (pid : ℤ) (r : ℕ) (ms : List (QuapiMsg × ℕ)) :
    afterReport ((.forkReport pid, r) :: ms) = ms := rfl

theorem afterReport_of_count (hcount : ms.countP isReport = 0) (ns : List (QuapiMsg × ℕ)) :
    afterReport (ms ++ ns) = afterReport ns := by
  induction ms with
  | nil => rfl
  | cons m ms ih =>
    have hm : ¬isReport m = true := by
      rw [not_isReport_of_count hcount List.mem_cons_self]
      exact Bool.false_ne_true
    rw [List.countP_cons_of_neg hm] at hcount
    rw [List.cons_append, afterReport, if_neg hm, ih hcount]

theorem afterReport_append (hcount : 0 < ms.countP isReport) (ns : List (QuapiMsg × ℕ)) :
    afterReport (ms ++ ns) = afterReport ms ++ ns := by
  induction ms with
  | nil => exact absurd hcount (by simp)
  | cons m ms ih =>
    rw [List.cons_append, afterReport, afterReport]
    -- up to the report, everything is read over
    by_cases hm : isReport m = true
    · rw [if_pos hm, if_pos hm]
    · rw [List.countP_cons_of_neg hm] at hcount
      rw [if_neg hm, if_neg hm, ih hcount]

/-- Children that change keep the handshake sound. -/
theorem Sound.change (hs : h.Sound) (hcs : List.Forall₂ Child.Later h.children cs) :
    Sound { h with children := cs } := by
  have hlength : cs.length = h.children.length := hcs.length_eq.symm
  refine ⟨hs.count, ?_, ?_, ?_, ?_, ?_, ?_, ?_⟩
  · exact (congrArg (· + h.forks) hlength).trans hs.length
  · change cs.map Child.round = List.range' 1 cs.length
    rw [map_round_of_later hcs, hlength, hs.rounds]
  · exact fun r hr => (hs.seed r hr).trans hlength.symm
  · exact fun r pid wait hr => (hs.seedPid r pid wait hr).later hcs
  · intro pid r hm
    obtain ⟨hr, hp⟩ := hs.report pid r hm
    exact ⟨hr.trans hlength.symm, hp.later hcs⟩
  · exact fun code r hm => (hs.exit code r hm).later hcs
  · intro hforking d hd hround
    obtain ⟨c, hc, hround', hpid, -⟩ := exists_earlier hcs hd
    rw [hs.pid hforking c hc (hround'.symm.trans hround), hpid]

/-- A message that is no report keeps the handshake sound. -/
theorem Sound.send (hs : h.Sound) (hm : isReport m = false)
    (hexit : ∀ code, m.1 = .exitCode code → h.HasExited m.2 code) :
    Sound { h with parent := h.parent ++ [m] } := by
  refine ⟨?_, hs.length, hs.rounds, hs.seed, hs.seedPid, ?_, ?_, hs.pid⟩
  · change _ + (h.parent ++ [m]).countP isReport = _
    rw [List.countP_append, List.countP_singleton, hm]
    exact hs.count
  · intro pid r hr
    rcases List.mem_append.mp hr with hr | hr
    · exact hs.report pid r hr
    · obtain rfl := List.mem_singleton.mp hr
      exact absurd hm (by simp [isReport])
  · intro code r hr
    rcases List.mem_append.mp hr with hr | hr
    · exact hs.exit code r hr
    · obtain rfl := List.mem_singleton.mp hr
      exact hexit code rfl

/-- While a FORK or a report is on its way, the library waits. -/
theorem Sound.forking (hs : h.Sound) (hpos : 0 < h.forks + h.seed.reports) :
    h.forking = true := by
  have hcount := hs.count
  by_contra hf
  rw [Bool.eq_false_iff.mpr hf, Bool.toNat_false] at hcount
  omega

/-- While the seeding process is about to report, no report is on its way. -/
theorem Sound.countP_parent (hs : h.Sound) (hpos : 0 < h.forks + h.seed.reports) :
    h.parent.countP isReport = 0 := by
  have hcount := hs.count
  rw [hs.forking hpos, Bool.toNat_true] at hcount
  omega

/-- The library asks for a child. -/
theorem Sound.ask (hs : h.Sound) (hforking : h.forking = false) :
    Sound { h with forking := true, round := h.round + 1, forks := h.forks + 1 } := by
  have hcount := hs.count
  have hlength := hs.length
  rw [hforking] at hcount
  refine ⟨?_, ?_, hs.rounds, hs.seed, hs.seedPid, hs.report, hs.exit, ?_⟩
  · simp only [Bool.toNat_true, Bool.toNat_false] at hcount ⊢
    omega
  · change h.children.length + (h.forks + 1) = h.round + 1
    omega
  · exact fun hf => absurd hf (by simp)

/-- The report reaches the library, and is about the child of its round. -/
theorem Sound.got (hs : h.Sound) (hforking : h.forking = true)
    (hparent : h.parent = (.forkReport pid, r) :: ms) :
    Sound { h with forking := false, parent := ms, pid := some pid } := by
  have hcount := hs.count
  have hlength := hs.length
  have hmem : (.forkReport pid, r) ∈ h.parent := hparent ▸ List.mem_cons_self
  have hrest : ∀ m ∈ ms, m ∈ h.parent := fun m hm => hparent ▸ List.mem_cons_of_mem _ hm
  rw [hforking, hparent, List.countP_cons_of_pos rfl, Bool.toNat_true] at hcount
  refine ⟨?_, hs.length, hs.rounds, hs.seed, hs.seedPid, fun p r hm => hs.report p r (hrest _ hm),
    fun code r hm => hs.exit code r (hrest _ hm), ?_⟩
  · simp only [Bool.toNat_false]
    omega
  · intro _ c hc hround
    obtain ⟨hsource, d, hd, hround', hpid⟩ := hs.report pid r hmem
    have hforks : h.forks = 0 := by omega
    rw [hforks, add_zero] at hlength
    have hcd := hs.eq_of_round hc hd (by rw [hround', hsource, hlength]; exact hround)
    rw [hcd, hpid]

/-- A message that is no report is read, or any message by a library that does not wait. -/
theorem Sound.read (hs : h.Sound) (hparent : h.parent = m :: ms)
    (hm : h.forking = true → isReport m = false) : Sound { h with parent := ms } := by
  have hcount := hs.count
  have hrest : ∀ m ∈ ms, m ∈ h.parent := fun m hm => hparent ▸ List.mem_cons_of_mem _ hm
  refine ⟨?_, hs.length, hs.rounds, hs.seed, hs.seedPid, fun p r hm => hs.report p r (hrest _ hm),
    fun code r hm => hs.exit code r (hrest _ hm), hs.pid⟩
  have hno : ¬isReport m = true := by
    rcases Bool.eq_false_or_eq_true h.forking with hf | hf
    · rw [hm hf]
      exact Bool.false_ne_true
    · rw [hf, Bool.toNat_false] at hcount
      rw [not_isReport_of_count (by omega) (hparent ▸ List.mem_cons_self)]
      exact Bool.false_ne_true
  rw [hparent, List.countP_cons_of_neg hno] at hcount
  exact hcount

/-- The seeding process forks the child of the next round. -/
theorem Sound.fork {n : ℕ} {wait : Bool} (hs : h.Sound) (hseed : h.seed = .reading)
    (hforks : h.forks = n + 1) : Sound { h with
      forks := n
      seed := .reporting (h.children.length + 1) pid wait
      children := h.children ++ [⟨h.children.length + 1, pid, !wait, none⟩] } := by
  have hpos : 0 < h.forks + h.seed.reports := by omega
  have hforking := hs.forking hpos
  have hnone := hs.countP_parent hpos
  have hcount := hs.count
  have hlength := hs.length
  rw [hforking, hseed, Bool.toNat_true] at hcount
  simp only [SeedState.reports] at hcount
  refine ⟨?_, ?_, ?_, ?_, ?_, ?_, ?_, fun hf => absurd (hforking.symm.trans hf) (by simp)⟩
  · simp only [SeedState.reports, hforking, Bool.toNat_true]
    omega
  · simp only [List.length_append, List.length_singleton]
    omega
  · simp only [List.map_append, List.map_singleton, List.length_append, List.length_singleton,
      hs.rounds, List.range'_concat, Nat.one_mul]
    rw [Nat.add_comm 1]
  · intro r hr
    obtain rfl := Option.some.inj hr
    simp only [List.length_append, List.length_singleton]
  · intro r p w hr
    obtain ⟨rfl, rfl, rfl⟩ := SeedState.reporting.inj hr
    exact ⟨_, List.mem_append_right _ (List.mem_singleton.mpr rfl), rfl, rfl⟩
  · intro p r hm
    exact absurd (not_isReport_of_count hnone hm) (by simp [isReport])
  · exact fun code r hm => (hs.exit code r hm).append rfl

/-- The seeding process reports the child. -/
theorem Sound.announce {wait : Bool} (hs : h.Sound) (hseed : h.seed = .reporting r pid wait) :
    Sound { h with
      parent := h.parent ++ [(.forkReport pid, r)]
      seed := if wait then .waiting r else .reading } := by
  have hcount := hs.count
  have hround : r = h.children.length := hs.seed r (by rw [hseed, SeedState.round])
  rw [hseed, SeedState.reports] at hcount
  refine ⟨?_, hs.length, hs.rounds, ?_, ?_, ?_, ?_, hs.pid⟩
  · have hreports : (if wait then SeedState.waiting r else .reading).reports = 0 := by
      split <;> rfl
    change h.forks + _ + (h.parent ++ [_]).countP isReport = _
    rw [hreports, List.countP_append, List.countP_singleton, ← hcount]
    simp only [isReport, if_true]
    omega
  · intro n hn
    change (if wait then SeedState.waiting r else .reading).round = some n at hn
    split at hn
    · exact Option.some.inj hn ▸ hround
    · exact absurd hn (by simp [SeedState.round])
  · intro n p w hn
    change (if wait then SeedState.waiting r else .reading) = .reporting n p w at hn
    split at hn <;> exact absurd hn (by simp)
  · intro p n hm
    rcases List.mem_append.mp hm with hm | hm
    · exact hs.report p n hm
    · obtain ⟨hp, rfl⟩ := Prod.mk.inj (List.mem_singleton.mp hm)
      obtain rfl := QuapiMsg.forkReport.inj hp
      exact ⟨hround, hs.seedPid _ _ _ hseed⟩
  · intro code n hm
    rcases List.mem_append.mp hm with hm | hm
    · exact hs.exit code n hm
    · exact absurd (List.mem_singleton.mp hm) (by simp)

/-- The seeding process reports how the child has ended. -/
theorem Sound.reap {c : Child} {status : ExitStatus} (hs : h.Sound)
    (hseed : h.seed = .waiting c.round) (hc : c ∈ h.children) (hstatus : c.status = some status) :
    Sound { h with
      parent := h.parent ++ [(.exitCode status.exitCode, c.round)]
      seed := .reading } := by
  have hsent : Sound { h with parent := h.parent ++ [(.exitCode status.exitCode, c.round)] } := by
    refine hs.send rfl fun code hcode => ⟨c, hc, rfl, status, hstatus, ?_⟩
    exact QuapiMsg.exitCode.inj hcode
  have hcount := hsent.count
  rw [hseed] at hcount
  exact ⟨hcount, hsent.length, hsent.rounds, fun r hr => absurd hr (by simp [SeedState.round]),
    fun r p w hr => absurd hr (by simp), hsent.report, hsent.exit, hsent.pid⟩

/-- **Every step keeps the handshake sound.** -/
theorem Sound.step (hs : h.Sound) (hstep : Step label h k) : k.Sound := by
  cases hstep with
  | ask hforking => exact hs.ask hforking
  | report hforking hparent => exact hs.got hforking hparent
  | read hparent hm => exact hs.read hparent hm
  | fork hseed hforks => exact hs.fork hseed hforks
  | announce hseed => exact hs.announce hseed
  | reap hseed hc hstatus => exact hs.reap hseed hc hstatus
  | @destruct _ c cs hcs =>
    exact (hs.change hcs).send (m := (.destructed, c.round)) rfl fun code hcode =>
      absurd hcode (by simp)
  | change hcs => exact hs.change hcs

/-- A message about the youngest child, or one in front of the report. -/
theorem Own.send (hs : h.Sound) (ho : h.Own) (hm : isReport m = false)
    (hround : m.2 = h.children.length ∨ h.seed.reports = 1) :
    Own { h with parent := h.parent ++ [m] } := by
  have hcount := hs.count
  have hlength := hs.length
  have hno : ¬isReport m = true := by
    rw [hm]
    exact Bool.false_ne_true
  intro n hn
  change n ∈ (if h.forking then afterReport (h.parent ++ [m]) else h.parent ++ [m]) at hn
  -- while the library waits for a report, only what follows that one counts
  by_cases hf : h.forking = true
  · rw [if_pos hf] at hn
    rw [hf, Bool.toNat_true] at hcount
    rcases Nat.eq_zero_or_pos (h.parent.countP isReport) with hzero | hpos
    · rw [afterReport_of_count hzero, afterReport, if_neg hno] at hn
      exact absurd hn List.not_mem_nil
    · rw [afterReport_append hpos] at hn
      rcases List.mem_append.mp hn with hn | hn
      · refine ho n ?_
        rw [fresh, if_pos hf]
        exact hn
      · obtain rfl := List.mem_singleton.mp hn
        rcases hround with hround | hround
        · change n.2 = h.round
          omega
        · omega
  · rw [if_neg hf] at hn
    rw [Bool.eq_false_iff.mpr hf, Bool.toNat_false] at hcount
    rcases List.mem_append.mp hn with hn | hn
    · refine ho n ?_
      rw [fresh, if_neg hf]
      exact hn
    · obtain rfl := List.mem_singleton.mp hn
      rcases hround with hround | hround
      · change n.2 = h.round
        omega
      · omega

/-- Where no report is on its way and the library waits, nothing has been read too much. -/
theorem own_of_count (hf : h.forking = true) (hcount : h.parent.countP isReport = 0) : h.Own := by
  intro n hn
  have hnil := afterReport_of_count hcount []
  rw [List.append_nil] at hnil
  rw [fresh, if_pos hf, hnil] at hn
  exact absurd hn List.not_mem_nil

/-- **Every step keeps the rounds apart**, but a DESTRUCTED of an older child. -/
theorem Own.step (ho : h.Own) (hs : h.Sound) (hstep : Step label h k)
    (hlabel : ∀ r, label = some r → r = h.children.length ∨ h.seed.reports = 1) : k.Own := by
  have hcount := hs.count
  cases hstep with
  | ask hforking =>
    rw [hforking, Bool.toNat_false] at hcount
    refine own_of_count rfl ?_
    change h.parent.countP isReport = 0
    omega
  | @report _ pid source rest hforking hparent =>
    intro n hn
    refine ho n ?_
    rw [fresh, if_pos hforking, hparent, afterReport_report]
    exact hn
  | @read _ m rest hparent hm =>
    intro n hn
    refine ho n ?_
    change n ∈ (if h.forking then afterReport rest else rest) at hn
    rw [fresh, hparent]
    by_cases hf : h.forking = true
    · rw [if_pos hf] at hn ⊢
      rwa [afterReport, if_neg (by rw [hm hf]; exact Bool.false_ne_true)]
    · rw [if_neg hf] at hn ⊢
      exact List.mem_cons_of_mem _ hn
  | fork hseed hforks =>
    have hpos : 0 < h.forks + h.seed.reports := by omega
    exact own_of_count (hs.forking hpos) (hs.countP_parent hpos)
  | announce hseed =>
    have hpos : 0 < h.forks + h.seed.reports := by
      rw [hseed, SeedState.reports]
      omega
    intro n hn
    change n ∈ (if h.forking then afterReport (h.parent ++ [_]) else _) at hn
    rw [if_pos (hs.forking hpos), afterReport_of_count (hs.countP_parent hpos),
      afterReport_report] at hn
    exact absurd hn List.not_mem_nil
  | @reap _ c status hseed hc hstatus =>
    have hround : c.round = h.children.length := hs.seed _ (by rw [hseed, SeedState.round])
    exact Own.send hs ho (m := (.exitCode status.exitCode, c.round)) rfl (Or.inl hround)
  | @destruct _ c cs hcs =>
    have hround := hlabel _ rfl
    exact Own.send hs ho (m := (.destructed, c.round)) rfl hround
  | change hcs => exact ho

/-- Every child is still there. -/
theorem Step.later (hstep : Step label h k) {c : Child} (hc : c ∈ h.children) :
    ∃ d ∈ k.children, c.Later d := by
  have hsame : c.Later c := ⟨rfl, rfl, fun _ hs => hs⟩
  cases hstep with
  | fork hseed hforks => exact ⟨c, List.mem_append_left _ hc, hsame⟩
  | destruct hcs => exact exists_later hcs hc
  | change hcs => exact exists_later hcs hc
  | _ => exact ⟨c, hc, hsame⟩

end

end ForkProtocol

/-! ### The system follows the protocol -/

namespace System

/-- The library waits for a report. -/
def forking (x : System) : Bool :=
  match x.pc with
  | .forking _ => true
  | _ => false

/-- The fork handshake in the system. -/
def protocol (x : System) : ForkProtocol where
  forking := x.forking
  round := x.round
  forks := x.toSeed.countP Stream.isFork
  seed := x.seed
  parent := x.toParent
  children := x.children
  pid := x.solver.solverchildPid

section

variable {x y : System} {a : Act} {pending : PendingCall}

theorem forking_of_ne (h : ∀ pending, x.pc ≠ .forking pending) : x.forking = false := by
  rw [forking]
  split
  case h_1 pending hpc => exact absurd hpc (h pending)
  case h_2 => rfl

theorem forking_of_eq (h : x.pc = .forking pending) : x.forking = true := by
  rw [forking, h]

theorem proceed_protocol (x : System) (pending : PendingCall) :
    (x.proceed pending).protocol = { x.protocol with forking := false } := by
  cases pending with
  | assume lit => rfl
  | solve =>
    rw [proceed]
    split <;> rfl

theorem later_exit (x : System) (pid : ℤ) (status : ExitStatus) :
    List.Forall₂ Child.Later x.children (x.exit pid status).children := by
  rw [exit, List.forall₂_map_right_iff]
  refine List.forall₂_same.mpr ?_
  intro c _
  split
  case isTrue hc =>
    refine ⟨rfl, rfl, ?_⟩
    intro status hs
    rw [hc.2] at hs
    exact absurd hs (by simp)
  case isFalse => exact ⟨rfl, rfl, fun _ hs => hs⟩

/-- A child that sends DESTRUCTED is still that of its round. -/
theorem later_destruct (cs : List Child) (r : ℕ) : List.Forall₂ Child.Later cs
    (cs.map fun d => if d.round = r then { d with sendDestructedMsg := false } else d) := by
  rw [List.forall₂_map_right_iff]
  refine List.forall₂_same.mpr ?_
  intro d _
  split <;> exact ⟨rfl, rfl, fun _ hs => hs⟩

theorem abortSolverchild_cases (x : System) :
    x.abortSolverchild = x ∨ ∃ pid, x.abortSolverchild = x.exit pid .signaled := by
  rw [abortSolverchild]
  split
  · exact Or.inl rfl
  · exact Or.inr ⟨_, rfl⟩

/-- Where the library polls, or behind it, it waits for no report. -/
theorem forking_of_polling {d : PollData} (h : x.pc = .polling d) : x.forking = false :=
  forking_of_ne fun _ hc => LibraryPc.noConfusion (h.symm.trans hc)

theorem forking_of_idle (h : x.pc = .idle) : x.forking = false :=
  forking_of_ne fun _ hc => LibraryPc.noConfusion (h.symm.trans hc)

theorem forking_of_finishing {retcode : ℤ} (h : x.pc = .finishing retcode) :
    x.forking = false :=
  forking_of_ne fun _ hc => LibraryPc.noConfusion (h.symm.trans hc)

theorem afterMessage_cases (x : System) (d : PollData) (msg : QuapiMsg) :
    (∃ retcode, x.afterMessage d msg = .finishing retcode) ∨ x.afterMessage d msg = .polling d := by
  rw [afterMessage.eq_def]
  split
  · exact Or.inl ⟨0, rfl⟩
  · split
    · exact Or.inr rfl
    · exact Or.inl ⟨_, rfl⟩
  · exact Or.inl ⟨0, rfl⟩

theorem afterOutput_cases (x : System) (d : PollData) (n : ℕ) :
    (∃ retcode, x.afterOutput d n = .finishing retcode) ∨
      ∃ buf, x.afterOutput d n = .polling { d with buf := buf } := by
  rw [afterOutput]
  split
  · exact Or.inl ⟨_, rfl⟩
  · exact Or.inr ⟨_, rfl⟩

/-- The poll loop touches the messages and the children at most. -/
theorem step_of_polling {rest : List (QuapiMsg × ℕ)} {cs : List Child}
    (hstep : ForkProtocol.Step none x.protocol { x.protocol with parent := rest, children := cs })
    (hx : x.forking = false) (hy : ∀ pending, y.pc ≠ .forking pending) (hround : y.round = x.round)
    (htoSeed : y.toSeed = x.toSeed) (hseed : y.seed = x.seed) (hparent : y.toParent = rest)
    (hchildren : y.children = cs)
    (hsolver : y.solver.solverchildPid = x.solver.solverchildPid) :
    ForkProtocol.Step none x.protocol y.protocol := by
  have hprotocol : y.protocol = { x.protocol with parent := rest, children := cs } := by
    simp only [System.protocol, hx, forking_of_ne hy, hround, htoSeed, hseed, hparent, hchildren,
      hsolver]
  rwa [hprotocol]

/-- What the library writes does not matter, but for a FORK. -/
theorem write_protocol {solver : QuapiSolver} {listens : Bool} {msgs : List QuapiMsg}
    (hpid : solver.solverchildPid = x.solver.solverchildPid)
    (hmsgs : ∀ msg ∈ msgs, Stream.isFork msg = false) :
    protocol { x with solver := solver, listens := listens, toSeed := x.toSeed ++ msgs } =
      x.protocol := by
  have hzero : msgs.countP Stream.isFork = 0 :=
    List.countP_eq_zero.mpr fun msg hm => by rw [hmsgs msg hm]; exact Bool.false_ne_true
  simp only [System.protocol, List.countP_append, hzero, hpid]
  rfl

/-- A FORK is written. -/
theorem ask_protocol (hpc : x.pc = .idle) (pending : PendingCall) :
    ForkProtocol.Step none x.protocol (protocol { x with
      solver := x.solver.askFork
      pc := .forking pending
      round := x.round + 1
      toSeed := x.toSeed ++ [x.solver.forkMsg] }) := by
  have hforks : (x.toSeed ++ [x.solver.forkMsg]).countP Stream.isFork =
      x.toSeed.countP Stream.isFork + 1 := by
    rw [List.countP_append, List.countP_singleton]
    rfl
  simp only [System.protocol, hforks]
  exact .ask (h := x.protocol) (forking_of_idle hpc)

/-- The poll loop reads a message, whatever it is. -/
theorem message_protocol {d : PollData} {msg : QuapiMsg} {source : ℕ}
    {rest : List (QuapiMsg × ℕ)} {log : List Event} (hpc : x.pc = .polling d)
    (hparent : x.toParent = (msg, source) :: rest) :
    ForkProtocol.Step none x.protocol (protocol { x with
      toParent := rest
      log := log
      pc := x.afterMessage { d with child := false } msg }) := by
  have hx := forking_of_polling hpc
  have hread : ForkProtocol.Step none x.protocol { x.protocol with parent := rest } :=
    .read (m := (msg, source)) hparent fun hf =>
      absurd ((show x.forking = true from hf).symm.trans hx) (by simp)
  refine step_of_polling hread hx ?_ rfl rfl rfl rfl rfl rfl
  intro pending
  change x.afterMessage _ msg ≠ _
  rcases x.afterMessage_cases { d with child := false } msg with ⟨retcode, hm⟩ | hm <;>
    rw [hm] <;> exact LibraryPc.noConfusion

/-- The child is killed. -/
theorem abort_protocol {d : PollData} {log : List Event} {eventfd : List ℕ}
    (hpc : x.pc = .polling d) : ForkProtocol.Step none x.protocol (protocol
      { x.abortSolverchild with eventfd := eventfd, log := log, pc := .finishing 0 }) := by
  have hx := forking_of_polling hpc
  rcases x.abortSolverchild_cases with habort | ⟨pid, habort⟩ <;> rw [habort]
  · exact step_of_polling (.change (ForkProtocol.later_refl _)) hx
      (fun _ hc => LibraryPc.noConfusion hc) rfl rfl rfl rfl rfl rfl
  · exact step_of_polling (.change (later_exit x pid .signaled)) hx
      (fun _ hc => LibraryPc.noConfusion hc) rfl rfl rfl rfl rfl rfl

/-- Output is read. -/
theorem output_protocol {d : PollData} {n : ℕ} {log : List Event} {stdout : List (Char × ℕ)}
    (hpc : x.pc = .polling d) : ForkProtocol.Step none x.protocol (protocol { x with
      stdout := stdout
      log := log
      pc := x.afterOutput { d with solverchild := false } n }) := by
  refine step_of_polling (.change (ForkProtocol.later_refl _)) (forking_of_polling hpc) ?_
    rfl rfl rfl rfl rfl rfl
  intro pending
  change x.afterOutput _ n ≠ _
  rcases x.afterOutput_cases { d with solverchild := false } n with ⟨retcode, ho⟩ | ⟨buf, ho⟩ <;>
    rw [ho] <;> exact LibraryPc.noConfusion

/-- **The system follows the protocol**, and sends DESTRUCTED where a child does. -/
theorem Does.protocol (h : Does x a y) : y.protocol = x.protocol ∨
    ∃ label, ForkProtocol.Step label x.protocol y.protocol ∧ ∀ r, label = some r →
      ∃ pid c, a = .destruct pid ∧ x.running pid = some c ∧ c.sendDestructedMsg = true ∧
        c.round = r := by
  have hnone : ∀ r : ℕ, none = some r → ∃ pid c, a = .destruct pid ∧ x.running pid = some c ∧
      c.sendDestructedMsg = true ∧ c.round = r := fun r hr => absurd hr (by simp)
  cases h with
  | pass solver listens msgs hpid hregexes hcb hstate hmsgs =>
    exact Or.inl (write_protocol hpid hmsgs)
  | reset hpc hstate =>
    refine Or.inr ⟨none, ?_, hnone⟩
    rcases x.abortSolverchild_cases with habort | ⟨pid, habort⟩ <;> rw [habort]
    · exact .change (ForkProtocol.later_refl _)
    · exact .change (later_exit x pid _)
  | ask pending hpc hneeds => exact Or.inr ⟨none, ask_protocol hpc pending, hnone⟩
  | proceed pending hpc hneeds =>
    refine Or.inl ?_
    rw [proceed_protocol, System.protocol, forking_of_idle hpc]
  | report pending pid source rest hpc hparent =>
    refine Or.inr ⟨none, ?_, hnone⟩
    rw [proceed_protocol]
    exact .report (forking_of_eq hpc) hparent
  | skip pending msg source rest hpc hparent hmsg =>
    refine Or.inr ⟨none, .read (m := (msg, source)) hparent ?_, hnone⟩
    intro _
    cases msg with
    | forkReport pid => exact absurd rfl (hmsg pid)
    | _ => rfl
  | poll d hpc _ =>
    exact Or.inr ⟨none, step_of_polling (.change (ForkProtocol.later_refl _))
      (forking_of_polling hpc) (fun _ hc => LibraryPc.noConfusion hc) rfl rfl rfl rfl rfl rfl,
      hnone⟩
  | message d msg source rest hpc hchild hparent =>
    exact Or.inr ⟨none, message_protocol hpc hparent, hnone⟩
  | abort d hpc hchild heventfd hrequests => exact Or.inr ⟨none, abort_protocol hpc, hnone⟩
  | output n d hpc hchild heventfd hsolverchild hn =>
    exact Or.inr ⟨none, output_protocol hpc, hnone⟩
  | finish retcode hpc =>
    exact Or.inr ⟨none, step_of_polling (.change (ForkProtocol.later_refl _))
      (forking_of_finishing hpc) (fun _ hc => LibraryPc.noConfusion hc) rfl rfl rfl rfl rfl rfl,
      hnone⟩
  | terminate hstate => exact Or.inl rfl
  | flush n => exact Or.inl rfl
  | seedRead msg rest hseed htoSeed hmsg =>
    refine Or.inl ?_
    rw [System.protocol, System.protocol, htoSeed, List.countP_cons_of_neg]
    · rfl
    · rw [hmsg]
      exact Bool.false_ne_true
  | seedFork pid wait rest hseed htoSeed hfree =>
    refine Or.inr ⟨none, ?_, hnone⟩
    have hforks : x.toSeed.countP Stream.isFork = rest.countP Stream.isFork + 1 := by
      rw [htoSeed, List.countP_cons_of_pos rfl]
    exact .fork (h := x.protocol) hseed hforks
  | seedReport round pid wait hseed => exact Or.inr ⟨none, .announce hseed, hnone⟩
  | seedReap c status hseed hc hstatus => exact Or.inr ⟨none, .reap hseed hc hstatus, hnone⟩
  | take pid n p htake => exact Or.inl rfl
  | readOn i n p hread => exact Or.inl rfl
  | print pid text c hrunning => exact Or.inl rfl
  | destruct pid c hrunning hsend =>
    exact Or.inr ⟨some c.round, .destruct (later_destruct x.children c.round), fun r hr =>
      ⟨pid, c, rfl, hrunning, hsend, Option.some.inj hr⟩⟩
  | exit pid status c hrunning =>
    exact Or.inr ⟨none, .change (later_exit x pid status), hnone⟩

end

end System

end QuAPI
