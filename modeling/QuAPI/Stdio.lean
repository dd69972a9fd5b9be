import QuAPI.Fragments
import QuAPI.Machine

/-!
# Stdio on the default stdin

What `inject_read.c` puts in the place of the C library's stdio for the default stdin. The
four functions of the `getc` family take the next byte of the buffer of the `FILE`, which
`__uflow` fills with one read of 64 bytes; `fread` is one read of `size * nmemb` bytes, and
neither looks at that buffer nor divides by the size.

Each byte is followed with its place in the stream (`QuAPI.Place`), so that an order can be
spoken of. `QuAPI.Stdio.in_order_iff` says in which sequences of calls the bytes come in
order and every `fread` returns what it should.
-/

namespace QuAPI

/-- A byte of the stream with its place in it. -/
abbrev Place := Char × ℕ

/-- A runtime, and the default stdin of its process. -/
structure Stdio where
  runtime : QuapiRuntime
  /-- The messages not taken yet. -/
  input : List QuapiMsg
  /-- The bytes between `_IO_read_ptr` and `_IO_read_end`. -/
  buffer : List Place
  /-- How many bytes the runtime has returned. -/
  taken : ℕ
  /-- What the calls have handed to the solver, for the statements only. -/
  handed : List Place

/-- The calls of the solver on the default stdin. -/
inductive StdioCall where
  | fgetc
  | fgetcUnlocked
  | getc
  | getcUnlocked
  | fread (size nmemb : ℕ)
deriving DecidableEq

/-- What a call comes to: a byte or `EOF`, or the number that `fread` returns with what it
has stored. -/
inductive StdioAnswer where
  | char (c : Option Place)
  | read (returned : ℤ) (stored : List Place)
deriving DecidableEq

/-- The bytes that a call hands out. -/
def StdioAnswer.bytes : StdioAnswer → List Place
  | char c => c.toList
  | read _ stored => stored

/-- An `fread` of at least one element, and of elements that are not empty. -/
def StdioCall.Proper : StdioCall → Prop
  | .fread size nmemb => 0 < size ∧ 0 < nmemb
  | _ => True

namespace Stdio

/-- A process before its first read. -/
def start (input : List QuapiMsg) : Stdio := ⟨quapiRuntimeInit, input, [], 0, []⟩

variable (x : Stdio)

/-- `quapi_read`: there is no result while it waits for a message. -/
def quapiRead (n : ℕ) : Option (ℤ × List Place × Stdio) :=
  (quapiReadMsgs x.runtime n x.input).map fun (bytes, data, r, input) =>
    (bytes, data.zipIdx x.taken,
      { x with runtime := r, input := input, taken := x.taken + data.length })

/-- `__uflow`. -/
def uflow : Option (Option Place × Stdio) :=
  (x.quapiRead 64).map fun (bytes, data, y) =>
    if bytes = 0 then (none, { y with buffer := [] })
    -- the first byte is handed out at once, and the others are kept
    else (data.head?, { y with buffer := data.tail })

/-- What the four functions of the `getc` family do with the default stdin. -/
def getcBody : Option (Option Place × Stdio) :=
  match x.buffer with
  | [] => x.uflow
  | c :: buffer => some (some c, { x with buffer := buffer })

/-- `fgetc`. -/
def fgetc : Option (Option Place × Stdio) := x.getcBody

/-- `fgetc_unlocked`. -/
def fgetcUnlocked : Option (Option Place × Stdio) := x.getcBody

/-- `getc`. -/
def getc : Option (Option Place × Stdio) := x.getcBody

/-- `getc_unlocked`. -/
def getcUnlocked : Option (Option Place × Stdio) := x.getcBody

/-- `fread`, into an object of `nmemb` elements of `size` bytes. -/
def fread (size nmemb : ℕ) : Option (ℤ × List Place × Stdio) := x.quapiRead (size * nmemb)

/-- One call. -/
def perform : StdioCall → Option (StdioAnswer × Stdio)
  | .fgetc => x.fgetc.map fun (c, y) => (.char c, y)
  | .fgetcUnlocked => x.fgetcUnlocked.map fun (c, y) => (.char c, y)
  | .getc => x.getc.map fun (c, y) => (.char c, y)
  | .getcUnlocked => x.getcUnlocked.map fun (c, y) => (.char c, y)
  | .fread size nmemb => (x.fread size nmemb).map fun (n, stored, y) => (.read n stored, y)

/-- One call, as a step of the process. -/
def step (c : StdioCall) : Option Stdio :=
  (x.perform c).map fun (a, y) => { y with handed := x.handed ++ a.bytes }

/-! ### One ordered stream -/

/-- The bytes come in order, and none is skipped. -/
def InOrder (stream : List Place) (x : Stdio) : Prop := x.handed <+: stream

/-- **What a call has to come to**: an `EOF` only at the end of the stream, and from `fread`
the number of whole elements stored, which is at most the count and less only at the end of
the stream. -/
def RightAnswer (stream : List Place) (x : Stdio) : StdioCall → StdioAnswer → Prop
  | .fread size nmemb, .read returned stored =>
    returned = (stored.length / size : ℕ) ∧ returned ≤ nmemb ∧
      (returned < nmemb → x.handed ++ stored = stream)
  | _, .char c => c = none → x.handed = stream
  | _, .read _ _ => True

/-- The call comes to what it has to come to. -/
def Right (stream : List Place) (x : Stdio) (c : StdioCall) : Prop :=
  ∀ a y, x.perform c = some (a, y) → RightAnswer stream x c a

/-- The pieces of the stream that are left suit an `fread`: there is none, or single bytes are
asked for, no more of them than the first piece has, if there is another behind it. -/
def SuitsFread (size nmemb : ℕ) : List (List Char) → Prop
  | [] => True
  | f :: gs => size = 1 ∧ (nmemb ≤ f.length ∨ gs = [])

instance (size nmemb : ℕ) : ∀ pieces, Decidable (SuitsFread size nmemb pieces)
  | [] => isTrue trivial
  | _ :: _ => inferInstanceAs (Decidable (_ ∧ _))

/-- **A call that goes well**: any call of the `getc` family, and an `fread` that finds the
buffer of the `FILE` empty and is suited by what is left of the stream. -/
def Fits (fs : List (List Char)) (x : Stdio) : StdioCall → Prop
  -- `fread` does not look at the buffer
  | .fread size nmemb => x.buffer = [] ∧ SuitsFread size nmemb (ahead fs x.taken)
  | _ => True

instance (fs : List (List Char)) (x : Stdio) : ∀ c, Decidable (Fits fs x c)
  | .fread _ _ => inferInstanceAs (Decidable (_ ∧ _))
  | .fgetc | .fgetcUnlocked | .getc | .getcUnlocked => isTrue trivial

/-! ### Places -/

section Places

variable {l m : List Char} {k : ℕ}

theorem take_zipIdx (l : List Char) (k : ℕ) : l.zipIdx.take k = (l.take k).zipIdx := by
  rcases le_or_gt k l.length with h | h
  · have happ : (l.take k ++ l.drop k).zipIdx =
        (l.take k).zipIdx ++ (l.drop k).zipIdx (0 + (l.take k).length) := List.zipIdx_append
    rw [List.take_append_drop] at happ
    rw [happ, List.take_append_of_le_length (by rw [List.length_zipIdx, List.length_take]; omega),
      List.take_of_length_le (by rw [List.length_zipIdx, List.length_take]; omega)]
  · rw [List.take_of_length_le h.le,
      List.take_of_length_le (by rw [List.length_zipIdx]; exact h.le)]

/-- The places of a stream, cut at a place. -/
theorem take_add_zipIdx (hk : k ≤ l.length) (hm : m <+: l.drop k) :
    l.zipIdx.take (k + m.length) = l.zipIdx.take k ++ m.zipIdx k := by
  have hlen : (l.take k).length = k := by
    rw [List.length_take]
    omega
  rw [take_zipIdx, List.take_add, ← List.prefix_iff_eq_take.mp hm, List.zipIdx_append, hlen,
    take_zipIdx, Nat.zero_add]

/-- **A byte that follows in order is at its place.** -/
theorem place_of_prefix {handed : List Place} {c : Char} {rest : List Place}
    (h : handed ++ (c, k) :: rest <+: l.zipIdx) : k = handed.length := by
  obtain ⟨post, hpost⟩ := h
  have hget : l.zipIdx[handed.length]? = some (c, k) := by
    rw [← hpost, List.append_assoc, List.getElem?_append_right le_rfl, Nat.sub_self]
    rfl
  rw [List.getElem?_zipIdx, Option.map_eq_some_iff] at hget
  obtain ⟨c', -, hc⟩ := hget
  rw [← (Prod.mk.inj hc).2, Nat.zero_add]

end Places

/-! ### What the calls do -/

/-- **The bytes are accounted for**: what has been handed out and what is in the buffer are
what the runtime has returned, and the runtime gives the rest. -/
structure Good (fs : List (List Char)) (x : Stdio) : Prop where
  gives : Gives x.runtime x.input (ahead fs x.taken)
  le : x.taken ≤ fs.flatten.length
  handed : x.handed ++ x.buffer = fs.flatten.zipIdx.take x.taken

section Calls

variable {fs : List (List Char)} {x y : Stdio} {n : ℕ}

/-- **One read**: it returns the rest of a fragment, as far as the size goes. -/
structure Took (fs : List (List Char)) (x : Stdio) (n : ℕ) (bytes : ℤ) (stored : List Place)
    (y : Stdio) : Prop where
  count : bytes = stored.length
  length : stored.length = min n ((ahead fs x.taken).headD []).length
  first : stored ≠ [] → ∃ c rest, stored = (c, x.taken) :: rest
  taken : y.taken = x.taken + stored.length
  gives : Gives y.runtime y.input (ahead fs y.taken)
  le : y.taken ≤ fs.flatten.length
  places : fs.flatten.zipIdx.take y.taken = fs.flatten.zipIdx.take x.taken ++ stored
  buffer : y.buffer = x.buffer
  handed : y.handed = x.handed

theorem took_of_quapiRead {bytes : ℤ} {stored : List Place}
    (hg : Gives x.runtime x.input (ahead fs x.taken)) (hle : x.taken ≤ fs.flatten.length)
    (hn : 0 < n) (h : x.quapiRead n = some (bytes, stored, y)) : Took fs x n bytes stored y := by
  obtain ⟨⟨b, data, r, input⟩, hread, heq⟩ := Option.map_eq_some_iff.mp h
  obtain ⟨rfl, rfl, rfl⟩ := by simpa only [Prod.mk.injEq] using heq
  have hy := hg.read hn hread
  have hdata : data <+: fs.flatten.drop x.taken := by
    rw [hy.taken, ← flatten_ahead]
    cases ahead fs x.taken with
    | nil =>
      rw [List.headD_nil, List.take_nil]
      exact List.nil_prefix
    | cons f gs => exact (List.take_prefix n f).trans (List.prefix_append f _)
  have hlen : (data.zipIdx x.taken).length = data.length := List.length_zipIdx
  have hgives := hy.gives
  rw [ahead_ahead] at hgives
  refine ⟨?_, ?_, ?_, ?_, hgives, ?_, take_add_zipIdx hle hdata, rfl, rfl⟩
  · rw [hlen]
    exact hy.count
  · rw [hlen, hy.taken, List.length_take]
  · intro hne
    cases data with
    | nil => exact absurd rfl hne
    | cons c data => exact ⟨c, _, List.zipIdx_cons⟩
  · rw [hlen]
  · have hle' := hdata.length_le
    rw [List.length_drop] at hle'
    change x.taken + data.length ≤ _
    omega

/-- The stream is at its end. -/
theorem Good.eq_stream (h : Good fs x) (hend : ahead fs x.taken = []) :
    x.handed ++ x.buffer = fs.flatten.zipIdx := by
  have hflat := flatten_ahead fs x.taken
  rw [hend, List.flatten_nil] at hflat
  rw [h.handed, List.take_of_length_le]
  rw [List.length_zipIdx]
  exact List.drop_eq_nil_iff.mp hflat.symm

/-- **The `getc` family hands out the next byte**, and an `EOF` only at the end. -/
theorem Good.getcBody {c : Option Place} (h : Good fs x) (hfs : ∀ f ∈ fs, f ≠ [])
    (hc : x.getcBody = some (c, y)) :
    Good fs { y with handed := x.handed ++ c.toList } ∧
      (c = none → x.handed = fs.flatten.zipIdx) := by
  rw [Stdio.getcBody] at hc
  split at hc
  case h_1 hb =>
    obtain ⟨⟨bytes, data, z⟩, hread, heq⟩ := Option.map_eq_some_iff.mp hc
    have ht := took_of_quapiRead h.gives h.le (show 0 < 64 by decide) hread
    have hhanded := h.handed
    rw [hb, List.append_nil] at hhanded
    by_cases h0 : bytes = 0
    · simp only [if_pos h0] at heq
      obtain ⟨rfl, rfl⟩ := Prod.mk.inj heq
      have hnil : data = [] := List.length_eq_zero_iff.mp (by have := ht.count; omega)
      -- 64 bytes have been asked for, so that only the end of the stream gives none
      have hend : ahead fs x.taken = [] := by
        have hlen := ht.length
        cases hahead : ahead fs x.taken with
        | nil => rfl
        | cons f gs =>
          have hne : f ≠ [] :=
            ne_nil_of_mem_ahead hfs f (by rw [hahead]; exact List.mem_cons_self)
          have hpos := List.length_pos_iff.mpr hne
          rw [hahead, hnil, List.headD_cons, List.length_nil] at hlen
          omega
      refine ⟨⟨ht.gives, ht.le, ?_⟩, ?_⟩
      · change x.handed ++ [] ++ [] = fs.flatten.zipIdx.take z.taken
        rw [ht.places, hnil, List.append_nil, List.append_nil, List.append_nil, hhanded]
      · intro _
        rw [← h.eq_stream hend, hb, List.append_nil]
    · simp only [if_neg h0] at heq
      obtain ⟨rfl, rfl⟩ := Prod.mk.inj heq
      have hne : data ≠ [] := by
        rintro rfl
        exact h0 ht.count
      obtain ⟨c, rest, hd⟩ := ht.first hne
      refine ⟨⟨ht.gives, ht.le, ?_⟩, ?_⟩
      · change x.handed ++ data.head?.toList ++ data.tail = fs.flatten.zipIdx.take z.taken
        rw [ht.places, ← hhanded, hd, List.append_assoc]
        rfl
      · intro hnone
        rw [hd] at hnone
        exact absurd hnone (by simp)
  case h_2 p buffer hb =>
    obtain ⟨rfl, rfl⟩ := Prod.mk.inj (Option.some.inj hc)
    refine ⟨⟨h.gives, h.le, ?_⟩, fun hnone => absurd hnone (by simp)⟩
    rw [← h.handed, hb]
    exact List.append_assoc _ [p] buffer

/-- **An `fread` that goes well** keeps the account, and returns what it should. -/
theorem Good.fread {size nmemb : ℕ} {bytes : ℤ} {stored : List Place} (h : Good fs x)
    (hs : 0 < size) (hm : 0 < nmemb) (hfits : Fits fs x (.fread size nmemb))
    (hr : x.fread size nmemb = some (bytes, stored, y)) :
    Good fs { y with handed := x.handed ++ stored } ∧ bytes = (stored.length / size : ℕ) ∧
      bytes ≤ nmemb ∧ (bytes < nmemb → x.handed ++ stored = fs.flatten.zipIdx) := by
  obtain ⟨hb, hsuits⟩ := hfits
  have ht := took_of_quapiRead h.gives h.le (Nat.mul_pos hs hm) hr
  have hhanded := h.handed
  rw [hb, List.append_nil] at hhanded
  have hgood : Good fs { y with handed := x.handed ++ stored } := by
    refine ⟨ht.gives, ht.le, ?_⟩
    change x.handed ++ stored ++ y.buffer = fs.flatten.zipIdx.take y.taken
    rw [ht.buffer, hb, List.append_nil, ht.places, hhanded]
  have hcount := ht.count
  have hlen := ht.length
  refine ⟨hgood, ?_⟩
  cases hahead : ahead fs x.taken with
  | nil =>
    rw [hahead, List.headD_nil, List.length_nil, Nat.min_zero] at hlen
    have hnil : stored = [] := List.length_eq_zero_iff.mp hlen
    rw [hnil, List.length_nil] at hcount
    refine ⟨?_, by omega, fun _ => ?_⟩
    · rw [hcount, hlen, Nat.zero_div]
    · rw [hnil, ← h.eq_stream hahead, hb]
  | cons f gs =>
    rw [hahead] at hsuits
    obtain ⟨rfl, hlast⟩ := hsuits
    rw [hahead, List.headD_cons, Nat.one_mul] at hlen
    refine ⟨by rw [hcount, Nat.div_one], by omega, fun hlt => ?_⟩
    have hgs : gs = [] := hlast.resolve_left (by omega)
    have hend : ahead fs y.taken = [] := by
      rw [ht.taken, ← ahead_ahead, hahead, ahead_of_le (by omega), hgs]
      rfl
    have hall := hgood.eq_stream hend
    rwa [show ({ y with handed := x.handed ++ stored } : Stdio).buffer = [] from
      ht.buffer.trans hb, List.append_nil] at hall

/-- **An `fread` that keeps the order and returns what it should goes well.** -/
theorem Good.fits {size nmemb : ℕ} {bytes : ℤ} {stored : List Place} (h : Good fs x)
    (hfs : ∀ f ∈ fs, f ≠ []) (hs : 0 < size) (hm : 0 < nmemb)
    (hr : x.fread size nmemb = some (bytes, stored, y))
    (horder : x.handed ++ stored <+: fs.flatten.zipIdx)
    (hwhole : bytes = (stored.length / size : ℕ))
    (hend : bytes < nmemb → x.handed ++ stored = fs.flatten.zipIdx) :
    Fits fs x (.fread size nmemb) := by
  have ht := took_of_quapiRead h.gives h.le (Nat.mul_pos hs hm) hr
  have hcount := ht.count
  have hlen := ht.length
  have hacc := congrArg List.length h.handed
  rw [List.length_append, List.length_take, List.length_zipIdx, Nat.min_eq_left h.le] at hacc
  cases hahead : ahead fs x.taken with
  | nil =>
    rw [hahead, List.headD_nil, List.length_nil, Nat.min_zero] at hlen
    refine ⟨?_, by rw [hahead]; exact trivial⟩
    -- nothing is stored, so that nothing may be left in the buffer
    have hall := hend (by omega)
    rw [List.length_eq_zero_iff.mp hlen, List.append_nil] at hall
    have hstream := congrArg List.length (h.eq_stream hahead)
    rw [hall, List.length_append] at hstream
    exact List.length_eq_zero_iff.mp (by omega)
  | cons f gs =>
    have hne : f ≠ [] := ne_nil_of_mem_ahead hfs f (by rw [hahead]; exact List.mem_cons_self)
    have hpos := List.length_pos_iff.mpr hne
    rw [hahead, List.headD_cons] at hlen
    have hn : 0 < size * nmemb := Nat.mul_pos hs hm
    have hb : x.buffer = [] := by
      obtain ⟨c, rest, hd⟩ := ht.first (List.length_pos_iff.mp (by omega))
      rw [hd] at horder
      have hplace := place_of_prefix horder
      exact List.length_eq_zero_iff.mp (by omega)
    have hsize : size = 1 := by
      by_contra hsize
      have hlt : stored.length / size < stored.length :=
        Nat.div_lt_self (by omega) (by omega)
      omega
    refine ⟨hb, ?_⟩
    rw [hahead]
    refine ⟨hsize, ?_⟩
    rw [hsize, Nat.one_mul] at hlen
    rcases le_or_gt nmemb f.length with hle | hgt
    · exact Or.inl hle
    · refine Or.inr ?_
      -- the fragment is not enough, so that it has to be the last
      have hstream := congrArg List.length (hend (by omega))
      rw [List.length_append, List.length_zipIdx] at hstream
      have hflat := congrArg List.length (flatten_ahead fs x.taken)
      rw [hahead, List.flatten_cons, List.length_append, List.length_drop] at hflat
      rw [hb, List.length_nil, Nat.add_zero] at hacc
      have hgs : gs.flatten = [] := List.length_eq_zero_iff.mp (by omega)
      cases gs with
      | nil => rfl
      | cons g gs =>
        have hg : g ≠ [] := ne_nil_of_mem_ahead hfs g
          (by rw [hahead]; exact List.mem_cons_of_mem _ List.mem_cons_self)
        exact absurd (List.append_eq_nil_iff.mp hgs).1 hg

/-- **A call** is the body of the `getc` family, or an `fread`. -/
theorem perform_cases {c : StdioCall} {a : StdioAnswer} (h : x.perform c = some (a, y)) :
    (∃ b, a = .char b ∧ x.getcBody = some (b, y) ∧ ∀ size nmemb, c ≠ .fread size nmemb) ∨
      ∃ size nmemb bytes stored, c = .fread size nmemb ∧ a = .read bytes stored ∧
        x.fread size nmemb = some (bytes, stored, y) := by
  cases c with
  | fread size nmemb =>
    obtain ⟨⟨bytes, stored, z⟩, hr, heq⟩ := Option.map_eq_some_iff.mp h
    obtain ⟨rfl, rfl⟩ := Prod.mk.inj heq
    exact Or.inr ⟨size, nmemb, bytes, stored, rfl, rfl, hr⟩
  | fgetc | fgetcUnlocked | getc | getcUnlocked =>
    obtain ⟨⟨b, z⟩, hr, heq⟩ := Option.map_eq_some_iff.mp h
    obtain ⟨rfl, rfl⟩ := Prod.mk.inj heq
    exact Or.inl ⟨b, rfl, hr, fun _ _ => StdioCall.noConfusion⟩

theorem rightAnswer_char {c : StdioCall} {b : Option Place}
    (hc : ∀ size nmemb, c ≠ .fread size nmemb) (h : b = none → x.handed = fs.flatten.zipIdx) :
    RightAnswer fs.flatten.zipIdx x c (.char b) := by
  cases c with
  | fread size nmemb => exact absurd rfl (hc size nmemb)
  | _ => exact h

theorem fits_of_ne {c : StdioCall} (hc : ∀ size nmemb, c ≠ .fread size nmemb) : Fits fs x c := by
  cases c with
  | fread size nmemb => exact absurd rfl (hc size nmemb)
  | _ => exact trivial

/-- **A call that goes well** keeps the account, and comes to what it has to. -/
theorem Good.perform {c : StdioCall} {a : StdioAnswer} (h : Good fs x)
    (hfs : ∀ f ∈ fs, f ≠ []) (hc : c.Proper) (hfits : Fits fs x c)
    (hp : x.perform c = some (a, y)) :
    Good fs { y with handed := x.handed ++ a.bytes } ∧
      RightAnswer fs.flatten.zipIdx x c a := by
  rcases perform_cases hp with ⟨b, rfl, hb, hne⟩ | ⟨size, nmemb, bytes, stored, rfl, rfl, hr⟩
  · obtain ⟨hgood, hend⟩ := h.getcBody hfs hb
    exact ⟨hgood, rightAnswer_char hne hend⟩
  · obtain ⟨hgood, hright⟩ := h.fread hc.1 hc.2 hfits hr
    exact ⟨hgood, hright⟩

theorem Good.inOrder (h : Good fs x) : InOrder fs.flatten.zipIdx x :=
  (List.prefix_append _ _).trans (h.handed ▸ List.take_prefix _ _)

/-- **The calls of a run that goes well.** -/
theorem Good.run {calls : List StdioCall} (h : Good fs x) (hfs : ∀ f ∈ fs, f ≠ [])
    (hproper : ∀ c ∈ calls, c.Proper) (hfits : Machine.Meets step (Fits fs) x calls) :
    Machine.Always step (InOrder fs.flatten.zipIdx) x calls ∧
      Machine.Meets step (Right fs.flatten.zipIdx) x calls := by
  induction calls generalizing x with
  | nil => exact ⟨h.inOrder, trivial⟩
  | cons c calls ih =>
    have hc := hproper c List.mem_cons_self
    -- what the next call leaves is accounted for, so that the rest is a run of the same kind
    have htail : ∀ z, x.step c = some z → Machine.Always step (InOrder fs.flatten.zipIdx) z calls ∧
        Machine.Meets step (Right fs.flatten.zipIdx) z calls := by
      intro z hz
      obtain ⟨⟨a, y⟩, hp, rfl⟩ := Option.map_eq_some_iff.mp hz
      exact ih (h.perform hfs hc hfits.1 hp).1
        (fun c hc => hproper c (List.mem_cons_of_mem _ hc)) (hfits.2 _ hz)
    exact ⟨⟨h.inOrder, fun z hz => (htail z hz).1⟩,
      fun a y hp => (h.perform hfs hc hfits.1 hp).2, fun z hz => (htail z hz).2⟩

/-- **Every call of an ordered run goes well.** -/
theorem Good.meets {calls : List StdioCall} (h : Good fs x) (hfs : ∀ f ∈ fs, f ≠ [])
    (hproper : ∀ c ∈ calls, c.Proper) (hrun : Machine.run step x calls = some y)
    (horder : Machine.Always step (InOrder fs.flatten.zipIdx) x calls)
    (hright : Machine.Meets step (Right fs.flatten.zipIdx) x calls) :
    Machine.Meets step (Fits fs) x calls := by
  induction calls generalizing x with
  | nil => exact trivial
  | cons c calls ih =>
    have hc := hproper c List.mem_cons_self
    obtain ⟨u, hu, hr⟩ := Machine.run_cons.mp hrun
    obtain ⟨⟨a, z⟩, hp, rfl⟩ := Option.map_eq_some_iff.mp hu
    have hnext := (horder.2 _ hu).head
    -- an fread that does not fit is one that gives a wrong answer or breaks the order
    have hfits : Fits fs x c := by
      rcases perform_cases hp with ⟨b, -, -, hne⟩ | ⟨size, nmemb, bytes, stored, rfl, rfl, hread⟩
      · exact fits_of_ne hne
      · obtain ⟨hwhole, -, hend⟩ := hright.1 _ _ hp
        exact h.fits hfs hc.1 hc.2 hread hnext hwhole hend
    refine ⟨hfits, ?_⟩
    intro v hv
    obtain rfl := Option.some.inj (hu.symm.trans hv)
    exact ih (h.perform hfs hc hfits hp).1 (fun c hc => hproper c (List.mem_cons_of_mem _ hc))
      hr (horder.2 _ hu) (hright.2 _ hu)

end Calls

/-- A process before its first read gives the whole stream. -/
theorem good_start {msgs rest : List QuapiMsg} {gs : List (List Char)} {c : Encoder}
    (he : Encoder.init.fragments msgs = some (gs, c))
    (hst : c.state = .readingPrefix ∨ c.state = .readingMatrix) :
    Good (gs ++ List.replicate (c.header.clauses.1 - c.written).toNat c.filler)
      (start (msgs ++ .solve :: rest)) := by
  have hsupplies : Supplies Encoder.init (msgs ++ .solve :: rest)
      (gs ++ List.replicate (c.header.clauses.1 - c.written).toNat c.filler) :=
    ⟨msgs, rest, gs, c, rfl, he, Reader.filler_ne_nil_of_encode
      (Encoder.encode_of_fragments he) (List.cons_ne_nil _ _), hst, rfl⟩
  refine ⟨?_, Nat.zero_le _, rfl⟩
  have hgives := Gives.fragment Reader.holding_init le_rfl encodes_init hsupplies
  rw [ahead_of_le (show ([] : List Char).length ≤ 0 from le_rfl)] at hgives
  exact hgives

/-- **The calls present one ordered stream exactly where every `fread` is for what a
fragment has left.** For every list of messages up to SOLVE, whatever follows it, and every
sequence of calls of the `getc` family and of `fread` with sizes and counts of at least one:
after each call the bytes that have been handed to the solver are the stream in order with
none skipped, an `EOF` comes only at the end, and each `fread` returns the number of whole
elements it has stored, at most the count and less only at the end of the stream, if and
only if each `fread` finds the buffer of the `FILE` empty, and the stream at its end or,
asked for single bytes, no end of a fragment in its way but that of the last. -/
theorem in_order_iff {msgs rest : List QuapiMsg} {gs : List (List Char)} {c : Encoder}
    {calls : List StdioCall} {y : Stdio}
    (he : Encoder.init.fragments msgs = some (gs, c))
    (hst : c.state = .readingPrefix ∨ c.state = .readingMatrix)
    (hproper : ∀ c ∈ calls, c.Proper)
    (hrun : Machine.run step (start (msgs ++ .solve :: rest)) calls = some y) :
    let fs := gs ++ List.replicate (c.header.clauses.1 - c.written).toNat c.filler
    (Machine.Always step (InOrder fs.flatten.zipIdx) (start (msgs ++ .solve :: rest)) calls ∧
      Machine.Meets step (Right fs.flatten.zipIdx) (start (msgs ++ .solve :: rest)) calls) ↔
      Machine.Meets step (Fits fs) (start (msgs ++ .solve :: rest)) calls := by
  intro fs
  have hgood : Good fs (start (msgs ++ .solve :: rest)) := good_start he hst
  have hfs : ∀ f ∈ fs, f ≠ [] := by
    intro f hf
    rcases List.mem_append.mp hf with hf | hf
    · exact Encoder.ne_nil_of_fragments he f hf
    · rw [List.eq_of_mem_replicate hf]
      exact Reader.filler_ne_nil_of_encode (Encoder.encode_of_fragments he) (List.cons_ne_nil _ _)
  constructor
  · rintro ⟨horder, hright⟩
    exact hgood.meets hfs hproper hrun horder hright
  · exact hgood.run hfs hproper

/-- A formula with one variable and the clause that is its only literal. -/
def unitMsgs : List QuapiMsg :=
  [.header quapiApiVersion ⟨.of 1, .of 1, .of 0⟩,
    .literal (lit 1), .literal 0]

/-- The fragments of its text. -/
def unitFragments : List (List Char) := ["p cnf 1 1\n".toList, ['1'], " 0\n".toList]

/-- The header line in two reads, the literal with `getc`, and the end of the clause with a
read that asks for no more than that. -/
theorem unit_in_order : ∃ y,
    Machine.run step (start (unitMsgs ++ .solve :: []))
      [.fread 1 2, .fread 1 8, .getc, .fread 1 3, .fgetc] = some y ∧
    y.handed = "p cnf 1 1\n1 0\n".toList.zipIdx ∧
    Machine.Always step (InOrder unitFragments.flatten.zipIdx) (start (unitMsgs ++ .solve :: []))
      [.fread 1 2, .fread 1 8, .getc, .fread 1 3, .fgetc] := by
  have hsome : (Machine.run step (start (unitMsgs ++ .solve :: []))
      [.fread 1 2, .fread 1 8, .getc, .fread 1 3, .fgetc]).map (fun y => y.handed) =
    some "p cnf 1 1\n1 0\n".toList.zipIdx := rfl
  obtain ⟨y, hy, hhanded⟩ := Option.map_eq_some_iff.mp hsome
  have he : Encoder.init.fragments unitMsgs = some (unitFragments, ⟨⟨⟨1, by decide⟩,
    ⟨1, by decide⟩, ⟨0, by decide⟩⟩, .readingMatrix, defaultFiller, 1, 0⟩) := rfl
  have hproper : ∀ c ∈ [StdioCall.fread 1 2, .fread 1 8, .getc, .fread 1 3, .fgetc],
      c.Proper := by
    simp [StdioCall.Proper]
  exact ⟨y, hy, hhanded, ((in_order_iff he (Or.inr rfl) hproper hy).mpr (by decide)).1⟩

/-- **One character is peeked, and the rest read with `fread`**: `getc` has taken the whole
line into the buffer of the `FILE`, where `fread` does not look, so that the solver gets the
`p` of the header and then the literal of the clause. -/
theorem peek_skips : ∃ y,
    Machine.run step (start (unitMsgs ++ .solve :: [])) [.getc, .fread 1 4096] = some y ∧
      y.handed = [('p', 0), ('1', 10)] ∧ y.buffer = " cnf 1 1\n".toList.zipIdx 1 ∧
      ¬(Machine.Always step (InOrder unitFragments.flatten.zipIdx)
          (start (unitMsgs ++ .solve :: [])) [.getc, .fread 1 4096] ∧
        Machine.Meets step (Right unitFragments.flatten.zipIdx)
          (start (unitMsgs ++ .solve :: [])) [.getc, .fread 1 4096]) := by
  refine ⟨_, rfl, rfl, rfl, ?_⟩
  rintro ⟨⟨-, hrest⟩, -⟩
  have hlast : InOrder unitFragments.flatten.zipIdx _ := (hrest _ rfl).2 _ rfl
  have hprefix : [('p', 0), ('1', 10)] <+: unitFragments.flatten.zipIdx := hlast
  exact absurd hprefix (by decide)

end Stdio

end QuAPI
