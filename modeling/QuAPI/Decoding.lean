import Mathlib.Data.List.TakeWhile
import QuAPI.Framing
import QuAPI.Wire

/-!
# Decoding from a zero-copy pipe

With zero-copy pipes a message is not copied out of the pipe: `quapi_read_msg_from_file` returns a
pointer into the block that is mapped, and this is what `last_read_msg` is while the message is
repeated. `read_trailing_into_header` is shared with the stdio build. There, `trail` is an array of
its own; here, it is a pointer into the mapping as well, and the words of a header are moved to the
front all the same. But the mapping is `PROT_READ`.

So a header is never decoded (`QuAPI.PipeReader.read_header`), and every other message is
(`QuAPI.PipeReader.read_plain`); `QuAPI.decoding_onlyReads_iff` is both, for all blocks and all
messages in them. Where the messages lie is `QuAPI.Lies`, and what the library writes lies so in
the blocks that are sent (`QuAPI.exists_lies`). The protection only makes this visible: in a mapping
that could be written, the header would be decoded, and the block would not be the same afterwards
(`QuAPI.readWrite_unchanged_iff`).
-/

namespace QuAPI

open Bytes

/-! ### The reader -/

/-- The `prot` of a mapping. -/
inductive Prot where
  | read
  | readWrite
deriving DecidableEq

/-- How a call can end without returning. -/
inductive DecodeError where
  /-- Within `quapi_zerocopy_pipe_read`. -/
  | pipe (e : ReadError)
  /-- The type is not known, and the process exits. -/
  | unknownType
  /-- A store to memory that cannot be written, or through `NULL`. -/
  | sigsegv
deriving DecidableEq

/-- `READ_VAR` for the numbers behind a header. -/
def readHeaderData (trail : Memory) : HeaderData :=
  let literals := readVar trail 0
  let clauses := readVar trail literals.2
  let prefixdepth := readVar trail clauses.2
  let read₀ := readVar trail prefixdepth.2
  let read₁ := readVar trail read₀.2
  let write₀ := readVar trail read₁.2
  let write₁ := readVar trail write₀.2
  let parent₀ := readVar trail write₁.2
  let parent₁ := readVar trail parent₀.2
  ⟨literals.1, clauses.1, prefixdepth.1, (read₀.1, read₁.1), (write₀.1, write₁.1),
    (parent₀.1, parent₁.1)⟩

namespace ReadPipe

/-- `memmove` within the mapping, at which `n` bytes are stored. -/
def memmove (prot : Prot) (dst src n : ℕ) (r : ReadPipe) : Except DecodeError ReadPipe :=
  if n = 0 then .ok r
  else
    match prot with
    | .read => .error .sigsegv
    | .readWrite => .ok { r with
        file := bytesAt (copy r.mapping dst (fun i => r.mapping (src + i)) n) 0 r.file.length }

/-- `read_trailing_into_header`, for a zero-copy pipe: `trail` is what
`quapi_zerocopy_pipe_read` returns, whether or not it is `NULL`. -/
def readTrailingIntoHeader (prot : Prot) (blocks : List (List UInt8)) (r : ReadPipe) :
    Except DecodeError (HeaderData × List (List UInt8) × ReadPipe) :=
  match r.quapiZerocopyPipeRead 39 blocks with
  | .error e => .error (.pipe e)
  | .ok (none, _, _) => .error .sigsegv
  | .ok (some trail, blocks, r) =>
    match r.memmove prot trail (trail + 3) (39 - 3) with
    | .error e => .error e
    | .ok r => .ok (readHeaderData fun i => r.mapping (trail + i), blocks, r)

end ReadPipe

/-- What a runtime reads with: the pipe, the blocks that are there to be received, and
`header_data`. -/
structure PipeReader where
  pipe : ReadPipe
  blocks : List (List UInt8)
  headerData : HeaderData
deriving DecidableEq

namespace PipeReader

/-- `quapi_read_msg_from_file`, for a zero-copy pipe: the offset of the message in the mapping, if
it is not `NULL`. -/
def quapiReadMsgFromFile (prot : Prot) (s : PipeReader) :
    Except DecodeError (Option ℕ × PipeReader) :=
  match s.pipe.quapiZerocopyPipeRead 5 s.blocks with
  | .error e => .error (.pipe e)
  | .ok (none, blocks, pipe) => .ok (none, ⟨pipe, blocks, s.headerData⟩)
  | .ok (some r, blocks, pipe) =>
    if quapiMsgIsKnown (pipe.mapping (r + 4)) then
      if pipe.mapping (r + 4) = QuapiMsgType.header.packed then
        match pipe.readTrailingIntoHeader prot blocks with
        | .error e => .error e
        | .ok (headerData, blocks, pipe) => .ok (some r, ⟨pipe, blocks, headerData⟩)
      else .ok (some r, ⟨pipe, blocks, s.headerData⟩)
    else .error .unknownType

/-- What a caller finds where the message is. -/
def received (s : PipeReader) (r : ℕ) : Received :=
  ⟨s.pipe.mapping (r + 4), (readVar s.pipe.mapping r).1, s.headerData⟩

/-- A message is asked for `n` times. -/
def readMsgs (prot : Prot) : ℕ → PipeReader →
    Except DecodeError (List (Option Received) × PipeReader)
  | 0, s => .ok ([], s)
  | n + 1, s =>
    match s.quapiReadMsgFromFile prot with
    | .error e => .error e
    | .ok (r, s) =>
      match readMsgs prot n s with
      | .error e => .error e
      | .ok (answers, e) => .ok (r.map s.received :: answers, e)

end PipeReader

/-! ### The messages in the blocks -/

/-- The bytes of a message, of any type: five, and 39 more behind those of a header. -/
abbrev RawMsg := {m : List UInt8 //
  m.length = if ofList m 4 = QuapiMsgType.header.packed then 44 else 5}

/-- The byte of the type. -/
def RawMsg.type (m : RawMsg) : UInt8 := ofList m.1 4

/-- **A block is sound** if the bytes that its counter announces are in it. -/
structure Sound (b : List UInt8) : Prop where
  counter : wordSize + written (ofList b) ≤ b.length
  size : b.length ≤ bufSize

/-- What has not been read yet of the block that is mapped. -/
def ReadPipe.unread (r : ReadPipe) : List UInt8 :=
  bytesAt r.mapping (wordSize + r.readPos) (written r.mapping - r.readPos)

/-- **The messages lie in the blocks**, each of them as a whole: in the one that is mapped, or at
the beginning of the next one if this one has been read to its end. -/
inductive Lies : ReadPipe → List (List UInt8) → List RawMsg → Prop where
  | nil {r blocks} : Lies r blocks []
  | here {r blocks m msgs} : m.1 <+: r.unread →
      Lies { r with readPos := r.readPos + m.1.length } blocks msgs → Lies r blocks (m :: msgs)
  | next {r b blocks m msgs} : r.readPos = written r.mapping → Sound b →
      m.1 <+: payload (ofList b) → Lies ⟨b, m.1.length⟩ blocks msgs →
        Lies r (b :: blocks) (m :: msgs)

/-- The payload bytes that are still to be read. -/
def PipeReader.stream (s : PipeReader) : List UInt8 :=
  s.pipe.unread ++ s.blocks.flatMap fun b => payload (ofList b)

section

variable {r : ReadPipe} {b : List UInt8} {blocks : List (List UInt8)} {m : RawMsg}
  {msgs : List RawMsg} {size : ℕ} {d : HeaderData}

theorem RawMsg.five_le (m : RawMsg) : 5 ≤ m.1.length := by
  rw [m.2]
  split <;> norm_num

theorem Sound.ne_nil (h : Sound b) : b ≠ [] := by
  rintro rfl
  exact absurd h.counter (by rw [List.length_nil, wordSize]; omega)

theorem Sound.written_le (h : Sound b) : written (ofList b) ≤ bufSize := by
  have hcounter := h.counter
  have hsize := h.size
  omega

theorem sound_fdopen : Sound ReadPipe.fdopen.file := by
  have hzero : written (ofList ReadPipe.fdopen.file) = 0 := by decide +kernel
  constructor
  · rw [hzero]
    exact (length_bytesAt _ _ _).ge
  · exact (length_bytesAt _ _ _).le.trans (by decide)

/-- A message that has not been read is in front of the end of the block. -/
theorem fits_of_ahead (h : m.1 <+: r.unread) : r.readPos + m.1.length ≤ written r.mapping := by
  have hlen := h.length_le
  have hfive := m.five_le
  rw [ReadPipe.unread, length_bytesAt] at hlen
  omega

/-- It is where the position is. -/
theorem bytesAt_of_ahead (h : m.1 <+: r.unread) :
    bytesAt r.mapping (wordSize + r.readPos) m.1.length = m.1 := by
  have hfits := fits_of_ahead h
  obtain ⟨rest, hrest⟩ := h
  rw [ReadPipe.unread] at hrest
  have htake := congrArg (List.take m.1.length) hrest
  rw [List.take_left, take_bytesAt (by omega)] at htake
  exact htake.symm

/-- And the others follow it. -/
theorem unread_of_ahead (h : m.1 <+: r.unread) :
    r.unread = m.1 ++ ReadPipe.unread { r with readPos := r.readPos + m.1.length } := by
  have hfits := fits_of_ahead h
  have hsplit : written r.mapping - r.readPos =
      m.1.length + (written r.mapping - (r.readPos + m.1.length)) := by omega
  rw [ReadPipe.unread, hsplit, bytesAt_add, bytesAt_of_ahead h, Nat.add_assoc]
  rfl

/-- **Where a message lies, its first bytes are read**: in the block that is mapped, or in the next
one. In `r'`, the position is in front of the message. -/
theorem Lies.read (hr : Sound r.file) (h : Lies r blocks (m :: msgs)) (hpos : 0 < size)
    (hsize : size ≤ m.1.length) :
    ∃ (r' : ReadPipe) (blocks' : List (List UInt8)),
      r.quapiZerocopyPipeRead size blocks =
        .ok (some (wordSize + r'.readPos), blocks', { r' with readPos := r'.readPos + size }) ∧
      Sound r'.file ∧ m.1 <+: r'.unread ∧
      Lies { r' with readPos := r'.readPos + m.1.length } blocks' msgs ∧
      r'.file :: blocks' <:+ r.file :: blocks ∧
      PipeReader.stream ⟨r, blocks, d⟩ = PipeReader.stream ⟨r', blocks', d⟩ := by
  cases h with
  | here hprefix hrest =>
    have hfits := fits_of_ahead hprefix
    refine ⟨r, blocks, ?_, hr, hprefix, hrest, List.suffix_rfl, rfl⟩
    exact ReadPipe.quapiZerocopyPipeRead_of_le hr.ne_nil (by omega)
  | @next _ b blocks _ _ hend hb hprefix hrest =>
    have hlen := hprefix.length_le
    rw [length_payload] at hlen
    have hwritten := hr.written_le
    have hwritten' := hb.written_le
    change written r.mapping ≤ bufSize at hwritten
    refine ⟨⟨b, 0⟩, blocks, ?_, hb, hprefix, ?_, List.suffix_cons _ _, ?_⟩
    · rw [ReadPipe.quapiZerocopyPipeRead_of_end hr.ne_nil hend hpos (by omega) hwritten']
      simp only [Nat.add_zero, Nat.zero_add]
    · rwa [Nat.zero_add]
    · have hnil : r.unread = [] := by rw [ReadPipe.unread, hend, Nat.sub_self, bytesAt_zero]
      rw [PipeReader.stream, hnil, List.nil_append, List.flatMap_cons]
      rfl

end

/-! ### One message -/

/-- What is received with a message that is not a header. -/
def RawMsg.received (m : RawMsg) (h : HeaderData) : Received :=
  ⟨m.type, (readVar (ofList m.1) 0).1, h⟩

section

variable {s : PipeReader} {m : RawMsg} {msgs : List RawMsg}

/-- A message that lies in the mapping shows its type there. -/
theorem type_of_ahead {r : ReadPipe} (h : m.1 <+: r.unread) :
    r.mapping (wordSize + r.readPos + 4) = m.type :=
  apply_of_bytesAt (bytesAt_of_ahead h) m.five_le

/-- And its payload. -/
theorem readVar_of_ahead {r : ReadPipe} (h : m.1 <+: r.unread) :
    (readVar r.mapping (wordSize + r.readPos)).1 = (readVar (ofList m.1) 0).1 := by
  have hfive := m.five_le
  have hmem : bytesAt r.mapping (wordSize + r.readPos) 4 = bytesAt (ofList m.1) 0 4 := by
    rw [← take_bytesAt (show 4 ≤ m.1.length by omega), bytesAt_of_ahead h,
      ← take_bytesAt (show 4 ≤ m.1.length by omega), bytesAt_ofList_self]
  rw [readVar, readVar, load, hmem, load]

namespace PipeReader

/-- **A type that is not known** ends the process. -/
theorem read_unknown (hs : Sound s.pipe.file) (h : Lies s.pipe s.blocks (m :: msgs))
    (htype : quapiMsgIsKnown m.type = false) (prot : Prot) :
    s.quapiReadMsgFromFile prot = .error .unknownType := by
  obtain ⟨r, blocks, hread, -, hprefix, -⟩ := h.read (d := s.headerData) hs (by norm_num) m.five_le
  have hbyte : ReadPipe.mapping { r with readPos := r.readPos + 5 } (wordSize + r.readPos + 4) =
      m.type := type_of_ahead hprefix
  rw [quapiReadMsgFromFile, hread]
  simp only [hbyte, htype, Bool.false_eq_true, if_false]

/-- **A header is not read**: the words behind it are moved to the front where they are. -/
theorem read_header (hs : Sound s.pipe.file) (h : Lies s.pipe s.blocks (m :: msgs))
    (htype : m.type = QuapiMsgType.header.packed) :
    s.quapiReadMsgFromFile .read = .error .sigsegv := by
  obtain ⟨r, blocks, hread, hr, hprefix, -⟩ := h.read (d := s.headerData) hs (by norm_num) m.five_le
  have hbyte : ReadPipe.mapping { r with readPos := r.readPos + 5 } (wordSize + r.readPos + 4) =
      m.type := type_of_ahead hprefix
  have hknown : quapiMsgIsKnown QuapiMsgType.header.packed = true := by decide
  have hlen : m.1.length = 44 := m.2.trans (if_pos htype)
  -- they are in the same block
  have hfits := fits_of_ahead hprefix
  rw [hlen] at hfits
  have htrail : ReadPipe.quapiZerocopyPipeRead 39 blocks { r with readPos := r.readPos + 5 } =
      .ok (some (wordSize + (r.readPos + 5)), blocks, { r with readPos := r.readPos + 5 + 39 }) :=
    ReadPipe.quapiZerocopyPipeRead_of_le hr.ne_nil (by rw [Nat.add_assoc]; exact hfits)
  rw [quapiReadMsgFromFile, hread]
  simp only [hbyte, htype, hknown, if_true, ReadPipe.readTrailingIntoHeader, htrail,
    ReadPipe.memmove]
  rfl

/-- **Every other message is read** where it lies. -/
theorem read_plain (hs : Sound s.pipe.file) (h : Lies s.pipe s.blocks (m :: msgs))
    (hknown : quapiMsgIsKnown m.type = true) (htype : m.type ≠ QuapiMsgType.header.packed)
    (prot : Prot) :
    ∃ p s', s.quapiReadMsgFromFile prot = .ok (some p, s') ∧
      s'.received p = m.received s.headerData ∧ s'.headerData = s.headerData ∧
      Sound s'.pipe.file ∧ Lies s'.pipe s'.blocks msgs ∧
      s'.pipe.file :: s'.blocks <:+ s.pipe.file :: s.blocks ∧ s.stream = m.1 ++ s'.stream := by
  obtain ⟨r, blocks, hread, hr, hprefix, hrest, hsuffix, hstream⟩ :=
    h.read (d := s.headerData) hs (by norm_num) m.five_le
  have hbyte : ReadPipe.mapping { r with readPos := r.readPos + 5 } (wordSize + r.readPos + 4) =
      m.type := type_of_ahead hprefix
  have hlen : m.1.length = 5 := m.2.trans (if_neg htype)
  have hunread := unread_of_ahead hprefix
  rw [hlen] at hrest hunread
  refine ⟨wordSize + r.readPos, ⟨{ r with readPos := r.readPos + 5 }, blocks, s.headerData⟩, ?_,
    ?_, rfl, hr, hrest, hsuffix, ?_⟩
  · rw [quapiReadMsgFromFile, hread]
    simp only [hbyte, hknown, if_true, htype, if_false]
  · change (⟨r.mapping (wordSize + r.readPos + 4),
      (readVar r.mapping (wordSize + r.readPos)).1, s.headerData⟩ : Received) = _
    rw [type_of_ahead hprefix, readVar_of_ahead hprefix]
    rfl
  · refine hstream.trans ?_
    rw [stream, stream, hunread, List.append_assoc]

end PipeReader

/-! ### A mapping that could be written -/

/-- The numbers behind a header are in 36 bytes. -/
theorem readHeaderData_congr {trail trail' : Memory}
    (h : bytesAt trail 0 36 = bytesAt trail' 0 36) :
    readHeaderData trail = readHeaderData trail' := by
  have hvar : ∀ i, i + 4 ≤ 36 → (readVar trail i).1 = (readVar trail' i).1 := by
    intro i hi
    have hpart : ((bytesAt trail 0 36).drop i).take 4 = ((bytesAt trail' 0 36).drop i).take 4 := by
      rw [h]
    rw [drop_bytesAt (by omega), drop_bytesAt (by omega), take_bytesAt (by omega),
      take_bytesAt (by omega), Nat.zero_add] at hpart
    rw [readVar, readVar, load_congr hpart]
  change (⟨(readVar trail 0).1, (readVar trail 4).1, (readVar trail 8).1,
    ((readVar trail 12).1, (readVar trail 16).1), ((readVar trail 20).1, (readVar trail 24).1),
    ((readVar trail 28).1, (readVar trail 32).1)⟩ : HeaderData) = _
  rw [hvar 0 (by norm_num), hvar 4 (by norm_num), hvar 8 (by norm_num), hvar 12 (by norm_num),
    hvar 16 (by norm_num), hvar 20 (by norm_num), hvar 24 (by norm_num), hvar 28 (by norm_num),
    hvar 32 (by norm_num)]
  rfl

/-- In the stdio build, these are behind the padding in what is read. -/
theorem readTrailingIntoHeader_fst (stack : Memory) {file : List UInt8} (hlen : file.length = 39)
    {trail : Memory} (h : bytesAt trail 0 36 = file.drop 3) :
    (readTrailingIntoHeader stack file).1 = readHeaderData trail := by
  have hread := fread_append hlen [] stack
  rw [List.append_nil] at hread
  let m := copy stack 0 (ofList file) 39
  have hmoved : bytesAt (copy m 0 (fun i => m (3 + i)) 36) 0 36 = file.drop 3 := by
    have hdrop : (bytesAt m 0 39).drop 3 = bytesAt m (0 + 3) (39 - 3) := drop_bytesAt (by norm_num)
    rw [bytesAt_copy_ofList hlen] at hdrop
    exact ((bytesAt_copy m 0 _ 36).trans (bytesAt_shift m 3 36)).trans hdrop.symm
  rw [readTrailingIntoHeader, hread]
  exact readHeaderData_congr (hmoved.trans h.symm)

/-- **Protection is not all.** If the mapping could be written, the header would be decoded as in
the stdio build, but the block would be another one afterwards, unless the bytes behind the header
repeat every three bytes. -/
theorem readWrite_unchanged_iff {r : ReadPipe} (hr : Sound r.file)
    (h : r.readPos + 39 ≤ written r.mapping) (blocks : List (List UInt8)) (stack : Memory) :
    ∃ r', r.readTrailingIntoHeader .readWrite blocks =
        .ok ((readTrailingIntoHeader stack (bytesAt r.mapping (wordSize + r.readPos) 39)).1,
          blocks, r') ∧
      (r'.file = r.file ↔ bytesAt r.mapping (wordSize + r.readPos) 36 =
        bytesAt r.mapping (wordSize + r.readPos + 3) 36) := by
  have hread : r.quapiZerocopyPipeRead 39 blocks =
      .ok (some (wordSize + r.readPos), blocks, { r with readPos := r.readPos + 39 }) :=
    ReadPipe.quapiZerocopyPipeRead_of_le hr.ne_nil h
  have hroom : wordSize + r.readPos + 39 ≤ r.file.length := by
    have hcounter := hr.counter
    change wordSize + written r.mapping ≤ _ at hcounter
    omega
  generalize hp : wordSize + r.readPos = p at hread hroom ⊢
  let moved : Memory := copy r.mapping p (fun i => r.mapping (p + 3 + i)) 36
  let r' : ReadPipe := ⟨bytesAt moved 0 r.file.length, r.readPos + 39⟩
  -- the words are at the front of the trailing bytes
  have hwords : bytesAt r'.mapping p 36 = bytesAt r.mapping (p + 3) 36 := by
    change bytesAt (ofList (bytesAt moved 0 r.file.length)) p 36 = _
    rw [bytesAt_ofList (by omega), bytesAt_copy, bytesAt_shift]
  refine ⟨r', ?_, ?_⟩
  · have hheader : (readTrailingIntoHeader stack (bytesAt r.mapping p 39)).1 =
        readHeaderData fun i => r'.mapping (p + i) := by
      refine readTrailingIntoHeader_fst stack (length_bytesAt _ _ _) ?_
      rw [bytesAt_shift, hwords, drop_bytesAt (by norm_num)]
    rw [ReadPipe.readTrailingIntoHeader, hread, hheader]
    rfl
  · constructor
    · intro hfile
      have hsame : r'.mapping = r.mapping := congrArg ofList hfile
      rw [← hwords, hsame]
    · intro hperiod
      have hmoved : bytesAt moved 0 r.file.length = bytesAt r.mapping 0 r.file.length := by
        refine bytesAt_congr ?_
        intro i _ _
        change copy r.mapping p (fun i => r.mapping (p + 3 + i)) 36 i = _
        rw [copy]
        split
        · rename_i hin
          have hbyte := apply_eq_of_bytesAt_eq hperiod (show i - p < 36 by omega)
          rw [Nat.add_sub_cancel' hin.1] at hbyte
          exact hbyte.symm
        · rfl
      exact hmoved.trans (bytesAt_ofList_self _)

/-! ### The same message on a stream -/

section

variable {d : MsgReader} {rest : List UInt8}

/-- The type of a message that has been copied. -/
theorem copy_apply_four (hlen : m.1.length = 5) (mem : Memory) :
    copy mem 0 (ofList m.1) 5 4 = m.type := by
  have hbytes : bytesAt (copy mem 0 (ofList m.1) 5) 0 m.1.length = m.1 := by
    rw [hlen]
    exact bytesAt_copy_ofList hlen mem
  have hfour : 4 < m.1.length := m.five_le
  exact apply_of_bytesAt hbytes hfour

/-- In the stdio build a type that is not known ends the process as well. -/
theorem MsgReader.read_unknown (hfile : d.file = m.1 ++ rest)
    (htype : quapiMsgIsKnown m.type = false) (stack : Memory) :
    d.quapiReadMsgFromFile stack = none := by
  have hne : m.type ≠ QuapiMsgType.header.packed := by
    intro hheader
    rw [hheader] at htype
    exact absurd htype (by decide)
  have hlen : m.1.length = 5 := m.2.trans (if_neg hne)
  rw [quapiReadMsgFromFile, hfile, fread_append hlen]
  simp only [ne_eq, not_true_eq_false, if_false, copy_apply_four hlen, htype, Bool.false_eq_true]

/-- And every message that is not a header is read. -/
theorem MsgReader.read_plain (hfile : d.file = m.1 ++ rest)
    (hknown : quapiMsgIsKnown m.type = true) (htype : m.type ≠ QuapiMsgType.header.packed)
    (stack : Memory) :
    ∃ d', d.quapiReadMsgFromFile stack = some (true, d') ∧ d'.file = rest ∧
      d'.headerData = d.headerData ∧ d'.received = m.received d.headerData := by
  have hlen : m.1.length = 5 := m.2.trans (if_neg htype)
  refine ⟨⟨rest, copy d.msg 0 (ofList m.1) 5, d.headerData⟩, ?_, rfl, rfl, ?_⟩
  · rw [quapiReadMsgFromFile, hfile, fread_append hlen]
    simp only [ne_eq, not_true_eq_false, if_false, copy_apply_four hlen, hknown, if_true, htype]
  · have hload : load 4 (copy d.msg 0 (ofList m.1) 5) 0 = load 4 (ofList m.1) 0 := by
      refine load_congr ?_
      rw [← take_bytesAt (show 4 ≤ 5 by norm_num), bytesAt_copy,
        take_bytesAt (show 4 ≤ 5 by norm_num)]
    simp only [MsgReader.received, copy_apply_four hlen, readVar, hload]
    rfl

end

end

/-! ### All messages -/

/-- What a series of calls returns, with `header_data` at its end. -/
def PipeReader.answers (s : PipeReader) (n : ℕ) : Option (List (Option Received) × HeaderData) :=
  (s.readMsgs .read n).toOption.map fun x => (x.1, x.2.headerData)

/-- The same for the stdio build. -/
def MsgReader.answers (d : MsgReader) (mems : List Memory) :
    Option (List (Option Received) × HeaderData) :=
  (d.readMsgs mems).map fun x => (x.1, x.2.headerData)

/-- **Decoding only reads**, and gives what the stdio build decodes from the same bytes. -/
structure OnlyReads (s : PipeReader) (n : ℕ) : Prop where
  /-- There is no store to the mapping. -/
  noStore : s.readMsgs .read n ≠ .error .sigsegv
  /-- The block that is mapped is the one that has been received last. -/
  unchanged : ∀ answers e, s.readMsgs .read n = .ok (answers, e) →
    e.pipe.file :: e.blocks <:+ s.pipe.file :: s.blocks
  /-- Messages and header data are the same, whatever the stack and the memory of the message
  contain in the stdio build; or both processes exit. -/
  same : ∀ (mems : List Memory) (m : Memory), mems.length = n →
    s.answers n = MsgReader.answers ⟨s.stream, m, s.headerData⟩ mems

/-- The messages up to the first one whose type is not known, where the process exits. -/
def known (msgs : List RawMsg) : List RawMsg := msgs.takeWhile fun m => quapiMsgIsKnown m.type

section

variable {s s' : PipeReader} {m : RawMsg} {msgs : List RawMsg} {p n : ℕ}

theorem known_cons (hm : quapiMsgIsKnown m.type = true) : known (m :: msgs) = m :: known msgs := by
  rw [known, List.takeWhile_cons, if_pos hm, known]

theorem known_cons_of_not (hm : quapiMsgIsKnown m.type = false) : known (m :: msgs) = [] := by
  rw [known, List.takeWhile_cons, if_neg (Bool.eq_false_iff.mp hm)]

theorem Lies.exists_stream (hs : Sound s.pipe.file) (h : Lies s.pipe s.blocks (m :: msgs)) :
    ∃ rest, s.stream = m.1 ++ rest := by
  obtain ⟨r, blocks, -, -, hprefix, -, -, hstream⟩ :=
    h.read (d := s.headerData) hs (by norm_num) m.five_le
  rw [PipeReader.stream, PipeReader.stream, unread_of_ahead hprefix, List.append_assoc] at hstream
  exact ⟨_, hstream⟩

/-- **A header ends a series of calls.** -/
theorem PipeReader.readMsgs_header (hs : Sound s.pipe.file) (h : Lies s.pipe s.blocks msgs)
    (hm : m ∈ known msgs) (htype : m.type = QuapiMsgType.header.packed) :
    s.readMsgs .read msgs.length = .error .sigsegv := by
  -- on the messages, up to the first header
  induction msgs generalizing s with
  | nil => exact absurd hm List.not_mem_nil
  | cons m' msgs ih =>
    cases hknown : quapiMsgIsKnown m'.type with
    | false =>
      rw [known_cons_of_not hknown] at hm
      exact absurd hm List.not_mem_nil
    | true =>
      rw [known_cons hknown] at hm
      by_cases htype' : m'.type = QuapiMsgType.header.packed
      · rw [List.length_cons, readMsgs, read_header hs h htype']
      · obtain ⟨p, s', hread, -, -, hs', h', -⟩ := read_plain hs h hknown htype' .read
        have hmem : m ∈ known msgs := by
          rcases List.mem_cons.mp hm with rfl | hm
          · exact absurd htype htype'
          · exact hm
        rw [List.length_cons, readMsgs, hread]
        simp only [ih hs' h' hmem]

/-- A message that has been read, and then the others. -/
theorem PipeReader.answers_cons (hread : s.quapiReadMsgFromFile .read = .ok (some p, s')) :
    s.answers (n + 1) =
      (s'.answers n).map fun x => (some (s'.received p) :: x.1, x.2) := by
  rw [answers, readMsgs, hread, answers]
  simp only []
  cases s'.readMsgs .read n with
  | error e => rfl
  | ok x => rfl

theorem MsgReader.answers_cons {d d' : MsgReader} {stack : Memory} {mems : List Memory}
    (hread : d.quapiReadMsgFromFile stack = some (true, d')) :
    d.answers (stack :: mems) =
      (d'.answers mems).map fun x => (some d'.received :: x.1, x.2) := by
  rw [answers, readMsgs, hread, Option.bind_some, answers]
  simp only []
  cases d'.readMsgs mems with
  | none => rfl
  | some x => rfl

/-- **No message** is asked for. -/
theorem onlyReads_zero (s : PipeReader) : OnlyReads s 0 := by
  refine ⟨?_, ?_, ?_⟩
  · rintro ⟨⟩
  · rintro answers e ⟨⟩
    exact List.suffix_rfl
  · intro mems m hlen
    obtain rfl := List.length_eq_zero_iff.mp hlen
    rfl

/-- **A type that is not known** ends both processes. -/
theorem onlyReads_unknown (hs : Sound s.pipe.file) (h : Lies s.pipe s.blocks (m :: msgs))
    (htype : quapiMsgIsKnown m.type = false) (n : ℕ) : OnlyReads s (n + 1) := by
  have hread : s.readMsgs .read (n + 1) = .error .unknownType := by
    rw [PipeReader.readMsgs, PipeReader.read_unknown hs h htype]
  obtain ⟨rest, hstream⟩ := h.exists_stream hs
  refine ⟨?_, ?_, ?_⟩
  · rw [hread]
    rintro ⟨⟩
  · intro answers e hc
    rw [hread] at hc
    cases hc
  · intro mems mem hlen
    obtain ⟨stack, mems, rfl⟩ := List.exists_cons_of_length_eq_add_one hlen
    rw [PipeReader.answers, hread, MsgReader.answers, MsgReader.readMsgs,
      MsgReader.read_unknown (d := ⟨s.stream, mem, s.headerData⟩) hstream htype stack]
    rfl

/-- **A message that is not a header** is read in both builds. -/
theorem onlyReads_plain (hs : Sound s.pipe.file) (h : Lies s.pipe s.blocks (m :: msgs))
    (hknown : quapiMsgIsKnown m.type = true) (htype : m.type ≠ QuapiMsgType.header.packed)
    (hrest : ∀ s' : PipeReader, Sound s'.pipe.file → Lies s'.pipe s'.blocks msgs →
      OnlyReads s' n) : OnlyReads s (n + 1) := by
  obtain ⟨p, s', hread, hreceived, hheader, hs', h', hsuffix, hstream⟩ :=
    PipeReader.read_plain hs h hknown htype .read
  obtain ⟨hstore, hunchanged, hsame⟩ := hrest s' hs' h'
  have hnext : s.readMsgs .read (n + 1) = match s'.readMsgs .read n with
      | .error e => .error e
      | .ok (answers, e) => .ok (some (s'.received p) :: answers, e) := by
    rw [PipeReader.readMsgs, hread]
    rfl
  refine ⟨?_, ?_, ?_⟩
  · rw [hnext]
    cases hcase : s'.readMsgs .read n with
    | error e =>
      rw [hcase] at hstore
      exact hstore
    | ok x => rintro ⟨⟩
  · intro answers e hc
    rw [hnext] at hc
    cases hcase : s'.readMsgs .read n with
    | error e' =>
      rw [hcase] at hc
      cases hc
    | ok x =>
      rw [hcase] at hc
      obtain ⟨-, rfl⟩ := Prod.mk.inj (Except.ok.inj hc)
      exact (hunchanged x.1 x.2 hcase).trans hsuffix
  · intro mems mem hlen
    obtain ⟨stack, mems, rfl⟩ := List.exists_cons_of_length_eq_add_one hlen
    obtain ⟨⟨file, mem', header⟩, hread', rfl, rfl, hreceived'⟩ := MsgReader.read_plain
      (d := ⟨s.stream, mem, s.headerData⟩) hstream hknown htype stack
    rw [PipeReader.answers_cons hread, MsgReader.answers_cons hread', hreceived, hreceived',
      hsame mems mem' (Nat.succ.inj hlen), hheader]

/-- **Without a header**, decoding only reads, after every part of the messages. -/
theorem onlyReads_of_plain (hs : Sound s.pipe.file) (h : Lies s.pipe s.blocks msgs)
    (hplain : ∀ m ∈ known msgs, m.type ≠ QuapiMsgType.header.packed) (hn : n ≤ msgs.length) :
    OnlyReads s n := by
  -- on the messages, in both builds
  induction msgs generalizing s n with
  | nil =>
    obtain rfl := Nat.le_zero.mp hn
    exact onlyReads_zero s
  | cons m msgs ih =>
    cases n with
    | zero => exact onlyReads_zero s
    | succ n =>
      cases hknown : quapiMsgIsKnown m.type with
      | false => exact onlyReads_unknown hs h hknown n
      | true =>
        rw [known_cons hknown] at hplain
        refine onlyReads_plain hs h hknown (hplain m List.mem_cons_self) ?_
        intro s' hs' h'
        exact ih hs' h' (fun m' hm' => hplain m' (List.mem_cons_of_mem _ hm'))
          (Nat.le_of_succ_le_succ hn)

end

/-! ### What a writer sends -/

section

variable {r : ReadPipe} {blocks : List (List UInt8)} {msgs now later : List RawMsg}

/-- Messages in the rest of a block, and the others behind it. -/
theorem lies_append (hle : r.readPos ≤ written r.mapping)
    (hunread : r.unread = (now.map Subtype.val).flatten)
    (hlater : Lies { r with readPos := written r.mapping } blocks later) :
    Lies r blocks (now ++ later) := by
  induction now generalizing r with
  | nil =>
    have hlen := congrArg List.length hunread
    rw [ReadPipe.unread, length_bytesAt, List.map_nil, List.flatten_nil, List.length_nil] at hlen
    have hend : r.readPos = written r.mapping := by omega
    rw [← hend] at hlater
    exact hlater
  | cons m now ih =>
    have hprefix : m.1 <+: r.unread := by
      rw [hunread, List.map_cons, List.flatten_cons]
      exact List.prefix_append _ _
    refine .here hprefix (ih (fits_of_ahead hprefix) ?_ hlater)
    rw [unread_of_ahead hprefix, List.map_cons, List.flatten_cons] at hunread
    exact List.append_cancel_left hunread

/-- **Blocks that carry messages**: these lie in them. -/
theorem lies_of_carries {groups : List (List (List UInt8))}
    (h : List.Forall₂ Carries blocks groups) (hend : r.readPos = written r.mapping)
    (hmsgs : groups.flatten = msgs.map Subtype.val) : Lies r blocks msgs := by
  -- on the blocks: the first message of each is behind the end of the last one
  induction h generalizing r msgs with
  | nil =>
    obtain rfl := List.map_eq_nil_iff.mp hmsgs.symm
    exact .nil
  | @cons b ws blocks groups hb h ih =>
    rw [List.flatten_cons] at hmsgs
    obtain ⟨now, later, rfl, hnow, hlater⟩ := List.map_eq_append_iff.mp hmsgs.symm
    have hheld := hb.held
    have hpos := hb.pos
    rw [← length_payload, hheld, ← hnow] at hpos
    cases now with
    | nil => exact absurd hpos (lt_irrefl 0)
    | cons m now =>
      have hsound : Sound b := by
        have hroom := hb.room
        have hlength := hb.length
        exact ⟨by omega, hlength.le⟩
      rw [← hnow, List.map_cons, List.flatten_cons] at hheld
      have hfirst : m.1 <+: ReadPipe.unread ⟨b, 0⟩ := by
        change m.1 <+: payload (ofList b)
        rw [hheld]
        exact List.prefix_append _ _
      have hrest := unread_of_ahead hfirst
      change payload (ofList b) = _ at hrest
      rw [hheld, Nat.zero_add] at hrest
      have hfits := fits_of_ahead hfirst
      rw [Nat.zero_add] at hfits
      have hnext : Lies ⟨b, written (ofList b)⟩ blocks later :=
        @ih ⟨b, written (ofList b)⟩ later rfl hlater.symm
      exact .next hend hsound hfirst
        (lies_append hfits (List.append_cancel_left hrest).symm hnext)

end

/-- **The messages that are written lie in the blocks that are sent**, whatever else the pipe is
used for, if it is flushed at the end. -/
theorem exists_lies {ops : List Op} {msgs : List RawMsg}
    (hsize : ∀ op ∈ ops, op.size + wordSize < bufSize)
    (hwrites : writesOf ops = msgs.map Subtype.val) (mem : Fin 2 → Memory) :
    ∃ c, (ZerocopyPipe.fdopen mem).run (ops ++ [.flush]) = some c ∧
      Lies ReadPipe.fdopen c.sent msgs := by
  obtain ⟨c, hc, hpacked⟩ := ZerocopyPipe.packed_run (ZerocopyPipe.packed_fdopen mem) hsize
  obtain ⟨d, hd, hpacked'⟩ := ZerocopyPipe.packed_perform hpacked
    (ZerocopyPipe.room_of_eq_zero (rfl : Op.flush.size = 0))
  obtain ⟨-, -, groups, last, hgroups, hlast, hsent⟩ := hpacked'
  rw [List.nil_append] at hsent
  change [] ++ writesOf ops ++ [] = _ at hgroups
  rw [List.nil_append, List.append_nil, hwrites] at hgroups
  refine ⟨_, ZerocopyPipe.run_concat hc hd, lies_of_carries hsent ?_ ?_⟩
  · exact ReadPipe.atEnd_fdopen.atEnd
  · -- nothing is left in the buffer, and no message is empty
    have hnone : last.flatten = [] := by
      rw [← hlast]
      exact ZerocopyPipe.payload_flush hd
    have hlast : last = [] := by
      refine List.eq_nil_iff_forall_not_mem.mpr ?_
      intro w hw
      have hmem : w ∈ msgs.map Subtype.val := by
        rw [hgroups]
        exact List.mem_append_right _ hw
      obtain ⟨m, -, rfl⟩ := List.mem_map.mp hmem
      have hfive := RawMsg.five_le m
      rw [List.flatten_eq_nil_iff.mp hnone m.1 hw, List.length_nil] at hfive
      omega
    rw [hgroups, hlast, List.append_nil]

/-! ### What the library sends -/

namespace WriteCall

/-- The type is the fifth byte. -/
theorem ofList_bytes_four (c : WriteCall) : ofList c.bytes 4 = c.msg.type.packed := by
  have hle : 5 ≤ c.bytes.length := by
    rw [bytes, List.length_append, length_front]
    exact Nat.le_add_right 5 _
  have hfront : bytesAt (ofList c.bytes) 0 5 = c.msg.front := by
    rw [← take_bytesAt hle, bytesAt_ofList_self, bytes, List.take_left' (length_front _)]
  exact (MsgReader.of_front hfront).1

theorem length_raw (c : WriteCall) :
    c.bytes.length = if ofList c.bytes 4 = QuapiMsgType.header.packed then 44 else 5 := by
  rw [c.ofList_bytes_four]
  by_cases htype : c.msg.type = .header
  · rw [if_pos (MsgReader.packed_eq_header.mpr htype), length_bytes_header htype]
  · rw [if_neg (mt MsgReader.packed_eq_header.mp htype), length_bytes_of_ne htype]

/-- The bytes that are written are those of a message. -/
def raw (c : WriteCall) : RawMsg := ⟨c.bytes, c.length_raw⟩

theorem type_raw (c : WriteCall) : c.raw.type = c.msg.type.packed := c.ofList_bytes_four

end WriteCall

section

variable {ops : List Op} {calls : List WriteCall} {c : WriteCall}

/-- All types that are written are known. -/
theorem known_raw (calls : List WriteCall) :
    known (calls.map WriteCall.raw) = calls.map WriteCall.raw := by
  refine List.takeWhile_eq_self_iff.mpr ?_
  intro m hm
  obtain ⟨c, -, rfl⟩ := List.mem_map.mp hm
  rw [c.type_raw]
  exact MsgReader.quapiMsgIsKnown_packed _

/-- **No header arrives**: where the library writes one, the process that reads it ends with a
fault, whatever is written in front of it and behind it. -/
theorem written_header_faults (hsize : ∀ op ∈ ops, op.size + wordSize < bufSize)
    (hwrites : writesOf ops = calls.map WriteCall.bytes) (hc : c ∈ calls)
    (htype : c.msg.type = .header) (mem : Fin 2 → Memory) (h : HeaderData) :
    ∃ d, (ZerocopyPipe.fdopen mem).run (ops ++ [.flush]) = some d ∧
      PipeReader.readMsgs .read calls.length ⟨ReadPipe.fdopen, d.sent, h⟩ =
        .error .sigsegv := by
  have hraw : writesOf ops = (calls.map WriteCall.raw).map Subtype.val := by
    rw [hwrites, List.map_map]
    rfl
  obtain ⟨d, hd, hlies⟩ := exists_lies hsize hraw mem
  have hmem : c.raw ∈ known (calls.map WriteCall.raw) := by
    rw [known_raw]
    exact List.mem_map_of_mem hc
  have hheader : c.raw.type = QuapiMsgType.header.packed :=
    c.type_raw.trans (MsgReader.packed_eq_header.mpr htype)
  have hfault := PipeReader.readMsgs_header (s := ⟨ReadPipe.fdopen, d.sent, h⟩) sound_fdopen hlies
    hmem hheader
  rw [List.length_map] at hfault
  exact ⟨d, hd, hfault⟩

end

/-! ### When decoding only reads -/

/-- **Decoding from a zero-copy pipe only reads exactly where no header is read.** For all blocks,
and for every sequence of messages that lie in them, of any types and with any bytes: after any
number of them there has been no store to the mapping, the block that is mapped is as it has been
received, and messages and header data are those that the stdio build decodes from the same payload
bytes, if and only if none of the messages is a header, up to the first one whose type is not
known. -/
theorem decoding_onlyReads_iff (s : PipeReader) (msgs : List RawMsg) (hs : Sound s.pipe.file)
    (h : Lies s.pipe s.blocks msgs) :
    (∀ n ≤ msgs.length, OnlyReads s n) ↔
      ∀ m ∈ known msgs, m.type ≠ QuapiMsgType.header.packed := by
  constructor
  · intro hreads m hm htype
    exact (hreads _ le_rfl).noStore (PipeReader.readMsgs_header hs h hm htype)
  · intro hplain n hn
    exact onlyReads_of_plain hs h hplain hn

/-- `header_data` before the first header. -/
def noHeader : HeaderData := ⟨0, 0, 0, (0, 0), (0, 0), (0, 0)⟩

/-- A literal and a SOLVE. -/
theorem literal_solve_onlyReads :
    let calls : List WriteCall := [
      ⟨fun _ => 0, ⟨-5, .literal⟩, none, fun hc => absurd hc (by decide)⟩,
      ⟨fun _ => 0, ⟨0, .solve⟩, none, fun hc => absurd hc (by decide)⟩]
    ∃ c, (ZerocopyPipe.fdopen fun _ _ => 0).run
        (calls.map (fun call => .write 5 1 (ofList call.bytes)) ++ [.flush]) = some c ∧
      OnlyReads ⟨ReadPipe.fdopen, c.sent, noHeader⟩ 2 := by
  intro calls
  have hwrites : writesOf (calls.map fun call => .write 5 1 (ofList call.bytes)) =
      (calls.map WriteCall.raw).map Subtype.val := by decide
  obtain ⟨c, hc, hlies⟩ := exists_lies (by decide) hwrites fun _ _ => 0
  have hplain : ∀ m ∈ known (calls.map WriteCall.raw),
      m.type ≠ QuapiMsgType.header.packed := by decide
  have hreads := (decoding_onlyReads_iff ⟨ReadPipe.fdopen, c.sent, noHeader⟩
    (calls.map WriteCall.raw) sound_fdopen hlies).mpr hplain 2 le_rfl
  exact ⟨c, hc, hreads⟩

/-- **The header of a session** faults in the process that reads it, and is decoded in the stdio
build. -/
theorem header_not_onlyReads :
    let h : HeaderData := ⟨1, 1, 0, (4, 5), (6, 7), (8, 9)⟩
    let call : WriteCall := ⟨fun _ => 0, ⟨3, .header⟩, some h, fun _ => rfl⟩
    ∃ c, (ZerocopyPipe.fdopen fun _ _ => 0).run [.write 44 1 (ofList call.bytes), .flush] =
        some c ∧
      Lies ReadPipe.fdopen c.sent [call.raw] ∧
      PipeReader.readMsgs .read 1 ⟨ReadPipe.fdopen, c.sent, noHeader⟩ = .error .sigsegv ∧
      ¬OnlyReads ⟨ReadPipe.fdopen, c.sent, noHeader⟩ 1 ∧
      MsgReader.answers ⟨call.bytes, fun _ => 0, noHeader⟩ [fun _ => 1] =
        some ([some ⟨1, 3, h⟩], h) := by
  intro h call
  have hwrites : writesOf [.write 44 1 (ofList call.bytes)] = [call.raw].map Subtype.val := by
    decide
  obtain ⟨c, hc, hlies⟩ := exists_lies (by decide) hwrites fun _ _ => 0
  rw [List.singleton_append] at hc
  have hmem : call.raw ∈ known [call.raw] := by decide
  have htype : call.raw.type = QuapiMsgType.header.packed := by decide
  have hfault := PipeReader.readMsgs_header (s := ⟨ReadPipe.fdopen, c.sent, noHeader⟩)
    sound_fdopen hlies hmem htype
  rw [List.length_singleton] at hfault
  have hstdio : MsgReader.answers ⟨call.bytes, fun _ => 0, noHeader⟩ [fun _ => 1] =
      some ([some ⟨1, 3, h⟩], h) := by decide +kernel
  exact ⟨c, hc, hlies, hfault, fun hreads => hreads.noStore hfault, hstdio⟩

end QuAPI
