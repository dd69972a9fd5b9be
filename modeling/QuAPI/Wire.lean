import QuAPI.Bytes
import QuAPI.Message

/-!
# Messages as bytes

What `quapi_write_msg_to_file` puts on a stream, and what `quapi_read_msg_from_file` takes off
it, in the build that uses stdio. A message is five bytes, its payload and its type; a header is
followed by three bytes of padding and by nine words, which `read_trailing_into_header` moves to
the front and reads one behind the other.

The layout is settled once for each side: `QuAPI.bytesAt_serializeHeader` says which bytes a header
is, and `QuAPI.readTrailingIntoHeader_trailing` that these are the nine words again. Two steps are
all that a stream needs then: a message that is there is read
(`QuAPI.MsgReader.read_bytes`), and one that breaks off in front of its fifth byte is not
(`QuAPI.MsgReader.read_short`). From these come `QuAPI.messages_roundtrip`, and
`QuAPI.cut_iff` for streams that break off: what breaks off within the words behind a header is
taken for a header, since nobody looks at what `fread` has returned for them.

The other modules send messages as values; `QuAPI.quapiMsgs_received` says that the bytes carry
these.
-/

namespace QuAPI

open Bytes

/-! ### The data -/

/-- `quapi_msg_type`. -/
inductive QuapiMsgType where
  | undefined
  | header
  | quantifier
  | literal
  | fork
  | forkReport
  | started
  | solve
  | exitCode
  | destructed
deriving DecidableEq

/-- The byte of a type, `quapi_msg_type_packed`. -/
def QuapiMsgType.packed : QuapiMsgType → UInt8
  | undefined => 0
  | header => 1
  | quantifier => 2
  | literal => 3
  | fork => 4
  | forkReport => 5
  | started => 6
  | solve => 7
  | exitCode => 8
  | destructed => 9

/-- `quapi_msg_is_known`, on the byte of a type. -/
def quapiMsgIsKnown (t : UInt8) : Bool := t ≤ 9

/-- `quapi_msg_inner`; each member of `quapi_msg_data` is four bytes wide, or is part of an
`int`. -/
structure QuapiMsgInner where
  data : Int32
  type : QuapiMsgType
deriving DecidableEq

/-- `arr`, the bytes of a message in memory. -/
def QuapiMsgInner.arr (msg : QuapiMsgInner) : Memory :=
  copy (store 4 (fun _ => 0) 0 msg.data.toUInt32.toNat) 4 (fun _ => msg.type.packed) 1

/-- `quapi_msg_header_data`, with the descriptors. -/
structure HeaderData where
  literals : Int32
  clauses : Int32
  prefixdepth : Int32
  forkedChildReadPipe : Int32 × Int32
  forkedChildWritePipe : Int32 × Int32
  messageToParentPipe : Int32 × Int32
deriving DecidableEq

/-! ### Writing -/

/-- `data` and `i` of `serialize_header`. -/
structure Writer where
  data : Memory
  i : ℕ

/-- `WRITE_VAR`, of a variable of `k` bytes. -/
def Writer.writeVar (w : Writer) (k n : ℕ) : Writer := ⟨store k w.data w.i n, w.i + k⟩

/-- `WRITE_VAR`, of an `int`. -/
def Writer.writeInt (w : Writer) (x : Int32) : Writer := w.writeVar 4 x.toUInt32.toNat

/-- `serialize_header`, into the memory that `malloc` has returned. -/
def serializeHeader (fresh msg : Memory) (hdata : HeaderData) : Writer :=
  let data := copy fresh 0 msg 4
  let data := copy data 4 (fun _ => msg 4) 1
  let w : Writer := ⟨data, 5⟩
  -- the padding
  let w := ((w.writeVar 1 0).writeVar 1 0).writeVar 1 0
  let w := ((w.writeInt hdata.literals).writeInt hdata.clauses).writeInt hdata.prefixdepth
  let w := (w.writeInt hdata.forkedChildReadPipe.1).writeInt hdata.forkedChildReadPipe.2
  let w := (w.writeInt hdata.forkedChildWritePipe.1).writeInt hdata.forkedChildWritePipe.2
  (w.writeInt hdata.messageToParentPipe.1).writeInt hdata.messageToParentPipe.2

/-- A stream of stdio that is written to. -/
structure OutFile where
  flushed : List UInt8
  buffered : List UInt8
deriving DecidableEq

/-- All that has been written. -/
def OutFile.bytes (f : OutFile) : List UInt8 := f.flushed ++ f.buffered

def OutFile.fwrite (f : OutFile) (bytes : List UInt8) : OutFile :=
  { f with buffered := f.buffered ++ bytes }

def OutFile.fflush (f : OutFile) : OutFile := ⟨f.flushed ++ f.buffered, []⟩

/-- `quapi_write_msg_to_file`, where `malloc` and `fwrite` succeed: `none` where a header has no
data. -/
def quapiWriteMsgToFile (fresh : Memory) (f : OutFile) (msg : QuapiMsgInner)
    (hdata : Option HeaderData) : Option OutFile :=
  let data : Option (List UInt8) :=
    if msg.type = .header then hdata.map fun h =>
      bytesAt (serializeHeader fresh msg.arr h).data 0 (serializeHeader fresh msg.arr h).i
    else some (bytesAt (copy msg.arr 4 (fun _ => msg.type.packed) 1) 0 5)
  data.map fun bytes =>
    match msg.type with
    | .header | .fork | .solve | .started => (f.fwrite bytes).fflush
    | _ => f.fwrite bytes

/-! ### Reading -/

/-- `fread` of one element: what it returns, what is left of the stream, and the memory. -/
def fread (size : ℕ) (file : List UInt8) (m : Memory) : ℕ × List UInt8 × Memory :=
  (if (file.take size).length = size then 1 else 0, file.drop size,
    copy m 0 (ofList (file.take size)) (file.take size).length)

/-- `READ_VAR`, of an `int`, with the `i` behind it. -/
def readVar (trail : Memory) (i : ℕ) : Int32 × ℕ :=
  ((UInt32.ofNat (load 4 trail i)).toInt32, i + 4)

/-- `read_trailing_into_header`, for a stream, with what is left of it: `stack` is what `trail`
contains before the `fread`, and what that returns is not looked at. -/
def readTrailingIntoHeader (stack : Memory) (file : List UInt8) : HeaderData × List UInt8 :=
  let r := fread 39 file stack
  let trail := copy r.2.2 0 (fun i => r.2.2 (3 + i)) (39 - 3)
  let literals := readVar trail 0
  let clauses := readVar trail literals.2
  let prefixdepth := readVar trail clauses.2
  let read₀ := readVar trail prefixdepth.2
  let read₁ := readVar trail read₀.2
  let write₀ := readVar trail read₁.2
  let write₁ := readVar trail write₀.2
  let parent₀ := readVar trail write₁.2
  let parent₁ := readVar trail parent₀.2
  (⟨literals.1, clauses.1, prefixdepth.1, (read₀.1, read₁.1), (write₀.1, write₁.1),
    (parent₀.1, parent₁.1)⟩, r.2.1)

/-- What a runtime reads with: the stream, `read_msg` and `header_data`. -/
structure MsgReader where
  file : List UInt8
  msg : Memory
  headerData : HeaderData

/-- `quapi_read_msg_from_file`, without errors of the stream: `none` where the process exits,
and otherwise whether a message has been read. -/
def MsgReader.quapiReadMsgFromFile (stack : Memory) (r : MsgReader) : Option (Bool × MsgReader) :=
  let s := fread 5 r.file r.msg
  let r := { r with file := s.2.1, msg := s.2.2 }
  if s.1 ≠ 1 then some (false, r)
  else if quapiMsgIsKnown (r.msg 4) then
    if r.msg 4 = QuapiMsgType.header.packed then
      let t := readTrailingIntoHeader stack r.file
      some (true, { r with file := t.2, headerData := t.1 })
    else some (true, r)
  else none

/-- What a caller finds after a message: its type and payload, and `header_data`. -/
structure Received where
  type : UInt8
  data : Int32
  headerData : HeaderData
deriving DecidableEq

def MsgReader.received (r : MsgReader) : Received :=
  ⟨r.msg 4, (readVar r.msg 0).1, r.headerData⟩

/-- A message is asked for once for each element of `mems`, which is what the stack contains
then. -/
def MsgReader.readMsgs : List Memory → MsgReader → Option (List (Option Received) × MsgReader)
  | [], r => some ([], r)
  | stack :: mems, r => (r.quapiReadMsgFromFile stack).bind fun (read, r) =>
    (readMsgs mems r).map fun (answers, e) =>
      ((if read then some r.received else none) :: answers, e)

/-! ### The bytes of a message -/

/-- The numbers behind a header. -/
def HeaderData.ints (h : HeaderData) : List Int32 :=
  [h.literals, h.clauses, h.prefixdepth, h.forkedChildReadPipe.1, h.forkedChildReadPipe.2,
    h.forkedChildWritePipe.1, h.forkedChildWritePipe.2, h.messageToParentPipe.1,
    h.messageToParentPipe.2]

/-- The words that they are. -/
def HeaderData.words (h : HeaderData) : List ℕ := h.ints.map fun x => x.toUInt32.toNat

/-- The bytes behind a header. -/
def HeaderData.trailing (h : HeaderData) : List UInt8 := [0, 0, 0] ++ h.words.flatMap (word 4)

/-- The bytes that each message has. -/
def QuapiMsgInner.front (msg : QuapiMsgInner) : List UInt8 :=
  word 4 msg.data.toUInt32.toNat ++ [msg.type.packed]

section Layout

variable {h : HeaderData} {msg : QuapiMsgInner} {fresh m : Memory} {w : Writer} {rest : List UInt8}
  {x : Int32} {i : ℕ}

theorem length_trailing (h : HeaderData) : h.trailing.length = 39 := by
  simp only [HeaderData.trailing, HeaderData.words, HeaderData.ints, List.map_cons, List.map_nil,
    List.flatMap_cons, List.flatMap_nil, List.length_append, length_word, List.length_cons,
    List.length_nil]

theorem length_front (msg : QuapiMsgInner) : msg.front.length = 5 := by
  rw [QuapiMsgInner.front, List.length_append, length_word, List.length_singleton]

theorem bytesAt_singleton (b : UInt8) : bytesAt (fun _ => b) 0 1 = [b] := rfl

theorem bytesAt_arr (msg : QuapiMsgInner) : bytesAt msg.arr 0 5 = msg.front := by
  have happend := bytesAt_copy_append (store 4 (fun _ => 0) 0 msg.data.toUInt32.toNat) 4
    (fun _ => msg.type.packed) 1
  have hstore := bytesAt_store_append 4 (fun _ => 0) 0 msg.data.toUInt32.toNat
  rw [bytesAt_zero, List.nil_append, Nat.zero_add] at hstore
  rw [hstore, bytesAt_singleton] at happend
  exact happend

theorem arr_four (msg : QuapiMsgInner) : msg.arr 4 = msg.type.packed := rfl

theorem bytesAt_arr_four (msg : QuapiMsgInner) :
    bytesAt msg.arr 0 4 = word 4 msg.data.toUInt32.toNat := by
  have htake : (bytesAt msg.arr 0 5).take 4 = bytesAt msg.arr 0 4 := take_bytesAt (by decide)
  rw [bytesAt_arr, QuapiMsgInner.front, List.take_left' (length_word _ _)] at htake
  exact htake.symm

/-- Writing the type once more changes nothing. -/
theorem bytesAt_arr_type (msg : QuapiMsgInner) :
    bytesAt (copy msg.arr 4 (fun _ => msg.type.packed) 1) 0 5 = msg.front := by
  have happend := bytesAt_copy_append msg.arr 4 (fun _ => msg.type.packed) 1
  rw [bytesAt_arr_four, bytesAt_singleton] at happend
  exact happend

/-- What has been written so far. -/
def Writer.written (w : Writer) : List UInt8 := bytesAt w.data 0 w.i

@[simp] theorem written_writeVar (w : Writer) (k n : ℕ) :
    (w.writeVar k n).written = w.written ++ word k n := bytesAt_store_append k w.data w.i n

@[simp] theorem written_writeInt (w : Writer) (x : Int32) :
    (w.writeInt x).written = w.written ++ word 4 x.toUInt32.toNat := written_writeVar _ _ _

/-- **The bytes of a header.** -/
theorem bytesAt_serializeHeader (fresh : Memory) (msg : QuapiMsgInner) (h : HeaderData) :
    (serializeHeader fresh msg.arr h).written = msg.front ++ h.trailing := by
  have hfront : Writer.written ⟨copy (copy fresh 0 msg.arr 4) 4 (fun _ => msg.arr 4) 1, 5⟩ =
      msg.front := by
    have happend := bytesAt_copy_append (copy fresh 0 msg.arr 4) 4 (fun _ => msg.arr 4) 1
    rw [bytesAt_copy, bytesAt_arr_four, bytesAt_singleton, arr_four] at happend
    exact happend
  have hpad : word 1 0 = [0] := rfl
  simp only [serializeHeader, written_writeInt, written_writeVar, hfront, hpad,
    HeaderData.trailing, HeaderData.words, HeaderData.ints, List.map_cons, List.map_nil,
    List.flatMap_cons, List.flatMap_nil, List.append_assoc, List.append_nil, List.cons_append,
    List.nil_append]

/-! ### The words of a header -/

/-- An element that is there is read. -/
theorem fread_append {l : List UInt8} {size : ℕ} (hl : l.length = size) (rest : List UInt8)
    (m : Memory) : fread size (l ++ rest) m = (1, rest, copy m 0 (ofList l) size) := by
  rw [fread, List.take_left' hl, List.drop_left' hl, if_pos hl, hl]

theorem bytesAt_copy_ofList {l : List UInt8} {size : ℕ} (hl : l.length = size) (m : Memory) :
    bytesAt (copy m 0 (ofList l) size) 0 size = l := by
  rw [bytesAt_copy, ← hl, bytesAt_ofList_self]

/-- An element that is not there is not read, and nothing is left. -/
theorem fread_short {l : List UInt8} {size : ℕ} (hl : l.length < size) (m : Memory) :
    (fread size l m).1 = 0 ∧ (fread size l m).2.1 = [] := by
  constructor
  · rw [fread, List.take_of_length_le hl.le, if_neg hl.ne]
  · exact List.drop_of_length_le hl.le

/-- **A number is read where its bytes are.** -/
theorem readVar_of_load {x : Int32} (hload : load 4 m i = x.toUInt32.toNat % 256 ^ 4) :
    (readVar m i).1 = x := by
  have hlt : x.toUInt32.toNat < 256 ^ 4 := x.toUInt32.toNat_lt
  rw [readVar, hload, Nat.mod_eq_of_lt hlt, UInt32.ofNat_toNat, Int32.toInt32_toUInt32]

theorem bytesAt_shift (m : Memory) (k n : ℕ) :
    bytesAt (fun i => m (k + i)) 0 n = bytesAt m k n := by
  refine List.map_congr_left ?_
  intro i _
  rw [Nat.zero_add]

/-- **The words behind a header are read as they have been written.** -/
theorem readTrailingIntoHeader_trailing (stack : Memory) (h : HeaderData) (rest : List UInt8) :
    readTrailingIntoHeader stack (h.trailing ++ rest) = (h, rest) := by
  have hread := fread_append (length_trailing h) rest stack
  -- the memory behind the shift contains the words, from its beginning on
  let trail := copy stack 0 (ofList h.trailing) 39
  let moved := copy trail 0 (fun i => trail (3 + i)) 36
  have hmoved : bytesAt moved 0 (4 * h.words.length) = h.words.flatMap (word 4) := by
    have hdrop : (bytesAt trail 0 39).drop 3 = bytesAt trail (0 + 3) (39 - 3) :=
      drop_bytesAt (by decide)
    rw [bytesAt_copy_ofList (length_trailing h)] at hdrop
    have hshift : bytesAt moved 0 36 = bytesAt trail 3 36 :=
      (bytesAt_copy trail 0 _ 36).trans (bytesAt_shift trail 3 36)
    exact hshift.trans hdrop.symm
  have hints : ∀ j (hj : j < 9), (readVar moved (0 + 4 * j)).1 = h.ints.get ⟨j, hj⟩ := by
    intro j hj
    refine readVar_of_load ((load_of_words hmoved hj).trans ?_)
    simp only [HeaderData.words, List.getElem_map, List.get_eq_getElem]
  rw [readTrailingIntoHeader, hread]
  change ((⟨(readVar moved (0 + 4 * 0)).1, (readVar moved (0 + 4 * 1)).1,
    (readVar moved (0 + 4 * 2)).1,
    ((readVar moved (0 + 4 * 3)).1, (readVar moved (0 + 4 * 4)).1),
    ((readVar moved (0 + 4 * 5)).1, (readVar moved (0 + 4 * 6)).1),
    ((readVar moved (0 + 4 * 7)).1, (readVar moved (0 + 4 * 8)).1)⟩ : HeaderData), rest) = _
  rw [hints 0 (by decide), hints 1 (by decide), hints 2 (by decide), hints 3 (by decide),
    hints 4 (by decide), hints 5 (by decide), hints 6 (by decide), hints 7 (by decide),
    hints 8 (by decide)]
  rfl

end Layout

/-! ### A message on a stream -/

/-- A call of `quapi_write_msg_to_file` whose assertion holds, with what `malloc` returns. -/
structure WriteCall where
  fresh : Memory
  msg : QuapiMsgInner
  hdata : Option HeaderData
  valid : msg.type = .header → hdata.isSome

namespace WriteCall

/-- The bytes that are written. -/
def bytes (c : WriteCall) : List UInt8 :=
  c.msg.front ++ if c.msg.type = .header then (c.hdata.map HeaderData.trailing).getD [] else []

/-- `header_data`, when the message has been read. -/
def install (c : WriteCall) (h : HeaderData) : HeaderData :=
  if c.msg.type = .header then c.hdata.getD h else h

variable {c : WriteCall}

/-- Messages are five bytes, or a header of 44. -/
theorem bytes_cases (c : WriteCall) :
    (c.msg.type ≠ .header ∧ c.bytes = c.msg.front ∧ ∀ h, c.install h = h) ∨
      ∃ hdata, c.msg.type = .header ∧ c.hdata = some hdata ∧
        c.bytes = c.msg.front ++ hdata.trailing ∧ ∀ h, c.install h = hdata := by
  -- only a header has data behind it, and then the assertion says that they are given
  by_cases htype : c.msg.type = .header
  · obtain ⟨hdata, hsome⟩ := Option.isSome_iff_exists.mp (c.valid htype)
    refine Or.inr ⟨hdata, htype, hsome, ?_, ?_⟩
    · rw [bytes, if_pos htype, hsome, Option.map_some, Option.getD_some]
    · intro h
      rw [install, if_pos htype, hsome, Option.getD_some]
  · refine Or.inl ⟨htype, ?_, fun h => if_neg htype⟩
    rw [bytes, if_neg htype, List.append_nil]

/-- **A call writes the bytes of its message.** -/
theorem write_bytes (c : WriteCall) (f : OutFile) :
    ∃ f', quapiWriteMsgToFile c.fresh f c.msg c.hdata = some f' ∧
      f'.bytes = f.bytes ++ c.bytes := by
  -- flushed or not, the bytes come in order
  have hwrite : ∀ l : List UInt8, (match c.msg.type with
      | .header | .fork | .solve | .started => (f.fwrite l).fflush
      | _ => f.fwrite l).bytes = f.bytes ++ l := by
    intro l
    cases c.msg.type <;>
      simp only [OutFile.bytes, OutFile.fwrite, OutFile.fflush, List.append_nil, List.append_assoc]
  rcases c.bytes_cases with ⟨htype, hbytes, -⟩ | ⟨hdata, htype, hsome, hbytes, -⟩
  · rw [quapiWriteMsgToFile, if_neg htype, Option.map_some, bytesAt_arr_type, hbytes]
    exact ⟨_, rfl, hwrite _⟩
  · rw [quapiWriteMsgToFile, if_pos htype, hsome, Option.map_some, Option.map_some, hbytes,
      ← bytesAt_serializeHeader c.fresh]
    exact ⟨_, rfl, hwrite _⟩

end WriteCall

/-- Several messages are written. -/
def writeMsgs : List WriteCall → OutFile → Option OutFile
  | [], f => some f
  | c :: calls, f => (quapiWriteMsgToFile c.fresh f c.msg c.hdata).bind (writeMsgs calls)

theorem exists_writeMsgs (calls : List WriteCall) (f : OutFile) :
    ∃ f', writeMsgs calls f = some f' ∧ f'.bytes = f.bytes ++ calls.flatMap WriteCall.bytes := by
  -- on the calls, each of them behind what is written
  induction calls generalizing f with
  | nil => exact ⟨f, rfl, (List.append_nil _).symm⟩
  | cons c calls ih =>
    obtain ⟨f₁, hf₁, hbytes₁⟩ := c.write_bytes f
    obtain ⟨f', hf', hbytes⟩ := ih f₁
    refine ⟨f', ?_, ?_⟩
    · rw [writeMsgs, hf₁, Option.bind_some, hf']
    · rw [hbytes, hbytes₁, List.flatMap_cons, List.append_assoc]

namespace MsgReader

variable {r : MsgReader} {stack : Memory} {c : WriteCall} {rest : List UInt8}

theorem quapiMsgIsKnown_packed (t : QuapiMsgType) : quapiMsgIsKnown t.packed = true := by
  cases t <;> decide

theorem packed_eq_header {t : QuapiMsgType} :
    t.packed = QuapiMsgType.header.packed ↔ t = .header := by
  cases t <;> decide

/-- Memory with the bytes of a message in front contains its payload and its type. -/
theorem of_front {m : Memory} {msg : QuapiMsgInner} (h : bytesAt m 0 5 = msg.front) :
    m 4 = msg.type.packed ∧ (readVar m 0).1 = msg.data := by
  rw [bytesAt_add m 0 4 1, QuapiMsgInner.front] at h
  obtain ⟨hdata, htype⟩ := List.append_inj h (by rw [length_bytesAt, length_word])
  exact ⟨(List.cons.inj htype).1, readVar_of_load (load_of_bytesAt hdata)⟩

/-- **A message that is there is read**, and nothing behind it. -/
theorem read_bytes (hfile : r.file = c.bytes ++ rest) (stack : Memory) :
    ∃ r', r.quapiReadMsgFromFile stack = some (true, r') ∧ r'.file = rest ∧
      r'.received = ⟨c.msg.type.packed, c.msg.data, c.install r.headerData⟩ := by
  have hlen := length_front c.msg
  rcases c.bytes_cases with ⟨htype, hbytes, hinstall⟩ | ⟨hdata, htype, -, hbytes, hinstall⟩
  · obtain ⟨hfour, hpayload⟩ := of_front (bytesAt_copy_ofList hlen r.msg)
    rw [hbytes] at hfile
    -- the five bytes are all
    have hne : c.msg.type.packed ≠ QuapiMsgType.header.packed := mt packed_eq_header.mp htype
    refine ⟨⟨rest, copy r.msg 0 (ofList c.msg.front) 5, r.headerData⟩, ?_, rfl, ?_⟩
    · rw [quapiReadMsgFromFile, hfile, fread_append hlen]
      simp only [ne_eq, not_true_eq_false, if_false, hfour, quapiMsgIsKnown_packed, if_true,
        if_neg hne]
    · simp only [received, hfour, hpayload, hinstall]
  · obtain ⟨hfour, hpayload⟩ := of_front (bytesAt_copy_ofList hlen r.msg)
    rw [hbytes, List.append_assoc] at hfile
    -- the words behind them are read as well
    have heq : c.msg.type.packed = QuapiMsgType.header.packed := packed_eq_header.mpr htype
    refine ⟨⟨rest, copy r.msg 0 (ofList c.msg.front) 5, hdata⟩, ?_, rfl, ?_⟩
    · rw [quapiReadMsgFromFile, hfile, fread_append hlen]
      simp only [ne_eq, not_true_eq_false, if_false, hfour, quapiMsgIsKnown_packed, if_true,
        if_pos heq, readTrailingIntoHeader_trailing]
    · simp only [received, hfour, hpayload, hinstall]

/-- **A message that breaks off in front of its fifth byte is not read**, and nothing is left of
the stream. -/
theorem read_short (hfile : r.file.length < 5) (stack : Memory) :
    ∃ r', r.quapiReadMsgFromFile stack = some (false, r') ∧ r'.file = [] ∧
      r'.headerData = r.headerData := by
  obtain ⟨hzero, hnil⟩ := fread_short hfile r.msg
  refine ⟨{ r with file := (fread 5 r.file r.msg).2.1, msg := (fread 5 r.file r.msg).2.2 },
    ?_, hnil, rfl⟩
  rw [quapiReadMsgFromFile]
  simp only [hzero, ne_eq, zero_ne_one, not_false_eq_true, if_true]

/-- **A header is read as soon as its first five bytes are there**, whatever follows them. -/
theorem read_torn (htype : c.msg.type = .header) (hfile : r.file = c.msg.front ++ rest)
    (stack : Memory) : ∃ r', r.quapiReadMsgFromFile stack = some (true, r') := by
  have hlen := length_front c.msg
  obtain ⟨hfour, -⟩ := of_front (bytesAt_copy_ofList hlen r.msg)
  have heq : c.msg.type.packed = QuapiMsgType.header.packed := packed_eq_header.mpr htype
  rw [quapiReadMsgFromFile, hfile, fread_append hlen]
  simp only [ne_eq, not_true_eq_false, if_false, hfour, quapiMsgIsKnown_packed, if_true,
    if_pos heq]
  exact ⟨_, rfl⟩

end MsgReader

/-! ### Whole streams -/

/-- What the messages of a stream are for their reader. -/
def receivedAll (h : HeaderData) : List WriteCall → List Received
  | [] => []
  | c :: calls => ⟨c.msg.type.packed, c.msg.data, c.install h⟩ :: receivedAll (c.install h) calls

/-- `header_data` behind them: that of the last header. -/
def lastHeader (h : HeaderData) (calls : List WriteCall) : HeaderData :=
  calls.foldl (fun h c => c.install h) h

/-- The messages whose bytes are complete in front of a cut. -/
def complete : ℕ → List WriteCall → List WriteCall
  | _, [] => []
  | cut, c :: calls =>
    if c.bytes.length ≤ cut then c :: complete (cut - c.bytes.length) calls else []

namespace MsgReader

variable {r : MsgReader} {c : WriteCall} {calls : List WriteCall} {rest : List UInt8}

/-- A message that is there, and then the others. -/
theorem readMsgs_bytes (hfile : r.file = c.bytes ++ rest) (stack : Memory) (mems : List Memory) :
    ∃ r' : MsgReader, r'.file = rest ∧ r'.headerData = c.install r.headerData ∧
      r.readMsgs (stack :: mems) = (r'.readMsgs mems).map fun (answers, e) =>
        (some ⟨c.msg.type.packed, c.msg.data, c.install r.headerData⟩ :: answers, e) := by
  obtain ⟨r', hread, hrest, hreceived⟩ := read_bytes hfile stack
  refine ⟨r', hrest, congrArg Received.headerData hreceived, ?_⟩
  rw [readMsgs, hread, Option.bind_some]
  change Option.map (fun x => (some r'.received :: x.1, x.2)) (r'.readMsgs mems) = _
  rw [hreceived]

/-- At the end of a stream every call fails. -/
theorem readMsgs_short (hfile : r.file.length < 5) (mems : List Memory) :
    ∃ e, r.readMsgs mems = some (List.replicate mems.length none, e) ∧
      e.headerData = r.headerData := by
  -- nothing comes behind a stream that has ended
  induction mems generalizing r with
  | nil => exact ⟨r, rfl, rfl⟩
  | cons stack mems ih =>
    obtain ⟨r', hread, hnil, hheader⟩ := read_short hfile stack
    obtain ⟨e, he, hlast⟩ := ih (show r'.file.length < 5 by rw [hnil]; decide)
    refine ⟨e, ?_, hlast.trans hheader⟩
    rw [readMsgs, hread, Option.bind_some]
    change Option.map (fun x => (none :: x.1, x.2)) (r'.readMsgs mems) = _
    rw [he]
    rfl

/-- **Messages that are there are read, one by one.** -/
theorem readMsgs_append (hfile : r.file = calls.flatMap WriteCall.bytes ++ rest)
    {mems : List Memory} (hlen : mems.length = calls.length) :
    ∃ e, r.readMsgs mems = some ((receivedAll r.headerData calls).map some, e) ∧ e.file = rest := by
  -- on the messages: each call takes the bytes of one
  induction calls generalizing r mems with
  | nil =>
    obtain rfl := List.length_eq_zero_iff.mp hlen
    exact ⟨r, rfl, hfile⟩
  | cons c calls ih =>
    obtain ⟨stack, mems, rfl⟩ := List.exists_cons_of_length_eq_add_one hlen
    rw [List.flatMap_cons, List.append_assoc] at hfile
    obtain ⟨r', hrest, hheader, hread⟩ := readMsgs_bytes hfile stack mems
    obtain ⟨e, he, hend⟩ := ih hrest (Nat.succ.inj hlen)
    refine ⟨e, ?_, hend⟩
    rw [hread, he, hheader]
    rfl

end MsgReader

/-- **Decoding undoes encoding.** For every list of messages of every type, with any payloads, and
with any data for each header: all of them are written, and as many calls read them again, with
their types, their payloads, and in `header_data` what the last header has installed, up to the
end of the stream. Nothing depends on what `malloc` returns, on the stack, or on the message and
the header data that the reader has had before. -/
theorem messages_roundtrip (calls : List WriteCall) {mems : List Memory} (m : Memory)
    (h : HeaderData) (hlen : mems.length = calls.length) :
    ∃ f e, writeMsgs calls ⟨[], []⟩ = some f ∧
      MsgReader.readMsgs mems ⟨f.bytes, m, h⟩ = some ((receivedAll h calls).map some, e) ∧
      e.file = [] := by
  obtain ⟨f, hf, hbytes⟩ := exists_writeMsgs calls ⟨[], []⟩
  have hfile : (MsgReader.mk f.bytes m h).file = calls.flatMap WriteCall.bytes ++ [] := by
    rw [List.append_nil]
    exact hbytes
  obtain ⟨e, he, hend⟩ := MsgReader.readMsgs_append hfile hlen
  exact ⟨f, e, hf, he, hend⟩

/-- A message of each of two types. -/
theorem two_messages_roundtrip :
    let h : HeaderData := ⟨-1, 2, 3, (4, 5), (6, 7), (8, -9)⟩
    let calls : List WriteCall := [⟨fun _ => 1, ⟨3, .header⟩, some h, fun _ => rfl⟩,
      ⟨fun _ => 1, ⟨-5, .literal⟩, none, fun hc => absurd hc (by decide)⟩]
    ∃ f e, writeMsgs calls ⟨[], []⟩ = some f ∧
      MsgReader.readMsgs [fun _ => 1, fun _ => 1] ⟨f.bytes, fun _ => 1, h⟩ =
        some ((receivedAll h calls).map some, e) ∧
      e.file = [] := by
  intro h calls
  exact messages_roundtrip calls _ h rfl

/-! ### The messages of the model

The other modules speak of messages as values (`QuAPI.QuapiMsg`). Here is how they are written:
with numbers of 32 bits, and with descriptors that only a header has. -/

/-- A number of the model as an `int`. -/
def CInt.toInt32 (i : CInt) : Int32 := Int32.ofInt i.1

/-- An `int` as a number of the model. -/
def cInt (x : Int32) : CInt :=
  ⟨x.toInt, by have := x.le_toInt; omega, by have := x.toInt_lt; omega⟩

/-- An `int` as a literal, unless it is `INT32_MIN`. -/
def lit? (x : Int32) : Option Lit :=
  if h : -2147483648 < x.toInt then some ⟨x.toInt, h, by have := x.toInt_lt; omega⟩ else none

/-- The numbers of a message are of 32 bits. -/
def QuapiMsg.Fits : QuapiMsg → Prop
  | .header v _ | .forkReport v | .started v | .exitCode v => -2147483648 ≤ v ∧ v ≤ 2147483647
  | _ => True

/-- A message as it is written. -/
def QuapiMsg.inner : QuapiMsg → QuapiMsgInner
  | .undefined => ⟨0, .undefined⟩
  | .header v _ => ⟨Int32.ofInt v, .header⟩
  | .quantifier lit => ⟨Int32.ofInt lit.val, .quantifier⟩
  | .literal lit => ⟨Int32.ofInt lit.val, .literal⟩
  | .fork wait => ⟨if wait then 1 else 0, .fork⟩
  | .forkReport pid => ⟨Int32.ofInt pid, .forkReport⟩
  | .started v => ⟨Int32.ofInt v, .started⟩
  | .solve => ⟨0, .solve⟩
  | .exitCode code => ⟨Int32.ofInt code, .exitCode⟩
  | .destructed => ⟨0, .destructed⟩

/-- What is written behind it, with the descriptors of `fds`. -/
def QuapiMsg.hdata (fds : HeaderData) : QuapiMsg → Option HeaderData
  | .header _ d => some { fds with
      literals := d.literals.toInt32
      clauses := d.clauses.toInt32
      prefixdepth := d.prefixdepth.toInt32 }
  | _ => none

/-- What has been received, as a message. The only bit of a FORK is the lowest. -/
def Received.quapiMsg? (m : Received) : Option QuapiMsg :=
  if m.type = QuapiMsgType.undefined.packed then some .undefined
  else if m.type = QuapiMsgType.header.packed then some (.header m.data.toInt
    ⟨cInt m.headerData.literals, cInt m.headerData.clauses, cInt m.headerData.prefixdepth⟩)
  else if m.type = QuapiMsgType.quantifier.packed then (lit? m.data).map .quantifier
  else if m.type = QuapiMsgType.literal.packed then (lit? m.data).map .literal
  else if m.type = QuapiMsgType.fork.packed then some (.fork (m.data.toUInt32 % 2 = 1))
  else if m.type = QuapiMsgType.forkReport.packed then some (.forkReport m.data.toInt)
  else if m.type = QuapiMsgType.started.packed then some (.started m.data.toInt)
  else if m.type = QuapiMsgType.solve.packed then some .solve
  else if m.type = QuapiMsgType.exitCode.packed then some (.exitCode m.data.toInt)
  else if m.type = QuapiMsgType.destructed.packed then some .destructed
  else none

/-- The call that writes a message. -/
def QuapiMsg.writeCall (fds : HeaderData) (m : QuapiMsg) : WriteCall where
  fresh := fun _ => 0
  msg := m.inner
  hdata := m.hdata fds
  valid := by
    intro htype
    cases m <;> first | rfl | exact QuapiMsgType.noConfusion htype

theorem toInt_ofInt {v : ℤ} (h : -2147483648 ≤ v ∧ v ≤ 2147483647) : (Int32.ofInt v).toInt = v :=
  Int32.toInt_ofInt_of_le (by omega) (by omega)

theorem cInt_toInt32 (i : CInt) : cInt i.toInt32 = i := Subtype.ext (toInt_ofInt i.2)

theorem lit?_ofInt (l : Lit) : lit? (Int32.ofInt l.val) = some l := by
  have hval : (Int32.ofInt l.val).toInt = l.val := toInt_ofInt ⟨l.lower.le, l.upper⟩
  have hlower : -2147483648 < (Int32.ofInt l.val).toInt := by
    rw [hval]
    exact l.lower
  rw [lit?, dif_pos hlower]
  exact congrArg some (Lit.ext hval)

/-- **A message is received as it was sent**, whatever the header data were before. -/
theorem quapiMsg?_received {m : QuapiMsg} (hm : m.Fits) (fds h : HeaderData) :
    Received.quapiMsg? ⟨m.inner.type.packed, m.inner.data, (m.writeCall fds).install h⟩ =
      some m := by
  cases m with
  | header v d =>
    have hv : (Int32.ofInt v).toInt = v := toInt_ofInt hm
    have hinstall : (QuapiMsg.writeCall fds (.header v d)).install h = { fds with
      literals := d.literals.toInt32
      clauses := d.clauses.toInt32
      prefixdepth := d.prefixdepth.toInt32 } := rfl
    rw [hinstall]
    change some (QuapiMsg.header (Int32.ofInt v).toInt ⟨cInt d.literals.toInt32,
      cInt d.clauses.toInt32, cInt d.prefixdepth.toInt32⟩) = _
    rw [hv, cInt_toInt32, cInt_toInt32, cInt_toInt32]
  | quantifier lit =>
    change (lit? (Int32.ofInt lit.val)).map QuapiMsg.quantifier = _
    rw [lit?_ofInt, Option.map_some]
  | literal lit =>
    change (lit? (Int32.ofInt lit.val)).map QuapiMsg.literal = _
    rw [lit?_ofInt, Option.map_some]
  | fork wait => cases wait <;> rfl
  | forkReport pid => exact congrArg (fun i => some (QuapiMsg.forkReport i)) (toInt_ofInt hm)
  | started v => exact congrArg (fun i => some (QuapiMsg.started i)) (toInt_ofInt hm)
  | exitCode code => exact congrArg (fun i => some (QuapiMsg.exitCode i)) (toInt_ofInt hm)
  | undefined => rfl
  | solve => rfl
  | destructed => rfl

/-- **The bytes carry the messages of the model**: what is sent as a list of them is received as
that list. -/
theorem quapiMsgs_received {msgs : List QuapiMsg} (hmsgs : ∀ m ∈ msgs, m.Fits)
    (fds : HeaderData) {mems : List Memory} (m : Memory) (h : HeaderData)
    (hlen : mems.length = msgs.length) :
    ∃ f answers e, writeMsgs (msgs.map (QuapiMsg.writeCall fds)) ⟨[], []⟩ = some f ∧
      MsgReader.readMsgs mems ⟨f.bytes, m, h⟩ = some (answers, e) ∧
      answers.map (fun r => r.bind Received.quapiMsg?) = msgs.map some := by
  obtain ⟨f, hf, hbytes⟩ := exists_writeMsgs (msgs.map (QuapiMsg.writeCall fds)) ⟨[], []⟩
  have hfile : (MsgReader.mk f.bytes m h).file =
      (msgs.map (QuapiMsg.writeCall fds)).flatMap WriteCall.bytes ++ [] := by
    rw [List.append_nil]
    exact hbytes
  obtain ⟨e, he, -⟩ := MsgReader.readMsgs_append hfile (hlen.trans (List.length_map _).symm)
  refine ⟨f, _, e, hf, he, ?_⟩
  rw [List.map_map]
  clear he hfile hbytes hf hlen
  induction msgs generalizing h with
  | nil => rfl
  | cons msg msgs ih =>
    rw [List.map_cons, receivedAll, List.map_cons, List.map_cons]
    refine congrArg₂ List.cons ?_ (ih (fun m hm => hmsgs m (List.mem_cons_of_mem _ hm)) _)
    exact quapiMsg?_received (hmsgs msg List.mem_cons_self) fds h

/-! ### Streams that break off -/

/-- **The stream breaks off within the words behind a header.** -/
def BreaksHeader (cut : ℕ) (calls : List WriteCall) : Prop :=
  ∃ pre c post, calls = pre ++ c :: post ∧ c.msg.type = .header ∧
    (pre.flatMap WriteCall.bytes).length + 5 ≤ cut ∧
      cut < (pre.flatMap WriteCall.bytes).length + 44

section Cut

variable {cut : ℕ} {c : WriteCall} {calls : List WriteCall} {r : MsgReader} {mems : List Memory}

theorem length_bytes_header (htype : c.msg.type = .header) : c.bytes.length = 44 := by
  rcases c.bytes_cases with ⟨hne, -⟩ | ⟨hdata, -, -, hbytes, -⟩
  · exact absurd htype hne
  · rw [hbytes, List.length_append, length_front, length_trailing]

theorem length_bytes_of_ne (htype : c.msg.type ≠ .header) : c.bytes.length = 5 := by
  rcases c.bytes_cases with ⟨-, hbytes, -⟩ | ⟨hdata, heq, -⟩
  · rw [hbytes, length_front]
  · exact absurd heq htype

theorem complete_of_le (h : c.bytes.length ≤ cut) :
    complete cut (c :: calls) = c :: complete (cut - c.bytes.length) calls := if_pos h

theorem complete_of_lt (h : cut < c.bytes.length) : complete cut (c :: calls) = [] :=
  if_neg (Nat.not_le.mpr h)

/-- Behind a complete message the stream breaks off as it does in the rest of it. -/
theorem breaksHeader_cons (h : c.bytes.length ≤ cut)
    (hbreak : BreaksHeader (cut - c.bytes.length) calls) : BreaksHeader cut (c :: calls) := by
  obtain ⟨pre, d, post, rfl, htype, hlo, hhi⟩ := hbreak
  refine ⟨c :: pre, d, post, rfl, htype, ?_, ?_⟩
  all_goals
    rw [List.flatMap_cons, List.length_append]
    omega

theorem take_flatMap_of_le (h : c.bytes.length ≤ cut) :
    ((c :: calls).flatMap WriteCall.bytes).take cut =
      c.bytes ++ (calls.flatMap WriteCall.bytes).take (cut - c.bytes.length) := by
  rw [List.flatMap_cons, List.take_append, List.take_of_length_le h]

/-- **A stream that breaks off elsewhere** is read up to its last complete message. -/
theorem readMsgs_cut (hcut : ¬BreaksHeader cut calls)
    (hfile : r.file = (calls.flatMap WriteCall.bytes).take cut)
    (hlen : (complete cut calls).length ≤ mems.length) :
    ∃ e, r.readMsgs mems = some ((receivedAll r.headerData (complete cut calls)).map some ++
        List.replicate (mems.length - (complete cut calls).length) none, e) ∧
      e.headerData = lastHeader r.headerData (complete cut calls) := by
  -- on the messages in front of the cut, which moves to the front with each of them
  induction calls generalizing cut r mems with
  | nil =>
    have hnil : r.file = [] := hfile.trans List.take_nil
    exact MsgReader.readMsgs_short (by rw [hnil]; decide) mems
  | cons c calls ih =>
    rcases Nat.lt_or_ge cut c.bytes.length with hlt | hle
    · -- the first message is not complete, and what is there of it is not five bytes
      have hfive : cut < 5 := by
        by_contra hge
        have hheader : c.msg.type = .header := by
          by_contra hne
          rw [length_bytes_of_ne hne] at hlt
          omega
        rw [length_bytes_header hheader] at hlt
        refine hcut ⟨[], c, calls, rfl, hheader, ?_, ?_⟩
        all_goals
          rw [List.flatMap_nil, List.length_nil]
          omega
      have hshort : r.file.length < 5 := by
        rw [hfile, List.length_take]
        omega
      rw [complete_of_lt hlt]
      exact MsgReader.readMsgs_short hshort mems
    · rw [complete_of_le hle] at hlen ⊢
      rw [take_flatMap_of_le hle] at hfile
      have hpos : 0 < mems.length := (Nat.succ_pos _).trans_le hlen
      obtain ⟨stack, mems, rfl⟩ := List.exists_cons_of_length_pos hpos
      obtain ⟨r', hrest, hheader, hread⟩ := MsgReader.readMsgs_bytes hfile stack mems
      obtain ⟨e, he, hlast⟩ := ih (fun hbreak => hcut (breaksHeader_cons hle hbreak)) hrest
        (Nat.le_of_succ_le_succ hlen)
      rw [hheader] at he hlast
      refine ⟨e, ?_, hlast⟩
      rw [hread, he, List.length_cons, List.length_cons, Nat.add_sub_add_right]
      rfl

/-- **A stream that breaks off behind a header's first five bytes** yields one message more. -/
theorem readMsgs_torn (hbreak : BreaksHeader cut calls)
    (hfile : r.file = (calls.flatMap WriteCall.bytes).take cut)
    (hlen : mems.length = (complete cut calls).length + 1) :
    ∃ answers e, r.readMsgs mems = some (answers, e) ∧ none ∉ answers := by
  obtain ⟨pre, c, post, rfl, htype, hlo, hhi⟩ := hbreak
  -- on the messages in front of the header that breaks off
  induction pre generalizing cut r mems with
  | nil =>
    rw [List.flatMap_nil, List.length_nil, Nat.zero_add] at hlo hhi
    rw [List.nil_append] at hfile hlen
    have hbytes := length_bytes_header htype
    rw [complete_of_lt (by rw [hbytes]; exact hhi), List.length_nil] at hlen
    obtain ⟨stack, rfl⟩ := List.length_eq_one_iff.mp hlen
    -- five of its bytes are there, and whatever follows them is taken for the words
    have hfront : ∃ rest, r.file = c.msg.front ++ rest := by
      rw [hfile, List.flatMap_cons, WriteCall.bytes, List.append_assoc, List.take_append,
        List.take_of_length_le (by rw [length_front]; exact hlo)]
      exact ⟨_, rfl⟩
    obtain ⟨rest, hrest⟩ := hfront
    obtain ⟨r', hread⟩ := MsgReader.read_torn htype hrest stack
    refine ⟨[some r'.received], r', ?_, ?_⟩
    · rw [MsgReader.readMsgs, hread]
      rfl
    · rw [List.mem_singleton]
      exact (Option.some_ne_none _).symm
  | cons d pre ih =>
    rw [List.flatMap_cons, List.length_append] at hlo hhi
    have hle : d.bytes.length ≤ cut := by omega
    rw [List.cons_append, complete_of_le hle] at hlen
    rw [List.cons_append, take_flatMap_of_le hle] at hfile
    obtain ⟨stack, mems, rfl⟩ := List.exists_cons_of_length_eq_add_one hlen
    obtain ⟨r', hrest, hheader, hread⟩ := MsgReader.readMsgs_bytes hfile stack mems
    obtain ⟨answers, e, he, hnone⟩ := ih hrest (Nat.succ.inj hlen) (by omega) (by omega)
    rw [he, Option.map_some] at hread
    refine ⟨_, e, hread, ?_⟩
    rw [List.mem_cons, not_or]
    exact ⟨(Option.some_ne_none _).symm, hnone⟩

end Cut

/-- **A stream that breaks off yields its complete messages, except within a header.** For every
list of messages, headers included, and every cut: all of them are written, and of the bytes in
front of the cut every series of calls that is long enough reads exactly the complete messages
and fails from then on, with `header_data` as the last complete header has set it, if and only
if the cut is not within the 39 bytes behind the first five of a header, or right in front of
them. -/
theorem cut_iff (calls : List WriteCall) (cut : ℕ) :
    ∃ f, writeMsgs calls ⟨[], []⟩ = some f ∧
      ((∀ (mems : List Memory) (r : MsgReader), (complete cut calls).length < mems.length →
        r.file = f.bytes.take cut →
        ∃ e, r.readMsgs mems = some ((receivedAll r.headerData (complete cut calls)).map some ++
            List.replicate (mems.length - (complete cut calls).length) none, e) ∧
          e.headerData = lastHeader r.headerData (complete cut calls)) ↔
        ¬BreaksHeader cut calls) := by
  obtain ⟨f, hf, hbytes⟩ := exists_writeMsgs calls ⟨[], []⟩
  have hfile : f.bytes = calls.flatMap WriteCall.bytes := hbytes
  refine ⟨f, hf, ?_⟩
  rw [hfile]
  constructor
  · intro h hbreak
    -- one call more than there are complete messages should fail, and does not
    let r : MsgReader := ⟨(calls.flatMap WriteCall.bytes).take cut, fun _ => 0,
      ⟨0, 0, 0, (0, 0), (0, 0), (0, 0)⟩⟩
    let mems : List Memory := List.replicate ((complete cut calls).length + 1) fun _ => 0
    have hlen : mems.length = (complete cut calls).length + 1 := List.length_replicate
    obtain ⟨e, he, -⟩ := h mems r (by omega) rfl
    obtain ⟨answers, e', he', hnone⟩ := readMsgs_torn (r := r) hbreak rfl hlen
    obtain ⟨rfl, -⟩ := Prod.mk.inj (Option.some.inj (he'.symm.trans he))
    refine hnone (List.mem_append_right _ (List.mem_replicate.mpr ⟨?_, rfl⟩))
    omega
  · intro hcut mems r hlen hr
    exact readMsgs_cut hcut hr hlen.le

/-- **A header that breaks off is taken for a header**: of one with six descriptors, only the
first five bytes have come. The call succeeds, and installs what has been on the stack. -/
theorem torn_header_installed :
    let calls : List WriteCall :=
      [⟨fun _ => 0, ⟨3, .header⟩, some ⟨1, 1, 0, (4, 5), (6, 7), (8, 9)⟩, fun _ => rfl⟩]
    ∃ f, writeMsgs calls ⟨[], []⟩ = some f ∧ complete 5 calls = [] ∧
      (MsgReader.readMsgs [fun _ => 1, fun _ => 1]
        ⟨f.bytes.take 5, fun _ => 0, ⟨0, 0, 0, (0, 0), (0, 0), (0, 0)⟩⟩).map Prod.fst =
          some [some ⟨1, 3, 16843009, 16843009, 16843009, (16843009, 16843009),
            (16843009, 16843009), (16843009, 16843009)⟩, none] := by
  intro calls
  exact ⟨_, rfl, rfl, rfl⟩

end QuAPI
