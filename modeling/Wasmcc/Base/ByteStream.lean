import Wasmcc.Basis.Cursor
import Wasmcc.Basis.Runs

/-!
# Byte streams

`ByteStream` of `base/stream.h`: a buffer and a position in it. The readers of the parser run over a
list cursor instead, which is what a `Stream` is documented to be.

`ReadBytes` makes an iterator of the position after a cast to `int32_t`, and another one of the
number of bytes; the other calls use the position as it is. An iterator outside the buffer, or a
range that ends before it begins, is `undefined` behaviour. `byteStream_refines_iff` says in which
runs a stream is a cursor, and `byteStream_refines` that it is one in all runs over a buffer of less
than `2 ^ 31` bytes.
-/

open Basis

namespace Wasmcc

structure ByteStream where
  buffer : List Byte
  position : ℕ := 0
deriving DecidableEq

namespace ByteStream

open Effect

inductive Stop where
  /-- `EndOfStreamException` -/
  | endOfStream
  | undefined
deriving DecidableEq, Repr

/-- A cast to `int32_t`. -/
def int32 (n : ℕ) : ℤ := (BitVec.ofNat 32 n).toInt

def hasRemaining (s : ByteStream) : Bool := s.position < s.buffer.length

def bytesConsumed (s : ByteStream) : ℕ := s.position

def readByte : Effect Stop ByteStream Byte := fun s =>
  match s.buffer[s.position]? with
  | some b => (.ok b, { s with position := s.position + 1 })
  | none => (.error .endOfStream, s)

def peekByte : Effect Stop ByteStream Byte := fun s =>
  match s.buffer[s.position]? with
  | some b => (.ok b, s)
  | none => (.error .endOfStream, s)

/-- The iterators count from `begin()`. -/
def readBytes (n : ℕ) : Effect Stop ByteStream (List Byte) := fun s =>
  let remainder := s.buffer.length - s.position
  if remainder < n then (.error .endOfStream, s)
  else
    let start := int32 s.position
    let stop := start + int32 n
    if 0 ≤ start ∧ start ≤ stop ∧ stop ≤ s.buffer.length then
      (.ok ((s.buffer.drop start.toNat).take (stop - start).toNat),
        { s with position := s.position + n })
    else (.error .undefined, s)

def skip (n : ℕ) : Effect Stop ByteStream Unit := fun s =>
  let remainder := s.buffer.length - s.position
  if remainder < n then (.error .endOfStream, s)
  else (.ok (), { s with position := s.position + n })

/-! ### Calls -/

inductive Call where
  | readByte
  | peekByte
  | readBytes (n : ℕ)
  | skip (n : ℕ)
deriving DecidableEq, Repr

inductive Answer where
  | byte (b : Byte)
  | bytes (bs : List Byte)
  | none
deriving DecidableEq

def Call.perform : Call → Effect Stop ByteStream Answer
  | .readByte => do return .byte (← ByteStream.readByte)
  | .peekByte => do return .byte (← ByteStream.peekByte)
  | .readBytes n => do return .bytes (← ByteStream.readBytes n)
  | .skip n => do
    ByteStream.skip n
    return .none

/-- The call on a list cursor. -/
def Call.onCursor : Call → Reader Stop Answer
  | .readByte => do return .byte (← Reader.readByte .endOfStream)
  | .peekByte => fun c =>
    match c.rest with
    | [] => .error .endOfStream
    | b :: _ => .ok (.byte b, c)
  | .readBytes n => do return .bytes (← Reader.readBytes .endOfStream n)
  | .skip n => do
    Reader.skip .endOfStream n
    return .none

/-- The cursor after a call. One that throws leaves it where it is. -/
def Call.after (call : Call) (c : Cursor) : Cursor :=
  match call.onCursor c with
  | .ok (_, c') => c'
  | .error _ => c

/-- A stream and a cursor get the same calls. -/
def step (p : ByteStream × Cursor) (call : Call) : ByteStream × Cursor :=
  ((call.perform p.1).2, call.after p.2)

/-- A call on a stream does what it does on the cursor. -/
structure Agrees (buffer : List Byte) (p : ByteStream × Cursor) (call : Call) : Prop where
  answer : (call.perform p.1).1 = (call.onCursor p.2).map Prod.fst
  stream : (call.perform p.1).2 = ⟨buffer, (call.after p.2).consumed⟩
  consumed : (step p call).1.bytesConsumed ≤ buffer.length
  remaining : (step p call).1.hasRemaining = true ↔ (step p call).1.bytesConsumed < buffer.length
  rest : (call.after p.2).rest = buffer.drop (step p call).1.bytesConsumed

/-- Where `ReadBytes` finds the bytes that it is asked for, if there are so many. -/
def Finds (s : ByteStream) : Call → Prop
  | .readBytes n => n ≤ s.buffer.length - s.position → n < 2 ^ 31 ∧ s.position % 2 ^ 32 < 2 ^ 31 ∧
    (s.buffer.drop (s.position % 2 ^ 32)).take n = (s.buffer.drop s.position).take n
  | _ => True

/-- The stream and the cursor are at the same place of the buffer. -/
structure Inv (buffer : List Byte) (p : ByteStream × Cursor) : Prop where
  stream : p.1 = ⟨buffer, p.2.consumed⟩
  rest : p.2.rest = buffer.drop p.2.consumed
  le : p.2.consumed ≤ buffer.length

/-! ### The cast -/

theorem int32_nonneg_iff (n : ℕ) : 0 ≤ int32 n ↔ n % 2 ^ 32 < 2 ^ 31 := by
  rw [int32, BitVec.toInt_ofNat', Int.bmod]
  omega

theorem int32_of_lt {n : ℕ} (h : n % 2 ^ 32 < 2 ^ 31) : int32 n = (n % 2 ^ 32 : ℕ) := by
  rw [int32, BitVec.toInt_ofNat', Int.bmod]
  omega

/-! ### The cursor -/

section Cursor

variable {buffer : List Byte} {p : ByteStream × Cursor} {n : ℕ}

/-- Whether bytes are left, at a place of a buffer. -/
theorem onCursor_readByte (n : ℕ) : Call.onCursor .readByte ⟨buffer.drop n, n⟩ =
    match buffer[n]? with
    | some b => .ok (.byte b, ⟨buffer.drop (n + 1), n + 1⟩)
    | none => .error .endOfStream := by
  have hhead : (buffer.drop n).head? = buffer[n]? := List.head?_drop
  have htail : (buffer.drop n).tail = buffer.drop (n + 1) := List.tail_drop
  cases hdrop : buffer.drop n with
  | nil =>
    rw [← hhead, hdrop]
    rfl
  | cons b rest =>
    rw [← hhead, ← htail, hdrop]
    rfl

theorem onCursor_peekByte (n : ℕ) : Call.onCursor .peekByte ⟨buffer.drop n, n⟩ =
    match buffer[n]? with
    | some b => .ok (.byte b, ⟨buffer.drop n, n⟩)
    | none => .error .endOfStream := by
  have hhead : (buffer.drop n).head? = buffer[n]? := List.head?_drop
  rw [← hhead, Call.onCursor]
  cases buffer.drop n <;> rfl

theorem onCursor_readBytes (n k : ℕ) : Call.onCursor (.readBytes k) ⟨buffer.drop n, n⟩ =
    if buffer.length - n < k then .error .endOfStream
    else .ok (.bytes ((buffer.drop n).take k), ⟨buffer.drop (n + k), n + k⟩) := by
  rw [Call.onCursor, Reader.bind_apply, Reader.readBytes]
  dsimp only
  rw [List.length_drop, List.drop_drop]
  by_cases hlt : buffer.length - n < k
  · rw [if_pos hlt, if_pos hlt]
  · rw [if_neg hlt, if_neg hlt]
    rfl

theorem onCursor_skip (n k : ℕ) : Call.onCursor (.skip k) ⟨buffer.drop n, n⟩ =
    if buffer.length - n < k then .error .endOfStream
    else .ok (.none, ⟨buffer.drop (n + k), n + k⟩) := by
  rw [Call.onCursor, Reader.bind_apply, Reader.skip]
  dsimp only
  rw [List.length_drop, List.drop_drop]
  by_cases hlt : buffer.length - n < k
  · rw [if_pos hlt, if_pos hlt]
  · rw [if_neg hlt, if_neg hlt]
    rfl

/-- **The cursor** stays at a place of the buffer. -/
theorem after_eq (hn : n ≤ buffer.length) (call : Call) :
    ∃ m ≤ buffer.length, call.after ⟨buffer.drop n, n⟩ = ⟨buffer.drop m, m⟩ := by
  cases call with
  | readByte =>
    rw [Call.after, onCursor_readByte]
    cases hb : buffer[n]? with
    | none => exact ⟨n, hn, rfl⟩
    | some b => exact ⟨n + 1, (List.getElem?_eq_some_iff.mp hb).1, rfl⟩
  | peekByte =>
    rw [Call.after, onCursor_peekByte]
    cases buffer[n]? <;> exact ⟨n, hn, rfl⟩
  | readBytes k =>
    -- a call that throws leaves the cursor where it is
    rw [Call.after, onCursor_readBytes]
    split_ifs with hlt
    · exact ⟨n, hn, rfl⟩
    · exact ⟨n + k, by omega, rfl⟩
  | skip k =>
    rw [Call.after, onCursor_skip]
    split_ifs with hlt
    · exact ⟨n, hn, rfl⟩
    · exact ⟨n + k, by omega, rfl⟩

/-- What a call that agrees has to do. -/
theorem agrees_iff (hn : n ≤ buffer.length) (call : Call) :
    Agrees buffer (⟨buffer, n⟩, ⟨buffer.drop n, n⟩) call ↔
      call.perform ⟨buffer, n⟩ = ((call.onCursor ⟨buffer.drop n, n⟩).map Prod.fst,
        ⟨buffer, (call.after ⟨buffer.drop n, n⟩).consumed⟩) := by
  obtain ⟨m, hm, hafter⟩ := after_eq hn call
  constructor
  · exact fun h => Prod.ext h.answer h.stream
  · intro h
    -- answer and stream agree, so both went to the same place
    have hstream : (call.perform ⟨buffer, n⟩).2 = ⟨buffer, m⟩ := by rw [h, hafter]
    refine ⟨congrArg Prod.fst h, congrArg Prod.snd h, ?_, ?_, ?_⟩
    · rw [step, hstream]
      exact hm
    · rw [step, hstream, hasRemaining, decide_eq_true_iff]
      rfl
    · rw [step, hstream, hafter]
      rfl

end Cursor

/-! ### The stream -/

section Stream

variable {buffer : List Byte} {n : ℕ}

theorem readByte_agrees (hn : n ≤ buffer.length) :
    Agrees buffer (⟨buffer, n⟩, ⟨buffer.drop n, n⟩) .readByte := by
  rw [agrees_iff hn, Call.after, onCursor_readByte, Call.perform, bind_pure_apply,
    ByteStream.readByte]
  dsimp only
  cases buffer[n]? <;> rfl

theorem peekByte_agrees (hn : n ≤ buffer.length) :
    Agrees buffer (⟨buffer, n⟩, ⟨buffer.drop n, n⟩) .peekByte := by
  rw [agrees_iff hn, Call.after, onCursor_peekByte, Call.perform, bind_pure_apply,
    ByteStream.peekByte]
  dsimp only
  cases buffer[n]? <;> rfl

theorem skip_agrees (hn : n ≤ buffer.length) (k : ℕ) :
    Agrees buffer (⟨buffer, n⟩, ⟨buffer.drop n, n⟩) (.skip k) := by
  rw [agrees_iff hn, Call.after, onCursor_skip, Call.perform, bind_pure_apply, ByteStream.skip]
  dsimp only
  split_ifs <;> rfl

/-- The range that the casts lead to is in the buffer, and has as many bytes as were asked for. -/
theorem range_iff (hn : n ≤ buffer.length) {k : ℕ} (hle : k ≤ buffer.length - n) :
    (0 ≤ int32 n ∧ int32 n ≤ int32 n + int32 k ∧ int32 n + int32 k ≤ buffer.length) ↔
      n % 2 ^ 32 < 2 ^ 31 ∧ k % 2 ^ 32 < 2 ^ 31 := by
  rw [← int32_nonneg_iff, ← int32_nonneg_iff]
  refine ⟨fun ⟨hstart, hstop, _⟩ => ⟨hstart, by omega⟩, fun ⟨hstart, hcount⟩ => ?_⟩
  have hmodn := Nat.mod_le n (2 ^ 32)
  have hmodk := Nat.mod_le k (2 ^ 32)
  rw [int32_of_lt ((int32_nonneg_iff n).mp hstart), int32_of_lt ((int32_nonneg_iff k).mp hcount)]
  omega

/-- Only if the cast of the number loses nothing are as many read as were asked for. -/
theorem take_eq_iff (hn : n ≤ buffer.length) {k : ℕ} (hle : k ≤ buffer.length - n)
    (hcount : k % 2 ^ 32 < 2 ^ 31) :
    (buffer.drop (n % 2 ^ 32)).take (k % 2 ^ 32) = (buffer.drop n).take k ↔
      k < 2 ^ 31 ∧ (buffer.drop (n % 2 ^ 32)).take k = (buffer.drop n).take k := by
  have hmodn := Nat.mod_le n (2 ^ 32)
  have hmodk := Nat.mod_le k (2 ^ 32)
  constructor
  · intro hbytes
    -- the read is as long as the count after the cast, so the cast was exact
    have hlength := congrArg List.length hbytes
    rw [List.length_take_of_le (by rw [List.length_drop]; omega),
      List.length_take_of_le (by rw [List.length_drop]; omega)] at hlength
    rw [hlength] at hbytes
    exact ⟨by omega, hbytes⟩
  · rintro ⟨hk, hbytes⟩
    -- a count below 2^31 is not changed by the cast
    rwa [Nat.mod_eq_of_lt (show k < 2 ^ 32 by omega)]

/-- **`ReadBytes`** agrees with the cursor exactly if the casts lead to the bytes in question. -/
theorem readBytes_agrees_iff (hn : n ≤ buffer.length) (k : ℕ) :
    Agrees buffer (⟨buffer, n⟩, ⟨buffer.drop n, n⟩) (.readBytes k) ↔
      Finds ⟨buffer, n⟩ (.readBytes k) := by
  rw [agrees_iff hn, Call.after, onCursor_readBytes, Call.perform, bind_pure_apply,
    ByteStream.readBytes, Finds]
  dsimp only
  by_cases hlt : buffer.length - n < k
  · rw [if_pos hlt, if_pos hlt]
    exact iff_of_true rfl fun hle => absurd hle (Nat.not_le_of_lt hlt)
  have hle : k ≤ buffer.length - n := Nat.le_of_not_lt hlt
  rw [if_neg hlt, if_neg hlt, imp_iff_right hle, add_sub_cancel_left]
  by_cases hrange : n % 2 ^ 32 < 2 ^ 31 ∧ k % 2 ^ 32 < 2 ^ 31
  · -- the bytes in the range are those that come next
    obtain ⟨hpos, hcount⟩ := hrange
    rw [if_pos ((range_iff hn hle).mpr ⟨hpos, hcount⟩), int32_of_lt hpos, int32_of_lt hcount,
      Int.toNat_natCast, Int.toNat_natCast, and_left_comm, ← take_eq_iff hn hle hcount,
      and_iff_right hpos]
    constructor
    · intro h
      exact Answer.bytes.inj (Except.ok.inj (congrArg Prod.fst h))
    · intro hbytes
      rw [hbytes]
      rfl
  · -- the range is none
    rw [if_neg fun h => hrange ((range_iff hn hle).mp h)]
    refine iff_of_false (fun h => ?_) ?_
    · cases congrArg Prod.fst h
    · rintro ⟨hk, hpos, -⟩
      exact hrange ⟨hpos, lt_of_le_of_lt (Nat.mod_le k _) hk⟩

theorem Inv.exists_eq {p : ByteStream × Cursor} (h : Inv buffer p) :
    ∃ n ≤ buffer.length, p = (⟨buffer, n⟩, ⟨buffer.drop n, n⟩) := by
  obtain ⟨s, rest, n⟩ := p
  exact ⟨n, h.le, Prod.ext h.stream (congrArg (Cursor.mk · n) h.rest)⟩

theorem Inv.agrees_iff {p : ByteStream × Cursor} (h : Inv buffer p) (call : Call) :
    Agrees buffer p call ↔ Finds p.1 call := by
  obtain ⟨n, hn, rfl⟩ := h.exists_eq
  cases call with
  | readByte => exact iff_of_true (readByte_agrees hn) trivial
  | peekByte => exact iff_of_true (peekByte_agrees hn) trivial
  | readBytes k => exact readBytes_agrees_iff hn k
  | skip k => exact iff_of_true (skip_agrees hn k) trivial

/-- The invariant after a call that agrees. -/
theorem Agrees.inv {p : ByteStream × Cursor} {call : Call} (hagrees : Agrees buffer p call) :
    Inv buffer (step p call) where
  stream := hagrees.stream
  rest := by
    have hrest := hagrees.rest
    rwa [ByteStream.step, hagrees.stream] at hrest
  le := by
    have hle := hagrees.consumed
    rwa [ByteStream.step, hagrees.stream] at hle

end Stream

/-! ### Runs -/

/-- A stream over a buffer, and a cursor at its beginning. -/
def start (buffer : List Byte) : ByteStream × Cursor := (⟨buffer, 0⟩, ⟨buffer, 0⟩)

theorem Inv.start (buffer : List Byte) : Inv buffer (start buffer) := ⟨rfl, rfl, Nat.zero_le _⟩

/-- **When a stream is a cursor**: every call of a run does what it does on the list, exactly if
every `ReadBytes` that finds as many bytes as it is asked for finds them at the place that the casts
lead to, and these are less than `2 ^ 31`. -/
theorem byteStream_refines_iff (buffer : List Byte) (calls : List Call) :
    EachStep step (Agrees buffer) (start buffer) calls ↔
      EachStep step (fun p => Finds p.1) (start buffer) calls :=
  EachStep.congr (fun _ call (h : Inv buffer _) hfinds => ((h.agrees_iff call).mpr hfinds).inv)
    (fun _ call h => h.agrees_iff call) (Inv.start buffer)

/-- In a short buffer the casts change nothing. -/
theorem Inv.finds {buffer : List Byte} {p : ByteStream × Cursor} (h : Inv buffer p)
    (hlength : buffer.length < 2 ^ 31) (call : Call) : Finds p.1 call := by
  obtain ⟨n, hn, rfl⟩ := h.exists_eq
  cases call with
  | readBytes k =>
    intro hle
    dsimp only at hle ⊢
    rw [Nat.mod_eq_of_lt (show n < 2 ^ 32 by omega)]
    exact ⟨by omega, by omega, rfl⟩
  | readByte | peekByte | skip k => trivial

/-- **All streams over short buffers** are cursors. -/
theorem byteStream_refines {buffer : List Byte} (h : buffer.length < 2 ^ 31) (calls : List Call) :
    EachStep step (Agrees buffer) (start buffer) calls := by
  have hagrees (p : ByteStream × Cursor) (call : Call) (hp : Inv buffer p) :
      Agrees buffer p call := (hp.agrees_iff call).mpr (hp.finds h call)
  refine (EachStep.congr (Q := fun _ _ => True) (fun p call hp _ => (hagrees p call hp).inv)
    (fun p call hp => iff_of_true (hagrees p call hp) trivial) (Inv.start buffer)).mpr ?_
  exact eachStep_iff_forall.mpr fun _ _ _ => trivial

theorem readBytes_wraps_of {buffer : List Byte} (h : buffer.length = 2 ^ 31) :
    ¬EachStep step (Agrees buffer) (start buffer) [.readBytes (2 ^ 31)] := by
  rintro ⟨hagrees, -⟩
  have hfinds := ((Inv.start buffer).agrees_iff _).mp hagrees
  have hlt : 2 ^ 31 < 2 ^ 31 := (hfinds (show 2 ^ 31 ≤ buffer.length - 0 by omega)).1
  exact absurd hlt (lt_irrefl _)

/-- `2 ^ 31` bytes at once: the range ends before it begins. -/
theorem readBytes_wraps : ¬EachStep step (Agrees (List.replicate (2 ^ 31) 0#8))
    (start (List.replicate (2 ^ 31) 0#8)) [.readBytes (2 ^ 31)] :=
  readBytes_wraps_of List.length_replicate

end ByteStream

end Wasmcc
