import RtThread.Lib.RingBlock
import RtThread.Lib.Transition

/-!
The ring buffers of `ringbuffer.c`. The mirror bit of an index flips when the index wraps: equal indices mean empty with
equal mirrors and full with different ones.
-/

namespace RtThread

open Transition Function List Option Ring Nat

structure RingBuffer where
  bufferPtr : ℕ → BitVec 8
  readMirror : Bool
  readIndex : ℕ
  writeMirror : Bool
  writeIndex : ℕ
  bufferSize : ℕ

inductive RingBufferState
  | empty
  | full
  | halffull
  deriving DecidableEq

def alignDown (size : BitVec 16) : BitVec 16 := size &&& ~~~(4 - 1)

def ringbufferInit (pool : ℕ → BitVec 8) (size : BitVec 16) : RingBuffer where
  bufferPtr := pool
  readMirror := false
  readIndex := 0
  writeMirror := false
  writeIndex := 0
  bufferSize := (alignDown size).toNat

def slice (ptr : List (BitVec 8)) (start len : ℕ) : Option (List (BitVec 8)) :=
  if start + len ≤ ptr.length then some ((ptr.drop start).take len) else none

namespace RingBuffer

open RingBuffer

def status (rb : RingBuffer) : RingBufferState :=
  if rb.readIndex = rb.writeIndex then
    if rb.readMirror = rb.writeMirror then .empty else .full
  else .halffull

def dataLen (rb : RingBuffer) : ℕ :=
  match rb.status with
  | .empty => 0
  | .full => rb.bufferSize
  | .halffull =>
    if rb.readIndex < rb.writeIndex then rb.writeIndex - rb.readIndex
    else rb.bufferSize - (rb.readIndex - rb.writeIndex)

def spaceLen (rb : RingBuffer) : ℕ := rb.bufferSize - rb.dataLen

def Before (size index length : ℕ) : Prop := length < size - index

instance (size index length : ℕ) : Decidable (Before size index length) := Nat.decLt _ _

def store (rb : RingBuffer) (ptr : List (BitVec 8)) (length : ℕ) : Option RingBuffer :=
  if Before rb.bufferSize rb.writeIndex length then
    (slice ptr 0 length).map (fun xs => { rb with
      bufferPtr := Ring.copyIn rb.bufferPtr rb.writeIndex xs, writeIndex := rb.writeIndex + length })
  else
    let room := rb.bufferSize - rb.writeIndex
    (slice ptr 0 room).bind (fun xs => (slice ptr room (length - room)).map (fun ys => { rb with
      bufferPtr := Ring.copyIn (Ring.copyIn rb.bufferPtr rb.writeIndex xs) 0 ys
      writeMirror := !rb.writeMirror
      writeIndex := length - room }))

def put (rb : RingBuffer) (ptr : List (BitVec 8)) (length : BitVec 16) : Option (RingBuffer × ℕ) :=
  let size := rb.spaceLen
  if size = 0 then some (rb, 0)
  else
    let length := if size < length.toNat then size else length.toNat
    (rb.store ptr length).map (fun rb => (rb, length))

def putForce (rb : RingBuffer) (ptr : List (BitVec 8)) (length : BitVec 16) : Option (RingBuffer × ℕ) :=
  let space := rb.spaceLen
  let length := if space < length.toNat then rb.bufferSize else length.toNat
  (rb.store ptr length).map (fun rb' =>
    if space < length then
      ({ rb' with
        readMirror := if Before rb.bufferSize rb.writeIndex length then rb.readMirror else !rb.readMirror
        readIndex := rb'.writeIndex }, length)
    else (rb', length))

def get (rb : RingBuffer) (length : BitVec 16) : RingBuffer × List (BitVec 8) × ℕ :=
  let size := rb.dataLen
  if size = 0 then (rb, [], 0)
  else
    let length := if size < length.toNat then size else length.toNat
    if Before rb.bufferSize rb.readIndex length then
      ({ rb with readIndex := rb.readIndex + length }, Ring.copyOut rb.bufferPtr rb.readIndex length, length)
    else
      let room := rb.bufferSize - rb.readIndex
      ({ rb with readMirror := !rb.readMirror, readIndex := length - room },
        Ring.copyOut rb.bufferPtr rb.readIndex room ++ Ring.copyOut rb.bufferPtr 0 (length - room), length)

def putchar (rb : RingBuffer) (ch : BitVec 8) : RingBuffer × ℕ :=
  if rb.spaceLen = 0 then (rb, 0)
  else
    let rb := { rb with bufferPtr := update rb.bufferPtr rb.writeIndex ch }
    if rb.writeIndex = rb.bufferSize - 1 then ({ rb with writeMirror := !rb.writeMirror, writeIndex := 0 }, 1)
    else ({ rb with writeIndex := rb.writeIndex + 1 }, 1)

def putcharForce (rb : RingBuffer) (ch : BitVec 8) : RingBuffer × ℕ :=
  let oldState := rb.status
  let rb := { rb with bufferPtr := update rb.bufferPtr rb.writeIndex ch }
  if rb.writeIndex = rb.bufferSize - 1 then
    let rb := { rb with writeMirror := !rb.writeMirror, writeIndex := 0 }
    if oldState = .full then ({ rb with readMirror := !rb.readMirror, readIndex := rb.writeIndex }, 1) else (rb, 1)
  else
    let rb := { rb with writeIndex := rb.writeIndex + 1 }
    if oldState = .full then ({ rb with readIndex := rb.writeIndex }, 1) else (rb, 1)

def getchar (rb : RingBuffer) : RingBuffer × Option (BitVec 8) × ℕ :=
  if rb.dataLen = 0 then (rb, none, 0)
  else
    let ch := rb.bufferPtr rb.readIndex
    if rb.readIndex = rb.bufferSize - 1 then
      ({ rb with readMirror := !rb.readMirror, readIndex := 0 }, some ch, 1)
    else ({ rb with readIndex := rb.readIndex + 1 }, some ch, 1)

def contents (rb : RingBuffer) : List (BitVec 8) :=
  Ring.contents rb.bufferPtr rb.bufferSize rb.readIndex rb.dataLen

structure Valid (rb : RingBuffer) : Prop where
  size_le : rb.bufferSize ≤ 32767
  read_lt : rb.readIndex < rb.bufferSize
  write_lt : rb.writeIndex < rb.bufferSize
  same : rb.readMirror = rb.writeMirror → rb.readIndex ≤ rb.writeIndex
  flipped : rb.readMirror ≠ rb.writeMirror → rb.writeIndex ≤ rb.readIndex

structure Encodes (rb : RingBuffer) (len : ℕ) : Prop where
  read_lt : rb.readIndex < rb.bufferSize
  write_lt : rb.writeIndex < rb.bufferSize
  len_le : len ≤ rb.bufferSize
  ahead : rb.readIndex + len = rb.writeIndex + if rb.readMirror = rb.writeMirror then 0 else rb.bufferSize

variable {rb : RingBuffer} {len k : ℕ}

section

variable (h : rb.Encodes len)

include h

theorem Encodes.dataLen_eq : rb.dataLen = len := by
  obtain ⟨-, -, hle, hahead⟩ := h
  unfold dataLen status
  split_ifs at hahead ⊢ <;> dsimp only <;> omega

theorem Encodes.ring : Ring.Valid rb.bufferSize rb.readIndex rb.writeIndex len := by
  refine ⟨h.len_le, h.read_lt, h.write_lt, ?_⟩
  rw [h.ahead]
  split_ifs
  · rw [add_zero, mod_eq_of_lt h.write_lt]
  · rw [add_mod_right, mod_eq_of_lt h.write_lt]

theorem Encodes.contents_eq : rb.contents = Ring.contents rb.bufferPtr rb.bufferSize rb.readIndex len := by
  rw [contents, h.dataLen_eq]

theorem Encodes.valid (hsize : rb.bufferSize ≤ 32767) : rb.Valid := by
  obtain ⟨hr, hw, hle, hahead⟩ := h
  refine ⟨hsize, hr, hw, ?_, ?_⟩
  · intro hm
    rw [if_pos hm] at hahead
    omega
  · intro hm
    rw [if_neg hm] at hahead
    omega

end

theorem Valid.encodes (h : rb.Valid) : rb.Encodes rb.dataLen := by
  have hr := h.read_lt
  have hw := h.write_lt
  have : ∃ len, rb.Encodes len := by
    by_cases hm : rb.readMirror = rb.writeMirror
    · have := h.same hm
      exact ⟨rb.writeIndex - rb.readIndex, hr, hw, by omega, by rw [if_pos hm]; omega⟩
    · have := h.flipped hm
      exact ⟨rb.writeIndex + rb.bufferSize - rb.readIndex, hr, hw, by omega, by rw [if_neg hm]; omega⟩
  obtain ⟨len, hlen⟩ := this
  rwa [hlen.dataLen_eq]

theorem length_contents (rb : RingBuffer) : rb.contents.length = rb.dataLen := Ring.length_contents ..

def advanceRead (rb : RingBuffer) (k : ℕ) : RingBuffer :=
  { rb with
    readMirror := if Before rb.bufferSize rb.readIndex k then rb.readMirror else !rb.readMirror
    readIndex := if Before rb.bufferSize rb.readIndex k then rb.readIndex + k else k - (rb.bufferSize - rb.readIndex) }

def advanceWrite (rb : RingBuffer) (buffer : ℕ → BitVec 8) (k : ℕ) : RingBuffer :=
  { rb with
    bufferPtr := buffer
    writeMirror := if Before rb.bufferSize rb.writeIndex k then rb.writeMirror else !rb.writeMirror
    writeIndex :=
      if Before rb.bufferSize rb.writeIndex k then rb.writeIndex + k else k - (rb.bufferSize - rb.writeIndex) }

theorem advanceRead_before (hb : Before rb.bufferSize rb.readIndex k) :
    rb.advanceRead k = { rb with readIndex := rb.readIndex + k } := by
  simp [advanceRead, hb]

theorem advanceRead_wrapped (hb : ¬ Before rb.bufferSize rb.readIndex k) :
    rb.advanceRead k = { rb with
      readMirror := !rb.readMirror, readIndex := k - (rb.bufferSize - rb.readIndex) } := by
  simp [advanceRead, hb]

variable {buffer : ℕ → BitVec 8}

theorem advanceWrite_before (hb : Before rb.bufferSize rb.writeIndex k) :
    rb.advanceWrite buffer k = { rb with bufferPtr := buffer, writeIndex := rb.writeIndex + k } := by
  simp [advanceWrite, hb]

theorem advanceWrite_wrapped (hb : ¬ Before rb.bufferSize rb.writeIndex k) :
    rb.advanceWrite buffer k = { rb with
      bufferPtr := buffer, writeMirror := !rb.writeMirror, writeIndex := k - (rb.bufferSize - rb.writeIndex) } := by
  simp [advanceWrite, hb]

theorem Encodes.advanceRead (h : rb.Encodes len) (hk : k ≤ len) : (rb.advanceRead k).Encodes (len - k) := by
  obtain ⟨hr, hw, hle, hahead⟩ := h
  by_cases hb : Before rb.bufferSize rb.readIndex k
  · have hroom : k < rb.bufferSize - rb.readIndex := hb
    rw [advanceRead_before hb]
    exact ⟨by dsimp only; omega, hw, by dsimp only; omega, by dsimp only; omega⟩
  · have hroom : ¬ k < rb.bufferSize - rb.readIndex := hb
    rw [advanceRead_wrapped hb]
    refine ⟨by dsimp only; omega, hw, by dsimp only; omega, ?_⟩
    dsimp only
    -- the bytes go past the end, so the write side has wrapped and the mirrors differ
    split_ifs at hahead with hm
    · omega
    · rw [if_pos (by cases hr : rb.readMirror <;> simp_all)]
      omega

theorem Encodes.advanceWrite (h : rb.Encodes len) (hk : len + k ≤ rb.bufferSize) (buffer : ℕ → BitVec 8) :
    (rb.advanceWrite buffer k).Encodes (len + k) := by
  obtain ⟨hr, hw, -, hahead⟩ := h
  by_cases hb : Before rb.bufferSize rb.writeIndex k
  · have hroom : k < rb.bufferSize - rb.writeIndex := hb
    rw [advanceWrite_before hb]
    exact ⟨hr, by dsimp only; omega, hk, by dsimp only; omega⟩
  · have hroom : ¬ k < rb.bufferSize - rb.writeIndex := hb
    rw [advanceWrite_wrapped hb]
    split_ifs at hahead with hm
    · refine ⟨hr, by dsimp only; omega, hk, ?_⟩
      dsimp only
      rw [if_neg (by simp [hm])]
      omega
    · omega

theorem Valid.advanceRead (h : rb.Valid) (hk : k ≤ rb.dataLen) :
    (rb.advanceRead k).Valid ∧ (rb.advanceRead k).contents = rb.contents.drop k := by
  have henc := h.encodes.advanceRead hk
  refine ⟨henc.valid h.size_le, ?_⟩
  have hindex : (rb.advanceRead k).readIndex = (rb.readIndex + k) % rb.bufferSize := by
    have hr := h.read_lt
    have hle := hk.trans h.encodes.len_le
    by_cases hb : Before rb.bufferSize rb.readIndex k
    · have hroom : k < rb.bufferSize - rb.readIndex := hb
      rw [advanceRead_before hb, mod_eq_of_lt (by omega)]
    · have hroom : ¬ k < rb.bufferSize - rb.readIndex := hb
      rw [advanceRead_wrapped hb, mod_of_wrapped (by omega) (by omega)]
      dsimp only
      omega
  rw [henc.contents_eq, hindex]
  exact contents_drop hk

theorem Valid.advanceWrite (h : rb.Valid) {xs : List (BitVec 8)}
    (hw : Ring.Written rb.bufferSize rb.writeIndex xs rb.bufferPtr buffer)
    (hlen : rb.dataLen + xs.length ≤ rb.bufferSize) :
    (rb.advanceWrite buffer xs.length).Valid ∧
      (rb.advanceWrite buffer xs.length).contents = rb.contents ++ xs := by
  have henc := h.encodes.advanceWrite hlen buffer
  refine ⟨henc.valid h.size_le, ?_⟩
  rw [henc.contents_eq]
  exact h.encodes.ring.contents_write hlen hw

theorem slice_of_le {ptr : List (BitVec 8)} {start len : ℕ} (h : start + len ≤ ptr.length) :
    slice ptr start len = some ((ptr.drop start).take len) := if_pos h

theorem store_eq (hw : rb.writeIndex < rb.bufferSize) (ptr : List (BitVec 8)) (hk : k ≤ rb.bufferSize)
    (hp : k ≤ ptr.length) :
    ∃ buffer, Ring.Written rb.bufferSize rb.writeIndex (ptr.take k) rb.bufferPtr buffer ∧
      rb.store ptr k = some (rb.advanceWrite buffer k) := by
  have hlen : (ptr.take k).length = k := length_take_of_le hp
  by_cases hb : Before rb.bufferSize rb.writeIndex k
  · have hroom : k < rb.bufferSize - rb.writeIndex := hb
    refine ⟨_, written_copyIn (by omega), ?_⟩
    rw [advanceWrite_before hb, store, if_pos hb, slice_of_le (by omega), drop_zero, map_some]
  · have hroom : ¬ k < rb.bufferSize - rb.writeIndex := hb
    refine ⟨_, written_copyIn_copyIn hw (by omega) (by omega), ?_⟩
    rw [advanceWrite_wrapped hb, store, if_neg hb]
    dsimp only
    rw [slice_of_le (by omega), slice_of_le (by omega), drop_zero, bind_some, map_some,
      take_take, drop_take, min_eq_left (by omega)]

theorem Valid.put (h : rb.Valid) (ptr : List (BitVec 8)) (length : BitVec 16) (hp : length.toNat ≤ ptr.length) :
    ∃ rb', rb.put ptr length = some (rb', min length.toNat rb.spaceLen) ∧ rb'.Valid ∧
      rb'.bufferSize = rb.bufferSize ∧ rb'.contents = rb.contents ++ ptr.take (min length.toNat rb.spaceLen) := by
  have hspace : rb.spaceLen = rb.bufferSize - rb.dataLen := rfl
  have hcut : (if rb.spaceLen < length.toNat then rb.spaceLen else length.toNat) = min length.toNat rb.spaceLen := by
    split_ifs <;> omega
  unfold RingBuffer.put
  dsimp only
  rw [hcut]
  by_cases hz : rb.spaceLen = 0
  · simp [hz, h]
  · obtain ⟨buffer, hw, hs⟩ := store_eq h.write_lt ptr (k := min length.toNat rb.spaceLen) (by omega) (by omega)
    have hlen : (ptr.take (min length.toNat rb.spaceLen)).length = min length.toNat rb.spaceLen :=
      length_take_of_le (by omega)
    obtain ⟨hv, hc⟩ := h.advanceWrite hw (by omega)
    rw [hlen] at hv hc
    exact ⟨_, by rw [if_neg hz, hs]; rfl, hv, rfl, hc⟩

theorem Valid.get (h : rb.Valid) (length : BitVec 16) :
    rb.get length = (rb.advanceRead (min length.toNat rb.dataLen), rb.contents.take (min length.toNat rb.dataLen),
      min length.toNat rb.dataLen) := by
  have hle := h.encodes.len_le
  have hr := h.read_lt
  have hcut : (if rb.dataLen < length.toNat then rb.dataLen else length.toNat) = min length.toNat rb.dataLen := by
    split_ifs <;> omega
  unfold RingBuffer.get
  dsimp only
  rw [hcut, h.encodes.contents_eq, ← contents_take (Nat.min_le_right ..)]
  generalize hk : min length.toNat rb.dataLen = k
  by_cases hz : rb.dataLen = 0
  · obtain rfl : k = 0 := by omega
    rw [if_pos hz, advanceRead_before (Nat.sub_pos_of_lt hr)]
    rfl
  · rw [if_neg hz]
    by_cases hb : Before rb.bufferSize rb.readIndex k
    · have hroom : k < rb.bufferSize - rb.readIndex := hb
      rw [if_pos hb, advanceRead_before hb, copyOut_eq_contents (n := rb.bufferSize) (by omega)]
    · have hroom : ¬ k < rb.bufferSize - rb.readIndex := hb
      rw [if_neg hb, advanceRead_wrapped hb, copyOut_append_copyOut hr (by omega) (by omega)]

theorem eq_last_iff {size index : ℕ} (h : index < size) : index = size - 1 ↔ ¬ Before size index 1 := by
  unfold Before
  omega

theorem Valid.putchar (h : rb.Valid) (ch : BitVec 8) :
    rb.putchar ch = if rb.spaceLen = 0 then (rb, 0)
      else (rb.advanceWrite (update rb.bufferPtr rb.writeIndex ch) 1, 1) := by
  unfold RingBuffer.putchar
  by_cases hb : Before rb.bufferSize rb.writeIndex 1
  · rw [advanceWrite_before hb]
    simp [eq_last_iff h.write_lt, hb]
  · have hlast := (eq_last_iff h.write_lt).mpr hb
    have hroom : 1 - (rb.bufferSize - rb.writeIndex) = 0 := by have := h.write_lt; omega
    rw [advanceWrite_wrapped hb, hroom]
    simp [← hlast]

theorem status_full_iff (h : rb.Valid) : rb.status = .full ↔ rb.spaceLen = 0 := by
  have hw := h.write_lt
  unfold spaceLen dataLen status
  split_ifs with hi hm <;> simp only [false_iff, true_iff] <;> omega

theorem read_eq_write_of_full (h : rb.status = .full) : rb.readIndex = rb.writeIndex := by
  unfold status at h
  split_ifs at h with hi
  exact hi

theorem Valid.putcharForce (h : rb.Valid) (ch : BitVec 8) :
    rb.putcharForce ch =
      ((if rb.spaceLen = 0 then rb.advanceRead 1 else rb).advanceWrite
        (update rb.bufferPtr rb.writeIndex ch) 1, 1) := by
  have hw := h.write_lt
  have hroom : ¬ Before rb.bufferSize rb.writeIndex 1 → 1 - (rb.bufferSize - rb.writeIndex) = 0 := fun _ => by omega
  unfold RingBuffer.putcharForce
  simp only [eq_last_iff hw, status_full_iff h]
  by_cases hfull : rb.spaceLen = 0
  · -- both sides stand at the same byte, so they move on in the same way
    have hsame := read_eq_write_of_full ((status_full_iff h).mpr hfull)
    by_cases hb : Before rb.bufferSize rb.writeIndex 1
    · simp [hfull, RingBuffer.advanceRead, RingBuffer.advanceWrite, hsame, hb]
    · simp [hfull, RingBuffer.advanceRead, RingBuffer.advanceWrite, hsame, hb, hroom hb]
  · by_cases hb : Before rb.bufferSize rb.writeIndex 1
    · simp [hb, hfull, advanceWrite_before hb]
    · simp [hb, hfull, advanceWrite_wrapped hb, hroom hb]

theorem head?_contents (h : 0 < rb.dataLen) (hv : rb.Valid) :
    rb.contents.head? = some (rb.bufferPtr rb.readIndex) := by
  obtain ⟨m, hm⟩ := exists_eq_succ_of_ne_zero h.ne'
  have henc := hv.encodes
  rw [hm] at henc
  rw [henc.contents_eq, henc.ring.contents_pop, head?_cons]

theorem Valid.getchar (h : rb.Valid) :
    rb.getchar = if rb.dataLen = 0 then (rb, none, 0) else (rb.advanceRead 1, rb.contents.head?, 1) := by
  unfold RingBuffer.getchar
  by_cases hz : rb.dataLen = 0
  · rw [if_pos hz, if_pos hz]
  · rw [if_neg hz, if_neg hz, head?_contents (Nat.pos_of_ne_zero hz) h]
    simp only [eq_last_iff h.read_lt]
    by_cases hb : Before rb.bufferSize rb.readIndex 1
    · simp [hb, advanceRead_before hb]
    · have hroom : 1 - (rb.bufferSize - rb.readIndex) = 0 := by have := h.read_lt; omega
      simp [hb, advanceRead_wrapped hb, hroom]

end RingBuffer

structure Chunk where
  bytes : List (BitVec 8)
  short : bytes.length < 65536

def Chunk.length (c : Chunk) : BitVec 16 := BitVec.ofNat 16 c.bytes.length

theorem Chunk.toNat_length (c : Chunk) : c.length.toNat = c.bytes.length := by
  rw [Chunk.length, BitVec.toNat_ofNat, mod_eq_of_lt c.short]

inductive RbCall
  | put (c : Chunk)
  | get (length : BitVec 16)
  | putchar (ch : BitVec 8)
  | putcharForce (ch : BitVec 8)
  | getchar

abbrev RbResult := List (BitVec 8) × ℕ

def RingBuffer.call (rb : RingBuffer) : RbCall → Option (RingBuffer × RbResult)
  | .put c => (rb.put c.bytes c.length).map (fun (rb, n) => (rb, [], n))
  | .get length => some (rb.get length)
  | .putchar ch =>
    let (rb, n) := rb.putchar ch
    some (rb, [], n)
  | .putcharForce ch =>
    let (rb, n) := rb.putcharForce ch
    some (rb, [], n)
  | .getchar =>
    let (rb, ch, n) := rb.getchar
    some (rb, ch.toList, n)

def fifoCall (size : ℕ) (l : List (BitVec 8)) : RbCall → List (BitVec 8) × RbResult
  | .put c =>
    let n := min c.bytes.length (size - l.length)
    (l ++ c.bytes.take n, [], n)
  | .get length =>
    let n := min length.toNat l.length
    (l.drop n, l.take n, n)
  | .putchar ch => if l.length < size then (l ++ [ch], [], 1) else (l, [], 0)
  | .putcharForce ch => if l.length < size then (l ++ [ch], [], 1) else (l.tail ++ [ch], [], 1)
  | .getchar =>
    match l with
    | [] => ([], [], 0)
    | x :: l => (l, [x], 1)

structure RbRun where
  buffer : RingBuffer
  results : List RbResult

def RbRun.step (s : RbRun) (c : RbCall) : Option RbRun :=
  (s.buffer.call c).map (fun (rb, r) => { buffer := rb, results := s.results ++ [r] })

structure FifoRun where
  contents : List (BitVec 8)
  results : List RbResult

def FifoRun.step (size : ℕ) (s : FifoRun) (c : RbCall) : FifoRun :=
  let (l, r) := fifoCall size s.contents c
  { contents := l, results := s.results ++ [r] }

namespace RingBuffer

variable {rb : RingBuffer} (h : rb.Valid)

include h

theorem Valid.append (hlt : rb.dataLen < rb.bufferSize) (ch : BitVec 8) :
    (rb.advanceWrite (update rb.bufferPtr rb.writeIndex ch) 1).Valid ∧
      (rb.advanceWrite (update rb.bufferPtr rb.writeIndex ch) 1).contents = rb.contents ++ [ch] :=
  h.advanceWrite (written_update h.write_lt ch) hlt

theorem Valid.call (c : RbCall) : ∃ rb', rb.call c = some (rb', (fifoCall rb.bufferSize rb.contents c).2) ∧
    rb'.Valid ∧
      rb'.bufferSize = rb.bufferSize ∧ rb'.contents = (fifoCall rb.bufferSize rb.contents c).1 := by
  have hle := h.encodes.len_le
  have hlen := rb.length_contents
  have hspace : rb.spaceLen = rb.bufferSize - rb.dataLen := rfl
  cases c with
  | put c =>
    obtain ⟨rb', hput, hv, hsize, hc⟩ := h.put c.bytes c.length c.toNat_length.le
    rw [c.toNat_length, hspace, ← hlen] at hput hc
    exact ⟨rb', by rw [RingBuffer.call, hput]; rfl, hv, hsize, hc⟩
  | get length =>
    obtain ⟨hv, hc⟩ := h.advanceRead (min_le_right length.toNat rb.dataLen)
    rw [← hlen] at hv hc
    refine ⟨_, ?_, hv, rfl, hc⟩
    rw [RingBuffer.call, h.get, ← hlen]
    rfl
  | putchar ch =>
    simp only [RingBuffer.call, h.putchar, fifoCall, hlen]
    by_cases hz : rb.spaceLen = 0
    · have hfull : ¬ rb.dataLen < rb.bufferSize := by omega
      exact ⟨rb, by simp [hz, hfull], h, rfl, by simp [hfull]⟩
    · have hlt : rb.dataLen < rb.bufferSize := by omega
      obtain ⟨hv, hc⟩ := h.append hlt ch
      exact ⟨_, by simp [hz, hlt], hv, rfl, by simp [hlt, hc]⟩
  | putcharForce ch =>
    simp only [RingBuffer.call, h.putcharForce, fifoCall, hlen]
    by_cases hz : rb.spaceLen = 0
    · have hfull : ¬ rb.dataLen < rb.bufferSize := by omega
      have hone : 1 ≤ rb.dataLen := by have := h.read_lt; omega
      obtain ⟨hdrop, hrest⟩ := h.advanceRead hone
      have hless : (rb.advanceRead 1).dataLen < rb.bufferSize := by
        rw [← RingBuffer.length_contents, hrest, length_drop]
        omega
      obtain ⟨hv, hc⟩ := hdrop.append hless ch
      rw [hrest, drop_one] at hc
      exact ⟨_, by simp [hz, hfull]; rfl, hv, rfl, by rw [if_neg hfull]; exact hc⟩
    · have hlt : rb.dataLen < rb.bufferSize := by omega
      obtain ⟨hv, hc⟩ := h.append hlt ch
      exact ⟨_, by simp [hz, hlt], hv, rfl, by simp [hlt, hc]⟩
  | getchar =>
    simp only [RingBuffer.call, h.getchar]
    cases hc : rb.contents with
    | nil =>
      have hz : rb.dataLen = 0 := by rw [← hlen, hc]; rfl
      exact ⟨rb, by simp [hz, fifoCall], h, rfl, hc⟩
    | cons x l =>
      have hone : rb.dataLen = l.length + 1 := by rw [← hlen, hc]; rfl
      obtain ⟨hv, hrest⟩ := h.advanceRead (k := 1) (by omega)
      rw [hc] at hrest
      exact ⟨_, by simp [hone, fifoCall], hv, rfl, hrest⟩

end RingBuffer

theorem ringbufferInit_valid (pool : ℕ → BitVec 8) (size : BitVec 16) (hpos : 0 < (alignDown size).toNat)
    (hle : (alignDown size).toNat ≤ 32767) :
    (ringbufferInit pool size).Valid ∧ (ringbufferInit pool size).contents = [] := by
  have henc : (ringbufferInit pool size).Encodes 0 := ⟨hpos, hpos, zero_le _, rfl⟩
  exact ⟨henc.valid hle, henc.contents_eq⟩

structure RbRun.Agrees (size : ℕ) (s : RbRun) (t : FifoRun) : Prop where
  valid : s.buffer.Valid
  size_eq : s.buffer.bufferSize = size
  contents_eq : s.buffer.contents = t.contents
  results_eq : s.results = t.results

theorem RbRun.Agrees.step {size : ℕ} {s : RbRun} {t : FifoRun} (h : s.Agrees size t) (c : RbCall) :
    ∃ s', s.step c = some s' ∧ s'.Agrees size (t.step size c) := by
  obtain ⟨rb', hcall, hv, hsize, hc⟩ := h.valid.call c
  rw [h.size_eq, h.contents_eq] at hcall hc
  refine ⟨_, by rw [RbRun.step, hcall, map_some], hv, hsize.trans h.size_eq, hc, ?_⟩
  rw [h.results_eq]
  rfl

theorem ringbuffer_refines_fifo (pool : ℕ → BitVec 8) (size : BitVec 16) (hmin : 4 ≤ size.toNat)
    (hmax : size.toNat ≤ 32767) (haligned : alignDown size = size) (calls : List RbCall) :
    ∃ s, run RbRun.step { buffer := ringbufferInit pool size, results := [] } calls = some s ∧
      calls.foldl (FifoRun.step size.toNat) { contents := [], results := [] } =
        { contents := s.buffer.contents, results := s.results } ∧
      s.buffer.contents.length = s.buffer.dataLen ∧ s.buffer.dataLen ≤ s.buffer.bufferSize ∧
      s.buffer.bufferSize = size.toNat ∧ s.buffer.readIndex < s.buffer.bufferSize ∧
      s.buffer.writeIndex < s.buffer.bufferSize := by
  obtain ⟨hv, hc⟩ := ringbufferInit_valid pool size (by rw [haligned]; omega) (by rw [haligned]; omega)
  have hstart : RbRun.Agrees size.toNat { buffer := ringbufferInit pool size, results := [] }
      { contents := [], results := [] } := ⟨hv, congrArg BitVec.toNat haligned, hc, rfl⟩
  obtain ⟨s, hs, hagree⟩ := run_eq_foldl_of_refines (R := RbRun.Agrees size.toNat)
    (fun _ _ c h => RbRun.Agrees.step h c) calls hstart
  refine ⟨s, hs, ?_, s.buffer.length_contents, hagree.valid.encodes.len_le, hagree.size_eq, hagree.valid.read_lt,
    hagree.valid.write_lt⟩
  rw [hagree.contents_eq, hagree.results_eq]

def mixedCalls : List RbCall :=
  [.put ⟨[1, 2, 3, 4, 5, 6], by decide⟩, .get 4, .put ⟨[7, 8, 9, 10, 11], by decide⟩, .putchar 12, .putchar 13,
    .putcharForce 14, .getchar, .get 65535, .getchar]

theorem ringbuffer_refines_fifo_mixed :
    (4 ≤ (8 : BitVec 16).toNat ∧ (8 : BitVec 16).toNat ≤ 32767 ∧ alignDown 8 = 8) ∧
      ∃ s, run RbRun.step { buffer := ringbufferInit (fun _ => 0) 8, results := [] } mixedCalls = some s ∧
        mixedCalls.foldl (FifoRun.step (8 : BitVec 16).toNat) { contents := [], results := [] } =
          { contents := s.buffer.contents, results := s.results } ∧
        s.buffer.contents.length = s.buffer.dataLen ∧ s.buffer.dataLen ≤ s.buffer.bufferSize ∧
        s.buffer.bufferSize = (8 : BitVec 16).toNat ∧ s.buffer.readIndex < s.buffer.bufferSize ∧
        s.buffer.writeIndex < s.buffer.bufferSize :=
  ⟨by decide, ringbuffer_refines_fifo _ 8 (by decide) (by decide) (by decide) mixedCalls⟩

namespace RingBuffer

variable {rb : RingBuffer} {k : ℕ}

def KeepsNewest (rb : RingBuffer) (c : Chunk) : Prop :=
  ∃ rb', rb.putForce c.bytes c.length = some (rb', min c.bytes.length rb.bufferSize) ∧
    rb'.contents = (rb.contents ++ c.bytes).rtake (min (rb.contents.length + c.bytes.length) rb.bufferSize)

def ForceFits (rb : RingBuffer) (c : Chunk) : Prop :=
  c.bytes.length ≤ rb.spaceLen ∨
    rb.bufferSize ≤ c.bytes.length ∧ (rb.dataLen = 0 ∨ rb.readMirror ≠ rb.writeMirror) ∧
      c.bytes.take rb.bufferSize = c.bytes.drop (c.bytes.length - rb.bufferSize)

variable {ptr : List (BitVec 8)} {length : BitVec 16}

theorem store_none (h : ptr.length < k) : rb.store ptr k = none := by
  by_cases hb : Before rb.bufferSize rb.writeIndex k
  · rw [store, if_pos hb, slice, if_neg (by omega), map_none]
  · rw [store, if_neg hb]
    dsimp only
    have hsecond : slice ptr (rb.bufferSize - rb.writeIndex) (k - (rb.bufferSize - rb.writeIndex)) = none :=
      if_neg (by omega)
    rw [hsecond]
    simp

theorem Valid.putForce_le (h : rb.Valid) (hle : length.toNat ≤ rb.spaceLen) (hp : length.toNat ≤ ptr.length) :
    ∃ rb', rb.putForce ptr length = some (rb', length.toNat) ∧ rb'.Valid ∧
      rb'.contents = rb.contents ++ ptr.take length.toNat := by
  have hlen := h.encodes.len_le
  have hspace : rb.spaceLen = rb.bufferSize - rb.dataLen := rfl
  have htake : (ptr.take length.toNat).length = length.toNat := length_take_of_le hp
  obtain ⟨buffer, hw, hs⟩ := store_eq h.write_lt ptr (by omega) hp
  obtain ⟨hv, hc⟩ := h.advanceWrite hw (by omega)
  rw [htake] at hv hc
  refine ⟨_, ?_, hv, hc⟩
  simp only [putForce, if_neg (not_lt.mpr hle), hs, map_some]

theorem Valid.putForce_gt (h : rb.Valid) (hgt : rb.spaceLen < length.toNat) (hle : rb.bufferSize ≤ ptr.length) :
    ∃ rb', rb.putForce ptr length = some (rb', rb.bufferSize) ∧ rb'.Valid ∧
      rb'.contents =
        if rb.dataLen = 0 ∨ rb.readMirror ≠ rb.writeMirror then ptr.take rb.bufferSize else [] := by
  have hw := h.write_lt
  have hspace : rb.spaceLen = rb.bufferSize - rb.dataLen := rfl
  have hfirst : (ptr.take rb.bufferSize).length = rb.bufferSize := length_take_of_le hle
  obtain ⟨buffer, hwritten, hs⟩ := store_eq h.write_lt ptr le_rfl hle
  have hb : ¬ Before rb.bufferSize rb.writeIndex rb.bufferSize := by
    unfold Before
    omega
  simp only [putForce, if_pos hgt, hs, map_some]
  by_cases hz : rb.dataLen = 0
  · rw [if_neg (by omega), if_pos (.inl hz)]
    obtain ⟨hv, hc⟩ := h.advanceWrite hwritten (by omega)
    rw [hfirst] at hv hc
    have hnil : rb.contents = [] := eq_nil_of_length_eq_zero (by rw [rb.length_contents, hz])
    exact ⟨_, rfl, hv, by rw [hc, hnil, nil_append]⟩
  · rw [if_pos (by omega), if_neg hb, advanceWrite_wrapped hb]
    have hback : rb.bufferSize - (rb.bufferSize - rb.writeIndex) = rb.writeIndex := by omega
    refine ⟨_, rfl, ?_⟩
    rw [hback]
    by_cases hm : rb.readMirror = rb.writeMirror
    · have henc : Encodes { rb with
          bufferPtr := buffer, writeMirror := !rb.writeMirror
          readMirror := !rb.readMirror, readIndex := rb.writeIndex } 0 :=
        ⟨hw, hw, zero_le _, by simp [hm]⟩
      refine ⟨henc.valid h.size_le, ?_⟩
      rw [henc.contents_eq, if_neg (by simp [hz, hm])]
      rfl
    · have henc : Encodes { rb with
          bufferPtr := buffer, writeMirror := !rb.writeMirror
          readMirror := !rb.readMirror, readIndex := rb.writeIndex } rb.bufferSize :=
        ⟨hw, hw, le_rfl, by simp [hm]⟩
      have hring : Ring.Valid rb.bufferSize rb.writeIndex rb.writeIndex 0 :=
        ⟨zero_le _, hw, hw, by rw [add_zero, mod_eq_of_lt hw]⟩
      have hall := hring.contents_write (by omega) hwritten
      refine ⟨henc.valid h.size_le, ?_⟩
      rw [henc.contents_eq, if_pos (.inr hm)]
      simpa [hfirst] using hall

theorem putForce_none (hgt : rb.spaceLen < length.toNat)
    (hlt : ptr.length < rb.bufferSize) : rb.putForce ptr length = none := by
  rw [putForce, if_pos hgt, store_none hlt]
  rfl

theorem put_force_keeps_newest_iff (rb : RingBuffer) (h : rb.Valid) (c : Chunk) :
    rb.KeepsNewest c ↔ rb.ForceFits c := by
  have hlen := h.encodes.len_le
  have hr := h.read_lt
  have hspace : rb.spaceLen = rb.bufferSize - rb.dataLen := rfl
  have hcontents := rb.length_contents
  unfold KeepsNewest ForceFits
  by_cases hle : c.bytes.length ≤ rb.spaceLen
  · refine iff_of_true ?_ (.inl hle)
    obtain ⟨rb', hput, -, hc⟩ := h.putForce_le (c.toNat_length ▸ hle) c.toNat_length.le
    refine ⟨rb', by rw [hput, c.toNat_length, Nat.min_eq_left (by omega)], ?_⟩
    rw [hc, c.toNat_length, take_length, List.rtake, length_append, Nat.min_eq_left (by omega), Nat.sub_self, drop_zero]
  · rw [or_iff_right hle]
    by_cases hB : rb.bufferSize ≤ c.bytes.length
    · obtain ⟨rb', hput, -, hc⟩ := h.putForce_gt (c.toNat_length ▸ Nat.lt_of_not_le hle) hB
      have hkept : (rb.contents ++ c.bytes).rtake (min (rb.contents.length + c.bytes.length) rb.bufferSize) =
          c.bytes.drop (c.bytes.length - rb.bufferSize) := by
        rw [List.rtake, length_append, Nat.min_eq_right (by omega), Nat.add_sub_assoc hB, drop_length_add_append]
      have hnonempty : [] ≠ c.bytes.drop (c.bytes.length - rb.bufferSize) := by
        apply ne_nil_of_length_pos _ |>.symm
        rw [length_drop]
        omega
      rw [hkept, hput, Nat.min_eq_right hB]
      simp only [Option.some.injEq, Prod.mk.injEq, and_true, exists_eq_left', hc, hB, true_and]
      split_ifs with hp
      · exact (and_iff_right hp).symm
      · exact iff_of_false hnonempty (fun h => hp h.1)
    · refine iff_of_false ?_ (fun hf => hB hf.1)
      rintro ⟨rb', hput, -⟩
      rw [putForce_none (c.toNat_length ▸ Nat.lt_of_not_le hle) (Nat.lt_of_not_le hB)] at hput
      cases hput

def oneStored : RingBuffer := ((ringbufferInit (fun _ => 0) 4).putchar 1).1

theorem oneStored_valid : oneStored.Valid := ⟨by decide, by decide, by decide, by decide, by decide⟩

def fourBytes : Chunk := ⟨[2, 3, 4, 5], by decide⟩

theorem put_force_keeps_newest_iff_fits :
    oneStored.Valid ∧ (oneStored.KeepsNewest ⟨[2, 3, 4], by decide⟩ ↔
      oneStored.ForceFits ⟨[2, 3, 4], by decide⟩) :=
  ⟨oneStored_valid, put_force_keeps_newest_iff oneStored oneStored_valid _⟩

theorem put_force_loses_all :
    oneStored.Valid ∧ oneStored.contents = [1] ∧
      (oneStored.putForce fourBytes.bytes fourBytes.length).map (fun r => (r.1.contents, r.2)) = some ([], 4) ∧
      ¬ oneStored.KeepsNewest fourBytes := by
  have hlost : (oneStored.putForce fourBytes.bytes fourBytes.length).map (fun r => (r.1.contents, r.2)) =
      some ([], 4) := by decide
  refine ⟨oneStored_valid, by decide, hlost, ?_⟩
  rintro ⟨rb', hput, hc⟩
  rw [hput, map_some, Option.some.injEq, Prod.mk.injEq] at hlost
  exact absurd (hc.symm.trans hlost.1) (by decide)

end RingBuffer

end RtThread
