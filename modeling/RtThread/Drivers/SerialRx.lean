import RtThread.Lib.RingBlock
import RtThread.Lib.Transition

/-! The receive buffer of a serial device that is opened with `RT_DEVICE_FLAG_INT_RX`. -/

namespace RtThread

open Transition Function List Ring Nat

variable {T : Type} [DecidableEq T]

structure SerialRxFifo where
  buffer : ℕ → BitVec 8
  putIndex : ℕ
  getIndex : ℕ
  isFull : Bool

namespace SerialRxFifo

def opened (isFull : Bool) : SerialRxFifo where
  buffer := fun _ => 0
  putIndex := 0
  getIndex := 0
  isFull := isFull

def isrReceive (bufsz : ℕ) (f : SerialRxFifo) (ch : BitVec 8) : SerialRxFifo :=
  let f := { f with buffer := update f.buffer f.putIndex ch, putIndex := Ring.succ bufsz f.putIndex }
  if f.putIndex = f.getIndex then { f with getIndex := Ring.succ bufsz f.getIndex } else f

/-- The byte that `isrReceive` gives up. -/
def discarded (bufsz : ℕ) (f : SerialRxFifo) (ch : BitVec 8) : Option (BitVec 8) :=
  if Ring.succ bufsz f.putIndex = f.getIndex then some (update f.buffer f.putIndex ch f.getIndex) else none

def intRx (bufsz : ℕ) (f : SerialRxFifo) : Option (SerialRxFifo × BitVec 8) :=
  if f.getIndex ≠ f.putIndex then some ({ f with getIndex := Ring.succ bufsz f.getIndex }, f.buffer f.getIndex)
  else none

def rxLength (bufsz : ℕ) (f : SerialRxFifo) : ℕ :=
  if f.getIndex ≤ f.putIndex then f.putIndex - f.getIndex else bufsz - (f.getIndex - f.putIndex)

def unread (bufsz : ℕ) (f : SerialRxFifo) : List (BitVec 8) :=
  Ring.contents f.buffer bufsz f.getIndex (f.rxLength bufsz)

structure Valid (bufsz : ℕ) (f : SerialRxFifo) : Prop where
  ring : Ring.Valid bufsz f.getIndex f.putIndex (f.rxLength bufsz)
  free : f.rxLength bufsz < bufsz

variable {bufsz : ℕ} {f : SerialRxFifo}

theorem valid_of_ring {len : ℕ} (h : Ring.Valid bufsz f.getIndex f.putIndex len) (hlt : len < bufsz) :
    f.Valid bufsz ∧ f.rxLength bufsz = len := by
  have hlen : f.rxLength bufsz = len := by
    have hget := h.first_lt
    have hput := h.last_eq
    unfold rxLength
    obtain hin | hout := lt_or_ge (f.getIndex + len) bufsz
    · rw [mod_eq_of_lt hin] at hput
      rw [if_pos (by omega)]
      omega
    · rw [mod_of_wrapped hout (by omega)] at hput
      rw [if_neg (by omega)]
      omega
  exact ⟨⟨hlen ▸ h, hlen ▸ hlt⟩, hlen⟩

theorem opened_valid (h : 1 ≤ bufsz) (isFull : Bool) :
    (opened isFull).Valid bufsz ∧ (opened isFull).unread bufsz = [] :=
  ⟨(valid_of_ring (Ring.Valid.empty h) h).1, rfl⟩

theorem length_unread (bufsz : ℕ) (f : SerialRxFifo) : (f.unread bufsz).length = f.rxLength bufsz :=
  length_contents ..

variable (h : f.Valid bufsz)

include h

theorem Valid.receive (ch : BitVec 8) : (f.isrReceive bufsz ch).Valid bufsz ∧
    (f.discarded bufsz ch).toList ++ (f.isrReceive bufsz ch).unread bufsz = f.unread bufsz ++ [ch] ∧
    ((f.discarded bufsz ch).isSome → (f.isrReceive bufsz ch).rxLength bufsz = bufsz - 1) := by
  have hfree := h.free
  have hpush := h.ring.push hfree
  have hcontents : contents (update f.buffer f.putIndex ch) bufsz f.getIndex (f.rxLength bufsz + 1) =
      f.unread bufsz ++ [ch] := h.ring.contents_push hfree f.buffer ch
  obtain hlt | hge := lt_or_ge (f.rxLength bufsz + 1) bufsz
  · have hne : succ bufsz f.putIndex ≠ f.getIndex := by
      have hne : (f.getIndex + 0) % bufsz ≠ (f.getIndex + (f.rxLength bufsz + 1)) % bufsz :=
        add_mod_ne (succ_pos _) hlt
      rwa [add_zero, mod_eq_of_lt h.ring.first_lt, ← hpush.last_eq, ne_comm] at hne
    have hreceive : f.isrReceive bufsz ch = { f with
        buffer := update f.buffer f.putIndex ch, putIndex := succ bufsz f.putIndex } := if_neg hne
    obtain ⟨hvalid, hlen⟩ := valid_of_ring (f := { f with
      buffer := update f.buffer f.putIndex ch, putIndex := succ bufsz f.putIndex }) hpush hlt
    rw [hreceive, ← hcontents, discarded, if_neg hne]
    exact ⟨hvalid, by rw [unread, hlen]; rfl, by simp⟩
  · -- the buffer would be full, and gives up its oldest byte
    have hlen : f.rxLength bufsz + 1 = bufsz := by omega
    have heq : succ bufsz f.putIndex = f.getIndex := by
      rw [hpush.last_eq, hlen, add_mod_right, mod_eq_of_lt h.ring.first_lt]
    have hreceive : f.isrReceive bufsz ch = { f with
        buffer := update f.buffer f.putIndex ch, putIndex := succ bufsz f.putIndex
        getIndex := succ bufsz f.getIndex } := if_pos heq
    obtain ⟨hvalid, hlen'⟩ := valid_of_ring (f := { f with
      buffer := update f.buffer f.putIndex ch, putIndex := succ bufsz f.putIndex
      getIndex := succ bufsz f.getIndex }) hpush.pop hfree
    rw [hreceive, ← hcontents, hpush.contents_pop, discarded, if_pos heq]
    exact ⟨hvalid, by rw [unread, hlen']; rfl, fun _ => by omega⟩

theorem Valid.intRx_nil (hu : f.unread bufsz = []) : f.intRx bufsz = none := by
  have hzero : f.rxLength bufsz = 0 := by rw [← length_unread, hu, length_nil]
  have hput := h.ring.last_eq
  rw [hzero, add_zero, mod_eq_of_lt h.ring.first_lt] at hput
  exact if_neg (by simp [hput])

theorem Valid.intRx_cons {x : BitVec 8} {l : List (BitVec 8)} (hu : f.unread bufsz = x :: l) :
    ∃ f', f.intRx bufsz = some (f', x) ∧ f'.Valid bufsz ∧ f'.unread bufsz = l := by
  have hlen : f.rxLength bufsz = l.length + 1 := by rw [← length_unread, hu, length_cons]
  have hring := h.ring
  have hfree := h.free
  rw [hlen] at hring hfree
  have hne : f.getIndex ≠ f.putIndex := by
    have hne : (f.getIndex + 0) % bufsz ≠ (f.getIndex + (l.length + 1)) % bufsz := add_mod_ne (succ_pos _) hfree
    rwa [add_zero, mod_eq_of_lt hring.first_lt, ← hring.last_eq] at hne
  obtain ⟨hvalid, hlen'⟩ := valid_of_ring (f := { f with getIndex := succ bufsz f.getIndex }) hring.pop
    (lt_of_succ_lt hfree)
  rw [unread, hlen, hring.contents_pop, List.cons.injEq] at hu
  refine ⟨_, if_pos hne |>.trans (by rw [hu.1]), hvalid, ?_⟩
  rw [unread, hlen']
  exact hu.2

end SerialRxFifo

/-- `reading` holds, for a thread inside a read, how much it may still read and what it has. The rest is history: the
bytes received, those that have left the buffer with the thread that took them out (`none`: discarded), and those of the
finished reads of each thread. -/
structure SerialInt (T : Type) where
  fifo : SerialRxFifo
  reading : T → Option (ℕ × List (BitVec 8))
  received : List (BitVec 8)
  left : List (Option T × BitVec 8)
  returned : T → List (BitVec 8)

inductive SerialIntEvent (T : Type)
  | receive (ch : BitVec 8)
  | read (t : T) (length : BitVec 32)
  | turn (t : T)

namespace SerialInt

def finish (s : SerialInt T) (t : T) (data : List (BitVec 8)) : SerialInt T :=
  { s with
    reading := update s.reading t none
    returned := update s.returned t (s.returned t ++ data) }

def step (bufsz : ℕ) (s : SerialInt T) : SerialIntEvent T → Option (SerialInt T)
  | .receive ch => some { s with
      fifo := s.fifo.isrReceive bufsz ch
      received := s.received ++ [ch]
      left := s.left ++ (s.fifo.discarded bufsz ch).toList.map (none, ·) }
  | .read t length =>
    match s.reading t with
    | none => some { s with reading := update s.reading t (some (length.toNat, [])) }
    | some _ => none
  | .turn t =>
    match s.reading t with
    | none => none
    | some (0, data) => some (s.finish t data)
    | some (length + 1, data) =>
      match s.fifo.intRx bufsz with
      | none => some (s.finish t data)
      | some (f, ch) => some { s with
          fifo := f
          reading := update s.reading t (some (length, data ++ [ch]))
          left := s.left ++ [(some t, ch)] }

def opened (isFull : Bool) : SerialInt T where
  fifo := .opened isFull
  reading := fun _ => none
  received := []
  left := []
  returned := fun _ => []

def readTo (s : SerialInt T) : ℕ := (s.left.rdropWhile (·.1.isNone)).length

structure KeepsNewest (bufsz : ℕ) (s : SerialInt T) : Prop where
  account : s.left.map Prod.snd ++ s.fifo.unread bufsz = s.received
  newest : s.fifo.unread bufsz = (s.received.drop s.readTo).rtake (bufsz - 1)
  delivers : ∀ t, s.returned t ++ (s.reading t).elim [] Prod.snd = (s.left.filter (·.1 = some t)).map Prod.snd

/-- A read ends with all the bytes it may read, or when no byte is unread. -/
def ReadsOut (bufsz : ℕ) (s : SerialInt T) : SerialIntEvent T → Prop
  | .turn t => ∀ s', s.step bufsz (.turn t) = some s' → s'.reading t = none →
      (∃ data, s.reading t = some (0, data)) ∨ s.fifo.unread bufsz = []
  | .receive _ | .read _ _ => True

variable {bufsz : ℕ} {s t : SerialInt T} {data : List (BitVec 8)} {u : T} {length : ℕ}

structure Inv (bufsz : ℕ) (s : SerialInt T) : Prop extends s.KeepsNewest bufsz where
  valid : s.fifo.Valid bufsz

section

variable (h : s.Inv bufsz)

include h

theorem Inv.readTo_le : s.readTo ≤ s.received.length := by
  have hle := (s.left.rdropWhile_prefix (·.1.isNone)).length_le
  rw [← h.account, length_append, length_map]
  exact hle.trans (Nat.le_add_right ..)

theorem Inv.receive (ch : BitVec 8) (ht : s.step bufsz (.receive ch) = some t) : t.Inv bufsz := by
  obtain ⟨hvalid, hunread, hfull⟩ := h.valid.receive ch
  have hle := h.readTo_le
  cases ht
  refine ⟨⟨?_, ?_, fun u => ?_⟩, hvalid⟩
  · simp only [map_append, List.map_map, comp_def, map_id', List.append_assoc, hunread]
    rw [← List.append_assoc, h.account]
  · -- what is discarded does not move the place up to which the bytes are read
    have hread : (s.left ++ (s.fifo.discarded bufsz ch).toList.map (none, ·)).rdropWhile (·.1.isNone) =
        s.left.rdropWhile (·.1.isNone) := by
      cases s.fifo.discarded bufsz ch with
      | none | some x => simp
    have htake : (s.fifo.isrReceive bufsz ch).unread bufsz = (s.fifo.unread bufsz ++ [ch]).rtake (bufsz - 1) := by
      have hlen := hvalid.free
      rw [← SerialRxFifo.length_unread] at hfull hlen
      rw [← hunread]
      cases hd : s.fifo.discarded bufsz ch with
      | none => exact (rtake_of_length_le (by simpa using Nat.le_pred_of_lt hlen)).symm
      | some x => simp [List.rtake, hfull (by simp [hd])]
    simp only [readTo, hread]
    rw [htake, h.newest, rtake_rtake_append, ← drop_append_of_le_length hle]
    rfl
  · have hu := h.delivers u
    cases s.fifo.discarded bufsz ch with
    | none | some x => simpa [filter_append] using hu

theorem Inv.take (hr : s.reading u = some (length + 1, data)) {x : BitVec 8} {l : List (BitVec 8)}
    (hu : s.fifo.unread bufsz = x :: l) {f : SerialRxFifo} (hv : f.Valid bufsz) (hf : f.unread bufsz = l) :
    Inv bufsz { s with
      fifo := f
      reading := update s.reading u (some (length, data ++ [x]))
      left := s.left ++ [(some u, x)] } := by
  have haccount : (s.left.map Prod.snd ++ [x]) ++ l = s.received := by
    rw [← h.account, hu, List.append_assoc]
    rfl
  refine ⟨⟨?_, ?_, fun v => ?_⟩, hv⟩
  · simpa [hf] using haccount
  · have hread : (s.left ++ [(some u, x)]).rdropWhile (·.1.isNone) = s.left ++ [(some u, x)] :=
      rdropWhile_concat_neg _ _ _ (by simp)
    have hlen : l.length ≤ bufsz - 1 := by
      rw [← hf, SerialRxFifo.length_unread]
      exact Nat.le_pred_of_lt hv.free
    simp only [readTo, hread, hf]
    rw [← haccount, drop_left' (by simp), rtake_of_length_le hlen]
  · have hv := h.delivers v
    obtain rfl | hne := eq_or_ne v u
    · rw [hr] at hv
      simp [filter_append, ← hv]
    · simpa [hne, filter_append, Ne.symm hne] using hv

theorem Inv.finish (hr : s.reading u = some (length, data)) : (s.finish u data).Inv bufsz := by
  refine ⟨⟨h.account, h.newest, fun v => ?_⟩, h.valid⟩
  have hv := h.delivers v
  obtain rfl | hne := eq_or_ne v u
  · rw [hr] at hv
    simpa [SerialInt.finish] using hv
  · simpa [SerialInt.finish, hne] using hv

theorem Inv.read (hr : s.reading u = none) (length : ℕ) :
    Inv bufsz { s with reading := update s.reading u (some (length, [])) } := by
  refine ⟨⟨h.account, h.newest, fun v => ?_⟩, h.valid⟩
  have hv := h.delivers v
  obtain rfl | hne := eq_or_ne v u
  · rw [hr] at hv
    simpa using hv
  · simpa [hne] using hv

theorem Inv.turn (ht : s.step bufsz (.turn u) = some t) : t.Inv bufsz ∧
    (t.reading u = none → (∃ data, s.reading u = some (0, data)) ∨ s.fifo.unread bufsz = []) := by
  cases hr : s.reading u with
  | none => simp [step, hr] at ht
  | some r =>
    obtain ⟨length, data⟩ := r
    cases length with
    | zero =>
      simp only [step, hr, Option.some.injEq] at ht
      exact ⟨ht ▸ h.finish hr, fun _ => .inl ⟨data, rfl⟩⟩
    | succ length =>
      cases hu : s.fifo.unread bufsz with
      | nil =>
        simp only [step, hr, h.valid.intRx_nil hu, Option.some.injEq] at ht
        exact ⟨ht ▸ h.finish hr, fun _ => .inr rfl⟩
      | cons x l =>
        obtain ⟨f, hf, hvalid, hrest⟩ := h.valid.intRx_cons hu
        simp only [step, hr, hf, Option.some.injEq] at ht
        subst ht
        exact ⟨h.take hr hu hvalid hrest, fun hnone => by simp at hnone⟩

theorem Inv.step {e : SerialIntEvent T} (ht : s.step bufsz e = some t) : t.Inv bufsz := by
  cases e with
  | receive ch => exact h.receive ch ht
  | read u length =>
    cases hr : s.reading u with
    | none =>
      simp only [SerialInt.step, hr, Option.some.injEq] at ht
      exact ht ▸ h.read hr _
    | some r => simp [SerialInt.step, hr] at ht
  | turn u => exact (h.turn ht).1

theorem Inv.readsOut (e : SerialIntEvent T) : s.ReadsOut bufsz e := by
  cases e with
  | receive ch | read u length => trivial
  | turn u => exact fun s' hs' => (h.turn hs').2

end

theorem opened_inv (h : 1 ≤ bufsz) (isFull : Bool) : (opened isFull : SerialInt T).Inv bufsz := by
  obtain ⟨hvalid, hunread⟩ := SerialRxFifo.opened_valid h isFull
  exact ⟨⟨hunread, hunread.trans (by simp [opened]), fun _ => rfl⟩, hvalid⟩

theorem serial_int_keeps_newest (bufsz : BitVec 16) (hsize : 1 ≤ bufsz.toNat) (isFull : Bool)
    (events : List (SerialIntEvent T)) :
    StatesAlong (step bufsz.toNat) (KeepsNewest bufsz.toNat) (opened isFull) events ∧
      StepsAlong (step bufsz.toNat) (ReadsOut bufsz.toNat) (opened isFull) events := by
  have hinv : (opened isFull : SerialInt T).Inv bufsz.toNat := opened_inv hsize isFull
  constructor
  · exact StatesAlong.of_invariant (fun _ h => h.toKeepsNewest) (fun _ _ _ h ht => h.step ht) hinv events
  · exact StepsAlong.of_invariant (fun _ e h => h.readsOut e) (fun _ _ _ h ht => h.step ht) hinv events

def overtaken : List (SerialIntEvent Unit) :=
  [.receive 1, .receive 2, .read () 5, .turn (), .receive 3, .receive 4, .receive 5, .turn (), .turn (), .turn ()]

theorem serial_int_keeps_newest_overtaken : 1 ≤ (3 : BitVec 16).toNat ∧
    ∃ s, run (step (3 : BitVec 16).toNat) (opened false) overtaken = some s ∧
      s.left = [(some (), 1), (none, 2), (none, 3), (some (), 4), (some (), 5)] ∧ s.returned () = [1, 4, 5] ∧
      s.KeepsNewest (3 : BitVec 16).toNat := by
  refine ⟨by decide, exists_some_and_and (by decide) (fun s hs _ _ => ?_)⟩
  exact (serial_int_keeps_newest 3 (by decide) false overtaken).1.of_run hs

end SerialInt

end RtThread
