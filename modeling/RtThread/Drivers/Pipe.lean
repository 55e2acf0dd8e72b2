import RtThread.Drivers.RingBuffer
import RtThread.Ipc.TimedWait
import RtThread.Kernel.ReadyQueue

/-! The pipes of `pipe.c`: a ring buffer with a list of suspended readers and a list of suspended writers. -/

namespace RtThread

open Transition List Option

variable {T : Type} [DecidableEq T]

inductive PipeSide
  | readers
  | writers
  deriving DecidableEq

structure Pipe where
  ringbuffer : RingBuffer
  blockRd : Bool
  blockWr : Bool
  forceWr : Bool
  rxIndicate : Bool

structure PipeSource where
  buffer : List (BitVec 8)
  size : BitVec 32
  fits : size.toNat ≤ buffer.length

inductive PipeCall
  | read (size : BitVec 32)
  | write (source : PipeSource)

inductive PipeOutcome
  | returned (nbytes : ℕ) (bytes : List (BitVec 8)) (indicated : Option ℕ)
  | blocked
  deriving DecidableEq

namespace Pipe

def resume (k : Kernel T PipeSide) (side : PipeSide) (block : Bool) : Option (Kernel T PipeSide) :=
  if k.lists (.wait side) = [] then some k
  else if block then some (k.resumeFirst side)
  else none

def resumeWriter (p : Pipe) (k : Kernel T PipeSide) : Option (Kernel T PipeSide) := resume k .writers p.blockWr

def resumeReader (p : Pipe) (k : Kernel T PipeSide) : Option (Kernel T PipeSide) := resume k .readers p.blockRd

def indicated (p : Pipe) : Option ℕ := if p.rxIndicate then some p.ringbuffer.dataLen else none

def suspend (k : Kernel T PipeSide) (side : PipeSide) (t : T) : Kernel T PipeSide :=
  (k.ipcListSuspend side t .fifo).schedule

def read (p : Pipe) (k : Kernel T PipeSide) (t : T) (size : BitVec 32) :
    Option (Kernel T PipeSide × Pipe × PipeOutcome) :=
  let (ringbuffer, bytes, nbytes) := p.ringbuffer.get (size.setWidth 16)
  let p := { p with ringbuffer }
  if p.blockRd = false then
    (if nbytes ≠ 0 then p.resumeWriter k else some k).map (fun k => (k, p, .returned nbytes bytes none))
  else if nbytes = 0 then some (suspend k .readers t, p, .blocked)
  else (p.resumeWriter k).map (fun k => (k, p, .returned nbytes bytes none))

def waits (p : Pipe) : Bool := p.blockWr && !p.forceWr

def write (p : Pipe) (k : Kernel T PipeSide) (t : T) (source : PipeSource) :
    Option (Kernel T PipeSide × Pipe × PipeOutcome) :=
  let length := source.size.setWidth 16
  if p.waits then
    (p.ringbuffer.put source.buffer length).bind (fun (ringbuffer, nbytes) =>
      let p := { p with ringbuffer }
      if nbytes = 0 then some (suspend k .writers t, p, .blocked)
      else (p.resumeReader k).map (fun k => (k, p, .returned nbytes [] p.indicated)))
  else
    let put := if p.forceWr then p.ringbuffer.putForce source.buffer length else p.ringbuffer.put source.buffer length
    put.bind (fun (ringbuffer, nbytes) =>
      let p := { p with ringbuffer }
      (p.resumeReader k).map (fun k => (k, p, .returned nbytes [] p.indicated)))

def turn (p : Pipe) (k : Kernel T PipeSide) (t : T) : PipeCall → Option (Kernel T PipeSide × Pipe × PipeOutcome)
  | .read size => p.read k t size
  | .write source => p.write k t source

end Pipe

structure PipeTurn where
  call : PipeCall
  available : ℕ
  free : ℕ
  nbytes : Option ℕ

namespace PipeOutcome

def nbytes : PipeOutcome → Option ℕ
  | .returned nbytes _ _ => some nbytes
  | .blocked => none

def bytes : PipeOutcome → List (BitVec 8)
  | .returned _ bytes _ => bytes
  | .blocked => []

end PipeOutcome

def PipeCall.buffer : PipeCall → List (BitVec 8)
  | .read _ => []
  | .write source => source.buffer

/-- `pc t` is the call from which `t` has not returned. The last three fields record the bytes written and read, and the
turns. -/
structure PipeSystem (T : Type) where
  kernel : Kernel T PipeSide
  pipe : Pipe
  pc : T → Option PipeCall
  written : List (BitVec 8)
  readOut : List (BitVec 8)
  turns : List PipeTurn

inductive PipeEvent (T : Type)
  | call (t : T) (c : PipeCall)
  | proceed (t : T)

namespace PipeSystem

def after (s : PipeSystem T) (t : T) (c : PipeCall) : Kernel T PipeSide × Pipe × PipeOutcome → PipeSystem T
  | (kernel, pipe, outcome) =>
    { kernel
      pipe
      pc := Function.update s.pc t (if outcome = .blocked then some c else none)
      written := s.written ++ c.buffer.take (outcome.nbytes.getD 0)
      readOut := s.readOut ++ outcome.bytes
      turns := s.turns ++ [⟨c, s.pipe.ringbuffer.dataLen, s.pipe.ringbuffer.spaceLen, outcome.nbytes⟩] }

def turn (s : PipeSystem T) (t : T) (c : PipeCall) : Option (PipeSystem T) :=
  (s.pipe.turn (s.kernel.dispatch t) t c).map (s.after t c)

def step (s : PipeSystem T) : PipeEvent T → Option (PipeSystem T)
  | .call t c => if s.pc t = none ∧ (s.kernel.thread t).stat = .ready then s.turn t c else none
  | .proceed t =>
    match s.pc t with
    | none => none
    | some c => if (s.kernel.thread t).stat = .ready then s.turn t c else none

end PipeSystem

namespace Pipe

def TurnOk (p : Pipe) (e : PipeTurn) : Prop :=
  match e.call with
  | .read size =>
    (p.blockRd = false → e.nbytes = some (min size.toNat e.available)) ∧
      (p.blockRd = true → 0 < size.toNat → (e.nbytes = none → e.available = 0) ∧ e.nbytes ≠ some 0)
  | .write source => p.waits = false → e.nbytes = some (min source.size.toNat e.free)

instance (p : Pipe) : ∀ e, Decidable (p.TurnOk e)
  | ⟨.read _, _, _, _⟩ => instDecidableAnd
  | ⟨.write _, _, _, _⟩ => instDecidableForall

/-- The low half of the size does as well as the size: none of it is cut off, or what is left is enough for what there
is. A forced write has room for its bytes or finds the pipe empty. -/
def Whole (p : Pipe) : PipeCall → Prop
  | .read size =>
    (p.blockRd = false → size.toNat < 65536 ∨ p.ringbuffer.dataLen ≤ size.toNat % 65536) ∧
      (p.blockRd = true → 0 < size.toNat → p.ringbuffer.dataLen = 0 ∨ size.toNat % 65536 ≠ 0)
  | .write source => p.waits = false →
    (source.size.toNat < 65536 ∨ p.ringbuffer.spaceLen ≤ source.size.toNat % 65536) ∧
      (p.forceWr = true → source.size.toNat % 65536 ≤ p.ringbuffer.spaceLen ∨ p.ringbuffer.dataLen = 0)

instance (p : Pipe) : ∀ c, Decidable (p.Whole c)
  | .read _ => instDecidableAnd
  | .write _ => instDecidableForall

def readLen (p : Pipe) (size : BitVec 32) : ℕ := min (size.toNat % 65536) p.ringbuffer.dataLen

def writeLen (p : Pipe) (size : BitVec 32) : ℕ := min (size.toNat % 65536) p.ringbuffer.spaceLen

variable {p p' : Pipe} {k k' : Kernel T PipeSide} {t : T} {o : PipeOutcome}

theorem toNat_length (size : BitVec 32) : (size.setWidth 16).toNat = size.toNat % 65536 := BitVec.toNat_setWidth 16 size

theorem get_eq (hv : p.ringbuffer.Valid) (size : BitVec 32) :
    p.ringbuffer.get (size.setWidth 16) = (p.ringbuffer.advanceRead (p.readLen size),
      p.ringbuffer.contents.take (p.readLen size), p.readLen size) := by
  rw [hv.get]
  rfl

theorem read_cases {size : BitVec 32} (hv : p.ringbuffer.Valid) (h : p.read k t size = some (k', p', o)) :
    p' = { p with ringbuffer := p.ringbuffer.advanceRead (p.readLen size) } ∧
      (p.blockRd = true ∧ p.readLen size = 0 ∧ k' = suspend k .readers t ∧ o = .blocked ∨
        (p.blockRd = true → p.readLen size ≠ 0) ∧ (p.readLen size ≠ 0 → p.resumeWriter k = some k') ∧
          o = .returned (p.readLen size) (p.ringbuffer.contents.take (p.readLen size)) none) := by
  unfold Pipe.read at h
  rw [get_eq hv] at h
  dsimp only at h
  by_cases hz : p.readLen size = 0
  · rw [if_neg (not_not.mpr hz)] at h
    split_ifs at h with hb
    · obtain ⟨j, hj, he⟩ := map_eq_some_iff.mp h
      cases he
      exact ⟨rfl, .inr ⟨fun hb' => by simp [hb] at hb', fun hne => absurd hz hne, rfl⟩⟩
    · cases h
      exact ⟨rfl, .inl ⟨by simpa using hb, hz, rfl, rfl⟩⟩
  · rw [if_pos hz, if_neg hz, ite_self] at h
    obtain ⟨j, hj, he⟩ := map_eq_some_iff.mp h
    cases he
    exact ⟨rfl, .inr ⟨fun _ => hz, fun _ => hj, rfl⟩⟩

theorem put_eq (hv : p.ringbuffer.Valid) (source : PipeSource) :
    ∃ ringbuffer, p.ringbuffer.put source.buffer (source.size.setWidth 16) =
        some (ringbuffer, p.writeLen source.size) ∧ ringbuffer.Valid ∧
      ringbuffer.bufferSize = p.ringbuffer.bufferSize ∧
      ringbuffer.contents = p.ringbuffer.contents ++ source.buffer.take (p.writeLen source.size) := by
  have hp : (source.size.setWidth 16).toNat ≤ source.buffer.length := by
    have := source.fits
    rw [toNat_length]
    omega
  have hput := hv.put source.buffer (source.size.setWidth 16) hp
  rwa [toNat_length] at hput

variable {source : PipeSource}

theorem write_cases (hv : p.ringbuffer.Valid) (hw : p.waits = true) (h : p.write k t source = some (k', p', o)) :
    ∃ ringbuffer, ringbuffer.Valid ∧ ringbuffer.bufferSize = p.ringbuffer.bufferSize ∧
      ringbuffer.contents = p.ringbuffer.contents ++ source.buffer.take (p.writeLen source.size) ∧
      p' = { p with ringbuffer } ∧
      (p.writeLen source.size = 0 ∧ k' = suspend k .writers t ∧ o = .blocked ∨
        p.writeLen source.size ≠ 0 ∧ p.resumeReader k = some k' ∧
          o = .returned (p.writeLen source.size) [] p'.indicated) := by
  obtain ⟨ringbuffer, hput, hv', hsize, hc⟩ := put_eq hv source
  unfold Pipe.write at h
  rw [if_pos hw, hput, bind_some] at h
  dsimp only at h
  refine ⟨ringbuffer, hv', hsize, hc, ?_⟩
  split_ifs at h with hz
  · cases h
    exact ⟨rfl, .inl ⟨hz, rfl, rfl⟩⟩
  · obtain ⟨j, hj, he⟩ := map_eq_some_iff.mp h
    cases he
    exact ⟨rfl, .inr ⟨hz, hj, rfl⟩⟩

theorem write_now (hw : p.waits = false) (h : p.write k t source = some (k', p', o)) :
    ∃ ringbuffer nbytes,
      (if p.forceWr then p.ringbuffer.putForce source.buffer (source.size.setWidth 16)
        else p.ringbuffer.put source.buffer (source.size.setWidth 16)) = some (ringbuffer, nbytes) ∧
      p' = { p with ringbuffer } ∧ o = .returned nbytes [] p'.indicated := by
  unfold Pipe.write at h
  rw [if_neg (by simp [hw])] at h
  obtain ⟨⟨ringbuffer, nbytes⟩, hput, h⟩ := bind_eq_some_iff.mp h
  obtain ⟨j, -, he⟩ := map_eq_some_iff.mp h
  cases he
  exact ⟨ringbuffer, nbytes, hput, rfl, rfl⟩

structure Transferred (p : Pipe) (c : PipeCall) (p' : Pipe) (o : PipeOutcome) : Prop where
  flags : p' = { p with ringbuffer := p'.ringbuffer }
  ok : p.TurnOk ⟨c, p.ringbuffer.dataLen, p.ringbuffer.spaceLen, o.nbytes⟩ ↔ p.Whole c
  valid : p.Whole c → p'.ringbuffer.Valid
  order : p.Whole c →
    o.bytes ++ p'.ringbuffer.contents = p.ringbuffer.contents ++ c.buffer.take (o.nbytes.getD 0)

theorem dataLen_add_spaceLen {rb : RingBuffer} (hv : rb.Valid) : rb.dataLen + rb.spaceLen = rb.bufferSize := by
  have hle := hv.encodes.len_le
  unfold RingBuffer.spaceLen
  omega

theorem read_transferred {size : BitVec 32} (hv : p.ringbuffer.Valid) (h : p.read k t size = some (k', p', o)) :
    p.Transferred (.read size) p' o := by
  obtain ⟨hadv, hcontents⟩ := hv.advanceRead (k := p.readLen size) (Nat.min_le_right _ _)
  have hn : p.readLen size = min (size.toNat % 65536) p.ringbuffer.dataLen := rfl
  obtain ⟨rfl, ⟨hb, hz, -, rfl⟩ | ⟨hb, -, rfl⟩⟩ := read_cases hv h
  · refine ⟨rfl, ?_, fun _ => hadv, fun _ => ?_⟩
    · simp only [TurnOk, Whole, PipeOutcome.nbytes, hb]
      simp only [true_imp_iff, reduceCtorEq, false_imp_iff, true_and, ne_eq, not_false_eq_true, and_true]
      refine forall_congr' (fun _ => ?_)
      omega
    · rw [hcontents, hz]
      simp [PipeOutcome.bytes, PipeCall.buffer]
  · refine ⟨rfl, ?_, fun _ => hadv, fun _ => ?_⟩
    · simp only [TurnOk, Whole, PipeOutcome.nbytes]
      simp only [Option.some.injEq, reduceCtorEq, false_imp_iff, true_and, ne_eq]
      apply and_congr
      · refine forall_congr' (fun _ => ?_)
        omega
      · refine forall_congr' (fun hb' => forall_congr' (fun _ => ?_))
        have := hb hb'
        omega
    · rw [hcontents]
      simp [PipeOutcome.bytes, PipeCall.buffer]

theorem force_transferred {ringbuffer : RingBuffer} {nbytes : ℕ} {indicated : Option ℕ}
    (hv : p.ringbuffer.Valid) (hw : p.waits = false) (hf : p.forceWr = true)
    (h : p.ringbuffer.putForce source.buffer (source.size.setWidth 16) = some (ringbuffer, nbytes)) :
    p.Transferred (.write source) { p with ringbuffer } (.returned nbytes [] indicated) := by
  have hsum := dataLen_add_spaceLen hv
  have hfits := source.fits
  have hlen := toNat_length source.size
  by_cases hle : source.size.toNat % 65536 ≤ p.ringbuffer.spaceLen
  · obtain ⟨rb, hput, hv', hc⟩ := hv.putForce_le (hlen ▸ hle) (by omega : _ ≤ source.buffer.length)
    obtain ⟨rfl, rfl⟩ := Prod.mk.inj (Option.some.inj (hput.symm.trans h))
    refine ⟨rfl, ?_, fun _ => hv', fun _ => hc⟩
    simp only [TurnOk, Whole, PipeOutcome.nbytes, hw, hf, true_imp_iff, Option.some.injEq, hlen]
    omega
  · have hgt : p.ringbuffer.spaceLen < (source.size.setWidth 16).toNat := by omega
    by_cases hlong : p.ringbuffer.bufferSize ≤ source.buffer.length
    · obtain ⟨rb, hput, hv', hc⟩ := hv.putForce_gt hgt hlong
      obtain ⟨rfl, rfl⟩ := Prod.mk.inj (Option.some.inj (hput.symm.trans h))
      refine ⟨rfl, ?_, fun _ => hv', fun hwhole => ?_⟩
      · simp only [TurnOk, Whole, PipeOutcome.nbytes, hw, hf, true_imp_iff, Option.some.injEq]
        omega
      · have hz : p.ringbuffer.dataLen = 0 := ((hwhole hw).2 hf).resolve_left hle
        have hnil : p.ringbuffer.contents = [] := eq_nil_of_length_eq_zero (by rw [RingBuffer.length_contents, hz])
        rw [hc, if_pos (.inl hz), hnil]
        rfl
    · rw [RingBuffer.putForce_none hgt (by omega)] at h
      cases h

theorem write_transferred (hv : p.ringbuffer.Valid)
    (h : p.write k t source = some (k', p', o)) : p.Transferred (.write source) p' o := by
  have hn : p.writeLen source.size = min (source.size.toNat % 65536) p.ringbuffer.spaceLen := rfl
  cases hw : p.waits with
  | true =>
    have htrivial : ∀ P : Prop, p.waits = false → P := fun P hf => by simp [hw] at hf
    obtain ⟨ringbuffer, hv', -, hc, rfl, ⟨hz, -, rfl⟩ | ⟨-, -, rfl⟩⟩ := write_cases hv hw h
    · refine ⟨rfl, iff_of_true (htrivial _) (htrivial _), fun _ => hv', fun _ => ?_⟩
      rw [hz] at hc
      simpa [PipeOutcome.bytes, PipeOutcome.nbytes] using hc
    · exact ⟨rfl, iff_of_true (htrivial _) (htrivial _), fun _ => hv', fun _ => hc⟩
  | false =>
    obtain ⟨ringbuffer, nbytes, hput, rfl, rfl⟩ := write_now hw h
    by_cases hf : p.forceWr = true
    · rw [if_pos hf] at hput
      exact force_transferred hv hw hf hput
    · rw [if_neg hf] at hput
      obtain ⟨rb, hput', hv', -, hc⟩ := put_eq hv source
      obtain ⟨rfl, rfl⟩ := Prod.mk.inj (Option.some.inj (hput'.symm.trans hput))
      refine ⟨rfl, ?_, fun _ => hv', fun _ => hc⟩
      simp only [TurnOk, Whole, PipeOutcome.nbytes, hw, eq_false_of_ne_true hf, true_imp_iff, Option.some.injEq,
        Bool.false_eq_true, false_imp_iff, and_true]
      omega

theorem turn_transferred {c : PipeCall} (hv : p.ringbuffer.Valid) (h : p.turn k t c = some (k', p', o)) :
    p.Transferred c p' o := by
  cases c with
  | read size => exact read_transferred hv h
  | write source => exact write_transferred hv h

end Pipe

namespace PipeSystem

def Whole (s : PipeSystem T) : PipeEvent T → Prop
  | .call _ c => s.pipe.Whole c
  | .proceed t => ∀ c ∈ s.pc t, s.pipe.Whole c

instance (s : PipeSystem T) : ∀ e, Decidable (s.Whole e)
  | .call _ c => inferInstanceAs (Decidable (s.pipe.Whole c))
  | .proceed _ => Option.decidableForallMem _

structure Transfers (s : PipeSystem T) : Prop where
  turns : ∀ e ∈ s.turns, s.pipe.TurnOk e
  order : s.readOut ++ s.pipe.ringbuffer.contents = s.written

structure Fresh (s : PipeSystem T) : Prop where
  valid : s.pipe.ringbuffer.Valid
  written : s.written = s.pipe.ringbuffer.contents
  readOut : s.readOut = []
  turns : s.turns = []

variable {s s' : PipeSystem T}

theorem turn_transfers {t : T} {c : PipeCall} (hv : s.pipe.ringbuffer.Valid) (hs : s.Transfers)
    (h : s.turn t c = some s') : (s.pipe.Whole c → s'.pipe.ringbuffer.Valid) ∧
    (s'.Transfers ↔ s.pipe.Whole c) := by
  obtain ⟨⟨kernel, pipe, o⟩, hturn, rfl⟩ := map_eq_some_iff.mp h
  have htr := Pipe.turn_transferred hv hturn
  have hflags : ∀ e, pipe.TurnOk e ↔ s.pipe.TurnOk e := by
    intro e
    rw [htr.flags]
    rfl
  refine ⟨htr.valid, ?_, ?_⟩
  · intro hafter
    apply htr.ok.mp
    apply (hflags _).mp
    apply hafter.turns
    exact mem_append_right _ (mem_singleton_self _)
  · intro hwhole
    refine ⟨?_, ?_⟩
    · intro e he
      apply (hflags e).mpr
      rcases mem_append.mp he with hold | hnew
      · exact hs.turns e hold
      · rw [mem_singleton.mp hnew]
        exact htr.ok.mpr hwhole
    · calc s.readOut ++ o.bytes ++ pipe.ringbuffer.contents
          = s.readOut ++ (s.pipe.ringbuffer.contents ++ c.buffer.take (o.nbytes.getD 0)) := by
            rw [List.append_assoc, htr.order hwhole]
        _ = s.written ++ c.buffer.take (o.nbytes.getD 0) := by rw [← List.append_assoc, hs.order]

theorem step_transfers {e : PipeEvent T} (hv : s.pipe.ringbuffer.Valid) (hs : s.Transfers) (h : s.step e = some s') :
    (s.Whole e → s'.pipe.ringbuffer.Valid) ∧ (s'.Transfers ↔ s.Whole e) := by
  cases e with
  | call t c => exact turn_transfers hv hs (ite_none_right_eq_some.mp h).2
  | proceed t =>
    cases hpc : s.pc t with
    | none => simp [step, hpc] at h
    | some c =>
      simp only [step, hpc] at h
      have hwhole : s.Whole (.proceed t) ↔ s.pipe.Whole c := by simp [Whole, hpc]
      rw [hwhole]
      exact turn_transfers hv hs (ite_none_right_eq_some.mp h).2

theorem pipe_transfers_iff (s : PipeSystem T) (hs : s.Fresh) (es : List (PipeEvent T)) :
    StatesAlong step Transfers s es ↔ StepsAlong step Whole s es := by
  apply statesAlong_iff_stepsAlong_of_kept
  · intro s e s' hv hs hc h
    exact (step_transfers hv hs h).1 hc
  · intro s e s' hv hs h
    exact (step_transfers hv hs h).2
  · exact hs.valid
  · exact ⟨by simp [hs.turns], by rw [hs.readOut, hs.written, nil_append]⟩

end PipeSystem

def pipeKernel : Kernel Tid PipeSide := bootKernel Tid.priority [.startup .mid, .startup .low, .schedulerStart]

def startPipe (pipe : Pipe) : PipeSystem Tid where
  kernel := pipeKernel
  pipe := pipe
  pc _ := none
  written := pipe.ringbuffer.contents
  readOut := []
  turns := []

def waitingReaders : Pipe where
  ringbuffer := ringbufferInit (fun _ => 0) 8
  blockRd := true
  blockWr := false
  forceWr := false
  rxIndicate := false

theorem waitingReaders_fresh : (startPipe waitingReaders).Fresh :=
  ⟨(ringbufferInit_valid _ 8 (by decide) (by decide)).1, rfl, rfl, rfl⟩

def threeBytes : List (PipeEvent Tid) :=
  [.call .mid (.read 2), .call .low (.write ⟨[1, 2, 3], 3, by decide⟩), .proceed .mid]

theorem pipe_transfers_iff_threeBytes : ∃ s, run PipeSystem.step (startPipe waitingReaders) threeBytes = some s ∧
    s.readOut = [1, 2] ∧ s.Transfers := by
  refine exists_some_and (by decide +kernel) (fun s hs _ => ?_)
  exact ((PipeSystem.pipe_transfers_iff _ waitingReaders_fresh threeBytes).mpr (by decide +kernel)).of_run hs

def oneByte : Pipe := { waitingReaders with
  ringbuffer := (waitingReaders.ringbuffer.putchar 7).1, blockRd := false }

theorem oneByte_fresh : (startPipe oneByte).Fresh :=
  ⟨⟨by decide, by decide, by decide, by decide, by decide⟩, rfl, rfl, rfl⟩

theorem pipe_reads_nothing : (startPipe oneByte).Fresh ∧ ∃ s,
    run PipeSystem.step (startPipe oneByte) [.call .mid (.read 65536)] = some s ∧
      s.turns.map (fun e => (e.available, e.nbytes)) = [(1, some 0)] ∧ ¬s.Transfers := by
  refine ⟨oneByte_fresh, exists_some_imp (P := fun s => _ ∧ ¬∀ e ∈ s.turns, s.pipe.TurnOk e)
    (by decide +kernel)
    (fun s _ h => ⟨h.1, fun hgood => h.2 hgood.turns⟩)⟩

end RtThread
