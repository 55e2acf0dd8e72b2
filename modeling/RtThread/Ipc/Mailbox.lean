import RtThread.Lib.Ring
import RtThread.Ipc.TimedWait

namespace RtThread

open Function

structure Mailbox where
  pool : ℕ → BitVec 32
  size : ℕ
  entry : ℕ
  inOffset : ℕ
  outOffset : ℕ
  flag : IpcFlag

inductive MbOutcome
  | returned (e : Err) (value : Option (BitVec 32))
  | blocked (timeout tickDelta : BitVec 32)
  deriving DecidableEq

inductive MbCtrl
  | reset
  | other
  deriving DecidableEq

def mbInit (pool : ℕ → BitVec 32) (size : BitVec 32) (flag : IpcFlag) : Mailbox :=
  { pool, size := size.toNat % 65536, entry := 0, inOffset := 0, outOffset := 0, flag }

namespace Mailbox

def store (mb : Mailbox) (value : BitVec 32) : Mailbox :=
  { mb with
    pool := update mb.pool mb.inOffset value
    inOffset := if mb.size ≤ (mb.inOffset + 1) % 65536 then 0 else (mb.inOffset + 1) % 65536
    entry := (mb.entry + 1) % 65536 }

def fetch (mb : Mailbox) : Mailbox :=
  { mb with
    outOffset := if mb.size ≤ (mb.outOffset + 1) % 65536 then 0 else (mb.outOffset + 1) % 65536
    entry := (mb.entry + 65535) % 65536 }

-- on a variable, the check of `rfl` compares the counters before it looks at the field
@[simp] theorem store_size (mb : Mailbox) (value : BitVec 32) : (mb.store value).size = mb.size := by
  rfl

@[simp] theorem fetch_size (mb : Mailbox) : mb.fetch.size = mb.size := by
  cases mb
  rfl

theorem fetch_flag (mb : Mailbox) : mb.fetch.flag = mb.flag := by
  cases mb
  rfl

def contents (mb : Mailbox) : List (BitVec 32) := Ring.contents mb.pool mb.size mb.outOffset mb.entry

structure Ok (mb : Mailbox) : Prop where
  size_lt : mb.size < 65536
  entry_le : mb.entry ≤ mb.size
  ring : 0 < mb.size → Ring.Valid mb.size mb.outOffset mb.inOffset mb.entry

theorem Ok.init (pool : ℕ → BitVec 32) (size : BitVec 32) (flag : IpcFlag) : (mbInit pool size flag).Ok :=
  ⟨Nat.mod_lt _ (by omega), Nat.zero_le _, Ring.Valid.empty⟩

variable {mb : Mailbox}

theorem Ok.reset (h : mb.Ok) : Ok { mb with entry := 0, inOffset := 0, outOffset := 0 } :=
  ⟨h.size_lt, Nat.zero_le _, Ring.Valid.empty⟩

theorem wrap_eq_succ {n i : ℕ} (hn : n < 65536) (hi : i < n) :
    (if n ≤ (i + 1) % 65536 then 0 else (i + 1) % 65536) = Ring.succ n i := by
  rw [Nat.mod_eq_of_lt (show i + 1 < 65536 by omega)]
  rfl

theorem Ok.store (h : mb.Ok) (hfull : mb.entry ≠ mb.size) (value : BitVec 32) :
    (mb.store value).Ok ∧ (mb.store value).entry = mb.entry + 1 ∧
      (mb.store value).contents = mb.contents ++ [value] := by
  have hlt : mb.entry < mb.size := lt_of_le_of_ne h.entry_le hfull
  have hv := h.ring (Nat.zero_lt_of_lt hlt)
  have hentry : (mb.entry + 1) % 65536 = mb.entry + 1 := Nat.mod_eq_of_lt (by have := h.size_lt; omega)
  have hin := wrap_eq_succ h.size_lt hv.last_lt
  refine ⟨⟨h.size_lt, ?_, fun _ => ?_⟩, hentry, ?_⟩
  · simp only [Mailbox.store, hentry]
    omega
  · simp only [Mailbox.store, hentry, hin]
    exact hv.push hlt
  · simp only [contents, Mailbox.store, hentry]
    exact hv.contents_push hlt mb.pool value

theorem Ok.fetch (h : mb.Ok) (hempty : mb.entry ≠ 0) : mb.fetch.Ok ∧ mb.fetch.entry + 1 = mb.entry ∧
      mb.contents = mb.pool mb.outOffset :: mb.fetch.contents := by
  obtain ⟨n, hn⟩ : ∃ n, mb.entry = n + 1 := ⟨mb.entry - 1, by omega⟩
  have hle := h.entry_le
  have hv := h.ring (by omega)
  rw [hn] at hv
  have hentry : (mb.entry + 65535) % 65536 = n := by have := h.size_lt; omega
  have hout := wrap_eq_succ h.size_lt hv.first_lt
  have hsize : mb.fetch.size < 65536 := by rw [fetch_size]; exact h.size_lt
  refine ⟨⟨hsize, ?_, fun _ => ?_⟩, ?_, ?_⟩
  · simp only [Mailbox.fetch, hentry]
    omega
  · simp only [Mailbox.fetch, hentry, hout]
    exact hv.pop
  · simp only [Mailbox.fetch, hentry]
    omega
  · have hrest : mb.fetch.contents = Ring.contents mb.pool mb.size (Ring.succ mb.size mb.outOffset) n := by
      simp only [contents, Mailbox.fetch, hentry, hout]
    rw [hrest, contents, hn]
    exact hv.contents_pop mb.pool

end Mailbox

variable {T W : Type} [DecidableEq T] [DecidableEq W]

def MbOutcome.ofWait (e : Err) : Option (BitVec 32 × BitVec 32) → MbOutcome
  | none => .returned e none
  | some (timeout, tickDelta) => .blocked timeout tickDelta

/-- What sending and receiving differ in: the test of the waiting loop, the lists to wait in and to resume from, and
what a call does that may not wait and one that goes through. -/
structure MbOp (W : Type) where
  stuck : Mailbox → Bool
  wait : W
  wake : W
  errno : Err
  refusal : Err
  apply : Mailbox → Mailbox
  result : Mailbox → Option (BitVec 32)

def mbSendOp (recv send : W) (value : BitVec 32) : MbOp W where
  stuck mb := mb.entry = mb.size
  wait := send
  wake := recv
  -- a sender that may not wait returns an error that it does not leave in its thread
  errno := .eok
  refusal := .efull
  apply mb := mb.store value
  result _ := none

def mbRecvOp (recv send : W) : MbOp W where
  stuck mb := mb.entry = 0
  wait := recv
  wake := send
  errno := .etimeout
  refusal := .etimeout
  apply mb := mb.fetch
  result mb := some (mb.pool mb.outOffset)

def mbLoop (k : Kernel T W) (op : MbOp W) (mb : Mailbox) (timeout : BitVec 32) :
    Option (Kernel T W × Mailbox × MbOutcome) :=
  if op.stuck mb then
    (k.waitOn op.wait mb.flag op.errno timeout).map (fun (k, p) => (k, mb, .ofWait op.refusal p))
  else some (k.resumeFirst op.wake, op.apply mb, .returned .eok (op.result mb))

def mbCall (k : Kernel T W) (op : MbOp W) (mb : Mailbox) (timeout : BitVec 32) :
    Option (Kernel T W × Mailbox × MbOutcome) :=
  if op.stuck mb ∧ timeout = 0 then some (k, mb, .returned op.refusal none) else mbLoop k op mb timeout

def mbResume (k : Kernel T W) (op : MbOp W) (t : T) (mb : Mailbox) (timeout tickDelta : BitVec 32) :
    Option (Kernel T W × Mailbox × MbOutcome) :=
  if (k.thread t).error ≠ .eok then some (k, mb, .returned (k.thread t).error none)
  else mbLoop k op mb (k.timeLeft timeout tickDelta)

def mbSendWait (k : Kernel T W) (recv send : W) (mb : Mailbox) (value timeout : BitVec 32) :
    Option (Kernel T W × Mailbox × MbOutcome) :=
  mbCall k (mbSendOp recv send value) mb timeout

def mbSend (k : Kernel T W) (recv send : W) (mb : Mailbox) (value : BitVec 32) :
    Option (Kernel T W × Mailbox × MbOutcome) :=
  mbSendWait k recv send mb value 0

def mbRecv (k : Kernel T W) (recv send : W) (mb : Mailbox) (timeout : BitVec 32) :
    Option (Kernel T W × Mailbox × MbOutcome) :=
  mbCall k (mbRecvOp recv send) mb timeout

def mbControl (k : Kernel T W) (recv send : W) (mb : Mailbox) : MbCtrl → Kernel T W × Mailbox × Err
  | .reset => (((k.ipcListResumeAll recv).ipcListResumeAll send).schedule,
      { mb with entry := 0, inOffset := 0, outOffset := 0 }, .eok)
  | .other => (k, mb, .error)

inductive MbTurn (k : Kernel T W) (op : MbOp W) (mb : Mailbox) (timeout : BitVec 32) :
    Kernel T W → Mailbox → MbOutcome → Prop
  | waits {k' : Kernel T W} {p : Option (BitVec 32 × BitVec 32)} (hstuck : op.stuck mb = true)
      (hw : k.waitOn op.wait mb.flag op.errno timeout = some (k', p)) :
      MbTurn k op mb timeout k' mb (.ofWait op.refusal p)
  | done (hfree : op.stuck mb = false) :
      MbTurn k op mb timeout (k.resumeFirst op.wake) (op.apply mb) (.returned .eok (op.result mb))

theorem mbLoop_turn {k k' : Kernel T W} {op : MbOp W} {mb mb' : Mailbox} {timeout : BitVec 32} {r : MbOutcome}
    (h : mbLoop k op mb timeout = some (k', mb', r)) : MbTurn k op mb timeout k' mb' r := by
  unfold mbLoop at h
  split_ifs at h with hstuck
  · obtain ⟨⟨j, p⟩, hj, he⟩ := Option.map_eq_some_iff.mp h
    cases he
    exact .waits hstuck hj
  · cases h
    exact .done (by simpa using hstuck)

inductive MbEffect (k : Kernel T W) (op : MbOp W) (t : T) (mb : Mailbox) :
    Kernel T W → Mailbox → MbOutcome → Prop
  | failed {k' : Kernel T W} {e : Err} (errno : Err) (he : e ≠ .eok)
      (hstuck : k.view.error t = .eok → op.stuck mb = true) (hk : k'.Wf)
      (hv : k'.view = k.view.setError t errno) :
      MbEffect k op t mb k' mb (.returned e none)
  | parked {k' : Kernel T W} (timeout tickDelta : BitVec 32) (hstuck : op.stuck mb = true) (hk : k'.Wf)
      (hv : k'.view = k.view.parked op.wait mb.flag t) :
      MbEffect k op t mb k' mb (.blocked timeout tickDelta)
  | done (hfree : op.stuck mb = false) :
      MbEffect k op t mb ((k.dispatch t).resumeFirst op.wake) (op.apply mb) (.returned .eok (op.result mb))

namespace Kernel.Wf

variable {k k' : Kernel T W} {op : MbOp W} {t : T} {mb mb' : Mailbox} {timeout tickDelta : BitVec 32}
  {r : MbOutcome}

variable (hk : k.Wf) (hop : op.refusal ≠ .eok) (hr : k.view.stat t = .ready)

include hk hop hr

theorem mbLoop
    (h : RtThread.mbLoop (k.dispatch t) op mb timeout = some (k', mb', r)) : MbEffect k op t mb k' mb' r := by
  cases mbLoop_turn h with
  | waits hstuck hj =>
    obtain ⟨hw, heff⟩ := hk.waitOn hr hj
    cases heff with
    | refused hv => exact .failed _ hop (fun _ => hstuck) hw hv
    | parked p hv => exact .parked p.1 p.2 hstuck hw hv
  | done hfree => exact .done hfree

theorem mbCall
    (h : RtThread.mbCall (k.dispatch t) op mb timeout = some (k', mb', r)) : MbEffect k op t mb k' mb' r := by
  unfold RtThread.mbCall at h
  split_ifs at h with hz
  · cases h
    refine .failed (k.view.error t) hop (fun _ => hz.1) (hk.dispatch t) ?_
    rw [View.setError_self, dispatch_view]
  · exact hk.mbLoop hop hr h

theorem mbResume (h : RtThread.mbResume (k.dispatch t) op t mb timeout tickDelta = some (k', mb', r)) :
    MbEffect k op t mb k' mb' r := by
  unfold RtThread.mbResume at h
  split_ifs at h with he
  · cases h
    refine .failed (k.view.error t) he (fun hok => absurd hok he) (hk.dispatch t) ?_
    rw [View.setError_self, dispatch_view]
  · exact hk.mbLoop hop hr h

end Kernel.Wf

end RtThread
