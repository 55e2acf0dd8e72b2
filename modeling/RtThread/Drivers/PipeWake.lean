import RtThread.Drivers.Pipe

/-!
A call on a pipe that gets through resumes one thread of the other side, and leaves its own side to threads that have
been resumed before.
-/

namespace RtThread

open Transition Function List Option RingBuffer PipeSide

variable {T : Type} [DecidableEq T]

def PipeSide.other : PipeSide → PipeSide
  | .readers => .writers
  | .writers => .readers

theorem PipeSide.other_ne (side : PipeSide) : side.other ≠ side := by
  cases side <;> nofun

@[simp] theorem PipeSide.other_other (side : PipeSide) : side.other.other = side := by
  cases side <;> rfl

theorem PipeSide.eq_other {side side' : PipeSide} (h : side' ≠ side) : side' = side.other := by
  cases side <;> cases side' <;> first | rfl | exact absurd rfl h

namespace PipeCall

def side : PipeCall → PipeSide
  | .read _ => .readers
  | .write _ => .writers

def length : PipeCall → ℕ
  | .read size => size.toNat % 65536
  | .write source => source.size.toNat % 65536

end PipeCall

namespace Pipe

def amount (p : Pipe) : PipeSide → ℕ
  | .readers => p.ringbuffer.dataLen
  | .writers => p.ringbuffer.spaceLen

structure Blocking (p : Pipe) : Prop where
  blockRd : p.blockRd = true
  blockWr : p.blockWr = true
  forceWr : p.forceWr = false

inductive TurnEffect (p : Pipe) (k : Kernel T PipeSide) (t : T) (c : PipeCall) (p' : Pipe) :
    Kernel T PipeSide → PipeOutcome → Prop
  | blocked (hz : min c.length (p.amount c.side) = 0) (hsame : ∀ side, p'.amount side = p.amount side) :
      TurnEffect p k t c p' (suspend k c.side t) .blocked
  | passed {o : PipeOutcome} (ho : o ≠ .blocked) (hpos : min c.length (p.amount c.side) ≠ 0)
      (htake : p'.amount c.side = p.amount c.side - min c.length (p.amount c.side))
      (hgive : p'.amount c.side.other = p.amount c.side.other + min c.length (p.amount c.side)) :
      TurnEffect p k t c p' (k.resumeFirst c.side.other) o

variable {p p' : Pipe} {k k' : Kernel T PipeSide} {t : T} {c : PipeCall} {o : PipeOutcome}

theorem resume_blocking (k : Kernel T PipeSide) (side : PipeSide) : resume k side true = some (k.resumeFirst side) := by
  unfold resume
  by_cases hnil : k.lists (.wait side) = []
  · rw [if_pos hnil, Kernel.resumeFirst_nil hnil]
  · rw [if_neg hnil, if_pos rfl]

section

variable {rb : RingBuffer} (hv : rb.Valid) {n : ℕ} (hn : n ≤ rb.dataLen)

include hv hn

theorem dataLen_advanceRead : (rb.advanceRead n).dataLen = rb.dataLen - n := by
  rw [← length_contents, (hv.advanceRead hn).2, length_drop, length_contents]

theorem spaceLen_advanceRead : (rb.advanceRead n).spaceLen = rb.spaceLen + n := by
  have hle := hv.encodes.len_le
  have hlen := dataLen_advanceRead hv hn
  have hsize : (rb.advanceRead n).bufferSize = rb.bufferSize := rfl
  unfold spaceLen
  omega

end

variable (hb : p.Blocking) (hv : p.ringbuffer.Valid)

include hb hv

theorem Blocking.read_effect {size : BitVec 32} (h : p.read k t size = some (k', p', o)) :
    p'.Blocking ∧ p'.ringbuffer.Valid ∧ TurnEffect p k t (.read size) p' k' o := by
  have hle : p.readLen size ≤ p.ringbuffer.dataLen := Nat.min_le_right _ _
  have hdata := dataLen_advanceRead hv hle
  have hspace := spaceLen_advanceRead hv hle
  obtain ⟨rfl, hcases⟩ := read_cases hv h
  refine ⟨⟨hb.blockRd, hb.blockWr, hb.forceWr⟩, (hv.advanceRead hle).1, ?_⟩
  obtain ⟨-, hz, rfl, rfl⟩ | ⟨hpos, hres, rfl⟩ := hcases
  · refine .blocked hz (fun side => ?_)
    cases side with
    | readers => exact hz ▸ hdata
    | writers => exact hz ▸ hspace
  · have hk := hres (hpos hb.blockRd)
    rw [resumeWriter, hb.blockWr, resume_blocking, Option.some.injEq] at hk
    subst hk
    exact .passed nofun (hpos hb.blockRd) hdata hspace

theorem Blocking.write_effect {source : PipeSource} (h : p.write k t source = some (k', p', o)) :
    p'.Blocking ∧ p'.ringbuffer.Valid ∧ TurnEffect p k t (.write source) p' k' o := by
  have hw : p.waits = true := by simp [waits, hb.blockWr, hb.forceWr]
  have hsum := dataLen_add_spaceLen hv
  have hn : p.writeLen source.size = min (source.size.toNat % 65536) p.ringbuffer.spaceLen := rfl
  have hfits := source.fits
  obtain ⟨ringbuffer, hv', hsize, hc, rfl, hcases⟩ := write_cases hv hw h
  have hdata : ringbuffer.dataLen = p.ringbuffer.dataLen + p.writeLen source.size := by
    rw [← length_contents, hc, length_append, length_contents, length_take_of_le (by omega)]
  have hsum' := dataLen_add_spaceLen hv'
  refine ⟨⟨hb.blockRd, hb.blockWr, hb.forceWr⟩, hv', ?_⟩
  obtain ⟨hz, rfl, rfl⟩ | ⟨hpos, hres, rfl⟩ := hcases
  · refine .blocked hz (fun side => ?_)
    cases side <;> simp only [amount] <;> omega
  · rw [resumeReader, hb.blockRd, resume_blocking, Option.some.injEq] at hres
    subst hres
    refine .passed nofun hpos ?_ ?_
    · simp only [amount, PipeCall.side, PipeCall.length]
      omega
    · simp only [amount, PipeCall.side, PipeCall.length, other]
      omega

theorem Blocking.turn_effect (h : p.turn k t c = some (k', p', o)) :
    p'.Blocking ∧ p'.ringbuffer.Valid ∧ TurnEffect p k t c p' k' o := by
  cases c with
  | read size => exact hb.read_effect hv h
  | write source => exact hb.write_effect hv h

end Pipe

namespace PipeSystem

def Resumed (s : PipeSystem T) (t : T) : Prop := (s.pc t).isSome = true ∧ (s.kernel.thread t).stat = .ready

instance (s : PipeSystem T) (t : T) : Decidable (s.Resumed t) := instDecidableAnd

def NoneStuck (s : PipeSystem T) : Prop :=
  (∀ t, ¬s.Resumed t) → ∀ side, s.kernel.view.waiting side ≠ [] → s.pipe.amount side = 0

def LeavesOver (s : PipeSystem T) (t : T) (c : PipeCall) : Prop :=
  c.length < s.pipe.amount c.side ∧ s.kernel.lists (.wait c.side) ≠ [] ∧
  s.kernel.lists (.wait c.side.other) = [] ∧
    ∀ u, u ≠ t → ¬s.Resumed u

instance [Fintype T] (s : PipeSystem T) (t : T) (c : PipeCall) : Decidable (s.LeavesOver t c) := instDecidableAnd

def HandsOn (s : PipeSystem T) (t : T) (c : PipeCall) : Prop :=
  s.pipe.amount c.side = 0 ∨ c.length ≠ 0 ∧ ¬s.LeavesOver t c

instance [Fintype T] (s : PipeSystem T) (t : T) (c : PipeCall) : Decidable (s.HandsOn t c) := instDecidableOr

def HandsOnAt (s : PipeSystem T) : PipeEvent T → Prop
  | .call t c => s.HandsOn t c
  | .proceed t => ∀ c ∈ s.pc t, s.HandsOn t c

instance [Fintype T] (s : PipeSystem T) : ∀ e, Decidable (s.HandsOnAt e)
  | .call t c => inferInstanceAs (Decidable (s.HandsOn t c))
  | .proceed _ => Option.decidableForallMem _

structure Start (s : PipeSystem T) : Prop where
  wf : s.kernel.Wf
  waiting : ∀ side, s.kernel.view.waiting side = []
  pc : ∀ t, s.pc t = none
  blocking : s.pipe.Blocking
  valid : s.pipe.ringbuffer.Valid

def Pending (s : PipeSystem T) (side : PipeSide) (t : T) : Prop :=
  (s.pc t).map PipeCall.side = some side ∧ (s.kernel.thread t).stat = .ready

/-- Whoever is suspended and could get through is resumed by somebody who is on the way: a thread of the same side has
been resumed, or one of the other side that will get through and resume it. -/
structure Inv (s : PipeSystem T) : Prop where
  wf : s.kernel.Wf
  blocking : s.pipe.Blocking
  valid : s.pipe.ringbuffer.Valid
  inCall : ∀ t side, t ∈ s.kernel.view.waiting side → (s.pc t).map PipeCall.side = some side
  cover : ∀ side, s.kernel.view.waiting side ≠ [] → s.pipe.amount side ≠ 0 →
    (∃ t, s.Pending side t) ∨ (∃ t, s.Pending side.other t) ∧ s.pipe.amount side.other ≠ 0

variable {s s' : PipeSystem T} {t u : T} {c : PipeCall} {side : PipeSide}

section

omit [DecidableEq T]

theorem Start.inv (h : s.Start) : s.Inv where
  wf := h.wf
  blocking := h.blocking
  valid := h.valid
  inCall t side ht := by simp [h.waiting] at ht
  cover side hne := absurd (h.waiting side) hne

theorem Pending.resumed (h : s.Pending side t) : s.Resumed t := by
  refine ⟨?_, h.2⟩
  obtain ⟨c, hc, _⟩ := map_eq_some_iff.mp h.1
  rw [hc]
  rfl

theorem Resumed.pending (h : s.Resumed t) : ∃ side, s.Pending side t := by
  obtain ⟨c, hc⟩ := isSome_iff_exists.mp h.1
  exact ⟨c.side, by rw [hc]; rfl, h.2⟩

theorem Inv.noneStuck (h : s.Inv) : s.NoneStuck := by
  intro hquiet side hne
  by_contra hpos
  rcases h.cover side hne hpos with ⟨t, ht⟩ | ⟨⟨t, ht⟩, _⟩
  · exact hquiet t ht.resumed
  · exact hquiet t ht.resumed

theorem Pending.ne_of_other (h : s.Pending c.side.other u) (hpc : s.pc t = none ∨ s.pc t = some c) : u ≠ t := by
  rintro rfl
  have hside := h.1
  rcases hpc with hn | hc
  · simp [hn] at hside
  · rw [hc, map_some, Option.some.injEq] at hside
    exact c.side.other_ne hside.symm

end

theorem Pending.of_ne (h : s.Pending side u) (hne : u ≠ t) {x : Option PipeCall}
    (hpc : s'.pc = update s.pc t x) (hstat : s'.kernel.view.stat u = .ready) : s'.Pending side u := by
  refine ⟨?_, hstat⟩
  rw [hpc, update_of_ne hne]
  exact h.1

theorem suspend_view {k : Kernel T PipeSide} (hk : k.Wf) (hr : k.view.stat t = .ready) (side : PipeSide) :
    (Pipe.suspend k side t).Wf ∧ (Pipe.suspend k side t).view = { k.view with
      stat := update k.view.stat t .suspend
      waiting := update k.view.waiting side (k.view.waiting side ++ [t]) } := by
  have hs : k.suspendFor side t .fifo 0 = some (Pipe.suspend k side t) := rfl
  exact hk.suspendFor_view hr hs

theorem Inv.blocked (h : s.Inv) (hr : s.kernel.view.stat t = .ready) (hpc : s.pc t = none ∨ s.pc t = some c)
    (hz : s.pipe.amount c.side = 0) {pipe : Pipe} (hb : pipe.Blocking) (hv : pipe.ringbuffer.Valid)
    (hsame : ∀ side, pipe.amount side = s.pipe.amount side) :
    (s.after t c (Pipe.suspend (s.kernel.dispatch t) c.side t, pipe, .blocked)).Inv := by
  obtain ⟨hwf, hview⟩ := suspend_view (h.wf.dispatch t) hr c.side
  refine ⟨hwf, hb, hv, ?_, ?_⟩
  · intro u side hu
    obtain rfl | hut := eq_or_ne u t
    · by_cases hside : side = c.side
      · simp [after, hside]
      · simp only [after, hview, update_of_ne hside] at hu
        exact absurd hu (h.wf.not_waiting hr side)
    · have hold : u ∈ s.kernel.view.waiting side := by
        by_cases hside : side = c.side
        · subst hside
          simpa [after, hview, hut] using hu
        · simpa [after, hview, hside] using hu
      simpa [after, hut] using h.inCall u side hold
  · intro side hne hpos
    simp only [after, hsame] at hpos
    -- its own side has nothing to transfer, so this is about the other one
    obtain rfl : side = c.side.other := eq_other (fun he => hpos (he ▸ hz))
    simp only [after, hview, update_of_ne c.side.other_ne] at hne
    rcases h.cover _ hne hpos with ⟨u, hu⟩ | ⟨_, hown⟩
    · have hut := hu.ne_of_other hpc
      refine .inl ⟨u, hu.of_ne hut rfl ?_⟩
      simp only [after, hview, update_of_ne hut]
      exact hu.2
    · rw [other_other] at hown
      exact absurd hz hown

theorem resumeFirst_view {k : Kernel T PipeSide} (hk : k.Wf) (side : PipeSide) :
    (k.resumeFirst side).Wf ∧
      (k.resumeFirst side).view.waiting = update k.view.waiting side (k.view.waiting side).tail ∧
      ∀ u, k.view.stat u = .ready ∨ (k.view.waiting side).head? = some u →
        (k.resumeFirst side).view.stat u = .ready := by
  cases hl : k.view.waiting side with
  | nil =>
    rw [Kernel.resumeFirst_nil hl]
    refine ⟨hk, ?_, fun u hu => hu.resolve_right nofun⟩
    rw [tail_nil, ← hl, update_eq_self]
  | cons first l =>
    obtain ⟨hwf, hview⟩ := hk.resumeFirst_view hl
    refine ⟨hwf, by rw [hview]; rfl, fun u hu => ?_⟩
    by_cases huf : u = first
    · simp [hview, huf]
    · simp only [hview, update_of_ne huf]
      exact hu.resolve_right (fun he => huf (Option.some.inj he).symm)

section

variable (h : s.Inv) (hr : s.kernel.view.stat t = .ready)

include h hr

theorem Inv.passed (hc : ¬s.LeavesOver t c) {pipe : Pipe}
    (hb : pipe.Blocking) (hv : pipe.ringbuffer.Valid) (o : PipeOutcome)
    (hpos : min c.length (s.pipe.amount c.side) ≠ 0)
    (htake : pipe.amount c.side = s.pipe.amount c.side - min c.length (s.pipe.amount c.side))
    (hgive : pipe.amount c.side.other = s.pipe.amount c.side.other + min c.length (s.pipe.amount c.side)) :
    (s.after t c ((s.kernel.dispatch t).resumeFirst c.side.other, pipe, o)).Inv := by
  obtain ⟨hwf, hwait, hstat⟩ := resumeFirst_view (h.wf.dispatch t) c.side.other
  have hready : ∀ u side, s.Pending side u → u ≠ t →
      (s.after t c ((s.kernel.dispatch t).resumeFirst c.side.other, pipe, o)).Pending side u :=
    fun u _ hu hut => hu.of_ne hut rfl (hstat u (.inl hu.2))
  -- the thread that is resumed, if there is one
  have hfirst : ∀ first l, s.kernel.view.waiting c.side.other = first :: l →
      (s.after t c ((s.kernel.dispatch t).resumeFirst c.side.other, pipe, o)).Pending c.side.other first := by
    intro first l hl
    have hmem : first ∈ s.kernel.view.waiting c.side.other := by simp [hl]
    have hne : first ≠ t := fun he => h.wf.not_waiting hr _ (he ▸ hmem)
    refine ⟨?_, hstat first (.inr (by simp [hl]))⟩
    simpa [after, hne] using h.inCall first _ hmem
  refine ⟨hwf, hb, hv, ?_, ?_⟩
  · intro u side hu
    have hold : u ∈ s.kernel.view.waiting side := by
      simp only [after, hwait] at hu
      by_cases hside : side = c.side.other
      · subst hside
        rw [update_self] at hu
        exact mem_of_mem_tail hu
      · rwa [update_of_ne hside] at hu
    have hut : u ≠ t := fun he => h.wf.not_waiting hr side (he ▸ hold)
    simpa [after, hut] using h.inCall u side hold
  · intro side hne hamount
    simp only [after] at hamount
    simp only [after, hwait] at hne
    by_cases hside : side = c.side
    · subst hside
      rw [update_of_ne c.side.other_ne.symm] at hne
      have hpos' : pipe.amount c.side.other ≠ 0 := by omega
      cases hl : s.kernel.view.waiting c.side.other with
      | cons first l => exact .inr ⟨⟨first, hfirst first l hl⟩, hpos'⟩
      | nil =>
        -- nobody is resumed, but somebody else is on the way
        by_contra hnone
        refine hc ⟨by omega, hne, hl, ?_⟩
        intro u hut hu
        obtain ⟨side, hu⟩ := hu.pending
        by_cases hside : side = c.side
        · exact hnone (.inl ⟨u, hside ▸ hready u _ hu hut⟩)
        · exact hnone (.inr ⟨⟨u, eq_other hside ▸ hready u _ hu hut⟩, hpos'⟩)
    · obtain rfl := eq_other hside
      cases hl : s.kernel.view.waiting c.side.other with
      | nil => simp [hl] at hne
      | cons first l => exact .inl ⟨first, hfirst first l hl⟩

theorem Inv.turn (hpc : s.pc t = none ∨ s.pc t = some c) (hc : s.HandsOn t c) (hs : s.turn t c = some s') :
    s'.Inv := by
  obtain ⟨⟨kernel, pipe, o⟩, hturn, rfl⟩ := map_eq_some_iff.mp hs
  obtain ⟨hb, hv, heffect⟩ := h.blocking.turn_effect h.valid hturn
  cases heffect with
  | blocked hz hsame =>
    have hnone : s.pipe.amount c.side = 0 := by
      rcases hc with hnone | ⟨hlen, _⟩
      · exact hnone
      · omega
    exact h.blocked hr hpc hnone hb hv hsame
  | passed ho hpos htake hgive =>
    have hc' : ¬s.LeavesOver t c := by
      rcases hc with hnone | ⟨_, hc⟩
      · omega
      · exact hc
    exact h.passed hr hc' hb hv o hpos htake hgive

end

theorem step_turn {e : PipeEvent T} (hs : s.step e = some s') :
    ∃ t c, s.kernel.view.stat t = .ready ∧ (s.pc t = none ∨ s.pc t = some c) ∧ s.turn t c = some s' ∧
      (s.HandsOnAt e ↔ s.HandsOn t c) := by
  cases e with
  | call t c =>
    obtain ⟨⟨hpc, hr⟩, hs⟩ := ite_none_right_eq_some.mp hs
    exact ⟨t, c, hr, .inl hpc, hs, Iff.rfl⟩
  | proceed t =>
    cases hpc : s.pc t with
    | none => simp [step, hpc] at hs
    | some c =>
      simp only [step, hpc] at hs
      obtain ⟨hr, hs⟩ := ite_none_right_eq_some.mp hs
      exact ⟨t, c, hr, .inr hpc, hs, by simp [HandsOnAt, hpc]⟩

theorem Inv.step (h : s.Inv) {e : PipeEvent T} (hc : s.HandsOnAt e) (hs : s.step e = some s') : s'.Inv := by
  obtain ⟨t, c, hr, hpc, hturn, hiff⟩ := step_turn hs
  exact h.turn hr hpc (hiff.mp hc) hturn

theorem Inv.stuck (h : s.Inv) (hlen : c.length ≠ 0) (hc : s.LeavesOver t c) (hs : s.turn t c = some s') :
    ¬s'.NoneStuck := by
  obtain ⟨hless, hwaiting, hnobody, hquiet⟩ := hc
  obtain ⟨⟨kernel, pipe, o⟩, hturn, rfl⟩ := map_eq_some_iff.mp hs
  obtain ⟨-, -, heffect⟩ := h.blocking.turn_effect h.valid hturn
  cases heffect with
  | blocked hz => omega
  | passed ho hpos htake hgive =>
    intro hfine
    have hk : (s.kernel.dispatch t).resumeFirst c.side.other = s.kernel.dispatch t := Kernel.resumeFirst_nil hnobody
    rw [hk] at hfine
    have hnone : pipe.amount c.side = 0 := by
      refine hfine ?_ c.side hwaiting
      intro u hu
      by_cases hut : u = t
      · have hpc := hu.1
        simp [after, hut, ho] at hpc
      · refine hquiet u hut ⟨?_, hu.2⟩
        simpa [after, hut] using hu.1
    omega

end PipeSystem

open PipeSystem

theorem pipe_none_stuck {s : PipeSystem T} (hr : Reachable PipeSystem.step HandsOnAt Start s) :
    s.NoneStuck ∧ ∀ t c s', s.turn t c = some s' → c.length ≠ 0 → s.LeavesOver t c → ¬s'.NoneStuck := by
  have hinv : s.Inv := hr.invariant (fun _ h => h.inv) (fun _ _ _ h hc hs => h.step hc hs)
  exact ⟨hinv.noneStuck, fun t c s' hs hlen hc => hinv.stuck hlen hc hs⟩

def waitingBoth : Pipe where
  ringbuffer := ringbufferInit (fun _ => 0) 4
  blockRd := true
  blockWr := true
  forceWr := false
  rxIndicate := false

def threeKernel : Kernel Tid PipeSide :=
  bootKernel Tid.priority [.startup .high, .startup .mid, .startup .low, .schedulerStart]

def threeUsers : PipeSystem Tid := { startPipe waitingBoth with kernel := threeKernel }

theorem threeUsers_start : threeUsers.Start := by
  have hwf : threeKernel.Wf := bootKernel_wf (by decide) _
  have hw : ∀ side, threeKernel.view.waiting side = [] := by
    intro side
    cases side <;> decide +kernel
  exact ⟨hwf, hw, fun _ => rfl, ⟨rfl, rfl, rfl⟩, (ringbufferInit_valid _ 4 (by decide) (by decide)).1⟩

def oneEach : List (PipeEvent Tid) :=
  [.call .high (.read 1), .call .mid (.read 1), .call .low (.write ⟨[1], 1, by decide⟩), .proceed .high,
    .call .low (.write ⟨[2], 1, by decide⟩), .proceed .mid]

theorem pipe_none_stuck_oneEach : ∃ s, run PipeSystem.step threeUsers oneEach = some s ∧ s.readOut = [1, 2] ∧
    s.NoneStuck := by
  refine exists_some_and (by decide +kernel) (fun s hs _ => ?_)
  exact (pipe_none_stuck (.of_run (.start threeUsers_start) (by decide +kernel) hs)).1

theorem pipe_reader_stuck : ∃ s, run PipeSystem.step threeUsers
    [.call .high (.read 1), .call .mid (.read 1), .call .low (.write ⟨[1, 2], 2, by decide⟩),
      .proceed .high] = some s ∧
      s.kernel.view.waiting .readers = [.mid] ∧ s.pipe.ringbuffer.contents = [2] ∧ (∀ t, ¬s.Resumed t) ∧
      ¬s.NoneStuck := by
  refine exists_some_imp (P := fun s => _ ∧ _ ∧ _) (by decide +kernel)
    (fun s _ h => ⟨h.1, h.2.1, h.2.2, fun hfine => ?_⟩)
  have hnone : s.pipe.ringbuffer.dataLen = 0 := hfine h.2.2 .readers (by simp [h.1])
  rw [← length_contents, h.2.1] at hnone
  exact absurd hnone (by decide)

end RtThread
