import RtThread.Kernel.ReadyQueue

/-!
The scheduler names the next thread at once; the processor follows in `vTaskSwitchContext`, by way of `pxSaveTCB`.
-/

namespace RtThread

open Option

/-- A thread stands for the slot of its stack pointer. `yields` counts `portYIELD` and `portYIELD_FROM_ISR`. -/
structure PortContext (T W : Type) where
  kernel : Kernel T W
  interruptNest : BitVec 8
  pxCurrentTCB : Option T
  pxSaveTCB : Option T
  yields : ℕ

/-- Whatever else the kernel does is a `change`: only `rt_schedule` sets `rt_current_thread`. -/
inductive PortStep (T W : Type)
  | schedule
  | interruptEnter
  | interruptLeave
  | incrementTick (changes : List (Kernel T W))
  | switchContext
  | change (k : Kernel T W)

namespace PortContext

variable {T W : Type}

def Told (s : PortContext T W) : Prop :=
  ∃ t, s.kernel.current = some t ∧ (s.pxSaveTCB = none ∧ s.pxCurrentTCB = some t ∨ s.pxSaveTCB = some t)

structure Moves (s s' : PortContext T W) : Prop where
  told : s.Told → s'.Told
  yields : s.yields ≤ s'.yields
  saved : s'.pxSaveTCB.isSome → s.yields < s'.yields ∨ s.pxSaveTCB.isSome

theorem Moves.refl (s : PortContext T W) : Moves s s := ⟨id, le_rfl, .inr⟩

theorem Moves.trans {s s' s'' : PortContext T W} (h : Moves s s') (h' : Moves s' s'') : Moves s s'' := by
  refine ⟨fun ht => h'.told (h.told ht), h.yields.trans h'.yields, fun hsaved => ?_⟩
  obtain hlt | hsaved := h'.saved hsaved
  · exact .inl (h.yields.trans_lt hlt)
  · exact (h.saved hsaved).imp_left (fun hlt => hlt.trans_le h'.yields)

def rtHwContextSwitchTo (s : PortContext T W) (t : T) : PortContext T W := { s with pxSaveTCB := some t }

def rtHwContextSwitch (s : PortContext T W) (t : T) : PortContext T W :=
  { s with pxSaveTCB := some t, yields := s.yields + 1 }

def rtHwContextSwitchInterrupt (s : PortContext T W) (t : T) : PortContext T W :=
  { s with pxSaveTCB := some t, yields := s.yields + 1 }

def rtInterruptEnter (s : PortContext T W) : PortContext T W := { s with interruptNest := s.interruptNest + 1 }

def rtInterruptLeave (s : PortContext T W) : PortContext T W := { s with interruptNest := s.interruptNest - 1 }

variable {s s' : PortContext T W} {changes : List (Kernel T W)}

/-- All of it but the call of `xPortStartScheduler`, which comes last. -/
def vTaskStartScheduler (s : PortContext T W) : Option (PortContext T W) :=
  let k := s.kernel.systemSchedulerStart
  k.current.map { s with kernel := k }.rtHwContextSwitchTo

/-- What `xPortStartScheduler` is assumed to do: the processor takes up the thread in `pxSaveTCB`. -/
def FirstDispatch (s s' : PortContext T W) : Prop :=
  s'.kernel.current = s.kernel.current ∧ s'.pxCurrentTCB = s.pxSaveTCB ∧ s'.pxSaveTCB = none

theorem told_firstDispatch {boot : PortContext T W} (h : boot.vTaskStartScheduler = some s) (hs : s.FirstDispatch s') :
    s'.Told := by
  obtain ⟨t, ht, rfl⟩ := map_eq_some_iff.mp h
  obtain ⟨hcurrent, htcb, hsave⟩ := hs
  exact ⟨t, hcurrent.trans ht, .inl ⟨hsave, htcb⟩⟩

variable [DecidableEq T]

def rtSchedule (s : PortContext T W) : PortContext T W :=
  let k := s.kernel.schedule
  if k.current = s.kernel.current then s
  else
    match k.current with
    | none => s
    | some t =>
      if s.interruptNest = 0 then { s with kernel := k }.rtHwContextSwitch t
      else { s with kernel := k }.rtHwContextSwitchInterrupt t

def change (s : PortContext T W) (k : Kernel T W) : Option (PortContext T W) :=
  if k.current = s.kernel.current then some { s with kernel := k } else none

/-- The end of a time slice and each timer that fires change the queues and then call `rt_schedule`. -/
def rtTickIncrease (s : PortContext T W) : List (Kernel T W) → Option (PortContext T W)
  | [] => some s
  | k :: changes => (s.change k).bind (fun s => s.rtSchedule.rtTickIncrease changes)

def xTaskIncrementTick (s : PortContext T W) (changes : List (Kernel T W)) : Option (PortContext T W) :=
  (s.rtInterruptEnter.rtTickIncrease changes).map rtInterruptLeave

def vTaskSwitchContext (s : PortContext T W) : PortContext T W :=
  match s.pxSaveTCB with
  | some t => { s with pxCurrentTCB := some t, pxSaveTCB := none }
  | none => s.rtSchedule

def step (s : PortContext T W) : PortStep T W → Option (PortContext T W)
  | .schedule => some s.rtSchedule
  | .interruptEnter => some s.rtInterruptEnter
  | .interruptLeave => some s.rtInterruptLeave
  | .incrementTick changes => s.xTaskIncrementTick changes
  | .switchContext => some s.vTaskSwitchContext
  | .change k => s.change k

theorem moves_rtSchedule (s : PortContext T W) : Moves s s.rtSchedule := by
  simp only [rtSchedule]
  split
  · exact .refl s
  · split
    · exact .refl s
    · rename_i t ht
      split
      · exact ⟨fun _ => ⟨t, ht, .inr rfl⟩, Nat.le_succ _, fun _ => .inl (Nat.lt_succ_self _)⟩
      · exact ⟨fun _ => ⟨t, ht, .inr rfl⟩, Nat.le_succ _, fun _ => .inl (Nat.lt_succ_self _)⟩

theorem moves_change {k : Kernel T W} (h : s.change k = some s') : Moves s s' := by
  obtain ⟨hk, hs⟩ := ite_none_right_eq_some.mp h
  cases hs
  refine ⟨?_, le_rfl, .inr⟩
  rintro ⟨t, ht, htold⟩
  exact ⟨t, hk.trans ht, htold⟩

theorem moves_rtTickIncrease (h : s.rtTickIncrease changes = some s') : Moves s s' := by
  induction changes generalizing s with
  | nil => exact Option.some.inj h ▸ .refl s
  | cons k changes ih =>
    obtain ⟨u, hu, hrest⟩ := bind_eq_some_iff.mp h
    exact ((moves_change hu).trans (moves_rtSchedule u)).trans (ih hrest)

theorem moves_xTaskIncrementTick (h : s.xTaskIncrementTick changes = some s') : Moves s s' := by
  obtain ⟨u, hu, rfl⟩ := map_eq_some_iff.mp h
  have hmoves := moves_rtTickIncrease hu
  exact ⟨hmoves.told, hmoves.yields, hmoves.saved⟩

theorem moves_vTaskSwitchContext (s : PortContext T W) :
    Moves s s.vTaskSwitchContext ∧
      (s.vTaskSwitchContext.pxSaveTCB.isSome → s.yields < s.vTaskSwitchContext.yields) := by
  unfold vTaskSwitchContext
  split
  · rename_i t hsave
    refine ⟨⟨?_, le_rfl, nofun⟩, nofun⟩
    rintro ⟨u, hu, ⟨hnone, -⟩ | hsome⟩
    · rw [hnone] at hsave
      cases hsave
    · exact ⟨u, hu, .inl ⟨rfl, hsave.symm.trans hsome⟩⟩
  · rename_i hsave
    have hmoves := moves_rtSchedule s
    refine ⟨hmoves, fun hsaved => (hmoves.saved hsaved).resolve_right ?_⟩
    simp [hsave]

theorem moves_step {a : PortStep T W} (h : s.step a = some s') :
    Moves s s' ∧ (a = .switchContext → s'.pxSaveTCB.isSome → s.yields < s'.yields) := by
  cases a with
  | schedule =>
    cases h
    exact ⟨moves_rtSchedule s, nofun⟩
  | interruptEnter | interruptLeave =>
    cases h
    exact ⟨⟨id, le_rfl, .inr⟩, nofun⟩
  | incrementTick changes => exact ⟨moves_xTaskIncrementTick h, nofun⟩
  | switchContext =>
    cases h
    exact (moves_vTaskSwitchContext s).imp_right (fun hlt _ => hlt)
  | change k => exact ⟨moves_change h, nofun⟩

theorem context_follows_scheduler {boot started : PortContext T W} {state : ℕ → PortContext T W}
    {action : ℕ → PortStep T W} (hstart : boot.vTaskStartScheduler = some started)
    (hfirst : started.FirstDispatch (state 0)) (hstep : ∀ i, (state i).step (action i) = some (state (i + 1)))
    (hyield : ∀ i, (state i).yields < (state (i + 1)).yields →
      ∃ j, i < j ∧ action j = .switchContext) (i : ℕ) :
    ∃ t, (state i).kernel.current = some t ∧
      ((state i).pxSaveTCB = none ∧ (state i).pxCurrentTCB = some t ∨
        (state i).pxSaveTCB = some t ∧ ∃ j, i ≤ j ∧ action j = .switchContext) := by
  suffices h : (state i).Told ∧ ((state i).pxSaveTCB.isSome → ∃ j, i ≤ j ∧ action j = .switchContext) by
    obtain ⟨⟨t, ht, hidle | hsave⟩, hcall⟩ := h
    · exact ⟨t, ht, .inl hidle⟩
    · exact ⟨t, ht, .inr ⟨hsave, hcall (by simp [hsave])⟩⟩
  induction i with
  | zero => exact ⟨told_firstDispatch hstart hfirst, by simp [hfirst.2.2]⟩
  | succ i ih =>
    obtain ⟨hmoves, hswitch⟩ := moves_step (hstep i)
    refine ⟨hmoves.told ih.1, fun hsaved => ?_⟩
    -- either this step yields, or the slot was filled before and this step is not the awaited call
    by_cases hlt : (state i).yields < (state (i + 1)).yields
    · exact hyield i hlt
    · obtain ⟨j, hij, hj⟩ := ih.2 ((hmoves.saved hsaved).resolve_left hlt)
      refine ⟨j, hij.lt_of_ne ?_, hj⟩
      rintro rfl
      exact hlt (hswitch hj hsaved)

def lowContext : PortContext Tid Unit where
  kernel := bootKernel Tid.priority [.startup .low]
  interruptNest := 0
  pxCurrentTCB := none
  pxSaveTCB := none
  yields := 0

def tickAction : ℕ → PortStep Tid Unit
  | 0 => .incrementTick [{ bootKernel Tid.priority [.startup .low, .startup .high] with current := some .low }]
  | 1 => .switchContext
  | _ => .interruptEnter

def tickState : ℕ → PortContext Tid Unit
  | 0 => (lowContext.vTaskStartScheduler.getD lowContext).vTaskSwitchContext
  | i + 1 => ((tickState i).step (tickAction i)).getD (tickState i)

theorem context_follows_scheduler_tick : (tickState 1).pxSaveTCB = some .high ∧ (tickState 2).pxSaveTCB = none ∧
    ∀ i, ∃ t, (tickState i).kernel.current = some t ∧
      ((tickState i).pxSaveTCB = none ∧ (tickState i).pxCurrentTCB = some t ∨
        (tickState i).pxSaveTCB = some t ∧ ∃ j, i ≤ j ∧ tickAction j = .switchContext) := by
  have hstart : lowContext.vTaskStartScheduler = some (lowContext.vTaskStartScheduler.getD lowContext) := rfl
  have hstep (i : ℕ) : (tickState i).step (tickAction i) = some (tickState (i + 1)) := by
    obtain _ | _ | i := i <;> rfl
  refine ⟨by decide +kernel, by decide +kernel, context_follows_scheduler hstart ⟨rfl, rfl, rfl⟩ hstep ?_⟩
  rintro (_ | _ | i) hlt
  · exact ⟨1, Nat.one_pos, rfl⟩
  · exact absurd hlt (by decide +kernel)
  · exact absurd hlt (Nat.lt_irrefl _)

end PortContext

end RtThread
