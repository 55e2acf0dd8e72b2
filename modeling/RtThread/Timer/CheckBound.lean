import Mathlib.Data.List.TakeWhile
import RtThread.Timer.Activation
import RtThread.Timer.OnTime

namespace RtThread

variable {τ : Type}

open TimerEvent List

namespace Timers

variable {s t : Timers τ} {x y : τ} {log : List (TimerEvent τ)} {b : Bool}

def dueFirst (s : Timers τ) (l : List τ) : List τ := l.takeWhile (fun x => s.Due x)

theorem dueFirst_cons {l : List τ} (h : s.Due x) : s.dueFirst (x :: l) = x :: s.dueFirst l :=
  takeWhile_cons_of_pos (p := fun x => decide (s.Due x)) (decide_eq_true h)

theorem dueFirst_subset (s : Timers τ) (l : List τ) : s.dueFirst l ⊆ l := takeWhile_subset _

def Rest (log : List (TimerEvent τ)) (due : List τ) (pass : Pass τ) : Prop :=
  ∃ ev t, pass = (log ++ ev, some (t, true)) ∧ (firings ev).Nodup ∧ firings ev ⊆ due

theorem rest_nil {due : List τ} : Rest log due (log, some (s, true)) :=
  ⟨[], s, by rw [append_nil], nodup_nil, nil_subset _⟩

theorem Rest.cons {ev : List (TimerEvent τ)} {due due' : List τ} {pass : Pass τ}
    (h : Rest (log ++ .fired x :: ev) due pass) (hev : firings ev = []) (hdue : due ⊆ due') (hx : x ∉ due') :
    Rest log (x :: due') pass := by
  obtain ⟨ev', u, hpass, hnd, hsub⟩ := h
  refine ⟨.fired x :: ev ++ ev', u, by rw [hpass, List.append_assoc], ?_, ?_⟩
  · rw [firings_append, firings_fired, hev]
    exact nodup_cons.mpr ⟨fun hmem => hx (hdue (hsub hmem)), hnd⟩
  · rw [firings_append, firings_fired, hev]
    exact cons_subset_cons x (List.Subset.trans hsub hdue)

def place (s : Timers τ) (x : τ) : ℕ := Serial.place s.tick (s.timer x).timeoutTick

/-- The timeouts of `x` and of the timers of `l` are less than half the range of the ticks apart. -/
def InOrder (s : Timers τ) (l : List τ) (x : τ) : Prop :=
  ∀ t ∈ l, s.place t < s.place x + tickHalf.toNat ∧ s.place x ≤ s.place t + tickHalf.toNat + 2

theorem sorted_orderedInsert {l : List τ} (h : KeyOrder.Sorted s.place l) (hord : s.InOrder l x) :
    KeyOrder.Sorted s.place (l.orderedInsert s.Later x) := by
  rw [KeyOrder.orderedInsert_congr (q := fun y z => s.place y < s.place z)
    (fun t ht => tick_later_iff (hord t ht).1 (hord t ht).2)]
  exact h.orderedInsert x

variable [DecidableEq τ]

def after (s : Timers τ) (x : τ) : Timers τ :=
  if (s.timer x).periodic ∧ (s.timer x).activated then (s.dropped x).restarted x else s.dropped x

theorem fire_idle (log : List (TimerEvent τ)) (hacc : (s.timer x).initTick.ult tickHalf = true) :
    ∃ ev, s.fire Callback.idle log x = (.fired x :: ev, some (s.after x)) ∧ firings ev = [] := by
  simp only [fire, applyAll_idle, settle, after]
  by_cases hper : (s.timer x).periodic = true ∧ (s.timer x).activated = true
  · have hstart : ((s.timerRemove x).setTimer x Timer.deactivate).timerStart x = some ((s.dropped x).restarted x) := by
      rw [timerStart_eq, if_pos]
      · rfl
      · rw [timer_setTimer, if_pos rfl]
        exact hacc
    rw [if_pos (by exact hper), hstart, if_pos hper]
    exact ⟨[.started x], rfl, rfl⟩
  · rw [if_neg (by exact hper), if_neg hper]
    exact ⟨[], rfl, rfl⟩

theorem after_tick (s : Timers τ) (x : τ) : (s.after x).tick = s.tick := by
  unfold after
  split_ifs <;> rfl

theorem after_timer (hy : y ≠ x) : (s.after x).timer y = s.timer y := by
  unfold after
  split_ifs
  · rw [restarted_timer, if_neg hy, dropped_timer, if_neg hy]
  · rw [dropped_timer, if_neg hy]

theorem after_drop (hnd : (s.lists b).Nodup)
    (h : ¬((s.timer x).periodic = true ∧ (s.timer x).activated = true ∧ (s.timer x).soft = b)) :
    (s.after x).lists b = (s.lists b).erase x := by
  unfold after
  split_ifs with hper
  · have hkind : b ≠ ((s.dropped x).timer x).soft := by
      rw [dropped_timer, if_pos rfl]
      exact fun hsoft => h ⟨hper.1, hper.2, hsoft.symm⟩
    simp only [restarted, if_neg hkind]
    exact erase_of_not_mem hnd.not_mem_erase
  · rfl

theorem after_restart (hnd : (s.lists b).Nodup)
    (h : (s.timer x).periodic = true ∧ (s.timer x).activated = true ∧ (s.timer x).soft = b) :
    (s.after x).timer x = (s.timer x).activate s.tick ∧
      (s.after x).lists b = ((s.lists b).erase x).orderedInsert (s.after x).Later x := by
  have herase : ((s.dropped x).lists b).erase x = (s.lists b).erase x := erase_of_not_mem hnd.not_mem_erase
  have htimer : (s.dropped x).timer x = (s.timer x).deactivate := by rw [dropped_timer, if_pos rfl]
  rw [after, if_pos ⟨h.1, h.2.1⟩, restarted_timer, if_pos rfl, htimer]
  refine ⟨rfl, ?_⟩
  have hkind : b = ((s.dropped x).timer x).soft := by
    rw [htimer]
    exact h.2.2.symm
  simp only [restarted, ← hkind, if_true, herase]
  rfl

theorem after_lists (hnd : (s.lists b).Nodup) : (s.after x).lists b = (s.lists b).erase x ∨
    ((s.timer x).periodic = true ∧ (s.timer x).activated = true ∧ (s.timer x).soft = b) ∧
      (s.after x).timer x = (s.timer x).activate s.tick ∧
      (s.after x).lists b = ((s.lists b).erase x).orderedInsert (s.after x).Later x := by
  by_cases h : (s.timer x).periodic = true ∧ (s.timer x).activated = true ∧ (s.timer x).soft = b
  · exact .inr ⟨h, after_restart hnd h⟩
  · exact .inl (after_drop hnd h)

theorem after_due (hy : y ≠ x) : (s.after x).Due y ↔ s.Due y := by
  rw [Due, Due, after_tick, after_timer hy]

def Restless (s : Timers τ) (x : τ) : Prop :=
  (s.timer x).periodic = true ∧ (s.timer x).activated = true ∧ (s.timer x).initTick = 0

instance (s : Timers τ) (x : τ) : Decidable (s.Restless x) := instDecidableAnd

theorem after_restless (hy : y ≠ x) : (s.after x).Restless y ↔ s.Restless y := by
  rw [Restless, Restless, after_timer hy]

structure Pending (s : Timers τ) (b : Bool) : Prop where
  nodup : (s.lists b).Nodup
  accepted : ∀ x ∈ s.lists b, (s.timer x).initTick.ult tickHalf = true

section

variable (h : s.Pending b)

include h

theorem Pending.mem_after : y ∈ (s.after x).lists b → y = x ∧ (s.timer x).periodic = true ∧
    (s.timer x).activated = true ∧ (s.after x).timer x = (s.timer x).activate s.tick ∨ y ≠ x ∧
    y ∈ s.lists b := by
  intro hy
  obtain hl | ⟨⟨hper, hact, -⟩, htimer, hl⟩ := after_lists (x := x) h.nodup
  · rw [hl, h.nodup.mem_erase_iff] at hy
    exact .inr hy
  · rw [hl, mem_orderedInsert, h.nodup.mem_erase_iff] at hy
    exact hy.imp_left (fun he => ⟨he, hper, hact, htimer⟩)

theorem Pending.erase_sublist_after : (s.lists b).erase x <+ (s.after x).lists b := by
  obtain hl | ⟨-, -, hl⟩ := after_lists (x := x) h.nodup
  · rw [hl]
  · exact hl ▸ sublist_orderedInsert ..

theorem Pending.mem_after_of_ne (hy : y ∈ s.lists b) (hne : y ≠ x) : y ∈ (s.after x).lists b :=
  h.erase_sublist_after.subset (h.nodup.mem_erase_iff.mpr ⟨hne, hy⟩)

theorem Pending.after (hx : x ∈ s.lists b) : (s.after x).Pending b := by
  refine ⟨?_, fun y hy => ?_⟩
  · have herase := nodup_cons.mpr ⟨h.nodup.not_mem_erase (a := x), h.nodup.erase x⟩
    obtain hl | ⟨-, -, hl⟩ := after_lists (x := x) h.nodup
    · exact hl ▸ h.nodup.erase x
    · exact hl ▸ (perm_orderedInsert _ x _).nodup_iff.mpr herase
  · obtain ⟨rfl, -, -, htimer⟩ | ⟨hne, hmem⟩ := h.mem_after hy
    · rw [htimer]
      exact h.accepted y hx
    · rw [after_timer hne]
      exact h.accepted y hmem

theorem Pending.not_due_after (hx : x ∈ s.lists b) (hr : ¬ s.Restless x) (hmem : x ∈ (s.after x).lists b) :
    ¬ (s.after x).Due x := by
  intro hdue
  obtain ⟨-, hper, hact, htimer⟩ | ⟨hne, -⟩ := h.mem_after hmem
  · -- the new timeout is less than half of the tick range ahead
    have hahead : (s.after x).ahead x = (s.timer x).initTick.toNat := by
      rw [ahead, htimer, after_tick]
      exact Serial.ahead_add ..
    have hacc := (ult_tickHalf _).mp (h.accepted x hx)
    have hzero := (due_iff (hahead.trans_lt hacc)).mp hdue
    exact hr ⟨hper, hact, BitVec.eq_of_toNat_eq (by rw [← hahead, hzero]; rfl)⟩
  · exact hne rfl

/-- A timer that is put back and is not due stops the walk over the due timers behind it. -/
theorem Pending.walk_after (hx : x ∈ s.lists b) (hr : ¬ s.Restless x) {l l' : List τ} (hne : ∀ y ∈ l, y ≠ x)
    (hl : l' = l ∨ x ∈ (s.after x).lists b ∧ l' = l.orderedInsert (s.after x).Later x) :
    (s.after x).dueFirst l' <+: s.dueFirst l := by
  have hsame : ∀ y ∈ l, decide ((s.after x).Due y) = decide (s.Due y) :=
    fun y hy => decide_eq_decide.mpr (after_due (hne y hy))
  obtain rfl | ⟨hmem, rfl⟩ := hl
  · rw [dueFirst, dueFirst, KeyOrder.takeWhile_congr hsame]
  · exact KeyOrder.takeWhile_orderedInsert_prefix (decide_eq_false (h.not_due_after hx hr hmem)) hsame

end

def FiresOnce (check : ℕ → Pass τ) : Prop :=
  ∃ fuel log t, check fuel = (log, some (t, true)) ∧ (firings log).Nodup

theorem Pending.checkLoop (h : s.Pending b)
    (hr : ∀ x ∈ s.dueFirst (s.lists b), ¬ s.Restless x) (log : List (TimerEvent τ))
    {fuel : ℕ} (hfuel : (s.dueFirst (s.lists b)).length < fuel) :
    Rest log (s.dueFirst (s.lists b)) (checkLoop Callback.idle b fuel log s) := by
  -- every round takes one timer off those that are due
  induction fuel generalizing s log with
  | zero => exact absurd hfuel (Nat.not_lt_zero _)
  | succ fuel ih =>
    simp only [Timers.checkLoop]
    cases hl : s.lists b with
    | nil => exact rest_nil
    | cons x l =>
      have hmem : x ∈ s.lists b := hl ▸ mem_cons_self
      have hnd : x ∉ l := (nodup_cons.mp (hl ▸ h.nodup)).1
      have hne : ∀ y ∈ l, y ≠ x := fun y hy he => hnd (he ▸ hy)
      dsimp only
      split_ifs with hdue
      · rw [hl, dueFirst_cons hdue] at hr hfuel
        rw [dueFirst_cons hdue]
        have hwalk : (s.after x).dueFirst ((s.after x).lists b) <+: s.dueFirst l := by
          refine h.walk_after hmem (hr x mem_cons_self) hne ?_
          obtain he | ⟨-, -, he⟩ := after_lists (x := x) h.nodup
          · exact .inl (by rw [he, hl, erase_cons_head])
          · exact .inr ⟨by simp [he], by rw [he, hl, erase_cons_head]⟩
        obtain ⟨ev, hfire, hev⟩ := fire_idle log (h.accepted x hmem)
        rw [hfire]
        have hrest := ih (h.after hmem) (fun y hy => ?_) (log ++ .fired x :: ev) ?_
        · exact hrest.cons hev hwalk.subset (fun hx => hnd (s.dueFirst_subset _ hx))
        · have hy := hwalk.subset hy
          rw [after_restless (hne y (s.dueFirst_subset _ hy))]
          exact hr y (mem_cons_of_mem x hy)
        · have hle := hwalk.length_le
          rw [length_cons] at hfuel
          omega
      · exact rest_nil

theorem next_of_append {l r : List τ} (hnd : (s.lists true).Nodup) (hl : s.lists true = l ++ x :: r) :
    s.next x = r.head? := by
  have hx : ∀ z ∈ l, z ≠ x := fun z hz he =>
    (nodup_append.mp (hl ▸ hnd)).2.2 z hz x mem_cons_self he
  rw [next, if_pos (by simp [hl]), hl, dropWhile_append_of_pos (by simpa using hx)]
  simp

theorem Pending.softCheckLoop (h : s.Pending true) {l r : List τ} (hl : s.lists true = l ++ x :: r)
    (hr : (s.dueFirst (x :: r)).Pairwise (fun y _ => ¬ s.Restless y)) (log : List (TimerEvent τ))
    {fuel : ℕ} (hfuel : (s.dueFirst (x :: r)).length < fuel) :
    Rest log (s.dueFirst (x :: r)) (softCheckLoop Callback.idle fuel (some x) log s) := by
  induction fuel generalizing s x l r log with
  | zero => exact absurd hfuel (Nat.not_lt_zero _)
  | succ fuel ih =>
    have hmem : x ∈ s.lists true := by simp [hl]
    have hne : ∀ y ∈ l ++ r, y ≠ x := fun y hy he =>
      (nodup_cons.mp (nodup_middle.mp (hl ▸ h.nodup))).1 (he ▸ hy)
    simp only [Timers.softCheckLoop]
    split_ifs with hdue
    · rw [dueFirst_cons hdue] at hr hfuel ⊢
      rw [length_cons] at hfuel
      obtain ⟨ev, hfire, hev⟩ := fire_idle log (h.accepted x hmem)
      rw [hfire, next_of_append h.nodup hl]
      have hx : x ∉ s.dueFirst r := fun hx =>
        hne x (mem_append_right l (s.dueFirst_subset _ hx)) rfl
      obtain ⟨fuel, rfl⟩ := Nat.exists_eq_add_one_of_ne_zero (Nat.ne_zero_of_lt (Nat.lt_of_succ_lt_succ hfuel))
      cases r with
      | nil => exact rest_nil.cons hev (nil_subset _) hx
      | cons y r =>
        have hyx : y ≠ x := hne y (by simp)
        by_cases hy : s.Due y
        · -- another due timer comes behind `x`, so `x` is not due again
          have hrx : ¬ s.Restless x := (pairwise_cons.mp hr).1 y
            (by rw [dueFirst_cons hy]; exact mem_cons_self)
          have herase : (s.lists true).erase x = l ++ y :: r := by
            rw [hl, erase_append_right _ (fun hx => hne x (mem_append_left _ hx) rfl), erase_cons_head]
          obtain ⟨l', r', hl', hr'⟩ : ∃ l' r', (s.after x).lists true = l' ++ y :: r' ∧
              (r' = r ∨ x ∈ (s.after x).lists true ∧ r' = r.orderedInsert (s.after x).Later x) := by
            obtain he | ⟨-, -, he⟩ := after_lists (x := x) h.nodup
            · exact ⟨l, r, he.trans herase, .inl rfl⟩
            · rw [he, herase]
              obtain ⟨l', r', hl', hr'⟩ := KeyOrder.orderedInsert_append_cons (r := (s.after x).Later) x y l r
              exact ⟨l', r', hl', hr'.imp_right (fun hr' => ⟨by simp, hr'⟩)⟩
          have hwalk : (s.after x).dueFirst (y :: r') <+:
              s.dueFirst (y :: r) := by
            rw [dueFirst_cons ((after_due hyx).mpr hy), dueFirst_cons hy, prefix_cons_inj]
            exact h.walk_after hmem hrx (fun z hz => hne z (by simp [hz])) hr'
          have hrest := ih (h.after hmem) hl' ?_ (log ++ .fired x :: ev) ?_
          · exact hrest.cons hev hwalk.subset hx
          · refine ((pairwise_cons.mp hr).2.sublist hwalk.sublist).imp_of_mem (fun hz _ hnot => ?_)
            rw [after_restless (hne _ (mem_append_right l (s.dueFirst_subset _ (hwalk.subset hz))))]
            exact hnot
          · have hle := hwalk.length_le
            omega
        · have hstop : Timers.softCheckLoop Callback.idle (fuel + 1) (some y) (log ++ .fired x :: ev) (s.after x) =
              (log ++ .fired x :: ev, some (s.after x, true)) := if_neg (fun hd => hy ((after_due hyx).mp hd))
          have hrest : Rest _ [] _ := hstop.symm ▸ rest_nil
          exact hrest.cons hev (nil_subset _) hx
    · exact rest_nil

theorem place_delay (tick : BitVec 32) {d : BitVec 32} (hd : d.ult tickHalf = true) :
    Serial.place tick (tick + d) = 2 ^ 31 + d.toNat := by
  have hlt := (ult_tickHalf d).mp hd
  rw [tickHalf_toNat] at hlt
  exact Serial.place_add (by decide) (by omega)

instance (s : Timers τ) (l : List τ) (x : τ) : Decidable (s.InOrder l x) :=
  inferInstanceAs (Decidable (∀ t ∈ l, _))

structure Ordered (s : Timers τ) (b : Bool) : Prop extends s.Pending b where
  kind : ∀ x ∈ s.lists b, (s.timer x).soft = b
  sorted : KeyOrder.Sorted s.place (s.lists b)
  near : ∀ x ∈ s.lists b, 1 < s.place x ∧ s.place x < 2 ^ 31 + tickHalf.toNat
  apart : ∀ x ∈ s.lists b, ∀ y ∈ s.lists b, (s.timer x).initTick.toNat ≤ s.place y + 1

theorem after_place (hy : y ≠ x) : (s.after x).place y = s.place y := by
  rw [place, place, after_tick, after_timer hy]

section

variable (h : s.Ordered b)

include h

section

omit [DecidableEq τ]

theorem Ordered.due_iff (hx : x ∈ s.lists b) : s.Due x ↔ s.place x ≤ 2 ^ 31 := by
  obtain ⟨hlow, hhigh⟩ := h.near x hx
  have hnow : Serial.place s.tick s.tick = 2 ^ 31 := by
    simpa using place_delay s.tick (d := 0) (by decide)
  rw [Due, ult_tickHalf]
  rw [tickHalf_toNat] at hhigh ⊢
  obtain hle | hlt := le_or_gt (s.place x) (2 ^ 31)
  · have hsub : (s.tick - (s.timer x).timeoutTick).toNat = Serial.place s.tick s.tick - s.place x :=
      Serial.sub_toNat_of_le (hle.trans hnow.ge)
    omega
  · have hsub : (s.tick - (s.timer x).timeoutTick).toNat = 2 ^ 32 - (s.place x - Serial.place s.tick s.tick) :=
      Serial.sub_toNat_of_lt (hnow.trans_lt hlt)
    omega

theorem Ordered.due_of_le {z : τ} (hz : z ∈ s.lists b) (hdue : s.Due z) (hy : y ∈ s.lists b)
    (hle : s.place y ≤ s.place z) : s.Due y :=
  (h.due_iff hy).mpr (hle.trans ((h.due_iff hz).mp hdue))

end

theorem Ordered.place_restarted (hx : x ∈ s.lists b) (ht : (s.after x).timer x = (s.timer x).activate s.tick) :
    (s.after x).place x = 2 ^ 31 + (s.timer x).initTick.toNat := by
  rw [place, after_tick, ht]
  exact place_delay s.tick (h.accepted x hx)

theorem Ordered.inOrder_restarted (hx : x ∈ s.lists b) (ht : (s.after x).timer x = (s.timer x).activate s.tick) :
    (s.after x).InOrder ((s.lists b).erase x) x := by
  intro y hy
  obtain ⟨hne, hmem⟩ := h.nodup.mem_erase_iff.mp hy
  have hnear := h.near y hmem
  have hapart := h.apart x hx y hmem
  rw [h.place_restarted hx ht, after_place hne]
  rw [tickHalf_toNat] at hnear ⊢
  omega

theorem Ordered.after (hx : x ∈ s.lists b) : (s.after x).Ordered b := by
  have hlt : ∀ y ∈ s.lists b, (s.timer y).initTick.toNat < tickHalf.toNat :=
    fun y hy => (ult_tickHalf _).mp (h.accepted y hy)
  have hinit : ∀ y ∈ (s.after x).lists b, y ∈ s.lists b ∧
      ((s.after x).timer y).initTick = (s.timer y).initTick ∧ ((s.after x).timer y).soft = (s.timer y).soft := by
    intro y hy
    obtain ⟨rfl, -, -, ht⟩ | ⟨hne, hmem⟩ := h.mem_after hy
    · exact ⟨hx, by rw [ht]; exact ⟨rfl, rfl⟩⟩
    · exact ⟨hmem, by rw [after_timer hne]; exact ⟨rfl, rfl⟩⟩
  refine ⟨h.toPending.after hx, fun y hy => ?_, ?_, fun y hy => ?_, fun y hy z hz => ?_⟩
  · rw [(hinit y hy).2.2]
    exact h.kind y (hinit y hy).1
  · have hsorted : KeyOrder.Sorted (s.after x).place ((s.lists b).erase x) :=
      (h.sorted.sublist erase_sublist).congr (fun y hy => after_place (h.nodup.mem_erase_iff.mp hy).1)
    obtain hl | ⟨-, ht, hl⟩ := after_lists (x := x) h.nodup
    · exact hl ▸ hsorted
    · exact hl ▸ sorted_orderedInsert hsorted (h.inOrder_restarted hx ht)
  · obtain ⟨rfl, -, -, ht⟩ | ⟨hne, hmem⟩ := h.mem_after hy
    · rw [h.place_restarted hx ht]
      have := hlt y hx
      omega
    · rw [after_place hne]
      exact h.near y hmem
  · obtain ⟨hmem, he, -⟩ := hinit y hy
    rw [he]
    obtain ⟨rfl, -, -, ht⟩ | ⟨hne, hmem'⟩ := h.mem_after hz
    · rw [h.place_restarted hx ht]
      have := hlt y hmem
      rw [tickHalf_toNat] at this
      omega
    · rw [after_place hne]
      exact h.apart y hmem z hmem'

theorem Ordered.restless_after {z : τ} (hz : z ∈ s.lists b) (hdue : s.Due z) (hr : s.Restless z) :
    z ∈ (s.after x).lists b ∧ (s.after x).Due z ∧ (s.after x).Restless z := by
  obtain rfl | hne := eq_or_ne z x
  · obtain ⟨ht, hl⟩ := after_restart h.nodup ⟨hr.1, hr.2.1, h.kind z hz⟩
    refine ⟨by simp [hl], ?_, by rw [Restless, ht]; exact ⟨hr.1, rfl, hr.2.2⟩⟩
    rw [Due, ht, after_tick]
    simp [Timer.activate, hr.2.2]
    decide
  · exact ⟨h.mem_after_of_ne hz hne, (after_due hne).mpr hdue, (after_restless hne).mpr hr⟩

theorem Ordered.checkLoop_endless {z : τ} (hz : z ∈ s.lists b) (hdue : s.Due z) (hr : s.Restless z) (fuel : ℕ)
    (log log' : List (TimerEvent τ)) : Timers.checkLoop Callback.idle b fuel log s ≠ (log', some (t, true)) := by
  induction fuel generalizing s log with
  | zero => simp [Timers.checkLoop]
  | succ fuel ih =>
    cases hl : s.lists b with
    | nil => simp [hl] at hz
    | cons x l =>
      have hmem : x ∈ s.lists b := hl ▸ mem_cons_self
      have hsorted := h.sorted
      rw [hl] at hsorted
      have hx : s.Due x := h.due_of_le hz hdue hmem (hsorted.head_le z (hl ▸ hz))
      obtain ⟨ev, hfire, -⟩ := fire_idle log (h.accepted x hmem)
      obtain ⟨hz', hdue', hr'⟩ := h.restless_after (x := x) hz hdue hr
      rw [Timers.checkLoop, hl]
      simp only [if_pos hx, hfire]
      exact ih (h.after hmem) hz' hdue' hr' _

end

theorem softCheckLoop_count (fuel : ℕ) (n : Option τ) (log : List (TimerEvent τ)) (s : Timers τ) (z : τ) :
    (firings log).count z ≤ (firings (softCheckLoop Callback.idle fuel n log s).1).count z := by
  fun_induction softCheckLoop Callback.idle fuel n log s with
  | case3 fuel x log s hx ev hf => simp
  | case4 fuel x log s hx ev u hf ih => exact (by simp : _ ≤ _).trans ih
  | _ => exact le_rfl

section

variable (h : s.Ordered true)

include h

theorem Ordered.head_after {l : List τ} (hl : s.lists true = x :: y :: l) (hy : s.Due y) :
    s.next x = some y ∧ ((s.after x).lists true).head? = some y := by
  have hx : x ∈ s.lists true := by simp [hl]
  have hmem : y ∈ s.lists true := by simp [hl]
  refine ⟨(next_of_append (l := []) h.nodup hl).trans head?_cons, ?_⟩
  obtain he | ⟨-, ht, he⟩ := after_lists (x := x) h.nodup
  · rw [he, hl, erase_cons_head, head?_cons]
  · have hord := h.inOrder_restarted hx ht
    rw [hl, erase_cons_head] at hord he
    have hne : y ≠ x := fun he => (nodup_cons.mp (hl ▸ h.nodup)).1 (he ▸ mem_cons_self)
    have hlater : ¬ (s.after x).Later x y := by
      rw [Later, tick_later_iff (hord y mem_cons_self).1 (hord y mem_cons_self).2]
      change ¬ (s.after x).place x < (s.after x).place y
      rw [h.place_restarted hx ht, after_place hne]
      have := (h.due_iff hmem).mp hy
      omega
    rw [he, orderedInsert_cons, if_neg hlater, head?_cons]

theorem Ordered.softCheckLoop_succ {l : List τ} (hl : s.lists true = x :: l) (hx : s.Due x) (fuel : ℕ)
    (log : List (TimerEvent τ)) : ∃ ev, softCheckLoop Callback.idle (fuel + 1) (s.lists true).head? log s =
      softCheckLoop Callback.idle fuel (s.next x) (log ++ .fired x :: ev) (s.after x) ∧ firings ev = [] := by
  obtain ⟨ev, hfire, hev⟩ := fire_idle log (h.accepted x (by simp [hl]))
  refine ⟨ev, ?_, hev⟩
  rw [hl, head?_cons]
  simp only [Timers.softCheckLoop, if_pos hx, hfire]

theorem Ordered.softCheckLoop_fires {z : τ} (hz : z ∈ s.lists true) (hdue : s.Due z) {fuel : ℕ}
    {log log' : List (TimerEvent τ)}
    (hend : softCheckLoop Callback.idle fuel (s.lists true).head? log s = (log', some (t, true))) :
    (firings log).count z < (firings log').count z := by
  induction fuel generalizing s log with
  | zero => simp [Timers.softCheckLoop] at hend
  | succ fuel ih =>
    obtain ⟨x, l, hl⟩ := exists_cons_of_ne_nil (ne_nil_of_mem hz)
    have hsorted := h.sorted
    rw [hl] at hz hsorted
    have hmem : x ∈ s.lists true := hl ▸ mem_cons_self
    have hx : s.Due x := h.due_of_le (hl ▸ hz) hdue hmem (hsorted.head_le z hz)
    obtain ⟨ev, hstep, hev⟩ := h.softCheckLoop_succ hl hx fuel log
    rw [hstep] at hend
    obtain rfl | hz := mem_cons.mp hz
    · have hle := softCheckLoop_count fuel (s.next z) (log ++ .fired z :: ev) (s.after z) z
      simp only [hend, firings_append, firings_fired, hev, count_append, count_singleton_self] at hle
      exact hle
    · have hne : z ≠ x := fun he => (nodup_cons.mp (hl ▸ h.nodup)).1 (he ▸ hz)
      obtain ⟨y, r, rfl⟩ := exists_cons_of_ne_nil (ne_nil_of_mem hz)
      have hy : s.Due y := h.due_of_le (by simp [hl, hz]) hdue (by simp [hl])
        (KeyOrder.Sorted.head_le (pairwise_cons.mp hsorted).2 z hz)
      obtain ⟨hnext, hhead⟩ := h.head_after hl hy
      rw [hnext, ← hhead] at hend
      have hlt := ih (h.after hmem) (h.mem_after_of_ne (by simp [hl, hz]) hne) ((after_due hne).mpr hdue) hend
      simpa [hev, count_singleton, hne.symm] using hlt

theorem Ordered.softCheckLoop_fires_twice {y z : τ} (hsub : [z, y] <+ s.lists true) (hz : s.Due z) (hy : s.Due y)
    (hr : s.Restless z) {fuel : ℕ} {log log' : List (TimerEvent τ)}
    (hend : softCheckLoop Callback.idle fuel (s.lists true).head? log s = (log', some (t, true))) :
    (firings log).count z + 1 < (firings log').count z := by
  induction fuel generalizing s log with
  | zero => simp [Timers.softCheckLoop] at hend
  | succ fuel ih =>
    have hzmem : z ∈ s.lists true := hsub.subset (by simp)
    have hymem : y ∈ s.lists true := hsub.subset (by simp)
    obtain ⟨x, l, hl⟩ := exists_cons_of_ne_nil (ne_nil_of_mem hzmem)
    have hnd := nodup_cons.mp (hl ▸ h.nodup)
    have hsorted := h.sorted
    rw [hl] at hsorted
    have hmem : x ∈ s.lists true := hl ▸ mem_cons_self
    have hx : s.Due x := h.due_of_le hzmem hz hmem (hsorted.head_le z (hl ▸ hzmem))
    have htail : y ∈ l ∧ (z = x ∨ [z, y] <+ l) := by
      rw [hl] at hsub
      cases hsub with
      | cons _ hsub => exact ⟨hsub.subset (by simp), .inr hsub⟩
      | cons_cons _ hsub => exact ⟨hsub.subset (by simp), .inl rfl⟩
    obtain ⟨u, r, rfl⟩ := exists_cons_of_ne_nil (ne_nil_of_mem htail.1)
    have hu : s.Due u := h.due_of_le hymem hy (by simp [hl])
      (KeyOrder.Sorted.head_le (pairwise_cons.mp hsorted).2 y htail.1)
    obtain ⟨hnext, hhead⟩ := h.head_after hl hu
    obtain ⟨ev, hstep, hev⟩ := h.softCheckLoop_succ hl hx fuel log
    rw [hstep, hnext, ← hhead] at hend
    obtain rfl | hsub := htail.2
    · obtain ⟨hzmem, hz, -⟩ := h.restless_after (x := z) hzmem hz hr
      have hlt := (h.after hmem).softCheckLoop_fires hzmem hz hend
      simpa [hev] using hlt
    · have hne : z ≠ x := fun he => hnd.1 (he ▸ hsub.subset (by simp))
      have hny : y ≠ x := fun he => hnd.1 (he ▸ hsub.subset (by simp))
      have hafter := h.erase_sublist_after (x := x)
      rw [hl, erase_cons_head] at hafter
      have hlt := ih (h.after hmem) (hsub.trans hafter) ((after_due hne).mpr hz) ((after_due hny).mpr hy)
        ((after_restless hne).mpr hr) hend
      simpa [hev, count_singleton, hne.symm] using hlt

end

/-- Both checks end and fire no timer twice, the soft one also if the last of the due timers is restless; on lists as
`rt_timer_start` builds them only then. -/
theorem timer_checks_end_iff (s : Timers τ) (hnd : ∀ b, (s.lists b).Nodup)
    (hacc : ∀ b, ∀ x ∈ s.lists b, (s.timer x).initTick.ult tickHalf = true) :
    (((∀ x ∈ s.dueFirst (s.lists false), ¬ s.Restless x) →
      FiresOnce (fun fuel => timerCheck Callback.idle fuel s)) ∧
      (s.Ordered false → FiresOnce (fun fuel => timerCheck Callback.idle fuel s) →
        ∀ x ∈ s.dueFirst (s.lists false), ¬ s.Restless x)) ∧
    (((s.dueFirst (s.lists true)).Pairwise (fun x _ => ¬ s.Restless x) →
        FiresOnce (fun fuel => softTimerCheck Callback.idle fuel s)) ∧
      (s.Ordered true → FiresOnce (fun fuel => softTimerCheck Callback.idle fuel s) →
        (s.dueFirst (s.lists true)).Pairwise (fun x _ => ¬ s.Restless x))) := by
  refine ⟨⟨fun hr => ?_, fun h hfires x hx hr => ?_⟩, fun hr => ?_, fun h hfires => ?_⟩
  · obtain ⟨ev, t, hpass, hnodup, -⟩ := Pending.checkLoop ⟨hnd false, hacc false⟩ hr [] (Nat.lt_succ_self _)
    exact ⟨_, ev, t, hpass, hnodup⟩
  · obtain ⟨fuel, log, t, hend, -⟩ := hfires
    have hdue : s.Due x := by simpa using mem_takeWhile_imp hx
    exact h.checkLoop_endless (s.dueFirst_subset _ hx) hdue hr fuel [] log hend
  · cases hl : s.lists true with
    | nil => exact ⟨1, [], s, by simp [softTimerCheck, hl, softCheckLoop], nodup_nil⟩
    | cons x l =>
      obtain ⟨ev, t, hpass, hnodup, -⟩ := Pending.softCheckLoop (l := []) ⟨hnd true, hacc true⟩ hl
        (hl ▸ hr) []
        (Nat.lt_succ_self _)
      exact ⟨_, ev, t, by simp only [softTimerCheck, hl]; exact hpass, hnodup⟩
  · obtain ⟨fuel, log, t, hend, hnodup⟩ := hfires
    refine pairwise_iff_forall_sublist.mpr (fun {z y} hsub hr => ?_)
    have hdue : ∀ u ∈ [z, y], s.Due u := fun u hu => by simpa using mem_takeWhile_imp (hsub.subset hu)
    have htwice := h.softCheckLoop_fires_twice (hsub.trans (takeWhile_sublist _)) (hdue z (by simp)) (hdue y (by simp))
      hr hend
    have hone := nodup_iff_count_le_one.mp hnodup z
    omega

def ticking : Timers ℕ :=
  { tick := 7
    timer := fun x => { Timer.init (if x = 3 then 0 else 5) (x ≠ 2) (2 ≤ x) with
      activated := true, timeoutTick := if x = 1 then 9 else 7 }
    lists := fun b => if b then [2, 3] else [0, 1] }

theorem timer_checks_end_iff_ticking : ticking.Restless 3 ∧
    FiresOnce (fun fuel => timerCheck Callback.idle fuel ticking) ∧
      FiresOnce (fun fuel => softTimerCheck Callback.idle fuel ticking) := by
  obtain ⟨⟨hhard, -⟩, hsoft, -⟩ := timer_checks_end_iff ticking (by decide) (by decide)
  exact ⟨by decide, hhard (by decide), hsoft (by decide)⟩

def zeroPeriod : Timers Unit :=
  { tick := 0
    timer := fun _ => { Timer.init 0 true false with activated := true }
    lists := fun b => if b then [] else [()] }

def zeroPeriodFirst : Timers Bool :=
  { tick := 0
    timer := fun x => { Timer.init 0 (!x) true with activated := true }
    lists := fun b => if b then [false, true] else [] }

theorem timer_checks_zero_period :
    ((zeroPeriod.timer ()).initTick.ult tickHalf = true ∧
      ¬ FiresOnce (fun fuel => timerCheck Callback.idle fuel zeroPeriod)) ∧
    (softTimerCheck Callback.idle 4 zeroPeriodFirst).2.any (fun r => r.2) = true ∧
      firings (softTimerCheck Callback.idle 4 zeroPeriodFirst).1 = [false, true, false] := by
  refine ⟨⟨by decide, ?_⟩, by decide, by decide⟩
  rintro ⟨fuel, log, t, hend, -⟩
  have hord : zeroPeriod.Ordered false :=
    ⟨⟨by decide, by decide⟩, by decide, pairwise_singleton .., by decide +kernel, by decide +kernel⟩
  exact hord.checkLoop_endless (z := ()) (by decide) (by decide) (by decide) fuel [] log hend

end Timers

end RtThread
