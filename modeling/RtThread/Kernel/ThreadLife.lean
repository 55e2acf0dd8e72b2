import RtThread.Kernel.Reclaim

namespace RtThread

open Transition List Option

inductive ThreadEnd
  | exit
  | detach
  | delete
  deriving DecidableEq

structure Life where
  static : Bool
  cleanup : Bool
  dead : Bool
  queued : Bool
  taken : Bool
  attached : Bool
  cleanups : ℕ
  stackFrees : ℕ
  objectFrees : ℕ
  deriving DecidableEq

namespace Life

def born (static cleanup : Bool) : Life where
  static := static
  cleanup := cleanup
  dead := false
  queued := false
  taken := false
  attached := true
  cleanups := 0
  stackFrees := 0
  objectFrees := 0

def ofThread (th : Thread) (queued taken attached : Bool) (cleanups stackFrees objectFrees : ℕ) : Life where
  static := th.isSystemObject
  cleanup := th.cleanup
  dead := th.stat = .close
  queued := queued
  taken := taken
  attached := attached
  cleanups := cleanups
  stackFrees := stackFrees
  objectFrees := objectFrees

def finish (l : Life) : ThreadEnd → Life
  | .exit =>
    if l.static ∧ ¬ l.cleanup then { l with dead := true, attached := false }
    else { l with dead := true, queued := true }
  | .detach => { l with dead := true, attached := false, queued := l.cleanup }
  | .delete => { l with dead := true, queued := true }

def take (l : Life) : Life :=
  { l with queued := false, taken := !l.static, cleanups := l.cleanups + if l.cleanup then 1 else 0 }

def free (l : Life) : Life :=
  { l with taken := false, attached := false, stackFrees := l.stackFrees + 1, objectFrees := l.objectFrees + 1 }

theorem take_ofThread (th : Thread) (q k a : Bool) (c f o : ℕ) : (ofThread th q k a c f o).take =
    ofThread th false (!th.isSystemObject) a (c + if th.cleanup then 1 else 0) f o := rfl

theorem free_ofThread (th : Thread) (q k a : Bool) (c f o : ℕ) :
    (ofThread th q k a c f o).free = ofThread th q false false c (f + 1) (o + 1) := rfl

inductive Step (l : Life) : Option ThreadEnd → Life → Prop
  | stay : Step l none l
  | take (h : l.queued = true) : Step l none l.take
  | free (h : l.taken = true) : Step l none l.free
  | finish (h : l.dead = false) (e : ThreadEnd) : Step l (some e) (l.finish e)

structure Ok (l : Life) : Prop where
  live : l.dead = false → l = born l.static l.cleanup
  queued : l.queued = true → l.dead = true ∧ l.taken = false ∧ l.cleanups = 0 ∧ l.stackFrees = 0 ∧
    l.objectFrees = 0
  taken : l.taken = true → l.dead = true ∧ l.queued = false ∧ l.static = false ∧
    l.cleanups = (if l.cleanup then 1 else 0) ∧ l.stackFrees = 0 ∧ l.objectFrees = 0

def Reclaimed (l : Life) : Prop :=
  l.attached = false ∧ l.cleanups = (if l.cleanup then 1 else 0) ∧ l.stackFrees = (if l.static then 0 else 1) ∧
    l.objectFrees = if l.static then 0 else 1

def Proper (l : Life) : ThreadEnd → Prop
  | .exit => ¬ (l.static = true ∧ l.cleanup = true)
  | .detach => l.static = true ∨ l.cleanup = true
  | .delete => l.static = false

instance (l : Life) : ∀ e, Decidable (l.Proper e)
  | .exit => instDecidableNot
  | .detach => instDecidableOr
  | .delete => instDecidableEqBool _ _

def OnTrack (l : Life) : Prop :=
  l.dead = true → (l.queued = true ∧ (l.static = true → l.attached = false)) ∨ l.taken = true ∨ l.Reclaimed

variable {l l' : Life} {e : Option ThreadEnd}

theorem ok_born (static cleanup : Bool) : (born static cleanup).Ok := ⟨fun _ => rfl, nofun, nofun⟩

theorem Step.ok (h : l.Ok) (hs : l.Step e l') : l'.Ok := by
  cases hs with
  | stay => exact h
  | take hq =>
    obtain ⟨hd, ht, hc, hst, ho⟩ := h.queued hq
    refine ⟨fun hl => ?_, nofun, fun hl => ?_⟩
    · rw [Life.take, hd] at hl
      cases hl
    · have hstatic : l.static = false := by simpa [Life.take] using hl
      exact ⟨hd, rfl, hstatic, by simp [Life.take, hc], hst, ho⟩
  | free ht =>
    obtain ⟨hd, hq, -⟩ := h.taken ht
    refine ⟨fun hl => ?_, fun hl => ?_, nofun⟩
    · rw [Life.free, hd] at hl
      cases hl
    · rw [Life.free, hq] at hl
      cases hl
  | finish hd e =>
    have hb := h.live hd
    generalize l.static = a, l.cleanup = b at hb
    subst hb
    cases a <;> cases b <;> cases e <;> exact ⟨by decide, by decide, by decide⟩

theorem Step.onTrack (h : l.Ok) (ht : l.OnTrack) (hs : l.Step none l') : l'.OnTrack := by
  cases hs with
  | stay => exact ht
  | take hq =>
    obtain ⟨hd, hn, hc, hst, ho⟩ := h.queued hq
    intro _
    right
    cases hstatic : l.static with
    | false => exact .inl (by simp [Life.take, hstatic])
    | true =>
      obtain ⟨-, hatt⟩ | htak | hrec := ht hd
      · exact .inr ⟨hatt hstatic, by simp [Life.take, hc], by simp [Life.take, hst, hstatic],
          by simp [Life.take, ho, hstatic]⟩
      · rw [hn] at htak
        cases htak
      · exact .inr ⟨hrec.1, by simp [Life.take, hc], by simp [Life.take, hst, hstatic],
          by simp [Life.take, ho, hstatic]⟩
  | free hk =>
    obtain ⟨hd, hq, hstatic, hc, hst, ho⟩ := h.taken hk
    exact fun _ => .inr (.inr ⟨rfl, hc, by simp [Life.free, hst, hstatic], by simp [Life.free, ho, hstatic]⟩)

theorem Step.lost (ht : ¬ l.OnTrack) (hs : l.Step e l') : ¬ l'.OnTrack := by
  simp only [OnTrack, Classical.not_imp, not_or] at ht
  obtain ⟨hd, hwait, hnot, hrec⟩ := ht
  cases hs with
  | stay => exact fun hon => (hon hd).elim hwait (fun h => h.elim hnot hrec)
  | take hq =>
    obtain ⟨hstatic, hatt⟩ : l.static = true ∧ l.attached = true := by
      simpa [hq] using hwait
    intro hon
    obtain ⟨hq', -⟩ | htak | hrec' := hon hd
    · cases hq'
    · simp [Life.take, hstatic] at htak
    · have := hrec'.1
      simp [Life.take, hatt] at this
  | free hk => exact absurd hk hnot
  | finish hl e =>
    rw [hd] at hl
    cases hl

theorem finish_onTrack_iff (h : l.Ok) (hd : l.dead = false) (e : ThreadEnd) : (l.finish e).OnTrack ↔ l.Proper e := by
  have hb := h.live hd
  generalize l.static = a, l.cleanup = b at hb
  subst hb
  cases a <;> cases b <;> cases e <;> simp [OnTrack, finish, born, Proper, Reclaimed]

theorem onTrack_settled (hd : l.dead = true) (hq : l.queued = false) (ht : l.taken = false) :
    l.OnTrack ↔ l.Reclaimed := by
  simp [OnTrack, hd, hq, ht]

end Life

variable {T W : Type}

namespace ThreadObjects

variable {s s' : ThreadObjects T W} {k : Kernel T W} {u : T}

structure Initial (s : ThreadObjects T W) : Prop where
  booted : Booted s.kernel
  attached : ∀ t, s.attached t = true
  idle : s.idle = none
  log : s.log = []

def start (k : Kernel T W) : ThreadObjects T W where
  kernel := k
  attached _ := true
  idle := none
  log := []

theorem start_initial (h : Booted k) : (start k).Initial := ⟨h, fun _ => rfl, rfl, rfl⟩

variable [DecidableEq T]

def life (s : ThreadObjects T W) (t : T) : Life :=
  .ofThread (s.kernel.thread t) (t ∈ s.kernel.lists .defunct) (s.idle = some t) (s.attached t)
    (s.log.count (.cleanup t)) (s.log.count (.freeStack t)) (s.log.count (.freeObject t))

def endOf (s : ThreadObjects T W) (t : T) : ObjectsCall T W → Option ThreadEnd
  | .exit => if s.kernel.current = some t then some .exit else none
  | .detach u => if u = t then some .detach else none
  | .delete u => if u = t then some .delete else none
  | _ => none

def Proper (s : ThreadObjects T W) : ObjectsCall T W → Prop
  | .exit => ∀ t ∈ s.kernel.current, (s.life t).Proper .exit
  | .detach t => (s.life t).Proper .detach
  | .delete t => (s.life t).Proper .delete
  | _ => True

instance (s : ThreadObjects T W) : ∀ c, Decidable (s.Proper c)
  | .exit => Option.decidableForallMem _
  | .detach t => inferInstanceAs (Decidable ((s.life t).Proper .detach))
  | .delete t => inferInstanceAs (Decidable ((s.life t).Proper .delete))
  | .scheduler _ | .idle | .free => isTrue trivial

theorem proper_iff (s : ThreadObjects T W) (c : ObjectsCall T W) :
    s.Proper c ↔ ∀ t e, s.endOf t c = some e → (s.life t).Proper e := by
  cases c <;> simp [Proper, endOf]

structure Inv (s : ThreadObjects T W) : Prop where
  ok : ∀ t, (s.life t).Ok
  nodup : (s.kernel.lists .defunct).Nodup

theorem Inv.defunctClosed (h : s.Inv) : s.kernel.DefunctClosed := by
  intro t ht
  have hd := ((h.ok t).queued (decide_eq_true ht)).1
  exact of_decide_eq_true hd

theorem life_eq {t : T} {th : Thread} {q k a : Bool} {c f o : ℕ} (hth : s.kernel.thread t = th)
    (hq : decide (t ∈ s.kernel.lists .defunct) = q) (hk : decide (s.idle = some t) = k) (ha : s.attached t = a)
    (hc : s.log.count (.cleanup t) = c) (hf : s.log.count (.freeStack t) = f)
    (ho : s.log.count (.freeObject t) = o) : s.life t = .ofThread th q k a c f o := by
  rw [life, hth, hq, hk, ha, hc, hf, ho]

theorem life_eq_of_spares (h : s.kernel.Spares k) (t : T) : { s with kernel := k }.life t = s.life t := by
  simp only [life, Life.ofThread, h.defunct, h.closed t, h.cleanup t, h.isSystemObject t]

theorem idleTurn_cons {l : List T} (hl : s.kernel.lists .defunct = u :: l) :
    s.idleTurn.kernel = s.kernel.listRemove u ∧ s.idleTurn.attached = s.attached ∧
      s.idleTurn.idle = (if (s.kernel.thread u).isSystemObject then none else some u) ∧
      s.idleTurn.log = s.log ++ if (s.kernel.thread u).cleanup then [.cleanup u] else [] := by
  simp only [ThreadObjects.idleTurn, hl, true_and]
  split_ifs <;> simp

theorem Inv.idleTurn (h : s.Inv) (hi : s.idle = none) :
    (∀ t, (s.life t).Step none (s.idleTurn.life t)) ∧ (s.idleTurn.kernel.lists .defunct).Nodup := by
  cases hl : s.kernel.lists .defunct with
  | nil =>
    have hsame : s.idleTurn = s := by simp only [ThreadObjects.idleTurn, hl]
    rw [hsame]
    exact ⟨fun t => .stay, h.nodup⟩
  | cons u l =>
    obtain ⟨hkernel, hatt, hidle, hlog⟩ := idleTurn_cons hl
    have hgone : ∀ t, t ∈ s.idleTurn.kernel.lists .defunct ↔ t ≠ u ∧ t ∈ s.kernel.lists .defunct := by
      intro t
      rw [hkernel]
      exact h.nodup.mem_erase_iff
    have hthread : s.idleTurn.kernel.thread = s.kernel.thread := by rw [hkernel]; rfl
    refine ⟨fun t => ?_, by rw [hkernel]; exact h.nodup.erase u⟩
    obtain rfl | ht := eq_or_ne t u
    · have htake : s.idleTurn.life t = (s.life t).take := by
        rw [life, life, Life.take_ofThread, hthread, hatt, hidle, hlog]
        cases (s.kernel.thread t).cleanup <;> cases (s.kernel.thread t).isSystemObject <;> simp [hgone]
      rw [htake]
      exact .take (decide_eq_true (hl ▸ mem_cons_self))
    · have hstay : s.idleTurn.life t = s.life t := by
        rw [life, life, hthread, hatt, hidle, hlog, hi]
        cases (s.kernel.thread u).cleanup <;> cases (s.kernel.thread u).isSystemObject <;>
          simp [hgone, ht, Ne.symm ht]
      rw [hstay]
      exact .stay

theorem idleFree_step (hi : s.idle = some u) (t : T) : (s.life t).Step none ((s.idleFree u).life t) := by
  obtain rfl | ht := eq_or_ne t u
  · have hfree : (s.idleFree t).life t = (s.life t).free := by
      refine Eq.trans (life_eq rfl rfl ?_ ?_ ?_ ?_ ?_) (Life.free_ofThread _ _ _ _ _ _ _).symm <;>
        simp [idleFree, objectDetach]
    rw [hfree]
    exact .free (decide_eq_true hi)
  · have hstay : (s.idleFree u).life t = s.life t := by
      rw [life, life]
      simp [idleFree, objectDetach, hi, ht, Ne.symm ht]
    rw [hstay]
    exact .stay

theorem Inv.closes (h : s.Inv) {q : Bool} {attached : T → Bool} {e : ThreadEnd}
    (hlive : (s.kernel.thread u).stat ≠ .close) (hk : s.kernel.Closes u q k)
    (ha : ∀ t, t ≠ u → attached t = s.attached t)
    (he : (s.life u).finish e = { s.life u with dead := true, attached := attached u, queued := q }) :
    (∀ t, life { s with kernel := k, attached } t = if t = u then (s.life u).finish e else s.life t) ∧
      (k.lists .defunct).Nodup := by
  have hnot : u ∉ s.kernel.lists .defunct := fun hm => hlive (h.defunctClosed u hm)
  have hq : ∀ t, t ∈ k.lists .defunct ↔ (t = u ∧ q = true) ∨ t ∈ s.kernel.lists .defunct := by
    intro t
    rw [hk.defunct]
    cases q <;> simp
  refine ⟨fun t => ?_, ?_⟩
  · split_ifs with ht
    · subst ht
      rw [he]
      simp [life, Life.ofThread, hk.thread, hq, hnot]
    · simp [life, hk.thread, hq, ht, ha t ht]
  · rw [hk.defunct]
    cases q
    · exact h.nodup
    · exact nodup_cons.mpr ⟨hnot, h.nodup⟩

theorem step_of_finish {e : ThreadEnd} (hlive : (s.kernel.thread u).stat ≠ .close)
    (h : ∀ t, s'.life t = if t = u then (s.life u).finish e else s.life t) (t : T) :
    (s.life t).Step (if u = t then some e else none) (s'.life t) := by
  rw [h t]
  obtain rfl | ht := eq_or_ne t u
  · rw [if_pos rfl, if_pos rfl]
    exact .finish (decide_eq_false hlive) e
  · rw [if_neg ht, if_neg (Ne.symm ht)]
    exact .stay

theorem Initial.life (h : s.Initial) (t : T) :
    s.life t = .born (s.kernel.thread t).isSystemObject (s.kernel.thread t).cleanup := by
  simp [ThreadObjects.life, Life.ofThread, Life.born, (h.booted.thread t).1, h.booted.lists, h.attached, h.idle, h.log]

theorem Initial.inv (h : s.Initial) : s.Inv :=
  ⟨fun t => by rw [h.life]; exact Life.ok_born _ _, by rw [h.booted.lists]; exact nodup_nil⟩

variable [DecidableEq W]

theorem Inv.threadExit (h : s.Inv) (hc : s.kernel.current = some u)
    (hlive : (s.kernel.thread u).stat ≠ .close) (hs : s.threadExit = some s') :
    (∀ t, s'.life t = if t = u then (s.life u).finish .exit else s.life t) ∧
      (s'.kernel.lists .defunct).Nodup := by
  simp only [ThreadObjects.threadExit, hc] at hs
  have hnot : u ∉ s.kernel.lists .defunct := fun hm => hlive (h.defunctClosed u hm)
  by_cases hkind : (s.kernel.thread u).isSystemObject ∧ ¬ (s.kernel.thread u).cleanup
  · rw [if_pos hkind] at hs
    obtain ⟨k, hk, rfl⟩ := map_eq_some_iff.mp hs
    refine h.closes hlive (h.defunctClosed.threadExit hc hlive hk) (fun t ht => Function.update_of_ne ht _ _) ?_
    rw [show (s.life u).finish .exit = _ from if_pos hkind]
    simp [life, Life.ofThread, objectDetach, hkind, hnot]
  · rw [if_neg hkind] at hs
    obtain ⟨k, hk, rfl⟩ := map_eq_some_iff.mp hs
    refine h.closes hlive (h.defunctClosed.threadExit hc hlive hk) (fun _ _ => rfl) ?_
    rw [show (s.life u).finish .exit = _ from if_neg hkind]
    simpa [life, Life.ofThread, or_iff_not_imp_left] using hkind

section

variable (h : s.Inv) {u : T} (hlive : (s.kernel.thread u).stat ≠ .close)

include h hlive

theorem Inv.threadDetach : (∀ t, (s.threadDetach u).life t = if t = u then (s.life u).finish
    .detach else s.life t) ∧
      ((s.threadDetach u).kernel.lists .defunct).Nodup :=
  h.closes hlive (h.defunctClosed.threadDetach hlive) (fun t ht => Function.update_of_ne ht _ _)
    (by simp [Life.finish, life, Life.ofThread, objectDetach])

theorem Inv.threadDelete : (∀ t, (s.threadDelete u).life t = if t = u then (s.life u).finish
    .delete else s.life t) ∧
      ((s.threadDelete u).kernel.lists .defunct).Nodup :=
  h.closes hlive (h.defunctClosed.threadDelete hlive) (fun _ _ => rfl) rfl

end

section

variable (h : s.Inv) {c : ObjectsCall T W} (hs : s.step c = some s')

include h hs

theorem Inv.step : (∀ t, (s.life t).Step (s.endOf t c) (s'.life t)) ∧ (s'.kernel.lists .defunct).Nodup := by
  unfold ThreadObjects.step at hs
  split at hs
  · cases hs
  · cases hs
  · cases hs
  · next c hexit hdetach hdelete =>
    obtain ⟨k, hk, rfl⟩ := map_eq_some_iff.mp hs
    have hspares : s.kernel.Spares k := by
      refine h.defunctClosed.schedulerStep c ?_ hk
      unfold Kernel.Continues
      split
      · exact hexit rfl
      · exact hdetach _ rfl
      · exact hdelete _ rfl
      · trivial
    refine ⟨fun t => ?_, by rw [hspares.defunct]; exact h.nodup⟩
    rw [life_eq_of_spares hspares]
    exact .stay
  · split at hs
    · cases hs
    · next u hc =>
      split_ifs at hs with hlive
      obtain ⟨hlife, hnodup⟩ := h.threadExit hc hlive hs
      refine ⟨fun t => ?_, hnodup⟩
      simpa only [endOf, hc, Option.some.injEq] using step_of_finish hlive hlife t
  · split_ifs at hs with hlive
    cases hs
    obtain ⟨hlife, hnodup⟩ := h.threadDetach hlive
    exact ⟨step_of_finish hlive hlife, hnodup⟩
  · split_ifs at hs with hlive
    cases hs
    obtain ⟨hlife, hnodup⟩ := h.threadDelete hlive
    exact ⟨step_of_finish hlive hlife, hnodup⟩
  · split_ifs at hs with hi
    cases hs
    exact h.idleTurn hi
  · obtain ⟨u, hu, rfl⟩ := map_eq_some_iff.mp hs
    exact ⟨idleFree_step hu, h.nodup⟩

theorem Inv.next : s'.Inv :=
  ⟨fun t => ((h.step hs).1 t).ok (h.ok t), (h.step hs).2⟩

end

def OnTrack (s : ThreadObjects T W) : Prop := ∀ t, (s.life t).OnTrack

theorem onTrack_step_iff (h : s.Inv) (ht : s.OnTrack) {c : ObjectsCall T W} (hs : s.step c = some s') :
    s'.OnTrack ↔ s.Proper c := by
  have hstep := (h.step hs).1
  rw [proper_iff]
  constructor
  · intro hon t e he
    have hst := hstep t
    rw [he] at hst
    generalize hl : s'.life t = l' at hst
    cases hst with
    | finish hd =>
      rw [← Life.finish_onTrack_iff (h.ok t) hd, ← hl]
      exact hon t
  · intro hproper t
    have hst := hstep t
    cases he : s.endOf t c with
    | none =>
      rw [he] at hst
      exact hst.onTrack (h.ok t) (ht t)
    | some e =>
      rw [he] at hst
      generalize s'.life t = l' at hst
      cases hst with
      | finish hd => exact (Life.finish_onTrack_iff (h.ok t) hd e).mpr (hproper t e he)

theorem statesAlong_onTrack_iff (h : s.Inv) {calls : List (ObjectsCall T W)} (hrun : run step s calls = some s') :
    s'.OnTrack ↔ StatesAlong step OnTrack s calls := by
  refine ⟨fun hon => ?_, fun hall => hall.of_run hrun⟩
  induction calls generalizing s with
  | nil => exact Option.some.inj hrun ▸ hon
  | cons c calls ih =>
    obtain ⟨r, hr, hrun'⟩ := bind_eq_some_iff.mp hrun
    have hrest := ih (h.next hr) hrun'
    refine ⟨fun t => ?_, fun r' hr' => ?_⟩
    · by_contra hlost
      exact ((h.step hr).1 t).lost hlost (hrest.head t)
    · obtain rfl : r = r' := Option.some.inj (hr.symm.trans hr')
      exact hrest

def Reclaimed (s : ThreadObjects T W) (t : T) : Prop :=
  s.attached t = false ∧ s.log.count (.cleanup t) = (if (s.kernel.thread t).cleanup then 1 else 0) ∧
    s.log.count (.freeStack t) = (if (s.kernel.thread t).isSystemObject then 0 else 1) ∧
    s.log.count (.freeObject t) = if (s.kernel.thread t).isSystemObject then 0 else 1

theorem dead_threads_reclaimed_iff (h : s.Initial) {calls : List (ObjectsCall T W)}
    (hrun : run step s calls = some s') (hempty : s'.kernel.lists .defunct = []) (hidle : s'.idle = none) :
    (∀ t, (s'.kernel.thread t).stat = .close → s'.Reclaimed t) ↔ StepsAlong step Proper s calls := by
  have hon : s.OnTrack := fun t hd => by simp [h.life, Life.born] at hd
  have hsettled : (∀ t, (s'.kernel.thread t).stat = .close → s'.Reclaimed t) ↔ s'.OnTrack := by
    refine forall_congr' (fun t => ?_)
    by_cases hd : (s'.kernel.thread t).stat = .close
    · rw [Life.onTrack_settled (decide_eq_true hd) (decide_eq_false (by simp [hempty]))
        (decide_eq_false (by simp [hidle]))]
      exact ⟨fun hr => hr hd, fun hr _ => hr⟩
    · exact iff_of_true (fun hc => absurd hc hd) (fun hc => absurd (of_decide_eq_true hc) hd)
  rw [hsettled, statesAlong_onTrack_iff h.inv hrun]
  exact statesAlong_iff_stepsAlong (fun _ _ _ hI hs => hI.next hs) (fun _ _ _ hI hP hs => onTrack_step_iff hI hP hs)
    calls h.inv hon

def endCreated : List (ObjectsCall Tid Unit) :=
  [.scheduler (.kernel (.startup .high)), .scheduler (.kernel (.startup .mid)), .scheduler (.kernel .schedulerStart),
    .exit, .delete .low, .idle, .free, .idle, .free]

theorem dead_threads_reclaimed_created : ∃ s, run step (start (initKernel Tid.priority)) endCreated = some s ∧
    (s.kernel.thread .high).stat = .close ∧ (s.kernel.thread .low).stat = .close ∧
    ∀ t, (s.kernel.thread t).stat = .close → s.Reclaimed t := by
  have hrun : (run step (start (initKernel Tid.priority)) endCreated).map (fun s => ((s.kernel.thread .high).stat,
      (s.kernel.thread .low).stat, s.kernel.lists .defunct, s.idle)) = some (.close, .close, [], none) := by decide
  obtain ⟨s, hs, ho⟩ := map_eq_some_iff.mp hrun
  simp only [Prod.mk.injEq] at ho
  obtain ⟨hhigh, hlow, hempty, hidle⟩ := ho
  exact ⟨s, hs, hhigh, hlow, (dead_threads_reclaimed_iff (start_initial (initKernel_booted (by decide))) hs hempty
    hidle).mpr (by decide)⟩

def staticTid : Kernel Tid Unit :=
  Kernel.systemSchedulerInit (fun t => { freshThread t.priority 0 with isSystemObject := true }) 0

theorem staticTid_booted : Booted staticTid :=
  ⟨_, _, rfl, fun t => ⟨freshThread t.priority 0, t.priority, true, true, by cases t <;> rfl⟩⟩

def exitStatic : List (ObjectsCall Tid Unit) :=
  [.scheduler (.kernel (.startup .high)), .scheduler (.kernel (.startup .mid)), .scheduler (.kernel .schedulerStart),
    .exit, .idle]

theorem static_thread_left_attached :
    (start staticTid).Initial ∧ ∃ s, run step (start staticTid) exitStatic = some s ∧
    s.kernel.lists .defunct = [] ∧ s.idle = none ∧ (s.kernel.thread .high).stat = .close ∧
    s.attached .high = true ∧ ¬ s.Reclaimed .high := by
  have hrun : (run step (start staticTid) exitStatic).map (fun s => (s.kernel.lists .defunct, s.idle,
      (s.kernel.thread .high).stat, s.attached .high)) = some ([], none, .close, true) := by decide
  obtain ⟨s, hs, ho⟩ := map_eq_some_iff.mp hrun
  simp only [Prod.mk.injEq] at ho
  obtain ⟨hempty, hidle, hclosed, hatt⟩ := ho
  refine ⟨start_initial staticTid_booted, s, hs, hempty, hidle, hclosed, hatt, fun hr => ?_⟩
  have hgone := hr.1
  rw [hatt] at hgone
  cases hgone

end ThreadObjects

end RtThread
