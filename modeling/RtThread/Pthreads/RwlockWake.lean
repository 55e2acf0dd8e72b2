import RtThread.Lib.CondWaiters
import RtThread.Pthreads.RwlockExclusion

namespace RtThread

open CondMonitor Transition Function State RwLabel

variable {T : Type} [DecidableEq T]

namespace RwLabel

def Tends : RwMode → RwLabel → Prop
  | .write, back .write _ r => r = .done
  | _, test .write y => y ≠ .never
  | .read, count .write _ => True
  | _, grant .write _ => True
  | _, notify => True
  | .write, wakeWriter => True
  | .read, wakeReaders => True
  | _, _ => False

def Sound (d : RwData T) (run : Prop) : RwLabel → Prop
  | outside kept _ | poke _ kept => kept = false
  | enter op kept => kept = false ∧ ∀ m, op ≠ .spurious m
  | count m y => y ≠ .never ∧ d.Blocks m
  | wait m y => y ≠ .never ∧ (run → d.Blocks m)
  | back _ y _ => y ≠ .never
  | tryReaders | tryWriters | putBack | putReaders | putWriters | destroyReaders | clearReaders | destroyWriters
  | clearWriters => ∀ m, d.waiters m = 0
  | test _ _ | grant _ _ | drop | notify | wakeWriter | wakeReaders | check | release _ _ => True

end RwLabel

namespace RwWake

open RwInv

variable {s s' : State T RwMode RwLabel (RwData T)} {t u : T} {m : RwMode}

def InCharge (s : State T RwMode RwLabel (RwData T)) (m : RwMode) (t : T) : Prop :=
  (s.label t).Tends m ∨ m = .write ∧ (s.place t).Due .done ∧ ∃ y, s.label t = .wait .write y

def Units (s : State T RwMode RwLabel (RwData T)) : RwMode → Prop
  | .read => s.Served .read
  | .write => 0 < s.value .write

def Tended (s : State T RwMode RwLabel (RwData T)) (m : RwMode) : Prop :=
  ¬ s.data.Blocks m → (∃ u, (s.place u).Inside m) → (∃ t, InCharge s m t) ∨ Units s m

def Careful (s : State T RwMode RwLabel (RwData T)) : RwLabel → Prop
  -- a writer that gives up wakes no reader
  | .back .write _ r => r = .done ∨ (s.data.setWaiters .write (s.data.nwaitwriters - 1)).Blocks .read ∨
      s.Served .read
  | .wakeReaders => s.Reaches .read
  | .wakeWriter => s.value .write + 1 < 65536
  | .poke m _ => s.value m + 1 < 65536
  | .check => s.data.refcount = 0 ∧ s.data.nwaitreaders = 0 ∧ s.data.nwaitwriters = 0
  | _ => True

instance [Fintype T] (s : State T RwMode RwLabel (RwData T)) : ∀ l, Decidable (Careful s l)
  | .back .write _ _ => instDecidableOr
  | .wakeReaders => inferInstanceAs (Decidable (s.Reaches .read))
  | .wakeWriter | .poke _ _ => Nat.decLt _ _
  | .check => instDecidableAnd
  | .back .read _ _ | .outside _ _ | .enter _ _ | .test _ _ | .count _ _ | .wait _ _ | .grant _ _ | .drop | .notify
  | .tryReaders | .tryWriters | .putBack | .putReaders | .putWriters | .destroyReaders | .clearReaders | .destroyWriters
  | .clearWriters | .release _ _ => isTrue trivial

variable {l : RwLabel}

theorem waitsAt_iff : WaitsAt (rwProgram (T := T)) m l → ∃ y, l = .wait m y := by
  rintro ⟨t, d, x, time, h⟩
  change rwCmd t l d x = some (.wait m time) at h
  cases l with
  | wait m' y =>
    cases h
    exact ⟨y, rfl⟩
  | outside kept last =>
    unfold rwCmd at h
    split_ifs at h
    cases h
  | _ => simp [rwCmd] at h

theorem Inside.label (hlaw : Lawful rwProgram RwLabel.Holds s) (hu : (s.place u).Inside m) :
    ∃ y, s.label u = .wait m y :=
  waitsAt_iff (hlaw.waiting u m hu)

variable {e : CondMonitor.Event T RwChoice}

theorem InCharge.of_step (h : InCharge s m u) (hlaw : Lawful rwProgram RwLabel.Holds s)
    (hs : s.step rwProgram e = some s') (hu : e.thread ≠ u) : InCharge s' m u := by
  have hlabel := label_of_step hs hu
  obtain ht | ⟨hm, hdue, hy⟩ := h
  · left
    rwa [hlabel]
  · right
    rw [hlabel]
    exact ⟨hm, (hlaw.inv.pushed_step hs hu).due hdue, hy⟩

section

variable (h : Tended s m) (hlaw : Lawful rwProgram RwLabel.Holds s) (hs : s.step rwProgram e = some s')

include h hlaw hs

theorem Tended.of_step (hl : Lasts rwProgram s m e) (hb : ¬ s'.data.Blocks m → ¬ s.data.Blocks m)
    (ht : InCharge s m e.thread → InCharge s' m e.thread) : Tended s' m := by
  rintro hblocks ⟨u, hu⟩
  have hin : (s.place u).Inside m := by
    obtain ⟨-, hin | ⟨x, time, rfl, hp, hcmd⟩⟩ := hlaw.inv.inside_step hs hu
    · exact hin
    · exact absurd rfl (hl hp _ hcmd).1
  obtain ⟨v, hv⟩ | hunits := h (hb hblocks) ⟨u, hin⟩
  · by_cases hev : e.thread = v
    · exact .inl ⟨v, hev ▸ ht (hev ▸ hv)⟩
    · exact .inl ⟨v, hv.of_step hlaw hs hev⟩
  · cases m with
    | read => exact .inr (hunits.step hlaw.inv hs hl)
    | write =>
      obtain hpos | ⟨hd, hw, hlabel⟩ := unit_step hs hl hunits
      · exact .inr hpos
      · obtain ⟨y, hy⟩ := Inside.label hlaw hd.inside
        refine .inl ⟨e.thread, .inr ⟨rfl, ?_, y, ?_⟩⟩
        · rw [hw]
          rfl
        · rw [hlabel]
          exact hy

theorem Tended.inside (hp : s.place e.thread ≠ .run) : Tended s' m := by
  obtain ⟨hdata, hplace⟩ := call_step hs rfl hp
  have hlasts : Lasts rwProgram s m e := by
    cases e with
    | run t x => exact fun hrun => absurd hrun hp
    | expire t => trivial
  refine h.of_step hlaw hs hlasts (by rw [hdata]; exact id) ?_
  rintro (ht | ⟨rfl, hdue, y, hy⟩)
  · obtain ⟨op, kept, hl⟩ | ⟨m', y, hl⟩ := rw_calling (hlaw.calling _ hp)
    · rw [hl] at ht
      cases m <;> exact ht.elim
    · rw [hl] at ht
      cases m <;> exact ht.elim
  · obtain ⟨-, r, hr, hlabel⟩ | ⟨-, hlabel, hdue'⟩ := hplace
    · obtain rfl : Result.done = r := hdue.unique hr
      refine .inl ?_
      rw [hlabel, hy]
      rfl
    · refine .inr ⟨rfl, hdue' _ hdue, y, ?_⟩
      rw [hlabel, hy]

end

section

omit [DecidableEq T]

theorem sound_congr {d d' : RwData T} {p p' : Prop} (h : l.Sound d p) (hp : p' → p)
    (hd : l.Holds → (∀ m y, l = .wait m y → p') → d' = d) : l.Sound d' p' := by
  cases l with
  | wait m y => exact ⟨h.1, fun hrun => (hd trivial (fun _ _ _ => hrun)) ▸ h.2 (hp hrun)⟩
  | outside kept last | poke m kept | enter op kept | back m y r => exact h
  | test m y | grant m y | drop | notify | wakeWriter | wakeReaders | check | release op e => trivial
  | count m y | tryReaders | tryWriters | putBack | putReaders | putWriters | destroyReaders | clearReaders |
      destroyWriters
  | clearWriters => exact (hd trivial (by simp)) ▸ h

theorem sound_ofEnter (d : RwData T) (p : Prop) {op : RwOp} (h : ∀ m, op ≠ .spurious m) :
    (RwLabel.ofEnter op).Sound d p := by
  cases op with
  | spurious m => exact absurd rfl (h m)
  | _ => trivial

theorem sound_ret {d : RwData T} {p : Prop} (h : l.Sound d p)
    (hcall : (∃ op kept, l = .enter op kept) ∨ ∃ m y, l = .wait m y) (r : Result) : (rwRet l r).Sound d True := by
  obtain ⟨op, kept, rfl⟩ | ⟨m, y, rfl⟩ := hcall
  · cases r with
    | done => exact sound_ofEnter d _ h.2
    | expired | refused => exact h.1
  · exact h.1

theorem sound_ofTest (d : RwData T) (p : Prop) (m : RwMode) (y : RwStyle) :
    (RwLabel.ofTest m y (d.Blocks m)).Sound d p := by
  unfold ofTest
  split_ifs with hb hy
  · trivial
  · exact ⟨hy, of_decide_eq_true hb⟩
  · trivial

theorem sound_ofNotify (d d' : RwData T) (p : Prop) : (RwLabel.ofNotify d').Sound d p := by
  unfold ofNotify
  split_ifs <;> trivial

theorem blocks_setWaiters (d : RwData T) (m : RwMode) (n : BitVec 32) : (d.setWaiters m n).Blocks m ↔ d.Blocks m := by
  cases m with
  | read | write => exact Iff.rfl

def Counted (s : State T RwMode RwLabel (RwData T)) : Prop :=
  ∀ m, ∃ F : Finset T, (∀ t, t ∈ F ↔ (s.label t).Between m) ∧ (s.data.waiters m).toInt = F.card

theorem Counted.pos (h : Counted s) (ht : (s.label t).Between m) : (0 : BitVec 32).slt (s.data.waiters m) = true := by
  obtain ⟨F, hF, hcard⟩ := h m
  have hpos := Finset.card_pos.mpr ⟨t, (hF t).mpr ht⟩
  rw [BitVec.slt, decide_eq_true_eq, hcard, show (0 : BitVec 32).toInt = 0 from rfl]
  exact_mod_cast hpos

theorem tended_of_blocks (hb : s.data.Blocks m) : Tended s m := fun hnot => absurd hb hnot

theorem tended_of_tends (ht : (s.label t).Tends m) : Tended s m := fun _ _ => .inl ⟨t, .inl ht⟩

end

theorem sound_other (hlaw : Lawful rwProgram RwLabel.Holds s)
    (hs : s.step rwProgram e = some s') (hu : e.thread ≠ u) (h : (s.label u).Sound s.data (s.place u = .run)) :
    (s'.label u).Sound s'.data (s'.place u = .run) := by
  rw [label_of_step hs hu]
  have hrun : s'.place u = .run → s.place u = .run := by
    intro hp
    have hpush := hlaw.inv.pushed_step hs hu
    rw [hp] at hpush
    generalize s.place u = q at hpush
    cases hpush
    rfl
  refine sound_congr h hrun (fun hholds hwait => ?_)
  have hplace : s.place u = .run := by
    by_contra hp
    obtain ⟨op, kept, hl⟩ | ⟨m, y, hl⟩ := rw_calling (hlaw.calling u hp)
    · rw [hl] at hholds h
      exact absurd (h.1.symm.trans hholds) (by simp)
    · exact hp (hrun (hwait m y hl))
  exact hlaw.data_kept rw_disciplined hs (((hlaw.owned u).run hplace).mpr hholds) hu

theorem sound_inside (hlaw : Lawful rwProgram RwLabel.Holds s)
    (hs : s.step rwProgram e = some s') (hp : s.place e.thread ≠ .run)
    (h : (s.label e.thread).Sound s.data (s.place e.thread = .run)) :
    (s'.label e.thread).Sound s'.data (s'.place e.thread = .run) := by
  obtain ⟨hdata, ⟨-, r, -, hlabel⟩ | ⟨hp', hlabel, -⟩⟩ := call_step hs rfl hp
  · rw [hdata, hlabel]
    exact sound_congr (sound_ret h (rw_calling (hlaw.calling _ hp)) r) (fun _ => trivial) (fun _ _ => rfl)
  · rw [hdata, hlabel]
    exact sound_congr h (fun hrun => absurd hrun hp') (fun _ _ => rfl)

theorem sound_exec {x : RwChoice} {cmd : Cmd RwMode RwLabel (RwData T) (BitVec 32)}
    (hcmd : rwCmd t (s.label t) s.data x = some cmd) (hcare : Careful s (s.label t))
    (h : (s.label t).Sound s.data (s.place t = .run)) :
    ((s.exec rwProgram t cmd).label t).Sound (s.exec rwProgram t cmd).data
    ((s.exec rwProgram t cmd).place t = .run) := by
  rw [exec_data]
  obtain ⟨-, hafter⟩ | ⟨hlabel, hcall⟩ := exec_self s t cmd
  · generalize (s.exec rwProgram t cmd).label t = l' at hafter
    generalize s.label t = l at hcmd hcare h hafter
    cases l
    case outside kept last =>
      unfold rwCmd at hcmd
      split_ifs at hcmd
      cases hcmd
      obtain rfl : l' = _ := hafter
      obtain rfl : kept = false := h
      cases x.op with
      | spurious m => rfl
      | _ => exact ⟨rfl, by simp⟩
    all_goals obtain rfl := Option.some.inj hcmd
    case enter op kept =>
      obtain ⟨-, rfl⟩ | ⟨-, rfl⟩ := hafter
      · exact sound_ofEnter _ _ h.2
      · exact h.1
    case wait m y =>
      obtain ⟨-, rfl⟩ := hafter
      exact h.1
    case tryReaders | tryWriters | destroyReaders | destroyWriters =>
      obtain rfl | rfl := hafter
      · exact h
      · first | exact h | trivial
    case release op e => obtain rfl | ⟨-, rfl⟩ := hafter <;> rfl
    all_goals obtain rfl : l' = _ := hafter
    case poke | putReaders | putWriters | clearReaders => exact h
    case test m y => exact sound_ofTest _ _ m y
    case count m y => exact ⟨h.1, fun _ => (blocks_setWaiters _ _ _).mpr h.2⟩
    case back m y r =>
      unfold ofBack
      split_ifs <;> trivial
    case notify => exact sound_ofNotify _ _ _
    case check =>
      obtain ⟨href, hr, hw⟩ := hcare
      rw [ofCheck, if_neg (by simp [href, hr, hw])]
      intro m
      cases m with
      | read => exact hr
      | write => exact hw
    case grant | drop | wakeWriter | wakeReaders | putBack | clearWriters => trivial
  · rw [hlabel]
    obtain ⟨rfl, r, hr⟩ | ⟨c, time, rfl, hd⟩ := hcall
    · exact sound_congr h (fun hp => absurd (hr.symm.trans hp) (by simp)) (fun _ _ => rfl)
    · exact sound_congr h (fun hp => absurd (hd.symm.trans hp) (by simp)) (fun _ _ => rfl)

theorem Counted.pos_of_inside (h : Counted s) (hlaw : Lawful rwProgram RwLabel.Holds s) (hu : (s.place u).Inside m) :
    (0 : BitVec 32).slt (s.data.waiters m) = true := by
  obtain ⟨y, hy⟩ := Inside.label hlaw hu
  exact h.pos (by rw [hy]; rfl)

theorem tended_of_zero (hcount : Counted s) (hlaw : Lawful rwProgram RwLabel.Holds s) (hz : s.data.waiters m = 0) :
    Tended s m := by
  rintro - ⟨u, hu⟩
  have hpos := hcount.pos_of_inside hlaw hu
  rw [hz] at hpos
  exact absurd hpos (by decide)

section

variable {x : RwChoice} {cmd : Cmd RwMode RwLabel (RwData T) (BitVec 32)} (hlaw : Lawful rwProgram RwLabel.Holds s)
  (hrun : s.place t = .run) (hcmd : rwCmd t (s.label t) s.data x = some cmd)

include hcmd

theorem tended_notify (hl : s.label t = .notify) (hlaw' : Lawful rwProgram RwLabel.Holds (s.exec rwProgram t cmd))
    (hcount : Counted (s.exec rwProgram t cmd)) : Tended (s.exec rwProgram t cmd) m := by
  have hstep := hcmd
  rw [hl] at hstep
  cases hstep
  have hlabel : (s.exec rwProgram t (.assign s.data (.ofNotify s.data))).label t = .ofNotify s.data := update_self ..
  rintro hb ⟨u, hu⟩
  have hpos := hcount.pos_of_inside hlaw' hu
  refine .inl ⟨t, .inl ?_⟩
  rw [hlabel, ofNotify]
  cases m with
  | write =>
    have hzero : s.data.refcount = 0 := not_not.mp hb
    rw [if_pos (show (0 : BitVec 32).slt s.data.nwaitwriters = true from hpos), if_pos hzero]
    trivial
  | read =>
    have hnone : ¬ (0 : BitVec 32).slt s.data.nwaitwriters = true := fun hw => hb (.inr hw)
    rw [if_neg hnone, if_pos (show (0 : BitVec 32).slt s.data.nwaitreaders = true from hpos)]
    trivial

include hlaw hrun

theorem Tended.exec (h : Tended s m) (htends : ¬ (s.label t).Tends m) (hdrain : ¬ cmd.Drains m)
    (hwrap : cmd = .signal m → s.value m + 1 < 65536) (hb : ¬ (cmd.result s.data).Blocks m → ¬ s.data.Blocks m) :
    Tended (s.exec rwProgram t cmd) m := by
  have hs : s.step rwProgram (.run t x) = some (s.exec rwProgram t cmd) := by
    rw [State.step, State.turn, hrun]
    exact Option.map_eq_some_iff.mpr ⟨cmd, hcmd, rfl⟩
  refine h.of_step hlaw hs (fun _ cmd' hcmd' => ?_) (by rw [State.exec_data]; exact hb) ?_
  · obtain rfl : cmd = cmd' := Option.some.inj (hcmd.symm.trans hcmd')
    exact ⟨hdrain, hwrap⟩
  · rintro (ht | ⟨-, hdue, -⟩)
    · exact absurd ht htends
    · change (s.place t).Due .done at hdue
      rw [hrun] at hdue
      exact hdue.elim

variable {m' : RwMode} {y : RwStyle}

theorem tended_test (h : Tended s m) (hl : s.label t = .test m' y) : Tended (s.exec rwProgram t cmd) m := by
  have htest := hcmd
  rw [hl] at htest
  cases htest
  have hlabel : (s.exec rwProgram t (.assign s.data (.ofTest m' y (s.data.Blocks m')))).label t =
      ofTest m' y (s.data.Blocks m') := update_self ..
  cases m' with
  | read => exact h.exec hlaw hrun hcmd (by rw [hl]; cases m <;> exact id) id (by simp) id
  | write =>
    by_cases hy : y = .never
    · exact h.exec hlaw hrun hcmd (by rw [hl]; cases m <;> exact fun hn => hn hy) id (by simp) id
    by_cases hb : s.data.Blocks .write
    · cases m with
      | write => exact tended_of_blocks hb
      | read =>
        refine tended_of_tends (t := t) ?_
        rw [hlabel, ofTest, decide_eq_true hb, if_neg hy]
        trivial
    · refine tended_of_tends (t := t) ?_
      rw [hlabel, decide_eq_false hb]
      cases m <;> trivial

theorem tended_count (h : Tended s m) (hl : s.label t = .count m' y)
    (hsound : (s.label t).Sound s.data (s.place t = .run)) (hcount : Counted (s.exec rwProgram t cmd)) :
    Tended (s.exec rwProgram t cmd) m := by
  have hstep := hcmd
  rw [hl] at hstep hsound
  cases hstep
  by_cases hm : m' = m
  · subst hm
    exact tended_of_blocks ((blocks_setWaiters _ _ _).mpr hsound.2)
  · cases m with
    | write =>
      obtain rfl : m' = .read := by
        cases m' with
        | read => rfl
        | write => exact absurd rfl hm
      exact h.exec hlaw hrun hcmd (by rw [hl]; exact id) id (by simp) id
    | read =>
      obtain rfl : m' = .write := by
        cases m' with
        | read => exact absurd rfl hm
        | write => rfl
      have hlabel : (s.exec rwProgram t
          (.assign (s.data.setWaiters .write (s.data.waiters .write + 1)) (.wait .write y))).label t = .wait .write y :=
          update_self ..
      exact tended_of_blocks (.inr (hcount.pos (m := .write) (by rw [hlabel]; rfl)))

theorem tended_back {r : Result} (h : Tended s m) (hl : s.label t = .back m' y r)
    (hsound : (s.label t).Sound s.data (s.place t = .run)) (hcare : Careful s (s.label t)) :
    Tended (s.exec rwProgram t cmd) m := by
  have hstep := hcmd
  rw [hl] at hstep hsound hcare
  cases hstep
  cases m' with
  | read => exact h.exec hlaw hrun hcmd (by rw [hl]; cases m <;> exact id) id (by simp) (by cases m <;> exact id)
  | write =>
    by_cases hr : r = .done
    · refine tended_of_tends (t := t) ?_
      have hlabel : (s.exec rwProgram t
          (.assign (s.data.setWaiters .write (s.data.waiters .write - 1)) (.ofBack .write y r))).label t =
            .ofBack .write y r := update_self ..
      rw [hlabel, ofBack, if_pos hr]
      cases m <;> exact hsound
    · cases m with
      | write => exact h.exec hlaw hrun hcmd (by rw [hl]; exact hr) id (by simp) id
      | read =>
        obtain hb | hserved := hcare.resolve_left hr
        · exact tended_of_blocks hb
        · exact fun _ _ => .inr (hserved.mono hserved.1 le_rfl (fun u hu => by
            by_cases hut : u = t
            · rw [hut, exec, moveTo_place, setPlace_place, update_self] at hu
              exact hu.elim
            · exact (hlaw.inv.pushed_exec hut _).dropped hu))

theorem tended_grant (h : Tended s m) (hl : s.label t = .grant m' y)
    (hb : ¬ s.data.Blocks m') : Tended (s.exec rwProgram t cmd) m := by
  have hstep := hcmd
  rw [hl] at hstep
  cases hstep
  cases m' with
  | write =>
    cases m with
    | read => exact tended_of_blocks (.inl (show (-1 : BitVec 32).slt 0 = true by decide))
    | write => exact tended_of_blocks (show (-1 : BitVec 32) ≠ 0 by decide)
  | read =>
    cases m with
    | read => exact h.exec hlaw hrun hcmd (by rw [hl]; exact id) id (by simp) (fun _ => hb)
    | write =>
      refine tended_of_blocks (fun hz => hb (.inl ?_))
      change s.data.refcount + 1 = 0 at hz
      rw [show s.data.refcount = -1 by rw [← add_sub_cancel_right s.data.refcount 1, hz]; rfl]
      decide

theorem tended_wakeWriter (h : Tended s m) (hl : s.label t = .wakeWriter) (hcare : Careful s (s.label t)) :
    Tended (s.exec rwProgram t cmd) m := by
  have hstep := hcmd
  rw [hl] at hstep hcare
  cases hstep
  cases m with
  | read => exact h.exec hlaw hrun hcmd (by rw [hl]; exact id) id (by simp) id
  | write =>
    rintro - -
    obtain hpos | ⟨u, hut, hin, hwoken⟩ := hlaw.inv.signal_units (P := rwProgram) hrun hcare
    · exact .inr hpos
    · obtain ⟨y, hy⟩ := Inside.label hlaw hin
      refine .inl ⟨u, .inr ⟨rfl, ?_, y, ?_⟩⟩
      · rw [hwoken]
        rfl
      · rw [← hy]
        exact (update_of_ne hut _ _).trans (congrFun (s.grant_label _ _).1 u)

theorem tended_exec (h : Tended s m) (hcare : Careful s (s.label t)) (hfields : RwInv s.data s.label)
    (hsound : (s.label t).Sound s.data (s.place t = .run))
    (hlaw' : Lawful rwProgram RwLabel.Holds (s.exec rwProgram t cmd)) (hcount : Counted (s.exec rwProgram t cmd)) :
    Tended (s.exec rwProgram t cmd) m := by
  have hstep := hcmd
  cases hl : s.label t with
  | test m' y => exact tended_test hlaw hrun hcmd h hl
  | count m' y => exact tended_count hlaw hrun hcmd h hl hsound hcount
  | back m' y r => exact tended_back hlaw hrun hcmd h hl hsound hcare
  | grant m' y => exact tended_grant hlaw hrun hcmd h hl (hfields.granting t m' y hl)
  | notify => exact tended_notify hcmd hl hlaw' hcount
  | wakeWriter => exact tended_wakeWriter hlaw hrun hcmd h hl hcare
  | outside kept last =>
    rw [hl] at hstep
    unfold rwCmd at hstep
    split_ifs at hstep
    cases hstep
    exact h.exec hlaw hrun hcmd (by rw [hl]; cases m <;> exact id) id (by simp) id
  | poke m' kept =>
    rw [hl] at hstep hcare
    cases hstep
    refine h.exec hlaw hrun hcmd (by rw [hl]; cases m <;> exact id) id (fun hm => ?_) id
    obtain rfl : m' = m := by simpa using hm
    exact hcare
  | enter op kept | check | release op e =>
    rw [hl] at hstep
    cases hstep
    exact h.exec hlaw hrun hcmd (by rw [hl]; cases m <;> exact id) id (by simp) id
  | wait m' y =>
    rw [hl] at hstep hsound
    cases hstep
    by_cases hm : m' = m
    · subst hm
      refine tended_of_blocks ?_
      rw [exec_data]
      exact hsound.2 hrun
    · exact h.exec hlaw hrun hcmd (by rw [hl]; cases m <;> exact id) hm (by simp) id
  | drop =>
    rw [hl] at hstep
    cases hstep
    refine tended_of_tends (t := t) ?_
    have hlabel : (s.exec rwProgram t (.assign (s.data.drop t) .notify)).label t = .notify := update_self ..
    rw [hlabel]
    cases m <;> trivial
  | wakeReaders =>
    rw [hl] at hstep hcare
    cases hstep
    cases m with
    | read => exact fun _ _ => .inr (hlaw.inv.served_broadcast t hcare)
    | write => exact h.exec hlaw hrun hcmd (by rw [hl]; exact id) id (by simp) id
  | tryReaders | tryWriters | putBack | putReaders | putWriters | destroyReaders | clearReaders | destroyWriters
  | clearWriters =>
    rw [hl] at hstep hsound
    cases hstep
    refine tended_of_zero hcount hlaw' ?_
    rw [exec_data]
    exact hsound m

end

end RwWake

namespace RwSystem

variable {s s' : RwSystem T}

def Careful (s : RwSystem T) (e : CondMonitor.Event T RwChoice) : Prop :=
  s.NoOverflow e ∧
    match e with
    | .run t _ => RwWake.Careful s.monitor (s.label t)
    | .expire _ => True

instance [Fintype T] (s : RwSystem T) : ∀ e, Decidable (s.Careful e)
  | .run _ _ | .expire _ => instDecidableAnd

def Quiet (s : RwSystem T) : Prop :=
  ∀ t, (∃ kept last, s.label t = .outside kept last) ∨ (∃ r, s.place t = .queued r) ∨
  ∃ m p, s.place t = .parked m p

structure Unstranded (s : RwSystem T) : Prop where
  readers : ∀ t p, s.place t = .parked .read p → 0 ≤ s.data.refcount.toInt →
    ∃ u q, s.place u = .parked .write q
  writers : ∀ t p, s.place t = .parked .write p → s.data.refcount ≠ 0

structure Watched (s : RwSystem T) : Prop where
  reached : s.Reached
  exclusion : s.Exclusion
  sound : ∀ t, (s.label t).Sound s.data (s.place t = .run)
  tended : ∀ m, RwWake.Tended s.monitor m

theorem watched_start {k : Kernel T (Option RwMode)} (hk : k.Calm) : (rwStart k).Watched :=
  ⟨reached_start hk, exclusion_start hk, fun _ => rfl, fun _ _ ⟨_, hu⟩ => hu.elim⟩

theorem Watched.step (h : s.Watched) {e : CondMonitor.Event T RwChoice} (hcare : s.Careful e)
    (hs : MonitorSystem.step rwCode s e = some s') : s'.Watched := by
  have hreached := h.reached.step hs
  have hex := (h.reached.exclusion_step h.exclusion hs).mpr hcare.1
  have hlaw := h.reached.lawful
  obtain ⟨hsim, -⟩ := h.reached.inv.step hs
  refine ⟨hreached, hex, fun u => ?_, fun m => ?_⟩
  · by_cases hu : e.thread = u
    · subst hu
      by_cases hp : s.monitor.place e.thread = .run
      · obtain ⟨x, cmd, he, hcmd, heq⟩ := exec_of_step hsim rfl hp
        rw [he] at hcare
        have hsound := RwWake.sound_exec hcmd hcare.2 (h.sound e.thread)
        rw [← heq] at hsound
        exact hsound
      · exact RwWake.sound_inside hlaw hsim hp (h.sound _)
    · exact RwWake.sound_other hlaw hsim hu (h.sound u)
  · by_cases hp : s.monitor.place e.thread = .run
    · obtain ⟨x, cmd, he, hcmd, heq⟩ := exec_of_step hsim rfl hp
      rw [he] at hcare
      have hlaw' : Lawful RwInv.rwProgram RwLabel.Holds s'.monitor := hreached.lawful
      have hcount : RwWake.Counted s'.monitor := hex.waiters
      rw [heq] at hlaw' hcount
      have htended := RwWake.tended_exec hlaw hp hcmd (h.tended m) hcare.2 h.reached.fields
        (h.sound e.thread) hlaw' hcount
      rw [← heq] at htended
      exact htended
    · exact (h.tended m).inside hlaw hsim hp

section

variable (h : s.Watched) (hquiet : s.Quiet)

include h hquiet

theorem Watched.not_queued (t : T) (r : Result) : s.place t ≠ .queued r := by
  intro hq
  have hinv := h.reached.lawful.inv
  have hmem : t ∈ s.monitor.queue := (hinv.queued t).mpr ⟨r, hq⟩
  obtain ⟨o, ho⟩ := Option.ne_none_iff_exists'.mp (fun hnone => List.not_mem_nil (hinv.free hnone ▸ hmem))
  have hfree := hinv.owner_free ho
  obtain ⟨kept, last, hl⟩ | ⟨r', hr'⟩ | ⟨m, p, hp⟩ := hquiet o
  · have hrun : s.monitor.place o = .run := h.reached.lawful.run_of (fun hc => by
      obtain ⟨op, kept', he⟩ | ⟨m, y, he⟩ := rw_calling hc <;> cases hl.symm.trans he)
    have hholds := ((h.reached.lawful.owned o).run hrun).mp ho
    have hsound := h.sound o
    rw [show s.monitor.label o = _ from hl] at hholds
    rw [hl] at hsound
    exact absurd (hsound.symm.trans hholds) (by simp)
  · rw [show s.monitor.place o = _ from hr'] at hfree
    exact hfree
  · rw [show s.monitor.place o = _ from hp] at hfree
    exact hfree

theorem Watched.not_inCharge (m : RwMode) (t : T) : ¬ RwWake.InCharge s.monitor m t := by
  rintro (ht | ⟨-, hdue, y, hy⟩)
  · have hcall : ¬ Calling (RwInv.rwProgram (T := T)) (s.label t) := by
      intro hc
      obtain ⟨op, kept, hl⟩ | ⟨m', y, hl⟩ := rw_calling hc
      · rw [show s.monitor.label t = _ from hl] at ht
        cases m <;> exact ht
      · rw [show s.monitor.label t = _ from hl] at ht
        cases m <;> exact ht
    have hrun : s.place t = .run := h.reached.lawful.run_of hcall
    obtain ⟨kept, last, hl⟩ | ⟨r, hr⟩ | ⟨m', p, hp⟩ := hquiet t
    · rw [show s.monitor.label t = _ from hl] at ht
      cases m <;> exact ht
    · exact absurd (hrun.symm.trans hr) (by simp)
    · exact absurd (hrun.symm.trans hp) (by simp)
  · obtain ⟨kept, last, hl⟩ | ⟨r, hr⟩ | ⟨m', p, hp⟩ := hquiet t
    · exact absurd (hy.symm.trans hl) (by simp)
    · exact h.not_queued hquiet t r hr
    · rw [show s.monitor.place t = _ from hp] at hdue
      exact hdue

theorem Watched.waiter_parked {m : RwMode} {t : T} (ht : (s.label t).Between m) : ∃ p, s.place t = .parked m p := by
  obtain ⟨kept, last, hl⟩ | ⟨r, hr⟩ | ⟨m', p, hp⟩ := hquiet t
  · rw [hl] at ht
    exact ht.elim
  · exact absurd hr (h.not_queued hquiet t r)
  · obtain ⟨y, hy⟩ := RwWake.Inside.label h.reached.lawful (by
      rw [show s.monitor.place t = _ from hp]
      rfl)
    rw [show s.label t = _ from hy] at ht
    obtain rfl : m' = m := ht
    exact ⟨p, hp⟩

end

theorem rwlock_unstranded {k : Kernel T (Option RwMode)} (hk : k.Calm)
    (hreach : Reachable (MonitorSystem.step rwCode) Careful (· = rwStart k) s) (hquiet : s.Quiet) : s.Unstranded := by
  have h : s.Watched := hreach.invariant (by rintro _ rfl; exact watched_start hk)
    (fun _ _ _ hI hcare hstep => hI.step hcare hstep)
  have hlist : ∀ {m : RwMode} {t : T} {p : Patience}, s.place t = .parked m p → s.monitor.list m ≠ [] := by
    intro m t p hp he
    exact List.not_mem_nil (he ▸ (h.reached.lawful.inv.parked t m).mpr ⟨p, hp⟩)
  have hinside : ∀ {m : RwMode} {t : T} {p : Patience}, s.place t = .parked m p → (s.monitor.place t).Inside m := by
    intro m t p hp
    rw [show s.monitor.place t = _ from hp]
    rfl
  constructor
  · intro t p hp hopen
    by_contra hnone
    have hblocks : ¬ s.data.Blocks .read := by
      rintro (hneg | hpos)
      · rw [BitVec.slt, decide_eq_true_eq] at hneg
        exact absurd hopen (not_le.mpr hneg)
      · obtain ⟨F, hF, hcard⟩ := h.exclusion.waiters .write
        have hempty : F = ∅ := Finset.eq_empty_of_forall_notMem (fun u hu => by
          obtain ⟨q, hq⟩ := h.waiter_parked hquiet ((hF u).mp hu)
          exact hnone ⟨u, q, hq⟩)
        rw [hempty, Finset.card_empty] at hcard
        rw [BitVec.slt, show s.data.nwaitwriters.toInt = _ from hcard] at hpos
        exact absurd hpos (by decide)
    obtain ⟨u, hu⟩ | hserved := h.tended .read hblocks ⟨t, hinside hp⟩
    · exact h.not_inCharge hquiet .read u hu
    · exact hlist hp hserved.1
  · intro t p hp hzero
    obtain ⟨u, hu⟩ | hpos := h.tended .write (not_not.mpr hzero) ⟨t, hinside hp⟩
    · exact h.not_inCharge hquiet .write u hu
    · exact hlist hp (h.reached.lawful.inv.value .write hpos)

def writerBetweenReaders : List (CondMonitor.Event Tid RwChoice) :=
  steps .low pthreadRwlockRdlock 5 ++ steps .mid pthreadRwlockWrlock 6 ++ steps .high pthreadRwlockRdlock 6 ++
    steps .low pthreadRwlockUnlock 6 ++ steps .mid pthreadRwlockWrlock 5

theorem rwlock_unstranded_between : ∃ s, run (MonitorSystem.step rwCode)
    (rwStart rwKernel) writerBetweenReaders = some s ∧
    s.data.writers = [.mid] ∧ s.place .high = .parked .read .forever ∧ Unstranded s := by
  obtain ⟨s, hs, hwriters, hhigh, hlow, hmid⟩ :
      ∃ s, run (MonitorSystem.step rwCode) (rwStart rwKernel) writerBetweenReaders = some s ∧
      s.data.writers = [.mid] ∧
      s.place .high = .parked .read .forever ∧ s.label .low = .outside false (some (pthreadRwlockUnlock, .ok)) ∧
      s.label .mid = .outside false (some (pthreadRwlockWrlock, .ok)) := by decide +kernel
  have hcare : StepsAlong (MonitorSystem.step rwCode) Careful
    (rwStart rwKernel) writerBetweenReaders := by decide +kernel
  refine ⟨s, hs, hwriters, hhigh, rwlock_unstranded rwKernel_calm (.of_run (.start rfl) hcare hs) (fun t => ?_)⟩
  cases t with
  | low => exact .inl ⟨_, _, hlow⟩
  | mid => exact .inl ⟨_, _, hmid⟩
  | high => exact .inr (.inr ⟨_, _, hhigh⟩)

def writerGivesUp : List (CondMonitor.Event Tid RwChoice) :=
  steps .low pthreadRwlockRdlock 5 ++ steps .mid pthreadRwlockTimedwrlock 6 ++ steps .high pthreadRwlockRdlock 6 ++
    [.expire .mid] ++ steps .mid pthreadRwlockTimedwrlock 3

theorem rwlock_reader_stranded : ∃ s, run (MonitorSystem.step rwCode) (rwStart rwKernel) writerGivesUp = some s ∧
    Quiet s ∧ s.place .high = .parked .read .forever ∧ s.data.refcount = 1 ∧ s.data.nwaitwriters = 0 ∧
    ¬ Unstranded s := by
  obtain ⟨s, hs, hhigh, href, hwriters, hlow, hmid, hplow, hpmid⟩ :
      ∃ s, run (MonitorSystem.step rwCode) (rwStart rwKernel) writerGivesUp = some s ∧
      s.place .high = .parked .read .forever ∧ s.data.refcount = 1 ∧ s.data.nwaitwriters = 0 ∧
      s.label .low = .outside false (some (pthreadRwlockRdlock, .ok)) ∧
      s.label .mid = .outside false (some (pthreadRwlockTimedwrlock, .etimedout)) ∧ s.place .low = .run ∧
      s.place .mid = .run := by decide +kernel
  refine ⟨s, hs, fun t => ?_, hhigh, href, hwriters, fun hun => ?_⟩
  · cases t with
    | low => exact .inl ⟨_, _, hlow⟩
    | mid => exact .inl ⟨_, _, hmid⟩
    | high => exact .inr (.inr ⟨_, _, hhigh⟩)
  · obtain ⟨u, q, hu⟩ := hun.readers .high _ hhigh (by rw [href]; decide)
    cases u with
    | low => exact absurd (hplow.symm.trans hu) (by simp)
    | mid => exact absurd (hpmid.symm.trans hu) (by simp)
    | high => exact absurd (hhigh.symm.trans hu) (by simp)

end RwSystem

end RtThread
