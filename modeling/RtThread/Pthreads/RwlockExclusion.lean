import RtThread.Pthreads.Rwlock

namespace RtThread

open CondMonitor Transition Function List RwLabel MonitorSystem

variable {x : BitVec 32}

theorem toInt_add_one (h : x ≠ 0x7fffffff) : (x + 1).toInt = x.toInt + 1 := by
  have hne : x.toNat ≠ 0x7fffffff := fun he => h (BitVec.eq_of_toNat_eq he)
  have hadd : (x + 1).toNat = (x.toNat + 1) % 2 ^ 32 := BitVec.toNat_add x 1
  rw [BitVec.toInt_eq_toNat_cond, BitVec.toInt_eq_toNat_cond]
  split_ifs <;> omega

theorem toInt_sub_one (h : x ≠ 0x80000000) : (x - 1).toInt = x.toInt - 1 := by
  have hne : (x - 1) ≠ 0x7fffffff := by
    intro he
    apply h
    rw [← sub_add_cancel x 1, he]
    rfl
  have hadd := toInt_add_one hne
  rw [sub_add_cancel] at hadd
  omega

theorem toInt_ofNat_eq_iff (n : ℕ) (h : n ≤ 2 ^ 31) : (BitVec.ofNat 32 n).toInt = n ↔ n < 2 ^ 31 := by
  rw [BitVec.toInt_eq_toNat_cond, BitVec.toNat_ofNat]
  split_ifs <;> omega

def RwLabel.Between (m : RwMode) : RwLabel → Prop
  | wait m' _ | back m' _ _ => m' = m
  | _ => False

variable {T : Type}

structure RwSystem.Exclusion (s : RwSystem T) : Prop where
  writer : s.data.refcount = -1 ↔ s.data.readers = [] ∧ ∃ t, s.data.writers = [t]
  readers : ∀ n : ℕ, s.data.refcount.toInt = n ↔ s.data.readers.length = n ∧ s.data.writers = []
  waiters : ∀ m, ∃ F : Finset T, (∀ t, t ∈ F ↔ (s.label t).Between m) ∧ (s.data.waiters m).toInt = F.card

def RwData.Fits (d : RwData T) : Prop := d.refcount ≠ 0x80000000 ∧ ∀ m, 0 ≤ (d.waiters m).toInt

theorem RwData.fits_init : (pthreadRwlockInit : RwData T).Fits := by
  refine ⟨show (0 : BitVec 32) ≠ 0x80000000 by decide, fun m => ?_⟩
  cases m <;> exact le_of_eq rfl

variable [DecidableEq T]

namespace RwData

def Counts (d : RwData T) : Prop :=
  d.writers = [] ∧ (d.refcount.toInt = d.readers.length ∨ d.refcount = 0x80000000) ∨
    d.readers = [] ∧ d.refcount = -1 ∧ ∃ t, d.writers = [t]

variable {d : RwData T} {t : T}

section

omit [DecidableEq T]

theorem Counts.grant (h : d.Counts) {m : RwMode} (hb : ¬ d.Blocks m) : (d.grant t m).Counts := by
  cases m with
  | read =>
    have hpos : ¬ d.refcount.slt 0 = true := fun hs => hb (.inl hs)
    obtain ⟨hw, hr | hr⟩ | ⟨hr, href, u, hu⟩ := h
    · refine .inl ⟨hw, ?_⟩
      by_cases hmax : d.refcount = 0x7fffffff
      · refine .inr ?_
        change d.refcount + 1 = _
        rw [hmax]
        rfl
      · refine .inl ?_
        change (d.refcount + 1).toInt = ((t :: d.readers).length : ℕ)
        rw [toInt_add_one hmax, hr]
        rfl
    · exact absurd (by rw [hr]; decide) hpos
    · exact absurd (by rw [href]; decide) hpos
  | write =>
    have hzero : d.refcount = 0 := not_not.mp hb
    obtain ⟨hw, hr | hr⟩ | ⟨hr, href, u, hu⟩ := h
    · refine .inr ⟨?_, rfl, t, ?_⟩
      · rw [hzero, show (0 : BitVec 32).toInt = 0 from rfl] at hr
        exact length_eq_zero_iff.mp (by exact_mod_cast hr.symm)
      · change t :: d.writers = [t]
        rw [hw]
    · exact absurd (hzero.symm.trans hr) (by decide)
    · exact absurd (hzero.symm.trans href) (by decide)

theorem Counts.setWaiters (h : d.Counts) (m : RwMode) (n : BitVec 32) : (d.setWaiters m n).Counts := by
  cases m <;> exact h

end

theorem Counts.drop (h : d.Counts) (ht : d.Held t) : (d.drop t).Counts := by
  obtain ⟨hw, hr⟩ | ⟨hr, href, u, hu⟩ := h
  · have hno : t ∉ d.writers := by
      rw [hw]
      exact not_mem_nil
    have hmem : t ∈ d.readers := ht.resolve_right hno
    have hlen : 0 < d.readers.length := length_pos_of_mem hmem
    have herase : (d.readers.erase t).length = d.readers.length - 1 := length_erase_of_mem hmem
    refine .inl ⟨?_, ?_⟩
    · change d.writers.erase t = []
      rw [hw]
      rfl
    · unfold RwData.drop
      dsimp only
      rw [if_neg hno]
      obtain hr | hr := hr
      · have hpos : (0 : BitVec 32).slt d.refcount = true := by
          simp only [BitVec.slt, decide_eq_true_eq]
          rw [hr]
          simpa using hlen
        have hmin : d.refcount ≠ 0x80000000 := by
          intro he
          rw [he] at hpos
          exact absurd hpos (by decide)
        refine .inl ?_
        rw [if_pos hpos, toInt_sub_one hmin]
        omega
      · rw [hr]
        exact .inr (by decide)
  · have htu : t = u := by
      obtain ht | ht := ht
      · rw [hr] at ht
        exact absurd ht not_mem_nil
      · rw [hu] at ht
        exact mem_singleton.mp ht
    subst htu
    have hmem : t ∈ d.writers := by
      rw [hu]
      exact mem_singleton.mpr rfl
    refine .inl ⟨?_, .inl ?_⟩
    · change d.writers.erase t = []
      rw [hu]
      simp
    · unfold RwData.drop
      rw [if_pos hmem, href, hr]
      rfl

end RwData

def RwLabel.Dropping : RwLabel → Prop
  | enter op _ => op = .unlock
  | drop => True
  | _ => False

structure RwInv (d : RwData T) (label : T → RwLabel) : Prop where
  counts : d.Counts
  waiters : ∀ m, ∃ F : Finset T, (∀ t, t ∈ F ↔ (label t).Between m) ∧ d.waiters m = BitVec.ofNat 32 F.card
  granting : ∀ t m y, label t = .grant m y → ¬ d.Blocks m
  dropping : ∀ t, (label t).Dropping → d.Held t

namespace RwInv

variable {d : RwData T} {label : T → RwLabel} {t : T} {l : RwLabel}

theorem waiters_same {d' : RwData T} {m : RwMode} (h : RwInv d label) (hd : d'.waiters m = d.waiters m)
    (hb : l.Between m ↔ (label t).Between m) :
    ∃ F : Finset T, (∀ u, u ∈ F ↔ (update label t l u).Between m) ∧
    d'.waiters m = BitVec.ofNat 32 F.card := by
  obtain ⟨F, hF, hcard⟩ := h.waiters m
  refine ⟨F, (forall_update_iff label (fun u l => u ∈ F ↔ l.Between m)).mpr ⟨?_, fun u _ => hF u⟩,
    hd.trans hcard⟩
  rw [hF, hb]

theorem move (h : RwInv d label) (hb : ∀ m, l.Between m ↔ (label t).Between m)
    (hg : ∀ m y, l = .grant m y → ¬ d.Blocks m) (hd : l.Dropping → d.Held t) : RwInv d (update label t l) := by
  refine ⟨h.counts, fun m => h.waiters_same rfl (hb m), ?_, ?_⟩
  · exact (forall_update_iff label (fun _ l => ∀ m y, l = .grant m y → ¬ d.Blocks m)).mpr
      ⟨hg, fun u _ => h.granting u⟩
  · exact (forall_update_iff label (fun u l => l.Dropping → d.Held u)).mpr ⟨hd, fun u _ => h.dropping u⟩

theorem change {d' : RwData T} (h : RwInv d label) (hc : d'.Counts)
    (hw : ∀ m, ∃ F : Finset T, (∀ u, u ∈ F ↔ (update label t l u).Between m) ∧
      d'.waiters m = BitVec.ofNat 32 F.card)
    (hother : ∀ u m y, label u = .grant m y → u = t) (hl : ∀ m y, l ≠ .grant m y) (hld : ¬ l.Dropping)
    (hheld : ∀ u, u ≠ t → d.Held u → d'.Held u) : RwInv d' (update label t l) := by
  refine ⟨hc, hw, ?_, ?_⟩
  · exact (forall_update_iff label (fun _ l => ∀ m y, l = .grant m y → ¬ d'.Blocks m)).mpr
      ⟨fun m y he => absurd he (hl m y), fun u hut m y hu => absurd (hother u m y hu) hut⟩
  · exact (forall_update_iff label (fun u l => l.Dropping → d'.Held u)).mpr
      ⟨fun hd => absurd hd hld, fun u hut hu => hheld u hut (h.dropping u hu)⟩

variable {m : RwMode}

section

omit [DecidableEq T]

theorem waiters_setWaiters (d : RwData T) (m : RwMode) (n : BitVec 32) : (d.setWaiters m n).waiters m = n := by
  cases m <;> rfl

theorem waiters_setWaiters_of_ne (d : RwData T) {m' : RwMode} (n : BitVec 32) (hm : m' ≠ m) :
    (d.setWaiters m n).waiters m' = d.waiters m' := by
  cases m <;> cases m' <;> first | rfl | exact absurd rfl hm

theorem held_grant {u : T} (m : RwMode) (h : d.Held u) : (d.grant t m).Held u := by
  cases m with
  | read => exact h.imp_left (mem_cons_of_mem t)
  | write => exact h.imp_right (mem_cons_of_mem t)

end

theorem waiters_count (h : RwInv d label) (hl : ∀ m', l.Between m' ↔ m' = m)
    (ht : ∀ m', ¬ (label t).Between m') (m' : RwMode) :
    ∃ F : Finset T, (∀ u, u ∈ F ↔ (update label t l u).Between m') ∧
      (d.setWaiters m (d.waiters m + 1)).waiters m' = BitVec.ofNat 32 F.card := by
  by_cases hm : m' = m
  · subst hm
    obtain ⟨F, hF, hcard⟩ := h.waiters m'
    have hnot : t ∉ F := fun hm => ht m' ((hF t).mp hm)
    refine ⟨insert t F, (forall_update_iff label (fun u l => u ∈ insert t F ↔ l.Between m')).mpr
      ⟨by simp [hl], fun u hut => ?_⟩, ?_⟩
    · rw [Finset.mem_insert, or_iff_right hut, hF]
    · rw [waiters_setWaiters, Finset.card_insert_of_notMem hnot, hcard, BitVec.ofNat_add]
      rfl
  · exact h.waiters_same (waiters_setWaiters_of_ne d _ hm) (iff_of_false (mt (hl m').mp hm) (ht m'))

theorem waiters_uncount (h : RwInv d label) (hl : ∀ m', ¬ l.Between m')
    (ht : ∀ m', (label t).Between m' ↔ m' = m) (m' : RwMode) :
    ∃ F : Finset T, (∀ u, u ∈ F ↔ (update label t l u).Between m') ∧
      (d.setWaiters m (d.waiters m - 1)).waiters m' = BitVec.ofNat 32 F.card := by
  by_cases hm : m' = m
  · subst hm
    obtain ⟨F, hF, hcard⟩ := h.waiters m'
    have hmem : t ∈ F := (hF t).mpr ((ht m').mpr rfl)
    refine ⟨F.erase t, (forall_update_iff label (fun u l => u ∈ F.erase t ↔ l.Between m')).mpr
      ⟨by simp [hl], fun u hut => ?_⟩, ?_⟩
    · rw [Finset.mem_erase, and_iff_right hut, hF]
    · rw [waiters_setWaiters, hcard, ← Finset.card_erase_add_one hmem, BitVec.ofNat_add]
      exact add_sub_cancel_right _ _
  · exact h.waiters_same (waiters_setWaiters_of_ne d _ hm) (iff_of_false (hl m') (mt (ht m').mp hm))

theorem between_ret (l : RwLabel) (r : Result) (m : RwMode) : (rwRet l r).Between m ↔ l.Between m := by
  cases l with
  | enter op kept => cases r <;> cases op <;> rfl
  | tryReaders | tryWriters | destroyReaders | destroyWriters => cases r <;> rfl
  | _ => rfl

variable {l : RwLabel}

theorem grant_of_ret {r : Result} {y : RwStyle} (h : rwRet l r = .grant m y) : l = .grant m y := by
  cases l with
  | enter op kept => cases r <;> cases op <;> cases h
  | tryReaders | tryWriters | destroyReaders | destroyWriters => cases r <;> cases h
  | grant m' y' => exact h
  | _ => cases h

theorem dropping_of_ret {r : Result} (h : (rwRet l r).Dropping) : l.Dropping := by
  cases l with
  | enter op kept => cases r <;> cases op <;> first | rfl | exact h.elim
  | tryReaders | tryWriters | destroyReaders | destroyWriters => cases r <;> exact h.elim
  | drop => trivial
  | _ => exact h.elim

theorem held_drop {u : T} (hut : u ≠ t) (h : d.Held u) : (d.drop t).Held u := by
  obtain h | h := h
  · refine .inl ?_
    change u ∈ if t ∈ d.writers then d.readers else d.readers.erase t
    split_ifs
    · exact h
    · exact (mem_erase_of_ne hut).mpr h
  · exact .inr ((mem_erase_of_ne hut).mpr h)

abbrev rwProgram : Program T RwMode RwLabel (RwData T) (BitVec 32) RwChoice := pthreadProgram rwCode

variable {s s' : State T RwMode RwLabel (RwData T)}

theorem grant_unique (hlaw : Lawful rwProgram RwLabel.Holds s) (hholds : (s.label t).Holds)
    (henter : ∀ op kept, s.label t ≠ .enter op kept) (hwait : ∀ m y, s.label t ≠ .wait m y) {u : T}
    {y : RwStyle} (hu : s.label u = .grant m y) : u = t := by
  have ht : s.owner = some t := by
    refine hlaw.owner_of hholds (fun hc => ?_)
    obtain ⟨op, kept, he⟩ | ⟨m, y, he⟩ := rw_calling hc
    · exact henter op kept he
    · exact hwait m y he
  have hu' : s.owner = some u := by
    refine hlaw.owner_of (by rw [hu]; trivial) (fun hc => ?_)
    obtain ⟨op, kept, he⟩ | ⟨m, y, he⟩ := rw_calling hc <;> cases hu.symm.trans he
  exact Option.some.inj (hu'.symm.trans ht)

variable (h : RwInv s.data s.label) (hlaw : Lawful rwProgram RwLabel.Holds s)

include h hlaw

theorem assign {x : RwChoice}
    {d : RwData T} (hcmd : rwCmd t (s.label t) s.data x = some (.assign d l)) : RwInv d (update s.label t l) := by
  cases hl : s.label t with
  | outside kept last =>
    rw [hl] at hcmd
    unfold rwCmd at hcmd
    split_ifs at hcmd with hop
    cases hcmd
    apply h.move
    · intro m
      rw [hl]
      cases x.op <;> rfl
    · intro m y hg
      cases hx : x.op <;> rw [hx] at hg <;> cases hg
    · intro hd
      cases hx : x.op <;> rw [hx] at hd <;> try cases hd
      exact not_not.mp (fun hheld => hop ⟨hx, hheld⟩)
  | test m y =>
    rw [hl] at hcmd
    cases hcmd
    unfold ofTest
    apply h.move
    · intro m'
      rw [hl]
      split_ifs <;> rfl
    · intro m' y' hg
      split_ifs at hg with hb
      cases hg
      simpa using hb
    · intro hd
      split_ifs at hd <;> exact hd.elim
  | count m y =>
    rw [hl] at hcmd
    cases hcmd
    refine h.change (h.counts.setWaiters m _) (h.waiters_count (fun m' => eq_comm) (by simp [hl, RwLabel.Between]))
      (fun u m' y' hu => grant_unique hlaw (by rw [hl]; trivial) (by simp [hl]) (by simp [hl]) hu) (by simp) id
      (fun u _ hu => ?_)
    cases m <;> exact hu
  | back m y r =>
    rw [hl] at hcmd
    cases hcmd
    refine h.change (h.counts.setWaiters m _) (h.waiters_uncount ?_ (by simp [hl, RwLabel.Between, eq_comm]))
      (fun u m' y' hu => grant_unique hlaw (by rw [hl]; trivial) (by simp [hl]) (by simp [hl]) hu) ?_ ?_
      (fun u _ hu => ?_)
    · intro m'
      unfold ofBack
      split_ifs <;> exact id
    · intro m' y'
      unfold ofBack
      split_ifs <;> simp
    · unfold ofBack
      split_ifs <;> exact id
    · cases m <;> exact hu
  | grant m y =>
    rw [hl] at hcmd
    cases hcmd
    refine h.change (h.counts.grant (h.granting t m y hl)) (fun m' => h.waiters_same ?_ (by simp [hl, RwLabel.Between]))
      (fun u m' y' hu => grant_unique hlaw (by rw [hl]; trivial) (by simp [hl]) (by simp [hl]) hu) (by simp) id
      (fun u _ hu => held_grant m hu)
    cases m <;> cases m' <;> rfl
  | drop =>
    rw [hl] at hcmd
    cases hcmd
    refine h.change (h.counts.drop (h.dropping t (by rw [hl]; trivial)))
      (fun m' => h.waiters_same ?_ (by simp [hl, RwLabel.Between]))
      (fun u m' y' hu => grant_unique hlaw (by rw [hl]; trivial) (by simp [hl]) (by simp [hl]) hu) (by simp) id
      (fun u hut hu => held_drop hut hu)
    cases m' <;> rfl
  | notify | check =>
    rw [hl] at hcmd
    cases hcmd
    simp only [ofNotify, ofCheck]
    apply h.move
    · intro m'
      rw [hl]
      split_ifs <;> rfl
    · intro m' y' hg
      split_ifs at hg
    · intro hd
      split_ifs at hd <;> exact hd.elim
  | _ =>
    rw [hl] at hcmd
    cases hcmd

theorem step {e : CondMonitor.Event T RwChoice} (hs : s.step rwProgram e = some s') : RwInv s'.data s'.label := by
  cases moves_of_step hs with
  | stay hl hd =>
    rw [hl, hd]
    exact h
  | @ret t x s' r hl hd =>
    rw [hl, hd]
    refine h.move (between_ret _ r) (fun m y hg => ?_) (fun hd' => ?_)
    · exact h.granting t m y (grant_of_ret hg)
    · exact h.dropping t (dropping_of_ret hd')
  | assign hrun hcmd => exact h.assign hlaw hcmd

end RwInv

def rwUpdate (t : T) (d : RwData T) : RwLabel → RwData T
  | .count m _ => d.setWaiters m (d.waiters m + 1)
  | .back m _ _ => d.setWaiters m (d.waiters m - 1)
  | .grant m _ => d.grant t m
  | .drop => d.drop t
  | _ => d

section

variable {s s' : State T RwMode RwLabel (RwData T)} {t : T}

theorem rwUpdate_of_calling (d : RwData T) {l : RwLabel} (h : Calling (RwInv.rwProgram (T := T)) l) :
    rwUpdate t d l = d := by
  obtain ⟨op, kept, rfl⟩ | ⟨m, y, rfl⟩ := rw_calling h <;> rfl

theorem rw_data_of_step (hlaw : Lawful RwInv.rwProgram RwLabel.Holds s) {e : CondMonitor.Event T RwChoice}
    (hs : s.step RwInv.rwProgram e = some s') : s'.data = match e with
      | .run t _ => rwUpdate t s.data (s.label t) | .expire _ => s.data := by
  cases step_effect hs with
  | @exec t x cmd hp hcmd =>
    rw [State.exec_data]
    change rwCmd t (s.label t) s.data x = some cmd at hcmd
    dsimp only
    cases hl : s.label t with
    | outside kept last =>
      rw [hl] at hcmd
      unfold rwCmd at hcmd
      split_ifs at hcmd
      cases hcmd
      rfl
    | _ =>
      rw [hl] at hcmd
      cases hcmd
      rfl
  | @handed t x r hp => exact (rwUpdate_of_calling _ (hlaw.calling t (by rw [hp]; simp))).symm
  | @take t x c p hp =>
    exact (s.take_label t c p).2.trans
      (rwUpdate_of_calling _ (hlaw.calling t (by rw [hp]; simp))).symm
  | @back t x r hp => exact (s.enter_data ..).trans (rwUpdate_of_calling _ (hlaw.calling t (by rw [hp]; simp))).symm
  | expired hp => rfl

end

def RwData.Overflows (d : RwData T) : RwLabel → Prop
  | .grant .read _ => d.refcount = 0x7fffffff
  | .count m _ => d.waiters m = 0x7fffffff
  | _ => False

instance (d : RwData T) : ∀ l, Decidable (d.Overflows l)
  | .grant .read _ | .count _ _ => decEq _ _
  | .grant .write _ | .outside _ _ | .enter _ _ | .poke _ _ | .test _ _ | .wait _ _ | .back _ _ _ | .drop | .notify
  | .wakeWriter | .wakeReaders | .check | .tryReaders | .tryWriters | .putBack | .putReaders | .putWriters
  | .destroyReaders | .clearReaders | .destroyWriters | .clearWriters | .release _ _ => isFalse id

theorem add_one_ne_min : x + 1 ≠ 0x80000000 ↔ x ≠ 0x7fffffff := by
  refine not_congr ⟨fun h => ?_, fun h => ?_⟩
  · rw [← add_sub_cancel_right x 1, h]
    rfl
  · rw [h]
    rfl

theorem toInt_add_one_nonneg (h : 0 ≤ x.toInt) : 0 ≤ (x + 1).toInt ↔ x ≠ 0x7fffffff := by
  constructor
  · rintro hx rfl
    exact absurd hx (by decide)
  · intro hx
    rw [toInt_add_one hx]
    omega

omit [DecidableEq T] in
theorem RwData.fits_setWaiters {d : RwData T} (h : d.Fits) (m : RwMode) (n : BitVec 32) :
    (d.setWaiters m n).Fits ↔ 0 ≤ n.toInt := by
  constructor
  · intro hf
    have := hf.2 m
    rwa [RwInv.waiters_setWaiters] at this
  · intro hn
    refine ⟨by cases m <;> exact h.1, fun m' => ?_⟩
    by_cases hm : m' = m
    · rw [hm, RwInv.waiters_setWaiters]
      exact hn
    · rw [RwInv.waiters_setWaiters_of_ne d n hm]
      exact h.2 m'

theorem RwData.fits_update {d : RwData T} {t : T} {l : RwLabel} (h : d.Fits)
    (hl : ∀ m, l.Between m → 0 < (d.waiters m).toInt) : (rwUpdate t d l).Fits ↔ ¬ d.Overflows l := by
  cases l with
  | count m y => exact (fits_setWaiters h m _).trans (toInt_add_one_nonneg (h.2 m))
  | back m y r =>
    have hpos := hl m rfl
    have hmin : d.waiters m ≠ 0x80000000 := by
      intro he
      rw [he] at hpos
      exact absurd hpos (by decide)
    refine iff_of_true ((fits_setWaiters h m _).mpr ?_) id
    rw [toInt_sub_one hmin]
    omega
  | grant m y =>
    cases m with
    | read => exact ⟨fun hf => add_one_ne_min.mp hf.1, fun ho => ⟨add_one_ne_min.mpr ho, h.2⟩⟩
    | write => exact iff_of_true ⟨show (-1 : BitVec 32) ≠ 0x80000000 by decide, h.2⟩ id
  | drop =>
    refine iff_of_true ⟨?_, h.2⟩ id
    change (if (0 : BitVec 32).slt d.refcount then d.refcount - 1 else if d.refcount = -1 then 0 else d.refcount) ≠ _
    split_ifs with hpos hone
    · intro he
      rw [show d.refcount = 0x80000001 by rw [← sub_add_cancel d.refcount 1, he]; rfl] at hpos
      exact absurd hpos (by decide)
    · decide
    · exact h.1
  | _ => exact iff_of_true h id

namespace RwSystem

variable {s s' : RwSystem T} {e : CondMonitor.Event T RwChoice} {k : Kernel T (Option RwMode)}

def NoOverflow (s : RwSystem T) : CondMonitor.Event T RwChoice → Prop
  | .run t _ => ¬ s.data.Overflows (s.label t)
  | .expire _ => True

instance (s : RwSystem T) : ∀ e, Decidable (s.NoOverflow e)
  | .run _ _ => instDecidableNot
  | .expire _ => isTrue trivial

structure Reached (s : RwSystem T) : Prop where
  inv : s.Inv
  lawful : Lawful RwInv.rwProgram RwLabel.Holds s.monitor
  fields : RwInv s.data s.label

theorem reached_start (hk : k.Calm) : (rwStart k).Reached := by
  refine ⟨inv_start hk _ _,
    ⟨(inv_start hk _ _).monitor, fun t => ⟨fun _ => ?_, fun r hr => hr.elim⟩, fun t ht => absurd rfl ht,
      fun t c hc => hc.elim⟩,
    .inl ⟨rfl, .inl rfl⟩, fun m => ⟨∅, fun t => ?_, by cases m <;> rfl⟩,
    fun t m y ht => ?_, fun t ht => ht.elim⟩
  · exact iff_of_false (by simp [monitor, rwStart, start, pthreadMutexInit, mutexInit]) Bool.false_ne_true
  · exact iff_of_false (Finset.notMem_empty t) id
  · cases ht

theorem Reached.step (h : s.Reached) (hs : MonitorSystem.step rwCode s e = some s') : s'.Reached := by
  obtain ⟨hsim, hinv⟩ := h.inv.step hs
  exact ⟨hinv, h.lawful.step rw_disciplined hsim, RwInv.step h.fields h.lawful hsim⟩

omit [DecidableEq T] in
theorem exclusion_iff (h : RwInv s.data s.label)
    (hcard : ∀ m (F : Finset T), (∀ t, t ∈ F ↔ (s.label t).Between m) → F.card ≤ 2 ^ 31) :
    s.Exclusion ↔ s.data.Fits := by
  constructor
  · intro he
    refine ⟨fun hmin => ?_, fun m => ?_⟩
    · have hread := he.readers s.data.readers.length
      have hwrite := he.writer
      rw [hmin] at hread hwrite
      obtain ⟨hw, -⟩ | ⟨hr, href, -⟩ := h.counts
      · have := hread.mpr ⟨rfl, hw⟩
        rw [show (0x80000000 : BitVec 32).toInt = -2147483648 from rfl] at this
        omega
      · exact absurd (hmin.symm.trans href) (by decide)
    · obtain ⟨F, -, hF⟩ := he.waiters m
      rw [hF]
      exact Int.natCast_nonneg _
  · rintro ⟨href, hwait⟩
    refine ⟨?_, fun n => ?_, fun m => ?_⟩
    · obtain ⟨hw, hr⟩ | ⟨hr, href, hu⟩ := h.counts
      · refine iff_of_false (fun he => ?_) (fun hu => ?_)
        · have := hr.resolve_right href
          rw [he, show (-1 : BitVec 32).toInt = -1 from rfl] at this
          omega
        · obtain ⟨-, u, hu⟩ := hu
          exact absurd (hw.symm.trans hu) (by simp)
      · exact iff_of_true href ⟨hr, hu⟩
    · obtain ⟨hw, hr⟩ | ⟨hr, href, u, hu⟩ := h.counts
      · rw [hr.resolve_right href, Nat.cast_inj]
        exact ⟨fun hn => ⟨hn, hw⟩, fun hn => hn.1⟩
      · refine iff_of_false (fun he => ?_) (fun hn => absurd (hu.symm.trans hn.2) (by simp))
        rw [href, show (-1 : BitVec 32).toInt = -1 from rfl] at he
        omega
    · obtain ⟨F, hF, hw⟩ := h.waiters m
      refine ⟨F, hF, ?_⟩
      have hle := hcard m F hF
      have hnonneg := hwait m
      rw [hw] at hnonneg ⊢
      refine (toInt_ofNat_eq_iff F.card hle).mpr (lt_of_le_of_ne hle (fun he => ?_))
      rw [he] at hnonneg
      exact absurd hnonneg (by decide)

theorem Reached.exclusion_step (h : s.Reached) (hex : s.Exclusion)
    (hs : MonitorSystem.step rwCode s e = some s') : s'.Exclusion ↔ s.NoOverflow e := by
  obtain ⟨hsim, -⟩ := h.inv.step hs
  have h' := h.step hs
  have hbound : ∀ m (F : Finset T), (∀ t, t ∈ F ↔ (s.label t).Between m) → F.card < 2 ^ 31 := by
    intro m F hF
    obtain ⟨G, hG, hcard⟩ := hex.waiters m
    obtain rfl : F = G := Finset.ext (fun t => (hF t).trans (hG t).symm)
    have := BitVec.toInt_lt (x := s.data.waiters m)
    omega
  have hfits : s.data.Fits := (exclusion_iff h.fields (fun m F hF => (hbound m F hF).le)).mp hex
  -- only the thread of the step can join the waiters
  have hcard : ∀ m (F : Finset T), (∀ t, t ∈ F ↔ (s'.label t).Between m) → F.card ≤ 2 ^ 31 := by
    intro m F hF
    obtain ⟨G, hG, -⟩ := hex.waiters m
    have hsub : F ⊆ insert e.thread G := by
      intro u hu
      rw [Finset.mem_insert]
      by_cases hut : e.thread = u
      · exact .inl hut.symm
      · have hlabel : s'.label u = s.label u := label_of_step hsim hut
        rw [hF, hlabel, ← hG] at hu
        exact .inr hu
    have hle := (Finset.card_le_card hsub).trans (Finset.card_insert_le _ _)
    have := hbound m G hG
    omega
  rw [exclusion_iff h'.fields hcard]
  have hdata : s'.data = _ := rw_data_of_step h.lawful hsim
  cases e with
  | run t x =>
    rw [hdata]
    refine RwData.fits_update hfits (fun m hm => ?_)
    obtain ⟨F, hF, hcard⟩ := hex.waiters m
    have := Finset.card_pos.mpr ⟨t, (hF t).mpr hm⟩
    change 0 < (s.data.waiters m).toInt
    omega
  | expire t =>
    rw [hdata]
    exact iff_of_true hfits trivial

theorem exclusion_start (hk : k.Calm) : (rwStart k).Exclusion := by
  refine (exclusion_iff (reached_start hk).fields (fun m F hF => ?_)).mpr RwData.fits_init
  have hempty : F = ∅ := Finset.eq_empty_of_forall_notMem (fun t ht => (hF t).mp ht)
  rw [hempty]
  exact Nat.zero_le _

theorem rwlock_exclusion_iff {k : Kernel T (Option RwMode)} (hk : k.Calm)
    (events : List (CondMonitor.Event T RwChoice)) :
    StatesAlong (MonitorSystem.step rwCode) Exclusion (rwStart k) events ↔
      StepsAlong (MonitorSystem.step rwCode) NoOverflow (rwStart k) events :=
  statesAlong_iff_stepsAlong (fun _ _ _ hI hs => hI.step hs)
    (fun _ _ _ hI hP hs => hI.exclusion_step hP hs) events (reached_start hk) (exclusion_start hk)

def rwKernel : Kernel Tid (Option RwMode) :=
  bootKernel Tid.priority [.startup .low, .startup .mid, .startup .high, .schedulerStart]

theorem rwKernel_calm : rwKernel.Calm := by
  have hwf : rwKernel.Wf := bootKernel_wf (by decide) _
  exact ⟨hwf, by decide +kernel, by rintro (_ | _ | _) <;> decide +kernel, by decide +kernel⟩

def steps (t : Tid) (op : RwOp) (n : ℕ) : List (CondMonitor.Event Tid RwChoice) :=
  List.replicate n (.run t ⟨op, 10⟩)

def waitingReader : List (CondMonitor.Event Tid RwChoice) :=
  steps .low pthreadRwlockWrlock 5 ++ steps .mid pthreadRwlockRdlock 6 ++ steps .high pthreadRwlockTimedrdlock 6 ++
    [.expire .high] ++ steps .high pthreadRwlockTimedrdlock 3 ++ steps .low pthreadRwlockUnlock 6 ++
    steps .mid pthreadRwlockRdlock 5

theorem rwlock_exclusion_waiting : ∃ s, run (MonitorSystem.step rwCode) (rwStart rwKernel) waitingReader = some s ∧
    s.data.readers = [.mid] ∧ s.label .high = .outside false (some (pthreadRwlockTimedrdlock, .etimedout)) ∧
    StatesAlong (MonitorSystem.step rwCode) Exclusion (rwStart rwKernel) waitingReader := by
  refine exists_some_and_and (by decide +kernel) (fun s _ _ _ => ?_)
  exact (rwlock_exclusion_iff rwKernel_calm waitingReader).mpr (by decide +kernel)

structure At (s : RwSystem T) (t : T) (o : Option T) (l : RwLabel) (d : RwData T) : Prop where
  inv : s.Inv
  owner : s.monitor.owner = o
  queue : s.monitor.queue = []
  place : s.monitor.place t = .run
  label : s.monitor.label t = l
  data : s.data = d

section

variable {t : T} {o : Option T} {l l' : RwLabel} {d d' : RwData T} {x : RwChoice} {last : Option (RwOp × Errno)}

theorem At.assign (h : At s t o l d) (hcmd : rwCmd t l d x = some (.assign d' l')) :
    ∃ s', MonitorSystem.step rwCode s (.run t x) = some s' ∧ At s' t o l' d' := by
  obtain ⟨s', hs', hm, h'⟩ := h.inv.exists_exec (P := rwCode) h.place (h.label ▸ h.data ▸ hcmd)
  refine ⟨s', hs', h', ?_, ?_, ?_, ?_, congrArg State.data hm⟩
  all_goals rw [hm]
  · exact h.owner
  · exact h.queue
  · exact update_self ..
  · exact update_self ..

theorem At.lock (h : At s t none l d) (hcmd : rwCmd t l d x = some .lock) :
    ∃ s', MonitorSystem.step rwCode s (.run t x) = some s' ∧ At s' t (some t) (rwRet l .done) d := by
  obtain ⟨s', hs', hm, h'⟩ := h.inv.exists_exec (P := rwCode) h.place (h.label ▸ h.data ▸ hcmd)
  rw [State.exec, if_neg (by simp [h.owner]), State.enter, h.owner, h.label] at hm
  refine ⟨s', hs', h', ?_, ?_, ?_, ?_, (congrArg State.data hm).trans h.data⟩
  all_goals rw [hm]
  · exact h.queue
  · exact update_self ..
  · exact update_self ..

theorem At.unlock (h : At s t (some t) l d) (hcmd : rwCmd t l d x = some .unlock) :
    ∃ s', MonitorSystem.step rwCode s (.run t x) = some s' ∧ At s' t none (rwRet l .done) d := by
  obtain ⟨s', hs', hm, h'⟩ := h.inv.exists_exec (P := rwCode) h.place (h.label ▸ h.data ▸ hcmd)
  rw [State.exec, if_pos h.owner, State.pass, h.queue, h.label] at hm
  refine ⟨s', hs', h', ?_, ?_, ?_, ?_, (congrArg State.data hm).trans h.data⟩
  all_goals rw [hm]
  · rfl
  · rfl
  · exact update_self ..
  · exact update_self ..

theorem At.rdlock (h : At s t none (.outside false last) d) (hb : ¬ d.Blocks .read) :
    ∃ s', run (MonitorSystem.step rwCode) s (List.replicate 5 (.run t ⟨pthreadRwlockRdlock, 0⟩)) = some s' ∧
      At s' t none (.outside false (some (pthreadRwlockRdlock, .ok))) (d.grant t .read) := by
  obtain ⟨s₁, hs₁, h₁⟩ := h.assign (x := ⟨pthreadRwlockRdlock, 0⟩) rfl
  obtain ⟨s₂, hs₂, h₂⟩ := h₁.lock (x := ⟨pthreadRwlockRdlock, 0⟩) rfl
  obtain ⟨s₃, hs₃, h₃⟩ := h₂.assign (x := ⟨pthreadRwlockRdlock, 0⟩) rfl
  rw [decide_eq_false hb] at h₃
  obtain ⟨s₄, hs₄, h₄⟩ := h₃.assign (x := ⟨pthreadRwlockRdlock, 0⟩) rfl
  obtain ⟨s₅, hs₅, h₅⟩ := h₄.unlock (x := ⟨pthreadRwlockRdlock, 0⟩) rfl
  refine ⟨s₅, ?_, h₅⟩
  simp only [List.replicate, run, hs₁, hs₂, hs₃, hs₄, hs₅, Option.bind_some]

theorem At.rdlocks (h : At s t none (.outside false last) pthreadRwlockInit) (n : ℕ)
    (hn : n ≤ 2147483648) : ∃ events s' last, run (MonitorSystem.step rwCode) s events = some s' ∧
      At s' t none (.outside false last)
        { (pthreadRwlockInit : RwData T) with refcount := BitVec.ofNat 32 n, readers := List.replicate n t } := by
  induction n with
  | zero => exact ⟨[], s, last, rfl, h⟩
  | succ n ih =>
    obtain ⟨events, s₁, last₁, hs₁, h₁⟩ := ih (by omega)
    obtain ⟨s₂, hs₂, h₂⟩ := h₁.rdlock (by
      rintro (hneg | hpos)
      · have hint := (toInt_ofNat_eq_iff n (by omega)).mpr (by omega)
        rw [BitVec.slt, hint] at hneg
        exact absurd hneg (by simp)
      · exact absurd (show (0 : BitVec 32).slt 0 = true from hpos) (by decide))
    refine ⟨events ++ List.replicate 5 (.run t ⟨pthreadRwlockRdlock, 0⟩), s₂,
      some (pthreadRwlockRdlock, .ok), ?_, ?_⟩
    · rw [run_append hs₁]
      exact hs₂
    · rw [BitVec.ofNat_add]
      exact h₂

end

theorem rwlock_readers_overflow : ∃ events s, run (MonitorSystem.step rwCode) (rwStart rwKernel) events = some s ∧
    s.data.readers.length = 2147483648 ∧ s.data.refcount.toInt = -2147483648 ∧ ¬ Exclusion s := by
  have h : At (rwStart rwKernel) .low none (.outside false none) pthreadRwlockInit :=
    ⟨inv_start rwKernel_calm _ _, rfl, rwKernel_calm.lists none, rfl, rfl, rfl⟩
  obtain ⟨events, s, last, hs, hat⟩ := h.rdlocks 2147483648 le_rfl
  have hreaders : s.data.readers.length = 2147483648 := by
    rw [hat.data]
    exact length_replicate
  have href : s.data.refcount.toInt = -2147483648 := by
    rw [hat.data]
    rfl
  refine ⟨events, s, hs, hreaders, href, fun hex => ?_⟩
  have hwriters : s.data.writers = [] := by rw [hat.data]; rfl
  have := (hex.readers 2147483648).mpr ⟨hreaders, hwriters⟩
  rw [href] at this
  exact absurd this (by decide)

end RwSystem

end RtThread
