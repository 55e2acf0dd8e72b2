import RtThread.Pthreads.Lifecycle

/-!
The end of a pthread is safe in the orders in which the idle thread is done with it before anyone looks at its state.
The caller of `pthread_join` or `pthread_detach` is then the only one who releases, in the order of `rank`.
-/

namespace RtThread

open Transition Function Option LifeState PthreadObject LifeResource

def LifeResource.rank : LifeResource → ℕ
  | .semaphore => 1
  | .stack => 2
  | .area => 3
  | .control => 4
  | .data => 5

def DetachPc.rank : DetachPc → ℕ
  | .getData | .look | .mark | .sem => 1
  | .thread _ | .stack => 2
  | .tls => 3
  | .control => 4
  | .data => 5

def CallerPc.rank : CallerPc → ℕ
  | .detach pc => pc.rank
  | .returned (.ok _) => 6
  | _ => 1

def CallerPc.Early : CallerPc → Prop
  | .detach pc => pc = .getData ∨ pc = .look
  | .returned (.ok _) => False
  | _ => True

theorem LifeResource.rank_pos (r : LifeResource) : 1 ≤ r.rank := by
  cases r <;> decide

theorem CallerPc.Early.rank {c : CallerPc} (h : c.Early) : c.rank = 1 := by
  cases c with
  | detach pc =>
    obtain rfl | rfl := h
    · rfl
    · rfl
  | returned result =>
    cases result with
    | ok u => exact h.elim
    | error e => rfl
  | _ => rfl

def DyingPc.Holds (owned : LifeResource → Bool) : DyingPc → Prop
  | .exitLoad => owned .semaphore = true
  | .exitPost sem => sem = true
  | _ => True

def CallerPc.Holds (owned : LifeResource → Bool) : CallerPc → Prop
  | .joinLoad => owned .semaphore = true
  | .joinTake sem => sem = true
  | .detach .mark => False
  | _ => True

def DyingPc.Queued : DyingPc → Prop
  | .running | .gone => False
  | .exitDetach pc => pc = .remove
  | _ => True

theorem DyingPc.Queued.ne {d : DyingPc} (h : d.Queued) : d ≠ .gone ∧ d ≠ .running := by
  constructor <;> rintro rfl <;> exact h

theorem DyingPc.Queued.remove {d : DyingPc} (h : d.Queued) {pc : ThreadDetachPc} (hd : d = .exitDetach pc) :
    pc = .remove := by
  subst hd
  exact h

structure LifeShape (owned : LifeResource → Bool) (sem : Bool) (state : DetachState)
    (ownStack tls : Bool) : Prop where
  sem : sem = owned .semaphore
  state : state = .joinable ↔ owned .semaphore = true
  stack : ownStack = owned .stack
  tls : tls = true → owned .area = true
  control : owned .control = true
  data : owned .data = true

def LifeReleased (owned : LifeResource → Bool) (tls : Bool) (c : CallerPc) (r : LifeResource) : Prop :=
  owned r = true ∧ (r.rank < c.rank ∨ r = .area ∧ tls = false)

structure LifeBooks (owned : LifeResource → Bool) (tls : Bool) (c : CallerPc) (l : Ledger LifeResource) : Prop where
  fault : l.fault = false
  kept : ∀ r, ¬ LifeReleased owned tls c r → l.released r = 0
  released : ∀ r, LifeReleased owned tls c r → l.released r = 1

inductive LifeStage (owned : LifeResource → Bool) :
    DyingPc → IdlePc → (closed cleanup defunct : Bool) → CallerPc → Prop
  | alive {d : DyingPc} {closed : Bool} {c : CallerPc} (hd : d ≠ .gone)
    (hclosed : d = .exitDetach .object ∨ d = .exitDetach .insert → closed = true) (hc : c.Early) :
    LifeStage owned d .rest closed true false c
  | queued {c : CallerPc} (hc : c.Early) : LifeStage owned .gone .rest true true true c
  | taken {c : CallerPc} (hc : c.Early) : LifeStage owned .gone .cleaning true true false c
  | posted {i : IdlePc} {c : CallerPc} (hi : i = .checking ∨ i = .switched) (hs : owned .semaphore = true)
      (hc : c.Early) :
    LifeStage owned .gone i true false false c
  | free {c : CallerPc} (hs : owned .semaphore = true) : LifeStage owned .gone .rest true false false c

section

variable {owned : LifeResource → Bool} {d : DyingPc} {i : IdlePc} {closed cleanup defunct : Bool} {c : CallerPc}

section

variable (h : LifeStage owned d i closed cleanup defunct c)

include h

theorem LifeStage.of_alive (hd : d ≠ .gone) : i = .rest ∧ cleanup = true ∧ defunct = false ∧ c.Early := by
  cases h with
  | alive _ _ hc => exact ⟨rfl, rfl, rfl, hc⟩
  | _ => exact absurd rfl hd

theorem LifeStage.closed_of_detach (hd : d = .exitDetach .object ∨ d = .exitDetach .insert) : closed = true := by
  cases h with
  | alive _ hclosed _ => exact hclosed hd
  | _ => rfl

end

theorem LifeStage.of_cleaning (h : LifeStage owned d .cleaning closed cleanup defunct c) :
    d = .gone ∧ closed = true ∧ defunct = false ∧ c.Early := by
  cases h with
  | taken hc | posted _ _ hc => exact ⟨rfl, rfl, rfl, hc⟩

theorem LifeStage.not_detach {pc : DetachPc} : ¬ LifeStage owned d (.detach pc) closed cleanup defunct c := by
  intro h
  cases h with
  | posted hi _ _ =>
    obtain hi | hi := hi
    · cases hi
    · cases hi

section

variable (h : LifeStage owned d i closed cleanup defunct c)

include h

theorem LifeStage.of_checking (hi : i = .checking ∨ i = .switched) :
    d = .gone ∧ closed = true ∧ cleanup = false ∧ defunct = false ∧ owned .semaphore = true ∧ c.Early := by
  cases h with
  | posted _ hs hc => exact ⟨rfl, rfl, rfl, rfl, hs, hc⟩
  | _ =>
    obtain hi | hi := hi
    · cases hi
    · cases hi

theorem LifeStage.of_late (hc : ¬ c.Early) : i = .rest ∧ cleanup = false := by
  cases h with
  | free hs => exact ⟨rfl, rfl⟩
  | _ => contradiction

end

theorem LifeStage.of_cleanup (h : LifeStage owned d .rest closed false defunct c) :
    d = .gone ∧ closed = true ∧ defunct = false ∧ owned .semaphore = true := by
  cases h with
  | posted _ hs _ | free hs => exact ⟨rfl, rfl, rfl, hs⟩

theorem LifeStage.of_defunct (h : LifeStage owned d .rest closed cleanup true c) :
    d = .gone ∧ closed = true ∧ cleanup = true ∧ c.Early := by
  cases h with
  | queued hc => exact ⟨rfl, rfl, rfl, hc⟩

theorem LifeStage.owned_of_rest (h : LifeStage owned .gone .rest closed cleanup false c) : owned .semaphore = true := by
  cases h with
  | alive hd _ _ => exact absurd rfl hd
  | posted _ hs _ | free hs => exact hs

theorem LifeStage.caller {c' : CallerPc} (h : LifeStage owned d i closed cleanup defunct c) (hc' : c'.Early) :
    LifeStage owned d i closed cleanup defunct c' := by
  cases h with
  | alive hd hclosed _ => exact .alive hd hclosed hc'
  | queued _ => exact .queued hc'
  | taken _ => exact .taken hc'
  | posted hi hs _ => exact .posted hi hs hc'
  | free hs => exact .free hs

end

def LifePassed (waiting : Bool) (c : CallerPc) : Prop := c = .joinRead ∨ c = .joinWait ∧ waiting = false

structure LifeNews {V : Type} (value : ℕ) (waiting : Bool) (returnValue : Option V) (d : DyingPc) (c : CallerPc)
    (ended joined : Option (Option V)) : Prop where
  given : 0 < value ∨ LifePassed waiting c → d ≠ .running
  stored : d ≠ .running → ended = some returnValue
  read : ∀ v, joined = some v → d ≠ .running ∧ ended = some v

structure LifeSched (ready : Bool) (d : DyingPc) (current : LifeActor) : Prop where
  ready : d ≠ .gone → (∀ pc, d = .exitDetach pc → pc = .remove) → ready = true
  current : (∃ pc, d = .exitDetach pc ∧ pc ≠ .remove) → current = .dying

variable {tls : Bool} {c' : CallerPc} {l : Ledger LifeResource} {r : LifeResource}

theorem LifeResource.rank_inj {r r' : LifeResource} (h : r.rank = r'.rank) : r = r' := by
  cases r <;> cases r' <;> first | rfl | cases h

section

variable {owned : LifeResource → Bool} {tls tls' : Bool} {c c' : CallerPc} {l : Ledger LifeResource}
  {r : LifeResource}

section

variable (h : LifeBooks owned tls c l)

include h

theorem LifeBooks.congr
    (hiff : ∀ r, LifeReleased owned tls c' r ↔ LifeReleased owned tls c r) : LifeBooks owned tls c' l :=
  ⟨h.fault, fun r hr => h.kept r ((hiff r).not.mp hr), fun r hr => h.released r ((hiff r).mp hr)⟩

theorem LifeBooks.caller (hrank : c'.rank = c.rank) : LifeBooks owned tls c' l := by
  apply h.congr
  intro r
  rw [LifeReleased, LifeReleased, hrank]

theorem LifeBooks.kept_of_rank (hrank : c.rank ≤ r.rank) (hr : r = .area → tls = true) : l.released r = 0 := by
  apply h.kept
  rintro ⟨-, hlt | ⟨harea, htls⟩⟩
  · exact absurd hlt (Nat.not_lt.mpr hrank)
  · rw [hr harea] at htls
    cases htls

theorem LifeBooks.of_release (hr : l.released r = 0)
    (hiff : ∀ r', LifeReleased owned tls' c' r' ↔ r' = r ∨ LifeReleased owned tls c r') :
    LifeBooks owned tls' c' (l.release r) := by
  rw [Ledger.release_eq hr]
  refine ⟨h.fault, fun r' hr' => ?_, fun r' hr' => ?_⟩
  · rw [hiff, not_or] at hr'
    exact (update_of_ne hr'.1 _ _).trans (h.kept r' hr'.2)
  · obtain rfl | hne := eq_or_ne r' r
    · exact update_self ..
    · exact (update_of_ne hne _ _).trans (h.released r' (((hiff r').mp hr').resolve_left hne))

variable (hrank : c.rank = r.rank) (hrank' : c'.rank = r.rank + 1)

include hrank hrank'

theorem LifeBooks.release
    (howned : owned r = true) (hr : r = .area → tls = true) : LifeBooks owned tls c' (l.release r) := by
  refine h.of_release (h.kept_of_rank (Nat.le_of_eq hrank) hr) (fun r' => ?_)
  have hinj : r'.rank = r.rank → r' = r := rank_inj
  unfold LifeReleased
  grind

theorem LifeBooks.pass (hr : owned r = false ∨ r = .area ∧ tls = false) : LifeBooks owned tls c' l := by
  refine h.congr (fun r' => ?_)
  have hinj : r'.rank = r.rank → r' = r := rank_inj
  unfold LifeReleased
  grind

end

theorem LifeBooks.clear (h : LifeBooks owned true c l) (hc : c.Early) (harea : owned .area = true) :
    LifeBooks owned false c (l.release .area) := by
  refine h.of_release (h.kept_of_rank (hc.rank.symm ▸ rank_pos _) fun _ => rfl) (fun r => ?_)
  unfold LifeReleased
  grind

end

theorem LifeNews.dying {V : Type} {value value' : ℕ} {waiting waiting' : Bool} {returnValue : Option V}
    {d d' : DyingPc}
    {c : CallerPc} {ended joined : Option (Option V)} (h : LifeNews value waiting returnValue d c ended joined)
    (hd : d ≠ .running) (hd' : d' ≠ .running) : LifeNews value' waiting' returnValue d' c ended joined :=
  ⟨fun _ => hd', fun _ => h.stored hd, fun v hv => ⟨hd', (h.read v hv).2⟩⟩

theorem PthreadObject.rtSemRelease_eq {V : Type} {o : PthreadObject V} (h : o.ledger.released .semaphore = 0) :
    o.rtSemRelease = if o.waiting then { o with waiting := false } else { o with value := o.value + 1 } := by
  have htouch : o.touch .semaphore = o := by
    rw [touch, Ledger.touch_eq h]
  rw [rtSemRelease, htouch]

namespace LifeState

variable {V : Type}

structure Inv (s : LifeState V) : Prop where
  shape : LifeShape s.owned s.object.joinableSem s.object.detachstate s.object.ownStack s.object.tls
  books : LifeBooks s.owned s.object.tls s.caller s.object.ledger
  stage : LifeStage s.owned s.dying s.idle s.object.closed s.object.cleanup s.object.defunct s.caller
  news : LifeNews s.object.value s.object.waiting s.object.returnValue s.dying s.caller s.ended s.joined
  sched : LifeSched s.object.ready s.dying s.current
  dying : s.dying.Holds s.owned
  caller : s.caller.Holds s.owned

section

variable {s : LifeState V}

theorem Inv.good (h : s.Inv) : s.Good := by
  refine ⟨h.books.fault, fun r => ?_, fun hsettled r => ?_, fun v hv => (h.news.read v hv).2⟩
  · by_cases hr : LifeReleased s.owned s.object.tls s.caller r
    · exact Nat.le_of_eq (h.books.released r hr)
    · exact (h.books.kept r hr).symm ▸ Nat.zero_le 1
  · obtain ⟨hover, hidle, hdefunct, hdone⟩ := hsettled
    -- only the last stage is over with the idle thread at rest
    have hgone : s.dying = .gone := by
      obtain hgone | ⟨hready, hcurrent⟩ := hover
      · exact hgone
      · by_contra hgone
        have hremove : ∀ pc, s.dying = .exitDetach pc → pc = .remove := by
          intro pc hpc
          by_contra hne
          exact hcurrent (h.sched.current ⟨pc, hpc, hne⟩)
        rw [h.sched.ready hgone hremove] at hready
        cases hready
    obtain hsem | hdone := hdone
    · have howned := (hgone ▸ hidle ▸ hdefunct ▸ h.stage).owned_of_rest
      rw [hsem] at howned
      cases howned
    · have hrank : r.rank < s.caller.rank := by
        rw [hdone]
        cases r <;> decide
      split
      next howned => exact h.books.released r ⟨howned, .inl hrank⟩
      next howned => exact h.books.kept r fun hr => howned hr.1

theorem init_inv (state : DetachState) (ownStack tls : Bool) : (init state ownStack tls : LifeState V).Inv where
  shape := ⟨rfl, by simp [init], rfl, id, rfl, rfl⟩
  books := by
    refine ⟨rfl, fun r _ => rfl, fun r hr => ?_⟩
    obtain ⟨howned, hrank | ⟨rfl, htls⟩⟩ := hr
    · exact absurd hrank (Nat.not_lt.mpr r.rank_pos)
    · rw [show tls = false from htls] at howned
      cases howned
  stage := .alive nofun nofun trivial
  news := by
    refine ⟨?_, fun h => absurd rfl h, nofun⟩
    rintro (h | h | ⟨h, -⟩)
    · exact absurd h (Nat.lt_irrefl 0)
    · cases h
    · cases h
  sched := by
    refine ⟨fun _ _ => rfl, ?_⟩
    rintro ⟨pc, h, -⟩
    cases h
  dying := trivial
  caller := trivial

end

section

variable {s s' : LifeState V}

variable (h : s.Inv)

include h

theorem Inv.touch {r : LifeResource} (hr : r ≠ .area) (hrank : s.caller.rank ≤ r.rank) :
    s.object.touch r = s.object := by
  rw [PthreadObject.touch, Ledger.touch_eq (h.books.kept_of_rank hrank fun harea => absurd harea hr)]

theorem Inv.touch_early (hc : s.caller.Early) {r : LifeResource} (hr : r ≠ .area) : s.object.touch r = s.object :=
  h.touch hr (hc.rank.symm ▸ r.rank_pos)

theorem Inv.finish (hd : s.dying = .running) (value : Option V) {next : DyingPc}
    (hnext : next = .returning ∨ next = .exitTls) : ((s.finish value next).runAs .dying).Inv := by
  obtain ⟨hidle, hcleanup, hdefunct, hc⟩ := h.stage.of_alive (by rw [hd]; exact nofun)
  obtain ⟨hrunning, hgone, hnone⟩ : next ≠ .running ∧ next ≠ .gone ∧ ∀ pc, next ≠ .exitDetach pc := by
    obtain rfl | rfl := hnext <;> simp
  simp only [LifeState.finish, runAs, h.touch_early hc (r := .stack) nofun, h.touch_early hc (r := .data) nofun]
  refine ⟨h.shape, h.books, ?_, ⟨fun _ => hrunning, fun _ => rfl, ?_⟩, ⟨fun _ _ => ?_, ?_⟩, ?_, h.caller⟩
  · rw [hidle, hcleanup, hdefunct]
    exact .alive hgone (fun h => h.elim (absurd · (hnone _)) (absurd · (hnone _))) hc
  · intro v hv
    exact absurd hd (h.news.read v hv).1
  · apply h.sched.ready <;> rw [hd] <;> exact nofun
  · rintro ⟨pc, hpc, -⟩
    exact absurd hpc (hnone pc)
  · obtain rfl | rfl := hnext <;> trivial

section

variable {o : PthreadObject V} {d : DyingPc} {pc : ThreadDetachPc}
  (hshape : LifeShape s.owned o.joinableSem o.detachstate o.ownStack o.tls)
  (hbooks : LifeBooks s.owned o.tls s.caller o.ledger) (hvalue : o.returnValue = s.object.returnValue)

include hshape hbooks hvalue

theorem Inv.dies (hd : s.dying ≠ .gone ∧ s.dying ≠ .running) (hd' : d ≠ .running) (hholds : d.Holds s.owned)
    (hstage : s.caller.Early → LifeStage s.owned d .rest o.closed o.cleanup o.defunct s.caller)
    (hsched : LifeSched o.ready d .dying) :
    ({ s with object := o, dying := d, current := .dying } : LifeState V).Inv := by
  obtain ⟨hidle, -, -, hc⟩ := h.stage.of_alive hd.1
  refine ⟨hshape, hbooks, ?_, ?_, hsched, hholds, h.caller⟩
  · rw [hidle]
    exact hstage hc
  · rw [hvalue]
    exact h.news.dying hd.2 hd'

theorem Inv.advance (hd : s.dying.Queued) (hd' : d.Queued) (hholds : d.Holds s.owned)
    (hlists : o.cleanup = s.object.cleanup ∧ o.defunct = s.object.defunct ∧ o.ready = s.object.ready) :
    ({ s with object := o, dying := d, current := .dying } : LifeState V).Inv := by
  obtain ⟨-, hcleanup, hdefunct, -⟩ := h.stage.of_alive hd.ne.1
  obtain ⟨hcleanup', hdefunct', hready'⟩ := hlists
  refine h.dies hshape hbooks hvalue hd.ne hd'.ne.2 hholds (fun hc => ?_) ⟨fun _ _ => ?_, ?_⟩
  · rw [hcleanup', hcleanup, hdefunct', hdefunct]
    refine .alive hd'.ne.1 ?_ hc
    rintro (hpc | hpc) <;> cases hd'.remove hpc
  · exact hready'.trans (h.sched.ready hd.ne.1 fun pc hpc => hd.remove hpc)
  · rintro ⟨pc, hpc, hne⟩
    exact absurd (hd'.remove hpc) hne

theorem Inv.between (hd : s.dying ≠ .gone ∧ s.dying ≠ .running) (hpc : pc ≠ .remove)
    (hlists : o.cleanup = s.object.cleanup ∧ o.defunct = false)
    (hclosed : pc = .object ∨ pc = .insert → o.closed = true) :
    ({ s with object := o, dying := .exitDetach pc, current := .dying } : LifeState V).Inv := by
  obtain ⟨-, hcleanup, -, -⟩ := h.stage.of_alive hd.1
  refine h.dies hshape hbooks hvalue hd nofun trivial (fun hc => ?_)
    ⟨fun _ hremove => absurd (hremove pc rfl) hpc, fun _ => rfl⟩
  rw [hlists.1, hcleanup, hlists.2]
  refine .alive nofun (fun hpc' => hclosed ?_) hc
  simpa using hpc'

theorem Inv.queue (hd : s.dying ≠ .gone ∧ s.dying ≠ .running)
    (hlists : o.closed = true ∧ o.cleanup = s.object.cleanup ∧ o.defunct = true) :
    ({ s with object := o, dying := .gone, current := .dying } : LifeState V).Inv := by
  obtain ⟨-, hcleanup, -, -⟩ := h.stage.of_alive hd.1
  refine h.dies hshape hbooks hvalue hd nofun trivial (fun hc => ?_) ⟨fun hgone => absurd rfl hgone, nofun⟩
  rw [hlists.1, hlists.2.1, hcleanup, hlists.2.2]
  exact .queued hc

end

theorem Inv.dyingStep (hs : s.dyingStep = some s') : (s'.runAs .dying).Inv := by
  have hd : s.dying ≠ .gone ∧ s.dying ≠ .running := by
    constructor <;> intro hd <;> simp [LifeState.dyingStep, hd] at hs
  obtain ⟨-, hcleanup, hdefunct, hc⟩ := h.stage.of_alive hd.1
  have hdata := h.touch_early hc (r := .data) nofun
  have hcontrol := h.touch_early hc (r := .control) nofun
  simp only [LifeState.dyingStep, h.touch_early hc (r := .stack) nofun] at hs
  cases hpc : s.dying with
  | running => exact absurd hpc hd.2
  | gone => exact absurd hpc hd.1
  | returning =>
    simp only [hpc, threadExit, hcontrol, hcleanup, if_true] at hs
    cases hs
    exact h.queue h.shape h.books rfl hd ⟨rfl, hcleanup.symm, rfl⟩
  | exitTls =>
    simp only [hpc, hdata] at hs
    cases hs
    have hqueued : s.dying.Queued := hpc ▸ trivial
    cases htls : s.object.tls with
    | true =>
      have hshape := h.shape
      have hbooks := h.books
      rw [htls] at hshape hbooks
      exact h.advance { hshape with tls := nofun } (hbooks.clear hc (hshape.tls rfl)) rfl hqueued trivial trivial
        ⟨rfl, rfl, rfl⟩
    | false => exact h.advance h.shape h.books rfl hqueued trivial trivial ⟨rfl, rfl, rfl⟩
  | exitTest =>
    simp only [hpc, hdata] at hs
    cases hs
    have hqueued : s.dying.Queued := hpc ▸ trivial
    by_cases hstate : s.object.detachstate = .joinable
    · rw [if_pos hstate]
      exact h.advance h.shape h.books rfl hqueued trivial (h.shape.state.mp hstate) ⟨rfl, rfl, rfl⟩
    · rw [if_neg hstate]
      exact h.advance h.shape h.books rfl hqueued rfl trivial ⟨rfl, rfl, rfl⟩
  | exitLoad =>
    simp only [hpc, hdata] at hs
    cases hs
    have howned := h.dying
    rw [hpc] at howned
    exact h.advance h.shape h.books rfl (hpc ▸ trivial) trivial (h.shape.sem.trans howned) ⟨rfl, rfl, rfl⟩
  | exitPost sem =>
    obtain rfl : sem = true := by
      have hsem := h.dying
      rw [hpc] at hsem
      exact hsem
    simp only [hpc, rtSemRelease, h.touch_early hc (r := .semaphore) nofun, if_true] at hs
    cases hs
    have hqueued : s.dying.Queued := hpc ▸ trivial
    cases hwaiting : s.object.waiting <;> exact h.advance h.shape h.books rfl hqueued rfl trivial ⟨rfl, rfl, rfl⟩
  | exitDetach pc =>
    cases pc with
    | remove =>
      simp only [hpc, rtThreadDetach, hdata, hcontrol, if_true] at hs
      cases hs
      exact h.between h.shape h.books rfl hd nofun ⟨rfl, rfl⟩ nofun
    | timer =>
      simp only [hpc, rtThreadDetach, reduceCtorEq, if_false, hcontrol] at hs
      cases hs
      exact h.between h.shape h.books rfl hd nofun ⟨rfl, hdefunct⟩ nofun
    | close =>
      simp only [hpc, rtThreadDetach, reduceCtorEq, if_false, hcontrol] at hs
      cases hs
      exact h.between h.shape h.books rfl hd nofun ⟨rfl, hdefunct⟩ (fun _ => rfl)
    | object =>
      simp only [hpc, rtThreadDetach, reduceCtorEq, if_false, hcontrol] at hs
      cases hs
      exact h.between h.shape h.books rfl hd nofun ⟨rfl, hdefunct⟩ (fun _ => h.stage.closed_of_detach (.inl hpc))
    | insert =>
      simp only [hpc, rtThreadDetach, reduceCtorEq, if_false, hcontrol, hcleanup, if_true] at hs
      cases hs
      exact h.queue h.shape h.books rfl hd ⟨h.stage.closed_of_detach (.inr hpc), hcleanup.symm, rfl⟩

end

section

variable {s s' : LifeState V}

section

variable (h : s.Inv) (hb : ¬ s.Between) (hc : s.caller.Early) {c : CallerPc} (hc' : c.Early) (hholds : c.Holds s.owned)

include h hb hc hc' hholds

theorem Inv.call {value : ℕ} {waiting woken : Bool} {joined : Option (Option V)}
    (hgiven : 0 < value ∨ LifePassed waiting c → s.dying ≠ .running)
    (hread : ∀ v, joined = some v → s.dying ≠ .running ∧ s.ended = some v) :
    ({ s with
      object := { s.object with value := value, waiting := waiting, woken := woken }
      caller := c
      current := .caller
      joined := joined } : LifeState V).Inv where
  shape := h.shape
  books := h.books.caller (hc'.rank.trans hc.rank.symm)
  stage := h.stage.caller hc'
  news := ⟨hgiven, h.news.stored, hread⟩
  sched := ⟨h.sched.ready, fun hb' => absurd hb' hb⟩
  dying := h.dying
  caller := hholds

theorem Inv.move (hread : c ≠ .joinRead) (hwait : c ≠ .joinWait) :
    ({ s with caller := c, current := .caller } : LifeState V).Inv := by
  apply h.call hb hc hc' hholds _ h.news.read
  rintro (hlt | hpassed | hpassed)
  · exact h.news.given (.inl hlt)
  · exact absurd hpassed hread
  · exact absurd hpassed.1 hwait

end

variable (h : s.Inv)

include h

theorem Inv.late (hidle : s.idle = .rest) (hcleanup : s.object.cleanup = false) {o : PthreadObject V}
    {c : CallerPc} (hholds : c.Holds s.owned)
    (hshape : LifeShape s.owned o.joinableSem o.detachstate o.ownStack o.tls)
    (hbooks : LifeBooks s.owned o.tls c o.ledger) (hflags : o.closed = true ∧ o.cleanup = false ∧ o.defunct = false)
    (hvalue : o.returnValue = s.object.returnValue) :
    ({ s with object := o, caller := c, current := .caller } : LifeState V).Inv := by
  have hstage := h.stage
  rw [hidle, hcleanup] at hstage
  obtain ⟨hgone, -, -, hsem⟩ := hstage.of_cleanup
  have hrunning : s.dying ≠ .running := by
    rw [hgone]
    exact nofun
  refine ⟨hshape, hbooks, ?_, ⟨fun _ => hrunning, fun _ => ?_, h.news.read⟩, ⟨?_, ?_⟩, h.dying, hholds⟩
  · rw [hgone, hidle, hflags.1, hflags.2.1, hflags.2.2]
    exact .free hsem
  · rw [hvalue]
    exact h.news.stored hrunning
  · intro hd
    exact absurd hgone hd
  · rintro ⟨pc, hpc, -⟩
    exact absurd (hgone.symm.trans hpc) nofun

theorem Inv.joinStep (hb : ¬ s.Between) (hc : s.caller.Early) (hdetach : ∀ pc, s.caller ≠ .detach pc)
    (hs : s.callerStep = some s') : (s'.runAs .caller).Inv := by
  have hdata := h.touch_early hc (r := .data) nofun
  have hvalue : 0 < s.object.value → s.dying ≠ .running := fun hlt => h.news.given (.inl hlt)
  simp only [callerStep, hdata] at hs
  cases hpc : s.caller with
  | away | returned result => simp [hpc] at hs
  | joinData =>
    simp only [hpc, h.touch_early hc (r := .control) nofun, hdata] at hs
    cases hs
    exact h.move hb hc trivial trivial nofun nofun
  | joinCheck =>
    simp only [hpc] at hs
    cases hs
    by_cases hstate : s.object.detachstate = .detached
    · rw [if_pos hstate]
      exact h.move hb hc trivial trivial nofun nofun
    · rw [if_neg hstate]
      have hjoinable : s.object.detachstate = .joinable := by
        cases hst : s.object.detachstate with
        | joinable => rfl
        | detached => exact absurd hst hstate
      exact h.move hb hc trivial (h.shape.state.mp hjoinable) nofun nofun
  | joinLoad =>
    simp only [hpc] at hs
    cases hs
    have howned := h.caller
    rw [hpc] at howned
    exact h.move hb hc trivial (h.shape.sem.trans howned) nofun nofun
  | joinTake sem =>
    obtain rfl : sem = true := by
      have hsem := h.caller
      rw [hpc] at hsem
      exact hsem
    simp only [hpc, h.touch_early hc (r := .semaphore) nofun, if_true] at hs
    split at hs
    next hlt =>
      cases hs
      exact h.call (c := .joinRead) hb hc trivial trivial (fun _ => hvalue hlt) h.news.read
    next hzero =>
      cases hs
      apply h.call (c := .joinWait) hb hc trivial trivial _ h.news.read
      rintro (hlt | hpassed | hpassed)
      · exact absurd hlt hzero
      · cases hpassed
      · cases hpassed.2
  | joinWait =>
    simp only [hpc] at hs
    split at hs
    · cases hs
    next hwaiting =>
      split at hs
      · cases hs
        exact h.move hb hc trivial trivial nofun nofun
      · cases hs
        apply h.call (c := .joinRead) hb hc trivial trivial _ h.news.read
        intro _
        exact h.news.given (.inr (.inr ⟨hpc, Bool.eq_false_iff.mpr hwaiting⟩))
  | joinRead =>
    simp only [hpc] at hs
    cases hs
    have hrunning : s.dying ≠ .running := h.news.given (.inr (.inl hpc))
    apply h.call (c := .detach .getData) hb hc (Or.inl rfl) trivial (fun _ => hrunning)
    intro v hv
    cases hv
    exact ⟨hrunning, h.news.stored hrunning⟩
  | detach pc => exact absurd hpc (hdetach pc)

theorem Inv.detachLate {pc : DetachPc} (hpc : s.caller = .detach pc) (hidle : s.idle = .rest)
    (hcleanup : s.object.cleanup = false) (hnot : pc ≠ .getData) (hs : s.callerStep = some s') :
    (s'.runAs .caller).Inv := by
  have hstage := h.stage
  rw [hidle, hcleanup] at hstage
  obtain ⟨-, hclosed, hdefunct, hsem⟩ := hstage.of_cleanup
  have hrank : s.caller.rank = pc.rank := by
    rw [hpc]
    rfl
  have hbooks := h.books
  -- the books are as they were, or one resource further
  have hlate : ∀ (c : CallerPc) (l : Ledger LifeResource), c.Holds s.owned → LifeBooks s.owned s.object.tls c l →
      ({ s with object := { s.object with ledger := l }, caller := c, current := .caller } : LifeState V).Inv :=
    fun c l hholds hl => h.late hidle hcleanup hholds h.shape hl ⟨hclosed, hcleanup, hdefunct⟩ rfl
  have hstay : ∀ c : CallerPc, c.rank = pc.rank → c.Holds s.owned →
      ({ s with caller := c, current := .caller } : LifeState V).Inv :=
    fun c hc hholds => hlate c _ hholds (hbooks.caller (hc.trans hrank.symm))
  simp only [callerStep, hpc] at hs
  cases pc with
  | getData => exact absurd rfl hnot
  | mark =>
    have hmark := h.caller
    rw [hpc] at hmark
    exact hmark.elim
  | look =>
    simp only [pthreadDetach, h.touch (r := .control) nofun (by rw [hrank]; decide), hclosed, if_true] at hs
    cases hs
    exact hstay (.detach .sem) rfl trivial
  | sem =>
    simp only [pthreadDetach, rtSemDelete, h.touch (r := .data) nofun (by rw [hrank]; decide),
      h.shape.sem.trans hsem, if_true] at hs
    cases hs
    exact h.late hidle hcleanup trivial h.shape (hbooks.release hrank rfl hsem nofun)
      ⟨hclosed, hcleanup, hdefunct⟩ rfl
  | thread pc =>
    have hcontrol := h.touch (r := .control) nofun (hrank ▸ show 2 ≤ 4 by decide)
    cases pc with
    | remove =>
      simp only [pthreadDetach, rtThreadDetach, h.touch (r := .data) nofun (by rw [hrank]; decide), hcontrol,
        if_true] at hs
      cases hs
      exact h.late hidle hcleanup trivial h.shape (hbooks.caller hrank.symm) ⟨hclosed, hcleanup, rfl⟩ rfl
    | close =>
      simp only [pthreadDetach, rtThreadDetach, reduceCtorEq, if_false, hcontrol] at hs
      cases hs
      exact h.late hidle hcleanup trivial h.shape (hbooks.caller hrank.symm) ⟨rfl, hcleanup, hdefunct⟩ rfl
    | timer | object | insert =>
      simp only [pthreadDetach, rtThreadDetach, reduceCtorEq, if_false, hcontrol, hcleanup, Bool.false_eq_true] at hs
      cases hs
      exact hstay (.detach _) rfl trivial
  | stack =>
    simp only [pthreadDetach, h.touch (r := .data) nofun (by rw [hrank]; decide),
      h.touch (r := .control) nofun (by rw [hrank]; decide)] at hs
    cases hs
    cases hstack : s.object.ownStack with
    | true => exact hlate (.detach .tls) _ trivial (hbooks.release hrank rfl (h.shape.stack.symm.trans hstack) nofun)
    | false =>
      exact hlate (.detach .tls) _ trivial
        (hbooks.pass (r := .stack) hrank rfl (.inl (h.shape.stack.symm.trans hstack)))
  | tls =>
    simp only [pthreadDetach, h.touch (r := .data) nofun (by rw [hrank]; decide)] at hs
    cases hs
    cases htls : s.object.tls with
    | true => exact hlate (.detach .control) _ trivial (hbooks.release hrank rfl (h.shape.tls htls) fun _ => htls)
    | false => exact hlate (.detach .control) _ trivial (hbooks.pass (r := .area) hrank rfl (.inr ⟨rfl, htls⟩))
  | control =>
    simp only [pthreadDetach, h.touch (r := .data) nofun (by rw [hrank]; decide)] at hs
    cases hs
    exact hlate (.detach .data) _ trivial (hbooks.release hrank rfl h.shape.control nofun)
  | data =>
    cases hs
    exact hlate (.returned (.ok ())) _ trivial (hbooks.release hrank rfl h.shape.data nofun)

theorem Inv.callerStep (ho : s.Orderly .caller) (hs : s.callerStep = some s') : (s'.runAs .caller).Inv := by
  cases hc : s.caller with
  | detach pc =>
    by_cases hdata : pc = .getData
    · subst hdata
      have he : s.caller.Early := hc ▸ Or.inl rfl
      simp only [LifeState.callerStep, hc, pthreadDetach, h.touch_early he (r := .control) nofun,
        h.touch_early he (r := .data) nofun] at hs
      cases hs
      exact h.move ho.1 he (Or.inr rfl) trivial nofun nofun
    · have hfree : s.idle = .rest ∧ s.object.cleanup = false := by
        by_cases hlook : pc = .look
        · subst hlook
          exact (ho.2 hc).symm
        · apply h.stage.of_late
          rw [hc]
          rintro (hpc | hpc)
          · exact hdata hpc
          · exact hlook hpc
      exact h.detachLate hc hfree.1 hfree.2 hdata hs
  | returned result =>
    simp only [LifeState.callerStep, hc] at hs
    cases hs
  | _ =>
    refine h.joinStep ho.1 ?_ ?_ hs
    · rw [hc]
      trivial
    · rw [hc]
      exact nofun

end

section

variable {s s' : LifeState V}

variable (h : s.Inv)

include h

theorem Inv.checked (ho : s.Orderly .idle) (hi : s.idle = .checking ∨ s.idle = .switched)
    (hs : some { s with object := s.object.touch .control, idle := .rest } = some s') : (s'.runAs .idle).Inv := by
  obtain ⟨hgone, hclosed, hcleanup, hdefunct, hsem, hc⟩ := h.stage.of_checking hi
  rw [h.touch_early hc (r := .control) nofun] at hs
  cases hs
  refine ⟨h.shape, h.books, ?_, h.news, ⟨h.sched.ready, fun hb => absurd hb ho.1⟩, h.dying, h.caller⟩
  show LifeStage s.owned s.dying .rest s.object.closed s.object.cleanup s.object.defunct s.caller
  rw [hgone, hclosed, hcleanup, hdefunct]
  exact .free hsem

theorem Inv.idleStep (ho : s.Orderly .idle) (hs : s.idleStep = some s') : (s'.runAs .idle).Inv := by
  have hsched : LifeSched s.object.ready s.dying .idle := ⟨h.sched.ready, fun hb => absurd hb ho.1⟩
  have hstage := h.stage
  simp only [LifeState.idleStep] at hs
  cases hi : s.idle with
  | rest =>
    simp only [hi] at hs
    split at hs
    next hdefunct =>
      rw [hi, hdefunct] at hstage
      obtain ⟨hgone, hclosed, hcleanup, hc⟩ := hstage.of_defunct
      simp only [h.touch_early hc (r := .control) nofun, hcleanup, if_true] at hs
      cases hs
      refine ⟨h.shape, h.books, ?_, h.news, hsched, h.dying, h.caller⟩
      rw [hgone, hclosed]
      exact .taken hc
    · cases hs
  | cleaning =>
    rw [hi] at hstage
    obtain ⟨hgone, hclosed, hdefunct, hc⟩ := hstage.of_cleaning
    have hjoinable := ho.2 hi
    have hsem := h.shape.state.mp hjoinable
    have hrunning : s.dying ≠ .running := by
      rw [hgone]
      exact nofun
    -- the semaphore is given, or its waiter woken, after the end of the thread
    have hposted : ∀ (value : ℕ) (waiting : Bool) (i : IdlePc), i = .checking ∨ i = .switched → ({ s with
          object := { s.object with cleanup := false, value := value, waiting := waiting }
          idle := i
          current := .idle } : LifeState V).Inv := by
      intro value waiting i hi'
      refine ⟨h.shape, h.books, ?_, h.news.dying hrunning hrunning, hsched, h.dying, h.caller⟩
      rw [hgone, hclosed, hdefunct]
      exact .posted hi' hsem hc
    have hkept := h.books.kept_of_rank (r := .semaphore) (hc.rank.symm ▸ rank_pos _) nofun
    simp only [hi, h.touch_early hc (r := .control) nofun, h.touch_early hc (r := .data) nofun, if_pos hjoinable,
      if_pos (h.shape.sem.trans hsem)] at hs
    rw [rtSemRelease_eq (o := { s.object with cleanup := false }) hkept] at hs
    cases hs
    cases hwaiting : s.object.waiting with
    | true => exact hposted s.object.value false .switched (.inr rfl)
    | false => exact hposted (s.object.value + 1) false .checking (.inl rfl)
  | detach pc =>
    rw [hi] at hstage
    exact absurd hstage LifeStage.not_detach
  | checking => exact h.checked ho (.inl hi) (by simpa only [hi] using hs)
  | switched => exact h.checked ho (.inr hi) (by simpa only [hi] using hs)

theorem Inv.start (hb : ¬ s.Between) (hs : s.step .join = some s' ∨ s.step .detach = some s') : s'.Inv := by
  simp only [step] at hs
  cases hc : s.caller with
  | away =>
    have hearly : s.caller.Early := hc ▸ trivial
    simp only [hc] at hs
    obtain hs | hs := hs
    · obtain ⟨-, hs⟩ := ite_none_right_eq_some.mp hs
      cases hs
      exact h.move hb hearly trivial trivial nofun nofun
    · obtain ⟨-, hs⟩ := ite_none_right_eq_some.mp hs
      cases hs
      exact h.move hb hearly (Or.inl rfl) trivial nofun nofun
  | _ => simp [hc] at hs

theorem Inv.step {e : LifeEvent V} (ho : s.Orderly e) (hs : s.step e = some s') : s'.Inv := by
  cases e with
  | ret value =>
    obtain ⟨⟨-, hd⟩, hs⟩ := ite_none_right_eq_some.mp hs
    cases hs
    exact h.finish hd value (.inl rfl)
  | exit value =>
    obtain ⟨⟨-, hd⟩, hs⟩ := ite_none_right_eq_some.mp hs
    cases hs
    exact h.finish hd value (.inr rfl)
  | dying =>
    obtain ⟨-, hs⟩ := ite_none_right_eq_some.mp hs
    obtain ⟨t, ht, rfl⟩ := map_eq_some_iff.mp hs
    exact h.dyingStep ht
  | join => exact h.start ho (.inl hs)
  | detach => exact h.start ho (.inr hs)
  | caller =>
    obtain ⟨-, hs⟩ := ite_none_right_eq_some.mp hs
    obtain ⟨t, ht, rfl⟩ := map_eq_some_iff.mp hs
    exact h.callerStep ho ht
  | idle =>
    obtain ⟨t, ht, rfl⟩ := map_eq_some_iff.mp hs
    exact h.idleStep ho ht

end

theorem life_cycle_safe {s : LifeState V} (h : Reachable step Orderly Initial s) : s.Good := by
  apply Inv.good
  apply h.invariant
  · rintro s ⟨state, ownStack, tls, rfl⟩
    exact init_inv state ownStack tls
  · intro s e s' hi ho hs
    exact hi.step ho hs

section

variable {s : LifeState V}

theorem between_iff : s.Between ↔ s.dying = .exitDetach .timer ∨ s.dying = .exitDetach .close ∨
    s.dying = .exitDetach .object ∨ s.dying = .exitDetach .insert := by
  constructor
  · rintro ⟨pc, hpc, hne⟩
    cases pc <;> simp [hpc] at hne ⊢
  · rintro (h | h | h | h) <;> exact ⟨_, h, nofun⟩

instance : Decidable s.Between := decidable_of_iff _ between_iff.symm

instance Orderly.decidable : ∀ e, Decidable (s.Orderly e)
  | .ret _ | .exit _ | .dying => isTrue trivial
  | .join | .detach => instDecidableNot
  | .caller | .idle => instDecidableAnd

end

def repeated (events : List (LifeEvent ℕ × ℕ)) : List (LifeEvent ℕ) :=
  events.flatMap fun e => List.replicate e.2 e.1

theorem life_cycle_safe_join : ∃ s : LifeState ℕ,
    run step (init .joinable true true)
      (repeated [(.join, 1), (.caller, 4), (.ret (some 5), 1), (.dying, 1), (.idle, 3), (.caller, 14)]) = some s ∧
    s.Settled ∧ s.joined = some (some 5) ∧ s.Good := by
  refine exists_some_imp
    (P := fun s => s.dying = .gone ∧ s.idle = .rest ∧ s.object.defunct = false ∧
      s.caller = .returned (.ok ()) ∧ _)
    (by decide +kernel) (fun s hs h => ⟨⟨.inl h.1, h.2.1, h.2.2.1, .inr h.2.2.2.1⟩, h.2.2.2.2, ?_⟩)
  apply life_cycle_safe
  apply (Reachable.start ⟨.joinable, true, true, rfl⟩).of_run _ hs
  decide +kernel

def faults (state : DetachState) (events : List (LifeEvent ℕ × ℕ)) : Bool :=
  (run step (init state true false) (repeated events)).any fun s => s.object.ledger.fault

theorem life_cycle_unsafe :
    faults .detached [(.ret none, 1), (.dying, 1), (.idle, 15)] ∧
    faults .joinable [(.join, 1), (.caller, 4), (.ret none, 1), (.dying, 1), (.idle, 2), (.caller, 14), (.idle, 1)] ∧
    faults .joinable [(.exit none, 1), (.dying, 9), (.join, 1), (.caller, 17), (.idle, 1)] ∧
    faults .joinable [(.detach, 1), (.caller, 3), (.ret none, 1), (.dying, 1), (.idle, 15)] ∧
    (run step (init .joinable true false)
      (repeated [(.join, 1), (.caller, 4), (.exit none, 1), (.dying, 5), (.caller, 5)])).any
      (fun s => !s.object.ready && decide (s.current ≠ .dying) && decide (s.idle = .rest) && !s.object.defunct &&
        decide (s.caller = .returned (.ok ())) && s.object.ledger.released .control == 0) = true := by
  decide +kernel

end LifeState

end RtThread
