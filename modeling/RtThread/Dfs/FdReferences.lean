import RtThread.Dfs.OpenFiles
import Mathlib.Data.Multiset.Filter

namespace RtThread

open Function Transition List Option Multiset DfsFd

inductive FdOpener
  | openFile (file : List Char) (flags : BitVec 32)
  | mkdir (path : List Char)
  | opendir (name : List Char)
  deriving DecidableEq

inductive FdUser
  | read
  | write
  | close
  | closedir
  deriving DecidableEq

/-- Where a call is: it has taken a slot, it has a reference to it and is before the function of `dfs_file.c`, or it is
before its last calls of `fd_put`. The flags say whether a file is written or read, and whether the slot is given up. -/
inductive FdCall
  | created (fd : ℕ) (opener : FdOpener)
  | opening (fd : ℕ) (opener : FdOpener)
  | busy (fd : ℕ) (write : Bool)
  | closing (fd : ℕ) (drops : Bool)
  | leaving (fd : ℕ) (drops : Bool)
  | dropping (fd : ℕ)
  deriving DecidableEq

structure FdAnswer where
  opened : OpenAnswer
  dirAlloc : Bool
  io : IoAnswer
  closed : DfsResult

/-- `files` and `paths` are what the slots were given by successful calls of `dfs_file_open` and not released since. -/
structure FdRun (Dev : Type) where
  dfs : Dfs Dev
  calls : Multiset FdCall
  files : ℕ → ℤ
  paths : ℕ → ℤ

inductive FdMove
  | create (opener : FdOpener)
  | enter (fd : ℕ) (user : FdUser)
  | advance (call : FdCall) (answer : FdAnswer)

def FdOpener.path : FdOpener → List Char
  | .openFile file _ => file
  | .mkdir path => path
  | .opendir name => name

def FdOpener.flags : FdOpener → BitVec 32
  | .openFile _ flags => flags
  | .mkdir _ => oDirectory ||| oCreat
  | .opendir _ => oDirectory

def FdOpener.next (fd : ℕ) (dirAlloc : Bool) : FdOpener → FdCall
  | .openFile _ _ => .leaving fd false
  | .mkdir _ => .closing fd true
  | .opendir _ => if dirAlloc then .leaving fd false else .closing fd true

def FdUser.next (fd : ℕ) : FdUser → FdCall
  | .read => .busy fd false
  | .write => .busy fd true
  | .close => .closing fd false
  | .closedir => .closing fd true

namespace FdCall

def fd : FdCall → ℕ
  | created fd _ => fd
  | opening fd _ => fd
  | busy fd _ => fd
  | closing fd _ => fd
  | leaving fd _ => fd
  | dropping fd => fd

def uses : FdCall → Bool
  | created _ _ => false
  | dropping _ => false
  | _ => true

def ends : FdCall → Bool
  | busy _ _ => false
  | closing _ _ => false
  | leaving _ drops => drops
  | _ => true

def owns : FdCall → Bool
  | closing _ _ => true
  | c => c.ends

end FdCall

def DfsFd.held (d : DfsFd) : ℤ := if d.path = none then 0 else 1

namespace FdRun

variable {Dev : Type} [DecidableEq Dev]

def next (s : FdRun Dev) (fd : ℕ) (d : DfsFd) (call : FdCall) : FdRun Dev :=
  { s with dfs := s.dfs.setFd fd d, calls := call ::ₘ s.calls }

def gain (s : FdRun Dev) (fd : ℕ) (file path : ℤ) : FdRun Dev :=
  { s with files := update s.files fd (s.files fd + file), paths := update s.paths fd (s.paths fd + path) }

def exec (s : FdRun Dev) (answer : FdAnswer) : FdCall → Option (FdRun Dev)
  | .created fd opener =>
    (s.dfs.fdGet fd).map (fun r => { s with dfs := r.2, calls := .opening fd opener ::ₘ s.calls })
  | .opening fd opener =>
    (s.dfs.fdTable[fd]?).map (fun d =>
      match dfsFileOpen s.dfs.filesystemTable s.dfs.workingDirectory answer.opened d opener.path opener.flags with
      | (d, .error _) => s.next fd d (.leaving fd true)
      | (d, .ok _) => (s.next fd d (opener.next fd answer.dirAlloc)).gain fd 1 d.held)
  | .busy fd write =>
    (s.dfs.fdTable[fd]?).bind (fun d =>
      (if write then dfsFileWrite s.dfs.filesystemTable answer.io d
        else dfsFileRead s.dfs.filesystemTable answer.io d).map (fun r => s.next fd r.1 (.leaving fd false)))
  | .closing fd drops =>
    (s.dfs.fdTable[fd]?).bind (fun d =>
      (dfsFileClose s.dfs.filesystemTable answer.closed d).map (fun r =>
        match r with
        | (d', .error _) => s.next fd d' (.leaving fd drops)
        | (d', .ok _) => (s.next fd d' (.leaving fd true)).gain fd (-1) (-d.held)))
  | .leaving fd false => some { s with dfs := s.dfs.fdPut fd }
  | .leaving fd true => some { s with dfs := s.dfs.fdPut fd, calls := .dropping fd ::ₘ s.calls }
  | .dropping fd => some { s with dfs := s.dfs.fdPut fd }

def step (s : FdRun Dev) : FdMove → Option (FdRun Dev)
  | .create opener =>
    match s.dfs.fdNew with
    | none => some s
    | some (fd, dfs) => some { s with dfs, calls := .created fd opener ::ₘ s.calls }
  | .enter fd user =>
    match s.dfs.fdGet fd with
    | none => some s
    | some (_, dfs) => some { s with dfs, calls := user.next fd ::ₘ s.calls }
  | .advance call answer => if call ∈ s.calls then { s with calls := s.calls.erase call }.exec answer call else none

structure Initial (s : FdRun Dev) : Prop where
  slots : ∀ d ∈ s.dfs.fdTable, d = .cleared
  calls : s.calls = 0
  files : ∀ fd, s.files fd = 0
  paths : ∀ fd, s.paths fd = 0

/-- A descriptor is used between the call that opens it and the one that closes it, which no other call overlaps, and
the calls that give a slot up in any case can close its file. -/
def Orderly (s : FdRun Dev) : FdMove → Prop
  | .create _ => True
  | .enter fd user =>
    (∀ c ∈ s.calls, c.fd = fd → c.owns = false) ∧
    ((user.next fd).owns = true → ∀ c ∈ s.calls, c.fd ≠ fd)
  | .advance (.closing _ true) answer => ∃ n, answer.closed = .ok n
  | .advance _ _ => True

def callsOn (s : FdRun Dev) (fd : ℕ) : Multiset FdCall := s.calls.filter (·.fd = fd)

structure SlotGood (s : FdRun Dev) (fd : ℕ) (d : DfsFd) : Prop where
  counted : d = .cleared ∨ d.magic = true ∧ d.refCount = 1 + (s.callsOn fd).countP (·.uses)
  once : 0 ≤ s.files fd ∧ s.files fd ≤ 1
  closed : d = .cleared → s.files fd = 0
  released : s.paths fd = d.held
  reusable : s.files fd = 0 → s.callsOn fd = 0 → d = .cleared

end FdRun

inductive FdSlot (calls : Multiset FdCall) (files : ℤ) (d : DfsFd) : Prop
  | free (hd : d = .cleared) (hcalls : calls = 0) (hfiles : files = 0)
  | shared (hmagic : d.magic = true) (hcount : d.refCount = 1 + calls.card) (hfiles : files = 1)
      (hcalls : ∀ c ∈ calls, c.owns = false)
  | owned (c : FdCall) (hmagic : d.magic = true) (hcount : d.refCount = 1 + c.uses.toNat)
      (hfiles : files = 1 - c.ends.toNat) (hcalls : calls = {c}) (howns : c.owns = true)
      (hpath : c.ends = true → d.path = none)

namespace FdSlot

variable {calls : Multiset FdCall} {files : ℤ} {d : DfsFd} {c : FdCall}

theorem own (h : FdSlot (c ::ₘ calls) files d) (howns : c.owns = true) :
    d.magic = true ∧ d.refCount = 1 + c.uses.toNat ∧ files = 1 - c.ends.toNat ∧ calls = 0 ∧
      (c.ends = true → d.path = none) := by
  have hmem := mem_cons_self c calls
  cases h with
  | free hd hcalls => exact absurd hcalls (cons_ne_zero)
  | shared _ _ _ hcalls => exact absurd howns (by rw [hcalls c hmem]; nofun)
  | owned c' hmagic hcount hfiles hcalls howns' hpath =>
    obtain ⟨rfl, hnone⟩ := (singleton_eq_cons_iff _).mp hcalls.symm
    exact ⟨hmagic, hcount, hfiles, hnone, hpath⟩

theorem share (h : FdSlot (c ::ₘ calls) files d) (howns : c.owns = false) :
    d.magic = true ∧ d.refCount = 2 + calls.card ∧ files = 1 ∧ ∀ c ∈ calls, c.owns = false := by
  cases h with
  | free hd hcalls => exact absurd hcalls (cons_ne_zero)
  | shared hmagic hcount hfiles hcalls =>
    rw [card_cons] at hcount
    exact ⟨hmagic, by omega, hfiles, fun c' hmem => hcalls c' (mem_cons_of_mem hmem)⟩
  | owned c' _ _ _ hcalls howns' =>
    obtain ⟨rfl, -⟩ := (singleton_eq_cons_iff _).mp hcalls.symm
    exact absurd howns' (by rw [howns]; nofun)

theorem shared_of_forall (h : FdSlot calls files d) (hmagic : d.magic = true)
    (hcalls : ∀ c ∈ calls, c.owns = false) :
    d.refCount = 1 + calls.card ∧ files = 1 := by
  cases h with
  | free hd =>
    rw [hd] at hmagic
    cases hmagic
  | shared _ hcount hfiles => exact ⟨hcount, hfiles⟩
  | owned c _ _ _ hcalls' howns =>
    exact absurd howns (by rw [hcalls c (hcalls' ▸ Multiset.mem_singleton_self c)]; nofun)

theorem free_of_refCount (h : FdSlot calls files d) (hcount : d.refCount ≤ 0) :
    d = .cleared ∧ calls = 0 ∧ files = 0 := by
  cases h with
  | free hd hcalls hfiles => exact ⟨hd, hcalls, hfiles⟩
  | shared => omega
  | owned => omega

end FdSlot

theorem FdCall.uses_of_not_owns {c : FdCall} (h : c.owns = false) : c.uses = true := by
  cases c <;> first | rfl | cases h

theorem FdOpener.next_cases (fd : ℕ) (dirAlloc : Bool) (opener : FdOpener) :
    opener.next fd dirAlloc = .leaving fd false ∨ opener.next fd dirAlloc = .closing fd true := by
  cases opener with
  | openFile => exact .inl rfl
  | mkdir => exact .inr rfl
  | opendir =>
    cases dirAlloc with
    | false => exact .inr rfl
    | true => exact .inl rfl

theorem FdUser.next_cases (fd : ℕ) (user : FdUser) :
    (∃ write, user.next fd = .busy fd write) ∨ ∃ drops, user.next fd = .closing fd drops := by
  cases user with
  | read => exact .inl ⟨_, rfl⟩
  | write => exact .inl ⟨_, rfl⟩
  | close => exact .inr ⟨_, rfl⟩
  | closedir => exact .inr ⟨_, rfl⟩

namespace FdRun

variable {Dev : Type} {s s' : FdRun Dev} {fd : ℕ} {d : DfsFd} {c c' : FdCall}
  {rest : Multiset FdCall}

def Inv (s : FdRun Dev) : Prop :=
  ∀ fd d, s.dfs.fdTable[fd]? = some d → FdSlot (s.callsOn fd) (s.files fd) d ∧ s.paths fd = d.held

theorem Inv.slotGood (h : s.Inv) (hd : s.dfs.fdTable[fd]? = some d) : s.SlotGood fd d := by
  obtain ⟨hslot, hpaths⟩ := h fd d hd
  cases hslot with
  | free hd hcalls hfiles =>
    exact ⟨.inl hd, by omega, fun _ => hfiles, hpaths, fun _ _ => hd⟩
  | shared hmagic hcount hfiles hcalls =>
    have huses : (s.callsOn fd).countP (·.uses) = (s.callsOn fd).card :=
      countP_eq_card.mpr (fun c hc => FdCall.uses_of_not_owns (hcalls c hc))
    refine ⟨.inr ⟨hmagic, by rw [hcount, huses]⟩, by omega, ?_, hpaths, fun hzero => by omega⟩
    rintro rfl
    cases hmagic
  | owned c hmagic hcount hfiles hcalls howns hpath =>
    have huses : (s.callsOn fd).countP (·.uses) = c.uses.toNat := by
      rw [hcalls]
      cases c <;> rfl
    refine ⟨.inr ⟨hmagic, by rw [hcount, huses]⟩, ?_, ?_, hpaths, fun _ hnone => ?_⟩
    · have := c.ends.toNat_le
      omega
    · rintro rfl
      cases hmagic
    · rw [hcalls] at hnone
      cases singleton_ne_zero c hnone

variable {calls : Multiset FdCall}

theorem Inv.change (h : s.Inv) (file path : ℤ) (hcalls : ∀ fd' ≠ fd, calls.filter (·.fd = fd') = s.callsOn fd')
    (hslot : ∀ d₀, s.dfs.fdTable[fd]? = some d₀ →
      FdSlot (calls.filter (·.fd = fd)) (s.files fd + file) d ∧ s.paths fd + path = d.held) :
    Inv ⟨s.dfs.setFd fd d, calls, update s.files fd (s.files fd + file),
      update s.paths fd (s.paths fd + path)⟩ := by
  intro fd' d' hd'
  rcases eq_or_ne fd' fd with rfl | hne
  · rw [Dfs.setFd, getElem?_set_self'] at hd'
    obtain ⟨d₀, hd₀, rfl⟩ := map_eq_some_iff.mp hd'
    dsimp only
    rw [update_self, update_self]
    exact hslot d₀ hd₀
  · rw [Dfs.setFd, getElem?_set_ne hne.symm] at hd'
    dsimp only
    rw [update_of_ne hne, update_of_ne hne, callsOn, hcalls fd' hne]
    exact h fd' d' hd'

theorem Inv.keep (h : s.Inv) (hcalls : ∀ fd' ≠ fd, calls.filter (·.fd = fd') = s.callsOn fd')
    (hslot : ∀ d₀, s.dfs.fdTable[fd]? = some d₀ →
      FdSlot (calls.filter (·.fd = fd)) (s.files fd) d ∧ s.paths fd = d.held) :
    Inv ⟨s.dfs.setFd fd d, calls, s.files, s.paths⟩ := by
  have hkept := h.change 0 0 hcalls (by simpa using hslot)
  simpa using hkept

theorem callsOn_cons_of_ne {fd' : ℕ} (hfd : c.fd = fd) (hne : fd' ≠ fd) (rest : Multiset FdCall) :
    (c ::ₘ rest).filter (·.fd = fd') = rest.filter (·.fd = fd') :=
  filter_cons_of_neg rest (fun heq => hne (heq.symm.trans hfd))

theorem callsOn_cons (hfd : c.fd = fd) (rest : Multiset FdCall) :
    (c ::ₘ rest).filter (·.fd = fd) = c ::ₘ rest.filter (·.fd = fd) :=
  filter_cons_of_pos rest hfd

theorem Inv.create (h : s.Inv) {dfs : Dfs Dev} (opener : FdOpener) (hnew : s.dfs.fdNew = some (fd, dfs)) :
    Inv { s with dfs, calls := .created fd opener ::ₘ s.calls } := by
  unfold Dfs.fdNew at hnew
  cases hfound : s.dfs.fdTable.findIdx? (fun d => d.refCount ≤ 0) with
  | none =>
    rw [hfound] at hnew
    cases hnew
  | some i =>
    rw [hfound] at hnew
    obtain ⟨d, hd, heq⟩ := map_eq_some_iff.mp hnew
    cases heq
    have hcount : d.refCount ≤ 0 := by
      obtain ⟨hlt, hle, -⟩ := findIdx?_eq_some_iff_getElem.mp hfound
      obtain ⟨_, rfl⟩ := List.getElem?_eq_some_iff.mp hd
      exact of_decide_eq_true hle
    obtain ⟨hslot, hpaths⟩ := h fd d hd
    obtain ⟨rfl, hcalls, hfiles⟩ := hslot.free_of_refCount hcount
    refine h.keep (fun fd' hne => callsOn_cons_of_ne rfl hne _) (fun _ _ => ⟨?_, hpaths⟩)
    have hone : (FdCall.created fd opener ::ₘ s.calls).filter (·.fd = fd) = {.created fd opener} := by
      rw [@callsOn_cons fd (.created fd opener) rfl, ← callsOn, hcalls]
      rfl
    exact .owned (.created fd opener) rfl rfl hfiles hone rfl (fun _ => rfl)

theorem Inv.enter (h : s.Inv) {dfs : Dfs Dev} {user : FdUser} (hc : s.Orderly (.enter fd user))
    (hget : s.dfs.fdGet fd = some (d, dfs)) : Inv { s with dfs, calls := user.next fd ::ₘ s.calls } := by
  obtain ⟨d₀, hd, hmagic, rfl, rfl⟩ := Dfs.fdGet_eq_some hget
  obtain ⟨hslot, hpaths⟩ := h fd d₀ hd
  have hshared : ∀ c ∈ s.callsOn fd, c.owns = false := by
    intro c hmem
    obtain ⟨hmem, hfd⟩ := mem_filter.mp hmem
    exact hc.1 c hmem hfd
  obtain ⟨hcount, hfiles⟩ := hslot.shared_of_forall hmagic hshared
  have hfd : (user.next fd).fd = fd := by cases user <;> rfl
  refine h.keep (fun fd' hne => callsOn_cons_of_ne hfd hne _) (fun _ _ => ⟨?_, hpaths⟩)
  rw [callsOn_cons hfd, ← callsOn]
  rcases user.next_cases fd with ⟨write, hnext⟩ | ⟨drops, hnext⟩
  · rw [hnext]
    refine .shared hmagic ?_ hfiles (forall_mem_cons.mpr ⟨rfl, hshared⟩)
    rw [card_cons]
    push_cast
    omega
  · have hnone : s.callsOn fd = 0 := filter_eq_nil.mpr (hc.2 (hnext ▸ rfl))
    rw [hnone] at hcount ⊢
    rw [hnext]
    exact .owned (.closing fd drops) hmagic (congrArg (· + 1) hcount) hfiles rfl rfl nofun

variable (h : Inv { s with calls := c ::ₘ s.calls })

include h

theorem Inv.gain (file path : ℤ) (hfd : c.fd = fd) (hfd' : c'.fd = fd)
    (hslot : FdSlot (c' ::ₘ s.callsOn fd) (s.files fd + file) d) (hheld : s.paths fd + path = d.held) :
    Inv ((s.next fd d c').gain fd file path) := by
  refine h.change _ _ (fun fd' hne => ?_) (fun _ _ => ⟨?_, hheld⟩)
  · exact (callsOn_cons_of_ne hfd' hne _).trans (callsOn_cons_of_ne hfd hne _).symm
  · exact callsOn_cons hfd' s.calls ▸ hslot

theorem Inv.next (hfd : c.fd = fd) (hfd' : c'.fd = fd)
    (hslot : FdSlot (c' ::ₘ s.callsOn fd) (s.files fd) d) (hheld : s.paths fd = d.held) : Inv (s.next fd d c') := by
  have hkept := h.gain 0 0 hfd hfd' (by simpa using hslot) (by simpa using hheld)
  simpa [FdRun.gain] using hkept

theorem Inv.slot (hd : s.dfs.fdTable[fd]? = some d) (hfd : c.fd = fd) :
    FdSlot (c ::ₘ s.callsOn fd) (s.files fd) d ∧ s.paths fd = d.held := by
  have hslot := h fd d hd
  rwa [callsOn, callsOn_cons hfd] at hslot

theorem Inv.put (fd : ℕ) (hfd : c.fd = fd) (hcalls : ∀ fd' ≠ fd, calls.filter (·.fd = fd') = s.callsOn fd')
    (hput : ∀ d, FdSlot (c ::ₘ s.callsOn fd) (s.files fd) d →
      FdSlot (calls.filter (·.fd = fd)) (s.files fd) d.put ∧ d.put.held = d.held) :
    Inv { s with dfs := s.dfs.fdPut fd, calls } := by
  have hframe : ∀ fd' ≠ fd, calls.filter (·.fd = fd') = callsOn { s with calls := c ::ₘ s.calls } fd' :=
    fun fd' hne => (hcalls fd' hne).trans (callsOn_cons_of_ne hfd hne _).symm
  unfold Dfs.fdPut
  cases hd : s.dfs.fdTable[fd]? with
  | none =>
    have hsame : s.dfs.setFd fd .cleared = s.dfs := by
      rw [Dfs.setFd, set_eq_of_length_le (List.getElem?_eq_none_iff.mp hd)]
    have hkept := h.keep (d := .cleared) hframe (fun d₀ hd₀ => absurd (hd.symm.trans hd₀) (by simp))
    rwa [hsame] at hkept
  | some d =>
    obtain ⟨hslot, hpaths⟩ := h.slot hd hfd
    obtain ⟨hslot', hheld⟩ := hput d hslot
    exact h.keep hframe (fun _ _ => ⟨hslot', hpaths.trans hheld.symm⟩)

end FdRun

theorem DfsFd.put_of_ne {d : DfsFd} {n : ℤ} (h : d.refCount = n) (hn : n ≠ 1) :
    d.put = { d with refCount := n - 1 } := by
  rw [put, if_neg (by omega), h]

theorem DfsFd.held_of_path {d d' : DfsFd} (h : d'.path = d.path) : d'.held = d.held := by
  rw [held, held, h]

section

variable {Dev : Type} {table : FsTable Dev} {d d' : DfsFd}

theorem dfsFileRead_path {answer : IoAnswer} {r : DfsResult} (h : dfsFileRead table answer d = some (d', r)) :
    d'.path = d.path := by
  obtain ⟨fs, -, h⟩ := map_eq_some_iff.mp h
  split_ifs at h
  · cases h
    rfl
  · split at h
    · cases h
      rfl
    · cases h
      rfl

theorem dfsFileWrite_path {answer : IoAnswer} {r : DfsResult} (h : dfsFileWrite table answer d = some (d', r)) :
    d'.path = d.path := by
  obtain ⟨fs, -, h⟩ := map_eq_some_iff.mp h
  split_ifs at h
  · cases h
    rfl
  · cases h
    rfl

theorem dfsFileOpen_path {workingDirectory path : List Char} {answer : OpenAnswer} {flags : BitVec 32} {e : DfsErr}
    (hd : d.path = none)
    (h : dfsFileOpen table workingDirectory answer d path flags = (d', .error e)) : d'.path = none := by
  unfold dfsFileOpen at h
  cases hpath : dfsNormalizePath answer.alloc workingDirectory none path with
  | none =>
    rw [hpath] at h
    cases h
    exact hd
  | some fullpath =>
    rw [hpath] at h
    dsimp only at h
    rcases hl : table.lookup fullpath with _ | ⟨i, fs⟩
    · rw [hl] at h
      cases h
      exact hd
    · rw [hl] at h
      dsimp only at h
      by_cases hopen : fs.ops.openOp = false
      · rw [if_pos hopen] at h
        cases h
        rfl
      · rw [if_neg hopen] at h
        cases hio : answer.io.result with
        | error e =>
          rw [hio] at h
          cases h
          rfl
        | ok n =>
          rw [hio] at h
          split_ifs at h <;> cases h

theorem dfsFileClose_cases {answer r : DfsResult} (h : dfsFileClose table answer d = some (d', r)) :
    (∃ e, answer = .error e ∧ r = .error e ∧ d' = d) ∨ ∃ n, r = .ok n ∧ d' = { d with path := none } := by
  obtain ⟨fs, -, h⟩ := map_eq_some_iff.mp h
  split at h
  · rename_i e hanswer
    cases h
    split_ifs at hanswer
    exact .inl ⟨e, hanswer, rfl, rfl⟩
  · cases h
    exact .inr ⟨_, rfl, rfl⟩

end

namespace FdRun

variable {Dev : Type} {s s' : FdRun Dev} {c : FdCall} {answer : FdAnswer}

theorem Inv.busy {fd : ℕ} {write : Bool} (h : Inv { s with calls := .busy fd write ::ₘ s.calls })
    (hs : s.exec answer (.busy fd write) = some s') : s'.Inv := by
  obtain ⟨d, hd, hs⟩ := bind_eq_some_iff.mp hs
  obtain ⟨⟨d', r⟩, hio, rfl⟩ := map_eq_some_iff.mp hs
  obtain ⟨hslot, hpaths⟩ := h.slot hd rfl
  obtain ⟨hmagic, hcount, hfiles, hcalls⟩ := hslot.share rfl
  have hkept : d.SameFile d' ∧ d'.path = d.path := by
    cases write with
    | false => exact ⟨(dfsFileRead_keepsFile _ _).same d d' r hio, dfsFileRead_path hio⟩
    | true => exact ⟨(dfsFileWrite_keepsFile _ _).same d d' r hio, dfsFileWrite_path hio⟩
  refine h.next rfl rfl (.shared ?_ ?_ hfiles (forall_mem_cons.mpr ⟨rfl, hcalls⟩)) ?_
  · rw [hkept.1.magic, hmagic]
  · rw [hkept.1.refCount, card_cons]
    push_cast
    omega
  · rw [hpaths, held_of_path hkept.2]

theorem Inv.exec (h : Inv { s with calls := c ::ₘ s.calls })
    (hc : ∀ fd, c = .closing fd true → ∃ n, answer.closed = .ok n) (hs : s.exec answer c = some s') : s'.Inv := by
  cases c with
  | created fd opener =>
    obtain ⟨⟨d, dfs⟩, hget, rfl⟩ := map_eq_some_iff.mp hs
    obtain ⟨d, hd, hmagic, rfl, rfl⟩ := Dfs.fdGet_eq_some hget
    obtain ⟨hslot, hpaths⟩ := h.slot hd rfl
    obtain ⟨-, hcount, hfiles, hnone, hpath⟩ := hslot.own rfl
    refine h.next rfl rfl ?_ hpaths
    rw [hnone]
    exact .owned (.opening fd opener) hmagic (congrArg (· + 1) hcount) hfiles rfl rfl hpath
  | opening fd opener =>
    obtain ⟨d, hd, rfl⟩ := map_eq_some_iff.mp hs
    obtain ⟨hslot, hpaths⟩ := h.slot hd rfl
    obtain ⟨hmagic, hcount, hfiles, hnone, hpath⟩ := hslot.own rfl
    have hheld : s.paths fd = 0 := by rw [hpaths, DfsFd.held, if_pos (hpath rfl)]
    have hopened := dfsFileOpen_opened s.dfs.filesystemTable s.dfs.workingDirectory answer.opened d opener.path
      opener.flags
    rcases hr : dfsFileOpen s.dfs.filesystemTable s.dfs.workingDirectory answer.opened d opener.path opener.flags with
      ⟨d', e | n⟩
    · rw [hr] at hopened
      have hpath' := dfsFileOpen_path (hpath rfl) hr
      refine h.next rfl rfl ?_ (by rw [hheld, DfsFd.held, if_pos hpath'])
      rw [hnone]
      exact .owned (.leaving fd true) (hopened.magic.trans hmagic) (hopened.refCount.trans hcount) hfiles rfl rfl
        (fun _ => hpath')
    · rw [hr] at hopened
      have hfd : (opener.next fd answer.dirAlloc).fd = fd := by
        rcases opener.next_cases fd answer.dirAlloc with hnext | hnext <;> rw [hnext] <;> rfl
      refine h.gain _ _ rfl hfd ?_ (by rw [hheld, Int.zero_add])
      rw [hnone, hfiles]
      rcases opener.next_cases fd answer.dirAlloc with hnext | hnext
      · rw [hnext]
        refine .shared (hopened.magic.trans hmagic) (hopened.refCount.trans hcount) rfl ?_
        exact Multiset.forall_mem_cons.mpr ⟨rfl, nofun⟩
      · rw [hnext]
        exact .owned (.closing fd true) (hopened.magic.trans hmagic) (hopened.refCount.trans hcount) rfl rfl rfl nofun
  | busy fd write => exact h.busy hs
  | closing fd drops =>
    obtain ⟨d, hd, hs⟩ := bind_eq_some_iff.mp hs
    obtain ⟨⟨d', r⟩, hclose, rfl⟩ := map_eq_some_iff.mp hs
    obtain ⟨hslot, hpaths⟩ := h.slot hd rfl
    obtain ⟨hmagic, hcount, hfiles, hnone, -⟩ := hslot.own rfl
    rcases dfsFileClose_cases hclose with ⟨e, hanswer, rfl, rfl⟩ | ⟨n, rfl, rfl⟩
    · have hdrops : drops = false := by
        by_contra htrue
        obtain ⟨n, hn⟩ := hc fd (by rw [Bool.eq_true_of_not_eq_false htrue])
        cases hanswer.symm.trans hn
      rw [hdrops]
      refine h.next rfl rfl ?_ hpaths
      rw [hnone]
      exact .shared hmagic hcount hfiles (Multiset.forall_mem_cons.mpr ⟨rfl, nofun⟩)
    · refine h.gain _ _ rfl rfl ?_ (by rw [hpaths, Int.add_right_neg]; rfl)
      rw [hnone, hfiles]
      exact .owned (.leaving fd true) hmagic hcount rfl rfl rfl (fun _ => rfl)
  | leaving fd drops =>
    cases drops with
    | false =>
      cases hs
      refine h.put fd rfl (fun _ _ => rfl) (fun d hslot => ?_)
      obtain ⟨hmagic, hcount, hfiles, hcalls⟩ := hslot.share rfl
      rw [DfsFd.put_of_ne hcount (by omega)]
      exact ⟨.shared hmagic (by dsimp only; rw [callsOn]; omega) hfiles hcalls, rfl⟩
    | true =>
      cases hs
      refine h.put fd rfl (fun fd' hne => @callsOn_cons_of_ne fd (.dropping fd) fd' rfl hne _) (fun d hslot => ?_)
      obtain ⟨hmagic, hcount, hfiles, hnone, hpath⟩ := hslot.own rfl
      have htwo : d.refCount = 2 := hcount
      rw [DfsFd.put_of_ne htwo (by decide)]
      refine ⟨?_, rfl⟩
      have hone : (FdCall.dropping fd ::ₘ s.calls).filter (·.fd = fd) = {.dropping fd} := by
        rw [@callsOn_cons fd (.dropping fd) rfl, ← callsOn, hnone]
        rfl
      exact .owned (.dropping fd) hmagic rfl hfiles hone rfl hpath
  | dropping fd =>
    cases hs
    refine h.put fd rfl (fun _ _ => rfl) (fun d hslot => ?_)
    obtain ⟨hmagic, hcount, hfiles, hnone, hpath⟩ := hslot.own rfl
    have hput : d.put = .cleared := by
      rw [DfsFd.put, hcount]
      rfl
    rw [hput, DfsFd.held, DfsFd.held, if_pos (hpath rfl)]
    exact ⟨.free rfl hnone hfiles, rfl⟩

theorem Inv.step (h : s.Inv) {m : FdMove} (hc : s.Orderly m) (hs : s.step m = some s') : s'.Inv := by
  cases m with
  | create opener =>
    rcases hnew : s.dfs.fdNew with _ | ⟨fd, dfs⟩
    · rw [FdRun.step, hnew] at hs
      cases hs
      exact h
    · rw [FdRun.step, hnew] at hs
      cases hs
      exact h.create opener hnew
  | enter fd user =>
    rcases hget : s.dfs.fdGet fd with _ | ⟨d, dfs⟩
    · rw [FdRun.step, hget] at hs
      cases hs
      exact h
    · rw [FdRun.step, hget] at hs
      cases hs
      exact h.enter hc hget
  | advance call answer =>
    obtain ⟨hmem, hs⟩ := ite_none_right_eq_some.mp hs
    refine Inv.exec ?_ ?_ hs
    · rw [cons_erase hmem]
      exact h
    · rintro fd rfl
      exact hc

theorem fd_references (h : Reachable step Orderly Initial s) {fd : ℕ} {d : DfsFd} (hd : s.dfs.fdTable[fd]? = some d) :
    s.SlotGood fd d := by
  have hinv : s.Inv := by
    refine h.invariant ?_ (fun _ _ _ h hc => h.step hc)
    intro s hs fd d hd
    have hcleared := hs.slots d (mem_of_getElem? hd)
    refine ⟨.free hcleared ?_ (hs.files fd), ?_⟩
    · rw [callsOn, hs.calls]
      rfl
    · rw [hs.paths fd, hcleared]
      rfl
  exact hinv.slotGood hd

end FdRun

def fdRun : FdRun Unit where
  dfs := { romInit with filesystemTable := [some ⟨none, ['/'], romOps, 0⟩] }
  calls := 0
  files _ := 0
  paths _ := 0

def fdAgrees : FdAnswer := ⟨⟨true, true, agrees⟩, true, agrees, .ok 0⟩

def fdFails : FdAnswer := { fdAgrees with closed := .error .minusOne }

def openA : FdOpener := .openFile ['/', 'a'] 0

def opensA : List FdMove :=
  [.create openA, .advance (.created 0 openA) fdAgrees, .advance (.opening 0 openA) fdAgrees,
    .advance (.leaving 0 false) fdAgrees]

theorem fd_references_read : ∃ s₀ s d, run FdRun.step fdRun opensA = some s₀ ∧
    s₀.step (.enter 0 .read) = some s ∧
    s.dfs.fdTable[0]? = some d ∧ d ≠ .cleared ∧ s.SlotGood 0 d := by
  obtain ⟨s₀, hs₀, hcalls, s, hs, d, hd, hopen⟩ : ∃ s₀, run FdRun.step fdRun opensA = some s₀ ∧
    s₀.calls = 0 ∧
    ∃ s, s₀.step (.enter 0 .read) = some s ∧ ∃ d, s.dfs.fdTable[0]? = some d ∧
    d ≠ .cleared := by decide +kernel
  have hreach : Reachable FdRun.step FdRun.Orderly FdRun.Initial s₀ := by
    refine .of_run (.start ⟨by decide, rfl, fun _ => rfl, fun _ => rfl⟩) ?_ hs₀
    exact fun _ _ => ⟨trivial, fun _ _ =>
      ⟨trivial, fun _ _ => ⟨trivial, fun _ _ => ⟨trivial, trivial⟩⟩⟩⟩
  have hread : s₀.Orderly (.enter 0 .read) := by
    rw [FdRun.Orderly, hcalls]
    exact ⟨nofun, nofun⟩
  exact ⟨s₀, s, d, hs₀, hs, hd, hopen, FdRun.fd_references (hreach.next hread hs) hd⟩

/-- Two calls of `close` overlap: the file is closed twice, and the slot keeps a count of -1. If the directory that
`mkdir` has made cannot be closed, the slot is cleared with its path. -/
theorem fd_closed_twice :
    (∃ s, run FdRun.step fdRun (opensA ++ [.enter 0 .close, .enter 0 .close, .advance (.closing 0 false) fdAgrees,
      .advance (.closing 0 false) fdAgrees, .advance (.leaving 0 true) fdAgrees, .advance (.leaving 0 true) fdAgrees,
      .advance (.dropping 0) fdAgrees, .advance (.dropping 0) fdAgrees]) = some s ∧
        s.files 0 = -1 ∧ ∃ d, s.dfs.fdTable[0]? = some d ∧ d.refCount = -1) ∧
    ∃ s, run FdRun.step fdRun [.create (.mkdir ['/', 'a']), .advance (.created 0 (.mkdir ['/', 'a'])) fdAgrees,
      .advance (.opening 0 (.mkdir ['/', 'a'])) fdAgrees, .advance (.closing 0 true) fdFails,
      .advance (.leaving 0 true) fdAgrees, .advance (.dropping 0) fdAgrees] = some s ∧
        s.dfs.fdTable[0]? = some .cleared ∧ s.files 0 = 1 ∧ s.paths 0 = 1 := by
  decide +kernel

end RtThread
