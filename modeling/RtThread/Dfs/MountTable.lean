import RtThread.Dfs.OpenPaths

namespace RtThread

open Transition List Option Dfs

variable {Dev : Type}

inductive MountCall (Dev : Type)
  | mount (answer : MountAnswer Dev) (deviceName : Option (List Char)) (path type : List Char)
  | unmount (alloc : Bool) (answer : DfsResult) (specialfile : List Char)

/-- `freed` numbers the mounts whose path in the table has been given to `rt_free`. -/
structure MountRun (Dev : Type) where
  dfs : Dfs Dev
  freed : List ℕ

theorem mounted_of_mountedAt {table : FsTable Dev} {fullpath : List Char} {i : ℕ} {fs : Filesystem Dev}
    (h : Dfs.mountedAt table fullpath = some (i, fs)) : table.Mounted i fs ∧ fs.path = fullpath := by
  obtain ⟨⟨entry, j⟩, hmem, hentry⟩ := exists_of_findSome?_eq_some h
  obtain ⟨fs', rfl, hfs'⟩ := bind_eq_some_iff.mp hentry
  split_ifs at hfs' with hpath
  cases hfs'
  exact ⟨mem_zipIdx_iff_getElem?.mp hmem, hpath⟩

variable [DecidableEq Dev]

namespace MountRun

def unmount (s : MountRun Dev) (alloc : Bool) (answer : DfsResult) (specialfile : List Char) :
    MountRun Dev × DfsResult :=
  match s.dfs.dfsUnmount alloc answer specialfile, s.dfs.unmountTarget alloc specialfile with
  | (dfs, .ok n), some (_, fs) => (⟨dfs, fs.generation :: s.freed⟩, .ok n)
  | (dfs, result), _ => (⟨dfs, s.freed⟩, result)

def step (s : MountRun Dev) : MountCall Dev → Option (MountRun Dev)
  | .mount answer deviceName path type =>
    (s.dfs.dfsMount answer deviceName path type).map (fun r => { s with dfs := r.1 })
  | .unmount alloc answer specialfile => some (s.unmount alloc answer specialfile).1

def init (operationTable : List (Option FsOps)) (filesystemsMax fdMax : ℕ) (openCount : Dev → ℕ)
    (workingDirectory : List Char) : MountRun Dev :=
  ⟨{ dfsInit operationTable filesystemsMax fdMax openCount with workingDirectory }, []⟩

/-- The device does not answer `-RT_ENOSYS`, and a path that is not spelled in its normal form is mounted on only where
nothing is mounted yet. -/
def Fresh (s : MountRun Dev) : MountCall Dev → Prop
  | .mount answer deviceName path _ => (deviceName ≠ none → answer.deviceOpen ≠ .enosys) ∧
      ∀ entry ∈ s.dfs.filesystemTable, ∀ fs ∈ entry, path ≠ fs.path →
        dfsNormalizePath answer.alloc s.dfs.workingDirectory none path ≠ some fs.path
  | .unmount .. => True

instance (s : MountRun Dev) : DecidablePred s.Fresh
  | .mount _ _ _ _ => instDecidableAnd
  | .unmount _ _ _ => .isTrue trivial

/-- A mount that fails changes nothing, and an unmount empties the entry and frees its path, for the first time. -/
def Kept (s : MountRun Dev) : MountCall Dev → Prop
  | .mount answer deviceName path type => ∀ dfs e,
      s.dfs.dfsMount answer deviceName path type = some (dfs, .error e) → dfs = s.dfs
  | .unmount alloc answer specialfile => ∀ s' n, s.unmount alloc answer specialfile = (s', .ok n) →
      ∃ i fs, s.dfs.filesystemTable.Mounted i fs ∧
        dfsNormalizePath alloc s.dfs.workingDirectory none specialfile = some fs.path ∧
        s'.dfs.filesystemTable = s.dfs.filesystemTable.set i none ∧
        fs.generation ∉ s.freed ∧ s'.freed = fs.generation :: s.freed

structure Inv (s : MountRun Dev) : Prop where
  old : ∀ i fs, s.dfs.filesystemTable.Mounted i fs → fs.generation < s.dfs.mounts
  live : ∀ i fs, s.dfs.filesystemTable.Mounted i fs → fs.generation ∉ s.freed
  unique : s.dfs.filesystemTable.DistinctBy (·.generation)
  freed : ∀ g ∈ s.freed, g < s.dfs.mounts
  once : s.freed.Nodup
  distinct : s.dfs.filesystemTable.Distinct

end MountRun

/-- The call of `dfs_mount` finds its device, its type, its directory and an empty entry, and neither the device nor the
file system refuses it. -/
structure Dfs.Mounts (s : Dfs Dev) (answer : MountAnswer Dev) (deviceName : Option (List Char))
    (path type : List Char) :
    Prop where
  device : deviceName ≠ none → deviceName.bind answer.find ≠ none
  type : ∃ ops, findOps type s.operationTable = some (some ops) ∧ ops.mountOp = true
  directory : ∃ fullpath, dfsNormalizePath answer.alloc s.workingDirectory none path = some fullpath ∧
    s.isMountPoint answer fullpath = some true
  entry : (findSlot path s.filesystemTable 0 none).isOk = true
  opened : answer.deviceOpen ≠ .failed
  mount : answer.mount.isOk = true

namespace FsTable

variable {table : FsTable Dev} {i j : ℕ} {fs fs' : Filesystem Dev}

section

omit [DecidableEq Dev]

theorem mounted_set {entry : Option (Filesystem Dev)} :
    Mounted (table.set i entry) j fs → j = i ∧ entry = some fs ∨ j ≠ i ∧ table.Mounted j fs := by
  unfold Mounted
  intro h
  by_cases hij : j = i
  · subst hij
    rw [getElem?_set_self'] at h
    obtain ⟨_, -, hentry⟩ := map_eq_some_iff.mp h
    exact .inl ⟨rfl, hentry⟩
  · rw [getElem?_set_ne (Ne.symm hij)] at h
    exact .inr ⟨hij, h⟩

theorem mounted_set_self (h : table[i]? = some none) : Mounted (table.set i (some fs)) i fs := by
  rw [Mounted, getElem?_set_self', h]
  rfl

theorem Mounted.set_ne (h : table.Mounted j fs) (hi : table[i]? = some none) (entry : Option (Filesystem Dev)) :
    j ≠ i ∧ Mounted (table.set i entry) j fs := by
  have hne : j ≠ i := by
    rintro rfl
    exact absurd (hi.symm.trans h) (by simp)
  refine ⟨hne, ?_⟩
  rw [Mounted, getElem?_set_ne hne.symm]
  exact h

theorem Mounted.of_set_none (h : Mounted (table.set i none) j fs) : j ≠ i ∧ table.Mounted j fs :=
  (mounted_set h).resolve_left (by simp)

end

variable {α : Type} {key : Filesystem Dev → α} (h : table.DistinctBy key)

include h

omit [DecidableEq Dev]

theorem distinctBy_set_iff (hi : table[i]? = some none) :
    DistinctBy (table.set i (some fs)) key ↔ ∀ j fs', table.Mounted j fs' → key fs' ≠ key fs := by
  constructor
  · intro hd j fs' hj hkey
    obtain ⟨hne, hj⟩ := hj.set_ne hi (some fs)
    exact hne (hd j i fs' fs hj (mounted_set_self hi) hkey)
  · intro hnew j k fs' fs'' hj hk hkey
    rcases mounted_set hj with ⟨rfl, hfs'⟩ | ⟨-, hj'⟩ <;>
      rcases mounted_set hk with ⟨rfl, hfs''⟩ | ⟨-, hk'⟩
    · rfl
    · cases hfs'
      exact absurd hkey.symm (hnew k fs'' hk')
    · cases hfs''
      exact absurd hkey (hnew j fs' hj')
    · exact h j k fs' fs'' hj' hk' hkey

theorem DistinctBy.set_none (i : ℕ) : DistinctBy (table.set i none) key := by
  intro j k fs fs' hj hk
  exact h j k fs fs' hj.of_set_none.2 hk.of_set_none.2

end FsTable

namespace MountRun

variable {s s' : MountRun Dev} {alloc : Bool} {answer : DfsResult} {specialfile : List Char}

theorem unmount_cases (s : MountRun Dev) (alloc : Bool) (answer : DfsResult) (specialfile : List Char) :
    (∃ e, s.unmount alloc answer specialfile = (s, .error e)) ∨
      ∃ i fs, s.dfs.filesystemTable.Mounted i fs ∧
        dfsNormalizePath alloc s.dfs.workingDirectory none specialfile = some fs.path ∧
        s.unmount alloc answer specialfile =
          (⟨(s.dfs.deviceClose fs.devId).setFs i none, fs.generation :: s.freed⟩, .ok 0) := by
  unfold unmount dfsUnmount unmountTarget
  cases hpath : dfsNormalizePath alloc s.dfs.workingDirectory none specialfile with
  | none => exact .inl ⟨_, rfl⟩
  | some fullpath =>
    rw [bind_some]
    dsimp only
    cases hentry : mountedAt s.dfs.filesystemTable fullpath with
    | none => exact .inl ⟨_, rfl⟩
    | some entry =>
      obtain ⟨i, fs⟩ := entry
      obtain ⟨hfs, rfl⟩ := mounted_of_mountedAt hentry
      dsimp only
      by_cases hop : fs.ops.unmountOp = false
      · rw [if_pos hop]
        exact .inl ⟨_, rfl⟩
      · rw [if_neg hop]
        cases answer with
        | error e => exact .inl ⟨_, rfl⟩
        | ok n => exact .inr ⟨i, fs, hfs, rfl, rfl⟩

theorem Inv.kept (h : s.Inv) {c : MountCall Dev} (hc : s.Fresh c) : s.Kept c := by
  cases c with
  | mount answer deviceName path type =>
    intro dfs e hs
    rcases dfsMount_cases hs with ⟨rfl | ⟨hdev, henosys, -⟩, -⟩ | ⟨i, fs, -, -, -, hok⟩
    · rfl
    · exact absurd henosys (hc.1 (fun hnone => hdev (by rw [hnone]; rfl)))
    · cases hok
  | unmount alloc answer specialfile =>
    intro s' n hs
    rcases s.unmount_cases alloc answer specialfile with ⟨e, he⟩ | ⟨i, fs, hfs, hpath, he⟩
    · cases he.symm.trans hs
    · cases he.symm.trans hs
      refine ⟨i, fs, hfs, hpath, ?_, h.live i fs hfs, rfl⟩
      rw [setFs, deviceClose_filesystemTable]

theorem Inv.mounted (h : s.Inv) {i : ℕ} {fs : Filesystem Dev} {dfs : Dfs Dev} (hm : s.dfs.MountedIn i fs dfs)
    (hnew : ∀ j fs', s.dfs.filesystemTable.Mounted j fs' → fs'.path ≠ fs.path) : Inv { s with dfs } := by
  rw [hm.state]
  constructor
  · intro j fs' hj
    rcases FsTable.mounted_set hj with ⟨-, hfs⟩ | ⟨-, hj⟩
    · cases hfs
      rw [hm.generation]
      exact Nat.lt_succ_self _
    · exact Nat.lt_succ_of_lt (h.old j fs' hj)
  · intro j fs' hj hfreed
    rcases FsTable.mounted_set hj with ⟨-, hfs⟩ | ⟨-, hj⟩
    · cases hfs
      exact (h.freed _ hfreed).ne hm.generation
    · exact h.live j fs' hj hfreed
  · apply (FsTable.distinctBy_set_iff h.unique hm.empty).mpr
    intro j fs' hj
    rw [hm.generation]
    exact (h.old j fs' hj).ne
  · intro g hg
    exact Nat.lt_succ_of_lt (h.freed g hg)
  · exact h.once
  · exact (FsTable.distinctBy_set_iff h.distinct hm.empty).mpr hnew

theorem Inv.unmounted (h : s.Inv) {i : ℕ} {fs : Filesystem Dev} (hfs : s.dfs.filesystemTable.Mounted i fs) :
    Inv ⟨(s.dfs.deviceClose fs.devId).setFs i none, fs.generation :: s.freed⟩ := by
  have htable : ((s.dfs.deviceClose fs.devId).setFs i none).filesystemTable = s.dfs.filesystemTable.set i none := by
    rw [setFs, deviceClose_filesystemTable]
  have hmounts : ((s.dfs.deviceClose fs.devId).setFs i none).mounts = s.dfs.mounts := by
    cases fs.devId <;> rfl
  constructor
  · intro j fs' hj
    rw [htable] at hj
    rw [hmounts]
    exact h.old j fs' hj.of_set_none.2
  · intro j fs' hj hfreed
    rw [htable] at hj
    obtain ⟨hne, hj⟩ := hj.of_set_none
    rcases mem_cons.mp hfreed with hgen | hfreed
    · exact hne (h.unique j i fs' fs hj hfs hgen)
    · exact h.live j fs' hj hfreed
  · rw [htable]
    exact h.unique.set_none i
  · intro g hg
    rw [hmounts]
    rcases mem_cons.mp hg with rfl | hg
    · exact h.old i fs hfs
    · exact h.freed g hg
  · exact nodup_cons.mpr ⟨h.live i fs hfs, h.once⟩
  · rw [htable]
    exact h.distinct.set_none i

theorem Inv.step (h : s.Inv) {c : MountCall Dev} (hc : s.Fresh c) (hs : s.step c = some s') : s'.Inv := by
  cases c with
  | mount answer deviceName path type =>
    obtain ⟨⟨dfs, result⟩, hmount, rfl⟩ := map_eq_some_iff.mp hs
    rcases dfsMount_cases hmount with ⟨-, e, rfl⟩ | ⟨i, fs, hmounted, hpath, hpaths, rfl⟩
    · obtain rfl := h.kept hc dfs e hmount
      exact h
    · refine h.mounted hmounted (fun j fs' hj heq => ?_)
      have hmem := mem_of_getElem? hj
      exact hc.2 _ hmem fs' rfl (hpaths fs' hmem).symm (heq ▸ hpath)
  | unmount alloc answer specialfile =>
    obtain rfl := Option.some.inj hs
    rcases s.unmount_cases alloc answer specialfile with ⟨e, he⟩ | ⟨i, fs, hfs, -, he⟩
    · rw [he]
      exact h
    · rw [he]
      exact h.unmounted hfs

omit [DecidableEq Dev]

theorem inv_init (operationTable : List (Option FsOps)) (filesystemsMax fdMax : ℕ) (openCount : Dev → ℕ)
    (workingDirectory : List Char) : (init operationTable filesystemsMax fdMax openCount workingDirectory).Inv := by
  have hnone : ∀ i fs, ¬ FsTable.Mounted (List.replicate filesystemsMax (none : Option (Filesystem Dev))) i fs := by
    intro i fs hfs
    exact absurd (eq_of_mem_replicate (mem_of_getElem? hfs)) (by simp)
  exact ⟨fun i fs hfs => absurd hfs (hnone i fs), fun i fs hfs => absurd hfs (hnone i fs),
    fun i j fs fs' hfs => absurd hfs (hnone i fs), by simp [init], nodup_nil,
    fun i j fs fs' hfs => absurd hfs (hnone i fs)⟩

end MountRun

section

variable {s : Dfs Dev} {answer : MountAnswer Dev} {deviceName : Option (List Char)} {path type : List Char}

theorem Dfs.Mounts.dfsMount_eq (h : s.Mounts answer deviceName path type) : ∃ ops fullpath i,
    dfsNormalizePath answer.alloc s.workingDirectory none path = some fullpath ∧ s.filesystemTable[i]? = some none ∧
      s.dfsMount answer deviceName path type =
        some (s.mountAt answer (deviceName.bind answer.find) fullpath ops i) := by
  obtain ⟨ops, hops, hmount⟩ := h.type
  obtain ⟨fullpath, hpath, hdir⟩ := h.directory
  cases hslot : findSlot path s.filesystemTable 0 none with
  | error e =>
    have hentry := h.entry
    rw [hslot] at hentry
    cases hentry
  | ok i =>
    obtain ⟨k, rfl, hk⟩ := (findSlot_eq_ok hslot).1.resolve_left nofun
    rw [Nat.zero_add] at hslot
    have hdev : ¬(deviceName ≠ none ∧ deviceName.bind answer.find = none) := fun hd => h.device hd.1 hd.2
    refine ⟨ops, fullpath, k, hpath, hk, ?_⟩
    rw [Dfs.dfsMount, if_neg hdev]
    simp [hops, hmount, hpath, hdir, hslot]

theorem Dfs.Mounts.counts (h : s.Mounts answer deviceName path type) (hdev : deviceName ≠ none)
    (henosys : answer.deviceOpen = .enosys) :
    ∃ s' e, s.dfsMount answer deviceName path type = some (s', .error e) ∧ s'.openCount ≠ s.openCount := by
  obtain ⟨ops, fullpath, i, -, -, hmount⟩ := h.dfsMount_eq
  obtain ⟨dev, hfind⟩ := Option.ne_none_iff_exists'.mp (h.device hdev)
  rw [hmount, mountAt, hfind, henosys]
  refine ⟨_, _, rfl, fun heq => ?_⟩
  have hcount := congrFun heq dev
  simp [deviceOpen, setFs] at hcount

theorem Dfs.Mounts.mounts (h : s.Mounts answer deviceName path type) (hdev : deviceName ≠ none →
    answer.deviceOpen ≠ .enosys) : ∃ s' i fs, s.dfsMount answer deviceName path type = some (s', .ok 0) ∧
      s.MountedIn i fs s' ∧ dfsNormalizePath answer.alloc s.workingDirectory none path = some fs.path := by
  obtain ⟨ops, fullpath, i, hpath, hi, hmount⟩ := h.dfsMount_eq
  rcases mountAt_cases hi answer (deviceName.bind answer.find) fullpath ops with ⟨s', e, he, -⟩ | ⟨s', he, hm⟩
  · exfalso
    have hok := h.mount
    rw [mountAt, if_neg (fun hd => h.opened hd.2),
      if_neg (fun hd => hdev (fun hnone => hd.1 (by rw [hnone]; rfl)) hd.2)] at he
    cases hanswer : answer.mount with
    | error e =>
      rw [hanswer] at hok
      cases hok
    | ok n =>
      rw [hanswer] at he
      cases he
  · exact ⟨s', i, _, hmount.trans (congrArg some he), hm, hpath⟩

end

namespace MountRun

theorem mount_table {s : MountRun Dev} {operationTable : List (Option FsOps)} {filesystemsMax fdMax : ℕ}
    {openCount : Dev → ℕ} {workingDirectory : List Char} (h : Reachable step Fresh
      (· = init operationTable filesystemsMax fdMax openCount workingDirectory) s) :
    s.dfs.filesystemTable.Distinct ∧ s.freed.Nodup ∧ (∀ c, s.Fresh c → s.Kept c) ∧
      ∀ answer deviceName path type, s.dfs.Mounts answer deviceName path type →
        ¬ s.Fresh (.mount answer deviceName path type) →
          ∃ dfs result, s.dfs.dfsMount answer deviceName path type = some (dfs, result) ∧
            (result.isOk = false ∧ dfs.openCount ≠ s.dfs.openCount ∨ ¬ dfs.filesystemTable.Distinct) := by
  have hinv : s.Inv := h.invariant (by rintro _ rfl; exact inv_init ..) (fun _ _ _ hs hc ht => hs.step hc ht)
  refine ⟨hinv.distinct, hinv.once, fun c => hinv.kept, fun answer deviceName path type hm hfresh => ?_⟩
  by_cases hdev : deviceName ≠ none → answer.deviceOpen ≠ .enosys
  · obtain ⟨dfs, i, fs, hmount, hin, hpath⟩ := hm.mounts hdev
    refine ⟨dfs, .ok 0, hmount, .inr (fun hd => hfresh ⟨hdev, fun entry hmem fs' hfs' _ heq => ?_⟩)⟩
    obtain ⟨j, hj⟩ := mem_iff_getElem?.mp hmem
    rw [hin.state] at hd
    rw [Option.mem_def.mp hfs'] at hj
    exact (FsTable.distinctBy_set_iff hinv.distinct hin.empty).mp hd j fs' hj
      (Option.some.inj (heq.symm.trans hpath))
  · obtain ⟨hname, henosys⟩ := Classical.not_imp.mp hdev
    obtain ⟨dfs, e, hmount, hcount⟩ := hm.counts hname (not_not.mp henosys)
    exact ⟨dfs, .error e, hmount, .inl ⟨rfl, hcount⟩⟩

end MountRun

def mountAs (device : DeviceAnswer) (deviceName : Option (List Char)) (path : List Char) : MountCall Unit :=
  .mount ⟨fun _ => some (), true, ⟨true, true, agrees⟩, .ok 0, device, .ok 0⟩ deviceName path ['r', 'o', 'm']

def mountInit : MountRun Unit := MountRun.init [some romOps, none] 4 4 (fun _ => 0) ['/']

theorem mount_table_dev : ∃ s, run MountRun.step mountInit
    [mountAs .eok none ['/'], mountAs .eok (some ['s', 'd']) ['/', '/', 'd', 'e', 'v'],
      mountAs .failed (some ['s', 'd']) ['/', 'a'], .unmount true (.ok 0) ['d', 'e', 'v', '/', '.']] = some s ∧
    s.dfs.filesystemTable.map (Option.map (·.path)) = [some ['/'], none, none, none] ∧ s.freed = [1] ∧
    s.dfs.filesystemTable.Distinct := by
  refine exists_some_and_and (by decide +kernel) (fun s hs _ _ => ?_)
  exact (MountRun.mount_table (.of_run (.start rfl) (by decide +kernel) hs)).1

/-- The second spelling of a mount point is not recognised, and an open that answers `-RT_ENOSYS` stays counted. -/
theorem root_mounted_twice :
    (∃ s, run MountRun.step mountInit [mountAs .eok none ['/'], mountAs .eok none ['/', '/']] = some s ∧
      s.dfs.filesystemTable.map (Option.map (·.path)) = [some ['/'], some ['/'], none, none] ∧
      ¬ s.dfs.filesystemTable.Distinct) ∧
    ∃ dfs, mountInit.dfs.dfsMount ⟨fun _ => some (), true, ⟨true, true, agrees⟩, .ok 0, .enosys, .ok 0⟩
        (some ['s', 'd']) ['/'] ['r', 'o', 'm'] = some (dfs, .error .minusOne) ∧
      mountInit.dfs.openCount () = 0 ∧ dfs.openCount () = 1 := by
  refine ⟨?_, _, rfl, rfl, rfl⟩
  refine exists_some_imp (P := fun s => s.dfs.filesystemTable =
    [some ⟨none, ['/'], romOps, 0⟩, some ⟨none, ['/'], romOps, 1⟩, none, none])
    (by decide +kernel) (fun s _ htable => ⟨by rw [htable]; rfl, fun hsame => ?_⟩)
  rw [htable] at hsame
  exact absurd (hsame 0 1 _ _ rfl rfl rfl) (by decide)

end RtThread
