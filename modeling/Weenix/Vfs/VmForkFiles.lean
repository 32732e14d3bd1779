import Weenix.Lib.Runs
import Weenix.Vfs.VmOpenFiles
/-!
# Files over fork and exit in vm-submit

After any calls of any processes the count of a file is the number of slots that
point to it. A fork whose child exits leaves the counts of the files as they were,
and leaves one reference to the working directory, which both `proc_create` and
`do_fork` have taken for the child.
-/

namespace Weenix.Files.VmSubmit
open Lib Vfs

variable {σ : Type} {N : Nat} {L : Limits} {F : Io σ} {O : FileCalls σ} {root p : Nat} {held : List Nat} {s s' : System σ}
  {r : Except Errno Int}

/-! ## Fork -/

/-- What the loop of `do_fork` leaves alone; of the child only the descriptors change. -/
structure Copied (newproc : Nat) (s s' : System σ) : Prop where
  vfs : s'.vfs = s.vfs
  nprocs : s'.nprocs = s.nprocs
  initproc : s'.initproc = s.initproc
  others : ∀ q, q ≠ newproc → s'.procs q = s.procs q
  child : ∀ pr, s.procs newproc = some pr → ∃ pr', s'.procs newproc = some pr' ∧ pr'.p_pid = pr.p_pid ∧ pr'.p_cwd = pr.p_cwd

theorem Copied.trans {newproc : Nat} {s₁ : System σ} (h : Copied newproc s s₁) (h' : Copied newproc s₁ s') :
    Copied newproc s s' := by
  refine ⟨h'.vfs.trans h.vfs, h'.nprocs.trans h.nprocs, h'.initproc.trans h.initproc,
    fun q hq => (h'.others q hq).trans (h.others q hq), fun pr hpr => ?_⟩
  obtain ⟨pr₁, hpr₁, e1, e2⟩ := h.child pr hpr
  obtain ⟨pr₂, hpr₂, e3, e4⟩ := h'.child pr₁ hpr₁
  exact ⟨pr₂, hpr₂, e3.trans e1, e4.trans e2⟩

theorem Copied.setSlot (newproc fd : Nat) (x : Option Nat) : Copied newproc s (s.setSlot newproc fd x) := by
  refine ⟨rfl, rfl, rfl, fun q hq => Function.update_of_ne hq _ _, fun pr hpr => ?_⟩
  simp [System.setSlot, System.setProc, hpr]

theorem Copied.addRef (newproc f : Nat) : Copied newproc s (s.addRef f) :=
  ⟨rfl, rfl, rfl, fun _ _ => rfl, fun pr hpr => ⟨pr, hpr, rfl, rfl⟩⟩

/-- One round of the loop: the new slot has a reference of its own. -/
theorem copyFiles_cons (hO : Lawful O) (p newproc fd : Nat) (fds : List Nat) : copyFiles O s p newproc (fd :: fds) =
    match s.slot p fd with
    | none => copyFiles O (s.setSlot newproc fd none) p newproc fds
    | some f => copyFiles O ((s.addRef f).setSlot newproc fd (some f)) p newproc fds := by
  rw [copyFiles]
  cases hs : s.slot p fd with
  | none => rfl
  | some f =>
    dsimp only
    rw [hO.fref]
    rfl

/-- Slots that were empty are filled. -/
theorem copyFiles_keeps (hO : Lawful O) (p newproc : Nat) {fds : List Nat} (h : Accounted N held s)
    (hp : (s.procs newproc).isSome) (hn : fds.Nodup) (hs : ∀ fd ∈ fds, fd < N ∧ s.slot newproc fd = none) :
    Accounted N held (copyFiles O s p newproc fds) ∧ Copied newproc s (copyFiles O s p newproc fds) := by
  induction fds generalizing s with
  | nil => exact ⟨h, rfl, rfl, rfl, fun _ _ => rfl, fun pr hpr => ⟨pr, hpr, rfl, rfl⟩⟩
  | cons fd fds ih =>
    obtain ⟨hnd, hn⟩ := List.nodup_cons.1 hn
    obtain ⟨hlt, hempty⟩ := hs fd List.mem_cons_self
    -- the rest of the loop, after the slot has been set
    have hrest {s₁ : System σ} {x : Option Nat} (h1 : Accounted N held (s₁.setSlot newproc fd x)) (hc : Copied newproc s s₁)
        (hprocs : s₁.procs = s.procs) : Accounted N held (copyFiles O (s₁.setSlot newproc fd x) p newproc fds) ∧
          Copied newproc s (copyFiles O (s₁.setSlot newproc fd x) p newproc fds) := by
      have hsome : ((s₁.setSlot newproc fd x).procs newproc).isSome := by
        simp [System.setSlot, System.setProc, hprocs, hp]
      obtain ⟨h2, h3⟩ := ih h1 hsome hn fun fd' hfd' => by
        obtain ⟨hlt', he'⟩ := hs fd' (List.mem_cons_of_mem _ hfd')
        have hne : fd ≠ fd' := by
          rintro rfl
          exact hnd hfd'
        exact ⟨hlt', by rw [System.slot_setSlot_ne _ _ hne, Accounted.procs_slot hprocs]; exact he'⟩
      exact ⟨h2, (hc.trans (Copied.setSlot newproc fd x)).trans h3⟩
    rw [copyFiles_cons hO]
    cases hslot : s.slot p fd with
    | none => exact hrest (h.empty hempty) ⟨rfl, rfl, rfl, fun _ _ => rfl, fun pr hpr => ⟨pr, hpr, rfl, rfl⟩⟩ rfl
    | some f => exact hrest ((h.addRef hslot).fill hp hlt hempty) (Copied.addRef newproc f) rfl

/-- A state with one more process. -/
def withProc (s : System σ) (vfs : State σ) (pid : Int) (pr : Fproc) : System σ :=
  { s with vfs := vfs, nprocs := s.nprocs + 1, initproc := s.initproc || pid == PID_INIT }.setProc s.nprocs (some pr)

section
variable {vfs : State σ} {pid : Int} {pr : Fproc}

@[simp] theorem withProc_self : (withProc s vfs pid pr).procs s.nprocs = some pr := Function.update_self _ _ _

theorem withProc_ne {q : Nat} (h : q ≠ s.nprocs) : (withProc s vfs pid pr).procs q = s.procs q := Function.update_of_ne h _ _

theorem withProc_slot (h : pr.p_files = List.replicate N none) (fd : Nat) : (withProc s vfs pid pr).slot s.nprocs fd = none := by
  simp only [System.slot, withProc_self, Option.bind_some, h, List.getElem?_replicate]
  split <;> rfl

end

/-- What `proc_create` does: the new process has no open file. -/
theorem proc_create_cases {pid : Int} {curproc : Fproc} (hp : s.procs p = some curproc) (hc : proc_create N root s p pid = some s') :
    ∃ vfs pr, s' = withProc s vfs pid pr ∧
      pr.p_files = List.replicate N none ∧ pr.p_pid = pid ∧
      vfs = (if pid ≠ 0 ∧ curproc.p_pid ≠ 0 then s.vfs.vget curproc.p_cwd else s.vfs) := by
  simp only [proc_create, hp, bind, Option.bind_some, Option.bind_eq_some_iff] at hc
  obtain ⟨-, -, -, -, hc⟩ := hc
  split at hc
  next h =>
    obtain ⟨-, -, hc⟩ := Option.bind_eq_some_iff.1 hc
    cases hc
    exact ⟨_, _, rfl, rfl, rfl, (if_pos h).symm⟩
  next h =>
    cases hc
    exact ⟨_, _, rfl, rfl, rfl, (if_neg h).symm⟩

/-- What a child has open, the process that forks has open. -/
theorem copyFiles_slot (hO : Lawful O) {newproc fd f : Nat} (hne : p ≠ newproc) (fds : List Nat)
    (h : (copyFiles O s p newproc fds).slot newproc fd = some f) : s.slot newproc fd = some f ∨ s.slot p fd = some f := by
  induction fds generalizing s with
  | nil => exact .inl h
  | cons fd' fds ih =>
    -- the loop goes on after slot `fd'` has been set
    have hstep (s₁ : System σ) (hprocs : s₁.procs = s.procs)
        (h : (copyFiles O (s₁.setSlot newproc fd' (s.slot p fd')) p newproc fds).slot newproc fd = some f) :
        s.slot newproc fd = some f ∨ s.slot p fd = some f := by
      rcases ih h with h | h
      · by_cases e : fd' = fd
        · subst e
          exact .inr (System.slot_setSlot_some h)
        · rw [System.slot_setSlot_ne _ _ e, Accounted.procs_slot hprocs] at h
          exact .inl h
      · rw [System.slot_setSlot_other _ _ hne, Accounted.procs_slot hprocs] at h
        exact .inr h
    rw [copyFiles_cons hO] at h
    split at h
    next hs => exact hstep s rfl (hs ▸ h)
    next f' hs => exact hstep (s.addRef f') rfl (hs ▸ h)

theorem proc_create_total {pid : Int} {curproc : Fproc} (hp : s.procs p = some curproc) (hcwd : 0 < s.vfs.refs curproc.p_cwd)
    (hpid : 0 < pid) (hone : pid = PID_INIT → curproc.p_pid = PID_IDLE) : ∃ s', proc_create N root s p pid = some s' := by
  have h1 : PID_IDLE ≠ pid := Int.ne_of_lt hpid
  have h2 : PID_INIT ≠ pid ∨ PID_IDLE = curproc.p_pid := by
    by_cases e : PID_INIT = pid
    · exact .inr (hone e.symm).symm
    · exact .inl e
  simp only [proc_create, hp, KASSERT, if_pos h1, if_pos h2, if_pos hcwd, bind, Option.bind_some]
  split
  · exact ⟨_, rfl⟩
  · exact ⟨_, rfl⟩

/-- What `do_fork` leaves: the child has taken references, to files for its slots and to the working directory. -/
structure Forked (N : Nat) (held : List Nat) (s : System σ) (curproc : Fproc) (p : Nat) (pid : Int) (s' : System σ) : Prop where
  accounted : Accounted N held s'
  nprocs : s'.nprocs = s.nprocs + 1
  initproc : s'.initproc = (s.initproc || pid == PID_INIT)
  others : ∀ q, q ≠ s.nprocs → s'.procs q = s.procs q
  child : ∃ child, s'.procs s.nprocs = some child ∧ child.p_pid = pid ∧ child.p_cwd = curproc.p_cwd
  slots : ∀ fd f, s'.slot s.nprocs fd = some f → s.slot p fd = some f
  vfs : s'.vfs = (if pid ≠ 0 ∧ curproc.p_pid ≠ 0 then s.vfs.vget curproc.p_cwd else s.vfs).vget curproc.p_cwd

/-- Once the process is created, the fork succeeds. -/
theorem do_fork_created (hO : Lawful O) (h : Accounted N held s) {pid : Int} {curproc : Fproc} (hp : s.procs p = some curproc)
    {s₁ : System σ} (hc : proc_create N root s p pid = some s₁) :
    ∃ s', do_fork N O root s p pid = some (s', .ok pid) ∧ Forked N held s curproc p pid s' := by
  have hne : p ≠ s.nprocs := ne_of_lt (h.rows p curproc hp).1
  simp only [do_fork, hc, bind, Option.bind_some]
  obtain ⟨vfs, pr, rfl, hfiles, hpid, hvfs⟩ := proc_create_cases hp hc
  have h1 : Accounted N held (withProc s vfs pid pr) := h.spawn hfiles
  obtain ⟨h2, hcopy⟩ := copyFiles_keeps hO p s.nprocs h1 (by simp) List.nodup_range fun fd hfd =>
    ⟨List.mem_range.1 hfd, withProc_slot hfiles fd⟩
  -- the process that forks is not the new one
  have hcur := (hcopy.others p hne).trans ((withProc_ne hne).trans hp)
  obtain ⟨child, hchild, hpid', -⟩ := hcopy.child pr (by simp)
  rw [hcur, hchild]
  refine ⟨_, rfl, h2.setProc hchild rfl, hcopy.nprocs, hcopy.initproc, fun q hq => ?_,
    ⟨_, Function.update_self _ _ _, hpid'.trans hpid, rfl⟩, fun fd f hs => ?_, ?_⟩
  · exact (System.setProc_ne _ _ hq).trans ((hcopy.others q hq).trans (withProc_ne hq))
  · have hs' : (copyFiles O (withProc s vfs pid pr) p s.nprocs (List.range N)).slot s.nprocs fd = some f := by
      simp only [System.slot, hchild, Option.bind_some]
      simpa [System.slot, System.setProc] using hs
    rcases copyFiles_slot hO hne _ hs' with hs | hs
    · rw [withProc_slot hfiles] at hs
      cases hs
    · rw [System.slot, withProc_ne hne] at hs
      exact hs
  · rw [← hvfs]
    exact congrArg (State.vget · curproc.p_cwd) hcopy.vfs

theorem do_fork_forked (hO : Lawful O) (h : Accounted N held s) {pid : Int} {curproc : Fproc} (hp : s.procs p = some curproc)
    (hc : do_fork N O root s p pid = some (s', r)) : Forked N held s curproc p pid s' ∧ r = .ok pid := by
  obtain ⟨s₁, hcreate, -⟩ := Option.bind_eq_some_iff.1 hc
  obtain ⟨s₂, hfork, hs⟩ := do_fork_created hO h hp hcreate
  cases hc.symm.trans hfork
  exact ⟨hs, rfl⟩

/-! ## Exit -/

/-- The loop of `proc_cleanup` puts the references of the slots; files that other processes have open stay. -/
theorem putFiles_counted (hO : Lawful O) {procs : Nat → Option Fproc} {n : Nat} {fds : List Nat}
    (h : Counted N (fds.filterMap (s.slot p) ++ held) procs n s.files) :
    ∃ s', putFiles O s p fds = some s' ∧ Counted N held procs n s'.files ∧ s'.procs = s.procs ∧ s'.nprocs = s.nprocs ∧
      s'.initproc = s.initproc ∧ ((∀ f ∈ fds.filterMap (s.slot p), 0 < slots procs n f) → s'.vfs = s.vfs) := by
  induction fds generalizing s with
  | nil => exact ⟨s, rfl, h, rfl, rfl, rfl, fun _ => rfl⟩
  | cons fd fds ih =>
    unfold putFiles
    cases hs : s.slot p fd with
    | none =>
      rw [List.filterMap_cons_none hs] at h ⊢
      exact ih h
    | some f =>
      rw [List.filterMap_cons_some hs] at h ⊢
      obtain ⟨file, hf, hpos⟩ := h.exists_file
      obtain ⟨vfs, hput, hvfs⟩ := hO.fput s f file hf hpos
      have h1 := h.drop hf
      obtain ⟨s', h2, h3, h4, h5, h6, h7⟩ := ih (s := { s.setFile f file.put with vfs := vfs }) h1
      refine ⟨s', by simp only [hput, bind, Option.bind_some, h2], h3, h4, h5, h6, fun hall => ?_⟩
      -- another slot keeps the file
      have hc := h.counts f
      rw [refcount, hf, Option.map_some, Option.getD_some, List.cons_append, List.count_cons_self] at hc
      have := hall f List.mem_cons_self
      rw [h7 fun u hu => hall u (List.mem_cons_of_mem f hu)]
      exact hvfs (by omega)

/-- The slots of a process are those of its table. -/
theorem slots_row {pr : Fproc} (hp : s.procs p = some pr) (hlen : pr.p_files.length = N) :
    (List.range N).filterMap (s.slot p) = pr.p_files.filterMap id := by
  have h : pr.p_files = (List.range N).map (s.slot p) := by
    apply List.ext_getElem
    · simp [hlen]
    · intro fd h1 h2
      simp [System.slot, hp, List.getElem?_eq_getElem h1]
  rw [h, List.filterMap_map]
  rfl

/-- An exit puts what the process has open. -/
theorem proc_cleanup_keeps (hO : Lawful O) (h : Accounted N held s) {curproc : Fproc} (hp : s.procs p = some curproc)
    (hc : proc_cleanup N O s p = some s') : Accounted N held s' := by
  simp only [proc_cleanup, hp, bind, Option.bind_some, Option.bind_eq_some_iff] at hc
  obtain ⟨-, -, -, -, s₁, hputs, vfs, hput, hc⟩ := hc
  cases hc
  have h1 := h.remove hp
  rw [← slots_row hp (h.rows p curproc hp).2] at h1
  obtain ⟨s₂, e, h2, hprocs, hn, -⟩ := putFiles_counted hO h1
  cases hputs.symm.trans e
  rw [← hprocs, ← hn] at h2
  exact h2

/-- A process whose files are open elsewhere puts no vnode but its working directory. -/
theorem proc_cleanup_shared (hO : Lawful O) (h : Accounted N held s) {curproc : Fproc} (hp : s.procs p = some curproc)
    (hinit : s.initproc = true) (hpid : 0 < curproc.p_pid)
    (hshared : ∀ fd f, s.slot p fd = some f → 0 < slots (Function.update s.procs p none) s.nprocs f) {vfs : State σ}
    (hput : s.vfs.vput curproc.p_cwd = some vfs) :
    ∃ s', proc_cleanup N O s p = some s' ∧ s'.procs = Function.update s.procs p none ∧ s'.nprocs = s.nprocs ∧
      s'.vfs = vfs := by
  have h1 := h.remove hp
  rw [← slots_row hp (h.rows p curproc hp).2] at h1
  obtain ⟨s₁, hputs, -, hprocs, hn, -, hvfs⟩ := putFiles_counted hO h1
  have hvfs : s₁.vfs = s.vfs := hvfs fun f hf => by
    obtain ⟨fd, -, hs⟩ := List.mem_filterMap.1 hf
    exact hshared fd f hs
  simp only [proc_cleanup, hp, hinit, KASSERT, hpid, if_true, bind, Option.bind_some, hputs, hvfs, hput]
  exact ⟨_, rfl, by rw [← hprocs]; rfl, hn, rfl⟩

/-! ## Fork and exit -/

/-- `do_fork`, and then the exit of the child, which has done nothing else. Its
parent disposes of what is left without putting anything. -/
def forkExit (N : Nat) (O : FileCalls σ) (root : Nat) (s : System σ) (p : Nat) (pid : Int) : Option (System σ) := do
  let (s', _) ← do_fork N O root s p pid
  proc_cleanup N O s' s.nprocs

/-- The counts of the working directory and of all files are as they were. -/
def Balanced (s s' : System σ) (cwd : Nat) : Prop :=
  s'.vfs.refs cwd = s.vfs.refs cwd ∧ ∀ f, refcount s'.files f = refcount s.files f

/-- A slot counts. -/
theorem slots_pos (h : Accounted N held s) {fd f : Nat} (hs : s.slot p fd = some f) : 0 < slots s.procs s.nprocs f := by
  obtain ⟨pr, hp, hx⟩ := Accounted.slot_some hs
  refine Tally.pos (h.rows p pr hp).1 ?_ (beq_self_eq_true (some f))
  simp only [row, hp, Option.map_some, Option.getD_some]
  exact List.mem_of_getElem? hx

/-- What is left of a fork: the files as they were, and the reference that `proc_create` has taken. -/
theorem forkExit_leaves (root : Nat) (hO : Lawful O) (h : Accounted N held s) {pid : Int} {curproc : Fproc} (hp : s.procs p = some curproc)
    (hcwd : 0 < s.vfs.refs curproc.p_cwd) (hinit : s.initproc = true ∨ pid = PID_INIT) (hpid : 0 < pid)
    (hone : pid = PID_INIT → curproc.p_pid = PID_IDLE) :
    ∃ s', forkExit N O root s p pid = some s' ∧ (∀ f, refcount s'.files f = refcount s.files f) ∧
      s'.vfs = if curproc.p_pid = PID_IDLE then s.vfs else s.vfs.vget curproc.p_cwd := by
  obtain ⟨s₁, hcreate⟩ : ∃ s₁, proc_create N root s p pid = some s₁ := proc_create_total hp hcwd hpid hone
  obtain ⟨s₂, hfork, hs⟩ := do_fork_created hO h hp hcreate
  obtain ⟨child, hchild, rfl, hccwd⟩ := hs.child
  have hnone : s.procs s.nprocs = none := by
    by_contra hne
    obtain ⟨pr, hpr⟩ := Option.ne_none_iff_exists'.1 hne
    exact Nat.lt_irrefl _ (h.rows _ pr hpr).1
  -- without the child the processes are those before the fork
  have hprocs : Function.update s₂.procs s.nprocs none = s.procs := by
    funext q
    by_cases e : q = s.nprocs
    · rw [e, Function.update_self, hnone]
    · rw [Function.update_of_ne e, hs.others q e]
  have hslots (f : Nat) : slots s.procs s₂.nprocs f = slots s.procs s.nprocs f := by
    rw [hs.nprocs, slots, tally, row, hnone]
    rfl
  have hinit₂ : s₂.initproc = true := by
    rw [hs.initproc]
    rcases hinit with e | e <;> simp [e]
  obtain ⟨s', hexit, hprocs', hn, hvfs⟩ := proc_cleanup_shared hO hs.accounted hchild hinit₂ hpid (fun fd f hf => by
    rw [hprocs, hslots f]
    exact slots_pos h (hs.slots fd f hf)) (by rw [hs.vfs, hccwd]; exact State.vget_vput _ _)
  have h' := proc_cleanup_keeps hO hs.accounted hchild hexit
  refine ⟨s', by simp [forkExit, hfork, hexit], fun f => ?_, ?_⟩
  · rw [h'.counts f, h.counts f, hprocs', hprocs, hn, hslots]
  · have hne : child.p_pid ≠ 0 := Int.ne_of_gt hpid
    rw [hvfs, PID_IDLE]
    by_cases e : curproc.p_pid = 0
    · simp [e]
    · simp [e, hne]

/-- A process in the root directory forks; after the exit of its child there is one more reference to the directory. -/
theorem fork_leaks_cwd : ∃ s', forkExit 4 slab 0 (oneProc 1) 0 2 = some s' ∧ (oneProc 1).vfs.refs 0 = 1 ∧ s'.vfs.refs 0 = 2 ∧
    ¬ ∃ s', forkExit 4 slab 0 (oneProc 1) 0 2 = some s' ∧ Balanced (oneProc 1) s' 0 := by
  have h : (forkExit 4 slab 0 (oneProc 1) 0 2).map (fun s' => s'.vfs.refs 0) = some 2 := by decide +kernel
  obtain ⟨s', hf, h2⟩ := Option.map_eq_some_iff.1 h
  refine ⟨s', hf, rfl, h2, ?_⟩
  rintro ⟨s'', hf', hbal, -⟩
  cases hf.symm.trans hf'
  rw [h2] at hbal
  cases hbal

/-- The fork and the exit balance exactly when the idle process has forked. -/
theorem fork_exit_balanced (hO : Lawful O) (h : Accounted N held s) {pid : Int} {curproc : Fproc} (hp : s.procs p = some curproc)
    (hcwd : 0 < s.vfs.refs curproc.p_cwd) (hinit : s.initproc = true ∨ pid = PID_INIT) (hpid : 0 < pid)
    (hone : pid = PID_INIT → curproc.p_pid = PID_IDLE) :
    (∃ s', forkExit N O root s p pid = some s' ∧ Balanced s s' curproc.p_cwd) ↔ curproc.p_pid = PID_IDLE := by
  obtain ⟨s', hf, hfiles, hvfs⟩ := forkExit_leaves root hO h hp hcwd hinit hpid hone
  constructor
  · rintro ⟨s'', hf', hbal, -⟩
    cases hf.symm.trans hf'
    by_contra hne
    rw [hvfs, if_neg hne, vget_refs, oneRef_self] at hbal
    omega
  · intro he
    refine ⟨s', hf, ?_, hfiles⟩
    rw [hvfs, if_pos he]

/-- The idle process forks the init process. -/
theorem idle_fork_balanced : ∃ s', forkExit 4 slab 0 (oneProc 0) 0 1 = some s' ∧ Balanced (oneProc 0) s' 0 := by
  have h : Accounted 4 [] (oneProc 0) := (oneProc_noFiles 0).accounted
  have hp : (oneProc 0).procs 0 = some { p_pid := 0, p_files := List.replicate 4 none, p_cwd := 0 } := rfl
  exact (fork_exit_balanced slab_lawful h hp (by decide) (.inr rfl) (by decide) fun _ => rfl).2 rfl

/-! ## Sequences of calls -/

inductive FileCall
  | do_open (filename : Name) (oflags : OFlags)
  | do_close (fd : Int)
  | do_dup (fd : Int)
  | do_dup2 (ofd nfd : Int)
  | do_read (fd : Int) (nbytes : Nat)
  | do_write (fd : Int) (nbytes : Nat)
  | do_getdent (fd : Int)
  | do_lseek (fd offset whence : Int)
  | do_fork (pid : Int)
  | exit

section
variable (N : Nat) (L : Limits) (F : Io σ) (O : FileCalls σ) (root : Nat)

def FileCall.run (s : System σ) (p : Nat) : FileCall → Option (System σ × Except Errno Int)
  | do_open filename oflags => VmSubmit.do_open N L F O root s p filename oflags
  | do_close fd => VmSubmit.do_close N O s p fd
  | do_dup fd => VmSubmit.do_dup N O s p fd
  | do_dup2 ofd nfd => VmSubmit.do_dup2 N O s p ofd nfd
  | do_read fd nbytes => VmSubmit.do_read N F O s p fd nbytes
  | do_write fd nbytes => VmSubmit.do_write N F O s p fd nbytes
  | do_getdent fd => VmSubmit.do_getdent N F O s p fd
  | do_lseek fd offset whence => VmSubmit.do_lseek N F s p fd offset whence
  | do_fork pid => VmSubmit.do_fork N O root s p pid
  | exit => (proc_cleanup N O s p).map fun s => (s, .ok 0)

/-- A call of a process that is there. -/
def step (s : System σ) : Nat × FileCall → Option (System σ × Except Errno Int)
  | (p, c) => if (s.procs p).isSome then c.run N L F O root s p else none

/-- Every `do_open` succeeds; the other calls may fail. -/
def Opens (s : System σ) (e : Nat × FileCall) : Prop :=
  ∀ filename oflags, e.2 = .do_open filename oflags → ∀ s' err, step N L F O root s e ≠ some (s', .error err)

end

/-- When both access modes are asked for, nothing is opened. -/
theorem do_open_flags {filename : Name} {oflags : OFlags} (hf : (oflags.rdwr && oflags.wronly) = true)
    (hc : do_open N L F O root s p filename oflags = some (s', r)) : ∃ err, r = .error err := by
  simp only [do_open, if_pos hf] at hc
  split at hc
  next => cases hc; exact ⟨_, rfl⟩
  next =>
    split at hc
    next => cases hc; exact ⟨_, rfl⟩
    next => cases hc; exact ⟨_, rfl⟩

theorem step_keeps (hO : Lawful O) (h : Accounted N [] s) {e : Nat × FileCall} (hok : Opens N L F O root s e)
    (hst : step N L F O root s e = some (s', r)) : Accounted N [] s' := by
  obtain ⟨p, c⟩ := e
  have hst' := hst
  simp only [step] at hst
  split at hst
  case isFalse => cases hst
  next hp =>
    cases c with
    | do_open filename oflags =>
      refine do_open_keeps hO h hp ?_ hst
      by_contra hf
      obtain ⟨err, rfl⟩ := do_open_flags (by simpa using hf) hst
      exact hok filename oflags rfl _ _ hst'
    | do_close fd => exact do_close_keeps hO h hst
    | do_dup fd => exact do_dup_keeps hO h hp hst
    | do_dup2 ofd nfd => exact do_dup2_keeps hO h hp hst
    | do_read fd nbytes => exact do_read_keeps hO h hst
    | do_write fd nbytes => exact do_write_keeps hO h hst
    | do_getdent fd => exact do_getdent_keeps hO h hst
    | do_lseek fd offset whence => exact do_lseek_keeps h hst
    | do_fork pid =>
      obtain ⟨pr, hpr⟩ := Option.isSome_iff_exists.1 hp
      exact (do_fork_forked hO h hpr hst).1.accounted
    | exit =>
      obtain ⟨pr, hpr⟩ := Option.isSome_iff_exists.1 hp
      obtain ⟨s₁, hc, he⟩ := Option.map_eq_some_iff.1 hst
      cases he
      exact proc_cleanup_keeps hO h hpr hc

/-- After any calls a file has one reference for each slot that points to it, and
it is there as long as there is such a slot. -/
theorem refcount_eq_slots (hO : Lawful O) {s₀ : System σ} (h0 : NoFiles N s₀) {tr : List ((Nat × FileCall) × Except Errno Int)}
    (h : Run (step N L F O root) (Opens N L F O root) s₀ s tr) :
    (∀ f file, s.files f = some file → file.f_refcount = slots s.procs s.nprocs f) ∧
    ∀ f, (s.files f).isSome ↔ 0 < slots s.procs s.nprocs f := by
  have hs : Accounted N [] s := h.inv (Accounted N []) h0.accounted fun s e s' w hs hok hst => step_keeps hO hs hok hst
  have hcount (f : Nat) : refcount s.files f = slots s.procs s.nprocs f := by simpa using hs.counts f
  refine ⟨fun f file hf => ?_, fun f => ?_⟩
  · rw [← hcount f, refcount, hf]
    rfl
  · rw [← hcount f]
    cases hf : s.files f with
    | none => simp [refcount, hf]
    | some file =>
      have := hs.live f file hf
      simp [refcount, hf, this]

/-- `/d/a` is opened and the descriptor doubled; the child of a fork closes one of the two. -/
theorem three_slots : ∃ s : System (Nat → Name → Option Nat),
    (∃ file, s.files 0 = some file ∧ file.f_refcount = 3) ∧ slots s.procs s.nprocs 0 = 3 := by
  have h : (exec (step 4 stock flatIo slab 0) (fun s e => ((step 4 stock flatIo slab 0 s e).map fun x => x.2.toBool) == some true)
      (oneProc 1) [(0, .do_open "/d/a".toList {}), (0, .do_dup 0), (0, .do_fork 2), (1, .do_close 0)]).map
      (fun x => (x.1.files 0).map File.f_refcount) = some (some 3) := by
    decide +kernel
  obtain ⟨⟨s, tr⟩, hex, hs⟩ := Option.map_eq_some_iff.1 h
  obtain ⟨file, hf, h3⟩ := Option.map_eq_some_iff.1 hs
  have hrun : Run (step 4 stock flatIo slab 0) (Opens 4 stock flatIo slab 0) (oneProc 1) s tr := by
    refine Run.of_exec (fun s e hb => ?_) hex
    rintro - - - s' err he
    rw [he] at hb
    cases hb
  have hall := (refcount_eq_slots slab_lawful (oneProc_noFiles 1) hrun).1 0 file hf
  exact ⟨s, ⟨file, hf, h3⟩, hall.symm.trans h3⟩

end Weenix.Files.VmSubmit
