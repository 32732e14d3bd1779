import Weenix.Proc.Sched
/-!
# What an exit releases (`fs/vnode.c`, `vm/shadow.c`, `vm/anon.c`, `mm/pframe.c`)

A process that exits puts its files, its working directory and the objects of its
areas. When only an object's own resident pages still refer to it, `put` frees
them, and the thread sleeps at a page that is busy; others run meanwhile. So what
a thread has still to do is a list of tasks, which it takes one after the other.

A vnode and its memory object have the same number and the same `mmo_refcount`
and `mmo_nrespages`. Processes of vfs-submit have no areas.
-/

namespace Weenix.Proc

inductive MmobjKind
  | vnode
  | anon
  | shadow (mmo_shadowed : Nat)
  deriving DecidableEq

structure Store where
  kind : Nat → MmobjKind
  mmo_refcount : Nat → Nat
  mmo_nrespages : Nat → Nat
  mmo_respages : Nat → List Nat
  /-- `VN_BUSY` in `vn_flags`. -/
  vn_busy : Nat → Bool
  pf_busy : Nat → Bool
  pf_pincount : Nat → Nat
  f_refcount : Nat → Nat
  f_vnode : Nat → Nat
  p_cwd : Nat → Option Nat
  p_files : Nat → List (Option Nat)
  /-- The `vma_obj` of each area of a process. -/
  vma_objs : Nat → List Nat
  /-- `static uint32_t num` of `shadow_put`. -/
  num : Nat
  /-- `static uint32_t temp_c` of `anon_put`. -/
  temp_c : Nat

/-- The functions of the kernel that are not in the source. They do not sleep.
`fput` says which vnode it puts, if any. -/
structure Fs where
  fput : Store → Nat → Store × Option Nat
  query_vnode : Store → Nat → Bool
  delete_vnode : Store → Nat → Store

def pf_waitq (pf : Nat) : Nat := 2 * pf

def vn_waitq (vn : Nat) : Nat := 2 * vn + 1

namespace Store

variable (w : Store)

def setRefcount (o n : Nat) : Store := { w with mmo_refcount := Function.update w.mmo_refcount o n }

def setPin (pf n : Nat) : Store := { w with pf_pincount := Function.update w.pf_pincount pf n }

def setBusy (vn : Nat) : Store := { w with vn_busy := Function.update w.vn_busy vn true }

def setNum (n : Nat) : Store := { w with num := n }

def setTempC (n : Nat) : Store := { w with temp_c := n }

/-- `p_files[fd]`. -/
def file (p fd : Nat) : Option Nat := ((w.p_files p)[fd]?).join

def clearFile (p fd : Nat) : Store :=
  { w with p_files := Function.update w.p_files p ((w.p_files p).set fd none) }

def clearAreas (p : Nat) : Store := { w with vma_objs := Function.update w.vma_objs p [] }

/-- `pframe_free`, up to the final `put`. -/
def freePage (o pf : Nat) : Store :=
  { w with
    mmo_respages := Function.update w.mmo_respages o ((w.mmo_respages o).erase pf)
    mmo_nrespages := Function.update w.mmo_nrespages o (w.mmo_nrespages o - 1) }

/-- What a `put` operation does with a page of its object before it waits for it. -/
def enter (o pf : Nat) : Store :=
  match w.kind o with
  | .vnode => w
  | .anon => (w.setPin pf (w.pf_pincount pf - 1)).setTempC (w.temp_c + 1)
  | .shadow _ => (w.setNum (w.num + 1)).setPin pf (w.pf_pincount pf - 1)

/-- And after it has waited, before it frees the page. -/
def waited (o : Nat) : Store :=
  match w.kind o with
  | .shadow _ => w.setNum (w.num - 1)
  | _ => w

/-- And when it has freed the page. -/
def leave (o : Nat) : Store :=
  match w.kind o with
  | .anon => w.setTempC (w.temp_c - 1)
  | _ => w

end Store

inductive Task
  /-- A turn of the loop of vm-submit's `proc_cleanup` over the files. -/
  | file (p fd : Nat)
  /-- A turn of vfs-submit's, with `do_close`. -/
  | close (p fd : Nat)
  | clear (p fd : Nat)
  | fput (f : Nat)
  | cwd (p : Nat)
  | vmmap_destroy (p : Nat)
  /-- The object's `put` operation, and the parts of it. -/
  | put (o : Nat)
  | pages (o : Nat)
  | page (o pf : Nat)
  | leave (o : Nat)
  | freed (o : Nat)
  | drop (vn : Nat)
  deriving DecidableEq

/-- What a task comes to: more tasks to do first, all threads of a queue woken up, or a busy page met. -/
inductive Turn
  | next (w : Store) (ts : List Task)
  | broadcast (n : Nat) (w : Store)
  | wait (pf : Nat)

variable (F : Fs)

/-- The start of the `put` operations. -/
def mmobj_put (w : Store) (o : Nat) : Option Turn :=
  match w.kind o with
  | .vnode => do
    KASSERT (w.mmo_nrespages o < w.mmo_refcount o)
    KASSERT (w.vn_busy o = false)
    if w.mmo_nrespages o = w.mmo_refcount o - 1 ∧ F.query_vnode w o = false then
      some (.next w [.pages o, .freed o, .drop o])
    else some (.next w [.drop o])
  | _ => do
    KASSERT (0 < w.mmo_refcount o)
    let w := w.setRefcount o (w.mmo_refcount o - 1)
    if w.mmo_nrespages o = w.mmo_refcount o then some (.next w [.pages o, .freed o]) else some (.next w [])

def Task.run (w : Store) : Task → Option Turn
  | .file p fd => some (.next w ((w.file p fd).map Task.fput).toList)
  | .close p fd =>
    match w.file p fd with
    | none => some (.next w [])
    | some f => some (.next w (if 0 < w.f_refcount f then [.fput f, .clear p fd] else []))
  | .clear p fd => some (.next (w.clearFile p fd) [])
  | .fput f => some (.next (F.fput w f).1 ((F.fput w f).2.map Task.put).toList)
  | .cwd p => (w.p_cwd p).map fun vn => .next w [.put vn]
  | .vmmap_destroy p => some (.next (w.clearAreas p) ((w.vma_objs p).map .put))
  | .put o => mmobj_put F w o
  | .pages o =>
    match w.mmo_respages o with
    | [] => some (.next w [])
    | pf :: _ => some (.next (w.enter o pf) [.page o pf, .leave o, .pages o])
  | .page o pf =>
    if w.pf_busy pf then some (.wait pf)
    else do
      KASSERT (w.pf_pincount pf = 0)
      some (.next ((w.waited o).freePage o pf) [.put o])
  | .leave o => some (.next (w.leave o) [])
  | .freed o =>
    match w.kind o with
    | .vnode => do
      KASSERT (w.mmo_nrespages o = 0)
      KASSERT (w.mmo_refcount o = 1)
      some (.next w [])
    | .anon => some (.next w [])
    | .shadow below => some (.next w (if w.num = 0 then [] else [.put below]))
  | .drop vn => do
    let w := w.setRefcount vn (w.mmo_refcount vn - 1)
    if 0 < w.mmo_refcount vn then some (.next w [])
    else do
      KASSERT (w.mmo_nrespages vn = 0)
      some (.broadcast (vn_waitq vn) (F.delete_vnode (w.setBusy vn) vn))

/-- Only at a busy page of an object that is given up does a task wait. -/
theorem Task.run_wait {F : Fs} {w : Store} {t : Task} {pf : Nat} :
    t.run F w = some (.wait pf) ↔ (∃ o, t = .page o pf) ∧ w.pf_busy pf = true := by
  constructor
  · intro h
    cases t with simp only [Task.run] at h
    | page o pf' =>
      split at h
      next hb =>
        cases h
        exact ⟨⟨o, rfl⟩, hb⟩
      next => simp [bind, Option.bind_eq_some_iff] at h
    | put o =>
      simp only [mmobj_put] at h
      split at h <;> simp only [bind, Option.bind_eq_some_iff] at h
      · obtain ⟨-, -, -, -, h⟩ := h
        split at h <;> cases h
      · obtain ⟨-, -, h⟩ := h
        split at h <;> cases h
    | close | pages => split at h <;> cases h
    | cwd p => simp at h
    | freed o =>
      split at h
      · simp [bind, Option.bind_eq_some_iff] at h
      · cases h
      · cases h
    | drop vn =>
      simp only [bind] at h
      split at h
      · cases h
      · simp [Option.bind_eq_some_iff] at h
    | _ => cases h
  · rintro ⟨⟨o, rfl⟩, hb⟩
    simp [Task.run, hb]

/-- What `proc_cleanup` of vm-submit releases, in this order. -/
def vmTasks (w : Store) (p : Nat) : List Task :=
  (List.range (w.p_files p).length).map (.file p) ++ [.cwd p, .vmmap_destroy p]

/-- What `proc_cleanup` of vfs-submit releases. -/
def vfsTasks (w : Store) (p : Nat) : List Task :=
  .cwd p :: (List.range (w.p_files p).length).map (.close p)

/-! ## A kernel with exits that release -/

/-- `todo` is what a thread that is exiting has still to release. -/
structure ExitState where
  k : Kernel
  w : Store
  todo : Nat → Option (List Task)

/-- What happens, for the events `ε` of the kernel without files and memory. -/
inductive ExitEvent (ε : Type)
  | proc (e : ε)
  /-- The rest of the kernel changes files and pages. -/
  | store (w : Store)
  /-- The exiting thread does its next task. -/
  | release
  /-- It has released everything. -/
  | finish

inductive ExitOutcome (ω : Type)
  | proc (w : ω)
  | done
  | slept (pf : Nat)
  | ended (c : Nat)
  deriving DecidableEq

namespace ExitState

def boot (w : Store) : ExitState := ⟨Kernel.boot, w, fun _ => none⟩

variable (s : ExitState)

def setTodo (t : Nat) (ts : Option (List Task)) : ExitState := { s with todo := Function.update s.todo t ts }

/-- What the current thread has still to release. -/
def pending : Option (Nat × List Task) := s.k.curthr.bind fun t => (s.todo t).map (t, ·)

/-- The busy page that the exiting thread has to wait for now. -/
def waitsFor : Option Nat :=
  match s.pending with
  | some (_, x :: _) =>
    match x.run F s.w with
    | some (.wait pf) => some pf
    | _ => none
  | _ => none

/-- The exiting thread `t` does the task `x`, and then `ts`; with the `sched_broadcast_on`
and the `sched_sleep_on` of the kernel. -/
def release {ω : Type} (sched_broadcast_on : Kernel → Queue → Option Kernel)
    (sched_sleep_on : Kernel → Nat → Queue → Resume → Option Kernel) (t : Nat) (x : Task) (ts : List Task) :
    Option (ExitState × ExitOutcome ω) := do
  match ← x.run F s.w with
  | .next w new => some ({ s with w := w }.setTodo t (some (new ++ ts)), .done)
  | .broadcast n w => do
    let k ← sched_broadcast_on s.k (.other n)
    some ({ s with k := k, w := w }.setTodo t (some ts), .done)
  | .wait pf => do
    let k ← sched_sleep_on s.k t (.other (pf_waitq pf)) .elsewhere
    some ({ s with k := k }, .slept pf)

end ExitState

/-! ## What a kernel step leaves alone -/

variable {k k' : Kernel} {u t : Nat} {q : Queue}

/-- Thread `u` is not touched. -/
structure Untouched (k k' : Kernel) (u : Nat) : Prop where
  thread : k'.threads u = k.threads u
  lists : ∀ q, u ∈ k'.tq_list q → u ∈ k.tq_list q
  cur : k'.curthr = k.curthr

theorem Untouched.trans {k₁ : Kernel} (h : Untouched k k₁ u) (h' : Untouched k₁ k' u) : Untouched k k' u :=
  ⟨h'.thread.trans h.thread, fun q hu => h.lists q (h'.lists q hu), h'.cur.trans h.cur⟩

theorem takeOff_untouched (h : takeOff k q t = some k') (hu : u ≠ t) : Untouched k k' u := by
  simp only [takeOff, bind, Option.bind_eq_some_iff, Option.some.injEq] at h
  obtain ⟨th, -, rfl⟩ := h
  refine ⟨by simp [Kernel.setThread, Kernel.setQueue, hu], fun q' hm => ?_, rfl⟩
  simp only [Kernel.setThread, Kernel.setQueue, Function.update_apply] at hm
  split at hm
  next e => exact e ▸ List.mem_of_mem_erase hm
  next => exact hm

theorem make_runnable_untouched (h : sched_make_runnable k t = some k') (hu : u ≠ t) : Untouched k k' u := by
  simp only [sched_make_runnable, ktqueue_enqueue, bind, Option.bind_eq_some_iff, Option.some.injEq] at h
  obtain ⟨th, -, -, -, th', -, -, -, rfl⟩ := h
  refine ⟨by simp [Kernel.setThread, Kernel.setQueue, hu], fun q' hm => ?_, rfl⟩
  simp only [Kernel.setThread, Kernel.setQueue, Function.update_apply] at hm
  split at hm
  next e => exact e ▸ (List.mem_cons.1 hm).resolve_left hu
  next => exact hm

theorem wakeup_untouched (h : sched_wakeup_on k q = some k') (hu : u ∉ k.tq_list q) : Untouched k k' u := by
  simp only [sched_wakeup_on, bind, Option.bind_eq_some_iff, Prod.exists] at h
  obtain ⟨k₁, r, h1, h2⟩ := h
  rcases dequeue_cases h1 with ⟨-, rfl, rfl⟩ | ⟨t, ht, rfl, ho⟩
  · cases h2
    exact ⟨rfl, fun _ hm => hm, rfl⟩
  · simp only [Option.bind_eq_some_iff] at h2
    obtain ⟨-, -, hr⟩ := h2
    have hne : u ≠ t := fun e => hu (e ▸ List.mem_of_getLast? ht)
    exact (takeOff_untouched ho hne).trans (make_runnable_untouched hr hne)

theorem broadcast_untouched {wake : Kernel → Option Kernel}
    (hw : ∀ {k k'}, wake k = some k' → u ∉ k.tq_list q → Untouched k k' u) {ts : List Nat} :
    ∀ {k k' : Kernel}, broadcast_from wake k ts = some k' → u ∉ k.tq_list q → Untouched k k' u := by
  induction ts with
  | nil => intro k k' h _; cases h; exact ⟨rfl, fun _ hm => hm, rfl⟩
  | cons _ ts ih =>
    intro k k' h hu
    simp only [broadcast_from, bind, Option.bind_eq_some_iff] at h
    obtain ⟨k₁, h1, h2⟩ := h
    exact (hw h1 hu).trans (ih h2 fun hm => hu ((hw h1 hu).lists q hm))

/-! ## Files for tests -/

/-- `fput` counts, and no vnode is linked in a file system. -/
def Fs.simple : Fs where
  fput w f :=
    ({ w with f_refcount := Function.update w.f_refcount f (w.f_refcount f - 1) },
      if w.f_refcount f = 1 then some (w.f_vnode f) else none)
  query_vnode _ _ := false
  delete_vnode w _ := w

/-- Vnode 0, which every process has as its working directory, has the resident page 5. -/
def oneDir (busy : Bool) : Store where
  kind _ := .vnode
  mmo_refcount _ := 2
  mmo_nrespages _ := 1
  mmo_respages _ := [5]
  vn_busy _ := false
  pf_busy _ := busy
  pf_pincount _ := 0
  f_refcount _ := 0
  f_vnode _ := 0
  p_cwd _ := some 0
  p_files _ := []
  vma_objs _ := []
  num := 0
  temp_c := 0

end Weenix.Proc
