import Weenix.Proc.Status
/-!
# The family of processes

What matters of the process table for the tree of processes: who is whose child,
according to the lists of children and to the parents. A step creates a child,
lets a process exit, takes a dead child away or does none of this.
-/

namespace Weenix.Proc

@[ext] structure Family where
  children : Nat → List Nat
  parent : Nat → Option Nat
  pid : Nat → Option Int
  state : Nat → Option ProcState
  listed : List Nat
  init : Option Nat
  next : Nat

def Kernel.family (k : Kernel) : Family where
  children p := ((k.procs p).map (·.p_children)).getD []
  parent p := (k.procs p).map (·.p_pproc)
  pid p := (k.procs p).map (·.p_pid)
  state p := (k.procs p).map (·.p_state)
  listed := k.proc_list
  init := k.proc_initproc
  next := k.nprocs

namespace Family

variable (f : Family)

/-- A new child of `cur`. -/
def create (cur : Nat) (pid : Int) : Family where
  children := Function.update (Function.update f.children f.next []) cur
    (Function.update f.children f.next [] cur ++ [f.next])
  parent := Function.update f.parent f.next (some cur)
  pid := Function.update f.pid f.next (some pid)
  state := Function.update f.state f.next (some .running)
  listed := f.listed ++ [f.next]
  init := if pid = PID_INIT then some f.next else f.init
  next := f.next + 1

/-- Child `c` of `par` becomes a child of `ini`, if there is such a process. -/
def move (par ini c : Nat) : Family :=
  { f with
    children := fun p => (if p = par then (f.children p).erase c else f.children p) ++
      if p = ini ∧ f.parent ini ≠ none then [c] else []
    parent := Function.update f.parent c (some ini) }

/-- Move the children `cs` of `par`, one after the other. -/
def moves (par ini : Nat) : Family → List Nat → Family
  | f, [] => f
  | f, c :: cs => moves par ini (f.move par ini c) cs

def die (p : Nat) : Family := { f with state := Function.update f.state p (some .dead) }

/-- Process `cur` takes its child `z` away. -/
def reap (cur z : Nat) : Family :=
  { f with
    children := fun p => if p = z then [] else if p = cur then (f.children p).erase z else f.children p
    parent := Function.update f.parent z none
    pid := Function.update f.pid z none
    state := Function.update f.state z none
    listed := f.listed.erase z }

/-- The child lists agree with the parents. -/
structure Linked : Prop where
  child : ∀ p c, c ∈ f.children p → f.parent c = some p
  once : ∀ p, (f.children p).Nodup
  fresh : ∀ p, f.parent p ≠ none → p < f.next
  absent : ∀ p, f.parent p = none → f.children p = []

/-- Process 0 is the idle process, and the init process is a child of it. -/
structure Rooted : Prop extends f.Linked where
  root : ∀ p, 0 ∉ f.children p
  self : ∀ p, p ∉ f.children p
  here : f.parent 0 ≠ none
  init_parent : ∀ i, f.init = some i → i ≠ 0 ∧ i < f.next ∧ ∀ p, f.parent i = some p → p = 0
  idle : ∀ p, f.pid p = some PID_IDLE ↔ p = 0
  listed_once : f.listed.Nodup
  mem_listed : ∀ p, p ∈ f.listed ↔ f.parent p ≠ none

/-- Every process but the idle one is in the list of its parent, which is not dead. -/
structure Ok : Prop extends f.Rooted where
  hung : ∀ c p, c ≠ 0 → f.parent c = some p → c ∈ f.children p ∧ f.state p ≠ some .dead

variable {f} {cur c z ini par : Nat} {pid : Int}

/-- The child is on no list when it has been taken off its parent's. -/
theorem Linked.not_mem_rest (h : f.Linked) (hc : f.parent c = some par) (p : Nat) :
    c ∉ if p = par then (f.children p).erase c else f.children p := by
  split
  next =>
    rw [(h.once p).mem_erase_iff]
    simp
  next hp =>
    intro hm
    have := h.child p c hm
    rw [hc] at this
    exact hp (Option.some.inj this).symm

theorem mem_move {p x : Nat} (hx : x ≠ c) : x ∈ (f.move par ini c).children p ↔ x ∈ f.children p := by
  have : x ∉ if p = ini ∧ f.parent ini ≠ none then [c] else [] := by
    split <;> simp [hx]
  simp only [move, List.mem_append, this, or_false]
  split
  · exact List.mem_erase_of_ne hx
  · rfl

theorem mem_move_self {p : Nat} (h : f.Linked) (hc : f.parent c = some par) :
    c ∈ (f.move par ini c).children p ↔ p = ini ∧ f.parent ini ≠ none := by
  simp only [move, List.mem_append, h.not_mem_rest hc, false_or]
  split <;> simp [*]

@[simp] theorem move_parent_self : (f.move par ini c).parent c = some ini := Function.update_self ..

theorem move_parent {p : Nat} (h : p ≠ c) : (f.move par ini c).parent p = f.parent p := Function.update_of_ne h ..

theorem Linked.move (h : f.Linked) (hc : f.parent c = some par) : (f.move par ini c).Linked := by
  refine ⟨fun p x hx => ?_, fun p => ?_, fun p hp => ?_, fun p hp => ?_⟩
  · by_cases e : x = c
    · subst e
      obtain ⟨rfl, -⟩ := (mem_move_self h hc).1 hx
      exact move_parent_self
    · rw [move_parent e]
      exact h.child p x ((mem_move e).1 hx)
  · refine List.nodup_append.2 ⟨?_, ?_, ?_⟩
    · split
      · exact (h.once p).erase c
      · exact h.once p
    · split <;> simp
    · intro a ha b hb e
      split at hb
      next =>
        rw [List.mem_singleton] at hb
        subst hb
        subst e
        exact h.not_mem_rest hc p ha
      next => cases hb
  · by_cases e : p = c
    · subst e
      exact h.fresh p (by rw [hc]; simp)
    · rw [move_parent e] at hp
      exact h.fresh p hp
  · have e : p ≠ c := by
      rintro rfl
      simp at hp
    rw [move_parent e] at hp
    have hni : ¬ (p = ini ∧ f.parent ini ≠ none) := by
      rintro ⟨rfl, hn⟩
      exact hn hp
    simp [Family.move, h.absent p hp, hni]

/-- A child goes to the init process. -/
theorem Rooted.move (h : f.Rooted) (hc : f.parent c = some par) (h0 : c ≠ 0) (hi : f.init = some ini) (hci : c ≠ ini) :
    (f.move par ini c).Rooted := by
  refine ⟨h.toLinked.move hc, fun p h0' => ?_, fun p hp => ?_, ?_, fun i hii => ?_, h.idle, h.listed_once, fun p => ?_⟩
  · exact h.root p ((mem_move (Ne.symm h0)).1 h0')
  · by_cases e : p = c
    · subst e
      exact hci ((mem_move_self h.toLinked hc).1 hp).1
    · exact h.self p ((mem_move e).1 hp)
  · rw [move_parent (Ne.symm h0)]
    exact h.here
  · cases hi.symm.trans hii
    obtain ⟨h1, h2, h3⟩ := h.init_parent ini hi
    refine ⟨h1, h2, fun p hpi => h3 p ?_⟩
    rwa [move_parent (Ne.symm hci)] at hpi
  · by_cases e : p = c
    · subst e
      rw [move_parent_self]
      exact (h.mem_listed p).trans (by simp [hc])
    · rw [move_parent e]
      exact h.mem_listed p

/-- What the loop over the children of an exiting process does. -/
theorem moves_linked {cs : List Nat} : ∀ {f : Family}, f.Linked → (∀ c ∈ cs, f.parent c = some par) → cs.Nodup →
    (moves par ini f cs).Linked := by
  induction cs with
  | nil => exact fun h _ _ => h
  | cons c cs ih =>
    intro f h hp hn
    obtain ⟨hc, hn⟩ := List.nodup_cons.1 hn
    refine ih (h.move (hp c (by simp))) (fun x hx => ?_) hn
    rw [move_parent (fun e : x = c => hc (e ▸ hx))]
    exact hp x (by simp [hx])

/-- Nothing else changes. -/
theorem moves_rest {cs : List Nat} : ∀ {f : Family}, (moves par ini f cs).state = f.state ∧
    (moves par ini f cs).pid = f.pid ∧ (moves par ini f cs).init = f.init ∧ (moves par ini f cs).next = f.next ∧
    (moves par ini f cs).listed = f.listed ∧ (∀ p, p ∉ cs → (moves par ini f cs).parent p = f.parent p) ∧
    ∀ p ∈ cs, (moves par ini f cs).parent p = some ini := by
  induction cs with
  | nil => exact fun {f} => ⟨rfl, rfl, rfl, rfl, rfl, fun _ _ => rfl, fun p hp => by cases hp⟩
  | cons c cs ih =>
    intro f
    obtain ⟨h1, h2, h3, h4, h5, h6, h7⟩ := ih (f := f.move par ini c)
    refine ⟨h1, h2, h3, h4, h5, fun p hp => ?_, fun p hp => ?_⟩
    · rw [List.mem_cons, not_or] at hp
      exact (h6 p hp.2).trans (move_parent hp.1)
    · by_cases hm : p ∈ cs
      · exact h7 p hm
      · obtain rfl := (List.mem_cons.1 hp).resolve_right hm
        exact (h6 p hm).trans move_parent_self

/-- The lists afterwards: the children have gone from `par` to `ini`. -/
theorem moves_children {cs : List Nat} : ∀ {f : Family} {p : Nat}, f.Linked → (∀ c ∈ cs, f.parent c = some par) →
    cs.Nodup → f.parent ini ≠ none → ini ∉ cs → ∀ x, x ∈ (moves par ini f cs).children p ↔
      (x ∉ cs ∧ x ∈ f.children p) ∨ (x ∈ cs ∧ p = ini) := by
  induction cs with
  | nil => intro f p _ _ _ _ _ x; simp [moves]
  | cons c cs ih =>
    intro f p h hp hn hi hni x
    obtain ⟨hc, hn⟩ := List.nodup_cons.1 hn
    rw [List.mem_cons, not_or] at hni
    have hpc := hp c (by simp)
    have hi' : (f.move par ini c).parent ini ≠ none := by rwa [move_parent hni.1]
    rw [moves, ih (h.move hpc) (fun y hy => ?_) hn hi' hni.2]
    · by_cases e : x = c
      · subst e
        rw [mem_move_self h hpc]
        simp [hc, hi]
      · rw [mem_move e]
        simp [e]
    · rw [move_parent (fun e : y = c => hc (e ▸ hy))]
      exact hp y (by simp [hy])

theorem Rooted.moves {cs : List Nat} : ∀ {f : Family}, f.Rooted → (∀ c ∈ cs, f.parent c = some par) → cs.Nodup →
    0 ∉ cs → f.init = some ini → ini ∉ cs → (moves par ini f cs).Rooted := by
  induction cs with
  | nil => exact fun h _ _ _ _ _ => h
  | cons c cs ih =>
    intro f h hp hn h0 hi hni
    obtain ⟨hc, hn⟩ := List.nodup_cons.1 hn
    rw [List.mem_cons, not_or] at h0 hni
    refine ih (h.move (hp c (by simp)) (Ne.symm h0.1) hi (Ne.symm hni.1)) (fun x hx => ?_) hn h0.2 hi hni.2
    rw [move_parent (fun e : x = c => hc (e ▸ hx))]
    exact hp x (by simp [hx])

theorem Linked.reap (h : f.Linked) (hz : z ∈ f.children cur) : (f.reap cur z).Linked := by
  have hpz := h.child cur z hz
  have hmem : ∀ p x, x ∈ (f.reap cur z).children p → x ≠ z ∧ x ∈ f.children p := fun p x hx => by
    simp only [Family.reap] at hx
    split at hx
    · cases hx
    split at hx
    · exact (h.once p).mem_erase_iff.1 hx
    next hp =>
      refine ⟨?_, hx⟩
      rintro rfl
      rw [h.child p x hx] at hpz
      exact hp (Option.some.inj hpz)
  refine ⟨fun p x hx => ?_, fun p => ?_, fun p hp => ?_, fun p hp => ?_⟩
  · obtain ⟨h1, h2⟩ := hmem p x hx
    simpa [Family.reap, h1] using h.child p x h2
  · simp only [Family.reap]
    split
    · exact .nil
    split
    · exact (h.once p).erase z
    · exact h.once p
  · by_cases e : p = z
    · simp [Family.reap, e] at hp
    · exact h.fresh p (by simpa [Family.reap, e] using hp)
  · by_cases e : p = z
    · simp [Family.reap, e]
    · have := h.absent p (by simpa [Family.reap, e] using hp)
      simp [Family.reap, this]

theorem mem_reap {p x : Nat} (hx : x ∈ (f.reap cur z).children p) : p ≠ z ∧ x ∈ f.children p := by
  simp only [Family.reap] at hx
  split at hx
  · cases hx
  next hp =>
    split at hx
    · exact ⟨hp, List.mem_of_mem_erase hx⟩
    · exact ⟨hp, hx⟩

theorem Rooted.reap (h : f.Rooted) (hz : z ∈ f.children cur) : (f.reap cur z).Rooted := by
  have hz0 : z ≠ 0 := fun e => h.root cur (e ▸ hz)
  refine ⟨h.toLinked.reap hz, fun p h0 => h.root p (mem_reap h0).2, fun p hp => h.self p (mem_reap hp).2,
    by simpa [Family.reap, Ne.symm hz0] using h.here, fun i hi => ?_, fun p => ?_, h.listed_once.erase z, fun p => ?_⟩
  · obtain ⟨h1, h2, h3⟩ := h.init_parent i hi
    refine ⟨h1, h2, fun p hp => h3 p ?_⟩
    by_cases e : i = z
    · simp [Family.reap, e] at hp
    · simpa [Family.reap, e] using hp
  · by_cases e : p = z
    · simp [Family.reap, e, hz0]
    · simpa [Family.reap, e] using h.idle p
  · by_cases e : p = z
    · subst e
      simp [Family.reap, h.listed_once.mem_erase_iff]
    · simpa [Family.reap, e, h.listed_once.mem_erase_iff] using h.mem_listed p

/-- The process taken away is dead, so it is nobody's parent. -/
theorem Ok.reap (h : f.Ok) (hz : z ∈ f.children cur) (hd : f.state z = some .dead) : (f.reap cur z).Ok := by
  refine ⟨h.toRooted.reap hz, fun x p hx hp => ?_⟩
  by_cases e : x = z
  · subst e
    simp [Family.reap] at hp
  have hp' : f.parent x = some p := by simpa [Family.reap, e] using hp
  obtain ⟨h1, h2⟩ := h.hung x p hx hp'
  have hpz : p ≠ z := by
    rintro rfl
    exact h2 hd
  refine ⟨?_, by simpa [Family.reap, hpz] using h2⟩
  simp only [Family.reap, if_neg hpz]
  split
  · exact (List.mem_erase_of_ne e).2 h1
  · exact h1

/-- A new process is nobody's child yet. -/
theorem Linked.new (h : f.Linked) (p : Nat) : f.parent f.next = none ∧ f.next ∉ f.children p := by
  have hn : f.parent f.next = none := by
    by_contra hn
    exact Nat.lt_irrefl _ (h.fresh _ hn)
  refine ⟨hn, fun hm => ?_⟩
  rw [h.child p _ hm] at hn
  cases hn

theorem mem_create {p x : Nat} (h : f.Linked) (hc : f.parent cur ≠ none) :
    x ∈ (f.create cur pid).children p ↔ x ∈ f.children p ∨ (x = f.next ∧ p = cur) := by
  have hn := (h.new 0).1
  have hne : cur ≠ f.next := fun e => hc (e ▸ hn)
  simp only [Family.create, Function.update_apply]
  by_cases e : p = cur
  · subst e
    simp [hne]
  · by_cases e' : p = f.next
    · simp [e', h.absent _ hn, Ne.symm hne]
    · simp [e, e']

theorem create_parent {p : Nat} (h : p ≠ f.next) : (f.create cur pid).parent p = f.parent p := Function.update_of_ne h ..

@[simp] theorem create_parent_next : (f.create cur pid).parent f.next = some cur := Function.update_self ..

theorem Linked.create (h : f.Linked) (hc : f.parent cur ≠ none) : (f.create cur pid).Linked := by
  have hne : cur ≠ f.next := fun e => hc (e ▸ (h.new 0).1)
  refine ⟨fun p x hx => ?_, fun p => ?_, fun p hp => ?_, fun p hp => ?_⟩
  · rcases (mem_create h hc).1 hx with hx | ⟨rfl, rfl⟩
    · have : x ≠ f.next := fun e => (h.new p).2 (e ▸ hx)
      rw [create_parent this]
      exact h.child p x hx
    · simp
  · simp only [Family.create, Function.update_apply]
    split
    next e =>
      subst e
      refine List.nodup_append.2 ⟨h.once p, by simp, fun a ha b hb e => (h.new p).2 ?_⟩
      rw [List.mem_singleton] at hb
      rwa [← hb, ← e]
    next =>
      split
      · exact .nil
      · exact h.once p
  · by_cases e : p = f.next
    · rw [e]
      exact Nat.lt_succ_self _
    · rw [create_parent e] at hp
      exact Nat.lt_succ_of_lt (h.fresh p hp)
  · have e : p ≠ f.next := by
      rintro rfl
      simp at hp
    rw [create_parent e] at hp
    have hpc : p ≠ cur := by
      rintro rfl
      exact hc hp
    simp [Family.create, hpc, e, h.absent p hp]

/-- The parent of the init process is the idle process. -/
theorem Rooted.create (h : f.Rooted) (hc : f.parent cur ≠ none) (hidle : PID_IDLE ≠ pid)
    (hinit : pid = PID_INIT → f.pid cur = some PID_IDLE) : (f.create cur pid).Rooted := by
  have hpos : 0 ≠ f.next := fun e => h.here (e ▸ (h.new 0).1)
  refine ⟨h.toLinked.create hc, fun p h0 => ?_, fun p hp => ?_, by rw [create_parent hpos]; exact h.here,
    fun i hi => ?_, fun p => ?_, ?_, fun p => ?_⟩
  · rcases (mem_create h.toLinked hc).1 h0 with h0 | ⟨h0, -⟩
    · exact h.root p h0
    · exact hpos h0
  · rcases (mem_create h.toLinked hc).1 hp with hp | ⟨e, e'⟩
    · exact h.self p hp
    · exact hc (e' ▸ e ▸ (h.new 0).1)
  · by_cases e : pid = PID_INIT
    · simp only [Family.create, if_pos e, Option.some.injEq] at hi
      subst hi
      refine ⟨Ne.symm hpos, Nat.lt_succ_self _, fun p hp => ?_⟩
      rw [create_parent_next] at hp
      cases hp
      exact (h.idle _).1 (hinit e)
    · simp only [Family.create, if_neg e] at hi
      obtain ⟨h1, h2, h3⟩ := h.init_parent i hi
      refine ⟨h1, Nat.lt_succ_of_lt h2, fun p hp => h3 p ?_⟩
      rwa [create_parent h2.ne] at hp
  · by_cases e : p = f.next
    · simp [Family.create, e, Ne.symm hidle, Ne.symm hpos]
    · simpa [Family.create, e] using h.idle p
  · exact List.nodup_append.2 ⟨h.listed_once, by simp, fun a ha' b hb e => by
      rw [List.mem_singleton] at hb
      subst hb
      subst e
      exact (h.mem_listed _).1 ha' (h.new 0).1⟩
  · simp only [Family.create, List.mem_append, List.mem_singleton, h.mem_listed]
    by_cases e : p = f.next
    · simp [e]
    · simp [e]

/-- The parent of a new process is not dead. -/
theorem Ok.create (h : f.Ok) (hc : f.parent cur ≠ none) (ha : f.state cur ≠ some .dead)
    (hidle : PID_IDLE ≠ pid) (hinit : pid = PID_INIT → f.pid cur = some PID_IDLE) : (f.create cur pid).Ok := by
  refine ⟨h.toRooted.create hc hidle hinit, fun x p hx hp => ?_⟩
  have hne : cur ≠ f.next := fun e => hc (e ▸ (h.new 0).1)
  by_cases e : x = f.next
  · subst e
    rw [create_parent_next] at hp
    cases hp
    exact ⟨(mem_create h.toLinked hc).2 (.inr ⟨rfl, rfl⟩), by simpa [Family.create, hne] using ha⟩
  · rw [create_parent e] at hp
    obtain ⟨h1, h2⟩ := h.hung x p hx hp
    refine ⟨(mem_create h.toLinked hc).2 (.inl h1), ?_⟩
    by_cases e' : p = f.next
    · simp [Family.create, e']
    · simpa [Family.create, e'] using h2

/-! ## Steps -/

variable (f)

/-- Process `cur` exits, and its children go to `ini`. -/
def exit (cur ini : Nat) : Family := (moves cur ini f (f.children cur)).die cur

/-- What a step does. -/
inductive Step : Change → Family → Prop
  | quiet : Step .quiet f
  | created {cur : Nat} {pid : Int} : f.parent cur ≠ none → f.state cur ≠ some .dead →
      (PID_IDLE ≠ pid ∨ f.listed = []) → (PID_INIT ≠ pid ∨ f.pid cur = some PID_IDLE) → Step .created (f.create cur pid)
  | ended {cur ini : Nat} {x : Int} : f.init = some ini → f.pid cur ≠ some PID_IDLE → f.pid cur ≠ none →
      Step (.ended cur x) (f.exit cur ini)
  | reaped {cur z : Nat} {x : Int} : z ∈ f.children cur → f.state z = some .dead → Step (.reaped z x) (f.reap cur z)

variable {f} {f' : Family} {ch : Change}

theorem Linked.exit (h : f.Linked) : (f.exit cur ini).Linked :=
  have : (moves cur ini f (f.children cur)).Linked := moves_linked h (fun c hc => h.child cur c hc) (h.once cur)
  ⟨this.child, this.once, this.fresh, this.absent⟩

theorem Linked.step (h : f.Linked) (hs : f.Step ch f') : f'.Linked := by
  cases hs with
  | quiet => exact h
  | created hc => exact h.create hc
  | ended => exact h.exit
  | reaped hz => exact h.reap hz

theorem mem_moves {cs : List Nat} {p x : Nat} (hp : p ≠ par) : ∀ {f : Family}, x ∈ f.children p →
    x ∈ (moves par ini f cs).children p := by
  induction cs with
  | nil => exact fun h => h
  | cons c cs ih =>
    intro f h
    refine ih ?_
    simp only [Family.move, if_neg hp]
    exact List.mem_append_left _ h

/-- Only the process that exits loses children. -/
theorem mem_exit {p x : Nat} (hp : p ≠ cur) (h : x ∈ f.children p) : x ∈ (f.exit cur ini).children p := mem_moves hp h

/-- When a process ends that has children, the init process is another one, and is not dead. -/
def Orderly (f : Family) : Change → Prop
  | .ended cur _ => f.children cur ≠ [] →
      ∃ ini, f.init = some ini ∧ ini ≠ cur ∧ f.parent ini ≠ none ∧ f.state ini ≠ some .dead
  | _ => True

/-- The children of a process that exits are children of the init process afterwards. -/
theorem exit_children (h : f.Linked) (hc : f.children cur ≠ [] → ini ≠ cur ∧ f.parent ini ≠ none) (hini : ini ∉ f.children cur)
    (x p : Nat) : x ∈ (f.exit cur ini).children p ↔
      (x ∉ f.children cur ∧ x ∈ f.children p) ∨ (x ∈ f.children cur ∧ p = ini) := by
  by_cases hnil : f.children cur = []
  · simp [Family.exit, hnil, Family.moves, Family.die]
  · exact moves_children h (fun c hc => h.child cur c hc) (h.once cur) (hc hnil).2 hini x

theorem Rooted.init_not_mem (h : f.Rooted) (hi : f.init = some ini) (hp : f.pid cur ≠ some PID_IDLE) :
    ini ∉ f.children cur :=
  fun hm => hp ((h.idle cur).2 ((h.init_parent ini hi).2.2 cur (h.child cur ini hm)))

theorem Rooted.exit (h : f.Rooted) (hi : f.init = some ini) (hp : f.pid cur ≠ some PID_IDLE) : (f.exit cur ini).Rooted :=
  have := h.moves (fun c hc => h.child cur c hc) (h.once cur) (h.root cur) hi (h.init_not_mem hi hp)
  { this with }

/-- A process keeps its parent, but the children of a process that exits get the init process. -/
theorem exit_parent (p : Nat) : (f.exit cur ini).parent p = if p ∈ f.children cur then some ini else f.parent p := by
  change (moves cur ini f (f.children cur)).parent p = _
  obtain ⟨-, -, -, -, -, h1, h2⟩ := @moves_rest ini cur (f.children cur) f
  split
  next h => exact h2 p h
  next h => exact h1 p h

theorem exit_state : (f.exit cur ini).state = Function.update f.state cur (some .dead) := by
  have h : (moves cur ini f (f.children cur)).state = f.state := moves_rest.1
  simp only [Family.exit, Family.die, h]

theorem Ok.exit {x : Int} (h : f.Ok) (hi : f.init = some ini) (hp : f.pid cur ≠ some PID_IDLE)
    (ho : f.Orderly (.ended cur x)) : (f.exit cur ini).Ok := by
  have ho' : f.children cur ≠ [] → ini ≠ cur ∧ f.parent ini ≠ none ∧ f.state ini ≠ some .dead := fun hne => by
    obtain ⟨i, h1, h2⟩ := ho hne
    cases hi.symm.trans h1
    exact h2
  refine ⟨h.toRooted.exit hi hp, fun y q hy hq => ?_⟩
  rw [exit_parent] at hq
  rw [exit_state]
  split at hq
  next hm =>
    -- an orphan is a child of the init process now
    cases hq
    obtain ⟨h1, h2, h3⟩ := ho' (List.ne_nil_of_mem hm)
    refine ⟨(exit_children h.toLinked (fun _ => ⟨h1, h2⟩) (h.init_not_mem hi hp) y ini).2 (.inr ⟨hm, rfl⟩), ?_⟩
    rwa [Function.update_of_ne h1]
  next hm =>
    obtain ⟨h1, h2⟩ := h.hung y q hy hq
    have hne : q ≠ cur := by
      rintro rfl
      exact hm h1
    exact ⟨mem_exit hne h1, by rwa [Function.update_of_ne hne]⟩

theorem Step.created_pid (h : f.Rooted) (h1 : PID_IDLE ≠ pid ∨ f.listed = [])
    (h2 : PID_INIT ≠ pid ∨ f.pid cur = some PID_IDLE) :
    PID_IDLE ≠ pid ∧ (pid = PID_INIT → f.pid cur = some PID_IDLE) := by
  refine ⟨h1.resolve_right fun e => ?_, fun e => h2.resolve_left (fun e' => e' e.symm)⟩
  have := (h.mem_listed 0).2 h.here
  rw [e] at this
  cases this

theorem Rooted.step (h : f.Rooted) (hs : f.Step ch f') : f'.Rooted := by
  cases hs with
  | quiet => exact h
  | created hc _ h1 h2 => exact h.create hc (Step.created_pid h h1 h2).1 (Step.created_pid h h1 h2).2
  | ended hi hp => exact h.exit hi hp
  | reaped hz => exact h.reap hz

theorem Ok.step (h : f.Ok) (hs : f.Step ch f') (ho : f.Orderly ch) : f'.Ok := by
  cases hs with
  | quiet => exact h
  | created hc ha h1 h2 => exact h.create hc ha (Step.created_pid h.toRooted h1 h2).1 (Step.created_pid h.toRooted h1 h2).2
  | ended hi hp => exact h.exit hi hp ho
  | reaped hz hd => exact h.reap hz hd

/-- A process gets another parent when its own exits, and then it gets the init process. -/
theorem Step.parent {p q q' : Nat} (hs : f.Step ch f') (h : f.Linked) (hp : f.parent p = some q)
    (hp' : f'.parent p = some q') : q' = q ∨ (∃ x, ch = .ended q x) ∧ f.init = some q' := by
  have same : f'.parent p = f.parent p → q' = q := fun e => Option.some.inj ((hp'.symm.trans e).trans hp)
  cases hs with
  | quiet => exact .inl (same rfl)
  | created =>
    refine .inl (same (create_parent ?_))
    rintro rfl
    rw [(h.new 0).1] at hp
    cases hp
  | @ended cur ini x hi =>
    rw [exit_parent] at hp'
    split at hp'
    next hm =>
      cases hp'
      cases (h.child cur p hm).symm.trans hp
      exact .inr ⟨⟨x, rfl⟩, hi⟩
    next => exact .inl (Option.some.inj (hp'.symm.trans hp))
  | @reaped cur z =>
    refine .inl (same (Function.update_of_ne ?_ _ _))
    rintro rfl
    simp [Family.reap] at hp'

/-- Who is dead was so before or has just exited. -/
theorem Step.died (hs : f.Step ch f') (hd : f'.state c = some .dead) : f.state c = some .dead ∨ ∃ x, ch = .ended c x := by
  cases hs with
  | quiet => exact .inl hd
  | created =>
    simp only [Family.create, Function.update_apply] at hd
    split at hd
    · cases hd
    · exact .inl hd
  | @ended cur ini x =>
    rw [exit_state, Function.update_apply] at hd
    split at hd
    next e => exact .inr ⟨x, e ▸ rfl⟩
    next => exact .inl hd
  | reaped =>
    simp only [Family.reap, Function.update_apply] at hd
    split at hd
    · cases hd
    · exact .inl hd

theorem of_mem_moves {cs : List Nat} {p x : Nat} : ∀ {f : Family}, x ∈ (moves par ini f cs).children p →
    x ∈ f.children p ∨ x ∈ cs ∧ p = ini := by
  induction cs with
  | nil => exact .inl
  | cons c cs ih =>
    intro f h
    rcases ih h with h | ⟨h, e⟩
    · simp only [Family.move, List.mem_append] at h
      rcases h with h | h
      · split at h
        · exact .inl (List.mem_of_mem_erase h)
        · exact .inl h
      · split at h
        next hp =>
          rw [List.mem_singleton] at h
          exact .inr ⟨by simp [h], hp.1⟩
        next => cases h
    · exact .inr ⟨by simp [h], e⟩

/-- A child is not new, but may come from a process that exits, to the init process. -/
theorem Step.child {p : Nat} (hs : f.Step ch f') (h : f.Linked) (hc : c ∈ f'.children p) (hd : f'.state c = some .dead) :
    c ∈ f.children p ∨ ∃ cur x, ch = .ended cur x ∧ c ∈ f.children cur ∧ f.init = some p := by
  cases hs with
  | quiet => exact .inl hc
  | created hp =>
    refine ((mem_create h hp).1 hc).imp_right fun ⟨e, _⟩ => ?_
    simp [Family.create, e] at hd
  | @ended cur ini x hi =>
    refine (of_mem_moves hc).imp_right fun ⟨h1, e⟩ => ?_
    exact ⟨cur, x, rfl, h1, e ▸ hi⟩
  | reaped => exact .inl (mem_reap hc).2

/-- In a family that is in order every process but the idle one is listed once,
and is once in the children of its parent, which is not dead, and in no others. -/
theorem Ok.placed (h : f.Ok) {p q : Nat} (hp : f.parent p = some q) (h0 : p ≠ 0) :
    f.listed.count p = 1 ∧ (f.children q).count p = 1 ∧ (∀ r, p ∈ f.children r → r = q) ∧ f.state q ≠ some .dead := by
  obtain ⟨h1, h2⟩ := h.hung p q h0 hp
  refine ⟨List.count_eq_one_of_mem h.listed_once ((h.mem_listed p).2 (by rw [hp]; simp)),
    List.count_eq_one_of_mem (h.once q) h1, fun r hr => ?_, h2⟩
  rw [h.child r p hr] at hp
  exact Option.some.inj hp

end Family

end Weenix.Proc
