import Weenix.Lib.Runs
import Weenix.Vfs.Names
/-!
# The table of vnodes (`fs/vnode.c`)

Threads get vnodes by number and put them, and a thread may block in the middle:
in `read_vnode`, in `delete_vnode`, at a page that is busy, or on the `vn_waitq`
of a vnode that is busy. An event is what one thread does until it blocks or
returns. Vnodes are named by their addresses; what is said here holds for
vfs-submit and vm-submit alike.
-/

namespace Weenix.Vnodes
open Lib

structure Pframe where
  pf_pagenum : Nat
  pf_busy : Bool := false
  deriving DecidableEq

structure Vnode where
  vn_fs : Nat
  vn_vno : Nat
  vn_refcount : Nat := 0
  /-- `VN_BUSY` in `vn_flags`. -/
  vn_busy : Bool := true
  mmo_respages : List Pframe := []
  vn_waitq : List Nat := []
  deriving DecidableEq

namespace Vnode

def vn_nrespages (v : Vnode) : Nat := v.mmo_respages.length

/-- `vn_fs` and `vn_vno`. -/
def id (v : Vnode) : Nat × Nat := (v.vn_fs, v.vn_vno)

/-- The references that are not those of its pages. -/
def refs (v : Vnode) : Nat := v.vn_refcount - v.vn_nrespages

def setPages (v : Vnode) (pfs : List Pframe) : Vnode := { v with mmo_respages := pfs }

def setRefcount (v : Vnode) (n : Nat) : Vnode := { v with vn_refcount := n }

def setBusy (v : Vnode) (b : Bool) : Vnode := { v with vn_busy := b }

end Vnode

/-- Where a thread is: outside, or in `vget` or `vput`. -/
inductive Place
  | outside
  /-- It can go on at the label `find`. -/
  | find (fs vno : Nat)
  /-- Asleep on `vn_waitq`. -/
  | asleep (fs vno vn : Nat)
  | reading (vn : Nat)
  /-- Asleep at a busy page, in the loop of `vput`. -/
  | freeing (vn : Nat)
  | deleting (vn : Nat)
  deriving DecidableEq

structure Table where
  vnode_inuse_list : List Nat
  vnodes : Nat → Option Vnode
  place : Nat → Place

/-- After `vnode_init`. -/
def Table.empty : Table := ⟨[], fun _ => none, fun _ => .outside⟩

namespace Table
variable (s : Table)

def setVnode (vn : Nat) (v : Vnode) : Table := { s with vnodes := Function.update s.vnodes vn (some v) }

def goes (t : Nat) (pl : Place) : Table := { s with place := Function.update s.place t pl }

/-- `list_insert_head`. -/
def insert (vn : Nat) (v : Vnode) : Table := { s.setVnode vn v with vnode_inuse_list := vn :: s.vnode_inuse_list }

/-- `list_remove`, and the memory is given back. -/
def remove (vn : Nat) : Table :=
  { s with vnode_inuse_list := s.vnode_inuse_list.erase vn, vnodes := Function.update s.vnodes vn none }

/-- The test of `vget` on a vnode of the list. -/
def is (fs vno vn : Nat) : Bool := (s.vnodes vn).any fun v => v.vn_fs = fs ∧ v.vn_vno = vno

/-- The references to the vnode at `vn` that are not those of its pages. -/
def refs (vn : Nat) : Nat := ((s.vnodes vn).map Vnode.refs).getD 0

end Table

/-- One thread leaves `vn_waitq`. -/
def Place.woken : Place → Place
  | .asleep fs vno _ => .find fs vno
  | pl => pl

/-- `sched_broadcast_on(&vn->vn_waitq)`. -/
def Table.wake (s : Table) (q : List Nat) : Table :=
  { s with place := fun u => if u ∈ q then (s.place u).woken else s.place u }

/-- `got` and `put`: a reference is given out or taken back. -/
inductive Outcome
  | got (vn : Nat)
  | put (vn : Nat)
  | freed (vn : Nat)
  | quiet
  deriving DecidableEq

def vref (s : Table) (vn : Nat) : Option Table := do
  let v ← s.vnodes vn
  KASSERT (0 < v.vn_refcount)
  some (s.setVnode vn (v.setRefcount (v.vn_refcount + 1)))

/-- `vget` from the label `find` on; `alloc` is what `slab_obj_alloc` gives. -/
def find (s : Table) (t fs vno : Nat) (alloc : Option Nat) : Option (Table × Outcome) :=
  match s.vnode_inuse_list.find? (s.is fs vno) with
  | some vn => do
    let v ← s.vnodes vn
    if v.vn_busy then some ((s.setVnode vn { v with vn_waitq := t :: v.vn_waitq }).goes t (.asleep fs vno vn), .quiet)
    else do
      let s ← vref s vn
      some (s.goes t .outside, .got vn)
  | none =>
    match alloc with
    | none => some (s.goes t (.find fs vno), .quiet)
    | some vn => some ((s.insert vn { vn_fs := fs, vn_vno := vno }).goes t (.reading vn), .quiet)

/-- `vget` after `read_vnode`; nobody is woken. -/
def read_done (s : Table) (t vn : Nat) : Option Table := do
  let v ← s.vnodes vn
  some ((s.setVnode vn ((v.setBusy false).setRefcount 1)).goes t .outside)

/-- The loop of `vput` over the pages, up to one that is busy. Each is freed and
puts the vnode, which still has the reference of the caller. -/
def freePages : List Pframe → Vnode → Option Vnode
  | [], v => some v
  | pf :: pfs, v =>
    if pf.pf_busy then some v
    else do
      let v := v.setPages pfs
      KASSERT (v.vn_nrespages < v.vn_refcount)
      KASSERT (v.vn_busy = false)
      KASSERT (v.vn_nrespages ≠ v.vn_refcount - 1)
      freePages pfs (v.setRefcount (v.vn_refcount - 1))

/-- The end of `vput`. -/
def drop (s : Table) (t vn : Nat) (v : Vnode) : Option Table :=
  let v := v.setRefcount (v.vn_refcount - 1)
  if 0 < v.vn_refcount then some ((s.setVnode vn v).goes t .outside)
  else do
    KASSERT (v.vn_nrespages = 0)
    some ((s.setVnode vn (v.setBusy true)).goes t (.deleting vn))

/-- From the loop over the pages on; the result says whether the reference is dropped. -/
def unload (s : Table) (t vn : Nat) (v : Vnode) : Option (Table × Bool) := do
  let v ← freePages v.mmo_respages v
  if v.mmo_respages ≠ [] then some ((s.setVnode vn v).goes t (.freeing vn), false)
  else do
    KASSERT (v.vn_refcount = 1)
    let s ← drop s t vn v
    some (s, true)

/-- `linked` is what `query_vnode` says. -/
def vput (s : Table) (t vn : Nat) (linked : Bool) : Option (Table × Bool) := do
  let v ← s.vnodes vn
  KASSERT (v.vn_nrespages < v.vn_refcount)
  KASSERT (v.vn_busy = false)
  if v.vn_nrespages = v.vn_refcount - 1 ∧ linked = false then unload s t vn v
  else do
    let s ← drop s t vn v
    some (s, true)

/-- `vput` after `delete_vnode`. -/
def delete_done (s : Table) (t vn : Nat) : Option Table := do
  let v ← s.vnodes vn
  some (((s.wake v.vn_waitq).remove vn).goes t .outside)

/-- `pframe_alloc` for the page `n` of a vnode. -/
def pframe_alloc (s : Table) (vn n : Nat) : Option Table := do
  let s ← vref s vn
  let v ← s.vnodes vn
  some (s.setVnode vn (v.setPages ({ pf_pagenum := n } :: v.mmo_respages)))

/-- `pframe_free`, up to the `put` of its object. -/
def pframe_release (s : Table) (vn n : Nat) : Option Table := do
  let v ← s.vnodes vn
  let pf ← v.mmo_respages.find? fun pf => pf.pf_pagenum = n
  KASSERT (pf.pf_busy = false)
  some (s.setVnode vn (v.setPages (v.mmo_respages.erase pf)))

/-- `pframe_set_busy`, `pframe_clear_busy`. -/
def pframe_set_busy (s : Table) (vn n : Nat) (b : Bool) : Option Table := do
  let v ← s.vnodes vn
  some (s.setVnode vn (v.setPages (v.mmo_respages.map fun pf => if pf.pf_pagenum = n then { pf with pf_busy := b } else pf)))

inductive Event
  | vget (t fs vno : Nat) (alloc : Option Nat)
  /-- A thread goes on at `find`. -/
  | again (t : Nat) (alloc : Option Nat)
  /-- `read_vnode` returns. -/
  | read_vnode (t : Nat)
  | vref (vn : Nat)
  | vput (t vn : Nat) (linked : Bool)
  /-- A thread goes on in the loop of `vput`. -/
  | unload (t : Nat)
  /-- `delete_vnode` returns. -/
  | delete_vnode (t : Nat)
  | pframe_alloc (vn n : Nat)
  | pframe_free (t vn n : Nat) (linked : Bool)
  | pframe_set_busy (vn n : Nat) (b : Bool)
  deriving DecidableEq

/-- One event. A page that is freed has a reference of its own; where `vput` has
to wait, this is the thread's reference until it is dropped. -/
def step (s : Table) : Event → Option (Table × Outcome)
  | .vget t fs vno alloc => find s t fs vno alloc
  | .again t alloc =>
    match s.place t with
    | .find fs vno => find s t fs vno alloc
    | _ => none
  | .read_vnode t =>
    match s.place t with
    | .reading vn => do
      let s ← read_done s t vn
      some (s, .got vn)
    | _ => none
  | .vref vn => do
    let s ← vref s vn
    some (s, .got vn)
  | .vput t vn linked => do
    let (s, dropped) ← vput s t vn linked
    some (s, if dropped then .put vn else .quiet)
  | .unload t =>
    match s.place t with
    | .freeing vn => do
      let v ← s.vnodes vn
      let (s, dropped) ← unload s t vn v
      some (s, if dropped then .put vn else .quiet)
    | _ => none
  | .delete_vnode t =>
    match s.place t with
    | .deleting vn => do
      let s ← delete_done s t vn
      some (s, .freed vn)
    | _ => none
  | .pframe_alloc vn n => do
    let s ← pframe_alloc s vn n
    some (s, .quiet)
  | .pframe_free t vn n linked => do
    let s ← pframe_release s vn n
    let (s, dropped) ← vput s t vn linked
    some (s, if dropped then .quiet else .got vn)
  | .pframe_set_busy vn n b => do
    let s ← pframe_set_busy s vn n b
    some (s, .quiet)

/-! ## The invariant -/

namespace Place

/-- The vnode a thread works on or waits for. -/
def vnode : Place → Option Nat
  | .outside | .find _ _ => none
  | .asleep _ _ vn | .reading vn | .freeing vn | .deleting vn => some vn

def Works (pl : Place) (vn : Nat) : Prop := pl = .reading vn ∨ pl = .freeing vn ∨ pl = .deleting vn

theorem Works.vnode {pl : Place} {vn : Nat} (h : pl.Works vn) : pl.vnode = some vn := by
  rcases h with rfl | rfl | rfl <;> rfl

end Place

/-- The vnode at `vn` agrees with the threads. A busy vnode has no references and
is the work of one thread; a thread that waits for a page has the last reference. -/
structure Fine (place : Nat → Place) (vn : Nat) (v : Vnode) : Prop where
  pages : v.vn_nrespages ≤ v.vn_refcount
  busy : v.vn_busy = true ↔ v.vn_refcount = 0
  owner : v.vn_busy = true ↔ ∃ t, place t = .reading vn ∨ place t = .deleting vn
  alone : ∀ t u, (place t).Works vn → (place u).Works vn → t = u
  last : ∀ t, place t = .freeing vn → v.refs = 1
  waits : ∀ u, u ∈ v.vn_waitq ↔ ∃ fs vno, place u = .asleep fs vno vn
  asked : ∀ u fs vno, place u = .asleep fs vno vn → v.id = (fs, vno)

structure Table.Ok (s : Table) : Prop where
  nodup : s.vnode_inuse_list.Nodup
  listed : ∀ vn, vn ∈ s.vnode_inuse_list ↔ (s.vnodes vn).isSome
  unique : ∀ vn vn' v v', s.vnodes vn = some v → s.vnodes vn' = some v' → v.id = v'.id → vn = vn'
  fine : ∀ vn v, s.vnodes vn = some v → Fine s.place vn v
  present : ∀ t vn, (s.place t).vnode = some vn → (s.vnodes vn).isSome

theorem Table.empty_ok : Table.empty.Ok := by
  refine ⟨.nil, fun vn => by simp [empty], ?_, ?_, ?_⟩
  · intro vn vn' v v' h
    cases h
  · intro vn v h
    cases h
  · intro t vn h
    cases h

variable {place place' : Nat → Place} {s : Table} {t vn fs vno : Nat} {v v' : Vnode} {pl : Place}

namespace Fine

/-- Threads that are elsewhere do not matter. -/
theorem congr (h : Fine place vn v)
    (hsame : ∀ u, (place u).vnode = some vn ∨ (place' u).vnode = some vn → place' u = place u) : Fine place' vn v := by
  have hiff {pl : Place} (hpl : pl.vnode = some vn) (u : Nat) : place' u = pl ↔ place u = pl := by
    constructor
    · intro e
      rw [← hsame u (.inr (by rw [e, hpl])), e]
    · intro e
      rw [hsame u (.inl (by rw [e, hpl])), e]
  have hworks (u : Nat) : (place' u).Works vn → (place u).Works vn := fun hu => by
    rwa [← hsame u (.inr hu.vnode)]
  refine ⟨h.pages, h.busy, ?_, fun t u ht hu => h.alone t u (hworks t ht) (hworks u hu), ?_, ?_, ?_⟩
  · rw [h.owner]
    exact exists_congr fun t => or_congr (hiff rfl t).symm (hiff rfl t).symm
  · exact fun t ht => h.last t ((hiff rfl t).1 ht)
  · intro u
    rw [h.waits]
    exact exists_congr fun fs => exists_congr fun vno => (hiff rfl u).symm
  · exact fun u fs vno hu => h.asked u fs vno ((hiff rfl u).1 hu)

/-- The counts change, and no thread. -/
theorem count (h : Fine place vn v) (hid : v'.id = v.id) (hq : v'.vn_waitq = v.vn_waitq) (hb : v'.vn_busy = v.vn_busy)
    (hp : v'.vn_nrespages ≤ v'.vn_refcount) (hc : v'.vn_busy = true ↔ v'.vn_refcount = 0)
    (hl : ∀ u, place u = .freeing vn → v'.refs = 1) : Fine place vn v' := by
  refine ⟨hp, hc, ?_, h.alone, hl, ?_, ?_⟩
  · rw [hb, h.owner]
  · intro u
    rw [hq, h.waits]
  · intro u fs vno hu
    rw [hid, h.asked u fs vno hu]

/-- The work on the vnode is that of the thread `t`, before and after. -/
theorem work (h : Fine place vn v) (hold : ∀ fs vno, place t ≠ .asleep fs vno vn) (hnew : ∀ fs vno, pl ≠ .asleep fs vno vn)
    (halone : ∀ u, (place u).Works vn → u = t) (hid : v'.id = v.id) (hq : v'.vn_waitq = v.vn_waitq)
    (hp : v'.vn_nrespages ≤ v'.vn_refcount) (hc : v'.vn_busy = true ↔ v'.vn_refcount = 0)
    (hb : v'.vn_busy = true ↔ pl = .reading vn ∨ pl = .deleting vn) (hl : pl = .freeing vn → v'.refs = 1) :
    Fine (Function.update place t pl) vn v' := by
  have hworks (u : Nat) (hu : (Function.update place t pl u).Works vn) : u = t := by
    by_contra hne
    rw [Function.update_of_ne hne] at hu
    exact hne (halone u hu)
  have hasleep (u fs vno : Nat) : Function.update place t pl u = .asleep fs vno vn ↔ place u = .asleep fs vno vn := by
    rw [Function.update_apply]
    split
    next e => rw [e]; exact iff_of_false (hnew fs vno) (hold fs vno)
    next => rfl
  refine ⟨hp, hc, ?_, ?_, ?_, ?_, ?_⟩
  · rw [hb]
    constructor
    · intro e
      exact ⟨t, by rwa [Function.update_self]⟩
    · rintro ⟨u, hu⟩
      obtain rfl : u = t := hworks u (by rcases hu with hu | hu <;> rw [hu] <;> simp [Place.Works])
      rwa [Function.update_self] at hu
  · intro u w hu hw
    rw [hworks u hu, hworks w hw]
  · intro u hu
    obtain rfl : u = t := hworks u (by rw [hu]; simp [Place.Works])
    rw [Function.update_self] at hu
    exact hl hu
  · intro u
    rw [hq, h.waits]
    exact exists_congr fun fs => exists_congr fun vno => (hasleep u fs vno).symm
  · intro u fs vno hu
    rw [hid]
    exact h.asked u fs vno ((hasleep u fs vno).1 hu)

/-- A thread goes to sleep on `vn_waitq`. -/
theorem sleeps (h : Fine place vn v) (ht : (place t).vnode = none) (hid : v.id = (fs, vno)) :
    Fine (Function.update place t (.asleep fs vno vn)) vn { v with vn_waitq := t :: v.vn_waitq } := by
  have hold (pl : Place) (hpl : pl.Works vn) (u : Nat) :
      Function.update place t (.asleep fs vno vn) u = pl ↔ place u = pl := by
    rw [Function.update_apply]
    split
    next e =>
      refine iff_of_false ?_ ?_
      · rintro rfl
        simp [Place.Works] at hpl
      · rintro rfl
        rw [← e, hpl.vnode] at ht
        cases ht
    next => rfl
  have hworks (u : Nat) (hu : (Function.update place t (.asleep fs vno vn) u).Works vn) : (place u).Works vn := by
    rwa [(hold _ hu u).1 rfl]
  refine ⟨h.pages, h.busy, ?_, fun u w hu hw => h.alone u w (hworks u hu) (hworks w hw), ?_, ?_, ?_⟩
  · rw [h.owner]
    exact exists_congr fun u => or_congr (hold _ (by simp [Place.Works]) u).symm (hold _ (by simp [Place.Works]) u).symm
  · exact fun u hu => h.last u ((hold _ (by simp [Place.Works]) u).1 hu)
  · intro u
    rw [List.mem_cons, Function.update_apply]
    split
    next e => simp [e]
    next e => simp [e, h.waits]
  · intro u fs' vno' hu
    rw [Function.update_apply] at hu
    split at hu
    next =>
      cases hu
      exact hid
    next => exact h.asked u fs' vno' hu

end Fine

namespace Table.Ok

/-- One vnode changes, and threads that have to do with no other. -/
theorem change (h : s.Ok) (hv : s.vnodes vn = some v) (hid : v'.id = v.id)
    (hpl : ∀ u vn', (s.place u).vnode = some vn' ∨ (place' u).vnode = some vn' → vn' = vn ∨ place' u = s.place u)
    (hf : Fine place' vn v') : Table.Ok { s.setVnode vn v' with place := place' } := by
  have hget {u : Nat} {x : Vnode} (hx : Function.update s.vnodes vn (some v') u = some x) :
      ∃ y, s.vnodes u = some y ∧ y.id = x.id := by
    rw [Function.update_apply] at hx
    split at hx
    next e => cases hx; exact ⟨v, e ▸ hv, hid.symm⟩
    next => exact ⟨x, hx, rfl⟩
  refine ⟨h.nodup, fun u => ?_, ?_, ?_, ?_⟩
  · simp only [setVnode, h.listed, Function.update_apply]
    split
    next e => simp [e, hv]
    next => rfl
  · intro u u' x x' hx hx' hxx
    obtain ⟨y, hy, hyx⟩ := hget hx
    obtain ⟨y', hy', hyx'⟩ := hget hx'
    exact h.unique u u' y y' hy hy' (by rw [hyx, hyx', hxx])
  · intro u x hx
    simp only [setVnode, Function.update_apply] at hx
    split at hx
    next e =>
      cases hx
      rw [e]
      exact hf
    next e => exact (h.fine u x hx).congr fun w hw => (hpl w u hw).resolve_left e
  · intro w u hw
    simp only [setVnode, Function.update_apply]
    split
    next => rfl
    next e =>
      refine h.present w u ?_
      rw [← (hpl w u (.inr hw)).resolve_left e]
      exact hw

theorem set (h : s.Ok) (hv : s.vnodes vn = some v) (hid : v'.id = v.id) (hf : Fine s.place vn v') :
    (s.setVnode vn v').Ok :=
  h.change hv hid (fun _ _ _ => .inr rfl) hf

/-- A vnode changes with the thread that works on it. -/
theorem setGoes (h : s.Ok) (hv : s.vnodes vn = some v) (hid : v'.id = v.id)
    (ht : ∀ vn', (s.place t).vnode = some vn' → vn' = vn) (hpl : ∀ vn', pl.vnode = some vn' → vn' = vn)
    (hf : Fine (Function.update s.place t pl) vn v') : ((s.setVnode vn v').goes t pl).Ok := by
  refine h.change hv hid (fun u vn' hu => ?_) hf
  by_cases e : u = t
  · rw [e, Function.update_self] at hu
    exact .inl (hu.elim (ht vn') (hpl vn'))
  · exact .inr (Function.update_of_ne e ..)

theorem goes (h : s.Ok) (ht : (s.place t).vnode = none) (hpl : pl.vnode = none) : (s.goes t pl).Ok := by
  have hsame (u vn : Nat) (hu : (s.place u).vnode = some vn ∨ (Function.update s.place t pl u).vnode = some vn) :
      Function.update s.place t pl u = s.place u := by
    refine Function.update_of_ne ?_ ..
    rintro rfl
    rw [Function.update_self, ht, hpl] at hu
    simp at hu
  refine ⟨h.nodup, h.listed, h.unique, fun vn v hv => (h.fine vn v hv).congr fun u hu => hsame u vn hu, fun u vn hu => ?_⟩
  refine h.present u vn ?_
  rw [← hsame u vn (.inr hu)]
  exact hu

/-- A new vnode, and the thread that reads it. -/
theorem insert (h : s.Ok) (hvn : s.vnodes vn = none) (ht : (s.place t).vnode = none)
    (hnew : ∀ u x, s.vnodes u = some x → x.id ≠ (fs, vno)) :
    ((s.insert vn { vn_fs := fs, vn_vno := vno }).goes t (.reading vn)).Ok := by
  have hnone (u : Nat) : (s.place u).vnode ≠ some vn := by
    intro hu
    simpa [hvn] using h.present u vn hu
  have hnot : vn ∉ s.vnode_inuse_list := by
    rw [h.listed]
    simp [hvn]
  have hfine : Fine (Function.update s.place t (.reading vn)) vn { vn_fs := fs, vn_vno := vno } := by
    have hworks (u : Nat) (pl : Place) (hpl : pl.vnode = some vn) (hu : Function.update s.place t (.reading vn) u = pl) :
        u = t ∧ pl = .reading vn := by
      by_cases e : u = t
      · rw [e, Function.update_self] at hu
        exact ⟨e, hu.symm⟩
      · rw [Function.update_of_ne e] at hu
        exact absurd (by rw [hu, hpl]) (hnone u)
    refine ⟨le_rfl, by simp, ?_, ?_, ?_, ?_, ?_⟩
    · exact iff_of_true rfl ⟨t, .inl (Function.update_self ..)⟩
    · intro u w hu hw
      rw [(hworks u _ hu.vnode rfl).1, (hworks w _ hw.vnode rfl).1]
    · intro u hu
      cases (hworks u _ rfl hu).2
    · intro u
      refine iff_of_false (by simp) ?_
      rintro ⟨fs', vno', hu⟩
      cases (hworks u _ rfl hu).2
    · intro u fs' vno' hu
      cases (hworks u _ rfl hu).2
  refine ⟨List.nodup_cons.2 ⟨hnot, h.nodup⟩, fun u => ?_, ?_, ?_, ?_⟩
  · simp only [Table.goes, Table.insert, setVnode, List.mem_cons, h.listed, Function.update_apply]
    split <;> simp_all
  · intro u u' x x' hx hx' hxx
    simp only [Table.goes, Table.insert, setVnode, Function.update_apply] at hx hx'
    split at hx <;> split at hx'
    next e e' => rw [e, e']
    next =>
      cases hx
      exact absurd hxx.symm (hnew u' x' hx')
    next =>
      cases hx'
      exact absurd hxx (hnew u x hx)
    next => exact h.unique u u' x x' hx hx' hxx
  · intro u x hx
    simp only [Table.goes, Table.insert, setVnode, Function.update_apply] at hx
    split at hx
    next e =>
      cases hx
      rw [e]
      exact hfine
    next e =>
      refine (h.fine u x hx).congr fun w hw => Function.update_of_ne ?_ ..
      rintro rfl
      rcases hw with hw | hw
      · rw [ht] at hw
        cases hw
      · simp only [Table.goes, Function.update_self, Place.vnode, Option.some.injEq] at hw
        exact e hw.symm
  · intro w u hw
    simp only [Table.goes, Table.insert, setVnode, Function.update_apply] at hw ⊢
    split
    next => rfl
    next e =>
      split at hw
      next =>
        cases hw
        exact absurd rfl e
      next => exact h.present w u hw

/-- A vnode is gone, and no thread has to do with it any more. -/
theorem remove (h : s.Ok) (hgone : ∀ u, (place' u).vnode ≠ some vn)
    (hsame : ∀ u vn', (s.place u).vnode = some vn' ∨ (place' u).vnode = some vn' → vn' = vn ∨ place' u = s.place u) :
    Table.Ok { s.remove vn with place := place' } := by
  have hget {u : Nat} {x : Vnode} (hx : Function.update s.vnodes vn none u = some x) : u ≠ vn ∧ s.vnodes u = some x := by
    rw [Function.update_apply] at hx
    split at hx
    next => cases hx
    next e => exact ⟨e, hx⟩
  refine ⟨h.nodup.erase vn, fun u => ?_, ?_, ?_, ?_⟩
  · simp only [Table.remove, h.nodup.mem_erase_iff, h.listed, Function.update_apply]
    split <;> simp_all
  · intro u u' x x' hx hx' hxx
    exact h.unique u u' x x' (hget hx).2 (hget hx').2 hxx
  · intro u x hx
    obtain ⟨e, hx⟩ := hget hx
    exact (h.fine u x hx).congr fun w hw => (hsame w u hw).resolve_left e
  · intro w u hw
    have e : u ≠ vn := by
      rintro rfl
      exact hgone w hw
    simp only [Table.remove, Function.update_of_ne e]
    refine h.present w u ?_
    rw [← (hsame w u (.inr hw)).resolve_left e]
    exact hw

end Table.Ok

end Weenix.Vnodes
