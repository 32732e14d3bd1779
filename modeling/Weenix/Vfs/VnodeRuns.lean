import Weenix.Vfs.VnodeTable
/-!
# Runs of the table of vnodes

`Proper` says what the callers owe: a reference is held where a vnode is used or
put, a page is freed by one thread, and nobody asks by number for a vnode whose
last reference is being put while no link to it is left. Then no assertion of
`vnode.c` fails, however the threads interleave, and the references of each
vnode are counted as `Vfs.State` counts them.
-/

namespace Weenix.Vnodes
open Lib

namespace Table
variable (s : Table)

/-- No thread waits for the pages of the vnode in `vput`. -/
def Quiet (vn : Nat) : Prop := ∀ t, s.place t ≠ .freeing vn

/-- A caller has a reference. -/
def Held (vn : Nat) : Prop := 0 < s.refs vn ∧ s.Quiet vn

/-- The vnode `fs`, `vno` may be asked for; an address from `slab_obj_alloc` is free. -/
def Asks (fs vno : Nat) (alloc : Option Nat) : Prop :=
  (∀ vn, alloc = some vn → s.vnodes vn = none) ∧
    ∀ vn v, s.vnodes vn = some v → v.id = (fs, vno) → s.Quiet vn

/-- The reference counts, as in the models of the path calls. -/
def counts : Vfs.State Unit := ⟨(), s.refs⟩

end Table

def Proper (s : Table) : Event → Prop
  | .vget t fs vno alloc => s.place t = .outside ∧ s.Asks fs vno alloc
  | .again t alloc => ∃ fs vno, s.place t = .find fs vno ∧ s.Asks fs vno alloc
  | .read_vnode t => ∃ vn, s.place t = .reading vn
  | .vref vn => s.Held vn
  | .vput t vn _ => s.place t = .outside ∧ s.Held vn
  | .unload t => ∃ vn, s.place t = .freeing vn
  | .delete_vnode t => ∃ vn, s.place t = .deleting vn
  | .pframe_alloc vn _ => s.Held vn
  | .pframe_free t vn n _ => s.place t = .outside ∧ s.Quiet vn ∧
      ∃ v pf, s.vnodes vn = some v ∧ v.mmo_respages.find? (fun pf => pf.pf_pagenum = n) = some pf ∧ pf.pf_busy = false
  | .pframe_set_busy vn _ _ => (s.vnodes vn).isSome

/-- What an outcome does to the counts. A vnode is freed when nobody has it. -/
def counted (a : Vfs.State Unit) (_ : Event) : Outcome → Option (Vfs.State Unit)
  | .got vn => some (a.vget vn)
  | .put vn => a.vput vn
  | .freed vn => do
    KASSERT (a.refs vn = 0)
    some a
  | .quiet => some a

variable {s s' : Table} {e : Event} {w : Outcome} {t vn fs vno n : Nat} {v v' : Vnode} {pl : Place} {alloc : Option Nat}

/-! ## References -/

namespace Table

theorem refs_of (hv : s.vnodes vn = some v) : s.refs vn = v.refs := by
  simp [refs, hv]

@[simp] theorem refs_goes : (s.goes t pl).refs = s.refs := rfl

@[simp] theorem refs_setVnode : (s.setVnode vn v).refs = Function.update s.refs vn v.refs := by
  funext u
  simp only [refs, setVnode, Function.update_apply]
  split <;> rfl

/-- A vnode that comes or goes without references. -/
theorem refs_insert (hv : s.vnodes vn = none) (hr : v.refs = 0) : (s.insert vn v).refs = s.refs := by
  change (s.setVnode vn v).refs = s.refs
  rw [refs_setVnode, hr, Function.update_eq_self_iff]
  simp [refs, hv]

theorem refs_remove (hv : s.vnodes vn = some v) (hr : v.refs = 0) : (s.remove vn).refs = s.refs := by
  funext u
  simp only [refs, remove, Function.update_apply]
  split
  next h => simp [h, hv, hr]
  next => rfl

end Table

/-- A vnode with references can be used. -/
theorem Table.Held.ready (hh : s.Held vn) (h : s.Ok) :
    ∃ v, s.vnodes vn = some v ∧ v.vn_busy = false ∧ v.vn_nrespages < v.vn_refcount := by
  obtain ⟨v, hv⟩ : ∃ v, s.vnodes vn = some v := by
    cases hv : s.vnodes vn with
    | none => simpa [Table.refs, hv] using hh.1
    | some v => exact ⟨v, rfl⟩
  have hr : 0 < v.vn_refcount - v.vn_nrespages := by
    rw [← Vnode.refs, ← Table.refs_of hv]
    exact hh.1
  refine ⟨v, hv, ?_, by omega⟩
  rw [← Bool.not_eq_true, (h.fine vn v hv).busy]
  omega

/-- Where no thread waits for the pages, the work on a vnode that is not busy is nobody's. -/
theorem Fine.idle {place : Nat → Place} (h : Fine place vn v) (hb : v.vn_busy = false) (hq : ∀ t, place t ≠ .freeing vn) (u : Nat) :
    ¬ (place u).Works vn := by
  have hn : ¬ ∃ t, place t = .reading vn ∨ place t = .deleting vn := by
    rw [← h.owner, hb]
    exact Bool.false_ne_true
  rintro (hu | hu | hu)
  · exact hn ⟨u, .inl hu⟩
  · exact hq u hu
  · exact hn ⟨u, .inr hu⟩

/-! ## What each function does -/

theorem vref_spec (h : s.Ok) (hv : s.vnodes vn = some v) (hb : v.vn_busy = false) (hq : s.Quiet vn) :
    vref s vn = some (s.setVnode vn (v.setRefcount (v.vn_refcount + 1))) ∧
      (s.setVnode vn (v.setRefcount (v.vn_refcount + 1))).Ok := by
  have hf := h.fine vn v hv
  have hc : v.vn_refcount ≠ 0 := by
    rw [Ne, ← hf.busy, hb]
    exact Bool.false_ne_true
  refine ⟨by simp [vref, hv, KASSERT, Nat.pos_of_ne_zero hc], h.set hv rfl (hf.count rfl rfl rfl ?_ ?_ ?_)⟩
  · exact Nat.le_succ_of_le hf.pages
  · simp [Vnode.setRefcount, hb]
  · exact fun u hu => absurd hu (hq u)

theorem refs_vref (h : s.Ok) (hv : s.vnodes vn = some v) :
    (s.setVnode vn (v.setRefcount (v.vn_refcount + 1))).refs = Function.update s.refs vn (s.refs vn + 1) := by
  have hp := (h.fine vn v hv).pages
  rw [Table.refs_setVnode, Table.refs_of hv]
  congr 1
  simp only [Vnode.refs, Vnode.setRefcount, Vnode.vn_nrespages] at hp ⊢
  omega

theorem find_spec (h : s.Ok) (ht : (s.place t).vnode = none) (ha : s.Asks fs vno alloc) :
    ∃ s' w, find s t fs vno alloc = some (s', w) ∧ s'.Ok ∧ counted s.counts e w = some s'.counts := by
  unfold find
  cases hfind : s.vnode_inuse_list.find? (s.is fs vno) with
  | some vn =>
    obtain ⟨v, hv, hid⟩ : ∃ v, s.vnodes vn = some v ∧ v.id = (fs, vno) := by
      have his := List.find?_some hfind
      simpa [Table.is, Option.any_eq_true, Vnode.id] using his
    cases hb : v.vn_busy with
    | true =>
      have hok : ((s.setVnode vn { v with vn_waitq := t :: v.vn_waitq }).goes t (.asleep fs vno vn)).Ok := by
        refine h.setGoes hv rfl ?_ ?_ ((h.fine vn v hv).sleeps ht hid)
        · intro vn' hvn'
          rw [ht] at hvn'
          cases hvn'
        · rintro vn' ⟨⟩
          rfl
      refine ⟨_, .quiet, by simp only [hv, hb, Option.bind_eq_bind, Option.bind_some, if_pos], hok, ?_⟩
      have hr : Function.update s.refs vn (s.refs vn) = s.refs := Function.update_eq_self ..
      rw [Table.refs_of hv] at hr
      simp only [counted, Table.counts, Table.refs_goes, Table.refs_setVnode]
      exact congrArg (fun r => some (Vfs.State.mk () r)) hr.symm
    | false =>
      obtain ⟨hvref, hok⟩ := vref_spec h hv hb (ha.2 vn v hv hid)
      have hgoes : ((s.setVnode vn (v.setRefcount (v.vn_refcount + 1))).goes t .outside).Ok := hok.goes ht rfl
      refine ⟨_, .got vn, by simp [hv, hb, hvref], hgoes, ?_⟩
      simp only [counted, Table.counts, Table.refs_goes, refs_vref h hv, Vfs.State.vget]
  | none =>
    cases alloc with
    | none => exact ⟨_, _, rfl, h.goes ht rfl, rfl⟩
    | some vn =>
      have hvn := ha.1 vn rfl
      have hnew : ∀ u x, s.vnodes u = some x → x.id ≠ (fs, vno) := by
        intro u x hx hid
        have hmem : u ∈ s.vnode_inuse_list := (h.listed u).2 (by simp [hx])
        have his := List.find?_eq_none.1 hfind u hmem
        simp only [Vnode.id, Prod.mk.injEq] at hid
        simp [Table.is, hx, hid] at his
      refine ⟨_, _, rfl, h.insert hvn ht hnew, ?_⟩
      have hr := Table.refs_insert (v := { vn_fs := fs, vn_vno := vno }) hvn rfl
      simp only [counted, Table.counts, Table.refs_goes, hr]

theorem read_done_spec (h : s.Ok) (ht : s.place t = .reading vn) :
    ∃ s', read_done s t vn = some s' ∧ s'.Ok ∧ s'.counts = s.counts.vget vn := by
  obtain ⟨v, hv⟩ := Option.isSome_iff_exists.1 (h.present t vn (by rw [ht]; rfl))
  have hf := h.fine vn v hv
  have hworks : (s.place t).Works vn := .inl ht
  have hc : v.vn_refcount = 0 := hf.busy.1 (hf.owner.2 ⟨t, .inl ht⟩)
  have hp : v.vn_nrespages = 0 := by
    have := hf.pages
    omega
  have hr : s.refs vn = 0 := by
    rw [Table.refs_of hv, Vnode.refs, hc, Nat.zero_sub]
  have hfine : Fine (Function.update s.place t .outside) vn ((v.setBusy false).setRefcount 1) := by
    refine hf.work ?_ (fun _ _ => nofun) (fun u hu => hf.alone u t hu hworks) rfl rfl ?_ ?_ ?_ nofun
    · intro fs vno e
      rw [ht] at e
      cases e
    · change v.vn_nrespages ≤ 1
      omega
    · simp [Vnode.setRefcount, Vnode.setBusy]
    · simp [Vnode.setRefcount, Vnode.setBusy]
  have hread : read_done s t vn = some ((s.setVnode vn ((v.setBusy false).setRefcount 1)).goes t .outside) := by
    simp [read_done, hv]
  refine ⟨_, hread, h.setGoes hv rfl ?_ nofun hfine, ?_⟩
  · intro vn' hvn'
    rw [ht] at hvn'
    cases hvn'
    rfl
  · simp only [Table.counts, Table.refs_goes, Table.refs_setVnode, Vfs.State.vget, hr]
    congr 2
    change 1 - v.vn_nrespages = 0 + 1
    rw [hp]

/-- The vnode `v` is what `vput` has made of the vnode at `vn`, which no other
thread works on. -/
structure Putting (s : Table) (t vn : Nat) (v : Vnode) : Prop where
  same : ∃ v₀, s.vnodes vn = some v₀ ∧ v.id = v₀.id ∧ v.vn_waitq = v₀.vn_waitq
  busy : v.vn_busy = false
  pages : v.vn_nrespages < v.vn_refcount
  thread : (s.place t).vnode = none ∨ s.place t = .freeing vn
  alone : ∀ u, (s.place u).Works vn → u = t

namespace Putting

theorem place_ne (hp : Putting s t vn v) (fs vno : Nat) : s.place t ≠ .asleep fs vno vn := by
  intro e
  rcases hp.thread with h | h <;> rw [e] at h <;> cases h

theorem only (hp : Putting s t vn v) (vn' : Nat) (hvn' : (s.place t).vnode = some vn') : vn' = vn := by
  rcases hp.thread with h | h <;> rw [h] at hvn' <;> cases hvn'
  rfl

/-- The thread goes on with the vnode changed. -/
theorem goes (hp : Putting s t vn v) (h : s.Ok) (hpl : pl = .outside ∨ pl = .freeing vn ∨ pl = .deleting vn)
    (hid : v'.id = v.id) (hq : v'.vn_waitq = v.vn_waitq) (hle : v'.vn_nrespages ≤ v'.vn_refcount)
    (hc : v'.vn_busy = true ↔ v'.vn_refcount = 0) (hb : v'.vn_busy = true ↔ pl = .deleting vn)
    (hl : pl = .freeing vn → v'.refs = 1) : ((s.setVnode vn v').goes t pl).Ok := by
  obtain ⟨v₀, hv, hid₀, hq₀⟩ := hp.same
  refine h.setGoes hv (hid.trans hid₀) hp.only ?_ ((h.fine vn v₀ hv).work hp.place_ne ?_ hp.alone
    (hid.trans hid₀) (hq.trans hq₀) hle hc ?_ hl)
  · rintro vn' hvn'
    rcases hpl with rfl | rfl | rfl <;> cases hvn' <;> rfl
  · rintro fs vno rfl
    simp at hpl
  · rw [hb]
    rcases hpl with rfl | rfl | rfl <;> simp

theorem drop_spec (hp : Putting s t vn v) (h : s.Ok) :
    ∃ s', drop s t vn v = some s' ∧ s'.Ok ∧ s'.refs = Function.update s.refs vn (v.refs - 1) := by
  have hpages := hp.pages
  have hrefs (b : Bool) : ((v.setRefcount (v.vn_refcount - 1)).setBusy b).refs = v.refs - 1 := by
    simp only [Vnode.refs, Vnode.setRefcount, Vnode.setBusy, Vnode.vn_nrespages]
    omega
  by_cases hlast : 0 < v.vn_refcount - 1
  · have hdrop : drop s t vn v = some ((s.setVnode vn (v.setRefcount (v.vn_refcount - 1))).goes t .outside) := if_pos hlast
    refine ⟨_, hdrop, hp.goes h (.inl rfl) rfl rfl ?_ ?_ ?_ (fun e => by cases e), ?_⟩
    · exact Nat.le_sub_one_of_lt hpages
    · simp only [Vnode.setRefcount, hp.busy, Bool.false_eq_true, false_iff]
      omega
    · simp [Vnode.setRefcount, hp.busy]
    · rw [Table.refs_goes, Table.refs_setVnode]
      exact congrArg _ (hrefs false)
  · have hzero : v.vn_nrespages = 0 := by omega
    have hdrop : drop s t vn v = some ((s.setVnode vn ((v.setRefcount (v.vn_refcount - 1)).setBusy true)).goes t (.deleting vn)) := by
      have hz : (v.setRefcount (v.vn_refcount - 1)).vn_nrespages = 0 := hzero
      have hn : ¬ 0 < (v.setRefcount (v.vn_refcount - 1)).vn_refcount := hlast
      simp only [drop]
      rw [if_neg hn, hz]
      rfl
    refine ⟨_, hdrop, hp.goes h (.inr (.inr rfl)) rfl rfl ?_ ?_ ?_ (fun e => by cases e), ?_⟩
    · exact Nat.le_sub_one_of_lt hpages
    · simp only [Vnode.setBusy, Vnode.setRefcount, true_iff]
      omega
    · simp [Vnode.setBusy]
    · rw [Table.refs_goes, Table.refs_setVnode, hrefs]

end Putting

/-- The loop keeps the reference of the caller, and no assertion of the nested
calls of `vput` fails. -/
theorem freePages_spec {pfs : List Pframe} (hpfs : v.mmo_respages = pfs) (hb : v.vn_busy = false)
    (hc : v.vn_refcount = v.vn_nrespages + 1) :
    ∃ v', freePages pfs v = some v' ∧ v'.id = v.id ∧ v'.vn_waitq = v.vn_waitq ∧ v'.vn_busy = false ∧
      v'.vn_refcount = v'.vn_nrespages + 1 := by
  induction pfs generalizing v with
  | nil => exact ⟨v, rfl, rfl, rfl, hb, hc⟩
  | cons pf pfs ih =>
    unfold freePages
    split
    next => exact ⟨v, rfl, rfl, rfl, hb, hc⟩
    next =>
      simp only [Vnode.vn_nrespages, hpfs, List.length_cons] at hc
      obtain ⟨v', hv', hid, hq, hb', hc'⟩ := ih (v := (v.setPages pfs).setRefcount (v.vn_refcount - 1)) rfl hb
        (by simp only [Vnode.setRefcount, Vnode.vn_nrespages, Vnode.setPages]; omega)
      refine ⟨v', ?_, hid, hq, hb', hc'⟩
      rw [← hv']
      have h1 : (v.setPages pfs).vn_nrespages < (v.setPages pfs).vn_refcount := by
        simp only [Vnode.vn_nrespages, Vnode.setPages]
        omega
      have h2 : (v.setPages pfs).vn_nrespages ≠ (v.setPages pfs).vn_refcount - 1 := by
        simp only [Vnode.vn_nrespages, Vnode.setPages]
        omega
      have h3 : (v.setPages pfs).vn_busy = false := hb
      simp only [KASSERT, if_pos h1, if_pos h2, if_pos h3]
      rfl

theorem unload_spec (hp : Putting s t vn v) (h : s.Ok) (hc : v.vn_refcount = v.vn_nrespages + 1) :
    ∃ s' b, unload s t vn v = some (s', b) ∧ s'.Ok ∧ s'.refs = Function.update s.refs vn (if b then 0 else 1) := by
  obtain ⟨v', hfree, hid, hq, hb, hc'⟩ := freePages_spec rfl hp.busy hc
  by_cases hnil : v'.mmo_respages = []
  · have hz : v'.vn_nrespages = 0 := by
      rw [Vnode.vn_nrespages, hnil]
      rfl
    have hp' : Putting s t vn v' := by
      obtain ⟨v₀, hv, hid₀, hq₀⟩ := hp.same
      exact ⟨⟨v₀, hv, hid.trans hid₀, hq.trans hq₀⟩, hb, by omega, hp.thread, hp.alone⟩
    obtain ⟨s', hdrop, hok, hrefs⟩ := hp'.drop_spec h
    refine ⟨s', true, ?_, hok, ?_⟩
    · have h1 : v'.vn_refcount = 1 := by omega
      simp [unload, hfree, hnil, KASSERT, h1, hdrop]
    · rw [hrefs, Vnode.refs, hc', hz]
      rfl
  · have hunload : unload s t vn v = some ((s.setVnode vn v').goes t (.freeing vn), false) := by
      simp [unload, hfree, hnil]
    refine ⟨_, false, hunload, hp.goes h (.inr (.inl rfl)) hid hq (by omega) ?_ ?_ ?_, ?_⟩
    · rw [hb]
      simp [hc']
    · simp [hb]
    · intro _
      rw [Vnode.refs, hc', Nat.add_sub_cancel_left]
    · rw [Table.refs_goes, Table.refs_setVnode, Vnode.refs, hc', Nat.add_sub_cancel_left]
      rfl

theorem vput_spec (h : s.Ok) (hv : s.vnodes vn = some v) (hb : v.vn_busy = false) (hpages : v.vn_nrespages < v.vn_refcount)
    (ht : (s.place t).vnode = none) (hq : s.Quiet vn) (linked : Bool) :
    ∃ s' b, vput s t vn linked = some (s', b) ∧ s'.Ok ∧
      s'.refs = Function.update s.refs vn (if b then v.refs - 1 else v.refs) := by
  have hp : Putting s t vn v :=
    ⟨⟨v, hv, rfl, rfl⟩, hb, hpages, .inl ht, fun u hu => absurd hu ((h.fine vn v hv).idle hb hq u)⟩
  by_cases hlast : v.vn_nrespages = v.vn_refcount - 1 ∧ linked = false
  · have hc : v.vn_refcount = v.vn_nrespages + 1 := by omega
    obtain ⟨s', b, hunload, hok, hrefs⟩ := unload_spec hp h hc
    refine ⟨s', b, ?_, hok, ?_⟩
    · simp only [vput, hv, KASSERT, hpages, hb, Option.bind_eq_bind, Option.bind_some]
      simp [hlast, hunload]
    · rw [hrefs, Vnode.refs, hc, Nat.add_sub_cancel_left]
  · obtain ⟨s', hdrop, hok, hrefs⟩ := hp.drop_spec h
    refine ⟨s', true, ?_, hok, hrefs⟩
    simp only [vput, hv, KASSERT, hpages, hb, Option.bind_eq_bind, Option.bind_some]
    rw [if_neg hlast]
    simp [hdrop]

theorem delete_done_spec (h : s.Ok) (ht : s.place t = .deleting vn) :
    ∃ s', delete_done s t vn = some s' ∧ s'.Ok ∧ s'.counts = s.counts ∧ s.refs vn = 0 := by
  obtain ⟨v, hv⟩ := Option.isSome_iff_exists.1 (h.present t vn (by rw [ht]; rfl))
  have hf := h.fine vn v hv
  have hc : v.vn_refcount = 0 := hf.busy.1 (hf.owner.2 ⟨t, .inr ht⟩)
  have hr : v.refs = 0 := by
    rw [Vnode.refs, hc, Nat.zero_sub]
  -- whoever has to do with the vnode is the thread itself or asleep on the queue
  have hwaits (u : Nat) (hne : u ≠ t) (hu : (s.place u).vnode = some vn) : u ∈ v.vn_waitq := by
    rw [hf.waits]
    cases hpl : s.place u with
    | outside | find => rw [hpl] at hu; cases hu
    | asleep fs vno vn' =>
      rw [hpl] at hu
      cases hu
      exact ⟨fs, vno, rfl⟩
    | reading vn' | freeing vn' | deleting vn' =>
      rw [hpl] at hu
      cases hu
      exact absurd (hf.alone u t (by simp [hpl, Place.Works]) (by simp [ht, Place.Works])) hne
  have hwoken (u : Nat) (hu : u ∈ v.vn_waitq) : (s.place u).vnode = some vn ∧ (s.place u).woken.vnode = none := by
    obtain ⟨fs, vno, e⟩ := (hf.waits u).1 hu
    rw [e]
    exact ⟨rfl, rfl⟩
  have hok : (((s.wake v.vn_waitq).remove vn).goes t .outside).Ok := by
    refine h.remove (fun u hu => ?_) (fun u vn' hu => ?_)
    · simp only [Table.remove, Table.wake, Function.update_apply] at hu
      split at hu
      next => cases hu
      next hne =>
        split at hu
        next hq =>
          rw [(hwoken u hq).2] at hu
          cases hu
        next hq => exact hq (hwaits u hne hu)
    · simp only [Table.remove, Table.wake, Function.update_apply] at hu ⊢
      split
      next e =>
        rw [if_pos e, e, ht] at hu
        rcases hu with hu | hu <;> cases hu
        exact .inl rfl
      next hne =>
        rw [if_neg hne] at hu
        split
        next hq =>
          rw [if_pos hq, (hwoken u hq).1, (hwoken u hq).2] at hu
          rcases hu with hu | hu <;> cases hu
          exact .inl rfl
        next => exact .inr rfl
  exact ⟨_, by simp only [delete_done, hv, Option.bind_eq_bind, Option.bind_some], hok,
    congrArg (Vfs.State.mk ()) (Table.refs_remove hv hr), by rw [Table.refs_of hv, hr]⟩

/-! ## Steps and runs -/

/-- A reference is dropped, or the thread has to wait and keeps it. -/
theorem counted_put {dropped : Bool} (hpos : 0 < s.refs vn)
    (hrefs : s'.refs = Function.update s.refs vn (if dropped then s.refs vn - 1 else s.refs vn)) :
    counted s.counts e (if dropped then .put vn else .quiet) = some s'.counts := by
  cases dropped with
  | true => simp [counted, Table.counts, Vfs.State.vput, KASSERT, hpos, hrefs]
  | false => simp [counted, Table.counts, hrefs, Function.update_eq_self]

/-- The reference of a page is dropped, or is the thread's while it waits. -/
theorem counted_free {dropped : Bool}
    (hrefs : s'.refs = Function.update s.refs vn (if dropped then s.refs vn else s.refs vn + 1)) :
    counted s.counts e (if dropped then .quiet else .got vn) = some s'.counts := by
  cases dropped with
  | true => simp [counted, Table.counts, hrefs, Function.update_eq_self]
  | false => simp [counted, Table.counts, Vfs.State.vget, hrefs]

/-- A page less: its reference is a reference like others, until it is put. -/
theorem pframe_release_spec (h : s.Ok) (hv : s.vnodes vn = some v) (hq : s.Quiet vn) {pf : Pframe}
    (hpf : v.mmo_respages.find? (fun pf => pf.pf_pagenum = n) = some pf) (hbusy : pf.pf_busy = false) :
    ∃ v', pframe_release s vn n = some (s.setVnode vn v') ∧ (s.setVnode vn v').Ok ∧ v'.vn_busy = false ∧
      v'.vn_nrespages < v'.vn_refcount ∧ v'.refs = s.refs vn + 1 := by
  have hf := h.fine vn v hv
  have hlen : (v.setPages (v.mmo_respages.erase pf)).vn_nrespages + 1 = v.vn_nrespages :=
    List.length_erase_add_one (List.mem_of_find?_eq_some hpf)
  have hp := hf.pages
  have hc : v.vn_refcount ≠ 0 := by omega
  have hb : v.vn_busy = false := by
    rwa [← Bool.not_eq_true, hf.busy]
  have hcount : (v.setPages (v.mmo_respages.erase pf)).vn_refcount = v.vn_refcount := rfl
  refine ⟨v.setPages (v.mmo_respages.erase pf), by simp [pframe_release, hv, hpf, KASSERT, hbusy],
    h.set hv rfl (hf.count rfl rfl rfl (by omega) hf.busy fun u hu => absurd hu (hq u)), hb, by omega, ?_⟩
  rw [Table.refs_of hv, Vnode.refs, Vnode.refs, hcount]
  omega

/-- The pages of a vnode change with their references. -/
theorem setPages_spec (h : s.Ok) (hv : s.vnodes vn = some v) (k : Nat) (pfs : List Pframe) (hp : pfs.length ≤ k)
    (hc : k = 0 ↔ v.vn_refcount = 0) (hr : k - pfs.length = v.refs) :
    (s.setVnode vn ((v.setRefcount k).setPages pfs)).Ok ∧
      (s.setVnode vn ((v.setRefcount k).setPages pfs)).counts = s.counts := by
  have hf := h.fine vn v hv
  have hr' : ((v.setRefcount k).setPages pfs).refs = v.refs := hr
  refine ⟨h.set hv rfl (hf.count rfl rfl rfl hp (hf.busy.trans hc.symm) fun u hu => hr'.trans (hf.last u hu)), ?_⟩
  have hs : Function.update s.refs vn (s.refs vn) = s.refs := Function.update_eq_self ..
  rw [Table.counts, Table.refs_setVnode, hr', ← Table.refs_of hv, hs]
  rfl

/-- Every proper event can be taken, and is a step of the counts. -/
theorem step_spec (h : s.Ok) (hp : Proper s e) :
    ∃ s' w, step s e = some (s', w) ∧ s'.Ok ∧ counted s.counts e w = some s'.counts := by
  cases e with
  | vget t fs vno alloc => exact find_spec h (by rw [hp.1]; rfl) hp.2
  | again t alloc =>
    obtain ⟨fs, vno, ht, ha⟩ := hp
    obtain ⟨s', w, hfind, hok, hw⟩ := find_spec (e := .again t alloc) h (by rw [ht]; rfl) ha
    exact ⟨s', w, by simp only [step, ht, hfind], hok, hw⟩
  | read_vnode t =>
    obtain ⟨vn, ht⟩ := hp
    obtain ⟨s', hread, hok, hc⟩ := read_done_spec h ht
    exact ⟨s', .got vn, by simp [step, ht, hread], hok, congrArg some hc.symm⟩
  | vref vn =>
    obtain ⟨v, hv, hb, -⟩ := hp.ready h
    obtain ⟨hvref, hok⟩ := vref_spec h hv hb hp.2
    refine ⟨_, .got vn, by simp [step, hvref], hok, ?_⟩
    simp only [counted, Table.counts, refs_vref h hv, Vfs.State.vget]
  | vput t vn linked =>
    obtain ⟨v, hv, hb, hpages⟩ := hp.2.ready h
    obtain ⟨s', dropped, hput, hok, hrefs⟩ := vput_spec h hv hb hpages (by rw [hp.1]; rfl) hp.2.2 linked
    rw [← Table.refs_of hv] at hrefs
    exact ⟨s', if dropped then .put vn else .quiet, by simp [step, hput], hok, counted_put hp.2.1 hrefs⟩
  | unload t =>
    obtain ⟨vn, ht⟩ := hp
    obtain ⟨v, hv⟩ := Option.isSome_iff_exists.1 (h.present t vn (by rw [ht]; rfl))
    have hf := h.fine vn v hv
    have hone := hf.last t ht
    have hc : v.vn_refcount = v.vn_nrespages + 1 := by
      rw [Vnode.refs] at hone
      omega
    have hb : v.vn_busy = false := by
      rw [← Bool.not_eq_true, hf.busy, hc]
      omega
    have hput : Putting s t vn v :=
      ⟨⟨v, hv, rfl, rfl⟩, hb, by omega, .inr ht, fun u hu => hf.alone u t hu (by simp [ht, Place.Works])⟩
    obtain ⟨s', dropped, hunload, hok, hrefs⟩ := unload_spec hput h hc
    rw [← Table.refs_of hv] at hone
    refine ⟨s', if dropped then .put vn else .quiet, by simp [step, ht, hv, hunload], hok, counted_put (by omega) ?_⟩
    rw [hrefs, hone]
  | delete_vnode t =>
    obtain ⟨vn, ht⟩ := hp
    obtain ⟨s', hdel, hok, hc, hz⟩ := delete_done_spec h ht
    refine ⟨s', .freed vn, by simp [step, ht, hdel], hok, ?_⟩
    rw [hc]
    simp [counted, Table.counts, KASSERT, hz]
  | pframe_alloc vn n =>
    obtain ⟨v, hv, hb, hpages⟩ := hp.ready h
    obtain ⟨hvref, -⟩ := vref_spec h hv hb hp.2
    obtain ⟨hok, hc⟩ := setPages_spec h hv (v.vn_refcount + 1) ({ pf_pagenum := n } :: v.mmo_respages)
      (Nat.succ_le_succ hpages.le) (by omega) (Nat.add_sub_add_right ..)
    refine ⟨_, .quiet, ?_, hok, congrArg some hc.symm⟩
    simp [step, Vnodes.pframe_alloc, hvref, Table.setVnode, Vnode.setRefcount]
  | pframe_free t vn n linked =>
    obtain ⟨ht, hq, v, pf, hv, hpf, hbusy⟩ := hp
    obtain ⟨v', hrel, hok, hb, hpages, hr⟩ := pframe_release_spec h hv hq hpf hbusy
    obtain ⟨s', dropped, hput, hok', hrefs⟩ :=
      vput_spec (t := t) hok (Function.update_self ..) hb hpages (by change (s.place t).vnode = none; rw [ht]; rfl) hq linked
    refine ⟨s', if dropped then .quiet else .got vn, by simp [step, hrel, hput], hok', counted_free ?_⟩
    rw [hrefs, Table.refs_setVnode, Function.update_idem, hr]
    rfl
  | pframe_set_busy vn n b =>
    obtain ⟨v, hv⟩ := Option.isSome_iff_exists.1 hp
    have hlen (f : Pframe → Pframe) : (v.mmo_respages.map f).length = v.vn_nrespages := List.length_map ..
    obtain ⟨hok, hc⟩ := setPages_spec h hv v.vn_refcount
      (v.mmo_respages.map fun pf => if pf.pf_pagenum = n then { pf with pf_busy := b } else pf)
      ((hlen _).le.trans (h.fine vn v hv).pages) Iff.rfl (congrArg (v.vn_refcount - ·) (hlen _))
    refine ⟨_, .quiet, ?_, hok, congrArg some hc.symm⟩
    simp only [step, Vnodes.pframe_set_busy, hv, Option.bind_eq_bind, Option.bind_some]
    rfl

theorem run_ok {tr} (h : Run step Proper Table.empty s tr) : s.Ok := by
  refine h.inv Table.Ok Table.empty_ok fun s e s' w hs hp hst => ?_
  obtain ⟨s₁, w₁, hst₁, hok, -⟩ := step_spec hs hp
  rw [hst] at hst₁
  cases hst₁
  exact hok

/-- Thread 0 reads the vnode 7 in at the address 100, and thread 1 waits for it. -/
def slept : Table :=
  ((Table.empty.insert 100 { vn_fs := 1, vn_vno := 7 }).goes 0 (.reading 100)).setVnode 100
    { vn_fs := 1, vn_vno := 7, vn_waitq := [1] } |>.goes 1 (.asleep 1 7 100)

theorem slept_run : Run step Proper Table.empty slept
    [(.vget 0 1 7 (some 100), .quiet), (.vget 1 1 7 none, .quiet)] := by
  refine .snoc (.snoc .nil ?_ rfl) ?_ rfl
  · exact ⟨rfl, by simp [Table.empty], by simp [Table.empty]⟩
  · refine ⟨rfl, fun _ e => absurd e.symm (Option.some_ne_none _), fun vn v hv _ t ht => ?_⟩
    simp only [Table.goes, Table.insert, Table.setVnode, Table.empty, Function.update_apply] at ht
    split at ht <;> cases ht

/-- Thread 0 has the vnode, and thread 2 gets it too. -/
theorem slept_later : ∃ s, Run step Proper slept s [(.read_vnode 0, .got 100), (.vget 2 1 7 none, .got 100)] ∧
    s.refs 100 = 2 := by
  refine ⟨_, .snoc (.snoc .nil ⟨100, rfl⟩ rfl) ⟨rfl, nofun, fun vn v hv _ t ht => ?_⟩ rfl, rfl⟩
  simp only [Table.goes, Table.insert, Table.setVnode, Table.empty, slept, Function.update_apply] at ht
  split at ht
  next => cases ht
  next => split at ht <;> cases ht

end Weenix.Vnodes
