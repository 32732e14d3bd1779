import Weenix.Vm.FileMap
import Weenix.Vm.Refs
/-!
# Reclaiming objects (`vm/anon.c`, `vm/shadow.c`)

The `put` operations with a record of what they give back, in order. The states
are those of `mmobj_put` (`put_log_states`). The last `anon_put` gives back every
page and then the object. The last `shadow_put` gives back every page, and goes
no further: `num` is 0 again before the call that frees a page puts the object.
-/

namespace Weenix.Vm

open Lib

variable {s s' t : State} {o n : Nat} {ob : Mmobj} {pf : Pframe} {fs : List Pframe}

/-- What a `put` gives back: a page, a reference to the object below, an object. -/
inductive Reclaim
  | page (pf : Pframe)
  | below (o o' : Nat)
  | object (o : Nat)
  deriving DecidableEq

mutual

/-- `mmobj_put`, with what it gives back. -/
def put_log : Nat → State → Nat → Option (State × List Reclaim)
  | 0, _, _ => none
  | n + 1, s, o => do
    let ob ← s.objs o
    match ob.mmo_ops with
    | .shadow => do
      KASSERT (0 < s.mmo_refcount o)
      let s := s.setRefcount o (s.mmo_refcount o - 1)
      if s.mmo_nrespages o = s.mmo_refcount o then do
        let (s, l) ← shadow_free_log n s o
        if s.num = 0 then some (s, l)
        else do
          let below ← ob.mmo_shadowed
          let (s, l') ← put_log n s below
          some (s.freeObj o, l ++ .below o below :: l' ++ [.object o])
      else some (s, [])
    | .anon => do
      KASSERT (0 < s.mmo_refcount o)
      let s := s.setRefcount o (s.mmo_refcount o - 1)
      if s.mmo_nrespages o = s.mmo_refcount o then do
        let (s, l) ← anon_free_log n s o
        if s.temp_c = 0 then some (s.freeObj o, l ++ [.object o]) else some (s, l)
      else some (s, [])
    | .vnode vn => do
      KASSERT (s.mmo_nrespages o < s.mmo_refcount o)
      let (s, l) ← (if s.mmo_nrespages o = s.mmo_refcount o - 1 ∧ (s.vnodes vn).query_vnode = false then do
          let (s, l) ← vnode_free_log n s o
          KASSERT (s.mmo_nrespages o = 0)
          KASSERT (s.mmo_refcount o = 1)
          some (s, l)
        else some (s, []))
      let s := s.setRefcount o (s.mmo_refcount o - 1)
      if 0 < s.mmo_refcount o then some (s, l)
      else do
        KASSERT (s.mmo_nrespages o = 0)
        some (s, l)

/-- The loop of `shadow_put`. -/
def shadow_free_log : Nat → State → Nat → Option (State × List Reclaim)
  | 0, _, _ => none
  | n + 1, s, o =>
    match s.pframes.find? (fun pf => decide (pf.pf_obj = o)) with
    | none => some (s, [])
    | some pf => do
      let s := s.setNum (s.num + 1)
      let s := pframe_unpin s pf.pf_addr
      waitNotBusy s pf.pf_addr
      let s := s.setNum (s.num - 1)
      let s ← pframe_release s pf
      let (s, l) ← put_log n s o
      let (s, l') ← shadow_free_log n s o
      some (s, .page pf :: l ++ l')

/-- The loop of `anon_put`. -/
def anon_free_log : Nat → State → Nat → Option (State × List Reclaim)
  | 0, _, _ => none
  | n + 1, s, o =>
    match s.pframes.find? (fun pf => decide (pf.pf_obj = o)) with
    | none => some (s, [])
    | some pf => do
      let s := pframe_unpin s pf.pf_addr
      let s := s.setTempC (s.temp_c + 1)
      waitNotBusy s pf.pf_addr
      let s ← pframe_release s pf
      let (s, l) ← put_log n s o
      let s := s.setTempC (s.temp_c - 1)
      let (s, l') ← anon_free_log n s o
      some (s, .page pf :: l ++ l')

/-- The loop of `vput`. -/
def vnode_free_log : Nat → State → Nat → Option (State × List Reclaim)
  | 0, _, _ => none
  | n + 1, s, o =>
    match s.pframes.find? (fun pf => decide (pf.pf_obj = o)) with
    | none => some (s, [])
    | some pf => do
      waitNotBusy s pf.pf_addr
      let s ← pframe_release s pf
      let (s, l) ← put_log n s o
      let (s, l') ← vnode_free_log n s o
      some (s, .page pf :: l ++ l')

end

/-- The states without the record are those of the model. -/
theorem put_log_states : ∀ n : Nat, (∀ s o, (put_log n s o).map (·.1) = mmobj_put n s o) ∧
    (∀ s o, (shadow_free_log n s o).map (·.1) = shadow_free_pages n s o) ∧
    (∀ s o, (anon_free_log n s o).map (·.1) = anon_free_pages n s o) ∧
    ∀ s o, (vnode_free_log n s o).map (·.1) = vnode_free_pages n s o := by
  intro n
  induction n with
  | zero => simp [put_log, shadow_free_log, anon_free_log, vnode_free_log, mmobj_put, shadow_free_pages, anon_free_pages,
      vnode_free_pages]
  | succ n ih =>
    obtain ⟨h1, h2, h3, h4⟩ := ih
    refine ⟨fun s o => ?put, fun s o => ?shadow, fun s o => ?anon, fun s o => ?vnode⟩
    case put =>
      simp only [put_log, mmobj_put, ← h1, ← h2, ← h3, ← h4, bind, Option.map_bind, Option.bind_map]
      refine congrArg _ (funext fun ob => ?_)
      cases hops : ob.mmo_ops with
      | vnode vn =>
        simp only [Function.comp_apply, hops, Option.map_bind]
        refine congrArg _ (funext fun _ => ?_)
        split <;> simp only [Option.bind_assoc, Option.bind_some, apply_ite (Option.map Prod.fst), Option.map_bind,
          Function.comp_def, Option.map_some]
      | _ =>
        simp only [Function.comp_apply, hops, Option.map_bind, apply_ite (Option.map Prod.fst), Option.map_some]
    case shadow =>
      cases hf : s.pframes.find? (fun pf => decide (pf.pf_obj = o)) <;>
        simp only [shadow_free_log, shadow_free_pages, hf, ← h1, ← h2, bind, Option.map_eq_bind,
          Option.bind_assoc, Option.bind_some, Function.comp_def]
    case anon =>
      cases hf : s.pframes.find? (fun pf => decide (pf.pf_obj = o)) <;>
        simp only [anon_free_log, anon_free_pages, hf, ← h1, ← h3, bind, Option.map_eq_bind,
          Option.bind_assoc, Option.bind_some, Function.comp_def]
    case vnode =>
      cases hf : s.pframes.find? (fun pf => decide (pf.pf_obj = o)) <;>
        simp only [vnode_free_log, vnode_free_pages, hf, ← h1, ← h4, bind, Option.map_eq_bind,
          Option.bind_assoc, Option.bind_some, Function.comp_def]

/-- `put`, with what it gives back. -/
def putLog (s : State) (o : Nat) : Option (State × List Reclaim) := put_log (2 * s.mmo_nrespages o + 3) s o

theorem putLog_states (s : State) (o : Nat) : (putLog s o).map (·.1) = put s o := (put_log_states _).1 s o

/-! ## The frames of an object -/

/-- The frames of `o` are `fs`: at different pages, each pinned once and not busy.
The list that `pframe_free` goes over for them is in order. -/
structure Reclaimable (s : State) (o : Nat) (fs : List Pframe) : Prop where
  frames : s.pframes.filter (fun pf => decide (pf.pf_obj = o)) = fs
  count : s.mmo_nrespages o = fs.length
  apart : (fs.map (·.pf_addr)).Nodup
  pinned : ∀ pf ∈ fs, s.pf_pincount pf.pf_addr = 1 ∧ pf.pf_addr ∈ s.pinned_list ∧ pf.pf_addr ∉ s.alloc_list
  idle : ∀ pf ∈ fs, s.pf_busy pf.pf_addr = false
  listed : ∃ b, s.bottomOf o = some b ∧ ∀ id ∈ s.mmo_vmas b, ∃ a m, s.areaById id = some a ∧ a.vma_vmmap = some m

/-- The frames of `o` are gone and its count is 0. Areas, the other objects and their frames stay. -/
structure Drained (s : State) (o : Nat) (s' : State) : Prop where
  spaces : s'.spaces = s.spaces
  objs : s'.objs = s.objs
  vmas : s'.mmo_vmas = s.mmo_vmas
  mem : s'.mem = s.mem
  num : s'.num = s.num
  temp_c : s'.temp_c = s.temp_c
  pframes : s'.pframes = s.pframes.filter fun pf => decide (pf.pf_obj ≠ o)
  nres : s'.mmo_nrespages = Function.update s.mmo_nrespages o 0
  refcount : s'.mmo_refcount = Function.update s.mmo_refcount o 0

/-- In every state the other modules reason about, the frames of an anonymous or shadow object are such. -/
theorem Steady.reclaimable (hs : Steady s) (ho : s.objs o = some ob) (hfile : ob.isFile = false) :
    Reclaimable s o (s.pframes.filter fun pf => decide (pf.pf_obj = o)) := by
  have hmem {pf : Pframe} (hm : pf ∈ s.pframes.filter fun pf => decide (pf.pf_obj = o)) : pf ∈ s.pframes ∧ pf.pf_obj = o := by
    simpa using hm
  obtain ⟨b, hb⟩ := hs.chains.bottom ho
  refine ⟨rfl, ?_, ?_, fun pf hm => ?_, fun pf hm => hs.idle pf (hmem hm).1, b, hb, hs.listed b⟩
  · rw [hs.frames.resident, List.countP_eq_length_filter]
  · exact hs.frames.addrs.sublist (List.filter_sublist.map _)
  · obtain ⟨h1, rfl⟩ := hmem hm
    exact hs.frames.pinned pf h1 ob ho hfile

theorem Reclaimable.setRefcount (h : Reclaimable s o fs) (n : Nat) : Reclaimable (s.setRefcount o n) o fs :=
  ⟨h.frames, h.count, h.apart, h.pinned, h.idle, h.listed⟩

theorem Reclaimable.setTempC (h : Reclaimable s o fs) (n : Nat) : Reclaimable (s.setTempC n) o fs :=
  ⟨h.frames, h.count, h.apart, h.pinned, h.idle, h.listed⟩

theorem filter_first {p : Pframe → Bool} {l : List Pframe} (h : l.find? p = some pf) :
    l.filter p = pf :: (l.erase pf).filter p := by
  have hp : p pf = true := List.find?_some h
  induction l with
  | nil => cases h
  | cons q l ih =>
    rw [List.find?_cons] at h
    split at h
    next hq =>
      cases h
      rw [List.erase_cons_head, List.filter_cons_of_pos hq]
    next hq =>
      have hne : q ≠ pf := by
        rintro rfl
        rw [hp] at hq
        cases hq
      rw [List.erase_cons_tail (by simpa using hne), List.filter_cons_of_neg (by simp [hq]), List.filter_cons_of_neg (by simp [hq]),
        ih h]

/-- The first frame, and what is left of the others when it is freed. -/
theorem Reclaimable.first (h : Reclaimable s o (pf :: fs)) :
    s.pframes.find? (fun pf => decide (pf.pf_obj = o)) = some pf ∧ pf.pf_obj = o ∧
      (s.pframes.erase pf).filter (fun pf => decide (pf.pf_obj = o)) = fs := by
  cases hf : s.pframes.find? (fun pf => decide (pf.pf_obj = o)) with
  | none =>
    have hnil : s.pframes.filter (fun pf => decide (pf.pf_obj = o)) = [] :=
      List.filter_eq_nil_iff.2 fun q hq => by simpa using List.find?_eq_none.1 hf q hq
    rw [h.frames] at hnil
    cases hnil
  | some q =>
    have hl := filter_first hf
    rw [h.frames] at hl
    obtain ⟨rfl, hfs⟩ := List.cons.inj hl
    exact ⟨rfl, by simpa using List.find?_some hf, hfs.symm⟩

theorem Reclaimable.none (h : Reclaimable s o []) : s.pframes.find? (fun pf => decide (pf.pf_obj = o)) = none := by
  rw [List.find?_eq_none]
  exact List.filter_eq_nil_iff.1 h.frames

/-- The first frame can be freed, which leaves the others. -/
theorem Reclaimable.release (h : Reclaimable s o (pf :: fs)) :
    ∃ t, pframe_release (pframe_unpin s pf.pf_addr) pf = some t ∧ Dropped s pf t ∧ Reclaimable t o fs := by
  obtain ⟨-, rfl, hfs⟩ := h.first
  obtain ⟨h1, h2, h3⟩ := h.pinned pf List.mem_cons_self
  obtain ⟨b, hb, hlisted⟩ := h.listed
  obtain ⟨t, hrel, hd⟩ := pframe_release_once h1 h2 h3 (h.idle pf List.mem_cons_self) hb hlisted
  obtain ⟨hnot, hnd⟩ := List.nodup_cons.1 h.apart
  refine ⟨t, hrel, hd, ?_, ?_, hnd, fun q hq => ?_, fun q hq => ?_, b, ?_, ?_⟩
  · rw [hd.pframes, hfs]
  · rw [hd.nres, Function.update_self, h.count]
    rfl
  · have hne : q.pf_addr ≠ pf.pf_addr := fun e => hnot (List.mem_map.2 ⟨q, hq, e⟩)
    obtain ⟨h4, h5, h6⟩ := h.pinned q (List.mem_cons_of_mem _ hq)
    obtain ⟨h7, h8⟩ := hd.pins _ hne
    refine ⟨h7.trans h4, h8 h5, fun hm => h6 ?_⟩
    rw [hd.alloc] at hm
    exact List.mem_of_mem_erase hm
  · rw [hd.busy]
    exact h.idle q (List.mem_cons_of_mem _ hq)
  · rw [bottomOf_congr hd.objs]
    exact hb
  · rw [hd.vmas]
    simp only [areaById_congr hd.spaces]
    exact hlisted

theorem Drained.refl (h : Reclaimable s o []) (hr : s.mmo_refcount o = 0) : Drained s o s := by
  have hf : s.pframes.filter (fun pf => decide (pf.pf_obj ≠ o)) = s.pframes :=
    List.filter_eq_self.2 fun pf hm => by simpa using List.filter_eq_nil_iff.1 h.frames pf hm
  have hn : s.mmo_nrespages o = 0 := h.count
  refine ⟨rfl, rfl, rfl, rfl, rfl, rfl, hf.symm, ?_, ?_⟩
  · rw [← hn, Function.update_eq_self]
  · rw [← hr, Function.update_eq_self]

/-- Freeing one frame, putting the object, and freeing the other frames. -/
theorem Dropped.drained (h : Dropped s pf t) (hobj : pf.pf_obj = o) (h' : Drained (t.setRefcount o n) o s') : Drained s o s' := by
  have hp : s'.pframes = t.pframes.filter fun q => decide (q.pf_obj ≠ o) := h'.pframes
  have hn : s'.mmo_nrespages = Function.update t.mmo_nrespages o 0 := h'.nres
  have hr : s'.mmo_refcount = Function.update (Function.update t.mmo_refcount o n) o 0 := h'.refcount
  refine ⟨h'.spaces.trans h.spaces, h'.objs.trans h.objs, h'.vmas.trans h.vmas, h'.mem.trans h.mem, h'.num.trans h.num,
    h'.temp_c.trans h.temp_c, ?_, ?_, ?_⟩
  · rw [hp, h.pframes, ← List.erase_filter, List.erase_of_not_mem (by simp [hobj])]
  · rw [hn, h.nres, hobj, Function.update_idem]
  · rw [hr, h.refcount, Function.update_idem]

/-! ## The loops -/

/-- Counting a page in `temp_c` before it is unpinned is the same. -/
theorem counted_unpin {pg : Nat} (hp : pg ∈ s.pinned_list) (h1 : s.pf_pincount pg = 1) :
    (pframe_unpin s pg).setTempC ((pframe_unpin s pg).temp_c + 1) = pframe_unpin (s.setTempC (s.temp_c + 1)) pg := by
  rw [pframe_unpin_once hp h1, pframe_unpin_once (s := s.setTempC (s.temp_c + 1)) hp h1]
  rfl

theorem Reclaimable.unpin_idle (h : Reclaimable s o (pf :: fs)) : (pframe_unpin s pf.pf_addr).pf_busy pf.pf_addr = false := by
  obtain ⟨h1, h2, -⟩ := h.pinned pf List.mem_cons_self
  rw [pframe_unpin_once h2 h1]
  exact h.idle pf List.mem_cons_self

/-- The loop of `anon_put`: the call of `put` for the first page frees all the others. `temp_c` is not 0 in it. -/
theorem anon_free_log_total (hops : ob.mmo_ops = .anon) : ∀ (fs : List Pframe) (n : Nat) {s : State}, 2 * fs.length + 1 ≤ n →
    Reclaimable s o fs → s.objs o = some ob → s.mmo_refcount o = fs.length →
    ∃ s', anon_free_log n s o = some (s', fs.map .page) ∧ Drained s o s' := by
  intro fs
  induction fs with
  | nil =>
    intro n s hn h _ hr
    obtain ⟨n, rfl⟩ : ∃ i, n = i + 1 := ⟨n - 1, by omega⟩
    exact ⟨s, by simp [anon_free_log, h.none], .refl h hr⟩
  | cons pf fs ih =>
    intro n s hn h ho hr
    simp only [List.length_cons] at hn hr
    obtain ⟨n, rfl⟩ : ∃ i, n = i + 1 + 1 := ⟨n - 2, by omega⟩
    obtain ⟨hf, hobj, -⟩ := h.first
    obtain ⟨h1, h2, -⟩ := h.pinned pf List.mem_cons_self
    have h₁ : Reclaimable (s.setTempC (s.temp_c + 1)) o (pf :: fs) := h.setTempC _
    obtain ⟨t, hrel, hd, ht⟩ := h₁.release
    have hot : t.objs o = some ob := (congrFun hd.objs o).trans ho
    have hrt : t.mmo_refcount o = fs.length + 1 := (congrFun hd.refcount o).trans hr
    obtain ⟨s', hfree, he⟩ := ih n (by omega) (ht.setRefcount fs.length) hot setRefcount_self
    have htemp : s'.temp_c = s.temp_c + 1 := he.temp_c.trans hd.temp_c
    have hput : put_log (n + 1) t o = some (s', fs.map .page) := by
      have hkr : (t.setRefcount o fs.length).mmo_nrespages o = (t.setRefcount o fs.length).mmo_refcount o :=
        ht.count.trans setRefcount_self.symm
      simp only [put_log, hot, hops, KASSERT, hrt, Nat.succ_pos, if_true, Nat.add_sub_cancel, hkr, hfree, htemp, bind,
        Option.bind_some, Nat.succ_ne_zero, if_false]
    have he' : Drained (s.setTempC (s.temp_c + 1)) o s' := hd.drained hobj he
    -- back in the loop nothing is left
    have hend : anon_free_log (n + 1) (s'.setTempC (s'.temp_c - 1)) o = some (s'.setTempC (s'.temp_c - 1), []) := by
      have hnone : s'.pframes.find? (fun pf => decide (pf.pf_obj = o)) = none := by
        rw [List.find?_eq_none, he'.pframes]
        simp
      have hnone' : (s'.setTempC (s'.temp_c - 1)).pframes.find? (fun pf => decide (pf.pf_obj = o)) = none := hnone
      simp only [anon_free_log, hnone']
    refine ⟨s'.setTempC (s'.temp_c - 1), ?_, ?_⟩
    · rw [anon_free_log]
      simp only [hf, counted_unpin h2 h1, waitNotBusy, KASSERT, h₁.unpin_idle, if_true, hrel, hput, hend, bind,
        Option.bind_some, List.append_nil, List.map_cons]
    · have e : s'.temp_c - 1 = s.temp_c := by omega
      exact { he' with temp_c := e }

/-- The loop of `shadow_put`. `num` is 0 in every call of `put`. -/
theorem shadow_free_log_total (hops : ob.mmo_ops = .shadow) : ∀ (fs : List Pframe) (n : Nat) {s : State}, 2 * fs.length + 1 ≤ n →
    Reclaimable s o fs → s.objs o = some ob → s.mmo_refcount o = fs.length → s.num = 0 →
    ∃ s', shadow_free_log n s o = some (s', fs.map .page) ∧ Drained s o s' := by
  intro fs
  induction fs with
  | nil =>
    intro n s hn h _ hr _
    obtain ⟨n, rfl⟩ : ∃ i, n = i + 1 := ⟨n - 1, by omega⟩
    exact ⟨s, by simp [shadow_free_log, h.none], .refl h hr⟩
  | cons pf fs ih =>
    intro n s hn h ho hr hnum
    simp only [List.length_cons] at hn hr
    obtain ⟨n, rfl⟩ : ∃ i, n = i + 1 + 1 := ⟨n - 2, by omega⟩
    obtain ⟨hf, hobj, -⟩ := h.first
    obtain ⟨h1, h2, -⟩ := h.pinned pf List.mem_cons_self
    obtain ⟨t, hrel, hd, ht⟩ := h.release
    have hot : t.objs o = some ob := (congrFun hd.objs o).trans ho
    have hrt : t.mmo_refcount o = fs.length + 1 := (congrFun hd.refcount o).trans hr
    have hnumt : t.num = 0 := hd.num.trans hnum
    obtain ⟨s', hfree, he⟩ := ih n (by omega) (ht.setRefcount fs.length) hot setRefcount_self hnumt
    have hput : put_log (n + 1) t o = some (s', fs.map .page) := by
      have hnum' : s'.num = 0 := he.num.trans hnumt
      have hkr : (t.setRefcount o fs.length).mmo_nrespages o = (t.setRefcount o fs.length).mmo_refcount o :=
        ht.count.trans setRefcount_self.symm
      simp only [put_log, hot, hops, KASSERT, hrt, Nat.succ_pos, if_true, Nat.add_sub_cancel, hkr, hfree, hnum', bind,
        Option.bind_some]
    have he' : Drained s o s' := hd.drained hobj he
    have hend : shadow_free_log (n + 1) s' o = some (s', []) := by
      have hnone : s'.pframes.find? (fun pf => decide (pf.pf_obj = o)) = none := by
        rw [List.find?_eq_none, he'.pframes]
        simp
      simp only [shadow_free_log, hnone]
    have hidle : (pframe_unpin (s.setNum (s.num + 1)) pf.pf_addr).pf_busy pf.pf_addr = false := by
      rw [pframe_unpin_once (s := s.setNum (s.num + 1)) h2 h1]
      exact h.idle pf List.mem_cons_self
    refine ⟨s', ?_, he'⟩
    rw [shadow_free_log]
    simp only [hf, waitNotBusy, hidle, KASSERT, if_true, numbered_unpin hnum h2 h1, hrel, hput, hend, bind, Option.bind_some,
      List.append_nil, List.map_cons]

/-! ## The last reference -/

/-- While something else refers to the object, `put` of an anonymous or shadow object only counts. -/
theorem putLog_counts (ho : s.objs o = some ob) (hfile : ob.isFile = false) (h : Reclaimable s o fs)
    (hr : fs.length + 1 < s.mmo_refcount o) : putLog s o = some (s.setRefcount o (s.mmo_refcount o - 1), []) := by
  have hpos : 0 < s.mmo_refcount o := by omega
  have hne : (s.setRefcount o (s.mmo_refcount o - 1)).mmo_nrespages o ≠
      (s.setRefcount o (s.mmo_refcount o - 1)).mmo_refcount o := by
    rw [setRefcount_self]
    show s.mmo_nrespages o ≠ s.mmo_refcount o - 1
    rw [h.count]
    omega
  unfold putLog
  rw [put_log]
  cases hops : ob.mmo_ops with
  | vnode vn => simp [Mmobj.isFile, hops] at hfile
  | anon => simp only [ho, hops, KASSERT, hpos, if_true, hne, if_false, bind, Option.bind_some]
  | shadow => simp only [ho, hops, KASSERT, hpos, if_true, hne, if_false, bind, Option.bind_some]

/-- The state in which the loop over the frames starts. -/
theorem Reclaimable.last (h : Reclaimable s o fs) (hr : s.mmo_refcount o = fs.length + 1) :
    (s.setRefcount o (s.mmo_refcount o - 1)).mmo_nrespages o = (s.setRefcount o (s.mmo_refcount o - 1)).mmo_refcount o ∧
      (s.setRefcount o (s.mmo_refcount o - 1)).mmo_refcount o = fs.length := by
  have h1 : s.mmo_refcount o - 1 = fs.length := by omega
  exact ⟨h.count.trans (setRefcount_self.trans h1).symm, setRefcount_self.trans h1⟩

theorem Drained.of_setRefcount (h : Drained (s.setRefcount o n) o s') : Drained s o s' := by
  have hr : s'.mmo_refcount = Function.update (Function.update s.mmo_refcount o n) o 0 := h.refcount
  exact { h with refcount := by rw [hr, Function.update_idem] }

/-- The last `anon_put` gives back every frame of the object and then the object, each once, and ends with the
counter at 0. Before the last reference it only counts. -/
theorem anon_put_reclaims (ho : s.objs o = some ob) (hops : ob.mmo_ops = .anon) (h : Reclaimable s o fs) (hc : s.temp_c = 0) :
    (s.mmo_refcount o = fs.length + 1 → ∃ t, put s o = some (t.freeObj o) ∧
      putLog s o = some (t.freeObj o, fs.map .page ++ [.object o]) ∧ (fs.map Reclaim.page ++ [Reclaim.object o]).Nodup ∧
      Drained s o t ∧ t.temp_c = 0) ∧
    (fs.length + 1 < s.mmo_refcount o → put s o = some (s.setRefcount o (s.mmo_refcount o - 1)) ∧
      putLog s o = some (s.setRefcount o (s.mmo_refcount o - 1), [])) := by
  constructor
  · intro hr
    obtain ⟨hkr, hlen⟩ := h.last hr
    obtain ⟨t, hfree, hd⟩ := anon_free_log_total hops fs (2 * s.mmo_nrespages o + 2) (by rw [h.count]; omega)
      (h.setRefcount _) ho hlen
    have hd' : Drained s o t := hd.of_setRefcount
    have htemp : t.temp_c = 0 := hd'.temp_c.trans hc
    have hlog : putLog s o = some (t.freeObj o, fs.map .page ++ [.object o]) := by
      have hpos : 0 < s.mmo_refcount o := by omega
      unfold putLog
      rw [put_log]
      simp only [ho, hops, KASSERT, hpos, if_true, hkr, hfree, htemp, bind, Option.bind_some]
    have hnd : fs.Nodup := h.apart.of_map _
    refine ⟨t, by rw [← putLog_states, hlog]; rfl, hlog, ?_, hd', htemp⟩
    refine List.nodup_append.2 ⟨hnd.map fun _ _ e => Reclaim.page.inj e, by simp, ?_⟩
    simp
  · intro hr
    have hlog := putLog_counts ho (by simp [Mmobj.isFile, hops]) h hr
    exact ⟨by rw [← putLog_states, hlog]; rfl, hlog⟩

/-- The last `shadow_put` gives back the frames and nothing else. -/
theorem shadow_put_last (ho : s.objs o = some ob) (hops : ob.mmo_ops = .shadow) (h : Reclaimable s o fs) (hnum : s.num = 0)
    (hr : s.mmo_refcount o = fs.length + 1) : ∃ t, putLog s o = some (t, fs.map .page) ∧ Drained s o t := by
  obtain ⟨hkr, hlen⟩ := h.last hr
  obtain ⟨t, hfree, hd⟩ := shadow_free_log_total hops fs (2 * s.mmo_nrespages o + 2) (by rw [h.count]; omega)
    (h.setRefcount _) ho hlen hnum
  have hd' : Drained s o t := hd.of_setRefcount
  have hnum' : t.num = 0 := hd'.num.trans hnum
  have hpos : 0 < s.mmo_refcount o := by omega
  refine ⟨t, ?_, hd'⟩
  unfold putLog
  rw [put_log]
  simp only [ho, hops, KASSERT, hpos, if_true, hkr, hfree, hnum', bind, Option.bind_some]

/-- What `shadow_put` is for: the last one gives back every frame, one reference to the object below and the
object, each once, and one before that nothing. -/
def ShadowReclaims (s : State) (o : Nat) (fs : List Pframe) : Prop :=
  ∃ t l, putLog s o = some (t, l) ∧
    (s.mmo_refcount o = fs.length + 1 → (∀ pf ∈ fs, l.count (.page pf) = 1) ∧
      (∃ below, s.parent o = some below ∧ l.count (.below o below) = 1) ∧ l.count (.object o) = 1) ∧
    (fs.length + 1 < s.mmo_refcount o → l = [])

/-- `num` is 0 whenever `shadow_put` is called, and then it does what it is for
only as long as another reference is left. -/
theorem shadow_put_reclaims_iff (ho : s.objs o = some ob) (hops : ob.mmo_ops = .shadow) (h : Reclaimable s o fs)
    (hnum : s.num = 0) (hr : fs.length < s.mmo_refcount o) : ShadowReclaims s o fs ↔ fs.length + 1 < s.mmo_refcount o := by
  constructor
  · rintro ⟨t, l, hlog, hlast, -⟩
    by_contra hle
    have he : s.mmo_refcount o = fs.length + 1 := by omega
    obtain ⟨t', hlog', -⟩ := shadow_put_last ho hops h hnum he
    rw [hlog'] at hlog
    cases hlog
    obtain ⟨-, -, hobj⟩ := hlast he
    simp [List.count_eq_zero_of_not_mem] at hobj
  · intro hlt
    refine ⟨_, _, putLog_counts ho (by simp [Mmobj.isFile, hops]) h hlt, fun e => by omega, fun _ => rfl⟩

/-- A process writes to one page of its own. -/
def onePage : List RefOp :=
  [.proc_create, .vmmap_map 0 0 none 0 1 { read := true, write := true } { priv := true, anon := true } 0 .lohi,
    .handle_pagefault 0 0x400000 { write := true }]

/-- In a state reached, the frames of `o` are as `put` expects them. -/
theorem run_reclaimable {C : Config} {E : Env} {s₀ : State} (h0 : Booted s₀) {tr : List (RefOp × Unit)}
    (hr : Run (refStep C E) (fun s e => e.Called C s) s₀ s tr) (ho : s.objs o = some ob) (hfile : ob.isFile = false) :
    Reclaimable s o (s.pframes.filter fun pf => decide (pf.pf_obj = o)) ∧ s.num = 0 := by
  obtain ⟨held, -, hB⟩ := (run_sound h0 hr).held
  exact ⟨hB.steady.reclaimable ho hfile, hB.num⟩

/-- The anonymous object below the page: its one frame and then itself. -/
theorem one_page_reclaimed : ∃ (s : State) (tr : List (RefOp × Unit)) (fs : List Pframe) (t : State),
    Run (refStep .stock .simple) (fun s e => e.Called .stock s) oneFile s tr ∧
    fs.length = 1 ∧ put s 1 = some (t.freeObj 1) ∧ putLog s 1 = some (t.freeObj 1, fs.map .page ++ [.object 1]) := by
  have hex : (exec (refStep .stock .simple) (fun s e => decide (RefOp.Called .stock s e)) oneFile onePage).map
      (fun r => (r.1.objs 1, r.1.mmo_refcount 1, (r.1.pframes.filter fun pf => decide (pf.pf_obj = 1)).length, r.1.temp_c)) =
      some (some ⟨.anon, none, none⟩, 2, 1, 0) := by decide +kernel
  obtain ⟨⟨s, tr⟩, he, hval⟩ := Option.map_eq_some_iff.1 hex
  simp only [Prod.mk.injEq] at hval
  obtain ⟨ho, hrefs, hlen, hc⟩ := hval
  have hrun : Run (refStep .stock .simple) (fun s e => RefOp.Called .stock s e) oneFile s tr :=
    Run.of_exec (fun _ _ => of_decide_eq_true) he
  obtain ⟨h, -⟩ := run_reclaimable oneFile_booted hrun ho rfl
  obtain ⟨t, hput, hlog, -⟩ := (anon_put_reclaims ho rfl h hc).1 (by rw [hlen]; exact hrefs)
  exact ⟨s, tr, _, t, hrun, hlen, hput, hlog⟩

/-- The shadow object of the page: its last reference but that of its frame goes, and it stays. -/
theorem one_page_leaked : ∃ (s : State) (tr : List (RefOp × Unit)) (fs : List Pframe),
    Run (refStep .stock .simple) (fun s e => e.Called .stock s) oneFile s tr ∧
    Reclaimable s 2 fs ∧ s.mmo_refcount 2 = fs.length + 1 ∧ ¬ ShadowReclaims s 2 fs := by
  have hex : (exec (refStep .stock .simple) (fun s e => decide (RefOp.Called .stock s e)) oneFile onePage).map
      (fun r => (r.1.objs 2, r.1.mmo_refcount 2, (r.1.pframes.filter fun pf => decide (pf.pf_obj = 2)).length)) =
      some (some ⟨.shadow, some 1, some 1⟩, 2, 1) := by decide +kernel
  obtain ⟨⟨s, tr⟩, he, hval⟩ := Option.map_eq_some_iff.1 hex
  simp only [Prod.mk.injEq] at hval
  obtain ⟨ho, hrefs, hlen⟩ := hval
  have hrun : Run (refStep .stock .simple) (fun s e => RefOp.Called .stock s e) oneFile s tr :=
    Run.of_exec (fun _ _ => of_decide_eq_true) he
  obtain ⟨h, hnum⟩ := run_reclaimable oneFile_booted hrun ho rfl
  have hr : s.mmo_refcount 2 = (s.pframes.filter fun pf => decide (pf.pf_obj = 2)).length + 1 := by rw [hlen]; exact hrefs
  obtain ⟨t, hlog, -⟩ := shadow_put_last ho rfl h hnum hr
  refine ⟨s, tr, _, hrun, h, hr, ?_⟩
  rintro ⟨t', l, hlog', hlast, -⟩
  rw [hlog] at hlog'
  cases hlog'
  obtain ⟨-, -, hobj⟩ := hlast hr
  simp [List.count_eq_zero_of_not_mem] at hobj

/-- After a fork two more shadow objects refer to it, and `shadow_put` counts as it should. -/
theorem forked_page_kept : ∃ (s : State) (tr : List (RefOp × Unit)) (fs : List Pframe),
    Run (refStep .stock .simple) (fun s e => e.Called .stock s) oneFile s tr ∧
    fs.length = 1 ∧ ShadowReclaims s 2 fs := by
  have hex : (exec (refStep .stock .simple) (fun s e => decide (RefOp.Called .stock s e)) oneFile (onePage ++ [.do_fork 0])).map
      (fun r => (r.1.objs 2, r.1.mmo_refcount 2, (r.1.pframes.filter fun pf => decide (pf.pf_obj = 2)).length)) =
      some (some ⟨.shadow, some 1, some 1⟩, 3, 1) := by decide +kernel
  obtain ⟨⟨s, tr⟩, he, hval⟩ := Option.map_eq_some_iff.1 hex
  simp only [Prod.mk.injEq] at hval
  obtain ⟨ho, hrefs, hlen⟩ := hval
  have hrun : Run (refStep .stock .simple) (fun s e => RefOp.Called .stock s e) oneFile s tr :=
    Run.of_exec (fun _ _ => of_decide_eq_true) he
  obtain ⟨h, hnum⟩ := run_reclaimable oneFile_booted hrun ho rfl
  exact ⟨s, tr, _, hrun, hlen, (shadow_put_reclaims_iff ho rfl h hnum (by rw [hlen, hrefs]; decide)).2
    (by rw [hlen, hrefs]; decide)⟩

end Weenix.Vm
