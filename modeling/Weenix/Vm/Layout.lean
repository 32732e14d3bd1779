import Weenix.Vm.Areas
import Weenix.Vm.Spaces
import Weenix.Vm.Fork
import Weenix.Lib.Runs
/-!
# The layout of address spaces

What inserting, removing, mapping and cloning do to the area lists. `Layout`
says of every map that its list is well formed; every operation keeps it, so
it holds after any sequence of them.
-/

namespace Weenix.Vm

open Lib Lib.Intervals

variable {C : Config}

/-- Every list is well formed, and an area has its address for itself. -/
structure Layout (C : Config) (s : State) : Prop where
  areas : ∀ m, AreasOk C m (s.vmm_list m)
  ids : ∀ m, ((s.vmm_list m).map (·.vma_id)).Nodup
  fresh : ∀ m, ∀ a ∈ s.vmm_list m, a.vma_id < s.nareas
  apart : ∀ m m', ∀ a ∈ s.vmm_list m, ∀ b ∈ s.vmm_list m', a.vma_id = b.vma_id → m = m'
  unused : ∀ m, s.nmaps ≤ m → s.vmm_list m = []

/-- `Layout` looks at the spaces only. -/
theorem Layout.congr {s s' : State} (hL : Layout C s) (h : s'.spaces = s.spaces) : Layout C s' := by
  have e1 : s'.vmm_list = s.vmm_list := congrArg Spaces.vmm_list h
  have e2 : s'.nareas = s.nareas := congrArg Spaces.nareas h
  have e3 : s'.nmaps = s.nmaps := congrArg Spaces.nmaps h
  exact ⟨by rw [e1]; exact hL.areas, by rw [e1]; exact hL.ids, by rw [e1, e2]; exact hL.fresh,
    by rw [e1]; exact hL.apart, by rw [e1, e3]; exact hL.unused⟩

/-- The rule for giving one map a new list: its areas are areas of the map,
changed or not, or new ones. -/
theorem Layout.update {s s' : State} (hL : Layout C s) {m : Nat} {l : List VmArea}
    (hlist : s'.vmm_list = Function.update s.vmm_list m l) (hn : s.nareas ≤ s'.nareas) (hm : s.nmaps ≤ s'.nmaps)
    (hlt : s'.nmaps ≤ m → l = []) (hok : AreasOk C m l) (hids : (l.map (·.vma_id)).Nodup)
    (hfresh : ∀ a ∈ l, a.vma_id < s'.nareas ∧ (s.nareas ≤ a.vma_id ∨ ∃ b ∈ s.vmm_list m, b.vma_id = a.vma_id)) :
    Layout C s' := by
  have hself : s'.vmm_list m = l := by rw [hlist, Function.update_self]
  have hother : ∀ m', m' ≠ m → s'.vmm_list m' = s.vmm_list m' := fun m' h => by rw [hlist, Function.update_of_ne h]
  have hnew : ∀ m' ≠ m, ∀ a ∈ l, ∀ b ∈ s.vmm_list m', a.vma_id ≠ b.vma_id := fun m' hm' a ha b hb he => by
    rcases (hfresh a ha).2 with h | ⟨c, hc, hca⟩
    · have := hL.fresh m' b hb; omega
    · exact hm' (hL.apart m m' c hc b hb (hca.trans he)).symm
  constructor
  case areas =>
    intro m'
    rcases eq_or_ne m' m with rfl | h
    · rw [hself]; exact hok
    · rw [hother m' h]; exact hL.areas m'
  case ids =>
    intro m'
    rcases eq_or_ne m' m with rfl | h
    · rw [hself]; exact hids
    · rw [hother m' h]; exact hL.ids m'
  case fresh =>
    intro m' a ha
    rcases eq_or_ne m' m with rfl | h
    · rw [hself] at ha; exact (hfresh a ha).1
    · rw [hother m' h] at ha; exact (hL.fresh m' a ha).trans_le hn
  case apart =>
    intro m₁ m₂ a ha b hb he
    by_cases h₁ : m₁ = m <;> by_cases h₂ : m₂ = m
    · rw [h₁, h₂]
    · rw [h₁, hself] at ha; rw [hother m₂ h₂] at hb; exact absurd he (hnew m₂ h₂ a ha b hb)
    · rw [hother m₁ h₁] at ha; rw [h₂, hself] at hb; exact absurd he.symm (hnew m₁ h₁ b hb a ha)
    · rw [hother m₁ h₁] at ha; rw [hother m₂ h₂] at hb; exact hL.apart m₁ m₂ a ha b hb he
  case unused =>
    intro m' hm'
    rcases eq_or_ne m' m with rfl | h
    · rw [hself]; exact hlt hm'
    · rw [hother m' h]; exact hL.unused m' (hm.trans hm')

/-- The spaces with another list for map `m` and another count of areas. -/
def Spaces.withList (sp : Spaces) (m : Nat) (l : List VmArea) (n : Nat) : Spaces :=
  { sp with vmm_list := Function.update sp.vmm_list m l, nareas := n }

theorem Spaces.withList_withList (sp : Spaces) (m n n' : Nat) (l l' : List VmArea) :
    (sp.withList m l n).withList m l' n' = sp.withList m l' n' := by
  simp [Spaces.withList, Function.update_idem]

/-- New addresses change nothing. -/
theorem Layout.more {s : State} (hL : Layout C s) {n : Nat} (hn : s.nareas ≤ n) : Layout C { s with nareas := n } :=
  ⟨hL.areas, hL.ids, fun m a ha => (hL.fresh m a ha).trans_le hn, hL.apart, hL.unused⟩

theorem Layout.created {s : State} (hL : Layout C s) {m : Nat} {a : VmArea} (ha : a ∈ s.vmm_list m) :
    m < s.nmaps := by
  by_contra h
  rw [hL.unused m (by omega)] at ha
  cases ha

/-! ## Inserting -/

/-- What `vmmap_insert` puts into the list. -/
def insertArea (m : Nat) (x : VmArea) (l : List VmArea) : List VmArea :=
  insertBefore VmArea.vma_start VmArea.vma_end { x with vma_vmmap := some m } l

/-- `vmmap_insert` checks the bounds of the new area, and inserts it when its range is free. -/
theorem vmmap_insert_cases {s s' : State} {m : Nat} {x : VmArea} (hok : AreasOk C m (s.vmm_list m))
    (h : vmmap_insert C s m x = some s') :
    (x.vma_start < x.vma_end ∧ C.low ≤ x.vma_start ∧ x.vma_end ≤ C.high) ∧
      (RangeFree (s.vmm_list m) x.vma_start x.vma_end ∧ s' = s.setList m (insertArea m x (s.vmm_list m)) ∨
        ¬ RangeFree (s.vmm_list m) x.vma_start x.vma_end ∧ s' = s) := by
  have hC := C.high_lt
  simp only [vmmap_insert, bind, Option.bind_eq_some_iff, KASSERT_eq_some] at h
  obtain ⟨-, -, -, hne, -, hb, b, he, h⟩ := h
  refine ⟨⟨hne, hb.1, hb.2⟩, ?_⟩
  have hfin : u32 (x.vma_start + usub x.vma_end x.vma_start) = x.vma_end := by
    rw [usub_of_le hne.le (by omega), u32_of_lt (by omega)]; omega
  obtain ⟨-, hfree⟩ := vmmap_is_range_empty_eq hok he
  rw [hfin] at hfree
  cases b with
  | true => exact .inl ⟨hfree.1 rfl, by simpa [insertArea] using h.symm⟩
  | false => exact .inr ⟨fun hf => by simpa using hfree.2 hf, by simpa using h.symm⟩

theorem AreasOk.insertArea {m : Nat} {l : List VmArea} (hok : AreasOk C m l) {x : VmArea}
    (hx : x.vma_start < x.vma_end ∧ C.low ≤ x.vma_start ∧ x.vma_end ≤ C.high)
    (hfree : RangeFree l x.vma_start x.vma_end) : AreasOk C m (Vm.insertArea m x l) :=
  AreasOk.insert (x := { x with vma_vmmap := some m }) hok hx.1 hx.2.1 hx.2.2 rfl hfree

theorem mem_insertArea {m : Nat} {l : List VmArea} {x b : VmArea} :
    b ∈ insertArea m x l ↔ b = { x with vma_vmmap := some m } ∨ b ∈ l := mem_insertBefore

/-- Inserting an area with an address of its own keeps the layout. -/
theorem Layout.insertArea {s : State} (hL : Layout C s) {m : Nat} {x : VmArea} (hm : m < s.nmaps)
    (hx : x.vma_start < x.vma_end ∧ C.low ≤ x.vma_start ∧ x.vma_end ≤ C.high)
    (hfree : RangeFree (s.vmm_list m) x.vma_start x.vma_end) (hnew : ∀ m', ∀ a ∈ s.vmm_list m', a.vma_id ≠ x.vma_id)
    (hid : x.vma_id < s.nareas) : Layout C (s.setList m (insertArea m x (s.vmm_list m))) := by
  have hids : ((Vm.insertArea m x (s.vmm_list m)).map (·.vma_id)).Nodup := by
    refine (((insertBefore_perm _).map _).nodup_iff).2 ?_
    rw [List.map_cons, List.nodup_cons]
    refine ⟨?_, hL.ids m⟩
    simp only [List.mem_map, not_exists, not_and]
    exact fun a ha => hnew m a ha
  have hcase : ∀ m', ∀ c ∈ (s.setList m (Vm.insertArea m x (s.vmm_list m))).vmm_list m',
      (m' = m ∧ c.vma_id = x.vma_id) ∨ c ∈ s.vmm_list m' := fun m' c hc => by
    rcases eq_or_ne m' m with rfl | h'
    · simp only [State.setList, Function.update_self, mem_insertArea] at hc
      rcases hc with rfl | hc
      · exact .inl ⟨rfl, rfl⟩
      · exact .inr hc
    · simp only [State.setList, Function.update_of_ne h'] at hc
      exact .inr hc
  constructor
  case areas =>
    intro m'
    rcases eq_or_ne m' m with rfl | h'
    · simpa [State.setList] using (hL.areas m').insertArea hx hfree
    · simpa [State.setList, h'] using hL.areas m'
  case ids =>
    intro m'
    rcases eq_or_ne m' m with rfl | h'
    · simpa [State.setList] using hids
    · simpa [State.setList, h'] using hL.ids m'
  case fresh =>
    intro m' a ha
    rcases hcase m' a ha with ⟨-, he⟩ | ha
    · rw [he]; exact hid
    · exact hL.fresh m' a ha
  case apart =>
    intro m₁ m₂ a ha b hb he
    rcases hcase m₁ a ha with ⟨h1, hid1⟩ | ha <;> rcases hcase m₂ b hb with ⟨h2, hid2⟩ | hb
    · rw [h1, h2]
    · exact absurd (he.symm.trans hid1) (hnew m₂ b hb)
    · exact absurd (he.trans hid2) (hnew m₁ a ha)
    · exact hL.apart m₁ m₂ a ha b hb he
  case unused =>
    intro m' hm'
    have h' : m' ≠ m := by rintro rfl; exact absurd hm' (by simpa [State.setList] using hm)
    simp only [State.setList, Function.update_of_ne h'] at hm' ⊢
    exact hL.unused m' hm'

theorem vmmap_insert_layout {s s' : State} (hL : Layout C s) {m : Nat} {x : VmArea} (hm : m < s.nmaps)
    (hid : x.vma_id < s.nareas) (hnew : ∀ m', ∀ a ∈ s.vmm_list m', a.vma_id ≠ x.vma_id)
    (h : vmmap_insert C s m x = some s') : Layout C s' := by
  obtain ⟨hb, ⟨hfree, rfl⟩ | ⟨-, rfl⟩⟩ := vmmap_insert_cases (hL.areas m) h
  · exact hL.insertArea hm hb hfree hnew hid
  · exact hL

/-! ## Removing -/

/-- What one turn of the loop of `vmmap_remove` does to the area `a`, which
stands between `pre` and `l`. -/
inductive RemoveEffect (s : State) (p m lo fin : Nat) (pre l : List VmArea) (a : VmArea) : State → Bool → Prop
  | split {o b s₁} : fin < a.vma_end → a.vma_start < lo → a.vma_obj = some o → s.bottomOf o = some b →
      mmobj_ref ((s.vmarea_alloc.setList m (pre ++ pieces m s.nareas lo fin a ++ l)).linkVma
        b s.nareas) o = some s₁ →
      RemoveEffect s p m lo fin pre l a (s₁.pt_unmap_range p lo fin) true
  | trim {a' x y done} : ¬ (fin < a.vma_end ∧ a.vma_start < lo) → pieces m s.nareas lo fin a = [a'] →
      a'.vma_id = a.vma_id → lo ≤ x → y ≤ fin → a.vma_start ≤ x → y ≤ a.vma_end →
      (∀ v, a.Has v → ¬ (x ≤ v ∧ v < y) → a'.Has v) → (done = true → fin < a.vma_end) →
      RemoveEffect s p m lo fin pre l a ((s.setList m (pre ++ a' :: l)).pt_unmap_range p x y) done
  | drop {o b s₁} : lo ≤ a.vma_start → a.vma_end ≤ fin → a.vma_obj = some o → s.bottomOf o = some b →
      put (s.unlinkVma b a.vma_id) o = some s₁ →
      RemoveEffect s p m lo fin pre l a ((s₁.setList m (pre ++ l)).pt_unmap_range p a.vma_start a.vma_end) false
  | keep : ¬ (fin < a.vma_end ∧ a.vma_start < lo) → pieces m s.nareas lo fin a = [a] →
      (a.vma_end ≤ lo ∨ fin ≤ a.vma_start) →
      RemoveEffect s p m lo fin pre l a s false

section
variable {s s' : State} {p m lo fin : Nat} {pre l : List VmArea} {a : VmArea} {done : Bool}

theorem modArea_eq (hlist : s.vmm_list m = pre ++ a :: l) (hnd : ((pre ++ a :: l).map (·.vma_id)).Nodup)
    (f : VmArea → VmArea) : s.modArea m a.vma_id f = s.setList m (pre ++ f a :: l) := by
  rw [State.modArea, hlist, map_at_id hnd]

theorem dropArea_eq (hlist : s.vmm_list m = pre ++ a :: l) (hnd : ((pre ++ a :: l).map (·.vma_id)).Nodup) :
    s.dropArea m a.vma_id = s.setList m (pre ++ l) := by
  rw [State.dropArea, hlist, filter_at_id hnd]

theorem vmmap_remove_area_effect (hlf : lo ≤ fin) (hlist : s.vmm_list m = pre ++ a :: l)
    (hok : AreasOk C m (pre ++ a :: l)) (hnd : ((pre ++ a :: l).map (·.vma_id)).Nodup)
    (h : vmmap_remove_area C s p m lo fin a = some (s', done)) : RemoveEffect s p m lo fin pre l a s' done := by
  have hne := hok.sorted.nonempty a (by simp)
  simp only [vmmap_remove_area, bind] at h
  split at h
  next hc =>
    simp only [Option.bind_eq_some_iff, Option.some.injEq, Prod.mk.injEq] at h
    obtain ⟨s₁, hi, o, ho, b, hb, s₂, hr, rfl, rfl⟩ := h
    -- The first half is back in its place; the second half finds its range free.
    have e1 : s.vmarea_alloc.modArea m a.vma_id (VmArea.cutEnd lo) =
        s.vmarea_alloc.setList m (pre ++ a.cutEnd lo :: l) := modArea_eq (s := s.vmarea_alloc) hlist hnd _
    rw [e1] at hi
    have hok' : AreasOk C m (pre ++ a.cutEnd lo :: l) := by
      have := hok.replace (q := [a.cutEnd lo]) ⟨by simp, by simpa using hc.2⟩
        (by simpa using ⟨by omega, hok.owner a (by simp)⟩)
      simpa using this
    obtain ⟨-, ⟨-, rfl⟩ | ⟨hnf, -⟩⟩ := vmmap_insert_cases (by simpa [State.setList] using hok') hi
    · have e2 : insertArea m (splitArea s.nareas fin a) (pre ++ a.cutEnd lo :: l) =
          pre ++ pieces m s.nareas lo fin a ++ l := by
        have hs := (sorted_append.1 hok.sorted).2.2
        obtain ⟨-, h2, -⟩ := sorted_cons.1 (sorted_append.1 hok.sorted).2.1
        rw [insertArea, List.append_cons, insertBefore_append]
        · simp [pieces, hc]
        · intro b hb
          simp only [List.mem_append, List.mem_singleton] at hb
          rcases hb with hb | rfl
          · have := hs b hb a (by simp)
            have := hok.sorted.nonempty b (by simp [hb])
            simp only [splitArea]; omega
          · simp only [splitArea, VmArea.cutEnd_start]; omega
        · intro b hb
          exact h2 b hb
      simp only [State.setList, Function.update_self] at hb hr
      rw [e2, Function.update_idem] at hr
      exact .split hc.1 hc.2 ho hb hr
    · refine absurd ?_ hnf
      simp only [State.setList, Function.update_self]
      intro b hb
      have hs := (sorted_append.1 hok.sorted).2.2
      obtain ⟨-, h2, -⟩ := sorted_cons.1 (sorted_append.1 hok.sorted).2.1
      simp only [List.mem_append, List.mem_cons] at hb
      simp only [splitArea]
      rcases hb with hb | rfl | hb
      · have := hs b hb a (by simp); omega
      · rw [VmArea.cutEnd_end]; omega
      · have := h2 b hb; omega
  next hc =>
    split at h
    next hd =>
      simp only [Option.some.injEq, Prod.mk.injEq] at h
      obtain ⟨rfl, rfl⟩ := h
      rw [modArea_eq (s := s.pt_unmap_range p lo a.vma_end) hlist hnd]
      refine .trim hc (by rw [pieces, if_neg hc, if_pos hd]) rfl le_rfl (by omega) (by omega) le_rfl ?_ (by simp)
      intro v hv hn
      simp only [VmArea.Has, VmArea.cutEnd_start, VmArea.cutEnd_end] at hv ⊢
      omega
    next hd =>
      split at h
      next he =>
        simp only [Option.some.injEq, Prod.mk.injEq] at h
        obtain ⟨rfl, rfl⟩ := h
        rw [modArea_eq (s := s.pt_unmap_range p a.vma_start fin) hlist hnd]
        refine .trim hc (by rw [pieces, if_neg hc, if_neg hd, if_pos he]) rfl (by omega) le_rfl le_rfl (by omega) ?_
          (fun _ => he.1)
        intro v hv hn
        simp only [VmArea.Has, VmArea.cutStart_start, VmArea.cutStart_end] at hv ⊢
        omega
      next he =>
        split at h
        next hf =>
          simp only [Option.bind_eq_some_iff, Option.some.injEq, Prod.mk.injEq] at h
          obtain ⟨o, ho, b, hb, s₁, hp, rfl, rfl⟩ := h
          have hl : s₁.vmm_list m = pre ++ a :: l :=
            (congrFun (congrArg Spaces.vmm_list (put_spaces hp)) m).trans hlist
          rw [dropArea_eq hl hnd]
          exact .drop hf.2 hf.1 ho hb hp
        next hf =>
          simp only [Option.some.injEq, Prod.mk.injEq] at h
          obtain ⟨rfl, rfl⟩ := h
          exact .keep hc (by rw [pieces, if_neg hc, if_neg hd, if_neg he, if_neg hf]) (by omega)

/-- The list after one turn has the pieces of `a` in its place. -/
theorem RemoveEffect.spaces (h : RemoveEffect s p m lo fin pre l a s' done) (hlist : s.vmm_list m = pre ++ a :: l) :
    s'.spaces = s.spaces.withList m (pre ++ pieces m s.nareas lo fin a ++ l)
      (if fin < a.vma_end ∧ a.vma_start < lo then s.nareas + 1 else s.nareas) := by
  cases h with
  | split h1 h2 _ _ hr =>
    rw [State.pt_unmap_range_spaces, mmobj_ref_spaces hr, if_pos ⟨h1, h2⟩]
    rfl
  | trim h1 h2 =>
    rw [State.pt_unmap_range_spaces, State.setList_spaces, if_neg h1, h2]
    simp [State.spaces, Spaces.withList]
  | @drop o b s₁ h1 h2 _ _ hp =>
    have e : s₁.spaces = s.spaces := (put_spaces hp :)
    have e' : pieces m s.nareas lo fin a = [] := by
      unfold pieces
      rw [if_neg (by omega), if_neg (by omega), if_neg (by omega), if_pos ⟨h2, h1⟩]
    have e1 : s₁.vmm_list = s.vmm_list := congrArg Spaces.vmm_list e
    rw [State.pt_unmap_range_spaces, State.setList_spaces, e, e1, e', if_neg (by omega)]
    simp [State.spaces, Spaces.withList]
  | keep h1 h2 =>
    rw [if_neg h1, h2, List.append_assoc, List.singleton_append, ← hlist, Spaces.withList]
    simp [State.spaces]

/-- The new state ends the loop only when the areas behind stay whole. -/
theorem RemoveEffect.done_last (h : RemoveEffect s p m lo fin pre l a s' true) : fin < a.vma_end := by
  cases h with
  | split h1 => exact h1
  | trim _ _ _ _ _ _ _ _ h1 => exact h1 rfl

theorem RemoveEffect.nareas_le (h : RemoveEffect s p m lo fin pre l a s' done) (hlist : s.vmm_list m = pre ++ a :: l) :
    s.nareas ≤ s'.nareas := by
  have e : s'.nareas = if fin < a.vma_end ∧ a.vma_start < lo then s.nareas + 1 else s.nareas :=
    congrArg Spaces.nareas (h.spaces hlist)
  split at e <;> omega

/-- The addresses in the new list: old ones, and the next one after a split. -/
theorem pieces_ids_nodup (hnd : ((pre ++ a :: l).map (·.vma_id)).Nodup) {id : Nat}
    (hid : ∀ b ∈ pre ++ a :: l, b.vma_id ≠ id) : ((pre ++ pieces m id lo fin a ++ l).map (·.vma_id)).Nodup := by
  rw [List.map_append, List.map_append, pieces_ids]
  have hsplit : ((pre.map (·.vma_id) ++ [a.vma_id, id] ++ l.map (·.vma_id))).Perm
      (id :: (pre ++ a :: l).map (·.vma_id)) := by
    simp only [List.map_append, List.map_cons, List.append_assoc, List.cons_append, List.nil_append]
    exact (((List.Perm.swap _ _ _).append_left _).trans List.perm_middle)
  split
  · rw [hsplit.nodup_iff, List.nodup_cons]
    refine ⟨fun h => ?_, hnd⟩
    obtain ⟨b, hb, he⟩ := List.mem_map.1 h
    exact hid b hb he
  · split
    · rw [List.append_nil, ← List.map_append]
      exact hnd.sublist (((List.sublist_cons_self a l).append_left pre).map _)
    · simpa using hnd

/-- One turn keeps the layout. -/
theorem RemoveEffect.layout (h : RemoveEffect s p m lo fin pre l a s' done) (hlf : lo ≤ fin) (hL : Layout C s)
    (hlist : s.vmm_list m = pre ++ a :: l) : Layout C s' := by
  have hC := C.high_lt
  have hsp := h.spaces hlist
  have hok := hL.areas m
  rw [hlist] at hok
  have ha : a ∈ s.vmm_list m := by rw [hlist]; simp
  have hne := hok.sorted.nonempty a (by simp)
  have hhigh := hok.high a (by simp)
  have hpre : ∀ b ∈ pre ++ a :: l, b.vma_id ≠ s.nareas := fun b hb => by
    have := hL.fresh m b (by rw [hlist]; exact hb); omega
  refine hL.update (m := m) (congrArg Spaces.vmm_list hsp) (h.nareas_le hlist)
    (by rw [show s'.nmaps = s.nmaps from congrArg Spaces.nmaps hsp])
    (fun hle => ?_) (hok.replace (pieces_sorted hlf hne) fun b hb => ?_)
    (pieces_ids_nodup (by rw [← hlist]; exact hL.ids m) hpre) (fun b hb => ?_)
  · have := hL.created ha
    rw [show s'.nmaps = s.nmaps from congrArg Spaces.nmaps hsp] at hle
    omega
  · have hp := pieceOf_mem hlf hne (by omega) hb
    exact ⟨hp.start_le, hp.le_end, pieces_owner (hok.owner a (by simp)) hb⟩
  · have hn : s'.nareas = if _ then _ else _ := congrArg Spaces.nareas hsp
    have hold : ∀ b ∈ s.vmm_list m, b.vma_id < s'.nareas ∧ (s.nareas ≤ b.vma_id ∨ ∃ c ∈ s.vmm_list m, c.vma_id = b.vma_id) :=
      fun b hb => ⟨(hL.fresh m b hb).trans_le (h.nareas_le hlist), .inr ⟨b, hb, rfl⟩⟩
    simp only [List.mem_append, or_assoc] at hb
    rcases hb with hb | hb | hb
    · exact hold b (by rw [hlist]; simp [hb])
    · have hid := List.mem_map_of_mem (f := (·.vma_id)) hb
      rw [pieces_ids] at hid
      split at hid
      next hsplit =>
        rw [if_pos hsplit] at hn
        simp only [List.mem_cons, List.not_mem_nil, or_false] at hid
        rcases hid with hid | hid
        · rw [hid]; exact hold a ha
        · rw [hid]; exact ⟨by omega, .inl le_rfl⟩
      · split at hid
        · cases hid
        · rw [List.mem_singleton.1 hid]; exact hold a ha
    · exact hold b (by rw [hlist]; simp [hb])

/-- The rule for the loop of `vmmap_remove`: what every turn keeps, the call keeps. -/
theorem vmmap_remove_rule {I : State → Prop} {npages : Nat} (hlf : lo + npages < 2 ^ 32)
    (hstep : ∀ {s s' pre a l done}, Layout C s → s.vmm_list m = pre ++ a :: l →
      RemoveEffect s p m lo (lo + npages) pre l a s' done → I s → I s')
    (hL : Layout C s) (hI : I s) (h : vmmap_remove C s p m lo npages = some s') : Layout C s' ∧ I s' := by
  rw [vmmap_remove, u32_of_lt hlf] at h
  have hgo : ∀ (l pre : List VmArea) (s s' : State), Layout C s → I s → s.vmm_list m = pre ++ l →
      vmmap_remove_from C p m lo (lo + npages) s l = some s' → Layout C s' ∧ I s' := by
    intro l
    induction l with
    | nil => intro pre s s' hL hI _ h; cases h; exact ⟨hL, hI⟩
    | cons a l ih =>
      intro pre s s' hL hI hlist h
      simp only [vmmap_remove_from, bind, Option.bind_eq_some_iff, Prod.exists] at h
      obtain ⟨s₁, done, h1, h2⟩ := h
      have heff := vmmap_remove_area_effect (Nat.le_add_right _ _) hlist (by rw [← hlist]; exact hL.areas m)
        (by rw [← hlist]; exact hL.ids m) h1
      have hL₁ := heff.layout (Nat.le_add_right _ _) hL hlist
      have hI₁ := hstep hL hlist heff hI
      split at h2
      · cases h2; exact ⟨hL₁, hI₁⟩
      · refine ih (pre ++ pieces m s.nareas lo (lo + npages) a) s₁ s' hL₁ hI₁ ?_ h2
        have e := congrFun (congrArg Spaces.vmm_list (heff.spaces hlist)) m
        simpa [State.spaces, Spaces.withList] using e
  exact hgo _ [] s s' hL hI rfl h

theorem vmmap_remove_layout {npages : Nat} (hlf : lo + npages < 2 ^ 32) (hL : Layout C s)
    (h : vmmap_remove C s p m lo npages = some s') : Layout C s' :=
  (vmmap_remove_rule (I := fun _ => True) hlf (fun _ _ _ _ => trivial) hL trivial h).1

/-- After a removal an area has the address it had, or a new one. -/
theorem vmmap_remove_ids {npages : Nat} (hlf : lo + npages < 2 ^ 32) (hL : Layout C s)
    (h : vmmap_remove C s p m lo npages = some s') : s'.nmaps = s.nmaps ∧ s.nareas ≤ s'.nareas ∧
      ∀ m', ∀ a ∈ s'.vmm_list m', (∃ b ∈ s.vmm_list m', b.vma_id = a.vma_id) ∨ s.nareas ≤ a.vma_id := by
  refine (vmmap_remove_rule (I := fun t => t.nmaps = s.nmaps ∧ s.nareas ≤ t.nareas ∧
    ∀ m', ∀ a ∈ t.vmm_list m', (∃ b ∈ s.vmm_list m', b.vma_id = a.vma_id) ∨ s.nareas ≤ a.vma_id) hlf ?_ hL
    ⟨rfl, le_rfl, fun m' a ha => .inl ⟨a, ha, rfl⟩⟩ h).2
  rintro t t' pre a l done - hlist heff ⟨hm, hn, hids⟩
  have hsp := heff.spaces hlist
  refine ⟨(congrArg Spaces.nmaps hsp).trans hm, hn.trans (heff.nareas_le hlist), fun m' b hb => ?_⟩
  have hl : t'.vmm_list = _ := congrArg Spaces.vmm_list hsp
  rw [hl] at hb
  simp only [Spaces.withList] at hb
  rcases eq_or_ne m' m with rfl | hne
  · rw [Function.update_self] at hb
    simp only [List.mem_append, or_assoc] at hb
    rcases hb with hb | hb | hb
    · exact hids m' b (by rw [hlist]; simp [hb])
    · have hid := List.mem_map_of_mem (f := (·.vma_id)) hb
      have ha := hids m' a (by rw [hlist]; simp)
      rw [pieces_ids] at hid
      split at hid
      · simp only [List.mem_cons, List.not_mem_nil, or_false] at hid
        rcases hid with hid | hid
        · rw [hid]; exact ha
        · rw [hid]; exact .inr hn
      · split at hid
        · cases hid
        · rw [List.mem_singleton.1 hid]; exact ha
    · exact hids m' b (by rw [hlist]; simp [hb])
  · rw [Function.update_of_ne hne] at hb
    exact hids m' b hb

/-- `vmmap_remove` cuts every area of the map, and changes no other map. -/
theorem vmmap_remove_list {npages : Nat} (hlf : lo + npages < 2 ^ 32) (hL : Layout C s)
    (h : vmmap_remove C s p m lo npages = some s') :
    s'.spaces = s.spaces.withList m ((s.vmm_list m).flatMap (pieces m s.nareas lo (lo + npages))) s'.nareas := by
  rw [vmmap_remove, u32_of_lt hlf] at h
  have hgo : ∀ (l pre : List VmArea) (s s' : State), Layout C s → s.vmm_list m = pre ++ l →
      vmmap_remove_from C p m lo (lo + npages) s l = some s' → s'.spaces =
        s.spaces.withList m (pre ++ l.flatMap (pieces m s.nareas lo (lo + npages))) s'.nareas := by
    intro l
    induction l with
    | nil =>
      intro pre s s' _ hlist h
      cases h
      rw [List.flatMap_nil, ← hlist, Spaces.withList]
      simp [State.spaces]
    | cons a l ih =>
      intro pre s s' hL hlist h
      simp only [vmmap_remove_from, bind, Option.bind_eq_some_iff, Prod.exists] at h
      obtain ⟨s₁, done, h1, h2⟩ := h
      have hok := hL.areas m
      rw [hlist] at hok
      have heff := vmmap_remove_area_effect (Nat.le_add_right _ _) hlist hok (by rw [← hlist]; exact hL.ids m) h1
      have hL₁ := heff.layout (Nat.le_add_right _ _) hL hlist
      have hsp := heff.spaces hlist
      have hlist₁ : s₁.vmm_list m = pre ++ pieces m s.nareas lo (lo + npages) a ++ l := by
        simpa [State.spaces, Spaces.withList] using congrFun (congrArg Spaces.vmm_list hsp) m
      have hn₁ : s₁.nareas = if _ then _ else _ := congrArg Spaces.nareas hsp
      obtain ⟨-, hbehind, hrest⟩ := sorted_cons.1 (sorted_append.1 hok.sorted).2.1
      split at h2
      next hdone =>
        cases h2
        -- The loop ends here, and the areas behind stay whole.
        subst hdone
        have hlast := heff.done_last
        have e : l.flatMap (pieces m s.nareas lo (lo + npages)) = l := by
          rw [List.flatMap_congr (g := fun b => [b]) fun b hb => ?_]
          · exact List.flatMap_singleton' l
          · have := hbehind b hb
            exact pieces_behind (Nat.le_add_right _ _) (hrest.nonempty b hb) (by omega)
        rw [List.flatMap_cons, e, ← List.append_assoc, hn₁, hsp]
      next hdone =>
        have hsame : s₁.nareas = s.nareas ∨ ∀ b ∈ l, lo + npages ≤ b.vma_start := by
          split at hn₁
          next hsplit => exact .inr fun b hb => by have := hbehind b hb; omega
          next => exact .inl hn₁
        have e : l.flatMap (pieces m s₁.nareas lo (lo + npages)) = l.flatMap (pieces m s.nareas lo (lo + npages)) := by
          rcases hsame with hsame | hfar
          · rw [hsame]
          · refine List.flatMap_congr fun b hb => ?_
            rw [pieces_behind (Nat.le_add_right _ _) (hrest.nonempty b hb) (hfar b hb),
              pieces_behind (Nat.le_add_right _ _) (hrest.nonempty b hb) (hfar b hb)]
        have hih := ih _ s₁ s' hL₁ hlist₁ h2
        rw [hih, hsp, e, Spaces.withList_withList, List.flatMap_cons, List.append_assoc pre]
  exact hgo _ [] s s' hL rfl h

end

end Weenix.Vm
