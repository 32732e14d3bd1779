import Weenix.Vm.Backing
/-!
# Removing areas

`vmmap_remove` and `vmmap_destroy` return where the references are counted, and
keep the count: a split shares the object between two areas and takes a
reference, a removed area puts its own.
-/

namespace Weenix.Vm

open Lib

variable {C : Config} {s s' t : State} {o b m : Nat} {a : VmArea} {ob : Mmobj} {held : Nat → Int}

/-! ## The lists -/

section
variable {p lo fin : Nat} {pre l : List VmArea} {done : Bool}

theorem mem_middle {α : Type} {x y : α} {pre l : List α} : x ∈ pre ++ y :: l ↔ x ∈ pre ++ l ∨ x = y := by
  simp only [List.mem_append, List.mem_cons]
  tauto

/-- An area of the list besides `a` has another address. -/
theorem id_ne_of_middle (hL : Layout C s) (hlist : s.vmm_list m = pre ++ a :: l) {c : VmArea} (hc : c ∈ pre ++ l) :
    c.vma_id ≠ a.vma_id := by
  have hnd := hL.ids m
  rw [hlist] at hnd
  obtain ⟨h1, h2⟩ := ids_apart hnd
  rcases List.mem_append.1 hc with hc | hc
  · exact h1 c hc
  · exact h2 c hc

/-- An area listed for `b` is one of map `m`, or none of its areas has the address. -/
theorem Hung.listed_at (h : Hung s) (hL : Layout C s) (m : Nat) {id : Nat} (hid : id ∈ s.mmo_vmas b) :
    (∃ a ∈ s.vmm_list m, a.vma_id = id ∧ ∃ o, a.vma_obj = some o ∧ s.bottomOf o = some b) ∨
      ∀ a ∈ s.vmm_list m, a.vma_id ≠ id := by
  obtain ⟨m', a, ha, rfl, ho⟩ := h.listed b id hid
  by_cases e : m' = m
  · exact .inl ⟨a, e ▸ ha, rfl, ho⟩
  · exact .inr fun c hc he => e (hL.apart m' m a ha c hc he.symm)

/-- An area may be replaced by one with its address, object and flags. -/
theorem Hung.trim (h : Hung s) (hL : Layout C s) (hlist : s.vmm_list m = pre ++ a :: l) {a' : VmArea}
    (hid : a'.vma_id = a.vma_id) (hobj : a'.vma_obj = a.vma_obj) (hflags : a'.vma_flags = a.vma_flags) :
    Hung (s.setList m (pre ++ a' :: l)) := by
  have ha : a ∈ s.vmm_list m := by rw [hlist]; simp
  refine h.setList _ rfl rfl (fun c hc o ho => ?_) (fun _ _ _ _ _ h => h) h.once fun b id hid' => ?_
  · rcases mem_middle.1 hc with hc | rfl
    · have hc' : c ∈ s.vmm_list m := by rw [hlist]; exact mem_middle.2 (.inl hc)
      exact ⟨h.areas m c hc' o ho, h.linked m c hc' o ho⟩
    · have hs := h.areas m a ha o (hobj ▸ ho)
      unfold Suits at hs ⊢
      rw [hflags, hid]
      exact ⟨hs, h.linked m a ha o (hobj ▸ ho)⟩
  · rcases h.listed_at hL m hid' with ⟨c, hc, he, ho⟩ | hout
    · rw [hlist] at hc
      rcases mem_middle.1 hc with hc | rfl
      · exact .inl ⟨c, mem_middle.2 (.inl hc), he, ho⟩
      · exact .inl ⟨a', by simp, hid.trans he, by rw [hobj]; exact ho⟩
    · exact .inr ⟨hid', hout⟩

/-- An area may be split; the second half comes to the end of the list of its bottom object. -/
theorem Hung.split (h : Hung s) (hL : Layout C s) (hlist : s.vmm_list m = pre ++ a :: l) (ho : a.vma_obj = some o)
    (hb : s.bottomOf o = some b) {a₁ a₂ : VmArea} (hid₁ : a₁.vma_id = a.vma_id) (hid₂ : a₂.vma_id = s.nareas)
    (hq : ∀ c ∈ [a₁, a₂], c.vma_obj = a.vma_obj ∧ c.vma_flags = a.vma_flags) :
    Hung ((s.vmarea_alloc.setList m (pre ++ [a₁, a₂] ++ l)).linkVma b s.nareas) := by
  have ha : a ∈ s.vmm_list m := by rw [hlist]; simp
  have hnew : ∀ b, s.nareas ∉ s.mmo_vmas b := fun b hid => by
    obtain ⟨m', c, hc, he, -⟩ := h.listed b _ hid
    exact (hL.fresh m' c hc).ne he
  have hold : ∀ c ∈ pre ++ l, c ∈ s.vmm_list m := fun c hc => by rw [hlist]; exact mem_middle.2 (.inl hc)
  refine h.setList (pre ++ [a₁, a₂] ++ l) rfl rfl (fun c hc o' ho' => ?_) (fun _ _ c _ b' hid => mem_linkVma.2 (.inl hid))
    (linkVma_once h.once (hnew b)) fun b' id hid => ?_
  · have hc' : c ∈ pre ++ l ∨ c ∈ [a₁, a₂] := by
      simp only [List.mem_append] at hc ⊢
      tauto
    rcases hc' with hc | hc
    · obtain ⟨b', h1, h2⟩ := h.linked m c (hold c hc) o' ho'
      exact ⟨h.areas m c (hold c hc) o' ho', b', h1, mem_linkVma.2 (.inl h2)⟩
    · obtain ⟨hobj, hflags⟩ := hq c hc
      obtain rfl : o = o' := Option.some.inj (ho.symm.trans (hobj.symm.trans ho'))
      have hs := h.areas m a ha o ho
      unfold Suits at hs ⊢
      rw [hflags]
      refine ⟨hs, b, hb, mem_linkVma.2 ?_⟩
      simp only [List.mem_cons, List.not_mem_nil, or_false] at hc
      rcases hc with rfl | rfl
      · exact .inl (by rw [hid₁]; exact (h.own_list hL ha ho hb).2 rfl)
      · exact .inr ⟨hid₂, rfl⟩
  · rcases mem_linkVma.1 hid with hid | ⟨rfl, rfl⟩
    · rcases h.listed_at hL m hid with ⟨c, hc, he, ho'⟩ | hout
      · rw [hlist] at hc
        rcases mem_middle.1 hc with hc | rfl
        · refine .inl ⟨c, ?_, he, ho'⟩
          simp only [List.mem_append] at hc ⊢
          tauto
        · exact .inl ⟨a₁, by simp, hid₁.trans he, by rw [(hq a₁ (by simp)).1]; exact ho'⟩
      · exact .inr ⟨hid, hout⟩
    · exact .inl ⟨a₂, by simp, hid₂, o, by rw [(hq a₂ (by simp)).1]; exact ho, hb⟩

/-- An area may be taken off both lists. -/
theorem Hung.drop (h : Hung s) (hL : Layout C s) (hlist : s.vmm_list m = pre ++ a :: l) (ho : a.vma_obj = some o)
    (hb : s.bottomOf o = some b) : Hung ((s.unlinkVma b a.vma_id).setList m (pre ++ l)) := by
  have ha : a ∈ s.vmm_list m := by rw [hlist]; simp
  have hvmas : ∀ b' id, id ∈ Function.update s.mmo_vmas b ((s.mmo_vmas b).erase a.vma_id) b' ↔
      id ≠ a.vma_id ∧ id ∈ s.mmo_vmas b' := fun b' id => by
    by_cases e : b' = b
    · subst e
      rw [Function.update_self, (h.once b').mem_erase_iff]
    · rw [Function.update_of_ne e]
      refine ⟨fun hid => ⟨?_, hid⟩, fun hid => hid.2⟩
      rintro rfl
      exact e ((h.own_list hL ha ho hb).1 hid)
  refine h.setList (pre ++ l) rfl rfl (fun c hc o' ho' => ?_) (fun m' hm' c hc b' hid => ?_) (fun b' => ?_)
    fun b' id hid => ?_
  · have hc' : c ∈ s.vmm_list m := by rw [hlist]; exact mem_middle.2 (.inl hc)
    obtain ⟨b', h1, h2⟩ := h.linked m c hc' o' ho'
    refine ⟨h.areas m c hc' o' ho', b', h1, ?_⟩
    exact (hvmas b' _).2 ⟨id_ne_of_middle hL hlist hc, h2⟩
  · exact (hvmas b' _).2 ⟨fun e => hm' (hL.apart m' m c hc a ha e), hid⟩
  · show (Function.update s.mmo_vmas b ((s.mmo_vmas b).erase a.vma_id) b').Nodup
    by_cases e : b' = b
    · rw [e, Function.update_self]
      exact (h.once b).erase _
    · rw [Function.update_of_ne e]
      exact h.once b'
  · obtain ⟨hne, hid⟩ := (hvmas b' id).1 hid
    rcases h.listed_at hL m hid with ⟨c, hc, rfl, ho'⟩ | hout
    · rw [hlist] at hc
      rcases mem_middle.1 hc with hc | rfl
      · exact .inl ⟨c, hc, rfl, ho'⟩
      · exact absurd rfl hne
    · exact .inr ⟨hid, hout⟩

end

/-! ## One turn -/

theorem mmobj_ref_cases (h : mmobj_ref s o = some s') :
    0 < s.mmo_refcount o ∧ s' = s.setRefcount o (s.mmo_refcount o + 1) := by
  simp only [mmobj_ref, bind, Option.bind_eq_some_iff, KASSERT_eq_some, Option.some.injEq] at h
  obtain ⟨-, -, -, hr, rfl⟩ := h
  exact ⟨hr, rfl⟩

section
variable {p lo fin : Nat} {pre l : List VmArea} {done : Bool}

/-- The `put` of an area that is removed. -/
theorem Backing.put_area (h : Backing C held s) (hheld : ∀ o, 0 ≤ held o) (ha : a ∈ s.vmm_list m) (ho : a.vma_obj = some o) (b : Nat) :
    ∃ t, put (s.unlinkVma b a.vma_id) o = some t ∧ PutEffect (s.unlinkVma b a.vma_id) o t := by
  obtain ⟨ob, hob, hs⟩ := h.hung.areas m a ha o ho
  have hops : ob.mmo_ops ≠ .anon := fun e => by
    split at hs
    · simp [Mmobj.isFile, e] at hs
    · rw [e] at hs; cases hs
  have hst : Steady (s.unlinkVma b a.vma_id) := by
    refine ⟨h.chains.congr rfl rfl, h.frames.congr rfl rfl rfl rfl rfl rfl, h.idle, fun b' id hid => ?_⟩
    refine h.hung.listed_areas h.layout b' id ?_
    simp only [State.unlinkVma] at hid
    by_cases e : b' = b
    · subst e
      rw [Function.update_self] at hid
      exact List.mem_of_mem_erase hid
    · rwa [Function.update_of_ne e] at hid
  exact put_total hst h.num hob hops (h.area_pos hheld ha ho)

/-- One turn keeps the references counted. -/
theorem Backing.turn (h : Backing C held s) (hheld : ∀ o, 0 ≤ held o) (hlf : lo ≤ fin) (hlist : s.vmm_list m = pre ++ a :: l)
    (heff : RemoveEffect s p m lo fin pre l a s' done) : Backing C held s' := by
  have hL' := heff.layout hlf h.layout hlist
  have ha : a ∈ s.vmm_list m := by rw [hlist]; simp
  have hm := h.layout.created ha
  have hok := h.layout.areas m
  have hC := C.high_lt
  have hpiece : ∀ c ∈ pieces m s.nareas lo fin a, c.vma_obj = a.vma_obj ∧ c.vma_flags = a.vma_flags := fun c hc => by
    have := pieceOf_mem hlf (hok.sorted.nonempty a ha) ((hok.high a ha).trans_lt (by omega)) hc
    exact ⟨this.obj, this.flags⟩
  cases heff with
  | keep => exact h
  | @trim a' x y _ h1 h2 hid =>
    obtain ⟨hobj, hflags⟩ := hpiece a' (by rw [h2]; simp)
    refine ⟨hL', h.chains.congr rfl rfl, h.frames.congr rfl rfl rfl rfl rfl rfl, h.idle, ?_, ?_, h.num⟩
    · exact (h.hung.trim h.layout hlist hid hobj hflags).congr rfl rfl rfl
    · refine h.counted.replace (q := [a']) hm hlist ?_ rfl rfl rfl fun x => ?_
      · simp [State.pt_unmap_range, State.setList]
      · by_cases e : a.vma_obj = some x
        · simp [hobj, e, State.pt_unmap_range, State.setList]
        · simp [hobj, e, State.pt_unmap_range, State.setList]
  | @split o b s₁ h1 h2 ho hb hr =>
    obtain ⟨-, rfl⟩ := mmobj_ref_cases hr
    have hq : pieces m s.nareas lo fin a = [a.cutEnd lo, { splitArea s.nareas fin a with vma_vmmap := some m }] := by
      unfold pieces
      rw [if_pos ⟨h1, h2⟩]
    rw [hq] at hpiece hL' ⊢
    have hung : Hung ((s.vmarea_alloc.setList m
        (pre ++ [a.cutEnd lo, { splitArea s.nareas fin a with vma_vmmap := some m }] ++ l)).linkVma b s.nareas) :=
      h.hung.split h.layout hlist ho hb rfl rfl hpiece
    refine ⟨hL', h.chains.congr rfl rfl, h.frames.congr rfl rfl rfl rfl rfl rfl, h.idle, hung.congr rfl rfl rfl, ?_, h.num⟩
    -- both halves have the object, which gets a reference
    refine h.counted.replace hm hlist rfl rfl rfl rfl fun x => ?_
    by_cases e : x = o
    · subst e
      simp [State.pt_unmap_range, State.linkVma, State.setList, State.vmarea_alloc, State.setRefcount, splitArea,
        VmArea.cutEnd, ho]
      omega
    · have e' : ¬ o = x := fun h => e h.symm
      simp [State.pt_unmap_range, State.linkVma, State.setList, State.vmarea_alloc, State.setRefcount, splitArea,
        VmArea.cutEnd, ho, e, e']
  | @drop o b s₁ h1 h2 ho hb hp =>
    obtain ⟨t, hput, he⟩ := h.put_area hheld ha ho b
    rw [hp] at hput
    cases hput
    obtain ⟨e1, e2, e3, e4, e5⟩ := he.rest
    have el : s₁.vmm_list = s.vmm_list := congrArg Spaces.vmm_list e1
    have em : s₁.nmaps = s.nmaps := congrArg Spaces.nmaps e1
    have hlist' : Function.update s₁.vmm_list m (pre ++ l) = Function.update s.vmm_list m (pre ++ l) := by rw [el]
    refine ⟨hL', h.chains.congr e2 e3, (he.frames ?_).congr rfl rfl rfl rfl rfl rfl, he.idle h.idle, ?_, ?_, e5.trans h.num⟩
    · exact h.frames.congr rfl rfl rfl rfl rfl rfl
    · exact (h.hung.drop h.layout hlist ho hb).congr e2 hlist' e4
    · refine h.counted.replace (q := []) hm hlist ?_ em e2 e3 fun x => ?_
      · rw [List.append_nil]
        exact hlist'
      · have hc := he.counts (Nat.zero_lt_of_lt (h.area_pos hheld ha ho)) x
        show (s₁.mmo_refcount x : Int) + s.mmo_nrespages x + held x + _ =
          s.mmo_refcount x + s₁.mmo_nrespages x + held x + 0
        simp only [State.unlinkVma] at hc
        rw [ho]
        by_cases e : x = o
        · rw [if_pos e] at hc
          rw [if_pos (by rw [e])]
          omega
        · rw [if_neg e] at hc
          rw [if_neg fun h => e (Option.some.inj h).symm]
          omega

/-- One turn frees no object. -/
theorem Backing.turn_objs (h : Backing C held s) (hheld : ∀ o, 0 ≤ held o) (hlist : s.vmm_list m = pre ++ a :: l)
    (heff : RemoveEffect s p m lo fin pre l a s' done) : s'.objs = s.objs ∧ s'.nobjs = s.nobjs := by
  have ha : a ∈ s.vmm_list m := by rw [hlist]; simp
  cases heff with
  | keep => exact ⟨rfl, rfl⟩
  | trim => exact ⟨rfl, rfl⟩
  | split _ _ _ _ hr =>
    obtain ⟨-, rfl⟩ := mmobj_ref_cases hr
    exact ⟨rfl, rfl⟩
  | @drop o b s₁ _ _ ho _ hp =>
    obtain ⟨t, hput, he⟩ := h.put_area hheld ha ho b
    rw [hp] at hput
    cases hput
    exact ⟨he.rest.2.1, he.rest.2.2.1⟩

/-! ## The loops -/

/-- Every area has an object. -/
def Settled (s : State) : Prop := ∀ m, ∀ a ∈ s.vmm_list m, ∃ o, a.vma_obj = some o

theorem Settled.congr (h : Settled s) (h1 : s'.vmm_list = s.vmm_list) : Settled s' := by
  unfold Settled
  rw [h1]
  exact h

theorem Settled.turn (h : Settled s) (hlf : lo ≤ fin) (hL : Layout C s) (hlist : s.vmm_list m = pre ++ a :: l)
    (heff : RemoveEffect s p m lo fin pre l a s' done) : Settled s' := by
  have ha : a ∈ s.vmm_list m := by rw [hlist]; simp
  have hok := hL.areas m
  have hC := C.high_lt
  have hl : s'.vmm_list = Function.update s.vmm_list m (pre ++ pieces m s.nareas lo fin a ++ l) :=
    congrArg Spaces.vmm_list (heff.spaces hlist)
  intro m' c hc
  rw [hl] at hc
  by_cases e : m' = m
  · subst e
    rw [Function.update_self] at hc
    simp only [List.mem_append, or_assoc] at hc
    rcases hc with hc | hc | hc
    · exact h m' c (by rw [hlist]; simp [hc])
    · rw [(pieceOf_mem hlf (hok.sorted.nonempty a ha) ((hok.high a ha).trans_lt (by omega)) hc).obj]
      exact h m' a ha
    · exact h m' c (by rw [hlist]; simp [hc])
  · rw [Function.update_of_ne e] at hc
    exact h m' c hc

theorem vmmap_insert_total {x : VmArea} (hx : x.vma_vmmap = none) (hne : x.vma_start < x.vma_end)
    (hlow : C.low ≤ x.vma_start) (hhigh : x.vma_end ≤ C.high) (s : State) (m : Nat) :
    ∃ l, vmmap_insert C s m x = some (s.setList m l) := by
  have hC := C.high_lt
  have hfin : u32 (x.vma_start + usub x.vma_end x.vma_start) = x.vma_end := by
    rw [usub_of_le hne.le (by omega), u32_of_lt (by omega)]
    omega
  unfold vmmap_insert
  by_cases he : range_empty_from C x.vma_start x.vma_end C.low (s.vmm_list m) = true
  · refine ⟨insertArea m x (s.vmm_list m), ?_⟩
    simp [KASSERT, vmmap_is_range_empty, hx, hne, hlow, hhigh, hfin, he, insertArea]
  · refine ⟨s.vmm_list m, ?_⟩
    simp [KASSERT, vmmap_is_range_empty, hx, hne, hlow, hhigh, hfin, he, State.setList]

theorem mmobj_ref_total (ho : s.objs o = some ob) (hr : 0 < s.mmo_refcount o) :
    mmobj_ref s o = some (s.setRefcount o (s.mmo_refcount o + 1)) := by
  simp [mmobj_ref, KASSERT, ho, hr]

/-- Removing `[lo, fin)` splits the area or takes it away, and its object is used. -/
def VmArea.Follows (lo fin : Nat) (a : VmArea) : Prop :=
  fin < a.vma_end ∧ a.vma_start < lo ∨ a.vma_end ≤ fin ∧ lo ≤ a.vma_start

/-- The areas whose objects are used have them. -/
def Removable (l : List VmArea) (lo fin : Nat) : Prop := ∀ a ∈ l, a.Follows lo fin → ∃ o, a.vma_obj = some o

/-- One turn returns. -/
theorem vmmap_remove_area_total (h : Backing C held s) (hheld : ∀ o, 0 ≤ held o) (hlf : lo ≤ fin) (hlist : s.vmm_list m = pre ++ a :: l)
    (ho : a.Follows lo fin → ∃ o, a.vma_obj = some o) : ∃ s' done, vmmap_remove_area C s p m lo fin a = some (s', done) := by
  have ha : a ∈ s.vmm_list m := by rw [hlist]; simp
  have hok := h.layout.areas m
  unfold vmmap_remove_area
  split
  next hc =>
    obtain ⟨o, ho⟩ := ho (.inl hc)
    obtain ⟨ob, hob, -⟩ := h.hung.areas m a ha o ho
    obtain ⟨b, hb⟩ := h.chains.bottom hob
    have hobj : (splitArea s.nareas fin a).vma_obj = some o := ho
    have hlow : C.low ≤ fin := (hok.low a ha).trans (hc.2.le.trans hlf)
    obtain ⟨l', hins⟩ := vmmap_insert_total (x := splitArea s.nareas fin a) rfl hc.1 hlow (hok.high a ha)
      (s.vmarea_alloc.modArea m a.vma_id (VmArea.cutEnd lo)) m
    have hb' : ((s.vmarea_alloc.modArea m a.vma_id (VmArea.cutEnd lo)).setList m l').bottomOf o = some b := hb
    have href := mmobj_ref_total (s := ((s.vmarea_alloc.modArea m a.vma_id (VmArea.cutEnd lo)).setList m l').linkVma b
      (splitArea s.nareas fin a).vma_id) hob (Nat.zero_lt_of_lt (h.area_pos hheld ha ho))
    simp only [hins, hobj, hb', href, bind, Option.bind_some]
    exact ⟨_, _, rfl⟩
  next =>
    split
    · exact ⟨_, _, rfl⟩
    · split
      · exact ⟨_, _, rfl⟩
      · split
        next hc =>
          obtain ⟨o, ho⟩ := ho (.inr hc)
          obtain ⟨ob, hob, -⟩ := h.hung.areas m a ha o ho
          obtain ⟨b, hb⟩ := h.chains.bottom hob
          obtain ⟨t, hput, -⟩ := h.put_area hheld ha ho b
          simp only [ho, hb, hput, bind, Option.bind_some]
          exact ⟨_, _, rfl⟩
        · exact ⟨_, _, rfl⟩

/-- What an operation keeps: references are counted, every area has an object, and no object is freed. -/
structure Kept (C : Config) (held : Nat → Int) (s s' : State) : Prop where
  backing : Backing C held s'
  settled : Settled s'
  objs : ∀ o ob, s.objs o = some ob → s'.objs o = some ob
  nobjs : s.nobjs ≤ s'.nobjs

theorem Kept.trans (h : Kept C held s t) (h' : Kept C held t s') : Kept C held s s' :=
  ⟨h'.backing, h'.settled, fun o ob ho => h'.objs o ob (h.objs o ob ho), h.nobjs.trans h'.nobjs⟩

/-- `vmmap_remove` returns when the objects it uses are there. -/
theorem vmmap_remove_returns {npages : Nat} (h : Backing C held s) (hheld : ∀ o, 0 ≤ held o) (hlt : lo + npages < 2 ^ 32)
    (hr : Removable (s.vmm_list m) lo (lo + npages)) : ∃ s', vmmap_remove C s p m lo npages = some s' := by
  have hgo : ∀ (l pre : List VmArea) (s : State), Backing C held s → Removable l lo (lo + npages) → s.vmm_list m = pre ++ l →
      ∃ s', vmmap_remove_from C p m lo (lo + npages) s l = some s' := by
    intro l
    induction l with
    | nil => exact fun _ s _ _ _ => ⟨s, rfl⟩
    | cons a l ih =>
      intro pre s h hr hlist
      obtain ⟨s₁, done, h1⟩ := vmmap_remove_area_total (p := p) h hheld (Nat.le_add_right lo npages) hlist (hr a (by simp))
      have hnd := h.layout.ids m
      have hok := h.layout.areas m
      rw [hlist] at hnd hok
      have heff := vmmap_remove_area_effect (Nat.le_add_right _ _) hlist hok hnd h1
      simp only [vmmap_remove_from, h1, bind, Option.bind_some]
      cases done with
      | true => exact ⟨s₁, rfl⟩
      | false =>
        refine ih (pre ++ pieces m s.nareas lo (lo + npages) a) s₁ (h.turn hheld (Nat.le_add_right _ _) hlist heff)
          (fun b hb => hr b (List.mem_cons_of_mem a hb)) ?_
        have e := congrFun (congrArg Spaces.vmm_list (heff.spaces hlist)) m
        simpa [State.spaces, Spaces.withList] using e
  unfold vmmap_remove
  rw [u32_of_lt hlt]
  exact hgo (s.vmm_list m) [] s h hr rfl

theorem vmmap_remove_total {npages : Nat} (h : Backing C held s) (hheld : ∀ o, 0 ≤ held o) (hs : Settled s) (hlt : lo + npages < 2 ^ 32) :
    ∃ s', vmmap_remove C s p m lo npages = some s' ∧ Kept C held s s' := by
  obtain ⟨s', hr⟩ := vmmap_remove_returns (p := p) h hheld hlt fun a ha _ => hs m a ha
  refine ⟨s', hr, (vmmap_remove_rule (I := fun t => Kept C held s t) hlt (fun hL hlist heff hI => ?_) h.layout
    ⟨h, hs, fun _ _ ho => ho, le_rfl⟩ hr).2⟩
  obtain ⟨e1, e2⟩ := hI.backing.turn_objs hheld hlist heff
  exact hI.trans ⟨hI.backing.turn hheld (Nat.le_add_right _ _) hlist heff,
    hI.settled.turn (Nat.le_add_right _ _) hL hlist heff, fun o ob ho => e1 ▸ ho, e2.ge⟩

theorem vmmap_destroy_total (h : Backing C held s) (hheld : ∀ o, 0 ≤ held o) (hs : Settled s) :
    ∃ s', vmmap_destroy C s p m = some s' ∧ Kept C held s s' := by
  have hC := C.high_lt
  have hgo : ∀ (l : List VmArea) (s : State), Backing C held s → Settled s →
      (∀ a ∈ l, a.vma_start < a.vma_end ∧ a.vma_end ≤ C.high) →
      ∃ s', vmmap_destroy_from C p m s l = some s' ∧ Kept C held s s' := by
    intro l
    induction l with
    | nil => exact fun s h hs _ => ⟨s, rfl, h, hs, fun _ _ ho => ho, le_rfl⟩
    | cons a l ih =>
      intro s h hs hl
      obtain ⟨h1, h2⟩ := hl a (by simp)
      have hlt : a.vma_start + usub a.vma_end a.vma_start < 2 ^ 32 := by
        rw [usub_of_le h1.le (by omega)]
        omega
      obtain ⟨s₁, hr, hK⟩ := vmmap_remove_total (p := p) (m := m) h hheld hs hlt
      obtain ⟨s', hd, h'⟩ := ih s₁ hK.backing hK.settled fun c hc => hl c (by simp [hc])
      refine ⟨s', ?_, hK.trans h'⟩
      simp only [vmmap_destroy_from, hr, hd, bind, Option.bind_some]
  have hok := h.layout.areas m
  exact hgo _ s h hs fun a ha => ⟨hok.sorted.nonempty a ha, hok.high a ha⟩

end

end Weenix.Vm
