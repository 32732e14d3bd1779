import Weenix.Vm.WriteBytes
/-!
# Reading changes nothing

`vmmap_read` may add frames. On a disk that works each of them holds what its
page held, so no byte of user memory changes.
-/

namespace Weenix.Vm

variable {C : Config} {E : Env} {s s' t : State} {m o p v x pn j k count addr vfnInitial vfnFinal : Nat} {held : Nat → Int}
  {a : VmArea} {l : List VmArea} {c c' : Cursor} {kmem kmem' : Nat → UInt8}

/-- There may be more frames, but every page holds what it held. -/
structure Quiet (s s' : State) : Prop where
  spaces : s'.spaces = s.spaces
  objs : s'.objs = s.objs
  frames : ∀ pf ∈ s.pframes, pf ∈ s'.pframes
  page : ∀ o pn, s'.page o pn = s.page o pn

namespace Quiet

theorem refl (s : State) : Quiet s s := ⟨rfl, rfl, fun _ h => h, fun _ _ => rfl⟩

theorem trans (h : Quiet s t) (h' : Quiet t s') : Quiet s s' where
  spaces := h'.spaces.trans h.spaces
  objs := h'.objs.trans h.objs
  frames := fun pf hm => h'.frames pf (h.frames pf hm)
  page := fun o pn => (h'.page o pn).trans (h.page o pn)

theorem procs (h : Quiet s s') : s'.procs = s.procs := congrArg Spaces.procs h.spaces

theorem lists (h : Quiet s s') : s'.vmm_list = s.vmm_list := congrArg Spaces.vmm_list h.spaces

theorem objPage (h : Quiet s s') : s'.objPage = s.objPage := by
  funext m v
  simp only [State.objPage, h.lists]

theorem byteAt (h : Quiet s s') : s'.byteAt = s.byteAt := by
  funext m addr
  simp only [State.byteAt, State.pageAt, h.lists, h.page]

theorem shows (h : Quiet s s') (hs : s'.Shows m addr o pn j) : s.Shows m addr o pn j := by
  obtain ⟨x, hx, hsees, hj⟩ := hs
  exact ⟨x, by rwa [h.objPage] at hx, hsees.mono h.objs h.frames, hj⟩

end Quiet

/-- Getting a page of an area. -/
theorem area_get_quiet (hB : Backing C held s) (hheld : ∀ o, 0 ≤ held o) (hio : ∀ n, E.io n = true) (ha : a ∈ s.vmm_list m)
    (ho : a.vma_obj = some o) (v : Nat) : ∃ s₁ pf ok, pframe_get E s o (a.pagenum v) = some (s₁, pf, ok) ∧ Backing C held s₁ ∧
      Quiet s s₁ := by
  obtain ⟨ob, hob, -⟩ := hB.hung.areas m a ha o ho
  obtain ⟨b, hb⟩ := hB.chains.bottom hob
  have hpos := (Nat.zero_le _).trans_lt (hB.area_pos hheld ha ho)
  obtain ⟨s₁, pf, ok, hget, hgot, hfill⟩ := pframe_get_sure hio (a.pagenum v) hB.chains hB.frames hB.idle hb hpos
    (hB.bottom_pos hheld hb hpos)
  exact ⟨s₁, pf, ok, hget, hB.grown hgot.grown hgot.frames, hgot.grown.spaces, hgot.grown.objs, hgot.grown.frames,
    hgot.grown.page_filled hfill hB.chains hB.frames hgot.frames⟩

theorem read_pages_quiet (hheld : ∀ o, 0 ≤ held o) (hio : ∀ n, E.io n = true) (ho : a.vma_obj = some o) :
    ∀ {k v : Nat} {s : State} {c : Cursor} {kmem : Nat → UInt8}, Backing C held s → a ∈ s.vmm_list m →
      read_pages E a count k v s c kmem = some (s', c', kmem') → Backing C held s' ∧ Quiet s s' := by
  intro k
  induction k with
  | zero =>
    intro v s c kmem hB _ h
    cases h
    exact ⟨hB, .refl _⟩
  | succ k ih =>
    intro v s c kmem hB ha h
    obtain ⟨s₁, pf, ok, hget, hB₁, hq⟩ := area_get_quiet (E := E) hB hheld hio ha ho v
    have hnum : read_pagenum a v = a.pagenum v := rfl
    simp only [read_pages, ho, hnum, hget, bind, Option.bind_some] at h
    obtain ⟨hB', hq'⟩ := ih hB₁ (by rw [hq.lists]; exact ha) h
    exact ⟨hB', hq.trans hq'⟩

theorem read_areas_quiet (hheld : ∀ o, 0 ≤ held o) (hio : ∀ n, E.io n = true) : ∀ {l : List VmArea} {s : State} {c : Cursor}
    {kmem : Nat → UInt8}, Backing C held s → Settled s → l ⊆ s.vmm_list m →
      read_areas E vfnInitial vfnFinal count s c kmem l = some (s', kmem') → Backing C held s' ∧ Quiet s s' := by
  intro l
  induction l with
  | nil =>
    intro s c kmem hB _ _ h
    cases h
    exact ⟨hB, .refl _⟩
  | cons a l ih =>
    intro s c kmem hB hs hl h
    have hrest : l ⊆ s.vmm_list m := fun x hx => hl (List.mem_cons_of_mem a hx)
    have ha : a ∈ s.vmm_list m := hl List.mem_cons_self
    simp only [read_areas] at h
    split at h
    · exact ih hB hs hrest h
    split at h
    · cases h
      exact ⟨hB, .refl _⟩
    · simp only [bind, Option.bind_eq_some_iff, Prod.exists] at h
      obtain ⟨s₁, c₁, kmem₁, hpages, hareas⟩ := h
      obtain ⟨o, ho⟩ := hs m a ha
      obtain ⟨hB₁, hq⟩ := read_pages_quiet hheld hio ho hB ha hpages
      obtain ⟨hB', hq'⟩ := ih hB₁ (hs.congr hq.lists) (by rw [hq.lists]; exact hrest) hareas
      exact ⟨hB', hq.trans hq'⟩

/-- So does copying in. -/
theorem copy_from_user_quiet (hheld : ∀ o, 0 ≤ held o) (hio : ∀ n, E.io n = true) (hB : Backing C held s) (hs : Settled s)
    {uaddr : Nat} {r : Except Errno Unit} (h : copy_from_user E s p kmem uaddr count = some (s', kmem', r)) :
    Backing C held s' ∧ Quiet s s' := by
  simp only [copy_from_user, bind, Option.bind_eq_some_iff] at h
  obtain ⟨pr, -, h⟩ := h
  split at h
  · cases h
    exact ⟨hB, .refl _⟩
  · simp only [Option.bind_eq_some_iff, Prod.exists] at h
    obtain ⟨s₁, kmem₁, hread, he⟩ := h
    cases he
    exact read_areas_quiet hheld hio hB hs (List.Subset.refl _) hread

/-- The bytes copied in are those of user memory, where they are in two pages of one area. -/
theorem copy_from_user_bytes (hheld : ∀ o, 0 ≤ held o) (hio : ∀ n, E.io n = true) (hB : Backing C held s) (hs : Settled s)
    {uaddr : Nat} {pr : Proc} {r : Except Errno Unit} (hpr : s.procs p = some pr)
    (hperm : range_perm (s.vmm_list pr.p_vmmap) uaddr count { read := true } = true)
    (hm : AllMapped ((s.vmm_list pr.p_vmmap).map VmArea.span) uaddr count) (h2 : TwoPages uaddr count)
    (h1 : OneArea ((s.vmm_list pr.p_vmmap).map VmArea.span) uaddr count)
    (h : copy_from_user E s p kmem uaddr count = some (s', kmem', r)) :
    ∀ i < count, kmem' i = s.byteAt pr.p_vmmap (uaddr + i) := by
  obtain ⟨-, hq⟩ := copy_from_user_quiet hheld hio hB hs h
  obtain ⟨t, -, -, hread⟩ := vmmap_read_out (E := E) hB hheld hs pr.p_vmmap uaddr count kmem
  simp only [copy_from_user, hpr, hperm, hread, bind, Option.bind_some, Bool.true_eq_false, if_false] at h
  cases h
  intro i hi
  rw [(readOut_right (hB.layout.areas _).spans hm h1 h2 kmem).1 i hi, ← hq.byteAt]
  rfl

end Weenix.Vm
