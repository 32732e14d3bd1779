import Weenix.Vm.Access
/-!
# What page frames and memory objects leave alone

`State.spaces` is the part of the state that holds the processes and the area
lists. Getting, dirtying, cleaning and freeing pages, and dropping references
to objects, do not change it.
-/

namespace Weenix.Vm

/-- The processes, the address maps and the open files. -/
structure Spaces where
  procs : Nat → Option Proc
  nprocs : Nat
  p_brk : Nat → Nat
  zombies : Nat → Option Int
  vmm_list : Nat → List VmArea
  vmm_proc : Nat → Option Nat
  nmaps : Nat
  nareas : Nat
  vnodes : Nat → Vnode
  files : Nat → Option File

def State.spaces (s : State) : Spaces :=
  { procs := s.procs, nprocs := s.nprocs, p_brk := s.p_brk, zombies := s.zombies, vmm_list := s.vmm_list,
    vmm_proc := s.vmm_proc, nmaps := s.nmaps, nareas := s.nareas, vnodes := s.vnodes, files := s.files }

namespace State
variable (s : State)

@[simp] theorem setRefcount_spaces (o n : Nat) : (s.setRefcount o n).spaces = s.spaces := rfl
@[simp] theorem setNres_spaces (o n : Nat) : (s.setNres o n).spaces = s.spaces := rfl
@[simp] theorem linkVma_spaces (o id : Nat) : (s.linkVma o id).spaces = s.spaces := rfl
@[simp] theorem unlinkVma_spaces (o id : Nat) : (s.unlinkVma o id).spaces = s.spaces := rfl
@[simp] theorem setBusy_spaces (pg : Nat) (b : Bool) : (s.setBusy pg b).spaces = s.spaces := rfl
@[simp] theorem setDirty_spaces (pg : Nat) (b : Bool) : (s.setDirty pg b).spaces = s.spaces := rfl
@[simp] theorem setPin_spaces (pg n : Nat) : (s.setPin pg n).spaces = s.spaces := rfl
@[simp] theorem insertFrame_spaces (pf : Pframe) : (s.insertFrame pf).spaces = s.spaces := rfl
@[simp] theorem dropFrame_spaces (pf : Pframe) : (s.dropFrame pf).spaces = s.spaces := rfl
@[simp] theorem touchFrame_spaces (pf : Pframe) : (s.touchFrame pf).spaces = s.spaces := rfl
@[simp] theorem setMem_spaces (pg : Nat) (x : Page) : (s.setMem pg x).spaces = s.spaces := rfl
@[simp] theorem tick_spaces : s.tick.spaces = s.spaces := rfl
@[simp] theorem pt_map_spaces (p v pg : Nat) (w : Bool) : (s.pt_map p v pg w).spaces = s.spaces := rfl
@[simp] theorem pt_unmap_spaces (p v : Nat) : (s.pt_unmap p v).spaces = s.spaces := rfl
@[simp] theorem pt_unmap_range_spaces (p lo hi : Nat) : (s.pt_unmap_range p lo hi).spaces = s.spaces := rfl
@[simp] theorem newObj_spaces (ob : Mmobj) : (s.newObj ob).spaces = s.spaces := rfl
@[simp] theorem freeObj_spaces (o : Nat) : (s.freeObj o).spaces = s.spaces := rfl

theorem setList_spaces (m : Nat) (l : List VmArea) :
    (s.setList m l).spaces = { s.spaces with vmm_list := Function.update s.vmm_list m l } := rfl

end State

variable {s s' : State}

theorem mmobj_ref_spaces {o : Nat} (h : mmobj_ref s o = some s') : s'.spaces = s.spaces := by
  simp only [mmobj_ref, bind, Option.bind_eq_some_iff, Option.some.injEq] at h
  obtain ⟨-, -, -, -, rfl⟩ := h
  rfl

/-! ## Page frames -/

section
variable {E : Env} {o pn : Nat}

theorem pframe_get_resident_spaces : (pframe_get_resident s o pn).1.spaces = s.spaces := by
  unfold pframe_get_resident
  split
  · rfl
  · split <;> rfl

theorem pframe_alloc_spaces {pf : Pframe} (h : pframe_alloc E s o pn = some (s', pf)) : s'.spaces = s.spaces := by
  simp only [pframe_alloc, bind, Option.bind_eq_some_iff, Option.some.injEq, Prod.mk.injEq] at h
  obtain ⟨t, ht, rfl, -⟩ := h
  rw [State.setNres_spaces, mmobj_ref_spaces ht]
  simp

@[simp] theorem pframe_pin_spaces {pg : Nat} : (pframe_pin s pg).spaces = s.spaces := by
  unfold pframe_pin
  split
  · rfl
  · split <;> rfl

@[simp] theorem pframe_unpin_spaces {pg : Nat} : (pframe_unpin s pg).spaces = s.spaces := by
  simp only [pframe_unpin]
  split
  · split <;> rfl
  · rfl

/-- A `fillpage` operation that leaves the spaces alone. -/
def KeepsSpaces (fill : State → Nat → Pframe → Option (State × Bool)) : Prop :=
  ∀ {s o pf s' ok}, fill s o pf = some (s', ok) → s'.spaces = s.spaces

theorem pframe_get_by_spaces {fill : State → Nat → Pframe → Option (State × Bool)} (hf : KeepsSpaces fill)
    {r : Pframe × Bool} (h : pframe_get_by E fill s o pn = some (s', r)) : s'.spaces = s.spaces := by
  have hr : (pframe_get_resident s o pn).1.spaces = s.spaces := pframe_get_resident_spaces
  simp only [pframe_get_by] at h
  split at h
  next s₁ pf he =>
    rw [he] at hr
    split at h
    · cases h
    · cases h; exact hr
  next s₁ he =>
    rw [he] at hr
    simp only [pframe_fill, bind, Option.bind_eq_some_iff, Option.some.injEq, Prod.mk.injEq, Prod.exists] at h
    obtain ⟨s₂, pf, ha, s₃, ok, ⟨s₄, ok', hfl, rfl, -⟩, rfl, -⟩ := h
    calc (s₄.setBusy pf.pf_addr false).spaces = s₄.spaces := rfl
      _ = (s₂.setBusy pf.pf_addr true).spaces := hf hfl
      _ = s₂.spaces := rfl
      _ = s₁.spaces := pframe_alloc_spaces ha
      _ = s.spaces := hr

theorem fillBottom_spaces : KeepsSpaces (fillBottom E) := by
  intro s o pf s' ok h
  simp only [fillBottom, bind, Option.bind_eq_some_iff] at h
  obtain ⟨ob, -, h⟩ := h
  split at h
  · simp only [anon_fillpage, bind, Option.bind_eq_some_iff, Option.some.injEq, Prod.mk.injEq] at h
    obtain ⟨-, -, -, -, rfl, -⟩ := h
    simp
  · simp only [vreadpage] at h
    split at h <;> cases h <;> rfl
  · cases h

theorem pframe_get_bottom_spaces {r : Pframe × Bool} (h : pframe_get_bottom E s o pn = some (s', r)) :
    s'.spaces = s.spaces := pframe_get_by_spaces fillBottom_spaces h

theorem shadow_fillpage_spaces : KeepsSpaces (shadow_fillpage E) := by
  intro s o pf s' ok h
  simp only [shadow_fillpage, bind, Option.bind_eq_some_iff] at h
  obtain ⟨-, -, -, -, below, -, r, -, h⟩ := h
  split at h
  · cases h; simp
  · simp only [Option.bind_eq_some_iff, Option.some.injEq, Prod.mk.injEq, Prod.exists] at h
    obtain ⟨s₁, np, ok', hg, rfl, -⟩ := h
    exact (pframe_get_bottom_spaces hg).trans pframe_pin_spaces

theorem fillpage_spaces : KeepsSpaces (fillpage E) := by
  intro s o pf s' ok h
  simp only [fillpage, bind, Option.bind_eq_some_iff] at h
  obtain ⟨ob, -, h⟩ := h
  split at h
  · exact shadow_fillpage_spaces h
  · exact fillBottom_spaces h

theorem pframe_get_spaces {r : Pframe × Bool} (h : pframe_get E s o pn = some (s', r)) : s'.spaces = s.spaces :=
  pframe_get_by_spaces fillpage_spaces h

theorem shadow_resolve_spaces {pf : Pframe} (h : shadow_resolve E s o pn = some (s', pf)) :
    s'.spaces = s.spaces := by
  simp only [shadow_resolve, bind, Option.bind_eq_some_iff] at h
  obtain ⟨ob, -, r, -, h⟩ := h
  split at h
  · cases h; rfl
  · simp only [Option.bind_eq_some_iff, Option.some.injEq, Prod.mk.injEq, Prod.exists] at h
    obtain ⟨b, -, s₁, pf', ok, hg, rfl, -⟩ := h
    exact pframe_get_spaces hg

theorem shadow_lookuppage_spaces {w : Bool} {pf : Pframe} (h : shadow_lookuppage E s o pn w = some (s', pf)) :
    s'.spaces = s.spaces := by
  simp only [shadow_lookuppage, bind, Option.bind_eq_some_iff, Prod.exists] at h
  obtain ⟨s₁, sp, h1, h2⟩ := h
  split at h2
  · simp only [Option.bind_eq_some_iff, Option.some.injEq, Prod.mk.injEq, Prod.exists] at h2
    obtain ⟨s₂, pf', ok, hg, rfl, -⟩ := h2
    exact (pframe_get_spaces hg).trans (shadow_resolve_spaces h1)
  · cases h2; exact shadow_resolve_spaces h1

theorem pframe_dirty_spaces {pf : Pframe} (h : pframe_dirty E s pf = some s') : s'.spaces = s.spaces := by
  simp only [pframe_dirty, dirtypage, bind, Option.bind_eq_some_iff, Option.some.injEq, Prod.exists] at h
  obtain ⟨-, -, s₁, ok, ⟨ob, -, h1⟩, rfl⟩ := h
  have hs₁ : s₁.spaces = s.spaces := by
    split at h1
    · cases h1; rfl
    · cases h1; rfl
    · split at h1 <;> cases h1 <;> rfl
  cases ok <;> exact hs₁

/-! ## Freeing and cleaning -/

theorem remove_from_areas_spaces {pf : Pframe} {ids : List Nat} :
    ∀ {s s' : State}, remove_from_areas pf s ids = some s' → s'.spaces = s.spaces := by
  induction ids with
  | nil => intro s s' h; cases h; rfl
  | cons id ids ih =>
    intro s s' h
    simp only [remove_from_areas, bind, Option.bind_eq_some_iff] at h
    obtain ⟨a, -, s₁, h1, h2⟩ := h
    refine (ih h2).trans ?_
    simp only [remove_from_area, bind] at h1
    split at h1
    · simp only [Option.bind_eq_some_iff] at h1
      obtain ⟨m, -, h1⟩ := h1
      split at h1 <;> cases h1 <;> rfl
    · cases h1; rfl

theorem pframe_remove_from_pts_spaces {pf : Pframe} (h : pframe_remove_from_pts s pf = some s') :
    s'.spaces = s.spaces := by
  simp only [pframe_remove_from_pts, bind, Option.bind_eq_some_iff] at h
  obtain ⟨b, -, h⟩ := h
  exact remove_from_areas_spaces h

theorem pframe_release_spaces {pf : Pframe} (h : pframe_release s pf = some s') : s'.spaces = s.spaces := by
  simp only [pframe_release, bind, Option.bind_eq_some_iff, Option.some.injEq] at h
  obtain ⟨-, -, -, -, s₁, h1, rfl⟩ := h
  rw [State.setNres_spaces, State.dropFrame_spaces]
  exact pframe_remove_from_pts_spaces h1

/-- A relation between states that holds across every step of dropping a reference. -/
structure PutSteps (R : State → State → Prop) : Prop where
  refl : ∀ s, R s s
  trans : ∀ {s t u}, R s t → R t u → R s u
  count : ∀ s o n, R s (s.setRefcount o n)
  num : ∀ s n, R s (s.setNum n)
  temp : ∀ s n, R s (s.setTempC n)
  unpin : ∀ s pg, R s (pframe_unpin s pg)
  release : ∀ {s s' pf}, pframe_release s pf = some s' → R s s'
  free : ∀ s o, R s (s.freeObj o)

/-- On the fuel, for `put` and the three loops it calls at once. -/
theorem PutSteps.mmobj_put {R : State → State → Prop} (hR : PutSteps R) : ∀ (n : Nat) {s s' : State} {o : Nat},
    (mmobj_put n s o = some s' → R s s') ∧ (shadow_free_pages n s o = some s' → R s s') ∧
    (anon_free_pages n s o = some s' → R s s') ∧ (vnode_free_pages n s o = some s' → R s s') := by
  intro n
  induction n with
  | zero => intro s s' o; simp [Vm.mmobj_put, shadow_free_pages, anon_free_pages, vnode_free_pages]
  | succ n ih =>
    intro s s' o
    have hcount := hR.count s o (s.mmo_refcount o - 1)
    refine ⟨fun h => ?put, fun h => ?shadow, fun h => ?anon, fun h => ?vnode⟩
    case put =>
      simp only [Vm.mmobj_put, bind, Option.bind_eq_some_iff] at h
      obtain ⟨ob, -, h⟩ := h
      split at h
      · simp only [Option.bind_eq_some_iff] at h
        obtain ⟨-, -, h⟩ := h
        split at h
        · simp only [Option.bind_eq_some_iff] at h
          obtain ⟨s₁, h1, h⟩ := h
          have e1 := hR.trans hcount (ih.2.1 h1)
          split at h
          · cases h; exact e1
          · simp only [Option.bind_eq_some_iff, Option.some.injEq] at h
            obtain ⟨b, -, s₂, h2, rfl⟩ := h
            exact hR.trans (hR.trans e1 (ih.1 h2)) (hR.free s₂ o)
        · cases h; exact hcount
      · simp only [Option.bind_eq_some_iff] at h
        obtain ⟨-, -, h⟩ := h
        split at h
        · simp only [Option.bind_eq_some_iff] at h
          obtain ⟨s₁, h1, h⟩ := h
          have e1 := hR.trans hcount (ih.2.2.1 h1)
          split at h <;> cases h
          · exact hR.trans e1 (hR.free s₁ o)
          · exact e1
        · cases h; exact hcount
      · simp only [Option.bind_eq_some_iff] at h
        obtain ⟨-, -, s₁, h1, h⟩ := h
        have e1 : R s s₁ := by
          split at h1
          · simp only [Option.bind_eq_some_iff, Option.some.injEq] at h1
            obtain ⟨s₂, h2, -, -, -, -, rfl⟩ := h1
            exact ih.2.2.2 h2
          · cases h1; exact hR.refl s
        split at h
        · cases h; exact hR.trans e1 (hR.count s₁ o _)
        · simp only [Option.bind_eq_some_iff, Option.some.injEq] at h
          obtain ⟨-, -, rfl⟩ := h
          exact hR.trans e1 (hR.count s₁ o _)
    case shadow =>
      simp only [shadow_free_pages, bind] at h
      split at h
      · cases h; exact hR.refl s
      · simp only [Option.bind_eq_some_iff] at h
        obtain ⟨-, -, s₁, h1, s₂, h2, h3⟩ := h
        exact hR.trans (hR.num s _) (hR.trans (hR.unpin _ _) (hR.trans (hR.num _ _)
          (hR.trans (hR.release h1) (hR.trans (ih.1 h2) (ih.2.1 h3)))))
    case anon =>
      simp only [anon_free_pages, bind] at h
      split at h
      · cases h; exact hR.refl s
      · simp only [Option.bind_eq_some_iff] at h
        obtain ⟨-, -, s₁, h1, s₂, h2, h3⟩ := h
        exact hR.trans (hR.unpin s _) (hR.trans (hR.temp _ _) (hR.trans (hR.release h1)
          (hR.trans (ih.1 h2) (hR.trans (hR.temp _ _) (ih.2.2.1 h3)))))
    case vnode =>
      simp only [vnode_free_pages, bind] at h
      split at h
      · cases h; exact hR.refl s
      · simp only [Option.bind_eq_some_iff] at h
        obtain ⟨-, -, s₁, h1, s₂, h2, h3⟩ := h
        exact hR.trans (hR.release h1) (hR.trans (ih.1 h2) (ih.2.2.2 h3))

theorem PutSteps.put {R : State → State → Prop} (hR : PutSteps R) {o : Nat} (h : Vm.put s o = some s') : R s s' :=
  (hR.mmobj_put _).1 h

theorem spaces_putSteps : PutSteps (fun s s' => s'.spaces = s.spaces) where
  refl _ := rfl
  trans h1 h2 := h2.trans h1
  count _ _ _ := rfl
  num _ _ := rfl
  temp _ _ := rfl
  unpin _ _ := pframe_unpin_spaces
  release := pframe_release_spaces
  free _ _ := rfl

theorem put_spaces {o : Nat} (h : put s o = some s') : s'.spaces = s.spaces := spaces_putSteps.put h

theorem pframe_clean_spaces {pf : Pframe} (h : pframe_clean E s pf = some s') : s'.spaces = s.spaces := by
  simp only [pframe_clean, cleanpage, bind, Option.bind_eq_some_iff, Option.some.injEq, Prod.exists] at h
  obtain ⟨-, -, -, -, s₁, h1, s₂, ok, ⟨ob, -, h2⟩, rfl⟩ := h
  have e1 : s₁.spaces = s.spaces := (pframe_remove_from_pts_spaces h1 :)
  have e2 : s₂.spaces = s₁.spaces := by
    split at h2
    · cases h2; rfl
    · cases h2; rfl
    · split at h2 <;> cases h2 <;> rfl
  cases ok <;> exact e2.trans e1

theorem pageoutd_turn_spaces (h : pageoutd_turn E s = some s') : s'.spaces = s.spaces := by
  simp only [pageoutd_turn, bind] at h
  split at h
  · cases h; rfl
  · simp only [Option.bind_eq_some_iff] at h
    obtain ⟨pf, -, h⟩ := h
    split at h
    · cases h; rfl
    · split at h
      · exact pframe_clean_spaces h
      · simp only [pframe_free, bind, Option.bind_eq_some_iff] at h
        obtain ⟨s₁, h1, h2⟩ := h
        exact (put_spaces h2).trans (pframe_release_spaces h1)

end

end Weenix.Vm
