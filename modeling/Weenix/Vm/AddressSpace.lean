import Weenix.Vm.Layout
import Weenix.Vm.Mmap
/-!
# Operations on address spaces

Mapping, cloning and moving the break keep the layout. `areas_ok` puts the
operations together: after any sequence of them every area list is sorted and
disjoint, lies inside user memory and holds areas that know their map.
-/

namespace Weenix.Vm

open Lib Lib.Intervals

variable {C : Config} {s s' : State} {p m : Nat}

/-! ## Mapping -/

theorem vn_mmap_spaces {vn : Nat} {o : Option Nat} (h : vn_mmap s vn = some (s', o)) : s'.spaces = s.spaces := by
  simp only [vn_mmap, bind] at h
  split at h
  · cases h
  · cases h; rfl
  · simp only [Option.bind_eq_some_iff, Option.some.injEq, Prod.mk.injEq] at h
    obtain ⟨s₁, hr, rfl, -⟩ := h
    exact mmobj_ref_spaces hr

/-- Giving an area its object sets `vma_obj` only. -/
theorem attachObject_spaces {file : Option Nat} {flags : MapFlags} {area area' : VmArea}
    (h : attachObject s file flags area = some (s', area')) :
    s'.spaces = s.spaces ∧ ∃ o, area' = area.withObj o := by
  simp only [attachObject, bind] at h
  split at h
  · split at h
    · simp only [Option.bind_eq_some_iff, Option.some.injEq, Prod.mk.injEq, Prod.exists] at h
      obtain ⟨s₁, o, h1, o', -, rfl, rfl⟩ := h
      exact ⟨(vn_mmap_spaces h1 :), some o', rfl⟩
    · cases h; exact ⟨rfl, area.vma_obj, rfl⟩
  · split at h
    · cases h; exact ⟨rfl, _, rfl⟩
    · simp only [Option.bind_eq_some_iff, Option.some.injEq, Prod.mk.injEq, Prod.exists] at h
      obtain ⟨s₁, o, h1, b, -, rfl, rfl⟩ := h
      exact ⟨(vn_mmap_spaces h1 :), _, rfl⟩

/-- The room that was made is free, inside user memory, and as large as asked for. -/
structure Room (C : Config) (s : State) (m start npages : Nat) : Prop where
  low : C.low ≤ start
  high : start + npages ≤ C.high
  free : RangeFree (s.vmm_list m) start (start + npages)

theorem makeRoom_cases {lopage npages : Nat} {dir : Dir} {start : Option Nat} (hL : Layout C s) (hn : npages ≤ 2 ^ 20)
    (h : makeRoom C s p m lopage npages dir = some (s', start)) :
    (start = none ∧ s' = s ∧ lopage = 0) ∨
    (∃ st, start = some st ∧ s' = s ∧ Room C s m st npages ∧ (lopage ≠ 0 → st = lopage)) ∨
    (lopage ≠ 0 ∧ start = some lopage ∧ lopage + npages < 2 ^ 32 ∧ vmmap_remove C s p m lopage npages = some s' ∧
      Room C s' m lopage npages) := by
  have hC := C.high_lt
  have hroom : ∀ {t : State}, AreasOk C m (t.vmm_list m) → ∀ {b : Bool},
      vmmap_is_range_empty C (t.vmm_list m) lopage npages = some b →
      lopage + npages < 2 ^ 32 ∧ (b = true → Room C t m lopage npages) := fun hok b he => by
    obtain ⟨⟨h1, h2, h3⟩, h4⟩ := vmmap_is_range_empty_eq hok he
    have hlt : lopage + npages < 2 ^ 32 := by unfold u32 at h1 h3; omega
    rw [u32_of_lt hlt] at h3 h4
    exact ⟨hlt, fun hb => ⟨h2, h3, h4.1 hb⟩⟩
  simp only [makeRoom, bind] at h
  split at h
  next h0 =>
    simp only [Option.bind_eq_some_iff] at h
    obtain ⟨b, he, h⟩ := h
    obtain ⟨hlt, hfree⟩ := hroom (hL.areas m) he
    split at h
    next hb =>
      cases h
      exact .inr (.inl ⟨lopage, rfl, rfl, hfree hb, fun _ => rfl⟩)
    next =>
      simp only [Option.bind_eq_some_iff, KASSERT_eq_some, Option.some.injEq, Prod.mk.injEq] at h
      obtain ⟨s₁, hr, e, he', -, hk, rfl, rfl⟩ := h
      have hL₁ := vmmap_remove_layout hlt hL hr
      exact .inr (.inr ⟨h0, rfl, hlt, hr, (hroom (hL₁.areas m) he').2 hk⟩)
  next h0 =>
    simp only [Option.bind_eq_some_iff, Option.some.injEq, Prod.mk.injEq] at h
    obtain ⟨r, hf, rfl, rfl⟩ := h
    simp only [ne_eq, not_not] at h0
    split
    next hr =>
      obtain ⟨h1, h2, h3⟩ := vmmap_find_range_gap (hL.areas m) hn hf hr
      exact .inr (.inl ⟨r.toNat, rfl, rfl, ⟨h1, h2, h3⟩, fun h => absurd h0 h⟩)
    next => exact .inl ⟨rfl, rfl, h0⟩

/-- The area `vmmap_map` sets up, before it has an object. -/
def newArea (id start npages off : Nat) (prot : Prot) (flags : MapFlags) : VmArea :=
  { vma_id := id, vma_start := start, vma_end := start + npages, vma_off := off, vma_prot := prot,
    vma_flags := flags, vma_vmmap := none, vma_obj := none }

/-- The outcomes of `vmmap_map`: there is no room, or the room made gets a new
area with its object. -/
inductive MapEffect (C : Config) (s : State) (p m : Nat) (file : Option Nat) (lopage npages : Nat) (prot : Prot)
    (flags : MapFlags) (off : Nat) (dir : Dir) : State → Except Errno Nat → Prop
  | noroom : lopage = 0 → MapEffect C s p m file lopage npages prot flags off dir s.vmarea_alloc (.error .ENOMEM)
  | mapped {start s₁ s₂ area} : (s₁ = s.vmarea_alloc ∨
        lopage + npages < 2 ^ 32 ∧ vmmap_remove C s.vmarea_alloc p m lopage npages = some s₁) →
      Layout C s₁ → Room C s₁ m start npages → (lopage ≠ 0 → start = lopage) →
      attachObject s₁ file flags (newArea s.nareas start npages off prot flags) = some (s₂, area) →
      MapEffect C s p m file lopage npages prot flags off dir (s₂.setList m (insertArea m area (s₂.vmm_list m)))
        (.ok start)

theorem vmmap_map_effect {file : Option Nat} {lopage npages off : Nat} {prot : Prot} {flags : MapFlags} {dir : Dir}
    {r : Except Errno Nat} (hL : Layout C s) (hn : npages ≤ 2 ^ 20)
    (h : vmmap_map C s p m file lopage npages prot flags off dir = some (s', r)) :
    (0 < npages ∧ prot.other = false ∧ (flags.shared = true ∨ flags.priv = true) ∧ PAGE_ALIGNED off = true) ∧
      MapEffect C s p m file lopage npages prot flags off dir s' r := by
  have hC := C.high_lt
  simp only [vmmap_map, bind, Option.bind_eq_some_iff, KASSERT_eq_some, Prod.exists] at h
  obtain ⟨-, h1, -, h2, -, h3, -, -, -, -, -, h4, s₁, start, hroom, h⟩ := h
  refine ⟨⟨h1, h2, h3, h4⟩, ?_⟩
  have hL₀ : Layout C s.vmarea_alloc := hL.more (Nat.le_succ _)
  have hfinish : ∀ {st : Nat}, Layout C s₁ → Room C s₁ m st npages → start = some st →
      (s₁ = s.vmarea_alloc ∨ lopage + npages < 2 ^ 32 ∧ vmmap_remove C s.vmarea_alloc p m lopage npages = some s₁) →
      (lopage ≠ 0 → st = lopage) → MapEffect C s p m file lopage npages prot flags off dir s' r := by
    rintro st hL₁ hr rfl hfrom hst
    have hend := hr.high
    simp only [Option.bind_eq_some_iff, Option.some.injEq, Prod.mk.injEq, Prod.exists] at h
    obtain ⟨s₂, area, ha, s₃, hi, rfl, rfl⟩ := h
    rw [Nat.add_comm npages st, u32_of_lt (by omega)] at ha
    obtain ⟨hsp, o, harea⟩ := attachObject_spaces ha
    have hl : s₂.vmm_list = s₁.vmm_list := congrArg Spaces.vmm_list hsp
    obtain ⟨-, ⟨-, rfl⟩ | ⟨hnf, -⟩⟩ := vmmap_insert_cases (by rw [hl]; exact hL₁.areas m) hi
    · exact .mapped hfrom hL₁ hr hst ha
    · refine absurd ?_ hnf
      rw [hl, harea]
      exact hr.free
  rcases makeRoom_cases hL₀ hn hroom with ⟨rfl, rfl, h0⟩ | ⟨st, hst, rfl, hr, hlo⟩ | ⟨h0, hst, hlt, hr, hroom'⟩
  · cases h
    exact .noroom h0
  · exact hfinish hL₀ hr hst (.inl rfl) hlo
  · exact hfinish (vmmap_remove_layout hlt hL₀ hr) hroom' hst (.inr ⟨hlt, hr⟩) (fun _ => rfl)

/-- The address of the new area is no other area's. -/
theorem newArea_fresh {lopage npages : Nat} {s₁ : State} (hL : Layout C s) (hfrom : s₁ = s.vmarea_alloc ∨
      lopage + npages < 2 ^ 32 ∧ vmmap_remove C s.vmarea_alloc p m lopage npages = some s₁) :
    s.nareas < s₁.nareas ∧ s₁.nmaps = s.nmaps ∧ ∀ m', ∀ a ∈ s₁.vmm_list m', a.vma_id ≠ s.nareas := by
  have hold : ∀ m', ∀ a ∈ s.vmm_list m', a.vma_id ≠ s.nareas := fun m' a ha => (hL.fresh m' a ha).ne
  rcases hfrom with rfl | ⟨hlt, hr⟩
  · exact ⟨Nat.lt_succ_self _, rfl, hold⟩
  · obtain ⟨h1, h2, h3⟩ := vmmap_remove_ids hlt (hL.more (Nat.le_succ _)) hr
    refine ⟨h2, h1, fun m' a ha => ?_⟩
    rcases h3 m' a ha with ⟨b, hb, he⟩ | h
    · rw [← he]; exact hold m' b hb
    · exact (Nat.lt_of_succ_le h).ne'

theorem vmmap_map_layout {file : Option Nat} {lopage npages off : Nat} {prot : Prot} {flags : MapFlags} {dir : Dir}
    {r : Except Errno Nat} (hL : Layout C s) (hm : m < s.nmaps) (hn : npages ≤ 2 ^ 20)
    (h : vmmap_map C s p m file lopage npages prot flags off dir = some (s', r)) : Layout C s' := by
  obtain ⟨⟨hpos, -⟩, heff⟩ := vmmap_map_effect hL hn h
  cases heff with
  | noroom => exact hL.more (Nat.le_succ _)
  | @mapped start s₁ s₂ area hfrom hL₁ hr _ ha =>
    obtain ⟨hsp, o, rfl⟩ := attachObject_spaces ha
    obtain ⟨h1, h2, h3⟩ := newArea_fresh hL hfrom
    have hlow := hr.low
    have hhigh := hr.high
    have hL₂ := hL₁.congr hsp
    have hl : s₂.vmm_list = s₁.vmm_list := congrArg Spaces.vmm_list hsp
    have hn₂ : s₂.nareas = s₁.nareas := congrArg Spaces.nareas hsp
    have hm₂ : s₂.nmaps = s₁.nmaps := congrArg Spaces.nmaps hsp
    refine hL₂.insertArea (by omega) ⟨?_, hlow, hhigh⟩ (by rw [hl]; exact hr.free) (by rw [hl]; exact h3) ?_
    · simp only [newArea, VmArea.withObj]; omega
    · simp only [newArea, VmArea.withObj]; omega

/-! ## `mmap` -/

theorem fput_files {f : Nat} : ∃ fs, fput s f = s.setFiles fs := by
  unfold fput
  split
  · exact ⟨s.files, rfl⟩
  · exact ⟨_, rfl⟩

/-- The file `do_mmap` maps: none for an anonymous mapping, or an open file that passes the checks. -/
inductive MmapFile (C : Config) (s : State) (pr : Proc) (len : Nat) (prot : Prot) (flags : MapFlags) (fd : Int)
    (off : Nat) : Option Nat → Prop
  | anon : flags.anon = true → MmapFile C s pr len prot flags fd off none
  | file {f fl} : flags.anon = false → pr.p_files fd.toNat = some f → s.files f = some fl →
      checkFile C s fl len off prot flags = none → MmapFile C s pr len prot flags fd off (some fl.f_vnode)

theorem mmapFile_cases {pr : Proc} {len : Nat} {prot : Prot} {flags : MapFlags} {fd : Int} {off : Nat}
    {r : Except Errno (Option (Nat × Nat))} (h : mmapFile C s pr len prot flags fd off = (s', r)) :
    (∃ fs, s' = s.setFiles fs) ∧
      ∀ file, r = .ok file → MmapFile C s pr len prot flags fd off (file.map (·.2)) := by
  simp only [mmapFile, fget] at h
  split at h
  · split at h <;> cases h
    · exact ⟨⟨s.files, rfl⟩, by simp⟩
    next ha => exact ⟨⟨s.files, rfl⟩, fun file hf => by cases hf; exact .anon (by simpa using ha)⟩
  · split at h
    next ha => cases h; exact ⟨⟨s.files, rfl⟩, fun file hf => by cases hf; exact .anon ha⟩
    next ha =>
      cases hpf : pr.p_files fd.toNat with
      | none => simp only [hpf] at h; cases h; exact ⟨⟨s.files, rfl⟩, by simp⟩
      | some f =>
        simp only [hpf] at h
        cases hf : s.files f with
        | none => simp only [hf] at h; cases h; exact ⟨⟨s.files, rfl⟩, by simp⟩
        | some fl =>
          simp only [hf] at h
          split at h
          next release e _ =>
            cases h
            refine ⟨?_, by simp⟩
            split
            · obtain ⟨fs, hfs⟩ := fput_files (f := f)
                (s := s.setFiles (Function.update s.files f (some { fl with f_refcount := fl.f_refcount + 1 })))
              exact ⟨fs, hfs⟩
            · exact ⟨_, rfl⟩
          next hc =>
            cases h
            refine ⟨⟨_, rfl⟩, fun file hfile => ?_⟩
            cases hfile
            exact .file (by simpa using ha) hpf hf hc

/-- The outcomes of `do_mmap`: an error, or a mapping by `vmmap_map`. -/
inductive MmapEffect (C : Config) (s : State) (p : Nat) (pr : Proc) (len : Nat) (prot : Prot) (flags : MapFlags)
    (fd : Int) (off : Nat) : State → Except Errno Nat → Prop
  | failed {fs e} : MmapEffect C s p pr len prot flags fd off (s.setFiles fs) (.error e)
  | mapped {fs fs' file lopage start s₁} : flags.shared ≠ flags.priv →
      MmapFile C s pr (roundLen len) prot flags fd off file →
      vmmap_map C (s.setFiles fs) p pr.p_vmmap file lopage (ADDR_TO_PN (roundLen len)) prot flags off .lohi =
        some (s₁, .ok start) →
      MmapEffect C s p pr len prot flags fd off (s₁.setFiles fs') (.ok (PN_TO_ADDR start))

theorem MmapEffect.same {pr : Proc} {len off : Nat} {prot : Prot} {flags : MapFlags} {fd : Int} {e : Errno} :
    MmapEffect C s p pr len prot flags fd off s (.error e) :=
  @MmapEffect.failed C s p pr len prot flags fd off s.files e

theorem do_mmap_effect {addr len off : Nat} {prot : Prot} {flags : MapFlags} {fd : Int} {r : Except Errno Nat}
    (h : do_mmap C s p addr len prot flags fd off = some (s', r)) :
    ∃ pr, s.procs p = some pr ∧ MmapEffect C s p pr len prot flags fd off s' r := by
  simp only [do_mmap, bind, Option.bind_eq_some_iff] at h
  obtain ⟨pr, hpr, h⟩ := h
  refine ⟨pr, hpr, ?_⟩
  split at h
  · cases h; exact .same
  split at h
  · cases h; exact .same
  split at h
  · cases h; exact .same
  split at h
  · cases h; exact .same
  next hne =>
    simp only [Option.bind_eq_some_iff] at h
    obtain ⟨ra, -, h⟩ := h
    split at h
    · cases h; exact .same
    next a =>
      split at h
      next s₁ e he =>
        cases h
        obtain ⟨⟨fs, rfl⟩, -⟩ := mmapFile_cases he
        exact .failed
      next s₁ file he =>
        obtain ⟨⟨fs, rfl⟩, hfile⟩ := mmapFile_cases he
        simp only [Option.bind_eq_some_iff, Prod.exists] at h
        obtain ⟨s₂, r', hm, h⟩ := h
        split at h
        · cases h
        next st =>
          cases h
          split
          next f _ =>
            obtain ⟨fs', hfs⟩ := fput_files (f := f) (s := s₂)
            rw [hfs]
            exact .mapped hne (hfile _ rfl) hm
          · exact @MmapEffect.mapped C s p pr len prot flags fd off fs s₂.files _ _ st s₂ hne (hfile _ rfl) hm

theorem roundLen_pages {len : Nat} (h : len < 2 ^ 32) : ADDR_TO_PN (roundLen len) ≤ 2 ^ 20 := by
  simp only [roundLen, ADDR_TO_PN, PN_TO_ADDR, u32, PAGE_SIZE]
  split <;> omega

theorem Layout.setFiles (hL : Layout C s) {fs : Nat → Option File} : Layout C (s.setFiles fs) :=
  ⟨hL.areas, hL.ids, hL.fresh, hL.apart, hL.unused⟩

theorem do_mmap_layout {addr len off : Nat} {prot : Prot} {flags : MapFlags} {fd : Int} {r : Except Errno Nat}
    (hL : Layout C s) (hm : ∀ pr, s.procs p = some pr → pr.p_vmmap < s.nmaps) (hlen : len < 2 ^ 32)
    (h : do_mmap C s p addr len prot flags fd off = some (s', r)) : Layout C s' := by
  obtain ⟨pr, hpr, heff⟩ := do_mmap_effect h
  cases heff with
  | failed => exact hL.setFiles
  | @mapped fs fs' file lopage start s₁ _ _ hmap =>
    have hL₀ : Layout C (s.setFiles fs) := hL.setFiles
    have hL₁ : Layout C s₁ := vmmap_map_layout hL₀ (hm pr hpr) (roundLen_pages hlen) hmap
    exact hL₁.setFiles

/-! ## Cloning -/

theorem mem_cloneAreas {m' : Nat} {b : VmArea} : ∀ {id : Nat} {l : List VmArea}, b ∈ cloneAreas m' id l →
    ∃ a ∈ l, ∃ i, id ≤ i ∧ i < id + l.length ∧ b = cloneArea m' i a := by
  intro id l
  induction l generalizing id with
  | nil => simp [cloneAreas]
  | cons a l ih =>
    intro h
    rcases List.mem_cons.1 h with rfl | h
    · exact ⟨a, by simp, id, le_rfl, by simp, rfl⟩
    · obtain ⟨c, hc, i, h1, h2, rfl⟩ := ih h
      exact ⟨c, by simp [hc], i, by omega, by simp only [List.length_cons]; omega, rfl⟩

theorem cloneAreas_ids {m' : Nat} : ∀ (id : Nat) (l : List VmArea),
    (cloneAreas m' id l).map (·.vma_id) = List.range' id l.length := by
  intro id l
  induction l generalizing id with
  | nil => rfl
  | cons a l ih => simp only [cloneAreas, List.map_cons, ih, List.length_cons, List.range'_succ]; rfl

theorem AreasOk.clone {m' id : Nat} {l : List VmArea} (hok : AreasOk C m l) :
    AreasOk C m' (cloneAreas m' id l) := by
  have hs : Sorted VmArea.vma_start VmArea.vma_end (cloneAreas m' id l) := by
    have hsorted := hok.sorted
    clear hok
    induction l generalizing id with
    | nil => exact .nil
    | cons a l ih =>
      obtain ⟨h1, h2, h3⟩ := sorted_cons.1 hsorted
      refine sorted_cons.2 ⟨h1, fun b hb => ?_, ih h3⟩
      obtain ⟨c, hc, i, -, -, rfl⟩ := mem_cloneAreas hb
      exact h2 c hc
  refine ⟨hs, fun b hb => ?_, fun b hb => ?_, fun b hb => ?_⟩
  all_goals obtain ⟨a, ha, i, -, -, rfl⟩ := mem_cloneAreas hb
  · exact hok.low a ha
  · exact hok.high a ha
  · rfl

theorem vmmap_clone_layout (hL : Layout C s) : Layout C (vmmap_clone s m) := by
  have hlist : (vmmap_clone s m).vmm_list =
      Function.update s.vmm_list s.nmaps (cloneAreas s.nmaps s.nareas (s.vmm_list m)) := by
    simp [vmmap_clone, vmmap_create]
  refine hL.update hlist (Nat.le_add_right _ _) (Nat.le_succ _) (fun h => ?_) (hL.areas m).clone ?_ (fun b hb => ?_)
  · exact absurd h (Nat.not_succ_le_self _)
  · rw [cloneAreas_ids]; exact List.nodup_range'
  · obtain ⟨a, -, i, h1, h2, rfl⟩ := mem_cloneAreas hb
    exact ⟨h2, .inl h1⟩

theorem vmmap_create_layout (hL : Layout C s) : Layout C (vmmap_create s) :=
  hL.update rfl le_rfl (Nat.le_succ _) (fun _ => rfl) .nil List.nodup_nil (by simp)

/-! ## Moving the break -/

/-- An area may grow over free pages. -/
theorem Layout.grow (hL : Layout C s) {a : VmArea} (ha : a ∈ s.vmm_list m) {fin : Nat} (hlt : a.vma_end ≤ fin)
    (hhigh : fin ≤ C.high) (hfree : RangeFree (s.vmm_list m) a.vma_end fin) :
    Layout C (s.modArea m a.vma_id (VmArea.cutEnd fin)) := by
  obtain ⟨pre, l, hlist⟩ := List.append_of_mem ha
  have hok := hL.areas m
  have hnd := hL.ids m
  rw [hlist] at hok hnd hfree
  rw [modArea_eq hlist hnd]
  obtain ⟨hs1, hs2, hs3⟩ := sorted_append.1 hok.sorted
  obtain ⟨h1, h2, h3⟩ := sorted_cons.1 hs2
  have hmem : ∀ b ∈ pre ++ a.cutEnd fin :: l, b = a.cutEnd fin ∨ b ∈ pre ++ a :: l := fun b hb => by
    simp only [List.mem_append, List.mem_cons] at hb ⊢; tauto
  refine hL.update (m := m) rfl le_rfl le_rfl (fun h => absurd (hL.created ha) (Nat.not_lt.2 h)) ⟨?_, fun b hb => ?_,
    fun b hb => ?_, fun b hb => ?_⟩ (by simpa using hnd) (fun b hb => ?_)
  · refine sorted_append.2 ⟨hs1, sorted_cons.2 ⟨h1.trans_le hlt, fun b hb => ?_, h3⟩, fun b hb c hc => ?_⟩
    · have hb1 := h2 b hb
      have hb2 := h3.nonempty b hb
      rcases hfree b (by simp [hb]) with h | h
      · omega
      · exact h
    · rcases List.mem_cons.1 hc with rfl | hc
      · exact hs3 b hb a (by simp)
      · exact hs3 b hb c (by simp [hc])
  all_goals rcases hmem b hb with rfl | hb
  · exact hok.low a (by simp)
  · exact hok.low b hb
  · exact hhigh
  · exact hok.high b hb
  · exact hok.owner a (by simp)
  · exact hok.owner b hb
  · exact ⟨hL.fresh m a ha, .inr ⟨a, ha, rfl⟩⟩
  · rw [← hlist] at hb
    exact ⟨hL.fresh m b hb, .inr ⟨b, hb, rfl⟩⟩

theorem setBrk_layout {addr : Nat} (hL : Layout C s) : Layout C (setBrk s p addr) :=
  ⟨hL.areas, hL.ids, hL.fresh, hL.apart, hL.unused⟩

theorem do_brk_layout {addr : Nat} {r : Except Errno Nat} (hL : Layout C s)
    (hm : ∀ pr, s.procs p = some pr → pr.p_vmmap < s.nmaps) (haddr : addr < 2 ^ 32) (hbrk : s.p_brk p < 2 ^ 32)
    (h : do_brk C s p addr = some (s', r)) : Layout C s' := by
  have hC := C.high_lt
  simp only [do_brk, bind, Option.bind_eq_some_iff] at h
  obtain ⟨pr, hpr, h⟩ := h
  split at h
  · cases h; exact hL
  split at h
  · cases h; exact hL
  split at h
  · cases h; exact hL
  split at h
  · simp only [Option.bind_eq_some_iff, Prod.exists] at h
    obtain ⟨s₁, r₁, hmap, h⟩ := h
    have hL₁ := do_mmap_layout hL hm (Nat.mod_lt _ (by decide)) hmap
    split at h <;> cases h
    · exact hL₁
    · exact setBrk_layout hL₁
  split at h
  · cases h; exact setBrk_layout hL
  split at h
  · simp only [Option.bind_eq_some_iff] at h
    obtain ⟨a, ha, e, he, h⟩ := h
    obtain ⟨⟨h1, -, h3⟩, h4⟩ := vmmap_is_range_empty_eq (hL.areas pr.p_vmmap) he
    have hmem : a ∈ s.vmm_list pr.p_vmmap := List.mem_of_find?_eq_some ha
    have hend := (hL.areas pr.p_vmmap).high a hmem
    have hfin : u32 (a.vma_end + usub (1 + ADDR_TO_PN addr) a.vma_end) = 1 + ADDR_TO_PN addr := by
      simp only [u32, usub, ADDR_TO_PN, PAGE_SIZE] at h1 h3 ⊢
      omega
    rw [hfin] at h1 h3 h4
    split at h <;> cases h
    next hb => exact setBrk_layout (hL.grow hmem h1.le h3 (h4.1 hb))
    · exact hL
  · simp only [Option.bind_eq_some_iff] at h
    obtain ⟨s₁, hr, h⟩ := h
    cases h
    refine setBrk_layout (vmmap_remove_layout ?_ hL hr)
    simp only [ADDR_TO_PN, PAGE_SIZE]
    omega

/-! ## Sequences of operations -/

/-- The operations on maps. `insert` adds a new area with the given fields; the
process `p` is the one whose page table and break are used. -/
inductive MapOp
  | create
  | insert (m vma_start vma_end vma_off : Nat) (prot : Prot) (flags : MapFlags) (obj : Option Nat)
  | map (p m : Nat) (file : Option Nat) (lopage npages : Nat) (prot : Prot) (flags : MapFlags) (off : Nat) (dir : Dir)
  | remove (p m lopage npages : Nat)
  | clone (m : Nat)
  | brk (p addr : Nat)

/-- One operation on maps that exist. -/
def mapStep (C : Config) (s : State) : MapOp → Option (State × Unit)
  | .create => some (vmmap_create s, ())
  | .insert m vma_start vma_end vma_off prot flags obj => do
    KASSERT (m < s.nmaps)
    let s' ← vmmap_insert C s.vmarea_alloc m ⟨s.nareas, vma_start, vma_end, vma_off, prot, flags, none, obj⟩
    some (s', ())
  | .map p m file lopage npages prot flags off dir => do
    KASSERT (m < s.nmaps)
    let (s', _) ← vmmap_map C s p m file lopage npages prot flags off dir
    some (s', ())
  | .remove p m lopage npages => do
    KASSERT (m < s.nmaps)
    let s' ← vmmap_remove C s p m lopage npages
    some (s', ())
  | .clone m => do
    KASSERT (m < s.nmaps)
    some (vmmap_clone s m, ())
  | .brk p addr => do
    let pr ← s.procs p
    KASSERT (pr.p_vmmap < s.nmaps)
    let (s', _) ← do_brk C s p addr
    some (s', ())

/-- Page numbers and page counts are at most `2^20`, and addresses have 32 bits. -/
def MapOp.Bounded (s : State) : MapOp → Prop
  | .map _ _ _ _ npages _ _ _ _ => npages ≤ 2 ^ 20
  | .remove _ _ lopage npages => lopage ≤ 2 ^ 20 ∧ npages ≤ 2 ^ 20
  | .brk p addr => addr < 2 ^ 32 ∧ s.p_brk p < 2 ^ 32
  | _ => True

instance (s : State) (op : MapOp) : Decidable (op.Bounded s) := by
  cases op <;> unfold MapOp.Bounded <;> infer_instance

theorem mapStep_layout {op : MapOp} {w : Unit} (hL : Layout C s) (hop : op.Bounded s)
    (h : mapStep C s op = some (s', w)) : Layout C s' := by
  cases op with
  | create => cases h; exact vmmap_create_layout hL
  | insert m vma_start vma_end vma_off prot flags obj =>
    simp only [mapStep, bind, Option.bind_eq_some_iff, KASSERT_eq_some, Option.some.injEq, Prod.mk.injEq] at h
    obtain ⟨-, hm, s₁, hi, rfl, -⟩ := h
    have hL₁ : Layout C s.vmarea_alloc := hL.more (Nat.le_succ _)
    exact vmmap_insert_layout hL₁ hm (Nat.lt_succ_self _) (fun m' a ha => (hL.fresh m' a ha).ne) hi
  | map p m file lopage npages prot flags off dir =>
    simp only [mapStep, bind, Option.bind_eq_some_iff, KASSERT_eq_some, Option.some.injEq, Prod.mk.injEq,
      Prod.exists] at h
    obtain ⟨-, hm, s₁, r, hmap, rfl, -⟩ := h
    exact vmmap_map_layout hL hm hop hmap
  | remove p m lopage npages =>
    simp only [mapStep, bind, Option.bind_eq_some_iff, KASSERT_eq_some, Option.some.injEq, Prod.mk.injEq] at h
    obtain ⟨-, -, s₁, hr, rfl, -⟩ := h
    obtain ⟨hlo, hn⟩ := hop
    exact vmmap_remove_layout (by omega) hL hr
  | clone m =>
    simp only [mapStep, bind, Option.bind_eq_some_iff, KASSERT_eq_some, Option.some.injEq, Prod.mk.injEq] at h
    obtain ⟨-, -, rfl, -⟩ := h
    exact vmmap_clone_layout hL
  | brk p addr =>
    simp only [mapStep, bind, Option.bind_eq_some_iff, KASSERT_eq_some, Option.some.injEq, Prod.mk.injEq,
      Prod.exists] at h
    obtain ⟨pr, hpr, -, hm, s₁, r, hb, rfl, -⟩ := h
    obtain ⟨haddr, hbrk⟩ := hop
    refine do_brk_layout hL (fun pr' h' => ?_) haddr hbrk hb
    rw [hpr] at h'
    cases h'
    exact hm

end Weenix.Vm
