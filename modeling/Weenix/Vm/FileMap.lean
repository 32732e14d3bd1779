import Weenix.Vm.Reach
/-!
# File mappings

`do_mmap` hands its byte offset to `vmmap_map`, which stores it in `vma_off`,
where all other code expects a page number. Page `k` of a mapping with offset
`off` is page `off + k` of the file, not `off / PAGE_SIZE + k`.
-/

namespace Weenix.Vm

open Lib Lib.Intervals

variable {C : Config} {E : Env} {s s' : State} {p m : Nat}

/-- The fault handler and both copies take page `n` of the object for the page `v` of the area. -/
structure ResolvesTo (a : VmArea) (v n : Nat) : Prop where
  fault : ∀ vaddr, ADDR_TO_PN vaddr = v → fault_pagenum a vaddr = n
  read : read_pagenum a v = n
  write : write_pagenum a v = n

theorem write_pagenum_eq (a : VmArea) (v : Nat) : write_pagenum a v = a.pagenum v := by
  unfold write_pagenum VmArea.pagenum u32 usub; omega

theorem resolvesTo_iff {a : VmArea} {v n : Nat} : ResolvesTo a v n ↔ a.pagenum v = n := by
  constructor
  · rintro ⟨-, h1, -⟩; exact h1
  · intro hv
    refine ⟨?_, hv, by rw [write_pagenum_eq, hv]⟩
    rintro vaddr rfl
    exact hv

/-! ## The frame has the page number asked for -/

theorem frame?_some {o pn : Nat} {pf : Pframe} (h : s.frame? o pn = some pf) :
    pf ∈ s.pframes ∧ pf.pf_obj = o ∧ pf.pf_pagenum = pn :=
  ⟨List.mem_of_find?_eq_some h, by simpa using List.find?_some h⟩

theorem pframe_get_pagenum {o pn : Nat} {pf : Pframe} {ok : Bool} (h : pframe_get E s o pn = some (s', pf, ok)) :
    pf.pf_obj = o ∧ pf.pf_pagenum = pn := by
  simp only [pframe_get, pframe_get_by, pframe_get_resident] at h
  cases hf : s.frame? o pn with
  | some pf' =>
    obtain ⟨-, hk⟩ := frame?_some hf
    simp only [hf] at h
    split at h
    next h1 =>
      split at h
      · cases h
      · cases h
        split at h1 <;> cases h1 <;> exact hk
    next h1 => split at h1 <;> cases h1
  | none =>
    simp only [hf, pframe_alloc, pframe_fill, bind, Option.bind_eq_some_iff, Option.some.injEq, Prod.mk.injEq,
      Prod.exists] at h
    obtain ⟨-, -, ⟨-, -, -, rfl⟩, -, -, -, -, rfl, -⟩ := h
    exact ⟨rfl, rfl⟩

theorem chainWalk_pagenum {pn : Nat} {pf : Pframe} : ∀ {n o : Nat}, chainWalk s pn n o = some (.inl pf) →
    pf.pf_pagenum = pn := by
  intro n
  induction n with
  | zero => intro o h; cases h
  | succ n ih =>
    intro o h
    simp only [chainWalk, bind, Option.bind_eq_some_iff] at h
    obtain ⟨ob, -, h⟩ := h
    split at h
    · cases h
    · split at h
      next hf => cases h; exact (frame?_some hf).2.2
      next => exact ih h

/-- The frame mapped for a fault holds page `fault_pagenum` of its object. -/
theorem fault_frame_pagenum {a : VmArea} {vaddr : Nat} {w : Bool} {pf : Pframe}
    (h : fault_frame E s a vaddr w = some (s', pf)) : pf.pf_pagenum = fault_pagenum a vaddr := by
  simp only [fault_frame, bind, Option.bind_eq_some_iff] at h
  obtain ⟨o, -, ob, -, h⟩ := h
  split at h
  · simp only [Option.bind_eq_some_iff, Option.some.injEq, Prod.mk.injEq, Prod.exists] at h
    obtain ⟨s₁, pf', ok, hg, -, rfl⟩ := h
    exact (pframe_get_pagenum hg).2
  · simp only [shadow_lookuppage, bind, Option.bind_eq_some_iff, Prod.exists] at h
    obtain ⟨s₁, sp, h1, h2⟩ := h
    split at h2
    · simp only [Option.bind_eq_some_iff, Option.some.injEq, Prod.mk.injEq, Prod.exists] at h2
      obtain ⟨s₂, pf', ok, hg, -, rfl⟩ := h2
      exact (pframe_get_pagenum hg).2
    · cases h2
      simp only [shadow_resolve, bind, Option.bind_eq_some_iff] at h1
      obtain ⟨ob', -, r, hc, h1⟩ := h1
      split at h1
      · cases h1; exact chainWalk_pagenum hc
      · simp only [Option.bind_eq_some_iff, Option.some.injEq, Prod.mk.injEq, Prod.exists] at h1
        obtain ⟨b, -, s₂, pf', ok, hg, -, rfl⟩ := h1
        exact (pframe_get_pagenum hg).2

/-! ## After mapping and unmapping -/

/-- Calls of `do_munmap` by `p`, one after the other. -/
def munmaps (C : Config) (p : Nat) : State → List (Nat × Nat) → Option State
  | s, [] => some s
  | s, (addr, len) :: us => do
    let (s, _) ← do_munmap C s p addr len
    munmaps C p s us

/-- In the pages `[start, start + n)` of map `m`, page `start + k` is page `off + k` of the object. -/
def Shifted (s : State) (m start n off : Nat) : Prop :=
  ∀ a ∈ s.vmm_list m, ∀ k < n, a.Has (start + k) → a.pagenum (start + k) = u32 (off + k)

theorem vmmap_remove_shifted {lo npages start n off : Nat} (hL : Layout C s) (hlt : lo + npages < 2 ^ 32)
    (hS : Shifted s m start n off) (h : vmmap_remove C s p m lo npages = some s') : Shifted s' m start n off := by
  have hC := C.high_lt
  have hl : s'.vmm_list = _ := congrArg Spaces.vmm_list (vmmap_remove_list hlt hL h)
  intro b hb k hk hbk
  rw [hl] at hb
  simp only [Spaces.withList, Function.update_self, List.mem_flatMap] at hb
  obtain ⟨a, ha, hb⟩ := hb
  have hhigh := (hL.areas m).high a ha
  have hp := pieceOf_mem (Nat.le_add_right _ _) ((hL.areas m).sorted.nonempty a ha) (by omega) hb
  rw [hp.pagenum _ hbk]
  exact hS a ha k hk ⟨hp.start_le.trans hbk.1, hbk.2.trans_le hp.le_end⟩

theorem munmaps_shifted {start n off : Nat} {pr : Proc} {us : List (Nat × Nat)}
    (hus : ∀ u ∈ us, u.1 < 2 ^ 32 ∧ u.2 < 2 ^ 32) : ∀ {s s' : State}, Placed C s → s.procs p = some pr →
      Shifted s pr.p_vmmap start n off → munmaps C p s us = some s' →
      Placed C s' ∧ s'.procs p = some pr ∧ Shifted s' pr.p_vmmap start n off := by
  induction us with
  | nil => intro s s' hP hpr hS h; cases h; exact ⟨hP, hpr, hS⟩
  | cons u us ih =>
    intro s s' hP hpr hS h
    obtain ⟨addr, len⟩ := u
    obtain ⟨haddr, hlen⟩ := hus (addr, len) (by simp)
    simp only [munmaps, bind, Option.bind_eq_some_iff, Prod.exists] at h
    obtain ⟨s₁, r, hm, h⟩ := h
    have hrest : Placed C s₁ → s₁.procs p = some pr → Shifted s₁ pr.p_vmmap start n off →
        munmaps C p s₁ us = some s' → Placed C s' ∧ s'.procs p = some pr ∧ Shifted s' pr.p_vmmap start n off :=
      ih fun u hu => hus u (by simp [hu])
    rcases do_munmap_cases hm with ⟨rfl, -⟩ | ⟨pr', hpr', hr, -⟩
    · exact hrest hP hpr hS h
    · rw [hpr] at hpr'
      cases hpr'
      have hlt := munmap_bound haddr hlen
      have hsp := vmmap_remove_list hlt hP.layout hr
      exact hrest (vmmap_remove_placed hP hpr hlt hr) ((congrFun (congrArg Spaces.procs hsp) p).trans hpr)
        (vmmap_remove_shifted hP.layout hlt hS hr) h

/-- A successful `do_mmap` of `len` bytes at `off` makes page `k` of the mapping page `off + k` of the object. -/
theorem do_mmap_shifted {addr len off ret : Nat} {prot : Prot} {flags : MapFlags} {fd : Int} (hP : Placed C s)
    (hlen : len < 2 ^ 32) (h : do_mmap C s p addr len prot flags fd off = some (s', .ok ret)) :
    ∃ pr, s'.procs p = some pr ∧ PAGE_ALIGNED off = true ∧
      Shifted s' pr.p_vmmap (ADDR_TO_PN ret) (ADDR_TO_PN (roundLen len)) off := by
  have hC := C.high_lt
  obtain ⟨pr, hpr, heff⟩ := do_mmap_effect h
  cases heff with
  | @mapped fs fs' file lopage start s₁ _ _ hmap =>
    have hL₀ : Layout C (s.setFiles fs) := hP.layout.setFiles
    obtain ⟨⟨hpos, -, -, hal⟩, hm⟩ := vmmap_map_effect hL₀ (roundLen_pages hlen) hmap
    obtain ⟨l, n, hsp⟩ := hm.spaces hL₀
    refine ⟨pr, (congrFun (congrArg Spaces.procs hsp) p).trans hpr, hal, ?_⟩
    cases hm with
    | @mapped _ s₂ s₃ area hfrom hL₂ hroom _ ha =>
      obtain ⟨hsp₃, o, rfl⟩ := attachObject_spaces ha
      have hlow := hroom.low
      have hhigh := hroom.high
      have hret : ADDR_TO_PN (PN_TO_ADDR start) = start := by
        simp only [ADDR_TO_PN, PN_TO_ADDR, u32, PAGE_SIZE]; omega
      have hl₃ : s₃.vmm_list = s₂.vmm_list := congrArg Spaces.vmm_list hsp₃
      rw [hret]
      intro b hb k hk hbk
      simp only [State.setFiles, State.setList, Function.update_self, mem_insertArea] at hb
      rcases hb with rfl | hb
      · simp only [VmArea.pagenum, VmArea.withObj, newArea, usub, u32]
        omega
      · -- An older area does not reach into the range of the new one.
        rw [hl₃] at hb
        have hfree := hroom.free b hb
        simp only [VmArea.Has] at hbk
        omega

/-- For the page `k` of a file mapping, as long as it is mapped: the page the
code takes for it is page `off / PAGE_SIZE + k` of the file exactly when `off` is 0. -/
theorem file_page_iff {s₀ s₁ s₂ : State} {ok : State → Event → Prop} {tr : List (Event × Outcome)} (h0 : Booted s₀)
    (hok : ∀ s e, ok s e → e.Sane) (hr : Run (step C E) ok s₀ s tr) {addr len off ret k : Nat} {prot : Prot}
    {flags : MapFlags} {fd : Int} (hlen : len < 2 ^ 32) (hoff : off < 2 ^ 32)
    (hmap : do_mmap C s p addr len prot flags fd off = some (s₁, .ok ret)) {us : List (Nat × Nat)}
    (hus : ∀ u ∈ us, u.1 < 2 ^ 32 ∧ u.2 < 2 ^ 32) (hun : munmaps C p s₁ us = some s₂)
    (hk : k < ADDR_TO_PN (roundLen len)) {a : VmArea} {pr : Proc} (hpr : s₂.procs p = some pr)
    (ha : vmmap_lookup (s₂.vmm_list pr.p_vmmap) (ADDR_TO_PN ret + k) = some a) :
    ResolvesTo a (ADDR_TO_PN ret + k) (off / PAGE_SIZE + k) ↔ off = 0 := by
  have hC := C.high_lt
  have hP := run_placed h0 hok hr
  obtain ⟨pr₁, hpr₁, hal, hS⟩ := do_mmap_shifted hP hlen hmap
  obtain ⟨hP₂, hpr₂, hS₂⟩ := munmaps_shifted hus (do_mmap_placed hP hlen hmap) hpr₁ hS hun
  rw [hpr₂] at hpr
  cases hpr
  obtain ⟨hmem, hhas⟩ := ((hP₂.layout.areas pr.p_vmmap).sorted.find_iff).1 ha
  have hpage := hS₂ a hmem k hk hhas
  have hpages := roundLen_pages hlen
  rw [resolvesTo_iff, hpage]
  simp only [PAGE_ALIGNED, PAGE_SIZE, u32, beq_iff_eq] at hal ⊢
  omega

/-- A disk with one file, whose page `n` is filled with the byte `n`. -/
def oneFile : State :=
  .boot (fun vn => ⟨.reg, if vn = 0 then some (.ok 0) else none, true⟩)
    (fun o => if o = 0 then some ⟨.vnode 0, none, none⟩ else none) 1 (fun _ => 1)
    (fun _ off _ => UInt8.ofNat (off / PAGE_SIZE))

theorem oneFile_booted : Booted oneFile := by
  constructor <;> try (intros; rfl)
  · intro o ob h
    simp only [oneFile, State.boot] at h
    split at h
    next ho => cases h; subst ho; exact ⟨Nat.zero_lt_one, 0, rfl⟩
    next => cases h
  · intro vn o h
    simp only [oneFile, State.boot] at h ⊢
    split at h <;> cases h
    next hv => subst hv; rfl

/-- A process opens the file. -/
def openIt : List Event := [.spawn, .opened 0 3 0 { read := true } 0]

/-- Mapped at the offset 4096, the first page shows page 4096 of the file, not page 1. -/
theorem second_page_wrong : ∃ s tr s₁ pr a, Run (step .stock .simple) (fun _ e => e.Sane) oneFile s tr ∧
    do_mmap .stock s 0 0 8192 { read := true } { priv := true } 3 4096 = some (s₁, .ok 0x400000) ∧
    s₁.procs 0 = some pr ∧ vmmap_lookup (s₁.vmm_list pr.p_vmmap) 0x400 = some a ∧ ¬ ResolvesTo a 0x400 1 := by
  have hex : (exec (step .stock .simple) (fun _ e => decide e.Sane) oneFile openIt).bind (fun r =>
      (do_mmap .stock r.1 0 0 8192 { read := true } { priv := true } 3 4096).bind fun q =>
        (q.1.procs 0).bind fun pr => (vmmap_lookup (q.1.vmm_list pr.p_vmmap) 0x400).map fun a =>
          (q.2.toOption, a.pagenum 0x400)) = some (some 0x400000, 4096) := by decide +kernel
  simp only [Option.bind_eq_some_iff, Option.map_eq_some_iff, Prod.mk.injEq, Prod.exists] at hex
  obtain ⟨s, tr, he, s₁, r, hm, pr, hpr, a, ha, hr, hpage⟩ := hex
  refine ⟨s, tr, s₁, pr, a, Run.of_exec (fun _ _ => of_decide_eq_true) he, ?_, hpr, ha, ?_⟩
  · cases r with
    | error e => cases hr
    | ok n => cases hr; exact hm
  · rw [resolvesTo_iff, hpage]
    decide

/-- Mapped at the offset 0, the second page still shows page 1 after the first one is unmapped. -/
theorem second_page_right : ∃ (s₂ : State) (pr : Proc) (a : VmArea), s₂.procs 0 = some pr ∧
    vmmap_lookup (s₂.vmm_list pr.p_vmmap) 0x401 = some a ∧ ResolvesTo a 0x401 1 := by
  have hex : (exec (step .stock .simple) (fun _ e => decide e.Sane) oneFile openIt).bind (fun r =>
      (do_mmap .stock r.1 0 0 8192 { read := true } { priv := true } 3 0).bind fun q =>
        (munmaps .stock 0 q.1 [(0x400000, 4096)]).bind fun t =>
          (t.procs 0).bind fun pr => (vmmap_lookup (t.vmm_list pr.p_vmmap) 0x401).map fun _ => q.2.toOption) =
      some (some 0x400000) := by decide +kernel
  simp only [Option.bind_eq_some_iff, Option.map_eq_some_iff, Prod.exists] at hex
  obtain ⟨s, tr, he, s₁, r, hm, s₂, hun, pr, hpr, a, ha, hr⟩ := hex
  cases r with
  | error e => cases hr
  | ok n =>
    cases hr
    have hrun : Run (step .stock .simple) (fun _ e => e.Sane) oneFile s tr :=
      Run.of_exec (fun _ _ => of_decide_eq_true) he
    exact ⟨s₂, pr, a, hpr, ha, (file_page_iff (k := 1) oneFile_booted (fun _ _ h => h) hrun (by decide) (by decide) hm
      (by decide) hun (by decide) hpr ha).2 rfl⟩

end Weenix.Vm
