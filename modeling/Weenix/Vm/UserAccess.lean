import Weenix.Vm.EntryRuns
/-!
# User loads and stores

A load returns the byte of the frame that the chain of the area reads the page
from; a store goes to the frame of the area's object itself. Both hold whether
the page table has an entry for the page or the page-fault handler makes one.
-/

namespace Weenix.Vm

open Lib Lib.Intervals

variable {C : Config} {E : Env} {R : FrameRel} {s s' : State} {o p vaddr : Nat} {a : VmArea} {pr : Proc} {pf : Pframe}
  {pte : Pte} {cause : Cause} {held : Nat → Int}

/-- A fault in an area that grants the access maps the page. -/
theorem handle_pagefault_mapped (h : Backing C held s) (hheld : ∀ o, 0 ≤ held o) (hpr : s.procs p = some pr)
    (ha : a ∈ s.vmm_list pr.p_vmmap) (hv : a.Has (ADDR_TO_PN vaddr)) (ho : a.vma_obj = some o)
    (hperm : a.vma_prot.grants (accessRight cause) = true) : ∃ s₁ pf,
      handle_pagefault C E s p vaddr cause = some (s₁.pt_map p (ADDR_TO_PN vaddr) pf.pf_addr cause.write, .mapped) ∧
      Looked s o (a.pagenum (ADDR_TO_PN vaddr)) s₁ pf ∧ (cause.write = true → pf.pf_obj = o) := by
  obtain ⟨s₁, pf, hf, hl, hw⟩ := fault_frame_looked (E := E) vaddr h hheld ha ho cause.write
  have hC := C.high_lt
  have hfind : vmmap_lookup (s.vmm_list pr.p_vmmap) (ADDR_TO_PN vaddr) = some a :=
    (h.layout.areas pr.p_vmmap).sorted.find_iff.2 ⟨ha, hv⟩
  have hlt := (h.layout.areas pr.p_vmmap).high a ha
  have hpage : ADDR_TO_PN (PN_TO_ADDR (ADDR_TO_PN vaddr)) = ADDR_TO_PN vaddr := pn_addr_pn (by have := hv.2; omega)
  refine ⟨s₁, pf, ?_, hl, hw⟩
  simp only [handle_pagefault, hpr, hfind, bind, Option.bind_some, addr_perm_eq hfind, hperm]
  simp only [hf, hpage, Bool.true_eq_false, if_false, Option.bind_some]

theorem pt_map_self (s : State) (p v page : Nat) (w : Bool) : (s.pt_map p v page w).p_pagedir p v = some ⟨page, w⟩ := by
  simp [State.pt_map]

theorem grants_plain (prot : Prot) : prot.grants (accessRight {}) = true := by
  simp [accessRight, Prot.grants]

/-- The entry of a page of an area maps the frame that the chain reads the page from. -/
theorem Paged.entry_reads (h : Paged State.reads C held s) (hpr : s.procs p = some pr) (ha : a ∈ s.vmm_list pr.p_vmmap)
    {v : Nat} (hv : a.Has v) (ho : a.vma_obj = some o) (hpte : s.p_pagedir p v = some pte) :
    ∃ pf, s.resolves o (a.pagenum v) = some pf ∧ pf.pf_addr = pte.pt_page ∧ (pte.pt_write = true → pf.pf_obj = o) := by
  obtain ⟨pr', a', o', pf, he⟩ := h.entries p v pte hpte
  obtain rfl : pr' = pr := Option.some.inj (he.proc.symm.trans hpr)
  obtain rfl : a' = a := h.backing.layout.area_unique ha he.area hv he.has
  obtain rfl : o' = o := Option.some.inj (he.obj.symm.trans ho)
  exact ⟨pf, he.frame, he.page, he.write⟩

/-- What a load of a mapped page does. -/
inductive LoadEffect (s : State) (p vaddr o pn : Nat) : State → UInt8 → Prop
  | present (pf : Pframe) : s.resolves o pn = some pf → LoadEffect s p vaddr o pn s (s.mem pf.pf_addr (vaddr % PAGE_SIZE))
  | fault (s₁ : State) (pf : Pframe) : s.p_pagedir p (ADDR_TO_PN vaddr) = none → Looked s o pn s₁ pf →
      LoadEffect s p vaddr o pn (s₁.pt_map p (ADDR_TO_PN vaddr) pf.pf_addr false) (s₁.mem pf.pf_addr (vaddr % PAGE_SIZE))

theorem userLoad_mapped (h : Linked State.reads C held s) (hpr : s.procs p = some pr) (ha : a ∈ s.vmm_list pr.p_vmmap)
    (hv : a.Has (ADDR_TO_PN vaddr)) (ho : a.vma_obj = some o) : ∃ s' b, userLoad C E s p vaddr = some (s', .byte b) ∧
      LoadEffect s p vaddr o (a.pagenum (ADDR_TO_PN vaddr)) s' b := by
  unfold userLoad readPte
  cases hpte : s.p_pagedir p (ADDR_TO_PN vaddr) with
  | some pte =>
    obtain ⟨pf, hres, hpage, -⟩ := h.entry_reads hpr ha hv ho hpte
    refine ⟨s, s.mem pte.pt_page (vaddr % PAGE_SIZE), rfl, ?_⟩
    rw [← hpage]
    exact .present pf hres
  | none =>
    obtain ⟨s₁, pf, hf, hl, -⟩ := handle_pagefault_mapped (E := E) h.backing h.outside.nonneg hpr ha hv ho
      (grants_plain a.vma_prot)
    refine ⟨_, s₁.mem pf.pf_addr (vaddr % PAGE_SIZE), ?_, .fault s₁ pf hpte hl⟩
    simp only [Option.map_none, hf, bind, Option.bind_some, pt_map_self, Option.map_some]
    rfl

end Weenix.Vm
