import Weenix.Vm.Evictions
import Weenix.Vm.SharedStores
import Weenix.Vm.Unmap
import Weenix.Vm.Writes
/-!
# What the processes see

`State.memory` is the memory of every process as its areas show it. Where all
areas are private and stand on anonymous objects, each event changes it for the
one process alone, and `fork` copies it.
-/

namespace Weenix.Vm

open Lib Lib.Intervals

variable {C : Config} {E : Env} {s s' t : State} {o pn m p v : Nat} {a c : VmArea} {pf : Pframe} {pr : Proc} {held : Nat → Int}
  {x : Page}

/-- What map `m` has at page `v`. -/
def State.pages (s : State) (m v : Nat) : Option Page := (s.objPage m v).map fun x => s.page x.1 x.2

/-- The pages of process `p`. -/
def State.memory (s : State) (p : Nat) : Option (Nat → Option Page) := (s.procs p).map fun pr => s.pages pr.p_vmmap

/-- The area is private, may be read and written, and is of an anonymous object. -/
structure AnonArea (s : State) (a : VmArea) : Prop where
  priv : a.vma_flags.shared = false
  read : a.vma_prot.read = true
  write : a.vma_prot.write = true
  obj : ∃ o, a.vma_obj = some o ∧ s.Anonymous o

def Anons (s : State) : Prop := ∀ m, ∀ a ∈ s.vmm_list m, AnonArea s a

/-! ## Reading the areas -/

theorem objPage_eq (hL : Layout C s) (ha : a ∈ s.vmm_list m) (hv : a.Has v) (ho : a.vma_obj = some o) :
    s.objPage m v = some (o, a.pagenum v) := by
  have hfind : vmmap_lookup (s.vmm_list m) v = some a := (hL.areas m).sorted.find_iff.2 ⟨ha, hv⟩
  simp [State.objPage, hfind, ho]

theorem objPage_some {y : Nat × Nat} (h : s.objPage m v = some y) :
    ∃ a ∈ s.vmm_list m, a.Has v ∧ a.vma_obj = some y.1 ∧ a.pagenum v = y.2 := by
  simp only [State.objPage, Option.bind_eq_some_iff, Option.map_eq_some_iff] at h
  obtain ⟨a, ha, o, ho, rfl⟩ := h
  have hv := List.find?_some ha
  simp only [decide_eq_true_eq] at hv
  exact ⟨a, List.mem_of_find?_eq_some ha, hv, ho, rfl⟩

theorem pages_eq_some (hL : Layout C s) :
    s.pages m v = some x ↔ ∃ a ∈ s.vmm_list m, a.Has v ∧ ∃ o, a.vma_obj = some o ∧ s.page o (a.pagenum v) = x := by
  constructor
  · intro h
    obtain ⟨y, hy, rfl⟩ := Option.map_eq_some_iff.1 h
    obtain ⟨a, ha, hv, ho, hpn⟩ := objPage_some hy
    exact ⟨a, ha, hv, y.1, ho, by rw [hpn]⟩
  · rintro ⟨a, ha, hv, o, ho, rfl⟩
    simp only [State.pages, objPage_eq hL ha hv ho, Option.map_some]

theorem pages_none (hnone : ∀ a ∈ s.vmm_list m, ¬ a.Has v) : s.pages m v = none := by
  have hfind : vmmap_lookup (s.vmm_list m) v = none := find_none_iff.2 hnone
  simp [State.pages, State.objPage, hfind]

theorem memory_of (hpr : s.procs p = some pr) : s.memory p = some (s.pages pr.p_vmmap) := by
  simp only [State.memory, hpr, Option.map_some]

theorem memory_none (hpr : s.procs p = none) : s.memory p = none := by
  simp only [State.memory, hpr, Option.map_none]

/-- Memory stays where processes and areas do, and the pages that the areas are of. -/
theorem memory_congr (hprocs : s'.procs = s.procs) (hlists : s'.vmm_list = s.vmm_list)
    (hpage : ∀ m, ∀ a ∈ s.vmm_list m, ∀ v, a.Has v → ∀ o, a.vma_obj = some o → s'.page o (a.pagenum v) = s.page o (a.pagenum v)) :
    s'.memory = s.memory := by
  have hobj : s'.objPage = s.objPage := by
    funext m v
    simp only [State.objPage, hlists]
  funext p
  cases hpr : s.procs p with
  | none => rw [memory_none hpr, memory_none (hprocs ▸ hpr)]
  | some pr =>
    rw [memory_of hpr, memory_of (hprocs ▸ hpr)]
    congr 1
    funext v
    simp only [State.pages, hobj]
    cases hy : s.objPage pr.p_vmmap v with
    | none => rfl
    | some y =>
      obtain ⟨a, ha, hv, ho, hpn⟩ := objPage_some hy
      simp only [Option.map_some, ← hpn, hpage _ a ha v hv y.1 ho]

/-- A chain that keeps its objects and its frames has the pages it had. -/
theorem page_keep (hc : Chains s) (hc' : Chains s') (hmem : s'.mem = s.mem) (hdisk : s'.disk = s.disk)
    (h : ∀ y, Layers.Reaches s.parent o y → s'.objs y = s.objs y ∧ s'.frame? y pn = s.frame? y pn) :
    s'.page o pn = s.page o pn := by
  apply Layers.read_congr hc.grounded hc'.grounded
  intro y hy
  obtain ⟨hobj, hframe⟩ := h y hy
  refine ⟨?_, ?_, ?_⟩
  · simp only [State.parent, hobj]
  · simp only [State.resident, hframe, hmem]
  · simp only [State.source, hobj, hdisk]

/-- `Anonymous` looks at the objects of the chain only. -/
theorem State.Anonymous.more (h : s.Anonymous o) (hobjs : ∀ y ob, s.objs y = some ob → s'.objs y = some ob) : s'.Anonymous o := by
  obtain ⟨b, ob, hb, hob, hops⟩ := h
  refine ⟨b, ob, ?_, hobjs b ob hob, hops⟩
  obtain ⟨ob', hob', hbot⟩ := Option.bind_eq_some_iff.1 hb
  exact Option.bind_eq_some_iff.2 ⟨ob', hobjs o ob' hob', hbot⟩

theorem AnonArea.part (h : AnonArea s a) (hobjs : ∀ y ob, s.objs y = some ob → s'.objs y = some ob) (h1 : c.vma_obj = a.vma_obj)
    (h2 : c.vma_flags = a.vma_flags) (h3 : c.vma_prot = a.vma_prot) : AnonArea s' c := by
  obtain ⟨o, ho, han⟩ := h.obj
  exact ⟨by rw [h2, h.priv], by rw [h3, h.read], by rw [h3, h.write], o, h1.trans ho, han.more hobjs⟩

/-- Who shadows an object on an anonymous one is on one too. -/
theorem Chains.anonymous (hc : Chains s) {y : Nat} (hpar : s.parent y = some o) (h : s.Anonymous o) : s.Anonymous y := by
  obtain ⟨b, ob, hb, hob, hops⟩ := h
  exact ⟨b, ob, (hc.reaches (.single hpar)).symm.trans hb, hob, hops⟩

/-- The entries are right, and all areas are private areas of anonymous objects. -/
structure Secluded (C : Config) (held : Nat → Int) (s : State) : Prop extends Linked State.reads C held s where
  anons : Anons s

/-- The rule for areas that are parts of areas there were. -/
theorem Stays.secluded (h : Stays State.reads C held s s') (hA : Anons s) (hl : ∀ m, ∀ c ∈ s'.vmm_list m, ∃ a ∈ s.vmm_list m,
    c.vma_obj = a.vma_obj ∧ c.vma_flags = a.vma_flags ∧ c.vma_prot = a.vma_prot) : Secluded C held s' := by
  refine ⟨h.linked, fun m c hc => ?_⟩
  obtain ⟨a, ha, h1, h2, h3⟩ := hl m c hc
  exact (hA m a ha).part h.objs h1 h2 h3

/-- The rule for what happens to one process: the others and their pages stay. -/
theorem memory_update {f : Option (Nat → Option Page)} (hsome : ∀ q pr, q ≠ p → s.procs q = some pr →
    s'.procs q = some pr ∧ ∀ v, s'.pages pr.p_vmmap v = s.pages pr.p_vmmap v)
    (hnone : ∀ q, q ≠ p → s.procs q = none → s'.procs q = none) (hself : s'.memory p = f) :
    s'.memory = Function.update s.memory p f := by
  funext q
  by_cases e : q = p
  · rw [e, Function.update_self, hself]
  · rw [Function.update_of_ne e]
    cases hq : s.procs q with
    | none => rw [memory_none hq, memory_none (hnone q e hq)]
    | some pr =>
      obtain ⟨hq', hpages⟩ := hsome q pr e hq
      rw [memory_of hq, memory_of hq', funext hpages]

/-! ## Loads and stores -/

/-- New frames change no memory. -/
theorem Grown.memory (h : Grown s s') (hB : Backing C held s) (hf : Frames s') (hA : Anons s) : s'.memory = s.memory := by
  refine memory_congr (congrArg Spaces.procs h.spaces) (congrArg Spaces.vmm_list h.spaces) fun m a ha v _ o ho => ?_
  obtain ⟨o', ho', han⟩ := (hA m a ha).obj
  rw [ho] at ho'
  cases ho'
  exact h.page hB.chains hB.frames hf han

theorem pt_map_memory (s : State) (p v page : Nat) (w : Bool) : (s.pt_map p v page w).memory = s.memory := rfl

/-- A store in the page's own frame is seen by this process, at this page. -/
theorem setMem_memory (h : Secluded C held s) (hpr : s.procs p = some pr) (ha : a ∈ s.vmm_list pr.p_vmmap) (hv : a.Has v)
    (ho : a.vma_obj = some o) (hfr : s.frame? o (a.pagenum v) = some pf) (y : Page) :
    (s.setMem pf.pf_addr y).memory = Function.update s.memory p (some (Function.update (s.pages pr.p_vmmap) v (some y))) := by
  have hL := h.backing.layout
  obtain ⟨hseen, hrest⟩ := wrote_page h.backing.chains h.backing.frames hfr y 0
  have hpage : (s.setMem pf.pf_addr y).page = (s.wrote pf y 0).page := rfl
  have hobj : (s.setMem pf.pf_addr y).objPage = s.objPage := rfl
  -- whoever reads through to the frame is this area, at this page
  have hkept {m w : Nat} (hne : ¬ (m = pr.p_vmmap ∧ w = v)) : (s.setMem pf.pf_addr y).pages m w = s.pages m w := by
    simp only [State.pages, hobj]
    cases hx : s.objPage m w with
    | none => rfl
    | some x =>
      obtain ⟨d, hd, hdw, hdo, hpn⟩ := objPage_some hx
      simp only [Option.map_some, hpage]
      rw [hrest x.1 x.2 fun e hsees => hne ?_]
      have hreach : Layers.Reaches s.parent x.1 o := Layers.sees_reaches hsees
      have hxo := h.apart.reached ha (h.anons _ a ha).priv ho hreach
      obtain ⟨hm, hdelta⟩ := h.apart.once _ a ha (h.anons _ a ha).priv o ho m d hd (by rw [hdo, hxo])
      exact ⟨hm, pagenum_inj hdelta (hpn.trans e) (hL.page_lt ha hv) (hL.page_lt hd hdw)⟩
  refine memory_update (fun q pr' hq hpr' => ⟨hpr', fun w => hkept fun e => hq ?_⟩) (fun q _ hq => hq) ?_
  · exact h.owned.own q p pr' pr hpr' hpr e.1
  · rw [memory_of (s := s.setMem pf.pf_addr y) hpr]
    congr 1
    funext w
    by_cases e : w = v
    · subst e
      rw [Function.update_self, State.pages, hobj, objPage_eq hL ha hv ho, Option.map_some, hpage, hseen o .refl]
    · rw [Function.update_of_ne e, hkept fun h => e h.2]

/-- What a load reads through an entry is what the process has there. -/
theorem readPte_memory (h : Secluded C held s) {vaddr : Nat} {b : UInt8} (hr : readPte s p vaddr = some b) :
    ∃ f x, s.memory p = some f ∧ f (ADDR_TO_PN vaddr) = some x ∧ b = x (vaddr % PAGE_SIZE) := by
  obtain ⟨pte, hpte, rfl⟩ := Option.map_eq_some_iff.1 hr
  obtain ⟨pr, a, o, pf, he⟩ := h.entries p _ pte hpte
  refine ⟨_, _, memory_of he.proc, (pages_eq_some h.backing.layout).2 ⟨a, he.area, he.has, o, he.obj, rfl⟩, ?_⟩
  rw [h.backing.chains.page_resolves he.frame, he.page]

theorem writePte_memory (h : Secluded C held s) {vaddr : Nat} {b : UInt8} (hw : writePte s p vaddr b = some s') :
    ∃ f x, s.memory p = some f ∧ f (ADDR_TO_PN vaddr) = some x ∧ s'.memory = Function.update s.memory p
      (some (Function.update f (ADDR_TO_PN vaddr) (some (Function.update x (vaddr % PAGE_SIZE) b)))) := by
  obtain ⟨pte, hpte, hwr, rfl⟩ := writePte_cases hw
  obtain ⟨pr, a, o, pf, he⟩ := h.entries p _ pte hpte
  obtain ⟨y, -, hy⟩ := Layers.find_reaches h.backing.chains.grounded he.frame
  have hfr : s.frame? o (a.pagenum (ADDR_TO_PN vaddr)) = some pf := by
    obtain ⟨-, rfl, -⟩ := (frame?_eq_some h.backing.frames).1 hy
    rwa [← he.write hwr]
  refine ⟨_, _, memory_of he.proc, (pages_eq_some h.backing.layout).2 ⟨a, he.area, he.has, o, he.obj, rfl⟩, ?_⟩
  rw [← he.page, setMem_memory h he.proc he.area he.has he.obj hfr, h.backing.chains.page_own hfr]

/-- Process `p` has no page `v`. -/
def State.Lacks (s : State) (p v : Nat) : Prop := ∀ f, s.memory p = some f → f v = none

/-- A fault that maps a page changes no memory; one that does not is at no page of the process. -/
theorem fault_memory (h : Secluded C held s) {vaddr : Nat} {cause : Cause} {r : FaultResult}
    (hf : handle_pagefault C E s p vaddr cause = some (s', r)) (hcause : cause.exec = false) :
    (r = .mapped ∧ Secluded C held s' ∧ s'.memory = s.memory) ∨
    (r = .killed ∧ s.Lacks p (ADDR_TO_PN vaddr) ∧ exit_process C s p EFAULT = some s') := by
  have hS := h.fault onChain_reads hf
  have heff := handle_pagefault_effect h.backing.layout hf
  cases heff with
  | killed hx hno =>
    refine .inr ⟨rfl, fun f hmem => ?_, hx⟩
    cases hpr : s.procs p with
    | none =>
      rw [memory_none hpr] at hmem
      cases hmem
    | some pr =>
      rw [memory_of hpr] at hmem
      cases hmem
      refine pages_none fun a ha hv => ?_
      have hA := h.anons _ a ha
      have := hno pr a hpr ha hv
      simp [Prot.grants, accessRight, hA.read, hA.write, hcause] at this
  | mapped pr a t pf hpr ha hv _ hframe =>
    obtain ⟨o, ho, -⟩ := (h.anons _ a ha).obj
    obtain ⟨t', pf', hframe', hl, -⟩ := fault_frame_looked (E := E) vaddr h.backing h.outside.nonneg ha ho cause.write
    rw [hframe] at hframe'
    cases hframe'
    have hlists : (t.pt_map p (ADDR_TO_PN vaddr) pf.pf_addr cause.write).vmm_list = s.vmm_list :=
      congrArg Spaces.vmm_list hl.grown.spaces
    refine .inl ⟨rfl, hS.secluded h.anons fun m c hc => ⟨c, hlists ▸ hc, rfl, rfl, rfl⟩, ?_⟩
    rw [pt_map_memory, hl.grown.memory h.backing hl.frames h.anons]

theorem Secluded.load (h : Secluded C held s) {vaddr : Nat} {w : Outcome} (hl : userLoad C E s p vaddr = some (s', w)) :
    (∃ f x, s.memory p = some f ∧ f (ADDR_TO_PN vaddr) = some x ∧ w = .byte (x (vaddr % PAGE_SIZE)) ∧ Secluded C held s' ∧
      s'.memory = s.memory) ∨
    (w = .killed ∧ s.Lacks p (ADDR_TO_PN vaddr) ∧ exit_process C s p EFAULT = some s') := by
  simp only [userLoad, bind] at hl
  split at hl
  next b hr =>
    cases hl
    obtain ⟨f, x, hf, hx, rfl⟩ := readPte_memory h hr
    exact .inl ⟨f, x, hf, hx, rfl, h, rfl⟩
  next =>
    simp only [Option.bind_eq_some_iff, Prod.exists] at hl
    obtain ⟨s₁, r, hf, hl⟩ := hl
    rcases fault_memory h hf rfl with ⟨rfl, h₁, hmem⟩ | ⟨rfl, hnone, hx⟩
    · simp only [Option.bind_eq_some_iff, Option.some.injEq, Prod.mk.injEq] at hl
      obtain ⟨b, hr, rfl, rfl⟩ := hl
      obtain ⟨f, x, hf, hx, rfl⟩ := readPte_memory h₁ hr
      exact .inl ⟨f, x, hmem ▸ hf, hx, rfl, h₁, hmem⟩
    · cases hl
      exact .inr ⟨rfl, hnone, hx⟩

theorem writePte_secluded (h : Secluded C held s) {vaddr : Nat} {b : UInt8} (hw : writePte s p vaddr b = some s') :
    Secluded C held s' := by
  refine (h.writePte onChain_reads hw).secluded h.anons fun m c hc => ⟨c, ?_, rfl, rfl, rfl⟩
  obtain ⟨pte, -, -, rfl⟩ := writePte_cases hw
  exact hc

theorem Secluded.store (h : Secluded C held s) {vaddr : Nat} {b : UInt8} {w : Outcome}
    (hs : userStore C E s p vaddr b = some (s', w)) :
    (∃ f x, s.memory p = some f ∧ f (ADDR_TO_PN vaddr) = some x ∧ w = .done ∧ Secluded C held s' ∧ s'.memory =
      Function.update s.memory p (some (Function.update f (ADDR_TO_PN vaddr) (some (Function.update x (vaddr % PAGE_SIZE) b))))) ∨
    (w = .killed ∧ s.Lacks p (ADDR_TO_PN vaddr) ∧ exit_process C s p EFAULT = some s') := by
  rcases userStore_cases hs with ⟨rfl, hw⟩ | ⟨rfl, hf⟩ | ⟨rfl, s₁, hf, hw⟩
  · obtain ⟨f, x, hf, hx, hmem⟩ := writePte_memory h hw
    exact .inl ⟨f, x, hf, hx, rfl, writePte_secluded h hw, hmem⟩
  · rcases fault_memory h hf rfl with ⟨hr, -⟩ | ⟨-, hnone, hx⟩
    · cases hr
    · exact .inr ⟨rfl, hnone, hx⟩
  · rcases fault_memory h hf rfl with ⟨-, h₁, hmem⟩ | ⟨hr, -⟩
    · obtain ⟨f, x, hf, hx, hmem'⟩ := writePte_memory h₁ hw
      rw [hmem] at hf hmem'
      exact .inl ⟨f, x, hf, hx, rfl, writePte_secluded h₁ hw, hmem'⟩
    · cases hr

/-! ## Removing and exiting -/

/-- Removing keeps what the pages hold. -/
theorem Backing.turn_mem {lo fin : Nat} {pre l : List VmArea} {done : Bool} (h : Backing C held s) (hheld : ∀ o, 0 ≤ held o)
    (hlist : s.vmm_list m = pre ++ a :: l) (heff : RemoveEffect s p m lo fin pre l a s' done) : s'.mem = s.mem ∧ s'.disk = s.disk := by
  cases heff with
  | keep => exact ⟨rfl, rfl⟩
  | trim => exact ⟨rfl, rfl⟩
  | split _ _ _ _ hr =>
    obtain ⟨-, rfl⟩ := mmobj_ref_cases hr
    exact ⟨rfl, rfl⟩
  | @drop o b s₁ _ _ ho _ hp =>
    obtain ⟨t, hput, he⟩ := h.put_area hheld (by rw [hlist]; simp) ho b
    rw [hp] at hput
    cases hput
    cases he with
    | counted => exact ⟨rfl, rfl⟩
    | emptied _ he => exact ⟨he.mem, he.disk⟩

/-- The areas that are left are of objects whose pages hold what they held. -/
def State.SamePages (s s' : State) : Prop := ∀ m, ∀ a ∈ s'.vmm_list m, ∀ o, a.vma_obj = some o → ∀ pn, s'.page o pn = s.page o pn

theorem Backing.turn_pages {lo fin : Nat} {pre l : List VmArea} {done : Bool} (h : Backing C held t) (hheld : ∀ o, 0 ≤ held o)
    (hlf : lo ≤ fin) (hlist : t.vmm_list m = pre ++ a :: l) (heff : RemoveEffect t p m lo fin pre l a s' done)
    (hs : s.SamePages t) : s.SamePages s' := by
  intro k d hd o ho pn
  have h' : Backing C held s' := h.turn hheld hlf hlist heff
  obtain ⟨hobjs, -⟩ := h.turn_objs hheld hlist heff
  obtain ⟨hmem, hdisk⟩ := h.turn_mem hheld hlist heff
  have hstep : s'.page o pn = t.page o pn := by
    refine page_keep h.chains h'.chains hmem hdisk fun y hy => ⟨congrFun hobjs y, ?_⟩
    rcases h.turn_frame? hheld hlist heff y with e | e
    · exact e
    · have := h'.reaches_pos hheld hd ho (by rw [parent_congr hobjs]; exact hy)
      omega
  rw [hstep]
  rcases heff.area hlist hd with hd | ⟨rfl, hd⟩
  · exact hs k d hd o ho pn
  · have ha : a ∈ t.vmm_list k := by rw [hlist]; simp
    exact hs k a ha o ((h.layout.pieceOf hlf ha hd).obj ▸ ho) pn

/-- What `vmmap_remove` leaves of a map. -/
theorem vmmap_remove_objPage {lo npages : Nat} (hL : Layout C s) (hlt : lo + npages < 2 ^ 32)
    (hr : vmmap_remove C s p m lo npages = some s') (k v : Nat) :
    s'.objPage k v = if k = m ∧ lo ≤ v ∧ v < lo + npages then none else s.objPage k v := by
  have hlist : s'.vmm_list = Function.update s.vmm_list m ((s.vmm_list m).flatMap (pieces m s.nareas lo (lo + npages))) :=
    congrArg Spaces.vmm_list (vmmap_remove_list hlt hL hr)
  have htarget (l : List VmArea) : ((vmmap_lookup l v).bind fun a => a.vma_obj.map fun o => (o, a.pagenum v)) =
      ((vmmap_lookup l v).map (VmArea.target v)).bind fun x => x.1.map fun o => (o, x.2.1) := by
    cases vmmap_lookup l v <;> rfl
  have hok := hL.areas m
  simp only [State.objPage, hlist]
  by_cases e : k = m
  · subst e
    rw [Function.update_self]
    by_cases hin : lo ≤ v ∧ v < lo + npages
    · rw [if_pos ⟨rfl, hin⟩, lookup_gone hok (Nat.le_add_right _ _) hin.1 hin.2, Option.bind_none]
    · rw [if_neg fun h => hin h.2, htarget, lookup_kept hok (Nat.le_add_right _ _) (by omega), ← htarget]
  · rw [Function.update_of_ne e, if_neg fun h => e h.1]

theorem pages_same (hs : s.SamePages s') {k v : Nat} (hobj : s'.objPage k v = s.objPage k v) :
    s'.pages k v = s.pages k v := by
  simp only [State.pages, hobj]
  cases hx : s.objPage k v with
  | none => rfl
  | some x =>
    obtain ⟨d, hd, -, hdo, -⟩ := objPage_some (hobj.trans hx)
    simp only [Option.map_some, hs k d hd x.1 hdo]

/-- Removing keeps the pages of the areas it leaves. -/
theorem Backing.remove_same {lo npages : Nat} (h : Backing C held s) (hheld : ∀ o, 0 ≤ held o) (hlt : lo + npages < 2 ^ 32)
    (hr : vmmap_remove C s p m lo npages = some s') : s.SamePages s' := by
  obtain ⟨-, -, hsame⟩ := vmmap_remove_rule (I := fun t => Backing C held t ∧ s.SamePages t) hlt
    (fun _ hlist heff ht => ⟨ht.1.turn hheld (Nat.le_add_right _ _) hlist heff,
      ht.1.turn_pages hheld (Nat.le_add_right _ _) hlist heff ht.2⟩) h.layout ⟨h, fun _ _ _ _ _ _ => rfl⟩ hr
  exact hsame

/-- Which are parts of those there were. -/
theorem vmmap_remove_parts {lo npages : Nat} (hL : Layout C s) (hlt : lo + npages < 2 ^ 32)
    (hr : vmmap_remove C s p m lo npages = some s') {k : Nat} (hc : c ∈ s'.vmm_list k) :
    ∃ a ∈ s.vmm_list k, c.vma_obj = a.vma_obj ∧ c.vma_flags = a.vma_flags ∧ c.vma_prot = a.vma_prot := by
  have hlist : s'.vmm_list = Function.update s.vmm_list m ((s.vmm_list m).flatMap (pieces m s.nareas lo (lo + npages))) :=
    congrArg Spaces.vmm_list (vmmap_remove_list hlt hL hr)
  rw [hlist] at hc
  by_cases e : k = m
  · subst e
    rw [Function.update_self] at hc
    obtain ⟨a, ha, hc⟩ := List.mem_flatMap.1 hc
    have hp := hL.pieceOf (Nat.le_add_right _ _) ha hc
    exact ⟨a, ha, hp.obj, hp.flags, hp.prot⟩
  · rw [Function.update_of_ne e] at hc
    exact ⟨c, hc, rfl, rfl, rfl⟩

theorem Secluded.remove (h : Secluded C held s) (hpr : s.procs p = some pr) {lo npages : Nat} (hlt : lo + npages < 2 ^ 32)
    (hr : vmmap_remove C s p pr.p_vmmap lo npages = some s') : Secluded C held s' ∧ s'.memory =
      Function.update s.memory p (some fun v => if lo ≤ v ∧ v < lo + npages then none else s.pages pr.p_vmmap v) := by
  have hL := h.backing.layout
  have hprocs : s'.procs = s.procs := congrArg Spaces.procs (vmmap_remove_list hlt hL hr)
  have hpages (k v : Nat) : s'.pages k v = if k = pr.p_vmmap ∧ lo ≤ v ∧ v < lo + npages then none else s.pages k v := by
    have hobj := vmmap_remove_objPage hL hlt hr k v
    split
    next hin => rw [State.pages, hobj, if_pos hin, Option.map_none]
    next hout => exact pages_same (h.backing.remove_same h.outside.nonneg hlt hr) (hobj.trans (if_neg hout))
  constructor
  · exact (h.toLinked.remove onChain_reads hpr hlt hr).secluded h.anons fun m c hc => vmmap_remove_parts hL hlt hr hc
  · refine memory_update (fun q pr' hq hpr' => ⟨by rw [hprocs, hpr'], fun v => ?_⟩) (fun q _ hq => by rw [hprocs, hq]) ?_
    · rw [hpages, if_neg fun e => hq (h.owned.own q p pr' pr hpr' hpr e.1)]
    · rw [memory_of (hprocs ▸ hpr)]
      congr 1
      funext v
      rw [hpages]
      simp only [true_and]

/-- Who exits has no memory left. -/
theorem Secluded.exit (h : Secluded C held s) {code : Int} (hx : exit_process C s p code = some s') :
    Secluded C held s' ∧ s.memory p ≠ none ∧ s'.memory = Function.update s.memory p none := by
  have hL := h.backing.layout
  have hheld := h.outside.nonneg
  have hS := h.toLinked.exit onChain_reads hx
  simp only [exit_process, bind, Option.bind_eq_some_iff, Option.some.injEq] at hx
  obtain ⟨pr, hpr, t, hd, rfl⟩ := hx
  obtain ⟨-, ⟨-, hsame⟩, hsp⟩ := vmmap_destroy_rule (I := fun t => Backing C held t ∧ s.SamePages t)
    (fun hlf _ hlist heff ht => ⟨ht.1.turn hheld hlf hlist heff, ht.1.turn_pages hheld hlf hlist heff ht.2⟩) hL
    ⟨h.backing, fun _ _ _ _ _ _ => rfl⟩ hd
  have hprocs : t.procs = s.procs := congrArg Spaces.procs hsp
  have hlist : t.vmm_list = Function.update s.vmm_list pr.p_vmmap [] := congrArg Spaces.vmm_list hsp
  have hprocs' : ((t.setProc p none).setZombie p code).procs = Function.update s.procs p none := by
    rw [← hprocs]
    rfl
  refine ⟨?_, by rw [memory_of hpr]; simp, ?_⟩
  · refine hS.secluded h.anons fun m c hc => ⟨c, ?_, rfl, rfl, rfl⟩
    have hc : c ∈ t.vmm_list m := hc
    rw [hlist] at hc
    by_cases e : m = pr.p_vmmap
    · rw [e, Function.update_self] at hc
      cases hc
    · rwa [Function.update_of_ne e] at hc
  · refine memory_update (fun q pr' hq hpr' => ⟨?_, fun v => ?_⟩) (fun q hne hq => ?_) ?_
    · rw [hprocs', Function.update_of_ne hq, hpr']
    · have hm : pr'.p_vmmap ≠ pr.p_vmmap := fun e => hq (h.owned.own q p pr' pr hpr' hpr e)
      have hobj : t.objPage pr'.p_vmmap v = s.objPage pr'.p_vmmap v := by
        simp only [State.objPage, hlist, Function.update_of_ne hm]
      exact (pages_same hsame hobj :)
    · rw [hprocs', Function.update_of_ne hne, hq]
    · exact memory_none (by rw [hprocs', Function.update_self])

/-! ## New processes -/

/-- The next process does not exist yet. -/
theorem Owned.next (h : Owned s) : s.procs s.nprocs = none := by
  cases hpr : s.procs s.nprocs with
  | none => rfl
  | some pr => exact absurd (h.live _ pr hpr).1 (lt_irrefl _)

theorem Secluded.spawn (h : Secluded C held s) : Secluded C held (proc_create s) ∧ s.memory s.nprocs = none ∧
    (proc_create s).memory = Function.update s.memory s.nprocs (some fun _ => none) := by
  have hlists (k : Nat) : (proc_create s).vmm_list k = if k = s.nmaps then [] else s.vmm_list k := by
    simp only [proc_create, vmmap_create, Function.update_apply]
  have hprocs : (proc_create s).procs = Function.update s.procs s.nprocs (some ⟨s.nmaps, 0, fun _ => none⟩) := rfl
  refine ⟨?_, memory_none h.owned.next, ?_⟩
  · refine (h.toLinked.spawn onChain_reads).secluded h.anons fun m c hc => ⟨c, ?_, rfl, rfl, rfl⟩
    rw [hlists] at hc
    split at hc
    · cases hc
    · exact hc
  · refine memory_update (fun q pr hq hpr => ⟨?_, fun v => ?_⟩) (fun q hne hq => ?_) ?_
    · rw [hprocs, Function.update_of_ne hq, hpr]
    · have hm := (h.owned.live q pr hpr).2
      simp only [State.pages, State.objPage, hlists, if_neg hm.ne]
      rfl
    · rw [hprocs, Function.update_of_ne hne, hq]
    · rw [memory_of (by rw [hprocs, Function.update_self])]
      congr 1
      funext v
      exact pages_none fun a ha => by simp [hlists] at ha

end Weenix.Vm
