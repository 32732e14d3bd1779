import Weenix.Vm.Evictions
import Weenix.Vm.Shrinks
import Weenix.Vm.UserAccess
/-!
# Stores to mapped files

The pageout daemon writes a page to its file only if the page is marked dirty.
The fault handler maps a page of a file for writing without marking it, so
this is right only for stores that find the page marked (`MarkedStore`). Then
what a store has changed stays marked until it has been written.
-/

namespace Weenix.Vm

open Lib Lib.Intervals

variable {C : Config} {E : Env} {R : FrameRel} {s s' t : State} {p v : Nat} {a : VmArea} {pr : Proc} {pf : Pframe}
  {held : Nat → Int}

/-- The object is that of a file. -/
def State.IsFile (s : State) (o : Nat) : Prop := ∃ ob ∈ s.objs o, ob.isFile = true

instance (s : State) (o : Nat) : Decidable (s.IsFile o) := inferInstanceAs (Decidable (∃ _ ∈ _, _))

/-- The pages of files that may be written through an entry are dirty. -/
def Marked (s : State) : Prop :=
  ∀ p v pte, s.p_pagedir p v = some pte → pte.pt_write = true → ∀ pf ∈ s.pframes, pf.pf_addr = pte.pt_page →
    s.IsFile pf.pf_obj → s.pf_dirty pf.pf_addr = true

/-- The fault of a store. -/
def storeCause (s : State) (p vaddr : Nat) : Cause :=
  { present := (s.p_pagedir p (ADDR_TO_PN vaddr)).isSome, write := true }

/-- A store that a file's area admits finds the page of the file resident and dirty. -/
def MarkedStore (s : State) (p vaddr : Nat) : Prop :=
  ∀ pr ∈ s.procs p, ∀ a ∈ vmmap_lookup (s.vmm_list pr.p_vmmap) (ADDR_TO_PN vaddr),
    a.vma_prot.grants (accessRight (storeCause s p vaddr)) = true → ∀ o ∈ a.vma_obj, s.IsFile o →
      ∃ pf ∈ s.frame? o (a.pagenum (ADDR_TO_PN vaddr)), s.pf_dirty pf.pf_addr = true

instance (s : State) (p vaddr : Nat) : Decidable (MarkedStore s p vaddr) :=
  inferInstanceAs (Decidable (∀ _ ∈ _, ∀ _ ∈ _, _ → ∀ _ ∈ _, _ → ∃ _ ∈ _, _))

/-! ## The dirty marks -/

theorem State.IsFile.back (hobjs : ∀ o ob, s.objs o = some ob → s'.objs o = some ob) (hf : Frames s) (hm : pf ∈ s.pframes)
    (h : s'.IsFile pf.pf_obj) : s.IsFile pf.pf_obj := by
  obtain ⟨ob, hob⟩ := hf.owner pf hm
  obtain ⟨ob', hob', hfile⟩ := h
  rw [hobjs _ ob hob] at hob'
  cases hob'
  exact ⟨ob, hob, hfile⟩

/-- More frames. -/
theorem Marked.grown (h : Marked s) (hR : OnChain R) (hP : Paged R C held s) (hg : Grown s s') (hf' : Frames s') : Marked s' := by
  intro p v pte hpte hw pf hm hpage hfile
  rw [hg.pagedir] at hpte
  obtain ⟨pr, a, o, q, he⟩ := hP.entries p v pte hpte
  obtain ⟨hq, -⟩ := he.mem hR hP.backing.chains hP.backing.frames
  obtain rfl : q = pf := hf'.addr_inj (hg.frames q hq) hm (he.page.trans hpage.symm)
  rw [hg.dirty q hq]
  refine h p v pte hpte hw q hq he.page ?_
  simpa [State.IsFile, hg.objs] using hfile

theorem Marked.wrote (h : Marked s) {x : Page} (hw : Wrote s pf x s') : Marked s' := by
  cases hw with
  | mk d n hd => exact fun p v pte hpte hwr q hq hpage hfile => hd _ (h p v pte hpte hwr q hq hpage hfile)

theorem Marked.setMem (h : Marked s) (pg : Nat) (x : Page) : Marked (s.setMem pg x) := h

/-- A new entry, if it may be written, is for a dirty page or not for one of a file. -/
theorem Marked.map (h : Marked s) {page : Nat} {w : Bool}
    (hnew : w = true → ∀ pf ∈ s.pframes, pf.pf_addr = page → s.IsFile pf.pf_obj → s.pf_dirty pf.pf_addr = true) :
    Marked (s.pt_map p v page w) := by
  intro q u pte hpte hw pf hm hpage hfile
  rcases pt_map_cases hpte with ⟨-, -, rfl⟩ | ⟨-, hold⟩
  · exact hnew hw pf hm hpage hfile
  · exact h q u pte hold hw pf hm hpage hfile

/-! ## User accesses -/

/-- The marks of the frames that stay are not taken off. -/
def MarksKept (s s' : State) : Prop :=
  ∀ pf ∈ s.pframes, pf ∈ s'.pframes → s.pf_dirty pf.pf_addr = true → s'.pf_dirty pf.pf_addr = true

theorem Shrunk.marks (h : Shrunk s s') : MarksKept s s' := fun pf _ _ hd => by
  rw [h.dirty]
  exact hd

theorem Grown.marks (h : Grown s s') : MarksKept s s' := fun pf hm _ hd => by
  rw [h.dirty pf hm]
  exact hd

/-- The operations on areas and processes. -/
theorem Marked.shrunk (h : Marked s) (hs : Shrunk s s') (hf : Frames s) (hobjs : ∀ o ob, s.objs o = some ob → s'.objs o = some ob) :
    Marked s' := by
  intro p v pte hpte hw pf hm hpage hfile
  rw [hs.dirty]
  exact h p v pte (hs.pagedir p v pte hpte) hw pf (hs.frames pf hm) hpage (hfile.back hobjs hf (hs.frames pf hm))

theorem Marked.fault (h : Marked s) (hR : OnChain R) (hL : Linked R C held s) {vaddr : Nat} {cause : Cause} {r : FaultResult}
    (hstore : cause.write = true → cause = storeCause s p vaddr ∧ MarkedStore s p vaddr)
    (hf : handle_pagefault C E s p vaddr cause = some (s', r)) : Marked s' ∧ MarksKept s s' := by
  have hB := hL.backing
  have heff := handle_pagefault_effect hB.layout hf
  cases heff with
  | killed hx =>
    have hs := exit_process_shrunk hB.layout hx
    exact ⟨h.shrunk hs hB.frames (hL.exit hR hx).objs, hs.marks⟩
  | mapped pr a s₁ pf hpr ha hv hgrant hframe =>
    have hframe' := hframe
    simp only [fault_frame, bind, Option.bind_eq_some_iff] at hframe'
    obtain ⟨o, ho, -⟩ := hframe'
    obtain ⟨s₁', pf', hframe', hl, hw⟩ := fault_frame_looked (E := E) vaddr hB hL.outside.nonneg ha ho cause.write
    rw [hframe] at hframe'
    cases hframe'
    have hc' := hl.grown.chains hB.chains
    refine ⟨(h.grown hR hL.toPaged hl.grown hl.frames).map fun hwrite q hq hpage hfile => ?_, hl.grown.marks⟩
    obtain rfl : q = pf := hl.frames.addr_inj hq (hl.mem hB.chains) hpage
    obtain ⟨rfl, hmarked⟩ := hstore hwrite
    have hlook : vmmap_lookup (s.vmm_list pr.p_vmmap) (ADDR_TO_PN vaddr) = some a :=
      (hB.layout.areas pr.p_vmmap).sorted.find_iff.2 ⟨ha, hv⟩
    have hfile' : s.IsFile o := by
      rw [hw hwrite] at hfile
      simpa [State.IsFile, hl.grown.objs] using hfile
    -- the store found the page of the file resident and dirty, so it is the one that is mapped
    obtain ⟨x, hx, hd⟩ := hmarked pr hpr a hlook hgrant o ho hfile'
    obtain ⟨hxm, hxk⟩ := (frame?_eq_some hB.frames).1 hx
    have hx₁ := (frame?_eq_some hl.frames).2 ⟨hl.grown.frames x hxm, hxk⟩
    have hself : s₁.resolves o (a.pagenum (ADDR_TO_PN vaddr)) = some x := Layers.find_own hc'.grounded hx₁
    obtain rfl : x = q := Option.some.inj (hself.symm.trans hl.found)
    rw [hl.grown.dirty x hxm]
    exact hd

theorem Marked.load (h : Marked s) (hR : OnChain R) (hL : Linked R C held s) {vaddr : Nat} {w : Outcome}
    (hl : userLoad C E s p vaddr = some (s', w)) : Marked s' ∧ MarksKept s s' := by
  simp only [userLoad, bind] at hl
  split at hl
  · cases hl
    exact ⟨h, fun _ _ _ hd => hd⟩
  · simp only [Option.bind_eq_some_iff, Prod.exists] at hl
    obtain ⟨s₁, r, hf, hl⟩ := hl
    have h1 := h.fault hR hL (by simp) hf
    cases r with
    | killed =>
      cases hl
      exact h1
    | mapped =>
      simp only [Option.bind_eq_some_iff, Option.some.injEq, Prod.mk.injEq] at hl
      obtain ⟨-, -, rfl, -⟩ := hl
      exact h1

/-- A store that is made goes through an entry that may be written. -/
theorem writePte_cases {vaddr : Nat} {b : UInt8} (h : writePte s p vaddr b = some s') : ∃ pte, s.p_pagedir p (ADDR_TO_PN vaddr) = some pte ∧
    pte.pt_write = true ∧
    s' = s.setMem pte.pt_page (Function.update (s.mem pte.pt_page) (vaddr % PAGE_SIZE) b) := by
  unfold writePte at h
  split at h
  next pte hpte =>
    split at h
    next hw =>
      cases h
      exact ⟨pte, hpte, hw, rfl⟩
    next => cases h
  next => cases h

/-- What a store does: it ends the process, or writes through an entry that may be written, there before or after a fault. -/
theorem userStore_cases {vaddr : Nat} {b : UInt8} {w : Outcome} (h : userStore C E s p vaddr b = some (s', w)) :
    (w = .done ∧ writePte s p vaddr b = some s') ∨
    (w = .killed ∧ handle_pagefault C E s p vaddr (storeCause s p vaddr) = some (s', .killed)) ∨
    (w = .done ∧ ∃ s₁, handle_pagefault C E s p vaddr (storeCause s p vaddr) = some (s₁, .mapped) ∧
      writePte s₁ p vaddr b = some s') := by
  simp only [userStore, bind] at h
  split at h
  next hw =>
    cases h
    exact .inl ⟨rfl, hw⟩
  · simp only [Option.bind_eq_some_iff, Prod.exists] at h
    obtain ⟨s₁, r, hf, h⟩ := h
    cases r with
    | killed =>
      cases h
      exact .inr (.inl ⟨rfl, hf⟩)
    | mapped =>
      simp only [Option.bind_eq_some_iff, Option.some.injEq, Prod.mk.injEq] at h
      obtain ⟨s₂, hw, rfl, rfl⟩ := h
      exact .inr (.inr ⟨rfl, s₁, hf, hw⟩)

theorem Marked.store (h : Marked s) (hR : OnChain R) (hL : Linked R C held s) {vaddr : Nat} {b : UInt8} {w : Outcome}
    (hm : MarkedStore s p vaddr) (hs : userStore C E s p vaddr b = some (s', w)) : Marked s' ∧ MarksKept s s' := by
  rcases userStore_cases hs with ⟨-, hw⟩ | ⟨-, hf⟩ | ⟨-, s₁, hf, hw⟩
  · obtain ⟨pte, -, -, rfl⟩ := writePte_cases hw
    exact ⟨h.setMem _ _, fun _ _ _ hd => hd⟩
  · exact h.fault hR hL (fun _ => ⟨rfl, hm⟩) hf
  · obtain ⟨h1, h2⟩ := h.fault hR hL (fun _ => ⟨rfl, hm⟩) hf
    obtain ⟨pte, -, -, rfl⟩ := writePte_cases hw
    exact ⟨h1.setMem _ _, h2⟩

/-! ## Copies and page-outs -/

theorem Marked.copy (h : Marked s) (hL : Linked State.below C held s) {u n : Nat} {k : Nat → UInt8} {r : Except Errno Unit}
    (hc : copy_to_user E s p u k n = some (s', r)) : Marked s' ∧ MarksKept s s' := by
  rcases Linked.copy_to_user_cases hc with ⟨rfl, -⟩ | ⟨pr, -, -, hw, -⟩
  · exact ⟨h, fun _ _ _ hd => hd⟩
  · have hstep {lo hi : Nat} : WriteStep C held pr.p_vmmap lo hi False (fun t => Linked State.below C held t ∧ Marked t ∧
        ∀ pf ∈ s.pframes, pf ∈ t.pframes ∧ (s.pf_dirty pf.pf_addr = true → t.pf_dirty pf.pf_addr = true)) := by
      rintro t t₁ t₂ a v o pf x hB ⟨hI, hM, hkept⟩ - - - - - hgot hwrote -
      have hE := hI.entries.grow_below hgot.grown hI.backing.frames hgot.frames
      have h1 := (hI.got hgot hE).linked
      refine ⟨(h1.wrote onChain_below hwrote).linked, (hM.grown onChain_below hI.toPaged hgot.grown hgot.frames).wrote hwrote,
        fun q hq => ?_⟩
      obtain ⟨hqm, hqd⟩ := hkept q hq
      cases hwrote with
      | mk d n hmono =>
        refine ⟨hgot.grown.frames q hqm, fun hd => hmono _ ?_⟩
        rw [hgot.grown.dirty q hqm]
        exact hqd hd
    obtain ⟨-, -, h1, h2⟩ := vmmap_write_rule hL.outside.nonneg hstep hL.backing ⟨hL, h, fun _ hq => ⟨hq, fun hd => hd⟩⟩ hw
    exact ⟨h1, fun pf hm _ hd => (h2 pf hm).2 hd⟩

/-- The turn of the pageout daemon writes the page to its file. -/
def Saves (E : Env) (s : State) (e : Event) (pf : Pframe) : Bool :=
  match e with
  | .pageout => decide (s.victim = some pf) && s.pf_dirty pf.pf_addr && E.io s.clock
  | _ => false

/-- The daemon cleans a dirty page. -/
theorem pageoutd_turn_dirty (hB : Backing C held s) (hv : s.victim = some pf) (hd : s.pf_dirty pf.pf_addr = true) :
    pageoutd_turn E s = pframe_clean E s pf := by
  have hbusy := hB.idle pf (Linked.victim_mem hB hv).1
  unfold State.victim at hv
  obtain ⟨pg, hpg, hfind⟩ := Option.bind_eq_some_iff.1 hv
  obtain rfl : pf.pf_addr = pg := by simpa using List.find?_some hfind
  simp only [pageoutd_turn, hpg, hfind, bind, Option.bind_some, hbusy, hd, if_true, Bool.false_eq_true, if_false]

theorem Marked.pageout (h : Marked s) (hL : Linked State.below C held s) (ht : ∀ pf ∈ s.victim, s.Traced pf)
    (hp : pageoutd_turn E s = some s') : Marked s' ∧ ∀ pf ∈ s.pframes, pf ∈ s'.pframes → s.IsFile pf.pf_obj →
      s.pf_dirty pf.pf_addr = true → Saves E s .pageout pf = false → s'.pf_dirty pf.pf_addr = true := by
  have hB := hL.backing
  rcases Linked.pageout_cases hp with rfl | ⟨q, hv, ⟨hdirty, hc⟩ | ⟨-, hf⟩⟩
  · exact ⟨h, fun _ _ _ _ hd _ => hd⟩
  · obtain ⟨hqm, -⟩ := Linked.victim_mem hB hv
    obtain ⟨-, hobjs, -, hgone⟩ := hL.toPaged.clean onChain_below hqm (ht q hv) hc
    obtain ⟨s₁, ok, dk, n, hr, rfl, hok⟩ := pframe_clean_effect hc
    have hno : NoNewMapping (s.setDirty q.pf_addr false) s₁ := by
      simp only [pframe_remove_from_pts, bind, Option.bind_eq_some_iff] at hr
      obtain ⟨b, -, hr⟩ := hr
      exact remove_from_areas_noNew hr
    obtain ⟨pd, rfl⟩ := remove_from_pts_only hr
    have hother {x : Pframe} (hx : x.pf_addr ≠ q.pf_addr) : (if ok = true then (s.setDirty q.pf_addr false).pf_dirty else
        Function.update (s.setDirty q.pf_addr false).pf_dirty q.pf_addr true) x.pf_addr = s.pf_dirty x.pf_addr := by
      split <;> simp [State.setDirty, hx]
    refine ⟨fun p v pte hpte hw pf hm hpage hfile => ?_, fun pf hm _ hfile hd hsave => ?_⟩
    · have hne : pf.pf_addr ≠ q.pf_addr := fun e => hgone p v pte hpte (hpage.symm.trans e)
      exact (hother hne).trans (h p v pte (hno p v pte hpte) hw pf hm hpage hfile)
    · by_cases e : pf = q
      · subst e
        obtain ⟨ob, hob, hfile⟩ := hfile
        have hio : E.io s.clock = false := by simpa [Saves, hv, hdirty] using hsave
        rw [hio] at hok
        simp [hok ob hob hfile]
      · exact (hother fun e' => e (hB.frames.addr_inj hm hqm e')).trans hd
  · obtain ⟨hqm, hpin⟩ := Linked.victim_mem hB hv
    obtain ⟨-, hobjs, -, -⟩ := hL.toPaged.free onChain_below hL.outside.nonneg hqm hpin (ht q hv) hf
    simp only [pframe_free, bind, Option.bind_eq_some_iff] at hf
    obtain ⟨s₁, hrel, hput⟩ := hf
    have hs := (pframe_release_shrunk hrel).trans (shrunk_putSteps.put hput)
    exact ⟨h.shrunk hs hB.frames fun o ob ho => by rw [hobjs]; exact ho, fun pf hm hm' _ hd _ => hs.marks pf hm hm' hd⟩

/-! ## Runs -/

/-- Stores to files find their pages dirty, and pages that are taken away are traced. -/
def MarkedStores (s : State) : Event → Prop
  | .store p vaddr b => Event.Sane (.store p vaddr b) ∧ MarkedStore s p vaddr
  | e => TracedTurn s e

instance (s : State) (e : Event) : Decidable (MarkedStores s e) :=
  decidable_of_iff (TracedTurn s e ∧ (match e with | .store p vaddr _ => decide (MarkedStore s p vaddr) | _ => true) = true)
    (by cases e <;> simp [MarkedStores, TracedTurn])

theorem MarkedStores.traced {e : Event} (h : MarkedStores s e) : TracedTurn s e := by
  cases e with
  | store => exact h.1
  | _ => exact h

theorem Linked.step_below (hL : Linked State.below C held s) {e : Event} {w : Outcome} (he : TracedTurn s e)
    (hst : Vm.step C E s e = some (s', w)) : Stays State.below C held s s' := by
  refine hL.step onChain_below he.sane (fun hev => ?_) (fun p u k n r hev hc => hL.copy_below hc) hst
  subst hev
  exact he

theorem Marked.step (h : Marked s) (hL : Linked State.below C held s) {e : Event} {w : Outcome} (he : MarkedStores s e)
    (hst : Vm.step C E s e = some (s', w)) : Marked s' ∧ ∀ pf ∈ s.pframes, pf ∈ s'.pframes → s.IsFile pf.pf_obj →
      s.pf_dirty pf.pf_addr = true → Saves E s e pf = false → s'.pf_dirty pf.pf_addr = true := by
  have hfrom (h' : Marked s' ∧ MarksKept s s') : Marked s' ∧ ∀ pf ∈ s.pframes, pf ∈ s'.pframes → s.IsFile pf.pf_obj →
      s.pf_dirty pf.pf_addr = true → Saves E s e pf = false → s'.pf_dirty pf.pf_addr = true :=
    ⟨h'.1, fun pf hm hm' _ hd _ => h'.2 pf hm hm' hd⟩
  cases hno : e.touches with
  | false =>
    have hs := step_shrunk hL.backing.layout he.traced.sane hno hst
    exact hfrom ⟨h.shrunk hs hL.backing.frames (hL.step_below he.traced hst).objs, hs.marks⟩
  | true =>
    cases e with
    | load p vaddr =>
      simp only [Vm.step, bind, Option.bind_eq_some_iff] at hst
      obtain ⟨-, -, hst⟩ := hst
      exact hfrom (h.load onChain_below hL hst)
    | store p vaddr b =>
      simp only [Vm.step, bind, Option.bind_eq_some_iff] at hst
      obtain ⟨-, -, hst⟩ := hst
      exact hfrom (h.store onChain_below hL he.2 hst)
    | copyout p uaddr kmem nbytes =>
      simp only [Vm.step, bind, Option.bind_eq_some_iff, Prod.exists] at hst
      obtain ⟨s₁, r, hc, hst⟩ := hst
      have hs : s₁ = s' := by
        cases r <;> cases hst <;> rfl
      exact hfrom (h.copy hL (hs ▸ hc))
    | pageout =>
      simp only [Vm.step, bind, Option.bind_eq_some_iff, Option.some.injEq, Prod.mk.injEq] at hst
      obtain ⟨s₁, hp, rfl, -⟩ := hst
      exact h.pageout hL he hp
    | spawn => cases hno
    | opened => cases hno
    | mmap => cases hno
    | munmap => cases hno
    | remove => cases hno
    | fork => cases hno
    | exit => cases hno

/-- The frame that page `v` of process `p` is mapped to. -/
def State.mapped (s : State) (p v : Nat) : List Pframe :=
  s.pframes.filter fun pf => decide ((s.p_pagedir p v).map Pte.pt_page = some pf.pf_addr)

/-- The pages that user stores have changed since they were last written to their files. -/
def changes (E : Env) (s : State) (e : Event) (w : Outcome) (s' : State) (changed : List Pframe) : List Pframe :=
  let changed := match e with
    | .store p vaddr _ => if w = Outcome.done then s'.mapped p (ADDR_TO_PN vaddr) ++ changed else changed
    | _ => changed
  changed.filter fun pf => decide (pf ∈ s'.pframes) && !Saves E s e pf

/-- The system, with these pages. -/
def changeStep (C : Config) (E : Env) (x : State × List Pframe) (e : Event) : Option ((State × List Pframe) × Outcome) :=
  (step C E x.1 e).map fun r => ((r.1, changes E x.1 e r.2 r.1 x.2), r.2)

/-- The pages of files that have been changed are resident and dirty. -/
structure Unsaved (C : Config) (held : Nat → Int) (x : State × List Pframe) : Prop where
  linked : Linked State.below C held x.1
  marked : Marked x.1
  dirty : ∀ pf ∈ x.2, pf ∈ x.1.pframes ∧ (x.1.IsFile pf.pf_obj → x.1.pf_dirty pf.pf_addr = true)

/-- After a store that is made the page is mapped for writing. -/
theorem store_mapped {vaddr : Nat} {b : UInt8} (h : userStore C E s p vaddr b = some (s', .done)) :
    ∃ pte, s'.p_pagedir p (ADDR_TO_PN vaddr) = some pte ∧ pte.pt_write = true := by
  rcases userStore_cases h with ⟨-, hw⟩ | ⟨hk, -⟩ | ⟨-, s₁, -, hw⟩
  · obtain ⟨pte, hpte, hwrite, rfl⟩ := writePte_cases hw
    exact ⟨pte, hpte, hwrite⟩
  · cases hk
  · obtain ⟨pte, hpte, hwrite, rfl⟩ := writePte_cases hw
    exact ⟨pte, hpte, hwrite⟩

theorem Unsaved.step {x x' : State × List Pframe} (h : Unsaved C held x) {e : Event} {w : Outcome} (he : MarkedStores x.1 e)
    (hst : changeStep C E x e = some (x', w)) : Unsaved C held x' := by
  unfold changeStep at hst
  obtain ⟨⟨s', w'⟩, hstep, hx'⟩ := Option.map_eq_some_iff.1 hst
  cases hx'
  have hS := h.linked.step_below he.traced hstep
  obtain ⟨hM, hkept⟩ := h.marked.step h.linked he hstep
  refine ⟨hS.linked, hM, fun pf hpf => ?_⟩
  simp only [changes, List.mem_filter, Bool.and_eq_true, decide_eq_true_eq, Bool.not_eq_true'] at hpf
  obtain ⟨hpf, hm', hsave⟩ := hpf
  refine ⟨hm', fun hfile => ?_⟩
  have hold (hpf : pf ∈ x.2) : s'.pf_dirty pf.pf_addr = true := by
    obtain ⟨hm, hd⟩ := h.dirty pf hpf
    have hfile' := hfile.back hS.objs h.linked.backing.frames hm
    exact hkept pf hm hm' hfile' (hd hfile') hsave
  split at hpf
  next p vaddr b =>
    split at hpf
    next hw =>
      subst hw
      rcases List.mem_append.1 hpf with hpf | hpf
      · simp only [Vm.step, bind, Option.bind_eq_some_iff] at hstep
        obtain ⟨-, -, hstep⟩ := hstep
        obtain ⟨pte, hpte, hwrite⟩ := store_mapped hstep
        simp only [State.mapped, List.mem_filter, hpte, Option.map_some, Option.some.injEq, decide_eq_true_eq] at hpf
        exact hM p _ pte hpte hwrite pf hm' hpf.2.symm hfile
      · exact hold hpf
    next => exact hold hpf
  next => exact hold hpf

/-- In every state reached by such steps the pages of files that are mapped for
writing are dirty, and the pageout daemon cleans a page that stores have
changed instead of freeing it. -/
theorem changed_pages_cleaned {s₀ : State} {x : State × List Pframe} {tr : List (Event × Outcome)} (hb : Booted s₀)
    (h : Run (changeStep C E) (fun x e => MarkedStores x.1 e) (s₀, []) x tr) :
    Marked x.1 ∧ ∀ pf ∈ x.2, x.1.IsFile pf.pf_obj → x.1.victim = some pf → pageoutd_turn E x.1 = pframe_clean E x.1 pf := by
  obtain ⟨held, h0⟩ := hb.linked (R := State.below) (C := C)
  have hM : Marked s₀ := fun p v pte hpte => by
    rw [hb.pagedir] at hpte
    cases hpte
  have hU : Unsaved C held x := h.inv (Unsaved C held) ⟨h0, hM, by simp⟩ fun _ _ _ _ hI he hst => hI.step he hst
  refine ⟨hU.marked, fun pf hpf hfile hv => ?_⟩
  obtain ⟨hm, hd⟩ := hU.dirty pf hpf
  exact pageoutd_turn_dirty hU.linked.backing hv (hd hfile)

/-- A process maps a file shared for writing, and the kernel and then the process write in its first page. -/
def copyThenStore : List Event :=
  [.spawn, .opened 0 3 0 { read := true, write := true } 0, .mmap 0 0 4096 { read := true, write := true } { shared := true } 3 0,
    .copyout 0 0x400000 (fun _ => 7) 1, .store 0 0x400001 5]

/-- The same without the copy. -/
def storeOnly : List Event :=
  [.spawn, .opened 0 3 0 { read := true, write := true } 0, .mmap 0 0 4096 { read := true, write := true } { shared := true } 3 0,
    .store 0 0x400001 5]

/-- After the copy the page is dirty, and is cleaned. -/
theorem stored_page_cleaned : ∃ x tr, Run (changeStep .stock .simple) (fun x e => MarkedStores x.1 e) (oneFile, []) x tr ∧
    ∃ pf ∈ x.2, x.1.victim = some pf ∧ pageoutd_turn .simple x.1 = pframe_clean .simple x.1 pf := by
  have hex : (exec (changeStep .stock .simple) (fun x e => decide (MarkedStores x.1 e)) (oneFile, []) copyThenStore).bind
      (fun r => r.1.1.victim.map fun pf => decide (pf ∈ r.1.2 ∧ r.1.1.IsFile pf.pf_obj)) = some true := by decide +kernel
  simp only [Option.bind_eq_some_iff, Option.map_eq_some_iff, Prod.exists, decide_eq_true_eq] at hex
  obtain ⟨s, changed, tr, he, pf, hv, hpf, hfile⟩ := hex
  have hrun : Run (changeStep .stock .simple) (fun x e => MarkedStores x.1 e) (oneFile, []) (s, changed) tr :=
    Run.of_exec (fun _ _ => of_decide_eq_true) he
  exact ⟨(s, changed), tr, hrun, pf, hpf, hv, (changed_pages_cleaned oneFile_booted hrun).2 pf hpf hfile hv⟩

/-- Without it the page is mapped for writing and not dirty, and it is freed
with the store in it, which the file does not have. -/
theorem stored_page_lost : ∃ x tr, Run (changeStep .stock .simple) (fun _ e => e.Sane) (oneFile, []) x tr ∧ ¬ Marked x.1 ∧
    ∃ pf ∈ x.2, ∃ s', pageoutd_turn .simple x.1 = some s' ∧ pf ∉ s'.pframes ∧ x.1.mem pf.pf_addr 1 = 5 ∧ s'.disk 0 0 1 = 0 := by
  have hex : (exec (changeStep .stock .simple) (fun x e => decide e.Sane) (oneFile, []) storeOnly).bind
      (fun r => r.1.2.head?.bind fun pf => (r.1.1.p_pagedir 0 0x400).bind fun pte => (pageoutd_turn .simple r.1.1).map fun s' =>
        decide (pte.pt_write = true ∧ pf ∈ r.1.1.pframes ∧ pf.pf_addr = pte.pt_page ∧ r.1.1.IsFile pf.pf_obj ∧
          r.1.1.pf_dirty pf.pf_addr = false ∧ pf ∉ s'.pframes ∧ r.1.1.mem pf.pf_addr 1 = 5 ∧ s'.disk 0 0 1 = 0)) = some true := by
    decide +kernel
  simp only [Option.bind_eq_some_iff, Option.map_eq_some_iff, Prod.exists, decide_eq_true_eq] at hex
  obtain ⟨s, changed, tr, he, pf, hpf, pte, hpte, s', hp, hw, hm, hpage, hfile, hd, hlost⟩ := hex
  refine ⟨(s, changed), tr, Run.of_exec (fun _ _ => of_decide_eq_true) he, fun h => ?_, pf, List.mem_of_head? hpf, s', hp, hlost⟩
  rw [h 0 0x400 pte hpte hw pf hm hpage hfile] at hd
  cases hd

end Weenix.Vm
