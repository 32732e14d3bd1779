import Weenix.Vm.UserAccess
import Weenix.Vm.Evictions
/-!
# Copies to user memory, as user loads see them

`vmmap_write` stores in a page of the area's own object, and leaves the page
table alone. A present entry that maps the page of an object below is stale
from then on. Where no page of the copy has such an entry (`OwnPages`), entries
still map what the chains read, and a load returns what was copied.
-/

namespace Weenix.Vm

open Lib Lib.Intervals

variable {C : Config} {E : Env} {R : FrameRel} {s s' t t' : State} {o m p v u n : Nat} {a : VmArea} {pr : Proc} {pf : Pframe}
  {kmem : Nat → UInt8} {x : Page} {held : Nat → Int}

/-! ## Entries -/

/-- If page `v` has an entry, the object of its area has the page itself. -/
def State.OwnPage (s : State) (p : Nat) (a : VmArea) (v : Nat) : Prop :=
  s.p_pagedir p v ≠ none → ∃ o ∈ a.vma_obj, s.frame? o (a.pagenum v) ≠ none

instance (s : State) (p : Nat) (a : VmArea) (v : Nat) : Decidable (s.OwnPage p a v) :=
  inferInstanceAs (Decidable (_ → ∃ _ ∈ _, _))

/-- This is so for the pages that a copy of `n` bytes to `u` touches. -/
def OwnPages (s : State) (p u n : Nat) : Prop :=
  ∀ pr ∈ s.procs p, range_perm (s.vmm_list pr.p_vmmap) u n { write := true } = true → ∀ a ∈ s.vmm_list pr.p_vmmap,
    ∀ v < 1 + ADDR_TO_PN (u32 (u + n)), ADDR_TO_PN u ≤ v → a.Has v → s.OwnPage p a v

instance (s : State) (p u n : Nat) : Decidable (OwnPages s p u n) :=
  inferInstanceAs (Decidable (∀ _ ∈ _, _ → ∀ _ ∈ _, ∀ _ < _, _ → _ → _))

/-- Copies are to such pages, and pages that are taken away are traced. -/
def OwnCopies (s : State) : Event → Prop
  | .copyout p u k n => Event.Sane (.copyout p u k n) ∧ OwnPages s p u n
  | e => TracedTurn s e

instance (s : State) (e : Event) : Decidable (OwnCopies s e) :=
  decidable_of_iff (TracedTurn s e ∧ (match e with | .copyout p u _ n => decide (OwnPages s p u n) | _ => true) = true)
    (by cases e <;> simp [OwnCopies, TracedTurn])

theorem OwnCopies.traced {e : Event} (h : OwnCopies s e) : TracedTurn s e := by
  cases e with
  | copyout => exact h.1
  | _ => exact h

/-- Such a copy keeps the entries right. -/
theorem Linked.copy_reads (h : Linked State.reads C held s) {r : Except Errno Unit} (hown : OwnPages s p u n)
    (hc : copy_to_user E s p u kmem n = some (s', r)) : Stays State.reads C held s s' := by
  rcases copy_to_user_cases hc with ⟨rfl, -⟩ | ⟨pr, hpr, hperm, hw, -⟩
  · exact h.refl
  · have hown := hown pr hpr hperm
    refine (vmmap_write_rule (I := fun t => Stays State.reads C held s t ∧ t.spaces = s.spaces ∧ t.p_pagedir = s.p_pagedir ∧
      ∀ pf ∈ s.pframes, pf ∈ t.pframes) h.outside.nonneg ?_ h.backing ⟨h.refl, rfl, rfl, fun _ hq => hq⟩ hw).2.1
    rintro t t₁ t₂ a v o pf x hB ⟨hst, hsp, hpd, hfr⟩ ha hv hlo hhi ho hgot hwrote -
    have hI := hst.linked
    have hlists : t.vmm_list = s.vmm_list := congrArg Spaces.vmm_list hsp
    have hpr' : t.procs p = some pr := (congrFun (congrArg Spaces.procs hsp) p).trans hpr
    have hE : Entries State.reads t₁ := by
      refine hI.entries.grow onChain_reads hI.backing hI.owned hI.apart hpr' ha hv ho hgot.grown hgot.frames hgot.only fun hne => ?_
      rw [hpd] at hne
      rw [hlists] at ha
      obtain ⟨o', ho', hsome⟩ := hown a ha v hhi hlo hv hne
      obtain rfl : o' = o := Option.some.inj (ho'.symm.trans ho)
      obtain ⟨q, hq⟩ := Option.ne_none_iff_exists'.1 hsome
      obtain ⟨hqm, hk⟩ := (frame?_eq_some h.backing.frames).1 hq
      rw [(frame?_eq_some hI.backing.frames).2 ⟨hfr q hqm, hk⟩]
      simp
    have h1 := hI.got hgot hE
    refine ⟨(hst.trans h1).trans (h1.linked.wrote onChain_reads hwrote), ?_⟩
    cases hwrote with
    | mk d n => exact ⟨hgot.grown.spaces.trans hsp, hgot.grown.pagedir.trans hpd, fun q hq => hgot.grown.frames q (hfr q hq)⟩

/-! ## Bytes -/

/-- The bytes `b` are at `off` of the page that object `o` itself has for `pn`. -/
def State.Holds (s : State) (o pn off n : Nat) (b : Nat → UInt8) : Prop :=
  ∃ pf, s.frame? o pn = some pf ∧ ∀ j < n, s.mem pf.pf_addr (off + j) = b j

/-- What is left of a copy whose bytes have all been copied changes nothing. -/
theorem holds_writeStep {lo hi pn off : Nat} {b : Nat → UInt8} {done : Prop} (hd : done) :
    WriteStep C held m lo hi done (State.Holds · o pn off n b) := by
  rintro t t₁ t₂ a v o' q x hB ⟨pf, hpf, hb⟩ - - - - - hgot hwrote hx
  obtain ⟨hm, hk⟩ := (frame?_eq_some hB.frames).1 hpf
  have hpf₁ : t₁.frame? o pn = some pf := (frame?_eq_some hgot.frames).2 ⟨hgot.grown.frames pf hm, hk⟩
  have hb₁ : ∀ j < n, t₁.mem pf.pf_addr (off + j) = b j := fun j hj => by
    rw [hgot.grown.mem pf hm]
    exact hb j hj
  have hx := hx hd
  cases hwrote with
  | mk d n =>
    refine ⟨pf, hpf₁, fun j hj => ?_⟩
    by_cases e : pf.pf_addr = q.pf_addr
    · rw [e] at hb₁ ⊢
      simpa [hx] using hb₁ j hj
    · exact (congrFun (Function.update_of_ne e ..) _).trans (hb₁ j hj)

/-- A copy within one page leaves its bytes in the page of the area's own object. -/
theorem vmmap_write_holds (h : Backing C held s) (hheld : ∀ o, 0 ≤ held o) (ha : a ∈ s.vmm_list m) (hv : a.Has (ADDR_TO_PN u))
    (hone : u % PAGE_SIZE + n ≤ PAGE_SIZE) (hu : u < 2 ^ 32) (hw : vmmap_write E s m u kmem n = some s') :
    ∃ o, a.vma_obj = some o ∧ s'.Holds o (a.pagenum (ADDR_TO_PN u)) (u % PAGE_SIZE) n kmem := by
  obtain ⟨pre, post, hlist⟩ := List.append_of_mem ha
  have hC := C.high_lt
  have hhigh := (h.layout.areas m).high a ha
  have hsorted := (h.layout.areas m).sorted
  rw [hlist, sorted_append] at hsorted
  obtain ⟨-, -, hbefore⟩ := hsorted
  have hskip : ∀ d ∈ pre, d.vma_end ≤ ADDR_TO_PN u := fun d hd => (hbefore d hd a List.mem_cons_self).trans hv.1
  have hlast : ADDR_TO_PN u < 1 + ADDR_TO_PN (u32 (u + n)) := by
    have h1 := hv.2
    unfold ADDR_TO_PN u32 PAGE_SIZE at *
    omega
  unfold vmmap_write at hw
  rw [hlist, write_areas_skip hskip] at hw
  simp only [write_areas, bind] at hw
  rw [if_neg (not_le.2 hv.2), if_neg (by have := hv.1; omega), if_pos hv.1] at hw
  simp only [Option.bind_eq_some_iff, Prod.exists] at hw
  obtain ⟨s₁, c, hpages, hrest⟩ := hw
  -- the first page takes all bytes
  obtain ⟨k, hk⟩ : ∃ k, (if a.vma_end > 1 + ADDR_TO_PN (u32 (u + n)) then 1 + ADDR_TO_PN (u32 (u + n)) else a.vma_end) -
      ADDR_TO_PN u = k + 1 := by
    have h1 := hv.2
    refine ⟨(if a.vma_end > 1 + ADDR_TO_PN (u32 (u + n)) then 1 + ADDR_TO_PN (u32 (u + n)) else a.vma_end) - ADDR_TO_PN u - 1, ?_⟩
    split <;> omega
  rw [hk] at hpages
  obtain ⟨o, t, pf, t', n', ho, hgot, hwrote, hn', hpages⟩ := write_pages_succ h hheld ha hpages
  obtain rfl : n' = n := by
    rw [hn']
    simp only [Nat.sub_zero]
    omega
  have hholds : t'.Holds o (a.pagenum (ADDR_TO_PN u)) (u % PAGE_SIZE) n' kmem := by
    cases hwrote with
    | mk d c =>
      refine ⟨pf, hgot.frame, fun j hj => ?_⟩
      simp only [Function.update_self]
      rw [blit_mem (by omega) (by omega)]
      simp
  have hB' : Backing C held t' := hwrote.backing (h.grown hgot.grown hgot.frames)
  have hsp : t'.vmm_list = s.vmm_list := by
    have e : t'.vmm_list = t.vmm_list := by cases hwrote; rfl
    exact e.trans (congrArg Spaces.vmm_list hgot.grown.spaces)
  -- nothing is left to copy
  have hstep : WriteStep C held m (ADDR_TO_PN u) (1 + ADDR_TO_PN (u32 (u + n'))) (n' ≤ (⟨0, n', 0⟩ : Cursor).temp)
      (State.Holds · o (a.pagenum (ADDR_TO_PN u)) (u % PAGE_SIZE) n' kmem) := holds_writeStep le_rfl
  obtain ⟨hB₁, hH₁, hle⟩ := write_pages_rule hheld hstep (by simp) hB' hholds (by rw [hsp]; exact ha)
    (fun v h1 h2 => by
      have h3 := hv.1
      have h4 : v < a.vma_end ∧ v < 1 + ADDR_TO_PN (u32 (u + n')) := by
        split at hk <;> omega
      exact ⟨⟨by omega, h4.1⟩, by omega, h4.2⟩) hpages
  have hsp₁ : s₁.vmm_list = s.vmm_list := (congrArg Spaces.vmm_list (write_pages_spaces hpages)).trans hsp
  refine ⟨o, ho, (write_areas_rule hheld hstep hle hB₁ hH₁ ?_ hrest).2⟩
  rw [hsp₁, hlist]
  exact fun d hd => List.mem_append_right _ (List.mem_cons_of_mem _ hd)

/-- A load of such a byte returns it. -/
theorem Linked.load_held (h : Linked State.reads C held s) (hpr : s.procs p = some pr) (ha : a ∈ s.vmm_list pr.p_vmmap)
    {vaddr off j : Nat} {b : Nat → UInt8} (hv : a.Has (ADDR_TO_PN vaddr)) (ho : a.vma_obj = some o)
    (hb : s.Holds o (a.pagenum (ADDR_TO_PN vaddr)) off n b) (hj : j < n) (hoff : vaddr % PAGE_SIZE = off + j) :
    ∃ t, userLoad C E s p vaddr = some (t, .byte (b j)) := by
  obtain ⟨pf, hpf, hb⟩ := hb
  have hc := h.backing.chains
  obtain ⟨t, b', hload, heff⟩ := userLoad_mapped (E := E) h hpr ha hv ho
  refine ⟨t, ?_⟩
  rw [hload]
  cases heff with
  | present q hq =>
    have hself : s.resolves o (a.pagenum (ADDR_TO_PN vaddr)) = some pf := Layers.find_own hc.grounded hpf
    rw [hself] at hq
    cases hq
    rw [hoff, hb j hj]
  | fault s₁ q _ hl =>
    obtain ⟨hm, hk⟩ := (frame?_eq_some h.backing.frames).1 hpf
    have hpf₁ : s₁.frame? o (a.pagenum (ADDR_TO_PN vaddr)) = some pf :=
      (frame?_eq_some hl.frames).2 ⟨hl.grown.frames pf hm, hk⟩
    have hself : s₁.resolves o (a.pagenum (ADDR_TO_PN vaddr)) = some pf :=
      Layers.find_own (hl.grown.chains hc).grounded hpf₁
    obtain rfl : pf = q := Option.some.inj (hself.symm.trans hl.found)
    rw [hoff, hl.grown.mem pf hm, hb j hj]

/-! ## Runs -/

/-- In every state reached by such steps a present entry maps the frame that the
chain of the area reads, and a copy within one page, if it is such a step too,
is what a load then returns. -/
theorem copied_bytes_loaded {s₀ : State} {tr : List (Event × Outcome)} (h0 : Booted s₀) (h : Run (step C E) OwnCopies s₀ s tr) :
    (∀ p v pte, s.p_pagedir p v = some pte → ∃ pr a o pf, s.procs p = some pr ∧ a ∈ s.vmm_list pr.p_vmmap ∧ a.Has v ∧
      a.vma_obj = some o ∧ s.resolves o (a.pagenum v) = some pf ∧ pf.pf_addr = pte.pt_page) ∧
    ∀ p pr a u n kmem s', s.procs p = some pr → a ∈ s.vmm_list pr.p_vmmap → a.Has (ADDR_TO_PN u) →
      u % PAGE_SIZE + n ≤ PAGE_SIZE → OwnCopies s (.copyout p u kmem n) → copy_to_user E s p u kmem n = some (s', .ok ()) →
      ∀ j < n, ∃ t, userLoad C E s' p (u + j) = some (t, .byte (kmem j)) := by
  obtain ⟨held, hL⟩ := run_linked onChain_reads h0 (fun _ _ ht => ht.traced)
    (fun _ _ _ _ _ _ _ _ hI hown hc => hI.copy_reads hown.2 hc) h
  refine ⟨fun p v pte hpte => ?_, fun p pr a u n kmem s' hpr ha hv hone hown hc j hj => ?_⟩
  · obtain ⟨pr, a, o, pf, he⟩ := hL.entries p v pte hpte
    exact ⟨pr, a, o, pf, he.proc, he.area, he.has, he.obj, he.frame, he.page⟩
  · have hsp := copy_to_user_spaces hc
    have hL' := (hL.copy_reads hown.2 hc).linked
    rcases Linked.copy_to_user_cases hc with ⟨-, hr⟩ | ⟨pr', hpr', -, hw, -⟩
    · cases hr
    rw [hpr] at hpr'
    cases hpr'
    obtain ⟨o, ho, hholds⟩ := vmmap_write_holds hL.backing hL.outside.nonneg ha hv hone hown.1.1 hw
    have hpage : ADDR_TO_PN (u + j) = ADDR_TO_PN u := by
      unfold ADDR_TO_PN PAGE_SIZE at *
      omega
    refine hL'.load_held ((congrFun (congrArg Spaces.procs hsp) p).trans hpr) ?_ (by rw [hpage]; exact hv) ho
      (by rw [hpage]; exact hholds) hj (by unfold PAGE_SIZE at *; omega)
    rw [show s'.vmm_list = s.vmm_list from congrArg Spaces.vmm_list hsp]
    exact ha

/-- A process with one private page. -/
def privatePage : List Event := [.spawn, .mmap 0 0 4096 { read := true, write := true } { priv := true, anon := true } (-1) 0]

/-- After a store of the process a copy is seen. -/
theorem copy_after_store_loaded : ∃ s tr s' t, Run (step .stock .simple) OwnCopies .bare s tr ∧
    copy_to_user .simple s 0 0x400000 (fun _ => 7) 1 = some (s', .ok ()) ∧
    userLoad .stock .simple s' 0 0x400000 = some (t, .byte 7) := by
  have hex : (exec (step .stock .simple) (fun s e => decide (OwnCopies s e)) .bare
      (privatePage ++ [.store 0 0x400000 5])).bind (fun r => (copy_to_user .simple r.1 0 0x400000 (fun _ => 7) 1).bind fun q =>
        (r.1.procs 0).bind fun pr => (r.1.vmm_list pr.p_vmmap).head?.map fun a =>
          (q.2.toOption, decide (a.Has 0x400 ∧ OwnPages r.1 0 0x400000 1))) = some (some (), true) := by decide +kernel
  simp only [Option.bind_eq_some_iff, Option.map_eq_some_iff, Prod.mk.injEq, Prod.exists, decide_eq_true_eq] at hex
  obtain ⟨s, tr, he, s', r, hc, pr, hpr, a, ha, hr, hv, hown⟩ := hex
  cases r with
  | error e => cases hr
  | ok _ =>
    have hrun : Run (step .stock .simple) OwnCopies .bare s tr := Run.of_exec (fun _ _ => of_decide_eq_true) he
    obtain ⟨t, ht⟩ := (copied_bytes_loaded bare_booted hrun).2 0 pr a 0x400000 1 (fun _ => 7) s' hpr (List.mem_of_head? ha) hv
      (by decide) ⟨by decide, hown⟩ hc 0 (by decide)
    exact ⟨s, tr, s', t, hrun, hc, ht⟩

/-- After a load of the process it is not. -/
theorem copy_after_load_unseen : ∃ s tr s' t, Run (step .stock .simple) (fun _ e => e.Sane) .bare s tr ∧
    copy_to_user .simple s 0 0x400000 (fun _ => 7) 1 = some (s', .ok ()) ∧
    userLoad .stock .simple s' 0 0x400000 = some (t, .byte 0) := by
  have hex : (exec (step .stock .simple) (fun _ e => decide e.Sane) .bare
      (privatePage ++ [.load 0 0x400000])).bind (fun r => (copy_to_user .simple r.1 0 0x400000 (fun _ => 7) 1).bind fun q =>
        (userLoad .stock .simple q.1 0 0x400000).map fun t => (q.2.toOption, t.2)) = some (some (), .byte 0) := by decide +kernel
  simp only [Option.bind_eq_some_iff, Option.map_eq_some_iff, Prod.mk.injEq, Prod.exists] at hex
  obtain ⟨s, tr, he, s', r, hc, t, w, hl, hr, rfl⟩ := hex
  cases r with
  | error e => cases hr
  | ok _ => exact ⟨s, tr, s', t, Run.of_exec (fun _ _ => of_decide_eq_true) he, hc, hl⟩

end Weenix.Vm
