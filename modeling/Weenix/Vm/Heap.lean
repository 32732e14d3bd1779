import Weenix.Vm.Brk
/-!
# The heap

`do_brk` keeps no area of its own: the heap is whatever is mapped from the page
of `p_start_brk` to that of `p_brk`. `heap_follows_break` says what a
successful call makes of it, in every run whose calls leave the heap mapped
read/write.
-/

namespace Weenix.Vm

open Lib Lib.Intervals

variable {C : Config} {s s' t : State} {p m n addr len off fin v : Nat} {a d : VmArea} {l l' : List VmArea} {pr : Proc}
  {prot : Prot} {flags : MapFlags} {fd : Int} {held : Nat → Int}

/-! ## Pages that can be read and written -/

/-- Page `v` is mapped read/write. -/
def MappedRW (l : List VmArea) (v : Nat) : Prop :=
  ∃ a, vmmap_lookup l v = some a ∧ a.vma_prot.read = true ∧ a.vma_prot.write = true

instance (l : List VmArea) (v : Nat) : Decidable (MappedRW l v) :=
  decidable_of_iff ((vmmap_lookup l v).any fun a => a.vma_prot.read && a.vma_prot.write) <| by
    unfold MappedRW
    cases vmmap_lookup l v <;> simp

/-- A page that is mapped as it was is mapped read/write if it was. -/
theorem MappedRW.congr (h : MappedRW l v)
    (ht : (vmmap_lookup l' v).map (VmArea.target v) = (vmmap_lookup l v).map (VmArea.target v)) : MappedRW l' v := by
  obtain ⟨a, ha, hr, hw⟩ := h
  rw [ha] at ht
  obtain ⟨b, hb, e⟩ := Option.map_eq_some_iff.1 ht
  have hprot : b.vma_prot = a.vma_prot := congrArg (·.2.2.1) e
  exact ⟨b, hb, by rw [hprot]; exact hr, by rw [hprot]; exact hw⟩

/-- The pages an area has grown over are in it; every other page is where it was. -/
theorem lookup_grow (hL : Layout C s) (hd : d ∈ s.vmm_list m) (hlt : d.vma_end ≤ fin) (hhigh : fin ≤ C.high)
    (hfree : RangeFree (s.vmm_list m) d.vma_end fin) (v : Nat) :
    vmmap_lookup ((s.modArea m d.vma_id (VmArea.cutEnd fin)).vmm_list m) v =
      if d.vma_start ≤ v ∧ v < fin then some (d.cutEnd fin) else vmmap_lookup (s.vmm_list m) v := by
  have hs := ((hL.grow hd hlt hhigh hfree).areas m).sorted
  obtain ⟨pre, l, hlist⟩ := List.append_of_mem hd
  have hnd := hL.ids m
  rw [hlist] at hnd
  rw [modArea_eq hlist hnd] at hs ⊢
  have e : (s.setList m (pre ++ d.cutEnd fin :: l)).vmm_list m = pre ++ d.cutEnd fin :: l := Function.update_self ..
  rw [e] at hs ⊢
  split
  next hv => exact hs.find_iff.2 ⟨by simp, hv⟩
  next hv =>
    cases hl : vmmap_lookup (s.vmm_list m) v with
    | none =>
      refine find_none_iff.2 fun b hb hbv => ?_
      rcases mem_middle.1 hb with hb | rfl
      · exact find_none_iff.1 hl b (by rw [hlist]; exact mem_middle.2 (.inl hb)) hbv
      · exact hv hbv
    | some b =>
      obtain ⟨hb, hbv⟩ := (hL.areas m).sorted.find_iff.1 hl
      rw [hlist] at hb
      rcases mem_middle.1 hb with hb | rfl
      · exact hs.find_iff.2 ⟨mem_middle.2 (.inl hb), hbv⟩
      · exact absurd ⟨hbv.1, hbv.2.trans_le hlt⟩ hv

/-! ## What a call of `do_brk` makes of the heap -/

/-- After `do_brk` has moved the break to `addr`: it is there, the pages below it are mapped read/write, the pages of the
heap above it are unmapped, and every other page that was mapped is mapped as it was. -/
structure HeapAt (s s' : State) (p : Nat) (pr : Proc) (addr : Nat) : Prop where
  brk : s'.p_brk p = addr
  below : ∀ v, ADDR_TO_PN pr.p_start_brk ≤ v → v * PAGE_SIZE < addr → MappedRW (s'.vmm_list pr.p_vmmap) v
  above : ∀ v, ADDR_TO_PN addr < v → v ≤ ADDR_TO_PN (s.p_brk p) → vmmap_lookup (s'.vmm_list pr.p_vmmap) v = none
  kept : ∀ v a, vmmap_lookup (s.vmm_list pr.p_vmmap) v = some a → ¬ (ADDR_TO_PN addr < v ∧ v ≤ ADDR_TO_PN (s.p_brk p)) →
    (vmmap_lookup (s'.vmm_list pr.p_vmmap) v).map (VmArea.target v) = some (a.target v)
  others : ∀ k, k ≠ pr.p_vmmap → s'.vmm_list k = s.vmm_list k

/-- The pages from that of `p_start_brk` to that of the break are mapped read/write. -/
def HeapRW (l : List VmArea) (start brk : Nat) : Prop := ∀ v, ADDR_TO_PN start ≤ v → v ≤ ADDR_TO_PN brk → MappedRW l v

/-- A call of `do_brk` with the heap mapped moves the break. -/
theorem BrkEffect.heap {ret : Nat} (he : BrkEffect C s p pr addr s' (.ok ret)) (hL : Layout C s) (h0 : addr ≠ 0)
    (hheap : HeapRW (s.vmm_list pr.p_vmmap) pr.p_start_brk (s.p_brk p)) (hle : pr.p_start_brk ≤ s.p_brk p)
    (hbrk : s.p_brk p < 2 ^ 32) :
    ret = addr ∧ HeapAt s s' p pr addr ∧ HeapRW (s'.vmm_list pr.p_vmmap) pr.p_start_brk addr := by
  have hSB : ADDR_TO_PN pr.p_start_brk ≤ ADDR_TO_PN (s.p_brk p) := Nat.div_le_div_right hle
  -- the pages up to that of `addr` take in those below `addr`
  have hat {u : State} (hrw : HeapRW (u.vmm_list pr.p_vmmap) pr.p_start_brk addr)
      (habove : ∀ v, ADDR_TO_PN addr < v → v ≤ ADDR_TO_PN (s.p_brk p) → vmmap_lookup (u.vmm_list pr.p_vmmap) v = none)
      (hkept : ∀ v a, vmmap_lookup (s.vmm_list pr.p_vmmap) v = some a → ¬ (ADDR_TO_PN addr < v ∧ v ≤ ADDR_TO_PN (s.p_brk p)) →
        (vmmap_lookup (u.vmm_list pr.p_vmmap) v).map (VmArea.target v) = some (a.target v))
      (hothers : ∀ k, k ≠ pr.p_vmmap → u.vmm_list k = s.vmm_list k) :
      HeapAt s (setBrk u p addr) p pr addr ∧ HeapRW ((setBrk u p addr).vmm_list pr.p_vmmap) pr.p_start_brk addr := by
    refine ⟨⟨Function.update_self .., fun v h1 h2 => hrw v h1 ?_, habove, hkept, hothers⟩, hrw⟩
    unfold PAGE_SIZE at h2
    unfold ADDR_TO_PN PAGE_SIZE
    omega
  cases he with
  | query h => exact absurd h h0
  | elsewhere _ hnone =>
    obtain ⟨a, ha, -⟩ := hheap _ (Nat.le_refl _) hSB
    rw [hnone] at ha
    cases ha
  | stay _ _ heq =>
    refine ⟨rfl, hat (fun v h1 h2 => hheap v h1 (by omega)) (fun v h1 h2 => by omega) (fun v a ha _ => ?_) fun _ _ => rfl⟩
    rw [ha]
    rfl
  | @grow c d hin _ hlt hd hend hhigh hfree =>
    obtain ⟨hdm, hd1, hd2⟩ := (hL.areas pr.p_vmmap).sorted.find_iff.1 hd
    have hlook := lookup_grow hL hdm hend.le hhigh hfree
    -- a page of the area that grows is where it was
    have hsame (v : Nat) (b : VmArea) (hb : vmmap_lookup (s.vmm_list pr.p_vmmap) v = some b) :
        (vmmap_lookup ((s.modArea pr.p_vmmap d.vma_id (VmArea.cutEnd (ADDR_TO_PN addr + 1))).vmm_list pr.p_vmmap) v).map
          (VmArea.target v) = some (b.target v) := by
      rw [hlook v]
      split
      next hv =>
        by_cases hvd : v < d.vma_end
        · have h1 := (hL.areas pr.p_vmmap).sorted.find_iff.2 ⟨hdm, hv.1, hvd⟩
          have h2 : some b = some d := hb.symm.trans h1
          cases h2
          rfl
        · obtain ⟨hbm, hb1, hb2⟩ := (hL.areas pr.p_vmmap).sorted.find_iff.1 hb
          have := hfree b hbm
          omega
      next =>
        rw [hb]
        rfl
    refine ⟨rfl, hat (fun v h1 h2 => ?_) (fun v h1 h2 => by omega) (fun v b hb _ => hsame v b hb) fun k hk => ?_⟩
    · by_cases hv : v ≤ ADDR_TO_PN (s.p_brk p)
      · obtain ⟨b, hb, -⟩ := hheap v h1 hv
        exact (hheap v h1 hv).congr (by rw [hsame v b hb, hb]; rfl)
      · -- the new pages are in the area of the break
        obtain ⟨b, hb, hr, hw⟩ := hheap _ hSB (Nat.le_refl _)
        rw [hd] at hb
        cases hb
        refine ⟨d.cutEnd (ADDR_TO_PN addr + 1), ?_, hr, hw⟩
        rw [hlook v, if_pos ⟨by omega, by omega⟩]
    · exact Function.update_of_ne hk ..
  | @shrink c u hin _ hlt hr =>
    have hB : ADDR_TO_PN (s.p_brk p) < 2 ^ 20 := by
      unfold ADDR_TO_PN PAGE_SIZE
      omega
    have hun := vmmap_remove_at hL (by omega) hr
    have hend : ADDR_TO_PN addr + 1 + (ADDR_TO_PN (s.p_brk p) - ADDR_TO_PN addr) = ADDR_TO_PN (s.p_brk p) + 1 := by omega
    refine ⟨rfl, hat (fun v h1 h2 => ?_) (fun v h1 h2 => ?_) (fun v a ha hv => ?_) hun.others⟩
    · exact (hheap v h1 (by omega)).congr (hun.outside v (by omega))
    · exact hun.inside v (by omega) (by omega)
    · rw [hun.outside v (by omega), ha]
      rfl

/-! ## Runs -/

/-- The calls that leave the heap mapped. A mapping at a given page of the heap is read/write, and when `do_brk` gets past
its first checks the page of `p_start_brk` is mapped read/write, or it is unmapped and there is no room for the first growth. -/
def HeapOp.Keeps (C : Config) (p : Nat) (pr : Proc) (s : State) : HeapOp → Prop
  | .mmap addr len prot flags _ _ => addr < 2 ^ 32 ∧ len < 2 ^ 32 ∧ (flags.fixed = true →
      prot.read = true ∧ prot.write = true ∨ ADDR_TO_PN addr + pagesOf len ≤ ADDR_TO_PN pr.p_start_brk ∨
        ADDR_TO_PN (s.p_brk p) < ADDR_TO_PN addr)
  | .munmap .. => False
  | .brk addr => addr < 2 ^ 32 ∧ (BrkInside C pr addr → MappedRW (s.vmm_list pr.p_vmmap) (ADDR_TO_PN pr.p_start_brk) ∨
      vmmap_lookup (s.vmm_list pr.p_vmmap) (ADDR_TO_PN pr.p_start_brk) = none ∧
        ¬ (ADDR_TO_PN pr.p_start_brk < ADDR_TO_PN addr ∧
          Gap C (s.vmm_list pr.p_vmmap) (ADDR_TO_PN addr - ADDR_TO_PN pr.p_start_brk)))

theorem HeapOp.Keeps.bounded {op : HeapOp} (h : op.Keeps C p pr s) : op.Bounded := by
  cases op with
  | mmap => exact ⟨h.1, h.2.1⟩
  | munmap => exact h.elim
  | brk => exact h.1

/-- The invariant: the heap is mapped read/write, unless it is empty and starts with a page. -/
structure HeapInv (C : Config) (held : Nat → Int) (p : Nat) (pr : Proc) (s : State) : Prop where
  rest : AtRest C held s
  proc : s.procs p = some pr
  start : pr.p_start_brk ≤ s.p_brk p
  high : s.p_brk p ≤ C.USER_MEM_HIGH
  heap : PAGE_ALIGNED pr.p_start_brk = true ∧ s.p_brk p = pr.p_start_brk ∨
    HeapRW (s.vmm_list pr.p_vmmap) pr.p_start_brk (s.p_brk p)

theorem HeapInv.brk_lt (h : HeapInv C held p pr s) : s.p_brk p < 2 ^ 32 := by
  have h1 := h.high
  have hC := C.high_lt
  unfold Config.USER_MEM_HIGH PAGE_SIZE at h1
  omega

/-- With the page of `p_start_brk` mapped read/write the whole heap is. -/
theorem HeapInv.mapped (h : HeapInv C held p pr s) (hS : MappedRW (s.vmm_list pr.p_vmmap) (ADDR_TO_PN pr.p_start_brk)) :
    HeapRW (s.vmm_list pr.p_vmmap) pr.p_start_brk (s.p_brk p) := by
  rcases h.heap with ⟨-, he⟩ | h
  · intro v h1 h2
    rw [he] at h2
    obtain rfl : v = ADDR_TO_PN pr.p_start_brk := by omega
    exact hS
  · exact h

/-- A new mapping keeps the heap mapped read/write. -/
theorem do_mmap_heap {r : Except Errno Nat} (hs : AtRest C held s) (hpr : s.procs p = some pr) (hlen : len < 2 ^ 32)
    (hfixed : flags.fixed = true → prot.read = true ∧ prot.write = true ∨
      ADDR_TO_PN addr + pagesOf len ≤ ADDR_TO_PN pr.p_start_brk ∨ ADDR_TO_PN (s.p_brk p) < ADDR_TO_PN addr)
    (hheap : HeapRW (s.vmm_list pr.p_vmmap) pr.p_start_brk (s.p_brk p))
    (hmap : do_mmap C s p addr len prot flags fd off = some (s', r)) :
    HeapRW (s'.vmm_list pr.p_vmmap) pr.p_start_brk (s.p_brk p) := by
  rcases do_mmap_eq addr off prot flags fd hs.backing.layout hpr hlen with
    ⟨fs, e, he, -⟩ | ⟨t, place, file, hp, -⟩
  · rw [he] at hmap
    cases hmap
    exact hheap
  · obtain ⟨-, hM⟩ := (do_mmap_returns hs hpr hlen hp).2 _ hmap
    have hat := hp.at hs.backing.layout hlen
    rw [pagesOf_eq hlen hp.pages] at hM
    intro v h1 h2
    by_cases hv : ADDR_TO_PN place ≤ v ∧ v < ADDR_TO_PN place + pagesOf len
    · obtain ⟨a, ha, -, hprot, -⟩ := hM.inside v hv.1 hv.2
      refine ⟨a, ha, ?_⟩
      rw [hprot]
      cases hf : flags.fixed with
      | true =>
        obtain ⟨rfl, -⟩ := hat.fixed hf
        rcases hfixed hf with hrw | hout
        · exact hrw
        · omega
      | false =>
        -- the pages of the heap are in no gap
        obtain ⟨-, hfree⟩ := hat.gap hf
        obtain ⟨b, hb, -⟩ := hheap v h1 h2
        obtain ⟨hbm, hb1, hb2⟩ := (hs.backing.layout.areas pr.p_vmmap).sorted.find_iff.1 hb
        have := hfree b hbm
        rw [pagesOf_eq hlen hp.pages] at this
        omega
    · exact (hheap v h1 h2).congr (hM.outside v (by omega))

/-- What a call of `do_brk` does to the heap: nothing, or it moves the break. -/
theorem HeapInv.brk {r : Except Errno Nat} (h : HeapInv C held p pr s) (hop : HeapOp.Keeps C p pr s (.brk addr))
    (hb : do_brk C s p addr = some (s', r)) : (addr = 0 ∨ ∃ e, r = .error e) ∧ s' = s ∨
      r = .ok addr ∧ BrkInside C pr addr ∧ HeapAt s s' p pr addr ∧ HeapRW (s'.vmm_list pr.p_vmmap) pr.p_start_brk addr := by
  obtain ⟨pr', hpr', he⟩ := do_brk_effect h.rest hb
  rw [h.proc] at hpr'
  cases hpr'
  cases r with
  | error e =>
    cases he
    exact .inl ⟨.inr ⟨e, rfl⟩, rfl⟩
  | ok ret =>
    have hmoved (hin : BrkInside C pr addr) (hS : MappedRW (s.vmm_list pr.p_vmmap) (ADDR_TO_PN pr.p_start_brk)) :
        Except.ok ret = (.ok addr : Except Errno Nat) ∧ BrkInside C pr addr ∧ HeapAt s s' p pr addr ∧
          HeapRW (s'.vmm_list pr.p_vmmap) pr.p_start_brk addr := by
      obtain ⟨rfl, h1, h2⟩ := he.heap h.rest.backing.layout hin.set (h.mapped hS) h.start h.brk_lt
      exact ⟨rfl, hin, h1, h2⟩
    -- with the page of `p_start_brk` mapped only the first alternative is left
    have hpage {c : VmArea} (hin : BrkInside C pr addr)
        (hc : vmmap_lookup (s.vmm_list pr.p_vmmap) (ADDR_TO_PN pr.p_start_brk) = some c) :
        MappedRW (s.vmm_list pr.p_vmmap) (ADDR_TO_PN pr.p_start_brk) :=
      (hop.2 hin).resolve_right fun hno => by
        rw [hc] at hno
        cases hno.1
    cases he with
    | query h0 => exact .inl ⟨.inl h0, rfl⟩
    | elsewhere hin hnone hlt hgap =>
      rcases hop.2 hin with ⟨a, ha, -⟩ | ⟨-, hno⟩
      · rw [hnone] at ha
        cases ha
      · exact absurd ⟨hlt, hgap⟩ hno
    | stay hin hc => exact .inr (hmoved hin (hpage hin hc))
    | grow hin hc => exact .inr (hmoved hin (hpage hin hc))
    | shrink hin hc => exact .inr (hmoved hin (hpage hin hc))

theorem HeapInv.step {op : HeapOp} {w : Except Errno Nat} (h : HeapInv C held p pr s) (hop : op.Keeps C p pr s)
    (hst : heapStep C p s op = some (s', w)) : HeapInv C held p pr s' := by
  obtain ⟨hrest, -⟩ := heapStep_rest h.rest h.brk_lt hop.bounded hst
  cases op with
  | mmap addr len prot flags fd off =>
    obtain ⟨e1, e2⟩ := do_mmap_procs h.rest.backing.layout hop.2.1 hst
    refine ⟨hrest, by rw [e1]; exact h.proc, by rw [e2]; exact h.start, by rw [e2]; exact h.high, ?_⟩
    rw [e2]
    exact h.heap.imp_right fun hheap => do_mmap_heap h.rest h.proc hop.2.1 hop.2.2 hheap hst
  | munmap => exact hop.elim
  | brk addr =>
    rcases h.brk hop hst with ⟨-, rfl⟩ | ⟨-, hin, hat, hrw⟩
    · exact h
    · obtain ⟨pr', hpr', he⟩ := do_brk_effect h.rest hst
      refine ⟨hrest, ?_, by rw [hat.brk]; exact hin.start, by rw [hat.brk]; exact hin.high, ?_⟩
      · rw [he.procs h.rest.backing.layout h.brk_lt]
        exact h.proc
      · rw [hat.brk]
        exact .inr hrw

theorem run_heap {s₀ : State} {tr : List (HeapOp × Except Errno Nat)} (h₀ : HeapInv C held p pr s₀)
    (h : Run (heapStep C p) (fun s op => op.Keeps C p pr s) s₀ s tr) : HeapInv C held p pr s :=
  h.inv (HeapInv C held p pr) h₀ fun _ _ _ _ hI hop hst => hI.step hop hst

/-- From a process whose heap is mapped, after any calls: a `do_brk` that fails changes nothing, and one that succeeds,
after calls that leave the heap mapped, leaves the heap where the break says it is. -/
theorem heap_follows_break {s₀ : State} {tr : List (HeapOp × Except Errno Nat)} {r : Except Errno Nat}
    (h₀ : HeapInv C held p pr s₀) (hrun : Run (heapStep C p) (fun _ op => op.Bounded) s₀ s tr)
    (hb : do_brk C s p addr = some (s', r)) : (∀ e, r = .error e → s' = s) ∧
      (Run (heapStep C p) (fun s op => op.Keeps C p pr s) s₀ s tr → HeapOp.Keeps C p pr s (.brk addr) →
        ∀ ret, r = .ok ret → addr ≠ 0 → ret = addr ∧ HeapAt s s' p pr addr) := by
  constructor
  · rintro e rfl
    obtain ⟨hrest, -⟩ := run_rest h₀.rest h₀.brk_lt (fun _ _ h => h) hrun
    obtain ⟨pr', -, he⟩ := do_brk_effect hrest hb
    cases he
    rfl
  · rintro hkeeps hop ret rfl h0
    rcases (run_heap h₀ hkeeps).brk hop hb with ⟨h | ⟨e, h⟩, -⟩ | ⟨he, -, hat, -⟩
    · exact absurd h h0
    · cases h
    · exact ⟨Except.ok.inj he, hat⟩

/-- A check that suffices for `Keeps`. -/
def HeapOp.keepsb (p : Nat) (pr : Proc) (s : State) : HeapOp → Bool
  | .mmap addr len prot flags _ _ => decide (addr < 2 ^ 32 ∧ len < 2 ^ 32 ∧ (flags.fixed = true →
      prot.read = true ∧ prot.write = true ∨ ADDR_TO_PN addr + pagesOf len ≤ ADDR_TO_PN pr.p_start_brk ∨
        ADDR_TO_PN (s.p_brk p) < ADDR_TO_PN addr))
  | .munmap .. => false
  | .brk addr => decide (addr < 2 ^ 32 ∧ MappedRW (s.vmm_list pr.p_vmmap) (ADDR_TO_PN pr.p_start_brk))

theorem keeps_of_keepsb {op : HeapOp} (h : op.keepsb p pr s = true) : op.Keeps C p pr s := by
  cases op with
  | mmap =>
    obtain ⟨h1, h2, h3⟩ := of_decide_eq_true h
    exact ⟨h1, h2, h3⟩
  | munmap => cases h
  | brk addr =>
    obtain ⟨h1, h2⟩ := of_decide_eq_true h
    exact ⟨h1, fun _ => .inl h2⟩

/-- A process grows its heap, maps a page behind it, and shrinks it again. -/
theorem heap_shrinks : ∃ (s₀ s s' : State) (tr : List (HeapOp × Except Errno Nat)) (pr : Proc),
    Run (heapStep .stock 0) (fun s op => op.Keeps .stock 0 pr s) s₀ s tr ∧ do_brk .stock s 0 0x403800 = some (s', .ok 0x403800) ∧
      HeapAt s s' 0 pr 0x403800 := by
  have hex : ((exec (heapStep .stock 0) (fun _ op => decide op.Bounded) (loaded 0x402800) [dataPage]).bind fun r₀ =>
      (r₀.1.procs 0).bind fun pr => (exec (heapStep .stock 0) (HeapOp.keepsb 0 pr) r₀.1
        [.brk 0x404800, .mmap 0x405000 4096 { read := true } { heapFlags with fixed := true } (-1) 0]).bind fun r =>
      (do_brk .stock r.1 0 0x403800).map fun q => (pr.p_start_brk, r₀.1.p_brk 0,
        decide (MappedRW (r₀.1.vmm_list pr.p_vmmap) 0x402), HeapOp.keepsb 0 pr r.1 (.brk 0x403800), q.2.toOption)) =
      some (0x402800, 0x402800, true, true, some 0x403800) := by
    decide +kernel
  simp only [Option.bind_eq_some_iff, Option.map_eq_some_iff, Prod.exists, Prod.mk.injEq, decide_eq_true_eq] at hex
  obtain ⟨s₀, tr₀, he₀, pr, hpr, s, tr, he, s', w, hb, hstart, hbrk, hdata, hop, hret⟩ := hex
  obtain ⟨held, h⟩ := loaded_rest .stock 0x402800
  have hrun₀ : Run (heapStep .stock 0) (fun _ op => op.Bounded) (loaded 0x402800) s₀ tr₀ :=
    Run.of_exec (fun _ _ => of_decide_eq_true) he₀
  obtain ⟨hrest, -⟩ := run_rest h (by decide +kernel) (fun _ _ h => h) hrun₀
  have hrun : Run (heapStep .stock 0) (fun s op => op.Keeps .stock 0 pr s) s₀ s tr := Run.of_exec (fun _ _ => keeps_of_keepsb) he
  have hinv : HeapInv .stock held 0 pr s₀ := by
    refine ⟨hrest, hpr, by omega, by rw [hbrk]; decide, .inr fun v h1 h2 => ?_⟩
    rw [hstart, ADDR_TO_PN, PAGE_SIZE] at h1
    rw [hbrk, ADDR_TO_PN, PAGE_SIZE] at h2
    obtain rfl : v = 0x402 := by omega
    exact hdata
  cases w with
  | error e => cases hret
  | ok n =>
    cases hret
    obtain ⟨-, hat⟩ := (heap_follows_break hinv (hrun.mono fun _ _ h => h.bounded) hb).2 hrun (keeps_of_keepsb hop) _ rfl (by decide)
    exact ⟨s₀, s, s', tr, pr, hrun, hb, hat⟩

/-- A page of the heap that was mapped again read-only stays so below the break, and a break that starts with an unmapped
page leaves its last page unmapped. -/
theorem heap_not_below_brk :
    (∃ (s₀ s s' : State) (tr : List (HeapOp × Except Errno Nat)) (pr : Proc), s₀.procs 0 = some pr ∧
      MappedRW (s₀.vmm_list pr.p_vmmap) (ADDR_TO_PN pr.p_start_brk) ∧
      Run (heapStep .stock 0) (fun _ op => op.Bounded) s₀ s tr ∧ do_brk .stock s 0 0x403900 = some (s', .ok 0x403900) ∧
      ¬ HeapAt s s' 0 pr 0x403900) ∧
    ∃ (s' : State) (pr : Proc), (loaded 0x400000).procs 0 = some pr ∧ PAGE_ALIGNED pr.p_start_brk = true ∧
      do_brk .stock (loaded 0x400000) 0 0x401800 = some (s', .ok 0x401800) ∧ ¬ HeapAt (loaded 0x400000) s' 0 pr 0x401800 := by
  constructor
  · have hex : ((exec (heapStep .stock 0) (fun _ op => decide op.Bounded) (loaded 0x402800) [dataPage]).bind fun r₀ =>
        (r₀.1.procs 0).bind fun pr => (exec (heapStep .stock 0) (fun _ op => decide op.Bounded) r₀.1
          [.brk 0x403800, .mmap 0x403000 4096 { read := true } { heapFlags with fixed := true } (-1) 0]).bind fun r =>
        (do_brk .stock r.1 0 0x403900).map fun q => (decide (MappedRW (r₀.1.vmm_list pr.p_vmmap) (ADDR_TO_PN pr.p_start_brk)),
          pr.p_start_brk, decide (MappedRW (q.1.vmm_list pr.p_vmmap) 0x403), q.2.toOption)) =
        some (true, 0x402800, false, some 0x403900) := by
      decide +kernel
    simp only [Option.bind_eq_some_iff, Option.map_eq_some_iff, Prod.exists, Prod.mk.injEq, decide_eq_true_eq, decide_eq_false_iff_not] at hex
    obtain ⟨s₀, tr₀, -, pr, hpr, s, tr, he, s', w, hb, hdata, hstart, hro, hret⟩ := hex
    cases w with
    | error e => cases hret
    | ok n =>
      cases hret
      refine ⟨s₀, s, s', tr, pr, hpr, hdata, Run.of_exec (fun _ _ => of_decide_eq_true) he, hb, fun h => hro (h.below 0x403 ?_ ?_)⟩
      · rw [hstart]
        decide
      · decide
  · have hex : (((loaded 0x400000).procs 0).bind fun pr => (do_brk .stock (loaded 0x400000) 0 0x401800).map fun q =>
        (pr.p_start_brk, decide (MappedRW (q.1.vmm_list pr.p_vmmap) 0x401), q.2.toOption)) = some (0x400000, false, some 0x401800) := by
      decide +kernel
    simp only [Option.bind_eq_some_iff, Option.map_eq_some_iff, Prod.exists, Prod.mk.injEq, decide_eq_false_iff_not] at hex
    obtain ⟨pr, hpr, s', w, hb, hstart, hun, hret⟩ := hex
    cases w with
    | error e => cases hret
    | ok n =>
      cases hret
      refine ⟨s', pr, hpr, by rw [hstart]; decide, hb, fun h => hun (h.below 0x401 ?_ ?_)⟩
      · rw [hstart]
        decide
      · decide

end Weenix.Vm
