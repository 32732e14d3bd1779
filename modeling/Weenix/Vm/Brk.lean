import Weenix.Vm.MapArgs
/-!
# The break

`do_brk` moves the break of a process in one of four ways (`do_brk_effect`): it
maps the pages of the first growth anywhere, leaves the areas as they are, grows
the area that has the break, or unmaps pages. The calls `mmap`, `munmap` and
`brk` of a process keep the references counted (`heapStep_rest`).
-/

namespace Weenix.Vm

open Lib Lib.Intervals

variable {C : Config} {E : Env} {s s' t : State} {o m n p addr len off : Nat} {a : VmArea} {l : List VmArea} {pr : Proc}
  {ob : Mmobj} {prot : Prot} {flags : MapFlags} {fd : Int} {held : Nat → Int}

/-! ## What the calls keep -/

/-- Open files in `s'` are open files in `s`, with the same vnode. -/
def SameFiles (s s' : State) : Prop := ∀ f fl, s'.files f = some fl → ∃ fl₀, s.files f = some fl₀ ∧ fl₀.f_vnode = fl.f_vnode

theorem SameFiles.rfl : SameFiles s s := fun _ fl h => ⟨fl, h, Eq.refl _⟩

theorem SameFiles.trans (h : SameFiles s t) (h' : SameFiles t s') : SameFiles s s' := fun f fl hf => by
  obtain ⟨fl₁, hf₁, e₁⟩ := h' f fl hf
  obtain ⟨fl₀, hf₀, e₀⟩ := h f fl₁ hf₁
  exact ⟨fl₀, hf₀, e₀.trans e₁⟩

/-- Only the count of one open file changes. -/
theorem SameFiles.update {f k : Nat} {fl : File} (hf : s.files f = some fl) :
    SameFiles s (s.setFiles (Function.update s.files f (some { fl with f_refcount := k }))) := fun g fl' hg => by
  have hg : Function.update s.files f (some { fl with f_refcount := k }) g = some fl' := hg
  by_cases e : g = f
  · subst e
    rw [Function.update_self] at hg
    cases hg
    exact ⟨fl, hf, Eq.refl _⟩
  · rw [Function.update_of_ne e] at hg
    exact ⟨fl', hg, Eq.refl _⟩

theorem fput_same (s : State) (f : Nat) : SameFiles s (fput s f) := by
  unfold fput
  cases hf : s.files f with
  | none => exact .rfl
  | some fl =>
    simp only
    split
    · intro g fl' hg
      have hg : Function.update s.files f none g = some fl' := hg
      by_cases e : g = f
      · subst e
        rw [Function.update_self] at hg
        cases hg
      · rw [Function.update_of_ne e] at hg
        exact ⟨fl', hg, rfl⟩
    · exact .update hf

theorem mmapFile_same {r : Except Errno (Option (Nat × Nat))} (h : mmapFile C s pr len prot flags fd off = (s', r)) :
    SameFiles s s' := by
  unfold mmapFile at h
  split at h
  · split at h <;> cases h <;> exact .rfl
  · split at h
    · cases h
      exact .rfl
    · unfold fget at h
      cases hpf : pr.p_files fd.toNat with
      | none =>
        simp only [hpf] at h
        cases h
        exact .rfl
      | some f =>
        simp only [hpf] at h
        cases hf : s.files f with
        | none =>
          simp only [hf] at h
          cases h
          exact .rfl
        | some fl =>
          simp only [hf] at h
          split at h
          · cases h
            split
            · exact (SameFiles.update hf).trans (fput_same _ _)
            · exact .update hf
          · cases h
            exact .update hf

/-- The rule for a step that frees no object. -/
theorem AtRest.keep (h : AtRest C held s) (hB : Backing C held s') (hobjs : ∀ o ob, s.objs o = some ob → s'.objs o = some ob)
    (hprocs : ∀ p pr, s'.procs p = some pr → ∃ pr₀, s.procs p = some pr₀ ∧ pr₀.p_vmmap = pr.p_vmmap) (hmaps : s'.nmaps = s.nmaps)
    (hvn : s'.vnodes = s.vnodes) (hfiles : SameFiles s s') : AtRest C held s' := by
  refine ⟨hB, ⟨h.outside.nonneg, fun o ho => ?_⟩, ⟨fun p pr hpr => ?_, fun vn o ho => ?_⟩, fun f fl o hf ho => ?_⟩
  · obtain ⟨ob, hob, hfile⟩ := h.outside.file o ho
    exact ⟨ob, hobjs o ob hob, hfile⟩
  · obtain ⟨pr₀, hpr₀, e⟩ := hprocs p pr hpr
    rw [← e, hmaps]
    exact h.live.maps p pr₀ hpr₀
  · rw [hvn] at ho
    obtain ⟨ob, hob, hfile⟩ := h.live.vnodes vn o ho
    exact ⟨ob, hobjs o ob hob, hfile⟩
  · obtain ⟨fl₀, hf₀, e⟩ := hfiles f fl hf
    rw [hvn, ← e] at ho
    exact h.opened f fl₀ o hf₀ ho

/-- A step that changes one area list and nothing else of the address spaces. -/
theorem AtRest.keep_spaces (h : AtRest C held s) (hB : Backing C held s') (hobjs : ∀ o ob, s.objs o = some ob → s'.objs o = some ob)
    {l : List VmArea} {k : Nat} (hsp : s'.spaces = s.spaces.withList m l k) : AtRest C held s' := by
  have hprocs : s'.procs = s.procs := congrArg Spaces.procs hsp
  have hfiles : s'.files = s.files := congrArg Spaces.files hsp
  refine h.keep hB hobjs (fun p pr hpr => ⟨pr, by rw [← hprocs]; exact hpr, rfl⟩) (congrArg Spaces.nmaps hsp :)
    (congrArg Spaces.vnodes hsp :) fun f fl hf => ⟨fl, by rw [← hfiles]; exact hf, rfl⟩

theorem AtRest.setFiles (h : AtRest C held s) {fs : Nat → Option File} (hf : SameFiles s (s.setFiles fs)) :
    AtRest C held (s.setFiles fs) :=
  h.keep (h.backing.setFiles fs) (fun _ _ ho => ho) (fun _ pr hpr => ⟨pr, hpr, rfl⟩) rfl rfl hf

/-- Where the break of `p` starts and stands. -/
def State.withBreak (s : State) (p : Nat) (pr : Proc) (start brk : Nat) : State :=
  setBrk (s.setProc p (some { pr with p_start_brk := start })) p brk

theorem AtRest.withBreak (h : AtRest C held s) (hpr : s.procs p = some pr) (start brk : Nat) :
    AtRest C held (s.withBreak p pr start brk) := by
  refine h.keep (h.backing.processes _ _ s.zombies) (fun _ _ ho => ho) (fun q pr' hq => ?_) rfl rfl .rfl
  have hq : Function.update s.procs p (some { pr with p_start_brk := start }) q = some pr' := hq
  by_cases e : q = p
  · subst e
    rw [Function.update_self] at hq
    cases hq
    exact ⟨pr, hpr, rfl⟩
  · rw [Function.update_of_ne e] at hq
    exact ⟨pr', hq, rfl⟩

theorem AtRest.setBrk (h : AtRest C held s) (brk : Nat) : AtRest C held (setBrk s p brk) :=
  h.keep (h.backing.processes s.procs _ s.zombies) (fun _ _ ho => ho) (fun _ pr hpr => ⟨pr, hpr, rfl⟩) rfl rfl .rfl

/-! ## The calls that change maps -/

theorem vmmap_map_rest {file : Option Nat} {lopage : Nat} {dir : Dir} {r : Except Errno Nat} (h : AtRest C held s)
    (hm : m < s.nmaps) (hkind : flags.shared = !flags.priv) (hn : n ≤ 2 ^ 20)
    (hmap : vmmap_map C s p m file lopage n prot flags off dir = some (s', r)) : AtRest C held s' := by
  have hB := h.backing.mapped h.outside.nonneg h.fresh h.live.vnodes hm hkind hn hmap
  obtain ⟨-, heff⟩ := vmmap_map_effect h.backing.layout hn hmap
  obtain ⟨l, k, hsp⟩ := heff.spaces h.backing.layout
  refine h.keep_spaces hB (fun o ob ho => ?_) hsp
  cases heff with
  | noroom => exact ho
  | @mapped start s₁ s₂ area hfrom _ _ _ hat =>
    obtain ⟨h₁, hobjs, -, hvn⟩ := h.backing.room h.outside.nonneg hfrom
    exact ((attachObject_effect hat).objs h₁.chains (FileObjs.congr h.live.vnodes hvn hobjs)).1.old o ob (by rw [hobjs]; exact ho)

theorem vmmap_remove_rest {lo : Nat} (h : AtRest C held s) (hlt : lo + n < 2 ^ 32)
    (hr : vmmap_remove C s p m lo n = some s') : AtRest C held s' := by
  refine h.keep_spaces (h.backing.removed h.outside.nonneg hlt hr) (fun o ob ho => ?_) (vmmap_remove_list hlt h.backing.layout hr)
  rw [(vmmap_remove_objs h.backing h.outside.nonneg hlt hr).1]
  exact ho

theorem mmapReturn_rest {file : Option (Nat × Nat)} {r : State × Except Errno Nat} {w : Except Errno Nat} (h : AtRest C held r.1)
    (hr : mmapReturn file r = some (s', w)) : AtRest C held s' := by
  obtain ⟨t, r⟩ := r
  cases r with
  | error e => cases hr
  | ok start =>
    cases file with
    | none =>
      cases hr
      exact h
    | some f =>
      obtain ⟨f, vn⟩ := f
      cases hr
      obtain ⟨fs, hfs⟩ := fput_files (s := t) (f := f)
      have hsame := fput_same t f
      simp only [hfs] at hsame ⊢
      exact h.setFiles hsame

theorem do_mmap_rest {r : Except Errno Nat} (h : AtRest C held s) (hlen : len < 2 ^ 32)
    (hmap : do_mmap C s p addr len prot flags fd off = some (s', r)) : AtRest C held s' := by
  simp only [do_mmap, bind, Option.bind_eq_some_iff] at hmap
  obtain ⟨pr, hpr, hmap⟩ := hmap
  split at hmap
  · cases hmap
    exact h
  split at hmap
  · cases hmap
    exact h
  split at hmap
  · cases hmap
    exact h
  split at hmap
  · cases hmap
    exact h
  next hkind =>
    simp only [Option.bind_eq_some_iff] at hmap
    obtain ⟨ra, -, hmap⟩ := hmap
    split at hmap
    · cases hmap
      exact h
    · split at hmap
      next t e he =>
        cases hmap
        obtain ⟨⟨fs, rfl⟩, -⟩ := mmapFile_cases he
        exact h.setFiles (mmapFile_same he)
      next t file he =>
        obtain ⟨⟨fs, rfl⟩, -⟩ := mmapFile_cases he
        have hf := h.setFiles (mmapFile_same he)
        simp only [Option.bind_eq_some_iff, Prod.exists] at hmap
        obtain ⟨s₁, r₁, hm, hret⟩ := hmap
        have h₁ : AtRest C held s₁ := vmmap_map_rest hf (h.live.maps p pr hpr) (Bool.eq_not.2 hkind) (roundLen_pages hlen) hm
        cases r₁ with
        | error e => cases hret
        | ok start => exact mmapReturn_rest (r := (s₁, .ok start)) h₁ hret

/-! ## The pages of the first growth -/

/-- There is room for `n` pages. -/
def Gap (C : Config) (l : List VmArea) (n : Nat) : Prop := ∃ start, C.low ≤ start ∧ start + n ≤ C.high ∧ RangeFree l start (start + n)

/-- What `do_brk` maps. -/
def heapProt : Prot := { read := true, write := true }
def heapFlags : MapFlags := { priv := true, anon := true }

/-- `do_brk` maps the pages of the first growth in a gap, if there is one. -/
theorem brk_mmap (addr : Nat) (h : AtRest C held s) (hpr : s.procs p = some pr) (hn : n ≤ C.high) :
    (∃ e, do_mmap C s p addr (PN_TO_ADDR n) heapProt heapFlags (-1) 0 = some (s, .error e) ∧
      ¬ (0 < n ∧ Gap C (s.vmm_list pr.p_vmmap) n)) ∨
    ∃ s' start, do_mmap C s p addr (PN_TO_ADDR n) heapProt heapFlags (-1) 0 = some (s', .ok (start * PAGE_SIZE)) ∧ 0 < n ∧
      C.low ≤ start ∧ start + n ≤ C.high ∧ RangeFree (s.vmm_list pr.p_vmmap) start (start + n) ∧
      MappedAt s s' pr.p_vmmap start n heapProt heapFlags := by
  have hC := C.high_lt
  have haddr : PN_TO_ADDR n = n * PAGE_SIZE := u32_of_lt (by unfold PAGE_SIZE; omega)
  have hround : roundLen (n * PAGE_SIZE) = n * PAGE_SIZE := by
    unfold roundLen
    rw [if_pos (by simp [PAGE_ALIGNED])]
  have hpn : ADDR_TO_PN (n * PAGE_SIZE) = n := Nat.mul_div_cancel _ (by decide)
  have hlen : n * PAGE_SIZE < 2 ^ 32 := by
    unfold PAGE_SIZE
    omega
  have hfile : mmapFile C s pr (n * PAGE_SIZE) heapProt heapFlags (-1) 0 = (s, .ok none) := rfl
  rw [haddr]
  rcases Nat.eq_zero_or_pos n with rfl | hpos
  · refine .inl ⟨.EINVAL, ?_, fun h => absurd h.1 (Nat.lt_irrefl 0)⟩
    simp only [do_mmap, hpr, bind, Option.bind_some]
    rfl
  · have hne : n * PAGE_SIZE ≠ 0 := by
      unfold PAGE_SIZE
      omega
    rcases vmmap_find_range_lohi (h.backing.layout.areas pr.p_vmmap) ⟨hpos, by omega⟩ with
      ⟨start, he, hlow, hhigh, hfree⟩ | ⟨he, hnone⟩
    · have hplace : PN_TO_ADDR start = start * PAGE_SIZE := u32_of_lt (by unfold PAGE_SIZE; omega)
      have hstart : ADDR_TO_PN (start * PAGE_SIZE) = start := Nat.mul_div_cancel _ (by decide)
      have hpass : MmapPasses C s pr addr (n * PAGE_SIZE) heapProt heapFlags (-1) 0 s (start * PAGE_SIZE) none := by
        refine ⟨rfl, rfl, by rw [hround]; exact hne, rfl, ?_, by rw [hround]; exact hfile⟩
        unfold mmapAddr
        rw [hround, hpn, he, ← hplace]
        simp only [heapFlags, Bool.not_false, if_true, bind, Option.bind_some, Int.toNat_natCast]
        rw [if_neg (by omega), if_neg (by omega)]
      obtain ⟨hret, hmapped⟩ := do_mmap_returns h hpr hlen hpass
      rw [hround, hpn, hstart] at hret hmapped
      have hok := h.backing.layout.areas pr.p_vmmap
      obtain ⟨⟨s', r⟩, hr⟩ := hret.2 ⟨rfl, hlow, hhigh, fun vn hvn => (by cases hvn), RangeFree.removable hfree hpos hok.sorted⟩
      obtain ⟨e, hM⟩ := hmapped _ hr
      simp only at e
      subst e
      exact .inr ⟨s', start, hr, hpos, hlow, hhigh, hfree, hM⟩
    · have hno : ¬ (0 < n ∧ Gap C (s.vmm_list pr.p_vmmap) n) := by
        rintro ⟨-, start, h1, h2, h3⟩
        exact hnone start h1 h2 h3
      refine .inl ⟨.EINVAL, ?_, hno⟩
      have haddr : mmapAddr C (s.vmm_list pr.p_vmmap) addr (n * PAGE_SIZE) heapFlags = some (.error .EINVAL) := by
        unfold mmapAddr
        rw [hpn, he]
        rfl
      unfold do_mmap
      simp only [hpr, bind, Option.bind_some, hround, hne, haddr]
      rfl

/-! ## What `do_brk` does -/

/-- An area may grow over free pages. -/
theorem Backing.grow (h : Backing C held s) {fin : Nat} (ha : a ∈ s.vmm_list m) (hlt : a.vma_end ≤ fin) (hhigh : fin ≤ C.high)
    (hfree : RangeFree (s.vmm_list m) a.vma_end fin) : Backing C held (s.modArea m a.vma_id (VmArea.cutEnd fin)) := by
  have hL := h.layout.grow ha hlt hhigh hfree
  have hm := h.layout.created ha
  obtain ⟨pre, l, hlist⟩ := List.append_of_mem ha
  have hnd := h.layout.ids m
  rw [hlist] at hnd
  rw [modArea_eq hlist hnd] at hL ⊢
  refine ⟨hL, h.chains.congr rfl rfl, h.frames.congr rfl rfl rfl rfl rfl rfl, h.idle, h.hung.trim h.layout hlist rfl rfl rfl, ?_, h.num⟩
  refine h.counted.replace (q := [a.cutEnd fin]) hm hlist (by simp [State.setList]) rfl rfl rfl fun x => ?_
  by_cases e : a.vma_obj = some x
  · simp [e, State.setList, VmArea.cutEnd]
  · simp [e, State.setList, VmArea.cutEnd]

/-- The first checks of `do_brk` pass. -/
structure BrkInside (C : Config) (pr : Proc) (addr : Nat) : Prop where
  set : addr ≠ 0
  start : pr.p_start_brk ≤ addr
  high : addr ≤ C.USER_MEM_HIGH

/-- The outcomes of `do_brk`. The first growth maps its pages wherever they fit. -/
inductive BrkEffect (C : Config) (s : State) (p : Nat) (pr : Proc) (addr : Nat) : State → Except Errno Nat → Prop
  | query : addr = 0 → BrkEffect C s p pr addr s (.ok (s.p_brk p))
  | refused {e} : addr ≠ 0 → BrkEffect C s p pr addr s (.error e)
  | elsewhere {start u} : BrkInside C pr addr → vmmap_lookup (s.vmm_list pr.p_vmmap) (ADDR_TO_PN pr.p_start_brk) = none →
      ADDR_TO_PN pr.p_start_brk < ADDR_TO_PN addr →
      Gap C (s.vmm_list pr.p_vmmap) (ADDR_TO_PN addr - ADDR_TO_PN pr.p_start_brk) →
      do_mmap C s p (PN_TO_ADDR (ADDR_TO_PN pr.p_start_brk)) (PN_TO_ADDR (ADDR_TO_PN addr - ADDR_TO_PN pr.p_start_brk)) heapProt
        heapFlags (-1) 0 = some (u, .ok (start * PAGE_SIZE)) →
      MappedAt s u pr.p_vmmap start (ADDR_TO_PN addr - ADDR_TO_PN pr.p_start_brk) heapProt heapFlags →
      BrkEffect C s p pr addr (setBrk u p addr) (.ok addr)
  | stay {c} : BrkInside C pr addr → vmmap_lookup (s.vmm_list pr.p_vmmap) (ADDR_TO_PN pr.p_start_brk) = some c →
      ADDR_TO_PN (s.p_brk p) = ADDR_TO_PN addr → BrkEffect C s p pr addr (setBrk s p addr) (.ok addr)
  | grow {c d} : BrkInside C pr addr → vmmap_lookup (s.vmm_list pr.p_vmmap) (ADDR_TO_PN pr.p_start_brk) = some c →
      ADDR_TO_PN (s.p_brk p) < ADDR_TO_PN addr → vmmap_lookup (s.vmm_list pr.p_vmmap) (ADDR_TO_PN (s.p_brk p)) = some d →
      d.vma_end < ADDR_TO_PN addr + 1 → ADDR_TO_PN addr + 1 ≤ C.high →
      RangeFree (s.vmm_list pr.p_vmmap) d.vma_end (ADDR_TO_PN addr + 1) →
      BrkEffect C s p pr addr (setBrk (s.modArea pr.p_vmmap d.vma_id (VmArea.cutEnd (ADDR_TO_PN addr + 1))) p addr) (.ok addr)
  | shrink {c u} : BrkInside C pr addr → vmmap_lookup (s.vmm_list pr.p_vmmap) (ADDR_TO_PN pr.p_start_brk) = some c →
      ADDR_TO_PN addr < ADDR_TO_PN (s.p_brk p) →
      vmmap_remove C s p pr.p_vmmap (ADDR_TO_PN addr + 1) (ADDR_TO_PN (s.p_brk p) - ADDR_TO_PN addr) = some u →
      BrkEffect C s p pr addr (setBrk u p addr) (.ok addr)

/-- The page of an address the checks let pass. -/
theorem BrkInside.pages (h : BrkInside C pr addr) : ADDR_TO_PN pr.p_start_brk ≤ ADDR_TO_PN addr ∧ ADDR_TO_PN addr ≤ C.high := by
  have h1 := h.high
  refine ⟨Nat.div_le_div_right h.start, ?_⟩
  unfold Config.USER_MEM_HIGH PAGE_SIZE at h1
  unfold ADDR_TO_PN PAGE_SIZE
  omega

theorem do_brk_effect {r : Except Errno Nat} (h : AtRest C held s) (hb : do_brk C s p addr = some (s', r)) :
    ∃ pr, s.procs p = some pr ∧ BrkEffect C s p pr addr s' r := by
  have hC := C.high_lt
  simp only [do_brk, bind, Option.bind_eq_some_iff] at hb
  obtain ⟨pr, hpr, hb⟩ := hb
  refine ⟨pr, hpr, ?_⟩
  split at hb
  next h0 =>
    cases hb
    exact .query h0
  next h0 =>
    split at hb
    · cases hb
      exact .refused h0
    next hstart =>
      split at hb
      · cases hb
        exact .refused h0
      next hhigh =>
        have hin : BrkInside C pr addr := ⟨h0, Nat.not_lt.1 hstart, Nat.not_lt.1 hhigh⟩
        obtain ⟨hS, hF⟩ := hin.pages
        split at hb
        next hnone =>
          rw [usub_of_le hS (by omega)] at hb
          rcases brk_mmap (PN_TO_ADDR (ADDR_TO_PN pr.p_start_brk)) h hpr
            (show ADDR_TO_PN addr - ADDR_TO_PN pr.p_start_brk ≤ C.high by omega) with ⟨e, he, -⟩ |
              ⟨u, start, he, hpos, h1, h2, h3, hM⟩
          · have hb := (congrArg (Option.bind · _) he).symm.trans hb
            cases hb
            exact .refused h0
          · have hb := (congrArg (Option.bind · _) he).symm.trans hb
            cases hb
            exact .elsewhere hin hnone (by omega) ⟨start, h1, h2, h3⟩ he hM
        next c hc =>
          split at hb
          next heq =>
            cases hb
            exact .stay hin hc heq
          next hne =>
            split at hb
            next hlt =>
              simp only [Option.bind_eq_some_iff] at hb
              obtain ⟨d, hd, e, he, hb⟩ := hb
              obtain ⟨⟨h1, -, h3⟩, h4⟩ := vmmap_is_range_empty_eq (h.backing.layout.areas pr.p_vmmap) he
              have hmem : d ∈ s.vmm_list pr.p_vmmap := List.mem_of_find?_eq_some hd
              have hend := (h.backing.layout.areas pr.p_vmmap).high d hmem
              have hfin : u32 (d.vma_end + usub (1 + ADDR_TO_PN addr) d.vma_end) = ADDR_TO_PN addr + 1 := by
                unfold u32 usub at h1 h3 ⊢
                omega
              rw [hfin] at h1 h3 h4
              split at hb
              next hb' =>
                cases hb
                rw [Nat.add_comm 1]
                exact .grow hin hc hlt hd h1 h3 (h4.1 hb')
              next =>
                cases hb
                exact .refused h0
            next hge =>
              simp only [Option.bind_eq_some_iff] at hb
              obtain ⟨u, hr, hb⟩ := hb
              cases hb
              exact .shrink hin hc (by omega) hr

/-! ## The calls of a process -/

inductive HeapOp
  | mmap (addr len : Nat) (prot : Prot) (flags : MapFlags) (fd : Int) (off : Nat)
  | munmap (addr len : Nat)
  | brk (addr : Nat)

/-- One call of process `p`. -/
def heapStep (C : Config) (p : Nat) (s : State) : HeapOp → Option (State × Except Errno Nat)
  | .mmap addr len prot flags fd off => do_mmap C s p addr len prot flags fd off
  | .munmap addr len => do_munmap C s p addr len
  | .brk addr => do_brk C s p addr

/-- Addresses and lengths have 32 bits. -/
def HeapOp.Bounded : HeapOp → Prop
  | .mmap addr len _ _ _ _ => addr < 2 ^ 32 ∧ len < 2 ^ 32
  | .munmap addr len => addr < 2 ^ 32 ∧ len < 2 ^ 32
  | .brk addr => addr < 2 ^ 32

instance (op : HeapOp) : Decidable op.Bounded := by
  cases op <;> unfold HeapOp.Bounded <;> infer_instance

theorem BrkEffect.rest {r : Except Errno Nat} (he : BrkEffect C s p pr addr s' r) (h : AtRest C held s) (hbrk : s.p_brk p < 2 ^ 32) :
    AtRest C held s' := by
  cases he with
  | query => exact h
  | refused => exact h
  | elsewhere hin _ _ _ hm => exact (do_mmap_rest h (Nat.mod_lt _ (by decide)) hm).setBrk _
  | stay => exact h.setBrk _
  | @grow c d hin _ hlt hd hend hhigh hfree =>
    have hmem : d ∈ s.vmm_list pr.p_vmmap := List.mem_of_find?_eq_some hd
    have hB := h.backing.grow hmem hend.le hhigh hfree
    have hrest : AtRest C held (s.modArea pr.p_vmmap d.vma_id (VmArea.cutEnd (ADDR_TO_PN addr + 1))) :=
      h.keep hB (fun _ _ ho => ho) (fun _ pr hpr => ⟨pr, hpr, rfl⟩) rfl rfl .rfl
    exact hrest.setBrk _
  | shrink hin _ hlt hr =>
    have hB : ADDR_TO_PN (s.p_brk p) < 2 ^ 20 := by
      unfold ADDR_TO_PN PAGE_SIZE
      omega
    exact AtRest.setBrk (vmmap_remove_rest h (by omega) hr) _

/-- `do_mmap` changes no process and no break. -/
theorem do_mmap_procs {r : Except Errno Nat} (hL : Layout C s) (hlen : len < 2 ^ 32)
    (hmap : do_mmap C s p addr len prot flags fd off = some (s', r)) : s'.procs = s.procs ∧ s'.p_brk = s.p_brk := by
  obtain ⟨pr, hpr, heff⟩ := do_mmap_effect hmap
  cases heff with
  | failed => exact ⟨rfl, rfl⟩
  | @mapped fs fs' file lopage start s₁ _ _ hm =>
    obtain ⟨-, he⟩ := vmmap_map_effect (s := s.setFiles fs) hL.setFiles (roundLen_pages hlen) hm
    obtain ⟨l, n, hsp⟩ := he.spaces (s := s.setFiles fs) hL.setFiles
    exact ⟨(congrArg Spaces.procs hsp :), (congrArg Spaces.p_brk hsp :)⟩

theorem BrkEffect.procs {r : Except Errno Nat} (he : BrkEffect C s p pr addr s' r) (hL : Layout C s) (hbrk : s.p_brk p < 2 ^ 32) :
    s'.procs = s.procs := by
  cases he with
  | query => rfl
  | refused => rfl
  | elsewhere _ _ _ _ hm => exact (do_mmap_procs hL (Nat.mod_lt _ (by decide)) hm).1
  | stay => rfl
  | grow => rfl
  | shrink _ _ hlt hr =>
    have hB : ADDR_TO_PN (s.p_brk p) < 2 ^ 20 := by
      unfold ADDR_TO_PN PAGE_SIZE
      omega
    exact (congrArg Spaces.procs (vmmap_remove_list (by omega) hL hr) :)

theorem heapStep_rest {op : HeapOp} {w : Except Errno Nat} (h : AtRest C held s) (hbrk : s.p_brk p < 2 ^ 32) (hop : op.Bounded)
    (hst : heapStep C p s op = some (s', w)) : AtRest C held s' ∧ s'.p_brk p < 2 ^ 32 := by
  cases op with
  | mmap addr len prot flags fd off =>
    have hmap : do_mmap C s p addr len prot flags fd off = some (s', w) := hst
    refine ⟨do_mmap_rest h hop.2 hmap, ?_⟩
    rw [(do_mmap_procs h.backing.layout hop.2 hmap).2]
    exact hbrk
  | munmap addr len =>
    rcases do_munmap_cases hst with ⟨rfl, -⟩ | ⟨pr, hpr, hr, -⟩
    · exact ⟨h, hbrk⟩
    · have hlt := munmap_bound hop.1 hop.2
      refine ⟨vmmap_remove_rest h hlt hr, ?_⟩
      rw [show s'.p_brk = s.p_brk from (congrArg Spaces.p_brk (vmmap_remove_list hlt h.backing.layout hr) :)]
      exact hbrk
  | brk addr =>
    obtain ⟨pr, hpr, he⟩ := do_brk_effect h hst
    refine ⟨he.rest h hbrk, ?_⟩
    have hset {u : State} : (setBrk u p addr).p_brk p < 2 ^ 32 := by
      rw [show (setBrk u p addr).p_brk p = addr from Function.update_self ..]
      exact hop
    cases he with
    | query => exact hbrk
    | refused => exact hbrk
    | elsewhere => exact hset
    | stay => exact hset
    | grow => exact hset
    | shrink => exact hset

theorem run_rest {s₀ : State} {tr : List (HeapOp × Except Errno Nat)} {ok : State → HeapOp → Prop} (h₀ : AtRest C held s₀)
    (hbrk : s₀.p_brk p < 2 ^ 32) (hok : ∀ s op, ok s op → op.Bounded) (h : Run (heapStep C p) ok s₀ s tr) :
    AtRest C held s ∧ s.p_brk p < 2 ^ 32 :=
  h.inv (fun s => AtRest C held s ∧ s.p_brk p < 2 ^ 32) ⟨h₀, hbrk⟩ fun _ _ _ _ hI hop hst => heapStep_rest hI.1 hI.2 (hok _ _ hop) hst

/-- The first process as the loader leaves it, with its break at `start`. -/
def loaded (start : Nat) : State :=
  match oneProcess.procs 0 with
  | some pr => oneProcess.withBreak 0 pr start start
  | none => oneProcess

theorem loaded_rest (C : Config) (start : Nat) : ∃ held, AtRest C held (loaded start) := by
  obtain ⟨held, h⟩ := oneFile_booted.spawned (C := C) fun _ => rfl
  obtain ⟨pr, hpr⟩ : ∃ pr, oneProcess.procs 0 = some pr := ⟨_, rfl⟩
  refine ⟨held, ?_⟩
  unfold loaded
  rw [hpr]
  exact AtRest.withBreak (s := oneProcess) h hpr start start

/-- The data page `0x402` of a process. -/
def dataPage : HeapOp := .mmap 0x402000 4096 heapProt { heapFlags with fixed := true } (-1) 0

end Weenix.Vm
