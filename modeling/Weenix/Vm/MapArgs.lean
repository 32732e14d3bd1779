import Weenix.Vm.MapObjects
/-!
# The arguments of `mmap` and `munmap`

Both calls check their range with the 32-bit sum of address and length, which
wraps around. `map_calls_safe_iff` says for which arguments a call ends as it
should: with an error, or with exactly the pages of a range in user memory
mapped or unmapped.
-/

namespace Weenix.Vm

open Lib Lib.Intervals

variable {C : Config} {s s' t : State} {p m lo n addr len off : Nat} {pr : Proc} {prot : Prot} {flags : MapFlags} {fd : Int}
  {held : Nat → Int}

/-- The pages of `len` bytes. -/
def pagesOf (len : Nat) : Nat := (len + PAGE_SIZE - 1) / PAGE_SIZE

theorem pagesOf_eq (hlen : len < 2 ^ 32) (h : roundLen len ≠ 0) : ADDR_TO_PN (roundLen len) = pagesOf len :=
  ((roundLen_eq hlen).2 h).1

/-! ## How the calls should end -/

/-- The pages `[lo, lo + n)` of map `m` are unmapped; every other page is mapped as it was. -/
structure UnmappedAt (s s' : State) (m lo n : Nat) : Prop where
  inside : ∀ v, lo ≤ v → v < lo + n → vmmap_lookup (s'.vmm_list m) v = none
  outside : ∀ v, v < lo ∨ lo + n ≤ v →
    (vmmap_lookup (s'.vmm_list m) v).map (VmArea.target v) = (vmmap_lookup (s.vmm_list m) v).map (VmArea.target v)
  others : ∀ k, k ≠ m → s'.vmm_list k = s.vmm_list k

/-- `do_mmap` refuses, with nothing changed but open files, or maps a range in user memory. -/
inductive MmapEnds (C : Config) (s : State) (pr : Proc) (addr len : Nat) (prot : Prot) (flags : MapFlags) :
    State × Except Errno Nat → Prop
  | refused {fs e} : MmapEnds C s pr addr len prot flags (s.setFiles fs, .error e)
  | mapped {u start} : C.low ≤ start → start + pagesOf len ≤ C.high → (flags.fixed = true → addr = start * PAGE_SIZE) →
      MappedAt s u pr.p_vmmap start (pagesOf len) prot flags →
      MmapEnds C s pr addr len prot flags (u, .ok (start * PAGE_SIZE))

/-- `do_munmap` refuses, with nothing changed, or unmaps a range in user memory. -/
inductive MunmapEnds (C : Config) (s : State) (pr : Proc) (addr len : Nat) : State × Except Errno Nat → Prop
  | refused {e} : MunmapEnds C s pr addr len (s, .error e)
  | unmapped {u start} : C.low ≤ start → start + pagesOf len ≤ C.high → addr = start * PAGE_SIZE →
      UnmappedAt s u pr.p_vmmap start (pagesOf len) → MunmapEnds C s pr addr len (u, .ok 0)

/-! ## When they do -/

/-- If its checks pass: the protection has known bits only, the end of a fixed range does not wrap around, the file
gives an object, and every area that has to be looked into has one. -/
def MmapSafe (C : Config) (s : State) (pr : Proc) (addr len : Nat) (prot : Prot) (flags : MapFlags) (fd : Int) (off : Nat) : Prop :=
  ∀ t place file, MmapPasses C s pr addr len prot flags fd off t place file →
    prot.other = false ∧ (flags.fixed = true → addr + roundLen len < 2 ^ 32) ∧ Maps s (file.map (·.2)) ∧
      Removable (s.vmm_list pr.p_vmmap) (ADDR_TO_PN place) (ADDR_TO_PN place + pagesOf len)

/-- The checks of `do_munmap` pass. -/
structure MunmapPasses (C : Config) (addr len : Nat) : Prop where
  aligned : PAGE_ALIGNED addr = true
  pages : roundLen len ≠ 0
  stop : u32 (addr + roundLen len) ≤ C.USER_MEM_HIGH
  high : addr ≤ C.USER_MEM_HIGH
  low : C.USER_MEM_LOW ≤ addr

/-- If its checks pass: the end of the range does not wrap around, and every area that has to be looked into has an object. -/
def MunmapSafe (C : Config) (s : State) (pr : Proc) (addr len : Nat) : Prop :=
  MunmapPasses C addr len → addr + roundLen len < 2 ^ 32 ∧
    Removable (s.vmm_list pr.p_vmmap) (ADDR_TO_PN addr) (ADDR_TO_PN addr + pagesOf len)

/-- What `vmmap_map` needs is what the checks leave open. -/
theorem mappable_iff_safe {place : Nat} {file : Option Nat} (hat : MmapPlace C (s.vmm_list m) addr len flags place)
    (hlen : len < 2 ^ 32) (h0 : roundLen len ≠ 0) : Mappable C s m file (ADDR_TO_PN place) (pagesOf len) prot ↔
      prot.other = false ∧ (flags.fixed = true → addr + roundLen len < 2 ^ 32) ∧ Maps s file ∧
        Removable (s.vmm_list m) (ADDR_TO_PN place) (ADDR_TO_PN place + pagesOf len) := by
  have hC := C.high_lt
  have hpage := hat.page
  have hround := (roundLen_eq hlen).1
  have hn := pagesOf_eq hlen h0
  constructor
  · intro h
    refine ⟨h.prot, fun hf => ?_, h.file, h.removable⟩
    have h1 := h.high
    obtain ⟨rfl, -⟩ := hat.fixed hf
    unfold PAGE_SIZE at *
    omega
  · rintro ⟨h1, h2, h3, h4⟩
    refine ⟨h1, hat.low, ?_, h3, h4⟩
    cases hf : flags.fixed with
    | false =>
      rw [← hn]
      exact (hat.gap hf).1
    | true =>
      obtain ⟨rfl, hhigh⟩ := hat.fixed hf
      rw [u32_of_lt (h2 hf)] at hhigh
      unfold Config.USER_MEM_HIGH at hhigh
      unfold PAGE_SIZE at *
      omega

theorem do_mmap_safe_iff (h : AtRest C held s) (hpr : s.procs p = some pr) (hlen : len < 2 ^ 32) :
    (∃ r, do_mmap C s p addr len prot flags fd off = some r ∧ MmapEnds C s pr addr len prot flags r) ↔
      MmapSafe C s pr addr len prot flags fd off := by
  rcases do_mmap_eq addr off prot flags fd h.backing.layout hpr hlen with
    ⟨fs, e, he, hno⟩ | ⟨t, place, file, hp, -⟩
  · exact ⟨fun _ t place file hp => absurd hp (hno t place file), fun _ => ⟨_, he, .refused⟩⟩
  · obtain ⟨hret, hmapped⟩ := do_mmap_returns h hpr hlen hp
    have hat := hp.at h.backing.layout hlen
    have hn := pagesOf_eq hlen hp.pages
    rw [hn] at hret hmapped
    have hiff : Mappable C s pr.p_vmmap (file.map (·.2)) _ _ prot ↔ _ := mappable_iff_safe hat hlen hp.pages
    constructor
    · rintro ⟨r, hr, -⟩ t' place' file' hp'
      have h1 := hp'.place.symm.trans hp.place
      cases h1
      have h2 := hp'.file.symm.trans hp.file
      cases h2
      exact hiff.1 (hret.1 ⟨r, hr⟩)
    · intro hsafe
      have hM := hiff.2 (hsafe t place file hp)
      obtain ⟨⟨s', r⟩, hr⟩ := hret.2 hM
      obtain ⟨e, hmap⟩ := hmapped _ hr
      have hpage : place = ADDR_TO_PN place * PAGE_SIZE := hat.page
      simp only at e hmap
      subst e
      refine ⟨_, hr, ?_⟩
      rw [hpage]
      exact .mapped hM.low hM.high (fun hf => by rw [← hpage]; exact (hat.fixed hf).1.symm) hmap

/-- Removing pages unmaps them and no others. -/
theorem vmmap_remove_at (hL : Layout C s) (hlt : lo + n < 2 ^ 32) (hr : vmmap_remove C s p m lo n = some s') :
    UnmappedAt s s' m lo n := by
  have hlist : s'.vmm_list = Function.update s.vmm_list m ((s.vmm_list m).flatMap (pieces m s.nareas lo (lo + n))) :=
    congrArg Spaces.vmm_list (vmmap_remove_list hlt hL hr)
  constructor
  · intro v h1 h2
    rw [hlist, Function.update_self]
    exact lookup_gone (hL.areas m) (Nat.le_add_right _ _) h1 h2
  · intro v hv
    rw [hlist, Function.update_self]
    exact lookup_kept (hL.areas m) (Nat.le_add_right _ _) hv
  · intro k hk
    rw [hlist, Function.update_of_ne hk]

theorem do_munmap_safe_iff (h : AtRest C held s) (hpr : s.procs p = some pr) (hlen : len < 2 ^ 32) :
    (∃ r, do_munmap C s p addr len = some r ∧ MunmapEnds C s pr addr len r) ↔ MunmapSafe C s pr addr len := by
  have hC := C.high_lt
  have hround := (roundLen_eq hlen).1
  unfold do_munmap
  simp only [hpr, bind, Option.bind_some]
  split
  next hal => exact ⟨fun _ hp => by simp [hp.aligned] at hal, fun _ => ⟨_, rfl, .refused⟩⟩
  next hal =>
    split
    next h0 => exact ⟨fun _ hp => absurd h0 hp.pages, fun _ => ⟨_, rfl, .refused⟩⟩
    next h0 =>
      have hn := pagesOf_eq hlen h0
      split
      next hout =>
        refine ⟨fun _ hp => ?_, fun _ => ⟨_, rfl, .refused⟩⟩
        have h1 := hp.stop
        have h2 := hp.high
        have h3 := hp.low
        omega
      next hin =>
        simp only [not_or, Nat.not_lt] at hin
        have hp : MunmapPasses C addr len := ⟨by simpa using hal, h0, hin.1, hin.2.1, hin.2.2⟩
        have hpage : addr = ADDR_TO_PN addr * PAGE_SIZE := by
          have : addr % PAGE_SIZE = 0 := by simpa [PAGE_ALIGNED] using hal
          simp only [ADDR_TO_PN, PAGE_SIZE] at this ⊢
          omega
        obtain ⟨hstop, hhigh, hlow⟩ := hin
        unfold Config.USER_MEM_HIGH at hstop hhigh
        unfold Config.USER_MEM_LOW at hlow
        have hlt : ADDR_TO_PN addr + pagesOf len < 2 ^ 32 := by
          have := roundLen_pages hlen
          unfold PAGE_SIZE at *
          omega
        rw [hn]
        constructor
        · rintro ⟨r, hr, hend⟩ -
          obtain ⟨s', hrem, hr⟩ := Option.bind_eq_some_iff.1 hr
          cases hr
          refine ⟨?_, (vmmap_remove_returns_iff h.backing h.outside.nonneg hlt).1 ⟨s', hrem⟩⟩
          cases hend with
          | unmapped _ hhi ha =>
            rw [hn] at hround
            unfold PAGE_SIZE at *
            omega
        · intro hsafe
          obtain ⟨hnowrap, hrem⟩ := hsafe hp
          obtain ⟨s', hr⟩ := (vmmap_remove_returns_iff (p := p) h.backing h.outside.nonneg hlt).2 hrem
          refine ⟨(s', .ok 0), by rw [hr]; rfl, .unmapped ?_ ?_ hpage
            (vmmap_remove_at h.backing.layout hlt hr)⟩
          · unfold PAGE_SIZE at *
            omega
          · rw [u32_of_lt hnowrap] at hstop
            rw [hn] at hround
            unfold PAGE_SIZE at *
            omega

/-- Whatever the arguments, `do_mmap` and `do_munmap` end as they should exactly when the arguments are safe. -/
theorem map_calls_safe_iff (h : AtRest C held s) (hpr : s.procs p = some pr) (hlen : len < 2 ^ 32) :
    ((∃ r, do_mmap C s p addr len prot flags fd off = some r ∧ MmapEnds C s pr addr len prot flags r) ↔
      MmapSafe C s pr addr len prot flags fd off) ∧
    ((∃ r, do_munmap C s p addr len = some r ∧ MunmapEnds C s pr addr len r) ↔ MunmapSafe C s pr addr len) :=
  ⟨do_mmap_safe_iff h hpr hlen, do_munmap_safe_iff h hpr hlen⟩

/-- The map of the first process is empty. -/
theorem oneProcess_empty (hpr : oneProcess.procs 0 = some pr) : oneProcess.vmm_list pr.p_vmmap = [] := by
  cases hpr
  rfl

/-- A fixed mapping in an empty map, and its removal, end as they should. -/
theorem fixed_mapping_safe : ∃ pr, oneProcess.procs 0 = some pr ∧
    (∃ r, do_mmap .stock oneProcess 0 0x400000 8192 { read := true } { priv := true, anon := true, fixed := true } (-1) 0 = some r ∧
      MmapEnds .stock oneProcess pr 0x400000 8192 { read := true } { priv := true, anon := true, fixed := true } r) ∧
    ∃ r, do_munmap .stock oneProcess 0 0x400000 8192 = some r ∧ MunmapEnds .stock oneProcess pr 0x400000 8192 r := by
  obtain ⟨pr, hpr⟩ : ∃ pr, oneProcess.procs 0 = some pr := ⟨_, rfl⟩
  obtain ⟨held, h⟩ := oneFile_booted.spawned (C := .stock) fun _ => rfl
  obtain ⟨h1, h2⟩ := @map_calls_safe_iff .stock oneProcess 0 0x400000 8192 0 pr { read := true }
    { priv := true, anon := true, fixed := true } (-1) held h hpr (by decide)
  have hnone : ∀ lo fin, Removable (oneProcess.vmm_list pr.p_vmmap) lo fin := fun lo fin a ha => by
    rw [oneProcess_empty hpr] at ha
    cases ha
  refine ⟨pr, hpr, h1.2 fun t place file hp => ⟨rfl, fun _ => by decide, fun vn hvn => ?_, hnone _ _⟩,
    h2.2 fun _ => ⟨by decide, hnone _ _⟩⟩
  have hfile := hp.file
  cases hfile
  cases hvn

/-- A protection bit that is not known, or a fixed range that ends at `2^32`, fails an assertion; the same range is
unmapped beyond user memory. -/
theorem map_calls_unsafe :
    do_mmap .stock oneProcess 0 0 4096 { read := true, other := true } { priv := true, anon := true } (-1) 0 = none ∧
    do_mmap .stock oneProcess 0 0x400000 0xffc00000 { read := true } { priv := true, anon := true, fixed := true } (-1) 0 = none ∧
    ∃ s', do_munmap .stock oneProcess 0 0x400000 0xffc00000 = some (s', .ok 0) ∧
      ∀ pr, ¬ MunmapEnds .stock oneProcess pr 0x400000 0xffc00000 (s', .ok 0) := by
  have h1 : (do_mmap .stock oneProcess 0 0 4096 { read := true, other := true } { priv := true, anon := true } (-1) 0).isNone = true := by
    decide +kernel
  have h2 : (do_mmap .stock oneProcess 0 0x400000 0xffc00000 { read := true } { priv := true, anon := true, fixed := true } (-1)
      0).isNone = true := by
    decide +kernel
  have h3 : (do_munmap .stock oneProcess 0 0x400000 0xffc00000).map (fun r => r.2.toOption) = some (some 0) := by
    decide +kernel
  refine ⟨Option.isNone_iff_eq_none.1 h1, Option.isNone_iff_eq_none.1 h2, ?_⟩
  obtain ⟨⟨s', r⟩, hm, hr⟩ := Option.map_eq_some_iff.1 h3
  cases r with
  | error e => cases hr
  | ok n =>
    cases hr
    refine ⟨s', hm, fun pr hend => ?_⟩
    cases hend with
    | unmapped hlow hhigh =>
      have e : pagesOf 0xffc00000 = 0xffc00 := by decide
      rw [e] at hhigh
      simp only [Config.stock] at hlow hhigh
      omega

end Weenix.Vm
