import Weenix.Vm.Mappings
/-!
# The object of a new area

`vmmap_map` gives the new area a shadow object of its own, or the object of the
file. It gives none to a shared area without a file. `do_mmap_backed_iff` says
that `do_mmap` backs the new area exactly when it is not of that kind.
-/

namespace Weenix.Vm

open Lib Lib.Intervals

variable {C : Config} {s s' t : State} {o b m p lo npages : Nat} {a : VmArea} {l : List VmArea} {pr : Proc} {ob : Mmobj}
  {held : Nat → Int} {file : Option Nat} {flags : MapFlags}

/-! ## What backs an area -/

/-- The area `id` is on the list of the bottom object `b` of its object `o`: the
call from `s` to `s'` made them, or took its reference to the file's object. -/
structure Given (s s' : State) (file : Option Nat) (flags : MapFlags) (id o b : Nat) : Prop where
  bottom : s'.bottomOf o = some b
  listed : id ∈ s'.mmo_vmas b
  priv : flags.priv = true → s.objs o = none ∧ s'.objs o = some ⟨.shadow, some b, some b⟩ ∧ s'.mmo_refcount o = 1
  shared : flags.priv = false → o = b
  anon : file = none → s.objs b = none ∧ s'.objs b = some ⟨.anon, none, none⟩ ∧ s'.mmo_refcount b = 1
  file : ∀ vn, file = some vn → (s.vnodes vn).vn_mmap = some (.ok b)

/-- The references to `b` that come and go between `s` and `s'` are counted. -/
def Referenced (s s' : State) (b : Nat) : Prop := s'.mmo_refcount b + s.refsTo b = s.mmo_refcount b + s'.refsTo b

/-- The area `a` of `s'` has an object, made or taken a reference to since `s`. -/
def Backed (s s' : State) (file : Option Nat) (flags : MapFlags) (a : VmArea) : Prop :=
  ∃ o b, a.vma_obj = some o ∧ Given s s' file flags a.vma_id o b ∧ (file ≠ none → Referenced s s' b)

theorem Backing.referenced {ob' : Mmobj} (h : Backing C held s) (h' : Backing C held s') (hb : s.objs b = some ob)
    (hb' : s'.objs b = some ob') : Referenced s s' b := by
  have h1 := h.counted b ob hb
  have h2 := h'.counted b ob' hb'
  unfold Referenced
  omega

/-! ## Setting the object -/

theorem Chains.unused (hc : Chains s) {x : Nat} (hx : s.nobjs ≤ x) : s.objs x = none := by
  cases hob : s.objs x with
  | none => rfl
  | some ob =>
    have := hc.known x ob hob
    omega

/-- `attachObject` leaves the object out, or gives one. -/
theorem AttachEffect.given {area area' : VmArea} (h : AttachEffect s area file flags s' area') (hc : Chains s)
    (hfile : FileObjs s) : (flags.priv = false ∧ file = none ∧ area' = area) ∨
      (file = none → flags.priv = true) ∧ ∃ o b, area' = area.withObj (some o) ∧ Given s s' file flags area.vma_id o b := by
  cases h with
  | unset hp => exact .inl ⟨hp, rfl, rfl⟩
  | @shared vn o _ hp hvn =>
    obtain ⟨ob, hob, hisfile⟩ := hfile vn o hvn
    have hroot : s.bottomOf o = some o := hc.bottom_root hob fun e => by simp [Mmobj.isFile, e] at hisfile
    refine .inr ⟨fun h => (by cases h), o, o, rfl, hroot, ?_, fun h => ?_, fun _ => rfl, fun h => ?_, fun vn' h => ?_⟩
    · exact mem_linkVma.2 (.inr ⟨rfl, rfl⟩)
    · rw [hp] at h
      cases h
    · cases h
    · cases h
      exact hvn
  | anon hp =>
    have h1 : Fits s ⟨.anon, .none, .none⟩ := .anon
    have hc1 := hc.newObj h1
    have h2 : Fits (s.newObj ⟨.anon, .none, .none⟩) ⟨.shadow, some s.nobjs, some s.nobjs⟩ := .shadow h1.bottom_new
    refine .inr ⟨fun _ => hp, s.nobjs + 1, s.nobjs, rfl, h2.bottom_new, ?_, fun _ => ⟨?_, ?_, ?_⟩, fun h => ?_, fun _ => ⟨?_, ?_, ?_⟩,
      fun vn h => ?_⟩
    · exact mem_linkVma.2 (.inr ⟨rfl, rfl⟩)
    · exact hc.unused (Nat.le_succ _)
    · exact newObj_self (s := s.newObj ⟨.anon, .none, .none⟩)
    · exact Function.update_self ..
    · rw [hp] at h
      cases h
    · exact hc.unused le_rfl
    · exact hc1.old newObj_self
    · have hne : s.nobjs ≠ s.nobjs + 1 := Nat.ne_of_lt (Nat.lt_succ_self _)
      exact (Function.update_of_ne hne ..).trans (Function.update_self ..)
    · cases h
  | @file vn b _ hp hvn =>
    obtain ⟨ob, hob, hisfile⟩ := hfile vn b hvn
    have hroot : s.bottomOf b = some b := hc.bottom_root hob fun e => by simp [Mmobj.isFile, e] at hisfile
    have h1 : Fits (s.setRefcount b (s.mmo_refcount b + 1)) ⟨.shadow, some b, some b⟩ := .shadow hroot
    refine .inr ⟨fun _ => hp, _, b, rfl, h1.bottom_new, ?_, fun _ => ⟨?_, ?_, ?_⟩, fun h => ?_, fun h => ?_, fun vn' h => ?_⟩
    · exact mem_linkVma.2 (.inr ⟨rfl, rfl⟩)
    · exact hc.unused le_rfl
    · exact newObj_self
    · exact Function.update_self ..
    · rw [hp] at h
      cases h
    · cases h
    · cases h
      exact hvn

/-- The lists of areas and the objects before may be those of another state. -/
theorem Given.congr (h : Given t s' file flags a.vma_id o b) (h1 : t.objs = s.objs) (h2 : t.vnodes = s.vnodes) :
    Given s s' file flags a.vma_id o b :=
  ⟨h.bottom, h.listed, fun hp => by rw [← h1]; exact h.priv hp, h.shared, fun hf => by rw [← h1]; exact h.anon hf,
    fun vn hf => by rw [← h2]; exact h.file vn hf⟩

/-! ## Settled maps -/

theorem settled_room {s₁ : State} (hL : Layout C s) (hs : Settled s)
    (hfrom : s₁ = s.vmarea_alloc ∨ lo + npages < 2 ^ 32 ∧ vmmap_remove C s.vmarea_alloc p m lo npages = some s₁) : Settled s₁ := by
  rcases hfrom with rfl | ⟨hlt, hr⟩
  · exact hs.congr rfl
  · have hC := C.high_lt
    have hlist := vmmap_remove_list hlt (hL.more (Nat.le_succ _)) hr
    intro k d hd
    have hl : s₁.vmm_list = Function.update s.vmm_list m ((s.vmm_list m).flatMap (pieces m (s.nareas + 1) lo (lo + npages))) :=
      congrArg Spaces.vmm_list hlist
    rw [hl] at hd
    by_cases hk : k = m
    · subst hk
      rw [Function.update_self] at hd
      obtain ⟨c, hc, hd⟩ := List.mem_flatMap.1 hd
      have hend := (hL.areas k).high c hc
      have hp := pieceOf_mem (Nat.le_add_right _ _) ((hL.areas k).sorted.nonempty c hc) (by omega) hd
      rw [hp.obj]
      exact hs k c hc
    · rw [Function.update_of_ne hk] at hd
      exact hs k d hd

/-! ## Mapping -/

/-- The new area of `vmmap_map` is backed, except for a shared one without a file, which has no object. -/
theorem vmmap_map_backed {lopage off start : Nat} {prot : Prot} {dir : Dir} (h : Backing C held s) (hheld : ∀ o, 0 ≤ held o)
    (h0 : ∀ o, s.nobjs ≤ o → held o = 0) (hfile : FileObjs s) (hm : m < s.nmaps) (hkind : flags.shared = !flags.priv)
    (hn : npages ≤ 2 ^ 20) (hmap : vmmap_map C s p m file lopage npages prot flags off dir = some (s', .ok start)) :
    ∃ a ∈ s'.vmm_list m, a.vma_id = s.nareas ∧ a.vma_start = start ∧ (∀ c ∈ s'.vmm_list m, c.vma_id = s.nareas → c = a) ∧
      ((flags.priv = false ∧ file = none ∧ a.vma_obj = none) ∨
        (file = none → flags.priv = true) ∧ Backed s s' file flags a ∧ (Settled s → Settled s')) := by
  have hB := h.mapped hheld h0 hfile hm hkind hn hmap
  have honly {a : VmArea} (ha : a ∈ s'.vmm_list m) (hid : a.vma_id = s.nareas) : ∀ c ∈ s'.vmm_list m, c.vma_id = s.nareas → c = a :=
    fun c hc hid' => List.inj_on_of_nodup_map (hB.layout.ids m) hc ha (hid'.trans hid.symm)
  obtain ⟨⟨hpos, -⟩, heff⟩ := vmmap_map_effect h.layout hn hmap
  cases heff with
  | @mapped _ s₁ s₂ area hfrom hL₁ hroom _ hat =>
    obtain ⟨h₁, hobjs, -, hvn⟩ := h.room hheld hfrom
    have hmem : ({ area with vma_vmmap := some m } : VmArea) ∈
        (s₂.setList m (insertArea m area (s₂.vmm_list m))).vmm_list m := by
      rw [show (s₂.setList m (insertArea m area (s₂.vmm_list m))).vmm_list m = _ from Function.update_self ..]
      exact mem_insertArea.2 (.inl rfl)
    rcases (attachObject_effect hat).given h₁.chains (hfile.congr hvn hobjs) with ⟨hp, hnone, rfl⟩ | ⟨hp, o, b, rfl, hg⟩
    · exact ⟨_, hmem, rfl, rfl, honly hmem rfl, .inl ⟨hp, hnone, rfl⟩⟩
    · have hgiven : Given s s₂ file flags s.nareas o b :=
        Given.congr (a := newArea s.nareas start npages off prot flags) hg hobjs hvn
      have hlists : s₂.vmm_list = s₁.vmm_list := congrArg Spaces.vmm_list (attachObject_spaces hat).1
      refine ⟨_, hmem, rfl, rfl, honly hmem rfl, .inr ⟨hp, ⟨o, b, rfl, ⟨hgiven.bottom, hgiven.listed, hgiven.priv, hgiven.shared,
        hgiven.anon, hgiven.file⟩, fun hsome => ?_⟩, fun hs k d hd => ?_⟩⟩
      · obtain ⟨vn, hvn'⟩ := Option.ne_none_iff_exists'.1 hsome
        obtain ⟨ob, hob, -⟩ := hfile vn b (hgiven.file vn hvn')
        obtain ⟨ob', hob', -⟩ := hB.chains.bottom_obj hgiven.bottom
        exact h.referenced hB hob hob'
      · have hs₁ := settled_room h.layout hs hfrom
        by_cases hk : k = m
        · subst hk
          rw [show (s₂.setList k _).vmm_list k = _ from Function.update_self ..] at hd
          rcases mem_insertArea.1 hd with rfl | hd
          · exact ⟨o, rfl⟩
          · exact hs₁ k d (by rw [← hlists]; exact hd)
        · rw [show (s₂.setList m _).vmm_list k = s₂.vmm_list k from Function.update_of_ne hk ..] at hd
          exact hs₁ k d (by rw [← hlists]; exact hd)

/-- A successful `do_mmap` of process `p` backs the new area, and leaves every area with an object if every area had
one, exactly when the mapping is not both shared and anonymous. -/
theorem do_mmap_backed_iff {addr len off ret : Nat} {prot : Prot} {fd : Int} (h : AtRest C held s) (hpr : s.procs p = some pr)
    (hlen : len < 2 ^ 32) (hmap : do_mmap C s p addr len prot flags fd off = some (s', .ok ret)) :
    ((∃ file, MmapFile C s pr (roundLen len) prot flags fd off file ∧
        ∃ a ∈ s'.vmm_list pr.p_vmmap, a.vma_id = s.nareas ∧ a.vma_start = ADDR_TO_PN ret ∧ Backed s s' file flags a) ∧
      (Settled s → Settled s')) ↔ ¬ (flags.shared = true ∧ flags.anon = true) := by
  obtain ⟨pr', hpr', heff⟩ := do_mmap_effect hmap
  rw [hpr] at hpr'
  cases hpr'
  have hC := C.high_lt
  cases heff with
  | @mapped fs fs' file lopage start s₁ hne hfile hm =>
    have hkind : flags.shared = !flags.priv := Bool.eq_not.2 hne
    have hmaps : pr.p_vmmap < s.nmaps := h.live.maps p pr hpr
    have h₀ : Backing C held (s.setFiles fs) := h.backing.setFiles fs
    have hB := h₀.mapped h.outside.nonneg h.fresh h.live.vnodes hmaps hkind (roundLen_pages hlen) hm
    obtain ⟨a, ha, hid, hstart, honly, hgot⟩ := vmmap_map_backed h₀ h.outside.nonneg h.fresh h.live.vnodes hmaps hkind
      (roundLen_pages hlen) hm
    have hret : a.vma_start = ADDR_TO_PN (PN_TO_ADDR start) := by
      have h1 := (hB.layout.areas pr.p_vmmap).high a ha
      have h2 := (hB.layout.areas pr.p_vmmap).sorted.nonempty a ha
      simp only [ADDR_TO_PN, PN_TO_ADDR, u32, PAGE_SIZE]
      omega
    have hanon : file = none ↔ flags.anon = true := by
      cases hfile with
      | anon han => simp [han]
      | file hf => simp [hf]
    rcases hgot with ⟨hp, hnone, hobj⟩ | ⟨hp, ⟨o, b, h1, h2, h3⟩, hset⟩
    · have hshared : flags.shared = true := by rw [hkind, hp]; rfl
      constructor
      · rintro ⟨⟨_, _, c, hc, hcid, -, o, b, ho, -⟩, -⟩
        obtain rfl := honly c hc hcid
        rw [hobj] at ho
        cases ho
      · intro hnot
        exact absurd ⟨hshared, hanon.1 hnone⟩ hnot
    · constructor
      · rintro - ⟨hshared, han⟩
        rw [hkind, hp (hanon.2 han)] at hshared
        cases hshared
      · intro _
        exact ⟨⟨file, hfile, a, ha, hid, hret, o, b, h1, ⟨h2.bottom, h2.listed, h2.priv, h2.shared, h2.anon, h2.file⟩, h3⟩, hset⟩

/-- The first process with a file to map. -/
def oneProcess : State := proc_create oneFile

/-- A shared anonymous mapping has no object. -/
theorem shared_anon_unbacked : ∃ (s' : State) (pr : Proc) (a : VmArea),
    do_mmap .stock oneProcess 0 0 8192 { read := true, write := true } { shared := true, anon := true } (-1) 0 =
      some (s', .ok 0x400000) ∧ oneProcess.procs 0 = some pr ∧ vmmap_lookup (s'.vmm_list pr.p_vmmap) 0x400 = some a ∧
    a.vma_id = oneProcess.nareas ∧ a.vma_obj = none ∧ ∀ file, ¬ Backed oneProcess s' file { shared := true, anon := true } a := by
  have hex : ((do_mmap .stock oneProcess 0 0 8192 { read := true, write := true } { shared := true, anon := true } (-1) 0).bind
      fun r => (oneProcess.procs 0).bind fun pr => (vmmap_lookup (r.1.vmm_list pr.p_vmmap) 0x400).map fun a =>
        (r.2.toOption, a.vma_id, a.vma_obj)) = some (some 0x400000, oneProcess.nareas, none) := by decide +kernel
  simp only [Option.bind_eq_some_iff, Option.map_eq_some_iff, Prod.mk.injEq, Prod.exists] at hex
  obtain ⟨s', r, hm, pr, hpr, a, ha, hr, hid, hobj⟩ := hex
  cases r with
  | error e => cases hr
  | ok n =>
    cases hr
    refine ⟨s', pr, a, hm, hpr, ha, hid, hobj, fun file h => ?_⟩
    obtain ⟨o, b, ho, -⟩ := h
    rw [hobj] at ho
    cases ho

/-- A private one has. -/
theorem private_anon_backed : ∃ (s' : State) (pr : Proc), oneProcess.procs 0 = some pr ∧
    ∃ a ∈ s'.vmm_list pr.p_vmmap, a.vma_id = oneProcess.nareas ∧ ∃ file, Backed oneProcess s' file { priv := true, anon := true } a := by
  have hex : ((do_mmap .stock oneProcess 0 0 8192 { read := true, write := true } { priv := true, anon := true } (-1) 0).bind
      fun r => (oneProcess.procs 0).map fun _ => r.2.toOption) = some (some 0x400000) := by decide +kernel
  simp only [Option.bind_eq_some_iff, Option.map_eq_some_iff, Prod.exists] at hex
  obtain ⟨s', r, hm, pr, hpr, hr⟩ := hex
  obtain ⟨held, h⟩ := oneFile_booted.spawned (C := .stock) fun _ => rfl
  cases r with
  | error e => cases hr
  | ok n =>
    obtain ⟨⟨file, -, a, ha, hid, -, hb⟩, -⟩ := (do_mmap_backed_iff (s := oneProcess) h hpr (by decide) hm).2 (by decide)
    exact ⟨s', pr, hpr, a, ha, hid, file, hb⟩

end Weenix.Vm
