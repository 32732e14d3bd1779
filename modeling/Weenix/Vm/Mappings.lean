import Weenix.Vm.EntryMapping
import Weenix.Vm.Gaps
/-!
# When a range can be mapped

The functions of `vmmap.c` that change a map end the run when an assertion fails
or an area whose object they use has none. Here is when they return, and what
each page is mapped to after `vmmap_map`. `do_mmap` is its checks followed by
`vmmap_map` (`do_mmap_eq`).
-/

namespace Weenix.Vm

open Lib Lib.Intervals

variable {C : Config} {E : Env} {s s' t : State} {o b m p v lo fin npages : Nat} {a : VmArea} {l : List VmArea}
  {pr : Proc} {ob : Mmobj} {held : Nat → Int}

/-! ## Removing -/

theorem RemoveEffect.follows {pre : List VmArea} {done : Bool} (h : RemoveEffect s p m lo fin pre l a s' done)
    (ha : a.Follows lo fin) : ∃ o, a.vma_obj = some o := by
  cases h with
  | split _ _ ho => exact ⟨_, ho⟩
  | drop _ _ ho => exact ⟨_, ho⟩
  | trim hn hp =>
    rcases ha with ha | ha
    · exact absurd ha hn
    · rw [pieces, if_neg hn, if_neg (by omega), if_neg (by omega), if_pos ha] at hp
      cases hp
  | keep hn hp =>
    rcases ha with ha | ha
    · exact absurd ha hn
    · rw [pieces, if_neg hn, if_neg (by omega), if_neg (by omega), if_pos ha] at hp
      cases hp

/-- `vmmap_remove` returns exactly when the objects it uses are there. -/
theorem vmmap_remove_returns_iff (h : Backing C held s) (hheld : ∀ o, 0 ≤ held o) (hlt : lo + npages < 2 ^ 32) :
    (∃ s', vmmap_remove C s p m lo npages = some s') ↔ Removable (s.vmm_list m) lo (lo + npages) := by
  refine ⟨fun ⟨s', hr⟩ => ?_, vmmap_remove_returns h hheld hlt⟩
  have hgo : ∀ (l pre : List VmArea) (s : State), Layout C s → s.vmm_list m = pre ++ l →
      vmmap_remove_from C p m lo (lo + npages) s l = some s' → Removable l lo (lo + npages) := by
    intro l
    induction l with
    | nil => exact fun _ _ _ _ _ _ hb => absurd hb List.not_mem_nil
    | cons a l ih =>
      intro pre s hL hlist h
      simp only [vmmap_remove_from, bind, Option.bind_eq_some_iff, Prod.exists] at h
      obtain ⟨s₁, done, h1, h2⟩ := h
      have hok : AreasOk C m (pre ++ a :: l) := by rw [← hlist]; exact hL.areas m
      have heff := vmmap_remove_area_effect (Nat.le_add_right _ _) hlist hok (by rw [← hlist]; exact hL.ids m) h1
      intro c hc hfollows
      rcases List.mem_cons.1 hc with rfl | hc
      · exact heff.follows hfollows
      cases done with
      | true =>
        -- the loop ends at an area that reaches past the range, and `c` is behind it
        have hend := heff.done_last
        have hbehind := (sorted_cons.1 (sorted_append.1 hok.sorted).2.1).2.1 c hc
        have hne := hok.sorted.nonempty c (by simp [hc])
        unfold VmArea.Follows at hfollows
        omega
      | false =>
        refine ih (pre ++ pieces m s.nareas lo (lo + npages) a) s₁ (heff.layout (Nat.le_add_right _ _) hL hlist) ?_ h2 c hc hfollows
        have e := congrFun (congrArg Spaces.vmm_list (heff.spaces hlist)) m
        simpa [State.spaces, Spaces.withList] using e
  rw [vmmap_remove, u32_of_lt hlt] at hr
  exact hgo _ [] s h.layout rfl hr

/-- In a free range nothing has to be removed. -/
theorem RangeFree.removable (hf : RangeFree l lo (lo + npages)) (hn : 0 < npages) (hs : Sorted VmArea.vma_start VmArea.vma_end l) :
    Removable l lo (lo + npages) := by
  intro a ha h
  have := hf a ha
  have := hs.nonempty a ha
  unfold VmArea.Follows at h
  omega

theorem Backing.removed (h : Backing C held s) (hheld : ∀ o, 0 ≤ held o) (hlt : lo + npages < 2 ^ 32)
    (hr : vmmap_remove C s p m lo npages = some s') : Backing C held s' :=
  (vmmap_remove_rule (I := Backing C held) hlt (fun _ hlist heff hI => hI.turn hheld (Nat.le_add_right _ _) hlist heff)
    h.layout h hr).2

/-! ## Searching -/

/-- The search returns, and finds a gap when there is one. -/
theorem vmmap_find_range_lohi (hok : AreasOk C m l) (hn : 0 < npages ∧ npages ≤ 2 ^ 20) :
    (∃ start : Nat, vmmap_find_range C l npages .lohi = some (start : Int) ∧ C.low ≤ start ∧ start + npages ≤ C.high ∧
        RangeFree l start (start + npages)) ∨
      vmmap_find_range C l npages .lohi = some (-1) ∧
        ∀ start, C.low ≤ start → start + npages ≤ C.high → ¬ RangeFree l start (start + npages) := by
  have hlow := C.low_pos
  have hlt := C.low_lt
  have hret : vmmap_find_range C l npages .lohi = some (find_range_lohi C npages C.low l) := by
    simp [vmmap_find_range, KASSERT, hn.1]
  have hpos : 0 < find_range_lohi C npages C.low l ∨ _ := find_range_lohi_pos hok.ends C.low hlow hlt.le
  rcases hpos with h | h
  · obtain ⟨h1, h2, h3⟩ := find_range_lohi_gap hn.2 hok.sorted hok.high C.low hlt.le hok.low h
    exact .inl ⟨(find_range_lohi C npages C.low l).toNat, by rw [hret, Int.toNat_of_nonneg (Int.le_of_lt h)], h1, h2, h3⟩
  · refine .inr ⟨by rw [hret, h], fun start h1 h2 hf => ?_⟩
    have := (find_range_lohi_le hok.sorted hok.high h2 hf C.low hlow h1 hok.low).1
    omega

/-! ## Mapping -/

/-- The file's `mmap` operation gives an object. -/
def Maps (s : State) (file : Option Nat) : Prop := ∀ vn, file = some vn → ∃ o, (s.vnodes vn).vn_mmap = some (.ok o)

/-- Whoever maps a file has it open: its object is referred to from outside. -/
def Held (held : Nat → Int) (s : State) (file : Option Nat) : Prop :=
  ∀ vn o, file = some vn → (s.vnodes vn).vn_mmap = some (.ok o) → 0 < held o

/-- The object of a new area is set, or left out, when the file gives one. -/
theorem attachObject_returns {file : Option Nat} (flags : MapFlags) (area : VmArea) (h : Backing C held s) (hfile : FileObjs s)
    (hopen : Held held s file) : (∃ r, attachObject s file flags area = some r) ↔ Maps s file := by
  constructor
  · rintro ⟨⟨t, area'⟩, hat⟩ vn rfl
    cases attachObject_effect hat with
    | shared _ hvn => exact ⟨_, hvn⟩
    | file _ hvn => exact ⟨_, hvn⟩
  · intro hmaps
    cases file with
    | none =>
      unfold attachObject
      cases flags.priv <;> exact ⟨_, rfl⟩
    | some vn =>
      obtain ⟨o, ho⟩ := hmaps vn rfl
      have hvn := vn_mmap_total h ⟨ho, hfile vn o ho, hopen vn o rfl ho⟩
      unfold attachObject
      cases flags.priv
      · exact ⟨_, by simp only [hvn, bind, Option.bind_some, Bool.not_false, if_true]; rfl⟩
      · exact ⟨_, by simp only [hvn, bind, Option.bind_some, Bool.not_true, Bool.false_eq_true, if_false]; rfl⟩

/-- What `vmmap_map` needs to map `npages` pages at `lopage`. -/
structure Mappable (C : Config) (s : State) (m : Nat) (file : Option Nat) (lopage npages : Nat) (prot : Prot) : Prop where
  prot : prot.other = false
  low : C.low ≤ lopage
  high : lopage + npages ≤ C.high
  file : Maps s file
  removable : Removable (s.vmm_list m) lopage (lopage + npages)

theorem makeRoom_returns {lopage : Nat} (dir : Dir) (h : Backing C held s) (hheld : ∀ o, 0 ≤ held o) (hn : 0 < npages)
    (hlo : 0 < lopage) (hlt : lopage + npages < 2 ^ 32) : (∃ r, makeRoom C s p m lopage npages dir = some r) ↔
      C.low ≤ lopage ∧ lopage + npages ≤ C.high ∧ Removable (s.vmm_list m) lopage (lopage + npages) := by
  have hok := h.layout.areas m
  unfold makeRoom
  rw [if_pos (by omega)]
  constructor
  · rintro ⟨r, hr⟩
    simp only [bind, Option.bind_eq_some_iff] at hr
    obtain ⟨b, he, hr⟩ := hr
    obtain ⟨⟨-, h1, h2⟩, h3⟩ := vmmap_is_range_empty_eq hok he
    rw [u32_of_lt hlt] at h2 h3
    refine ⟨h1, h2, ?_⟩
    split at hr
    next hb => exact RangeFree.removable (h3.1 hb) hn hok.sorted
    next =>
      simp only [Option.bind_eq_some_iff] at hr
      obtain ⟨s₁, hrem, -⟩ := hr
      exact (vmmap_remove_returns_iff h hheld hlt).1 ⟨s₁, hrem⟩
  · rintro ⟨hlow, hhigh, hrem⟩
    obtain ⟨b, hb⟩ := vmmap_is_range_empty_total (C := C) (s.vmm_list m) hn hlow hhigh
    cases b with
    | true => exact ⟨_, by simp only [hb, bind, Option.bind_some, if_true]; rfl⟩
    | false =>
      obtain ⟨s₁, hr⟩ := vmmap_remove_returns (p := p) h hheld hlt hrem
      have hempty := vmmap_remove_empties h.layout hn hlow hhigh hr
      exact ⟨_, by simp only [hb, hr, hempty, KASSERT, bind, Option.bind_some, Bool.false_eq_true, if_false, if_true]; rfl⟩

/-- Making room keeps references counted, objects and files. -/
theorem Backing.room {lopage : Nat} {s₁ : State} (h : Backing C held s) (hheld : ∀ o, 0 ≤ held o)
    (hfrom : s₁ = s.vmarea_alloc ∨ lopage + npages < 2 ^ 32 ∧ vmmap_remove C s.vmarea_alloc p m lopage npages = some s₁) :
    Backing C held s₁ ∧ s₁.objs = s.objs ∧ s₁.nobjs = s.nobjs ∧ s₁.vnodes = s.vnodes := by
  have h₀ := h.vmarea_alloc
  rcases hfrom with rfl | ⟨hlt, hr⟩
  · exact ⟨h₀, rfl, rfl, rfl⟩
  · obtain ⟨hobjs, hnobjs⟩ := vmmap_remove_objs h₀ hheld hlt hr
    exact ⟨h₀.removed hheld hlt hr, hobjs, hnobjs, (congrArg Spaces.vnodes (vmmap_remove_list hlt h₀.layout hr) :)⟩

theorem FileObjs.congr (h : FileObjs s) (h1 : s'.vnodes = s.vnodes) (h2 : s'.objs = s.objs) : FileObjs s' := by
  unfold FileObjs
  rw [h1, h2]
  exact h

theorem Held.congr {file : Option Nat} (h : Held held s file) (h1 : s'.vnodes = s.vnodes) : Held held s' file := by
  unfold Held
  rw [h1]
  exact h

theorem Maps.congr {file : Option Nat} (h1 : s'.vnodes = s.vnodes) : Maps s' file ↔ Maps s file := by
  unfold Maps
  rw [h1]

/-- At a given page `vmmap_map` returns exactly when the pages can be mapped. -/
theorem vmmap_map_returns {file : Option Nat} {lopage off : Nat} {prot : Prot} {flags : MapFlags} (dir : Dir)
    (h : Backing C held s) (hheld : ∀ o, 0 ≤ held o) (hfile : FileObjs s) (hopen : Held held s file)
    (hn : 0 < npages ∧ npages ≤ 2 ^ 20) (hlo : 0 < lopage ∧ lopage ≤ 2 ^ 20) (hkind : flags.shared = true ∨ flags.priv = true)
    (hoff : PAGE_ALIGNED off = true) : (∃ r, vmmap_map C s p m file lopage npages prot flags off dir = some r) ↔
      Mappable C s m file lopage npages prot := by
  have hlt : lopage + npages < 2 ^ 32 := by omega
  have hroom := makeRoom_returns (p := p) (m := m) dir h.vmarea_alloc hheld hn.1 hlo.1 hlt
  have hstart {s₁ : State} {start : Option Nat} (hr : makeRoom C s.vmarea_alloc p m lopage npages dir = some (s₁, start)) :
      start = some lopage ∧ Room C s₁ m lopage npages ∧
        (s₁ = s.vmarea_alloc ∨ lopage + npages < 2 ^ 32 ∧ vmmap_remove C s.vmarea_alloc p m lopage npages = some s₁) := by
    rcases makeRoom_cases h.vmarea_alloc.layout hn.2 hr with ⟨-, -, h0⟩ | ⟨st, rfl, rfl, hR, hst⟩ | ⟨-, rfl, -, hrem, hR⟩
    · omega
    · rw [hst (by omega)] at hR ⊢
      exact ⟨rfl, hR, .inl rfl⟩
    · exact ⟨rfl, hR, .inr ⟨hlt, hrem⟩⟩
  constructor
  · rintro ⟨r, hmap⟩
    simp only [vmmap_map, bind, Option.bind_eq_some_iff, KASSERT_eq_some, Prod.exists] at hmap
    obtain ⟨-, -, -, hprot, -, -, -, -, -, -, -, -, s₁, start, hr, hmap⟩ := hmap
    obtain ⟨rfl, -, hfrom⟩ := hstart hr
    obtain ⟨hlow, hhigh, hrem⟩ := hroom.1 ⟨_, hr⟩
    obtain ⟨h₁, hobjs, -, hvn⟩ := h.room hheld hfrom
    simp only [Option.bind_eq_some_iff, Prod.exists] at hmap
    obtain ⟨s₂, area, hat, -⟩ := hmap
    exact ⟨hprot, hlow, hhigh, (Maps.congr hvn).1 ((attachObject_returns _ _ h₁ (hfile.congr hvn hobjs) (hopen.congr hvn)).1 ⟨_, hat⟩),
      hrem⟩
  · rintro ⟨hprot, hlow, hhigh, hmaps, hrem⟩
    obtain ⟨⟨s₁, start⟩, hr⟩ := hroom.2 ⟨hlow, hhigh, hrem⟩
    obtain ⟨rfl, hR, hfrom⟩ := hstart hr
    obtain ⟨h₁, hobjs, -, hvn⟩ := h.room hheld hfrom
    obtain ⟨⟨s₂, area⟩, hat⟩ := (attachObject_returns flags (newArea s.nareas lopage npages off prot flags) h₁
      (hfile.congr hvn hobjs) (hopen.congr hvn)).2 ((Maps.congr hvn).2 hmaps)
    obtain ⟨-, o, rfl⟩ := attachObject_spaces hat
    have hend := hR.high
    have hC := C.high_lt
    obtain ⟨l, hins⟩ := vmmap_insert_total (x := (newArea s.nareas lopage npages off prot flags).withObj o) rfl
      (show lopage < lopage + npages by omega) hlow hend s₂ m
    refine ⟨(s₂.setList m l, .ok lopage), ?_⟩
    have harea : (⟨s.nareas, lopage, u32 (npages + lopage), off, prot, flags, none, none⟩ : VmArea) =
        newArea s.nareas lopage npages off prot flags := by
      rw [Nat.add_comm, u32_of_lt hlt]
      rfl
    have hlow' : lopage = 0 ∨ C.low ≤ lopage := .inr hlow
    have hhigh' : lopage = 0 ∨ u32 (lopage + npages) ≤ C.high := .inr (by rw [u32_of_lt hlt]; exact hhigh)
    simp only [vmmap_map, KASSERT, hn.1, hprot, hkind, hlow', hhigh', hoff, if_true, bind, Option.bind_some, hr, harea, hat, hins]

/-! ## What is mapped then -/

/-- A new area takes its pages, and no other page. -/
theorem lookup_insertArea {x : VmArea} (hok : AreasOk C m l) (hx : x.vma_start < x.vma_end ∧ C.low ≤ x.vma_start ∧ x.vma_end ≤ C.high)
    (hfree : RangeFree l x.vma_start x.vma_end) (v : Nat) :
    vmmap_lookup (insertArea m x l) v = if x.Has v then some { x with vma_vmmap := some m } else vmmap_lookup l v := by
  have hs := (hok.insertArea hx hfree).sorted
  split
  next hv => exact hs.find_iff.2 ⟨mem_insertArea.2 (.inl rfl), hv⟩
  next hv =>
    cases h : vmmap_lookup l v with
    | none =>
      refine find_none_iff.2 fun b hb hbv => ?_
      rcases mem_insertArea.1 hb with rfl | hb
      · exact hv hbv
      · exact find_none_iff.1 h b hb hbv
    | some a =>
      obtain ⟨ha, hav⟩ := hok.sorted.find_iff.1 h
      exact hs.find_iff.2 ⟨mem_insertArea.2 (.inr ha), hav⟩

/-- The pages `[lo, lo + npages)` of map `m` are in the new area; every other page is mapped as it was. -/
structure MappedAt (s s' : State) (m lo npages : Nat) (prot : Prot) (flags : MapFlags) : Prop where
  inside : ∀ v, lo ≤ v → v < lo + npages → ∃ a, vmmap_lookup (s'.vmm_list m) v = some a ∧ a.vma_id = s.nareas ∧
    a.vma_prot = prot ∧ a.vma_flags = flags
  outside : ∀ v, v < lo ∨ lo + npages ≤ v →
    (vmmap_lookup (s'.vmm_list m) v).map (VmArea.target v) = (vmmap_lookup (s.vmm_list m) v).map (VmArea.target v)
  others : ∀ k, k ≠ m → s'.vmm_list k = s.vmm_list k

/-- The lists after room was made. -/
theorem room_lists {lopage : Nat} {s₁ : State} (hL : Layout C s)
    (hfrom : s₁ = s.vmarea_alloc ∨ lopage + npages < 2 ^ 32 ∧ vmmap_remove C s.vmarea_alloc p m lopage npages = some s₁) :
    (∀ v, v < lopage ∨ lopage + npages ≤ v →
      (vmmap_lookup (s₁.vmm_list m) v).map (VmArea.target v) = (vmmap_lookup (s.vmm_list m) v).map (VmArea.target v)) ∧
      ∀ k, k ≠ m → s₁.vmm_list k = s.vmm_list k := by
  rcases hfrom with rfl | ⟨hlt, hr⟩
  · exact ⟨fun _ _ => rfl, fun _ _ => rfl⟩
  · have hlist : s₁.vmm_list = Function.update s.vmm_list m ((s.vmm_list m).flatMap (pieces m (s.nareas + 1) lopage
        (lopage + npages))) := congrArg Spaces.vmm_list (vmmap_remove_list hlt (hL.more (Nat.le_succ _)) hr)
    refine ⟨fun v hv => ?_, fun k hk => ?_⟩
    · rw [hlist, Function.update_self]
      exact lookup_kept (hL.areas m) (Nat.le_add_right _ _) hv
    · rw [hlist, Function.update_of_ne hk]

/-- When `vmmap_map` returns at a given page, it has mapped the pages there. -/
theorem vmmap_map_maps {file : Option Nat} {lopage off : Nat} {prot : Prot} {flags : MapFlags} {dir : Dir}
    {r : Except Errno Nat} (hL : Layout C s) (hn : npages ≤ 2 ^ 20) (hlo : 0 < lopage)
    (hmap : vmmap_map C s p m file lopage npages prot flags off dir = some (s', r)) :
    r = .ok lopage ∧ MappedAt s s' m lopage npages prot flags := by
  obtain ⟨⟨hpos, -⟩, heff⟩ := vmmap_map_effect hL hn hmap
  cases heff with
  | noroom h0 => omega
  | @mapped start s₁ s₂ area hfrom hL₁ hroom hst hat =>
    obtain rfl := hst (by omega)
    obtain ⟨hsp, o, rfl⟩ := attachObject_spaces hat
    have hlists : s₂.vmm_list = s₁.vmm_list := congrArg Spaces.vmm_list hsp
    have hlow := hroom.low
    have hhigh := hroom.high
    have hlook (v : Nat) := lookup_insertArea (x := (newArea s.nareas start npages off prot flags).withObj o) (hL₁.areas m)
      ⟨show start < start + npages by omega, hlow, hhigh⟩ hroom.free v
    obtain ⟨hout, hothers⟩ := room_lists hL hfrom
    refine ⟨rfl, fun v h1 h2 => ?_, fun v hv => ?_, fun k hk => ?_⟩
    · refine ⟨{ (newArea s.nareas start npages off prot flags).withObj o with vma_vmmap := some m }, ?_, rfl, rfl, rfl⟩
      simp only [State.setList, Function.update_self, hlists]
      rw [hlook v, if_pos ⟨h1, h2⟩]
    · simp only [State.setList, Function.update_self, hlists]
      rw [hlook v, if_neg fun h => ?_, hout v hv]
      have h1 : start ≤ v := h.1
      have h2 : v < start + npages := h.2
      omega
    · simp only [State.setList, Function.update_of_ne hk, hlists]
      exact hothers k hk

/-- The references after `vmmap_map` are counted. -/
theorem Backing.mapped {file : Option Nat} {lopage off : Nat} {prot : Prot} {flags : MapFlags} {dir : Dir}
    {r : Except Errno Nat} (h : Backing C held s) (hheld : ∀ o, 0 ≤ held o) (h0 : ∀ o, s.nobjs ≤ o → held o = 0)
    (hfile : FileObjs s) (hm : m < s.nmaps) (hkind : flags.shared = !flags.priv) (hn : npages ≤ 2 ^ 20)
    (hmap : vmmap_map C s p m file lopage npages prot flags off dir = some (s', r)) : Backing C held s' := by
  obtain ⟨⟨hpos, -⟩, heff⟩ := vmmap_map_effect h.layout hn hmap
  cases heff with
  | noroom => exact h.vmarea_alloc
  | @mapped start s₁ s₂ area hfrom hL₁ hroom _ hat =>
    obtain ⟨h₁, hobjs, hnobjs, hvn⟩ := h.room hheld hfrom
    obtain ⟨hid, hmaps, hnew⟩ := newArea_fresh h.layout hfrom
    have hlow := hroom.low
    have hhigh := hroom.high
    have hkind₁ : (newArea s.nareas start npages off prot flags).vma_flags.shared =
        !(newArea s.nareas start npages off prot flags).vma_flags.priv := hkind
    exact h₁.attach (by rw [hmaps]; exact hm) (by rw [hnobjs]; exact h0) (hfile.congr hvn hobjs) hkind₁ rfl
      ⟨by simp only [newArea]; omega, hlow, hhigh⟩ hroom.free hid hnew (attachObject_effect hat)

/-! ## `do_mmap` -/

/-- What holds between system calls: the references are counted, processes have maps, and an open file that can be
mapped holds its object. -/
structure AtRest (C : Config) (held : Nat → Int) (s : State) : Prop where
  backing : Backing C held s
  outside : Outside held s
  live : Live s
  opened : ∀ f fl o, s.files f = some fl → (s.vnodes fl.f_vnode).vn_mmap = some (.ok o) → 0 < held o

theorem Backing.setFiles (h : Backing C held s) (fs : Nat → Option File) : Backing C held (s.setFiles fs) :=
  ⟨h.layout.setFiles, h.chains.congr rfl rfl, h.frames.congr rfl rfl rfl rfl rfl rfl, h.idle, h.hung.congr rfl rfl rfl,
    h.counted, h.num⟩

theorem AtRest.fresh (h : AtRest C held s) : ∀ o, s.nobjs ≤ o → held o = 0 := h.outside.fresh h.backing.chains

/-- The first process of a system without open files. -/
theorem Booted.spawned {s₀ : State} (h : Booted s₀) (hf : ∀ f, s₀.files f = none) : ∃ held, AtRest C held (proc_create s₀) := by
  obtain ⟨s', hst, hS, -⟩ := refStep_total (E := .simple) (h.sound (C := C)) (e := .proc_create) trivial
  cases hst
  obtain ⟨held, hO, hB⟩ := hS.held
  refine ⟨held, hB, hO, hS.live, fun f fl o hfl => ?_⟩
  rw [show (proc_create s₀).files f = s₀.files f from rfl, hf] at hfl
  cases hfl

/-- The checks of `do_mmap` pass: it maps `file` at `place`, and holds a reference to the file in state `t`. -/
structure MmapPasses (C : Config) (s : State) (pr : Proc) (addr len : Nat) (prot : Prot) (flags : MapFlags) (fd : Int)
    (off : Nat) (t : State) (place : Nat) (file : Option (Nat × Nat)) : Prop where
  aligned : PAGE_ALIGNED off = true
  known : flags.other = false
  pages : roundLen len ≠ 0
  kind : flags.shared = !flags.priv
  place : mmapAddr C (s.vmm_list pr.p_vmmap) addr (roundLen len) flags = some (.ok place)
  file : mmapFile C s pr (roundLen len) prot flags fd off = (t, .ok file)

/-- The end of `do_mmap`: the reference to the file is given back. -/
def mmapReturn (file : Option (Nat × Nat)) : State × Except Errno Nat → Option (State × Except Errno Nat)
  | (_, .error _) => none
  | (s, .ok start) =>
    some (match file with
      | some (f, _) => fput s f
      | none => s, .ok (PN_TO_ADDR start))

theorem mmapReturn_ok {file : Option (Nat × Nat)} {start : Nat} {r : State × Except Errno Nat}
    (h : mmapReturn file (s, .ok start) = some r) : ∃ fs, r = (s.setFiles fs, .ok (PN_TO_ADDR start)) := by
  cases file with
  | none =>
    cases h
    exact ⟨s.files, rfl⟩
  | some f =>
    obtain ⟨f, vn⟩ := f
    cases h
    obtain ⟨fs, hfs⟩ := fput_files (s := s) (f := f)
    exact ⟨fs, by simp only [hfs]⟩

/-- The pages of a length that is rounded up, unless the rounding wraps around. -/
theorem roundLen_eq {len : Nat} (h : len < 2 ^ 32) : roundLen len = ADDR_TO_PN (roundLen len) * PAGE_SIZE ∧
    (roundLen len ≠ 0 → ADDR_TO_PN (roundLen len) = (len + PAGE_SIZE - 1) / PAGE_SIZE ∧ 0 < ADDR_TO_PN (roundLen len)) := by
  unfold roundLen PN_TO_ADDR ADDR_TO_PN u32 PAGE_ALIGNED PAGE_SIZE
  split
  next h0 =>
    have : len % 4096 = 0 := by simpa using h0
    omega
  next h0 =>
    have : len % 4096 ≠ 0 := by simpa using h0
    omega

/-- Where `do_mmap` maps: as asked, or in a gap. -/
structure MmapPlace (C : Config) (l : List VmArea) (addr len : Nat) (flags : MapFlags) (place : Nat) : Prop where
  page : place = ADDR_TO_PN place * PAGE_SIZE
  low : C.low ≤ ADDR_TO_PN place
  high : ADDR_TO_PN place ≤ C.high
  fixed : flags.fixed = true → place = addr ∧ u32 (addr + roundLen len) ≤ C.USER_MEM_HIGH
  gap : flags.fixed = false → ADDR_TO_PN place + ADDR_TO_PN (roundLen len) ≤ C.high ∧
    RangeFree l (ADDR_TO_PN place) (ADDR_TO_PN place + ADDR_TO_PN (roundLen len))

theorem mmapAddr_cases (addr : Nat) {len : Nat} (flags : MapFlags) (hok : AreasOk C m l) (hlen : len < 2 ^ 32) (h0 : roundLen len ≠ 0) :
    (∃ e, mmapAddr C l addr (roundLen len) flags = some (.error e)) ∨
      ∃ place, mmapAddr C l addr (roundLen len) flags = some (.ok place) ∧ MmapPlace C l addr len flags place := by
  have hC := C.high_lt
  obtain ⟨-, hn⟩ := roundLen_eq hlen
  have hpos := (hn h0).2
  unfold mmapAddr
  cases hf : flags.fixed with
  | false =>
    simp only [Bool.not_false, if_true]
    rcases vmmap_find_range_lohi hok ⟨hpos, roundLen_pages hlen⟩ with ⟨start, he, hlow, hhigh, hfree⟩ | ⟨he, -⟩
    · right
      have hpn : ADDR_TO_PN (PN_TO_ADDR start) = start := by
        simp only [ADDR_TO_PN, PN_TO_ADDR, u32, PAGE_SIZE]
        omega
      refine ⟨PN_TO_ADDR start, ?_, ?_, ?_, ?_, fun h => ?_, fun _ => ?_⟩
      · simp only [he, bind, Option.bind_some, Int.toNat_natCast]
        rw [if_neg (by omega), if_neg (by omega)]
      · rw [hpn]
        simp only [PN_TO_ADDR, u32, PAGE_SIZE]
        omega
      · rw [hpn]
        exact hlow
      · rw [hpn]
        omega
      · rw [hf] at h
        cases h
      · rw [hpn]
        exact ⟨hhigh, hfree⟩
    · left
      exact ⟨.EINVAL, by simp only [he, bind, Option.bind_some]; rfl⟩
  | true =>
    simp only [Bool.not_true, Bool.false_eq_true, if_false]
    split
    · exact .inl ⟨_, rfl⟩
    next hrange =>
      split
      · exact .inl ⟨_, rfl⟩
      next hal =>
        have hal : addr % PAGE_SIZE = 0 := by simpa [PAGE_ALIGNED] using hal
        simp only [Config.USER_MEM_HIGH, Config.USER_MEM_LOW, not_or, Nat.not_lt] at hrange
        obtain ⟨h1, h2, h3⟩ := hrange
        refine .inr ⟨addr, rfl, ?_, ?_, ?_, fun _ => ⟨rfl, h1⟩, fun h => ?_⟩
        · simp only [ADDR_TO_PN, PAGE_SIZE] at *
          omega
        · simp only [ADDR_TO_PN, PAGE_SIZE] at *
          omega
        · simp only [ADDR_TO_PN, PAGE_SIZE] at *
          omega
        · rw [hf] at h
          cases h

theorem MmapPasses.at {addr len off place : Nat} {prot : Prot} {flags : MapFlags} {fd : Int} {file : Option (Nat × Nat)}
    (h : MmapPasses C s pr addr len prot flags fd off t place file) (hL : Layout C s) (hlen : len < 2 ^ 32) :
    MmapPlace C (s.vmm_list pr.p_vmmap) addr len flags place := by
  rcases mmapAddr_cases addr flags (hL.areas pr.p_vmmap) hlen h.pages with ⟨e, he⟩ | ⟨place', he, hp⟩
  · rw [h.place] at he
    cases he
  · rw [h.place] at he
    cases he
    exact hp

/-- `do_mmap` is its checks, then `vmmap_map`. -/
theorem do_mmap_eq (addr off : Nat) {len : Nat} (prot : Prot) (flags : MapFlags) (fd : Int) (hL : Layout C s)
    (hpr : s.procs p = some pr) (hlen : len < 2 ^ 32) :
    (∃ fs e, do_mmap C s p addr len prot flags fd off = some (s.setFiles fs, .error e) ∧
      ∀ t place file, ¬ MmapPasses C s pr addr len prot flags fd off t place file) ∨
    ∃ t place file, MmapPasses C s pr addr len prot flags fd off t place file ∧
      do_mmap C s p addr len prot flags fd off =
        (vmmap_map C t p pr.p_vmmap (file.map (·.2)) (ADDR_TO_PN place) (ADDR_TO_PN (roundLen len)) prot flags off
          .lohi).bind (mmapReturn file) := by
  unfold do_mmap
  simp only [hpr, bind, Option.bind_some]
  split
  next hoff => exact .inl ⟨s.files, _, rfl, fun t place file h => by simp [h.aligned] at hoff⟩
  next hoff =>
    split
    next hfl => exact .inl ⟨s.files, _, rfl, fun t place file h => by simp [h.known] at hfl⟩
    next hfl =>
      split
      next h0 => exact .inl ⟨s.files, _, rfl, fun t place file h => h.pages h0⟩
      next h0 =>
        split
        next hk =>
          refine .inl ⟨s.files, _, rfl, fun t place file h => ?_⟩
          exact Bool.eq_not.1 h.kind hk
        next hk =>
          have hkind : flags.shared = !flags.priv := Bool.eq_not.2 hk
          rcases mmapAddr_cases addr flags (hL.areas pr.p_vmmap) hlen h0 with ⟨e, he⟩ | ⟨place, he, -⟩
          · refine .inl ⟨s.files, e, by rw [he]; rfl, fun t place file h => ?_⟩
            rw [h.place] at he
            cases he
          · rw [he]
            cases hf : mmapFile C s pr (roundLen len) prot flags fd off with
            | mk t r =>
              cases r with
              | error e =>
                obtain ⟨⟨fs, rfl⟩, -⟩ := mmapFile_cases hf
                refine .inl ⟨fs, e, rfl, fun t place file h => ?_⟩
                rw [h.file] at hf
                cases hf
              | ok file =>
                refine .inr ⟨t, place, file, ⟨by simpa using hoff, by simpa using hfl, h0, hkind, he, hf⟩, ?_⟩
                simp only [Option.bind_some]
                congr 1
                funext ⟨s₁, r⟩
                cases r with
                | error e => rfl
                | ok start => cases file <;> rfl

/-- What `do_mmap` maps is open, and its pages are within the map. -/
theorem MmapPasses.holds {addr len off place : Nat} {prot : Prot} {flags : MapFlags} {fd : Int} {file : Option (Nat × Nat)}
    (h : MmapPasses C s pr addr len prot flags fd off t place file) (hs : AtRest C held s) :
    (∃ fs, t = s.setFiles fs) ∧ MmapFile C s pr (roundLen len) prot flags fd off (file.map (·.2)) ∧ Held held s (file.map (·.2)) := by
  obtain ⟨hfs, hfile⟩ := mmapFile_cases h.file
  have hfile := hfile file rfl
  refine ⟨hfs, hfile, fun vn o hvn ho => ?_⟩
  cases hfile' : file.map (·.2) with
  | none =>
    rw [hfile'] at hvn
    cases hvn
  | some vn' =>
    rw [hfile'] at hvn hfile
    cases hvn
    cases hfile with
    | file _ _ hf _ => exact hs.opened _ _ o hf ho

/-- Once its checks pass `do_mmap` returns exactly when the pages can be mapped, and has mapped them then. -/
theorem do_mmap_returns {addr len off place : Nat} {prot : Prot} {flags : MapFlags} {fd : Int} {file : Option (Nat × Nat)}
    (hs : AtRest C held s) (hpr : s.procs p = some pr) (hlen : len < 2 ^ 32)
    (h : MmapPasses C s pr addr len prot flags fd off t place file) :
    ((∃ r, do_mmap C s p addr len prot flags fd off = some r) ↔
      Mappable C s pr.p_vmmap (file.map (·.2)) (ADDR_TO_PN place) (ADDR_TO_PN (roundLen len)) prot) ∧
    ∀ r, do_mmap C s p addr len prot flags fd off = some r → r.2 = .ok place ∧
      MappedAt s r.1 pr.p_vmmap (ADDR_TO_PN place) (ADDR_TO_PN (roundLen len)) prot flags := by
  have hC := C.high_lt
  have hlow := C.low_pos
  have hat := h.at hs.backing.layout hlen
  obtain ⟨⟨fs, rfl⟩, -, hheld⟩ := h.holds hs
  have hpos := ((roundLen_eq hlen).2 h.pages).2
  have hplow := hat.low
  have hphigh := hat.high
  have h₀ : Backing C held (s.setFiles fs) := hs.backing.setFiles fs
  have hret : PN_TO_ADDR (ADDR_TO_PN place) = place := by
    have := hat.page
    unfold PN_TO_ADDR u32
    simp only [PAGE_SIZE] at this ⊢
    omega
  have heq : do_mmap C s p addr len prot flags fd off =
      (vmmap_map C (s.setFiles fs) p pr.p_vmmap (file.map (·.2)) (ADDR_TO_PN place) (ADDR_TO_PN (roundLen len)) prot flags off
        .lohi).bind (mmapReturn file) := by
    rcases do_mmap_eq addr off prot flags fd hs.backing.layout hpr hlen with
      ⟨_, _, -, hno⟩ | ⟨t', place', file', h', he⟩
    · exact absurd h (hno _ _ _)
    · have h1 := h'.place.symm.trans h.place
      cases h1
      have h2 := h'.file.symm.trans h.file
      cases h2
      exact he
  have hmapped : ∀ r₁, vmmap_map C (s.setFiles fs) p pr.p_vmmap (file.map (·.2)) (ADDR_TO_PN place) (ADDR_TO_PN (roundLen len))
      prot flags off .lohi = some r₁ → r₁.2 = .ok (ADDR_TO_PN place) ∧
        MappedAt s r₁.1 pr.p_vmmap (ADDR_TO_PN place) (ADDR_TO_PN (roundLen len)) prot flags := fun r₁ hr₁ => by
    obtain ⟨e, hM⟩ := vmmap_map_maps h₀.layout (roundLen_pages hlen) (by omega) hr₁
    exact ⟨e, hM.inside, hM.outside, hM.others⟩
  rw [heq]
  constructor
  · have hiff : (∃ r, vmmap_map C (s.setFiles fs) p pr.p_vmmap (file.map (·.2)) (ADDR_TO_PN place) (ADDR_TO_PN (roundLen len))
        prot flags off .lohi = some r) ↔ _ :=
      vmmap_map_returns .lohi h₀ hs.outside.nonneg hs.live.vnodes hheld ⟨hpos, roundLen_pages hlen⟩ ⟨by omega, by omega⟩
        (by rw [h.kind]; cases flags.priv <;> simp) h.aligned
    rw [show Mappable C s pr.p_vmmap (file.map (·.2)) (ADDR_TO_PN place) (ADDR_TO_PN (roundLen len)) prot ↔
      Mappable C (s.setFiles fs) pr.p_vmmap (file.map (·.2)) (ADDR_TO_PN place) (ADDR_TO_PN (roundLen len)) prot from
      ⟨fun h => ⟨h.prot, h.low, h.high, h.file, h.removable⟩, fun h => ⟨h.prot, h.low, h.high, h.file, h.removable⟩⟩, ← hiff]
    constructor
    · rintro ⟨r, hr⟩
      obtain ⟨r₁, hr₁, -⟩ := Option.bind_eq_some_iff.1 hr
      exact ⟨r₁, hr₁⟩
    · rintro ⟨⟨s₁, r₁⟩, hr₁⟩
      obtain ⟨e, -⟩ := hmapped _ hr₁
      simp only at e
      subst e
      rw [hr₁]
      exact ⟨_, rfl⟩
  · intro r hr
    obtain ⟨⟨s₁, r₁⟩, hr₁, hr⟩ := Option.bind_eq_some_iff.1 hr
    obtain ⟨e, hM⟩ := hmapped _ hr₁
    simp only at e
    subst e
    obtain ⟨fs', rfl⟩ := mmapReturn_ok hr
    exact ⟨by rw [hret], hM.inside, hM.outside, hM.others⟩

end Weenix.Vm
