import Weenix.Vm.Attach
/-!
# References across `fork`

`do_fork` returns where the references are counted and every area has an
object, and keeps both. For a private area the two new shadow objects take the
place of the parent's area at the object below, which so gets one reference.
-/

namespace Weenix.Vm

open Lib

variable {C : Config} {s s' t : State} {o b m m' p : Nat} {a c d : VmArea} {ob : Mmobj} {held : Nat → Int}

/-! ## Areas that get another object -/

theorem mem_modArea {k id : Nat} {x : Option Nat} (h : d ∈ (s.modArea m id (VmArea.withObj x)).vmm_list k) :
    (d ∈ s.vmm_list k ∧ (k = m → d.vma_id ≠ id)) ∨ d.vma_obj = x := by
  unfold State.modArea State.setList at h
  by_cases e : k = m
  · subst e
    simp only [Function.update_self, List.mem_map] at h
    obtain ⟨c, hc, rfl⟩ := h
    by_cases e : c.vma_id = id
    · rw [if_pos e]
      exact .inr rfl
    · rw [if_neg e]
      exact .inl ⟨hc, fun _ => e⟩
  · simp only [Function.update_of_ne e] at h
    exact .inl ⟨h, fun h => absurd h e⟩

theorem modArea_mem {k id : Nat} {f : VmArea → VmArea} (h : d ∈ s.vmm_list k) (hid : k = m → d.vma_id ≠ id) :
    d ∈ (s.modArea m id f).vmm_list k := by
  unfold State.modArea State.setList
  by_cases e : k = m
  · subst e
    simp only [Function.update_self]
    exact List.mem_map.2 ⟨d, h, if_neg (hid rfl)⟩
  · simp only [Function.update_of_ne e]
    exact h

/-- What one turn of the loop of `do_fork` does: the copy `c` of the area `a` of
map `m` gets an object, and other areas stay. -/
structure Copied (C : Config) (held : Nat → Int) (s : State) (m m' : Nat) (a c : VmArea) (s' : State) : Prop where
  backing : Backing C held s'
  objs : ∀ o ob, s.objs o = some ob → s'.objs o = some ob
  nobjs : s.nobjs ≤ s'.nobjs
  stays : ∀ k d, d ∈ s.vmm_list k → (k = m → d.vma_id ≠ a.vma_id) → (k = m' → d.vma_id ≠ c.vma_id) → d ∈ s'.vmm_list k
  settled : ∀ k d, d ∈ s'.vmm_list k → (d ∈ s.vmm_list k ∧ (k = m' → d.vma_id ≠ c.vma_id)) ∨ ∃ o, d.vma_obj = some o

theorem fork_shared (h : Backing C held s) (hheld : ∀ o, 0 ≤ held o) (ha : a ∈ s.vmm_list m)
    (hc : c ∈ s.vmm_list m') (ho : a.vma_obj = some o) (hnone : c.vma_obj = none) (hflags : c.vma_flags.shared = a.vma_flags.shared)
    (hs : a.vma_flags.shared = true) : ∃ s', fork_area s p m m' a c = some s' ∧ Copied C held s m m' a c s' := by
  obtain ⟨ob, hob, hsuits⟩ := h.hung.areas m a ha o ho
  have hfile : ob.isFile = true := by simpa [hs] using hsuits
  have hb : s.bottomOf o = some o := h.chains.bottom_root hob fun e => by simp [Mmobj.isFile, e] at hfile
  have href := mmobj_ref_total (s := s.modArea m' c.vma_id (VmArea.withObj (some o))) hob
    (Nat.zero_lt_of_lt (h.area_pos hheld ha ho))
  have h1 := h.ref o
  have hsuits' : Suits (s.setRefcount o (s.mmo_refcount o + 1)) c o := ⟨ob, hob, by simp [hflags, hs, hfile]⟩
  have h2 := h1.give hc hnone hsuits' hb
  rw [add_sub_cancel_right] at h2
  refine ⟨((s.setRefcount o (s.mmo_refcount o + 1)).linkVma o c.vma_id).modArea m' c.vma_id (VmArea.withObj (some o)),
    ?_, h2, fun _ _ ho => ho, le_rfl, fun k d hd _ hid => ?_, fun k d hd => ?_⟩
  · simp [fork_area, ho, hs, href]
    rfl
  · exact modArea_mem (s := (s.setRefcount o (s.mmo_refcount o + 1)).linkVma o c.vma_id) hd hid
  · rcases mem_modArea (s := (s.setRefcount o (s.mmo_refcount o + 1)).linkVma o c.vma_id) hd with hd | hd
    · exact .inl hd
    · exact .inr ⟨o, hd⟩

/-- The new shadow objects of the parent and the child over `o`. -/
def State.shadowTwice (s : State) (o b : Nat) : State :=
  (s.newObj ⟨.shadow, some o, some b⟩).newObj ⟨.shadow, some o, some b⟩

/-- They hold two references to `o`, which nobody took for them. -/
theorem Backing.shadowTwice (h : Backing C held s) (h0 : ∀ o, s.nobjs ≤ o → held o = 0) (hb : s.bottomOf o = some b) :
    Backing C (held + holding s.nobjs - holding o + holding (s.nobjs + 1) - holding o) (s.shadowTwice o b) := by
  obtain ⟨ob, hob⟩ := Chains.of_bottom hb
  have hlt := h.chains.known o ob hob
  have h1 : Backing C (held + holding s.nobjs - holding o) (s.newObj ⟨.shadow, some o, some b⟩) :=
    h.newObj (.shadow hb) (h0 _ le_rfl)
  have h01 : (held + holding s.nobjs - holding o) (s.nobjs + 1) = 0 := by
    simp [holding, h0 _ (Nat.le_succ s.nobjs), show ¬ s.nobjs + 1 = o by omega]
  exact h1.newObj (.shadow (h.chains.bottom_old hb)) h01

theorem Chains.shadowTwice (hc : Chains s) (hb : s.bottomOf o = some b) (x : Nat) (hx : x = s.nobjs ∨ x = s.nobjs + 1) :
    (s.shadowTwice o b).objs x = some ⟨.shadow, some o, some b⟩ ∧ (s.shadowTwice o b).bottomOf x = some b := by
  have hfit : Fits s ⟨.shadow, some o, some b⟩ := .shadow hb
  have hc1 := hc.newObj hfit
  rcases hx with rfl | rfl
  · exact ⟨hc1.old newObj_self, hc1.bottom_old hfit.bottom_new⟩
  · have hfit1 : Fits (s.newObj ⟨.shadow, some o, some b⟩) ⟨.shadow, some o, some b⟩ := .shadow (hc.bottom_old hb)
    exact ⟨newObj_self, hfit1.bottom_new⟩

/-- The reference to `o` for them, with the child's area `c` on the list of the bottom object. -/
def State.shadowRef (s : State) (o b : Nat) (c : VmArea) : State :=
  ((s.shadowTwice o b).setRefcount o ((s.shadowTwice o b).mmo_refcount o + 1)).linkVma b c.vma_id

theorem fork_private (h : Backing C held s) (hheld : ∀ o, 0 ≤ held o) (h0 : ∀ o, s.nobjs ≤ o → held o = 0) (hm : m ≠ m')
    (ha : a ∈ s.vmm_list m) (hc : c ∈ s.vmm_list m') (ho : a.vma_obj = some o) (hnone : c.vma_obj = none)
    (hflags : c.vma_flags.shared = a.vma_flags.shared) (hs : a.vma_flags.shared = false) :
    ∃ s', fork_area s p m m' a c = some s' ∧ Copied C held s m m' a c s' := by
  obtain ⟨ob, hob, hsuits⟩ := h.hung.areas m a ha o ho
  have hops : ob.mmo_ops = .shadow := by simpa [hs] using hsuits
  obtain ⟨below, b, hbelow, -, -, hbot⟩ := h.chains.shadow o ob hob hops
  have hb : s.bottomOf o = some b := (Chains.bottom_shadow hob hbelow).trans hbot
  have hlt := h.chains.known o ob hob
  obtain ⟨hpar, hparb⟩ := h.chains.shadowTwice hb s.nobjs (.inl rfl)
  obtain ⟨hchild, hchildb⟩ := h.chains.shadowTwice hb (s.nobjs + 1) (.inr rfl)
  have hcount : (s.shadowTwice o b).mmo_refcount o = s.mmo_refcount o := by
    have e1 : o ≠ s.nobjs := hlt.ne
    have e2 : o ≠ s.nobjs + 1 := by omega
    simp [State.shadowTwice, State.newObj, e1, e2]
  have hob2 : (s.shadowTwice o b).objs o = some ob := (h.chains.newObj (.shadow hb)).old (h.chains.old hob)
  have hbo : (s.shadowTwice o b).bottomOf o = some b :=
    (h.chains.newObj (.shadow hb)).bottom_old (h.chains.bottom_old hb)
  have href := mmobj_ref_total (s := (s.shadowTwice o b).linkVma b c.vma_id) hob2
    (hcount ▸ Nat.zero_lt_of_lt (h.area_pos hheld ha ho))
  -- the reference is for the two shadow objects; the parent's area gives its own away
  have h1 := (h.shadowTwice h0 hb).ref o
  have h2 := h1.give hc hnone ⟨_, hchild, by simp [hflags, hs]⟩ hchildb
  have ha2 : a ∈ ((s.shadowRef o b c).modArea m' c.vma_id (VmArea.withObj (some (s.nobjs + 1)))).vmm_list m :=
    modArea_mem (s := s.shadowRef o b c) ha fun e => absurd e hm
  have h3 := h2.rehang ha2 ho hbo ⟨_, hpar, by simp [hs]⟩ hparb
  have e : held + holding s.nobjs - holding o + holding (s.nobjs + 1) - holding o + holding o - holding (s.nobjs + 1) +
      holding o - holding s.nobjs = held := by abel
  rw [e] at h3
  refine ⟨(((s.shadowRef o b c).modArea m' c.vma_id (VmArea.withObj (some (s.nobjs + 1)))).modArea m a.vma_id
    (VmArea.withObj (some s.nobjs))).pt_unmap_range p a.vma_start a.vma_end, ?_, h3.pagedir _,
    fun x ob hx => ?_, ?_, fun k d hd h1 h2 => ?_, fun k d hd => ?_⟩
  · unfold State.shadowTwice at href
    simp only [fork_area, ho, hs, Bool.not_false, if_true, hob, hbot, href, bind, Option.bind_some]
    rfl
  · have hx' : (s.shadowTwice o b).objs x = some ob := (h.chains.newObj (.shadow hb)).old (h.chains.old hx)
    exact hx'
  · exact (Nat.le_succ _).trans (Nat.le_succ _)
  · exact modArea_mem (modArea_mem (s := s.shadowRef o b c) hd h2) h1
  · rcases mem_modArea (s := (s.shadowRef o b c).modArea m' c.vma_id (VmArea.withObj (some (s.nobjs + 1)))) hd with ⟨hd, -⟩ | hd
    · rcases mem_modArea (s := s.shadowRef o b c) hd with hd | hd
      · exact .inl hd
      · exact .inr ⟨_, hd⟩
    · exact .inr ⟨_, hd⟩

theorem fork_area_total (h : Backing C held s) (hheld : ∀ o, 0 ≤ held o) (h0 : ∀ o, s.nobjs ≤ o → held o = 0) (hm : m ≠ m')
    (ha : a ∈ s.vmm_list m) (hc : c ∈ s.vmm_list m') (ho : a.vma_obj = some o) (hnone : c.vma_obj = none)
    (hflags : c.vma_flags.shared = a.vma_flags.shared) :
    ∃ s', fork_area s p m m' a c = some s' ∧ Copied C held s m m' a c s' := by
  by_cases hs : a.vma_flags.shared = true
  · exact fork_shared h hheld ha hc ho hnone hflags hs
  · exact fork_private h hheld h0 hm ha hc ho hnone hflags (by simpa using hs)

/-! ## The loop -/

/-- The areas `l'` of map `m'` are the copies still without an object. -/
structure Copying (s : State) (m m' : Nat) (l l' : List VmArea) : Prop where
  old : ∀ a ∈ l, a ∈ s.vmm_list m ∧ ∃ o, a.vma_obj = some o
  new : ∀ c ∈ l', c ∈ s.vmm_list m' ∧ c.vma_obj = none
  ids : (l.map (·.vma_id)).Nodup ∧ (l'.map (·.vma_id)).Nodup
  settled : ∀ k d, d ∈ s.vmm_list k → (k = m' ∧ d ∈ l') ∨ ∃ o, d.vma_obj = some o

/-- After a turn the other areas are still to be copied. -/
theorem Copying.next {l l' : List VmArea} (h : Copying s m m' (a :: l) (c :: l')) (hm : m ≠ m')
    (hcopied : Copied C held s m m' a c s') : Copying s' m m' l l' := by
  obtain ⟨hla, hlc⟩ := h.ids
  rw [List.map_cons, List.nodup_cons] at hla hlc
  have hla' : ∀ d ∈ l, d.vma_id ≠ a.vma_id := fun d hd e => hla.1 (e ▸ List.mem_map_of_mem hd)
  have hlc' : ∀ d ∈ l', d.vma_id ≠ c.vma_id := fun d hd e => hlc.1 (e ▸ List.mem_map_of_mem hd)
  refine ⟨fun d hd => ?_, fun d hd => ?_, ⟨hla.2, hlc.2⟩, fun k d hd => ?_⟩
  · obtain ⟨h2, h3⟩ := h.old d (by simp [hd])
    exact ⟨hcopied.stays m d h2 (fun _ => hla' d hd) (fun e => absurd e hm), h3⟩
  · obtain ⟨h2, h3⟩ := h.new d (by simp [hd])
    exact ⟨hcopied.stays m' d h2 (fun e => absurd e.symm hm) (fun _ => hlc' d hd), h3⟩
  · rcases hcopied.settled k d hd with ⟨h2, h3⟩ | h2
    · rcases h.settled k d h2 with ⟨rfl, h4⟩ | h4
      · rcases List.mem_cons.1 h4 with rfl | h4
        · exact absurd rfl (h3 rfl)
        · exact .inl ⟨rfl, h4⟩
      · exact .inr h4
    · exact .inr h2

theorem fork_areas_total {l l' : List VmArea} (hl : List.Forall₂ (fun a c => c.vma_flags.shared = a.vma_flags.shared) l l')
    (hheld : ∀ o, 0 ≤ held o) (hm : m ≠ m') :
    ∀ {s : State}, Backing C held s → (∀ o, s.nobjs ≤ o → held o = 0) → Copying s m m' l l' →
      ∃ s', fork_areas p m m' s l l' = some s' ∧ Kept C held s s' := by
  induction hl with
  | nil =>
    intro s h _ hcopy
    refine ⟨s, rfl, h, fun k d hd => ?_, fun _ _ ho => ho, le_rfl⟩
    rcases hcopy.settled k d hd with ⟨-, hd⟩ | hd
    · cases hd
    · exact hd
  | @cons a c l l' hflags _ ih =>
    intro s h h0 hcopy
    obtain ⟨ha, o, ho⟩ := hcopy.old a (by simp)
    obtain ⟨hc, hnone⟩ := hcopy.new c (by simp)
    obtain ⟨s₁, h1, hcopied⟩ := fork_area_total (p := p) h hheld h0 hm ha hc ho hnone hflags
    obtain ⟨s', h2, hK⟩ := ih hcopied.backing (fun o ho => h0 o (hcopied.nobjs.trans ho)) (hcopy.next hm hcopied)
    refine ⟨s', ?_, hK.backing, hK.settled, fun o ob ho => hK.objs o ob (hcopied.objs o ob ho),
      hcopied.nobjs.trans hK.nobjs⟩
    simp only [fork_areas, h1, h2, bind, Option.bind_some]

/-! ## New maps -/

/-- A new map whose areas have no objects yet. -/
theorem Backing.addMap {l : List VmArea} (h : Backing C held s) (hL : Layout C s') (hn : s'.nmaps = s.nmaps + 1)
    (hl : s'.vmm_list = Function.update s.vmm_list s.nmaps l) (hnone : ∀ a ∈ l, a.vma_obj = none)
    (hobjs : s'.objs = s.objs) (hnobjs : s'.nobjs = s.nobjs) (hvmas : s'.mmo_vmas = s.mmo_vmas)
    (hcount : s'.mmo_refcount = s.mmo_refcount) (hnres : s'.mmo_nrespages = s.mmo_nrespages) (hf : Frames s')
    (hi : Idle s') (hnum : s'.num = s.num) : Backing C held s' := by
  refine ⟨hL, h.chains.congr hobjs hnobjs, hf, hi, ?_, ?_, hnum.trans h.num⟩
  · refine h.hung.setList _ hobjs hl (fun a ha o ho => ?_) (fun _ _ a _ b hid => by rwa [hvmas])
      (by rw [hvmas]; exact h.hung.once) fun b id hid => ?_
    · rw [hnone a ha] at ho
      cases ho
    · rw [hvmas] at hid
      refine .inr ⟨hid, fun a ha => ?_⟩
      rw [h.layout.unused _ le_rfl] at ha
      cases ha
  · refine h.counted.step fun o ob ho => ⟨hobjs ▸ ho, ?_⟩
    have hshadows : s'.shadowsOf o = s.shadowsOf o := shadowsOf_congr hobjs hnobjs
    have hareas : s'.areasOf o = s.areasOf o := by
      unfold State.areasOf
      rw [hn, hl, tally, Tally.update_ge _ le_rfl, Function.update_self]
      have hzero : l.countP (fun a => decide (a.vma_obj = some o)) = 0 := by
        rw [List.countP_eq_zero]
        intro a ha
        simp [hnone a ha]
      rw [hzero]
      rfl
    simp only [State.refsTo, hareas, hshadows, hcount, hnres]

theorem vmmap_create_backing (h : Backing C held s) : Backing C held (vmmap_create s) :=
  h.addMap (vmmap_create_layout h.layout) rfl rfl (by simp) rfl rfl rfl rfl rfl (h.frames.congr rfl rfl rfl rfl rfl rfl)
    h.idle rfl

theorem proc_create_backing (h : Backing C held s) : Backing C held (proc_create s) :=
  h.addMap (proc_create_layout h.layout) rfl rfl (by simp) rfl rfl rfl rfl rfl (h.frames.congr rfl rfl rfl rfl rfl rfl)
    h.idle rfl

theorem vmmap_clone_lists : (vmmap_clone s m).vmm_list =
    Function.update s.vmm_list s.nmaps (cloneAreas s.nmaps s.nareas (s.vmm_list m)) := by
  simp [vmmap_clone, vmmap_create]

theorem cloneAreas_none {id : Nat} {l : List VmArea} (hc : c ∈ cloneAreas m id l) : c.vma_obj = none := by
  obtain ⟨a, -, i, -, -, rfl⟩ := mem_cloneAreas hc
  rfl

theorem vmmap_clone_backing (h : Backing C held s) : Backing C held (vmmap_clone s m) :=
  h.addMap (vmmap_clone_layout h.layout) rfl vmmap_clone_lists (fun _ => cloneAreas_none) rfl rfl rfl rfl rfl
    (h.frames.congr rfl rfl rfl rfl rfl rfl) h.idle rfl

theorem cloneAreas_copies (m : Nat) (l : List VmArea) : ∀ id,
    List.Forall₂ (fun a c => ∃ i, c = cloneArea m i a) l (cloneAreas m id l) := by
  induction l with
  | nil => exact fun _ => .nil
  | cons a l ih => exact fun id => .cons ⟨id, rfl⟩ (ih (id + 1))

theorem cloneAreas_flags (m : Nat) (l : List VmArea) (id : Nat) :
    List.Forall₂ (fun a c => c.vma_flags.shared = a.vma_flags.shared) l (cloneAreas m id l) := by
  refine (cloneAreas_copies m l id).imp fun a c h => ?_
  obtain ⟨i, rfl⟩ := h
  rfl

/-- The maps when the loop of `do_fork` starts. -/
theorem fork_lists (hm : m < s.nmaps) (k : Nat) : (vmmap_clone (proc_create s) m).vmm_list k =
    if k = s.nmaps + 1 then cloneAreas (s.nmaps + 1) s.nareas (s.vmm_list m)
    else if k = s.nmaps then [] else s.vmm_list k := by
  have e : (proc_create s).vmm_list m = s.vmm_list m := Function.update_of_ne hm.ne ..
  rw [vmmap_clone_lists, e]
  show Function.update (Function.update s.vmm_list s.nmaps []) (s.nmaps + 1) _ k = _
  simp only [Function.update_apply]
  rfl

theorem fork_parent (hm : m < s.nmaps) : (vmmap_clone (proc_create s) m).vmm_list m = s.vmm_list m := by
  rw [fork_lists hm, if_neg (by omega), if_neg hm.ne]

theorem fork_child (hm : m < s.nmaps) : (vmmap_clone (proc_create s) m).vmm_list (s.nmaps + 1) =
    cloneAreas (s.nmaps + 1) s.nareas (s.vmm_list m) := by
  rw [fork_lists hm, if_pos rfl]

/-- The loop of `do_fork` starts with all areas of the parent still to be copied. -/
theorem fork_copying (h : Backing C held s) (hs : Settled s) (hmap : m < s.nmaps) :
    Copying (vmmap_clone (proc_create s) m) m (s.nmaps + 1) (s.vmm_list m) (cloneAreas (s.nmaps + 1) s.nareas (s.vmm_list m)) := by
  have h1 : Backing C held (vmmap_clone (proc_create s) m) := vmmap_clone_backing (proc_create_backing h)
  have hparent := fork_parent hmap
  have hchild := fork_child hmap
  refine ⟨fun a ha => ⟨hparent ▸ ha, hs _ a ha⟩, fun c hc => ⟨hchild ▸ hc, cloneAreas_none hc⟩,
    ⟨hparent ▸ h1.layout.ids _, hchild ▸ h1.layout.ids _⟩, fun k d hd => ?_⟩
  rw [fork_lists hmap] at hd
  split at hd
  next e => exact .inl ⟨e, hd⟩
  next =>
    split at hd
    · cases hd
    · exact .inr (hs k d hd)

/-- `do_fork` is the loop over the areas of the parent and their copies. -/
theorem do_fork_eq {pr : Proc} (hpr : s.procs p = some pr) (hmap : pr.p_vmmap < s.nmaps) : do_fork s p =
    (fork_areas p pr.p_vmmap (s.nmaps + 1) (vmmap_clone (proc_create s) pr.p_vmmap) (s.vmm_list pr.p_vmmap)
      (cloneAreas (s.nmaps + 1) s.nareas (s.vmm_list pr.p_vmmap))).map fun t =>
        (setBrk (t.setProc s.nprocs (some ⟨s.nmaps + 1, pr.p_start_brk, pr.p_files⟩)) s.nprocs (t.p_brk p), s.nprocs) := by
  simp only [do_fork, hpr, bind, Option.bind_some]
  rw [fork_parent hmap, show (proc_create s).nmaps = s.nmaps + 1 from rfl, fork_child hmap]
  cases fork_areas p pr.p_vmmap (s.nmaps + 1) (vmmap_clone (proc_create s) pr.p_vmmap) (s.vmm_list pr.p_vmmap)
      (cloneAreas (s.nmaps + 1) s.nareas (s.vmm_list pr.p_vmmap)) with
  | none => rfl
  | some t => rfl

theorem do_fork_total {pr : Proc} (h : Backing C held s) (hheld : ∀ o, 0 ≤ held o) (h0 : ∀ o, s.nobjs ≤ o → held o = 0)
    (hs : Settled s) (hpr : s.procs p = some pr) (hmap : pr.p_vmmap < s.nmaps) :
    ∃ s' c, do_fork s p = some (s', c) ∧ Kept C held s s' := by
  have h1 : Backing C held (vmmap_clone (proc_create s) pr.p_vmmap) := vmmap_clone_backing (proc_create_backing h)
  obtain ⟨s₁, hf, hK⟩ := fork_areas_total (p := p) (cloneAreas_flags (s.nmaps + 1) _ s.nareas) hheld (by omega) h1 h0
    (fork_copying h hs hmap)
  refine ⟨setBrk (s₁.setProc s.nprocs (some ⟨s.nmaps + 1, pr.p_start_brk, pr.p_files⟩)) s.nprocs (s₁.p_brk p), s.nprocs,
    ?_, hK.backing.processes _ _ s₁.zombies, hK.settled.congr rfl, hK.objs, hK.nobjs⟩
  rw [do_fork_eq hpr hmap, hf, Option.map_some]

end Weenix.Vm
