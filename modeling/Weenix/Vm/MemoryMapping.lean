import Weenix.Vm.Mappings
import Weenix.Vm.Memory
/-!
# Memory across new areas

A new private area without a file shows zeros, and the objects that come with
it change nothing else that is seen.
-/

namespace Weenix.Vm

open Lib Lib.Intervals

variable {C : Config} {s s' t : State} {o pn m p v k : Nat} {a d : VmArea} {pr : Proc} {ob : Mmobj} {held : Nat → Int}

/-! ## New objects -/

/-- There may be more objects; frames and what they hold stay. -/
structure Extends (s s' : State) : Prop where
  objs : ∀ x ob, s.objs x = some ob → s'.objs x = some ob
  frames : s'.pframes = s.pframes
  mem : s'.mem = s.mem
  disk : s'.disk = s.disk

theorem Extends.trans (h : Extends s t) (h' : Extends t s') : Extends s s' :=
  ⟨fun x ob hx => h'.objs x ob (h.objs x ob hx), h'.frames.trans h.frames, h'.mem.trans h.mem, h'.disk.trans h.disk⟩

theorem Extends.newObj (hc : Chains s) (ob : Mmobj) : Extends s (s.newObj ob) := ⟨fun _ _ hx => hc.old hx, rfl, rfl, rfl⟩

theorem Extends.frame? (h : Extends s s') : s'.frame? = s.frame? := by
  funext x pn
  simp [State.frame?, h.frames]

/-- The objects there were have the pages they had. -/
theorem Extends.page (h : Extends s s') (hc : Chains s) (hc' : Chains s') (ho : s.objs o = some ob) : s'.page o pn = s.page o pn := by
  refine page_keep hc hc' h.mem h.disk fun y hy => ?_
  obtain ⟨oby, hoby⟩ := hc.reaches_obj ho hy
  exact ⟨(h.objs y oby hoby).trans hoby.symm, by rw [h.frame?]⟩

/-- So what is mapped as it was is seen as it was. -/
theorem Extends.pages (h : Extends s s') (hB : Backing C held s) (hc' : Chains s') (hobj : s'.objPage m v = s.objPage m v) :
    s'.pages m v = s.pages m v := by
  simp only [State.pages, hobj]
  cases hx : s.objPage m v with
  | none => rfl
  | some x =>
    obtain ⟨d, hd, -, hdo, -⟩ := objPage_some hx
    obtain ⟨ob, hob, -⟩ := hB.hung.areas m d hd x.1 hdo
    simp only [Option.map_some, h.page hB.chains hc' hob]

/-- An object that does not exist yet has no frames. -/
theorem Backing.frame?_new (h : Backing C held s) (ho : s.nobjs ≤ o) : s.frame? o pn = none := by
  refine frame?_eq_none.2 fun pf hpf e => ?_
  obtain ⟨ob, hob⟩ := h.frames.owner pf hpf
  have := h.chains.known _ ob hob
  omega

/-! ## Mapping -/

/-- What making room for pages `[lo, lo + npages)` of map `m` leaves. -/
theorem room_pages {lo npages : Nat} (h : Backing C held s) (hheld : ∀ o, 0 ≤ held o)
    (hfrom : t = s.vmarea_alloc ∨ lo + npages < 2 ^ 32 ∧ vmmap_remove C s.vmarea_alloc p m lo npages = some t)
    (hout : ¬ (k = m ∧ lo ≤ v ∧ v < lo + npages)) : t.pages k v = s.pages k v := by
  rcases hfrom with rfl | ⟨hlt, hr⟩
  · rfl
  · have h₀ := h.vmarea_alloc
    have hobj := vmmap_remove_objPage h₀.layout hlt hr k v
    rw [if_neg hout] at hobj
    exact pages_same (h₀.remove_same hheld hlt hr) hobj

theorem room_areas {lo npages : Nat} (hL : Layout C s)
    (hfrom : t = s.vmarea_alloc ∨ lo + npages < 2 ^ 32 ∧ vmmap_remove C s.vmarea_alloc p m lo npages = some t)
    (hd : d ∈ t.vmm_list k) : ∃ a ∈ s.vmm_list k, d.vma_obj = a.vma_obj ∧ d.vma_flags = a.vma_flags ∧ d.vma_prot = a.vma_prot := by
  rcases hfrom with rfl | ⟨hlt, hr⟩
  · exact ⟨d, hd, rfl, rfl, rfl⟩
  · exact vmmap_remove_parts (hL.more (Nat.le_succ _)) hlt hr hd

/-- A new anonymous object with a shadow object on it, as a private mapping without a file gets them. -/
def State.newAnon (s : State) : State := (s.newObj ⟨.anon, none, none⟩).newObj ⟨.shadow, some s.nobjs, some s.nobjs⟩

theorem newAnon_extends (hc : Chains s) : Extends s s.newAnon ∧ Chains s.newAnon ∧ s.newAnon.Anonymous (s.nobjs + 1) := by
  have hfit : Fits s ⟨.anon, none, none⟩ := .anon
  have hc₁ := hc.newObj hfit
  have hfit₁ : Fits (s.newObj ⟨.anon, none, none⟩) ⟨.shadow, some s.nobjs, some s.nobjs⟩ := .shadow hfit.bottom_new
  refine ⟨(Extends.newObj hc _).trans (.newObj hc₁ _), hc₁.newObj hfit₁, s.nobjs, ⟨.anon, none, none⟩, hfit₁.bottom_new, ?_, rfl⟩
  exact hc₁.old newObj_self

/-- Its pages are zeros. -/
theorem newAnon_page (h : Backing C held s) (pn : Nat) : s.newAnon.page (s.nobjs + 1) pn = fun _ => 0 := by
  obtain ⟨hext, hc', -⟩ := newAnon_extends h.chains
  have hpar (y : Nat) : s.newAnon.parent y = if y = s.nobjs + 1 then some s.nobjs else if y = s.nobjs then none else s.parent y := by
    unfold State.newAnon
    rw [newObj_parent, newObj_parent]
    rfl
  have hframe {x : Nat} (hx : s.nobjs ≤ x) : s.newAnon.frame? x pn = none := by
    rw [hext.frame?]
    exact h.frame?_new hx
  rw [hc'.page_below (hframe (Nat.le_succ _)) ((hpar _).trans (if_pos rfl)), hc'.page_root (hframe le_rfl)]
  · have hself : s.newAnon.objs s.nobjs = some ⟨.anon, none, none⟩ := (h.chains.newObj .anon).old newObj_self
    simp only [State.source, hself, Option.map_some]
  · rw [hpar, if_neg (Nat.ne_of_lt (Nat.lt_succ_self _)), if_pos rfl]

/-- A new area is mapped to its object, and other pages to what they were. -/
theorem objPage_insert {x : VmArea} (hok : AreasOk C m (s.vmm_list m))
    (hx : x.vma_start < x.vma_end ∧ C.low ≤ x.vma_start ∧ x.vma_end ≤ C.high)
    (hfree : RangeFree (s.vmm_list m) x.vma_start x.vma_end) (ho : x.vma_obj = some o)
    (hl : s'.vmm_list = Function.update s.vmm_list m (insertArea m x (s.vmm_list m))) (k v : Nat) :
    s'.objPage k v = if k = m ∧ x.Has v then some (o, x.pagenum v) else s.objPage k v := by
  simp only [State.objPage, hl]
  by_cases e : k = m
  · subst e
    rw [Function.update_self, lookup_insertArea hok hx hfree]
    by_cases hv : x.Has v
    · rw [if_pos hv, if_pos ⟨rfl, hv⟩]
      simp only [Option.bind_some, ho, Option.map_some]
      rfl
    · rw [if_neg hv, if_neg fun h => hv h.2]
  · rw [Function.update_of_ne e, if_neg fun h => e h.1]

/-- An area `x` of new anonymous pages comes into map `m`. -/
def State.insertAnon (s : State) (m : Nat) (x : VmArea) : State :=
  (s.newAnon.linkVma s.nobjs x.vma_id).setList m (insertArea m (x.withObj (some (s.nobjs + 1))) (s.vmm_list m))

theorem insertAnon_extends (hc : Chains s) (x : VmArea) : Extends s (s.insertAnon m x) ∧ Chains (s.insertAnon m x) ∧
    (s.insertAnon m x).Anonymous (s.nobjs + 1) := by
  obtain ⟨hext, hc', hanon⟩ := newAnon_extends hc
  exact ⟨⟨hext.objs, hext.frames, hext.mem, hext.disk⟩, hc'.congr rfl rfl, hanon⟩

theorem insertAnon_pages {x : VmArea} (h : Backing C held s) (hx : x.vma_start < x.vma_end ∧ C.low ≤ x.vma_start ∧ x.vma_end ≤ C.high)
    (hfree : RangeFree (s.vmm_list m) x.vma_start x.vma_end) (k v : Nat) :
    (s.insertAnon m x).pages k v = if k = m ∧ x.Has v then some fun _ => 0 else s.pages k v := by
  obtain ⟨hext, hc', -⟩ := insertAnon_extends (m := m) h.chains x
  have hobj : (s.insertAnon m x).objPage k v = if k = m ∧ x.Has v then some (s.nobjs + 1, x.pagenum v) else s.objPage k v :=
    objPage_insert (x := x.withObj (some (s.nobjs + 1))) (h.layout.areas m) hx hfree rfl rfl k v
  split
  next hin =>
    rw [State.pages, hobj, if_pos hin, Option.map_some]
    exact congrArg some (newAnon_page h _)
  next hout => exact hext.pages h hc' (hobj.trans (if_neg hout))

theorem insertAnon_areas {x : VmArea} (hd : d ∈ (s.insertAnon m x).vmm_list k) :
    (d.vma_obj = some (s.nobjs + 1) ∧ d.vma_flags = x.vma_flags ∧ d.vma_prot = x.vma_prot) ∨ d ∈ s.vmm_list k := by
  by_cases e : k = m
  · subst e
    rw [State.insertAnon, show (State.setList _ k _).vmm_list k = _ from Function.update_self ..] at hd
    rcases mem_insertArea.1 hd with rfl | hd
    · exact .inl ⟨rfl, rfl, rfl⟩
    · exact .inr hd
  · rw [State.insertAnon, show (State.setList _ m _).vmm_list k = _ from Function.update_of_ne e ..] at hd
    exact .inr hd

theorem room_procs {lo npages : Nat} (hL : Layout C s)
    (hfrom : t = s.vmarea_alloc ∨ lo + npages < 2 ^ 32 ∧ vmmap_remove C s.vmarea_alloc p m lo npages = some t) :
    t.procs = s.procs := by
  rcases hfrom with rfl | ⟨hlt, hr⟩
  · rfl
  · exact (congrArg Spaces.procs (vmmap_remove_list hlt (hL.more (Nat.le_succ _)) hr) :)

/-- `vmmap_map` of private anonymous pages maps zeros there, and leaves the other pages. -/
theorem vmmap_map_anon {lopage npages off start : Nat} {prot : Prot} {flags : MapFlags} {dir : Dir} (h : Backing C held s)
    (hheld : ∀ o, 0 ≤ held o) (hn : npages ≤ 2 ^ 20) (hlo : 0 < lopage) (hp : flags.priv = true)
    (hmap : vmmap_map C s p m none lopage npages prot flags off dir = some (s', .ok start)) :
    start = lopage ∧ s'.procs = s.procs ∧
    (∀ k v, s'.pages k v = if k = m ∧ lopage ≤ v ∧ v < lopage + npages then some fun _ => 0 else s.pages k v) ∧
    ∀ k, ∀ d ∈ s'.vmm_list k, (d.vma_flags = flags ∧ d.vma_prot = prot ∧ ∃ o, d.vma_obj = some o ∧ s'.Anonymous o) ∨
      ∃ a ∈ s.vmm_list k, d.vma_obj = a.vma_obj ∧ d.vma_flags = a.vma_flags ∧ d.vma_prot = a.vma_prot := by
  obtain ⟨⟨hpos, -⟩, heff⟩ := vmmap_map_effect h.layout hn hmap
  cases heff with
  | @mapped _ t s₂ area hfrom hL₁ hroom hst hat =>
    obtain rfl := hst (by omega)
    have h₁ := (h.room hheld hfrom).1
    generalize hx : newArea s.nareas start npages off prot flags = x at hat
    have hhas (v : Nat) : x.Has v ↔ start ≤ v ∧ v < start + npages := by rw [← hx]; exact Iff.rfl
    have hbounds : x.vma_start < x.vma_end ∧ C.low ≤ x.vma_start ∧ x.vma_end ≤ C.high := by
      rw [← hx]
      exact ⟨show start < start + npages by omega, hroom.low, hroom.high⟩
    have hfree : RangeFree (t.vmm_list m) x.vma_start x.vma_end := by rw [← hx]; exact hroom.free
    have e : s₂.setList m (insertArea m area (s₂.vmm_list m)) = t.insertAnon m x := by
      cases attachObject_effect hat with
      | unset hp' =>
        rw [hp] at hp'
        cases hp'
      | anon => rfl
    rw [e]
    refine ⟨rfl, (room_procs h.layout hfrom :), fun k v => ?_, fun k d hd => ?_⟩
    · rw [insertAnon_pages h₁ hbounds hfree]
      simp only [hhas]
      split
      · rfl
      next hout => exact room_pages h hheld hfrom hout
    · rcases insertAnon_areas hd with ⟨hobj, hflags, hprot⟩ | hd
      · exact .inl ⟨by rw [hflags, ← hx]; rfl, by rw [hprot, ← hx]; rfl, _, hobj, (insertAnon_extends h₁.chains x).2.2⟩
      · exact .inr (room_areas h.layout hfrom hd)

theorem mmapFile_anon {len off : Nat} {fd : Int} {prot : Prot} {flags : MapFlags} {file : Option (Nat × Nat)}
    (han : flags.anon = true) (h : mmapFile C s pr len prot flags fd off = (t, .ok file)) : t = s ∧ file = none := by
  simp only [mmapFile, han, Bool.not_true, Bool.false_eq_true, if_false, if_true, ite_self] at h
  cases h
  exact ⟨rfl, rfl⟩

/-- Mapping private anonymous pages gives the process pages of zeros, or fails and changes nothing. -/
theorem Secluded.mmap (h : Secluded C held s) {addr len off : Nat} {prot : Prot} {flags : MapFlags} {fd : Int} {r : Except Errno Nat}
    (hlen : len < 2 ^ 32) (hread : prot.read = true) (hwrite : prot.write = true) (hp : flags.priv = true) (han : flags.anon = true)
    (hm : do_mmap C s p addr len prot flags fd off = some (s', r)) : Secluded C held s' ∧ ∃ f, s.memory p = some f ∧
      ((∃ e, r = .error e ∧ s'.memory = s.memory) ∨ ∃ place, r = .ok place ∧ s'.memory = Function.update s.memory p (some fun v =>
        if ADDR_TO_PN place ≤ v ∧ v < ADDR_TO_PN place + ADDR_TO_PN (roundLen len) then some fun _ => 0 else f v)) := by
  have hB := h.backing
  have hS := h.toLinked.mmap onChain_reads hlen hm
  obtain ⟨pr, hpr, -⟩ := do_mmap_effect hm
  rcases do_mmap_eq addr off prot flags fd hB.layout hpr hlen with ⟨fs, e, he, -⟩ | ⟨t, place, file, hpass, he⟩
  · rw [hm] at he
    cases he
    exact ⟨hS.secluded h.anons fun m c hc => ⟨c, hc, rfl, rfl, rfl⟩, _, memory_of hpr, .inl ⟨e, rfl, rfl⟩⟩
  · obtain ⟨rfl, rfl⟩ := mmapFile_anon han hpass.file
    have hat := hpass.at hB.layout hlen
    have hlow := hat.low
    have hlow' := C.low_pos
    have hret : PN_TO_ADDR (ADDR_TO_PN place) = place := by
      have := hat.page
      have := hat.high
      have := C.high_lt
      simp only [PN_TO_ADDR, u32, PAGE_SIZE] at *
      omega
    rw [hm] at he
    obtain ⟨⟨s₁, r₁⟩, hmap, hr⟩ := Option.bind_eq_some_iff.1 he.symm
    cases r₁ with
    | error e => cases hr
    | ok start =>
      cases hr
      obtain ⟨rfl, hprocs, hpages, hareas⟩ := vmmap_map_anon hB h.outside.nonneg (roundLen_pages hlen) (by omega) hp hmap
      rw [hret]
      refine ⟨⟨hS.linked, fun k d hd => ?_⟩, _, memory_of hpr, .inr ⟨place, rfl, ?_⟩⟩
      · rcases hareas k d hd with ⟨hflags, hprot, hobj⟩ | ⟨a, ha, h1, h2, h3⟩
        · exact ⟨by rw [hflags, hpass.kind, hp]; rfl, by rw [hprot, hread], by rw [hprot, hwrite], hobj⟩
        · exact (h.anons k a ha).part hS.objs h1 h2 h3
      · refine memory_update (fun q pr' hq hpr' => ⟨by rw [hprocs, hpr'], fun v => ?_⟩) (fun q _ hq => by rw [hprocs, hq]) ?_
        · rw [hpages, if_neg fun e => hq (h.owned.own q p pr' pr hpr' hpr e.1)]
        · rw [memory_of (hprocs ▸ hpr)]
          congr 1
          funext v
          rw [hpages]
          simp only [true_and]

end Weenix.Vm
