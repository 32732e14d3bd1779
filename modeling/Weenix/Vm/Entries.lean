import Weenix.Vm.Unmap
import Weenix.Vm.Protect
/-!
# Page-table entries

`Entries` says what a page-table entry maps: a frame that the chain of an area's
object has for the page, and only a frame of that object itself when it may be
written. `Apart` says that nobody shares the object of a private area: it has
no shadow object on it, and of all areas only the other parts of a split area
of the same process have it. Every operation keeps both.
-/

namespace Weenix.Vm

open Lib Lib.Intervals

variable {C : Config} {s s' t : State} {o b m p v pn : Nat} {a c : VmArea} {pf : Pframe} {pte : Pte} {held : Nat → Int}

/-! ## Page numbers of areas -/

theorem pagenum_eq (a : VmArea) (v : Nat) : a.pagenum v = (a.delta + v) % 2 ^ 32 := by
  unfold VmArea.pagenum VmArea.delta usub
  omega

/-- Areas at the same distance from their object map different pages to different pages. -/
theorem pagenum_inj {v' : Nat} (hd : c.delta = a.delta) (h : c.pagenum v' = a.pagenum v) (hv : v < 2 ^ 32)
    (hv' : v' < 2 ^ 32) : v' = v := by
  rw [pagenum_eq, pagenum_eq, hd] at h
  omega

/-- A page is in one area of a map. -/
theorem Layout.area_unique (hL : Layout C s) (ha : a ∈ s.vmm_list m) (hc : c ∈ s.vmm_list m) (hav : a.Has v)
    (hcv : c.Has v) : c = a := by
  have hs := (hL.areas m).sorted
  have h1 := hs.find_iff.2 ⟨ha, hav⟩
  have h2 := hs.find_iff.2 ⟨hc, hcv⟩
  exact Option.some.inj (h2.symm.trans h1)

theorem Layout.page_lt (hL : Layout C s) (ha : a ∈ s.vmm_list m) (hv : a.Has v) : v < 2 ^ 32 := by
  have h1 := (hL.areas m).high a ha
  have h2 := C.high_lt
  have h3 := hv.2
  omega

/-! ## Frames of a chain -/

/-- How the frame of a page may stand to the chain of an object. -/
abbrev FrameRel := State → Nat → Nat → Pframe → Prop

/-- Some object of the chain has the frame. -/
def State.below (s : State) (o pn : Nat) (pf : Pframe) : Prop :=
  ∃ y, Layers.Reaches s.parent o y ∧ s.frame? y pn = some pf

/-- The chain reads the page from the frame. -/
def State.reads (s : State) (o pn : Nat) (pf : Pframe) : Prop := s.resolves o pn = some pf

/-- What page-table entries need of a relation between a chain and a frame: it
lasts while the chain stays and no object above its end gets or loses a frame. -/
structure OnChain (R : FrameRel) : Prop where
  keep : ∀ {s s' o pn pf}, Chains s → Chains s' → (∀ y, Layers.Reaches s.parent o y → s'.parent y = s.parent y ∧
    (s'.frame? y pn = s.frame? y pn ∨ (s.parent y = none ∧ s.frame? y pn ≠ some pf))) → R s o pn pf → R s' o pn pf
  below : ∀ {s o pn pf}, Chains s → R s o pn pf → s.below o pn pf
  found : ∀ {s o pn pf}, Chains s → s.resolves o pn = some pf → R s o pn pf

theorem resolves_below (hc : Chains s) (h : s.resolves o pn = some pf) : s.below o pn pf :=
  Layers.find_reaches hc.grounded h

theorem onChain_reads : OnChain State.reads where
  keep hc hc' h hr := Layers.find_keep hc.grounded hc'.grounded h hr
  below hc h := resolves_below hc h
  found _ h := h

theorem onChain_below : OnChain State.below where
  keep := by
    rintro s s' o pn pf - - h ⟨y, hy, hf⟩
    refine ⟨y, Layers.reaches_congr (fun z hz => (h z hz).1) hy, ?_⟩
    rcases (h y hy).2 with e | ⟨-, hne⟩
    · exact e.trans hf
    · exact absurd hf hne
  below _ h := h
  found hc h := resolves_below hc h

/-! ## Entries -/

/-- The entry `pte` of page `v` of process `p` is for area `a` with object `o`, and maps `pf`. -/
structure Entry (R : FrameRel) (s : State) (p v : Nat) (pte : Pte) (pr : Proc) (a : VmArea) (o : Nat) (pf : Pframe) :
    Prop where
  proc : s.procs p = some pr
  area : a ∈ s.vmm_list pr.p_vmmap
  has : a.Has v
  obj : a.vma_obj = some o
  frame : R s o (a.pagenum v) pf
  page : pf.pf_addr = pte.pt_page
  write : pte.pt_write = true → pf.pf_obj = o

def Entries (R : FrameRel) (s : State) : Prop :=
  ∀ p v pte, s.p_pagedir p v = some pte → ∃ pr a o pf, Entry R s p v pte pr a o pf

/-- The rule for the entries: those left have their area, up to its pages, and their chain. -/
theorem Entries.keep {R : FrameRel} (hR : OnChain R) (h : Entries R s) (hc : Chains s) (hc' : Chains s')
    (hpd : NoNewMapping s s')
    (hstay : ∀ p v pte pr a o pf, s'.p_pagedir p v = some pte → Entry R s p v pte pr a o pf →
      (∃ pr' a', s'.procs p = some pr' ∧ a' ∈ s'.vmm_list pr'.p_vmmap ∧ a'.Has v ∧ a'.vma_obj = some o ∧
        a'.pagenum v = a.pagenum v) ∧
      ∀ y, Layers.Reaches s.parent o y → s'.parent y = s.parent y ∧ (s'.frame? y (a.pagenum v) = s.frame? y (a.pagenum v) ∨
        (s.parent y = none ∧ s.frame? y (a.pagenum v) ≠ some pf))) : Entries R s' := by
  intro p v pte hpte
  obtain ⟨pr, a, o, pf, he⟩ := h p v pte (hpd p v pte hpte)
  obtain ⟨⟨pr', a', h1, h2, h3, h4, h5⟩, hchain⟩ := hstay p v pte pr a o pf hpte he
  exact ⟨pr', a', o, pf, h1, h2, h3, h4, by rw [h5]; exact hR.keep hc hc' hchain he.frame, he.page, he.write⟩

/-- The same where areas, objects and frames stay. -/
theorem Entries.unmap {R : FrameRel} (hR : OnChain R) (h : Entries R s) (hc : Chains s) (hpd : NoNewMapping s s')
    (hprocs : s'.procs = s.procs) (hlist : s'.vmm_list = s.vmm_list) (hobjs : s'.objs = s.objs) (hnobjs : s'.nobjs = s.nobjs)
    (hframes : s'.pframes = s.pframes) : Entries R s' := by
  refine h.keep hR hc (hc.congr hobjs hnobjs) hpd fun p v pte pr a o pf _ he => ⟨⟨pr, a, ?_, ?_, he.has, he.obj, rfl⟩,
    fun y _ => ⟨congrFun (parent_congr hobjs) y, .inl ?_⟩⟩
  · rw [hprocs]
    exact he.proc
  · rw [hlist]
    exact he.area
  · simp [State.frame?, hframes]

namespace Entry
variable {R : FrameRel} {pr : Proc}

/-- The frame is resident, and holds the page of an object of the chain. -/
theorem mem (he : Entry R s p v pte pr a o pf) (hR : OnChain R) (hc : Chains s) (hf : Frames s) :
    pf ∈ s.pframes ∧ Layers.Reaches s.parent o pf.pf_obj ∧ pf.pf_pagenum = a.pagenum v := by
  obtain ⟨y, hy, hfr⟩ := hR.below hc he.frame
  obtain ⟨h1, rfl, h3⟩ := (frame?_eq_some hf).1 hfr
  exact ⟨h1, hy, h3⟩

end Entry

/-! ## Private areas -/

/-- The object of a private area has no shadow object on it, and only other
parts of the area have it. -/
structure Apart (s : State) : Prop where
  leaf : ∀ m, ∀ a ∈ s.vmm_list m, a.vma_flags.shared = false → ∀ o, a.vma_obj = some o → ∀ x, s.parent x ≠ some o
  once : ∀ m, ∀ a ∈ s.vmm_list m, a.vma_flags.shared = false → ∀ o, a.vma_obj = some o →
    ∀ m', ∀ c ∈ s.vmm_list m', c.vma_obj = some o → m' = m ∧ c.delta = a.delta

/-- The rule for changes of the lists: every area is a part of one there was. -/
theorem Apart.parts (h : Apart s) (hpar : s'.parent = s.parent)
    (hl : ∀ m, ∀ c ∈ s'.vmm_list m, ∃ a ∈ s.vmm_list m, c.vma_obj = a.vma_obj ∧ c.delta = a.delta ∧
      c.vma_flags.shared = a.vma_flags.shared) : Apart s' := by
  constructor
  case leaf =>
    intro m c hc hs o ho x
    obtain ⟨a, ha, e1, -, e3⟩ := hl m c hc
    rw [hpar]
    exact h.leaf m a ha (e3 ▸ hs) o (e1 ▸ ho) x
  case once =>
    intro m c hc hs o ho m' d hd hdo
    obtain ⟨a, ha, e1, e2, e3⟩ := hl m c hc
    obtain ⟨a', ha', e1', e2', -⟩ := hl m' d hd
    obtain ⟨h1, h2⟩ := h.once m a ha (e3 ▸ hs) o (e1 ▸ ho) m' a' ha' (e1' ▸ hdo)
    exact ⟨h1, by rw [e2', e2, h2]⟩

theorem Apart.same (h : Apart s) (hpar : s'.parent = s.parent) (hl : s'.vmm_list = s.vmm_list) : Apart s' :=
  h.parts hpar fun m c hc => ⟨c, by rw [← hl]; exact hc, rfl, rfl, rfl⟩

/-- Of the chains of areas, only that of a private area itself passes its object. -/
theorem Apart.reached (h : Apart s) (ha : a ∈ s.vmm_list m) (hs : a.vma_flags.shared = false) (ho : a.vma_obj = some o)
    {x : Nat} (hx : Layers.Reaches s.parent x o) : x = o :=
  Layers.reaches_leaf (h.leaf m a ha hs o ho) hx

end Weenix.Vm
