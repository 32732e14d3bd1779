import Weenix.Vm.Calls
/-!
# Areas with any contents

For any list of areas there is an address space with these areas, protections
included, whose pages hold whatever is wanted. So what holds for all contents of
memory can be told from the areas. `userSpace` puts the arguments of a call in
one of the pages.
-/

namespace Weenix.Vm

open Lib Lib.Intervals

variable {C : Config} {E : Env} {s t : State} {m p v w off count vaddr : Nat} {held : Nat → Int} {f g : Nat → Page}
  {l l' : List VmArea} {a : VmArea} {perm : Prot} {L : ArgsLayout BufArgs} {args : BufArgs} {stack heap k : Nat → UInt8}

/-- The pages of an area, and what may be done there. -/
def VmArea.bound (a : VmArea) : (Nat × Nat) × Prot := (a.span, a.vma_prot)

/-! ## The checks look at nothing else -/

theorem range_perm_from_congr {initial final : Nat} : ∀ {l l' : List VmArea} {found : Bool},
    l.map VmArea.bound = l'.map VmArea.bound → range_perm_from initial final perm found l = range_perm_from initial final perm found l' := by
  intro l
  induction l with
  | nil =>
    intro l' found h
    rw [List.map_nil, eq_comm, List.map_eq_nil_iff] at h
    rw [h]
  | cons a l ih =>
    intro l' found h
    cases l' with
    | nil => cases h
    | cons b l' =>
      simp only [List.map_cons, List.cons.injEq, VmArea.bound, VmArea.span, Prod.mk.injEq] at h
      obtain ⟨⟨⟨h1, h2⟩, h3⟩, hl⟩ := h
      simp only [range_perm_from, h1, h2, h3, ih hl]

theorem range_perm_congr (h : l.map VmArea.bound = l'.map VmArea.bound) (avaddr len : Nat) :
    range_perm l avaddr len perm = range_perm l' avaddr len perm := range_perm_from_congr h

theorem spans_congr (h : l.map VmArea.bound = l'.map VmArea.bound) : l.map VmArea.span = l'.map VmArea.span := by
  have := congrArg (List.map Prod.fst) h
  rwa [List.map_map, List.map_map] at this

theorem addr_perm_bound (l : List VmArea) (vaddr : Nat) (perm : Prot) : addr_perm l vaddr perm =
    (((l.map VmArea.bound).find? fun x => decide (Covers Prod.fst Prod.snd x.1 (ADDR_TO_PN vaddr))).any (·.2.grants perm)) := by
  rw [List.find?_map]
  unfold addr_perm
  change _ = ((vmmap_lookup l (ADDR_TO_PN vaddr)).map VmArea.bound).any _
  cases vmmap_lookup l (ADDR_TO_PN vaddr) with
  | none => rfl
  | some a => rfl

theorem addr_perm_congr (h : l.map VmArea.bound = l'.map VmArea.bound) (vaddr : Nat) :
    addr_perm l vaddr perm = addr_perm l' vaddr perm := by
  rw [addr_perm_bound, addr_perm_bound, h]

/-! ## Protections do not matter for the objects -/

/-- An area without its protections. -/
def VmArea.bare (a : VmArea) : VmArea := { a with vma_prot := {} }

/-- Areas may have any protections. -/
theorem Backing.protections (h : Backing C held s) (lists : Nat → List VmArea) (hl : ∀ m, (lists m).map VmArea.bare = s.vmm_list m) :
    Backing C held { s with vmm_list := lists } := by
  have hmem {m : Nat} {a : VmArea} (ha : a ∈ lists m) : a.bare ∈ s.vmm_list m := by
    rw [← hl]
    exact List.mem_map_of_mem ha
  refine ⟨⟨fun m => ?_, fun m => ?_, fun m a ha => h.layout.fresh m a.bare (hmem ha), fun m m' a ha b hb =>
    h.layout.apart m m' a.bare (hmem ha) b.bare (hmem hb), fun m hm => ?_⟩, h.chains.congr rfl rfl,
    h.frames.congr rfl rfl rfl rfl rfl rfl, h.idle, ⟨fun m a ha => h.hung.areas m a.bare (hmem ha),
      fun m a ha => h.hung.linked m a.bare (hmem ha), h.hung.once, fun b id hid => ?_⟩, fun o ob ho => ?_, h.num⟩
  · have hok := h.layout.areas m
    have hs := hok.sorted
    rw [← hl] at hs
    exact ⟨⟨List.pairwise_map.1 hs.apart, fun a ha => hs.nonempty a.bare (List.mem_map_of_mem ha)⟩,
      fun a ha => hok.low a.bare (hmem ha), fun a ha => hok.high a.bare (hmem ha), fun a ha => hok.owner a.bare (hmem ha)⟩
  · have := h.layout.ids m
    rwa [← hl, List.map_map] at this
  · have := h.layout.unused m hm
    rwa [← hl, List.map_eq_nil_iff] at this
  · obtain ⟨m, a', ha', hid, o, ho, hb⟩ := h.hung.listed b id hid
    rw [← hl] at ha'
    obtain ⟨a, ha, rfl⟩ := List.mem_map.1 ha'
    exact ⟨m, a, ha, hid, o, ho, hb⟩
  · have hareas : ({ s with vmm_list := lists } : State).areasOf o = s.areasOf o := by
      refine Tally.congr fun m _ => ?_
      rw [← hl, List.countP_map]
      rfl
    have := h.counted o ob ho
    rw [this]
    simp only [State.refsTo, hareas]
    rfl

/-! ## An address space -/

/-- The areas `l`, in the map of process `p`, of one file whose page `v` holds `f v`. -/
def userSpace (C : Config) (l : List VmArea) (p : Nat) (f : Nat → Page) : State :=
  { fileSpace C (l.map VmArea.span) f with
    vmm_list := fun m => if m = 0 then l.map fun a => { fileArea a.span with vma_prot := a.vma_prot } else []
    procs := fun q => if q = p then some ⟨0, 0, fun _ => none⟩ else none }

theorem userSpace_backing (hl : SpansOk C (l.map VmArea.span)) : Backing C (fun _ => 0) (userSpace C l p f) := by
  refine ((fileSpace_backing hl).protections (userSpace C l p f).vmm_list fun m => ?_).processes _ _ _
  by_cases e : m = 0
  · subst e
    show (l.map _).map VmArea.bare = (l.map VmArea.span).map fileArea
    rw [List.map_map, List.map_map]
    rfl
  · rw [show (userSpace C l p f).vmm_list m = [] from if_neg e, show (fileSpace C (l.map VmArea.span) f).vmm_list m = [] from if_neg e]
    rfl

theorem userSpace_settled : Settled (userSpace C l p f) := by
  intro m a ha
  simp only [userSpace] at ha
  split at ha
  · obtain ⟨b, -, rfl⟩ := List.mem_map.1 ha
    exact ⟨0, rfl⟩
  · cases ha

theorem userSpace_bounds : ((userSpace C l p f).vmm_list 0).map VmArea.bound = l.map VmArea.bound := by
  show (l.map _).map VmArea.bound = _
  rw [List.map_map]
  rfl

theorem userSpace_proc : (userSpace C l p f).procs p = some ⟨0, 0, fun _ => none⟩ := if_pos rfl

theorem userSpace_pageAt (hl : SpansOk C (l.map VmArea.span)) (hg : Grown (userSpace C l p f) t) (hf : Frames t) (ha : a ∈ l)
    (hv : a.Has v) : t.pageAt 0 v = f v := by
  have hC := C.high_lt
  have hB : Backing C (fun _ => 0) (userSpace C l p f) := userSpace_backing hl
  have hhigh : v < C.high := hv.2.trans_le (hl.high a.span (List.mem_map_of_mem ha))
  have hlookup : vmmap_lookup (t.vmm_list 0) v = some { fileArea a.span with vma_prot := a.vma_prot } := by
    rw [show t.vmm_list = (userSpace C l p f).vmm_list from congrArg Spaces.vmm_list hg.spaces]
    exact (hB.layout.areas 0).sorted.find_iff.2 ⟨List.mem_map.2 ⟨a, ha, rfl⟩, hv⟩
  have hmem : ⟨v, 0, v⟩ ∈ (userSpace C l p f).pframes := List.mem_map_of_mem (List.mem_range.2 hhigh)
  rw [pageAt_frame hlookup rfl (fileArea_pagenum (x := a.span) hv (by omega)).symm (hg.frames _ hmem) (hg.chains hB.chains) hf]
  exact hg.mem _ hmem

/-- Bytes that are mapped are the file's. -/
theorem userSpace_byteAt (hl : SpansOk C (l.map VmArea.span)) (hg : Grown (userSpace C l p f) t) (hf : Frames t) {addr : Nat}
    (ha : addr_perm l addr perm = true) : t.byteAt 0 addr = f (ADDR_TO_PN addr) (addr % PAGE_SIZE) := by
  unfold addr_perm at ha
  cases hlook : vmmap_lookup l (ADDR_TO_PN addr) with
  | none =>
    rw [hlook] at ha
    cases ha
  | some a =>
    have hv := List.find?_some hlook
    simp only [decide_eq_true_eq] at hv
    rw [State.byteAt, userSpace_pageAt hl hg hf (List.mem_of_find?_eq_some hlook) hv]

/-- What is copied in from it. -/
theorem userSpace_copied (hl : SpansOk C (l.map VmArea.span)) (hg : Grown (userSpace C l p f) s) (hB : Backing C (fun _ => 0) s)
    (heap : Nat → UInt8) (vaddr count : Nat) : ∃ s', Grown (userSpace C l p f) s' ∧ Backing C (fun _ => 0) s' ∧
      copy_from_user E s p heap vaddr count = some (if range_perm l vaddr count { read := true } = true then
        (s', readOut f (l.map VmArea.span) vaddr count heap, .ok ()) else (s, heap, .error .EFAULT)) := by
  have hB₀ : Backing C (fun _ => 0) (userSpace C l p f) := userSpace_backing hl
  have hlists : s.vmm_list = (userSpace C l p f).vmm_list := congrArg Spaces.vmm_list hg.spaces
  have hpr : s.procs p = some ⟨0, 0, fun _ => none⟩ := by
    rw [show s.procs = (userSpace C l p f).procs from congrArg Spaces.procs hg.spaces]
    exact userSpace_proc
  have hbounds : (s.vmm_list 0).map VmArea.bound = l.map VmArea.bound := by
    rw [hlists]
    exact userSpace_bounds
  obtain ⟨s', hB', hg', hread⟩ := vmmap_read_out (E := E) hB (fun _ => Int.le_refl 0) (userSpace_settled.congr hlists) 0 vaddr count heap
  have hgrown := hg.trans hg' hB₀.chains hB₀.frames hB.frames
  refine ⟨s', hgrown, hB', ?_⟩
  have hbytes : readOut (s'.pageAt 0) (l.map VmArea.span) vaddr count heap = readOut f (l.map VmArea.span) vaddr count heap := by
    refine areasOut_congr _ _ _ fun x hx v hv => ?_
    obtain ⟨a, ha, rfl⟩ := List.mem_map.1 hx
    exact userSpace_pageAt hl hgrown hB'.frames ha hv
  rw [spans_congr hbounds, hbytes] at hread
  simp only [copy_from_user, hpr, range_perm_congr hbounds, hread, bind, Option.bind_some]
  split
  next h => rw [if_neg (by simp [h])]
  next h => rw [if_pos (by simpa using h)]

/-! ## Arguments in it -/

/-- The layout has place for the arguments, in less than half a page. -/
def ArgsLayout.Stores (L : ArgsLayout BufArgs) (args : BufArgs) : Prop :=
  L.size < 2048 ∧ ∃ k : Nat → UInt8, ∀ k', (∀ i < L.size, k' i = k i) → L.decode k' = args

/-- They are copied in from where a page that may be read has them. -/
theorem userSpace_args (hl : SpansOk C (l.map VmArea.span)) (ha : a ∈ l) (hread : a.vma_prot.grants { read := true } = true)
    (off : Nat) (hoff : off + L.size < 4096) (hL : ∀ k', (∀ i < L.size, k' i = f a.vma_start (off + i)) → L.decode k' = args)
    (stack : Nat → UInt8) : ∃ s', Grown (userSpace C l p f) s' ∧ Backing C (fun _ => 0) s' ∧
      callArgs E L stack (userSpace C l p f) p (a.vma_start * 4096 + off) = some (s', .ok args) := by
  have hC := C.high_lt
  have hhigh : a.vma_end ≤ C.high := hl.high a.span (List.mem_map_of_mem ha)
  have hB₀ : Backing C (fun _ => 0) (userSpace C l p f) := userSpace_backing hl
  have hsorted : Sorted VmArea.vma_start VmArea.vma_end l :=
    ⟨List.pairwise_map.1 hl.sorted.apart, fun b hb => hl.sorted.nonempty b.span (List.mem_map_of_mem hb)⟩
  have hne : a.vma_start < a.vma_end := hsorted.nonempty a ha
  have hhas : a.Has a.vma_start := ⟨le_rfl, hne⟩
  have hlook : vmmap_lookup l a.vma_start = some a := hsorted.find_iff.2 ⟨ha, hhas⟩
  -- every byte of them is in the first page of `a`
  have hpage : ∀ i ≤ L.size, ADDR_TO_PN (a.vma_start * 4096 + off + i) = a.vma_start ∧
      (a.vma_start * 4096 + off + i) % PAGE_SIZE = off + i := fun i hi => by
    unfold ADDR_TO_PN PAGE_SIZE
    omega
  have hfirst : ADDR_TO_PN (a.vma_start * 4096 + off) = a.vma_start := by simpa only [Nat.add_zero] using (hpage 0 (Nat.zero_le _)).1
  have hlast := (hpage L.size le_rfl).1
  have hperm : range_perm l (a.vma_start * 4096 + off) L.size { read := true } = true := by
    rw [range_perm_iff hsorted (by omega), hfirst, hlast]
    refine ⟨⟨_, le_rfl, le_rfl, by simp [Absent, hlook]⟩, fun v h1 h2 => ?_⟩
    obtain rfl : v = a.vma_start := Nat.le_antisymm h2 h1
    simp [Refuses, hlook, hread]
  have hbyte {t : State} (hg : Grown (userSpace C l p f) t) (hf : Frames t) {i : Nat} (hi : i < L.size) :
      t.byteAt 0 (a.vma_start * 4096 + off + i) = f a.vma_start (off + i) := by
    rw [State.byteAt, (hpage i hi.le).1, (hpage i hi.le).2, userSpace_pageAt hl hg hf ha hhas]
  obtain ⟨s', hg, hB, hcopy⟩ := userSpace_copied (E := E) hl (.refl (userSpace C l p f)) hB₀ stack (a.vma_start * 4096 + off) L.size
  rw [if_pos hperm] at hcopy
  have hcopied : ∀ i < L.size, readOut f (l.map VmArea.span) (a.vma_start * 4096 + off) L.size stack i =
      f (ADDR_TO_PN (a.vma_start * 4096 + off + i)) ((a.vma_start * 4096 + off + i) % PAGE_SIZE) := (readOut_right hl
    (fun i hi => ⟨a.span, List.mem_map_of_mem ha, by rw [(hpage i hi.le).1]; exact hhas⟩)
    (fun x _ _ hx => by rwa [hlast, ← hfirst] at hx)
    (by unfold TwoPages PAGE_SIZE; omega) stack).1
  have hpr : s'.procs p = some ⟨0, 0, fun _ => none⟩ := by
    rw [show s'.procs = (userSpace C l p f).procs from congrArg Spaces.procs hg.spaces]
    exact userSpace_proc
  have hdecode : L.decode (readOut f (l.map VmArea.span) (a.vma_start * 4096 + off) L.size stack) = args := by
    refine hL _ fun i hi => ?_
    rw [hcopied i hi, (hpage i hi.le).1, (hpage i hi.le).2]
  have hat : argsAt L s' 0 (a.vma_start * 4096 + off) = args := hL _ fun i hi => hbyte hg hB.frames hi
  refine ⟨s', hg, hB, ?_⟩
  simp only [callArgs, copyArgs, hcopy, hpr, bind, Option.bind_some, Except.map, hdecode, hat]

end Weenix.Vm
