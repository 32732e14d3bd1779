import Weenix.Vm.Copies
import Weenix.Vm.Refs
/-!
# Reading user memory

`vmmap_read` stores what `readOut` says, for the pages as they are when it
returns. So a request is served right, whatever the pages hold, just where
`readOut` is right for all contents.
-/

namespace Weenix.Vm

open Lib Lib.Intervals

variable {C : Config} {E : Env} {s s' t : State} {m o v vaddr count vfnInitial vfnFinal : Nat} {held : Nat → Int}
  {f : Nat → Page} {l : List (Nat × Nat)} {x : Nat × Nat} {c : Cursor} {kmem : Nat → UInt8}

/-- The pages of an area. -/
def VmArea.span (a : VmArea) : Nat × Nat := (a.vma_start, a.vma_end)

theorem AreasOk.spans {l : List VmArea} (h : AreasOk C m l) : SpansOk C (l.map VmArea.span) :=
  ⟨⟨List.pairwise_map.2 h.sorted.apart, List.forall_mem_map.2 h.sorted.nonempty⟩, List.forall_mem_map.2 h.low,
    List.forall_mem_map.2 h.high⟩

namespace State
variable (s : State)

/-- What page `vfn` of map `m` holds. -/
def pageAt (m vfn : Nat) : Page :=
  match (vmmap_lookup (s.vmm_list m) vfn).bind fun a => a.vma_obj.map fun o => s.page o (a.pagenum vfn) with
  | some x => x
  | none => fun _ => 0

/-- The byte of map `m` at the address `addr`. -/
def byteAt (m addr : Nat) : UInt8 := s.pageAt m (ADDR_TO_PN addr) (addr % PAGE_SIZE)

end State

/-- The `count` bytes at `vaddr` of map `m` are in the buffer, and nothing else has changed. -/
structure ReadInto (s s' : State) (m vaddr count : Nat) (kmem kmem' : Nat → UInt8) : Prop where
  bytes : ∀ i < count, kmem' i = s'.byteAt m (vaddr + i)
  outside : ∀ i, count ≤ i → kmem' i = kmem i
  grown : Grown s s'

/-! ## The code stores what `readOut` says -/

/-- A page that is resident holds the same as long as frames are only added. -/
theorem Got.page_later {pn : Nat} {pf : Pframe} (h : Got s o pn s' pf) (hc : Chains s) (hg : Grown s' t) (hf : Frames t) :
    t.page o pn = s'.mem pf.pf_addr := by
  have hm := hg.frames pf h.mem
  obtain ⟨-, h1, h2⟩ := (frame?_eq_some h.frames).1 h.frame
  rw [(hg.chains (h.grown.chains hc)).page_own ((frame?_eq_some hf).2 ⟨hm, h1, h2⟩), hg.mem pf h.mem]

/-- The page loop, seen from a later state. -/
theorem read_pages_out {a : VmArea} (hheld : ∀ o, 0 ≤ held o) (count : Nat) (ho : a.vma_obj = some o) : ∀ (k v : Nat) (c : Cursor)
    (kmem : Nat → UInt8) {s : State}, Backing C held s → a ∈ s.vmm_list m →
      ∃ s', Backing C held s' ∧ Grown s s' ∧ ∀ t, Grown s' t → Frames t → read_pages E a count k v s c kmem =
        some (s', pagesOut (fun v => t.page o (a.pagenum v)) count k v c kmem) := by
  intro k
  induction k with
  | zero => intro v c kmem s h _; exact ⟨s, h, .refl s, fun _ _ _ => rfl⟩
  | succ k ih =>
    intro v c kmem s h ha
    obtain ⟨ob, hob, -⟩ := h.hung.areas m a ha o ho
    obtain ⟨b, hb⟩ := h.chains.bottom hob
    have hpos := (Nat.zero_le _).trans_lt (h.area_pos hheld ha ho)
    obtain ⟨s₁, pf, ok, hget, hgot⟩ := pframe_get_total (E := E) (a.pagenum v) h.chains h.frames h.idle hb hpos
      (h.bottom_pos hheld hb hpos)
    have h₁ := h.grown hgot.grown hgot.frames
    have ha₁ : a ∈ s₁.vmm_list m := by
      rw [show s₁.vmm_list = s.vmm_list from congrArg Spaces.vmm_list hgot.grown.spaces]
      exact ha
    obtain ⟨s', h', hg', hlater⟩ := ih (v + 1) ⟨PN_TO_ADDR (1 + v), c.temp + min (count - c.temp)
      (PAGE_SIZE - c.vaddr % PAGE_SIZE), c.buf + c.temp⟩ (blit kmem (c.buf + c.temp) (min (count - c.temp)
      (PAGE_SIZE - c.vaddr % PAGE_SIZE)) (s₁.mem pf.pf_addr) (c.vaddr % PAGE_SIZE)) h₁ ha₁
    refine ⟨s', h', hgot.grown.trans hg' h.chains h.frames hgot.frames, fun t hg hf => ?_⟩
    have hpage : t.page o (a.pagenum v) = s₁.mem pf.pf_addr :=
      hgot.page_later h.chains (hg'.trans hg h₁.chains h₁.frames h'.frames) hf
    have hnum : read_pagenum a v = a.pagenum v := rfl
    simp only [read_pages, pagesOut, ho, hnum, hget, hpage, bind, Option.bind_some]
    exact hlater t hg hf

theorem read_areas_out (hheld : ∀ o, 0 ≤ held o) (m vfnInitial vfnFinal count : Nat) {l : List VmArea} : ∀ (c : Cursor) (kmem : Nat → UInt8) {s : State},
    Backing C held s → Settled s → l ⊆ s.vmm_list m →
      ∃ s', Backing C held s' ∧ Grown s s' ∧ ∀ t, Grown s' t → Frames t →
        read_areas E vfnInitial vfnFinal count s c kmem l =
          some (s', areasOut (t.pageAt m) vfnInitial vfnFinal count c kmem (l.map VmArea.span)) := by
  induction l with
  | nil => intro c kmem s h _ _; exact ⟨s, h, .refl s, fun _ _ _ => rfl⟩
  | cons a l ih =>
    intro c kmem s h hs hl
    have hrest : l ⊆ s.vmm_list m := fun x hx => hl (List.mem_cons_of_mem a hx)
    simp only [read_areas, List.map_cons, areasOut, VmArea.span]
    by_cases h1 : a.vma_end ≤ vfnInitial
    · simp only [if_pos h1]
      exact ih c kmem h hs hrest
    by_cases h2 : vfnFinal ≤ a.vma_start
    · simp only [if_neg h1, if_pos h2]
      exact ⟨s, h, .refl s, fun _ _ _ => rfl⟩
    simp only [if_neg h1, if_neg h2]
    have hmax : (if a.vma_start ≤ vfnInitial then vfnInitial else a.vma_start) = max a.vma_start vfnInitial := by
      split <;> omega
    have hmin : (if a.vma_end > vfnFinal then vfnFinal else a.vma_end) = min a.vma_end vfnFinal := by
      split <;> omega
    rw [hmax, hmin]
    have ha : a ∈ s.vmm_list m := hl List.mem_cons_self
    obtain ⟨o, ho⟩ := hs m a ha
    obtain ⟨s₁, h₁, hg₁, hpages⟩ := read_pages_out (E := E) hheld count ho
      (min a.vma_end vfnFinal - max a.vma_start vfnInitial) (max a.vma_start vfnInitial) { c with temp := 0 } kmem h ha
    have hsp : s₁.vmm_list = s.vmm_list := congrArg Spaces.vmm_list hg₁.spaces
    have hfirst := hpages s₁ (.refl s₁) h₁.frames
    generalize hr : pagesOut (fun v => s₁.page o (a.pagenum v)) count (min a.vma_end vfnFinal - max a.vma_start vfnInitial)
      (max a.vma_start vfnInitial) { c with temp := 0 } kmem = r at hfirst
    obtain ⟨s', h', hg', hareas⟩ := ih r.1 r.2 h₁ (hs.congr hsp) (by rw [hsp]; exact hrest)
    refine ⟨s', h', hg₁.trans hg' h.chains h.frames h₁.frames, fun t hg hf => ?_⟩
    have hgt := hg'.trans hg h₁.chains h₁.frames h'.frames
    -- The pages of the area are pages of the map, and hold the same in every later state.
    have hat : ∀ w, a.Has w → t.page o (a.pagenum w) = t.pageAt m w := fun w hw => by
      have hlookup : vmmap_lookup (t.vmm_list m) w = some a := by
        rw [show t.vmm_list = s.vmm_list from (congrArg Spaces.vmm_list hgt.spaces).trans hsp]
        exact (h.layout.areas m).sorted.find_iff.2 ⟨ha, hw⟩
      simp only [State.pageAt, hlookup, ho, Option.bind_some, Option.map_some]
    have hsame : pagesOut (t.pageAt m) count (min a.vma_end vfnFinal - max a.vma_start vfnInitial)
        (max a.vma_start vfnInitial) { c with temp := 0 } kmem = r := by
      have hlater := hpages t hgt hf
      rw [hfirst] at hlater
      rw [show r = _ from (Prod.mk.inj (Option.some.inj hlater)).2]
      exact pagesOut_congr fun j hj => (hat _ ⟨by omega, by omega⟩).symm
    rw [hfirst, hsame]
    exact hareas t hg hf

/-- `vmmap_read` returns, and has stored the bytes that `readOut` says. -/
theorem vmmap_read_out (h : Backing C held s) (hheld : ∀ o, 0 ≤ held o) (hs : Settled s) (m vaddr count : Nat)
    (kmem : Nat → UInt8) : ∃ s', Backing C held s' ∧ Grown s s' ∧ vmmap_read E s m vaddr kmem count =
      some (s', readOut (s'.pageAt m) ((s.vmm_list m).map VmArea.span) vaddr count kmem) := by
  obtain ⟨s', h', hg, hlater⟩ := read_areas_out (E := E) hheld m (ADDR_TO_PN vaddr)
    (1 + ADDR_TO_PN (u32 (vaddr + count))) count ⟨vaddr, 0, 0⟩ kmem h hs (List.Subset.refl _)
  exact ⟨s', h', hg, hlater s' (.refl s') h'.frames⟩

/-! ## Every request -/

/-- An area with the pages `x` of a file, each where its number says. -/
def fileArea (x : Nat × Nat) : VmArea where
  vma_id := x.1
  vma_start := x.1
  vma_end := x.2
  vma_off := x.1
  vma_prot := {}
  vma_flags := { shared := true }
  vma_vmmap := some 0
  vma_obj := some 0

/-- A map with the areas `l` of one file, which is resident and holds `f`. -/
def fileSpace (C : Config) (l : List (Nat × Nat)) (f : Nat → Page) : State :=
  { State.boot (fun _ => ⟨.reg, none, true⟩) (fun o => if o = 0 then some ⟨.vnode 0, none, none⟩ else none) 1
      (fun o => if o = 0 then l.length + C.high else 0) (fun _ _ _ => 0) with
    vmm_list := fun m => if m = 0 then l.map fileArea else []
    nmaps := 1
    nareas := C.high
    mmo_nrespages := fun o => if o = 0 then C.high else 0
    mmo_vmas := fun o => if o = 0 then l.map Prod.fst else []
    pframes := (List.range C.high).map fun v => ⟨v, 0, v⟩
    alloc_list := List.range C.high
    mem := f }

theorem fileSpace_areas {a : VmArea} (h : a ∈ (fileSpace C l f).vmm_list m) : m = 0 ∧ ∃ x ∈ l, a = fileArea x := by
  simp only [fileSpace] at h
  split at h
  next e =>
    obtain ⟨x, hx, rfl⟩ := List.mem_map.1 h
    exact ⟨e, x, hx, rfl⟩
  next => cases h

theorem fileSpace_obj {ob : Mmobj} (h : (fileSpace C l f).objs o = some ob) : o = 0 ∧ ob = ⟨.vnode 0, none, none⟩ := by
  simp only [fileSpace, State.boot] at h
  split at h
  next e => cases h; exact ⟨e, rfl⟩
  next => cases h

theorem fileSpace_frame {pf : Pframe} (h : pf ∈ (fileSpace C l f).pframes) : ∃ v < C.high, pf = ⟨v, 0, v⟩ := by
  obtain ⟨v, hv, rfl⟩ := List.mem_map.1 h
  exact ⟨v, List.mem_range.1 hv, rfl⟩

theorem SpansOk.starts (hl : SpansOk C l) : (l.map Prod.fst).Nodup := by
  unfold List.Nodup
  rw [List.pairwise_map]
  refine hl.sorted.apart.imp_of_mem fun {x y} hx _ h => ?_
  have := hl.sorted.nonempty x hx
  omega

theorem fileSpace_layout (hl : SpansOk C l) : Layout C (fileSpace C l f) := by
  constructor
  case areas =>
    intro m
    by_cases e : m = 0
    · subst e
      show AreasOk C 0 (l.map fileArea)
      refine ⟨⟨List.pairwise_map.2 hl.sorted.apart, ?_⟩, ?_, ?_, ?_⟩
      · exact List.forall_mem_map.2 hl.sorted.nonempty
      · exact List.forall_mem_map.2 hl.low
      · exact List.forall_mem_map.2 hl.high
      · exact List.forall_mem_map.2 fun _ _ => rfl
    · rw [show (fileSpace C l f).vmm_list m = [] from if_neg e]
      exact .nil
  case ids =>
    intro m
    by_cases e : m = 0
    · subst e
      show ((l.map fileArea).map (·.vma_id)).Nodup
      rw [List.map_map]
      exact hl.starts
    · rw [show (fileSpace C l f).vmm_list m = [] from if_neg e]
      exact List.nodup_nil
  case fresh =>
    intro m a ha
    obtain ⟨-, x, hx, rfl⟩ := fileSpace_areas ha
    exact (hl.sorted.nonempty x hx).trans_le (hl.high x hx)
  case apart =>
    intro m m' a ha b hb _
    rw [(fileSpace_areas ha).1, (fileSpace_areas hb).1]
  case unused =>
    intro m hm
    exact if_neg (Nat.one_le_iff_ne_zero.1 hm)

theorem fileSpace_frames : Frames (fileSpace C l f) := by
  have hkeys : (fileSpace C l f).pframes.map (fun pf => (pf.pf_obj, pf.pf_pagenum)) = (List.range C.high).map fun v => (0, v) :=
    List.map_map ..
  have haddrs : (fileSpace C l f).usedPages = List.range C.high := by
    show ((List.range C.high).map _).map _ = _
    rw [List.map_map]
    exact List.map_id _
  constructor
  case pages =>
    rw [hkeys]
    exact List.nodup_range.map fun v w h => (Prod.mk.inj h).2
  case addrs => rw [haddrs]; exact List.nodup_range
  case owner =>
    intro pf hpf
    obtain ⟨v, -, rfl⟩ := fileSpace_frame hpf
    exact ⟨_, rfl⟩
  case resident =>
    intro o
    show (if o = 0 then C.high else 0) = ((List.range C.high).map fun v => (⟨v, 0, v⟩ : Pframe)).countP _
    rw [List.countP_map]
    split
    next e =>
      subst e
      rw [List.countP_eq_length.2 (by simp), List.length_range]
    next e => exact (List.countP_eq_zero.2 (by simp [Ne.symm e])).symm
  case file =>
    intro pf hpf ob _ _
    obtain ⟨v, hv, rfl⟩ := fileSpace_frame hpf
    exact ⟨rfl, List.mem_range.2 hv⟩
  case pinned =>
    intro pf _ ob ho hfile
    rw [(fileSpace_obj ho).2] at hfile
    cases hfile
  case alloc_once => exact List.nodup_range
  case alloc =>
    intro pg hpg
    rw [haddrs]
    exact hpg

theorem fileSpace_backing (hl : SpansOk C l) : Backing C (fun _ => 0) (fileSpace C l f) := by
  have hbottom : (fileSpace C l f).bottomOf 0 = some 0 := rfl
  refine ⟨fileSpace_layout hl, ⟨fun o ob ho => ?_, fun o ob ho hs => ?_, fun o ob ho _ => ?_⟩, fileSpace_frames,
    fun _ _ => rfl, ⟨fun m a ha o ho => ?_, fun m a ha o ho => ?_, fun b => ?_, fun b id hid => ?_⟩, fun o ob ho => ?_, rfl⟩
  · rw [(fileSpace_obj ho).1]; exact Nat.zero_lt_one
  · rw [(fileSpace_obj ho).2] at hs; cases hs
  · rw [(fileSpace_obj ho).2]
  · obtain ⟨-, x, -, rfl⟩ := fileSpace_areas ha
    cases ho
    exact ⟨_, rfl, rfl⟩
  · obtain ⟨-, x, hx, rfl⟩ := fileSpace_areas ha
    cases ho
    exact ⟨0, hbottom, List.mem_map_of_mem hx⟩
  · show (if b = 0 then l.map Prod.fst else []).Nodup
    split
    · exact hl.starts
    · exact List.nodup_nil
  · change id ∈ (if b = 0 then l.map Prod.fst else []) at hid
    split at hid
    next e =>
      subst e
      obtain ⟨x, hx, rfl⟩ := List.mem_map.1 hid
      exact ⟨0, fileArea x, List.mem_map_of_mem hx, rfl, 0, rfl, hbottom⟩
    next => cases hid
  · obtain ⟨rfl, rfl⟩ := fileSpace_obj ho
    have hareas : (fileSpace C l f).areasOf 0 = l.length := by
      show 0 + (l.map fileArea).countP _ = _
      rw [List.countP_map, List.countP_eq_length.2 (by simp [fileArea]), Nat.zero_add]
    have hshadows : (fileSpace C l f).shadowsOf 0 = 0 := rfl
    show ((l.length + C.high : Nat) : Int) = ((fileSpace C l f).areasOf 0 + (fileSpace C l f).shadowsOf 0 + C.high : Nat) + 0
    rw [hareas, hshadows]
    omega

/-- A page of an area whose frame is there. -/
theorem pageAt_frame {a : VmArea} {pf : Pframe} (ha : vmmap_lookup (s.vmm_list m) v = some a) (ho : a.vma_obj = some pf.pf_obj)
    (hn : pf.pf_pagenum = a.pagenum v) (hpf : pf ∈ s.pframes) (hc : Chains s) (hf : Frames s) :
    s.pageAt m v = s.mem pf.pf_addr := by
  simp only [State.pageAt, ha, Option.bind_some, ho, Option.map_some, ← hn]
  exact hc.page_own ((frame?_eq_some hf).2 ⟨hpf, rfl, rfl⟩)

theorem fileArea_pagenum (hv : Covers Prod.fst Prod.snd x v) (hlt : v < 2 ^ 20) : (fileArea x).pagenum v = v := by
  have hle : x.1 ≤ v := hv.1
  show usub (x.1 + v) x.1 = v
  rw [usub_of_le (Nat.le_add_right _ _) (by omega), Nat.add_sub_cancel_left]

/-- Whatever is read from it, the map holds the file. -/
theorem fileSpace_pageAt (hl : SpansOk C l) (hg : Grown (fileSpace C l f) t) (hf : Frames t) (hx : x ∈ l)
    (hv : Covers Prod.fst Prod.snd x v) : t.pageAt 0 v = f v := by
  have hC := C.high_lt
  have hhigh : v < C.high := hv.2.trans_le (hl.high x hx)
  have hlookup : vmmap_lookup (t.vmm_list 0) v = some (fileArea x) := by
    rw [show t.vmm_list = (fileSpace C l f).vmm_list from congrArg Spaces.vmm_list hg.spaces]
    exact ((fileSpace_layout hl).areas 0).sorted.find_iff.2 ⟨List.mem_map_of_mem hx, hv⟩
  have hmem : ⟨v, 0, v⟩ ∈ (fileSpace C l f).pframes := List.mem_map_of_mem (List.mem_range.2 hhigh)
  rw [pageAt_frame hlookup rfl (fileArea_pagenum hv (by omega)).symm (hg.frames _ hmem) (hg.chains (fileSpace_backing hl).chains) hf]
  exact hg.mem _ hmem

/-- `vmmap_read` stores the bytes asked for, whatever the pages hold, when they
are in two pages at most and no other area is met up to the page of the end. -/
theorem vmmap_read_iff (hl : SpansOk C l) (hm : AllMapped l vaddr count) :
    (∀ (E : Env) (held : Nat → Int) (s : State) (m : Nat) (kmem : Nat → UInt8), Backing C held s → (∀ o, 0 ≤ held o) →
      Settled s → (s.vmm_list m).map VmArea.span = l →
        ∃ s' kmem', vmmap_read E s m vaddr kmem count = some (s', kmem') ∧ ReadInto s s' m vaddr count kmem kmem') ↔
      TwoPages vaddr count ∧ OneArea l vaddr count := by
  constructor
  · intro h
    by_contra hcond
    obtain ⟨f, b, hwrong⟩ := readOut_wrong hl hm hcond
    have hB : Backing C (fun _ => 0) (fileSpace C l f) := fileSpace_backing hl
    have hS : Settled (fileSpace C l f) := fun m a ha => by
      obtain ⟨-, x, -, rfl⟩ := fileSpace_areas ha
      exact ⟨0, rfl⟩
    have hspan : ((fileSpace C l f).vmm_list 0).map VmArea.span = l := by
      show (l.map fileArea).map VmArea.span = l
      rw [List.map_map]
      exact List.map_id l
    obtain ⟨s', kmem', hread, hinto⟩ := h .simple (fun _ => 0) _ 0 (fun _ => b) hB (fun _ => Int.le_refl 0) hS hspan
    obtain ⟨s₁, h₁, hg, hout⟩ := vmmap_read_out (E := .simple) hB (fun _ => Int.le_refl 0) hS 0 vaddr count fun _ => b
    rw [hread, hspan] at hout
    cases hout
    have hpage : ∀ x ∈ l, ∀ v, Covers Prod.fst Prod.snd x v → s'.pageAt 0 v = f v := fun x hx v hv =>
      fileSpace_pageAt hl hg h₁.frames hx hv
    apply hwrong
    unfold readOut
    rw [← areasOut_congr _ _ _ hpage]
    refine ⟨fun i hi => ?_, hinto.outside⟩
    obtain ⟨x, hx, hv⟩ := hm i hi
    rw [← hpage x hx _ hv]
    exact hinto.bytes i hi
  · rintro ⟨h2, h1⟩ E held s m kmem hB hheld hS rfl
    obtain ⟨s', -, hg, hread⟩ := vmmap_read_out (E := E) hB hheld hS m vaddr count kmem
    obtain ⟨hbytes, hout⟩ := readOut_right (f := s'.pageAt m) hl hm h1 h2 kmem
    exact ⟨s', _, hread, hbytes, hout, hg⟩

/-- A process maps ten pages. -/
def tenPages : List RefOp :=
  [.proc_create, .vmmap_map 0 0 none 0 10 { read := true, write := true } { priv := true, anon := true } 0 .lohi]

/-- Of ten pages mapped, bytes of the first two are read. -/
theorem two_pages_read : ∃ s tr s' kmem', Run (refStep .stock .simple) (fun s e => RefOp.Called .stock s e) oneFile s tr ∧
    vmmap_read .simple s 0 0x400800 (fun _ => 1) 5000 = some (s', kmem') ∧ ReadInto s s' 0 0x400800 5000 (fun _ => 1) kmem' := by
  have h : (exec (refStep .stock .simple) (fun s e => decide (RefOp.Called .stock s e)) oneFile tenPages).map
      (fun x => (x.1.vmm_list 0).map VmArea.span) = some [(0x400, 0x40a)] := by decide +kernel
  obtain ⟨⟨s, tr⟩, hex, hl⟩ := Option.map_eq_some_iff.1 h
  have hrun : Run (refStep .stock .simple) (fun s e => RefOp.Called .stock s e) oneFile s tr :=
    Run.of_exec (fun _ _ => of_decide_eq_true) hex
  have hS := run_sound oneFile_booted hrun
  obtain ⟨held, hO, hB⟩ := hS.held
  have hok : SpansOk .stock [(0x400, 0x40a)] := ⟨⟨by simp, by simp⟩, by decide, by decide⟩
  have hm : AllMapped [(0x400, 0x40a)] 0x400800 5000 := fun i hi =>
    ⟨_, List.mem_cons_self, by unfold Covers ADDR_TO_PN PAGE_SIZE; simp only; omega⟩
  obtain ⟨s', kmem', hread, hinto⟩ := (vmmap_read_iff hok hm).2 ⟨by unfold TwoPages; decide, by unfold OneArea; decide⟩ .simple held s 0
    (fun _ => 1) hB hO.nonneg hS.settled hl
  exact ⟨s, tr, s', kmem', hrun, hread, hinto⟩

/-- Of three pages read from the start the third is not stored where it belongs. -/
theorem third_page_lost : ∃ s tr s' kmem', Run (refStep .stock .simple) (fun s e => RefOp.Called .stock s e) oneFile s tr ∧
    AllMapped ((s.vmm_list 0).map VmArea.span) 0x400000 12288 ∧
    vmmap_read .simple s 0 0x400000 (fun _ => 1) 12288 = some (s', kmem') ∧
      ¬ ReadInto s s' 0 0x400000 12288 (fun _ => 1) kmem' := by
  have h : (exec (refStep .stock .simple) (fun s e => decide (RefOp.Called .stock s e)) oneFile tenPages).bind (fun x =>
      (vmmap_read .simple x.1 0 0x400000 (fun _ => 1) 12288).map fun r =>
        ((x.1.vmm_list 0).map VmArea.span, r.2 8192, r.1.byteAt 0 (0x400000 + 8192))) = some ([(0x400, 0x40a)], 1, 0) := by
    decide +kernel
  simp only [Option.bind_eq_some_iff, Option.map_eq_some_iff, Prod.mk.injEq, Prod.exists] at h
  obtain ⟨s, tr, hex, s', kmem', hread, hl, h1, h0⟩ := h
  refine ⟨s, tr, s', kmem', Run.of_exec (fun _ _ => of_decide_eq_true) hex, ?_, hread, fun hinto => ?_⟩
  · rw [hl]
    exact fun i hi => ⟨_, List.mem_cons_self, by unfold Covers ADDR_TO_PN PAGE_SIZE; simp only; omega⟩
  · have := hinto.bytes 8192 (by decide)
    rw [h1, h0] at this
    exact absurd this (by decide)

end Weenix.Vm
