import Weenix.Vm.EntryCopies
import Weenix.Vm.Reads
import Weenix.Vm.SureFills
/-!
# Writing user memory

One turn of the page loop of `vmmap_write` changes bytes of one page of an
object, for whoever reads through to it, and marks its frame dirty (`Stored`).
`vmmap_write_walk` is the rule for all turns, page number by page number.
-/

namespace Weenix.Vm

open Lib Lib.Intervals

variable {C : Config} {E : Env} {s s' s₀ t : State} {m o x v pn off n k count vaddr lo hi : Nat} {held : Nat → Int}
  {a : VmArea} {pf : Pframe} {ob : Mmobj} {l : List VmArea} {c c' : Cursor} {kmem : Nat → UInt8}

/-! ## Storing in a page -/

namespace State
variable (s : State)

/-- Page `pn` of `o` is read through to that of `x`. -/
def Sees (o x pn : Nat) : Prop := Layers.Sees s.parent s.resident pn o x

/-- The page of an object behind page `vfn` of map `m`. -/
def objPage (m vfn : Nat) : Option (Nat × Nat) :=
  (vmmap_lookup (s.vmm_list m) vfn).bind fun a => a.vma_obj.map fun o => (o, a.pagenum vfn)

/-- The frame `pf`, dirty, with the contents `x`. -/
def wrote (pf : Pframe) (x : Page) (n : Nat) : State :=
  { s with
    pf_busy := Function.update s.pf_busy pf.pf_addr false
    pf_dirty := Function.update s.pf_dirty pf.pf_addr true
    clock := n
    mem := Function.update s.mem pf.pf_addr x }

end State

theorem resident_eq_none : s.resident o pn = none ↔ s.frame? o pn = none := by
  simp [State.resident]

theorem pageAt_eq (h : s.objPage m v = some (o, pn)) : s.pageAt m v = s.page o pn := by
  simp only [State.objPage, Option.bind_eq_some_iff, Option.map_eq_some_iff, Prod.mk.injEq] at h
  obtain ⟨a, ha, o', ho, rfl, rfl⟩ := h
  simp [State.pageAt, ha, ho]

/-- A page with a frame is not read from below. -/
theorem State.Sees.own (h : s.Sees o x pn) (hm : pf ∈ s.pframes) (h1 : pf.pf_obj = o) (h2 : pf.pf_pagenum = pn) : x = o := by
  cases hf : s.frame? o pn with
  | none => exact absurd ⟨h1, h2⟩ (frame?_eq_none.1 hf pf hm)
  | some q => exact Layers.sees_own (show s.resident o pn = some (s.mem q.pf_addr) by simp [State.resident, hf]) h

/-- The more frames there are, the less is read from below. -/
theorem State.Sees.mono (h : s'.Sees o x pn) (hobjs : s'.objs = s.objs) (hframes : ∀ pf ∈ s.pframes, pf ∈ s'.pframes) :
    s.Sees o x pn := by
  unfold State.Sees at h
  rw [parent_congr hobjs] at h
  apply Layers.sees_mono _ h
  intro y hy
  rw [resident_eq_none, frame?_eq_none] at hy ⊢
  exact fun pf hpf => hy pf (hframes pf hpf)

theorem wrote_resident (hf : Frames s) (h : s.frame? o pn = some pf) (y : Page) (n : Nat) :
    (s.wrote pf y n).resident o pn = some y ∧
      ∀ x q, ¬ (x = o ∧ q = pn) → (s.wrote pf y n).resident x q = s.resident x q := by
  obtain ⟨hm, ho, hp⟩ := (frame?_eq_some hf).1 h
  have hframe : ∀ x q, (s.wrote pf y n).resident x q = (s.frame? x q).map fun r => Function.update s.mem pf.pf_addr y r.pf_addr :=
    fun _ _ => rfl
  constructor
  · rw [hframe, h, Option.map_some, Function.update_self]
  · intro x q hne
    rw [hframe]
    cases hq : s.frame? x q with
    | none => simp [State.resident, hq]
    | some r =>
      obtain ⟨hr, hrx, hrq⟩ := (frame?_eq_some hf).1 hq
      have haddr : r.pf_addr ≠ pf.pf_addr := fun e => by
        have hrp := hf.addr_inj hr hm e
        subst hrp
        exact hne ⟨hrx.symm.trans ho, hrq.symm.trans hp⟩
      simp [State.resident, hq, Function.update_of_ne haddr]

/-- A page that is stored in has the new contents for whoever reads through to it, and the others keep theirs. -/
theorem wrote_page (hc : Chains s) (hf : Frames s) (h : s.frame? o pn = some pf) (y : Page) (n : Nat) :
    (∀ x, s.Sees x o pn → (s.wrote pf y n).page x pn = y) ∧
      ∀ x q, (q = pn → ¬ s.Sees x o pn) → (s.wrote pf y n).page x q = s.page x q := by
  obtain ⟨hown, hrest⟩ := wrote_resident hf h y n
  have hparent : (s.wrote pf y n).parent = s.parent := rfl
  have hsource : (s.wrote pf y n).source = s.source := rfl
  constructor
  · intro x hx
    have hs : Layers.Sees s.parent (s.wrote pf y n).resident pn x o := by
      apply Layers.sees_mono _ hx
      intro z hz
      by_cases e : z = o
      · subst e
        simp [State.resident, h] at hz
      · rwa [hrest z pn fun h => e h.1]
    unfold State.page
    rw [hparent, Layers.read_seen hc.grounded hs]
    exact Layers.read_own hc.grounded hown
  · intro x q hx
    unfold State.page
    rw [hparent, hsource]
    by_cases e : q = pn
    · subst e
      exact Layers.read_unseen hc.grounded (fun z hz => hrest z q fun h => hz h.1) (hx rfl)
    · exact Layers.read_congr hc.grounded hc.grounded x fun z _ => ⟨rfl, hrest z q fun h => e h.2, rfl⟩

/-- What one turn does: the bytes `b` are at `off` of page `pn` of `o`, whose
frame is dirty, and no other byte and no other dirty mark has changed. -/
structure Stored (s : State) (o pn off n : Nat) (b : Nat → UInt8) (s' : State) : Prop where
  spaces : s'.spaces = s.spaces
  objs : s'.objs = s.objs
  frames : ∀ pf ∈ s.pframes, pf ∈ s'.pframes
  inside : ∀ j, off ≤ j → j < off + n → s'.page o pn j = b (j - off)
  shown : ∀ x q j, s'.page x q j = s.page x q j ∨
    (q = pn ∧ s.Sees x o pn ∧ off ≤ j ∧ j < off + n) ∧ s'.page x q j = b (j - off)
  marked : ∃ pf ∈ s'.pframes, (pf.pf_obj = o ∧ pf.pf_pagenum = pn) ∧ s'.pf_dirty pf.pf_addr = true
  dirty : ∀ pf ∈ s'.pframes, s'.pf_dirty pf.pf_addr = true →
    pf ∈ s.pframes ∧ s.pf_dirty pf.pf_addr = true ∨ pf.pf_obj = o ∧ pf.pf_pagenum = pn

theorem Stored.outside {b : Nat → UInt8} {x q j : Nat} (h : Stored s o pn off n b s')
    (hout : ¬ (q = pn ∧ s.Sees x o pn ∧ off ≤ j ∧ j < off + n)) : s'.page x q j = s.page x q j :=
  (h.shown x q j).resolve_right fun hs => hout hs.1

theorem Got.stored (h : Got s o pn s' pf) (hfill : Filled s s') (hc : Chains s) (hf : Frames s) (off n : Nat)
    (kmem : Nat → UInt8) (buf clock : Nat) : Stored s o pn off n (fun i => kmem (buf + i))
      (s'.wrote pf (blit (s'.mem pf.pf_addr) off n kmem buf) clock) := by
  have hc' := h.grown.chains hc
  obtain ⟨hseen, hrest⟩ := wrote_page hc' h.frames h.frame (blit (s'.mem pf.pf_addr) off n kmem buf) clock
  have hpage := h.grown.page_filled hfill hc hf h.frames
  have hsub : ∀ q ∈ (s'.wrote pf (blit (s'.mem pf.pf_addr) off n kmem buf) clock).pframes, q ∈ s'.pframes := fun _ hq => hq
  obtain ⟨hm, hobj, hnum⟩ := (frame?_eq_some h.frames).1 h.frame
  constructor
  case spaces => exact h.grown.spaces
  case objs => exact h.grown.objs
  case frames => exact h.grown.frames
  case inside =>
    intro j h1 h2
    rw [hseen o .refl]
    exact blit_mem h1 h2 buf
  case shown =>
    intro x q j
    rw [← hpage x q]
    by_cases hx : q = pn ∧ s'.Sees x o pn
    · obtain ⟨rfl, hx⟩ := hx
      have hown : s'.page x q = s'.mem pf.pf_addr := by
        rw [← hc'.page_own h.frame]
        exact Layers.read_seen hc'.grounded hx
      rw [hseen x hx, hown]
      by_cases hj : off ≤ j ∧ j < off + n
      · exact .inr ⟨⟨rfl, hx.mono h.grown.objs h.grown.frames, hj⟩, blit_mem hj.1 hj.2 buf⟩
      · exact .inl (blit_out (by omega) buf)
    · rw [hrest x q fun e hs => hx ⟨e, hs⟩]
      exact .inl rfl
  case marked => exact ⟨pf, hm, ⟨hobj, hnum⟩, Function.update_self ..⟩
  case dirty =>
    intro q hq hd
    by_cases e : q.pf_addr = pf.pf_addr
    · have := h.frames.addr_inj (hsub q hq) hm e
      subst this
      exact .inr ⟨hobj, hnum⟩
    · simp only [State.wrote, Function.update_of_ne e] at hd
      rcases hfill q (hsub q hq) with hold | ⟨-, hclean⟩
      · exact .inl ⟨hold, (h.grown.dirty q hold).symm.trans hd⟩
      · rw [hclean] at hd
        cases hd

/-! ## The turns -/

/-- On a disk that works a page of a shadow object or a file is marked dirty. -/
theorem pframe_dirty_sure (hio : ∀ n, E.io n = true) (hb : s.pf_busy pf.pf_addr = false) (ho : s.objs pf.pf_obj = some ob)
    (hops : ob.mmo_ops ≠ .anon) : ∃ n, pframe_dirty E s pf = some { s with
      pf_busy := Function.update s.pf_busy pf.pf_addr false
      pf_dirty := Function.update s.pf_dirty pf.pf_addr true
      clock := n } := by
  have ho' : (s.setBusy pf.pf_addr true).objs pf.pf_obj = some ob := ho
  have hd : ∃ n, dirtypage E (s.setBusy pf.pf_addr true) pf.pf_obj pf = some ({ s.setBusy pf.pf_addr true with clock := n }, true) := by
    simp only [dirtypage, ho', bind, Option.bind_some]
    cases h : ob.mmo_ops with
    | anon => exact absurd h hops
    | shadow => exact ⟨s.clock, rfl⟩
    | vnode vn =>
      simp only [hio]
      split
      · exact ⟨s.clock, rfl⟩
      · exact ⟨s.clock + 1, rfl⟩
  obtain ⟨n, hd⟩ := hd
  refine ⟨n, ?_⟩
  simp only [pframe_dirty, hb, KASSERT, if_true, bind, Option.bind_some, hd]
  simp only [State.setBusy, State.setDirty, Function.update_idem]

theorem Suits.stores (h : Suits s a o) : ∃ ob, s.objs o = some ob ∧ ob.mmo_ops ≠ .anon := by
  obtain ⟨ob, ho, hkind⟩ := h
  refine ⟨ob, ho, fun hops => ?_⟩
  split at hkind
  · simp [Mmobj.isFile, hops] at hkind
  · rw [hops] at hkind
    cases hkind

theorem State.wrote_backing (h : Backing C held s) (pf : Pframe) (y : Page) (n : Nat) : Backing C held (s.wrote pf y n) := by
  apply Wrote.backing (.mk (Function.update s.pf_dirty pf.pf_addr true) n fun pg hd => ?_) h
  by_cases e : pg = pf.pf_addr
  · rw [e, Function.update_self]
  · rw [Function.update_of_ne e, hd]

/-- A turn of the page loop returns. What the buffer holds matters only for the bytes it stores. -/
theorem write_pages_turn (hio : ∀ n, E.io n = true) (h : Backing C held s) (hheld : ∀ o, 0 ≤ held o) (ha : a ∈ s.vmm_list m)
    (ho : a.vma_obj = some o) (count v : Nat) (c : Cursor) (kmem : Nat → UInt8) :
    ∃ s', Backing C held s' ∧ Stored s o (a.pagenum v) (c.vaddr % PAGE_SIZE) (min (count - c.temp) (PAGE_SIZE - c.vaddr % PAGE_SIZE))
        (fun i => kmem (c.buf + c.temp + i)) s' ∧
      ∀ k kmem', (∀ i < min (count - c.temp) (PAGE_SIZE - c.vaddr % PAGE_SIZE),
          kmem' (c.buf + c.temp + i) = kmem (c.buf + c.temp + i)) →
        write_pages E a kmem' count (k + 1) v s c = write_pages E a kmem' count k (v + 1) s'
          ⟨PN_TO_ADDR (1 + v), c.temp + min (count - c.temp) (PAGE_SIZE - c.vaddr % PAGE_SIZE), c.buf + c.temp⟩ := by
  generalize hn : min (count - c.temp) (PAGE_SIZE - c.vaddr % PAGE_SIZE) = n
  obtain ⟨ob, hob, hops⟩ := (h.hung.areas m a ha o ho).stores
  obtain ⟨b, hb⟩ := h.chains.bottom hob
  have hpos := (Nat.zero_le _).trans_lt (h.area_pos hheld ha ho)
  obtain ⟨s₁, pf, ok, hget, hgot, hfill⟩ := pframe_get_sure hio (a.pagenum v) h.chains h.frames h.idle hb hpos
    (h.bottom_pos hheld hb hpos)
  have h₁ := h.grown hgot.grown hgot.frames
  obtain ⟨clock, hdirty⟩ := pframe_dirty_sure hio (h₁.idle pf hgot.mem)
    (show s₁.objs pf.pf_obj = some ob by rw [hgot.obj, hgot.grown.objs, hob]) hops
  refine ⟨_, State.wrote_backing h₁ pf _ clock, hgot.stored hfill h.chains h.frames _ n kmem (c.buf + c.temp) clock,
    fun k kmem' hsame => ?_⟩
  have hblit : blit (s₁.mem pf.pf_addr) (c.vaddr % PAGE_SIZE) n kmem' (c.buf + c.temp) =
      blit (s₁.mem pf.pf_addr) (c.vaddr % PAGE_SIZE) n kmem (c.buf + c.temp) := by
    funext j
    by_cases hj : c.vaddr % PAGE_SIZE ≤ j ∧ j < c.vaddr % PAGE_SIZE + n
    · rw [blit_mem hj.1 hj.2, blit_mem hj.1 hj.2]
      exact hsame _ (by omega)
    · rw [blit_out (by omega), blit_out (by omega)]
  simp only [write_pages, ho, write_pagenum_eq, hget, hdirty, hn, bind, Option.bind_some]
  rw [← hblit]
  simp only [State.setBusy, State.setMem, State.wrote, Function.update_idem]

/-! ## The walk -/

theorem objPage_of_has (hok : AreasOk C m (s.vmm_list m)) (ha : a ∈ s.vmm_list m) (hv : a.Has v) (ho : a.vma_obj = some o) :
    s.objPage m v = some (o, a.pagenum v) := by
  have hlookup : vmmap_lookup (s.vmm_list m) v = some a := hok.sorted.find_iff.2 ⟨ha, hv⟩
  simp [State.objPage, hlookup, ho]

theorem objPage_none (h : ∀ a ∈ s.vmm_list m, ¬ a.Has v) : s.objPage m v = none := by
  have hlookup : vmmap_lookup (s.vmm_list m) v = none := find_none_iff.2 h
  simp [State.objPage, hlookup]

/-- What keeps `J` from the page number `lo` on to `hi`: a page of map `m` is
stored in, another one passed over. Buffers in `K` are alike where they are read. -/
structure Walks (C : Config) (held : Nat → Int) (s₀ : State) (m lo hi count : Nat) (kmem : Nat → UInt8)
    (K : (Nat → UInt8) → Prop) (J : Nat → State → Cursor → Prop) : Prop where
  skip : ∀ v s c, lo ≤ v → v < hi → s₀.objPage m v = none → J v s c → J (v + 1) s c
  turn : ∀ v s s' c n o pn, lo ≤ v → v < hi → s₀.objPage m v = some (o, pn) →
    n = min (count - c.temp) (PAGE_SIZE - c.vaddr % PAGE_SIZE) → Backing C held s → Backing C held s' →
    Stored s o pn (c.vaddr % PAGE_SIZE) n (fun i => kmem (c.buf + c.temp + i)) s' → J v s c →
      (∀ kmem', K kmem' → ∀ i < n, kmem' (c.buf + c.temp + i) = kmem (c.buf + c.temp + i)) ∧
        J (v + 1) s' ⟨PN_TO_ADDR (1 + v), c.temp + n, c.buf + c.temp⟩

section
variable {K : (Nat → UInt8) → Prop} {J : Nat → State → Cursor → Prop}

theorem Walks.skips (hw : Walks C held s₀ m lo hi count kmem K J) : ∀ {k v : Nat}, lo ≤ v → v + k ≤ hi →
    (∀ w, v ≤ w → w < v + k → s₀.objPage m w = none) → J v s c → J (v + k) s c := by
  intro k
  induction k with
  | zero => intro v _ _ _ hJ; exact hJ
  | succ k ih =>
    intro v hlo hhi hnone hJ
    have hJ' := hw.skip v s c hlo (by omega) (hnone v le_rfl (by omega)) hJ
    have := ih (show lo ≤ v + 1 by omega) (by omega) (fun w h1 h2 => hnone w (by omega) (by omega)) hJ'
    rwa [Nat.add_assoc, Nat.add_comm 1] at this

theorem Walks.pages (hw : Walks C held s₀ m lo hi count kmem K J) (hio : ∀ n, E.io n = true) (hheld : ∀ o, 0 ≤ held o)
    (ha : a ∈ s₀.vmm_list m) (ho : a.vma_obj = some o) : ∀ {k v : Nat} {s : State} {c : Cursor}, lo ≤ v → v + k ≤ hi →
      (∀ w, v ≤ w → w < v + k → a.Has w) → Backing C held s → s.spaces = s₀.spaces → J v s c →
        ∃ s' c', Backing C held s' ∧ s'.spaces = s₀.spaces ∧ J (v + k) s' c' ∧
          ∀ kmem', K kmem' → write_pages E a kmem' count k v s c = some (s', c') := by
  intro k
  induction k with
  | zero => intro v s c _ _ _ hB hsp hJ; exact ⟨s, c, hB, hsp, hJ, fun _ _ => rfl⟩
  | succ k ih =>
    intro v s c hlo hhi hhas hB hsp hJ
    have hlists : s.vmm_list = s₀.vmm_list := congrArg Spaces.vmm_list hsp
    have ha' : a ∈ s.vmm_list m := by rw [hlists]; exact ha
    obtain ⟨s₁, hB₁, hst, heq⟩ := write_pages_turn hio hB hheld ha' ho count v c kmem
    have hpage : s₀.objPage m v = some (o, a.pagenum v) := by
      have := objPage_of_has (hB.layout.areas m) ha' (hhas v le_rfl (by omega)) ho
      simpa only [State.objPage, hlists] using this
    obtain ⟨hK, hJ₁⟩ := hw.turn v s s₁ c _ o (a.pagenum v) hlo (by omega) hpage rfl hB hB₁ hst hJ
    obtain ⟨s', c', hB', hsp', hJ', hrest⟩ := ih (show lo ≤ v + 1 by omega) (by omega) (fun w h1 h2 => hhas w (by omega) (by omega))
      hB₁ (hst.spaces.trans hsp) hJ₁
    refine ⟨s', c', hB', hsp', by rwa [Nat.add_assoc, Nat.add_comm 1] at hJ', fun kmem' hk => ?_⟩
    rw [heq k kmem' (hK kmem' hk)]
    exact hrest kmem' hk

/-- The areas still to come are all that have a page from `v` on. -/
theorem Walks.areas (hw : Walks C held s₀ m lo hi count kmem K J) (hio : ∀ n, E.io n = true) (hheld : ∀ o, 0 ≤ held o)
    (hset : Settled s₀) : ∀ {l : List VmArea} {v : Nat} {s : State} {c : Cursor}, Sorted VmArea.vma_start VmArea.vma_end l →
      l ⊆ s₀.vmm_list m → lo ≤ v → v ≤ hi → (v = lo ∨ ∀ a ∈ l, v ≤ a.vma_start) →
      (∀ a ∈ s₀.vmm_list m, ∀ w, a.Has w → v ≤ w → w < hi → a ∈ l) → Backing C held s → s.spaces = s₀.spaces → J v s c →
        ∃ s' c', J hi s' c' ∧ ∀ kmem', K kmem' → write_areas E kmem' lo hi count s c l = some s' := by
  intro l
  induction l with
  | nil =>
    intro v s c _ _ hlo hhi _ hall _ _ hJ
    have := hw.skips hlo (show v + (hi - v) ≤ hi by omega)
      (fun w h1 h2 => objPage_none fun a ha hv => List.not_mem_nil (hall a ha w hv h1 (by omega))) hJ
    rw [Nat.add_sub_cancel' hhi] at this
    exact ⟨s, c, this, fun _ _ => rfl⟩
  | cons a l ih =>
    intro v s c hsort hsub hlo hhi hfirst hall hB hsp hJ
    obtain ⟨hne, hbehind, hsort'⟩ := sorted_cons.1 hsort
    have ha : a ∈ s₀.vmm_list m := hsub List.mem_cons_self
    have hsub' : l ⊆ s₀.vmm_list m := fun x hx => hsub (List.mem_cons_of_mem a hx)
    simp only [write_areas]
    by_cases h1 : a.vma_end ≤ lo
    · -- in front of the range
      simp only [if_pos h1]
      refine ih hsort' hsub' hlo hhi (hfirst.imp_right fun h b hb => h b (List.mem_cons_of_mem a hb)) ?_ hB hsp hJ
      intro b hb w hbw hvw hw'
      refine (List.mem_cons.1 (hall b hb w hbw hvw hw')).resolve_left ?_
      rintro rfl
      have := hbw.2
      omega
    by_cases h2 : hi ≤ a.vma_start
    · -- behind the range, as are all that follow
      simp only [if_neg h1, if_pos h2]
      have := hw.skips hlo (show v + (hi - v) ≤ hi by omega) (fun w h3 h4 => objPage_none fun b hb hv => by
        have hw' := hv.1
        rcases List.mem_cons.1 (hall b hb w hv h3 (by omega)) with rfl | hbl
        · omega
        · have := hbehind b hbl
          omega) hJ
      rw [Nat.add_sub_cancel' hhi] at this
      exact ⟨s, c, this, fun _ _ => rfl⟩
    simp only [if_neg h1, if_neg h2]
    have hmax : (if a.vma_start ≤ lo then lo else a.vma_start) = max a.vma_start lo := by
      split <;> omega
    have hmin : (if a.vma_end > hi then hi else a.vma_end) = min a.vma_end hi := by
      split <;> omega
    rw [hmax, hmin]
    have hv : v ≤ max a.vma_start lo := by
      rcases hfirst with rfl | h
      · omega
      · have := h a List.mem_cons_self
        omega
    -- up to the first page of the area there is none
    have hJ₁ : J (max a.vma_start lo) s c := by
      have := hw.skips hlo (show v + (max a.vma_start lo - v) ≤ hi by omega) (fun w h3 h4 => objPage_none fun b hb hbw => by
        have hw' := hbw.1
        rcases List.mem_cons.1 (hall b hb w hbw h3 (by omega)) with rfl | hbl
        · omega
        · have := hbehind b hbl
          omega) hJ
      rwa [Nat.add_sub_cancel' hv] at this
    obtain ⟨o, ho⟩ := hset m a ha
    obtain ⟨s₁, c₁, hB₁, hsp₁, hJ₂, hpages⟩ := hw.pages hio hheld ha ho (show lo ≤ max a.vma_start lo by omega)
      (show max a.vma_start lo + (min a.vma_end hi - max a.vma_start lo) ≤ hi by omega)
      (fun w h3 h4 => ⟨by omega, by omega⟩) hB hsp hJ₁
    rw [show max a.vma_start lo + (min a.vma_end hi - max a.vma_start lo) = min a.vma_end hi by omega] at hJ₂
    obtain ⟨s', c', hJ', hrest⟩ := ih hsort' hsub' (show lo ≤ min a.vma_end hi by omega) (by omega)
      (.inr fun b hb => (Nat.min_le_left _ _).trans (hbehind b hb)) (fun b hb w hbw hvw hw' => by
        refine (List.mem_cons.1 (hall b hb w hbw (by omega) hw')).resolve_left ?_
        rintro rfl
        have := hbw.2
        omega) hB₁ hsp₁ hJ₂
    refine ⟨s', c', hJ', fun kmem' hk => ?_⟩
    simp only [hpages kmem' hk, bind, Option.bind_some]
    exact hrest kmem' hk

end

end Weenix.Vm
