import Weenix.Vm.Copies
import Weenix.Vm.EntryFaults
/-!
# Entries across copies to user memory

`vmmap_write` gets a page of the area's own object and stores in it, and looks
at no page table. `vmmap_write_rule` is the rule for what it does, page by page.
An entry that maps the page of an object below goes stale when it does.
-/

namespace Weenix.Vm

open Lib Lib.Intervals

variable {C : Config} {E : Env} {R : FrameRel} {s s' t : State} {o m p v count : Nat} {a : VmArea} {pf : Pframe}
  {pr : Proc} {ob : Mmobj} {held : Nat → Int} {kmem : Nat → UInt8} {x : Page} {c c' : Cursor}

/-! ## Storing in a page -/

/-- The page of `pf` holds `x`; a dirty mark may have come, and none has gone. -/
inductive Wrote (s : State) (pf : Pframe) (x : Page) : State → Prop
  | mk (d : Nat → Bool) (n : Nat) : (∀ pg, s.pf_dirty pg = true → d pg = true) →
      Wrote s pf x { s with
        pf_busy := Function.update s.pf_busy pf.pf_addr false, pf_dirty := d, clock := n,
        mem := Function.update s.mem pf.pf_addr x }

theorem dirtypage_cases {s₁ : State} {ok : Bool} (h : dirtypage E s o pf = some (s₁, ok)) : ∃ n, s₁ = { s with clock := n } := by
  simp only [dirtypage, bind, Option.bind_eq_some_iff] at h
  obtain ⟨ob, -, h⟩ := h
  split at h
  · cases h
    exact ⟨s.clock, rfl⟩
  · cases h
    exact ⟨s.clock, rfl⟩
  · split at h
    · cases h
      exact ⟨s.clock, rfl⟩
    · cases h
      exact ⟨s.clock + 1, rfl⟩

theorem pframe_dirty_wrote (h : pframe_dirty E s pf = some s') (x : Page) :
    Wrote s pf x (((s'.setBusy pf.pf_addr true).setMem pf.pf_addr x).setBusy pf.pf_addr false) ∧ s'.mem = s.mem := by
  simp only [pframe_dirty, bind, Option.bind_eq_some_iff, Option.some.injEq, Prod.exists] at h
  obtain ⟨-, -, s₁, ok, h1, rfl⟩ := h
  obtain ⟨n, rfl⟩ := dirtypage_cases h1
  have hd : ∃ d, (if ok = true then { s.setBusy pf.pf_addr true with clock := n }.setDirty pf.pf_addr true
      else { s.setBusy pf.pf_addr true with clock := n }) = { s.setBusy pf.pf_addr true with clock := n, pf_dirty := d } ∧
      ∀ pg, s.pf_dirty pg = true → d pg = true := by
    cases ok with
    | false => exact ⟨s.pf_dirty, rfl, fun _ h => h⟩
    | true =>
      refine ⟨Function.update s.pf_dirty pf.pf_addr true, rfl, fun pg h => ?_⟩
      by_cases e : pg = pf.pf_addr
      · rw [e, Function.update_self]
      · rw [Function.update_of_ne e, h]
  obtain ⟨d, hd, hmono⟩ := hd
  rw [hd]
  have hwrote : Wrote s pf x _ := .mk d n hmono
  refine ⟨?_, rfl⟩
  simp only [State.setBusy, State.setMem, Function.update_idem]
  exact hwrote

theorem Wrote.backing (h : Wrote s pf x s') (hB : Backing C held s) : Backing C held s' := by
  cases h with
  | mk d n =>
    refine ⟨hB.layout.congr rfl, hB.chains.congr rfl rfl, hB.frames.congr rfl rfl rfl rfl rfl rfl, fun q hq => ?_,
      hB.hung.congr rfl rfl rfl, hB.counted, hB.num⟩
    by_cases e : q.pf_addr = pf.pf_addr
    · simp [e]
    · exact (Function.update_of_ne e ..).trans (hB.idle q hq)

/-! ## The loops -/

/-- One turn of the page loop: the page of the area's object is got, and stored in. -/
theorem write_pages_succ {s'' : State} {k counter : Nat} (h : Backing C held s) (hheld : ∀ o, 0 ≤ held o) (ha : a ∈ s.vmm_list m)
    (hw : write_pages E a kmem count (k + 1) counter s c = some (s'', c')) : ∃ o s₁ pf s₂ n, a.vma_obj = some o ∧
      Got s o (a.pagenum counter) s₁ pf ∧
      Wrote s₁ pf (blit (s₁.mem pf.pf_addr) (c.vaddr % PAGE_SIZE) n kmem (c.buf + c.temp)) s₂ ∧
      n = min (count - c.temp) (PAGE_SIZE - c.vaddr % PAGE_SIZE) ∧
      write_pages E a kmem count k (counter + 1) s₂ ⟨PN_TO_ADDR (1 + counter), c.temp + n, c.buf + c.temp⟩ = some (s'', c') := by
  simp only [write_pages, bind, Option.bind_eq_some_iff, Prod.exists] at hw
  obtain ⟨o, ho, s₁, pf, ok, hget, s₂, hdirty, hrest⟩ := hw
  obtain ⟨ob, hob, -⟩ := h.hung.areas m a ha o ho
  obtain ⟨b, hb⟩ := h.chains.bottom hob
  have hpos := (Nat.zero_le _).trans_lt (h.area_pos hheld ha ho)
  obtain ⟨s₁', pf', ok', hget', hgot⟩ := pframe_get_total (E := E) (write_pagenum a counter) h.chains h.frames h.idle hb hpos
    (h.bottom_pos hheld hb hpos)
  rw [hget] at hget'
  cases hget'
  rw [write_pagenum_eq] at hgot
  obtain ⟨hwrote, hmem⟩ := pframe_dirty_wrote hdirty (blit (s₁.mem pf.pf_addr) (c.vaddr % PAGE_SIZE)
    (min (count - c.temp) (PAGE_SIZE - c.vaddr % PAGE_SIZE)) kmem (c.buf + c.temp))
  refine ⟨o, s₁, pf, _, _, ho, hgot, hwrote, rfl, ?_⟩
  rw [← hmem]
  exact hrest

/-- Areas before the range are passed over. -/
theorem write_areas_skip {lo hi : Nat} {pre l : List VmArea} (h : ∀ d ∈ pre, d.vma_end ≤ lo) :
    write_areas E kmem lo hi count s c (pre ++ l) = write_areas E kmem lo hi count s c l := by
  induction pre with
  | nil => rfl
  | cons d pre ih =>
    rw [List.cons_append, write_areas, if_pos (h d List.mem_cons_self)]
    exact ih fun e he => h e (List.mem_cons_of_mem d he)

/-- What a page of the loops over map `m` may do to keep `I`. Once all bytes are copied, nothing is stored. -/
def WriteStep (C : Config) (held : Nat → Int) (m lo hi : Nat) (done : Prop) (I : State → Prop) : Prop :=
  ∀ s s₁ s₂ a v o pf x, Backing C held s → I s → a ∈ s.vmm_list m → a.Has v → lo ≤ v → v < hi → a.vma_obj = some o →
    Got s o (a.pagenum v) s₁ pf → Wrote s₁ pf x s₂ → (done → x = s₁.mem pf.pf_addr) → I s₂

theorem blit_none (dst : Page) (off n : Nat) (src : Nat → UInt8) (i : Nat) (h : n = 0) : blit dst off n src i = dst := by
  subst h
  exact blit_zero dst src off i

theorem write_pages_rule {I : State → Prop} {lo hi : Nat} (hheld : ∀ o, 0 ≤ held o) (hI : WriteStep C held m lo hi (count ≤ c.temp) I) :
    ∀ {k counter : Nat} {c₁ c' : Cursor} {s s' : State}, c.temp ≤ c₁.temp → Backing C held s → I s → a ∈ s.vmm_list m →
      (∀ v, counter ≤ v → v < counter + k → a.Has v ∧ lo ≤ v ∧ v < hi) →
      write_pages E a kmem count k counter s c₁ = some (s', c') → Backing C held s' ∧ I s' ∧ c.temp ≤ c'.temp := by
  intro k
  induction k with
  | zero =>
    intro counter c₁ c' s s' hle hB hs _ _ hw
    cases hw
    exact ⟨hB, hs, hle⟩
  | succ k ih =>
    intro counter c₁ c' s s' hle hB hs ha hr hw
    obtain ⟨o, s₁, pf, s₂, n, ho, hgot, hwrote, hn, hrest⟩ := write_pages_succ hB hheld ha hw
    obtain ⟨h1, h2, h3⟩ := hr counter le_rfl (by omega)
    have hB₂ : Backing C held s₂ := hwrote.backing (hB.grown hgot.grown hgot.frames)
    have hs₂ : I s₂ := hI s s₁ s₂ a counter o pf _ hB hs ha h1 h2 h3 ho hgot hwrote fun hd => blit_none _ _ _ _ _ (by omega)
    have hsp : s₂.vmm_list = s.vmm_list := by
      have e : s₂.vmm_list = s₁.vmm_list := by cases hwrote; rfl
      exact e.trans (congrArg Spaces.vmm_list hgot.grown.spaces)
    exact ih (hle.trans (Nat.le_add_right _ _)) hB₂ hs₂ (by rw [hsp]; exact ha) (fun v h4 h5 => hr v (by omega) (by omega)) hrest

theorem write_areas_rule {I : State → Prop} {lo hi : Nat} (hheld : ∀ o, 0 ≤ held o) (hI : WriteStep C held m lo hi (count ≤ c.temp) I)
    {l : List VmArea} : ∀ {c₁ : Cursor} {s s' : State}, c.temp ≤ c₁.temp → Backing C held s → I s → l ⊆ s.vmm_list m →
      write_areas E kmem lo hi count s c₁ l = some s' → Backing C held s' ∧ I s' := by
  induction l with
  | nil =>
    intro c₁ s s' _ hB hs _ hw
    cases hw
    exact ⟨hB, hs⟩
  | cons a l ih =>
    intro c₁ s s' hle hB hs hl hw
    have hrest : l ⊆ s.vmm_list m := fun x hx => hl (List.mem_cons_of_mem a hx)
    simp only [write_areas, bind] at hw
    split at hw
    · exact ih hle hB hs hrest hw
    split at hw
    · cases hw
      exact ⟨hB, hs⟩
    · simp only [Option.bind_eq_some_iff, Prod.exists] at hw
      obtain ⟨s₁, c₂, hp, hw⟩ := hw
      have hmax : (if a.vma_start ≤ lo then lo else a.vma_start) = max a.vma_start lo := by
        split <;> omega
      have hmin : (if a.vma_end > hi then hi else a.vma_end) = min a.vma_end hi := by
        split <;> omega
      rw [hmax, hmin] at hp
      obtain ⟨hB₁, hs₁, hle₁⟩ := write_pages_rule hheld hI hle hB hs (hl List.mem_cons_self)
        (fun v h1 h2 => ⟨⟨by omega, by omega⟩, by omega, by omega⟩) hp
      have hsp : s₁.vmm_list = s.vmm_list := congrArg Spaces.vmm_list (write_pages_spaces hp)
      exact ih hle₁ hB₁ hs₁ (by rw [hsp]; exact hrest) hw

/-- The rule for `vmmap_write`. -/
theorem vmmap_write_rule {I : State → Prop} {vaddr : Nat} (hheld : ∀ o, 0 ≤ held o)
    (hI : WriteStep C held m (ADDR_TO_PN vaddr) (1 + ADDR_TO_PN (u32 (vaddr + count))) False I) (hB : Backing C held s) (hs : I s)
    (hw : vmmap_write E s m vaddr kmem count = some s') : Backing C held s' ∧ I s' := by
  refine write_areas_rule (c := ⟨0, 0, 0⟩) hheld (fun s s₁ s₂ a v o pf x h1 h2 h3 h4 h5 h6 h7 h8 h9 _ => ?_) (Nat.zero_le _) hB hs
    (List.Subset.refl _) hw
  exact hI s s₁ s₂ a v o pf x h1 h2 h3 h4 h5 h6 h7 h8 h9 False.elim

end Weenix.Vm
