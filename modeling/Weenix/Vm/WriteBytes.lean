import Weenix.Vm.Writes
/-!
# What `vmmap_write` writes

The page loop of `vmmap_write` has a turn for the page of `vaddr + count`, also
where the range ends in front of it, and moves the buffer pointer on by the bytes
copied so far. `vmmap_write_iff` says which requests are served right.
-/

namespace Weenix.Vm

open Lib Lib.Intervals

variable {C : Config} {E : Env} {s s' s₀ : State} {m o pn v n count vaddr : Nat} {held : Nat → Int} {a : VmArea} {pf : Pframe}
  {c : Cursor} {kmem : Nat → UInt8}

/-! ## Written right -/

namespace State
variable (s : State)

/-- Byte `j` of page `pn` of `o` is the one at the address `addr` of map `m`. -/
def Shows (m addr o pn j : Nat) : Prop :=
  ∃ x, s.objPage m (ADDR_TO_PN addr) = some (x, pn) ∧ s.Sees o x pn ∧ j = addr % PAGE_SIZE

/-- Page `pn` of `o` is behind one of the `count` bytes at `vaddr`. -/
def Within (m vaddr count o pn : Nat) : Prop := ∃ i < count, s.objPage m (ADDR_TO_PN (vaddr + i)) = some (o, pn)

end State

/-- The bytes in the buffer are those at `vaddr` of map `m`, and only pages of the range have become dirty. -/
structure WrittenTo (s s' : State) (m vaddr count : Nat) (kmem : Nat → UInt8) : Prop where
  bytes : ∀ i < count, s'.byteAt m (vaddr + i) = kmem i
  outside : ∀ o pn j, (∀ i < count, ¬ s.Shows m (vaddr + i) o pn j) → s'.page o pn j = s.page o pn j
  dirty : ∀ pf ∈ s'.pframes, s'.pf_dirty pf.pf_addr = true →
    pf ∈ s.pframes ∧ s.pf_dirty pf.pf_addr = true ∨ s.Within m vaddr count pf.pf_obj pf.pf_pagenum
  spaces : s'.spaces = s.spaces

/-- No two addresses of the range are the same byte of a page of an object. -/
def OnceEach (s : State) (m vaddr count : Nat) : Prop := ∀ i k x, i < k → k < count →
  s.objPage m (ADDR_TO_PN (vaddr + i)) = some x → s.objPage m (ADDR_TO_PN (vaddr + k)) = some x →
    (vaddr + i) % PAGE_SIZE ≠ (vaddr + k) % PAGE_SIZE

/-- The page of the end of the range, where one is mapped, is a page of the range or dirty. -/
def EndKept (s : State) (m vaddr count : Nat) : Prop := ∀ o pn, s.objPage m (ADDR_TO_PN (vaddr + count)) = some (o, pn) →
  s.Within m vaddr count o pn ∨ ∃ pf ∈ s.pframes, (pf.pf_obj = o ∧ pf.pf_pagenum = pn) ∧ s.pf_dirty pf.pf_addr = true

/-! ## The cursor -/

/-- The cursor when the pages in front of `v` are done. -/
structure CursorAt (vaddr count v : Nat) (c : Cursor) : Prop where
  temp : c.temp = min count (v * PAGE_SIZE - vaddr)
  addr : c.temp < count → c.vaddr % PAGE_SIZE = (vaddr + c.temp) % PAGE_SIZE

theorem PN_TO_ADDR_aligned (pn : Nat) : PN_TO_ADDR pn % PAGE_SIZE = 0 := by
  unfold PN_TO_ADDR u32 PAGE_SIZE
  omega

/-- The first byte at or behind `vaddr` of a page. -/
theorem first_byte (hv : ADDR_TO_PN vaddr ≤ v) : ADDR_TO_PN (vaddr + (v * PAGE_SIZE - vaddr)) = v := by
  unfold ADDR_TO_PN PAGE_SIZE at *
  omega

namespace CursorAt

theorem start (vaddr count : Nat) : CursorAt vaddr count (ADDR_TO_PN vaddr) ⟨vaddr, 0, 0⟩ := by
  constructor
  · unfold ADDR_TO_PN PAGE_SIZE
    simp only
    omega
  · intro _
    rfl

/-- The bytes of a turn are those of the page that are wanted. -/
theorem byte (h : CursorAt vaddr count v c) (hv : ADDR_TO_PN vaddr ≤ v)
    (hn : n = min (count - c.temp) (PAGE_SIZE - c.vaddr % PAGE_SIZE)) {i : Nat} (h1 : c.temp ≤ i) (h2 : i < c.temp + n) :
    i < count ∧ ADDR_TO_PN (vaddr + i) = v ∧ (vaddr + i) % PAGE_SIZE = c.vaddr % PAGE_SIZE + (i - c.temp) := by
  have ht := h.temp
  have ha := h.addr (by omega)
  unfold ADDR_TO_PN PAGE_SIZE at *
  omega

theorem turn (h : CursorAt vaddr count v c) (hv : ADDR_TO_PN vaddr ≤ v)
    (hn : n = min (count - c.temp) (PAGE_SIZE - c.vaddr % PAGE_SIZE)) (b : Nat) :
    CursorAt vaddr count (v + 1) ⟨PN_TO_ADDR (1 + v), c.temp + n, b⟩ := by
  have ht := h.temp
  by_cases hlt : c.temp < count
  · have ha := h.addr hlt
    have hat : vaddr + c.temp = v * PAGE_SIZE + c.vaddr % PAGE_SIZE := by
      unfold ADDR_TO_PN PAGE_SIZE at *
      omega
    constructor
    · simp only
      unfold PAGE_SIZE at *
      omega
    · simp only [PN_TO_ADDR_aligned]
      intro hmore
      have hend : vaddr + (c.temp + n) = (v + 1) * PAGE_SIZE := by
        unfold PAGE_SIZE at *
        omega
      rw [hend, Nat.mul_mod_left]
  · constructor
    · simp only
      unfold PAGE_SIZE at *
      omega
    · intro hmore
      exact absurd hmore (by simp only; omega)

theorem skip (h : CursorAt vaddr count v c) (hv : ADDR_TO_PN vaddr ≤ v) (hout : ∀ i < count, ADDR_TO_PN (vaddr + i) ≠ v) :
    CursorAt vaddr count (v + 1) c := by
  have ht := h.temp
  have hdone : count ≤ v * PAGE_SIZE - vaddr := by
    by_contra hlt
    exact hout (v * PAGE_SIZE - vaddr) (by omega) (first_byte hv)
  have hnext : v * PAGE_SIZE ≤ (v + 1) * PAGE_SIZE := Nat.mul_le_mul_right _ (Nat.le_succ v)
  constructor
  · rw [ht, Nat.min_eq_left hdone, Nat.min_eq_left (by omega)]
  · exact h.addr

end CursorAt

/-! ## Requests of two pages -/

/-- What the turns in front of `v` have done to the bytes of a range of two pages at most. -/
structure Storing (s₀ : State) (m vaddr count : Nat) (kmem : Nat → UInt8) (v : Nat) (s : State) (c : Cursor) : Prop where
  cursor : CursorAt vaddr count v c
  front : c.temp < count → c.buf = 0
  objs : s.objs = s₀.objs
  frames : ∀ pf ∈ s₀.pframes, pf ∈ s.pframes
  bytes : ∀ i < c.temp, ∀ o pn, s₀.objPage m (ADDR_TO_PN (vaddr + i)) = some (o, pn) →
    (∃ pf ∈ s.pframes, pf.pf_obj = o ∧ pf.pf_pagenum = pn) ∧ s.page o pn ((vaddr + i) % PAGE_SIZE) = kmem i
  shown : ∀ o pn j, s.page o pn j = s₀.page o pn j ∨ ∃ i < count, s₀.Shows m (vaddr + i) o pn j ∧ s.page o pn j = kmem i

/-- And to the dirty marks. -/
structure Written (s₀ : State) (m vaddr count : Nat) (kmem : Nat → UInt8) (v : Nat) (s : State) (c : Cursor) : Prop
    extends Storing s₀ m vaddr count kmem v s c where
  dirty : ∀ pf ∈ s.pframes, s.pf_dirty pf.pf_addr = true →
    pf ∈ s₀.pframes ∧ s₀.pf_dirty pf.pf_addr = true ∨ s₀.Within m vaddr count pf.pf_obj pf.pf_pagenum

theorem Storing.start (s₀ : State) (m vaddr count : Nat) (kmem : Nat → UInt8) :
    Storing s₀ m vaddr count kmem (ADDR_TO_PN vaddr) s₀ ⟨vaddr, 0, 0⟩ := by
  constructor
  case cursor => exact .start vaddr count
  case front => exact fun _ => rfl
  case objs => rfl
  case frames => exact fun _ h => h
  case bytes => exact fun i hi => absurd hi (Nat.not_lt_zero i)
  case shown => exact fun _ _ _ => .inl rfl

/-- The bytes of a turn are read where they should be. -/
theorem Storing.source (h : Storing s₀ m vaddr count kmem v s c) (hv : ADDR_TO_PN vaddr ≤ v)
    (hn : n = min (count - c.temp) (PAGE_SIZE - c.vaddr % PAGE_SIZE)) {i : Nat} (hi : i < n) :
    c.buf + c.temp + i = c.temp + i ∧ c.temp + i < count := by
  obtain ⟨hlt, -, -⟩ := h.cursor.byte hv hn (Nat.le_add_right c.temp i) (by omega)
  rw [h.front (by omega)]
  omega

/-- Past the second page nothing is left. -/
theorem CursorAt.two (h : CursorAt vaddr count v c) (h2 : TwoPages vaddr count) (hv : ADDR_TO_PN vaddr ≤ v)
    (hn : n = min (count - c.temp) (PAGE_SIZE - c.vaddr % PAGE_SIZE)) (hlt : c.temp + n < count) : c.temp = 0 := by
  have ht := h.temp
  have ha := h.addr (by omega)
  unfold TwoPages ADDR_TO_PN PAGE_SIZE at *
  omega

/-- One turn of a request of two pages, no byte of which is stored twice. -/
theorem Storing.turn (h2 : TwoPages vaddr count) (honce : OnceEach s₀ m vaddr count)
    (h : Storing s₀ m vaddr count kmem v s c) (hv : ADDR_TO_PN vaddr ≤ v) (hpage : s₀.objPage m v = some (o, pn))
    (hn : n = min (count - c.temp) (PAGE_SIZE - c.vaddr % PAGE_SIZE))
    (hst : Stored s o pn (c.vaddr % PAGE_SIZE) n (fun i => kmem (c.buf + c.temp + i)) s') :
    Storing s₀ m vaddr count kmem (v + 1) s' ⟨PN_TO_ADDR (1 + v), c.temp + n, c.buf + c.temp⟩ := by
  obtain ⟨pf₁, hm₁, hp₁, -⟩ := hst.marked
  -- the byte of the range that offset `j` of the page is
  have hbyte {j : Nat} (h1 : c.vaddr % PAGE_SIZE ≤ j) (h3 : j < c.vaddr % PAGE_SIZE + n) :=
    h.cursor.byte hv hn (Nat.le_add_right c.temp (j - c.vaddr % PAGE_SIZE)) (by omega)
  constructor
  case cursor => exact h.cursor.turn hv hn _
  case front =>
    intro hlt
    simp only at hlt ⊢
    rw [h.front (by omega), h.cursor.two h2 hv hn hlt]
  case objs => exact hst.objs.trans h.objs
  case frames => exact fun pf hm => hst.frames pf (h.frames pf hm)
  case bytes =>
    intro i hi o' pn' hpage'
    simp only at hi
    by_cases hold : i < c.temp
    · obtain ⟨⟨pf, hm, h3, h4⟩, hval⟩ := h.bytes i hold o' pn' hpage'
      refine ⟨⟨pf, hst.frames pf hm, h3, h4⟩, ?_⟩
      rw [← hval]
      apply hst.outside
      -- a byte stored before would be one address of the range, and be stored now at another
      rintro ⟨rfl, hsees, h5, h6⟩
      obtain rfl := hsees.own hm h3 h4
      obtain ⟨hlt, hat, hoff⟩ := hbyte h5 h6
      rw [← hat] at hpage
      apply honce i _ _ (by omega) hlt hpage' hpage
      rw [hoff]
      omega
    · obtain ⟨hlt, hat, hoff⟩ := h.cursor.byte hv hn (Nat.le_of_not_lt hold) hi
      rw [hat, hpage] at hpage'
      cases hpage'
      refine ⟨⟨pf₁, hm₁, hp₁⟩, ?_⟩
      obtain ⟨hsrc, -⟩ := h.source hv hn (show i - c.temp < n by omega)
      rw [hoff, hst.inside _ (by omega) (by omega), Nat.add_sub_cancel_left, hsrc, Nat.add_sub_cancel' (Nat.le_of_not_lt hold)]
  case shown =>
    intro o' pn' j
    rcases hst.shown o' pn' j with hsame | ⟨⟨rfl, hsees, h5, h6⟩, hnew⟩
    · rw [hsame]
      exact h.shown o' pn' j
    · obtain ⟨hlt, hat, hoff⟩ := hbyte h5 h6
      obtain ⟨hsrc, -⟩ := h.source hv hn (show j - c.vaddr % PAGE_SIZE < n by omega)
      rw [hnew, hsrc]
      exact .inr ⟨_, hlt, ⟨o, by rw [hat, hpage], hsees.mono h.objs h.frames, by omega⟩, rfl⟩

/-- It marks no other page if the range does not end at another clean one. -/
theorem Written.turn (h2 : TwoPages vaddr count) (honce : OnceEach s₀ m vaddr count) (hend : EndKept s₀ m vaddr count)
    (h : Written s₀ m vaddr count kmem v s c) (hv : ADDR_TO_PN vaddr ≤ v) (hv' : v < 1 + ADDR_TO_PN (vaddr + count))
    (hpage : s₀.objPage m v = some (o, pn)) (hn : n = min (count - c.temp) (PAGE_SIZE - c.vaddr % PAGE_SIZE)) (hf' : Frames s')
    (hst : Stored s o pn (c.vaddr % PAGE_SIZE) n (fun i => kmem (c.buf + c.temp + i)) s') :
    Written s₀ m vaddr count kmem (v + 1) s' ⟨PN_TO_ADDR (1 + v), c.temp + n, c.buf + c.temp⟩ where
  toStoring := h.toStoring.turn h2 honce hv hpage hn hst
  dirty := by
    intro pf hm hd
    rcases hst.dirty pf hm hd with ⟨h3, h4⟩ | ⟨h3, h4⟩
    · exact h.dirty pf h3 h4
    by_cases hin : ∃ i < count, ADDR_TO_PN (vaddr + i) = v
    · obtain ⟨i, hi, rfl⟩ := hin
      exact .inr ⟨i, hi, by rw [h3, h4, hpage]⟩
    · have hlast : v = ADDR_TO_PN (vaddr + count) := by
        by_contra hne
        apply hin
        refine ⟨v * PAGE_SIZE - vaddr, ?_, first_byte hv⟩
        unfold ADDR_TO_PN PAGE_SIZE at *
        omega
      rcases hend o pn (by rw [← hlast, hpage]) with hin | ⟨q, hq, ⟨h5, h6⟩, hqd⟩
      · exact .inr (by rw [h3, h4]; exact hin)
      · have hsame : pf = q := by
          have hfr := (frame?_eq_some hf').2 ⟨hm, h3, h4⟩
          rw [(frame?_eq_some hf').2 ⟨hst.frames q (h.frames q hq), h5, h6⟩] at hfr
          exact (Option.some.inj hfr).symm
        subst hsame
        exact .inl ⟨hq, hqd⟩

/-! ## Every request -/

/-- Every page of the range is a page of an object. -/
theorem AllMapped.objPage (hok : AreasOk C m (s.vmm_list m)) (hs : Settled s)
    (hm : AllMapped ((s.vmm_list m).map VmArea.span) vaddr count) {i : Nat} (hi : i < count) :
    ∃ x, s.objPage m (ADDR_TO_PN (vaddr + i)) = some x := by
  obtain ⟨y, hy, hcov⟩ := hm i hi
  obtain ⟨a, ha, rfl⟩ := List.mem_map.1 hy
  obtain ⟨o, ho⟩ := hs m a ha
  exact ⟨_, objPage_of_has hok ha hcov ho⟩

theorem AllMapped.fits (hok : AreasOk C m (s.vmm_list m)) (hv : vaddr < 2 ^ 32)
    (hm : AllMapped ((s.vmm_list m).map VmArea.span) vaddr count) : vaddr + count < 2 ^ 32 := by
  have hC := C.high_lt
  rcases Nat.eq_zero_or_pos count with rfl | hpos
  · exact hv
  · obtain ⟨y, hy, hcov⟩ := hm (count - 1) (by omega)
    obtain ⟨a, ha, rfl⟩ := List.mem_map.1 hy
    have h1 := hok.high a ha
    have h2 : ADDR_TO_PN (vaddr + (count - 1)) < a.vma_end := hcov.2
    unfold ADDR_TO_PN PAGE_SIZE at h2
    omega

/-- The rule for `vmmap_write`: what the turns keep holds at the end. -/
theorem vmmap_write_walk {K : (Nat → UInt8) → Prop} {J : Nat → State → Cursor → Prop}
    (hw : Walks C held s m (ADDR_TO_PN vaddr) (1 + ADDR_TO_PN (vaddr + count)) count kmem K J) (hio : ∀ n, E.io n = true)
    (hB : Backing C held s) (hheld : ∀ o, 0 ≤ held o) (hs : Settled s) (hlt : vaddr + count < 2 ^ 32)
    (hJ : J (ADDR_TO_PN vaddr) s ⟨vaddr, 0, 0⟩) : ∃ s' c', J (1 + ADDR_TO_PN (vaddr + count)) s' c' ∧
      ∀ kmem', K kmem' → vmmap_write E s m vaddr kmem' count = some s' := by
  have hle : ADDR_TO_PN vaddr ≤ ADDR_TO_PN (vaddr + count) := Nat.div_le_div_right (Nat.le_add_right _ _)
  unfold vmmap_write
  rw [u32_of_lt hlt]
  exact hw.areas hio hheld hs (hB.layout.areas m).sorted (List.Subset.refl _) le_rfl (by omega) (.inl rfl)
    (fun a ha _ _ _ _ => ha) hB rfl hJ

/-- A page that is not mapped is not one of the range. -/
theorem AllMapped.hole (hok : AreasOk C m (s.vmm_list m)) (hs : Settled s)
    (hm : AllMapped ((s.vmm_list m).map VmArea.span) vaddr count) (hnone : s.objPage m v = none) :
    ∀ i < count, ADDR_TO_PN (vaddr + i) ≠ v := by
  rintro i hi rfl
  obtain ⟨x, hx⟩ := hm.objPage hok hs hi
  rw [hnone] at hx
  cases hx

theorem Storing.walks (hok : AreasOk C m (s.vmm_list m)) (hs : Settled s)
    (hm : AllMapped ((s.vmm_list m).map VmArea.span) vaddr count) (h2 : TwoPages vaddr count) (honce : OnceEach s m vaddr count)
    (kmem : Nat → UInt8) : Walks C held s m (ADDR_TO_PN vaddr) (1 + ADDR_TO_PN (vaddr + count)) count kmem
      (fun kmem' => ∀ i < count, kmem' i = kmem i) (Storing s m vaddr count kmem) := by
  constructor
  case skip =>
    intro v t c hlo _ hnone h
    exact { h with cursor := h.cursor.skip hlo (hm.hole hok hs hnone) }
  case turn =>
    intro v t t' c n o pn hlo _ hpage hn _ _ hst h
    refine ⟨fun kmem' hk i hi => ?_, h.turn h2 honce hlo hpage hn hst⟩
    obtain ⟨hsrc, hin⟩ := h.source hlo hn hi
    rw [hsrc]
    exact hk _ hin

/-- At the end all bytes are there. -/
theorem Storing.done (h : Storing s m vaddr count kmem (1 + ADDR_TO_PN (vaddr + count)) s' c) {i : Nat} (hi : i < count)
    (hx : s.objPage m (ADDR_TO_PN (vaddr + i)) = some (o, pn)) : s'.page o pn ((vaddr + i) % PAGE_SIZE) = kmem i := by
  have hdone : i < c.temp := by
    rw [h.cursor.temp]
    unfold ADDR_TO_PN PAGE_SIZE
    omega
  exact (h.bytes i hdone o pn hx).2

/-- A request of two pages at most, no byte of which is stored twice, is served right if it does not end at another clean page. -/
theorem vmmap_write_right (hB : Backing C held s) (hheld : ∀ o, 0 ≤ held o) (hs : Settled s) (hio : ∀ n, E.io n = true)
    (hv : vaddr < 2 ^ 32) (hm : AllMapped ((s.vmm_list m).map VmArea.span) vaddr count) (h2 : TwoPages vaddr count)
    (honce : OnceEach s m vaddr count) (hend : EndKept s m vaddr count) (kmem : Nat → UInt8) :
    ∃ s', (∀ kmem', (∀ i < count, kmem' i = kmem i) → vmmap_write E s m vaddr kmem' count = some s') ∧
      WrittenTo s s' m vaddr count kmem := by
  have hok := hB.layout.areas m
  have hlt := hm.fits hok hv
  have hbytes : Walks C held s m _ _ count kmem _ (Storing s m vaddr count kmem) := Storing.walks hok hs hm h2 honce kmem
  have hw : Walks C held s m (ADDR_TO_PN vaddr) (1 + ADDR_TO_PN (vaddr + count)) count kmem
      (fun kmem' => ∀ i < count, kmem' i = kmem i) (Written s m vaddr count kmem) := by
    constructor
    case skip =>
      intro v t c hlo hhi hnone h
      exact { hbytes.skip v t c hlo hhi hnone h.toStoring with dirty := h.dirty }
    case turn =>
      intro v t t' c n o pn hlo hhi hpage hn hB hB' hst h
      exact ⟨(hbytes.turn v t t' c n o pn hlo hhi hpage hn hB hB' hst h.toStoring).1,
        h.turn h2 honce hend hlo hhi hpage hn hB'.frames hst⟩
  obtain ⟨s', c', h, hrun⟩ := vmmap_write_walk hw hio hB hheld hs hlt
    { Storing.start s m vaddr count kmem with dirty := fun _ hm hd => .inl ⟨hm, hd⟩ }
  have hspaces : s'.spaces = s.spaces := write_areas_spaces (hrun kmem fun _ _ => rfl)
  have hlists : s'.vmm_list = s.vmm_list := congrArg Spaces.vmm_list hspaces
  refine ⟨s', hrun, fun i hi => ?_, fun o pn j hout => ?_, h.dirty, hspaces⟩
  · obtain ⟨⟨o, pn⟩, hx⟩ := hm.objPage hok hs hi
    rw [← h.done hi hx, State.byteAt, pageAt_eq (show s'.objPage m (ADDR_TO_PN (vaddr + i)) = some (o, pn) by
      simpa only [State.objPage, hlists] using hx)]
  · refine (h.shown o pn j).resolve_right ?_
    rintro ⟨i, hi, hsh, -⟩
    exact hout i hi hsh

/-! ## What goes wrong otherwise -/

/-- A buffer of zeros for the range, with ones behind it. -/
def zerosFor (count : Nat) (i : Nat) : UInt8 := if i < count then 0 else 1

/-- What the turns in front of `v` have done to a range of three pages or more:
from the third on the buffer pointer is too far on. -/
structure Strayed (s₀ : State) (m vaddr count v : Nat) (s : State) (c : Cursor) : Prop where
  cursor : CursorAt vaddr count v c
  front : ADDR_TO_PN vaddr + 2 ≤ v → 0 < c.buf
  last : ADDR_TO_PN (vaddr + (count - 1)) < v → ∀ o pn, s₀.objPage m (ADDR_TO_PN (vaddr + (count - 1))) = some (o, pn) →
    s.page o pn ((vaddr + (count - 1)) % PAGE_SIZE) = 1

theorem Strayed.turn (h2 : ¬ TwoPages vaddr count) (h : Strayed s₀ m vaddr count v s c) (hv : ADDR_TO_PN vaddr ≤ v)
    (hpage : s₀.objPage m v = some (o, pn)) (hn : n = min (count - c.temp) (PAGE_SIZE - c.vaddr % PAGE_SIZE))
    (hst : Stored s o pn (c.vaddr % PAGE_SIZE) n (fun i => zerosFor count (c.buf + c.temp + i)) s') :
    Strayed s₀ m vaddr count (v + 1) s' ⟨PN_TO_ADDR (1 + v), c.temp + n, c.buf + c.temp⟩ := by
  have ht := h.cursor.temp
  have hpos : 8192 < vaddr % 4096 + count := by
    unfold TwoPages PAGE_SIZE at h2
    omega
  constructor
  case cursor => exact h.cursor.turn hv hn _
  case front =>
    intro h3
    simp only
    unfold ADDR_TO_PN PAGE_SIZE at *
    omega
  case last =>
    intro h3 o' pn' hpage'
    by_cases hnow : ADDR_TO_PN (vaddr + (count - 1)) = v
    · -- the last byte is stored now, from behind the end of the buffer
      rw [hnow, hpage] at hpage'
      cases hpage'
      have hthird : ADDR_TO_PN vaddr + 2 ≤ v := by
        unfold ADDR_TO_PN at *
        simp only [PAGE_SIZE] at *
        omega
      have hbuf := h.front hthird
      have hlt : c.temp < count := by
        unfold ADDR_TO_PN PAGE_SIZE at *
        omega
      have hlast : c.temp ≤ count - 1 ∧ count - 1 < c.temp + n := by
        have ha := h.cursor.addr hlt
        unfold ADDR_TO_PN PAGE_SIZE at *
        omega
      obtain ⟨-, -, hoff⟩ := h.cursor.byte hv hn hlast.1 hlast.2
      rw [hoff, hst.inside _ (by omega) (by omega), Nat.add_sub_cancel_left]
      exact if_neg (by omega)
    · rw [← h.last (by omega) o' pn' hpage']
      apply hst.outside
      rintro ⟨-, -, h5, h6⟩
      have hdone : c.temp = count := by
        unfold ADDR_TO_PN PAGE_SIZE at *
        omega
      omega

theorem Strayed.start (s₀ : State) (m vaddr count : Nat) : Strayed s₀ m vaddr count (ADDR_TO_PN vaddr) s₀ ⟨vaddr, 0, 0⟩ :=
  ⟨.start vaddr count, fun h => absurd h (by omega), fun h => absurd h (Nat.not_lt.2 (Nat.div_le_div_right (Nat.le_add_right _ _)))⟩

theorem Strayed.walks (hok : AreasOk C m (s.vmm_list m)) (hs : Settled s)
    (hm : AllMapped ((s.vmm_list m).map VmArea.span) vaddr count) (h2 : ¬ TwoPages vaddr count) :
    Walks C held s m (ADDR_TO_PN vaddr) (1 + ADDR_TO_PN (vaddr + count)) count (zerosFor count)
      (fun kmem => kmem = zerosFor count) (Strayed s m vaddr count) := by
  have hpos : 0 < count := by
    unfold TwoPages PAGE_SIZE at h2
    omega
  constructor
  case skip =>
    intro v t c hlo _ hnone h
    have hout := hm.hole hok hs hnone
    have hlast := hout (count - 1) (by omega)
    have hbehind : ADDR_TO_PN (vaddr + (count - 1)) < v := by
      by_contra hle
      apply hout (v * PAGE_SIZE - vaddr) _ (first_byte hlo)
      unfold ADDR_TO_PN PAGE_SIZE at *
      omega
    refine ⟨h.cursor.skip hlo hout, fun _ => h.front ?_, fun _ => h.last hbehind⟩
    unfold TwoPages ADDR_TO_PN PAGE_SIZE at *
    omega
  case turn =>
    intro v t t' c n o pn hlo _ hpage hn _ _ hst h
    exact ⟨fun kmem hk i _ => by rw [hk], h.turn h2 hlo hpage hn hst⟩

/-- At the end the last byte is not the one in the buffer. -/
theorem Strayed.done (h : Strayed s m vaddr count (1 + ADDR_TO_PN (vaddr + count)) s' c)
    (hx : s.objPage m (ADDR_TO_PN (vaddr + (count - 1))) = some (o, pn)) :
    s'.page o pn ((vaddr + (count - 1)) % PAGE_SIZE) = 1 := by
  have hle : ADDR_TO_PN (vaddr + (count - 1)) ≤ ADDR_TO_PN (vaddr + count) := Nat.div_le_div_right (by omega)
  exact h.last (by omega) o pn hx

/-- The last byte of three pages or more is not the one in the buffer. -/
theorem vmmap_write_strays (hB : Backing C held s) (hheld : ∀ o, 0 ≤ held o) (hs : Settled s) (hio : ∀ n, E.io n = true)
    (hv : vaddr < 2 ^ 32) (hm : AllMapped ((s.vmm_list m).map VmArea.span) vaddr count) (h2 : ¬ TwoPages vaddr count) :
    ∃ s', vmmap_write E s m vaddr (zerosFor count) count = some s' ∧ s'.byteAt m (vaddr + (count - 1)) = 1 := by
  have hok := hB.layout.areas m
  have hpos : 0 < count := by
    unfold TwoPages PAGE_SIZE at h2
    omega
  obtain ⟨s', c', h, hrun⟩ := vmmap_write_walk (Strayed.walks hok hs hm h2) hio hB hheld hs (hm.fits hok hv)
    (.start s m vaddr count)
  have hrun := hrun _ rfl
  have hlists : s'.vmm_list = s.vmm_list := congrArg Spaces.vmm_list (write_areas_spaces hrun)
  obtain ⟨⟨o, pn⟩, hx⟩ := hm.objPage hok hs (show count - 1 < count by omega)
  refine ⟨s', hrun, ?_⟩
  rw [State.byteAt, pageAt_eq (show s'.objPage m (ADDR_TO_PN (vaddr + (count - 1))) = some (o, pn) by
    simpa only [State.objPage, hlists] using hx)]
  exact h.done hx

/-- The page of `vaddr + count`, if one is mapped there, becomes dirty. -/
theorem vmmap_write_marks (hB : Backing C held s) (hheld : ∀ o, 0 ≤ held o) (hs : Settled s) (hio : ∀ n, E.io n = true)
    (hlt : vaddr + count < 2 ^ 32) (kmem : Nat → UInt8) (hpage : s.objPage m (ADDR_TO_PN (vaddr + count)) = some (o, pn)) :
    ∃ s', vmmap_write E s m vaddr kmem count = some s' ∧
      ∃ pf ∈ s'.pframes, (pf.pf_obj = o ∧ pf.pf_pagenum = pn) ∧ s'.pf_dirty pf.pf_addr = true := by
  have hle : ADDR_TO_PN vaddr ≤ ADDR_TO_PN (vaddr + count) := Nat.div_le_div_right (Nat.le_add_right _ _)
  have hw : Walks C held s m (ADDR_TO_PN vaddr) (1 + ADDR_TO_PN (vaddr + count)) count kmem (fun kmem' => kmem' = kmem)
      (fun v t _ => v = 1 + ADDR_TO_PN (vaddr + count) →
        ∃ pf ∈ t.pframes, (pf.pf_obj = o ∧ pf.pf_pagenum = pn) ∧ t.pf_dirty pf.pf_addr = true) := by
    constructor
    case skip =>
      intro v t c _ _ hnone _ he
      obtain rfl : v = ADDR_TO_PN (vaddr + count) := by omega
      rw [hnone] at hpage
      cases hpage
    case turn =>
      intro v t t' c n o' pn' _ _ hpage' _ _ _ hst _
      refine ⟨fun kmem' hk i _ => by rw [hk], fun he => ?_⟩
      obtain rfl : v = ADDR_TO_PN (vaddr + count) := by omega
      rw [hpage] at hpage'
      cases hpage'
      exact hst.marked
  obtain ⟨s', c', h, hrun⟩ := vmmap_write_walk hw hio hB hheld hs hlt fun he => absurd he (by omega)
  exact ⟨s', hrun kmem rfl, h rfl⟩

/-- `vmmap_write` writes the bytes of the buffer, these alone and to these
pages alone, whatever they are, when the range has two pages at most, no byte
that is at two of its addresses, and does not end at another page that is clean. -/
theorem vmmap_write_iff (hB : Backing C held s) (hheld : ∀ o, 0 ≤ held o) (hs : Settled s) (hio : ∀ n, E.io n = true)
    (hv : vaddr < 2 ^ 32) (hm : AllMapped ((s.vmm_list m).map VmArea.span) vaddr count) :
    (∀ kmem, ∃ s', (∀ kmem', (∀ i < count, kmem' i = kmem i) → vmmap_write E s m vaddr kmem' count = some s') ∧
      WrittenTo s s' m vaddr count kmem) ↔
        TwoPages vaddr count ∧ OnceEach s m vaddr count ∧ EndKept s m vaddr count := by
  constructor
  · intro h
    refine ⟨?_, ?_, ?_⟩
    · by_contra h2
      have hpos : 0 < count := by
        unfold TwoPages PAGE_SIZE at h2
        omega
      obtain ⟨s', hrun, hone⟩ := vmmap_write_strays hB hheld hs hio hv hm h2
      obtain ⟨s₁, hrun₁, hwrit⟩ := h (zerosFor count)
      rw [hrun₁ _ fun _ _ => rfl] at hrun
      cases hrun
      rw [hwrit.bytes (count - 1) (by omega), zerosFor, if_pos (by omega)] at hone
      exact absurd hone (by decide)
    · rintro i k ⟨o, pn⟩ hik hk hi hk' hoff
      obtain ⟨s', -, hwrit⟩ := h fun q => if q = i then 0 else 1
      have hlists : s'.vmm_list = s.vmm_list := congrArg Spaces.vmm_list hwrit.spaces
      have hat {q : Nat} (hq : s.objPage m (ADDR_TO_PN (vaddr + q)) = some (o, pn)) :
          s'.byteAt m (vaddr + q) = s'.page o pn ((vaddr + q) % PAGE_SIZE) := by
        rw [State.byteAt, pageAt_eq (show s'.objPage m (ADDR_TO_PN (vaddr + q)) = some (o, pn) by
          simpa only [State.objPage, hlists] using hq)]
      have h0 := hwrit.bytes i (by omega)
      have h1 := hwrit.bytes k hk
      rw [hat hi, if_pos rfl, hoff] at h0
      rw [hat hk', if_neg (by omega), h0] at h1
      exact absurd h1 (by decide)
    · intro o pn hpage
      obtain ⟨s', hrun, pf, hm', ⟨rfl, rfl⟩, hd⟩ := vmmap_write_marks hB hheld hs hio (hm.fits (hB.layout.areas m) hv) (fun _ => 0) hpage
      obtain ⟨s₁, hrun₁, hwrit⟩ := h fun _ => 0
      rw [hrun₁ _ fun _ _ => rfl] at hrun
      cases hrun
      rcases hwrit.dirty pf hm' hd with ⟨h1, h2⟩ | hin
      · exact .inr ⟨pf, h1, ⟨rfl, rfl⟩, h2⟩
      · exact .inl hin
  · rintro ⟨h2, honce, hend⟩ kmem
    exact vmmap_write_right hB hheld hs hio hv hm h2 honce hend kmem

/-! ## Requests in one area -/

/-- No byte of an area is at two addresses of it. -/
theorem OnceEach.of_area (hok : AreasOk C m (s.vmm_list m)) (ha : a ∈ s.vmm_list m) (ho : a.vma_obj = some o)
    (h : ∀ i < count, a.Has (ADDR_TO_PN (vaddr + i))) : OnceEach s m vaddr count := by
  have hC := C.high_lt
  have hhigh := hok.high a ha
  intro i k x hik hk hi hk' hoff
  have h1 := h i (by omega)
  have h2 := h k hk
  rw [objPage_of_has hok ha h1 ho] at hi
  rw [objPage_of_has hok ha h2 ho] at hk'
  have hnum : a.pagenum (ADDR_TO_PN (vaddr + i)) = a.pagenum (ADDR_TO_PN (vaddr + k)) :=
    congrArg Prod.snd (Option.some.inj (hi.trans hk'.symm))
  have hsame := pagenum_inj rfl hnum (by have := h2.2; omega) (by have := h1.2; omega)
  unfold ADDR_TO_PN PAGE_SIZE at *
  omega

/-- A range that ends inside a page ends at a page of its own. -/
theorem EndKept.of_inside (hc : 0 < count) (h : (vaddr + count) % PAGE_SIZE ≠ 0) : EndKept s m vaddr count := by
  intro o pn hpage
  have hsame : ADDR_TO_PN (vaddr + (count - 1)) = ADDR_TO_PN (vaddr + count) := by
    unfold ADDR_TO_PN PAGE_SIZE at *
    omega
  exact .inl ⟨count - 1, by omega, by rw [hsame, hpage]⟩

/-- Of ten pages mapped, bytes of the first two are written. -/
theorem two_pages_written : ∃ s tr, Run (refStep .stock .simple) (fun s e => RefOp.Called .stock s e) oneFile s tr ∧
    ∀ kmem, ∃ s', (∀ kmem', (∀ i < 5000, kmem' i = kmem i) → vmmap_write .simple s 0 0x400800 kmem' 5000 = some s') ∧
      WrittenTo s s' 0 0x400800 5000 kmem := by
  have h : (exec (refStep .stock .simple) (fun s e => decide (RefOp.Called .stock s e)) oneFile tenPages).map
      (fun x => (x.1.vmm_list 0).map VmArea.span) = some [(0x400, 0x40a)] := by decide +kernel
  obtain ⟨⟨s, tr⟩, hex, hl⟩ := Option.map_eq_some_iff.1 h
  have hrun : Run (refStep .stock .simple) (fun s e => RefOp.Called .stock s e) oneFile s tr :=
    Run.of_exec (fun _ _ => of_decide_eq_true) hex
  have hS := run_sound oneFile_booted hrun
  obtain ⟨held, hO, hB⟩ := hS.held
  have hm : AllMapped ((s.vmm_list 0).map VmArea.span) 0x400800 5000 := fun i hi => by
    simp only at hl
    rw [hl]
    exact ⟨_, List.mem_cons_self, by unfold Covers ADDR_TO_PN PAGE_SIZE; simp only; omega⟩
  obtain ⟨a, ha, hspan⟩ := List.mem_map.1 (show (0x400, 0x40a) ∈ (s.vmm_list 0).map VmArea.span by simp only at hl; simp [hl])
  obtain ⟨o, ho⟩ := hS.settled 0 a ha
  have hhas : ∀ i < 5000, a.Has (ADDR_TO_PN (0x400800 + i)) := fun i hi => by
    obtain ⟨h1, h2⟩ := Prod.mk.inj hspan
    unfold VmArea.Has ADDR_TO_PN PAGE_SIZE
    omega
  exact ⟨s, tr, hrun, (vmmap_write_iff hB hO.nonneg hS.settled (fun _ => rfl) (by decide) hm).2
    ⟨by unfold TwoPages; decide, .of_area (hB.layout.areas 0) ha ho hhas, .of_inside (by decide) (by decide)⟩⟩

/-- Of three pages written from the start the third gets bytes from behind the
buffer's, and after one page the next one is dirty. -/
theorem third_page_strays : ∃ s tr s₁ s₂, Run (refStep .stock .simple) (fun s e => RefOp.Called .stock s e) oneFile s tr ∧
    AllMapped ((s.vmm_list 0).map VmArea.span) 0x400000 12288 ∧
    (vmmap_write .simple s 0 0x400000 (zerosFor 12288) 12288 = some s₁ ∧ ¬ WrittenTo s s₁ 0 0x400000 12288 (zerosFor 12288)) ∧
    vmmap_write .simple s 0 0x400000 (zerosFor 4096) 4096 = some s₂ ∧ ¬ WrittenTo s s₂ 0 0x400000 4096 (zerosFor 4096) := by
  have h : (exec (refStep .stock .simple) (fun s e => decide (RefOp.Called .stock s e)) oneFile tenPages).bind (fun x =>
      (vmmap_write .simple x.1 0 0x400000 (zerosFor 12288) 12288).bind fun s₁ =>
        (vmmap_write .simple x.1 0 0x400000 (zerosFor 4096) 4096).map fun s₂ =>
          ((x.1.vmm_list 0).map VmArea.span, x.1.objPage 0 0x400, s₁.byteAt 0 (0x400000 + 8192),
            decide (x.1.pframes = [] ∧ ⟨3, 2, 1⟩ ∈ s₂.pframes ∧ s₂.pf_dirty 3 = true))) =
      some ([(0x400, 0x40a)], some (2, 0), 1, true) := by decide +kernel
  simp only [Option.bind_eq_some_iff, Option.map_eq_some_iff, Prod.mk.injEq, Prod.exists, decide_eq_true_eq] at h
  obtain ⟨s, tr, hex, s₁, hw₁, s₂, hw₂, hl, hfirst, hbyte, hnone, hframe, hdirty⟩ := h
  refine ⟨s, tr, s₁, s₂, Run.of_exec (fun _ _ => of_decide_eq_true) hex, ?_, ⟨hw₁, fun hwrit => ?_⟩, hw₂, fun hwrit => ?_⟩
  · rw [hl]
    exact fun i hi => ⟨_, List.mem_cons_self, by unfold Covers ADDR_TO_PN PAGE_SIZE; simp only; omega⟩
  · have := hwrit.bytes 8192 (by decide)
    rw [hbyte] at this
    exact absurd this (by decide)
  · rcases hwrit.dirty _ hframe hdirty with ⟨hold, -⟩ | ⟨i, hi, hpage⟩
    · rw [hnone] at hold
      cases hold
    · have hpn : ADDR_TO_PN (0x400000 + i) = 0x400 := by
        unfold ADDR_TO_PN PAGE_SIZE
        omega
      rw [hpn, hfirst] at hpage
      cases hpage

end Weenix.Vm
