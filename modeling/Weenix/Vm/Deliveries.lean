import Weenix.Vm.QuietReads
import Weenix.Vm.Ranges
import Mathlib.Data.Nat.Find
/-!
# Copying out more than there is

A call that has `n` bytes for the user and copies a buffer of `count`, with
whatever the kernel's heap holds behind the first `n`. `copy_to_user_delivers_iff`
says where in user memory just the `n` bytes arrive, whatever the buffer holds.
-/

namespace Weenix.Vm

open Lib Lib.Intervals

variable {C : Config} {E : Env} {s s' s₀ t : State} {m o p pn v w n k count vaddr : Nat} {held : Nat → Int} {c : Cursor}
  {kmem : Nat → UInt8} {pr : Proc} {d b : UInt8}

/-- The first `n` bytes of the buffer are at `vaddr` of map `m`. Every other byte
of a page of an object, and every byte that reads through to one of these, is as
it was or is one of these. -/
structure Delivered (s s' : State) (m vaddr n : Nat) (kmem : Nat → UInt8) : Prop where
  bytes : ∀ i < n, ∃ o pn, s'.objPage m (ADDR_TO_PN (vaddr + i)) = some (o, pn) ∧ s'.page o pn ((vaddr + i) % PAGE_SIZE) = kmem i
  shown : ∀ o pn j, s'.page o pn j = s.page o pn j ∨ ∃ i < n, s.Shows m (vaddr + i) o pn j ∧ s'.page o pn j = kmem i
  spaces : s'.spaces = s.spaces

/-- No page from that of `vaddr + n` to that of `vaddr + count` is mapped. -/
def TailFree (s : State) (m vaddr n count : Nat) : Prop :=
  ∀ v, ADDR_TO_PN (vaddr + n) ≤ v → v ≤ ADDR_TO_PN (vaddr + count) → s.objPage m v = none

/-- The first `n` bytes are mapped, in two pages at most, none is at two of the
addresses, and behind them nothing is wanted or nothing is mapped. -/
structure RoomFor (s : State) (m vaddr n count : Nat) : Prop where
  mapped : AllMapped ((s.vmm_list m).map VmArea.span) vaddr n
  two : TwoPages vaddr n
  once : OnceEach s m vaddr n
  tail : n = count ∨ TailFree s m vaddr n count

/-! ## Nothing behind the bytes -/

/-- A page that has a turn has room for no more than the `n` bytes. -/
theorem TailFree.size (h : TailFree s m vaddr n count) (hv : ADDR_TO_PN vaddr ≤ v) (hv' : v ≤ ADDR_TO_PN (vaddr + count))
    (hpage : s.objPage m v ≠ none) (hc : CursorAt vaddr n v c) (hn : n ≤ count) :
    v < ADDR_TO_PN (vaddr + n) ∧
      min (count - c.temp) (PAGE_SIZE - c.vaddr % PAGE_SIZE) = min (n - c.temp) (PAGE_SIZE - c.vaddr % PAGE_SIZE) := by
  have hlt : v < ADDR_TO_PN (vaddr + n) := by
    by_contra hge
    exact hpage (h v (Nat.le_of_not_lt hge) hv')
  have ht := hc.temp
  have ha := hc.addr (by unfold ADDR_TO_PN PAGE_SIZE at *; omega)
  refine ⟨hlt, ?_⟩
  unfold ADDR_TO_PN PAGE_SIZE at *
  omega

/-- What the turns for `n` bytes keep holds at the end of a request for `count`. -/
theorem Walks.tail {K : (Nat → UInt8) → Prop} {J : Nat → State → Cursor → Prop}
    (hw : Walks C held s m (ADDR_TO_PN vaddr) (1 + ADDR_TO_PN (vaddr + n)) n kmem K J)
    (hcur : ∀ v t c, J v t c → CursorAt vaddr n v c) (hn : n ≤ count) (htail : n = count ∨ TailFree s m vaddr n count) :
    Walks C held s m (ADDR_TO_PN vaddr) (1 + ADDR_TO_PN (vaddr + count)) count kmem K
      (fun v t c => J (min v (1 + ADDR_TO_PN (vaddr + n))) t c) := by
  constructor
  case skip =>
    intro v t c hlo _ hnone h
    by_cases hv : v < 1 + ADDR_TO_PN (vaddr + n)
    · rw [Nat.min_eq_left hv.le] at h
      rw [Nat.min_eq_left hv]
      exact hw.skip v t c hlo hv hnone h
    · rwa [Nat.min_eq_right (by omega)] at h ⊢
  case turn =>
    intro v t t' c k o pn hlo hhi hpage hk hB hB' hst h
    have hsize : v < 1 + ADDR_TO_PN (vaddr + n) ∧ (CursorAt vaddr n v c → k = min (n - c.temp) (PAGE_SIZE - c.vaddr % PAGE_SIZE)) := by
      rcases htail with rfl | htail
      · exact ⟨hhi, fun _ => hk⟩
      · by_cases hv : v < 1 + ADDR_TO_PN (vaddr + n)
        · exact ⟨hv, fun hc => hk.trans (htail.size hlo (by omega) (by simp [hpage]) hc hn).2⟩
        · rw [htail v (by omega) (by omega)] at hpage
          cases hpage
    rw [Nat.min_eq_left hsize.1.le] at h
    rw [Nat.min_eq_left hsize.1]
    exact hw.turn v t t' c k o pn hlo hsize.1 hpage (hsize.2 (hcur v t c h)) hB hB' hst h

theorem vmmap_write_tail {K : (Nat → UInt8) → Prop} {J : Nat → State → Cursor → Prop}
    (hw : Walks C held s m (ADDR_TO_PN vaddr) (1 + ADDR_TO_PN (vaddr + n)) n kmem K J)
    (hcur : ∀ v t c, J v t c → CursorAt vaddr n v c) (hn : n ≤ count) (htail : n = count ∨ TailFree s m vaddr n count)
    (hio : ∀ n, E.io n = true) (hB : Backing C held s) (hheld : ∀ o, 0 ≤ held o) (hs : Settled s) (hlt : vaddr + count < 2 ^ 32)
    (hJ : J (ADDR_TO_PN vaddr) s ⟨vaddr, 0, 0⟩) : ∃ s' c', J (1 + ADDR_TO_PN (vaddr + n)) s' c' ∧
      ∀ kmem', K kmem' → vmmap_write E s m vaddr kmem' count = some s' := by
  have hfirst : ADDR_TO_PN vaddr ≤ ADDR_TO_PN (vaddr + n) := Nat.div_le_div_right (Nat.le_add_right _ _)
  have hlast : ADDR_TO_PN (vaddr + n) ≤ ADDR_TO_PN (vaddr + count) := Nat.div_le_div_right (by omega)
  obtain ⟨s', c', h, hrun⟩ := vmmap_write_walk (hw.tail hcur hn htail) hio hB hheld hs hlt
    (by rwa [Nat.min_eq_left (by omega)])
  rw [Nat.min_eq_right (by omega)] at h
  exact ⟨s', c', h, hrun⟩

theorem RoomFor.congr (h : RoomFor s m vaddr n count) (hq : Quiet s s') : RoomFor s' m vaddr n count := by
  obtain ⟨h1, h2, h3, h4⟩ := h
  refine ⟨by rwa [hq.lists], h2, ?_, h4.imp_right fun h4 => ?_⟩
  · unfold OnceEach
    rwa [hq.objPage]
  · unfold TailFree
    rwa [hq.objPage]

theorem Delivered.before (h : Delivered s s' m vaddr n kmem) (hq : Quiet s₀ s) : Delivered s₀ s' m vaddr n kmem := by
  refine ⟨h.bytes, fun o pn j => ?_, h.spaces.trans hq.spaces⟩
  rw [← hq.page]
  exact (h.shown o pn j).imp_right fun ⟨i, hi, hsh, hb⟩ => ⟨i, hi, hq.shows hsh, hb⟩

theorem vmmap_write_delivers (hB : Backing C held s) (hheld : ∀ o, 0 ≤ held o) (hs : Settled s) (hio : ∀ n, E.io n = true)
    (hlt : vaddr + count < 2 ^ 32) (hn : n ≤ count) (hf : RoomFor s m vaddr n count) (kmem : Nat → UInt8) :
    ∃ s', vmmap_write E s m vaddr kmem count = some s' ∧ Delivered s s' m vaddr n kmem := by
  have hok := hB.layout.areas m
  obtain ⟨s', c', h, hrun⟩ := vmmap_write_tail (Storing.walks hok hs hf.mapped hf.two hf.once kmem) (fun _ _ _ h => h.cursor) hn
    hf.tail hio hB hheld hs hlt (.start s m vaddr n kmem)
  have hrun := hrun kmem fun _ _ => rfl
  have hspaces : s'.spaces = s.spaces := write_areas_spaces hrun
  have hlists : s'.vmm_list = s.vmm_list := congrArg Spaces.vmm_list hspaces
  refine ⟨s', hrun, fun i hi => ?_, h.shown, hspaces⟩
  obtain ⟨⟨o, pn⟩, hx⟩ := hf.mapped.objPage hok hs hi
  exact ⟨o, pn, by simpa only [State.objPage, hlists] using hx, h.done hi hx⟩

/-! ## Something behind them -/

/-- Bytes `d`, and bytes `b` behind the first `n`. -/
def bytesThen (n : Nat) (d b : UInt8) (i : Nat) : UInt8 := if i < n then d else b

/-- What the turns have done to the page `v` of `o`, the first that is mapped behind the `n` bytes. -/
structure Spilled (s₀ : State) (vaddr n count v o pn : Nat) (b : UInt8) (w : Nat) (s : State) (c : Cursor) : Prop where
  cursor : w ≤ v → CursorAt vaddr count (min w (ADDR_TO_PN (vaddr + n))) c
  spilled : v < w → n < c.temp ∧ s.page o pn ((vaddr + n) % PAGE_SIZE) = b

/-- Byte `n` of the buffer is stored there. -/
theorem CursorAt.spills (h : CursorAt vaddr count (ADDR_TO_PN (vaddr + n)) c) (hn : n < count)
    (hk : k = min (count - c.temp) (PAGE_SIZE - c.vaddr % PAGE_SIZE)) :
    c.temp ≤ n ∧ n < c.temp + k ∧ (vaddr + n) % PAGE_SIZE = c.vaddr % PAGE_SIZE + (n - c.temp) := by
  have ht := h.temp
  have ha := h.addr (by unfold ADDR_TO_PN PAGE_SIZE at ht; omega)
  unfold ADDR_TO_PN PAGE_SIZE at *
  omega

theorem Spilled.walks (hok : AreasOk C m (s.vmm_list m)) (hs : Settled s)
    (hm : AllMapped ((s.vmm_list m).map VmArea.span) vaddr n) (hn : n < count) (hv : ADDR_TO_PN (vaddr + n) ≤ v)
    (hpage : s.objPage m v = some (o, pn)) (hfirst : ∀ w, ADDR_TO_PN (vaddr + n) ≤ w → w < v → s.objPage m w = none) (d b : UInt8) :
    Walks C held s m (ADDR_TO_PN vaddr) (1 + ADDR_TO_PN (vaddr + count)) count (bytesThen n d b)
      (fun kmem => kmem = bytesThen n d b) (Spilled s vaddr n count v o pn b) := by
  have hjunk {i : Nat} (hi : n ≤ i) : bytesThen n d b i = b := if_neg (Nat.not_lt.2 hi)
  constructor
  case skip =>
    intro w t c hlo _ hnone h
    have hne : w ≠ v := by
      rintro rfl
      rw [hnone] at hpage
      cases hpage
    refine ⟨fun hw => ?_, fun hw => h.spilled (by omega)⟩
    have hcur := h.cursor (by omega)
    by_cases hin : w < ADDR_TO_PN (vaddr + n)
    · -- such a page is mapped
      refine absurd (first_byte hlo) (hm.hole hok hs hnone _ ?_)
      unfold ADDR_TO_PN PAGE_SIZE at *
      omega
    · rwa [Nat.min_eq_right (by omega)] at hcur ⊢
  case turn =>
    intro w t t' c k o' pn' hlo _ hpage' hk _ _ hst h
    refine ⟨fun kmem hkm i _ => by rw [hkm], ?_⟩
    rcases Nat.lt_trichotomy w v with hw | rfl | hw
    · have hin : w < ADDR_TO_PN (vaddr + n) := by
        by_contra hge
        rw [hfirst w (by omega) hw] at hpage'
        cases hpage'
      have hcur := h.cursor hw.le
      rw [Nat.min_eq_left hin.le] at hcur
      refine ⟨fun _ => ?_, fun h2 => absurd h2 (by omega)⟩
      rw [Nat.min_eq_left hin]
      exact hcur.turn hlo hk _
    · rw [hpage] at hpage'
      cases hpage'
      have hcur := h.cursor le_rfl
      rw [Nat.min_eq_right hv] at hcur
      obtain ⟨h1, h2, h3⟩ := hcur.spills hn hk
      refine ⟨fun h4 => absurd h4 (by omega), fun _ => ⟨h2, ?_⟩⟩
      rw [h3, hst.inside _ (by omega) (by omega)]
      exact hjunk (by omega)
    · obtain ⟨h1, h2⟩ := h.spilled hw
      refine ⟨fun h4 => absurd h4 (by omega), fun _ => ⟨by simp only; omega, ?_⟩⟩
      rcases hst.shown o pn ((vaddr + n) % PAGE_SIZE) with hsame | ⟨-, hnew⟩
      · rw [hsame, h2]
      · rw [hnew]
        exact hjunk (by omega)

/-- With a page mapped there, a byte behind the first `n` reaches user memory. -/
theorem vmmap_write_spills (hB : Backing C held s) (hheld : ∀ o, 0 ≤ held o) (hs : Settled s) (hio : ∀ n, E.io n = true)
    (hlt : vaddr + count < 2 ^ 32) (hm : AllMapped ((s.vmm_list m).map VmArea.span) vaddr n) (hn : n < count)
    (hv : ADDR_TO_PN (vaddr + n) ≤ v) (hlast : v ≤ ADDR_TO_PN (vaddr + count)) (hpage : s.objPage m v = some (o, pn))
    (hfirst : ∀ w, ADDR_TO_PN (vaddr + n) ≤ w → w < v → s.objPage m w = none) (d b : UInt8) :
    ∃ s', vmmap_write E s m vaddr (bytesThen n d b) count = some s' ∧ s'.page o pn ((vaddr + n) % PAGE_SIZE) = b := by
  have hle : ADDR_TO_PN vaddr ≤ ADDR_TO_PN (vaddr + n) := Nat.div_le_div_right (Nat.le_add_right _ _)
  obtain ⟨s', c', h, hrun⟩ := vmmap_write_walk (Spilled.walks (hB.layout.areas m) hs hm hn hv hpage hfirst d b) hio hB hheld hs hlt
    ⟨fun _ => by rw [Nat.min_eq_left hle]; exact .start vaddr count, fun h => absurd h (by omega)⟩
  exact ⟨s', hrun _ rfl, (h.spilled (by omega)).2⟩

/-- So does the first byte of a buffer whose bytes are all the same. -/
theorem vmmap_write_first (hB : Backing C held s) (hheld : ∀ o, 0 ≤ held o) (hs : Settled s) (hio : ∀ n, E.io n = true)
    (hlt : vaddr + count < 2 ^ 32) (hpos : 0 < count) (hpage : s.objPage m (ADDR_TO_PN vaddr) = some (o, pn)) (b : UInt8) :
    ∃ s', vmmap_write E s m vaddr (fun _ => b) count = some s' ∧ s'.page o pn (vaddr % PAGE_SIZE) = b := by
  have hsame : (fun _ => b) = bytesThen 0 b b := funext fun i => (if_neg (Nat.not_lt_zero i)).symm
  rw [hsame]
  exact vmmap_write_spills hB hheld hs hio hlt (fun i hi => absurd hi (Nat.not_lt_zero i)) hpos le_rfl
    (Nat.div_le_div_right (Nat.le_add_right _ _)) hpage (fun w h1 h2 => absurd h1 (Nat.not_le.2 h2)) b b

/-- The first page that is mapped behind the `n` bytes takes one more. -/
theorem TailFree.spills (hB : Backing C held s) (hheld : ∀ o, 0 ≤ held o) (hs : Settled s) (hio : ∀ n, E.io n = true)
    (hlt : vaddr + count < 2 ^ 32) (hm : AllMapped ((s.vmm_list m).map VmArea.span) vaddr n) (hn : n < count)
    (htail : ¬ TailFree s m vaddr n count) : ∃ o pn j, ∀ d b, ∃ s', vmmap_write E s m vaddr (bytesThen n d b) count = some s' ∧
      s'.page o pn j = b := by
  classical
  unfold TailFree at htail
  push Not at htail
  obtain ⟨hv, hlast, hne⟩ := Nat.find_spec htail
  have hfirst : ∀ w, ADDR_TO_PN (vaddr + n) ≤ w → w < Nat.find htail → s.objPage m w = none := fun w h1 h2 => by
    by_contra hw
    exact Nat.find_min htail h2 ⟨h1, by omega, hw⟩
  obtain ⟨⟨o, pn⟩, hpage⟩ := Option.ne_none_iff_exists'.1 hne
  exact ⟨o, pn, _, fun d b => vmmap_write_spills hB hheld hs hio hlt hm hn hv hlast hpage hfirst d b⟩

/-! ## Every request -/

theorem Delivered.mapped (h : Delivered s s' m vaddr n kmem) : AllMapped ((s.vmm_list m).map VmArea.span) vaddr n := by
  intro i hi
  obtain ⟨o, pn, hx, -⟩ := h.bytes i hi
  have hlists : s'.vmm_list = s.vmm_list := congrArg Spaces.vmm_list h.spaces
  simp only [State.objPage, hlists, Option.bind_eq_some_iff] at hx
  obtain ⟨a, ha, -⟩ := hx
  have hv := List.find?_some ha
  simp only [decide_eq_true_eq] at hv
  exact ⟨a.span, List.mem_map_of_mem (List.mem_of_find?_eq_some ha), hv⟩

/-- A byte with two addresses is the byte of the buffer for both. -/
theorem Delivered.twice (h : Delivered s s' m vaddr n kmem) {i k : Nat} {x : Nat × Nat} (hi : i < n) (hk : k < n)
    (hx : s.objPage m (ADDR_TO_PN (vaddr + i)) = some x) (hy : s.objPage m (ADDR_TO_PN (vaddr + k)) = some x)
    (hoff : (vaddr + i) % PAGE_SIZE = (vaddr + k) % PAGE_SIZE) : kmem i = kmem k := by
  have hlists : s'.vmm_list = s.vmm_list := congrArg Spaces.vmm_list h.spaces
  have hsame : s'.objPage = s.objPage := by
    funext m v
    simp only [State.objPage, hlists]
  obtain ⟨o, pn, ho, hb⟩ := h.bytes i hi
  obtain ⟨o', pn', ho', hb'⟩ := h.bytes k hk
  rw [hsame, hx] at ho
  rw [hsame, hy, ho] at ho'
  cases ho'
  rw [← hb, ← hb', hoff]

/-- `vmmap_write` delivers just the first `n` bytes, whatever the buffer holds, where there is room for these. -/
theorem vmmap_write_delivers_iff (hB : Backing C held s) (hheld : ∀ o, 0 ≤ held o) (hs : Settled s) (hio : ∀ n, E.io n = true)
    (hlt : vaddr + count < 2 ^ 32) (hn : n ≤ count) (hq : Quiet s₀ s) :
    (∀ kmem, ∃ s', vmmap_write E s m vaddr kmem count = some s' ∧ Delivered s₀ s' m vaddr n kmem) ↔
      RoomFor s₀ m vaddr n count := by
  constructor
  · intro h
    have hok := hB.layout.areas m
    have hm₀ : AllMapped ((s₀.vmm_list m).map VmArea.span) vaddr n := by
      obtain ⟨s', -, hd⟩ := h fun _ => 0
      exact hd.mapped
    have hm : AllMapped ((s.vmm_list m).map VmArea.span) vaddr n := by rwa [hq.lists]
    have htail : n = count ∨ TailFree s m vaddr n count := by
      by_contra hno
      rw [not_or] at hno
      obtain ⟨o, pn, j, hspill⟩ := TailFree.spills hB hheld hs hio hlt hm (Nat.lt_of_le_of_ne hn hno.1) hno.2
      -- a byte that is neither what is there nor what is delivered
      obtain ⟨b, hb0, hb⟩ : ∃ b : UInt8, b ≠ 0 ∧ b ≠ s₀.page o pn j := by
        by_cases e : s₀.page o pn j = 1
        · exact ⟨2, by decide, by rw [e]; decide⟩
        · exact ⟨1, by decide, Ne.symm e⟩
      obtain ⟨s', hw, hpage⟩ := hspill 0 b
      obtain ⟨s₁, hw₁, hd⟩ := h (bytesThen n 0 b)
      rw [hw] at hw₁
      cases hw₁
      rcases hd.shown o pn j with hold | ⟨i, hi, -, hnew⟩
      · exact hb (hpage.symm.trans hold)
      · rw [hpage, bytesThen, if_pos hi] at hnew
        exact hb0 hnew
    refine ⟨hm₀, ?_, ?_, htail.imp_right fun h => by unfold TailFree; rwa [← hq.objPage]⟩
    · by_contra h2
      have hpos : 0 < n := by
        unfold TwoPages PAGE_SIZE at h2
        omega
      obtain ⟨s', c', hst, hrun⟩ := vmmap_write_tail (Strayed.walks hok hs hm h2) (fun _ _ _ h => h.cursor) hn htail hio hB hheld hs
        hlt (.start s m vaddr n)
      obtain ⟨s₁, hw₁, hd⟩ := h (zerosFor n)
      rw [hrun _ rfl] at hw₁
      cases hw₁
      obtain ⟨o, pn, hx, hb⟩ := hd.bytes (n - 1) (by omega)
      have hlists : s'.vmm_list = s.vmm_list := (congrArg Spaces.vmm_list hd.spaces).trans hq.lists.symm
      rw [hst.done (by simpa only [State.objPage, hlists] using hx), zerosFor, if_pos (by omega)] at hb
      exact absurd hb (by decide)
    · intro i k x hik hk hx hy hoff
      obtain ⟨s', -, hd⟩ := h fun q => if q = i then 0 else 1
      have hsame := hd.twice (by omega) hk hx hy hoff
      rw [if_pos rfl, if_neg (by omega)] at hsame
      exact absurd hsame (by decide)
  · intro hf kmem
    obtain ⟨s', hw, hd⟩ := vmmap_write_delivers hB hheld hs hio hlt hn (hf.congr hq) kmem
    exact ⟨s', hw, hd.before hq⟩

/-- An area of user memory has a page from that of `vaddr` on. -/
theorem range_perm_low {l : List VmArea} {perm : Prot} (hl : AreasOk C m l) (h : range_perm l vaddr count perm = true) :
    vaddr < C.USER_MEM_HIGH := by
  obtain ⟨h, -⟩ := (range_perm_from_iff hl.sorted false).1 h
  obtain ⟨a, ha, h1, -⟩ := h.resolve_left Bool.false_ne_true
  have := hl.high a ha
  unfold ADDR_TO_PN at h1
  unfold Config.USER_MEM_HIGH
  unfold PAGE_SIZE at *
  omega

/-- `copy_to_user` does so where its check lets it copy and there is room, and also
where the check does not and there is nothing to deliver. -/
theorem copy_to_user_delivers_iff (hB : Backing C held s) (hheld : ∀ o, 0 ≤ held o) (hs : Settled s) (hio : ∀ n, E.io n = true)
    (hlt : C.USER_MEM_HIGH + count < 2 ^ 32) (hn : n ≤ count) (hq : Quiet s₀ s) (hpr : s₀.procs p = some pr) :
    (∀ kmem, ∃ s' r, copy_to_user E s p vaddr kmem count = some (s', r) ∧ Delivered s₀ s' pr.p_vmmap vaddr n kmem) ↔
      if range_perm (s₀.vmm_list pr.p_vmmap) vaddr count { write := true } = true then RoomFor s₀ pr.p_vmmap vaddr n count
      else n = 0 := by
  have hpr' : s.procs p = some pr := by rw [hq.procs, hpr]
  rw [← hq.lists]
  by_cases hperm : range_perm (s.vmm_list pr.p_vmmap) vaddr count { write := true } = true
  · have hlow := range_perm_low (hB.layout.areas _) hperm
    rw [if_pos hperm, ← vmmap_write_delivers_iff hB hheld hs hio (by omega) hn hq]
    refine forall_congr' fun kmem => ?_
    simp only [copy_to_user, hpr', hperm, bind, Option.bind_some, Bool.true_eq_false, if_false, Option.bind_eq_some_iff,
      Option.some.injEq, Prod.mk.injEq]
    constructor
    · rintro ⟨s', r, ⟨t, ht, rfl, rfl⟩, hd⟩
      exact ⟨t, ht, hd⟩
    · rintro ⟨s', hw, hd⟩
      exact ⟨s', .ok (), ⟨s', hw, rfl, rfl⟩, hd⟩
  · rw [if_neg hperm]
    have hrun (kmem : Nat → UInt8) : copy_to_user E s p vaddr kmem count = some (s, .error .EFAULT) := by
      simp only [copy_to_user, hpr', hperm, bind, Option.bind_some, if_true]
    constructor
    · intro h
      by_contra hne
      obtain ⟨s₁, _, h₁, hd₁⟩ := h fun _ => 0
      obtain ⟨s₂, _, h₂, hd₂⟩ := h fun _ => 1
      rw [hrun] at h₁ h₂
      cases h₁
      cases h₂
      obtain ⟨o, pn, hx, hb⟩ := hd₁.bytes 0 (by omega)
      obtain ⟨o', pn', hy, hb'⟩ := hd₂.bytes 0 (by omega)
      rw [hx] at hy
      cases hy
      rw [hb] at hb'
      exact absurd hb' (by decide)
    · rintro rfl kmem
      have hd : Delivered s s pr.p_vmmap vaddr 0 kmem := ⟨fun i hi => absurd hi (Nat.not_lt_zero i), fun _ _ _ => .inl rfl, rfl⟩
      exact ⟨s, _, hrun kmem, hd.before hq⟩

/-! ## The same byte everywhere -/

/-- Every byte is as it was, or is `b`. -/
structure Smeared (b : UInt8) (s s' : State) : Prop where
  spaces : s'.spaces = s.spaces
  page : ∀ o pn j, s'.page o pn j = s.page o pn j ∨ s'.page o pn j = b

theorem Quiet.smeared (h : Quiet s s') (b : UInt8) : Smeared b s s' := ⟨h.spaces, fun o pn j => .inl (by rw [h.page])⟩

theorem Smeared.trans (h : Smeared b s t) (h' : Smeared b t s') : Smeared b s s' := by
  refine ⟨h'.spaces.trans h.spaces, fun o pn j => ?_⟩
  rcases h'.page o pn j with hsame | hnew
  · rw [hsame]
    exact h.page o pn j
  · exact .inr hnew

/-- A byte of user memory that is `b` stays so. -/
theorem Smeared.byteAt {addr : Nat} (h : Smeared b s s') (hb : s.byteAt m addr = b) : s'.byteAt m addr = b := by
  have hlists : s'.vmm_list = s.vmm_list := congrArg Spaces.vmm_list h.spaces
  simp only [State.byteAt, State.pageAt, hlists] at hb ⊢
  cases ha : vmmap_lookup (s.vmm_list m) (ADDR_TO_PN addr) with
  | none => simpa only [ha, Option.bind_none] using hb
  | some a =>
    cases ho : a.vma_obj with
    | none => simpa only [ha, ho, Option.bind_some, Option.map_none] using hb
    | some o =>
      simp only [ha, ho, Option.bind_some, Option.map_some] at hb ⊢
      rcases h.page o (a.pagenum (ADDR_TO_PN addr)) (addr % PAGE_SIZE) with hsame | hnew
      · rw [hsame, hb]
      · exact hnew

theorem copy_to_user_smears {r : Except Errno Unit} (hB : Backing C held s) (hheld : ∀ o, 0 ≤ held o) (hs : Settled s)
    (hio : ∀ n, E.io n = true) (hlt : C.USER_MEM_HIGH + count < 2 ^ 32) (hpr : s.procs p = some pr)
    (h : copy_to_user E s p vaddr (fun _ => b) count = some (s', r)) : Smeared b s s' := by
  refine ⟨copy_to_user_spaces h, ?_⟩
  by_cases hperm : range_perm (s.vmm_list pr.p_vmmap) vaddr count { write := true } = true
  · have hlow := range_perm_low (hB.layout.areas _) hperm
    have hw : Walks C held s pr.p_vmmap (ADDR_TO_PN vaddr) (1 + ADDR_TO_PN (vaddr + count)) count (fun _ => b)
        (fun kmem => kmem = fun _ => b) (fun _ t _ => ∀ o pn j, t.page o pn j = s.page o pn j ∨ t.page o pn j = b) := by
      refine ⟨fun _ _ _ _ _ _ h => h, fun v t t' c k o pn _ _ _ _ _ _ hst h => ⟨fun kmem hk i _ => by rw [hk], fun x q j => ?_⟩⟩
      rcases hst.shown x q j with hsame | ⟨-, hnew⟩
      · rw [hsame]
        exact h x q j
      · exact .inr hnew
    obtain ⟨u, c', hpage, hrun⟩ := vmmap_write_walk hw hio hB hheld hs (by omega) fun _ _ _ => .inl rfl
    simp only [copy_to_user, hpr, hperm, hrun _ rfl, bind, Option.bind_some, Bool.true_eq_false, if_false] at h
    cases h
    exact hpage
  · simp only [copy_to_user, hpr, hperm, bind, Option.bind_some, if_true] at h
    cases h
    exact fun _ _ _ => .inl rfl

/-! ## User memory afterwards -/

theorem Delivered.byteAt (h : Delivered s s' m vaddr n kmem) {i : Nat} (hi : i < n) : s'.byteAt m (vaddr + i) = kmem i := by
  obtain ⟨o, pn, hx, hb⟩ := h.bytes i hi
  rw [State.byteAt, pageAt_eq hx, hb]

/-- Bytes that are there already make no difference. -/
theorem Delivered.kept (h : Delivered s s' m vaddr n kmem) (hc : Chains s) (hk : ∀ i < n, kmem i = s.byteAt m (vaddr + i)) :
    s'.byteAt = s.byteAt := by
  have hpage : s'.page = s.page := by
    funext o pn j
    rcases h.shown o pn j with hsame | ⟨i, hi, ⟨x, hx, hsees, rfl⟩, hnew⟩
    · exact hsame
    · rw [hnew, hk i hi, State.byteAt, pageAt_eq hx]
      exact congrFun (Layers.read_seen hc.grounded hsees).symm _
  have hlists : s'.vmm_list = s.vmm_list := congrArg Spaces.vmm_list h.spaces
  funext m addr
  simp only [State.byteAt, State.pageAt, hlists, hpage]

end Weenix.Vm
