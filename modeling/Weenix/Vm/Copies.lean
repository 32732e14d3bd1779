import Weenix.Vm.Access
/-!
# The copies of `vmmap_read`

What `vmmap_read` stores depends on where the areas are and on what the pages
hold, and on nothing else: `readOut` is the function. The buffer pointer moves
on by the bytes copied so far, not by those of the last page, and stays where
it is from one area to the next, so a third page of an area leaves a gap and a
second area overwrites the end of the first.
-/

namespace Weenix.Vm

open Lib.Intervals

variable {C : Config} {k v vaddr count vfnInitial vfnFinal : Nat} {f g : Nat → Page} {l : List (Nat × Nat)} {c : Cursor}
  {kmem : Nat → UInt8}

/-! ## Where the bytes go -/

/-- `read_pages` from pages that hold `f`. -/
def pagesOut (f : Nat → Page) (count : Nat) : Nat → Nat → Cursor → (Nat → UInt8) → Cursor × (Nat → UInt8)
  | 0, _, c, kmem => (c, kmem)
  | k + 1, v, c, kmem =>
    let pgofset := c.vaddr % PAGE_SIZE
    let n := min (count - c.temp) (PAGE_SIZE - pgofset)
    pagesOut f count k (v + 1) ⟨PN_TO_ADDR (1 + v), c.temp + n, c.buf + c.temp⟩ (blit kmem (c.buf + c.temp) n (f v) pgofset)

/-- `read_areas` from pages that hold `f`. -/
def areasOut (f : Nat → Page) (vfnInitial vfnFinal count : Nat) : Cursor → (Nat → UInt8) → List (Nat × Nat) → Nat → UInt8
  | _, kmem, [] => kmem
  | c, kmem, x :: l =>
    if x.2 ≤ vfnInitial then areasOut f vfnInitial vfnFinal count c kmem l
    else if vfnFinal ≤ x.1 then kmem
    else
      let r := pagesOut f count (min x.2 vfnFinal - max x.1 vfnInitial) (max x.1 vfnInitial) { c with temp := 0 } kmem
      areasOut f vfnInitial vfnFinal count r.1 r.2 l

/-- `vmmap_read` from pages that hold `f`. -/
def readOut (f : Nat → Page) (l : List (Nat × Nat)) (vaddr count : Nat) (kmem : Nat → UInt8) : Nat → UInt8 :=
  areasOut f (ADDR_TO_PN vaddr) (1 + ADDR_TO_PN (u32 (vaddr + count))) count ⟨vaddr, 0, 0⟩ kmem l

/-! ## Single turns -/

theorem pagesOut_congr : ∀ {k v : Nat} {c : Cursor} {kmem : Nat → UInt8}, (∀ j < k, f (v + j) = g (v + j)) →
    pagesOut f count k v c kmem = pagesOut g count k v c kmem := by
  intro k
  induction k with
  | zero => intros; rfl
  | succ k ih =>
    intro v c kmem h
    simp only [pagesOut]
    rw [show f v = g v from h 0 (Nat.succ_pos k)]
    refine ih fun j hj => ?_
    have := h (j + 1) (by omega)
    rwa [show v + (j + 1) = v + 1 + j by omega] at this

theorem blit_mem {dst src : Nat → UInt8} {off n i : Nat} (h1 : off ≤ i) (h2 : i < off + n) (x : Nat) :
    blit dst off n src x i = src (x + (i - off)) := if_pos ⟨h1, h2⟩

theorem blit_out {dst src : Nat → UInt8} {off n i : Nat} (h : i < off ∨ off + n ≤ i) (x : Nat) :
    blit dst off n src x i = dst i := by
  apply if_neg
  rintro ⟨h1, h2⟩
  omega

theorem blit_zero (dst src : Nat → UInt8) (off x : Nat) : blit dst off 0 src x = dst := by
  funext i
  exact blit_out (by omega) x

/-- Nothing is stored once all bytes are copied. -/
theorem pagesOut_done : ∀ {k v : Nat} {c : Cursor} {kmem : Nat → UInt8}, count ≤ c.temp →
    (pagesOut f count k v c kmem).2 = kmem := by
  intro k
  induction k with
  | zero => intros; rfl
  | succ k ih =>
    intro v c kmem h
    have hn : min (count - c.temp) (PAGE_SIZE - c.vaddr % PAGE_SIZE) = 0 := by omega
    simp only [pagesOut, hn, blit_zero]
    exact ih (by simpa using h)

/-- The buffer pointer never moves back, and nothing is stored in front of it. -/
theorem pagesOut_front (f : Nat → Page) (count : Nat) : ∀ (k v : Nat) (c : Cursor) (kmem : Nat → UInt8),
    c.buf ≤ (pagesOut f count k v c kmem).1.buf ∧ ∀ i < c.buf, (pagesOut f count k v c kmem).2 i = kmem i := by
  intro k
  induction k with
  | zero => intros; exact ⟨le_rfl, fun _ _ => rfl⟩
  | succ k ih =>
    intro v c kmem
    simp only [pagesOut]
    obtain ⟨h1, h2⟩ := ih (v + 1) ⟨PN_TO_ADDR (1 + v), c.temp + min (count - c.temp) (PAGE_SIZE - c.vaddr % PAGE_SIZE),
      c.buf + c.temp⟩ (blit kmem (c.buf + c.temp) (min (count - c.temp) (PAGE_SIZE - c.vaddr % PAGE_SIZE)) (f v)
      (c.vaddr % PAGE_SIZE))
    refine ⟨(Nat.le_add_right _ _).trans h1, fun i hi => ?_⟩
    rw [h2 i (by simp only; omega), blit_out (by omega)]

theorem areasOut_front : ∀ {l : List (Nat × Nat)} {c : Cursor} {kmem : Nat → UInt8} {i : Nat}, i < c.buf →
    areasOut f vfnInitial vfnFinal count c kmem l i = kmem i := by
  intro l
  induction l with
  | nil => intros; rfl
  | cons x l ih =>
    intro c kmem i hi
    simp only [areasOut]
    split
    · exact ih hi
    split
    · rfl
    · obtain ⟨h1, h2⟩ := pagesOut_front f count (min x.2 vfnFinal - max x.1 vfnInitial) (max x.1 vfnInitial)
        { c with temp := 0 } kmem
      rw [ih (hi.trans_le h1), h2 i hi]

/-- Where the buffer pointer goes does not depend on what the pages hold. -/
theorem pagesOut_moves (f g : Nat → Page) (count : Nat) : ∀ (k v : Nat) (c : Cursor) (kmem kmem' : Nat → UInt8),
    (pagesOut f count k v c kmem).1 = (pagesOut g count k v c kmem').1 := by
  intro k
  induction k with
  | zero => intros; rfl
  | succ k ih => intro v c kmem kmem'; exact ih ..

/-- Pages that hold the same leave a byte that is the same the same. -/
theorem pagesOut_same : ∀ {k v : Nat} {c : Cursor} {kmem kmem' : Nat → UInt8} {i : Nat}, (∀ w, v ≤ w → f w = g w) →
    kmem i = kmem' i → (pagesOut f count k v c kmem).2 i = (pagesOut g count k v c kmem').2 i := by
  intro k
  induction k with
  | zero => intro v c kmem kmem' i _ h; exact h
  | succ k ih =>
    intro v c kmem kmem' i hf h
    simp only [pagesOut]
    apply ih fun w hw => hf w (by omega)
    rw [hf v le_rfl]
    unfold blit
    split
    · rfl
    · exact h

theorem areasOut_same : ∀ {l : List (Nat × Nat)} {c : Cursor} {kmem kmem' : Nat → UInt8} {i : Nat},
    (∀ x ∈ l, ∀ w, x.1 ≤ w → f w = g w) → kmem i = kmem' i →
      areasOut f vfnInitial vfnFinal count c kmem l i = areasOut g vfnInitial vfnFinal count c kmem' l i := by
  intro l
  induction l with
  | nil => intro c kmem kmem' i _ h; exact h
  | cons x l ih =>
    intro c kmem kmem' i hf h
    have hl : ∀ y ∈ l, ∀ w, y.1 ≤ w → f w = g w := fun y hy => hf y (List.mem_cons_of_mem x hy)
    simp only [areasOut]
    split
    · exact ih hl h
    split
    · exact h
    · rw [pagesOut_moves f g count _ _ _ kmem kmem']
      exact ih hl (pagesOut_same (fun w hw => hf x List.mem_cons_self w (by omega)) h)

theorem areasOut_zero : ∀ {l : List (Nat × Nat)} {c : Cursor} {kmem : Nat → UInt8},
    areasOut f vfnInitial vfnFinal 0 c kmem l = kmem := by
  intro l
  induction l with
  | nil => intros; rfl
  | cons x l ih =>
    intro c kmem
    simp only [areasOut]
    split
    · exact ih
    split
    · rfl
    · rw [ih, pagesOut_done (Nat.zero_le _)]

/-- Areas in front of the range are passed over. -/
theorem areasOut_skip {pre : List (Nat × Nat)} (h : ∀ x ∈ pre, x.2 ≤ vfnInitial) :
    areasOut f vfnInitial vfnFinal count c kmem (pre ++ l) = areasOut f vfnInitial vfnFinal count c kmem l := by
  induction pre with
  | nil => rfl
  | cons x pre ih =>
    rw [List.cons_append, areasOut, if_pos (h x List.mem_cons_self)]
    exact ih fun y hy => h y (List.mem_cons_of_mem x hy)

/-- Areas behind the range end the loop. -/
theorem areasOut_behind (h : ∀ x ∈ l, vfnFinal ≤ x.1 ∧ vfnInitial < x.2) :
    areasOut f vfnInitial vfnFinal count c kmem l = kmem := by
  cases l with
  | nil => rfl
  | cons x l =>
    obtain ⟨h1, h2⟩ := h x List.mem_cons_self
    rw [areasOut, if_neg (by omega), if_pos h1]

/-! ## When the bytes are the right ones -/

/-- Where the areas of a map can be. -/
structure SpansOk (C : Config) (l : List (Nat × Nat)) : Prop where
  sorted : Sorted Prod.fst Prod.snd l
  low : ∀ x ∈ l, C.low ≤ x.1
  high : ∀ x ∈ l, x.2 ≤ C.high

/-- Every byte of `[vaddr, vaddr + count)` is in an area. -/
def AllMapped (l : List (Nat × Nat)) (vaddr count : Nat) : Prop :=
  ∀ i < count, ∃ x ∈ l, Covers Prod.fst Prod.snd x (ADDR_TO_PN (vaddr + i))

/-- The areas that have a page from the one of `vaddr` to the one of
`vaddr + count`, inclusive, have the one of `vaddr`. -/
def OneArea (l : List (Nat × Nat)) (vaddr count : Nat) : Prop :=
  ∀ x ∈ l, ADDR_TO_PN vaddr < x.2 → x.1 ≤ ADDR_TO_PN (vaddr + count) → x.1 ≤ ADDR_TO_PN vaddr

/-- The bytes are in two pages at most. -/
def TwoPages (vaddr count : Nat) : Prop := vaddr % PAGE_SIZE + count ≤ 2 * PAGE_SIZE

/-- The bytes at `vaddr` of pages that hold `f` are in the buffer. -/
def BytesOut (f : Nat → Page) (vaddr count : Nat) (kmem kmem' : Nat → UInt8) : Prop :=
  (∀ i < count, kmem' i = f (ADDR_TO_PN (vaddr + i)) ((vaddr + i) % PAGE_SIZE)) ∧ ∀ i, count ≤ i → kmem' i = kmem i

theorem PN_TO_ADDR_lt {pn : Nat} (h : pn < 2 ^ 20) : PN_TO_ADDR pn = pn * 4096 := by
  unfold PN_TO_ADDR PAGE_SIZE
  exact u32_of_lt (by omega)

/-- One or two pages of one area are stored right. -/
theorem pagesOut_two (hv : ADDR_TO_PN vaddr + 1 < 2 ^ 20) (h2 : TwoPages vaddr count) (hk : 0 < k)
    (hk2 : 4096 < vaddr % 4096 + count → 1 < k) :
    BytesOut f vaddr count kmem (pagesOut f count k (ADDR_TO_PN vaddr) ⟨vaddr, 0, 0⟩ kmem).2 := by
  unfold TwoPages PAGE_SIZE at h2
  obtain ⟨k, rfl⟩ : ∃ j, k = j + 1 := ⟨k - 1, by omega⟩
  simp only [pagesOut, Nat.sub_zero, Nat.zero_add, PAGE_SIZE]
  by_cases h : vaddr % 4096 + count ≤ 4096
  · rw [pagesOut_done (by simp only; omega), Nat.min_eq_left (by omega)]
    constructor
    · intro i hi
      rw [blit_mem (Nat.zero_le i) (by omega)]
      unfold ADDR_TO_PN PAGE_SIZE
      rw [show (vaddr + i) / 4096 = vaddr / 4096 by omega, show (vaddr + i) % 4096 = vaddr % 4096 + (i - 0) by omega]
    · intro i hi
      rw [blit_out (by omega)]
  · have := hk2 (by omega)
    obtain ⟨k, rfl⟩ : ∃ j, k = j + 1 := ⟨k - 1, by omega⟩
    rw [Nat.min_eq_right (by omega)]
    simp only [pagesOut, PN_TO_ADDR_lt (show 1 + ADDR_TO_PN vaddr < 2 ^ 20 by omega), Nat.mul_mod_left, PAGE_SIZE, Nat.sub_zero,
      Nat.zero_add]
    rw [pagesOut_done (by simp only; omega), Nat.min_eq_left (by omega)]
    constructor
    · intro i hi
      unfold ADDR_TO_PN PAGE_SIZE
      by_cases h1 : i < 4096 - vaddr % 4096
      · rw [blit_out (by omega), blit_mem (Nat.zero_le i) (by omega)]
        rw [show (vaddr + i) / 4096 = vaddr / 4096 by omega, show (vaddr + i) % 4096 = vaddr % 4096 + (i - 0) by omega]
      · rw [blit_mem (by omega) (by omega), show (vaddr + i) / 4096 = vaddr / 4096 + 1 by omega,
          show (vaddr + i) % 4096 = 0 + (i - (4096 - vaddr % 4096)) by omega]
    · intro i hi
      rw [blit_out (by omega), blit_out (by omega)]

/-- The area of the first page, with those in front of it and those behind it. -/
theorem SpansOk.split (hl : SpansOk C l) (hm : AllMapped l vaddr count) (hc : 0 < count) : ∃ pre x post,
    l = pre ++ x :: post ∧ (∀ y ∈ pre, y.2 ≤ ADDR_TO_PN vaddr) ∧ x.1 ≤ ADDR_TO_PN vaddr ∧ ADDR_TO_PN vaddr < x.2 ∧
      (∀ y ∈ post, x.2 ≤ y.1 ∧ y.1 < y.2) := by
  obtain ⟨x, hx, h1, h2⟩ := hm 0 hc
  obtain ⟨pre, post, rfl⟩ := List.append_of_mem hx
  obtain ⟨-, hs, hpre⟩ := sorted_append.1 hl.sorted
  obtain ⟨-, h3, h4⟩ := sorted_cons.1 hs
  refine ⟨pre, x, post, rfl, fun y hy => ?_, h1, h2, fun y hy => ⟨h3 y hy, h4.nonempty y hy⟩⟩
  exact (hpre y hy x List.mem_cons_self).trans h1

/-- The range ends inside user memory. -/
theorem AllMapped.end_le (hl : SpansOk C l) (hm : AllMapped l vaddr count) (hc : 0 < count) :
    vaddr + count ≤ C.high * 4096 := by
  obtain ⟨x, hx, -, h2⟩ := hm (count - 1) (by omega)
  have h3 := hl.high x hx
  unfold ADDR_TO_PN PAGE_SIZE at h2
  omega

/-- The loop starts with the area of the first page. -/
theorem readOut_eq {pre post : List (Nat × Nat)} {x : Nat × Nat} (hpre : ∀ y ∈ pre, y.2 ≤ ADDR_TO_PN vaddr)
    (h1 : x.1 ≤ ADDR_TO_PN vaddr) (h2 : ADDR_TO_PN vaddr < x.2) (hlt : vaddr + count < 2 ^ 32) :
    readOut f (pre ++ x :: post) vaddr count kmem =
      let r := pagesOut f count (min x.2 (1 + ADDR_TO_PN (vaddr + count)) - ADDR_TO_PN vaddr) (ADDR_TO_PN vaddr) ⟨vaddr, 0, 0⟩ kmem
      areasOut f (ADDR_TO_PN vaddr) (1 + ADDR_TO_PN (vaddr + count)) count r.1 r.2 post := by
  have hle : ADDR_TO_PN vaddr ≤ ADDR_TO_PN (vaddr + count) := Nat.div_le_div_right (Nat.le_add_right _ _)
  rw [readOut, u32_of_lt hlt, areasOut_skip hpre, areasOut, if_neg (by omega), if_neg (by omega), Nat.max_eq_right h1]

theorem readOut_right (hl : SpansOk C l) (hm : AllMapped l vaddr count) (h1 : OneArea l vaddr count)
    (h2 : TwoPages vaddr count) (kmem : Nat → UInt8) : BytesOut f vaddr count kmem (readOut f l vaddr count kmem) := by
  rcases Nat.eq_zero_or_pos count with rfl | hc
  · rw [readOut, areasOut_zero]
    exact ⟨fun i hi => absurd hi (Nat.not_lt_zero i), fun _ _ => rfl⟩
  have hC := C.high_lt
  have hend := hm.end_le hl hc
  obtain ⟨pre, x, post, rfl, hpre, hx1, hx2, hpost⟩ := hl.split hm hc
  rw [readOut_eq hpre hx1 hx2 (by omega)]
  simp only
  rw [areasOut_behind]
  · apply pagesOut_two _ h2
    · have : ADDR_TO_PN vaddr ≤ ADDR_TO_PN (vaddr + count) := Nat.div_le_div_right (Nat.le_add_right _ _)
      omega
    · -- the second page is in the same area
      intro hlong
      obtain ⟨y, hy, hy1, hy2⟩ := hm (count - 1) (by omega)
      have := h1 y hy (lt_of_le_of_lt (Nat.div_le_div_right (by omega)) hy2)
        (hy1.trans (Nat.div_le_div_right (by omega)))
      have hyx : y = x := hl.sorted.unique hy (by simp) ⟨this, lt_of_le_of_lt (Nat.div_le_div_right (by omega)) hy2⟩ ⟨hx1, hx2⟩
      subst hyx
      unfold ADDR_TO_PN PAGE_SIZE at *
      omega
    · unfold ADDR_TO_PN PAGE_SIZE
      omega
  · intro y hy
    obtain ⟨hy1, hy2⟩ := hpost y hy
    refine ⟨?_, by omega⟩
    by_contra hlt
    have := h1 y (by simp [hy]) (by omega) (by omega)
    omega

theorem areasOut_congr {f g : Nat → Page} {l : List (Nat × Nat)} (vfnInitial vfnFinal count : Nat) : ∀ {c : Cursor} {kmem : Nat → UInt8},
    (∀ x ∈ l, ∀ v, Covers Prod.fst Prod.snd x v → f v = g v) →
      areasOut f vfnInitial vfnFinal count c kmem l = areasOut g vfnInitial vfnFinal count c kmem l := by
  induction l with
  | nil => intros; rfl
  | cons x l ih =>
    intro c kmem h
    have hl : ∀ y ∈ l, ∀ v, Covers Prod.fst Prod.snd y v → f v = g v := fun y hy => h y (List.mem_cons_of_mem x hy)
    have hpages : pagesOut f count (min x.2 vfnFinal - max x.1 vfnInitial) (max x.1 vfnInitial) { c with temp := 0 } kmem =
        pagesOut g count (min x.2 vfnFinal - max x.1 vfnInitial) (max x.1 vfnInitial) { c with temp := 0 } kmem :=
      pagesOut_congr fun j hj => h x List.mem_cons_self _ ⟨by omega, by omega⟩
    simp only [areasOut, hpages, ih hl]

/-! ## When they are not -/

/-- In front of the third page of an area a byte of the buffer is left out. -/
theorem pagesOut_gap (kmem : Nat → UInt8) (hv : ADDR_TO_PN vaddr + 2 < 2 ^ 20) (h2 : ¬ TwoPages vaddr count) (hk : 2 < k) :
    8192 - vaddr % 4096 < (pagesOut f count k (ADDR_TO_PN vaddr) ⟨vaddr, 0, 0⟩ kmem).1.buf ∧
      (pagesOut f count k (ADDR_TO_PN vaddr) ⟨vaddr, 0, 0⟩ kmem).2 (8192 - vaddr % 4096) = kmem (8192 - vaddr % 4096) := by
  unfold TwoPages PAGE_SIZE at h2
  obtain ⟨k, rfl⟩ : ∃ j, k = j + 3 := ⟨k - 3, by omega⟩
  simp only [pagesOut, PN_TO_ADDR_lt (show 1 + ADDR_TO_PN vaddr < 2 ^ 20 by omega),
    PN_TO_ADDR_lt (show 1 + (ADDR_TO_PN vaddr + 1) < 2 ^ 20 by omega), Nat.mul_mod_left, PAGE_SIZE, Nat.sub_zero, Nat.zero_add]
  rw [Nat.min_eq_right (show 4096 - vaddr % 4096 ≤ count by omega),
    Nat.min_eq_right (show 4096 ≤ count - (4096 - vaddr % 4096) by omega)]
  generalize hn : min (count - (4096 - vaddr % 4096 + 4096)) 4096 = n
  obtain ⟨h1, h3⟩ := pagesOut_front f count k (ADDR_TO_PN vaddr + 1 + 1 + 1)
    ⟨PN_TO_ADDR (1 + (ADDR_TO_PN vaddr + 1 + 1)), 4096 - vaddr % 4096 + 4096 + n,
      4096 - vaddr % 4096 + (4096 - vaddr % 4096 + 4096)⟩
    (blit (blit (blit kmem 0 (4096 - vaddr % 4096) (f (ADDR_TO_PN vaddr)) (vaddr % 4096)) (4096 - vaddr % 4096) 4096
      (f (ADDR_TO_PN vaddr + 1)) 0) (4096 - vaddr % 4096 + (4096 - vaddr % 4096 + 4096)) n (f (ADDR_TO_PN vaddr + 1 + 1)) 0)
  refine ⟨lt_of_lt_of_le (by simp only; omega) h1, ?_⟩
  rw [h3 _ (by simp only; omega), blit_out (by omega), blit_out (by omega), blit_out (by omega)]

/-- The first page of the second area is stored over the last one of the first. -/
theorem areasOut_over {x : Nat × Nat} {kmem' : Nat → UInt8} (h1 : vfnInitial < x.1) (h2 : x.1 < vfnFinal) (h3 : x.1 < x.2)
    (hc : 0 < count) (hv : c.vaddr % 4096 = 0) (hf : ∀ y ∈ x :: l, ∀ w, y.1 ≤ w → f w = g w) :
    areasOut f vfnInitial vfnFinal count c kmem (x :: l) c.buf = areasOut g vfnInitial vfnFinal count c kmem' (x :: l) c.buf := by
  have hone := hf x List.mem_cons_self
  obtain ⟨k, hk⟩ : ∃ k, min x.2 vfnFinal - x.1 = k + 1 := ⟨min x.2 vfnFinal - x.1 - 1, by omega⟩
  have hstored : ∀ (mem : Nat → UInt8) (p : Page), blit mem (c.buf + 0) (min (count - 0) (PAGE_SIZE - c.vaddr % PAGE_SIZE)) p
      (c.vaddr % PAGE_SIZE) c.buf = p 0 := fun mem p => by
    have hn : min (count - 0) (PAGE_SIZE - c.vaddr % PAGE_SIZE) = min count 4096 := by
      unfold PAGE_SIZE
      omega
    rw [hn, blit_mem (by omega) (by omega)]
    unfold PAGE_SIZE
    rw [hv, Nat.add_zero, Nat.sub_self]
  rw [areasOut, areasOut, if_neg (by omega), if_neg (by omega), if_neg (by omega), if_neg (by omega), Nat.max_eq_left h1.le, hk,
    pagesOut_moves f g count _ _ _ kmem kmem']
  apply areasOut_same fun y hy => hf y (List.mem_cons_of_mem x hy)
  simp only [pagesOut]
  apply pagesOut_same fun w hw => hone w (by omega)
  rw [hstored, hstored, hone _ le_rfl]

/-- One or two pages, all but the last byte of which are wanted, leave the buffer pointer on a byte of them. -/
theorem pagesOut_cursor (f : Nat → Page) (kmem : Nat → UInt8) (hv : ADDR_TO_PN vaddr + k < 2 ^ 20) (hc : 0 < count)
    (hk : k = 1 ∨ k = 2 ∧ 8192 ≤ vaddr % 4096 + count) {c : Cursor}
    (h : (pagesOut f count k (ADDR_TO_PN vaddr) ⟨vaddr, 0, 0⟩ kmem).1 = c) :
    c.vaddr % 4096 = 0 ∧ c.buf < count ∧ ADDR_TO_PN (vaddr + c.buf) < ADDR_TO_PN vaddr + k := by
  subst h
  rcases hk with rfl | ⟨rfl, hlong⟩
  · simp only [pagesOut, PN_TO_ADDR_lt (show 1 + ADDR_TO_PN vaddr < 2 ^ 20 by omega), Nat.mul_mod_left]
    exact ⟨trivial, hc, Nat.lt_succ_self _⟩
  · have hn : min (count - 0) (PAGE_SIZE - vaddr % PAGE_SIZE) = 4096 - vaddr % 4096 := by
      unfold PAGE_SIZE
      omega
    simp only [pagesOut, PN_TO_ADDR_lt (show 1 + (ADDR_TO_PN vaddr + 1) < 2 ^ 20 by omega), Nat.mul_mod_left, hn, Nat.zero_add]
    unfold ADDR_TO_PN PAGE_SIZE
    exact ⟨trivial, by omega, by omega⟩

/-- If the first area has no third page that is wanted, another one has a page of the range. -/
theorem SpansOk.second {pre post : List (Nat × Nat)} {x : Nat × Nat} (hm : AllMapped (pre ++ x :: post) vaddr count)
    (hpre : ∀ y ∈ pre, y.2 ≤ ADDR_TO_PN vaddr) (hx : x.1 ≤ ADDR_TO_PN vaddr)
    (h : ¬ (TwoPages vaddr count ∧ OneArea (pre ++ x :: post) vaddr count))
    (hgap : ¬ (ADDR_TO_PN vaddr + 2 < x.2 ∧ ¬ TwoPages vaddr count)) : ∃ z ∈ post, z.1 ≤ ADDR_TO_PN (vaddr + count) := by
  have hpost : ∀ z ∈ pre ++ x :: post, ADDR_TO_PN vaddr < z.2 → z ≠ x → z ∈ post := fun z hz hz2 hne => by
    rcases List.mem_append.1 hz with hz | hz
    · exact absurd (hpre z hz) (by omega)
    · exact (List.mem_cons.1 hz).resolve_left hne
  by_cases h2 : TwoPages vaddr count
  · have h1 : ¬ OneArea (pre ++ x :: post) vaddr count := fun h1 => h ⟨h2, h1⟩
    unfold OneArea at h1
    push Not at h1
    obtain ⟨z, hz, hz1, hz2, hz3⟩ := h1
    exact ⟨z, hpost z hz hz1 (by rintro rfl; omega), hz2⟩
  · obtain ⟨z, hz, hz1, hz2⟩ := hm (8192 - vaddr % 4096) (by unfold TwoPages PAGE_SIZE at h2; omega)
    unfold TwoPages ADDR_TO_PN PAGE_SIZE at *
    refine ⟨z, hpost z hz (by omega) ?_, by omega⟩
    rintro rfl
    omega

/-- If the condition fails some byte of the buffer does not come from its page. -/
theorem readOut_misses (hl : SpansOk C l) (hm : AllMapped l vaddr count) (h : ¬ (TwoPages vaddr count ∧ OneArea l vaddr count)) :
    ∃ i < count, ∀ (f g : Nat → Page) (kmem : Nat → UInt8), (∀ v, v ≠ ADDR_TO_PN (vaddr + i) → f v = g v) →
      readOut f l vaddr count kmem i = readOut g l vaddr count kmem i := by
  have hC := C.high_lt
  have hc : 0 < count := by
    apply Nat.pos_of_ne_zero
    rintro rfl
    exact h ⟨by unfold TwoPages PAGE_SIZE; omega, fun x _ _ hx => hx⟩
  have hend := hm.end_le hl hc
  obtain ⟨pre, x, post, rfl, hpre, hx1, hx2, hpost⟩ := hl.split hm hc
  have hhigh := hl.high x (by simp)
  by_cases hgap : ADDR_TO_PN vaddr + 2 < x.2 ∧ ¬ TwoPages vaddr count
  · -- The third page of the first area holds wanted bytes.
    obtain ⟨hx3, h2⟩ := hgap
    have hkept : ∀ (f : Nat → Page) (kmem : Nat → UInt8),
        readOut f (pre ++ x :: post) vaddr count kmem (8192 - vaddr % 4096) = kmem (8192 - vaddr % 4096) := fun f kmem => by
      obtain ⟨hbuf, hkeep⟩ := pagesOut_gap (f := f) (k := min x.2 (1 + ADDR_TO_PN (vaddr + count)) - ADDR_TO_PN vaddr)
        kmem (by omega) h2 (by unfold TwoPages ADDR_TO_PN PAGE_SIZE at *; omega)
      rw [readOut_eq hpre hx1 hx2 (by omega)]
      simp only
      rw [areasOut_front hbuf, hkeep]
    exact ⟨8192 - vaddr % 4096, by unfold TwoPages PAGE_SIZE at h2; omega, fun f g kmem _ => by rw [hkept, hkept]⟩
  · obtain ⟨z, hz, hz1⟩ := SpansOk.second hm hpre hx1 h hgap
    obtain ⟨y, post, rfl⟩ : ∃ y post', post = y :: post' := List.exists_cons_of_ne_nil (List.ne_nil_of_mem hz)
    obtain ⟨hy1, hy2⟩ := hpost y List.mem_cons_self
    have hbehind : ∀ w ∈ y :: post, y.1 ≤ w.1 := by
      intro w hw
      rcases List.mem_cons.1 hw with rfl | hw
      · exact le_rfl
      · have hs := (sorted_cons.1 (sorted_cons.1 (sorted_append.1 hl.sorted).2.1).2.2).2.1 w hw
        omega
    have hyz := hbehind z hz
    have hk : x.2 - ADDR_TO_PN vaddr = 1 ∨ x.2 - ADDR_TO_PN vaddr = 2 ∧ 8192 ≤ vaddr % 4096 + count := by
      unfold TwoPages ADDR_TO_PN PAGE_SIZE at *
      omega
    -- The first page of `y` is stored over a byte of the first area.
    obtain ⟨c, hmoves⟩ : ∃ c, ∀ (f : Nat → Page) (kmem : Nat → UInt8),
        (pagesOut f count (x.2 - ADDR_TO_PN vaddr) (ADDR_TO_PN vaddr) ⟨vaddr, 0, 0⟩ kmem).1 = c :=
      ⟨_, fun f kmem => pagesOut_moves f (fun _ _ => 0) count _ _ _ kmem fun _ => 0⟩
    obtain ⟨h1, h2, h3⟩ := pagesOut_cursor (fun _ _ => 0) (fun _ => 0) (by omega) hc hk (hmoves _ _)
    refine ⟨c.buf, h2, fun f g kmem hfg => ?_⟩
    rw [readOut_eq hpre hx1 hx2 (by omega), readOut_eq hpre hx1 hx2 (by omega), Nat.min_eq_left (by omega)]
    simp only [hmoves]
    refine areasOut_over (by omega) (by omega) hy2 hc h1 fun w hw v hv => hfg v ?_
    have := hbehind w hw
    omega

/-- So some contents of the pages are read wrong. -/
theorem readOut_wrong (hl : SpansOk C l) (hm : AllMapped l vaddr count) (h : ¬ (TwoPages vaddr count ∧ OneArea l vaddr count)) :
    ∃ f b, ¬ BytesOut f vaddr count (fun _ => b) (readOut f l vaddr count fun _ => b) := by
  obtain ⟨i, hi, hmiss⟩ := readOut_misses hl hm h
  by_contra hall
  push Not at hall
  have h0 := (hall (fun _ _ => 0) 0).1 i hi
  have h1 := (hall (fun v _ => if v = ADDR_TO_PN (vaddr + i) then 1 else 0) 0).1 i hi
  rw [hmiss _ (fun v _ => if v = ADDR_TO_PN (vaddr + i) then 1 else 0) _ fun v hv => (funext fun _ => (if_neg hv).symm)] at h0
  rw [h0] at h1
  simp only [if_true] at h1
  exact absurd h1 (by decide)

end Weenix.Vm
