import Weenix.Warmup.ListTest
import Weenix.Warmup.Sorting
/-!
# Sorting by exchanges of neighbours (`listtest.c`)

The two sorts are one, along the list or against it. An exchange frees two
elements and puts two new ones in their place; seen as a list of objects, the
inner loop is a pass of the bubble sort.
-/

namespace Weenix.ListTest
open Lib My402List

variable {m : Memory} {l l' p q : List (Nat × Nat)} {x : Nat × Nat} {a e r obj : Nat}

/-! ## Neighbours -/

/-- The address of the first element, or `NULL`. -/
def addr (l : List (Nat × Nat)) : Nat := (l.map Prod.fst).headD NULL

theorem addr_nil : addr [] = NULL := rfl

theorem addr_cons : addr (x :: q) = x.1 := rfl

theorem addr_concat : addr (p ++ [x]).reverse = x.1 := by
  simp [addr]

theorem headD_anchor {bs : List Nat} (anchor : Nat) (h : anchor ∉ bs) :
    (if bs.headD anchor = anchor then NULL else bs.headD anchor) = bs.headD NULL := by
  cases bs with
  | nil => exact if_pos rfl
  | cons b bs =>
    refine if_neg fun e => h ?_
    rw [← show b = anchor from e]
    exact List.mem_cons_self

theorem not_anchor (h : Holds m l) : m.anchor ∉ l.map Prod.fst := (List.nodup_cons.1 h.ring.once).1

theorem next_addr (h : Holds m (p ++ x :: q)) : My402ListNext m x.1 = some (addr q) := by
  have hpath := h.ring.path
  have hnot := not_anchor h
  have hlive : m.live x.1 = true := h.live _ (List.mem_cons_of_mem _ (List.mem_map_of_mem (by simp)))
  rw [List.map_append, List.map_cons] at hpath hnot
  have hnext := (Links.Path.append.1 hpath).2.next_eq
  simp only [My402ListNext, Memory.next, if_pos hlive, bind, Option.bind_some, hnext]
  rw [addr, ← headD_anchor m.anchor fun hm => hnot (List.mem_append_right _ (List.mem_cons_of_mem _ hm))]
  split <;> rfl

theorem prev_addr (h : Holds m (p ++ x :: q)) : My402ListPrev m x.1 = some (addr p.reverse) := by
  have hpath := h.ring.path
  have hnot := not_anchor h
  have hlive : m.live x.1 = true := h.live _ (List.mem_cons_of_mem _ (List.mem_map_of_mem (by simp)))
  rw [List.map_append, List.map_cons] at hpath hnot
  have hprev : m.links.prev x.1 = (p.map Prod.fst).reverse.headD m.anchor := (Links.Path.append.1 hpath).1.flip.next_eq
  simp only [My402ListPrev, Memory.prev, if_pos hlive, bind, Option.bind_some, hprev]
  rw [addr, List.map_reverse, ← headD_anchor m.anchor fun hm => hnot (List.mem_append_left _ (List.mem_reverse.1 hm))]
  split <;> rfl

theorem last_addr (h : Holds m l) : My402ListLast m = some (addr l.reverse) := by
  have hprev : m.links.prev m.anchor = (l.map Prod.fst).reverse.headD m.anchor := h.ring.path.flip.next_eq
  rw [My402ListLast, h.count, addr, List.map_reverse]
  rcases List.eq_nil_or_concat l with rfl | ⟨l, x, rfl⟩
  · rfl
  · have hlen : ¬ (((l.concat x).length : Nat) : Int) = 0 := by
      rw [List.length_concat]
      omega
    rw [if_neg hlen, Memory.prev, if_pos (h.live _ List.mem_cons_self), hprev]
    simp

/-! ## The two ways -/

variable {β : Type} [LinearOrder β] {W : Way} {see : List (Nat × Nat) → List (Nat × Nat)} {key : Nat → β}

/-- A call that allocates, legal on the list. -/
structure Puts (m : Memory) (l : List (Nat × Nat)) (see : List (Nat × Nat) → List (Nat × Nat)) (c : Call) (r obj : Nat)
    (p q : List (Nat × Nat)) : Prop where
  legal : c.Legal m l
  made : c ≠ .init
  seen : see (c.spec l).1 = p ++ (r, obj) :: q

/-- What the calls of a way do to the list as it is seen that way. -/
structure Lawful (W : Way) (see : List (Nat × Nat) → List (Nat × Nat)) (key : Nat → β) : Prop where
  perm : ∀ l, (see l).Perm l
  filter : ∀ P l, see (l.filter P) = (see l).filter P
  first : ∀ {m l}, Holds m l → W.first m = some (addr (see l))
  last : ∀ {m l}, Holds m l → W.last m = some (addr (see l).reverse)
  next : ∀ {m l p x q}, Holds m l → see l = p ++ x :: q → W.next m x.1 = some (addr q)
  prev : ∀ {m l p x q}, Holds m l → see l = p ++ x :: q → W.prev m x.1 = some (addr p.reverse)
  push : ∀ {m l r} obj, r ≠ NULL → m.live r = false → Puts m l see (W.push obj r) r obj [] (see l)
  add : ∀ {m l r} obj, r ≠ NULL → m.live r = false → Puts m l see (W.add obj r) r obj (see l) []
  after : ∀ {m l p x q r} obj, Holds m l → r ≠ NULL → m.live r = false → see l = p ++ x :: q →
    Puts m l see (W.after obj x.1 r) r obj (p ++ [x]) q
  before : ∀ {m l p x q r} obj, Holds m l → r ≠ NULL → m.live r = false → see l = p ++ x :: q →
    Puts m l see (W.before obj x.1 r) r obj p (x :: q)
  wrong : ∀ x y, W.wrong (int x) (int y) = decide (key y < key x)

theorem fst_not_mem (h : Holds m (p ++ x :: q)) : x.1 ∉ p.map Prod.fst := by
  have hnd := (List.nodup_cons.1 h.ring.once).2
  rw [List.map_append, List.map_cons] at hnd
  exact fun hm => (List.nodup_append.1 hnd).2.2 _ hm _ List.mem_cons_self rfl

theorem after_puts (obj : Nat) (h : Holds m (p ++ x :: q)) (hr : r ≠ NULL) (hf : m.live r = false) :
    (Call.insertAfter obj x.1 r).Legal m (p ++ x :: q) ∧
      ((Call.insertAfter obj x.1 r).spec (p ++ x :: q)).1 = p ++ x :: (r, obj) :: q := by
  have hmem : x.1 ∈ (p ++ x :: q).map Prod.fst := List.mem_map_of_mem (by simp)
  have hx : x.1 ≠ NULL := h.ne_null (h.live _ (List.mem_cons_of_mem _ hmem))
  refine ⟨⟨.inr hf, .inr hmem⟩, ?_⟩
  rw [Call.spec, if_neg hr, if_neg hx]
  exact insertAfter_split (fst_not_mem h)

theorem before_puts (obj : Nat) (h : Holds m (p ++ x :: q)) (hr : r ≠ NULL) (hf : m.live r = false) :
    (Call.insertBefore obj x.1 r).Legal m (p ++ x :: q) ∧
      ((Call.insertBefore obj x.1 r).spec (p ++ x :: q)).1 = p ++ (r, obj) :: x :: q := by
  have hmem : x.1 ∈ (p ++ x :: q).map Prod.fst := List.mem_map_of_mem (by simp)
  have hx : x.1 ≠ NULL := h.ne_null (h.live _ (List.mem_cons_of_mem _ hmem))
  refine ⟨⟨.inr hf, .inr hmem⟩, ?_⟩
  rw [Call.spec, if_neg hr, if_neg hx]
  exact insertBefore_split (fst_not_mem h)

theorem forwards_lawful : Lawful forwards id int where
  perm l := .refl l
  filter _ _ := rfl
  first h := My402Sort.holds_first h
  last h := last_addr h
  next {m l p x q} h hs := by
    obtain rfl : l = p ++ x :: q := hs
    exact next_addr h
  prev {m l p x q} h hs := by
    obtain rfl : l = p ++ x :: q := hs
    exact prev_addr h
  push obj hr hf := ⟨.inr hf, by simp [forwards], by simp [forwards, Call.spec, hr]⟩
  add obj hr hf := ⟨.inr hf, by simp [forwards], by simp [forwards, Call.spec, hr]⟩
  after {m l p x q r} obj h hr hf hs := by
    obtain rfl : l = p ++ x :: q := hs
    obtain ⟨hlegal, hspec⟩ := after_puts obj h hr hf
    exact ⟨hlegal, by simp [forwards], hspec.trans (List.append_cons ..)⟩
  before {m l p x q r} obj h hr hf hs := by
    obtain rfl : l = p ++ x :: q := hs
    obtain ⟨hlegal, hspec⟩ := before_puts obj h hr hf
    exact ⟨hlegal, by simp [forwards], hspec⟩
  wrong _ _ := rfl

theorem backwards_lawful : Lawful backwards List.reverse (fun obj => OrderDual.toDual (int obj)) where
  perm l := l.reverse_perm
  filter P l := List.filter_reverse.symm
  first h := last_addr h
  last {m l} h := by
    rw [List.reverse_reverse]
    exact My402Sort.holds_first h
  next {m l p x q} h hs := by
    obtain rfl : l = q.reverse ++ x :: p.reverse := by simpa using congrArg List.reverse hs
    rw [← q.reverse_reverse]
    exact prev_addr h
  prev {m l p x q} h hs := by
    obtain rfl : l = q.reverse ++ x :: p.reverse := by simpa using congrArg List.reverse hs
    exact next_addr h
  push obj hr hf := ⟨.inr hf, by simp [backwards], by simp [backwards, Call.spec, hr]⟩
  add obj hr hf := ⟨.inr hf, by simp [backwards], by simp [backwards, Call.spec, hr]⟩
  after {m l p x q r} obj h hr hf hs := by
    obtain rfl : l = q.reverse ++ x :: p.reverse := by simpa using congrArg List.reverse hs
    obtain ⟨hlegal, hspec⟩ := before_puts obj h hr hf
    exact ⟨hlegal, by simp [backwards], (congrArg List.reverse hspec).trans (by simp)⟩
  before {m l p x q r} obj h hr hf hs := by
    obtain rfl : l = q.reverse ++ x :: p.reverse := by simpa using congrArg List.reverse hs
    obtain ⟨hlegal, hspec⟩ := after_puts obj h hr hf
    exact ⟨hlegal, by simp [backwards], (congrArg List.reverse hspec).trans (by simp)⟩
  wrong _ _ := rfl

/-! ## One list of many -/

/-- `malloc` succeeds as long as there is memory. -/
def Finds (malloc : Nat → Heap → Nat) : Prop :=
  ∀ t h, (∃ x, x ≠ NULL ∧ h.live x = false) → malloc t h ≠ NULL ∧ h.live (malloc t h) = false

variable {w w' w'' : World} {ls : Contents} {l'' : List (Nat × Nat)} {malloc : Nat → Heap → Nat} {c : Call}

/-- The list `l` at `a` has become `l'`; the other lists and what else is allocated stay. -/
structure Became (ls : Contents) (a : Nat) (w : World) (l : List (Nat × Nat)) (w' : World) (l' : List (Nat × Nat)) : Prop where
  apart : Apart w'.heap (Function.update ls a (some l'))
  others : ∀ y, (w'.heap.live y = true ∧ y ∉ l'.map Prod.fst) ↔ (w.heap.live y = true ∧ y ∉ l.map Prod.fst)
  stdout : w'.stdout = w.stdout
  stderr : w'.stderr = w.stderr

namespace Became

theorem refl (hA : Apart w.heap (Function.update ls a (some l))) : Became ls a w l w l := ⟨hA, fun _ => .rfl, rfl, rfl⟩

theorem trans (h : Became ls a w l w' l') (h' : Became ls a w' l' w'' l'') : Became ls a w l w'' l'' :=
  ⟨h'.apart, fun y => (h'.others y).trans (h.others y), h'.stdout.trans h.stdout, h'.stderr.trans h.stderr⟩

/-- An element that has gone is not allocated. -/
theorem freed (h : Became ls a w l w' l') {y : Nat} (hy : y ∈ l.map Prod.fst) (hy' : y ∉ l'.map Prod.fst) : w'.heap.live y = false := by
  by_contra hlive
  exact ((h.others y).1 ⟨by simpa using hlive, hy'⟩).2 hy

/-- What was not allocated is not, but for new elements. -/
theorem unused (h : Became ls a w l w' l') {y : Nat} (hy : w.heap.live y = false) (hy' : y ∉ l'.map Prod.fst) :
    w'.heap.live y = false := by
  by_contra hlive
  have hold := ((h.others y).1 ⟨by simpa using hlive, hy'⟩).1
  rw [hy] at hold
  cases hold

end Became

theorem holds_at (hA : Apart w.heap (Function.update ls a (some l))) : Holds (w.list a) l := hA.holds a l (Function.update_self ..)

theorem call_became (hA : Apart w.heap (Function.update ls a (some l))) (hc : c.Legal (w.list a) l) (hinit : c ≠ .init) :
    ∃ w', w.call a c = .ok w' ∧ Became ls a w l w' (c.spec l).1 := by
  obtain ⟨h', hrun, hA', hothers⟩ := hA.call (Function.update_self ..) hc hinit
  rw [Function.update_idem] at hA'
  exact ⟨{ w with heap := h' }, by simp only [World.call, hrun, deref, bind, Except.bind], hA', hothers, rfl, rfl⟩

theorem insert_became {c : Nat → Call} (hA : Apart w.heap (Function.update ls a (some l)))
    (hc : (c (malloc w.mallocs w.heap)).Legal (w.list a) l) (hinit : c (malloc w.mallocs w.heap) ≠ .init) :
    ∃ w', w.insert a malloc c = .ok w' ∧ Became ls a w l w' ((c (malloc w.mallocs w.heap)).spec l).1 := by
  obtain ⟨h', hrun, hA', hothers⟩ := hA.call (Function.update_self ..) hc hinit
  rw [Function.update_idem] at hA'
  exact ⟨{ w with heap := h', mallocs := w.mallocs + 1 }, by simp only [World.insert, hrun, deref, bind, Except.bind], hA', hothers,
    rfl, rfl⟩

/-! ## An exchange -/

theorem getObj_mem (h : Holds m l) (hx : x ∈ l) : m.getObj x.1 = some x.2 := by
  rw [Memory.getObj, if_pos (h.live _ (List.mem_cons_of_mem _ (List.mem_map_of_mem hx))), h.objs x hx]

namespace Lawful

theorem fst_mem (hW : Lawful W see key) (y : Nat) : y ∈ l.map Prod.fst ↔ y ∈ (see l).map Prod.fst :=
  ((hW.perm l).map Prod.fst).mem_iff.symm

theorem mem (hW : Lawful W see key) (hs : see l = p ++ x :: q) : x ∈ l := by
  rw [← (hW.perm l).mem_iff, hs]
  simp

theorem ne_null (hW : Lawful W see key) (h : Holds m l) (hs : see l = p ++ x :: q) : x.1 ≠ NULL :=
  h.ne_null (h.live _ (List.mem_cons_of_mem _ (List.mem_map_of_mem (hW.mem hs))))

theorem fst_not_mem (hW : Lawful W see key) (h : Holds m l) (hs : see l = p ++ x :: q) : x.1 ∉ (p ++ q).map Prod.fst := by
  have hnd : ((see l).map Prod.fst).Nodup := ((hW.perm l).map Prod.fst).nodup_iff.2 (List.nodup_cons.1 h.ring.once).2
  rw [hs, List.map_append, List.map_cons, List.nodup_middle, ← List.map_append] at hnd
  exact (List.nodup_cons.1 hnd).1

theorem unlink (hW : Lawful W see key) (h : Holds m l) (hs : see l = p ++ x :: q) :
    see (l.filter fun y => y.1 ≠ x.1) = p ++ q := by
  have hnot := hW.fst_not_mem h hs
  rw [hW.filter, hs, List.filter_append, List.filter_cons_of_neg (by simp), ← List.filter_append, List.filter_eq_self]
  intro y hy
  rw [decide_eq_true_eq]
  rintro e
  exact hnot (e ▸ List.mem_map_of_mem hy)

/-- The new element after those of `p`. -/
theorem put_after (hW : Lawful W see key) (h : Holds m l) (hr : r ≠ NULL) (hf : m.live r = false) (hs : see l = p ++ q) (obj : Nat) :
    Puts m l see ((if addr p.reverse = NULL then W.push obj else W.after obj (addr p.reverse)) r) r obj p q := by
  rcases List.eq_nil_or_concat p with rfl | ⟨p, x, rfl⟩
  · rw [List.reverse_nil, addr_nil, if_pos rfl]
    rw [List.nil_append] at hs
    exact hs ▸ hW.push obj hr hf
  · rw [List.concat_eq_append, List.append_assoc, List.singleton_append] at hs
    rw [List.concat_eq_append, addr_concat, if_neg (hW.ne_null h hs)]
    exact hW.after obj h hr hf hs

theorem put_before (hW : Lawful W see key) (h : Holds m l) (hr : r ≠ NULL) (hf : m.live r = false) (hs : see l = p ++ q) (obj : Nat) :
    Puts m l see ((if addr q = NULL then W.add obj else W.before obj (addr q)) r) r obj p q := by
  cases q with
  | nil =>
    rw [addr_nil, if_pos rfl]
    rw [List.append_nil] at hs
    exact hs ▸ hW.add obj hr hf
  | cons x q =>
    rw [addr_cons, if_neg (hW.ne_null h hs)]
    exact hW.before obj h hr hf hs

/-- How the element after those of `p` is found again. -/
theorem read_after (hW : Lawful W see key) (h : Holds m l) (hs : see l = p ++ x :: q) :
    (if addr p.reverse = NULL then W.first m else W.next m (addr p.reverse)) = some x.1 := by
  rcases List.eq_nil_or_concat p with rfl | ⟨p, y, rfl⟩
  · rw [List.reverse_nil, addr_nil, if_pos rfl, hW.first h, hs]
    rfl
  · rw [List.concat_eq_append, List.append_assoc, List.singleton_append] at hs
    rw [List.concat_eq_append, addr_concat, if_neg (hW.ne_null h hs)]
    exact hW.next h hs

theorem read_before (hW : Lawful W see key) (h : Holds m l) (hs : see l = p ++ x :: q) :
    (if addr q = NULL then W.last m else W.prev m (addr q)) = some x.1 := by
  cases q with
  | nil =>
    rw [addr_nil, if_pos rfl, hW.last h, hs, addr_concat]
  | cons y q =>
    rw [List.append_cons] at hs
    rw [addr_cons, if_neg (hW.ne_null h hs), hW.prev h hs, addr_concat]

end Lawful

theorem unlink_became (hW : Lawful W see key) (hA : Apart w.heap (Function.update ls a (some l))) (hs : see l = p ++ x :: q) :
    ∃ w' l', w.call a (.unlink x.1) = .ok w' ∧ Became ls a w l w' l' ∧ see l' = p ++ q := by
  obtain ⟨w', hcall, h'⟩ := call_became (c := .unlink x.1) hA (List.mem_map_of_mem (hW.mem hs)) (by simp)
  exact ⟨w', _, hcall, h', hW.unlink (holds_at hA) hs⟩

theorem put_became {c : Nat → Call} (hM : Finds malloc) (hA : Apart w.heap (Function.update ls a (some l)))
    (hroom : ∃ y, y ≠ NULL ∧ w.heap.live y = false)
    (hc : ∀ r, r ≠ NULL → (w.list a).live r = false → Puts (w.list a) l see (c r) r obj p q) :
    ∃ w' l' r, w.insert a malloc c = .ok w' ∧ Became ls a w l w' l' ∧ see l' = p ++ (r, obj) :: q := by
  obtain ⟨hr, hf⟩ := hM w.mallocs w.heap hroom
  have hput := hc _ hr hf
  obtain ⟨w', hins, h'⟩ := insert_became hA hput.legal hput.made
  exact ⟨w', _, _, hins, h', hput.seen⟩

/-- Two neighbours change places, and have new addresses. -/
theorem bubble_became {e₁ e₂ o₁ o₂ : Nat} (hW : Lawful W see key) (hM : Finds malloc) (hA : Apart w.heap (Function.update ls a (some l)))
    (hs : see l = p ++ (e₁, o₁) :: (e₂, o₂) :: q) :
    ∃ w' l' r₁ r₂, bubble malloc W w a e₁ e₂ = .ok (w', r₁, r₂) ∧ Became ls a w l w' l' ∧ see l' = p ++ (r₁, o₂) :: (r₂, o₁) :: q := by
  have h := holds_at hA
  have hs' : see l = p ++ [(e₁, o₁)] ++ (e₂, o₂) :: q := by rw [hs, List.append_cons]
  have hobj₁ : (w.list a).getObj e₁ = some o₁ := getObj_mem h (hW.mem hs)
  have hobj₂ : (w.list a).getObj e₂ = some o₂ := getObj_mem h (hW.mem hs')
  have hprev : W.prev (w.list a) e₁ = some (addr p.reverse) := hW.prev h hs
  have hnext : W.next (w.list a) e₂ = some (addr q) := hW.next h hs'
  have hnot₁ : e₁ ∉ (p ++ (e₂, o₂) :: q).map Prod.fst := hW.fst_not_mem h hs
  have hnot₂ : e₂ ∉ (p ++ [(e₁, o₁)] ++ q).map Prod.fst := hW.fst_not_mem h hs'
  simp only [List.map_append, List.map_cons, List.map_nil, List.mem_append, List.mem_cons, List.not_mem_nil, or_false, not_or]
    at hnot₁ hnot₂
  -- both are taken out
  obtain ⟨w₁, l₁, hcall₁, b₁, hs₁⟩ := unlink_became hW hA hs
  obtain ⟨w₂, l₂, hcall₂, b₂, hs₂⟩ := unlink_became hW b₁.apart hs₁
  have b₂ := b₁.trans b₂
  have hgone {y : Nat} (hp : y ∉ p.map Prod.fst) (hq : y ∉ q.map Prod.fst) : y ∉ l₂.map Prod.fst := by
    rw [hW.fst_mem, hs₂, List.map_append, List.mem_append]
    exact not_or.2 ⟨hp, hq⟩
  have hdead₁ := b₂.freed (List.mem_map_of_mem (hW.mem hs)) (hgone hnot₁.1 hnot₁.2.2)
  have hdead₂ := b₂.freed (List.mem_map_of_mem (hW.mem hs')) (hgone hnot₂.1.1 hnot₂.2)
  -- the second object comes to the first place
  obtain ⟨w₃, l₃, r₁, hins₁, b₃, hs₃⟩ := put_became hM b₂.apart ⟨e₁, hW.ne_null h hs, hdead₁⟩ fun r hr hf =>
    hW.put_after (holds_at b₂.apart) hr hf hs₂ o₂
  have hread₁ := hW.read_after (holds_at b₃.apart) hs₃
  -- of the two that were freed, one is still free
  have hout {y : Nat} (hp : y ∉ p.map Prod.fst) (hq : y ∉ q.map Prod.fst) (hne : y ≠ r₁) : y ∉ l₃.map Prod.fst := by
    rw [hW.fst_mem, hs₃, List.map_append, List.map_cons, List.mem_append, List.mem_cons]
    exact not_or.2 ⟨hp, not_or.2 ⟨hne, hq⟩⟩
  have hroom : ∃ y, y ≠ NULL ∧ w₃.heap.live y = false := by
    by_cases e : e₁ = r₁
    · exact ⟨e₂, hW.ne_null h hs', b₃.unused hdead₂ (hout hnot₂.1.1 hnot₂.2 fun e' => hnot₂.1.2 (e'.trans e.symm))⟩
    · exact ⟨e₁, hW.ne_null h hs, b₃.unused hdead₁ (hout hnot₁.1 hnot₁.2.2 e)⟩
  have hs₃' : see l₃ = p ++ [(r₁, o₂)] ++ q := by rw [hs₃, List.append_cons]
  obtain ⟨w₄, l₄, r₂, hins₂, b₄, hs₄⟩ := put_became hM b₃.apart hroom fun r hr hf =>
    hW.put_before (holds_at b₃.apart) hr hf hs₃' o₁
  have hread₂ := hW.read_before (holds_at b₄.apart) hs₄
  refine ⟨w₄, l₄, r₁, r₂, ?_, (b₂.trans b₃).trans b₄, hs₄.trans (List.append_cons ..).symm⟩
  simp only [bubble, hobj₁, hobj₂, deref, hprev, hnext, hcall₁, hcall₂, hins₁, hread₁, hins₂, hread₂, bind, Except.bind]

/-! ## The loops -/

/-- The inner loop over the elements `q₁` after `e`. -/
theorem bubbleFrom_became (hW : Lawful W see key) (hM : Finds malloc) {q₁ q₂ : List (Nat × Nat)} {e o : Nat} (b : Bool)
    (hA : Apart w.heap (Function.update ls a (some l))) (hs : see l = p ++ (e, o) :: (q₁ ++ q₂)) :
    ∃ w' l', bubbleFrom malloc W a q₁.length e b w = .ok (w', b || (bubblePass key o (q₁.map Prod.snd)).2) ∧ Became ls a w l w' l' ∧
      (see l').map Prod.snd = p.map Prod.snd ++ ((bubblePass key o (q₁.map Prod.snd)).1.1 ++
        (bubblePass key o (q₁.map Prod.snd)).1.2 :: q₂.map Prod.snd) := by
  induction q₁ generalizing p e o w l b with
  | nil => exact ⟨w, l, by simp [bubbleFrom, bubblePass], .refl hA, by simp [hs, bubblePass]⟩
  | cons y q₁ ih =>
    obtain ⟨e₂, o₂⟩ := y
    have h := holds_at hA
    have hs₂ : see l = p ++ [(e, o)] ++ (e₂, o₂) :: (q₁ ++ q₂) := by simp [hs]
    have hcur : (w.list a).getObj e = some o := getObj_mem h (hW.mem hs)
    have hnext : W.next (w.list a) e = some e₂ := hW.next h hs
    have hobj : (w.list a).getObj e₂ = some o₂ := getObj_mem h (hW.mem hs₂)
    simp only [List.map_cons, List.length_cons, bubbleFrom, bubblePass, hcur, hnext, hobj, deref, bind, Except.bind, hW.wrong,
      decide_eq_true_eq]
    by_cases hlt : key o₂ < key o
    · obtain ⟨w₁, l₁, r₁, r₂, hb, h₁, hs₁⟩ := bubble_became hW hM hA hs
      obtain ⟨w', l', hrun, h', hobjs⟩ := ih true h₁.apart (hs₁.trans (List.append_cons ..))
      refine ⟨w', l', ?_, h₁.trans h', ?_⟩
      · simp only [if_pos hlt, hb, hrun, Bool.true_or, Bool.or_true]
      · rw [hobjs, if_pos hlt]
        simp
    · obtain ⟨w', l', hrun, h', hobjs⟩ := ih b hA hs₂
      refine ⟨w', l', ?_, h', ?_⟩
      · simp only [if_neg hlt, hrun]
      · rw [hobjs, if_neg hlt]
        simp

/-- The outer loop; the elements `q₂` are in their places. -/
theorem sortFrom_became (hW : Lawful W see key) (hM : Finds malloc) {n : Nat} {q₁ q₂ : List (Nat × Nat)}
    (hA : Apart w.heap (Function.update ls a (some l))) (hs : see l = q₁ ++ q₂) (hn : q₁.length = n) :
    ∃ w' l', sortFrom malloc W a n w = .ok w' ∧ Became ls a w l w' l' ∧
      (see l').map Prod.snd = bubbleSort key n (q₁.map Prod.snd) ++ q₂.map Prod.snd := by
  induction n generalizing q₁ q₂ w l with
  | zero =>
    obtain rfl := List.length_eq_zero_iff.1 hn
    exact ⟨w, l, rfl, .refl hA, by simp [hs, bubbleSort]⟩
  | succ n ih =>
    obtain ⟨⟨e, o⟩, q₁, rfl⟩ := List.exists_cons_of_length_eq_add_one hn
    obtain rfl : q₁.length = n := Nat.succ.inj hn
    have hfirst : W.first (w.list a) = some e := by
      rw [hW.first (holds_at hA), hs]
      rfl
    obtain ⟨w₁, l₁, hpass, h₁, hobjs₁⟩ := bubbleFrom_became (p := []) hW hM false hA hs
    rw [Bool.false_or] at hpass
    rw [List.map_nil, List.nil_append] at hobjs₁
    simp only [sortFrom, hfirst, hpass, deref, bind, Except.bind, List.map_cons, bubbleSort]
    cases hswap : (bubblePass key o (q₁.map Prod.snd)).2 with
    | false => exact ⟨w₁, l₁, rfl, h₁, by simp [hobjs₁]⟩
    | true =>
      have hlen : (bubblePass key o (q₁.map Prod.snd)).1.1.length = q₁.length := by rw [bubblePass_length, List.length_map]
      have htake : ((see l₁).take q₁.length).map Prod.snd = (bubblePass key o (q₁.map Prod.snd)).1.1 := by
        rw [List.map_take, hobjs₁, List.take_left' hlen]
      have hdrop : ((see l₁).drop q₁.length).map Prod.snd = (bubblePass key o (q₁.map Prod.snd)).1.2 :: q₂.map Prod.snd := by
        rw [List.map_drop, hobjs₁, List.drop_left' hlen]
      obtain ⟨w', l', hrun, h', hobjs⟩ := ih h₁.apart (List.take_append_drop q₁.length (see l₁)).symm (by
        rw [← List.length_map (f := Prod.snd), htake, hlen])
      refine ⟨w', l', by simpa using hrun, h₁.trans h', ?_⟩
      rw [hobjs, htake, hdrop]
      simp

theorem bubbleSortList_became (hW : Lawful W see key) (hM : Finds malloc) (name : String)
    (hA : Apart w.heap (Function.update ls a (some l))) :
    ∃ w' l', bubbleSortList malloc W name w a l.length = .ok w' ∧ Became ls a w l w' l' ∧
      (see l').map Prod.snd = bubbleSort key l.length ((see l).map Prod.snd) := by
  have hlen : My402ListLength (w.list a) = l.length := (holds_at hA).count
  obtain ⟨w', l', hrun, h', hobjs⟩ := sortFrom_became hW hM hA (List.append_nil _).symm (hW.perm l).length_eq
  refine ⟨w', l', ?_, h', by simpa using hobjs⟩
  rw [bubbleSortList, if_neg (by simp [hlen])]
  exact hrun

theorem bubbleSortList_sorts (hW : Lawful W see key) (hM : Finds malloc) (name : String)
    (hA : Apart w.heap (Function.update ls a (some l))) :
    ∃ w' l', bubbleSortList malloc W name w a l.length = .ok w' ∧ Became ls a w l w' l' ∧ (l'.map Prod.snd).Perm (l.map Prod.snd) ∧
      ((see l').map Prod.snd).Pairwise fun x y => key x ≤ key y := by
  obtain ⟨w', l', hrun, h', hobjs⟩ := bubbleSortList_became hW hM name hA
  refine ⟨w', l', hrun, h', ?_, ?_⟩
  · calc (l'.map Prod.snd).Perm ((see l').map Prod.snd) := ((hW.perm l').map _).symm
      _ = bubbleSort key l.length ((see l).map Prod.snd) := hobjs
      List.Perm _ ((see l).map Prod.snd) := bubbleSort_perm _ _
      List.Perm _ (l.map Prod.snd) := (hW.perm l).map _
  · rw [hobjs]
    apply bubbleSort_sorted
    rw [List.length_map, (hW.perm l).length_eq]

theorem forward_sorts (hM : Finds malloc) (hA : Apart w.heap (Function.update ls a (some l))) :
    ∃ w' l', BubbleSortForwardList malloc w a l.length = .ok w' ∧ Became ls a w l w' l' ∧ (l'.map Prod.snd).Perm (l.map Prod.snd) ∧
      (l'.map Prod.snd).Pairwise fun x y => int x ≤ int y :=
  bubbleSortList_sorts forwards_lawful hM _ hA

theorem backward_sorts (hM : Finds malloc) (hA : Apart w.heap (Function.update ls a (some l))) :
    ∃ w' l', BubbleSortBackwardList malloc w a l.length = .ok w' ∧ Became ls a w l w' l' ∧ (l'.map Prod.snd).Perm (l.map Prod.snd) ∧
      (l'.map Prod.snd).Pairwise fun x y => int x ≤ int y := by
  obtain ⟨w', l', hrun, h', hperm, hsorted⟩ := bubbleSortList_sorts backwards_lawful hM "BubbleSortBackwardList" hA
  rw [List.map_reverse, List.pairwise_reverse] at hsorted
  exact ⟨w', l', hrun, h', hperm, hsorted⟩

/-- Either sort puts the objects of a list in order, as `int`s, if only `malloc` succeeds where there is memory. The other
lists stay as they are, and so does the rest of the memory. -/
theorem bubble_sorts (hM : Finds malloc) (hA : Apart w.heap ls) (hl : ls a = some l) :
    (∃ w' l', BubbleSortForwardList malloc w a l.length = .ok w' ∧ Became ls a w l w' l' ∧ (l'.map Prod.snd).Perm (l.map Prod.snd) ∧
      (l'.map Prod.snd).Pairwise fun x y => int x ≤ int y) ∧
    ∃ w' l', BubbleSortBackwardList malloc w a l.length = .ok w' ∧ Became ls a w l w' l' ∧ (l'.map Prod.snd).Perm (l.map Prod.snd) ∧
      (l'.map Prod.snd).Pairwise fun x y => int x ≤ int y := by
  have hA : Apart w.heap (Function.update ls a (some l)) := by rwa [← hl, Function.update_eq_self]
  exact ⟨forward_sorts hM hA, backward_sorts hM hA⟩

/-- Some address that is free. -/
noncomputable def anyFree (_ : Nat) (h : Heap) : Nat := Classical.epsilon fun x => x ≠ NULL ∧ h.live x = false

theorem anyFree_finds : Finds anyFree := fun _ _ hx => Classical.epsilon_spec hx

theorem three_sorted : ∃ w ls l, Apart w.heap ls ∧ ls 1 = some l ∧ l.map Prod.snd = [30, 10, 20] ∧
    ∃ w' l', BubbleSortForwardList anyFree w 1 3 = .ok w' ∧ Became ls 1 w l w' l' ∧ (l'.map Prod.snd).Perm [30, 10, 20] ∧
      (l'.map Prod.snd).Pairwise fun x y => int x ≤ int y := by
  have hex : (exec callStep allowed twoEmpty [(1, .append 10 3), (1, .prepend 30 4), (1, .append 20 5)]).map (fun r => r.1.2 1) =
      some (some [(4, 30), (3, 10), (5, 20)]) := by
    decide +kernel
  simp only [Option.map_eq_some_iff, Prod.exists] at hex
  obtain ⟨h, ls, tr, he, hl⟩ := hex
  have hA := run_apart rfl (two_made.append (Run.of_exec allowed_sound he))
  obtain ⟨w', l', hrun, h', hperm, hsorted⟩ := (bubble_sorts anyFree_finds (w := ⟨h, 0, "", ""⟩) hA hl).1
  exact ⟨⟨h, 0, "", ""⟩, ls, _, hA, hl, rfl, w', l', hrun, h', hperm, hsorted⟩

end Weenix.ListTest
