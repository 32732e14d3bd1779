import Mathlib.Data.Set.Finite.Lattice
import Weenix.Warmup.Exchanges
/-!
# The test passes (`listtest.c`)

Whatever the random numbers are, and wherever `malloc` finds memory, the two
sorts agree, nothing is complained about, and all memory is given back.
-/

namespace Weenix.ListTest
open Lib My402List

variable {base : Nat → Prop} {w w' w'' : World} {ls : Contents} {l l' l₁ l₂ p q p₁ p₂ q₁ q₂ : List (Nat × Nat)}
  {a b i n : Nat} {malloc : Nat → Heap → Nat} {m m₁ m₂ : Memory}

/-! ## All that is allocated -/

/-- Besides the elements of the lists, `base` is allocated. -/
structure Fine (base : Nat → Prop) (w : World) (ls : Contents) : Prop where
  apart : Apart w.heap ls
  finite : {y | w.heap.live y = true}.Finite
  owned : ∀ y, w.heap.live y = true ↔ base y ∨ ∃ b l, ls b = some l ∧ y ∈ l.map Prod.fst
  outside : ∀ y, base y → ∀ b l, ls b = some l → y ∉ l.map Prod.fst

/-- Nothing is printed. -/
structure Silent (w w' : World) : Prop where
  stdout : w'.stdout = w.stdout
  stderr : w'.stderr = w.stderr

theorem Silent.trans (h : Silent w w') (h' : Silent w' w'') : Silent w w'' := ⟨h'.stdout.trans h.stdout, h'.stderr.trans h.stderr⟩

theorem Became.silent (h : Became ls a w l w' l') : Silent w w' := ⟨h.stdout, h.stderr⟩

/-- A list without elements does not matter. -/
theorem elements_empty (hempty : ∀ l, ls a = some l → l = []) (y : Nat) :
    (∃ b l, Function.update ls a (some []) b = some l ∧ y ∈ l.map Prod.fst) ↔ ∃ b l, ls b = some l ∧ y ∈ l.map Prod.fst := by
  constructor
  · rintro ⟨b, lb, hb, hy⟩
    by_cases e : b = a
    · subst e
      rw [Function.update_self] at hb
      cases hb
      cases hy
    · exact ⟨b, lb, by rwa [Function.update_of_ne e] at hb, hy⟩
  · rintro ⟨b, lb, hb, hy⟩
    have hne : b ≠ a := by
      rintro rfl
      rw [hempty lb hb] at hy
      cases hy
    exact ⟨b, lb, by rwa [Function.update_of_ne hne], hy⟩

namespace Fine

theorem live_eq {ls' : Contents} (hF : Fine base w ls) (hF' : Fine base w' ls')
    (h : ∀ y, (∃ b l, ls' b = some l ∧ y ∈ l.map Prod.fst) ↔ ∃ b l, ls b = some l ∧ y ∈ l.map Prod.fst) :
    w'.heap.live = w.heap.live := by
  funext y
  rw [Bool.eq_iff_iff, hF'.owned, hF.owned, h]

theorem holds (hF : Fine base w ls) (hl : ls a = some l) : Holds (w.list a) l := hF.apart.holds a l hl

theorem same (hF : Fine base w ls) (hl : ls a = some l) : Fine base w (Function.update ls a (some l)) := by
  rwa [← hl, Function.update_eq_self]

theorem room (hF : Fine base w ls) : ∃ x, x ≠ NULL ∧ w.heap.live x = false := by
  obtain ⟨x, hx⟩ := (hF.finite.insert NULL).exists_notMem
  simp only [Set.mem_insert_iff, Set.mem_ofPred_eq, not_or, Bool.not_eq_true] at hx
  exact ⟨x, hx⟩

theorem became (hF : Fine base w ls) (hl : ls a = some l) (h : Became ls a w l w' l') :
    Fine base w' (Function.update ls a (some l')) := by
  refine ⟨h.apart, ?_, fun y => ⟨fun hy => ?_, ?_⟩, fun y hy b lb hb => ?_⟩
  · refine (hF.finite.union (List.finite_toSet (l'.map Prod.fst))).subset fun y hy => ?_
    by_cases hin : y ∈ l'.map Prod.fst
    · exact .inr hin
    · exact .inl ((h.others y).1 ⟨hy, hin⟩).1
  · by_cases hin : y ∈ l'.map Prod.fst
    · exact .inr ⟨a, l', Function.update_self .., hin⟩
    · obtain ⟨hlive, hnot⟩ := (h.others y).1 ⟨hy, hin⟩
      refine ((hF.owned y).1 hlive).imp_right ?_
      rintro ⟨b, lb, hb, hyb⟩
      have hne : b ≠ a := by
        rintro rfl
        rw [hl] at hb
        cases hb
        exact hnot hyb
      exact ⟨b, lb, by rwa [Function.update_of_ne hne], hyb⟩
  · rintro (hy | ⟨b, lb, hb, hyb⟩)
    · exact ((h.others y).2 ⟨(hF.owned y).2 (.inl hy), hF.outside y hy a l hl⟩).1
    · exact (h.apart.holds b lb hb).live y (List.mem_cons_of_mem _ hyb)
  · by_cases e : b = a
    · subst e
      rw [Function.update_self] at hb
      cases hb
      exact ((h.others y).2 ⟨(hF.owned y).2 (.inl hy), hF.outside y hy _ l hl⟩).2
    · rw [Function.update_of_ne e] at hb
      exact hF.outside y hy b lb hb

theorem call {c : Call} (hF : Fine base w ls) (hl : ls a = some l) (hc : c.Legal (w.list a) l) (hinit : c ≠ .init) :
    ∃ w', w.call a c = .ok w' ∧ Fine base w' (Function.update ls a (some (c.spec l).1)) ∧ Silent w w' := by
  obtain ⟨w', hrun, h'⟩ := call_became (hF.same hl).apart hc hinit
  exact ⟨w', hrun, hF.became hl h', h'.silent⟩

theorem append (hF : Fine base w ls) (hM : Finds malloc) (hl : ls a = some l) (obj : Nat) :
    ∃ w' r, w.insert a malloc (.append obj) = .ok w' ∧ Fine base w' (Function.update ls a (some (l ++ [(r, obj)]))) ∧ Silent w w' := by
  obtain ⟨hr, hf⟩ := hM w.mallocs w.heap hF.room
  obtain ⟨w', hrun, h'⟩ := insert_became (c := .append obj) (hF.same hl).apart (.inr hf) (by simp)
  rw [Call.spec, if_neg hr] at h'
  exact ⟨w', _, hrun, hF.became hl h', h'.silent⟩

/-- A list is made, or made again when it has no element. -/
theorem init (hF : Fine base w ls) (ha : base a) (hempty : ∀ l, ls a = some l → l = []) :
    ∃ w', w.call a .init = .ok w' ∧ Fine base w' (Function.update ls a (some [])) ∧ Silent w w' := by
  obtain ⟨h', hrun, hA, hlive⟩ := hF.apart.init ((hF.owned a).2 (.inl ha)) (hF.outside a ha)
  refine ⟨{ w with heap := h' }, by simp only [World.call, hrun, deref, bind, Except.bind], ⟨hA, ?_, fun y => ?_, fun y hy b lb hb => ?_⟩,
    rfl, rfl⟩
  · simp only [hlive]
    exact hF.finite
  · simp only [hlive, hF.owned, elements_empty hempty]
  · by_cases e : b = a
    · subst e
      rw [Function.update_self] at hb
      cases hb
      exact List.not_mem_nil
    · rw [Function.update_of_ne e] at hb
      exact hF.outside y hy b lb hb

end Fine

theorem turns_eq (h : Holds (w.list a) l) : w.turns a = l.length + 1 := by
  rw [World.turns, h.count]
  rfl

/-! ## The loops of the test -/

theorem createFrom_fine (hM : Finds malloc) (hF : Fine base w ls) (hl : ls a = some l) :
    ∃ w' l', createFrom malloc a n i w = .ok w' ∧ Fine base w' (Function.update ls a (some l')) ∧
      l'.map Prod.snd = l.map Prod.snd ++ List.range' i n ∧ Silent w w' := by
  induction n generalizing i w l ls with
  | zero => exact ⟨w, l, rfl, hF.same hl, by simp, rfl, rfl⟩
  | succ n ih =>
    obtain ⟨w₁, r, hrun, hF₁, hs⟩ := hF.append hM hl i
    obtain ⟨w', l', hrest, hF', hobjs, hs'⟩ := ih (i := i + 1) hF₁ (Function.update_self ..)
    rw [Function.update_idem] at hF'
    refine ⟨w', l', ?_, hF', ?_, hs.trans hs'⟩
    · simp only [createFrom, hrun, bind, Except.bind, hrest]
    · rw [hobjs]
      simp [List.range'_succ]

theorem RandomIndex_lt (round num_values : Int) (h : 0 < num_values) :
    0 ≤ RandomIndex round num_values ∧ RandomIndex round num_values < num_values := by
  unfold RandomIndex
  split_ifs <;> simp only <;> split_ifs <;> omega

/-- The loop ends at an element, if there are enough. -/
theorem elemAt_mem {j idx : Int} (h : Holds m (p ++ q)) (hj : j ≤ idx) (hidx : idx < j + q.length) (hn : q.length < n) :
    ∃ x ∈ q, elemAt m idx n (addr q) j = .ok x.1 := by
  induction q generalizing p j n with
  | nil => simp at hidx; omega
  | cons x q ih =>
    obtain ⟨n, rfl⟩ : ∃ k, n = k + 1 := ⟨n - 1, by simp at hn; omega⟩
    have hx : x.1 ≠ NULL := forwards_lawful.ne_null h rfl
    rw [addr_cons, elemAt, if_neg hx]
    by_cases e : j = idx
    · exact ⟨x, List.mem_cons_self, if_pos e⟩
    · have h' : Holds m (p ++ [x] ++ q) := by rwa [List.append_assoc, List.singleton_append]
      obtain ⟨y, hy, hrun⟩ := ih h' (j := j + 1) (by omega) (by simp at hidx; omega) (by simp at hn; omega)
      refine ⟨y, List.mem_cons_of_mem x hy, ?_⟩
      rw [if_neg e, next_addr h]
      exact hrun

/-- The elements go over one by one, in an order that the random numbers decide. -/
theorem shuffleFrom_fine {num_items : Nat} (rand : Nat → Int) (hM : Finds malloc) (hab : a ≠ b) (hF : Fine base w ls)
    (hl : ls a = some l) (hl₂ : ls b = some l₂) (hn : l.length = n) (hi : i + n = num_items) :
    ∃ w' l₂', shuffleFrom malloc a b num_items rand n i w = .ok w' ∧
      Fine base w' (Function.update (Function.update ls a (some [])) b (some l₂')) ∧
      (l₂'.map Prod.snd).Perm (l₂.map Prod.snd ++ l.map Prod.snd) ∧ Silent w w' := by
  induction n generalizing i w l l₂ ls with
  | zero =>
    obtain rfl := List.length_eq_zero_iff.1 hn
    refine ⟨w, l₂, rfl, ?_, by simp, rfl, rfl⟩
    rw [← hl, Function.update_eq_self]
    exact hF.same hl₂
  | succ n ih =>
    have h := hF.holds hl
    obtain ⟨h0, hlt⟩ := RandomIndex_lt (rand i) (num_items - i) (by omega)
    obtain ⟨⟨e, obj⟩, hmem, helem⟩ := elemAt_mem (p := []) (n := w.turns a) h h0 (by omega) (by rw [turns_eq h]; omega)
    obtain ⟨p, q, rfl⟩ := List.append_of_mem hmem
    have hne : e ≠ NULL := forwards_lawful.ne_null h rfl
    have hfirst : My402ListFirst (w.list a) = some (addr (p ++ (e, obj) :: q)) := My402Sort.holds_first h
    have hobj : (w.list a).getObj e = some obj := getObj_mem h hmem
    -- out of the one list, and into the other
    obtain ⟨w₁, hcall, hF₁, hs₁⟩ := hF.call (c := .unlink e) hl (List.mem_map_of_mem hmem) (by simp)
    have hspec : (Call.spec (p ++ (e, obj) :: q) (.unlink e)).1 = p ++ q := forwards_lawful.unlink h rfl
    rw [hspec] at hF₁
    obtain ⟨w₂, r, hins, hF₂, hs₂⟩ := hF₁.append hM (by rwa [Function.update_of_ne hab.symm]) obj
    obtain ⟨w', l₂', hrest, hF', hperm, hs'⟩ := ih (i := i + 1) (l := p ++ q) hF₂
      (by rw [Function.update_of_ne hab, Function.update_self]) (Function.update_self ..) (by simp at hn ⊢; omega) (by omega)
    refine ⟨w', l₂', ?_, ?_, ?_, (hs₁.trans hs₂).trans hs'⟩
    · simp only [shuffleFrom, hfirst, helem, hobj, hcall, hins, deref, bind, Except.bind, if_neg hne, hrest]
    · rw [Function.update_comm hab.symm, Function.update_idem, Function.update_idem] at hF'
      exact hF'
    · refine hperm.trans ?_
      simp only [List.map_append, List.map_cons, List.map_nil, List.append_assoc, List.singleton_append]
      exact (List.perm_middle.symm).append_left _

theorem copyFrom_fine (hM : Finds malloc) (hab : a ≠ b) (hF : Fine base w ls) (hl : ls a = some (p ++ q)) (hl₂ : ls b = some l₂)
    (hn : q.length < n) :
    ∃ w' l₂', copyFrom malloc a b n (addr q) w = .ok w' ∧ Fine base w' (Function.update ls b (some l₂')) ∧
      l₂'.map Prod.snd = l₂.map Prod.snd ++ q.map Prod.snd ∧ Silent w w' := by
  induction q generalizing p n w l₂ ls with
  | nil =>
    obtain ⟨n, rfl⟩ : ∃ k, n = k + 1 := ⟨n - 1, by omega⟩
    exact ⟨w, l₂, if_pos rfl, hF.same hl₂, by simp, rfl, rfl⟩
  | cons x q ih =>
    obtain ⟨n, rfl⟩ : ∃ k, n = k + 1 := ⟨n - 1, by simp at hn; omega⟩
    have h := hF.holds hl
    have hne : x.1 ≠ NULL := forwards_lawful.ne_null h rfl
    have hobj : (w.list a).getObj x.1 = some x.2 := getObj_mem h (by simp)
    obtain ⟨w₁, r, hins, hF₁, hs₁⟩ := hF.append hM hl₂ x.2
    have hl' : Function.update ls b (some (l₂ ++ [(r, x.2)])) a = some (p ++ x :: q) := by rwa [Function.update_of_ne hab]
    have hnext : My402ListNext (w₁.list a) x.1 = some (addr q) := next_addr (hF₁.holds hl')
    obtain ⟨w', l₂', hrest, hF', hobjs, hs'⟩ := ih (p := p ++ [x]) hF₁ (by rwa [List.append_assoc, List.singleton_append])
      (Function.update_self ..) (by simp at hn; omega)
    rw [Function.update_idem] at hF'
    refine ⟨w', l₂', ?_, hF', ?_, hs₁.trans hs'⟩
    · simp only [addr_cons, copyFrom, if_neg hne, hobj, hins, hnext, deref, bind, Except.bind, hrest]
    · rw [hobjs]
      simp

theorem CopyTestList_fine (l₂ : List (Nat × Nat)) (hM : Finds malloc) (hab : a ≠ b) (hF : Fine base w ls) (hl : ls a = some l)
    (hl₂ : ls b = some l₂) :
    ∃ w' l₂', CopyTestList malloc w a b = .ok w' ∧ Fine base w' (Function.update ls b (some l₂')) ∧
      l₂'.map Prod.snd = l₂.map Prod.snd ++ l.map Prod.snd ∧ Silent w w' := by
  have h := hF.holds hl
  have hfirst : My402ListFirst (w.list a) = some (addr l) := My402Sort.holds_first h
  obtain ⟨w', l₂', hrun, hF', hobjs, hs⟩ := copyFrom_fine (p := []) (n := w.turns a) hM hab hF hl hl₂ (by rw [turns_eq h]; omega)
  refine ⟨w', l₂', ?_, hF', hobjs, hs⟩
  simp only [CopyTestList, hfirst, deref, bind, Except.bind, hrun]

theorem unlinkAll_fine (hF : Fine base w ls) (hl : ls a = some l) :
    ∃ w', w.call a (.unlinkAll (w.turns a)) = .ok w' ∧ Fine base w' (Function.update ls a (some [])) ∧ Silent w w' := by
  refine hF.call hl ?_ (by simp)
  rw [turns_eq (hF.holds hl)]
  exact Nat.lt_succ_self _

theorem RandomShuffle_fine (rand : Nat → Int) (hM : Finds malloc) (hab : a ≠ b) (hF : Fine base w ls) (hl : ls a = some l)
    (hb : base b) (hempty : ∀ l, ls b = some l → l = []) :
    ∃ w' l', RandomShuffle malloc w a b l.length rand = .ok w' ∧
      Fine base w' (Function.update (Function.update ls b (some [])) a (some l')) ∧
      (l'.map Prod.snd).Perm (l.map Prod.snd) ∧ Silent w w' := by
  obtain ⟨w₁, hinit, hF₁, hs₁⟩ := hF.init hb hempty
  have hl₁ : Function.update ls b (some []) a = some l := by rwa [Function.update_of_ne hab]
  obtain ⟨w₂, l₂, hshuffle, hF₂, hperm, hs₂⟩ := shuffleFrom_fine (i := 0) rand hM hab hF₁ hl₁ (Function.update_self ..) rfl
    (Nat.zero_add _)
  have hlist : Function.update (Function.update (Function.update ls b (some [])) a (some [])) b (some l₂) a = some [] := by
    rw [Function.update_of_ne hab, Function.update_self]
  have hall : My402ListEmpty (w₂.list a) = true := (hF₂.holds hlist).refines.empty.2 rfl
  obtain ⟨w₃, l', hcopy, hF₃, hobjs, hs₃⟩ := CopyTestList_fine [] hM hab.symm hF₂ (Function.update_self ..) hlist
  obtain ⟨w', hfree, hF', hs'⟩ := unlinkAll_fine hF₃ (by rw [Function.update_of_ne hab.symm, Function.update_self])
  refine ⟨w', l', ?_, ?_, ?_, ((hs₁.trans hs₂).trans hs₃).trans hs'⟩
  · simp [RandomShuffle, hinit, hshuffle, hall, hcopy, hfree, bind, Except.bind]
  · refine cast (congrArg (Fine base w') (funext fun c => ?_)) hF'
    simp only [Function.update_apply]
    by_cases ea : c = a
    · simp [ea, hab]
    · by_cases eb : c = b <;> simp [ea, eb, hab.symm]
  · rw [hobjs]
    simpa using hperm

/-! ## Looking at a list -/

theorem findAllFrom_ok (h : Holds (w.list a) l) (hall : ∀ k, i ≤ k → k < i + n → k ∈ l.map Prod.snd) :
    findAllFrom a n i w = .ok w := by
  induction n generalizing i with
  | zero => rfl
  | succ n ih =>
    have hne : found i l ≠ NULL := by
      obtain ⟨x, hx, hobj⟩ := List.mem_map.1 (hall i (le_refl i) (by omega))
      obtain ⟨y, hy⟩ := Option.isSome_iff_exists.1 (List.find?_isSome.2 ⟨x, hx, beq_iff_eq.2 hobj⟩ : (l.find? fun x => x.2 == i).isSome)
      rw [found, hy]
      exact h.ne_null (h.live _ (List.mem_cons_of_mem _ (List.mem_map_of_mem (List.mem_of_find?_eq_some hy))))
    simp only [findAllFrom, find_eq h, deref, bind, Except.bind, if_neg hne]
    exact ih fun k hk hlt => hall k (by omega) (by omega)

/-- A line of numbers. -/
def line (ivals : List Int) : String := ivals.foldr (fun ival rest => s!"{ival} " ++ rest) "\n"

/-- The objects as they are printed and compared. -/
def ivals (l : List (Nat × Nat)) : List Int := l.map fun x => int x.2

theorem printFrom_line (h : Holds m (p ++ q)) (hn : q.length < n) : printFrom m n (addr q) = .ok (line (ivals q)) := by
  induction q generalizing p n with
  | nil =>
    obtain ⟨n, rfl⟩ : ∃ k, n = k + 1 := ⟨n - 1, by omega⟩
    exact if_pos rfl
  | cons x q ih =>
    obtain ⟨n, rfl⟩ : ∃ k, n = k + 1 := ⟨n - 1, by simp at hn; omega⟩
    have hrest := ih (p := p ++ [x]) (n := n) (by rwa [List.append_assoc, List.singleton_append]) (by simp at hn; omega)
    rw [addr_cons, printFrom, if_neg (forwards_lawful.ne_null h rfl), getObj_mem h (by simp), next_addr h]
    simp only [deref, bind, Except.bind, hrest]
    rfl

theorem PrintTestList_line (h : Holds (w.list a) l) :
    PrintTestList w a l.length = .ok { w with stdout := w.stdout ++ line (ivals l) } := by
  have hlen : My402ListLength (w.list a) = l.length := h.count
  have hfirst : My402ListFirst (w.list a) = some (addr l) := My402Sort.holds_first h
  have hline := printFrom_line (p := []) (n := w.turns a) h (by rw [turns_eq h]; omega)
  simp [PrintTestList, hlen, hfirst, deref, bind, Except.bind, hline]

theorem compareFrom_ok (p₁ p₂ : List (Nat × Nat)) (idx : Nat) (h₁ : Holds m₁ (p₁ ++ q₁)) (h₂ : Holds m₂ (p₂ ++ q₂)) (he : ivals q₁ = ivals q₂)
    (hn : q₁.length < n) : compareFrom m₁ m₂ n (addr q₁) (addr q₂) idx = .ok () := by
  induction q₁ generalizing p₁ p₂ q₂ n idx with
  | nil =>
    obtain ⟨n, rfl⟩ : ∃ k, n = k + 1 := ⟨n - 1, by omega⟩
    exact if_neg fun hne => hne.1 rfl
  | cons x q₁ ih =>
    obtain ⟨n, rfl⟩ : ∃ k, n = k + 1 := ⟨n - 1, by simp at hn; omega⟩
    cases q₂ with
    | nil => cases he
    | cons y q₂ =>
      obtain ⟨hint, hrest⟩ : int x.2 = int y.2 ∧ ivals q₁ = ivals q₂ := List.cons.inj he
      have ih := ih (n := n) (p₁ ++ [x]) (p₂ ++ [y]) (idx + 1) (by rwa [List.append_assoc, List.singleton_append])
        (by rwa [List.append_assoc, List.singleton_append]) hrest (by simp at hn; omega)
      rw [addr_cons, addr_cons, compareFrom, if_pos ⟨forwards_lawful.ne_null h₁ rfl, forwards_lawful.ne_null h₂ rfl⟩,
        getObj_mem h₁ (by simp), getObj_mem h₂ (by simp), next_addr h₁, next_addr h₂]
      simp only [deref, bind, Except.bind, hint, ne_eq, not_true_eq_false, if_false, ih]

theorem CompareTestList_ok (h₁ : Holds (w.list a) l₁) (h₂ : Holds (w.list b) l₂) (he : ivals l₁ = ivals l₂) :
    CompareTestList w a b l₁.length = .ok () := by
  have hlen₁ : My402ListLength (w.list a) = l₁.length := h₁.count
  have hlen₂ : My402ListLength (w.list b) = l₁.length := by
    rw [← List.length_map (f := fun x => int x.2), show l₁.map _ = _ from he, ivals, List.length_map]
    exact h₂.count
  have hfirst₁ : My402ListFirst (w.list a) = some (addr l₁) := My402Sort.holds_first h₁
  have hfirst₂ : My402ListFirst (w.list b) = some (addr l₂) := My402Sort.holds_first h₂
  have hrun := compareFrom_ok (n := w.turns a) [] [] 0 h₁ h₂ he (by rw [turns_eq h₁]; omega)
  simp [CompareTestList, hlen₁, hlen₂, hfirst₁, hfirst₂, deref, bind, Except.bind, hrun]

/-! ## The test -/

theorem FindAllInList_ok (h : Holds (w.list a) l) (hall : ∀ k < n, k ∈ l.map Prod.snd) : FindAllInList w a n = .ok w :=
  findAllFrom_ok h fun k _ hlt => hall k (by omega)

/-- The numbers below `n`. -/
def numbers (n : Nat) : List Int := (List.range n).map Int.ofNat

theorem int_small {k : Nat} (h : k < 2 ^ 31) : int k = k := by
  rw [int, BitVec.toInt_ofNat']
  simp [Int.bmod]
  omega

/-- The numbers in order are these. -/
theorem ivals_sorted (hn : n ≤ 2 ^ 31) (hperm : (l.map Prod.snd).Perm (List.range n)) (hs : (l.map Prod.snd).Pairwise fun x y => int x ≤ int y) :
    ivals l = numbers n := by
  have hmap : ivals l = (l.map Prod.snd).map int := by
    rw [List.map_map]
    rfl
  have hnum : numbers n = (List.range n).map int := by
    refine List.map_congr_left fun k hk => (int_small ?_).symm
    have := List.mem_range.1 hk
    omega
  have hsorted : (numbers n).Pairwise (· ≤ ·) := by
    rw [numbers, List.pairwise_map]
    exact List.pairwise_lt_range.imp fun h => Int.ofNat_le.2 h.le
  rw [hnum] at hsorted
  rw [hmap, hnum]
  exact (hperm.map int).eq_of_pairwise (fun x y _ _ => le_antisymm) (List.pairwise_map.2 hs) hsorted

theorem Fine.printed (hF : Fine base w ls) (s : String) : Fine base { w with stdout := s } ls :=
  ⟨hF.apart, hF.finite, hF.owned, hF.outside⟩

theorem print_if (gnDebug : Int) (h : Holds (w.list a) l) (hn : l.length = n) :
    (if gnDebug > 0 then PrintTestList w a n else .ok w) =
      .ok { w with stdout := w.stdout ++ if gnDebug > 0 then line (ivals l) else "" } := by
  split
  · rw [← hn]
    exact PrintTestList_line h
  · rw [String.append_empty]

/-- What a test prints. -/
def report (gnDebug : Int) (n : Nat) : String := if gnDebug > 0 then line (numbers n) else ""

/-- A sort puts the numbers in order, and these are printed. -/
theorem sort_fine (sort : Nat → Except Halt World) (gnDebug : Int) (hn : n ≤ 2 ^ 31) (hF : Fine base w ls) (hl : ls a = some l)
    (hperm : (l.map Prod.snd).Perm (List.range n))
    (hsort : ∃ w' l', sort l.length = .ok w' ∧ Became ls a w l w' l' ∧ (l'.map Prod.snd).Perm (l.map Prod.snd) ∧
      (l'.map Prod.snd).Pairwise fun x y => int x ≤ int y) :
    ∃ w' l', sort n = .ok w' ∧
      (if gnDebug > 0 then PrintTestList w' a n else .ok w') = .ok { w' with stdout := w'.stdout ++ report gnDebug n } ∧
      Fine base { w' with stdout := w'.stdout ++ report gnDebug n } (Function.update ls a (some l')) ∧
      l'.length = n ∧ ivals l' = numbers n ∧ Silent w w' := by
  obtain ⟨w', l', hrun, hB, hperm', hsorted⟩ := hsort
  have hF' := hF.became hl hB
  have hlen : l.length = n := by rw [← List.length_map (f := Prod.snd), hperm.length_eq, List.length_range]
  have hlen' : l'.length = n := by rw [← List.length_map (f := Prod.snd), hperm'.length_eq, List.length_map, hlen]
  have hnum : ivals l' = numbers n := ivals_sorted hn (hperm'.trans hperm) hsorted
  have hprint := print_if gnDebug (hF'.holds (Function.update_self ..)) hlen'
  rw [hlen] at hrun
  rw [hnum] at hprint
  exact ⟨w', l', hrun, hprint, hF'.printed _, hlen', hnum, hB.silent⟩

theorem DoTest_fine {c : Nat} (gnDebug : Int) (rand : Nat → Int) (hM : Finds malloc) (hn : n ≤ 2 ^ 31) (hF : Fine base w ls)
    (hbase : ∀ x ∈ [a, b, c], base x) (hnd : [a, b, c].Nodup) (hempty : ∀ x ∈ [a, b, c], ∀ l, ls x = some l → l = []) :
    ∃ w', DoTest malloc w a b c n gnDebug rand = .ok w' ∧
      Fine base w' (Function.update (Function.update (Function.update ls a (some [])) b (some [])) c (some [])) ∧
      w'.stdout = w.stdout ++ report gnDebug n ++ report gnDebug n ∧ w'.stderr = w.stderr := by
  obtain ⟨⟨hab, hac⟩, hbc⟩ : (a ≠ b ∧ a ≠ c) ∧ b ≠ c := by simpa using hnd
  -- the two lists are made, and one is filled and shuffled
  obtain ⟨w₁, hinit₁, hF₁, hs₁⟩ := hF.init (hbase a (by simp)) (hempty a (by simp))
  obtain ⟨w₂, hinit₂, hF₂, hs₂⟩ := hF₁.init (hbase b (by simp)) (by
    rw [Function.update_of_ne hab.symm]
    exact hempty b (by simp))
  obtain ⟨w₃, l₃, hcreate, hF₃, hobjs₃, hs₃⟩ := createFrom_fine (i := 0) (n := n) (l := []) hM hF₂ (by
    rw [Function.update_of_ne hab, Function.update_self])
  rw [List.map_nil, List.nil_append, ← List.range_eq_range'] at hobjs₃
  have hlen₃ : l₃.length = n := by rw [← List.length_map (f := Prod.snd), hobjs₃, List.length_range]
  obtain ⟨w₄, l₄, hshuffle, hF₄, hperm₄, hs₄⟩ := RandomShuffle_fine rand hM hac hF₃ (Function.update_self ..)
    (hbase c (by simp)) (by
      rw [Function.update_of_ne hac.symm, Function.update_of_ne hbc.symm, Function.update_of_ne hac.symm]
      exact hempty c (by simp))
  rw [hlen₃] at hshuffle
  rw [hobjs₃] at hperm₄
  have h₄ := hF₄.holds (Function.update_self ..)
  have hfind : FindAllInList w₄ a n = .ok w₄ := FindAllInList_ok h₄ fun k hk => hperm₄.mem_iff.2 (List.mem_range.2 hk)
  -- the copy, and the two sorts
  obtain ⟨w₅, l₅, hcopy, hF₅, hobjs₅, hs₅⟩ := CopyTestList_fine [] hM hab hF₄ (Function.update_self ..) (by
    simp [hab.symm, hbc])
  rw [List.map_nil, List.nil_append] at hobjs₅
  generalize hls : Function.update (_ : Contents) b (some l₅) = ls₅ at hF₅
  have hla : ls₅ a = some l₄ := by rw [← hls, Function.update_of_ne hab, Function.update_self]
  have hlb : ls₅ b = some l₅ := by rw [← hls, Function.update_self]
  obtain ⟨w₆, l₆, hforward, hprint₆, hF₆, hlen₆, hnum₆, hs₆⟩ := sort_fine (BubbleSortForwardList malloc w₅ a) gnDebug hn hF₅ hla hperm₄
    (forward_sorts hM (hF₅.same hla).apart)
  have hlb₆ : Function.update ls₅ a (some l₆) b = some l₅ := by rwa [Function.update_of_ne hab.symm]
  obtain ⟨w₇, l₇, hbackward, hprint₇, hF₇, -, hnum₇, hs₇⟩ := sort_fine (BubbleSortBackwardList malloc _ b) gnDebug hn hF₆ hlb₆
    (hobjs₅ ▸ hperm₄) (backward_sorts hM (hF₆.same hlb₆).apart)
  -- they agree, and are freed
  have hla₇ : Function.update (Function.update ls₅ a (some l₆)) b (some l₇) a = some l₆ := by
    rw [Function.update_of_ne hab, Function.update_self]
  have hcompare := CompareTestList_ok (hF₇.holds hla₇) (hF₇.holds (Function.update_self ..)) (hnum₆.trans hnum₇.symm)
  rw [hlen₆] at hcompare
  obtain ⟨w₈, hfree₈, hF₈, hs₈⟩ := unlinkAll_fine hF₇ hla₇
  obtain ⟨w', hfree, hF', hs'⟩ := unlinkAll_fine hF₈ (by rw [Function.update_of_ne hab.symm, Function.update_self])
  have hquiet : Silent w w₆ := ((((hs₁.trans hs₂).trans hs₃).trans hs₄).trans hs₅).trans hs₆
  refine ⟨w', ?_, ?_, ?_, ?_⟩
  · by_cases hd : gnDebug > 0
    · simp only [report, if_pos hd] at hprint₆ hprint₇ hbackward hcompare hfree₈
      simp only [DoTest, CreateTestList, hinit₁, hinit₂, hcreate, hshuffle, hfind, hcopy, hforward, if_pos hd, hprint₆, hbackward, hprint₇,
        hcompare, hfree₈, hfree, bind, Except.bind]
    · -- nothing is printed
      simp only [report, if_neg hd, String.append_empty] at hbackward hcompare hfree₈
      simp only [DoTest, CreateTestList, hinit₁, hinit₂, hcreate, hshuffle, hfind, hcopy, hforward, if_neg hd, hbackward, hcompare, hfree₈,
        hfree, bind, Except.bind]
  · refine cast (congrArg (Fine base w') (funext fun x => ?_)) hF'
    simp only [← hls, Function.update_apply]
    by_cases ea : x = a
    · simp [ea, hab, hac]
    · by_cases eb : x = b
      · simp [eb, hbc]
      · by_cases ec : x = c
        · simp [ec, hac.symm, hbc.symm]
        · simp [ea, eb, ec]
  · rw [hs'.stdout, hs₈.stdout, hs₇.stdout, hquiet.stdout]
  · rw [hs'.stderr, hs₈.stderr, hs₇.stderr, hquiet.stderr]

/-- What is allocated besides the elements of the lists. -/
def Besides (w : World) (ls : Contents) (y : Nat) : Prop := w.heap.live y = true ∧ ∀ d l, ls d = some l → y ∉ l.map Prod.fst

theorem fine_besides (hA : Apart w.heap ls) (hfin : {y | w.heap.live y = true}.Finite) : Fine (Besides w ls) w ls := by
  refine ⟨hA, hfin, fun y => ⟨fun hy => ?_, ?_⟩, fun y hy => hy.2⟩
  · by_cases hin : ∃ d l, ls d = some l ∧ y ∈ l.map Prod.fst
    · exact .inr hin
    · exact .inl ⟨hy, fun d l hd hyl => hin ⟨d, l, hd, hyl⟩⟩
  · rintro (hy | ⟨d, l, hd, hyl⟩)
    · exact hy.1
    · exact (hA.holds d l hd).live y (List.mem_cons_of_mem _ hyl)

theorem elements_three {c : Nat} (hnd : [a, b, c].Nodup) (hempty : ∀ x ∈ [a, b, c], ∀ l, ls x = some l → l = []) (y : Nat) :
    (∃ d l, Function.update (Function.update (Function.update ls a (some [])) b (some [])) c (some []) d = some l ∧ y ∈ l.map Prod.fst) ↔
      ∃ d l, ls d = some l ∧ y ∈ l.map Prod.fst := by
  obtain ⟨⟨hab, hac⟩, hbc⟩ : (a ≠ b ∧ a ≠ c) ∧ b ≠ c := by simpa using hnd
  rw [elements_empty, elements_empty, elements_empty]
  · exact hempty a (by simp)
  · rw [Function.update_of_ne hab.symm]
    exact hempty b (by simp)
  · rw [Function.update_of_ne hbc.symm, Function.update_of_ne hac.symm]
    exact hempty c (by simp)

/-- Whatever the random numbers are, a test of lists that have no elements yet passes if only `malloc` succeeds where there is
memory: it complains about nothing, prints the numbers in order, and gives all memory back. Other lists stay. -/
theorem test_passes {c : Nat} (hM : Finds malloc) (hA : Apart w.heap ls) (hfin : {y | w.heap.live y = true}.Finite)
    (hanchors : ∀ x ∈ [a, b, c], Besides w ls x) (hnd : [a, b, c].Nodup)
    (hempty : ∀ x ∈ [a, b, c], ∀ l, ls x = some l → l = []) (hn : n ≤ 2 ^ 31) (gnDebug : Int) (rand : Nat → Int) :
    ∃ w', DoTest malloc w a b c n gnDebug rand = .ok w' ∧ w'.heap.live = w.heap.live ∧ w'.stderr = w.stderr ∧
      w'.stdout = w.stdout ++ report gnDebug n ++ report gnDebug n ∧
      Apart w'.heap (Function.update (Function.update (Function.update ls a (some [])) b (some [])) c (some [])) := by
  have hF := fine_besides hA hfin
  obtain ⟨w', hrun, hF', hout, herr⟩ := DoTest_fine gnDebug rand hM hn hF hanchors hnd hempty
  exact ⟨w', hrun, hF.live_eq hF' (elements_three hnd hempty), herr, hout, hF'.apart⟩

/-- Lists at the addresses 1, 2 and 3, which have not been made. -/
def threeAnchors : World := ⟨⟨fun a => a == 1 || a == 2 || a == 3, fun _ => 0, ⟨fun _ => 0, fun _ => 0⟩, fun _ => 0⟩, 0, "", ""⟩

theorem threeAnchors_pass : ∃ w', DoTest anyFree threeAnchors 1 2 3 3 1 (fun _ => 1) = .ok w' ∧
    w'.heap.live = threeAnchors.heap.live ∧ w'.stderr = "" ∧ w'.stdout = "0 1 2 \n0 1 2 \n" := by
  have hfin : {y | threeAnchors.heap.live y = true}.Finite := by
    refine (Set.finite_le_nat 3).subset fun y hy => ?_
    simp [threeAnchors] at hy
    simp only [Set.mem_ofPred_eq]
    omega
  have hA : Apart threeAnchors.heap fun _ => none := ⟨fun _ _ h => (by cases h), fun _ _ _ _ h => (by cases h), rfl⟩
  obtain ⟨w', hrun, hlive, herr, hout, -⟩ := test_passes (a := 1) (b := 2) (c := 3) (n := 3) anyFree_finds hA hfin
    (fun x hx => ⟨by revert x; decide, fun _ _ h => (by cases h)⟩) (by decide) (fun _ _ _ h => (by cases h)) (by decide) 1 fun _ => 1
  exact ⟨w', hrun, hlive, herr, hout.trans (by decide +kernel)⟩

/-- The program runs the test ten times. -/
theorem processFrom_fine {c num_itr : Nat} (gnDebug : Int) (rand : Nat → Nat → Int) (hM : Finds malloc) (hF : Fine base w ls)
    (hbase : ∀ x ∈ [a, b, c], base x) (hnd : [a, b, c].Nodup) (hempty : ∀ x ∈ [a, b, c], ∀ l, ls x = some l → l = []) :
    ∃ w', processFrom malloc a b c gnDebug rand num_itr i w = .ok w' ∧ w'.heap.live = w.heap.live ∧ w'.stderr = w.stderr := by
  induction num_itr generalizing i w ls with
  | zero => exact ⟨w, rfl, rfl, rfl⟩
  | succ num_itr ih =>
    obtain ⟨w₁, hrun, hF₁, -, herr⟩ := DoTest_fine (n := 64) gnDebug (rand i) hM (by decide) hF hbase hnd hempty
    obtain ⟨⟨hab, hac⟩, hbc⟩ : (a ≠ b ∧ a ≠ c) ∧ b ≠ c := by simpa using hnd
    obtain ⟨w', hrest, hlive, herr'⟩ := ih (i := i + 1) hF₁ (by
      intro x hx l hl
      simp only [List.mem_cons, List.not_mem_nil, or_false] at hx
      rcases hx with rfl | rfl | rfl <;> simpa [hab, hac, hbc] using hl.symm)
    refine ⟨w', ?_, hlive.trans (hF.live_eq hF₁ (elements_three hnd hempty)), herr'.trans herr⟩
    simp only [processFrom, hrun, hrest, bind, Except.bind]

theorem Process_passes {c : Nat} (hM : Finds malloc) (hA : Apart w.heap ls) (hfin : {y | w.heap.live y = true}.Finite)
    (hanchors : ∀ x ∈ [a, b, c], Besides w ls x) (hnd : [a, b, c].Nodup)
    (hempty : ∀ x ∈ [a, b, c], ∀ l, ls x = some l → l = []) (gnDebug : Int) (rand : Nat → Nat → Int) :
    ∃ w', Process malloc w a b c gnDebug rand = .ok w' ∧ w'.heap.live = w.heap.live ∧ w'.stderr = w.stderr :=
  processFrom_fine gnDebug rand hM (fine_besides hA hfin) hanchors hnd hempty

end Weenix.ListTest
