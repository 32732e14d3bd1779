import Weenix.Warmup.Sorting
/-!
# What `main` does with the lines

The loop of `read` puts the transactions of the lines into the list, in their order,
until a line stops the program. Then an empty list is followed to an element that
it does not have; any other is sorted and printed, or has the same time twice.
-/

namespace Weenix.My402Sort
open Lib My402List

/-- The transactions of the lines, up to a line that stops the program. -/
def linesFrom (now : Nat) : List (List Char) → Except Stop (List Transaction)
  | [] => .ok []
  | buf :: bufs => do
    match ← readLine now buf with
    | none => linesFrom now bufs
    | some t => do
      let ts ← linesFrom now bufs
      .ok (t :: ts)

/-- `malloc` returns addresses that are free, one after the other, for `N` elements. -/
structure Allocates (malloc : Nat → Nat) (m : Memory) (N : Nat) : Prop where
  fresh : ∀ k < N, malloc k ≠ NULL ∧ m.live (malloc k) = false
  once : ∀ j < N, ∀ k < N, malloc j = malloc k → j = k

variable {malloc : Nat → Nat} {m m' : Memory} {now n N : Nat} {trans ts : List Transaction} {bufs : List (List Char)}

/-- The elements of the first `k` transactions. -/
def elems (malloc : Nat → Nat) (k : Nat) : List (Nat × Nat) := (List.range k).map fun j => (malloc j, j)

theorem elems_succ (k : Nat) : elems malloc (k + 1) = elems malloc k ++ [(malloc k, k)] := by
  rw [elems, List.range_succ, List.map_append]
  rfl

theorem elems_length (k : Nat) : (elems malloc k).length = k := by
  rw [elems, List.length_map, List.length_range]

/-- The list has an element for each transaction, and there is memory for those up to `N`. -/
structure Filled (malloc : Nat → Nat) (N : Nat) (m : Memory) (trans : List Transaction) : Prop where
  holds : Holds m (elems malloc trans.length)
  fresh : ∀ k, trans.length ≤ k → k < N → m.live (malloc k) = false

theorem Filled.append (hm : Allocates malloc m N) (h : Filled malloc N m' trans) (hN : trans.length < N) (t : Transaction) :
    ∃ m'', My402ListAppend m' trans.length (malloc trans.length) = some (m'', true) ∧ Filled malloc N m'' (trans ++ [t]) := by
  have hnew := h.fresh trans.length (Nat.le_refl _) hN
  have hnull := (hm.fresh trans.length hN).1
  obtain ⟨m'', hrun, hlinked⟩ := append_linked h.holds hnull hnew trans.length
  have hbehind : Linked m' m'' (behind m' []) (malloc trans.length) trans.length := hlinked
  refine ⟨m'', hrun, ?_, fun k hk hkN => ?_⟩
  · rw [List.length_append, List.length_singleton, elems_succ]
    exact hbehind.holds (by rw [List.append_nil]; exact h.holds) hnull hnew
  · rw [List.length_append, List.length_singleton] at hk
    have hne : malloc k ≠ malloc trans.length := fun e => by
      have := hm.once k hkN trans.length hN e
      omega
    rw [hlinked.live, Function.update_of_ne hne]
    exact h.fresh k (by omega) hkN

/-- The loop of `read` fills the list, or stops where a line stops it. -/
theorem readFrom_fills (now : Nat) (bufs : List (List Char)) (hm : Allocates malloc m N) (h : Filled malloc N m' trans)
    (hN : trans.length + bufs.length ≤ N) :
    (∀ e, linesFrom now bufs = .error e → readFrom now malloc ⟨m', trans⟩ bufs = .error e) ∧
    ∀ ts, linesFrom now bufs = .ok ts →
      ∃ m'', readFrom now malloc ⟨m', trans⟩ bufs = .ok ⟨m'', trans ++ ts⟩ ∧ Filled malloc N m'' (trans ++ ts) := by
  induction bufs generalizing m' trans with
  | nil =>
    refine ⟨fun e he => (by cases he), fun ts hts => ?_⟩
    cases hts
    refine ⟨m', ?_, ?_⟩
    · rw [List.append_nil]
      rfl
    · rw [List.append_nil]
      exact h
  | cons buf bufs ih =>
    rw [List.length_cons] at hN
    rw [linesFrom, readFrom]
    cases readLine now buf with
    | error e => exact ⟨fun e' he => by cases he; rfl, fun ts hts => by cases hts⟩
    | ok r =>
      cases r with
      | none => exact ih h (by omega)
      | some t =>
        obtain ⟨m'', hrun, h''⟩ := h.append hm (by omega) t
        obtain ⟨herr, hok⟩ := ih h'' (by simp; omega)
        simp only [hrun, deref, bind, Except.bind]
        cases hlines : linesFrom now bufs with
        | error e => exact ⟨fun e' he => by cases he; exact herr e hlines, fun ts hts => by cases hts⟩
        | ok ts =>
          refine ⟨fun e he => (by cases he), fun ts' hts => ?_⟩
          cases hts
          obtain ⟨m₃, hrest, h₃⟩ := hok ts hlines
          rw [List.append_assoc] at hrest h₃
          exact ⟨m₃, hrest, h₃⟩

/-! ## `PrintList` -/

theorem printFrom_ok (ctime : Int → List Char) {bs : List Nat} (balanceMain : Int) (hrow : Row m bs)
    (hobj : ∀ b ∈ bs, m.obj b < trans.length) (hn : bs.length < n) :
    ∃ rows, printFrom trans ctime m (bs.headD NULL) balanceMain n = .ok rows := by
  induction bs generalizing n balanceMain with
  | nil =>
    obtain ⟨n, rfl⟩ : ∃ k, n = k + 1 := ⟨n - 1, by omega⟩
    exact ⟨[], by simp [printFrom]⟩
  | cons b bs ih =>
    obtain ⟨n, rfl⟩ : ∃ k, n = k + 1 := ⟨n - 1, by omega⟩
    obtain ⟨⟨hlive, hb0, hnext⟩, hrow⟩ := hrow
    obtain ⟨t, ht, -⟩ := transOf_withObj hlive (hobj b List.mem_cons_self)
    have ht : transOf trans m b = some t := ht
    obtain ⟨rows, hrows⟩ := ih (balanceAfter balanceMain t) hrow
      (fun c hc => hobj c (List.mem_cons_of_mem _ hc)) (by simp at hn; omega)
    rw [List.headD_cons, printFrom, if_neg hb0]
    simp only [ht, hnext, deref, bind, Except.bind, hrows]
    exact ⟨_, rfl⟩

theorem printList_ok (ctime : Int → List Char) {l : List (Nat × Nat)} (h : Holds m l) (ht : HasTrans trans l)
    (hn : l.length < n) : ∃ text, PrintList trans ctime m n = .ok text := by
  have hobj : ∀ b ∈ l.map Prod.fst, m.obj b < trans.length := by
    intro b hb
    obtain ⟨x, hx, rfl⟩ := List.mem_map.1 hb
    rw [h.objs x hx]
    exact ht x hx
  obtain ⟨rows, hrows⟩ := printFrom_ok ctime 0 (holds_row h) hobj (by simpa using hn)
  simp only [PrintList, holds_first h, deref, bind, Except.bind, hrows]
  exact ⟨_, rfl⟩

/-! ## `main` -/

theorem init_filled (ha : m.live m.anchor = true) (h0 : m.live NULL = false) (hm : Allocates malloc m N) :
    ∃ m₁, My402ListInit m = some (m₁, true) ∧ Filled malloc N m₁ [] := by
  obtain ⟨m₁, hinit, h₁⟩ := init_holds ha h0
  have hlive : m₁.live = m.live := by
    simp only [My402ListInit, Memory.setObj, Memory.setNext, Memory.setPrev, ha, if_true, bind, Option.bind_some,
      Option.some.injEq, Prod.mk.injEq, and_true] at hinit
    rw [← hinit]
  refine ⟨m₁, hinit, h₁, fun k _ hk => ?_⟩
  rw [hlive]
  exact (hm.fresh k hk).2

/-- What `main` returns, when the lines give `r`. -/
inductive MainEnds : Except Stop (List Transaction) → Except Stop (List Char) → Prop
  | stopped (e : Stop) : MainEnds (.error e) (.error e)
  | empty : MainEnds (.ok []) (.error (.crash .elem))
  | duplicate (ts : List Transaction) : ts ≠ [] → MainEnds (.ok ts) (.error (.exit "Duplicate timestamp values\n"))
  | printed (ts : List Transaction) (text : List Char) : ts ≠ [] → MainEnds (.ok ts) (.ok text)

theorem elems_hasTrans (trans : List Transaction) : HasTrans trans (elems malloc trans.length) := by
  intro x hx
  obtain ⟨j, hj, rfl⟩ := List.mem_map.1 hx
  exact List.mem_range.1 hj

theorem linesFrom_length (h : linesFrom now bufs = .ok ts) : ts.length ≤ bufs.length := by
  induction bufs generalizing ts with
  | nil =>
    cases h
    exact Nat.le_refl _
  | cons buf bufs ih =>
    rw [linesFrom] at h
    cases hline : readLine now buf with
    | error e =>
      rw [hline] at h
      cases h
    | ok r =>
      rw [hline] at h
      cases r with
      | none => exact Nat.le_succ_of_le (ih h)
      | some t =>
        cases hlines : linesFrom now bufs with
        | error e =>
          simp only [bind, Except.bind, hlines] at h
          cases h
        | ok ts' =>
          simp only [bind, Except.bind, hlines] at h
          cases h
          exact Nat.succ_le_succ (ih hlines)

/-- An empty list has no first element to go on from. -/
theorem sorting_empty (h : Holds m []) (hn : 0 < n) : sorting trans n m = .error (.crash .elem) := by
  obtain ⟨n, rfl⟩ : ∃ k, n = k + 1 := ⟨n - 1, by omega⟩
  have hnext : My402ListNext m NULL = none := by simp [My402ListNext, Memory.next, h.null]
  simp only [sorting, holds_first h, List.map_nil, List.headD_nil, deref, bind, Except.bind, sortFrom, hnext]

/-- The sorted list has transactions that it had before. -/
theorem sorting_keeps {l : List (Nat × Nat)} (h : Holds m l) (hne : l ≠ []) (ht : HasTrans trans l) (hn : l.length < n) :
    sorting trans n m = .error (.exit "Duplicate timestamp values\n") ∨
    ∃ m' l', sorting trans n m = .ok m' ∧ Holds m' l' ∧ HasTrans trans l' ∧ l'.length = l.length := by
  have hleft := sorting_sort h hne ht hn
  cases hsort : exchangeSort (timeAt trans) (l.map Prod.snd) with
  | none =>
    rw [hsort] at hleft
    exact .inl hleft
  | some zs =>
    rw [hsort] at hleft
    obtain ⟨f, hrun, rfl, -⟩ := hleft
    refine .inr ⟨_, placed f (l.map Prod.fst), hrun, holds_withObj h f, fun x hx => ?_, by simp [placed]⟩
    have hmem : x.2 ∈ (placed f (l.map Prod.fst)).map Prod.snd := List.mem_map_of_mem hx
    rw [placed_snd, (exchangeSort_sorts hsort).1.mem_iff] at hmem
    obtain ⟨y, hy, he⟩ := List.mem_map.1 hmem
    rw [← he]
    exact ht y hy

theorem main_ends (now : Nat) (ctime : Int → List Char) {file : List Char} (ha : m.live m.anchor = true)
    (h0 : m.live NULL = false) (hm : Allocates malloc m (My402Sort.bufs file).length) (hn : (My402Sort.bufs file).length < n) :
    MainEnds (linesFrom now (My402Sort.bufs file)) (main now ctime malloc n m file) := by
  obtain ⟨m₁, hinit, h₁⟩ := init_filled ha h0 hm
  obtain ⟨herr, hok⟩ := readFrom_fills now (My402Sort.bufs file) hm h₁ (by simp)
  simp only [main, hinit, deref, bind, Except.bind, read]
  cases hlines : linesFrom now (My402Sort.bufs file) with
  | error e =>
    rw [herr e hlines]
    exact .stopped e
  | ok ts =>
    obtain ⟨m₂, hrun, h₂⟩ := hok ts hlines
    rw [List.nil_append] at hrun h₂
    have hlen := linesFrom_length hlines
    rw [hrun]
    simp only
    by_cases hts : ts = []
    · subst hts
      rw [sorting_empty h₂.holds (by omega)]
      exact .empty
    · have hne : elems malloc ts.length ≠ [] := by
        rw [ne_eq, ← List.length_eq_zero_iff, elems_length, List.length_eq_zero_iff]
        exact hts
      have hlt : (elems malloc ts.length).length < n := by
        rw [elems_length]
        omega
      rcases sorting_keeps h₂.holds hne (elems_hasTrans ts) hlt with hdup | ⟨m₃, l, hsort, h₃, htrans, hlen₃⟩
      · rw [hdup]
        exact .duplicate ts hts
      · obtain ⟨text, htext⟩ := printList_ok ctime h₃ htrans (hlen₃ ▸ hlt)
        rw [hsort]
        simp only
        rw [htext]
        exact .printed ts text hts

end Weenix.My402Sort
