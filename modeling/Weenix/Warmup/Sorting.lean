import Weenix.Lib.ExchangeSort
import Weenix.Warmup.My402Sort
import Mathlib.Data.Int.Order.Basic
/-!
# What `sorting` does to the list

The elements stay where they are, and only their objects change. Seen as a list of
objects, the inner loop is a pass of the exchange sort, with the times of the
transactions for keys, and the outer loop is the sort.
-/

namespace Weenix.My402Sort
open Lib My402List

/-! ## The elements in a row -/

/-- The elements `bs` follow one another, to the end of the list. -/
def Row (m : Memory) : List Nat → Prop
  | [] => True
  | b :: bs => (m.live b = true ∧ b ≠ NULL ∧ My402ListNext m b = some (bs.headD NULL)) ∧ Row m bs

variable {m : Memory} {l : List (Nat × Nat)}

theorem row_of_path : ∀ {bs : List Nat} {a : Nat}, m.live NULL = false → m.links.Path a bs m.anchor → m.anchor ∉ bs →
    (∀ b ∈ bs, m.live b = true) → Row m bs
  | [], _, _, _, _, _ => trivial
  | b :: bs, a, h0, hp, hanchor, hlive => by
    rw [List.mem_cons, not_or] at hanchor
    have hb := hlive b List.mem_cons_self
    have hnext : My402ListNext m b = some (bs.headD NULL) := by
      simp only [My402ListNext, Memory.next, hb, if_true, bind, Option.bind_some, hp.2.2.next_eq]
      cases bs with
      | nil => simp
      | cons c bs =>
        have hc : c ≠ m.anchor := fun e => hanchor.2 (by simp [e])
        simp [hc]
    refine ⟨⟨hb, ?_, hnext⟩, row_of_path h0 hp.2.2 hanchor.2 fun c hc => hlive c (List.mem_cons_of_mem _ hc)⟩
    rintro rfl
    rw [h0] at hb
    cases hb

theorem holds_row (h : Holds m l) : Row m (l.map Prod.fst) :=
  row_of_path h.null h.ring.path (List.nodup_cons.1 h.ring.once).1 fun b hb => h.live b (List.mem_cons_of_mem _ hb)

theorem holds_first (h : Holds m l) : My402ListFirst m = some ((l.map Prod.fst).headD NULL) := by
  have hnext := h.ring.path.next_eq
  rw [My402ListFirst, h.count]
  cases l with
  | nil => rfl
  | cons x l =>
    have hlen : ¬ (((x :: l).length : Nat) : Int) = 0 := by simp; omega
    rw [if_neg hlen, Memory.next, if_pos (h.live _ List.mem_cons_self), hnext]
    rfl

/-- The memory of `m`, with the objects `obj`. -/
def withObj (m : Memory) (obj : Nat → Nat) : Memory := { m with obj := obj }

@[simp] theorem withObj_next (obj : Nat → Nat) (b : Nat) : My402ListNext (withObj m obj) b = My402ListNext m b := rfl

/-! ## The loops -/

/-- The time of the transaction at an address. -/
def timeAt (trans : List Transaction) (obj : Nat) : Int := ((trans[obj]?).map Transaction.time).getD 0

variable {trans : List Transaction} {f : Nat → Nat} {bs : List Nat} {b e n : Nat}

theorem transOf_withObj (hb : m.live b = true) (hf : f b < trans.length) :
    ∃ t, transOf trans (withObj m f) b = some t ∧ t.time = timeAt trans (f b) := by
  refine ⟨trans[f b], ?_, ?_⟩
  · simp [transOf, Memory.getObj, withObj, hb, hf]
  · simp [timeAt, hf]

/-- The objects of `b` and `e` exchanged. -/
def exchanged (f : Nat → Nat) (e b : Nat) : Nat → Nat := Function.update (Function.update f e (f b)) b (f e)

theorem exchanged_left (hne : e ≠ b) : exchanged f e b e = f b := by
  rw [exchanged, Function.update_of_ne hne, Function.update_self]

theorem exchanged_right : exchanged f e b b = f e := by
  rw [exchanged, Function.update_self]

theorem exchanged_ne {c : Nat} (he : c ≠ e) (hb : c ≠ b) : exchanged f e b c = f c := by
  rw [exchanged, Function.update_of_ne hb, Function.update_of_ne he]

/-- One turn of the inner loop. -/
theorem exchangeFrom_succ {next : Nat} (he : m.live e = true) (hb : m.live b = true) (hb0 : b ≠ NULL)
    (hnext : My402ListNext m b = some next) (hfe : f e < trans.length) (hfb : f b < trans.length) :
    exchangeFrom trans (withObj m f) e b (n + 1) =
      if timeAt trans (f b) < timeAt trans (f e) then exchangeFrom trans (withObj m (exchanged f e b)) e next n
      else if timeAt trans (f e) = timeAt trans (f b) then .error (.exit "Duplicate timestamp values\n")
      else exchangeFrom trans (withObj m f) e next n := by
  obtain ⟨t, ht, htime⟩ := transOf_withObj he hfe
  obtain ⟨t', ht', htime'⟩ := transOf_withObj hb hfb
  have hget (obj : Nat → Nat) {c : Nat} (hc : m.live c = true) : (withObj m obj).getObj c = some (obj c) := by
    simp [Memory.getObj, withObj, hc]
  have hset (obj : Nat → Nat) {c x : Nat} (hc : m.live c = true) :
      (withObj m obj).setObj c x = some (withObj m (Function.update obj c x)) := by
    simp [Memory.setObj, withObj, hc]
  rw [exchangeFrom, if_neg hb0]
  simp only [ht, ht', htime, htime', hget f he, hget f hb, hset _ he, hset _ hb, withObj_next, hnext, deref, bind,
    Except.bind]
  rfl

/-- The objects `zs` are left in the elements `bs`, and the others are as they were; without `zs` there was a duplicate. -/
def Leaves (m : Memory) (f : Nat → Nat) (bs : List Nat) (r : Except Stop Memory) : Option (List Nat) → Prop
  | none => r = .error (.exit "Duplicate timestamp values\n")
  | some zs => ∃ f', r = .ok (withObj m f') ∧ bs.map f' = zs ∧ ∀ c, c ∉ bs → f' c = f c

/-- After a turn over `b`, the rest of the pass leaves the object of `b` where it is. -/
theorem Leaves.turn {g : Nat → Nat} {r : Except Stop Memory} {o : Option (Nat × List Nat)}
    (h : Leaves m g (e :: bs) r (o.map fun x => x.1 :: x.2)) (heb : e ≠ b) (hb : b ∉ bs)
    (hg : ∀ c, c ≠ e → c ≠ b → g c = f c) : Leaves m f (e :: b :: bs) r (o.map fun x => x.1 :: g b :: x.2) := by
  cases o with
  | none => exact h
  | some x =>
    obtain ⟨f', hrun, hobjs, hrest⟩ := h
    rw [List.map_cons] at hobjs
    refine ⟨f', hrun, ?_, fun c hc => ?_⟩
    · rw [List.map_cons, List.map_cons, hrest b (by simp [heb.symm, hb]), (List.cons.inj hobjs).1, (List.cons.inj hobjs).2]
    · simp only [List.mem_cons, not_or] at hc
      rw [hrest c (by simp [hc]), hg c hc.1 hc.2.1]

/-- A pass over the elements `bs` after `e`. -/
theorem exchangeFrom_pass (he : m.live e = true) (hrow : Row m bs) (hnd : (e :: bs).Nodup)
    (hf : ∀ c ∈ e :: bs, f c < trans.length) (hn : bs.length < n) :
    Leaves m f (e :: bs) (exchangeFrom trans (withObj m f) e (bs.headD NULL) n)
      ((exchangePass (timeAt trans) (f e) (bs.map f)).map fun x => x.1 :: x.2) := by
  induction bs generalizing f n with
  | nil =>
    obtain ⟨n, rfl⟩ : ∃ k, n = k + 1 := ⟨n - 1, by omega⟩
    exact ⟨f, by simp [exchangeFrom], rfl, fun c _ => rfl⟩
  | cons b bs ih =>
    obtain ⟨n, rfl⟩ : ∃ k, n = k + 1 := ⟨n - 1, by simp at hn; omega⟩
    obtain ⟨⟨hb, hb0, hnext⟩, hrow⟩ := hrow
    have hbs : bs.length < n := by simp at hn; omega
    have heb : e ≠ b := fun h => (List.nodup_cons.1 hnd).1 (by simp [h])
    have hnd' : (e :: bs).Nodup := hnd.sublist ((List.sublist_cons_self b bs).cons_cons e)
    have hb_bs : b ∉ bs := (List.nodup_cons.1 (List.nodup_cons.1 hnd).2).1
    have hfe := hf e List.mem_cons_self
    have hfb := hf b (by simp)
    have hfs : ∀ c ∈ bs, f c < trans.length := fun c hc => hf c (by simp [hc])
    rw [List.headD_cons, exchangeFrom_succ he hb hb0 hnext hfe hfb, List.map_cons, exchangePass]
    by_cases hlt : timeAt trans (f b) < timeAt trans (f e)
    · -- the objects of `e` and `b` have been exchanged, the others have not
      have hkept : ∀ c ∈ bs, exchanged f e b c = f c := by
        refine fun c hc => exchanged_ne ?_ ?_
        · rintro rfl
          exact (List.nodup_cons.1 hnd').1 hc
        · rintro rfl
          exact hb_bs hc
      have hf' : ∀ c ∈ e :: bs, exchanged f e b c < trans.length := by
        rintro c (_ | ⟨_, hc⟩)
        · rw [exchanged_left heb]
          exact hfb
        · rw [hkept c hc]
          exact hfs c hc
      have hrest := (ih hrow hnd' hf' hbs).turn (f := f) heb hb_bs fun c => exchanged_ne
      rw [exchanged_left heb, exchanged_right, List.map_congr_left hkept] at hrest
      rw [if_pos hlt, if_pos hlt, Option.map_map]
      exact hrest
    · rw [if_neg hlt, if_neg hlt]
      by_cases heq : timeAt trans (f e) = timeAt trans (f b)
      · rw [if_pos heq, if_pos heq]
        rfl
      · have hf' : ∀ c ∈ e :: bs, f c < trans.length := by
          rintro c (_ | ⟨_, hc⟩)
          · exact hfe
          · exact hfs c hc
        have hrest := (ih hrow hnd' hf' hbs).turn (f := f) heb hb_bs fun _ _ _ => rfl
        rw [if_neg heq, if_neg heq, Option.map_map]
        exact hrest

/-- The outer loop from the element `b`. -/
theorem sortFrom_sort {k : Nat} (hrow : Row m (b :: bs)) (hnd : (b :: bs).Nodup) (hf : ∀ c ∈ b :: bs, f c < trans.length)
    (hn : bs.length < n) (hk : bs.length < k) :
    Leaves m f (b :: bs) (sortFrom trans n (withObj m f) b k) (exchangeSort (timeAt trans) ((b :: bs).map f)) := by
  induction bs generalizing b f k with
  | nil =>
    obtain ⟨k, rfl⟩ : ∃ j, k = j + 1 := ⟨k - 1, by omega⟩
    have hnext := hrow.1.2.2
    rw [List.map_cons, List.map_nil, exchangeSort_cons_some rfl, exchangeSort]
    exact ⟨f, by simp [sortFrom, hnext, deref, bind, Except.bind], rfl, fun c _ => rfl⟩
  | cons b' bs ih =>
    obtain ⟨k, rfl⟩ : ∃ j, k = j + 1 := ⟨k - 1, by omega⟩
    obtain ⟨⟨hb, hb0, hnext⟩, hrow⟩ := hrow
    have hb'0 : b' ≠ NULL := hrow.1.2.1
    have hloop := exchangeFrom_pass hb hrow hnd hf hn
    rw [List.headD_cons] at hnext hloop
    have hstep : sortFrom trans n (withObj m f) b (k + 1) =
        (exchangeFrom trans (withObj m f) b b' n).bind fun m' =>
          (deref (My402ListNext m' b)).bind fun elem => sortFrom trans n m' elem k := by
      rw [sortFrom]
      simp only [withObj_next, hnext, deref, bind, Except.bind, if_neg hb'0]
    rw [List.map_cons]
    cases hpass : exchangePass (timeAt trans) (f b) ((b' :: bs).map f) with
    | none =>
      rw [hpass] at hloop
      have hloop : exchangeFrom trans (withObj m f) b b' n = _ := hloop
      rw [exchangeSort_cons_none hpass, hstep, hloop]
      rfl
    | some w =>
      obtain ⟨z, zs⟩ := w
      rw [hpass] at hloop
      obtain ⟨f₁, hloop, hobjs, hrest⟩ := hloop
      obtain ⟨hz, hzs⟩ : f₁ b = z ∧ (b' :: bs).map f₁ = zs := List.cons.inj hobjs
      -- the objects are those that the pass was given, in another order
      have hf₁ : ∀ c ∈ b' :: bs, f₁ c < trans.length := by
        intro c hc
        have hmem : f₁ c ∈ f b :: (b' :: bs).map f := by
          rw [← (exchangePass_perm hpass).mem_iff, ← hzs]
          exact List.mem_cons_of_mem _ (List.mem_map_of_mem hc)
        rw [← List.map_cons] at hmem
        obtain ⟨c', hc', he⟩ := List.mem_map.1 hmem
        rw [← he]
        exact hf c' hc'
      have hsort := ih hrow (List.nodup_cons.1 hnd).2 hf₁ (by simp at hn; omega) (by simp at hk; omega)
      rw [exchangeSort_cons_some hpass, hstep, hloop, ← hzs]
      simp only [Except.bind, withObj_next, hnext, deref]
      cases hrec : exchangeSort (timeAt trans) ((b' :: bs).map f₁) with
      | none =>
        rw [hrec] at hsort
        exact hsort
      | some rest =>
        rw [hrec] at hsort
        obtain ⟨f', hloop', hobjs', hrest'⟩ := hsort
        refine ⟨f', hloop', ?_, fun c hc => ?_⟩
        · rw [List.map_cons, hrest' b (List.nodup_cons.1 hnd).1, hz, hobjs']
        · rw [hrest' c (fun h => hc (List.mem_cons_of_mem _ h)), hrest c hc]

/-! ## The result -/

/-- The times of the transactions in the list. -/
def times (trans : List Transaction) (l : List (Nat × Nat)) : List Int := l.map fun x => timeAt trans x.2

theorem times_eq : times trans l = (l.map Prod.snd).map (timeAt trans) := by
  rw [times, List.map_map]
  rfl

/-- Each element of the list has a transaction. -/
def HasTrans (trans : List Transaction) (l : List (Nat × Nat)) : Prop := ∀ x ∈ l, x.2 < trans.length

/-- The elements `bs`, with the objects `f`. -/
def placed (f : Nat → Nat) (bs : List Nat) : List (Nat × Nat) := bs.map fun a => (a, f a)

@[simp] theorem placed_fst : (placed f bs).map Prod.fst = bs := by
  rw [placed, List.map_map]
  exact List.map_id bs

@[simp] theorem placed_snd : (placed f bs).map Prod.snd = bs.map f := by
  rw [placed, List.map_map]
  rfl

theorem holds_withObj (h : Holds m l) (f : Nat → Nat) : Holds (withObj m f) (placed f (l.map Prod.fst)) where
  ring := by
    rw [placed_fst]
    exact h.ring
  live := by
    rw [placed_fst]
    exact h.live
  null := h.null
  objs := by
    intro x hx
    obtain ⟨a, -, rfl⟩ := List.mem_map.1 hx
    rfl
  count := by
    rw [placed, List.length_map, List.length_map]
    exact h.count

/-- The loops of `sorting`, seen as a sort of the objects. -/
theorem sorting_sort (h : Holds m l) (hne : l ≠ []) (ht : HasTrans trans l) (hn : l.length < n) :
    Leaves m m.obj (l.map Prod.fst) (sorting trans n m) (exchangeSort (timeAt trans) (l.map Prod.snd)) := by
  obtain ⟨x, xs, rfl⟩ := List.exists_cons_of_ne_nil hne
  have hobj : ∀ c ∈ (x :: xs).map Prod.fst, m.obj c < trans.length := by
    intro c hc
    obtain ⟨y, hy, rfl⟩ := List.mem_map.1 hc
    rw [h.objs y hy]
    exact ht y hy
  have hlen : (xs.map Prod.fst).length < n := by
    simp at hn ⊢
    omega
  have hsort := sortFrom_sort (holds_row h) (List.nodup_cons.1 h.ring.once).2 hobj hlen hlen
  have hstart : sorting trans n m = sortFrom trans n (withObj m m.obj) x.1 n := by
    simp only [sorting, holds_first h, deref, bind, Except.bind, List.map_cons, List.headD_cons]
    rfl
  rw [hstart, ← h.objs_map]
  exact hsort

/-- With distinct times the list is sorted in its places; otherwise the program says so and ends. -/
theorem sorting_correct (h : Holds m l) (hne : l ≠ []) (ht : HasTrans trans l) (hn : l.length < n) :
    ((times trans l).Nodup → ∃ f l', sorting trans n m = .ok { m with obj := f } ∧ (∀ a, a ∉ l.map Prod.fst → f a = m.obj a) ∧
      Holds { m with obj := f } l' ∧ l'.map Prod.fst = l.map Prod.fst ∧ (l'.map Prod.snd).Perm (l.map Prod.snd) ∧
      (times trans l').Pairwise (· < ·)) ∧
    (¬ (times trans l).Nodup → sorting trans n m = .error (.exit "Duplicate timestamp values\n")) := by
  have hsort := sorting_sort h hne ht hn
  rw [times_eq, ← exchangeSort_isSome_iff]
  cases hzs : exchangeSort (timeAt trans) (l.map Prod.snd) with
  | none =>
    rw [hzs] at hsort
    exact ⟨fun h => absurd h (by simp), fun _ => hsort⟩
  | some zs =>
    rw [hzs] at hsort
    obtain ⟨f, hrun, rfl, hrest⟩ := hsort
    obtain ⟨hperm, hlt⟩ := exchangeSort_sorts hzs
    refine ⟨fun _ => ?_, fun h => absurd rfl h⟩
    refine ⟨f, placed f (l.map Prod.fst), hrun, hrest, holds_withObj h f, placed_fst, ?_, ?_⟩
    · rwa [placed_snd]
    · rwa [times_eq, placed_snd]

/-- Two elements, at 2 and 3 after the anchor. -/
def pair : Memory where
  live a := a == 1 || a == 2 || a == 3
  obj a := a - 2
  links := ⟨fun a => if a = 3 then 1 else a + 1, fun a => if a = 1 then 3 else a - 1⟩
  num_members := 2
  anchor := 1

theorem pair_holds : Holds pair [(2, 0), (3, 1)] := by
  refine ⟨⟨?_, by decide⟩, by decide, by decide, by decide, rfl⟩
  exact ⟨rfl, rfl, rfl, rfl, rfl, rfl⟩

def deposit (time : Int) : Transaction := ⟨'+', time, 100, ['x']⟩

/-- The later time comes first, and is exchanged; the same time twice is not sorted. -/
theorem pair_sorted :
    (∃ f l', sorting [deposit 9, deposit 4] 3 pair = .ok { pair with obj := f } ∧ l'.map Prod.fst = [2, 3] ∧
      Holds { pair with obj := f } l' ∧ (times [deposit 9, deposit 4] l').Pairwise (· < ·)) ∧
    sorting [deposit 4, deposit 4] 3 pair = .error (.exit "Duplicate timestamp values\n") := by
  constructor
  · obtain ⟨f, l', hrun, -, hholds, haddr, -, hlt⟩ :=
      (@sorting_correct pair [(2, 0), (3, 1)] [deposit 9, deposit 4] 3 pair_holds (by decide) (by unfold HasTrans; decide)
        (by decide)).1 (by decide)
    exact ⟨f, l', hrun, haddr, hholds, hlt⟩
  · exact (sorting_correct pair_holds (by decide) (by unfold HasTrans; decide) (by decide)).2 (by decide)

end Weenix.My402Sort
