import Weenix.Warmup.My402List
/-!
# Several lists in one heap

A program has any number of lists, each known by the address of its anchor. A
call on one of them writes to the anchor and the elements of that list only, and
to what `malloc` has just given it, so every list goes its own way.
-/

namespace Weenix.My402List
open Lib

structure Heap where
  live : Nat → Bool
  obj : Nat → Nat
  links : Links Nat
  /-- Of the list with the anchor. -/
  num_members : Nat → Int

namespace Heap

variable (h : Heap)

/-- What the calls on the list with the anchor `a` see. -/
def view (a : Nat) : Memory := ⟨h.live, h.obj, h.links, h.num_members a, a⟩

def store (m : Memory) : Heap := ⟨m.live, m.obj, m.links, Function.update h.num_members m.anchor m.num_members⟩

def run (a : Nat) (c : Call) : Option (Heap × Bool) := (c.run (h.view a)).map fun (m, r) => (h.store m, r)

end Heap

/-- The list that each anchor has. -/
abbrev Contents := Nat → Option (List (Nat × Nat))

/-- Each list is in the heap, and no two have an address in common. -/
structure Apart (h : Heap) (ls : Contents) : Prop where
  holds : ∀ a l, ls a = some l → Holds (h.view a) l
  apart : ∀ a b l l', ls a = some l → ls b = some l' → a ≠ b → ∀ x ∈ a :: l.map Prod.fst, x ∉ b :: l'.map Prod.fst
  null : h.live NULL = false

/-- The anchor of a list that is made is allocated, and no other list has it. -/
def Allowed (s : Heap × Contents) : Nat × Call → Prop
  | (a, .init) => s.1.live a = true ∧ ∀ b l, s.2 b = some l → a ∉ l.map Prod.fst
  | (a, c) => ∃ l, s.2 a = some l ∧ c.Legal (s.1.view a) l

/-- A call on a list, with what it does to that list beside it. -/
def callStep (s : Heap × Contents) : Nat × Call → Option ((Heap × Contents) × Bool)
  | (a, c) => (s.1.run a c).map fun (h, r) => ((h, Function.update s.2 a (some (c.spec ((s.2 a).getD [])).1)), r)

variable {m m' : Memory} {h h' : Heap} {ls : Contents} {l l' : List (Nat × Nat)} {a b c e r obj n : Nat}

/-! ## What a call writes to -/

/-- Addresses outside `S` hold what they held. -/
structure Untouched (S : Nat → Prop) (m m' : Memory) : Prop where
  anchor : m'.anchor = m.anchor
  live : ∀ x, ¬ S x → m'.live x = m.live x
  obj : ∀ x, ¬ S x → m'.obj x = m.obj x
  next : ∀ x, ¬ S x → m'.links.next x = m.links.next x
  prev : ∀ x, ¬ S x → m'.links.prev x = m.links.prev x

namespace Untouched

variable {S T : Nat → Prop} {m₁ : Memory}

theorem refl (m : Memory) : Untouched S m m := ⟨rfl, fun _ _ => rfl, fun _ _ => rfl, fun _ _ => rfl, fun _ _ => rfl⟩

theorem trans (h1 : Untouched S m m₁) (h2 : Untouched S m₁ m') : Untouched S m m' :=
  ⟨h2.anchor.trans h1.anchor, fun x hx => (h2.live x hx).trans (h1.live x hx), fun x hx => (h2.obj x hx).trans (h1.obj x hx),
    fun x hx => (h2.next x hx).trans (h1.next x hx), fun x hx => (h2.prev x hx).trans (h1.prev x hx)⟩

theorem mono (h : Untouched S m m') (hST : ∀ x, S x → T x) : Untouched T m m' :=
  ⟨h.anchor, fun x hx => h.live x fun hs => hx (hST x hs), fun x hx => h.obj x fun hs => hx (hST x hs),
    fun x hx => h.next x fun hs => hx (hST x hs), fun x hx => h.prev x fun hs => hx (hST x hs)⟩

/-! Writing at one address. -/

theorem setObj_untouched {p x : Nat} (h : m.setObj p x = some m') (hp : S p) : Untouched S m m' := by
  obtain ⟨-, ⟨⟩⟩ := Option.ite_none_right_eq_some.1 h
  exact ⟨rfl, fun _ _ => rfl, fun y hy => Function.update_of_ne (fun e : y = p => hy (e ▸ hp)) .., fun _ _ => rfl, fun _ _ => rfl⟩

theorem setNext_untouched {p x : Nat} (h : m.setNext p x = some m') (hp : S p) : Untouched S m m' := by
  obtain ⟨-, ⟨⟩⟩ := Option.ite_none_right_eq_some.1 h
  exact ⟨rfl, fun _ _ => rfl, fun _ _ => rfl, fun y hy => Function.update_of_ne (fun e : y = p => hy (e ▸ hp)) .., fun _ _ => rfl⟩

theorem setPrev_untouched {p x : Nat} (h : m.setPrev p x = some m') (hp : S p) : Untouched S m m' := by
  obtain ⟨-, ⟨⟩⟩ := Option.ite_none_right_eq_some.1 h
  exact ⟨rfl, fun _ _ => rfl, fun _ _ => rfl, fun _ _ => rfl, fun y hy => Function.update_of_ne (fun e : y = p => hy (e ▸ hp)) ..⟩

theorem free_untouched {p : Nat} (h : m.free p = some m') (hp : S p) : Untouched S m m' := by
  obtain ⟨-, ⟨⟩⟩ := Option.ite_none_right_eq_some.1 h
  exact ⟨rfl, fun y hy => Function.update_of_ne (fun e : y = p => hy (e ▸ hp)) .., fun _ _ => rfl, fun _ _ => rfl, fun _ _ => rfl⟩

end Untouched

/-- The anchor and the elements of the list, and an address that is new. -/
def Touches (a r : Nat) (l : List (Nat × Nat)) (x : Nat) : Prop := x ∈ a :: l.map Prod.fst ∨ x = r

theorem Linked.untouched (hl : Linked m m' b r obj) (h : Holds m l) (hb : b ∈ m.anchor :: l.map Prod.fst) :
    Untouched (Touches m.anchor r l) m m' := by
  have hprev := h.ring.prev_mem_of hb
  have hne {x y : Nat} (hx : ¬ Touches m.anchor r l x) (hy : y ∈ m.anchor :: l.map Prod.fst) : x ≠ y := fun e => hx (.inl (e ▸ hy))
  have hnew {x : Nat} (hx : ¬ Touches m.anchor r l x) : x ≠ r := fun e => hx (.inr e)
  refine ⟨hl.anchor, fun x hx => ?_, fun x hx => ?_, fun x hx => ?_, fun x hx => ?_⟩
  · rw [hl.live, Function.update_of_ne (hnew hx)]
  · rw [hl.obj, Function.update_of_ne (hnew hx)]
  · rw [hl.links]
    exact Links.insertBefore_next (hne hx hprev) (hnew hx)
  · rw [hl.links]
    exact Links.insertBefore_prev (hne hx hb) (hnew hx)

theorem Unlinked.untouched (hu : Unlinked m m' e) (h : Holds m l) (he : e ∈ l.map Prod.fst) (r : Nat) :
    Untouched (Touches m.anchor r l) m m' := by
  have hmem : e ∈ m.anchor :: l.map Prod.fst := List.mem_cons_of_mem _ he
  have hne {x y : Nat} (hx : ¬ Touches m.anchor r l x) (hy : y ∈ m.anchor :: l.map Prod.fst) : x ≠ y := fun e => hx (.inl (e ▸ hy))
  refine ⟨hu.anchor, fun x hx => ?_, fun x hx => hu.obj x (hne hx hmem), fun x hx => ?_, fun x hx => ?_⟩
  · rw [hu.live, Function.update_of_ne (hne hx hmem)]
  · rw [hu.next x (hne hx hmem)]
    exact Function.update_of_ne (hne hx (h.ring.prev_mem_of hmem)) ..
  · rw [hu.prev x (hne hx hmem)]
    exact Function.update_of_ne (hne hx (h.ring.next_mem hmem)) ..

theorem init_untouched {x : Bool} (hi : My402ListInit m = some (m', x)) (r : Nat) (l : List (Nat × Nat)) :
    Untouched (Touches m.anchor r l) m m' := by
  have ha : Touches m.anchor r l m.anchor := .inl List.mem_cons_self
  simp only [My402ListInit, bind, Option.bind_eq_some_iff, Option.some.injEq, Prod.mk.injEq] at hi
  obtain ⟨m₁, h1, m₂, h2, m₃, h3, rfl, -⟩ := hi
  have u1 := Untouched.setObj_untouched h1 ha
  have u2 := u1.trans (Untouched.setNext_untouched h2 (by rwa [u1.anchor]))
  have u3 := u2.trans (Untouched.setPrev_untouched h3 (by rwa [u2.anchor]))
  exact ⟨u3.anchor, u3.live, u3.obj, u3.next, u3.prev⟩

/-- The element that one turn of the loop frees. -/
theorem unlinkFrom_turn {t : Nat} (hc : c ≠ m.anchor) (hm : unlinkFrom m c t (n + 1) = some m') :
    ∃ m₁, Untouched (fun x => x = c) m m₁ ∧ ∃ t', m₁.next t = some t' ∧ unlinkFrom m₁ t t' n = some m' := by
  simp only [unlinkFrom, if_neg hc, bind, Option.bind_eq_some_iff] at hm
  obtain ⟨m₁, h1, m₂, h2, m₃, h3, m₄, h4, t', ht', hm⟩ := hm
  have u1 := (Untouched.setNext_untouched (S := fun x => x = c) h1 rfl).trans (Untouched.setPrev_untouched h2 rfl)
  have u2 := (u1.trans (Untouched.setObj_untouched h3 rfl)).trans (Untouched.free_untouched h4 rfl)
  exact ⟨m₄, u2, t', ht', hm⟩

/-- The loop writes to the elements that it frees. -/
theorem unlinkFrom_untouched : ∀ {rest : List Nat} {m : Memory} {c n : Nat}, m.links.Path c rest m.anchor → (c :: rest).Nodup →
    m.anchor ∉ c :: rest → unlinkFrom m c (m.links.next c) n = some m' → Untouched (fun x => x ∈ c :: rest) m m' := by
  intro rest
  induction rest with
  | nil =>
    intro m c n hp hnd hanchor hm
    cases n with
    | zero => cases hm
    | succ n =>
      obtain ⟨m₁, hu, t', -, hm⟩ := unlinkFrom_turn (fun e => hanchor (by simp [e])) hm
      have hend : m.links.next c = m₁.anchor := hp.1.trans hu.anchor.symm
      cases n with
      | zero => cases hm
      | succ n =>
        rw [unlinkFrom, if_pos hend] at hm
        cases hm
        exact hu.mono fun x hx => by simp [hx]
  | cons d rest ih =>
    intro m c n hp hnd hanchor hm
    cases n with
    | zero => cases hm
    | succ n =>
      obtain ⟨hcd, hnd'⟩ := List.nodup_cons.1 hnd
      rw [List.mem_cons, not_or] at hanchor
      obtain ⟨m₁, hu, t', ht', hm⟩ := unlinkFrom_turn (Ne.symm hanchor.1) hm
      obtain ⟨hnext, -, hp⟩ := hp
      have hne {x : Nat} (hx : x ∈ d :: rest) : x ≠ c := fun e => hcd (e ▸ hx)
      have hp₁ : m₁.links.Path d rest m₁.anchor := by
        rw [hu.anchor]
        exact hp.congr (fun y hy => hu.next y (hne hy)) (fun y hy => hu.prev y (hne (List.mem_cons_of_mem d hy)))
          (hu.prev _ hanchor.1)
      rw [hnext] at ht' hm
      rw [Memory.next] at ht'
      split at ht' <;> cases ht'
      exact (hu.mono fun x hx => by simp [hx]).trans ((ih hp₁ hnd' (by rw [hu.anchor]; exact hanchor.2) hm).mono
        fun x hx => List.mem_cons_of_mem _ hx)

theorem init_live {x : Bool} (hi : My402ListInit m = some (m', x)) : m'.live = m.live := by
  simp only [My402ListInit, Memory.setObj, Memory.setNext, Memory.setPrev, bind, Option.bind_eq_some_iff, Option.some.injEq,
    Prod.mk.injEq, Option.ite_none_right_eq_some] at hi
  obtain ⟨m₁, ⟨-, rfl⟩, m₂, ⟨-, rfl⟩, m₃, ⟨-, rfl⟩, rfl, -⟩ := hi
  rfl

theorem unlinkAll_effect (h : Holds m l) (hm : My402ListUnlinkAll m n = some m') (hn : l.length < n) (r : Nat) :
    Untouched (Touches m.anchor r l) m m' ∧ ∀ y, m'.live y = true ↔ m.live y = true ∧ y ∉ l.map Prod.fst := by
  have hring := h.ring
  have hlive := h.live
  simp only [My402ListUnlinkAll, Memory.next, bind, Option.bind_eq_some_iff, Option.some.injEq, Prod.exists] at hm
  obtain ⟨e, he, t, ht, m₁, hloop, m₂, x, hinit, rfl⟩ := hm
  obtain ⟨-, ⟨⟩⟩ := Option.ite_none_right_eq_some.1 he
  obtain ⟨-, ⟨⟩⟩ := Option.ite_none_right_eq_some.1 ht
  obtain ⟨hu, hfreed⟩ : Untouched (Touches m.anchor r l) m m₁ ∧ ∀ y, m₁.live y = true ↔ m.live y = true ∧ y ∉ l.map Prod.fst := by
    obtain ⟨n, rfl⟩ : ∃ k, n = k + 1 := ⟨n - 1, by omega⟩
    cases hl : l.map Prod.fst with
    | nil =>
      have hnext : m.links.next m.anchor = m.anchor := by
        have := hring.path
        rw [hl] at this
        exact this.1
      rw [unlinkFrom, if_pos hnext] at hloop
      cases hloop
      exact ⟨.refl m, fun y => by simp⟩
    | cons c rest =>
      have hp := hring.path
      have hnd := hring.once
      rw [hl] at hp hnd hlive
      obtain ⟨hnext, -, hp⟩ := hp
      obtain ⟨hanchor, hnd⟩ := List.nodup_cons.1 hnd
      rw [hnext] at hloop
      have hlen : rest.length + 1 < n + 1 := by
        rw [← List.length_map (f := Prod.fst), hl] at hn
        exact hn
      obtain ⟨m₁', hloop', -, hfreed⟩ := unlinkFrom_frees hp hnd hanchor hlive hlen
      cases hloop.symm.trans hloop'
      refine ⟨(unlinkFrom_untouched hp hnd hanchor hloop).mono fun x hx => .inl ?_, hfreed⟩
      rw [hl]
      exact List.mem_cons_of_mem _ hx
  have hi := init_untouched hinit r l
  rw [hu.anchor] at hi
  exact ⟨hu.trans hi, fun y => by rw [init_live hinit]; exact hfreed y⟩

/-- The address that the call has from `malloc`. -/
def Call.new : Call → Nat
  | .append _ newlist | .prepend _ newlist | .insertAfter _ _ newlist | .insertBefore _ _ newlist => newlist
  | _ => NULL

/-- What a call on a list that has been made does to the memory. -/
inductive CallEffect (m : Memory) (l : List (Nat × Nat)) (c : Call) : Memory → Prop
  | same : (c.spec l).1 = l → CallEffect m l c m
  | linked {m' : Memory} {b obj : Nat} : Linked m m' b c.new obj → b ∈ m.anchor :: l.map Prod.fst →
      (c.spec l).1.Perm ((c.new, obj) :: l) → CallEffect m l c m'
  | unlinked {m' : Memory} {e : Nat} : Unlinked m m' e → e ∈ l.map Prod.fst → (c.spec l).1 = l.filter (fun x => x.1 ≠ e) →
      CallEffect m l c m'
  | emptied {m' : Memory} : Untouched (Touches m.anchor c.new l) m m' → (∀ y, m'.live y = true ↔ m.live y = true ∧ y ∉ l.map Prod.fst) →
      (c.spec l).1 = [] → CallEffect m l c m'

theorem append_effect {c : Call} {x : Bool} (h : Holds m l) (hr : c.new = NULL ∨ m.live c.new = false)
    (hspec : c.spec l = (Call.append obj c.new).spec l) (hrun : My402ListAppend m obj c.new = some (m', x)) : CallEffect m l c m' := by
  by_cases hr0 : c.new = NULL
  · rw [My402ListAppend, if_pos hr0] at hrun
    cases hrun
    exact .same (by rw [hspec, Call.spec, if_pos hr0])
  · obtain ⟨m₁, h1, hl⟩ := append_linked h hr0 (hr.resolve_left hr0) obj
    cases hrun.symm.trans h1
    refine .linked hl List.mem_cons_self ?_
    rw [hspec, Call.spec, if_neg hr0]
    exact List.perm_append_singleton _ _

theorem prepend_effect {c : Call} {x : Bool} (h : Holds m l) (hr : c.new = NULL ∨ m.live c.new = false)
    (hspec : c.spec l = (Call.prepend obj c.new).spec l) (hrun : My402ListPrepend m obj c.new = some (m', x)) : CallEffect m l c m' := by
  by_cases hr0 : c.new = NULL
  · rw [My402ListPrepend, if_pos hr0] at hrun
    cases hrun
    exact .same (by rw [hspec, Call.spec, if_pos hr0])
  · obtain ⟨m₁, h1, hl⟩ := prepend_linked h hr0 (hr.resolve_left hr0) obj
    cases hrun.symm.trans h1
    refine .linked hl (h.ring.next_mem List.mem_cons_self) ?_
    rw [hspec, Call.spec, if_neg hr0]

theorem call_effect {c : Call} {x : Bool} (h : Holds m l) (hc : c.Legal m l) (hinit : c ≠ .init) (hrun : c.run m = some (m', x)) :
    CallEffect m l c m' := by
  cases c with
  | init => exact absurd rfl hinit
  | append obj r => exact append_effect h hc rfl hrun
  | prepend obj r => exact prepend_effect h hc rfl hrun
  | insertAfter obj e r =>
    by_cases he : e = NULL
    · rw [Call.run, My402ListInsertAfter, if_pos he] at hrun
      refine append_effect h hc.1 ?_ hrun
      simp only [Call.spec, if_pos he]
      rfl
    by_cases hr0 : r = NULL
    · rw [Call.run, My402ListInsertAfter, if_neg he, if_pos hr0] at hrun
      cases hrun
      exact .same (by rw [Call.spec, if_pos hr0])
    · have hmem := hc.2.resolve_left he
      obtain ⟨m₁, h1, hl⟩ := insertAfter_linked h hmem hr0 (hc.1.resolve_left hr0) obj
      cases hrun.symm.trans h1
      refine .linked hl (h.ring.next_mem (List.mem_cons_of_mem _ hmem)) ?_
      obtain ⟨l₁, o, l₂, rfl, hnot, -⟩ := h.split hmem
      rw [Call.spec, if_neg hr0, if_neg he, insertAfter_split hnot]
      have hp : (l₁ ++ [(e, o)] ++ (r, obj) :: l₂).Perm _ := List.perm_middle
      simpa only [List.append_assoc, List.singleton_append, Call.new] using hp
  | insertBefore obj e r =>
    by_cases he : e = NULL
    · rw [Call.run, My402ListInsertBefore, if_pos he] at hrun
      refine prepend_effect h hc.1 ?_ hrun
      simp only [Call.spec, if_pos he]
      rfl
    by_cases hr0 : r = NULL
    · rw [Call.run, My402ListInsertBefore, if_neg he, if_pos hr0] at hrun
      cases hrun
      exact .same (by rw [Call.spec, if_pos hr0])
    · have hmem := hc.2.resolve_left he
      obtain ⟨m₁, h1, hl⟩ := insertBefore_linked h hmem hr0 (hc.1.resolve_left hr0) obj
      cases hrun.symm.trans h1
      refine .linked hl (List.mem_cons_of_mem _ hmem) ?_
      obtain ⟨l₁, o, l₂, rfl, hnot, -⟩ := h.split hmem
      rw [Call.spec, if_neg hr0, if_neg he, insertBefore_split hnot]
      exact List.perm_middle
  | unlink e =>
    obtain ⟨m₁, h1, hu⟩ := unlink_unlinked h hc
    rw [Call.run, h1] at hrun
    cases hrun
    exact .unlinked hu hc rfl
  | unlinkAll n =>
    obtain ⟨m₁, h1, he⟩ := Option.map_eq_some_iff.1 hrun
    cases he
    obtain ⟨hu, hfreed⟩ := unlinkAll_effect h h1 hc NULL
    exact .emptied hu hfreed rfl

namespace CallEffect

variable {c : Call}

theorem untouched (he : CallEffect m l c m') (h : Holds m l) : Untouched (Touches m.anchor c.new l) m m' := by
  cases he with
  | same => exact .refl m
  | linked hl hb => exact hl.untouched h hb
  | unlinked hu hmem => exact hu.untouched h hmem c.new
  | emptied hu => exact hu

/-- A call puts in no element but the new one. -/
theorem mem (he : CallEffect m l c m') {y : Nat × Nat} (hy : y ∈ (c.spec l).1) : y ∈ l ∨ y.1 = c.new := by
  cases he with
  | same hs =>
    rw [hs] at hy
    exact .inl hy
  | linked _ _ hp => exact (List.mem_cons.1 (hp.mem_iff.1 hy)).symm.imp_right fun e => by rw [e]
  | unlinked _ _ hs =>
    rw [hs] at hy
    exact .inl (List.mem_of_mem_filter hy)
  | emptied _ _ hs =>
    rw [hs] at hy
    cases hy

/-- What else is allocated stays so. -/
theorem others (he : CallEffect m l c m') (h : Holds m l) (hnew : m.live c.new = false) (y : Nat) :
    (m'.live y = true ∧ y ∉ (c.spec l).1.map Prod.fst) ↔ (m.live y = true ∧ y ∉ l.map Prod.fst) := by
  have hlive : y ∈ l.map Prod.fst → m.live y = true := fun hy => h.live y (List.mem_cons_of_mem _ hy)
  cases he with
  | same hs => rw [hs]
  | linked hl _ hp =>
    rw [hl.live, (hp.map Prod.fst).mem_iff, List.map_cons, List.mem_cons]
    by_cases e : y = c.new
    · simp [e, hnew]
    · rw [Function.update_of_ne e]
      tauto
  | @unlinked _ e hu hmem hs =>
    have hin : y ∈ (l.filter fun x => x.1 ≠ e).map Prod.fst ↔ y ∈ l.map Prod.fst ∧ y ≠ e := by
      simp only [List.mem_map, List.mem_filter, decide_eq_true_eq]
      constructor
      · rintro ⟨z, ⟨hz, hne⟩, rfl⟩
        exact ⟨⟨z, hz, rfl⟩, hne⟩
      · rintro ⟨⟨z, hz, rfl⟩, hne⟩
        exact ⟨z, ⟨hz, hne⟩, rfl⟩
    rw [hu.live, hs, hin]
    by_cases ey : y = e
    · subst ey
      rw [Function.update_self]
      tauto
    · rw [Function.update_of_ne ey]
      tauto
  | emptied _ hfreed hs =>
    rw [hfreed, hs]
    simp

end CallEffect

/-! ## All lists -/

theorem store_view (h : Heap) (m : Memory) : (h.store m).view m.anchor = m := by
  simp only [Heap.view, Heap.store, Function.update_self]

/-- What is written in and around one list leaves the others as they are. -/
theorem Apart.write (hA : Apart h ls) (hm : Holds m l') (hr : h.live r = false) (hw : Untouched (Touches m.anchor r l) (h.view m.anchor) m)
    (hother : ∀ b lb, ls b = some lb → b ≠ m.anchor → ∀ x ∈ m.anchor :: l.map Prod.fst, x ∉ b :: lb.map Prod.fst)
    (hsub : ∀ y ∈ l', y ∈ l ∨ y.1 = r) : Apart (h.store m) (Function.update ls m.anchor (some l')) := by
  -- an element of another list is not written to
  have hout {b x : Nat} {lb : List (Nat × Nat)} (hb : ls b = some lb) (hne : b ≠ m.anchor) (hx : x ∈ b :: lb.map Prod.fst) :
      ¬ Touches m.anchor r l x := by
    rintro (hin | rfl)
    · exact hother b lb hb hne x hin hx
    · have hlive : h.live x = true := (hA.holds b lb hb).live x hx
      rw [hr] at hlive
      cases hlive
  have hin {b x : Nat} {lb : List (Nat × Nat)} (hb : ls b = some lb) (hne : b ≠ m.anchor) (hx : x ∈ m.anchor :: l'.map Prod.fst) :
      x ∉ b :: lb.map Prod.fst := fun hxb => by
    refine hout hb hne hxb ?_
    rcases List.mem_cons.1 hx with rfl | hx
    · exact .inl List.mem_cons_self
    · obtain ⟨y, hy, rfl⟩ := List.mem_map.1 hx
      exact (hsub y hy).imp_left fun hy => List.mem_cons_of_mem _ (List.mem_map_of_mem hy)
  refine ⟨fun b lb hb => ?_, fun b c lb lc hb hc hne => ?_, hm.null⟩
  · by_cases e : b = m.anchor
    · subst e
      rw [Function.update_self] at hb
      cases hb
      rw [store_view]
      exact hm
    · rw [Function.update_of_ne e] at hb
      have hH := hA.holds b lb hb
      have hsame {x : Nat} (hx : x ∈ b :: lb.map Prod.fst) := hout hb e hx
      refine ⟨hH.ring.congr (fun y hy => hw.next y (hsame hy)) fun y hy => hw.prev y (hsame hy),
        fun x hx => (hw.live x (hsame hx)).trans (hH.live x hx), hm.null,
        fun x hx => (hw.obj x.1 (hsame (List.mem_cons_of_mem _ (List.mem_map_of_mem hx)))).trans (hH.objs x hx), ?_⟩
      exact (Function.update_of_ne e ..).trans hH.count
  · by_cases eb : b = m.anchor
    · subst eb
      rw [Function.update_self] at hb
      cases hb
      rw [Function.update_of_ne (Ne.symm hne)] at hc
      exact fun x hx => hin hc (Ne.symm hne) hx
    rw [Function.update_of_ne eb] at hb
    by_cases ec : c = m.anchor
    · subst ec
      rw [Function.update_self] at hc
      cases hc
      exact fun x hx hxc => hin hb eb hxc hx
    · rw [Function.update_of_ne ec] at hc
      exact hA.apart b c lb lc hb hc hne

theorem Apart.legal_new (hA : Apart h ls) {c : Call} (hc : c.Legal (h.view a) l) : h.live c.new = false := by
  have hnew {r : Nat} (hr : r = NULL ∨ (h.view a).live r = false) : h.live r = false := by
    rcases hr with rfl | hr
    · exact hA.null
    · exact hr
  cases c with
  | append => exact hnew hc
  | prepend => exact hnew hc
  | insertAfter => exact hnew hc.1
  | insertBefore => exact hnew hc.1
  | _ => exact hA.null

/-- A call on one of the lists. -/
theorem Apart.call (hA : Apart h ls) (hl : ls a = some l) {c : Call} (hc : c.Legal (h.view a) l) (hinit : c ≠ .init) :
    ∃ h', h.run a c = some (h', (c.spec l).2) ∧ Apart h' (Function.update ls a (some (c.spec l).1)) ∧
      ∀ y, (h'.live y = true ∧ y ∉ (c.spec l).1.map Prod.fst) ↔ (h.live y = true ∧ y ∉ l.map Prod.fst) := by
  have hH := hA.holds a l hl
  obtain ⟨m', hm', h'⟩ := call_refines hH hc
  have he := call_effect hH hc hinit hm'
  have hw := he.untouched hH
  obtain rfl : m'.anchor = a := hw.anchor
  refine ⟨_, by rw [Heap.run, hm']; rfl, ?_, he.others hH (hA.legal_new hc)⟩
  exact hA.write h' (hA.legal_new hc) hw (fun b lb hb hne => hA.apart _ b l lb hl hb (Ne.symm hne)) fun y hy => he.mem hy

/-- A list is made. -/
theorem Apart.init (hA : Apart h ls) (ha : h.live a = true) (hnot : ∀ b l, ls b = some l → a ∉ l.map Prod.fst) :
    ∃ h', h.run a .init = some (h', true) ∧ Apart h' (Function.update ls a (some [])) ∧ h'.live = h.live := by
  obtain ⟨m', hm', h'⟩ := init_holds (m := h.view a) ha hA.null
  have hw := init_untouched hm' NULL []
  obtain rfl : m'.anchor = a := hw.anchor
  refine ⟨_, by rw [Heap.run, Call.run, hm']; rfl, ?_, init_live hm'⟩
  refine hA.write h' hA.null hw (fun b lb hb hne x hx hxb => ?_) fun y hy => by cases hy
  obtain rfl : x = m'.anchor := by simpa using hx
  rcases List.mem_cons.1 hxb with e | hxb
  · exact hne e.symm
  · exact hnot b lb hb hxb

theorem Apart.step (hA : Apart h ls) {x : Nat × Call} {s' : Heap × Contents} {w : Bool} (hx : Allowed (h, ls) x)
    (hst : callStep (h, ls) x = some (s', w)) : Apart s'.1 s'.2 := by
  obtain ⟨a, c⟩ := x
  obtain ⟨⟨h', r⟩, hrun, he⟩ := Option.map_eq_some_iff.1 hst
  cases he
  have hlegal (hc : ∃ l, ls a = some l ∧ c.Legal (h.view a) l) (hinit : c ≠ .init) :
      Apart h' (Function.update ls a (some (c.spec ((ls a).getD [])).1)) := by
    obtain ⟨l, hl, hc⟩ := hc
    obtain ⟨h₁, hrun', hA', -⟩ := hA.call hl hc hinit
    cases hrun.symm.trans hrun'
    rw [hl]
    exact hA'
  cases c with
  | init =>
    obtain ⟨h₁, hrun', hA', -⟩ := hA.init hx.1 hx.2
    cases hrun.symm.trans hrun'
    exact hA'
  | _ => exact hlegal hx (by simp)

theorem run_apart {h₀ : Heap} {tr : List ((Nat × Call) × Bool)} (h0 : h₀.live NULL = false)
    (hrun : Run callStep Allowed (h₀, fun _ => none) (h, ls) tr) : Apart h ls :=
  hrun.inv (fun s => Apart s.1 s.2) ⟨fun _ _ hl => (by cases hl), fun _ _ _ _ hl => (by cases hl), h0⟩
    fun _ _ _ _ hI hx hst => hI.step hx hst

/-- Two anchors, at the addresses 1 and 2. -/
def twoAnchors : Heap where
  live a := a == 1 || a == 2
  obj _ := 0
  links := ⟨fun _ => 0, fun _ => 0⟩
  num_members _ := 0

/-- With the lists at 1 and 2 made. -/
def twoEmpty : Heap × Contents := (⟨twoAnchors.live, Function.update (Function.update twoAnchors.obj 1 0) 2 0,
  ⟨Function.update (Function.update twoAnchors.links.next 1 1) 2 2, Function.update (Function.update twoAnchors.links.prev 1 1) 2 2⟩,
  Function.update (Function.update twoAnchors.num_members 1 0) 2 0⟩,
  Function.update (Function.update (fun _ => none) 1 (some [])) 2 (some []))

theorem two_made : Run callStep Allowed (twoAnchors, fun _ => none) twoEmpty [((1, .init), true), ((2, .init), true)] := by
  have h1 : Run callStep Allowed (twoAnchors, fun _ => none) _ [((1, .init), true)] :=
    Run.nil.snoc ⟨rfl, fun _ _ hb => by cases hb⟩ rfl
  refine h1.snoc ⟨rfl, fun b l hb => ?_⟩ rfl
  have hb : Function.update (fun _ => none : Contents) 1 (some []) b = some l := hb
  by_cases e : b = 1
  · rw [e, Function.update_self] at hb
    cases hb
    exact List.not_mem_nil
  · rw [Function.update_of_ne e] at hb
    cases hb

/-- The calls that need no look at other lists. -/
def allowed (s : Heap × Contents) : Nat × Call → Bool
  | (_, .init) => false
  | (a, c) => match s.2 a with
    | some l => decide (c.Legal (s.1.view a) l)
    | none => false

theorem allowed_sound (s : Heap × Contents) (x : Nat × Call) (h : allowed s x = true) : Allowed s x := by
  obtain ⟨a, c⟩ := x
  cases hl : s.2 a with
  | none => cases c <;> simp [allowed, hl] at h
  | some l => cases c <;> simp only [allowed, hl, decide_eq_true_eq, Bool.false_eq_true] at h <;> exact ⟨l, hl, h⟩

end Weenix.My402List
