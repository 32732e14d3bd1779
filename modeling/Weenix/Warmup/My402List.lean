import Weenix.Lib.Rings
import Weenix.Lib.Runs
/-!
# The list of warmup1 and warmup2 (`my402list.c`)

One list, in a memory of elements with addresses; the anchor is an element too.
What is read or written at an address that is not allocated has no result. Each
call that allocates is given what `malloc` returns. `num_members` does not
overflow: so many elements do not fit in an address space of 32 bits.

`Holds m l` says that the memory has the list `l` of addresses and objects; each
call does to `l` what `Call.spec` says.
-/

namespace Weenix.My402List
open Lib

def NULL : Nat := 0

structure Memory where
  live : Nat → Bool
  obj : Nat → Nat
  links : Links Nat
  num_members : Int
  /-- `&(list->anchor)`. -/
  anchor : Nat

namespace Memory

variable (m : Memory)

def getObj (p : Nat) : Option Nat := if m.live p then some (m.obj p) else none

def next (p : Nat) : Option Nat := if m.live p then some (m.links.next p) else none

def prev (p : Nat) : Option Nat := if m.live p then some (m.links.prev p) else none

def setObj (p x : Nat) : Option Memory := if m.live p then some { m with obj := Function.update m.obj p x } else none

def setNext (p x : Nat) : Option Memory :=
  if m.live p then some { m with links := { m.links with next := Function.update m.links.next p x } } else none

def setPrev (p x : Nat) : Option Memory :=
  if m.live p then some { m with links := { m.links with prev := Function.update m.links.prev p x } } else none

def malloc (p : Nat) : Memory := { m with live := Function.update m.live p true }

def free (p : Nat) : Option Memory := if m.live p then some { m with live := Function.update m.live p false } else none

end Memory

section
variable (m : Memory)

def My402ListLength : Int := m.num_members

def My402ListEmpty : Bool := m.num_members == 0

def My402ListInit : Option (Memory × Bool) := do
  let m := { m with num_members := 0 }
  let m ← m.setObj m.anchor NULL
  let m ← m.setNext m.anchor m.anchor
  let m ← m.setPrev m.anchor m.anchor
  some (m, true)

def My402ListFirst : Option Nat := if m.num_members = 0 then some NULL else m.next m.anchor

def My402ListLast : Option Nat := if m.num_members = 0 then some NULL else m.prev m.anchor

def My402ListNext (elem : Nat) : Option Nat := do
  let next ← m.next elem
  if next = m.anchor then some NULL else some next

def My402ListPrev (elem : Nat) : Option Nat := do
  let prev ← m.prev elem
  if prev = m.anchor then some NULL else some prev

/-- `newlist` is what `malloc` returns. -/
def My402ListAppend (obj newlist : Nat) : Option (Memory × Bool) :=
  if newlist = NULL then some (m, false)
  else do
    let m := m.malloc newlist
    let m := { m with num_members := m.num_members + 1 }
    let m ← m.setObj newlist obj
    let m ← m.setNext newlist m.anchor
    let m ← m.setPrev newlist (← m.prev m.anchor)
    let m ← m.setPrev m.anchor newlist
    let m ← m.setNext (← m.prev newlist) newlist
    some (m, true)

def My402ListPrepend (obj newlist : Nat) : Option (Memory × Bool) :=
  if newlist = NULL then some (m, false)
  else do
    let m := m.malloc newlist
    let m := { m with num_members := m.num_members + 1 }
    let m ← m.setObj newlist obj
    let m ← m.setNext newlist (← m.next m.anchor)
    let m ← m.setPrev newlist m.anchor
    let m ← m.setNext m.anchor newlist
    let m ← m.setPrev (← m.next newlist) newlist
    some (m, true)

def My402ListUnlink (elem : Nat) : Option Memory := do
  let m ← m.setNext (← m.prev elem) (← m.next elem)
  let m ← m.setPrev (← m.next elem) (← m.prev elem)
  let m ← m.setNext elem NULL
  let m ← m.setPrev elem NULL
  let m ← m.setObj elem NULL
  let m ← m.free elem
  some { m with num_members := m.num_members - 1 }

/-- The loop of `My402ListUnlinkAll`, for at most `n` turns. -/
def unlinkFrom (m : Memory) (elem temp : Nat) : Nat → Option Memory
  | 0 => none
  | n + 1 =>
    if elem = m.anchor then some m
    else do
      let m ← m.setNext elem NULL
      let m ← m.setPrev elem NULL
      let m ← m.setObj elem NULL
      let m ← m.free elem
      unlinkFrom m temp (← m.next temp) n

def My402ListUnlinkAll (n : Nat) : Option Memory := do
  let elem ← m.next m.anchor
  let temp ← m.next elem
  let m ← unlinkFrom m elem temp n
  let (m, _) ← My402ListInit m
  some m

def My402ListInsertAfter (obj elem newnode : Nat) : Option (Memory × Bool) :=
  if elem = NULL then My402ListAppend m obj newnode
  else if newnode = NULL then some (m, false)
  else do
    let m := m.malloc newnode
    let m := { m with num_members := m.num_members + 1 }
    let m ← m.setObj newnode obj
    let m ← m.setNext newnode (← m.next elem)
    let m ← m.setPrev newnode (← m.prev (← m.next elem))
    let m ← m.setPrev (← m.next elem) newnode
    let m ← m.setNext elem newnode
    some (m, true)

def My402ListInsertBefore (obj elem newnode : Nat) : Option (Memory × Bool) :=
  if elem = NULL then My402ListPrepend m obj newnode
  else if newnode = NULL then some (m, false)
  else do
    let m := m.malloc newnode
    let m := { m with num_members := m.num_members + 1 }
    let m ← m.setObj newnode obj
    let m ← m.setNext newnode elem
    let m ← m.setPrev newnode (← m.prev elem)
    let m ← m.setNext (← m.prev elem) newnode
    let m ← m.setPrev elem newnode
    some (m, true)

/-- The loop of `My402ListFind`, with the `length` that is left. -/
def findFrom (obj elem : Nat) : Nat → Option Nat
  | 0 => some NULL
  | length + 1 => do
    if (← m.getObj elem) = obj then some elem
    else findFrom obj (← m.next elem) length

/-- The loop does not end when the count is negative. -/
def My402ListFind (obj : Nat) : Option Nat :=
  if m.num_members < 0 then none
  else do findFrom m obj (← My402ListFirst m) m.num_members.toNat

/-! ## Traversals -/

/-- The objects seen by a loop that goes on with `step` until it gets `NULL`. -/
def collect (step : Nat → Option Nat) (elem : Nat) : Nat → Option (List Nat)
  | 0 => none
  | n + 1 =>
    if elem = NULL then some []
    else do
      let obj ← m.getObj elem
      let objs ← collect step (← step elem) n
      some (obj :: objs)

def forward (n : Nat) : Option (List Nat) := do collect m (My402ListNext m) (← My402ListFirst m) n

def backward (n : Nat) : Option (List Nat) := do collect m (My402ListPrev m) (← My402ListLast m) n

end

/-! ## Lists of addresses and objects -/

/-- `x` after the element `e`. -/
def insertAfter (e : Nat) (x : Nat × Nat) : List (Nat × Nat) → List (Nat × Nat)
  | [] => []
  | y :: l => if y.1 = e then y :: x :: l else y :: insertAfter e x l

def insertBefore (e : Nat) (x : Nat × Nat) : List (Nat × Nat) → List (Nat × Nat)
  | [] => []
  | y :: l => if y.1 = e then x :: y :: l else y :: insertBefore e x l

inductive Call
  | init
  | append (obj newlist : Nat)
  | prepend (obj newlist : Nat)
  | insertAfter (obj elem newnode : Nat)
  | insertBefore (obj elem newnode : Nat)
  | unlink (elem : Nat)
  /-- The loop takes at most `n` turns. -/
  | unlinkAll (n : Nat)

/-- A call that returns nothing is given `TRUE`. -/
def Call.run (m : Memory) : Call → Option (Memory × Bool)
  | init => My402ListInit m
  | append obj newlist => My402ListAppend m obj newlist
  | prepend obj newlist => My402ListPrepend m obj newlist
  | insertAfter obj elem newnode => My402ListInsertAfter m obj elem newnode
  | insertBefore obj elem newnode => My402ListInsertBefore m obj elem newnode
  | unlink elem => (My402ListUnlink m elem).map fun m => (m, true)
  | unlinkAll n => (My402ListUnlinkAll m n).map fun m => (m, true)

/-- What a call does to the list, and what it returns; without memory it does nothing. -/
def Call.spec (l : List (Nat × Nat)) : Call → List (Nat × Nat) × Bool
  | init => ([], true)
  | append obj newlist => if newlist = NULL then (l, false) else (l ++ [(newlist, obj)], true)
  | prepend obj newlist => if newlist = NULL then (l, false) else ((newlist, obj) :: l, true)
  | insertAfter obj elem newnode =>
    if newnode = NULL then (l, false)
    else if elem = NULL then (l ++ [(newnode, obj)], true)
    else (My402List.insertAfter elem (newnode, obj) l, true)
  | insertBefore obj elem newnode =>
    if newnode = NULL then (l, false)
    else if elem = NULL then ((newnode, obj) :: l, true)
    else (My402List.insertBefore elem (newnode, obj) l, true)
  | unlink elem => (l.filter fun x => x.1 ≠ elem, true)
  | unlinkAll _ => ([], true)

/-- `malloc` returns `NULL` or what is not allocated, and elements passed belong to the list. -/
def Call.Legal (m : Memory) (l : List (Nat × Nat)) : Call → Prop
  | init => True
  | append _ newlist | prepend _ newlist => newlist = NULL ∨ m.live newlist = false
  | insertAfter _ elem newnode | insertBefore _ elem newnode =>
    (newnode = NULL ∨ m.live newnode = false) ∧ (elem = NULL ∨ elem ∈ l.map Prod.fst)
  | unlink elem => elem ∈ l.map Prod.fst
  | unlinkAll n => l.length < n

instance (m : Memory) (l : List (Nat × Nat)) : DecidablePred (Call.Legal m l)
  | .init => inferInstanceAs (Decidable True)
  | .append _ _ | .prepend _ _ => inferInstanceAs (Decidable (_ ∨ _))
  | .insertAfter _ _ _ | .insertBefore _ _ _ => inferInstanceAs (Decidable (_ ∧ _))
  | .unlink _ => inferInstanceAs (Decidable (_ ∈ _))
  | .unlinkAll _ => inferInstanceAs (Decidable (_ < _))

/-- The memory has the list `l`. -/
structure Holds (m : Memory) (l : List (Nat × Nat)) : Prop where
  ring : m.links.Ring m.anchor (l.map Prod.fst)
  live : ∀ a ∈ m.anchor :: l.map Prod.fst, m.live a = true
  null : m.live NULL = false
  objs : ∀ x ∈ l, m.obj x.1 = x.2
  count : m.num_members = l.length

variable {m m' : Memory} {l l₁ l₂ : List (Nat × Nat)} {a b e r o obj : Nat}

/-! ## Insertion -/

/-- `r` has been allocated, and linked in before `b`. -/
structure Linked (m m' : Memory) (b r obj : Nat) : Prop where
  live : m'.live = Function.update m.live r true
  obj : m'.obj = Function.update m.obj r obj
  links : m'.links = m.links.insertBefore b r
  count : m'.num_members = m.num_members + 1
  anchor : m'.anchor = m.anchor

/-- The element after the ones in front. -/
def behind (m : Memory) (l : List (Nat × Nat)) : Nat := (l.map Prod.fst).headD m.anchor

theorem Linked.holds (hl : Linked m m' (behind m l₂) r obj) (h : Holds m (l₁ ++ l₂)) (hr : r ≠ NULL) (hf : m.live r = false) :
    Holds m' (l₁ ++ (r, obj) :: l₂) := by
  have hnew : r ∉ m.anchor :: (l₁ ++ l₂).map Prod.fst := fun hm => by
    rw [h.live r hm] at hf
    cases hf
  have hring : m'.links.Ring m.anchor ((l₁ ++ (r, obj) :: l₂).map Prod.fst) := by
    rw [hl.links]
    have hr := h.ring
    rw [List.map_append] at hr hnew ⊢
    cases l₂ with
    | nil =>
      rw [List.map_nil, List.append_nil] at hr hnew
      exact hr.insert hnew
    | cons c l₂ => exact hr.insert_at hnew
  refine ⟨hl.anchor ▸ hring, fun a ha => ?_, ?_, fun x hx => ?_, ?_⟩
  · rw [hl.live]
    by_cases e : a = r
    · rw [e, Function.update_self]
    · rw [Function.update_of_ne e]
      apply h.live
      rw [hl.anchor] at ha
      simp only [List.map_append, List.map_cons, List.mem_cons, List.mem_append] at ha ⊢
      tauto
  · rw [hl.live, Function.update_of_ne hr.symm]
    exact h.null
  · rw [hl.obj]
    simp only [List.mem_append, List.mem_cons] at hx
    by_cases e : x = (r, obj)
    · rw [e, Function.update_self]
    · have hx' : x ∈ l₁ ++ l₂ := by
        rw [List.mem_append]
        tauto
      rw [Function.update_of_ne]
      · exact h.objs x hx'
      · rintro rfl
        exact hnew (List.mem_cons_of_mem _ (List.mem_map_of_mem hx'))
  · rw [hl.count, h.count]
    simp only [List.length_append, List.length_cons]
    omega

/-- What is live is not new. -/
theorem ne_new (ha : m.live a = true) (hf : m.live r = false) : a ≠ r := by
  rintro rfl
  rw [ha] at hf
  cases hf

theorem append_linked (h : Holds m l) (hr : r ≠ NULL) (hf : m.live r = false) (obj : Nat) :
    ∃ m', My402ListAppend m obj r = some (m', true) ∧ Linked m m' m.anchor r obj := by
  have ha : m.live m.anchor = true := h.live _ List.mem_cons_self
  have hq : m.live (m.links.prev m.anchor) = true := h.live _ h.ring.prev_mem
  have har := ne_new ha hf
  have hqr := ne_new hq hf
  unfold My402ListAppend
  simp only [if_neg hr, Memory.malloc, Memory.setObj, Memory.setNext, Memory.setPrev, Memory.prev, bind, Option.bind_some,
    Function.update_self, Function.update_of_ne har, Function.update_of_ne har.symm, Function.update_of_ne hqr, ha, hq, if_true]
  refine ⟨_, rfl, rfl, rfl, ?_, rfl, rfl⟩
  rw [Links.insertBefore, Function.update_comm hqr]

theorem prepend_linked (h : Holds m l) (hr : r ≠ NULL) (hf : m.live r = false) (obj : Nat) :
    ∃ m', My402ListPrepend m obj r = some (m', true) ∧ Linked m m' (m.links.next m.anchor) r obj := by
  have ha : m.live m.anchor = true := h.live _ List.mem_cons_self
  have hb : m.live (m.links.next m.anchor) = true := h.live _ (h.ring.next_mem List.mem_cons_self)
  have har := ne_new ha hf
  have hbr := ne_new hb hf
  have hprev : m.links.prev (m.links.next m.anchor) = m.anchor := h.ring.prev_next List.mem_cons_self
  unfold My402ListPrepend
  simp only [if_neg hr, Memory.malloc, Memory.setObj, Memory.setNext, Memory.setPrev, Memory.next, bind, Option.bind_some,
    Function.update_self, Function.update_of_ne har, Function.update_of_ne har.symm, Function.update_of_ne hbr, ha, hb, if_true]
  refine ⟨_, rfl, rfl, rfl, ?_, rfl, rfl⟩
  rw [Links.insertBefore, hprev, Function.update_comm har]

/-- An element is not `NULL`. -/
theorem Holds.ne_null (h : Holds m l) (he : m.live e = true) : e ≠ NULL := by
  rintro rfl
  rw [h.null] at he
  cases he

theorem insertAfter_linked (h : Holds m l) (he : e ∈ l.map Prod.fst) (hr : r ≠ NULL) (hf : m.live r = false) (obj : Nat) :
    ∃ m', My402ListInsertAfter m obj e r = some (m', true) ∧ Linked m m' (m.links.next e) r obj := by
  have hmem : e ∈ m.anchor :: l.map Prod.fst := List.mem_cons_of_mem _ he
  have hlive := h.live e hmem
  have hb : m.live (m.links.next e) = true := h.live _ (h.ring.next_mem hmem)
  have her := ne_new hlive hf
  have hbr := ne_new hb hf
  have hprev := h.ring.prev_next hmem
  unfold My402ListInsertAfter
  simp only [if_neg hr, if_neg (h.ne_null hlive), Memory.malloc, Memory.setObj, Memory.setNext, Memory.setPrev, Memory.next,
    Memory.prev, bind, Option.bind_some, Function.update_self, Function.update_of_ne her, Function.update_of_ne hbr, hlive, hb, hprev, if_true]
  refine ⟨_, rfl, rfl, rfl, ?_, rfl, rfl⟩
  rw [Links.insertBefore, hprev, Function.update_comm her]

theorem insertBefore_linked (h : Holds m l) (he : e ∈ l.map Prod.fst) (hr : r ≠ NULL) (hf : m.live r = false) (obj : Nat) :
    ∃ m', My402ListInsertBefore m obj e r = some (m', true) ∧ Linked m m' e r obj := by
  have hmem : e ∈ m.anchor :: l.map Prod.fst := List.mem_cons_of_mem _ he
  have hlive := h.live e hmem
  have hq : m.live (m.links.prev e) = true := h.live _ (h.ring.prev_mem_of hmem)
  have her := ne_new hlive hf
  have hqr := ne_new hq hf
  unfold My402ListInsertBefore
  simp only [if_neg hr, if_neg (h.ne_null hlive), Memory.malloc, Memory.setObj, Memory.setNext, Memory.setPrev, Memory.prev,
    bind, Option.bind_some, Function.update_self, Function.update_of_ne her, Function.update_of_ne hqr, hlive, hq, if_true]
  refine ⟨_, rfl, rfl, rfl, ?_, rfl, rfl⟩
  rw [Links.insertBefore, Function.update_comm hqr]

/-! ## Removal -/

/-- `e` has been taken out and freed. -/
structure Unlinked (m m' : Memory) (e : Nat) : Prop where
  live : m'.live = Function.update m.live e false
  obj : ∀ a, a ≠ e → m'.obj a = m.obj a
  next : ∀ a, a ≠ e → m'.links.next a = (m.links.unlink e).next a
  prev : ∀ a, a ≠ e → m'.links.prev a = (m.links.unlink e).prev a
  count : m'.num_members = m.num_members - 1
  anchor : m'.anchor = m.anchor

theorem unlink_unlinked (h : Holds m l) (he : e ∈ l.map Prod.fst) :
    ∃ m', My402ListUnlink m e = some m' ∧ Unlinked m m' e := by
  have hmem : e ∈ m.anchor :: l.map Prod.fst := List.mem_cons_of_mem _ he
  have hlive := h.live e hmem
  have hq : m.live (m.links.prev e) = true := h.live _ (h.ring.prev_mem_of hmem)
  have hb : m.live (m.links.next e) = true := h.live _ (h.ring.next_mem hmem)
  have hne := (h.ring.prev_ne he).symm
  unfold My402ListUnlink
  simp only [Memory.setObj, Memory.setNext, Memory.setPrev, Memory.next, Memory.prev, Memory.free, bind, Option.bind_some,
    Function.update_of_ne hne, hlive, hq, hb, if_true]
  exact ⟨_, rfl, rfl, fun a ha => Function.update_of_ne ha _ _, fun a ha => Function.update_of_ne ha _ _,
    fun a ha => Function.update_of_ne ha _ _, rfl, rfl⟩

theorem Unlinked.holds (hu : Unlinked m m' e) (h : Holds m (l₁ ++ (e, o) :: l₂)) : Holds m' (l₁ ++ l₂) := by
  have hring := h.ring
  rw [List.map_append, List.map_cons] at hring
  have hnot : e ∉ m.anchor :: (l₁ ++ l₂).map Prod.fst := by
    have := hring.once
    simp only [List.map_append, List.mem_cons, List.mem_append, List.nodup_cons, List.nodup_append] at this ⊢
    grind
  have hne {a : Nat} (ha : a ∈ m.anchor :: (l₁ ++ l₂).map Prod.fst) : a ≠ e := fun he => hnot (he ▸ ha)
  have hsub {x : Nat × Nat} (hx : x ∈ l₁ ++ l₂) : x ∈ l₁ ++ (e, o) :: l₂ := by
    simp only [List.mem_append, List.mem_cons] at hx ⊢
    tauto
  refine ⟨?_, fun a ha => ?_, ?_, fun x hx => ?_, ?_⟩
  · rw [hu.anchor]
    refine Links.Ring.congr (L := m.links.unlink e) ?_ (fun a ha => hu.next a (hne ha)) fun a ha => hu.prev a (hne ha)
    rw [List.map_append]
    exact hring.unlink
  · rw [hu.anchor] at ha
    rw [hu.live, Function.update_of_ne (hne ha)]
    apply h.live
    rcases List.mem_cons.1 ha with rfl | ha
    · exact List.mem_cons_self
    · obtain ⟨x, hx, rfl⟩ := List.mem_map.1 ha
      exact List.mem_cons_of_mem _ (List.mem_map_of_mem (hsub hx))
  · rw [hu.live]
    by_cases he : NULL = e
    · rw [he, Function.update_self]
    · rw [Function.update_of_ne he]
      exact h.null
  · rw [hu.obj x.1 (hne (List.mem_cons_of_mem _ (List.mem_map_of_mem hx)))]
    exact h.objs x (hsub hx)
  · rw [hu.count, h.count]
    simp only [List.length_append, List.length_cons]
    omega

theorem init_holds (ha : m.live m.anchor = true) (h0 : m.live NULL = false) :
    ∃ m', My402ListInit m = some (m', true) ∧ Holds m' [] := by
  simp only [My402ListInit, Memory.setObj, Memory.setNext, Memory.setPrev, ha, if_true, bind, Option.bind_some]
  exact ⟨_, rfl, ⟨⟨by simp [Links.Path], by simp⟩, by simpa using ha, h0, by simp, rfl⟩⟩

/-- The loop frees the elements from `c` on, and `temp` is one ahead. -/
theorem unlinkFrom_frees : ∀ {rest : List Nat} {m : Memory} {c n : Nat}, m.links.Path c rest m.anchor → (c :: rest).Nodup →
    m.anchor ∉ c :: rest → (∀ a ∈ m.anchor :: c :: rest, m.live a = true) → rest.length + 1 < n →
    ∃ m', unlinkFrom m c (m.links.next c) n = some m' ∧ m'.anchor = m.anchor ∧
      ∀ a, m'.live a = true ↔ m.live a = true ∧ a ∉ c :: rest := by
  intro rest
  induction rest with
  | nil =>
    intro m c n hp hnd hanchor hlive hn
    obtain ⟨n, rfl⟩ : ∃ k, n = k + 2 := ⟨n - 2, by simp at hn; omega⟩
    have hc := hlive c (by simp)
    have hca : m.anchor ≠ c := by simpa using hanchor
    have hnext : m.links.next c = m.anchor := hp.1
    simp only [unlinkFrom, if_neg hca.symm, Memory.setObj, Memory.setNext, Memory.setPrev, Memory.next, Memory.free, hc, hnext,
      Function.update_of_ne hca, hlive m.anchor (by simp), if_true, bind, Option.bind_some]
    refine ⟨_, rfl, rfl, fun a => ?_⟩
    by_cases e : a = c <;> simp [e]
  | cons d rest ih =>
    intro m c n hp hnd hanchor hlive hn
    obtain ⟨n, rfl⟩ : ∃ k, n = k + 1 := ⟨n - 1, by omega⟩
    obtain ⟨hcd, hnd'⟩ := List.nodup_cons.1 hnd
    have hc := hlive c (by simp)
    have hca : c ≠ m.anchor := fun e => hanchor (by simp [e])
    have hne {a : Nat} (ha : a ∈ d :: rest) : a ≠ c := fun e => hcd (e ▸ ha)
    have hd := hlive d (by simp)
    obtain ⟨hnext, -, hp⟩ := hp
    -- what the loop goes on with
    let m₁ : Memory := { m with
      live := Function.update m.live c false
      obj := Function.update m.obj c NULL
      links := ⟨Function.update m.links.next c NULL, Function.update m.links.prev c NULL⟩ }
    have hp₁ : m₁.links.Path d rest m₁.anchor :=
      hp.congr (fun y hy => Function.update_of_ne (hne hy) _ _)
        (fun y hy => Function.update_of_ne (hne (List.mem_cons_of_mem d hy)) _ _) (Function.update_of_ne hca.symm _ _)
    have hlive₁ : ∀ a ∈ m₁.anchor :: d :: rest, m₁.live a = true := by
      intro a ha
      have hac : a ≠ c := by
        rcases List.mem_cons.1 ha with rfl | ha
        · exact hca.symm
        · exact hne ha
      refine (Function.update_of_ne hac _ _).trans (hlive a ?_)
      simp only [List.mem_cons] at ha ⊢
      tauto
    obtain ⟨m', hm', hanchor', hall⟩ := ih hp₁ hnd' (fun h => hanchor (List.mem_cons_of_mem c h)) hlive₁ (by simp at hn; omega)
    have hdc : d ≠ c := hne List.mem_cons_self
    refine ⟨m', ?_, hanchor', fun a => (hall a).trans ?_⟩
    · simp only [unlinkFrom, if_neg hca, Memory.setObj, Memory.setNext, Memory.setPrev, Memory.next, Memory.free, hc, hnext,
        Function.update_of_ne hdc, hd, if_true, bind, Option.bind_some]
      rw [show m₁.links.next d = m.links.next d from Function.update_of_ne hdc _ _] at hm'
      exact hm'
    · by_cases e : a = c
      · simp [m₁, e]
      · simp [m₁, e]

/-- All elements are freed, and the list is empty. -/
theorem unlinkAll_holds (h : Holds m l) {n : Nat} (hn : l.length < n) : ∃ m', My402ListUnlinkAll m n = some m' ∧ Holds m' [] := by
  have ha := h.live _ List.mem_cons_self
  have hnd := h.ring.once
  -- the loop returns, and leaves the anchor
  obtain ⟨m₁, hloop, hanchor, hlive⟩ : ∃ m₁, unlinkFrom m (m.links.next m.anchor) (m.links.next (m.links.next m.anchor)) n = some m₁ ∧
      m₁.anchor = m.anchor ∧ ∀ a, m₁.live a = true ↔ m.live a = true ∧ a ∉ l.map Prod.fst := by
    obtain ⟨k, rfl⟩ : ∃ k, n = k + 1 := ⟨n - 1, by omega⟩
    cases hl : l.map Prod.fst with
    | nil =>
      have hnext : m.links.next m.anchor = m.anchor := by
        have := h.ring.path
        rw [hl] at this
        exact this.1
      exact ⟨m, by simp [unlinkFrom, hnext], rfl, by simp⟩
    | cons c rest =>
      have hp := h.ring.path
      have hlive := h.live
      rw [hl] at hp hnd hlive
      obtain ⟨hnext, -, hp⟩ := hp
      obtain ⟨hac, hnd⟩ := List.nodup_cons.1 hnd
      rw [hnext]
      refine unlinkFrom_frees hp hnd hac hlive ?_
      have := congrArg List.length hl
      simp at this
      omega
  have ha₁ : m₁.live m₁.anchor = true := by
    rw [hanchor]
    exact (hlive _).2 ⟨ha, (List.nodup_cons.1 hnd).1⟩
  have h0 : m₁.live NULL = false := by
    cases h1 : m₁.live NULL with
    | false => rfl
    | true =>
      have := h.null
      rw [((hlive NULL).1 h1).1] at this
      cases this
  obtain ⟨m', hinit, h'⟩ := init_holds ha₁ h0
  have hb : m.live (m.links.next m.anchor) = true := h.live _ (h.ring.next_mem List.mem_cons_self)
  refine ⟨m', ?_, h'⟩
  simp only [My402ListUnlinkAll, Memory.next, ha, hb, if_true, bind, Option.bind_some, hloop, hinit]

/-! ## Each call -/

theorem insertAfter_split {x : Nat × Nat} : ∀ {l₁ : List (Nat × Nat)}, e ∉ l₁.map Prod.fst →
    insertAfter e x (l₁ ++ (e, o) :: l₂) = l₁ ++ (e, o) :: x :: l₂
  | [], _ => by simp [insertAfter]
  | y :: l₁, h => by
    rw [List.map_cons, List.mem_cons, not_or] at h
    rw [List.cons_append, insertAfter, if_neg (Ne.symm h.1), insertAfter_split h.2, List.cons_append]

theorem insertBefore_split {x : Nat × Nat} : ∀ {l₁ : List (Nat × Nat)}, e ∉ l₁.map Prod.fst →
    insertBefore e x (l₁ ++ (e, o) :: l₂) = l₁ ++ x :: (e, o) :: l₂
  | [], _ => by simp [insertBefore]
  | y :: l₁, h => by
    rw [List.map_cons, List.mem_cons, not_or] at h
    rw [List.cons_append, insertBefore, if_neg (Ne.symm h.1), insertBefore_split h.2, List.cons_append]

/-- An element is in one place. -/
theorem Holds.split (h : Holds m l) (he : e ∈ l.map Prod.fst) :
    ∃ l₁ o l₂, l = l₁ ++ (e, o) :: l₂ ∧ e ∉ l₁.map Prod.fst ∧ e ∉ l₂.map Prod.fst := by
  obtain ⟨⟨_, o⟩, hx, rfl⟩ := List.mem_map.1 he
  obtain ⟨l₁, l₂, rfl⟩ := List.append_of_mem hx
  have := (List.nodup_cons.1 h.ring.once).2
  rw [List.map_append, List.map_cons] at this
  refine ⟨l₁, o, l₂, rfl, ?_, ?_⟩
  · exact fun hm => (List.nodup_append.1 this).2.2 _ hm _ List.mem_cons_self rfl
  · exact (List.nodup_cons.1 (List.nodup_append.1 this).2.1).1

theorem append_holds (h : Holds m l) (hr : r ≠ NULL) (hf : m.live r = false) (obj : Nat) :
    ∃ m', My402ListAppend m obj r = some (m', true) ∧ Holds m' (l ++ [(r, obj)]) := by
  obtain ⟨m', hm', hl⟩ := append_linked h hr hf obj
  have hl : Linked m m' (behind m []) r obj := hl
  exact ⟨m', hm', hl.holds (by rwa [List.append_nil]) hr hf⟩

theorem prepend_holds (h : Holds m l) (hr : r ≠ NULL) (hf : m.live r = false) (obj : Nat) :
    ∃ m', My402ListPrepend m obj r = some (m', true) ∧ Holds m' ((r, obj) :: l) := by
  obtain ⟨m', hm', hl⟩ := prepend_linked h hr hf obj
  rw [h.ring.path.next_eq] at hl
  have h : Holds m ([] ++ l) := h
  exact ⟨m', hm', hl.holds h hr hf⟩

theorem insertAfter_holds (h : Holds m l) (he : e ∈ l.map Prod.fst) (hr : r ≠ NULL) (hf : m.live r = false) (obj : Nat) :
    ∃ m', My402ListInsertAfter m obj e r = some (m', true) ∧ Holds m' (insertAfter e (r, obj) l) := by
  obtain ⟨m', hm', hl⟩ := insertAfter_linked h he hr hf obj
  obtain ⟨l₁, o, l₂, rfl, h1, -⟩ := h.split he
  have hp := h.ring.path
  rw [List.map_append, List.map_cons, Links.Path.append] at hp
  rw [hp.2.next_eq] at hl
  have h : Holds m ((l₁ ++ [(e, o)]) ++ l₂) := by rwa [List.append_assoc]
  refine ⟨m', hm', ?_⟩
  have h' := hl.holds h hr hf
  rw [List.append_assoc] at h'
  rw [insertAfter_split h1]
  exact h'

theorem insertBefore_holds (h : Holds m l) (he : e ∈ l.map Prod.fst) (hr : r ≠ NULL) (hf : m.live r = false) (obj : Nat) :
    ∃ m', My402ListInsertBefore m obj e r = some (m', true) ∧ Holds m' (insertBefore e (r, obj) l) := by
  obtain ⟨m', hm', hl⟩ := insertBefore_linked h he hr hf obj
  obtain ⟨l₁, o, l₂, rfl, h1, -⟩ := h.split he
  have hl : Linked m m' (behind m ((e, o) :: l₂)) r obj := hl
  rw [insertBefore_split h1]
  exact ⟨m', hm', hl.holds h hr hf⟩

theorem unlink_holds (h : Holds m l) (he : e ∈ l.map Prod.fst) :
    ∃ m', My402ListUnlink m e = some m' ∧ Holds m' (l.filter fun x => x.1 ≠ e) := by
  obtain ⟨m', hm', hu⟩ := unlink_unlinked h he
  obtain ⟨l₁, o, l₂, rfl, h1, h2⟩ := h.split he
  have hkeep {l : List (Nat × Nat)} (hl : e ∉ l.map Prod.fst) : l.filter (fun x => x.1 ≠ e) = l := by
    apply List.filter_eq_self.2
    intro x hx
    exact decide_eq_true fun hxe => hl (hxe ▸ List.mem_map_of_mem hx)
  refine ⟨m', hm', ?_⟩
  rw [List.filter_append, List.filter_cons_of_neg (by simp), hkeep h1, hkeep h2]
  exact hu.holds h

/-- Each legal call returns, and does to the list what `spec` says. -/
theorem call_refines (h : Holds m l) {c : Call} (hc : c.Legal m l) :
    ∃ m', c.run m = some (m', (c.spec l).2) ∧ Holds m' (c.spec l).1 := by
  cases c with
  | init => exact init_holds (h.live _ List.mem_cons_self) h.null
  | append obj r =>
    by_cases hr : r = NULL
    · simpa [Call.run, Call.spec, My402ListAppend, hr] using h
    · simp only [Call.run, Call.spec, if_neg hr]
      exact append_holds h hr (hc.resolve_left hr) obj
  | prepend obj r =>
    by_cases hr : r = NULL
    · simpa [Call.run, Call.spec, My402ListPrepend, hr] using h
    · simp only [Call.run, Call.spec, if_neg hr]
      exact prepend_holds h hr (hc.resolve_left hr) obj
  | insertAfter obj e r =>
    by_cases hr : r = NULL
    · refine ⟨m, ?_, by simpa [Call.spec, hr] using h⟩
      by_cases he : e = NULL <;> simp [Call.run, Call.spec, My402ListInsertAfter, My402ListAppend, hr, he]
    · have hf := hc.1.resolve_left hr
      by_cases he : e = NULL
      · simp only [Call.run, Call.spec, My402ListInsertAfter, if_neg hr, if_pos he]
        exact append_holds h hr hf obj
      · simp only [Call.run, Call.spec, if_neg hr, if_neg he]
        exact insertAfter_holds h (hc.2.resolve_left he) hr hf obj
  | insertBefore obj e r =>
    by_cases hr : r = NULL
    · refine ⟨m, ?_, by simpa [Call.spec, hr] using h⟩
      by_cases he : e = NULL <;> simp [Call.run, Call.spec, My402ListInsertBefore, My402ListPrepend, hr, he]
    · have hf := hc.1.resolve_left hr
      by_cases he : e = NULL
      · simp only [Call.run, Call.spec, My402ListInsertBefore, if_neg hr, if_pos he]
        exact prepend_holds h hr hf obj
      · simp only [Call.run, Call.spec, if_neg hr, if_neg he]
        exact insertBefore_holds h (hc.2.resolve_left he) hr hf obj
  | unlink e =>
    obtain ⟨m', hm', h'⟩ := unlink_holds h hc
    exact ⟨m', by simp [Call.run, Call.spec, hm'], h'⟩
  | unlinkAll n =>
    obtain ⟨m', hm', h'⟩ := unlinkAll_holds h hc
    exact ⟨m', by simp [Call.run, Call.spec, hm'], h'⟩

/-! ## What the list reads as -/

/-- Elements `xs` in a row up to the anchor, when `step` follows the links `L`. -/
theorem collect_path {L : Links Nat} {step : Nat → Option Nat} {bs : List Nat} (h0 : m.live NULL = false)
    (hstep : ∀ a, m.live a = true → step a = some (if L.next a = m.anchor then NULL else L.next a)) :
    ∀ {a n : Nat}, L.Path a bs m.anchor → m.anchor ∉ bs → (∀ b ∈ bs, m.live b = true) → bs.length < n →
      collect m step (if L.next a = m.anchor then NULL else L.next a) n = some (bs.map m.obj) := by
  induction bs with
  | nil =>
    intro a n hp _ _ hn
    obtain ⟨n, rfl⟩ : ∃ k, n = k + 1 := ⟨n - 1, by omega⟩
    have hnext : L.next a = m.anchor := hp.1
    simp [collect, hnext]
  | cons b bs ih =>
    intro a n hp hanchor hlive hn
    obtain ⟨n, rfl⟩ : ∃ k, n = k + 1 := ⟨n - 1, by omega⟩
    rw [List.mem_cons, not_or] at hanchor
    have hb := hlive b List.mem_cons_self
    have hb0 : b ≠ NULL := by
      rintro rfl
      rw [h0] at hb
      cases hb
    have hrest := ih hp.2.2 hanchor.2 (fun b hb => hlive b (List.mem_cons_of_mem _ hb)) (by simp at hn; omega)
    rw [hp.1, if_neg (Ne.symm hanchor.1), collect, if_neg hb0]
    simp only [Memory.getObj, hb, if_true, hstep b hb, hrest, bind, Option.bind_some, List.map_cons]

theorem Holds.objs_map (h : Holds m l) : (l.map Prod.fst).map m.obj = l.map Prod.snd := by
  rw [List.map_map]
  exact List.map_congr_left fun x hx => h.objs x hx

/-- Whether the first address is that of the anchor, the count says. -/
theorem Holds.empty_iff (h : Holds m l) {L : Links Nat} {bs : List Nat} (hr : L.Ring m.anchor bs) (hlen : bs.length = l.length) :
    m.num_members = 0 ↔ L.next m.anchor = m.anchor := by
  have hp := hr.path
  have hnd := hr.once
  rw [h.count, ← hlen]
  cases bs with
  | nil => simp [hp.1]
  | cons b bs =>
    have hne : b ≠ m.anchor := fun e => (List.nodup_cons.1 hnd).1 (by simp [e])
    rw [hp.1]
    simp only [List.length_cons, hne, iff_false]
    omega

/-- `First` and `Next` go through the objects in order. -/
theorem forward_eq (h : Holds m l) {n : Nat} (hn : l.length < n) : forward m n = some (l.map Prod.snd) := by
  have hfirst : My402ListFirst m = some (if m.links.next m.anchor = m.anchor then NULL else m.links.next m.anchor) := by
    simp only [My402ListFirst, h.empty_iff h.ring (List.length_map _), Memory.next, h.live _ List.mem_cons_self, if_true]
    split <;> rfl
  have hstep (a : Nat) (ha : m.live a = true) :
      My402ListNext m a = some (if m.links.next a = m.anchor then NULL else m.links.next a) := by
    simp only [My402ListNext, Memory.next, ha, if_true, bind, Option.bind_some]
    split <;> rfl
  simp only [forward, hfirst, bind, Option.bind_some]
  rw [collect_path h.null hstep h.ring.path (List.nodup_cons.1 h.ring.once).1
    (fun b hb => h.live b (List.mem_cons_of_mem _ hb)) (by simpa using hn), h.objs_map]

/-- `Last` and `Prev` go through them backwards. -/
theorem backward_eq (h : Holds m l) {n : Nat} (hn : l.length < n) : backward m n = some (l.map Prod.snd).reverse := by
  have hr := h.ring.flip
  have hlast : My402ListLast m = some (if m.links.flip.next m.anchor = m.anchor then NULL else m.links.flip.next m.anchor) := by
    simp only [My402ListLast, h.empty_iff hr (by simp), Memory.prev, h.live _ List.mem_cons_self, if_true]
    split <;> rfl
  have hstep (a : Nat) (ha : m.live a = true) :
      My402ListPrev m a = some (if m.links.flip.next a = m.anchor then NULL else m.links.flip.next a) := by
    by_cases e : m.links.prev a = m.anchor <;> simp [My402ListPrev, Memory.prev, Links.flip, ha, e]
  simp only [backward, hlast, bind, Option.bind_some]
  rw [collect_path h.null hstep hr.path (List.nodup_cons.1 hr.once).1
    (fun b hb => h.live b (List.mem_cons_of_mem _ (List.mem_reverse.1 hb))) (by simpa using hn), List.map_reverse, h.objs_map]

/-- The first element of the list that has the object. -/
def found (obj : Nat) (l : List (Nat × Nat)) : Nat := ((l.find? fun x => x.2 == obj).map Prod.fst).getD NULL

theorem findFrom_path (obj : Nat) : ∀ {xs : List (Nat × Nat)} {a : Nat}, m.links.Path a (xs.map Prod.fst) m.anchor →
    (∀ x ∈ xs, m.live x.1 = true ∧ m.obj x.1 = x.2) → findFrom m obj (m.links.next a) xs.length = some (found obj xs)
  | [], _, _, _ => rfl
  | x :: xs, a, hp, hx => by
    obtain ⟨hnext, -, hp⟩ := hp
    obtain ⟨hlive, hobj⟩ := hx x List.mem_cons_self
    have ih := findFrom_path obj hp fun y hy => hx y (List.mem_cons_of_mem _ hy)
    rw [hnext, List.length_cons, findFrom]
    simp only [Memory.getObj, Memory.next, hlive, if_true, hobj, ih, bind, Option.bind_some]
    by_cases e : x.2 = obj
    · simp [found, e]
    · simp [found, e]

theorem find_eq (h : Holds m l) (obj : Nat) : My402ListFind m obj = some (found obj l) := by
  have hlen : ¬ m.num_members < 0 := by
    rw [h.count]
    omega
  have hnat : m.num_members.toNat = l.length := by
    rw [h.count]
    rfl
  simp only [My402ListFind, if_neg hlen, hnat, bind]
  by_cases h0 : m.num_members = 0
  · have hl : l = [] := by
      rw [h.count] at h0
      exact List.length_eq_zero_iff.1 (by omega)
    simp [My402ListFirst, h0, hl, findFrom, found]
  · simp only [My402ListFirst, if_neg h0, Memory.next, h.live _ List.mem_cons_self, if_true, Option.bind_some]
    exact findFrom_path obj h.ring.path fun x hx => ⟨h.live _ (List.mem_cons_of_mem _ (List.mem_map_of_mem hx)), h.objs x hx⟩

/-! ## Sequences of calls -/

/-- A call, with what it does to the list beside it. -/
def step (s : Memory × List (Nat × Nat)) (c : Call) : Option ((Memory × List (Nat × Nat)) × Bool) :=
  (c.run s.1).map fun (m, r) => ((m, (c.spec s.2).1), r)

/-- The memory has the list; it reads as the list in both directions, its count is the
length, `Find` finds the first element with an object, and each legal call does what
`spec` says and returns what it says. -/
structure Refines (m : Memory) (l : List (Nat × Nat)) : Prop where
  holds : Holds m l
  forward : ∀ n, l.length < n → My402List.forward m n = some (l.map Prod.snd)
  backward : ∀ n, l.length < n → My402List.backward m n = some (l.map Prod.snd).reverse
  length : My402ListLength m = l.length
  empty : My402ListEmpty m = true ↔ l = []
  find : ∀ obj, My402ListFind m obj = some (found obj l)
  call : ∀ c : Call, c.Legal m l → ∃ m', c.run m = some (m', (c.spec l).2) ∧ Holds m' (c.spec l).1

theorem Holds.refines (h : Holds m l) : Refines m l where
  holds := h
  forward _ hn := forward_eq h hn
  backward _ hn := backward_eq h hn
  length := h.count
  empty := by
    rw [My402ListEmpty, beq_iff_eq, h.count]
    simp
  find obj := find_eq h obj
  call _ hc := call_refines h hc

/-- The anchor at address 1, and nothing else. -/
def noElems : Memory where
  live a := a == 1
  obj _ := 0
  links := ⟨fun _ => 0, fun _ => 0⟩
  num_members := 0
  anchor := 1

end Weenix.My402List
