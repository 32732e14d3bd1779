import Weenix.Lib.Rings
import Weenix.Proc.State
/-!
# The lists of children in procs-submit

`proc_cleanup` as it works on the links themselves. `list_insert_tail` is not part
of the source; it is a parameter, and `InsertsTail` is what it is known to do.
The wakeup of the parent does not touch these lists.
-/

namespace Weenix.Proc.ProcsSubmit
open Lib

/-- The addresses of links: `p_children` of a process, and its `p_child_link`. -/
inductive Link
  | p_children (p : Nat)
  | p_child_link (p : Nat)
  deriving DecidableEq

structure Lists where
  links : Links Link
  p_pid : Nat → Int
  p_pproc : Nat → Nat
  p_status : Nat → Int
  p_state : Nat → ProcState
  proc_list : List Nat
  proc_initproc : Option Nat

/-- The function links a node in between the last node of a list and its head;
nothing is said about a node that is the last or the head already. -/
def InsertsTail (list_insert_tail : Links Link → Link → Link → Links Link) : Prop :=
  ∀ L h x, x ≠ h → x ≠ L.prev h → list_insert_tail L h x = L.insertBefore h x

namespace Lists

variable (list_insert_tail : Links Link → Link → Link → Links Link) (s : Lists)

/-- The body of the loop over the children in `proc_cleanup`. -/
def reparent (ini p : Nat) : Lists :=
  { s with
    p_pproc := Function.update s.p_pproc p ini
    links := list_insert_tail s.links (.p_children ini) (.p_child_link p) }

/-- The loop, at the node `link`; `list_iterate_begin` reads the next node before
the body runs. A list head in a list is no process. -/
def reparent_from (ini cur : Nat) : Nat → Lists → Link → Option Lists
  | 0, _, _ => none
  | n + 1, s, link =>
    if link = .p_children cur then some s
    else
      match link with
      | .p_child_link p => reparent_from ini cur n (s.reparent list_insert_tail ini p) (s.links.next link)
      | .p_children _ => none

/-- The loop takes at most `n` turns. -/
def proc_cleanup (n cur : Nat) (status : Int) : Option Lists := do
  let ini ← s.proc_initproc
  KASSERT (1 ≤ s.p_pid cur)
  let s := { s with
    p_status := Function.update s.p_status cur status
    p_state := Function.update s.p_state cur .dead }
  let first := s.links.next (.p_children cur)
  if first = .p_children cur then some s else reparent_from list_insert_tail ini cur n s first

/-- The process `p` has the list of children `cs p`. -/
structure Tree (s : Lists) (cs : Nat → List Nat) : Prop where
  ring : ∀ p ∈ s.proc_list, s.links.Ring (.p_children p) ((cs p).map .p_child_link)
  parent : ∀ p ∈ s.proc_list, ∀ c ∈ cs p, s.p_pproc c = p

/-- All lists are well formed after the exit of `cur`, and its children are at
the end of the list of the init process. -/
structure Handed (s : Lists) (cs : Nat → List Nat) (ini cur : Nat) : Prop where
  wellFormed : ∀ p ∈ s.proc_list, s.links.WellFormed (.p_children p)
  own : s.links.Ring (.p_children cur) []
  init : s.links.Ring (.p_children ini) ((cs ini ++ cs cur).map .p_child_link)
  parents : ∀ c ∈ cs ini ++ cs cur, s.p_pproc c = ini

/-! ## The loop -/

/-- From the node `link` on, `next` leads through `l` to `b`. -/
def Leads (L : Links Link) (b : Link) : Link → List Link → Prop
  | link, [] => link = b
  | link, x :: l => link = x ∧ Leads L b (L.next x) l

variable {list_insert_tail} {s} {s' : Lists} {ini cur : Nat} {b link : Link}

theorem Leads.congr {L L' : Links Link} : ∀ {l : List Link} {link : Link}, Leads L b link l →
    (∀ x ∈ l, L'.next x = L.next x) → Leads L' b link l
  | [], _, h, _ => h
  | x :: l, _, h, hn => by
    refine ⟨h.1, ?_⟩
    rw [hn x (by simp)]
    exact Leads.congr h.2 fun y hy => hn y (List.mem_cons_of_mem x hy)

/-- The nodes of a list from its first on. -/
theorem leads_of_path {L : Links Link} : ∀ {a : Link} {l : List Link}, L.Path a l b → Leads L b (L.next a) l
  | _, [], h => h.1
  | _, _ :: _, h => ⟨h.1, leads_of_path h.2.2⟩

/-- What the loop has done when it was to go through the children `rs`, with `ms` in the list of the init process. -/
structure Moved (s s' : Lists) (ini : Nat) (ms : List Link) (rs : List Nat) : Prop where
  ring : s'.links.Ring (.p_children ini) (ms ++ rs.map .p_child_link)
  next : ∀ y, y ∉ .p_children ini :: ms ++ rs.map .p_child_link → s'.links.next y = s.links.next y
  prev : ∀ y, y ∉ .p_children ini :: ms ++ rs.map .p_child_link → s'.links.prev y = s.links.prev y
  given : ∀ c ∈ rs, s'.p_pproc c = ini
  kept : ∀ c, c ∉ rs → s'.p_pproc c = s.p_pproc c
  listed : s'.proc_list = s.proc_list

/-- With enough turns the loop returns and has moved the children. -/
theorem reparent_moves (hins : InsertsTail list_insert_tail) : ∀ {rs : List Nat} {ms : List Link} {s : Lists}
    {link : Link} {n : Nat}, Leads s.links (.p_children cur) link (rs.map .p_child_link) →
    s.links.Ring (.p_children ini) ms → rs.Nodup → (∀ r ∈ rs, Link.p_child_link r ∉ ms) → rs.length < n →
    ∃ s', reparent_from list_insert_tail ini cur n s link = some s' ∧ Moved s s' ini ms rs := by
  intro rs
  induction rs with
  | nil =>
    intro ms s link n hl hr _ _ hn
    obtain ⟨n, rfl⟩ := Nat.exists_eq_succ_of_ne_zero (Nat.ne_of_gt hn)
    have hlink : link = .p_children cur := hl
    refine ⟨s, by simp [reparent_from, hlink], ?_⟩
    exact ⟨by simpa using hr, fun _ _ => rfl, fun _ _ => rfl, by simp, fun _ _ => rfl, rfl⟩
  | cons r rs ih =>
    intro ms s link n hl hr hnd hms hn
    obtain ⟨n, rfl⟩ := Nat.exists_eq_succ_of_ne_zero (Nat.ne_of_gt (Nat.lt_of_le_of_lt (Nat.zero_le _) hn))
    obtain ⟨hrs, hnd⟩ := List.nodup_cons.1 hnd
    obtain ⟨rfl, hl⟩ := hl
    have hx : Link.p_child_link r ∉ .p_children ini :: ms := by simpa using hms r (by simp)
    have hins' : (s.reparent list_insert_tail ini r).links = s.links.insertBefore (.p_children ini) (.p_child_link r) :=
      hins _ _ _ (by simp) fun e => hx (e ▸ hr.prev_mem)
    have hr' := hr.insert hx
    rw [← hins'] at hr'
    -- the nodes to come are not touched
    have hl' : Leads (s.reparent list_insert_tail ini r).links (.p_children cur) (s.links.next (.p_child_link r))
        (rs.map .p_child_link) := by
      refine hl.congr fun y hy => ?_
      obtain ⟨c, hc, rfl⟩ := List.mem_map.1 hy
      rw [hins']
      refine Links.insertBefore_next (fun e => ?_) fun e => hrs (by cases e; exact hc)
      have := hr.prev_mem
      rw [← e] at this
      exact hms c (by simp [hc]) (by simpa using this)
    obtain ⟨s', hs', hm⟩ := ih hl' hr' hnd (fun c hc => by
      simp only [List.mem_append, List.mem_singleton, not_or]
      exact ⟨hms c (by simp [hc]), fun e => hrs (by cases e; exact hc)⟩) (by simpa using hn)
    refine ⟨s', by simpa [reparent_from] using hs', ?_⟩
    have hout : ∀ y, y ∉ Link.p_children ini :: ms ++ (r :: rs).map .p_child_link →
        y ∉ Link.p_children ini :: (ms ++ [.p_child_link r]) ++ rs.map .p_child_link ∧ y ≠ .p_children ini ∧
          y ≠ .p_child_link r ∧ y ∉ ms := by
      intro y hy
      simp only [List.map_cons, List.cons_append, List.mem_cons, List.mem_append, not_or] at hy ⊢
      simp only [List.not_mem_nil, not_false_eq_true, and_true]
      tauto
    refine ⟨by simpa using hm.ring, fun y hy => ?_, fun y hy => ?_, fun c hc => ?_, fun c hc => ?_, hm.listed⟩
    · obtain ⟨h1, h2, h3, h4⟩ := hout y hy
      rw [hm.next y h1, hins']
      refine Links.insertBefore_next (fun e => ?_) h3
      have := hr.prev_mem
      rw [← e] at this
      exact (List.mem_cons.1 this).elim h2 h4
    · obtain ⟨h1, h2, h3, -⟩ := hout y hy
      rw [hm.prev y h1, hins']
      exact Links.insertBefore_prev h2 h3
    · by_cases hcr : c ∈ rs
      · exact hm.given c hcr
      · obtain rfl := (List.mem_cons.1 hc).resolve_right hcr
        rw [hm.kept c hcr]
        exact Function.update_self ..
    · rw [List.mem_cons, not_or] at hc
      rw [hm.kept c hc.2]
      exact Function.update_of_ne hc.1 ..

/-! ## Exits -/

variable {cs : Nat → List Nat} {p q : Nat}

/-- The lists of two processes have no node in common. -/
theorem Tree.disjoint (ht : Tree s cs) (hp : p ∈ s.proc_list) (hq : q ∈ s.proc_list) (hne : p ≠ q) {y : Link}
    (hy : y ∈ Link.p_children p :: (cs p).map .p_child_link) : y ∉ Link.p_children q :: (cs q).map .p_child_link := by
  intro hy'
  rcases List.mem_cons.1 hy with rfl | hy
  · rcases List.mem_cons.1 hy' with e | hy'
    · cases e
      exact hne rfl
    · simp at hy'
  · obtain ⟨c, hc, rfl⟩ := List.mem_map.1 hy
    have hc' : c ∈ cs q := by simpa using hy'
    exact hne ((ht.parent p hp c hc).symm.trans (ht.parent q hq c hc'))

theorem Tree.nodup (ht : Tree s cs) (hp : p ∈ s.proc_list) : (cs p).Nodup :=
  List.Nodup.of_map _ (List.nodup_cons.1 (ht.ring p hp).once).2

/-- The loop of an exit, from a table in order. -/
theorem Tree.moved (hins : InsertsTail list_insert_tail) (ht : Tree s cs) (hi : ini ∈ s.proc_list) (hc : cur ∈ s.proc_list)
    (hne : cur ≠ ini) {n : Nat} (hn : (cs cur).length < n) :
    ∃ s', reparent_from list_insert_tail ini cur n s (s.links.next (.p_children cur)) = some s' ∧
      Moved s s' ini ((cs ini).map .p_child_link) (cs cur) := by
  refine reparent_moves hins (leads_of_path (ht.ring cur hc).path) (ht.ring ini hi) (ht.nodup hc) (fun r hr hm => ?_) hn
  refine ht.disjoint hc hi hne (List.mem_cons_of_mem _ (List.mem_map_of_mem hr)) (List.mem_cons_of_mem _ hm)

/-- After the loop every list but that of the exiting process is well formed, and
that of the init process has the children. -/
theorem Moved.others (hm : Moved s s' ini ((cs ini).map .p_child_link) (cs cur)) (ht : Tree s cs) (hi : ini ∈ s.proc_list)
    (hc : cur ∈ s.proc_list) (hp : p ∈ s.proc_list) (hpc : p ≠ cur) : s'.links.WellFormed (.p_children p) := by
  by_cases e : p = ini
  · exact e ▸ ⟨_, hm.ring⟩
  · refine ⟨_, (ht.ring p hp).congr (fun y hy => hm.next y ?_) (fun y hy => hm.prev y ?_)⟩
    all_goals
      rw [List.mem_append, not_or]
      exact ⟨ht.disjoint hp hi e hy, fun h => ht.disjoint hp hc hpc hy (List.mem_cons_of_mem _ h)⟩

/-- The list of the exiting process leads into that of the init process, unless it was empty. -/
theorem Moved.own (hm : Moved s s' ini ((cs ini).map .p_child_link) (cs cur)) (ht : Tree s cs) (hc : cur ∈ s.proc_list)
    (hne : cur ≠ ini) (hcs : cs cur ≠ []) : ¬ s'.links.WellFormed (.p_children cur) := by
  have hout : Link.p_children cur ∉ Link.p_children ini :: (cs ini).map .p_child_link ++ (cs cur).map .p_child_link := by
    simp [hne]
  refine hm.ring.not_wellFormed hout ?_
  rw [hm.next _ hout]
  obtain ⟨c, rest, e⟩ := List.exists_cons_of_ne_nil hcs
  have hp := (ht.ring cur hc).path
  rw [e] at hp ⊢
  rw [hp.1]
  simp

/-- An exit with enough turns returns, and the lists are as they should be exactly
when the exiting process had no children. -/
theorem cleanup_handed_iff (hins : InsertsTail list_insert_tail) (ht : Tree s cs) (hini : s.proc_initproc = some ini)
    (hi : ini ∈ s.proc_list) (hc : cur ∈ s.proc_list) (hne : cur ≠ ini) (hpid : 1 ≤ s.p_pid cur) {n : Nat}
    (hn : (cs cur).length < n) (status : Int) :
    ∃ s', proc_cleanup list_insert_tail s n cur status = some s' ∧ (Handed s' cs ini cur ↔ cs cur = []) := by
  let s₁ : Lists := { s with
    p_status := Function.update s.p_status cur status
    p_state := Function.update s.p_state cur .dead }
  have ht₁ : Tree s₁ cs := ⟨ht.ring, ht.parent⟩
  have hcl : proc_cleanup list_insert_tail s n cur status = if s₁.links.next (.p_children cur) = .p_children cur then some s₁
      else reparent_from list_insert_tail ini cur n s₁ (s₁.links.next (.p_children cur)) := by
    simp [proc_cleanup, hini, KASSERT, hpid, s₁]
  have hpath := (ht.ring cur hc).path
  rw [hcl]
  by_cases hcs : cs cur = []
  · rw [hcs] at hpath
    have hlinks : s₁.links = s.links := rfl
    refine ⟨s₁, if_pos hpath.1, fun _ => hcs, fun _ => ⟨fun p hp => ⟨_, ht.ring p hp⟩, ?_, ?_, ?_⟩⟩
    · have := ht.ring cur hc
      rwa [hcs] at this
    · have := ht.ring ini hi
      rwa [hcs, List.append_nil, hlinks]
    · rw [hcs, List.append_nil]
      exact ht.parent ini hi
  · obtain ⟨s', hs', hm⟩ := ht₁.moved hins hi hc hne hn
    refine ⟨s', ?_, fun hh => absurd (hh.wellFormed cur (hm.listed ▸ hc)) (hm.own ht₁ hc hne hcs), fun h => absurd h hcs⟩
    rw [if_neg, hs']
    obtain ⟨c, rest, e⟩ := List.exists_cons_of_ne_nil hcs
    rw [e] at hpath
    intro hnext
    have hfirst : s.links.next (.p_children cur) = .p_child_link c := hpath.1
    have hnext' : s.links.next (.p_children cur) = .p_children cur := hnext
    rw [hfirst] at hnext'
    cases hnext'

/-- The children of 0 are 1, which is the init process, and 2; that of 2 is 3. -/
def threeChildren : Lists where
  links := {
    next := fun
      | .p_children 0 => .p_child_link 1
      | .p_child_link 1 => .p_child_link 2
      | .p_child_link 2 => .p_children 0
      | .p_children 2 => .p_child_link 3
      | .p_child_link 3 => .p_children 2
      | x => x
    prev := fun
      | .p_children 0 => .p_child_link 2
      | .p_child_link 2 => .p_child_link 1
      | .p_child_link 1 => .p_children 0
      | .p_children 2 => .p_child_link 3
      | .p_child_link 3 => .p_children 2
      | x => x }
  p_pid p := p
  p_pproc p := if p = 3 then 2 else 0
  p_status _ := 0
  p_state _ := .running
  proc_list := [0, 1, 2, 3]
  proc_initproc := some 1

def threeChildrenOf : Nat → List Nat
  | 0 => [1, 2]
  | 2 => [3]
  | _ => []

theorem threeChildren_tree : Tree threeChildren threeChildrenOf := by
  constructor
  · intro p hp
    simp only [threeChildren, List.mem_cons, List.not_mem_nil, or_false] at hp
    rcases hp with rfl | rfl | rfl | rfl <;> exact ⟨by simp [Links.Path, threeChildrenOf, threeChildren], by decide⟩
  · decide

def insertTail (L : Links Link) (h x : Link) : Links Link := L.insertBefore h x

theorem insertTail_inserts : InsertsTail insertTail := fun _ _ _ _ _ => rfl

/-- Process 3 has no children. -/
theorem leaf_handed : ∃ s', proc_cleanup insertTail threeChildren 1 3 7 = some s' ∧ Handed s' threeChildrenOf 1 3 := by
  obtain ⟨s', h1, h2⟩ := cleanup_handed_iff insertTail_inserts threeChildren_tree
    (show threeChildren.proc_initproc = some 1 from rfl) (by decide) (by decide : 3 ∈ threeChildren.proc_list) (by decide)
    (by decide) (by decide : 0 < 1) 7
  exact ⟨s', h1, h2.2 rfl⟩

/-- Process 2 exits, and its list is not empty afterwards. -/
theorem parent_not_handed : ¬ ∀ (list_insert_tail : Links Link → Link → Link → Links Link) (s s' : Lists) (cs : Nat → List Nat)
    (ini cur n : Nat) (status : Int), InsertsTail list_insert_tail → Tree s cs → s.proc_initproc = some ini →
    ini ∈ s.proc_list → cur ∈ s.proc_list → cur ≠ ini → proc_cleanup list_insert_tail s n cur status = some s' →
    Handed s' cs ini cur := by
  intro hall
  have hrun : (proc_cleanup insertTail threeChildren 2 2 7).map (·.links.next (.p_children 2)) =
      some (.p_child_link 3) := by decide
  obtain ⟨s', hs', hnext⟩ := Option.map_eq_some_iff.1 hrun
  have hh := hall insertTail threeChildren s' threeChildrenOf 1 2 2 7 insertTail_inserts threeChildren_tree rfl
    (by decide) (by decide) (by decide) hs'
  have hown : s'.links.next (.p_children 2) = .p_children 2 := hh.own.path.1
  rw [hown] at hnext
  cases hnext

end Lists

end Weenix.Proc.ProcsSubmit
