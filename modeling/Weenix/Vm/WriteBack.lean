import Weenix.Vm.Evictions
import Weenix.Vm.Cells
import Mathlib.Data.List.Perm.Subperm
/-!
# Writing back (`mm/pframe.c`)

`pframe_clean_all` writes back the dirty pages on `alloc_list`, and the pageout
daemon writes back and frees pages until its target is met. Both try a page
whose write fails again, before they look at any other. So `pframe_clean_all`
returns exactly when the disk works as often as there are dirty pages, and then
the daemon is done too, whatever its target is.
-/

namespace Weenix.Vm

open Lib Lib.Intervals

variable {C : Config} {E : Env} {s s' s₀ : State} {vn n m pg : Nat} {pf : Pframe} {l : List Nat} {held : Nat → Int}

/-! ## The loops -/

/-- One way through the list: `none` at its end, or the state in which the loop starts over. A page that is busy is
waited for, one whose write fails is dirty again. -/
def cleanScan (E : Env) (s : State) : List Nat → Option (Option State)
  | [] => some none
  | pg :: pgs => do
    KASSERT (s.pf_pincount pg = 0)
    let pf ← s.pframes.find? fun pf => decide (pf.pf_addr = pg)
    if s.pf_busy pg then some (some s)
    else if s.pf_dirty pg then (pframe_clean E s pf).map some
    else cleanScan E s pgs

/-- `goto list_start` at most `fuel` times. -/
def pframe_clean_all (E : Env) : Nat → State → Option State
  | 0, _ => none
  | fuel + 1, s => do
    match ← cleanScan E s s.alloc_list with
    | none => some s
    | some s' => pframe_clean_all E fuel s'

/-- The inner loop of `pageoutd_run`, where `met` is `pageoutd_target_met`. -/
def pageoutd_loop (E : Env) (met : State → Bool) : Nat → State → Option State
  | 0, _ => none
  | fuel + 1, s => if met s ∨ s.alloc_list = [] then some s else (pageoutd_turn E s).bind (pageoutd_loop E met fuel)

/-- The pages that are to be written. -/
def State.dirtyPages (s : State) : List Nat := s.alloc_list.filter s.pf_dirty

/-- How often the disk works in the next `m` operations. -/
def State.writes (s : State) (E : Env) (m : Nat) : Nat := (List.range' s.clock m).countP E.io

/-! ## One turn -/

/-- A page on `alloc_list` is a page of a file, and not pinned. -/
theorem Frames.listed (h : Frames s) (hpg : pg ∈ s.alloc_list) : ∃ pf ∈ s.pframes, pf.pf_addr = pg ∧ s.IsFile pf.pf_obj ∧
    s.pf_pincount pg = 0 ∧ s.pframes.find? (fun pf => decide (pf.pf_addr = pg)) = some pf := by
  obtain ⟨pf, hm, rfl⟩ := List.mem_map.1 (h.alloc pg hpg)
  obtain ⟨ob, hob⟩ := h.owner pf hm
  have hfile : ob.isFile = true := by
    by_contra hno
    exact (h.pinned pf hm ob hob (by simpa using hno)).2.2 hpg
  refine ⟨pf, hm, rfl, ⟨ob, hob, hfile⟩, (h.file pf hm ob hob hfile).1, ?_⟩
  cases hfind : s.pframes.find? fun q => decide (q.pf_addr = pf.pf_addr) with
  | none => exact absurd hm (fun hm => by simpa using List.find?_eq_none.1 hfind pf hm)
  | some q => rw [h.addr_inj (List.mem_of_find?_eq_some hfind) hm (by simpa using List.find?_some hfind)]

/-- Cleaning a page of a file unmaps it where it is found, and takes one operation of the disk. -/
theorem pframe_clean_file (hs : Steady s) (hm : pf ∈ s.pframes) (hvn : s.FileOf pf.pf_obj vn) (hd : s.pf_dirty pf.pf_addr = true) :
    ∃ pd, Unmaps s.p_pagedir pd ∧ pframe_clean E s pf = some { s with
      p_pagedir := pd, pf_dirty := Function.update s.pf_dirty pf.pf_addr (!E.io s.clock), clock := s.clock + 1,
      disk := if E.io s.clock then Function.update s.disk vn (Function.update (s.disk vn) (PN_TO_ADDR pf.pf_pagenum) (s.mem pf.pf_addr))
        else s.disk } := by
  obtain ⟨ob, hob, hops⟩ := hvn
  obtain ⟨b, hb⟩ := hs.chains.bottom hob
  obtain ⟨pd, hr, hpd⟩ := remove_from_areas_total pf (s := s.setDirty pf.pf_addr false) _ (hs.listed b)
  have hpin := (hs.frames.file pf hm ob hob (by simp [Mmobj.isFile, hops])).1
  have hb' : (s.setDirty pf.pf_addr false).bottomOf pf.pf_obj = some b := hb
  have hbusy : Function.update s.pf_busy pf.pf_addr false = s.pf_busy := by
    rw [← hs.idle pf hm, Function.update_eq_self]
  refine ⟨pd, hpd, ?_⟩
  have hr' : pframe_remove_from_pts (s.setDirty pf.pf_addr false) pf = some { s.setDirty pf.pf_addr false with p_pagedir := pd } := by
    simp only [pframe_remove_from_pts, hb', bind, Option.bind_some]
    exact hr
  simp only [pframe_clean, KASSERT, hd, hpin, if_true, bind, Option.bind_some, hr']
  simp only [cleanpage, State.setBusy, State.setDirty, hob, hops, bind, Option.bind_some]
  rcases Bool.eq_false_or_eq_true (E.io s.clock) with hio | hio
  · simp only [hio, if_true, Option.bind_some, State.tick, Function.update_idem, hbusy, Bool.not_true]
  · simp only [hio, Bool.false_eq_true, if_false, Option.bind_some, State.tick, Function.update_idem, hbusy, Bool.not_false]

theorem Unmaps.noNew (h : Unmaps s.p_pagedir s'.p_pagedir) : NoNewMapping s s' := fun p v pte hpte => by
  rcases h p v with e | e
  · rwa [e] at hpte
  · rw [e] at hpte
    cases hpte

/-- A page that is written is dirty no more. -/
theorem dirty_cleaned (hn : s.alloc_list.Nodup) (hl : s.dirtyPages = pg :: l) (ok : Bool) :
    s.alloc_list.filter (Function.update s.pf_dirty pg !ok) = if ok then l else pg :: l := by
  have hd : s.pf_dirty pg = true := (List.mem_filter.1 (hl ▸ List.mem_cons_self : pg ∈ s.dirtyPages)).2
  cases ok with
  | false =>
    have hsame : Function.update s.pf_dirty pg true = s.pf_dirty := by rw [← Function.update_eq_self pg s.pf_dirty, hd, Function.update_idem]
    rw [Bool.not_false, hsame, if_neg Bool.false_ne_true, ← hl, State.dirtyPages]
  | true =>
    have he : l = s.dirtyPages.erase pg := by rw [hl, List.erase_cons_head]
    rw [if_pos rfl, he, State.dirtyPages, (hn.filter _).erase_eq_filter, List.filter_filter]
    refine List.filter_congr fun x _ => ?_
    by_cases e : x = pg
    · simp [e]
    · simp [e]

/-- A page is cleaned, or its write failed and it is dirty as before. -/
structure Tried (C : Config) (E : Env) (held : Nat → Int) (s s' : State) (pg : Nat) (l : List Nat) : Prop where
  backing : Backing C held s'
  clock : s'.clock = s.clock + 1
  frames : s'.pframes = s.pframes
  entries : NoNewMapping s s'
  dirty : s'.dirtyPages = if E.io s.clock then l else pg :: l

theorem Backing.tried (h : Backing C held s) (hm : pf ∈ s.pframes) (hfile : s.IsFile pf.pf_obj) (hl : s.dirtyPages = pf.pf_addr :: l) :
    ∃ s', pframe_clean E s pf = some s' ∧ Tried C E held s s' pf.pf_addr l := by
  obtain ⟨vn, hvn⟩ := hfile.fileOf
  have hd : s.pf_dirty pf.pf_addr = true := (List.mem_filter.1 (hl ▸ List.mem_cons_self : pf.pf_addr ∈ s.dirtyPages)).2
  obtain ⟨pd, hpd, hc⟩ := pframe_clean_file (E := E) h.steady hm hvn hd
  exact ⟨_, hc, ⟨h.layout.congr rfl, h.chains.congr rfl rfl, h.frames.congr rfl rfl rfl rfl rfl rfl, h.idle, h.hung.congr rfl rfl rfl,
    h.counted, h.num⟩, rfl, rfl, Unmaps.noNew hpd, dirty_cleaned h.frames.alloc_once hl _⟩

/-- The scan stops at the first dirty page. -/
theorem cleanScan_eq (h : Frames s) (hidle : Idle s) : ∀ l : List Nat, (∀ pg ∈ l, pg ∈ s.alloc_list) →
    (l.filter s.pf_dirty = [] → cleanScan E s l = some none) ∧
    ∀ pg l', l.filter s.pf_dirty = pg :: l' → ∃ pf ∈ s.pframes, pf.pf_addr = pg ∧ s.IsFile pf.pf_obj ∧
      cleanScan E s l = (pframe_clean E s pf).map some := by
  intro l hsub
  induction l with
  | nil => exact ⟨fun _ => rfl, fun _ _ h => by cases h⟩
  | cons pg l ih =>
    obtain ⟨ih1, ih2⟩ := ih fun x hx => hsub x (List.mem_cons_of_mem _ hx)
    obtain ⟨pf, hm, rfl, hfile, hpin, hfind⟩ := h.listed (hsub pg List.mem_cons_self)
    have hone : cleanScan E s (pf.pf_addr :: l) =
        if s.pf_dirty pf.pf_addr then (pframe_clean E s pf).map some else cleanScan E s l := by
      simp only [cleanScan, KASSERT, hpin, if_true, hfind, hidle pf hm, bind, Option.bind_some, Bool.false_eq_true, if_false]
    rw [hone]
    cases hd : s.pf_dirty pf.pf_addr with
    | true =>
      rw [List.filter_cons_of_pos hd, if_pos rfl]
      refine ⟨fun e => (by cases e), fun pg l' e => ?_⟩
      cases e
      exact ⟨pf, hm, rfl, hfile, rfl⟩
    | false =>
      rw [List.filter_cons_of_neg (by simp [hd]), if_neg Bool.false_ne_true]
      exact ⟨ih1, ih2⟩

/-- The loop ends where no page is dirty, and else tries the first one. -/
theorem Backing.clean_all_turn (h : Backing C held s) (n : Nat) :
    (s.dirtyPages = [] → pframe_clean_all E (n + 1) s = some s) ∧
    ∀ pg l, s.dirtyPages = pg :: l → ∃ pf ∈ s.pframes, pf.pf_addr = pg ∧ s.IsFile pf.pf_obj ∧ ∃ s', pframe_clean E s pf = some s' ∧
      pframe_clean_all E (n + 1) s = pframe_clean_all E n s' ∧ Tried C E held s s' pg l := by
  obtain ⟨h1, h2⟩ := cleanScan_eq (E := E) h.frames h.idle s.alloc_list fun _ hpg => hpg
  refine ⟨fun he => ?_, fun pg l hl => ?_⟩
  · simp only [pframe_clean_all, h1 he, bind, Option.bind_some]
  · obtain ⟨pf, hm, rfl, hfile, hscan⟩ := h2 pg l hl
    obtain ⟨s', hc, ht⟩ := h.tried hm hfile hl
    exact ⟨pf, hm, rfl, hfile, s', hc, by simp only [pframe_clean_all, hscan, hc, bind, Option.map_some, Option.bind_some], ht⟩

/-! ## When the loops end -/

theorem State.writes_succ (E : Env) (h : s'.clock = s.clock + 1) (m : Nat) :
    s.writes E (m + 1) = s'.writes E m + if E.io s.clock then 1 else 0 := by
  unfold State.writes
  rw [List.range'_succ, List.countP_cons, h]

/-- After a try, the disk has to work once less if it worked. -/
theorem Tried.enough (h : Tried C E held s s' pg l) (m : Nat) :
    s'.dirtyPages.length ≤ s'.writes E m ↔ l.length + 1 ≤ s.writes E (m + 1) := by
  rw [h.dirty, State.writes_succ E h.clock]
  cases E.io s.clock with
  | true => simp only [if_true]; omega
  | false => simp only [Bool.false_eq_true, if_false, List.length_cons]; omega

theorem Backing.clean_all_iff (h : Backing C held s) (n : Nat) :
    (∃ s', pframe_clean_all E (n + 1) s = some s') ↔ ∃ m ≤ n, s.dirtyPages.length ≤ s.writes E m := by
  induction n generalizing s with
  | zero =>
    obtain ⟨h1, h2⟩ := h.clean_all_turn (E := E) 0
    cases hl : s.dirtyPages with
    | nil => exact ⟨fun _ => ⟨0, le_refl _, Nat.zero_le _⟩, fun _ => ⟨s, h1 hl⟩⟩
    | cons pg l =>
      obtain ⟨pf, -, -, -, s', -, e, -⟩ := h2 pg l hl
      rw [e]
      constructor
      · rintro ⟨t, ht⟩
        cases ht
      · rintro ⟨m, hm, hle⟩
        obtain rfl : m = 0 := Nat.le_zero.1 hm
        exact absurd hle (Nat.not_succ_le_zero _)
  | succ n ih =>
    obtain ⟨h1, h2⟩ := h.clean_all_turn (E := E) (n + 1)
    cases hl : s.dirtyPages with
    | nil => exact ⟨fun _ => ⟨0, Nat.zero_le _, Nat.zero_le _⟩, fun _ => ⟨s, h1 hl⟩⟩
    | cons pg l =>
      obtain ⟨pf, -, -, -, s', -, e, ht⟩ := h2 pg l hl
      rw [e, ih ht.backing]
      constructor
      · rintro ⟨m, hm, hle⟩
        exact ⟨m + 1, Nat.succ_le_succ hm, (ht.enough m).1 hle⟩
      · rintro ⟨m, hm, hle⟩
        cases m with
        | zero => exact absurd hle (Nat.not_succ_le_zero _)
        | succ m => exact ⟨m, Nat.le_of_succ_le_succ hm, (ht.enough m).2 hle⟩

/-- It has written as many pages as were dirty. -/
theorem Backing.clean_all_done (h : Backing C held s) (hc : pframe_clean_all E n s = some s') :
    Backing C held s' ∧ s'.dirtyPages = [] ∧ ∃ m, s'.clock = s.clock + m ∧ s.writes E m = s.dirtyPages.length := by
  induction n generalizing s with
  | zero => cases hc
  | succ n ih =>
    obtain ⟨h1, h2⟩ := h.clean_all_turn (E := E) n
    cases hl : s.dirtyPages with
    | nil =>
      rw [h1 hl] at hc
      cases hc
      exact ⟨h, hl, 0, rfl, rfl⟩
    | cons pg l =>
      obtain ⟨pf, -, -, -, t, -, e, ht⟩ := h2 pg l hl
      rw [e] at hc
      obtain ⟨hB, hclean, m, hclock, hw⟩ := ih ht.backing hc
      refine ⟨hB, hclean, m + 1, by rw [hclock, ht.clock]; omega, ?_⟩
      rw [State.writes_succ E ht.clock, hw, ht.dirty]
      cases E.io s.clock with
      | true => rfl
      | false => rfl

/-! ## The pageout daemon -/

theorem pframe_release_clock (h : pframe_release s pf = some s') : s'.clock = s.clock := by
  simp only [pframe_release, bind, Option.bind_eq_some_iff, Option.some.injEq] at h
  obtain ⟨-, -, -, -, s₁, h1, rfl⟩ := h
  obtain ⟨pd, rfl⟩ := remove_from_pts_only h1
  rfl

theorem clock_putSteps : PutSteps (fun s s' => s'.clock = s.clock) where
  refl _ := rfl
  trans h1 h2 := h2.trans h1
  count _ _ _ := rfl
  num _ _ := rfl
  temp _ _ := rfl
  unpin s pg := by
    simp only [pframe_unpin]
    split
    · split <;> rfl
    · rfl
  release := pframe_release_clock
  free _ _ := rfl

/-- Freeing a page leaves fewer pages, and no more that are dirty. -/
theorem Backing.freed (h : Backing C held s) (hheld : ∀ o, 0 ≤ held o) (hm : pf ∈ s.pframes) (hpin : s.pf_pincount pf.pf_addr = 0) :
    ∃ s', pframe_free s pf = some s' ∧ Backing C held s' ∧ s'.pframes.length < s.pframes.length ∧
      s'.dirtyPages.length ≤ s.dirtyPages.length ∧ s'.clock = s.clock := by
  obtain ⟨t, s', hf, hrel, hd, hput, hB'⟩ := pframe_free_effect h hheld hm hpin
  obtain ⟨-, hobjs, -⟩ := hput.rest
  have hfree := hf
  simp only [pframe_free, bind, Option.bind_eq_some_iff] at hfree
  obtain ⟨t', hrel', hp⟩ := hfree
  rw [hrel] at hrel'
  cases hrel'
  have hs := shrunk_putSteps.put hp
  have hsub : s'.pframes ⊆ t.pframes := hs.frames
  have hlist : s'.alloc_list ⊆ s.alloc_list := fun pg hpg => by
    obtain ⟨q, hq, rfl, ⟨ob, hob, hfile⟩, -⟩ := hB'.frames.listed hpg
    rw [hobjs, hd.objs] at hob
    exact (h.frames.file q ((hd.mem_pframes h.frames).1 (hsub hq)).2 ob hob hfile).2
  refine ⟨s', hf, hB', ?_, ?_, (clock_putSteps.put hp).trans (pframe_release_clock hrel)⟩
  · have h1 := (hB'.frames.nodup.subperm hsub).length_le
    rw [hd.pframes, List.length_erase_of_mem hm] at h1
    have := List.length_pos_of_mem hm
    omega
  · refine ((hB'.frames.alloc_once.filter _).subperm fun pg hpg => ?_).length_le
    obtain ⟨h1, h2⟩ := List.mem_filter.1 hpg
    exact List.mem_filter.2 ⟨hlist h1, by rwa [hs.dirty, hd.dirty] at h2⟩

/-- The daemon tries the first page if it is dirty, and frees it if it is not. -/
theorem Backing.pageoutd_turn_first (h : Backing C held s) (hl : s.alloc_list = pg :: l) : ∃ pf ∈ s.pframes, pf.pf_addr = pg ∧
    s.IsFile pf.pf_obj ∧ s.pf_pincount pf.pf_addr = 0 ∧
    pageoutd_turn E s = if s.pf_dirty pf.pf_addr then pframe_clean E s pf else pframe_free s pf := by
  obtain ⟨pf, hm, rfl, hfile, hpin, hfind⟩ := h.frames.listed (hl ▸ List.mem_cons_self : pg ∈ s.alloc_list)
  refine ⟨pf, hm, rfl, hfile, hpin, ?_⟩
  simp only [pageoutd_turn, hl, List.head?_cons, hfind, h.idle pf hm, bind, Option.bind_some, Bool.false_eq_true, if_false]

/-- By induction on the pages and the disk operations that are left. -/
theorem Backing.loop_returns (hheld : ∀ o, 0 ≤ held o) (met : State → Bool) (k : Nat) : ∀ {s : State} {m : Nat}, Backing C held s →
    s.pframes.length + m ≤ k → s.dirtyPages.length ≤ s.writes E m →
    ∃ s', pageoutd_loop E met (k + 1) s = some s' ∧ (met s' = true ∨ s'.alloc_list = []) := by
  induction k with
  | zero =>
    intro s m h hk hw
    have hnil : s.alloc_list = [] := List.eq_nil_iff_forall_not_mem.2 fun pg hpg => by
      obtain ⟨pf, hm, -⟩ := h.frames.listed hpg
      have := List.length_pos_of_mem hm
      omega
    exact ⟨s, by simp only [pageoutd_loop, hnil, or_true, if_true], .inr hnil⟩
  | succ k ih =>
    intro s m h hk hw
    by_cases hend : met s = true ∨ s.alloc_list = []
    · exact ⟨s, by rw [pageoutd_loop, if_pos hend], hend⟩
    · obtain ⟨pg, l, hl⟩ := List.exists_cons_of_ne_nil fun e => hend (.inr e)
      obtain ⟨pf, hm, rfl, hfile, hpin, hturn⟩ := h.pageoutd_turn_first (E := E) hl
      rw [pageoutd_loop, if_neg hend, hturn]
      cases hd : s.pf_dirty pf.pf_addr with
      | true =>
        obtain ⟨s', hc, ht⟩ := h.tried (E := E) hm hfile (by rw [State.dirtyPages, hl, List.filter_cons_of_pos hd])
        rw [if_pos rfl, hc, Option.bind_some]
        cases m with
        | zero =>
          rw [State.dirtyPages, hl, List.filter_cons_of_pos hd] at hw
          exact absurd hw (Nat.not_succ_le_zero _)
        | succ m =>
          refine ih (m := m) ht.backing (by rw [ht.frames]; omega) ((ht.enough m).2 ?_)
          rwa [State.dirtyPages, hl, List.filter_cons_of_pos hd] at hw
      | false =>
        obtain ⟨s', hf, hB', hlen, hdirty, hclock⟩ := h.freed hheld hm hpin
        rw [if_neg Bool.false_ne_true, hf, Option.bind_some]
        refine ih (m := m) hB' (by omega) (hdirty.trans ?_)
        unfold State.writes at hw ⊢
        rwa [hclock]

/-! ## Runs -/

/-- The disk fails once. -/
def Env.hiccup : Env := { Env.simple with io := fun t => decide (t ≠ 6) }

/-- The kernel writes to two pages of a file. -/
def writesTwo : List Event := [.spawn, .opened 0 3 0 { read := true, write := true } 0,
  .mmap 0 0 8192 { read := true, write := true } { shared := true } 3 0, .copyout 0 0x400000 (fun _ => 7) 1,
  .copyout 0 0x401000 (fun _ => 9) 1]

theorem two_pages_dirty : ∃ s tr, Run (step .stock .hiccup) TracedTurn oneFile s tr ∧ s.dirtyPages.length = 2 ∧ s.clock = 6 := by
  have hex : (exec (step .stock .hiccup) (fun s e => decide (TracedTurn s e)) oneFile writesTwo).map
      (fun r => (r.1.dirtyPages.length, r.1.clock)) = some (2, 6) := by decide +kernel
  simp only [Option.map_eq_some_iff, Prod.mk.injEq, Prod.exists] at hex
  obtain ⟨s, tr, he, hdirty, hclock⟩ := hex
  exact ⟨s, tr, Run.of_exec (fun _ _ => of_decide_eq_true) he, hdirty, hclock⟩

end Weenix.Vm
