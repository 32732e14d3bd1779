import Weenix.Vm.Calls
/-!
# `sys_getdents` (`api/syscall.c`)

The loop of `sys_getdents` copies every entry to the start of the buffer, and does
not look at what the copy returns nor at how much of the buffer is left. Where the
buffer begins it reads from user memory each time.
-/

namespace Weenix.Vm

open Lib Files

variable {τ : Type} {C : Config} {E : Env} {mm mm' mm₁ t : State} {p arg k k' S fuel bCount : Nat} {held : Nat → Int} {pr : Proc}

/-- `sizeof(dirent_t)`. -/
def direntSize (F : Io τ) : Nat := F.sizeof_dirent.toNat

section
variable (E : Env) (N : Nat) (F : Io τ) (O : FileCalls τ) (L : ArgsLayout BufArgs) (stack : Nat → UInt8) (room : Nat → Bool)
  (cache : State → State)

/-- The loop, with the `k` entries that have been read; `dirents j` are the bytes of
entry `j`. It is followed for `fuel` turns. -/
def getdents_from (dirents : Nat → Nat → UInt8) (p arg : Nat) (getdents_params : BufArgs) :
    Nat → System τ → State → Nat → Nat → Option (System τ × State × Nat × Except Errno Int)
  | 0, _, _, _, _ => none
  | fuel + 1, s, mm, k, bCount =>
    if ¬ getdents_params.nbytes > bCount then some (s, mm, k, .ok bCount)
    else do
      let (s, val) ← VmSubmit.do_getdent N F O s p getdents_params.fd
      let mm := cache mm
      match val with
      | .error e => some (s, mm, k, .error e)
      | .ok val =>
        if val < 0 then some (s, mm, k, .ok val)
        else if val = 0 then some (s, mm, k, .ok bCount)
        else do
          let curproc ← mm.procs p
          -- to `arg->dirp`; what this returns is not looked at
          let (mm, _) ← copy_to_user E mm p (argsAt L mm curproc.p_vmmap arg).buf (dirents k) (direntSize F)
          getdents_from dirents p arg getdents_params fuel s mm (k + 1) (u32 (bCount + val.toNat))

/-- The third result is the number of entries that were read. -/
def sys_getdents (dirents : Nat → Nat → UInt8) (fuel : Nat) (s : System τ) (mm : State) (p arg : Nat) :
    Option (System τ × State × Nat × Except Errno Int) := do
  let (mm, args) ← copyArgs E L stack mm p arg
  match args with
  | .error _ => some (s, mm, 0, .error .EFAULT)
  | .ok getdents_params =>
    -- `return NULL`
    if !room (direntSize F) then some (s, mm, 0, .ok 0)
    else getdents_from E N F O L cache dirents p arg getdents_params fuel s mm 0 0

/-- How many entries the directory has for a request of `count` bytes, and what the
loop ends with: `do_getdent` until one is 0 or an error or the count is reached. -/
def entriesFor (p : Nat) (fd : Int) (count : Nat) : Nat → System τ → Nat → Nat → Option (Nat × Except Errno Int)
  | 0, _, _, _ => none
  | fuel + 1, s, k, bCount =>
    if ¬ count > bCount then some (k, .ok bCount)
    else do
      let (s, val) ← VmSubmit.do_getdent N F O s p fd
      match val with
      | .error e => some (k, .error e)
      | .ok val =>
        if val < 0 then some (k, .ok val)
        else if val = 0 then some (k, .ok bCount)
        else entriesFor p fd count fuel s (k + 1) (u32 (bCount + val.toNat))

end

/-- What is asked of a call: if it returns `n`, these are the bytes of all the entries
that were read, no more than were asked for, and they are in the buffer one after
another; no other byte changes. `S` is the size of an entry. -/
def DirRight (S : Nat) (mm mm' : State) (m : Nat) (args : BufArgs) (dirents : Nat → Nat → UInt8) (k : Nat)
    (r : Except Errno Int) : Prop :=
  ∀ n : Nat, r = .ok n → n ≤ args.nbytes ∧ n = k * S ∧ Delivered mm mm' m args.buf n fun i => dirents (i / S) (i % S)

/-- One entry is read, and there is room for it. -/
structure OneEntry (S : Nat) (mm : State) (m : Nat) (args : BufArgs) (k : Nat) : Prop where
  one : k = 1
  asked : S ≤ args.nbytes
  perm : range_perm (mm.vmm_list m) args.buf S { write := true } = true
  room : RoomFor mm m args.buf S S

/-! ## The directory -/

section
variable {N : Nat} {F : Io τ} {O : FileCalls τ} {L : ArgsLayout BufArgs} {stack : Nat → UInt8} {room : Nat → Bool}
  {cache : State → State} {s s' : System τ} {r : Except Errno Int} {args : BufArgs} {dirents : Nat → Nat → UInt8}

/-- A positive result is the size of an entry. -/
theorem do_getdent_val {fd val : Int} (h : VmSubmit.do_getdent N F O s p fd = some (s', .ok val)) (hpos : 0 < val) :
    val = F.sizeof_dirent := by
  simp only [VmSubmit.do_getdent] at h
  split at h
  · cases h
  split at h
  · cases h
  split at h
  · cases h
  simp only [bind, Option.bind_eq_some_iff] at h
  obtain ⟨file, _, vn, _, h⟩ := h
  split at h
  · obtain ⟨_, -, h⟩ := Option.bind_eq_some_iff.1 h
    cases h
  obtain ⟨⟨fs, v⟩, _, h⟩ := Option.bind_eq_some_iff.1 h
  simp only at h
  split at h
  · obtain ⟨_, -, h⟩ := Option.bind_eq_some_iff.1 h
    cases h
    rfl
  · obtain ⟨_, -, h⟩ := Option.bind_eq_some_iff.1 h
    cases h
    omega

/-- The bytes that are counted are those of the entries. -/
theorem entriesFor_count {fd : Int} {count n : Nat} : ∀ {fuel : Nat} {s : System τ} {k bCount : Nat},
    entriesFor N F O p fd count fuel s k bCount = some (k', .ok n) → bCount = u32 (k * direntSize F) →
      k ≤ k' ∧ n = u32 (k' * direntSize F) ∧ (k < k' → 0 < direntSize F) := by
  intro fuel
  induction fuel with
  | zero => intro s k bCount h; cases h
  | succ fuel ih =>
    intro s k bCount h hb
    have hends (h : some (k, (.ok bCount : Except Errno Int)) = some (k', .ok n)) :
        k ≤ k' ∧ n = u32 (k' * direntSize F) ∧ (k < k' → 0 < direntSize F) := by
      simp only [Option.some.injEq, Prod.mk.injEq, Except.ok.injEq, Nat.cast_inj] at h
      obtain ⟨rfl, rfl⟩ := h
      exact ⟨le_rfl, hb, fun h => absurd h (Nat.lt_irrefl _)⟩
    simp only [entriesFor] at h
    split at h
    · exact hends h
    simp only [bind, Option.bind_eq_some_iff, Prod.exists] at h
    obtain ⟨s₁, val, hget, h⟩ := h
    cases val with
    | error e => cases h
    | ok val =>
      simp only at h
      split at h
      next hneg =>
        simp only [Option.some.injEq, Prod.mk.injEq, Except.ok.injEq] at h
        omega
      next hneg =>
      split at h
      next => exact hends h
      next hne =>
        have hval := do_getdent_val hget (by omega)
        obtain ⟨h1, h2, -⟩ := ih h (by
          rw [hval, hb, Nat.succ_mul]
          unfold u32 direntSize
          omega)
        exact ⟨by omega, h2, fun _ => by unfold direntSize; omega⟩

/-! ## The memory of a call -/

theorem argsAt_congr (h : t.byteAt = mm.byteAt) : argsAt L t = argsAt L mm := by
  funext m arg
  simp only [argsAt, h]

/-- Memory as a call of process `p` finds it. -/
structure Serving (C : Config) (held : Nat → Int) (p : Nat) (pr : Proc) (mm : State) : Prop where
  backing : Backing C held mm
  settled : Settled mm
  proc : mm.procs p = some pr

namespace Serving
variable {buf : Nat} {kmem : Nat → UInt8} {e : Except Errno Unit} {b : UInt8}

theorem quiet (h : Serving C held p pr mm) (hB : Backing C held t) (hq : Quiet mm t) : Serving C held p pr t :=
  ⟨hB, h.settled.congr hq.lists, by rw [hq.procs, h.proc]⟩

theorem cached (h : Serving C held p pr mm) (hcache : CacheQuiet C cache) : Serving C held p pr (cache mm) :=
  h.quiet (hcache.backing held mm h.backing) (hcache.quiet held mm h.backing)

theorem copied (h : Serving C held p pr mm) (hheld : ∀ o, 0 ≤ held o) (hio : ∀ n, E.io n = true) (hlt : C.USER_MEM_HIGH + S < 2 ^ 32)
    (hcopy : copy_to_user E mm p buf kmem S = some (t, e)) : Serving C held p pr t := by
  have hspaces := copy_to_user_spaces hcopy
  obtain ⟨t', e', hcopy', hB⟩ := copy_to_user_returns hheld hio h.backing h.settled hlt
    (by rw [h.proc]; exact Option.some_ne_none _) buf kmem
  rw [hcopy] at hcopy'
  cases hcopy'
  exact ⟨hB, h.settled.congr (congrArg Spaces.vmm_list hspaces), (congrFun (congrArg Spaces.procs hspaces) p).trans h.proc⟩

/-- The first byte of a buffer whose bytes are all the same gets to where it belongs. -/
theorem first (h : Serving C held p pr mm) (hheld : ∀ o, 0 ≤ held o) (hio : ∀ n, E.io n = true) (hlt : C.USER_MEM_HIGH + S < 2 ^ 32)
    (hS : 0 < S) (hperm : range_perm (mm.vmm_list pr.p_vmmap) buf S { write := true } = true)
    (hm : AllMapped ((mm.vmm_list pr.p_vmmap).map VmArea.span) buf S)
    (hcopy : copy_to_user E mm p buf (fun _ => b) S = some (t, e)) : t.byteAt pr.p_vmmap buf = b := by
  have hok := h.backing.layout.areas pr.p_vmmap
  have hlow := range_perm_low hok hperm
  obtain ⟨⟨o, pn⟩, hx⟩ := hm.objPage hok h.settled hS
  rw [Nat.add_zero] at hx
  obtain ⟨t', hw, hb⟩ := vmmap_write_first (E := E) h.backing hheld h.settled hio (by omega) hS hx b
  have hlists : t'.vmm_list = mm.vmm_list := congrArg Spaces.vmm_list (write_areas_spaces hw)
  simp only [copy_to_user, h.proc, hperm, hw, bind, Option.bind_some, Bool.true_eq_false, if_false] at hcopy
  cases hcopy
  rwa [State.byteAt, pageAt_eq (show t.objPage pr.p_vmmap (ADDR_TO_PN buf) = some (o, pn) by
    simpa only [State.objPage, hlists] using hx)]

/-- The last byte of a buffer of three pages does not. -/
theorem strays (h : Serving C held p pr mm) (hheld : ∀ o, 0 ≤ held o) (hio : ∀ n, E.io n = true) (hlt : C.USER_MEM_HIGH + S < 2 ^ 32)
    (hperm : range_perm (mm.vmm_list pr.p_vmmap) buf S { write := true } = true)
    (hm : AllMapped ((mm.vmm_list pr.p_vmmap).map VmArea.span) buf S) (h2 : ¬ TwoPages buf S)
    (hcopy : copy_to_user E mm p buf (zerosFor S) S = some (t, e)) : t.byteAt pr.p_vmmap (buf + (S - 1)) = 1 := by
  have hlow := range_perm_low (h.backing.layout.areas _) hperm
  obtain ⟨t', hw, hb⟩ := vmmap_write_strays (E := E) h.backing hheld h.settled hio (by omega) hm h2
  simp only [copy_to_user, h.proc, hperm, hw, bind, Option.bind_some, Bool.true_eq_false, if_false] at hcopy
  cases hcopy
  exact hb

end Serving

/-! ## The loop -/

/-- What memory is after the entries `k` to `k' - 1`, each copied to where `arg->dirp` points then. -/
inductive Spread (E : Env) (L : ArgsLayout BufArgs) (cache : State → State) (p m arg S : Nat) (dirents : Nat → Nat → UInt8) (k' : Nat) :
    Nat → State → State → Prop
  | done {mm mm' : State} : Quiet mm mm' → Spread E L cache p m arg S dirents k' k' mm mm'
  | turn {k : Nat} {mm t mm' : State} {e : Except Errno Unit} :
      copy_to_user E (cache mm) p (argsAt L (cache mm) m arg).buf (dirents k) S = some (t, e) →
        Spread E L cache p m arg S dirents k' (k + 1) t mm' → Spread E L cache p m arg S dirents k' k mm mm'

namespace Spread
variable {m : Nat} {b : UInt8}

theorem le (h : Spread E L cache p m arg S dirents k' k mm mm') : k ≤ k' := by
  induction h with
  | done _ => exact le_rfl
  | turn _ _ ih => exact (Nat.le_succ _).trans ih

theorem rest (h : Spread E L cache p m arg S dirents k k mm mm') : Quiet mm mm' := by
  cases h with
  | done hq => exact hq
  | turn _ h => exact absurd h.le (Nat.not_succ_le_self _)

theorem step (h : Spread E L cache p m arg S dirents k' k mm mm') (hlt : k < k') :
    ∃ t e, copy_to_user E (cache mm) p (argsAt L (cache mm) m arg).buf (dirents k) S = some (t, e) ∧
      Spread E L cache p m arg S dirents k' (k + 1) t mm' := by
  cases h with
  | done _ => exact absurd hlt (Nat.lt_irrefl _)
  | turn hcopy h => exact ⟨_, _, hcopy, h⟩

/-- A copy that the check refuses leaves the arguments as they are, so it refuses all of them. -/
theorem refused (h : Spread E L cache p pr.p_vmmap arg S dirents k' k mm mm') (hcache : CacheQuiet C cache)
    (hsv : Serving C held p pr mm)
    (hno : range_perm (mm.vmm_list pr.p_vmmap) (argsAt L mm pr.p_vmmap arg).buf S { write := true } = false) : Quiet mm mm' := by
  induction h with
  | done hq => exact hq
  | @turn k mm t mm' e hcopy _ ih =>
    have hq := hcache.quiet held mm hsv.backing
    have hsv' := hsv.cached hcache
    rw [← hq.lists, ← argsAt_congr hq.byteAt] at hno
    simp only [copy_to_user, hsv'.proc, hno, bind, Option.bind_some, if_true, Option.some.injEq, Prod.mk.injEq] at hcopy
    obtain ⟨rfl, -⟩ := hcopy
    exact hq.trans (ih hsv' hno)

/-- Entries of the one byte `b` leave nothing else, wherever they are copied to. -/
theorem smears (h : Spread E L cache p pr.p_vmmap arg S dirents k' k mm mm') (hheld : ∀ o, 0 ≤ held o) (hio : ∀ n, E.io n = true)
    (hcache : CacheQuiet C cache) (hlt : C.USER_MEM_HIGH + S < 2 ^ 32) (hsv : Serving C held p pr mm)
    (hb : ∀ j, k ≤ j → dirents j = fun _ => b) : Smeared b mm mm' := by
  induction h with
  | done hq => exact hq.smeared b
  | @turn k mm t mm' e hcopy _ ih =>
    have hsv' := hsv.cached hcache
    have hrest := ih (hsv'.copied hheld hio hlt hcopy) fun j hj => hb j (by omega)
    rw [hb k le_rfl] at hcopy
    exact ((hcache.quiet held mm hsv.backing).smeared b).trans
      ((copy_to_user_smears hsv'.backing hheld hsv'.settled hio hlt hsv'.proc hcopy).trans hrest)

end Spread

/-- The loop ends as the directory says, and has copied the entries. -/
theorem getdents_from_run (args : BufArgs) (dirents : Nat → Nat → UInt8) (hheld : ∀ o, 0 ≤ held o) (hio : ∀ n, E.io n = true) (hcache : CacheQuiet C cache)
    (hlt : C.USER_MEM_HIGH + direntSize F < 2 ^ 32) : ∀ {fuel : Nat} {s : System τ} {mm : State} {k bCount : Nat},
    Serving C held p pr mm →
      (entriesFor N F O p args.fd args.nbytes fuel s k bCount = none ∧
        getdents_from E N F O L cache dirents p arg args fuel s mm k bCount = none) ∨
      ∃ k' r s' mm', entriesFor N F O p args.fd args.nbytes fuel s k bCount = some (k', r) ∧
        getdents_from E N F O L cache dirents p arg args fuel s mm k bCount = some (s', mm', k', r) ∧
        Spread E L cache p pr.p_vmmap arg (direntSize F) dirents k' k mm mm' := by
  intro fuel
  induction fuel with
  | zero => exact fun _ => .inl ⟨rfl, rfl⟩
  | succ fuel ih =>
    intro s mm k bCount hsv
    have hq := hcache.quiet held mm hsv.backing
    have hsv' := hsv.cached hcache
    simp only [entriesFor, getdents_from]
    by_cases hdone : ¬ args.nbytes > bCount
    · exact .inr ⟨k, .ok bCount, s, mm, by rw [if_pos hdone], by rw [if_pos hdone], .done (.refl mm)⟩
    simp only [if_neg hdone]
    cases hget : VmSubmit.do_getdent N F O s p args.fd with
    | none => exact .inl ⟨rfl, rfl⟩
    | some x =>
      obtain ⟨s₁, val⟩ := x
      simp only [bind, Option.bind_some]
      cases val with
      | error e => exact .inr ⟨k, .error e, s₁, cache mm, rfl, rfl, .done hq⟩
      | ok val =>
        simp only
        by_cases hneg : val < 0
        · exact .inr ⟨k, .ok val, s₁, cache mm, if_pos hneg, if_pos hneg, .done hq⟩
        by_cases hzero : val = 0
        · simp only [if_neg hneg, if_pos hzero]
          exact .inr ⟨k, .ok bCount, s₁, cache mm, rfl, rfl, .done hq⟩
        simp only [if_neg hneg, if_neg hzero, hsv'.proc, Option.bind_some]
        obtain ⟨t, e, hcopy, -⟩ := copy_to_user_returns hheld hio hsv'.backing hsv'.settled hlt
          (by rw [hsv'.proc]; exact Option.some_ne_none _) (argsAt L (cache mm) pr.p_vmmap arg).buf (dirents k)
        simp only [hcopy, Option.bind_some]
        rcases @ih s₁ t (k + 1) (u32 (bCount + val.toNat)) (hsv'.copied hheld hio hlt hcopy) with h | ⟨k', r, s', mm', h1, h2, hsp⟩
        · exact .inl h
        · exact .inr ⟨k', r, s', mm', h1, h2, .turn hcopy hsp⟩

/-! ## Every call -/

/-- The copy of one entry, after it has been read. -/
theorem entry_delivers_iff {buf : Nat} (hheld : ∀ o, 0 ≤ held o) (hio : ∀ n, E.io n = true) (hlt : C.USER_MEM_HIGH + S < 2 ^ 32)
    (hpr : mm.procs p = some pr) (hq : Quiet mm t) (hsv : Serving C held p pr t)
    (hperm : range_perm (mm.vmm_list pr.p_vmmap) buf S { write := true } = true) :
    (∀ kmem, ∃ s' r, copy_to_user E t p buf kmem S = some (s', r) ∧ Delivered mm s' pr.p_vmmap buf S kmem) ↔
      RoomFor mm pr.p_vmmap buf S S := by
  rw [copy_to_user_delivers_iff hsv.backing hheld hsv.settled hio hlt le_rfl hq hpr, if_pos hperm]

/-- Whatever the entries hold, the loop delivers the `n` bytes of the `k` that are read. -/
def EntriesGot (E : Env) (L : ArgsLayout BufArgs) (cache : State → State) (p m arg : Nat) (args : BufArgs) (S k n : Nat)
    (mm mm₁ : State) : Prop :=
  ∀ dirents, ∃ mm', Spread E L cache p m arg S dirents k 0 mm₁ mm' ∧ n ≤ args.nbytes ∧ n = k * S ∧
    Delivered mm mm' m args.buf n fun i => dirents (i / S) (i % S)

namespace EntriesGot
variable {n : Nat}

/-- The check lets the entries be copied. -/
theorem perm (h : EntriesGot E L cache p pr.p_vmmap arg args S k n mm mm₁) (hcache : CacheQuiet C cache)
    (hsv : Serving C held p pr mm₁) (hbuf : args.buf = (argsAt L mm₁ pr.p_vmmap arg).buf) (hk : k ≠ 0) (hS : 0 < S) :
    range_perm (mm₁.vmm_list pr.p_vmmap) args.buf S { write := true } = true := by
  have hpos : 0 < k * S := Nat.mul_pos (Nat.pos_of_ne_zero hk) hS
  by_contra hno
  rw [Bool.not_eq_true, hbuf] at hno
  obtain ⟨t₀, hsp₀, -, hn, hd₀⟩ := h fun _ _ => 0
  obtain ⟨t₁, hsp₁, -, -, hd₁⟩ := h fun _ _ => 1
  have h0 := hd₀.byteAt (show 0 < n by omega)
  have h1 := hd₁.byteAt (show 0 < n by omega)
  rw [(hsp₀.refused hcache hsv hno).byteAt] at h0
  rw [(hsp₁.refused hcache hsv hno).byteAt, h0] at h1
  exact absurd h1 (by decide)

/-- There is room for one. -/
theorem fits (h : EntriesGot E L cache p pr.p_vmmap arg args S k n mm mm₁) (hheld : ∀ o, 0 ≤ held o) (hio : ∀ n, E.io n = true)
    (hcache : CacheQuiet C cache) (hlt : C.USER_MEM_HIGH + S < 2 ^ 32) (hq : Quiet mm mm₁) (hsv : Serving C held p pr mm₁)
    (hbuf : args.buf = (argsAt L mm₁ pr.p_vmmap arg).buf) (hk : k ≠ 0) (hS : 0 < S) : RoomFor mm pr.p_vmmap args.buf S S := by
  have hle : S ≤ k * S := Nat.le_mul_of_pos_left S (Nat.pos_of_ne_zero hk)
  have hq' := hcache.quiet held mm₁ hsv.backing
  have hperm := h.perm hcache hsv hbuf hk hS
  have hm : AllMapped ((mm.vmm_list pr.p_vmmap).map VmArea.span) args.buf S := by
    obtain ⟨mm', -, -, hn, hd⟩ := h fun _ _ => 0
    exact fun i hi => hd.mapped i (by omega)
  refine ⟨hm, ?_, ?_, .inl rfl⟩
  · by_contra h2
    -- the last byte of the first entry is wrong, and no other entry has the right one
    obtain ⟨mm', hsp, -, hn, hd⟩ := h fun j => if j = 0 then zerosFor S else fun _ => 1
    obtain ⟨t, e, hcopy, hsp⟩ := hsp.step (Nat.pos_of_ne_zero hk)
    rw [argsAt_congr hq'.byteAt, ← hbuf, if_pos rfl] at hcopy
    have hsv' := hsv.cached hcache
    have hstray := hsv'.strays hheld hio hlt (by rwa [hq'.lists]) (by rwa [hq'.lists, hq.lists]) h2 hcopy
    have hend := (hsp.smears hheld hio hcache hlt (hsv'.copied hheld hio hlt hcopy) fun j hj => if_neg (by omega)).byteAt hstray
    rw [hd.byteAt (show S - 1 < n by omega), Nat.div_eq_of_lt (by omega), Nat.mod_eq_of_lt (by omega), if_pos rfl, zerosFor,
      if_pos (by omega)] at hend
    exact absurd hend (by decide)
  · intro i j x hij hj hx hy hoff
    obtain ⟨mm', -, -, hn, hd⟩ := h fun _ r => if r = i then 0 else 1
    have hsame := hd.twice (by omega) (by omega) hx hy hoff
    rw [Nat.mod_eq_of_lt (by omega), Nat.mod_eq_of_lt hj, if_pos rfl, if_neg (by omega)] at hsame
    exact absurd hsame (by decide)

/-- There is one. If the first is what is there already, the second is copied over it. -/
theorem one (h : EntriesGot E L cache p pr.p_vmmap arg args S k n mm mm₁) (hheld : ∀ o, 0 ≤ held o) (hio : ∀ n, E.io n = true)
    (hcache : CacheQuiet C cache) (hlt : C.USER_MEM_HIGH + S < 2 ^ 32) (hc : Chains mm) (hq : Quiet mm mm₁)
    (hsv : Serving C held p pr mm₁) (hbuf : args.buf = (argsAt L mm₁ pr.p_vmmap arg).buf) (hk : k ≠ 0) (hS : 0 < S) : k = 1 := by
  have hperm := h.perm hcache hsv hbuf hk hS
  have hfits := h.fits hheld hio hcache hlt hq hsv hbuf hk hS
  have hq₁ := hcache.quiet held mm₁ hsv.backing
  have hsv₁ := hsv.cached hcache
  by_contra hne
  obtain ⟨b, hb⟩ : ∃ b, b ≠ mm.byteAt pr.p_vmmap args.buf := by
    by_cases h0 : mm.byteAt pr.p_vmmap args.buf = 0
    · exact ⟨1, by rw [h0]; decide⟩
    · exact ⟨0, Ne.symm h0⟩
  obtain ⟨mm', hsp, -, hn, hd⟩ := h fun j => if j = 0 then (fun i => mm.byteAt pr.p_vmmap (args.buf + i)) else fun _ => b
  obtain ⟨t, e, hcopy, hsp⟩ := hsp.step (Nat.pos_of_ne_zero hk)
  rw [argsAt_congr hq₁.byteAt, ← hbuf, if_pos rfl] at hcopy
  have hbytes : t.byteAt = mm.byteAt := by
    obtain ⟨t', e', hcopy', hd'⟩ := (entry_delivers_iff hheld hio hlt (by rw [← hq.procs, hsv.proc]) (hq.trans hq₁) hsv₁
      (by rwa [← hq.lists])).2 hfits _
    rw [hcopy] at hcopy'
    cases hcopy'
    exact hd'.kept hc fun i _ => rfl
  have hsv₂ := hsv₁.copied hheld hio hlt hcopy
  have hq₂ := hcache.quiet held t hsv₂.backing
  obtain ⟨u, e', hcopy', hsp⟩ := hsp.step (show 0 + 1 < k by omega)
  rw [argsAt_congr hq₂.byteAt, argsAt_congr hbytes, ← argsAt_congr hq.byteAt, ← hbuf, if_neg (by omega)] at hcopy'
  have hlists : t.vmm_list = (cache mm₁).vmm_list := congrArg Spaces.vmm_list (copy_to_user_spaces hcopy)
  have hsv₃ := hsv₂.cached hcache
  have hfirst := hsv₃.first hheld hio hlt hS (by rwa [hq₂.lists, hlists, hq₁.lists])
    (by rw [hq₂.lists, hlists, hq₁.lists, hq.lists]; exact hfits.mapped) hcopy'
  have hend := (hsp.smears hheld hio hcache hlt (hsv₃.copied hheld hio hlt hcopy') fun j hj => if_neg (by omega)).byteAt hfirst
  have h0 := hd.byteAt (show 0 < n by have := Nat.mul_pos (Nat.pos_of_ne_zero hk) hS; omega)
  rw [Nat.add_zero, hend, Nat.zero_div, Nat.zero_mod, if_pos rfl, Nat.add_zero] at h0
  exact hb h0

end EntriesGot

/-- Where one entry fits, it is delivered. -/
theorem OneEntry.delivered (h : OneEntry S mm pr.p_vmmap args k) (hheld : ∀ o, 0 ≤ held o) (hio : ∀ n, E.io n = true)
    (hcache : CacheQuiet C cache) (hlt : C.USER_MEM_HIGH + S < 2 ^ 32) (hq : Quiet mm mm₁) (hsv : Serving C held p pr mm₁)
    (hbuf : args.buf = (argsAt L mm₁ pr.p_vmmap arg).buf) (hsp : Spread E L cache p pr.p_vmmap arg S dirents k 0 mm₁ mm') :
    Delivered mm mm' pr.p_vmmap args.buf S fun i => dirents (i / S) (i % S) := by
  obtain ⟨rfl, -, hperm, hfits⟩ := h
  have hq₁ := hcache.quiet held mm₁ hsv.backing
  obtain ⟨t, e, hcopy, hd⟩ := (entry_delivers_iff (E := E) hheld hio hlt (by rw [← hq.procs, hsv.proc]) (hq.trans hq₁)
    (hsv.cached hcache) hperm).2 hfits (dirents 0)
  obtain ⟨t', e', hcopy', hsp⟩ := hsp.step Nat.one_pos
  rw [argsAt_congr hq₁.byteAt, ← hbuf, hcopy] at hcopy'
  cases hcopy'
  refine ((Delivered.quiet_iff hsp.rest).2 hd).congr fun i hi => ?_
  rw [Nat.div_eq_of_lt hi, Nat.mod_eq_of_lt hi]

end

/-- A directory of `n` entries of 40 bytes. -/
def dirOf (n : Int) : Io (Nat → Vfs.Name → Option Nat) :=
  { flatIo with readdir := fun s _ pos => some (s, if pos < 40 * n then 40 else 0) }

/-- One process, whose descriptor 0 is open for a directory. -/
def openDir : System (Nat → Vfs.Name → Option Nat) :=
  { openSystem with files := fun f => if f = 0 then some { f_refcount := 1, f_mode := { read := true }, f_vnode := some 0 } else none }

/-- Descriptor 0, and `n` bytes at `0x400000`. -/
def direntsArgs (n : UInt8) : List UInt8 := [0, 0, 0, 0, 0, 0, 0x40, 0, n]

end Weenix.Vm
