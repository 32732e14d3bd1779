import Mathlib.Data.List.Perm.Basic
import Weenix.Basic
/-!
# Vectors of strings from user space (`api/access.c`)

`user_vecdup` allocates an array for the vector and one for the copies, copies
the vector, and makes a copy of each string. The sizes wrap around. When it fails
it frees the copies up to the first null pointer in the second array, which holds
anything until it is written.

`kmalloc` and `copy_from_user` are parameters. The ledger has the blocks that
`kmalloc` gave and those that `kfree` got.
-/

namespace Weenix.Vm.VecDup

structure argstr_t where
  as_str : Nat
  as_len : Nat
  deriving DecidableEq

structure argvec_t where
  av_vec : Nat
  av_len : Nat
  deriving DecidableEq

def sizeof_argstr_t : Nat := 8
def sizeof_ptr : Nat := 4

/-- What the calls outside give: the address of the `n`th block, `NULL` when there is none; what the block for the copies
holds when it is fresh; how a copy to kernel memory ends; and the vector in user memory. -/
structure Env where
  kmalloc : Nat → Nat → Nat
  stale : Nat → Nat
  copy_from_user : Nat → Nat → Nat → Except Errno Unit
  vec : Nat → argstr_t

structure Ledger where
  calls : Nat := 0
  allocs : List Nat := []
  frees : List Nat := []
  deriving DecidableEq

def kfree (s : Ledger) (addr : Nat) : Ledger := if addr = 0 then s else { s with frees := addr :: s.frees }

section
variable (E : Env)

def kmalloc (s : Ledger) (size : Nat) : Ledger × Nat :=
  let addr := E.kmalloc s.calls size
  ({ s with calls := s.calls + 1, allocs := if addr = 0 then s.allocs else addr :: s.allocs }, addr)

/-- The error is `kt_errno`. -/
def user_strdup (s : Ledger) (ustr : argstr_t) : Ledger × Except Errno Nat :=
  let (s, kstr) := kmalloc E s (u32 (ustr.as_len + 1))
  if kstr = 0 then (s, .error .ENOMEM)
  else
    match E.copy_from_user kstr ustr.as_str (u32 (ustr.as_len + 1)) with
    | .error ret => (kfree s kstr, .error ret)
    | .ok _ => (s, .ok kstr)

/-- The loop that copies `n` more strings, from the `i`th on. The result has the error that stopped it. -/
def dupStrings (temp_kvec : List argstr_t) : Nat → Nat → Ledger → List Nat → Option (Ledger × List Nat × Option Errno)
  | 0, _, s, kvec => some (s, kvec, none)
  | n + 1, i, s, kvec => do
    let ustr ← temp_kvec[i]?
    KASSERT (i < kvec.length)
    match user_strdup E s ustr with
    | (s, .error ret) => some (s, kvec.set i 0, some ret)
    | (s, .ok kstr) => dupStrings temp_kvec n (i + 1) s (kvec.set i kstr)

/-- The loop after `fail`; behind the last entry it reads outside the block. -/
def freeStrings (s : Ledger) : List Nat → Option Ledger
  | [] => none
  | kstr :: kvec => if kstr = 0 then some s else freeStrings (kfree s kstr) kvec

/-- From `fail` on. The block for the copies is given with its entries. -/
def fail (s : Ledger) (temp_kvec : Nat) (kvec : Option (Nat × List Nat)) (ret : Errno) : Option (Ledger × Except Errno (List Nat)) := do
  let s ← match kvec with
    | none => some s
    | some (addr, entries) => do
      let s ← freeStrings s entries
      some (kfree s addr)
  some (kfree s temp_kvec, .error ret)

/-- `none` is an access outside the blocks. The result has the entries of the copy. -/
def user_vecdup (uvec : argvec_t) : Option (Ledger × Except Errno (List Nat)) :=
  let size := u32 (u32 (uvec.av_len + 1) * sizeof_argstr_t)
  let (s, temp_kvec) := kmalloc E {} size
  if temp_kvec = 0 then fail s temp_kvec none .ENOMEM
  else
    let ksize := u32 (u32 (uvec.av_len + 1) * sizeof_ptr)
    let (s, kvec) := kmalloc E s ksize
    if kvec = 0 then fail s temp_kvec none .ENOMEM
    else
      let entries := (List.range (ksize / sizeof_ptr)).map E.stale
      match E.copy_from_user temp_kvec uvec.av_vec size with
      | .error ret => fail s temp_kvec (some (kvec, entries)) ret
      | .ok _ => do
        let strs := (List.range (size / sizeof_argstr_t)).map E.vec
        match ← dupStrings E strs uvec.av_len 0 s entries with
        | (s, entries, some ret) => fail s temp_kvec (some (kvec, entries)) ret
        | (s, entries, none) => do
          KASSERT (uvec.av_len < entries.length)
          some (kfree s temp_kvec, .ok (entries.set uvec.av_len 0))

/-- It stays inside the blocks, and when it fails it frees each block that it allocated, once, and nothing else. -/
def Tidy (uvec : argvec_t) : Prop :=
  ∃ s r, user_vecdup E uvec = some (s, r) ∧ ∀ ret, r = .error ret → s.frees.Perm s.allocs

/-- A string for which a block is found and which is copied; it is the `i`th. -/
def Duplicated (i : Nat) : Prop :=
  E.kmalloc (i + 2) (u32 ((E.vec i).as_len + 1)) ≠ 0 ∧
    E.copy_from_user (E.kmalloc (i + 2) (u32 ((E.vec i).as_len + 1))) (E.vec i).as_str (u32 ((E.vec i).as_len + 1)) = .ok ()

end

variable {E : Env} {s s' : Ledger} {held : List Nat} {uvec : argvec_t}

/-! ## The ledger -/

/-- Each block that was allocated is held or has been freed, and no other. -/
def Owes (s : Ledger) (held : List Nat) : Prop := s.allocs.Perm (held ++ s.frees)

theorem Owes.kmalloc {size : Nat} (h : Owes s held) (hne : E.kmalloc s.calls size ≠ 0) :
    Owes (kmalloc E s size).1 (E.kmalloc s.calls size :: held) := by
  simp only [Owes, VecDup.kmalloc, if_neg hne, List.cons_append]
  exact h.cons _

theorem Owes.kfree {addr : Nat} (h : Owes s (addr :: held)) (hne : addr ≠ 0) : Owes (kfree s addr) held := by
  rw [VecDup.kfree, if_neg hne]
  exact h.trans List.perm_middle.symm

theorem Owes.swap {held' : List Nat} (h : Owes s held) (hp : held.Perm held') : Owes s held' := h.trans (hp.append_right _)

theorem freeStrings_owes {dups : List Nat} (hne : ∀ w ∈ dups, w ≠ 0) (rest : List Nat) (h : Owes s (dups ++ held)) :
    ∃ s', freeStrings s (dups ++ 0 :: rest) = some s' ∧ Owes s' held := by
  induction dups generalizing s with
  | nil => exact ⟨s, rfl, h⟩
  | cons w dups ih =>
    have hw : w ≠ 0 := hne w (List.mem_cons_self ..)
    obtain ⟨s', hs', ho⟩ := ih (fun x hx => hne x (List.mem_cons_of_mem _ hx)) (h.kfree hw)
    exact ⟨s', by rw [List.cons_append, freeStrings, if_neg hw]; exact hs', ho⟩

/-- The clean-up frees the copies before the null pointer, and the two arrays. -/
theorem fail_owes {temp_kvec kvec : Nat} {dups : List Nat} (ht : temp_kvec ≠ 0) (hk : kvec ≠ 0) (hne : ∀ w ∈ dups, w ≠ 0)
    (rest : List Nat) (h : Owes s (dups ++ [kvec, temp_kvec])) (ret : Errno) :
    ∃ s', fail s temp_kvec (some (kvec, dups ++ 0 :: rest)) ret = some (s', .error ret) ∧ s'.frees.Perm s'.allocs := by
  obtain ⟨s₁, hs₁, ho⟩ := freeStrings_owes hne rest h
  refine ⟨_, by simp only [fail, hs₁, bind, Option.bind_some]; rfl, ?_⟩
  exact ((ho.kfree hk).kfree ht).symm

/-- What the clean-up frees besides. -/
theorem freeStrings_more {l : List Nat} (h : freeStrings s l = some s') :
    s'.allocs = s.allocs ∧ s.frees.length ≤ s'.frees.length := by
  induction l generalizing s with
  | nil => cases h
  | cons w l ih =>
    rw [freeStrings] at h
    split at h
    · cases h
      exact ⟨rfl, Nat.le_refl _⟩
    next hw =>
      obtain ⟨ha, hf⟩ := ih h
      rw [kfree, if_neg hw] at ha hf
      exact ⟨ha, by simp only [List.length_cons] at hf; omega⟩

/-! ## The strings -/

theorem user_strdup_cases {i : Nat} (hcalls : s.calls = i + 2) (h : Owes s held) :
    (Duplicated E i ∧ ∃ s' kstr, user_strdup E s (E.vec i) = (s', .ok kstr) ∧ kstr ≠ 0 ∧ s'.calls = i + 3 ∧ Owes s' (kstr :: held)) ∨
      (¬ Duplicated E i ∧ ∃ s' ret, user_strdup E s (E.vec i) = (s', .error ret) ∧ Owes s' held) := by
  unfold Duplicated
  rw [← hcalls]
  generalize hsize : u32 ((E.vec i).as_len + 1) = size
  by_cases hne : E.kmalloc s.calls size = 0
  · refine .inr ⟨fun hd => hd.1 hne, (kmalloc E s size).1, .ENOMEM, ?_, ?_⟩
    · simp only [user_strdup, hsize, VecDup.kmalloc, hne, if_true]
    · simp only [Owes, VecDup.kmalloc, hne, if_true]
      exact h
  have ho := h.kmalloc (E := E) hne
  cases hcopy : E.copy_from_user (E.kmalloc s.calls size) (E.vec i).as_str size with
  | ok u =>
    refine .inl ⟨⟨hne, rfl⟩, (kmalloc E s size).1, E.kmalloc s.calls size, ?_, hne, ?_, ho⟩
    · simp only [user_strdup, hsize, VecDup.kmalloc, hne, if_false, hcopy]
    · simp only [VecDup.kmalloc, hcalls]
  | error ret =>
    refine .inr ⟨fun hd => (by cases hd.2), kfree (kmalloc E s size).1 (E.kmalloc s.calls size), ret, ?_, ho.kfree hne⟩
    simp only [user_strdup, hsize, VecDup.kmalloc, hne, if_false, hcopy]

/-- How the loop over the strings ends: outside the first array, at the end of the vector, or at a string for which there is
no copy. -/
inductive LoopEnd (E : Env) (T i n : Nat) (held : List Nat) (len : Nat) : Option (Ledger × List Nat × Option Errno) → Prop
  | outside : T < i + n → (∀ j, i ≤ j → j < T → Duplicated E j) → LoopEnd E T i n held len none
  | done {s : Ledger} {kvec : List Nat} : i + n ≤ T → kvec.length = len → LoopEnd E T i n held len (some (s, kvec, none))
  | failed {s : Ledger} {dups rest : List Nat} {ret : Errno} {j : Nat} : i ≤ j → j < i + n → j < T → ¬ Duplicated E j →
      (∀ w ∈ dups, w ≠ 0) → Owes s (dups ++ held) → LoopEnd E T i n held len (some (s, dups ++ 0 :: rest, some ret))

theorem dupStrings_end {T : Nat} (n : Nat) {dups : List Nat} (rest : List Nat) (hcalls : s.calls = dups.length + 2) (hne : ∀ w ∈ dups, w ≠ 0)
    (howes : Owes s (dups ++ held)) (hT : T ≤ dups.length + rest.length) (hstart : dups.length ≤ T) :
    LoopEnd E T dups.length n held (dups.length + rest.length)
      (dupStrings E ((List.range T).map E.vec) n dups.length s (dups ++ rest)) := by
  induction n generalizing s dups rest with
  | zero => exact .done hstart (List.length_append ..)
  | succ n ih =>
    rw [dupStrings]
    by_cases hin : dups.length < T
    case neg =>
      have hnone : ((List.range T).map E.vec)[dups.length]? = none := by
        rw [List.getElem?_eq_none_iff, List.length_map, List.length_range]
        omega
      simp only [hnone, bind, Option.bind_none]
      exact .outside (by omega) (by omega)
    case pos =>
      have hsome : ((List.range T).map E.vec)[dups.length]? = some (E.vec dups.length) := by
        rw [List.getElem?_map, List.getElem?_range hin, Option.map_some]
      have hroom : dups.length < (dups ++ rest).length := by
        rw [List.length_append]
        omega
      obtain ⟨x, rest', rfl⟩ : ∃ x rest', rest = x :: rest' := by
        cases rest with
        | nil => simp at hroom
        | cons x rest' => exact ⟨x, rest', rfl⟩
      have hset (y : Nat) : (dups ++ x :: rest').set dups.length y = dups ++ y :: rest' := by
        rw [List.set_append_right _ _ (Nat.le_refl _), Nat.sub_self, List.set_cons_zero]
      simp only [hsome, KASSERT, if_pos hroom, bind, Option.bind_some, hset]
      rcases user_strdup_cases hcalls howes with ⟨hdup, s', kstr, hs', hk, hc, ho⟩ | ⟨hdup, s', ret, hs', ho⟩
      · rw [hs']
        have hone : (dups ++ [kstr]).length = dups.length + 1 := by simp
        have hnext := @ih s' (dups ++ [kstr]) rest' (by omega)
          (fun w hw => by
            rcases List.mem_append.1 hw with hw | hw
            · exact hne w hw
            · rw [List.mem_singleton.1 hw]; exact hk)
          (ho.swap (by rw [List.append_assoc]; exact List.perm_middle.symm))
          (by simp only [List.length_cons] at hT; omega) (by omega)
        rw [hone, List.append_assoc, List.singleton_append] at hnext
        have hlen : dups.length + 1 + rest'.length = dups.length + (x :: rest').length := by
          rw [List.length_cons]
          omega
        rw [hlen] at hnext
        dsimp only
        generalize dupStrings E ((List.range T).map E.vec) n (dups.length + 1) s' (dups ++ kstr :: rest') = r at hnext
        cases hnext with
        | outside h1 h2 =>
          refine .outside (by omega) fun j hj hjT => ?_
          rcases Nat.eq_or_lt_of_le hj with rfl | hlt
          · exact hdup
          · exact h2 j hlt hjT
        | done h1 h2 => exact .done (by omega) h2
        | failed h1 h2 h3 h4 h5 h6 => exact .failed (by omega) (by omega) h3 h4 h5 h6
      · rw [hs']
        exact .failed (Nat.le_refl _) (by omega) hin hdup hne ho

/-! ## The whole call -/

/-- The elements for which there is room in the first array. -/
def argstrs (uvec : argvec_t) : Nat := u32 (u32 (uvec.av_len + 1) * sizeof_argstr_t) / sizeof_argstr_t

/-- And in the second. -/
def pointers (uvec : argvec_t) : Nat := u32 (u32 (uvec.av_len + 1) * sizeof_ptr) / sizeof_ptr

/-- An allocation fails; or the vector cannot be copied, and the second array starts with a null pointer; or it can, and the
sizes do not wrap around or a string for which there is room has no copy. -/
def Contained (E : Env) (uvec : argvec_t) : Prop :=
  let size := u32 (u32 (uvec.av_len + 1) * sizeof_argstr_t)
  let temp_kvec := E.kmalloc 0 size
  temp_kvec = 0 ∨ E.kmalloc 1 (u32 (u32 (uvec.av_len + 1) * sizeof_ptr)) = 0 ∨
    match E.copy_from_user temp_kvec uvec.av_vec size with
    | .error _ => 0 < pointers uvec ∧ E.stale 0 = 0
    | .ok _ => uvec.av_len + 1 < 2 ^ 29 ∨ ∃ i < argstrs uvec, ¬ Duplicated E i

theorem argstrs_eq (uvec : argvec_t) : argstrs uvec = (uvec.av_len + 1) % 2 ^ 29 := by
  simp only [argstrs, u32, sizeof_argstr_t]
  omega

theorem pointers_eq (uvec : argvec_t) : pointers uvec = (uvec.av_len + 1) % 2 ^ 30 := by
  simp only [pointers, u32, sizeof_ptr]
  omega

/-- The vector has not been copied: the first entry decides. -/
theorem fail_stale {temp_kvec kvec : Nat} (ht : temp_kvec ≠ 0) (hk : kvec ≠ 0) (hs : s.allocs = [kvec, temp_kvec])
    (hf : s.frees = []) (n : Nat) (ret : Errno) :
    (∃ s' r, fail s temp_kvec (some (kvec, (List.range n).map E.stale)) ret = some (s', r) ∧
      ∀ ret, r = .error ret → s'.frees.Perm s'.allocs) ↔ 0 < n ∧ E.stale 0 = 0 := by
  cases n with
  | zero => simp [fail, freeStrings]
  | succ n =>
    rw [List.range_succ_eq_map, List.map_cons]
    by_cases hz : E.stale 0 = 0
    · refine iff_of_true ?_ ⟨Nat.succ_pos n, hz⟩
      have ho : Owes s ([] ++ [kvec, temp_kvec]) := by rw [Owes, hs, hf]; exact List.Perm.refl _
      obtain ⟨s', hfail, hperm⟩ := fail_owes ht hk (by simp) _ ho ret
      rw [hz]
      exact ⟨s', _, hfail, fun _ _ => hperm⟩
    · refine iff_of_false ?_ fun h => hz h.2
      rintro ⟨s', r, hfail, hperm⟩
      simp only [fail, freeStrings, if_neg hz, bind, Option.bind_eq_some_iff, Option.some.injEq, Prod.mk.injEq] at hfail
      obtain ⟨s₁, hfree, -, rfl, rfl, rfl⟩ := hfail
      obtain ⟨ha, hmore⟩ := freeStrings_more hfree
      have hlen := (hperm ret rfl).length_eq
      simp only [kfree, if_neg hz, if_neg ht, if_neg hk] at ha hmore hlen
      rw [hf] at hmore
      simp only [ha, hs, List.length_cons, List.length_nil] at hlen hmore
      omega

/-- The vector has been copied. -/
theorem strings_tidy (hlen : uvec.av_len < 2 ^ 32) {temp_kvec kvec : Nat} (ht : temp_kvec ≠ 0) (hk : kvec ≠ 0)
    (hs : s.calls = 2) (ha : s.allocs = [kvec, temp_kvec]) (hf : s.frees = []) :
    (∃ s' r, (dupStrings E ((List.range (argstrs uvec)).map E.vec) uvec.av_len 0 s ((List.range (pointers uvec)).map E.stale)).bind
        (fun x => match x with
          | (s, entries, some ret) => fail s temp_kvec (some (kvec, entries)) ret
          | (s, entries, none) =>
            (KASSERT (uvec.av_len < entries.length)).bind fun _ => some (kfree s temp_kvec, .ok (entries.set uvec.av_len 0))) =
        some (s', r) ∧ ∀ ret, r = .error ret → s'.frees.Perm s'.allocs) ↔
      uvec.av_len + 1 < 2 ^ 29 ∨ ∃ i < argstrs uvec, ¬ Duplicated E i := by
  have hT := argstrs_eq uvec
  have hK := pointers_eq uvec
  have howes : Owes s ([] ++ [kvec, temp_kvec]) := by
    rw [Owes, ha, hf]
    exact List.Perm.refl _
  have hend := dupStrings_end (E := E) (T := argstrs uvec) uvec.av_len ((List.range (pointers uvec)).map E.stale) hs (by simp) howes
    (by simp only [List.length_nil, List.length_map, List.length_range]; omega) (Nat.zero_le _)
  simp only [List.length_nil, List.nil_append, List.length_map, List.length_range, Nat.zero_add] at hend
  generalize dupStrings E ((List.range (argstrs uvec)).map E.vec) uvec.av_len 0 s ((List.range (pointers uvec)).map E.stale) = x at hend
  cases hend with
  | outside h1 h2 =>
    refine iff_of_false (by simp) ?_
    rintro (h | ⟨i, hi, hnot⟩)
    · omega
    · exact hnot (h2 i (Nat.zero_le i) hi)
  | @done s' entries h1 h2 =>
    refine iff_of_true ⟨kfree s' temp_kvec, .ok (entries.set uvec.av_len 0), ?_, fun ret he => by cases he⟩ (.inl (by omega))
    have hroom : uvec.av_len < entries.length := by omega
    simp only [Option.bind_some, KASSERT, if_pos hroom]
  | @failed s' dups rest ret j h1 h2 h3 h4 h5 h6 =>
    obtain ⟨s'', hfail, hperm⟩ := fail_owes ht hk h5 rest h6 ret
    exact iff_of_true ⟨s'', _, hfail, fun _ _ => hperm⟩ (.inr ⟨j, h3, h4⟩)

/-- There is a page for each call, and fresh memory holds the address `0x9000`; nothing can be copied. -/
def faulting : Env where
  kmalloc n _ := 0x1000 * (n + 1)
  stale i := if i = 0 then 0x9000 else 0
  copy_from_user _ _ _ := .error .EFAULT
  vec _ := ⟨0, 0⟩

/-- And everything can be copied. -/
def copying : Env := { faulting with copy_from_user := fun _ _ _ => .ok () }

/-- The vector has one string: `0x9000` is freed. A vector of `2^30 - 1` strings gets no room, and the first is read outside. -/
theorem stale_is_freed : ((user_vecdup faulting ⟨0x8000, 1⟩).map fun x => (x.2, x.1.frees, x.1.allocs)) =
      some (.error .EFAULT, [0x1000, 0x2000, 0x9000], [0x2000, 0x1000]) ∧
    ¬ Tidy faulting ⟨0x8000, 1⟩ ∧ user_vecdup copying ⟨0x8000, 2 ^ 30 - 1⟩ = none := by
  have hrun : ((user_vecdup faulting ⟨0x8000, 1⟩).map fun x => (x.2, x.1.frees, x.1.allocs)) =
      some (.error .EFAULT, [0x1000, 0x2000, 0x9000], [0x2000, 0x1000]) := by
    decide +kernel
  refine ⟨hrun, ?_, rfl⟩
  rintro ⟨s, r, h, hperm⟩
  simp only [h, Option.map_some, Option.some.injEq, Prod.mk.injEq] at hrun
  obtain ⟨rfl, hf, ha⟩ := hrun
  have := (hperm .EFAULT rfl).length_eq
  rw [hf, ha] at this
  cases this

/-- `user_vecdup` is tidy exactly when it is contained. -/
theorem user_vecdup_tidy_iff (hlen : uvec.av_len < 2 ^ 32) : Tidy E uvec ↔ Contained E uvec := by
  unfold Tidy Contained
  by_cases h0 : E.kmalloc 0 (u32 (u32 (uvec.av_len + 1) * sizeof_argstr_t)) = 0
  · refine iff_of_true ?_ (.inl h0)
    simp only [user_vecdup, kmalloc, h0, if_true]
    exact ⟨_, _, rfl, fun _ _ => List.Perm.refl _⟩
  by_cases h1 : E.kmalloc 1 (u32 (u32 (uvec.av_len + 1) * sizeof_ptr)) = 0
  · refine iff_of_true ?_ (.inr (.inl h1))
    simp only [user_vecdup, kmalloc, h0, h1, if_false, if_true, Nat.zero_add]
    refine ⟨_, _, rfl, fun _ _ => ?_⟩
    simp only [kfree, if_neg h0]
    exact List.Perm.refl _
  simp only [user_vecdup, kmalloc, h0, h1, if_false, Nat.zero_add, false_or]
  cases hcopy : E.copy_from_user (E.kmalloc 0 (u32 (u32 (uvec.av_len + 1) * sizeof_argstr_t))) uvec.av_vec
      (u32 (u32 (uvec.av_len + 1) * sizeof_argstr_t)) with
  | error ret => exact fail_stale h0 h1 rfl rfl (pointers uvec) ret
  | ok u => exact strings_tidy hlen h0 h1 rfl rfl rfl

/-- The second of two strings has no copy. -/
theorem second_string_tidy :
    Tidy { faulting with copy_from_user := fun addr _ _ => if addr = 0x4000 then .error .EFAULT else .ok () } ⟨0x8000, 2⟩ :=
  (user_vecdup_tidy_iff (by decide)).2 (.inr (.inr (.inl (by decide))))

end Weenix.Vm.VecDup
