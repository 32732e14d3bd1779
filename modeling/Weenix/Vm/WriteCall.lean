import Weenix.Vm.Contents
/-!
# `sys_write` (`api/syscall.c`)

`sys_write` does not look at what the copy of the user's bytes returns, so
`do_write` may be given what the heap holds.
-/

namespace Weenix.Vm

open Lib Lib.Intervals Files

variable {τ : Type} {C : Config} {E : Env} {mm mm' : State} {p arg off m : Nat} {held : Nat → Int} {pr : Proc} {l : List VmArea}
  {a : VmArea} {f : Nat → Page}

/-- `F k` is the file system when the buffer of a write holds `k`. The third result
is the buffer that `do_write` is given. -/
def sys_write (E : Env) (N : Nat) (F : (Nat → UInt8) → Io τ) (O : FileCalls τ) (L : ArgsLayout BufArgs) (stack : Nat → UInt8)
    (room : Nat → Bool) (cache : State → State) (heap : Nat → UInt8) (s : System τ) (mm : State) (p arg : Nat) :
    Option (System τ × State × Option (Nat → UInt8) × Except Errno Int) := do
  let (mm, args) ← callArgs E L stack mm p arg
  match args with
  | .error _ => some (s, mm, none, .error .EFAULT)
  | .ok writeArg_t =>
    -- `return NULL`
    if !room writeArg_t.nbytes then some (s, mm, none, .ok 0)
    else do
      -- what this returns is not looked at
      let (mm, tempMem, _) ← copy_from_user E mm p heap writeArg_t.buf writeArg_t.nbytes
      let (s, Val) ← VmSubmit.do_write N (F tempMem) O s p writeArg_t.fd writeArg_t.nbytes
      some (s, cache mm, some tempMem, Val)

/-- The call returns -1 with `EFAULT`. -/
def Faulted (r : Except Errno Int) : Prop := r = .error .EFAULT ∨ r = .ok (-EFAULT)

instance (r : Except Errno Int) : Decidable (Faulted r) := inferInstanceAs (Decidable (_ ∨ _))

/-- What is asked of a call with the arguments `args`. With a byte that may not be
read it is an error and no file changes; else what `do_write` is given are the
bytes of the user. -/
structure WriteRight (s s' : System τ) (mm : State) (m : Nat) (args : BufArgs) (handed : Option (Nat → UInt8))
    (r : Except Errno Int) : Prop where
  fault : (∃ i < args.nbytes, addr_perm (mm.vmm_list m) (args.buf + i) { read := true } = false) →
    Faulted r ∧ s'.vfs.fs = s.vfs.fs ∧ ∀ f, (s'.files f).map File.f_pos = (s.files f).map File.f_pos
  bytes : (∀ i < args.nbytes, addr_perm (mm.vmm_list m) (args.buf + i) { read := true } = true) →
    ∀ k ∈ handed, ∀ i < args.nbytes, k i = mm.byteAt m (args.buf + i)

/-- Every byte of the buffer may be read, and if there is a block for the bytes
they are copied: the check accepts them, they are in two pages at most, and no
other area is met up to the page of the end. -/
structure WriteFits (l : List VmArea) (room : Bool) (buf nbytes : Nat) : Prop where
  readable : ∀ i < nbytes, addr_perm l (buf + i) { read := true } = true
  copied : room = true → nbytes ≠ 0 →
    range_perm l buf nbytes { read := true } = true ∧ TwoPages buf nbytes ∧ OneArea (l.map VmArea.span) buf nbytes

/-- `do_write` returns, whatever the buffer holds, and `EFAULT` is not an answer of the file system. -/
def WriteReturns (N : Nat) (F : (Nat → UInt8) → Io τ) (O : FileCalls τ) (s : System τ) (p : Nat) (fd : Int) (nbytes : Nat) : Prop :=
  ∀ k, ∃ s' r, VmSubmit.do_write N (F k) O s p fd nbytes = some (s', r) ∧ ¬ Faulted r

section
variable {N : Nat} {F : (Nat → UInt8) → Io τ} {O : FileCalls τ} {L : ArgsLayout BufArgs} {stack : Nat → UInt8} {room : Nat → Bool}
  {cache : State → State} {s s' : System τ} {args : BufArgs}

/-- Bytes that may be read are in areas. -/
theorem AllMapped.of_readable {vaddr n : Nat} {perm : Prot} (h : ∀ i < n, addr_perm l (vaddr + i) perm = true) :
    AllMapped (l.map VmArea.span) vaddr n := by
  intro i hi
  have h := h i hi
  unfold addr_perm at h
  cases hlook : vmmap_lookup l (ADDR_TO_PN (vaddr + i)) with
  | none =>
    rw [hlook] at h
    cases h
  | some a =>
    have hv := List.find?_some hlook
    simp only [decide_eq_true_eq] at hv
    exact ⟨a.span, List.mem_map_of_mem (List.mem_of_find?_eq_some hlook), hv⟩

/-- The call with such arguments, whatever memory holds. -/
theorem sys_write_userSpace (hl : SpansOk C (l.map VmArea.span)) (ha : a ∈ l) (hread : a.vma_prot.grants { read := true } = true)
    (hoff : off + L.size < 4096) (hL : ∀ k', (∀ i < L.size, k' i = f a.vma_start (off + i)) → L.decode k' = args)
    (stack : Nat → UInt8) (cache : State → State) (hroom : room args.nbytes = true) (hw : WriteReturns N F O s p args.fd args.nbytes) (heap : Nat → UInt8) :
    ∃ mm₁ s' mm' r, callArgs E L stack (userSpace C l p f) p (a.vma_start * 4096 + off) = some (mm₁, .ok args) ∧
      sys_write E N F O L stack room cache heap s (userSpace C l p f) p (a.vma_start * 4096 + off) = some (s', mm',
        some (if range_perm l args.buf args.nbytes { read := true } = true then
          readOut f (l.map VmArea.span) args.buf args.nbytes heap else heap), r) ∧ ¬ Faulted r := by
  obtain ⟨mm₁, hg, hB, hargs⟩ := userSpace_args (E := E) (p := p) hl ha hread off hoff hL stack
  obtain ⟨mm₂, -, -, hcopy⟩ := userSpace_copied (E := E) hl hg hB heap args.buf args.nbytes
  obtain ⟨s', r, hdo, hr⟩ := hw (if range_perm l args.buf args.nbytes { read := true } = true then
    readOut f (l.map VmArea.span) args.buf args.nbytes heap else heap)
  refine ⟨mm₁, s', cache (if range_perm l args.buf args.nbytes { read := true } = true then mm₂ else mm₁), r, hargs, ?_, hr⟩
  simp only [sys_write, hargs, hroom, hcopy, bind, Option.bind_some, Bool.not_true, Bool.false_eq_true, if_false]
  split
  next h =>
    rw [if_pos h] at hdo
    simp only [hdo, Option.bind_some]
  next h =>
    rw [if_neg h] at hdo
    simp only [hdo, Option.bind_some]

/-- The arguments `k` at `off` of page `w`, and the byte `b` at `addr`. -/
def argsAndByte (w off size : Nat) (k : Nat → UInt8) (addr : Nat) (b : UInt8) : Nat → Page := fun v j =>
  if v = w ∧ off ≤ j ∧ j < off + size then k (j - off) else if v = ADDR_TO_PN addr ∧ j = addr % PAGE_SIZE then b else 0

theorem argsAndByte_args {w size i : Nat} {k : Nat → UInt8} {addr : Nat} {b : UInt8} (hi : i < size) :
    argsAndByte w off size k addr b w (off + i) = k i := by
  unfold argsAndByte
  rw [if_pos ⟨rfl, by omega, by omega⟩, Nat.add_sub_cancel_left]

/-- In every state with the areas `l`, whatever memory, the page cache and the heap
hold, a call with the arguments `args` is served right. -/
def ServesWrites (C : Config) (E : Env) (N : Nat) (F : (Nat → UInt8) → Io τ) (O : FileCalls τ) (L : ArgsLayout BufArgs)
    (stack : Nat → UInt8) (room : Nat → Bool) (cache : State → State) (s : System τ) (p : Nat) (l : List VmArea)
    (args : BufArgs) : Prop :=
  ∀ held mm pr arg mm₁ heap s' mm' handed r, Backing C held mm → (∀ o, 0 ≤ held o) → Settled mm → mm.procs p = some pr →
    (mm.vmm_list pr.p_vmmap).map VmArea.bound = l.map VmArea.bound → callArgs E L stack mm p arg = some (mm₁, .ok args) →
    sys_write E N F O L stack room cache heap s mm p arg = some (s', mm', handed, r) →
      WriteRight s s' mm pr.p_vmmap args handed r

/-- What the buffer has, if it may be read, is handed over. -/
theorem WriteRight.byte {w size addr i : Nat} {k handed : Nat → UInt8} {b : UInt8} {r : Except Errno Int}
    (hright : WriteRight s s' (userSpace C l p (argsAndByte w off size k addr b)) 0 args (some handed) r)
    (hl : SpansOk C (l.map VmArea.span)) (hreadable : ∀ i < args.nbytes, addr_perm l (args.buf + i) { read := true } = true)
    (hi : i < args.nbytes) :
    handed i = argsAndByte w off size k addr b (ADDR_TO_PN (args.buf + i)) ((args.buf + i) % PAGE_SIZE) := by
  rw [hright.bytes (fun i hi => by rw [addr_perm_congr userSpace_bounds]; exact hreadable i hi) handed rfl i hi]
  exact userSpace_byteAt hl (.refl _) (userSpace_backing hl).frames (hreadable i hi)

section
variable {k : Nat → UInt8} (h : ServesWrites C E N F O L stack room cache s p l args) (hl : SpansOk C (l.map VmArea.span)) (ha : a ∈ l)
  (hread : a.vma_prot.grants { read := true } = true) (hk : ∀ k', (∀ i < L.size, k' i = k i) → L.decode k' = args)
include h hl ha hread hk

/-- The call where the arguments are at `off` of the first page of `a`, and `b` is at `addr`. -/
theorem ServesWrites.call (off : Nat) (hoff : off + L.size < 4096) (hw : WriteReturns N F O s p args.fd args.nbytes)
    (hroom : room args.nbytes = true) (addr : Nat) (b : UInt8) (heap : Nat → UInt8) : ∃ s' r, ¬ Faulted r ∧
      WriteRight s s' (userSpace C l p (argsAndByte a.vma_start off L.size k addr b)) 0 args
        (some (if range_perm l args.buf args.nbytes { read := true } = true then
          readOut (argsAndByte a.vma_start off L.size k addr b) (l.map VmArea.span) args.buf args.nbytes heap else heap)) r := by
  obtain ⟨mm₁, s', mm', r, hargs, hrun, hr⟩ := sys_write_userSpace (E := E) (O := O) (p := p)
    (f := argsAndByte a.vma_start off L.size k addr b) hl ha hread hoff
    (fun k' hk' => hk k' fun i hi => by rw [hk' i hi, argsAndByte_args hi]) stack cache hroom hw heap
  exact ⟨s', r, hr, h _ _ _ _ _ heap s' mm' _ r (userSpace_backing hl) (fun _ => Int.le_refl 0) userSpace_settled
    userSpace_proc userSpace_bounds hargs hrun⟩

theorem ServesWrites.readable (hsize : L.size < 2048) (hw : WriteReturns N F O s p args.fd args.nbytes) :
    ∀ i < args.nbytes, addr_perm l (args.buf + i) { read := true } = true := by
  by_contra hno
  push Not at hno
  obtain ⟨i, hi, hno⟩ := hno
  cases hroom : room args.nbytes with
  | false =>
    -- the result is 0
    obtain ⟨mm₁, -, -, hargs⟩ := userSpace_args (E := E) (p := p) (f := argsAndByte a.vma_start 0 L.size k 0 0) hl ha hread 0
      (by omega) (fun k' hk' => hk k' fun i hi => by rw [hk' i hi, argsAndByte_args hi]) stack
    have hright := h _ _ _ _ _ k s mm₁ none (.ok 0) (userSpace_backing hl) (fun _ => Int.le_refl 0) userSpace_settled
      userSpace_proc userSpace_bounds hargs
      (by simp only [sys_write, hargs, hroom, bind, Option.bind_some, Bool.not_false, if_true])
    have hfault := (hright.fault ⟨i, hi, by rw [addr_perm_congr userSpace_bounds]; simpa using hno⟩).1
    exact absurd hfault (by decide)
  | true =>
    obtain ⟨s', r, hr, hright⟩ := h.call hl ha hread hk 0 (by omega) hw hroom 0 0 k
    exact hr (hright.fault ⟨i, hi, by rw [addr_perm_congr userSpace_bounds]; simpa using hno⟩).1

theorem ServesWrites.checked (hsize : L.size < 2048) (hw : WriteReturns N F O s p args.fd args.nbytes)
    (hroom : room args.nbytes = true) (hn : args.nbytes ≠ 0) : range_perm l args.buf args.nbytes { read := true } = true := by
  have hreadable := h.readable hl ha hread hk hsize hw
  by_contra hno
  obtain ⟨s₀, r₀, -, h0⟩ := h.call hl ha hread hk 0 (by omega) hw hroom 0 0 fun _ => 0
  obtain ⟨s₁, r₁, -, h1⟩ := h.call hl ha hread hk 0 (by omega) hw hroom 0 0 fun _ => 1
  rw [if_neg hno] at h0 h1
  have hpos := Nat.pos_of_ne_zero hn
  have := (h0.byte hl hreadable hpos).trans (h1.byte hl hreadable hpos).symm
  exact absurd this (by decide)

theorem ServesWrites.near (hsize : L.size < 2048) (hw : WriteReturns N F O s p args.fd args.nbytes)
    (hroom : room args.nbytes = true) (hn : args.nbytes ≠ 0) :
    TwoPages args.buf args.nbytes ∧ OneArea (l.map VmArea.span) args.buf args.nbytes := by
  have hreadable := h.readable hl ha hread hk hsize hw
  have hperm := h.checked hl ha hread hk hsize hw hroom hn
  by_contra hno
  obtain ⟨i, hi, hmiss⟩ := readOut_misses hl (AllMapped.of_readable hreadable) hno
  -- The arguments are in the half page without that byte.
  obtain ⟨off, hoff, hapart⟩ : ∃ off, off + L.size < 4096 ∧
      ¬ (off ≤ (args.buf + i) % PAGE_SIZE ∧ (args.buf + i) % PAGE_SIZE < off + L.size) := by
    by_cases hlow : (args.buf + i) % PAGE_SIZE < 2048
    · exact ⟨2048, by omega, by omega⟩
    · exact ⟨0, by omega, by omega⟩
  have hat (b : UInt8) : argsAndByte a.vma_start off L.size k (args.buf + i) b (ADDR_TO_PN (args.buf + i))
      ((args.buf + i) % PAGE_SIZE) = b := by
    unfold argsAndByte
    rw [if_neg fun h => hapart h.2, if_pos ⟨rfl, rfl⟩]
  obtain ⟨s₀, r₀, -, h0⟩ := h.call hl ha hread hk off hoff hw hroom (args.buf + i) 0 k
  obtain ⟨s₁, r₁, -, h1⟩ := h.call hl ha hread hk off hoff hw hroom (args.buf + i) 1 k
  have h0 := h0.byte hl hreadable hi
  have h1 := h1.byte hl hreadable hi
  rw [if_pos hperm, hat] at h0 h1
  have hsame := hmiss (argsAndByte a.vma_start off L.size k (args.buf + i) 0) (argsAndByte a.vma_start off L.size k (args.buf + i) 1) k
    fun v hv => by
      funext j
      simp only [argsAndByte, hv, false_and, if_false]
  rw [h0, h1] at hsame
  exact absurd hsame (by decide)

end

/-- An area of `l` may be read if arguments are copied in. -/
theorem callArgs_readable {mm₁ : State} (hB : Backing C held mm) (hpr : mm.procs p = some pr)
    (hbound : (mm.vmm_list pr.p_vmmap).map VmArea.bound = l.map VmArea.bound) (hargs : callArgs E L stack mm p arg = some (mm₁, .ok args)) :
    ∃ a ∈ l, a.vma_prot.grants { read := true } = true := by
  obtain ⟨hsome, hall⟩ := (range_perm_from_iff (hB.layout.areas _).sorted false).1 (callArgs_perm hpr hargs)
  obtain ⟨x, hx, hmeets⟩ := hsome.resolve_left Bool.false_ne_true
  have hmem : x.bound ∈ l.map VmArea.bound := by
    rw [← hbound]
    exact List.mem_map_of_mem hx
  obtain ⟨a, ha, hax⟩ := List.mem_map.1 hmem
  refine ⟨a, ha, ?_⟩
  rw [show a.vma_prot = x.vma_prot from congrArg Prod.snd hax]
  exact hall x hx hmeets

end

/-- Files that take all the bytes. -/
def takesAll : Io (Nat → Vfs.Name → Option Nat) := { flatIo with write := fun s _ _ n => some (s, n) }

theorem bufLayout_stores_two : bufLayout.Stores ⟨0, 0x400000, 2⟩ := by
  refine ⟨by decide, fun i => twoBytes.getD i 0, fun k' hk' => ?_⟩
  have hword : ∀ i ≤ 8, word k' i = word (fun i => twoBytes.getD i 0) i := fun i hi => by
    change ∀ i < 12, _ at hk'
    simp only [word, hk' i (by omega), hk' (i + 1) (by omega), hk' (i + 2) (by omega), hk' (i + 3) (by omega)]
  simp only [bufLayout, hword 0 (by omega), hword 4 (by omega), hword 8 (by omega)]
  decide

/-- Descriptor 0, and a byte at `0x500000`. -/
def elsewhere : List UInt8 := [0, 0, 0, 0, 0, 0, 0x50, 0, 1]

end Weenix.Vm
