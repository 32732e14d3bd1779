import Weenix.Vm.Calls
/-!
# `sys_read` (`api/syscall.c`)

`sys_read` copies out the whole buffer of `nbytes`, not the bytes that were read,
and does not look at what the copy returns.
-/

namespace Weenix.Vm

open Lib Files

variable {τ : Type} {C : Config} {E : Env} {mm mm' : State} {p arg n nbytes : Nat} {held : Nat → Int} {pr : Proc}

section
variable (E : Env) (N : Nat) (F : Io τ) (O : FileCalls τ) (L : ArgsLayout BufArgs) (stack : Nat → UInt8) (room : Nat → Bool)
  (cache : State → State)

/-- The block that `kmalloc` gives, if there is room, holds `heap`. A read puts
its bytes `data` at the start of it. -/
def sys_read (heap data : Nat → UInt8) (s : System τ) (mm : State) (p arg : Nat) :
    Option (System τ × State × Except Errno Int) := do
  let (mm, args) ← callArgs E L stack mm p arg
  match args with
  | .error _ => some (s, mm, .error .EFAULT)
  | .ok readArg_t =>
    if !room readArg_t.nbytes then some (s, mm, .error .ENOMEM)
    else do
      let (s, Val) ← VmSubmit.do_read N F O s p readArg_t.fd readArg_t.nbytes
      let mm := cache mm
      let tempMem := fun i => if i < returned Val then data i else heap i
      -- what this returns is not looked at
      let (mm, _) ← copy_to_user E mm p readArg_t.buf tempMem readArg_t.nbytes
      some (s, mm, Val)

/-- How many bytes a read of `nbytes` from descriptor `fd` gets: none where it is
not open for reading, or is a directory. `none` if the read does not return. -/
def bytesFor (s : System τ) (p : Nat) (fd : Int) (nbytes : Nat) : Option Nat :=
  if fd < 0 ∨ N ≤ fd then some 0
  else
    match s.slot p fd.toNat with
    | none => some 0
    | some f => do
      let file ← s.files f
      if !file.f_mode.read then some 0
      else do
        let vn ← file.f_vnode
        if (F.tree s.vfs.fs).isDir vn then some 0
        else (F.read s.vfs.fs vn file.f_pos nbytes).map fun r => r.2.toNat

end

/-! ## What `do_read` gets -/

section
variable {N : Nat} {F : Io τ} {O : FileCalls τ} {s : System τ} {fd : Int}

theorem do_read_bytes (hO : Lawful O) (hs : Accounted N [] s) :
    (VmSubmit.do_read N F O s p fd nbytes).map (fun r => returned r.2) = bytesFor N F s p fd nbytes := by
  unfold VmSubmit.do_read bytesFor
  by_cases hneg : fd < 0
  · simp [hneg, returned]
  by_cases hbig : (N : Int) ≤ fd
  · simp [hneg, hbig, returned]
  obtain ⟨k, rfl⟩ := Int.eq_ofNat_of_zero_le (Int.not_lt.1 hneg)
  simp only [if_neg hneg, if_neg hbig, if_neg (not_or.2 ⟨hneg, hbig⟩), hO.fget_fd, Int.toNat_natCast]
  cases hslot : s.slot p k with
  | none => rfl
  | some f =>
    obtain ⟨file, hf, -⟩ := hs.slot_file hslot
    have hheld := hs.addRef hslot
    have hf' : (s.addRef f).files f = some { file with f_refcount := file.f_refcount + 1 } := by
      simp [System.addRef, System.modify, System.setFile, hf]
    simp only [bind, hf, hf', Option.bind_some]
    cases hmode : file.f_mode.read with
    | false =>
      obtain ⟨s₁, hput, -⟩ := hheld.fput hO
      simp [hput, returned]
    | true =>
      cases hvn : file.f_vnode with
      | none => rfl
      | some vn =>
        simp only [Bool.not_true, Bool.false_eq_true, if_false, Option.bind_some]
        change Option.map _ (if (F.tree s.vfs.fs).isDir vn = true then _ else _) = _
        by_cases hdir : (F.tree s.vfs.fs).isDir vn = true
        · obtain ⟨s₁, hput, -⟩ := hheld.fput hO
          simp [hdir, hput, returned]
        · simp only [if_neg hdir]
          change Option.map _ ((F.read s.vfs.fs vn file.f_pos nbytes).bind _) = _
          cases hread : F.read s.vfs.fs vn file.f_pos nbytes with
          | none => rfl
          | some r =>
            obtain ⟨fs, val⟩ := r
            have h2 : Accounted N [f] (if val > 0 then ((s.addRef f).setFs fs).modify f fun file =>
                { file with f_pos := sint (file.f_pos + val) } else (s.addRef f).setFs fs) := by
              split
              · exact (hheld.setFs fs).modify f fun _ => rfl
              · exact hheld.setFs fs
            obtain ⟨s₁, hput, -⟩ := h2.fput hO
            simp [hput, returned]

end

/-! ## Every call -/

/-- A read gives no more bytes than are asked for. -/
def ReadsUpTo (F : Io τ) : Prop := ∀ fs vn pos n fs' val, F.read fs vn pos n = some (fs', val) → val ≤ n

section
variable {N : Nat} {F : Io τ} {O : FileCalls τ} {L : ArgsLayout BufArgs} {stack : Nat → UInt8} {room : Nat → Bool}
  {cache : State → State} {s s' : System τ} {r : Except Errno Int} {fd : Int}

theorem bytesFor_le (hF : ReadsUpTo F) (h : bytesFor N F s p fd nbytes = some n) : n ≤ nbytes := by
  unfold bytesFor at h
  split at h
  · cases h
    exact Nat.zero_le _
  split at h
  · cases h
    exact Nat.zero_le _
  simp only [bind, Option.bind_eq_some_iff] at h
  obtain ⟨file, -, h⟩ := h
  split at h
  · cases h
    exact Nat.zero_le _
  obtain ⟨vn, -, h⟩ := Option.bind_eq_some_iff.1 h
  split at h
  · cases h
    exact Nat.zero_le _
  obtain ⟨⟨fs, val⟩, hread, rfl⟩ := Option.map_eq_some_iff.1 h
  have := hF _ _ _ _ _ _ hread
  omega

/-- What is asked of a call. Arguments that cannot be copied are an error, and
nothing is stored. Otherwise the bytes that are returned, and no others, are in
the buffer, and bytes read that may not be written there are an error. -/
structure ReadRight (E : Env) (N : Nat) (F : Io τ) (L : ArgsLayout BufArgs) (stack : Nat → UInt8) (room : Nat → Bool)
    (s : System τ) (mm : State) (p arg m : Nat) (data : Nat → UInt8) (mm' : State) (r : Except Errno Int) : Prop where
  refused : ∀ mm₁ e, callArgs E L stack mm p arg = some (mm₁, .error e) → r = .error .EFAULT ∧ Quiet mm mm'
  stored : ∀ mm₁ args, callArgs E L stack mm p arg = some (mm₁, .ok args) → Delivered mm mm' m args.buf (returned r) data
  fault : ∀ mm₁ args, callArgs E L stack mm p arg = some (mm₁, .ok args) → room args.nbytes = true →
    ∀ n ∈ bytesFor N F s p args.fd args.nbytes,
      (∃ i < n, addr_perm (mm.vmm_list m) (args.buf + i) { write := true } = false) → r = .error .EFAULT

end

/-- Files of `n` bytes. -/
def fileOf (n : Nat) : Io (Nat → Vfs.Name → Option Nat) := { flatIo with read := fun s _ _ k => some (s, min k n) }

theorem fileOf_reads (n : Nat) : ReadsUpTo (fileOf n) := by
  intro fs vn pos k fs' val h
  cases h
  exact Int.min_le_left _ _

end Weenix.Vm
