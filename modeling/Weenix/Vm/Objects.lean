import Weenix.Vm.Frames
/-!
# Memory objects (`vm/anon.c`, `vm/shadow.c`, `fs/vnode.c`)

Dropping a reference. When only an object's own resident pages still refer to
it, `put` frees these pages, and freeing a page puts the object again: `put`
and the loop over the pages call each other. Every nested call is made on one
page less, so twice the number of pages is enough fuel (`put_total`).

`shadow_put` and `anon_put` count the pages they are freeing in a static
counter and free the object when it is back at 0 (`anon_put`) or when it is not
(`shadow_put`).
-/

namespace Weenix.Vm

/-- A thread meeting a busy page would sleep here. -/
def waitNotBusy (s : State) (pg : Nat) : Option Unit := KASSERT (s.pf_busy pg = false)

mutual

/-- The object's `put` operation. -/
def mmobj_put : Nat → State → Nat → Option State
  | 0, _, _ => none
  | n + 1, s, o => do
    let ob ← s.objs o
    match ob.mmo_ops with
    | .shadow => do
      KASSERT (0 < s.mmo_refcount o)
      let s := s.setRefcount o (s.mmo_refcount o - 1)
      if s.mmo_nrespages o = s.mmo_refcount o then do
        let s ← shadow_free_pages n s o
        if s.num = 0 then some s
        else do
          let below ← ob.mmo_shadowed
          let s ← mmobj_put n s below
          some (s.freeObj o)
      else some s
    | .anon => do
      KASSERT (0 < s.mmo_refcount o)
      let s := s.setRefcount o (s.mmo_refcount o - 1)
      if s.mmo_nrespages o = s.mmo_refcount o then do
        let s ← anon_free_pages n s o
        if s.temp_c = 0 then some (s.freeObj o) else some s
      else some s
    | .vnode vn => do
      -- vput
      KASSERT (s.mmo_nrespages o < s.mmo_refcount o)
      let s ← (if s.mmo_nrespages o = s.mmo_refcount o - 1 ∧ (s.vnodes vn).query_vnode = false then do
          let s ← vnode_free_pages n s o
          KASSERT (s.mmo_nrespages o = 0)
          KASSERT (s.mmo_refcount o = 1)
          some s
        else some s)
      let s := s.setRefcount o (s.mmo_refcount o - 1)
      if 0 < s.mmo_refcount o then some s
      else do
        KASSERT (s.mmo_nrespages o = 0)
        some s

/-- The loop of `shadow_put`. -/
def shadow_free_pages : Nat → State → Nat → Option State
  | 0, _, _ => none
  | n + 1, s, o =>
    match s.pframes.find? (fun pf => decide (pf.pf_obj = o)) with
    | none => some s
    | some pf => do
      let s := s.setNum (s.num + 1)
      let s := pframe_unpin s pf.pf_addr
      waitNotBusy s pf.pf_addr
      let s := s.setNum (s.num - 1)
      let s ← pframe_release s pf
      let s ← mmobj_put n s o
      shadow_free_pages n s o

/-- The loop of `anon_put`. -/
def anon_free_pages : Nat → State → Nat → Option State
  | 0, _, _ => none
  | n + 1, s, o =>
    match s.pframes.find? (fun pf => decide (pf.pf_obj = o)) with
    | none => some s
    | some pf => do
      let s := pframe_unpin s pf.pf_addr
      let s := s.setTempC (s.temp_c + 1)
      waitNotBusy s pf.pf_addr
      let s ← pframe_release s pf
      let s ← mmobj_put n s o
      let s := s.setTempC (s.temp_c - 1)
      anon_free_pages n s o

/-- The loop of `vput`. -/
def vnode_free_pages : Nat → State → Nat → Option State
  | 0, _, _ => none
  | n + 1, s, o =>
    match s.pframes.find? (fun pf => decide (pf.pf_obj = o)) with
    | none => some s
    | some pf => do
      waitNotBusy s pf.pf_addr
      let s ← pframe_release s pf
      let s ← mmobj_put n s o
      vnode_free_pages n s o

end

/-- `o->mmo_ops->put(o)`. -/
def put (s : State) (o : Nat) : Option State := mmobj_put (2 * s.mmo_nrespages o + 3) s o

/-- `pframe_free`. -/
def pframe_free (s : State) (pf : Pframe) : Option State := do
  let s ← pframe_release s pf
  put s pf.pf_obj

/-- The object's `cleanpage` operation: whether it returns 0. -/
def cleanpage (E : Env) (s : State) (o : Nat) (pf : Pframe) : Option (State × Bool) := do
  let ob ← s.objs o
  match ob.mmo_ops with
  | .anon => some (s, false)
  | .shadow => some (s, true)
  | .vnode vn =>
    if E.io s.clock then
      let data := Function.update (s.disk vn) (PN_TO_ADDR pf.pf_pagenum) (s.mem pf.pf_addr)
      some ({ s.tick with disk := Function.update s.disk vn data }, true)
    else some (s.tick, false)

def pframe_clean (E : Env) (s : State) (pf : Pframe) : Option State := do
  KASSERT (s.pf_dirty pf.pf_addr = true)
  KASSERT (s.pf_pincount pf.pf_addr = 0)
  let s := s.setDirty pf.pf_addr false
  let s ← pframe_remove_from_pts s pf
  let s := s.setBusy pf.pf_addr true
  let (s, ok) ← cleanpage E s pf.pf_obj pf
  let s := if ok then s else s.setDirty pf.pf_addr true
  some (s.setBusy pf.pf_addr false)

/-- One turn of the loop of `pageoutd_run`, on the least recently requested
frame. A busy frame makes the daemon sleep. -/
def pageoutd_turn (E : Env) (s : State) : Option State :=
  match s.alloc_list.head? with
  | none => some s
  | some pg => do
    let pf ← s.pframes.find? (fun pf => decide (pf.pf_addr = pg))
    if s.pf_busy pg then some s
    else if s.pf_dirty pg then pframe_clean E s pf
    else pframe_free s pf

end Weenix.Vm
