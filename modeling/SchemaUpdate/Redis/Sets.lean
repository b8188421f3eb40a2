import SchemaUpdate.Redis.Lists

/-! # Set commands

`t_set.c`. An intset is kept in numeric order; the items of a hash table stand in
the order its iterator meets them. -/

namespace SchemaUpdate.Redis

open SchemaUpdate.Lib

variable (cfg : Cfg) (k : Arg) (enc : SetEnc) (vs : List Bytes)

/-- Where a new member goes. -/
def setSlot (ms : List Bytes) (v : Bytes) : Nat :=
  match enc with
  | .intset => (ms.filter fun m => (string2ll m).getD 0 < (string2ll v).getD 0).length
  | .ht => cfg.dictSlot ms v

/-- The encoding of a set created for `v` once `v` is in it. -/
def setTypeCreate (v : Bytes) : SetEnc :=
  if (string2ll v).isSome ∧ 1 ≤ cfg.setMaxIntsetEntries then .intset else .ht

/-- `setTypeAdd`: the set after the call and whether the member was new. -/
def setTypeAdd (ms : Members) (v : Bytes) : SetEnc × Members × Bool :=
  -- a text that is no integer turns an intset into a hash table
  let enc := if (string2ll v).isNone then .ht else enc
  if h : v ∈ ms.keys then (enc, ms, false)
  else
    let ms' := ms.insertAt (setSlot cfg enc ms.items v) v h
    let enc := if ms'.length > cfg.setMaxIntsetEntries then .ht else enc
    (enc, ms', true)

def saddAll (cfg : Cfg) : List Bytes → SetEnc × Members → Nat → SetEnc × Members × Nat
  | [], s, n => (s.1, s.2, n)
  | v :: vs, s, n =>
    let r := setTypeAdd cfg s.1 s.2 v
    saddAll cfg vs (r.1, r.2.1) (if r.2.2 then n + 1 else n)

def saddProc : KeyProc
  | none =>
    match vs with
    | [] => ([.int 0], .keep)
    | v :: vs =>
      let r := saddAll cfg vs (setTypeCreate cfg v, .single v) 1
      ([.int r.2.2], .create (.set r.1 r.2.1))
  | some (.set enc ms) =>
    let r := saddAll cfg vs (enc, ms) 0
    ([.int r.2.2], .modify (.set r.1 r.2.1))
  | some _ => (wrongtypeerr, .keep)

def onSet (missing : Reply) (f : SetEnc → Members → Reply × Act) : KeyProc
  | none => (missing, .keep)
  | some (.set enc ms) => f enc ms
  | some _ => (wrongtypeerr, .keep)

def storeSet : Option Members → Act
  | none => .delete
  | some ms => .modify (.set enc ms)

/-- Remove each value in turn, stopping when the set is gone. -/
def sremAll : List Bytes → Members → Nat → Option Members × Nat
  | [], ms, n => (some ms, n)
  | v :: vs, ms, n =>
    if v ∈ ms.keys then
      match ms.remove v with
      | none => (none, n + 1)
      | some ms' => sremAll vs ms' (n + 1)
    else sremAll vs ms n

def sremProc : KeyProc :=
  onSet [.int 0] fun enc ms =>
    let r := sremAll vs ms 0
    ([.int r.2], storeSet enc r.1)

def saddCommand (vs : List Arg) : Plan :=
  .one k.ptr 0 (saddProc cfg (vs.map (·.ptr)))

def sremCommand (vs : List Arg) : Plan := .one k.ptr 0 (sremProc (vs.map (·.ptr)))

def sismemberCommand (v : Arg) : Plan :=
  .one k.ptr 0 (onSet [.int 0] fun _ ms => ([.int (if v.ptr ∈ ms.keys then 1 else 0)], .keep))

def scardCommand : Plan :=
  .one k.ptr 0 (onSet [.int 0] fun _ ms => ([.int ms.length], .keep))

/-- `SPOP`; `rand` is the choice of `setTypeRandomElement`. -/
def spopCommand (rand : Nat) (k : Arg) : Plan :=
  .one k.ptr 0 (onSet [.nullBulk] fun enc ms =>
    let v := ms.items.getD (rand % ms.length) []
    ([.bulk v], storeSet enc (ms.remove v)))

/-- `SMEMBERS`, which is `sinterCommand` on one key. -/
def smembersCommand : Plan :=
  .one k.ptr 0 (onSet [.multi 0] fun _ ms => (.multi ms.length :: ms.items.map .bulk, .keep))

end SchemaUpdate.Redis
