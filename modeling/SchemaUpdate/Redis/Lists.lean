import SchemaUpdate.Redis.Strings

/-! # List commands

`t_list.c`. A list is converted from a ziplist to a linked list by the length of
a pushed value or by the number of its elements, and never back. -/

namespace SchemaUpdate.Redis

open SchemaUpdate.Lib

variable (cfg : Cfg) (k : Arg)

def listTypeTryConversion (enc : ListEnc) (v : Bytes) : ListEnc :=
  if (encInt v).isNone ∧ v.length > cfg.listMaxZiplistValue then .linkedlist else enc

def listTypePush (head : Bool) (l : ListEnc × List Bytes) (v : Bytes) : ListEnc × List Bytes :=
  let enc := listTypeTryConversion cfg l.1 v
  let enc := if l.2.length ≥ cfg.listMaxZiplistEntries then .linkedlist else enc
  (enc, if head then v :: l.2 else l.2 ++ [v])

/-- Store a list that `found` says was there, or delete the key when none is left. -/
def storeList (found : Bool) (l : ListEnc × List Bytes) : Act :=
  match NEList.ofList? l.2 with
  | none => .delete
  | some xs => if found then .modify (.list l.1 xs) else .create (.list l.1 xs)

/-- `lookupKeyOrReply` and `checkType` for a list. -/
def onList (missing : Reply) (f : ListEnc → List Bytes → Reply × Act) : KeyProc
  | none => (missing, .keep)
  | some (.list enc xs) => f enc xs.1
  | some _ => (wrongtypeerr, .keep)

def pushProc (head : Bool) (vs : List Bytes) : KeyProc
  | none =>
    let l := vs.foldl (listTypePush cfg head) (.ziplist, [])
    ([.int l.2.length], storeList false l)
  | some (.list enc xs) =>
    let l := vs.foldl (listTypePush cfg head) (enc, xs.1)
    ([.int l.2.length], storeList true l)
  | some _ => (wrongtypeerr, .keep)

def pushCommand (head : Bool) (k : Arg) (vs : List Arg) : Plan :=
  .one k.ptr 0 (pushProc cfg head (vs.map (·.ptr)))

def lpushCommand := pushCommand cfg true
def rpushCommand := pushCommand cfg false

def popProc (head : Bool) : KeyProc :=
  onList [.nullBulk] fun enc l =>
    let v := if head then l.head? else l.getLast?
    match v with
    | none => ([.nullBulk], .keep)
    | some v => ([.bulk v], storeList true (enc, if head then l.tail else l.dropLast))

def lpopCommand : Plan := .one k.ptr 0 (popProc true)
def rpopCommand : Plan := .one k.ptr 0 (popProc false)

def llenCommand : Plan :=
  .one k.ptr 0 (onList [.int 0] fun _ l => ([.int l.length], .keep))

/-- The position a possibly negative index denotes in a list of length `n`. -/
def indexIn (i : Int) (n : Nat) : Option Nat :=
  let j := if i < 0 then n + i else i
  if 0 ≤ j ∧ j < n then some j.toNat else none

/-- The clamped bounds of a range, `none` when it is empty. -/
def clampRange (start stop : Int) (n : Nat) : Option (Nat × Nat) :=
  let start := max 0 (if start < 0 then n + start else start)
  let stop := if stop < 0 then n + stop else stop
  if start > stop ∨ start ≥ n then none
  else some (start.toNat, (min stop (n - 1) - start + 1).toNat)

def lrangeCommand (start stop : Arg) : Plan :=
  withLongLong start.ptr fun a => withLongLong stop.ptr fun b =>
    .one k.ptr 0 (onList [.multi 0] fun _ l =>
      match clampRange a b l.length with
      | none => ([.multi 0], .keep)
      | some (i, n) => (.multi n :: ((l.drop i).take n).map .bulk, .keep))

def lsetProc (index v : Bytes) : KeyProc :=
  onList nokeyerr fun enc l =>
    match strtoll index with
    | none => (notInteger, .keep)
    | some i =>
      -- the conversion comes before the range check
      let enc' := listTypeTryConversion cfg enc v
      -- a ziplist index is an `int`
      match indexIn (if enc' = .ziplist then wrap32 i else i) l.length with
      | none => (outofrangeerr, if enc' = enc then .keep else storeList true (enc', l))
      | some j => (ok, storeList true (enc', l.set j v))

def lsetCommand (index v : Arg) : Plan := .one k.ptr 0 (lsetProc cfg index.ptr v.ptr)

/-- `LINSERT key BEFORE pivot value`. -/
def linsertBeforeProc (pivot v : Bytes) : KeyProc :=
  onList [.int 0] fun enc l =>
    let enc := listTypeTryConversion cfg enc v
    if pivot ∈ l then
      let l' := l.takeWhile (· ≠ pivot) ++ v :: l.dropWhile (· ≠ pivot)
      let enc := if l'.length > cfg.listMaxZiplistEntries then .linkedlist else enc
      ([.int l'.length], storeList true (enc, l'))
    else ([.int (-1)], storeList true (enc, l))

/-- `LREM key 1 value`. -/
def lremOneProc (v : Bytes) : KeyProc :=
  onList [.int 0] fun enc l =>
    if v ∈ l then ([.int 1], storeList true (enc, l.erase v)) else ([.int 0], .keep)

end SchemaUpdate.Redis
