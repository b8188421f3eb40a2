import SchemaUpdate.Redis.Hashes

/-! # Sorted set commands

`t_zset.c`. In both encodings the items stand in the order of score and then of
the bytes of the member. -/

namespace SchemaUpdate.Redis

open SchemaUpdate.Lib

/-- `memcmp` and then the lengths: whether `a` sorts after `b`. -/
def lexAfter : Bytes → Bytes → Bool
  | [], _ => false
  | _ :: _, [] => true
  | x :: a, y :: b => if x = y then lexAfter a b else y < x

variable (cfg : Cfg) (k : Arg) (enc : ZsetEnc)

/-- Whether the item stands after a member `m` with score `s`. -/
def zAfter (s : Double) (m : Bytes) (x : Bytes × Double) : Bool :=
  cfg.dlt s x.2 || (cfg.deq s x.2 && lexAfter x.1 m)

def zSlot (ms : List (Bytes × Double)) (m : Bytes) (s : Double) : Nat :=
  (ms.takeWhile fun x => !zAfter cfg s m x).length

/-- One `(member, score)` of `ZADD`: the set after it and whether the member was new. -/
def zaddOne (ms : Scored) (m : Bytes) (s : Double) : ZsetEnc × Scored × Bool :=
  if h : m ∈ ms.keys then
    if ((ms.find? m).map fun x => cfg.deq s x.2) = some true then (enc, ms, false)
    else
      -- removed and inserted again at the place of its new score
      match ms.remove m with
      | none => (enc, .single (m, s), false)
      | some ms' =>
        if h' : m ∈ ms'.keys then (enc, ms', false)
        else (enc, ms'.insertAt (zSlot cfg ms'.items m s) (m, s) h', false)
  else
    let ms' := ms.insertAt (zSlot cfg ms.items m s) (m, s) h
    let long := ms'.length > cfg.zsetMaxZiplistEntries ∨ m.length > cfg.zsetMaxZiplistValue
    (if long then .skiplist else enc, ms', true)

def zaddAll (cfg : Cfg) : List (Bytes × Double) → ZsetEnc × Scored → Nat → ZsetEnc × Scored × Nat
  | [], z, n => (z.1, z.2, n)
  | (m, s) :: l, z, n =>
    let r := zaddOne cfg z.1 z.2 m s
    zaddAll cfg l (r.1, r.2.1) (if r.2.2 then n + 1 else n)

def zaddProc (l : List (Bytes × Double)) : KeyProc
  | none =>
    match l with
    | [] => ([.int 0], .keep)
    | x :: rest =>
      let long := cfg.zsetMaxZiplistEntries = 0 ∨ cfg.zsetMaxZiplistValue < x.1.length
      let z := zaddAll cfg rest (if long then .skiplist else .ziplist, .single x) 1
      ([.int z.2.2], .create (.zset z.1 z.2.1))
  | some (.zset enc ms) =>
    let z := zaddAll cfg l (enc, ms) 0
    ([.int z.2.2], .modify (.zset z.1 z.2.1))
  | some _ => (wrongtypeerr, .keep)

/-- The scores and members of `ZADD`; `none` when a score is no number. -/
def parseScores (cfg : Cfg) : List Bytes → Option (List (Bytes × Double))
  | s :: m :: rest =>
    match cfg.getDouble s, parseScores cfg rest with
    | some d, some l => some ((m, d) :: l)
    | _, _ => none
  | _ => some []

def zaddCommand (args : List Arg) : Plan :=
  if args.length % 2 = 1 then .refuse syntaxerr
  else
    match parseScores cfg (args.map (·.ptr)) with
    | none => .refuse notFloat
    | some l => .one k.ptr 0 (zaddProc cfg l)

def onZset (missing : Reply) (f : ZsetEnc → Scored → Reply × Act) : KeyProc
  | none => (missing, .keep)
  | some (.zset enc ms) => f enc ms
  | some _ => (wrongtypeerr, .keep)

def storeZset : Option Scored → Act
  | none => .delete
  | some ms => .modify (.zset enc ms)

def zremAll : List Bytes → Scored → Nat → Option Scored × Nat
  | [], ms, n => (some ms, n)
  | m :: l, ms, n =>
    if m ∈ ms.keys then
      match ms.remove m with
      | none => (none, n + 1)
      | some ms' => zremAll l ms' (n + 1)
    else zremAll l ms n

def zremProc (l : List Bytes) : KeyProc :=
  onZset [.int 0] fun enc ms =>
    let r := zremAll l ms 0
    ([.int r.2], storeZset enc r.1)

def zremCommand (ms : List Arg) : Plan := .one k.ptr 0 (zremProc (ms.map (·.ptr)))

def zcardCommand : Plan :=
  .one k.ptr 0 (onZset [.int 0] fun _ ms => ([.int ms.length], .keep))

def zscoreCommand (m : Arg) : Plan :=
  .one k.ptr 0 (onZset [.nullBulk] fun _ ms =>
    match ms.find? m.ptr with
    | some x => ([.bulk (cfg.replyDouble x.2)], .keep)
    | none => ([.nullBulk], .keep))

def zrangeProc (reverse withscores : Bool) (a b : Int) : KeyProc :=
  onZset [.multi 0] fun _ ms =>
    match clampRange a b ms.length with
    | none => ([.multi 0], .keep)
    | some (i, n) =>
      let items := if reverse then ms.items.reverse else ms.items
      let toks := ((items.drop i).take n).flatMap fun x =>
        if withscores then [.bulk x.1, .bulk (cfg.replyDouble x.2)] else [.bulk x.1]
      (.multi toks.length :: toks, .keep)

def zrangeGeneric (reverse : Bool) (k start stop : Arg) (opts : List Arg) : Plan :=
  withLongLong start.ptr fun a => withLongLong stop.ptr fun b =>
    match opts with
    | [] => .one k.ptr 0 (zrangeProc cfg reverse false a b)
    | [o] =>
      if strcasecmp o.ptr (lit "withscores") then
        .one k.ptr 0 (zrangeProc cfg reverse true a b)
      else .refuse syntaxerr
    | _ => .refuse syntaxerr

def zrangeCommand := zrangeGeneric cfg false
def zrevrangeCommand := zrangeGeneric cfg true

end SchemaUpdate.Redis
