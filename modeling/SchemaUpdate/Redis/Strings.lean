import SchemaUpdate.Redis.Db

/-! # String commands and the commands on keys

`t_string.c` and the part of `db.c` the supported commands need. -/

namespace SchemaUpdate.Redis

open SchemaUpdate.Lib

/-- An argument object: its bytes and its version field. -/
structure Arg where
  ptr : Bytes
  vers : Int
  deriving DecidableEq

/-- `getLongLongFromObjectOrReply` on an argument. -/
def withLongLong (a : Bytes) (f : Int → Plan) : Plan :=
  match strtoll a with
  | some n => f n
  | none => .refuse notInteger

def getProc : KeyProc
  | none => ([.nullBulk], .keep)
  | some (.str s) => ([.bulk s.bytes], .keep)
  | some _ => (wrongtypeerr, .keep)

variable (cfg : Cfg) (k : Arg) (ks : List Arg)

def getCommand : Plan := .one k.ptr 0 getProc

/-! ## SET and its variants -/

structure SetOpts where
  nx : Bool := false
  xx : Bool := false
  -- in seconds or in milliseconds, and the argument that holds the time
  expire : Option (Bool × Bytes) := none

/-- The option loop of `setCommand`; `none` is a syntax error. -/
def parseSetOpts (o : SetOpts) : List Bytes → Option SetOpts
  | [] => some o
  | a :: rest =>
    if strcasecmp a (lit "nx") then parseSetOpts { o with nx := true } rest
    else if strcasecmp a (lit "xx") then parseSetOpts { o with xx := true } rest
    else
      match rest with
      | [] => none
      | next :: rest' =>
        if strcasecmp a (lit "ex") then parseSetOpts { o with expire := some (true, next) } rest'
        else if strcasecmp a (lit "px") then
          parseSetOpts { o with expire := some (false, next) } rest'
        else none

/-- `setGenericCommand` once its arguments are read. -/
def setProc (nx xx : Bool) (v : Str) (when : Option Int) (okReply abortReply : Reply) : KeyProc :=
  fun cur =>
    if (nx && cur.isSome) || (xx && cur.isNone) then (abortReply, .keep)
    else (okReply, .assign (.str v) when)

def setCommand (now : Int) (k v : Arg) (opts : List Arg) : Plan :=
  match parseSetOpts {} (opts.map (·.ptr)) with
  | none => .refuse syntaxerr
  | some o =>
    let run when :=
      Plan.one k.ptr v.vers
        (setProc o.nx o.xx (tryObjectEncoding cfg v.ptr) when ok [.nullBulk])
    match o.expire with
    | none => run none
    | some (sec, t) => withLongLong t fun ms =>
        if ms ≤ 0 then .refuse (replyError (lit "invalid expire time in set"))
        else run (some (wrap64 (now + if sec then wrap64 (ms * 1000) else ms)))

def setnxCommand (v : Arg) : Plan :=
  .one k.ptr v.vers
    (setProc true false (tryObjectEncoding cfg v.ptr) none [.int 1] [.int 0])

def getsetCommand (v : Arg) : Plan :=
  .one k.ptr v.vers fun cur =>
    match getProc cur with
    | (r, a) => if r = wrongtypeerr then (r, a)
      else (r, .assign (.str (tryObjectEncoding cfg v.ptr)) none)

/-! ## Ranges, counters and several keys -/

def getrangeProc (start stop : Int) : KeyProc
  | none => ([.bulk []], .keep)
  | some (.str s) =>
    let len : Int := s.bytes.length
    let start := max 0 (if start < 0 then len + start else start)
    let stop := max 0 (if stop < 0 then len + stop else stop)
    let stop := if stop ≥ len then len - 1 else stop
    if start > stop ∨ len = 0 then ([.bulk []], .keep)
    else ([.bulk ((s.bytes.drop start.toNat).take (stop - start + 1).toNat)], .keep)
  | some _ => (wrongtypeerr, .keep)

def getrangeCommand (start stop : Arg) : Plan :=
  withLongLong start.ptr fun a => withLongLong stop.ptr fun b =>
    .one k.ptr 0 (getrangeProc a b)

def incrDecrProc (incr : Int) : KeyProc := fun cur =>
  match cur with
  | some (.list _ _) | some (.set _ _) | some (.hash _ _) | some (.zset _ _) =>
    (wrongtypeerr, .keep)
  | none =>
    ([.int incr], .create (.str (createStringObjectFromLongLong incr)))
  | some (.str s) =>
    match s.getLongLong with
    | none => (notInteger, .keep)
    | some old =>
      if (incr < 0 ∧ old < 0 ∧ incr < -(2 ^ 63) - old) ∨
          (incr > 0 ∧ old > 0 ∧ incr > 2 ^ 63 - 1 - old) then
        (replyError (lit "increment or decrement would overflow"), .keep)
      else
        ([.int (old + incr)], .overwrite (.str (createStringObjectFromLongLong (old + incr))))

def incrCommand : Plan := .one k.ptr 0 (incrDecrProc 1)

def incrbyCommand (by' : Arg) : Plan :=
  withLongLong by'.ptr fun n => .one k.ptr 0 (incrDecrProc n)

def mgetProc : KeyProc
  | some (.str s) => ([.bulk s.bytes], .keep)
  | _ => ([.nullBulk], .keep)

def mgetCommand : Plan :=
  .run (ks.map fun k => ⟨k.ptr, 0, mgetProc⟩) fun rs => .multi ks.length :: rs.flatten

def msetSteps (cfg : Cfg) : List Arg → List Step
  | k :: v :: rest =>
    ⟨k.ptr, v.vers, setProc false false (tryObjectEncoding cfg v.ptr) none ok ok⟩ ::
      msetSteps cfg rest
  | _ => []

def msetCommand (args : List Arg) : Plan :=
  if args.length % 2 = 1 then .refuse (replyError (lit "wrong number of arguments for MSET"))
  else .run (msetSteps cfg args) fun _ => ok

def delProc : KeyProc
  | none => ([.int 0], .keep)
  | some _ => ([.int 1], .delete)

def delCommand : Plan :=
  .run (ks.map fun k => ⟨k.ptr, 0, delProc⟩) fun rs => [.int (rs.count [.int 1])]

def expireCommand (now : Int) (k secs : Arg) : Plan :=
  withLongLong secs.ptr fun n =>
    let when := wrap64 (wrap64 (n * 1000) + now)
    .one k.ptr 0 fun cur =>
      match cur with
      | none => ([.int 0], .keep)
      | some _ => if when ≤ now then ([.int 1], .delete) else ([.int 1], .setExpire when)

end SchemaUpdate.Redis
