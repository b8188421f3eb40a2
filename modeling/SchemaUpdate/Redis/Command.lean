import SchemaUpdate.Redis.Zsets

/-! # The command table

The commands KVolve supports, `EXPIRE`, and the commands that act on the
connection, with the arity each has in `redisCommandTable`. -/

namespace SchemaUpdate.Redis

open SchemaUpdate.Lib

inductive Cmd
  | get | set | setnx | getset | getrange | incr | incrby | mget | mset | del | expire | keys
  | lpush | rpush | lpop | rpop | llen | lrange | lset
  | sadd | srem | sismember | scard | spop | smembers
  | hset | hmset | hget | hmget | hgetall | hdel
  | zadd | zrem | zcard | zscore | zrange | zrevrange
  | auth | select | multi | exec | discard | watch | unwatch | client
  deriving DecidableEq

def redisCommandTable : List (String × Cmd × Int) :=
  [("get", .get, 2), ("set", .set, -3), ("setnx", .setnx, 3), ("getset", .getset, 3),
   ("getrange", .getrange, 4), ("incr", .incr, 2), ("incrby", .incrby, 3), ("mget", .mget, -2),
   ("mset", .mset, -3), ("del", .del, -2), ("expire", .expire, 3), ("keys", .keys, 2),
   ("lpush", .lpush, -3), ("rpush", .rpush, -3), ("lpop", .lpop, 2), ("rpop", .rpop, 2),
   ("llen", .llen, 2), ("lrange", .lrange, 4), ("lset", .lset, 4),
   ("sadd", .sadd, -3), ("srem", .srem, -3), ("sismember", .sismember, 3), ("scard", .scard, 2),
   ("spop", .spop, 2), ("smembers", .smembers, 2),
   ("hset", .hset, 4), ("hmset", .hmset, -4), ("hget", .hget, 3), ("hmget", .hmget, -3),
   ("hgetall", .hgetall, 2), ("hdel", .hdel, -3),
   ("zadd", .zadd, -4), ("zrem", .zrem, -3), ("zcard", .zcard, 2), ("zscore", .zscore, 3),
   ("zrange", .zrange, -4), ("zrevrange", .zrevrange, -4),
   ("auth", .auth, 2), ("select", .select, 2), ("multi", .multi, 1), ("exec", .exec, 1),
   ("discard", .discard, 1), ("watch", .watch, -2), ("unwatch", .unwatch, 1),
   ("client", .client, -2)]

/-- The other commands of the table that change a database, or run commands that do. What they do is
left out. -/
def otherWrites : List String :=
  ["setex", "psetex", "append", "setbit", "setrange", "decr", "decrby", "incrbyfloat", "msetnx",
   "bitop", "rpushx", "lpushx", "linsert", "lrem", "ltrim", "blpop", "brpop", "rpoplpush",
   "brpoplpush", "smove", "sinterstore", "sunionstore", "sdiffstore", "hsetnx", "hincrby",
   "hincrbyfloat", "zincrby", "zremrangebyscore", "zremrangebyrank", "zremrangebylex",
   "zunionstore", "zinterstore", "pfadd", "pfcount", "pfmerge", "pfdebug", "move", "rename",
   "renamenx", "expireat", "pexpire", "pexpireat", "persist", "sort", "restore", "migrate",
   "flushdb", "flushall", "eval", "evalsha", "debug", "slaveof"]

/-- `lookupCommand`: the dictionary of commands compares names without case. -/
def lookupCommand (name : Bytes) : Option (String × Cmd × Int) :=
  redisCommandTable.find? fun c => name.map lower == lit c.1

def arityOk (arity : Int) (argc : Nat) : Bool :=
  if arity > 0 then arity == argc else decide (-arity ≤ argc)

/-- What a data command sets out to do, from the arguments after its name; `none` for
the commands of the connection and for argument lists of the wrong arity. -/
def plan (cfg : Cfg) (now : Int) (rand : Nat) : Cmd → List Arg → Option Plan
  | .get, [k] => some (getCommand k)
  | .set, k :: v :: opts => some (setCommand cfg now k v opts)
  | .setnx, [k, v] => some (setnxCommand cfg k v)
  | .getset, [k, v] => some (getsetCommand cfg k v)
  | .getrange, [k, a, b] => some (getrangeCommand k a b)
  | .incr, [k] => some (incrCommand k)
  | .incrby, [k, n] => some (incrbyCommand k n)
  | .mget, k :: ks => some (mgetCommand (k :: ks))
  | .mset, k :: v :: rest => some (msetCommand cfg (k :: v :: rest))
  | .del, k :: ks => some (delCommand (k :: ks))
  | .expire, [k, t] => some (expireCommand now k t)
  | .keys, [p] => some (.keys p.ptr)
  | .lpush, k :: v :: vs => some (lpushCommand cfg k (v :: vs))
  | .rpush, k :: v :: vs => some (rpushCommand cfg k (v :: vs))
  | .lpop, [k] => some (lpopCommand k)
  | .rpop, [k] => some (rpopCommand k)
  | .llen, [k] => some (llenCommand k)
  | .lrange, [k, a, b] => some (lrangeCommand k a b)
  | .lset, [k, i, v] => some (lsetCommand cfg k i v)
  | .sadd, k :: v :: vs => some (saddCommand cfg k (v :: vs))
  | .srem, k :: v :: vs => some (sremCommand k (v :: vs))
  | .sismember, [k, v] => some (sismemberCommand k v)
  | .scard, [k] => some (scardCommand k)
  | .spop, [k] => some (spopCommand rand k)
  | .smembers, [k] => some (smembersCommand k)
  | .hset, [k, f, v] => some (hsetCommand cfg k f v)
  | .hmset, k :: f :: v :: rest => some (hmsetCommand cfg k (f :: v :: rest))
  | .hget, [k, f] => some (hgetCommand k f)
  | .hmget, k :: f :: fs => some (hmgetCommand k (f :: fs))
  | .hgetall, [k] => some (hgetallCommand k)
  | .hdel, k :: f :: fs => some (hdelCommand k (f :: fs))
  | .zadd, k :: s :: m :: rest => some (zaddCommand cfg k (s :: m :: rest))
  | .zrem, k :: m :: ms => some (zremCommand k (m :: ms))
  | .zcard, [k] => some (zcardCommand k)
  | .zscore, [k, m] => some (zscoreCommand cfg k m)
  | .zrange, k :: a :: b :: opts => some (zrangeCommand cfg k a b opts)
  | .zrevrange, k :: a :: b :: opts => some (zrevrangeCommand cfg k a b opts)
  | _, _ => none

end SchemaUpdate.Redis
