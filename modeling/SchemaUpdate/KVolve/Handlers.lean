import SchemaUpdate.KVolve.Migrate

/-! # The handlers of `kvolve.c` and their table

Every handler works on the arguments after the command name and hands them back,
since it may tag the value argument or replace the key. The check for updates is a
parameter: it does nothing while an update function is running. -/

namespace SchemaUpdate.KVolve

open SchemaUpdate.Lib SchemaUpdate.Redis

abbrev Handler := CheckUpdate → Env → VersionHash → List Arg → Store → Res (List Arg × Store)

def onKey (f : Bytes → Store → Res (Bytes × Store)) (args : List Arg) (s : Store) :
    Res (List Arg × Store) :=
  match args with
  | [] => .error .segv
  | k :: rest => do
    let (key, s) ← f k.ptr s
    .ok ({ k with ptr := key } :: rest, s)

/-! ## Strings -/

/-- `kvolve_get_flags`: whether NX and whether XX occurs among the options. -/
def getFlags (opts : List Arg) : Bool × Bool :=
  (opts.any fun a => strcasecmp a.ptr (lit "nx"), opts.any fun a => strcasecmp a.ptr (lit "xx"))

/-- The arguments that the option loop of `setCommand` skips: the times behind EX and PX. -/
def expireArgs : List Bytes → List Bytes
  | [] => []
  | a :: rest =>
    if strcasecmp a (lit "nx") || strcasecmp a (lit "xx") then expireArgs rest
    else
      match rest with
      | [] => []
      | next :: rest' => next :: expireArgs rest'

theorem strcasecmp_xx_of_nx {a : Bytes} (h : strcasecmp a (lit "nx") = true) :
    strcasecmp a (lit "xx") = false := by
  have heq : (cstr a).map lower = (cstr (lit "nx")).map lower := by simpa [strcasecmp] using h
  rw [strcasecmp, heq]
  decide

theorem expireArgs_flag {a : Bytes} (rest : List Bytes)
    (h : (strcasecmp a (lit "nx") || strcasecmp a (lit "xx")) = true) :
    expireArgs (a :: rest) = expireArgs rest := by
  rw [expireArgs.eq_def]
  simp only [h, if_true]

theorem or_skip {b b' x A B : Bool} (h : (b || A) = (b' || B)) : (b || (x || A)) = (b' || (x || B)) := by
  rw [Bool.or_left_comm, h, Bool.or_left_comm]

/-- Every flag among the options is seen by `setCommand`, or stands where a time is expected. -/
theorem parseSetOpts_flags {o₀ o : SetOpts} {l : List Bytes} (h : parseSetOpts o₀ l = some o) :
    (o₀.nx || l.any (strcasecmp · (lit "nx"))) =
        (o.nx || (expireArgs l).any (strcasecmp · (lit "nx"))) ∧
      (o₀.xx || l.any (strcasecmp · (lit "xx"))) =
        (o.xx || (expireArgs l).any (strcasecmp · (lit "xx"))) := by
  have htime : ∀ {a next : Bytes} {rest : List Bytes}, ¬ strcasecmp a (lit "nx") = true →
      ¬ strcasecmp a (lit "xx") = true →
      expireArgs (a :: next :: rest) = next :: expireArgs rest := fun hnx hxx => by
    simp [expireArgs, hnx, hxx]
  fun_induction parseSetOpts o₀ l with
  | case1 o₀ =>
    cases h
    exact ⟨rfl, rfl⟩
  | case2 o₀ a rest hnx ih =>
    rw [expireArgs_flag rest (by simp [hnx])]
    simpa [hnx, strcasecmp_xx_of_nx hnx] using ih h
  | case3 o₀ a rest hnx hxx ih =>
    rw [expireArgs_flag rest (by simp [hxx])]
    simpa [hnx, hxx] using ih h
  | case4 => cases h
  | case5 o₀ a hnx hxx next rest hex ih | case6 o₀ a hnx hxx next rest hex hpx ih =>
    simp only [htime hnx hxx, List.any_cons, hnx, hxx, Bool.false_or]
    exact ⟨or_skip (ih h).1, or_skip (ih h).2⟩
  | case7 => cases h

theorem strtoll_letter {t w : Bytes} {x : UInt8} (hw : (cstr w).map lower = x :: w.tail)
    (hx : 97 ≤ x) (h : (strtoll t).isSome) : strcasecmp t w = false := by
  rw [strcasecmp, hw, beq_eq_false_iff_ne]
  intro heq
  unfold strtoll at h
  cases hc : cstr t with
  | nil =>
    rw [hc] at heq
    cases heq
  | cons c rest =>
    rw [hc] at heq h
    have hlow : lower c = x := (List.cons.inj heq).1
    have hbig : 65 ≤ c := by
      unfold lower at hlow
      split at hlow
      · rename_i hup
        exact hup.1
      · rw [hlow]
        exact UInt8.le_trans (by decide : (65 : UInt8) ≤ 97) hx
    have hnum : 65 ≤ c.toNat := UInt8.le_iff_toNat_le.mp hbig
    have hdigit : isDigit c = false := by
      simp only [isDigit, Bool.and_eq_false_iff, decide_eq_false_iff_not, UInt8.le_iff_toNat_le]
      exact .inr (by change ¬ c.toNat ≤ 57; omega)
    have hsign : c ≠ 45 ∧ c ≠ 43 := by
      constructor <;> rintro rfl <;> exact absurd hnum (by decide)
    simp [hsign, parseDigits, hdigit] at h

/-- **`kvolve_get_flags` reads the flags of a `SET` as `setCommand` does**, when what stands behind
EX and PX are numbers. -/
theorem set_flags_agree (opts : List Arg) (o : SetOpts)
    (hparse : parseSetOpts {} (opts.map (·.ptr)) = some o)
    (htimes : ∀ t ∈ expireArgs (opts.map (·.ptr)), (strtoll t).isSome) :
    getFlags opts = (o.nx, o.xx) := by
  have hnone : ∀ w : Bytes, (∀ t, (strtoll t).isSome → strcasecmp t w = false) →
      (expireArgs (opts.map (·.ptr))).any (strcasecmp · w) = false := by
    intro w hw
    simp only [List.any_eq_false, Bool.not_eq_true]
    exact fun t ht => hw t (htimes t ht)
  obtain ⟨hnx, hxx⟩ := parseSetOpts_flags hparse
  rw [hnone _ fun t => strtoll_letter (x := 110) rfl (by decide), Bool.or_false] at hnx
  rw [hnone _ fun t => strtoll_letter (x := 120) rfl (by decide), Bool.or_false] at hxx
  rw [← hnx, ← hxx]
  simp [getFlags, List.any_map, Function.comp_def]

/-- `SET k v NX EX 10`. -/
theorem set_flags_agree_nx_ex :
    getFlags [⟨lit "NX", 0⟩, ⟨lit "EX", 0⟩, ⟨lit "10", 0⟩] = (true, false) :=
  set_flags_agree [⟨lit "NX", 0⟩, ⟨lit "EX", 0⟩, ⟨lit "10", 0⟩] ⟨true, false, some (true, lit "10")⟩
    rfl (by decide)

/-- Of two times only the last one is read as a number; the other may be spelled like a flag. -/
example : (parseSetOpts {} [lit "EX", lit "nx", lit "EX", lit "10"]).map (·.nx) = some false ∧
    getFlags [⟨lit "EX", 0⟩, ⟨lit "nx", 0⟩, ⟨lit "EX", 0⟩, ⟨lit "10", 0⟩] = (true, false) := by
  decide

variable (env : Env) (v : VersionHash) (key : Bytes) (s : Store) (all : UpdateAll)

/-- `kvolve_setnx`: bring the value to the current name, tag nothing. -/
def setnxKey : Res Store := do
  if s.has env.d key then .ok s
  else
    match ← getDbVal env v key s with
    | none => .ok s
    | some _ => namespaceUpdate env v key s

/-- The last part of `kvolve_set`: an alias under an earlier namespace is deleted. -/
def setKeyOld : Res Store :=
  if v.prevNs ≠ none ∧ ¬ s.has env.d key then checkdelOld env v key s else .ok s

def kvolveSet : Handler := fun _ env v args s =>
  match args with
  | k :: val :: opts =>
    let tagged := k :: { val with vers := v.cur } :: opts
    if (getFlags opts).2 then do
      let s ← setnxKey env v k.ptr s
      .ok (tagged, s)
    else if (getFlags opts).1 then do
      let s ← setnxKey env v k.ptr s
      .ok (args, s)
    else do
      let s ← setKeyOld env v k.ptr s
      .ok (tagged, s)
  | _ => .error .segv

def kvolveSetnx : Handler := fun _ env v args s =>
  onKey (fun key s => do .ok (key, ← setnxKey env v key s)) args s

/-- The loop of `kvolve_mset`: every pair with the record of the first key. -/
def msetLoop (env : Env) (v : VersionHash) : List Arg → Store → Res (List Arg × Store)
  | k :: val :: rest, s => do
    let s ← setKeyOld env v k.ptr s
    let (args, s) ← msetLoop env v rest s
    .ok (k :: { val with vers := v.cur } :: args, s)
  | args, s => .ok (args, s)

def kvolveMset : Handler := fun _ env v args s =>
  if args.length % 2 = 1 then .error .assertFail else msetLoop env v args s

def getKey (cu : CheckUpdate) (env : Env) (v : VersionHash) (key : Bytes) (s : Store) :
    Res (Bytes × Store) := do
  let (key', _, s) ← cu env v true key none .string key s
  .ok (key', s)

def kvolveGet : Handler := fun cu env v => onKey (getKey cu env v)
def kvolveGetset : Handler := kvolveGet
def kvolveGetrange : Handler := kvolveGet

/-- The loop of `kvolve_mget`: every key with the record of the first. -/
def mgetLoop (cu : CheckUpdate) (env : Env) (v : VersionHash) :
    List Arg → Store → Res (List Arg × Store)
  | [], s => .ok ([], s)
  | k :: ks, s => do
    let (key, s) ← getKey cu env v k.ptr s
    let (args, s) ← mgetLoop cu env v ks s
    .ok ({ k with ptr := key } :: args, s)

def kvolveMget : Handler := fun cu env v args s => mgetLoop cu env v args s

def kvolveDel : Handler := fun _ env v args s => do
  .ok (args, ← checkRename env v (args.map (·.ptr)) s)

/-- The key is looked for in the dictionary by the address of its object, so the first
test never succeeds. -/
def incrKey : Res Store := do
  if v.prevNs = none then .ok s
  else
    match ← getDbVal env v key s with
    | none => .ok s
    | some _ => namespaceUpdate env v key s

def kvolveIncr : Handler := fun _ env v =>
  onKey fun key s => do .ok (key, ← incrKey env v key s)

def kvolveIncrby : Handler := kvolveIncr

/-! ## Containers -/

abbrev UpdateAll := CheckUpdate → Env → VersionHash → Bytes → Store → Res (Int × Bytes × Store)

def migrating : Handler := fun cu env v =>
  onKey fun key s => do
    let (_, key, s) ← all cu env v key s
    .ok (key, s)

/-- A handler of a command that may create the container: its tag is registered to be set
when the next command is processed. -/
def creating : Handler := fun cu env v =>
  onKey fun key s => do
    let (ret, key, s) ← all cu env v key s
    .ok (key, if ret = 1 then newVersion env v key s else s)

def kvolveSismember : Handler := migrating updateAllSet
def kvolveSrem : Handler := migrating updateAllSet
def kvolveScard : Handler := migrating updateAllSet
def kvolveSpop : Handler := migrating updateAllSet
def kvolveSmembers : Handler := migrating updateAllSet
def kvolveSadd : Handler := creating updateAllSet
def kvolveZcard : Handler := migrating updateAllZset
def kvolveZrem : Handler := migrating updateAllZset
def kvolveZscore : Handler := migrating updateAllZset
def kvolveZrange : Handler := migrating updateAllZset
def kvolveZrevrange : Handler := migrating updateAllZset
def kvolveZadd : Handler := creating updateAllZset
def kvolveLrange : Handler := migrating updateAllList
def kvolveLpop : Handler := migrating updateAllList
def kvolveRpop : Handler := migrating updateAllList
def kvolveLlen : Handler := migrating updateAllList
def kvolveLset : Handler := migrating updateAllList
def kvolveLpush : Handler := creating updateAllList
def kvolveRpush : Handler := kvolveLpush
def kvolveHmget : Handler := migrating updateAllHash
def kvolveHget : Handler := migrating updateAllHash
def kvolveHdel : Handler := migrating updateAllHash
def kvolveHgetall : Handler := migrating updateAllHash
def kvolveHmset : Handler := creating updateAllHash
def kvolveHset : Handler := kvolveHmset

/-! ## Keys -/

/-- One key met by the iterator of `kvolve_keys`. -/
def keysStep (pattern : Bytes) (s : Store) (key : Bytes) : Res Store :=
  if s.has env.d key then
    match (versionHashLookup s.reg key).bind (·.nextNs) with
    | none => .ok s
    | some next =>
      match constructPrevName key next with
      | none => .error .segv
      | some new =>
        if env.cfg.stringmatchlen pattern new then
          match versionHashLookup s.reg new with
          | none => if s.has env.d new then .ok s else .error .segv
          | some v => namespaceUpdate env v new s
        else .ok s
  else .ok s

/-- `kvolve_keys`; the pattern `kvolve` is replaced by `*`. -/
def kvolveKeys (args : List Arg) (s : Store) : Res (List Arg × Store) :=
  match args with
  | [] => .error .segv
  | p :: rest =>
    if cstr p.ptr = lit "kvolve" then .ok ({ p with ptr := [42] } :: rest, s)
    else do
      .ok (args, ← (env.iter (s.dbs env.d)).foldlM (keysStep env p.ptr) s)

/-! ## The table -/

/-- The handlers by the source's names. -/
inductive HName
  | set | mset | get | mget | getset | getrange | incr | incrby | del
  | hdel | hget | hgetall | hset | hmset | hmget
  | lrange | lpush | lpop | llen | lset | rpush | rpop
  | setnx | sadd | scard | spop | smembers | sismember | srem
  | zadd | zcard | zscore | zrem | zrange | zrevrange | keys
  deriving DecidableEq

def HName.run : HName → Handler
  | .set => kvolveSet | .mset => kvolveMset | .get => kvolveGet | .mget => kvolveMget
  | .getset => kvolveGetset | .getrange => kvolveGetrange | .incr => kvolveIncr
  | .incrby => kvolveIncrby | .del => kvolveDel
  | .hdel => kvolveHdel | .hget => kvolveHget | .hgetall => kvolveHgetall | .hset => kvolveHset
  | .hmset => kvolveHmset | .hmget => kvolveHmget
  | .lrange => kvolveLrange | .lpush => kvolveLpush | .lpop => kvolveLpop | .llen => kvolveLlen
  | .lset => kvolveLset | .rpush => kvolveRpush | .rpop => kvolveRpop
  | .setnx => kvolveSetnx | .sadd => kvolveSadd | .scard => kvolveScard | .spop => kvolveSpop
  | .smembers => kvolveSmembers | .sismember => kvolveSismember | .srem => kvolveSrem
  | .zadd => kvolveZadd | .zcard => kvolveZcard | .zscore => kvolveZscore | .zrem => kvolveZrem
  | .zrange => kvolveZrange | .zrevrange => kvolveZrevrange
  | .keys => fun _ env _ => kvolveKeys env

/-- `kvolveCommandTable`, with the least number of arguments, the name included. -/
def kvolveCommandTable : List (String × HName × Nat) :=
  [("set", .set, 3), ("mset", .mset, 3), ("get", .get, 2), ("mget", .mget, 2),
   ("getset", .getset, 3), ("getrange", .getrange, 4), ("incr", .incr, 2),
   ("incrby", .incrby, 3), ("del", .del, 2), ("hdel", .hdel, 3), ("hget", .hget, 3),
   ("hgetall", .hgetall, 2), ("hset", .hset, 4), ("hmset", .hmset, 4), ("hmget", .hmget, 3),
   ("lrange", .lrange, 4), ("lpush", .lpush, 3), ("lpop", .lpop, 2), ("llen", .llen, 2),
   ("lset", .lset, 2), ("rpush", .rpush, 3), ("rpop", .rpop, 2), ("setnx", .setnx, 3),
   ("sadd", .sadd, 3), ("scard", .scard, 3), ("spop", .spop, 2), ("smembers", .smembers, 2),
   ("sismember", .sismember, 3), ("srem", .srem, 3), ("zadd", .zadd, 4), ("zcard", .zcard, 2),
   ("zscore", .zscore, 3), ("zrem", .zrem, 3), ("zrange", .zrange, 4),
   ("zrevrange", .zrevrange, 4), ("keys", .keys, 2)]

/-- `kvolve_lookup_kv_command`: the name in lower or in upper case. -/
def lookupKvCommand (name : Bytes) (argc : Nat) : Option HName :=
  match kvolveCommandTable.find? fun c =>
      cstr name == lit c.1 || cstr name == (lit c.1).map upper with
  | some (_, h, minArgs) => if argc < minArgs then none else some h
  | none => none

end SchemaUpdate.KVolve
