import SchemaUpdate.KVolve.Server

/-! # A data command through the server

Redis finds a command whatever the case of its name, KVolve only when the name is
all in lower or all in upper case. For a name spelled in one of these two ways the
path of a request is the handler, Redis's refusals and the plan of the command. -/

namespace SchemaUpdate.KVolve

open SchemaUpdate.Lib SchemaUpdate.Redis

def HName.text (h : HName) : String :=
  match kvolveCommandTable.find? (·.2.1 == h) with
  | some c => c.1
  | none => ""

def HName.least (h : HName) : Nat :=
  match kvolveCommandTable.find? (·.2.1 == h) with
  | some c => c.2.2
  | none => 0

def HName.cmd : HName → Cmd
  | .set => .set | .mset => .mset | .get => .get | .mget => .mget | .getset => .getset
  | .getrange => .getrange | .incr => .incr | .incrby => .incrby | .del => .del
  | .hdel => .hdel | .hget => .hget | .hgetall => .hgetall | .hset => .hset
  | .hmset => .hmset | .hmget => .hmget | .lrange => .lrange | .lpush => .lpush
  | .lpop => .lpop | .llen => .llen | .lset => .lset | .rpush => .rpush | .rpop => .rpop
  | .setnx => .setnx | .sadd => .sadd | .scard => .scard | .spop => .spop
  | .smembers => .smembers | .sismember => .sismember | .srem => .srem | .zadd => .zadd
  | .zcard => .zcard | .zscore => .zscore | .zrem => .zrem | .zrange => .zrange
  | .zrevrange => .zrevrange | .keys => .keys

def HName.arity (h : HName) : Int :=
  match redisCommandTable.find? (·.2.1 == h.cmd) with
  | some c => c.2.2
  | none => 0

/-- The two spellings KVolve knows. -/
def Spelled (h : HName) (name : Bytes) : Prop := name ∈ [lit h.text, (lit h.text).map upper]

instance (h : HName) (name : Bytes) : Decidable (Spelled h name) :=
  inferInstanceAs (Decidable (_ ∈ _))

section Names

theorem kvolveCommandTable_find :
    ∀ c ∈ kvolveCommandTable, ∀ name ∈ [lit c.1, (lit c.1).map upper],
      (kvolveCommandTable.find? fun c => cstr name == lit c.1 || cstr name == (lit c.1).map upper) =
        some c := by
  decide +kernel

theorem redisCommandTable_find :
    ∀ c ∈ redisCommandTable, NulFree (lit c.1) ∧ ∀ name ∈ [lit c.1, (lit c.1).map upper],
      lookupCommand name = some c ∧ strcasecmp name (lit "quit") = false := by
  decide +kernel

theorem HName.mem_kvolve (h : HName) : (h.text, h, h.least) ∈ kvolveCommandTable := by
  have hfind : kvolveCommandTable.find? (·.2.1 == h) = some (h.text, h, h.least) := by
    cases h <;> rfl
  exact List.mem_of_find?_eq_some hfind

theorem HName.mem_redis (h : HName) : (h.text, h.cmd, h.arity) ∈ redisCommandTable := by
  have hfind : redisCommandTable.find? (·.2.1 == h.cmd) = some (h.text, h.cmd, h.arity) := by
    cases h <;> rfl
  exact List.mem_of_find?_eq_some hfind

theorem HName.cmd_ne (h : HName) : h.cmd ≠ .exec ∧ h.cmd ≠ .client := by
  cases h <;> decide

theorem HName.cmd_ne_keys {h : HName} (hk : h ≠ .keys) : h.cmd ≠ .keys := by
  cases h <;> first | decide | exact absurd rfl hk

theorem kvolveCommandTable_cmd :
    ∀ c ∈ kvolveCommandTable, ∀ e ∈ kvolveCommandTable, c.2.1.cmd = e.2.1.cmd → c.2.1 = e.2.1 := by
  decide +kernel

theorem HName.cmd_injective {h h' : HName} (hc : h.cmd = h'.cmd) : h = h' :=
  kvolveCommandTable_cmd _ h.mem_kvolve _ h'.mem_kvolve hc

variable {h : HName} {name : Bytes} {row : String × Cmd × Int}

theorem nulFree_of_lookup (h : lookupCommand name = some row) : NulFree name := by
  have hname : name.map lower = lit row.1 := by
    simpa using List.find?_some h
  have hfree := (redisCommandTable_find row (List.mem_of_find?_eq_some h)).1
  rw [← hname] at hfree
  intro hzero
  exact hfree (List.mem_map.mpr ⟨0, hzero, rfl⟩)

theorem lookupCommand_casecmp {c : String × Cmd × Int} (hc : c ∈ redisCommandTable)
    (hn : strcasecmp name (lit c.1) = true) (hr : lookupCommand name = some row) : row = c := by
  obtain ⟨hfree, hfind⟩ := redisCommandTable_find c hc
  have heq : (cstr name).map lower = (cstr (lit c.1)).map lower := by simpa [strcasecmp] using hn
  rw [cstr_eq_self (nulFree_of_lookup hr), cstr_eq_self hfree] at heq
  have hself := (hfind (lit c.1) (by simp)).1
  rw [lookupCommand, ← heq] at hself
  exact Option.some.inj (hr.symm.trans hself)

theorem not_casecmp_of_lookup {c : String × Cmd × Int} (hc : c ∈ redisCommandTable)
    (hr : lookupCommand name = some row) (hne : c.2.1 ≠ row.2.1) :
    strcasecmp name (lit c.1) = false := by
  refine Bool.eq_false_iff.mpr fun hcase => hne ?_
  rw [lookupCommand_casecmp hc hcase hr]

theorem client_mem_redis : ("client", Cmd.client, -2) ∈ redisCommandTable :=
  List.mem_of_find?_eq_some (p := fun c => c.2.1 == .client) rfl

/-- Redis finds the command of the handler under the name, whatever the case of its letters. -/
def HName.Named (h : HName) (name : Bytes) : Prop :=
  lookupCommand name = some (h.text, h.cmd, h.arity)

theorem HName.Named.not_client (hn : h.Named name) : strcasecmp name (lit "client") = false :=
  not_casecmp_of_lookup client_mem_redis hn h.cmd_ne.2.symm

theorem HName.Named.not_keys (hn : h.Named name) (hk : h ≠ .keys) :
    strcasecmp name (lit "keys") = false :=
  not_casecmp_of_lookup (HName.mem_redis .keys) hn (HName.cmd_ne_keys hk).symm

theorem HName.Named.isSetname {name : Arg} (hn : h.Named name.ptr) (l : List Arg) :
    isSetname (name :: l) = none := by
  unfold KVolve.isSetname
  split
  · rename_i heq
    cases heq
    simp [hn.not_client]
  · rfl

section Spelled

variable (hs : Spelled h name)

include hs

theorem Spelled.kvolve (argc : Nat) :
    lookupKvCommand name argc = if argc < h.least then none else some h := by
  rw [lookupKvCommand, kvolveCommandTable_find _ h.mem_kvolve name hs]

theorem Spelled.redis : lookupCommand name = some (h.text, h.cmd, h.arity) :=
  ((redisCommandTable_find _ h.mem_redis).2 name hs).1

theorem Spelled.named : h.Named name := hs.redis

theorem Spelled.not_quit : strcasecmp name (lit "quit") = false :=
  ((redisCommandTable_find _ h.mem_redis).2 name hs).2

end Spelled

theorem spelled_of_lookups {argc : Nat} (hkv : lookupKvCommand name argc = some h)
    (hr : lookupCommand name = some row) :
    Spelled h name := by
  unfold lookupKvCommand at hkv
  split at hkv
  · rename_i t h' least hfind
    split at hkv
    · cases hkv
    · cases hkv
      have hname := List.find?_some hfind
      simp only [Bool.or_eq_true, beq_iff_eq, cstr_eq_self (nulFree_of_lookup hr)] at hname
      have htext : ∀ c ∈ kvolveCommandTable, c.2.1.text = c.1 := by decide +kernel
      have ht : h.text = t := htext _ (List.mem_of_find?_eq_some hfind)
      rw [Spelled, ht]
      simpa using hname
  · cases hkv

end Names

/-! ## The hook -/

def args (argv : List Bytes) : List Arg := argv.map (⟨·, 0⟩)

theorem args_eq_cons {argv : List Bytes} {name k : Arg} {rest : List Arg}
    (h : args argv = name :: k :: rest) :
    ∃ nm p more, argv = nm :: p :: more ∧ name = ⟨nm, 0⟩ ∧ k = ⟨p, 0⟩ ∧ rest = args more := by
  obtain ⟨nm, l, rfl, rfl, hl⟩ := List.map_eq_cons_iff.mp h
  obtain ⟨p, more, rfl, rfl, rfl⟩ := List.map_eq_cons_iff.mp hl
  exact ⟨nm, p, more, rfl, rfl, rfl, rfl⟩

/-- The handler of a data command, with the record its first key resolves to. -/
def handle (h : HName) (env : Env) (k : Arg) (rest : List Arg) (s : Store) :
    Res (List Arg × Store) :=
  match versionHashLookup s.reg k.ptr with
  | none => .ok (k :: rest, s)
  | some v => h.run checkUpdateKvPair env v (k :: rest) s

variable {h : HName}

theorem processCommand_spelled {name : Arg} (hs : Spelled h name.ptr) (hk : h ≠ .keys) (ld : Loader)
    (env : Env) (id : Nat) (k : Arg) (rest : List Arg) (s : Store)
    (hargc : h.least ≤ rest.length + 2) :
    processCommand ld env id (name :: k :: rest) s =
      handle h env k rest (prevcallCheck s) >>= fun out =>
        .ok { argv := name :: out.1, s := out.2 } := by
  have hdata : processData checkUpdateKvPair env (name :: k :: rest) (prevcallCheck s) =
      dispatch checkUpdateKvPair env (name :: k :: rest) (prevcallCheck s) := by
    unfold processData
    split
    · rename_i heq
      cases heq
      rw [hs.named.not_keys hk]
      rfl
    · rfl
  have hkv : lookupKvCommand name.ptr (name :: k :: rest).length = some h := by
    rw [hs.kvolve, if_neg]
    simp only [List.length_cons]
    omega
  rw [processCommand, hookBody, hs.named.isSetname]
  simp only [hdata, dispatch, hkv, handle]
  cases versionHashLookup (prevcallCheck s).reg k.ptr with
  | none => rfl
  | some v =>
    simp only
    cases h.run checkUpdateKvPair env v (k :: rest) (prevcallCheck s) <;> rfl

/-! ## Redis -/

theorem redisProcessCommand_spelled {name : Bytes} (hs : Spelled h name) (cfg : Cfg) (rq : Request)
    {c : Client} (hc : c.multi = false) (argc : Nat) :
    (∃ r, ∀ (a : List Arg) (s : Store), a.length = argc →
      redisProcessCommand cfg rq c (⟨name, 0⟩ :: a) s = (r, c.flag, s)) ∨
    (∀ (a : List Arg) (s : Store), a.length = argc →
      redisProcessCommand cfg rq c (⟨name, 0⟩ :: a) s = call cfg rq c s h.cmd a) := by
  have hcmd := hs.redis
  have hexec := h.cmd_ne.1
  by_cases har : arityOk h.arity (argc + 1) = true
  · by_cases hauth : (cfg.requirepass.isSome && !c.authenticated && h.cmd != .auth) = true
    · refine .inl ⟨noautherr, fun a s ha => ?_⟩
      simp only [redisProcessCommand, hs.not_quit, hcmd, List.length_cons, ha, har, hauth]
      rfl
    · cases hr : rq.refuse h.cmd with
      | some r =>
        refine .inl ⟨r, fun a s ha => ?_⟩
        simp only [redisProcessCommand, hs.not_quit, hcmd, List.length_cons, ha, har, hauth, hr]
        rfl
      | none =>
        refine .inr fun a s ha => ?_
        simp only [redisProcessCommand, hs.not_quit, hcmd, List.length_cons, ha, har, hauth, hr, hc,
          Bool.false_and, Bool.not_true, Bool.false_eq_true, if_false, hexec]
  · refine .inl ⟨replyError (lit "wrong number of arguments for '" ++ lit h.text ++
      lit "' command"), fun a s ha => ?_⟩
    simp only [redisProcessCommand, hs.not_quit, hcmd, List.length_cons, ha, har]
    rfl

/-- **A request with a well-spelled name: the pending tags, the handler, then Redis.** -/
theorem serve_spelled {name k : Bytes} {rest : List Bytes} (hs : Spelled h name) (hk : h ≠ .keys)
    (hargc : h.least ≤ rest.length + 2) (cfg : Cfg) (c : Client) (rq : Request)
    (hargv : rq.argv = name :: k :: rest) (s : Store) :
    serve cfg c rq s =
      handle h (rq.env cfg c.db) ⟨k, 0⟩ (args rest) (prevcallCheck s) >>= fun out =>
        let r := redisProcessCommand cfg rq c (⟨name, 0⟩ :: out.1) out.2
        .ok ⟨r.1, r.2.1, r.2.2, ∅⟩ := by
  have hlen : (args rest).length = rest.length := List.length_map _
  rw [serve, hargv, List.map_cons, List.map_cons, ← args,
    processCommand_spelled hs hk _ _ _ _ _ _ (hlen ▸ hargc)]
  cases handle h (rq.env cfg c.db) ⟨k, 0⟩ (args rest) (prevcallCheck s) <;> rfl

end SchemaUpdate.KVolve
