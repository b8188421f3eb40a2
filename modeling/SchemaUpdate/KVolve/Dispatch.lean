import SchemaUpdate.KVolve.Invariant

/-! # The two dispatchers

Redis looks a command up without regard to case and compares the number of arguments
with a signed arity. `kvolve_process_command` looks the same vector up in its own
table, with two spellings a name and its own least number of arguments. -/

namespace SchemaUpdate.KVolve

open SchemaUpdate.Lib SchemaUpdate.Redis

/-- The command for which Redis takes a vector, by name and arity. -/
def redisAccepts (argv : List Arg) : Option Cmd :=
  match argv with
  | [] => none
  | name :: _ =>
    match lookupCommand name.ptr with
    | none => none
    | some (_, cmd, arity) => if arityOk arity argv.length then some cmd else none

/-- The handler the last branch of `kvolve_process_command` calls. -/
def dispatched (reg : Reg) (argv : List Arg) : Option HName :=
  match argv with
  | name :: k :: _ =>
    match versionHashLookup reg k.ptr with
    | none => none
    | some _ => lookupKvCommand name.ptr argv.length
  | _ => none

/-- The handler `kvolve_process_command` calls, if any. -/
def invoked (reg : Reg) (argv : List Arg) : Option HName :=
  match isSetname argv with
  | some _ => none
  | none =>
    match argv with
    | [name, _] =>
      if strcasecmp name.ptr (lit "keys") then some .keys else dispatched reg argv
    | _ => dispatched reg argv

section Hook

variable (ld : Loader) (env : Env) (id : Nat) {name k : Arg} {rest : List Arg} {s : Store}

theorem dispatch_invokes (cu : CheckUpdate) {h : HName}
    (hd : dispatched s.reg (name :: k :: rest) = some h) :
    ∃ v, versionHashLookup s.reg k.ptr = some v ∧
      dispatch cu env (name :: k :: rest) s =
        h.run cu env v (k :: rest) s >>= fun out => .ok (name :: out.1, out.2) := by
  unfold dispatched at hd
  unfold dispatch
  cases hv : versionHashLookup s.reg k.ptr with
  | none => simp [hv] at hd
  | some v =>
    simp only [hv] at hd ⊢
    exact ⟨v, rfl, by rw [hd]⟩

/-- What is invoked is what runs, with the record of the first key. -/
theorem processCommand_invokes {h : HName} (hk : h ≠ .keys)
    (hi : invoked s.reg (name :: k :: rest) = some h) :
    ∃ v, versionHashLookup s.reg k.ptr = some v ∧
      processCommand ld env id (name :: k :: rest) s =
        h.run checkUpdateKvPair env v (k :: rest) (prevcallCheck s) >>= fun out =>
          .ok { argv := name :: out.1, s := out.2 } := by
  have hreg := prevcallCheck_reg s
  unfold invoked at hi
  cases hset : isSetname (name :: k :: rest) with
  | some x =>
    rw [hset] at hi
    cases hi
  | none =>
    simp only [hset] at hi
    obtain ⟨hd, hdata⟩ : dispatched s.reg (name :: k :: rest) = some h ∧
        processData checkUpdateKvPair env (name :: k :: rest) (prevcallCheck s) =
          dispatch checkUpdateKvPair env (name :: k :: rest) (prevcallCheck s) := by
      unfold processData
      cases rest with
      | nil =>
        simp only at hi ⊢
        split at hi
        · exact absurd (Option.some.inj hi).symm hk
        · rename_i hname
          exact ⟨hi, by rw [if_neg hname]⟩
      | cons x rest => exact ⟨hi, rfl⟩
    rw [← hreg] at hd
    obtain ⟨v, hv, hrun⟩ := dispatch_invokes env checkUpdateKvPair hd
    refine ⟨v, by rwa [hreg] at hv, ?_⟩
    rw [processCommand, hookBody, hset]
    simp only [hdata, hrun, bind_assoc, ok_bind]

end Hook

/-! ## Names that Redis knows -/

theorem redisCommandTable_row :
    ∀ c ∈ redisCommandTable, ∀ e ∈ kvolveCommandTable, c.2.1 = e.2.1.cmd →
      c = (e.2.1.text, e.2.1.cmd, e.2.1.arity) := by
  decide +kernel

/-- The least number of arguments is at most what the arity asks for, but for `SCARD`. -/
theorem HName.least_le {h : HName} {argc : Nat} (ha : arityOk h.arity argc = true) :
    h.least ≤ argc ↔ h ≠ .scard := by
  have harity : ∀ c ∈ kvolveCommandTable, c.2.1 ≠ .scard →
      (0 < c.2.1.arity → (c.2.1.least : Int) ≤ c.2.1.arity) ∧
      (¬ 0 < c.2.1.arity → (c.2.1.least : Int) ≤ -c.2.1.arity) := by
    decide +kernel
  constructor
  · rintro hle rfl
    have htwo : arityOk 2 argc = true := ha
    have hthree : 3 ≤ argc := hle
    rw [arityOk, if_pos (by decide), beq_iff_eq] at htwo
    omega
  · intro hne
    obtain ⟨hpos, hneg⟩ : (0 < h.arity → (h.least : Int) ≤ h.arity) ∧
      (¬ 0 < h.arity → (h.least : Int) ≤ -h.arity) := harity _ h.mem_kvolve hne
    rw [arityOk] at ha
    split at ha
    · rename_i hp
      have := hpos hp
      have heq : h.arity = argc := beq_iff_eq.mp ha
      omega
    · rename_i hp
      have := hneg hp
      have hle : -h.arity ≤ argc := of_decide_eq_true ha
      omega

section Accepted

variable {argv : List Arg} {h : HName}

theorem lookup_of_accepts (hacc : redisAccepts argv = some h.cmd) :
    ∃ name rest, argv = name :: rest ∧
      lookupCommand name.ptr = some (h.text, h.cmd, h.arity) ∧
      arityOk h.arity argv.length = true := by
  unfold redisAccepts at hacc
  cases argv with
  | nil => cases hacc
  | cons name rest =>
    simp only at hacc
    split at hacc
    · cases hacc
    · rename_i t cmd arity hrow
      split at hacc
      · rename_i har
        have hcmd : cmd = h.cmd := Option.some.inj hacc
        have hc : (t, cmd, arity) = (h.text, h.cmd, h.arity) :=
          redisCommandTable_row _ (List.mem_of_find?_eq_some hrow) _ h.mem_kvolve hcmd
        cases hc
        exact ⟨name, rest, rfl, hrow, har⟩
      · cases hacc

theorem invoked_of_accepts (hacc : redisAccepts argv = some h.cmd) (hk : h ≠ .keys) {reg : Reg}
    {k : Arg} (hkey : argv.tail.head? = some k) (hv : versionHashLookup reg k.ptr ≠ none) :
    ∃ name, argv.head? = some name ∧
      lookupCommand name.ptr = some (h.text, h.cmd, h.arity) ∧
      arityOk h.arity argv.length = true ∧
      invoked reg argv = lookupKvCommand name.ptr argv.length := by
  obtain ⟨name, rest, rfl, hrow, har⟩ := lookup_of_accepts hacc
  obtain ⟨rest, rfl⟩ := List.head?_eq_some_iff.mp hkey
  refine ⟨name, rfl, hrow, har, ?_⟩
  have hnamed : h.Named name.ptr := hrow
  have hd : dispatched reg (name :: k :: rest) =
      lookupKvCommand name.ptr (name :: k :: rest).length := by
    unfold dispatched
    cases hlook : versionHashLookup reg k.ptr with
    | none => exact absurd hlook hv
    | some v => simp only [hlook]
  unfold invoked
  rw [hnamed.isSetname]
  cases rest with
  | nil => simp only [hnamed.not_keys hk, Bool.false_eq_true, if_false, hd]
  | cons x rest => exact hd

end Accepted

/-! ## Agreement -/

/-- **KVolve invokes the handler of the command Redis accepts, if the name is in one case and the
command is not `SCARD`; it never invokes another handler.** -/
theorem dispatch_agrees {reg : Reg} {argv : List Arg} {h : HName} {k : Arg} (hk : h ≠ .keys)
    (hacc : redisAccepts argv = some h.cmd) (hkey : argv.tail.head? = some k)
    (hv : versionHashLookup reg k.ptr ≠ none) :
    (invoked reg argv = some h ↔
      (∃ name, argv.head? = some name ∧ Spelled h name.ptr) ∧ h ≠ .scard) ∧
    ∀ h', invoked reg argv = some h' → h' = h := by
  obtain ⟨name, hhead, hrow, har, hinv⟩ := invoked_of_accepts hacc hk hkey hv
  have hown : ∀ h', invoked reg argv = some h' → Spelled h' name.ptr ∧ h' = h := by
    intro h' hi
    rw [hinv] at hi
    have hs := spelled_of_lookups hi hrow
    refine ⟨hs, HName.cmd_injective ?_⟩
    have := hs.redis.symm.trans hrow
    simp only [Option.some.injEq, Prod.mk.injEq] at this
    exact this.2.1
  refine ⟨⟨fun hi => ?_, fun hcond => ?_⟩, fun h' hi => (hown h' hi).2⟩
  · have hs := (hown h hi).1
    refine ⟨⟨name, hhead, hs⟩, (HName.least_le har).mp ?_⟩
    rw [hinv, hs.kvolve] at hi
    split at hi
    · cases hi
    · rename_i hle
      omega
  · obtain ⟨⟨name', hhead', hs⟩, hne⟩ := hcond
    cases hhead.symm.trans hhead'
    have hle := (HName.least_le har).mpr hne
    rw [hinv, hs.kvolve, if_neg (by omega)]

/-- `GET user:k` with `user` registered. -/
theorem dispatch_get :
    invoked (registered "user" 1) [⟨lit "GET", 0⟩, ⟨lit "user:k", 0⟩] = some .get :=
  (@dispatch_agrees (registered "user" 1) _ .get ⟨lit "user:k", 0⟩ (by decide) (by decide +kernel)
    rfl (by decide +kernel)).1.mpr ⟨⟨_, rfl, by decide +kernel⟩, by decide⟩

/-- Redis takes `Get user:k` and `scard user:k`, and no handler runs. -/
theorem dispatch_missed :
    redisAccepts [⟨lit "Get", 0⟩, ⟨lit "user:k", 0⟩] = some .get ∧
    invoked (registered "user" 1) [⟨lit "Get", 0⟩, ⟨lit "user:k", 0⟩] = none ∧
    redisAccepts [⟨lit "scard", 0⟩, ⟨lit "user:k", 0⟩] = some .scard ∧
    invoked (registered "user" 1) [⟨lit "scard", 0⟩, ⟨lit "user:k", 0⟩] = none ∧
    versionHashLookup (registered "user" 1) (lit "user:k") ≠ none := by
  decide +kernel

end SchemaUpdate.KVolve
