import SchemaUpdate.KVolve.Idle
import SchemaUpdate.KVolve.System
import SchemaUpdate.Lib.Run

/-! # Clients that do not authenticate

Redis does nothing for such a client, but the hook runs before Redis looks at the
password. What is left is to say when the hook has nothing to do. -/

namespace SchemaUpdate.KVolve

open SchemaUpdate.Lib SchemaUpdate.Redis

/-! ## Redis -/

def NotLogin (cfg : Cfg) (argv : List Bytes) : Prop :=
  ∀ name pw, argv = [name, pw] → (lookupCommand name).map (·.2.1) = some .auth →
    cfg.requirepass ≠ some (cstr pw)

variable {name : Bytes} {cfg : Cfg} {s : Store} {env : Env}

theorem lookupCommand_auth {cname : String} {arity : Int}
    (h : lookupCommand name = some (cname, .auth, arity)) : arity = 2 := by
  have hmem : (cname, Cmd.auth, arity) ∈ redisCommandTable := List.mem_of_find?_eq_some h
  exact (show cname = "auth" ∧ arity = 2 by simpa [redisCommandTable] using hmem).2

theorem redisProcessCommand_unauth (hpass : cfg.requirepass.isSome = true) (rq : Request)
    {c : Client} (hc : c.authenticated = false) (argv : List Arg) (s : Store)
    (hlogin : NotLogin cfg (argv.map (·.ptr))) :
    (redisProcessCommand cfg rq c argv s).2.2 = s ∧
      (redisProcessCommand cfg rq c argv s).2.1.authenticated = false := by
  unfold redisProcessCommand
  split
  · exact ⟨rfl, hc⟩
  · rename_i name args
    split
    · exact ⟨rfl, hc⟩
    · split
      · exact ⟨rfl, hc⟩
      · rename_i cname cmd arity hcmd
        split
        · exact ⟨rfl, hc⟩
        · rename_i har
          split
          · exact ⟨rfl, hc⟩
          · rename_i hauth
            have hcauth : cmd = .auth := by
              simpa [hpass, hc] using hauth
            subst hcauth
            split
            · exact ⟨rfl, hc⟩
            · split
              · exact ⟨rfl, hc⟩
              · rw [if_neg (by decide)]
                have harity := lookupCommand_auth hcmd
                subst harity
                obtain ⟨pw, rfl⟩ : ∃ pw, args = [pw] := by
                  refine List.length_eq_one_iff.mp ?_
                  have hlen : (2 : Int) = args.length + 1 := by simpa [arityOk] using har
                  omega
                simp only [call, plan]
                split
                · rename_i hnone
                  rw [hnone] at hpass
                  cases hpass
                · rename_i pass hsome
                  rw [if_neg]
                  · exact ⟨rfl, rfl⟩
                  · rintro rfl
                    exact hlogin _ _ rfl (by rw [hcmd]; rfl) hsome

/-! ## A hook with nothing to do -/

/-- Every pending tag waits for a key that is not there. -/
def NoneDue (s : Store) : Prop := ∀ k t, s.tmp.lookup k = some t → s.get t.2 k = none

theorem prevcallCheck_noneDue (h : NoneDue s) : prevcallCheck s = s := by
  have hall : ∀ p ∈ s.tmp.entries, s.get p.2.2 p.1 = none :=
    fun p hp => h p.1 p.2 (AList.mem_lookup_iff.mpr hp)
  unfold prevcallCheck
  generalize s.tmp.entries = l at hall
  induction l with
  | nil => rfl
  | cons p l ih =>
    rw [List.foldl_cons, prevcallStep, hall p (by simp)]
    exact ih fun q hq => hall q (by simp [hq])

/-- `KEYS` with a pattern that brings no key to a new name. -/
def KeysIdle (env : Env) (pattern : Bytes) (s : Store) : Prop :=
  cstr pattern = lit "kvolve" ∨ ∀ k ∈ env.iter (s.dbs env.d), s.has env.d k = true →
    ∀ next, (versionHashLookup s.reg k).bind (·.nextNs) = some next →
      ∃ new, constructPrevName k next = some new ∧
        (env.cfg.stringmatchlen pattern new = true → s.has env.d new = true)

theorem keysStep_idle {pattern k : Bytes}
    (h : s.has env.d k = true → ∀ next, (versionHashLookup s.reg k).bind (·.nextNs) = some next →
      ∃ new, constructPrevName k next = some new ∧
        (env.cfg.stringmatchlen pattern new = true → s.has env.d new = true)) :
    keysStep env pattern s k = .ok s := by
  unfold keysStep
  split
  · rename_i hhas
    split
    · rfl
    · rename_i next hnext
      obtain ⟨new, hnew, hmatch⟩ := h hhas next hnext
      simp only [hnew]
      split
      · rename_i hm
        split
        · rw [if_pos (hmatch hm)]
        · exact namespaceUpdate_has (hmatch hm)
      · rfl
  · rfl

def keysArg (p : Arg) : Arg := if cstr p.ptr = lit "kvolve" then { p with ptr := [42] } else p

theorem kvolveKeys_idle {p : Arg} (h : KeysIdle env p.ptr s) (rest : List Arg) :
    kvolveKeys env (p :: rest) s = .ok (keysArg p :: rest, s) := by
  unfold keysArg
  by_cases hk : cstr p.ptr = lit "kvolve"
  · simp only [kvolveKeys, if_pos hk]
  · have hidle := h.resolve_left hk
    simp only [kvolveKeys, if_neg hk]
    rw [foldlM_id fun k hmem => keysStep_idle (hidle k hmem)]
    rfl

/-- A handler that has nothing to update and no tag to register. -/
def HandlerIdle (h : HName) (env : Env) (v : VersionHash) (k : Arg) (rest : List Arg) (s : Store) :
    Prop :=
  if h = .keys then KeysIdle env k.ptr s
  else ArgsOk h (k :: rest) ∧ (h.creates = true → s.has env.d k.ptr = true) ∧
    ∀ j ∈ h.keysOf (k :: rest), Absent env v j s ∨ Current h env v j s

theorem HandlerIdle.run {h : HName} {v : VersionHash} {k : Arg} {rest : List Arg}
    (hi : HandlerIdle h env v k rest s) :
    ∃ args', h.run checkUpdateKvPair env v (k :: rest) s = .ok (args', s) ∧
      (args'.map (·.ptr) = (k :: rest).map (·.ptr) ∨
        h = .keys ∧ args'.length = rest.length + 1) := by
  unfold HandlerIdle at hi
  split at hi
  · rename_i hk
    subst hk
    exact ⟨_, kvolveKeys_idle hi rest, .inr ⟨rfl, rfl⟩⟩
  · rename_i hk
    refine ⟨_, ?_, .inl (h.tagged_ptr v.cur _)⟩
    rw [run_idle hk hi.1 hi.2.2, idleStore, if_neg]
    rintro ⟨hc, hn⟩
    rw [hi.2.1 hc] at hn
    cases hn

def DataIdle (env : Env) (argv : List Arg) (s : Store) : Prop :=
  ∀ name k rest, argv = name :: k :: rest →
    (strcasecmp name.ptr (lit "keys") = true → rest = [] → KeysIdle env k.ptr s) ∧
    ∀ v h, versionHashLookup s.reg k.ptr = some v → lookupKvCommand name.ptr argv.length = some h →
      HandlerIdle h env v k rest s

theorem strcasecmp_keys_not_auth (h : strcasecmp name (lit "keys") = true) :
    (lookupCommand name).map (·.2.1) ≠ some .auth := by
  intro hauth
  obtain ⟨⟨cname, cmd, arity⟩, hcmd, hc⟩ := Option.map_eq_some_iff.mp hauth
  have hname : name.map lower = lit cname := by
    simpa using List.find?_some hcmd
  have hmem : (cname, cmd, arity) ∈ redisCommandTable := List.mem_of_find?_eq_some hcmd
  have hpre : (cstr name).map lower <+: name.map lower := ( cstr_prefix name).map lower
  have hk : (cstr name).map lower = (cstr (lit "keys")).map lower := by
    simpa [strcasecmp] using h
  rw [hk, hname] at hpre
  have hno : ∀ c ∈ redisCommandTable, c.2.1 = .auth →
      ¬ (cstr (lit "keys")).map lower <+: lit c.1 := by
    decide
  exact hno _ hmem hc hpre

theorem lookupKvCommand_keys {argc : Nat} (h : lookupKvCommand name argc = some .keys) :
    strcasecmp name (lit "keys") = true := by
  unfold lookupKvCommand at h
  split at h
  · rename_i c hname least hfind
    split at h
    · cases h
    · cases h
      have hmem := List.mem_of_find?_eq_some hfind
      have hone : ∀ c ∈ kvolveCommandTable, c.2.1 = .keys → c.1 = "keys" := by decide
      have hc : c = "keys" := hone _ hmem rfl
      subst hc
      have hp := List.find?_some hfind
      simp only [Bool.or_eq_true, beq_iff_eq] at hp
      unfold strcasecmp
      rcases hp with hp | hp
      · rw [hp]
        decide
      · rw [hp]
        decide
  · cases h

/-- What the hook hands to Redis is a login only when the client sent one. -/
def LoginKept (argv argv' : List Arg) : Prop :=
  ∀ cfg, NotLogin cfg (argv.map (·.ptr)) → NotLogin cfg (argv'.map (·.ptr))

theorem loginKept_keys {name : Arg} (h : strcasecmp name.ptr (lit "keys") = true)
    (argv args : List Arg) : LoginKept argv (name :: args) := by
  intro cfg _ n pw heq hauth
  have hn : name.ptr = n := (List.cons.inj heq).1
  exact absurd (hn ▸ hauth) (strcasecmp_keys_not_auth h)

theorem DataIdle.processData {argv : List Arg} (h : DataIdle env argv s) :
    ∃ argv', processData checkUpdateKvPair env argv s = .ok (argv', s) ∧ LoginKept argv argv' := by
  have hdisp : ∃ argv', dispatch checkUpdateKvPair env argv s = .ok (argv', s) ∧
      LoginKept argv argv' := by
    unfold dispatch
    split
    · rename_i name k rest
      split
      · exact ⟨_, rfl, fun _ h => h⟩
      · rename_i v hv
        split
        · exact ⟨_, rfl, fun _ h => h⟩
        · rename_i hn hkv
          obtain ⟨args', hok, hptr⟩ := ((h name k rest rfl).2 v hn hv hkv).run
          refine ⟨name :: args', by rw [hok]; rfl, ?_⟩
          rcases hptr with hptr | ⟨rfl, -⟩
          · intro cfg hlogin
            rw [List.map_cons, hptr]
            exact hlogin
          · exact loginKept_keys (lookupKvCommand_keys hkv) _ _
    · exact ⟨_, rfl, fun _ h => h⟩
  unfold KVolve.processData
  split
  · rename_i name p
    split
    · rename_i hk
      exact ⟨_, by rw [kvolveKeys_idle ((h name p [] rfl).1 hk rfl)]; rfl, loginKept_keys hk _ _⟩
    · exact hdisp
  · exact hdisp

/-! ## Names a client gives itself -/

def Refused (reg : Reg) (name : Bytes) : Prop :=
  ∃ ns rest last vers rest' last' v, strtok 64 (cstr name) = some (ns, rest, last) ∧
    strtok 44 rest = some (vers, rest', last') ∧ reg.find ns = some v ∧
    (v.cur ≠ atoi vers ∨ v.nextNs.isSome = true)

/-- A name that loads nothing and connects to nothing. -/
def NameIdle (ld : Loader) (name : Bytes) (reg : Reg) : Prop :=
  match updatePath name with
  | some path => ∀ specs, ld.dlopen path = some specs → ∀ sp ∈ specs, specAccepts reg sp = none
  | none => 64 ∉ cstr name ∨ Refused reg name

theorem loadUpdate_idle {ld : Loader} {id : Nat} {path : Bytes} {reg : Reg}
    (h : ∀ specs, ld.dlopen path = some specs → ∀ sp ∈ specs, specAccepts reg sp = none) :
    loadUpdate ld id path reg = .ok (reg, ∅) := by
  unfold loadUpdate
  split
  · rfl
  · rename_i specs hspecs
    refine foldlM_id fun sp hsp => ?_
    simp only [updSpec, h specs hspecs sp hsp]
    rfl

theorem checkVersion_idle (id : Nat) {reg : Reg} (h : 64 ∉ cstr name ∨ Refused reg name) :
    ∃ quit, checkVersion id name reg = .ok (reg, quit) := by
  unfold checkVersion
  split
  · rename_i hat
    obtain ⟨ns, rest, last, vers, rest', last', v, hns, hvers, hv, hno⟩ := h.resolve_left
      (fun hno => hno hat)
    refine ⟨true, ?_⟩
    simp only [checkVersionLoop, hns, hvers, hv, if_pos hno]
  · exact ⟨false, rfl⟩

/-! ## The hook -/

/-- The hook has nothing to do for a request. -/
structure HookIdle (ld : Loader) (env : Env) (argv : List Arg) (s : Store) : Prop where
  due : NoneDue s
  name : ∀ name, isSetname argv = some name → NameIdle ld name s.reg
  data : isSetname argv = none → DataIdle env argv s

theorem HookIdle.processCommand {ld : Loader} {argv : List Arg} (h : HookIdle ld env argv s)
    (id : Nat) :
    ∃ argv', processCommand ld env id argv s = .ok { argv := argv', s := s } ∧
      LoginKept argv argv' := by
  rw [KVolve.processCommand, prevcallCheck_noneDue h.due]
  unfold hookBody
  split
  · rename_i name hname
    have hidle := h.name name hname
    unfold NameIdle at hidle
    split
    · rename_i path hpath
      rw [hpath] at hidle
      rw [loadUpdate_idle hidle]
      exact ⟨argv, rfl, fun _ h => h⟩
    · rename_i hpath
      rw [hpath] at hidle
      obtain ⟨quit, hok⟩ := checkVersion_idle id hidle
      rw [hok]
      refine ⟨_, rfl, ?_⟩
      cases quit with
      | false => exact fun _ h => h
      | true =>
        intro cfg _ n pw heq
        -- a connect string has three words, a login has two
        unfold isSetname at hname
        split at hname
        · cases heq
        · cases hname
  · rename_i hname
    obtain ⟨argv', hok, hkept⟩ := (h.data hname).processData
    exact ⟨argv', by rw [hok]; rfl, hkept⟩

/-! ## Runs -/

theorem serve_idle (hpass : cfg.requirepass.isSome = true) {c : Client}
    (hc : c.authenticated = false) {rq : Request}
    (hidle : HookIdle rq.ld (rq.env cfg c.db) (args rq.argv) s) (hlogin : NotLogin cfg rq.argv) :
    ∃ out, serve cfg c rq s = .ok out ∧ out.s = s ∧ out.killed = ∅ ∧
      out.c.authenticated = false := by
  obtain ⟨argv', hok, hkept⟩ := hidle.processCommand c.id
  have hargv : (args rq.argv).map (·.ptr) = rq.argv := by simp [args, Function.comp_def]
  obtain ⟨hs, hauth⟩ := redisProcessCommand_unauth hpass rq hc argv' s
    (hkept cfg (hargv.symm ▸ hlogin))
  rw [args] at hok
  exact ⟨_, by rw [serve, hok]; rfl, hs, rfl, hauth⟩

/-- The same store and the same clients but for `u`, who is not logged in. -/
structure AlikeBut (u : Nat) (a b : System) : Prop where
  s : a.s = b.s
  others : ∀ i, i ≠ u → a.clients i = b.clients i
  out : (a.clients u).authenticated = false

/-- A request without password changes only its own client. -/
theorem AlikeBut.step_hidden (hpass : cfg.requirepass.isSome = true) {u : Nat} {a b : System}
    (hab : AlikeBut u a b) {rq : Request} (hlogin : NotLogin cfg rq.argv)
    (hidle : (a.clients u).closing = false →
      HookIdle rq.ld (rq.env cfg (a.clients u).db) (args rq.argv) a.s) :
    ∃ a', a.step cfg (u, rq) = .ok a' ∧ AlikeBut u a' b := by
  unfold System.step
  split
  · exact ⟨a, rfl, hab⟩
  · rename_i hopen
    obtain ⟨out, hok, hs, hkilled, hauth⟩ := serve_idle hpass hab.out
      (hidle (by simpa using hopen)) hlogin
    refine ⟨_, by rw [hok]; rfl, hs.trans hab.s, fun i hi => ?_, ?_⟩
    · simp only [clientsAfter, hkilled, Finset.notMem_empty, if_false, if_neg hi]
      exact hab.others i hi
    · simp only [clientsAfter, hkilled, Finset.notMem_empty, if_false, if_true]
      exact hauth

/-- The others do not see the client without password. -/
theorem AlikeBut.step_seen {u : Nat} {a b : System} (hab : AlikeBut u a b) {ev : Event}
    (hev : ev.1 ≠ u) :
    RelRes (AlikeBut u) (a.step cfg ev) (b.step cfg ev) := by
  unfold System.step
  rw [hab.s, hab.others _ hev]
  split
  · exact .ok hab
  · refine RelRes.bind_same rfl fun out _ => .ok ⟨rfl, fun i hi => ?_, ?_⟩
    · simp only [clientsAfter, hab.others i hi]
    · simp only [clientsAfter, if_neg (Ne.symm hev)]
      split
      · exact hab.out
      · exact hab.out

/-- **A client that never logs in, and for whose requests the hook has nothing to do, might as
well have sent nothing: store, registry and pending tags are those of the run without it.** -/
theorem unauth_inert {cfg : Cfg} (hpass : cfg.requirepass.isSome = true) {u : Nat} {y : System}
    (hu : (y.clients u).authenticated = false) {evs : List Event}
    (hlogin : ∀ ev ∈ evs, ev.1 = u → NotLogin cfg ev.2.argv)
    (hidle : Along (System.step cfg) (fun y ev => ev.1 = u → (y.clients u).closing = false →
      HookIdle ev.2.ld (ev.2.env cfg (y.clients u).db) (args ev.2.argv) y.s) y evs) :
    RelRes (fun a b => a.s = b.s ∧ ∀ i, i ≠ u → a.clients i = b.clients i)
      (y.run cfg evs) (y.run cfg (evs.filter fun ev => !(ev.1 == u))) := by
  have hstart : AlikeBut u y y := ⟨rfl, fun _ _ => rfl, hu⟩
  have hrel : RelRes (AlikeBut u) (y.run cfg evs)
      (y.run cfg (evs.filter fun ev => !(ev.1 == u))) := by
    refine RelRes.strike (fun a b ev hab hC hid => ?_) (fun a b ev hab _ hseen => ?_) hstart
      (hidle.and_event hlogin)
    · obtain ⟨i, rq⟩ := ev
      have hiu : i = u := by simpa using hid
      subst hiu
      exact hab.step_hidden hpass (hC.2 rfl) (hC.1 rfl)
    · exact hab.step_seen (by simpa using hseen)
  exact hrel.mono fun a b hab => ⟨hab.s, hab.others⟩

/-! ## A password that does not protect -/

def lockedCfg : Cfg := { requirepass := some (lit "secret") }

def oneLoggedIn (s : Store) : System := ⟨s, fun i => { id := i, authenticated := i == 1 }⟩

def request (argv : List Bytes) : Request := { argv := argv, now := 0 }

theorem unauth_inert_get :
    RelRes (fun a b => a.s = b.s ∧ ∀ i, i ≠ 7 → a.clients i = b.clients i)
      ((oneLoggedIn (leftBehind regAB)).run lockedCfg
        [(7, request [lit "get", lit "b:t"]), (1, request [lit "get", lit "b:s"])])
      ((oneLoggedIn (leftBehind regAB)).run lockedCfg [(1, request [lit "get", lit "b:s"])]) := by
  have hidle : HookIdle (request []).ld ((request []).env lockedCfg 0)
      (args [lit "get", lit "b:t"]) (leftBehind regAB) := by
    refine ⟨fun k t ht => ?_, fun name hname => ?_, fun _ name k rest heq => ?_⟩
    · cases ht
    · cases hname
    · cases heq
      refine ⟨fun hk => ?_, fun v h hv hh => ?_⟩
      · cases hk
      · cases hh
        have hrec : v = (regAB.find (lit "b")).get (by decide) :=
          Option.some.inj (hv.symm.trans rfl)
        subst hrec
        refine ⟨trivial, fun hc => ?_, fun j hj => .inl ?_⟩
        · cases hc
        · cases List.mem_singleton.mp hj
          rfl
  refine unauth_inert (u := 7) rfl rfl ?_ ⟨fun _ _ => hidle, fun _ _ => ⟨?_, fun _ _ => trivial⟩⟩
  · intro ev hev hu name pw hargv hauth
    rcases List.mem_cons.mp hev with rfl | hev
    · cases hargv
      cases hauth
    · cases List.mem_singleton.mp hev
      cases hu
  · intro hu
    cases hu

/-- The password is asked for after the alias of the key was deleted. -/
theorem unauth_deletes :
    ((oneLoggedIn (leftBehind regAB)).run lockedCfg
        [(7, request [lit "set", lit "b:s", lit "x"])]).map
        (fun y => ((y.clients 7).authenticated, y.s.get 0 (lit "a:s"), y.s.get 0 (lit "b:s"))) =
      .ok (false, none, none) ∧
    ((oneLoggedIn (leftBehind regAB)).run lockedCfg []).map (fun y => y.s.get 0 (lit "a:s")) =
      .ok (some hello) := by
  exact ⟨by rfl, by rfl⟩

end SchemaUpdate.KVolve
