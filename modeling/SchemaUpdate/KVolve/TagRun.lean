import SchemaUpdate.KVolve.Tags
import SchemaUpdate.KVolve.Unauth

/-! # Every write leaves the current version

The version-tag property of one request, the condition under which the request has
it, and the runs in which every request meets the condition. -/

namespace SchemaUpdate.KVolve

open SchemaUpdate.Lib SchemaUpdate.Redis

/-- Of an object with version `vers`, no function that the record `w` holds is still to be
applied, whatever is loaded later. -/
def OlderDone (w : VersionHash) (vers : Int) : Prop :=
  ∀ w' : VersionHash, w.hist <+: w'.hist → ∃ l,
    w'.pending vers = l ++ w'.hist.drop w.hist.length ∧ ∀ p ∈ l, infoFuns p.2 = []

/-- The current version number was not used before with functions behind it. -/
def Unrepeated (w : VersionHash) : Prop := ∀ p ∈ w.pending w.cur, infoFuns p.2 = []

theorem Unrepeated.olderDone {w : VersionHash} (h : Unrepeated w) : OlderDone w w.cur := by
  intro w' hpre
  obtain ⟨more, hmore⟩ := hpre
  refine ⟨w.pending w.cur, ?_, h⟩
  rw [w'.pending_eq, w.pending_eq, ← hmore, after_append w.cur_mem, List.drop_left]

/-- **The version-tag property of a request**: a key at which a write outside `MULTI` stored a
value holds, when the next pending tags have been set, a shared integer or an object with the
version that was current for the key, which no function loaded before will be applied to. -/
def WritesTagged (cfg : Cfg) (c : Client) (rq : Request) (s : Store) : Prop :=
  ∀ (h : HName) name rest, c.multi = false → rq.argv = name :: rest → h.Named name →
  h.stores = true →
  ∀ hook steps combine,
    processCommand rq.ld (rq.env cfg c.db) c.id (args rq.argv) s = .ok hook →
    redisProcessCommand cfg rq c hook.argv hook.s = call cfg rq c hook.s h.cmd hook.argv.tail →
    plan cfg rq.now rq.rand h.cmd hook.argv.tail = some (.run steps combine) →
    ∀ j ∈ storedKeys rq.now steps (hook.s.dbs c.db), ∀ w, versionHashLookup s.reg j = some w →
      ∃ e, (prevcallCheck (call cfg rq c hook.s h.cmd hook.argv.tail).2.2).get c.db j = some e ∧
        (e.obj.val.isShared = true ∨ (e.obj.vers = w.cur ∧ OlderDone w e.obj.vers))

/-- What the write stores fits, in the state in which the request arrives: KVolve knows the command
when a key of a registered namespace is among its keys, and so on. -/
def WriteFits (cfg : Cfg) (c : Client) (rq : Request) (s : Store) : Prop :=
  ∀ (h : HName) name k rest, c.multi = false → rq.argv = name :: k :: rest → h.Named name →
    h.stores = true →
    (∀ j ∈ h.keysOf (args (k :: rest)), ∀ w, versionHashLookup s.reg j = some w →
      Spelled h name) ∧
    (∀ j ∈ h.keysOf (args (k :: rest)), ∀ w, versionHashLookup s.reg j = some w → Unrepeated w) ∧
    match versionHashLookup s.reg k with
    | none => h = .mset → PairsFit cfg c.db 0 (prevcallCheck s) (k :: rest)
    | some v =>
      if h = .mset then PairsFit cfg c.db v.cur (prevcallCheck s) (k :: rest)
      else Fits h (rq.env cfg c.db) v k rest (prevcallCheck s)

/-! ## One request -/

variable {now : Int} {steps : List Step} {h : HName} {cfg : Cfg} {rand : Nat} {l : List Arg}
    {combine : List Reply → Reply} {s : Store}

theorem storedKeys_sub {db : Db} {j : Bytes} (hj : j ∈ storedKeys now steps db) :
    j ∈ steps.map (·.key) := by
  induction steps generalizing db with
  | nil => cases hj
  | cons st l ih =>
    simp only [storedKeys] at hj
    split at hj
    · rcases List.mem_cons.mp hj with rfl | hj
      · simp
      · exact List.mem_cons_of_mem _ (ih hj)
    · exact List.mem_cons_of_mem _ (ih hj)

theorem msetSteps_keys (cfg : Cfg) (l : List Arg) :
    (msetSteps cfg l).map (·.key) = evenArgs l := by
  induction l using evenArgs.induct with
  | case1 k b rest ih =>
    rw [msetSteps, List.map_cons, ih]
    rfl
  | case2 l hne =>
    obtain rfl | ⟨k, rfl⟩ := short_of_not_pair hne <;> rfl

theorem evenArgs_tagPairs (vers : Int) (l : List Arg) :
    evenArgs (tagPairs vers l) = evenArgs l := by
  induction l using evenArgs.induct with
  | case1 k b rest ih =>
    rw [tagPairs, evenArgs, evenArgs, ih]
  | case2 l hne =>
    obtain rfl | ⟨k, rfl⟩ := short_of_not_pair hne <;> rfl

theorem least_of_plan (hst : h.stores = true) {p : Plan}
    (hplan : plan cfg now rand h.cmd l = some p) :
    h.least ≤ l.length + 1 := by
  cases h with
  | set | mset | sadd | lpush | rpush =>
    match l, hplan with | _ :: _ :: _, _ => simp [HName.least, kvolveCommandTable]
  | setnx | getset | incrby =>
    match l, hplan with | [_, _], _ => simp [HName.least, kvolveCommandTable]
  | incr => match l, hplan with | [_], _ => simp [HName.least, kvolveCommandTable]
  | zadd | hmset =>
    match l, hplan with | _ :: _ :: _ :: _, _ => simp [HName.least, kvolveCommandTable]
  | hset => match l, hplan with | [_, _, _], _ => simp [HName.least, kvolveCommandTable]
  | _ => cases hst

/-- A command that KVolve does not know goes through as it is. -/
theorem processCommand_unknown (name : Arg) (hn : h.Named name.ptr) (hk : h ≠ .keys) (ld : Loader)
    (env : Env) (id : Nat) (s : Store) (hkv : lookupKvCommand name.ptr (name :: l).length = none) :
    processCommand ld env id (name :: l) s = .ok { argv := name :: l, s := prevcallCheck s } := by
  have hdisp : dispatch checkUpdateKvPair env (name :: l) (prevcallCheck s) =
      .ok (name :: l, prevcallCheck s) := by
    cases l with
    | nil => rfl
    | cons k rest =>
      simp only [dispatch, hkv]
      cases versionHashLookup (prevcallCheck s).reg k.ptr <;> rfl
  have hdata : processData checkUpdateKvPair env (name :: l) (prevcallCheck s) =
      .ok (name :: l, prevcallCheck s) := by
    unfold processData
    split
    · rename_i heq
      cases heq
      rw [hn.not_keys hk]
      exact hdisp
    · exact hdisp
  simp only [processCommand, hookBody, hn.isSetname, hdata, ok_bind]

theorem plan_one_key (hst : h.stores = true) (hm : h ≠ .mset) {k : Arg} {rest : List Arg}
    (hplan : plan cfg now rand h.cmd (k :: rest) = some (.run steps combine)) :
    steps.map (·.key) = [k.ptr] := by
  have hcreates : h.creates = true → steps.map (·.key) = [k.ptr] := by
    intro hc
    obtain ⟨p, rfl, -⟩ := plan_creates hc hplan
    rfl
  cases h with
  | set =>
    match rest, hplan with
    | b :: opts, hplan =>
      obtain ⟨o, when, -, rfl⟩ := setCommand_run (Option.some.inj hplan)
      rfl
  | setnx | getset =>
    match rest, hplan with
    | [b], hplan =>
      cases hplan
      rfl
  | incr =>
    match rest, hplan with
    | [], hplan =>
      cases hplan
      rfl
  | incrby =>
    match rest, hplan with
    | [n], hplan =>
      have hplan := Option.some.inj hplan
      unfold incrbyCommand withLongLong at hplan
      split at hplan
      · cases hplan
        rfl
      · cases hplan
  | mset => exact absurd rfl hm
  | sadd | zadd | lpush | rpush | hset | hmset => exact hcreates rfl
  | _ => cases hst

theorem keysOf_one (hst : h.stores = true) (hm : h ≠ .mset) (k : Arg) (rest : List Arg) :
    h.keysOf (k :: rest) = [k.ptr] := by
  cases h with
  | mset => exact absurd rfl hm
  | mget | del => cases hst
  | _ => rfl

theorem plan_mset_keys (hplan : plan cfg now rand .mset l = some (.run steps combine)) :
    steps.map (·.key) = evenArgs l := by
  match l, hplan with
  | k :: b :: rest, hplan =>
    have hplan := Option.some.inj hplan
    unfold msetCommand at hplan
    split at hplan
    · cases hplan
    · cases hplan
      exact msetSteps_keys cfg _

theorem Fits.tags (hst : h.stores = true) (hm : h ≠ .mset) {env : Env} {v : VersionHash} {k : Bytes}
    {rest : List Bytes} {s' : Store} {a : List Arg} (hfit : Fits h env v k rest s)
    (hok : h.run checkUpdateKvPair env v (args (k :: rest)) s = .ok (a, s'))
    (hplan : plan env.cfg env.now env.rand h.cmd a = some (.run steps combine)) :
    TagsKey env k v.cur steps s' ∨ ∀ j ∈ storedKeys env.now steps (s'.dbs env.d), ∀ w,
      WillTag env.d j w (s'.setDb env.d (execSteps env.now steps (s'.dbs env.d)).2) := by
  cases h with
  | set => exact .inl (set_fits hok hfit hplan)
  | setnx => exact .inl (setnx_fits hok hfit hplan)
  | getset => exact getset_fits hok hfit hplan
  | incr => exact .inl (incr_fits (.inl rfl) hok hfit hplan)
  | incrby => exact .inl (incr_fits (.inr rfl) hok hfit hplan)
  | mset => exact absurd rfl hm
  | sadd | zadd | lpush | rpush | hset | hmset => exact .inl (creates_fits rfl hok (hfit rfl) hplan)
  | _ => cases hst

theorem WillTag.done {d : Nat} {j : Bytes} {w : VersionHash} (h : WillTag d j w.cur s)
    (hun : Unrepeated w) :
    ∃ e, (prevcallCheck s).get d j = some e ∧
      (e.obj.val.isShared = true ∨ (e.obj.vers = w.cur ∧ OlderDone w e.obj.vers)) := by
  obtain ⟨e, he, htag⟩ := h.prevcall
  refine ⟨e, he, htag.imp_right fun hv => ⟨hv, ?_⟩⟩
  rw [hv]
  exact hun.olderDone

theorem HName.least_two (h : HName) : 2 ≤ h.least := by
  cases h <;> decide

/-- The keys a write stores at are among those of its arguments. -/
theorem storedKeys_keysOf (hst : h.stores = true) {db : Db} {j : Bytes}
    (hplan : plan cfg now rand h.cmd l = some (.run steps combine))
    (hj : j ∈ storedKeys now steps db) : j ∈ h.keysOf l := by
  have hmem := storedKeys_sub hj
  by_cases hm : h = .mset
  · subst hm
    rwa [plan_mset_keys hplan] at hmem
  · obtain ⟨k, rest, rfl⟩ : ∃ k rest, l = k :: rest := by
      refine List.exists_cons_of_length_pos ?_
      have := least_of_plan hst hplan
      have := h.least_two
      omega
    rwa [plan_one_key hst hm hplan, ← keysOf_one hst hm k rest] at hmem

/-- **A write that fits is tagged.** -/
theorem WriteFits.tagged {c : Client} {rq : Request} (hfits : WriteFits cfg c rq s) :
    WritesTagged cfg c rq s := by
  intro h name l hmulti hargv hn hst hook steps combine hhook hcall hplan j hj w hw
  have hkeys : h ≠ .keys := by rintro rfl; cases hst
  rw [hargv] at hhook
  have hdone : (call cfg rq c hook.s h.cmd hook.argv.tail).2.2 =
      hook.s.setDb c.db (execSteps rq.now steps (hook.s.dbs c.db)).2 := by
    simp only [call, hplan]
    rfl
  rw [hdone]
  cases hkv : lookupKvCommand name (l.length + 1) with
  | none =>
    -- KVolve does not know the spelling, so no key of a registered namespace is written
    have heq := processCommand_unknown ⟨name, 0⟩ (l := args l) hn hkeys rq.ld
      (rq.env cfg c.db) c.id s (by simpa [args] using hkv)
    rw [show args (name :: l) = ⟨name, 0⟩ :: args l from rfl, heq] at hhook
    cases hhook
    have hleast := least_of_plan hst hplan
    simp only [List.tail_cons, args, List.length_map] at hleast
    obtain ⟨k, rest, rfl⟩ := List.exists_cons_of_length_pos (l := l) (by have := h.least_two; omega)
    have hs := (hfits h name k rest hmulti hargv hn hst).1 j (storedKeys_keysOf hst hplan hj) w hw
    rw [hs.kvolve, if_neg (by omega)] at hkv
    cases hkv
  | some h' =>
    have hs' := spelled_of_lookups hkv hn
    obtain rfl : h' = h := HName.cmd_injective (by
      have hrow := hs'.redis.symm.trans hn
      simp only [Option.some.injEq, Prod.mk.injEq] at hrow
      exact hrow.2.1)
    have hname : Spelled h' (Arg.mk name 0).ptr := hs'
    have hargc : h'.least ≤ l.length + 1 := by
      rw [hs'.kvolve] at hkv
      by_contra hlt
      rw [if_pos (by omega)] at hkv
      cases hkv
    obtain ⟨k, rest, rfl⟩ := List.exists_cons_of_length_pos (l := l) (by have := h'.least_two; omega)
    obtain ⟨-, hun, hfit⟩ := hfits h' name k rest hmulti hargv hn hst
    have heq := processCommand_spelled hname hkeys rq.ld (rq.env cfg c.db) c.id
      ⟨k, 0⟩ (args rest) s (by simpa [args] using hargc)
    rw [show args (name :: k :: rest) = ⟨name, 0⟩ :: ⟨k, 0⟩ :: args rest from rfl, heq] at hhook
    obtain ⟨⟨a, s'⟩, hhandle, hhook⟩ := bind_eq_ok.mp hhook
    cases hhook
    simp only [List.tail_cons] at hplan hj ⊢
    unfold handle at hhandle
    have hreg := prevcallCheck_reg s
    rw [hreg] at hhandle
    have hplan' : plan (rq.env cfg c.db).cfg (rq.env cfg c.db).now (rq.env cfg c.db).rand h'.cmd a =
      some (.run steps combine) := hplan
    -- the values of `MSET` are tagged alike, with the version of the first key's namespace or not
    have hmset : h' = .mset → ∀ vers, a = tagPairs vers (args (k :: rest)) →
        s'.tmp = (prevcallCheck s).tmp →
        PairsFit cfg c.db vers (prevcallCheck s) (k :: rest) → _ := fun hm vers ha htmp hpairs => by
      subst hm
      subst ha
      have hwill := mset_fits htmp hpairs hplan' hj (hreg.symm ▸ hw)
      refine hwill.done (hun j ?_ w hw)
      have hmem := storedKeys_sub hj
      rw [plan_mset_keys hplan, evenArgs_tagPairs] at hmem
      exact hmem
    cases hv : versionHashLookup s.reg k with
    | none =>
      rw [hv] at hhandle hfit
      cases hhandle
      by_cases hm : h' = .mset
      · exact hmset hm 0 (tagPairs_zero (k :: rest)).symm rfl (hfit hm)
      · have hmem := storedKeys_sub hj
        rw [plan_one_key hst hm hplan, List.mem_singleton] at hmem
        rw [hmem, hv] at hw
        cases hw
    | some v =>
      rw [hv] at hhandle hfit
      simp only at hhandle hfit
      by_cases hm : h' = .mset
      · rw [if_pos hm] at hfit
        exact hmset hm v.cur (by subst hm; exact set_args (.inr rfl) hhandle)
          (set_tmp (.inr hm) hhandle) hfit
      · rw [if_neg hm] at hfit
        rcases hfit.tags hst hm hhandle hplan' with htags | hall
        · obtain ⟨rfl, hwill⟩ := htags j hj
          obtain rfl : v = w := Option.some.inj (hv.symm.trans hw)
          have hmem : j ∈ h'.keysOf (args (j :: rest)) := by
            rw [show args (j :: rest) = ⟨j, 0⟩ :: args rest from rfl, keysOf_one hst hm]
            exact List.mem_singleton_self j
          exact hwill.done (hun j hmem v hw)
        · -- a shared integer: the tag is no matter
          obtain ⟨e, he, htag⟩ := (hall j hj (w.cur + 1)).prevcall
          obtain ⟨e', he', htag'⟩ := (hall j hj w.cur).prevcall
          obtain rfl : e' = e := Option.some.inj (he'.symm.trans he)
          refine ⟨e', he, .inl ?_⟩
          rcases htag with hsh | h₁
          · exact hsh
          · rcases htag' with hsh | h₂
            · exact hsh
            · omega

/-- **In a run whose writes fit, every write leaves the current version.** -/
theorem writes_tagged {cfg : Cfg} {y : System} {evs : List Event}
    (h : Along (System.step cfg) (fun y ev => WriteFits cfg (y.clients ev.1) ev.2 y.s) y evs) :
    Along (System.step cfg) (fun y ev => WritesTagged cfg (y.clients ev.1) ev.2 y.s) y evs :=
  Along.imp (I := fun _ => True) (fun _ _ _ hfits => ⟨hfits.tagged, fun _ _ => trivial⟩) trivial h

/-! ## A namespace at version 1 -/

def atVersionOne : Store := { Store.init with reg := registered "a" 1 }

def plainClient : Client := { id := 1 }

theorem writes_tagged_sadd :
    Along (System.step {}) (fun y ev => WritesTagged {} (y.clients ev.1) ev.2 y.s)
      ⟨atVersionOne, fun _ => plainClient⟩ [(1, request [lit "sadd", lit "a:s", lit "x"])] := by
  refine writes_tagged ⟨?_, fun _ _ => trivial⟩
  intro h name k rest _ hargv hn _
  cases hargv
  have hsp : Spelled .sadd (lit "sadd") := by decide
  obtain rfl : h = .sadd := HName.cmd_injective (by
    have hrow := hn.symm.trans hsp.redis
    simp only [Option.some.injEq, Prod.mk.injEq] at hrow
    exact hrow.2.1)
  refine ⟨fun _ _ _ _ => hsp, fun j hj w hw => ?_, fun _ => .inl ⟨rfl, by decide⟩⟩
  cases List.mem_singleton.mp hj
  have hrec : w = ((registered "a" 1).find (lit "a")).get (by decide) :=
    Option.some.inj (hw.symm.trans rfl)
  subst hrec
  intro p hp
  cases hp

/-- `SETNX` stores its argument untagged. -/
theorem setnx_untagged :
    ¬ WritesTagged {} plainClient (request [lit "setnx", lit "a:s", lit "hello"]) atVersionOne := by
  intro htags
  have hn : HName.setnx.Named (lit "setnx") := Spelled.named (by decide)
  obtain ⟨e, he, htag⟩ := htags .setnx _ _ rfl rfl hn rfl _ _ _ rfl rfl rfl (lit "a:s")
    (by decide) _ rfl
  have hval : (⟨⟨0, .str (.raw (lit "hello"))⟩, none⟩ : Entry) = e :=
    Option.some.inj (Eq.trans (by rfl) he)
  subst hval
  rcases htag with hsh | ⟨hv, -⟩
  · cases hsh
  · exact absurd hv (by decide)

end SchemaUpdate.KVolve
