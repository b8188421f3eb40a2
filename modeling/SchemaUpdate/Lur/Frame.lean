import SchemaUpdate.Lur.Alone

/-! # Which keys a call uses

A call on a key issues commands on the physical names of that key and on no others;
everything else in the store stays as it is. -/

namespace SchemaUpdate.Lur

open SchemaUpdate.Lib

/-! ## Commands -/

/-- The data keys a queued command reads or writes. -/
def Write.dataKeys : Write → List Bytes
  | .set k _ | .psetex k _ _ | .del k => [k]
  | .rename src dst => [src, dst]
  | .lpush _ _ | .rpush _ _ | .delVersions _ | .hset _ _ => []

def Write.onData : Write → Bool
  | .set _ _ | .psetex _ _ _ | .del _ | .rename _ _ => true
  | .lpush _ _ | .rpush _ _ | .delVersions _ | .hset _ _ => false

/-- The data keys a command reads or writes; watching a key is neither. -/
def Cmd.dataKeys : Cmd → List Bytes
  | .get k | .setnx k _ | .set k _ _ | .getset k _ | .pttl k | .ttl k => [k]
  | .mget ks | .del ks => ks
  | .exec _ l => l.flatMap Write.dataKeys
  | .keys _ | .existsVersions _ | .lrange _ | .hget _ | .hgetall | .watch _ | .tick _ => []

def Cmd.onData : Cmd → Bool
  | .get _ | .setnx _ _ | .set _ _ _ | .getset _ _ | .pttl _ | .ttl _ | .mget _ | .del _
  | .watch _ => true
  | .exec _ l => l.all Write.onData
  | .keys _ | .existsVersions _ | .lrange _ | .hget _ | .hgetall | .tick _ => false

/-- The command works on some of the names. -/
structure Cmd.Within (names : List Bytes) (cmd : Cmd) : Prop where
  onData : cmd.onData = true
  keys : ∀ p ∈ cmd.dataKeys, p ∈ names

/-- The two stores agree but for the data under the names. -/
structure Outside (names : List Bytes) (r s : Redis) : Prop where
  lookup : ∀ p, p ∉ names → s.data.lookup p = r.data.lookup p
  versions : s.versions = r.versions
  dsl : s.dsl = r.dsl
  now : s.now = r.now

theorem Outside.refl (names : List Bytes) (r : Redis) : Outside names r r :=
  ⟨fun _ _ => rfl, rfl, rfl, rfl⟩

variable {names : List Bytes}

theorem Outside.find {r s : Redis} (h : Outside names r s) {p : Bytes} (hp : p ∉ names) :
    s.find p = r.find p := by
  rw [Redis.find, Redis.find, h.lookup p hp, h.now]

theorem Outside.trans {r s t : Redis} (h : Outside names r s) (h' : Outside names s t) :
    Outside names r t :=
  ⟨fun p hp => (h'.lookup p hp).trans (h.lookup p hp), h'.versions.trans h.versions,
    h'.dsl.trans h.dsl, h'.now.trans h.now⟩

theorem Outside.put (r : Redis) {k : Bytes} (hk : k ∈ names) (x : Option Item) :
    Outside names r (r.put k x) := by
  refine ⟨fun p hp => ?_, rfl, rfl, rfl⟩
  have hne : p ≠ k := fun h => hp (h ▸ hk)
  rw [Redis.lookup_put_data, if_neg hne]

theorem Outside.del (r : Redis) {k : Bytes} (hk : k ∈ names) : Outside names r (r.del k) := by
  unfold Redis.del
  split
  · exact Outside.put r hk none
  · exact Outside.refl names r

theorem Outside.delAll (r : Redis) {ks : List Bytes} (hks : ∀ k ∈ ks, k ∈ names) :
    Outside names r (ks.foldl Redis.del r) := by
  induction ks generalizing r with
  | nil => exact Outside.refl names r
  | cons k ks ih =>
    exact (Outside.del r (hks k (by simp))).trans (ih _ fun k' hk' => hks k' (by simp [hk']))

theorem Write.outside {w : Write} (hdata : w.onData = true) (hkeys : ∀ p ∈ w.dataKeys, p ∈ names)
    (r : Redis) : Outside names r (w.apply r).2 := by
  cases w with
  | set k v => exact Outside.put r (hkeys k (by simp [dataKeys])) _
  | psetex k ms v =>
    simp only [Write.apply]
    split
    · exact Outside.refl names r
    · exact Outside.put r (hkeys k (by simp [dataKeys])) _
  | del k => exact Outside.del r (hkeys k (by simp [dataKeys]))
  | rename src dst =>
    simp only [Write.apply]
    split
    · exact Outside.refl names r
    · split
      · exact Outside.refl names r
      · exact (Outside.put r (hkeys src (by simp [dataKeys])) _).trans
          (Outside.put _ (hkeys dst (by simp [dataKeys])) _)
  | lpush | rpush | delVersions | hset => cases hdata

theorem applyAll_outside {l : List Write} (hdata : ∀ w ∈ l, w.onData = true)
    (hkeys : ∀ w ∈ l, ∀ p ∈ w.dataKeys, p ∈ names) (r : Redis) :
    Outside names r (applyAll l r).2 := by
  induction l generalizing r with
  | nil => exact Outside.refl names r
  | cons w ws ih =>
    refine (Write.outside (hdata w (by simp)) (hkeys w (by simp)) r).trans ?_
    exact ih (fun w' hw' => hdata w' (by simp [hw'])) (fun w' hw' => hkeys w' (by simp [hw'])) _

theorem Cmd.Within.outside {cmd : Cmd} (h : cmd.Within names) (r : Redis) :
    Outside names r (serve cmd r).2 := by
  have hkeys := h.keys
  have hdata := h.onData
  cases cmd with
  | get | mget | pttl | ttl | watch => exact Outside.refl names r
  | setnx k v =>
    simp only [serve]
    split
    · exact Outside.refl names r
    · exact Outside.put r (hkeys k (by simp [dataKeys])) _
  | set k v o =>
    simp only [serve, serveSet]
    split
    · exact Outside.refl names r
    · split
      · exact Outside.refl names r
      · exact Outside.put r (hkeys k (by simp [dataKeys])) _
  | getset k v => exact Outside.put r (hkeys k (by simp [dataKeys])) _
  | del ks => exact Outside.delAll r hkeys
  | exec w l =>
    simp only [serve]
    split
    · simp only [Cmd.onData, List.all_eq_true] at hdata
      refine applyAll_outside hdata ?_ r
      intro x hx p hp
      exact hkeys p (by simp only [dataKeys, List.mem_flatMap]; exact ⟨x, hx, hp⟩)
    · exact Outside.refl names r
  | keys | existsVersions | lrange | hget | hgetall | tick => cases hdata

/-! ## Calls -/

inductive KeyCall
  | get
  | set (value : Bytes) (o : SetOpts)
  | delete
  | ttl
  | pttl

section

variable {J : Type}

/-- The program of a call; what it returns does not matter here. -/
def KeyCall.prog (py : Py J) (c : Client J) (name : Bytes) (depth : Nat) :
    KeyCall → Prog Cmd.Reply Unit
  | .get => (Lur.get py c name depth).bind fun _ => .ret ()
  | .set value o => (Lur.set c name value o).bind fun _ => .ret ()
  | .delete => (Lur.delete c [name]).bind fun _ => .ret ()
  | .ttl => (Lur.ttl c name).bind fun _ => .ret ()
  | .pttl => (Lur.pttl c name).bind fun _ => .ret ()

def copies (name : Bytes) (vl : List (Ver × Ns)) : List Bytes :=
  (vl.head?.map fun e => versioned e.1 name).toList ++ potentialKeys name vl

theorem nameAt_mem_copies (name : Bytes) {vl : List (Ver × Ns)} {e : Ver × Ns} (he : e ∈ vl) :
    nameAt name e ∈ copies name vl :=
  List.mem_append_right _ (List.mem_map_of_mem he)

variable {py : Py J} {c : Client J} {name : Bytes} {cur : Ver × Ns} {vl : List (Ver × Ns)}

theorem current_mem_copies : versioned cur.1 name ∈ copies name (cur :: vl) := by
  simp [copies]

theorem mem_copies_cons {p : Bytes} : p ∈ copies name (cur :: vl) ↔
    p = versioned cur.1 name ∨ p = nameAt name cur ∨ p ∈ potentialKeys name vl := by
  simp [copies, potentialKeys]

theorem potential_mem_copies {p : Bytes} (h : p ∈ potentialKeys name vl) : p ∈ copies name vl :=
  List.mem_append_right _ h

theorem Within.one {names : List Bytes} {cmd : Cmd} {k : Bytes} (hdata : cmd.onData = true)
    (hkeys : cmd.dataKeys = [k]) (hk : k ∈ names) : cmd.Within names := by
  refine ⟨hdata, fun p hp => ?_⟩
  rw [hkeys, List.mem_singleton] at hp
  rw [hp]
  exact hk

theorem within_getOnce (hc : Knows c name (cur :: vl)) {again : GetProg}
    (hagain : again.Only (Cmd.Within (copies name (cur :: vl)))) :
    (getOnce py c name again).Only (Cmd.Within (copies name (cur :: vl))) := by
  have hdone : ∀ val out, (getDone again val out).Only (Cmd.Within (copies name (cur :: vl))) := by
    intro val out
    obtain _ | _ | _ := out
    · exact hagain
    · trivial
    · trivial
  have hwrite : ∀ w e found val, e ∈ cur :: vl →
      (getWrite again w (nameAt name e) (versioned cur.1 name) found val).Only
        (Cmd.Within (copies name (cur :: vl))) := by
    intro w e found val he
    have horig := nameAt_mem_copies name he
    unfold getWrite
    split
    · refine ⟨Within.one rfl rfl horig, fun n => ⟨⟨?_, fun p hp => ?_⟩, fun _ => hdone _ _⟩⟩
      · simp only [Cmd.onData, List.all_cons, List.all_nil]
        split <;> rfl
      · have hp : p = versioned cur.1 name ∨ p = nameAt name e := by
          simp only [Cmd.dataKeys, List.flatMap_cons, List.flatMap_nil] at hp
          split at hp <;> simpa [Write.dataKeys] using hp
        obtain rfl | rfl := hp
        · exact current_mem_copies
        · exact horig
    · refine ⟨⟨rfl, fun p hp => ?_⟩, fun _ => hdone _ _⟩
      have hp : p = nameAt name e ∨ p = versioned cur.1 name := by
        simpa [Cmd.dataKeys, Write.dataKeys] using hp
      obtain rfl | rfl := hp
      · exact horig
      · exact current_mem_copies
  have hmget : (Cmd.mget (potentialKeys name (cur :: vl))).Within (copies name (cur :: vl)) :=
    ⟨rfl, fun p hp => potential_mem_copies hp⟩
  have hlook : ∀ w, (getLook py c name (cur :: vl) again w).Only
      (Cmd.Within (copies name (cur :: vl))) := by
    refine fun w => .call hmget fun vals => ?_
    split
    · trivial
    · trivial
    · split
      · rename_i hcur he
        split
        · trivial
        · cases hcur
          exact hwrite _ _ _ _ (List.mem_of_getElem? he)
      · trivial
  have hwatch : ∀ ks w, (getWatch py c name (cur :: vl) again ks w).Only
      (Cmd.Within (copies name (cur :: vl))) := by
    intro ks
    induction ks with
    | nil => exact hlook
    | cons k ks ih => exact fun w => ⟨⟨rfl, fun p hp => by cases hp⟩, fun n => ih _⟩
  have hall : (getAll py c name (cur :: vl) again).Only
      (Cmd.Within (copies name (cur :: vl))) := by
    refine .call hmget fun vals => ?_
    split
    · exact ⟨Within.one rfl rfl (nameAt_mem_copies name (by simp)), fun _ => trivial⟩
    · exact hwatch _ _
  rw [getOnce, hc.versions, hc.currVersion]
  refine .call (Within.one rfl rfl current_mem_copies) fun val => ?_
  split
  · exact hall
  · split
    · trivial
    · split
      · trivial
      · exact hall

theorem within_get (hc : Knows c name (cur :: vl)) (depth : Nat) :
    (get py c name depth).Only (Cmd.Within (copies name (cur :: vl))) := by
  induction depth with
  | zero => trivial
  | succ depth ih => exact within_getOnce hc ih

theorem within_delOlder {α : Type} {a : α} :
    (delOlder name (cur :: vl) a).Only (Cmd.Within (copies name (cur :: vl))) := by
  unfold delOlder
  split
  · trivial
  · refine ⟨⟨rfl, fun p hp => potential_mem_copies ?_⟩, fun _ => trivial⟩
    obtain ⟨e, he, rfl⟩ := List.mem_map.mp hp
    exact List.mem_map_of_mem (List.mem_cons_of_mem _ he)

theorem within_set (hc : Knows c name (cur :: vl)) (value : Bytes) (o : SetOpts) :
    (set c name value o).Only (Cmd.Within (copies name (cur :: vl))) := by
  rw [set, hc.versions, hc.currVersion]
  simp only
  split
  · exact ⟨Within.one rfl rfl current_mem_copies, fun _ => within_delOlder⟩
  · refine .call (Within.one rfl rfl current_mem_copies) fun x => ?_
    split
    · trivial
    · exact within_delOlder

theorem deleteNames_one (hc : Knows c name (cur :: vl)) :
    deleteNames c [name] = .ok (potentialKeys name (cur :: vl)) := by
  simp only [deleteNames, hc.versions]
  exact congrArg Except.ok (List.append_nil _)

/-- **A call on a key works on the physical names of that key.** -/
theorem KeyCall.within (py : Py J) (hc : Knows c name (cur :: vl)) (depth : Nat) (call : KeyCall) :
    (call.prog py c name depth).Only (Cmd.Within (copies name (cur :: vl))) := by
  cases call with
  | get => exact (within_get hc depth).bind fun _ => trivial
  | set value o => exact (within_set hc value o).bind fun _ => trivial
  | delete =>
    refine Prog.Only.bind ?_ fun _ => trivial
    rw [Lur.delete, deleteNames_one hc]
    exact ⟨⟨rfl, fun p hp => potential_mem_copies hp⟩, fun _ => trivial⟩
  | ttl =>
    refine Prog.Only.bind ?_ fun _ => trivial
    rw [Lur.ttl, hc.currVersion]
    exact ⟨Within.one rfl rfl current_mem_copies, fun _ => trivial⟩
  | pttl =>
    refine Prog.Only.bind ?_ fun _ => trivial
    rw [Lur.pttl, hc.currVersion]
    exact ⟨Within.one rfl rfl current_mem_copies, fun _ => trivial⟩

theorem currVersion_unknown (hc : ∀ cur vl, ¬ Knows c name (cur :: vl)) :
    ∃ e, c.currVersion (splitNamespaceKey name).1 = .error e ∧
      (c.versions (splitNamespaceKey name).1 = .error e ∨
        c.versions (splitNamespaceKey name).1 = .ok []) := by
  match hv : c.versDict (splitNamespaceKey name).1 with
  | some (cur :: vl) => exact absurd hv (hc cur vl)
  | none =>
    have hver : c.versions (splitNamespaceKey name).1 = .error .keyError := by
      rw [Client.versions, hv]
    exact ⟨.keyError, by rw [Client.currVersion, hver]; rfl, .inl hver⟩
  | some [] =>
    have hver : c.versions (splitNamespaceKey name).1 = .ok [] := by
      rw [Client.versions, hv]
    exact ⟨.indexError, by rw [Client.currVersion, hver]; rfl, .inr hver⟩

theorem get_unknown (py : Py J) (hc : ∀ cur vl, ¬ Knows c name (cur :: vl)) (depth : Nat) :
    ∃ e, get py c name depth = .ret (.error e) := by
  obtain ⟨e, hcur, hver | hver⟩ := currVersion_unknown hc
  · cases depth with
    | zero => exact ⟨_, rfl⟩
    | succ depth => exact ⟨e, by rw [get, getOnce, hver]⟩
  · cases depth with
    | zero => exact ⟨_, rfl⟩
    | succ depth => exact ⟨e, by rw [get, getOnce, hver, hcur]⟩

variable (hc : ∀ cur vl, ¬ Knows c name (cur :: vl))

include hc

theorem set_unknown (value : Bytes) (o : SetOpts) : ∃ e, set c name value o = .ret (.error e) := by
  obtain ⟨e, hcur, hver | hver⟩ := currVersion_unknown hc
  · exact ⟨e, by rw [set, hver]⟩
  · exact ⟨e, by rw [set, hver, hcur]⟩

/-- A call on a key of a namespace that the client does not know sends nothing. -/
theorem KeyCall.unknown (depth : Nat) (call : KeyCall) :
    call.prog py c name depth = .ret () := by
  obtain ⟨e, hcur, hver⟩ := currVersion_unknown hc
  cases call with
  | get =>
    obtain ⟨e', he'⟩ := get_unknown py hc depth
    rw [KeyCall.prog, he']
    rfl
  | set value o =>
    obtain ⟨e', he'⟩ := set_unknown hc value o
    rw [KeyCall.prog, he']
    rfl
  | delete =>
    obtain hver | hver := hver
    · rw [KeyCall.prog, Lur.delete, deleteNames, hver]
      rfl
    · rw [KeyCall.prog, Lur.delete, deleteNames, hver]
      rfl
  | ttl =>
    rw [KeyCall.prog, Lur.ttl, hcur]
    rfl
  | pttl =>
    rw [KeyCall.prog, Lur.pttl, hcur]
    rfl

omit hc

/-- A program on some names leaves everything else alone. -/
theorem Outside.run {α : Type} {names : List Bytes} {p : Prog Cmd.Reply α}
    (h : p.Only (Cmd.Within names)) (r : Redis) : Outside names r (p.run serve r).2 :=
  Prog.run_keeps serve (fun _ s hcmd hs => hs.trans ((h.issues hcmd).outside s))
    (Outside.refl names r)

theorem KeyCall.run_versions (py : Py J) (c : Client J) (name : Bytes) (depth : Nat)
    (call : KeyCall) (r : Redis) :
    ((call.prog py c name depth).run serve r).2.versions = r.versions := by
  by_cases hknown : ∃ cur vl, Knows c name (cur :: vl)
  · obtain ⟨cur, vl, hc⟩ := hknown
    exact (Outside.run (call.within py hc depth) r).versions
  · simp only [not_exists] at hknown
    rw [call.unknown hknown]
    rfl

theorem set_books (c : Client J) (name value : Bytes) (o : SetOpts) (r : Redis) :
    ((set c name value o).run serve r).2.versions = r.versions ∧
      ((set c name value o).run serve r).2.dsl = r.dsl := by
  by_cases hknown : ∃ cur vl, Knows c name (cur :: vl)
  · obtain ⟨cur, vl, hc⟩ := hknown
    have hout := Outside.run (within_set hc value o) r
    exact ⟨hout.versions, hout.dsl⟩
  · simp only [not_exists] at hknown
    obtain ⟨e, he⟩ := set_unknown hknown value o
    rw [he]
    exact ⟨rfl, rfl⟩

theorem set_versions (c : Client J) (name value : Bytes) (o : SetOpts) (r : Redis) :
    ((set c name value o).run serve r).2.versions = r.versions := (set_books c name value o r).1

/-- **Calls of any number of clients, their commands in any order, touch nothing but the physical
names of their keys.** A call on a key of a namespace that its client does not know has none. -/
theorem calls_stay_within {ι : Type} [DecidableEq ι] (py : Py J) (clients : ι → Client J)
    (keys : ι → Bytes) (calls : ι → KeyCall) (depth : ι → Nat) (r : Redis) (sched : List ι)
    (names : List Bytes)
    (hn : ∀ i vl, Knows (clients i) (keys i) vl → ∀ p ∈ copies (keys i) vl, p ∈ names) :
    Outside names r (Pool.run serve
      ⟨r, fun i => (calls i).prog py (clients i) (keys i) (depth i)⟩ sched).server := by
  refine Pool.run_only serve (fun _ _ s hcmd hs => hs.trans (Cmd.Within.outside hcmd s))
    (fun i => ?_) (Outside.refl names r) sched
  by_cases hknown : ∃ cur vl, Knows (clients i) (keys i) (cur :: vl)
  · obtain ⟨cur, vl, hc⟩ := hknown
    exact ((calls i).within py hc (depth i)).imp fun cmd hcmd =>
      ⟨hcmd.onData, fun p hp => hn i _ hc p (hcmd.keys p hp)⟩
  · simp only [not_exists] at hknown
    show ((calls i).prog py (clients i) (keys i) (depth i)).Only _
    rw [(calls i).unknown hknown]
    trivial

/-- One client moves `n:k` to the current version while another one deletes it, and a third asks
for a key of a namespace it does not know. -/
theorem calls_stay_within_three :
    let r := ((Redis.init 0).put (lit "v0|n:k") (some ⟨lit "\"1\"", none⟩)).put (lit "v0|n:j")
      (some ⟨lit "\"2\"", none⟩)
    let q := Pool.run serve ⟨r, fun i : Fin 3 => KeyCall.prog demoPy (demoClient _)
      (if i = 2 then lit "m:k" else lit "n:k") 2 (if i = 1 then .delete else .get)⟩
      [0, 2, 0, 0, 1, 0]
    Outside (copies (lit "n:k") [demoV1, demoV0]) r q.server ∧ r.find (lit "v0|n:k") ≠ none ∧
      q.server.find (lit "v0|n:k") = none ∧
      q.server.find (lit "v0|n:j") = some ⟨lit "\"2\"", none⟩ := by
  intro r q
  have hout : Outside (copies (lit "n:k") [demoV1, demoV0]) r q.server := by
    refine calls_stay_within demoPy _ _ _ _ r _ _ fun i vl hvl => ?_
    by_cases hi : i = 2
    · rw [if_pos hi] at hvl
      cases hvl
    · rw [if_neg hi] at hvl ⊢
      cases hvl.symm.trans (demoClient_knows Bytes)
      exact fun _ => id
  refine ⟨hout, by decide, rfl, ?_⟩
  rw [hout.find (by decide)]
  rfl

end

end SchemaUpdate.Lur
