import Mathlib.Data.Finset.Card
import SchemaUpdate.Lib.Result
import SchemaUpdate.Redis.Command

/-! # The registry of namespaces

`version_hash` and the functions of `kvolve_internal.c` that read and write
`vers_list`. A record keeps its two parallel arrays as one list of pairs, with
the proofs that it is not empty and that it fits into the `KV_INIT_SZ` slots that
are allocated for it; names are C strings. -/

namespace SchemaUpdate.KVolve

open SchemaUpdate.Lib SchemaUpdate.Redis

/-- How the server can be lost inside KVolve. -/
inductive Fault
  | segv | assertFail | panic | useAfterFree | overflow | diverge | unmodelled
  -- the container under update is gone
  | freed
  deriving DecidableEq

abbrev Res := Except Fault

/-! ## Update functions -/

/-- What an update function is handed besides the key. -/
inductive UpdArg
  -- a string value, a set member or a list element
  | str (b : Bytes)
  | zset (m : Bytes) (score : Double)
  -- the field and, when it is a text, its value
  | hash (f : Bytes) (v : Option Bytes)
  -- a pointer that is no text: an integer-encoded object or a container
  | wild

/-- What an update function did: the pointers it replaced, and the commands it issued
through `kvolve_upd_redis_call`. -/
structure UpdRes where
  key : Option Bytes := none
  val : Option Bytes := none
  score : Option Double := none
  fval : Option Bytes := none
  calls : List (List Bytes) := []

abbrev UpdFun := Bytes → UpdArg → UpdRes

structure UpdInfo where
  fromNs : Bytes
  toNs : Bytes
  fromVers : Int
  toVers : Int
  funs : List UpdFun

def infoFuns : Option UpdInfo → List UpdFun
  | none => []
  | some i => i.funs

/-! ## Records -/

def kvInitSz : Nat := 20

/-- The record of a namespace: `hist` pairs `versions[i]` with `info[i]`. -/
structure VersionHash where
  ns : Bytes
  prevNs : Option Bytes
  nextNs : Option Bytes
  hist : List (Int × Option UpdInfo)
  is : Finset Nat
  ne : hist ≠ []
  room : hist.length ≤ kvInitSz
  nsC : NulFree ns
  prevC : ∀ p, prevNs = some p → NulFree p

namespace VersionHash

def first (ns : Bytes) (v0 : Int) (is : Finset Nat) : VersionHash :=
  ⟨cstr ns, none, none, [(v0, none)], is, by simp, by simp [kvInitSz], cstr_nulFree ns, by simp⟩

variable (v : VersionHash)

def versions : List Int := v.hist.map (·.1)

/-- `versions[num_versions-1]`. -/
def cur : Int := (v.hist.getLast v.ne).1

theorem cur_mem : v.cur ∈ v.versions :=
  List.mem_map_of_mem (List.getLast_mem v.ne)

/-- The part of the history an object tagged `vers` still has to go through: what
stands after the first entry of that version, or all of it when there is none. -/
def pending (vers : Int) : List (Int × Option UpdInfo) :=
  match v.hist.dropWhile fun p => p.1 ≠ vers with
  | [] => v.hist
  | _ :: rest => rest

theorem pending_subset {vers : Int} {p : Int × Option UpdInfo} (hp : p ∈ v.pending vers) :
    p ∈ v.hist := by
  unfold pending at hp
  split at hp
  · exact hp
  · rename_i q rest hdrop
    have hmem : p ∈ v.hist.dropWhile fun p => p.1 ≠ vers := by
      rw [hdrop]
      exact List.mem_cons_of_mem q hp
    exact (List.dropWhile_sublist _).mem hmem

end VersionHash

/-- `vers_list`: every record stands under its own name. -/
structure Reg where
  tbl : Dict Bytes VersionHash
  keyed : ∀ k v, tbl.lookup k = some v → v.ns = k

namespace Reg

def empty : Reg := ⟨∅, by simp⟩

variable (r : Reg) (v : VersionHash)

def find (ns : Bytes) : Option VersionHash := r.tbl.lookup ns

def size : Nat := r.tbl.keys.length

/-- Add a record, or write back a record that was changed. -/
def set : Reg where
  tbl := r.tbl.put v.ns (some v)
  keyed := by
    intro k w h
    rw [Dict.lookup_put] at h
    split at h
    · rename_i hk
      cases h
      exact hk.symm
    · exact r.keyed k w h

theorem find_ns {r : Reg} {k : Bytes} {v : VersionHash} (h : r.find k = some v) : v.ns = k :=
  r.keyed k v h

theorem find_set (k : Bytes) : (r.set v).find k = if k = v.ns then some v else r.find k :=
  Dict.lookup_put _ _ _ _

end Reg

def registered (n : String) (v0 : Int) : Reg :=
  Reg.empty.set (.first (lit n) v0 ∅)

/-! ## Names -/

/-- `kvolve_version_hash_lookup` on a C string; each call strips a segment, so the
length bounds the recursion. -/
def lookupFrom (reg : Reg) : Nat → Bytes → Option VersionHash
  | 0, _ => none
  | n + 1, l =>
    match rsplit colon l with
    | none => reg.find [42]
    | some (p, _) =>
      match reg.find p with
      | some v => some v
      | none => if colon ∈ p then lookupFrom reg n p else none

def versionHashLookup (reg : Reg) (key : Bytes) : Option VersionHash :=
  lookupFrom reg ((cstr key).length + 1) (cstr key)

/-- `kvolve_construct_prev_name`; `none` is the dereference of a null `strrchr`. -/
def constructPrevName (key ns : Bytes) : Option Bytes :=
  (rsplit colon (cstr key)).map fun pq => ns ++ colon :: pq.2

/-! ## Creating and updating namespaces -/

/-- `kvolve_create_ns`; `owner` is the connecting or the loading client. -/
def createNs (reg : Reg) (owner : Option Nat) (ns : Bytes) (prev : Option Bytes) (v0 : Int)
    (list : Option UpdInfo) : Res Reg :=
  let is : Finset Nat := match owner with
    | some id => {id}
    | none => ∅
  match prev with
  | none =>
    .ok (reg.set (.first ns v0 is))
  | some p =>
    match reg.find (cstr p) with
    | none => .error .segv
    | some tmp =>
      if h : tmp.hist.length < kvInitSz then
        let reg := reg.set { tmp with nextNs := some (cstr ns) }
        .ok (reg.set ⟨cstr ns, some (cstr p), none, tmp.hist ++ [(v0, list)], is, by simp,
          by simp; omega, cstr_nulFree ns, by rintro q ⟨⟩; exact cstr_nulFree p⟩)
      else .error .overflow

/-- The arguments of `kvolve_upd_spec`. -/
structure Spec where
  fromNs : Bytes
  toNs : Bytes
  fromVers : Int
  toVers : Int
  funs : List UpdFun

/-- The ids left when a record's clients are killed: none while there is at most one,
else the loader when it is a member, else the one `intsetRandom` leaves to the last. -/
def survivors (loading : Nat) (pick : Finset Nat → Nat) (is : Finset Nat) : Finset Nat :=
  if is.card ≤ 1 then is else if loading ∈ is then {loading} else is.filter (· = pick is)

/-- The killing loop over a record and its predecessors. -/
def killChain (loading : Nat) (pick : Finset Nat → Nat) :
    Nat → VersionHash → Reg → Res (Reg × Finset Nat)
  | 0, _, _ => .error .diverge
  | n + 1, tmp, reg =>
    let is := survivors loading pick tmp.is
    let reg := reg.set { tmp with is := is }
    match tmp.prevNs.bind reg.find with
    | none => .ok (reg, tmp.is \ is)
    | some t => do
      let (reg, killed) ← killChain loading pick n t reg
      .ok (reg, (tmp.is \ is) ∪ killed)

/-- The checks of `kvolve_upd_spec`: whether a new namespace is made, `none` when the
load is refused. -/
def specAccepts (reg : Reg) (sp : Spec) : Option Bool :=
  match reg.find (cstr sp.fromNs) with
  | none => none
  | some v =>
    if cstr sp.fromNs ≠ cstr sp.toNs then
      if (reg.find (cstr sp.toNs)).isSome then none else some true
    else if sp.toVers ∈ v.versions then none
    else if v.prevNs = none ∧ v.cur ≠ sp.fromVers then none
    else some false

/-- Append a version to a record, in its own array. -/
def appendVersion (v : VersionHash) (toVers : Int) (info : UpdInfo) : Res VersionHash :=
  if v.hist.length > kvInitSz then .ok v
  else if h : v.hist.length < kvInitSz then
    .ok { v with hist := v.hist ++ [(toVers, some info)], ne := by simp, room := by simp; omega }
  else .error .overflow

/-- `kvolve_upd_spec`: the registry after the load and the clients killed by it. -/
def updSpec (loading : Nat) (pick : Finset Nat → Nat) (reg : Reg) (sp : Spec) :
    Res (Reg × Finset Nat) :=
  let info : UpdInfo := ⟨cstr sp.fromNs, cstr sp.toNs, sp.fromVers, sp.toVers, sp.funs⟩
  match specAccepts reg sp with
  | none => .ok (reg, ∅)
  | some created => do
    let reg ← if created then
        createNs reg (if loading = 0 then none else some loading) sp.toNs (some sp.fromNs)
          sp.toVers (some info)
      else .ok reg
    match reg.find (cstr sp.toNs) with
    | none => .error .segv
    | some v =>
      let (reg, killed) ← killChain loading pick (reg.size + 1) v reg
      if created then .ok (reg, killed)
      else
        match reg.find (cstr sp.toNs) with
        | none => .error .segv
        | some v =>
          let v ← appendVersion { v with is := insert loading v.is } sp.toVers info
          .ok (reg.set v, killed)

/-! ## Connecting -/

/-- `strtok`: the token, what follows its delimiter, and whether the token ran to the
end of the text. -/
def strtok (delim : UInt8) (b : Bytes) : Option (Bytes × Bytes × Bool) :=
  let t := b.dropWhile (· == delim)
  if t = [] then none
  else
    let rest := t.dropWhile (· != delim)
    some (t.takeWhile (· != delim), rest.drop 1, rest = [])

/-- The loop of `kvolve_check_version`; `true` when the client is made to quit. -/
def checkVersionLoop (id : Nat) : Nat → Bytes → Reg → Res (Reg × Bool)
  | 0, _, _ => .error .diverge
  | n + 1, b, reg =>
    match strtok 64 b with
    | none => .error .segv
    | some (ns, b, _) =>
      match strtok 44 b with
      | none => .error .segv
      | some (vers, b, last) => do
        let next reg := if last then .ok (reg, false) else checkVersionLoop id n b reg
        match reg.find ns with
        | none => do
          let reg ← createNs reg (some id) ns none (atoi vers) none
          next reg
        | some v =>
          if v.cur ≠ atoi vers ∨ v.nextNs.isSome then .ok (reg, true)
          else next (reg.set { v with is := insert id v.is })

/-- `kvolve_check_version` on the name a client gives itself. -/
def checkVersion (id : Nat) (name : Bytes) (reg : Reg) : Res (Reg × Bool) :=
  if 64 ∈ cstr name then checkVersionLoop id ((cstr name).length + 1) (cstr name) reg
  else .ok (reg, false)

end SchemaUpdate.KVolve
