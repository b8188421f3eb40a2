import SchemaUpdate.Lib.Run
import SchemaUpdate.Lur.Frame
import SchemaUpdate.Lur.Loads

/-! # Entries of the version lists

A rename hands the whole list of a namespace over to another one. As long as every
entry that is written stands in no other list, no two namespaces ever share an entry,
and the names of different keys are different. -/

namespace SchemaUpdate.Lur

open SchemaUpdate.Lib

/-! ## Lists that share nothing -/

abbrev VersionLists := Ns → List (Ver × Ns)

/-- No entry stands in the lists of two namespaces. -/
def Unshared (L : VersionLists) : Prop := ∀ n m e, e ∈ L n → e ∈ L m → n = m

/-- The newest entry of a list carries the name of its namespace. -/
def OwnHead (L : VersionLists) : Prop := ∀ ns e, (L ns).head? = some e → e.2 = ns

def BarFree (L : VersionLists) : Prop := ∀ ns e, e ∈ L ns → bar ∉ e.1

/-- An entry is put in front of the list of its namespace. -/
def pushed (L : VersionLists) (v : Ver) (ns : Ns) : VersionLists :=
  Function.update L ns ((v, ns) :: L ns)

/-- The list of a namespace is handed over to another one. -/
def moved (L : VersionLists) (oldns ns : Ns) (v : Ver) : VersionLists :=
  Function.update (Function.update L ns ((v, ns) :: L oldns)) oldns []

variable {L : VersionLists} {v : Ver} {ns : Ns} {e : Ver × Ns} {name : Bytes}

theorem mem_pushed {n : Ns} : e ∈ pushed L v ns n ↔ (n = ns ∧ e = (v, ns)) ∨ e ∈ L n := by
  unfold pushed
  by_cases h : n = ns
  · subst h
    simp
  · simp [h]

theorem mem_moved {oldns n : Ns} (hne : oldns ≠ ns) (hns : L ns = []) : e ∈ moved L oldns ns v n ↔
      (n = ns ∧ (e = (v, ns) ∨ e ∈ L oldns)) ∨ (n ≠ oldns ∧ e ∈ L n) := by
  unfold moved
  by_cases hold : n = oldns
  · subst hold
    simp [hne]
  · by_cases h : n = ns
    · subst h
      simp [hns, hold]
    · simp [h, hold]

theorem head_pushed (h : OwnHead L) (v : Ver) (ns : Ns) : OwnHead (pushed L v ns) := by
  intro n e he
  unfold pushed at he
  by_cases hn : n = ns
  · subst hn
    simp only [Function.update_self, List.head?_cons, Option.some.injEq] at he
    rw [← he]
  · rw [Function.update_of_ne hn] at he
    exact h n e he

theorem head_moved (h : OwnHead L) (oldns ns : Ns) (v : Ver) : OwnHead (moved L oldns ns v) := by
  intro n e he
  unfold moved at he
  by_cases hold : n = oldns
  · subst hold
    simp at he
  · rw [Function.update_of_ne hold] at he
    by_cases hn : n = ns
    · subst hn
      simp only [Function.update_self, List.head?_cons, Option.some.injEq] at he
      rw [← he]
    · rw [Function.update_of_ne hn] at he
      exact h n e he

/-! ## What is written to the lists -/

/-- The entry that a transaction writes is in no list but the one it extends. -/
def FreshEntry : Cmd → Redis → Prop
  | .exec _ [.lpush ns e], r => ∀ m, e ∈ r.versions m → m = ns
  | .exec _ [.rpush _ (e :: _), .delVersions oldns], r => ∀ m, e ∈ r.versions m → m = oldns
  | _, _ => True

def PlainVersion : Cmd → Prop
  | .exec _ [.lpush _ e] | .exec _ [.rpush _ (e :: _), .delVersions _] => bar ∉ e.1
  | _ => True

/-- The lists of a server on which physical names are unambiguous. -/
structure Unambiguous (L : VersionLists) : Prop where
  unshared : Unshared L
  ownHead : OwnHead L
  barFree : BarFree L

theorem Unambiguous.push (h : Unambiguous L) (hfresh : ∀ m, (v, ns) ∈ L m → m = ns) (hv : bar ∉ v) :
    Unambiguous (pushed L v ns) := by
  refine ⟨?_, head_pushed h.ownHead v ns, ?_⟩
  · intro n m e hn hm
    rw [mem_pushed] at hn hm
    obtain ⟨rfl, rfl⟩ | hn := hn
    · obtain ⟨rfl, -⟩ | hm := hm
      · rfl
      · exact (hfresh m hm).symm
    · obtain ⟨rfl, rfl⟩ | hm := hm
      · exact hfresh n hn
      · exact h.unshared n m e hn hm
  · intro n e he
    rw [mem_pushed] at he
    obtain ⟨-, rfl⟩ | he := he
    · exact hv
    · exact h.barFree n e he

theorem Unambiguous.move (h : Unambiguous L) {oldns : Ns} (hne : oldns ≠ ns) (hns : L ns = [])
    (hfresh : ∀ m, (v, ns) ∈ L m → m = oldns) (hv : bar ∉ v) :
    Unambiguous (moved L oldns ns v) := by
  -- what the list `ns` has now was in the list `oldns` alone
  have hfrom : ∀ m e, m ≠ oldns → e ∈ L m → ¬ (e = (v, ns) ∨ e ∈ L oldns) := by
    intro m e hm he hor
    obtain rfl | hold := hor
    · exact hm (hfresh m he)
    · exact hm (h.unshared m oldns e he hold)
  refine ⟨?_, head_moved h.ownHead oldns ns v, ?_⟩
  · intro n m e hn hm
    rw [mem_moved hne hns] at hn hm
    obtain ⟨rfl, hn⟩ | ⟨hn', hn⟩ := hn
    · obtain ⟨rfl, -⟩ | ⟨hm', hm⟩ := hm
      · rfl
      · exact absurd hn (hfrom m e hm' hm)
    · obtain ⟨rfl, hm⟩ | ⟨-, hm⟩ := hm
      · exact absurd hm (hfrom n e hn' hn)
      · exact h.unshared n m e hn hm
  · intro n e he
    rw [mem_moved hne hns] at he
    obtain ⟨-, rfl | he⟩ | ⟨-, he⟩ := he
    · exact hv
    · exact h.barFree oldns e he
    · exact h.barFree n e he

def GoodEntry (cmd : Cmd) (r : Redis) : Prop := PlainVersion cmd ∧ FreshEntry cmd r

/-! ## The names of different keys -/

def Plain (name : Bytes) : Prop := name ≠ star ++ colon :: (splitNamespaceKey name).2

theorem mem_copies (h : OwnHead L) {p : Bytes} (hname : Plain name)
    (hp : p ∈ copies name (L (splitNamespaceKey name).1)) :
    ∃ e ∈ L (splitNamespaceKey name).1, p = nameAt name e := by
  obtain hp | hp := List.mem_append.mp hp
  · obtain ⟨e, he, rfl⟩ := Option.map_eq_some_iff.mp (Option.mem_toList.mp hp)
    have hns := h _ e he
    refine ⟨e, List.mem_of_head? he, ?_⟩
    rw [← nameAt_current hname e.1, ← hns]
  · obtain ⟨e, he, rfl⟩ := List.mem_map.mp hp
    exact ⟨e, he, rfl⟩

theorem current_name (h : OwnHead L) (hname : Plain name) {cur : Ver × Ns} {vl : List (Ver × Ns)}
    (hvl : L (splitNamespaceKey name).1 = cur :: vl) :
    nameAt name cur = versioned cur.1 name := by
  have hns : cur.2 = (splitNamespaceKey name).1 := h _ cur (by rw [hvl]; rfl)
  rw [← nameAt_current hname cur.1, ← hns]

theorem Plain.eq_join (h : Plain name) :
    name = if (splitNamespaceKey name).1 = star then (splitNamespaceKey name).2
      else (splitNamespaceKey name).1 ++ colon :: (splitNamespaceKey name).2 := by
  obtain ⟨ns, suffix, hsplit, hname, -⟩ | ⟨hsplit, -⟩ := splitNamespaceKey_cases name
  · rw [Plain, hsplit] at h
    rw [hsplit]
    have hns : ns ≠ star := by
      intro hns
      exact h (by rw [hname, hns])
    simp only [hns, if_false]
    exact hname
  · rw [hsplit]
    simp

/-- Two names at entries without bars are the same only at the same version; outside the default
namespace the entries and the suffixes are the same. -/
theorem nameAt_eq {k k' : Bytes} {e' : Ver × Ns} (he : bar ∉ e.1) (he' : bar ∉ e'.1)
    (h : nameAt k e = nameAt k' e') :
    ((splitNamespaceKey k).1 = star ↔ (splitNamespaceKey k').1 = star) ∧
      (splitNamespaceKey k).2 = (splitNamespaceKey k').2 ∧
      ((splitNamespaceKey k).1 ≠ star → e = e') := by
  have hs := colon_not_mem_suffix k
  have hs' := colon_not_mem_suffix k'
  unfold nameAt physical at h
  by_cases hk : (splitNamespaceKey k).1 = star
  · by_cases hk' : (splitNamespaceKey k').1 = star
    · rw [if_neg (by simp [hk]), if_neg (by simp [hk'])] at h
      obtain ⟨-, hsuf⟩ := versioned_inj he he' h
      exact ⟨by simp [hk, hk'], hsuf, fun hn => absurd hk hn⟩
    · rw [if_neg (by simp [hk]), if_pos hk'] at h
      obtain ⟨-, hsuf⟩ := versioned_inj he he' h
      exact absurd (by rw [hsuf]; simp) hs
  · by_cases hk' : (splitNamespaceKey k').1 = star
    · rw [if_pos hk, if_neg (by simp [hk'])] at h
      obtain ⟨-, hsuf⟩ := versioned_inj he he' h
      exact absurd (by rw [← hsuf]; simp) hs'
    · rw [if_pos hk, if_pos hk'] at h
      obtain ⟨hv, hrest⟩ := versioned_inj he he' h
      obtain ⟨hns, hsuf⟩ := join_inj hs hs' hrest
      exact ⟨by simp [hk, hk'], hsuf, fun _ => Prod.ext hv hns⟩

/-- **Different keys have different names.** -/
theorem Unambiguous.copies_disjoint (h : Unambiguous L) {k k' : Bytes} (hk : Plain k)
    (hk' : Plain k') (hne : k ≠ k') {p : Bytes} (hp : p ∈ copies k (L (splitNamespaceKey k).1)) :
    p ∉ copies k' (L (splitNamespaceKey k').1) := by
  intro hp'
  obtain ⟨e, he, rfl⟩ := mem_copies h.ownHead hk hp
  obtain ⟨e', he', heq⟩ := mem_copies h.ownHead hk' hp'
  obtain ⟨hstar, hsuf, hentry⟩ := nameAt_eq (h.barFree _ e he) (h.barFree _ e' he') heq
  apply hne
  rw [hk.eq_join, hk'.eq_join]
  by_cases hns : (splitNamespaceKey k).1 = star
  · rw [if_pos hns, if_pos (hstar.mp hns), hsuf]
  · rw [if_neg hns, if_neg (fun h' => hns (hstar.mpr h')), hsuf]
    have heq := hentry hns
    subst heq
    rw [h.unshared _ _ e he he']

section

variable {J : Type}

theorem unambiguous_versInv : VersInv (J := J) GoodEntry (fun _ r => Unambiguous r.versions)
    (fun r => Unambiguous r.versions) where
  toStore _ _ h := h
  setNsVersion _ _ _ _ h := h
  adopt _ _ _ h := h
  push _ _ _ _ _ h hcond := h.push hcond.2 hcond.1
  move _ _ _ _ _ _ hne hns _ h hcond := h.move hne hns hcond.2 hcond.1
  addRule _ _ _ _ h := h
  hset _ _ _ _ h := h

/-! ## Clients at the current versions -/

/-- The client is at the current versions: the lists it has are those in Redis. -/
def AtCurrent (c : Client J) (r : Redis) : Prop :=
  ∀ ns l, c.versDict ns = some l → l = r.versions ns

variable {c : Client J} {r : Redis}

theorem AtCurrent.adopt (h : AtCurrent c r) (ns : Ns) :
    AtCurrent (c.setVersDict ns (some (r.versions ns))) r := by
  intro n l hl
  by_cases hn : n = ns
  · subst hn
    simpa [Client.setVersDict] using hl.symm
  · simp only [Client.setVersDict, Function.update_of_ne hn] at hl
    exact h n l hl

theorem AtCurrent.setVersDict (h : AtCurrent c r) (ns : Ns) (l : List (Ver × Ns)) :
    AtCurrent (c.setVersDict ns (some l)) (r.setVersions ns l) := by
  intro n l' hl'
  by_cases hn : n = ns
  · subst hn
    simp only [Client.setVersDict, Function.update_self, Option.some.injEq] at hl'
    simp [hl']
  · simp only [Client.setVersDict, Function.update_of_ne hn] at hl'
    simp only [Redis.setVersions_versions, Function.update_of_ne hn]
    exact h n l' hl'

theorem AtCurrent.forget (h : AtCurrent c r) (ns : Ns) (l : List (Ver × Ns)) :
    AtCurrent (c.setVersDict ns none) (r.setVersions ns l) := by
  intro n l' hl'
  by_cases hn : n = ns
  · subst hn
    simp [Client.setVersDict] at hl'
  · simp only [Client.setVersDict, Function.update_of_ne hn] at hl'
    simp only [Redis.setVersions_versions, Function.update_of_ne hn]
    exact h n l' hl'

/-! ## Connects and loads -/

/-- A client connects, or a client with any dictionaries loads an update. -/
inductive Admin (J : Type)
  | connect (nsVersions : List (Ns × Ver))
  | load (c : Client J) (d : Dsl J)

/-- A connect may be refused; only successful loads are considered. -/
def Admin.step (py : Py J) (r : Redis) : Admin J → Except Unit Redis
  | .connect nsVersions => .ok ((Lur.connect py nsVersions).alone Client.empty r).2
  | .load c d =>
    match (doUpd py d).alone c r with
    | ((.ok (some true), _), r') => .ok r'
    | _ => .error ()

/-- Every transaction of the connect or load meets the condition. -/
def Admin.Along (py : Py J) (cond : Cmd → Redis → Prop) (r : Redis) : Admin J → Prop
  | .connect nsVersions => (Lur.connect py nsVersions).Along cond Client.empty r
  | .load c d => (doUpd py d).Along cond c r

/-- A connect or a load keeps the names unambiguous. -/
theorem Unambiguous.step {py : Py J} {r' : Redis} {a : Admin J} (h : Unambiguous r.versions)
    (hcond : a.Along py GoodEntry r) (hstep : a.step py r = .ok r') : Unambiguous r'.versions := by
  cases a with
  | connect nsVersions =>
    have hkeep := unambiguous_versInv.connect py nsVersions Client.empty r h hcond
    cases hstep
    revert hkeep
    cases (connect py nsVersions).alone Client.empty r with
    | mk out s =>
      obtain ⟨x, c⟩ := out
      cases x <;> exact id
  | load c d =>
    have hset : ∀ a ∈ d.adds, ∀ k ∈ a.keys,
        KeepsSet (J := J) (fun _ r => Unambiguous r.versions) k := by
      intro a _ k _ c r value h
      rw [set_versions]
      exact h
    have hkeep := unambiguous_versInv.doUpd py hset c r h hcond
    simp only [Admin.step] at hstep
    split at hstep
    · rename_i hrun
      rw [hrun] at hkeep
      cases hstep
      exact hkeep
    · cases hstep

theorem unambiguous_init (now : Int) : Unambiguous (Redis.init now).versions :=
  ⟨fun _ _ _ h => absurd h List.not_mem_nil, fun _ _ h => by simp [Redis.init] at h,
    fun _ _ h => absurd h List.not_mem_nil⟩

/-- **Physical names are unambiguous** after any connects and loads that write entries no other
list has: no two namespaces share an entry, and no two calls on different keys, made by clients
at the current versions, use the same physical name. A key must not be spelled with the default
namespace. -/
theorem names_unambiguous (py : Py J) {now : Int} {as : List (Admin J)} {r : Redis}
    (hrun : as.foldlM (Admin.step py) (Redis.init now) = .ok r)
    (hcond : Along (Admin.step py) (fun r a => a.Along py GoodEntry r) (Redis.init now) as) :
    Unshared r.versions ∧
      ∀ (c c' : Client J) (k k' : Bytes), Plain k → Plain k' → k ≠ k' →
        r.versions (splitNamespaceKey k).1 ≠ [] → r.versions (splitNamespaceKey k').1 ≠ [] →
        Knows c k (r.versions (splitNamespaceKey k).1) →
        Knows c' k' (r.versions (splitNamespaceKey k').1) →
        ∀ (call call' : KeyCall) (depth depth' : Nat) (cmd cmd' : Cmd),
          (call.prog py c k depth).Issues cmd → (call'.prog py c' k' depth').Issues cmd' →
          ∀ p ∈ cmd.dataKeys, p ∉ cmd'.dataKeys := by
  have h := Along.inv Unambiguous.step (unambiguous_init now) hcond hrun
  refine ⟨h.unshared, ?_⟩
  intro c c' k k' hk hk' hne hex hex' hc hc' call call' depth depth' cmd cmd' hcmd hcmd' p hp hp'
  obtain ⟨cur, vl, hvl⟩ := List.exists_cons_of_ne_nil hex
  obtain ⟨cur', vl', hvl'⟩ := List.exists_cons_of_ne_nil hex'
  rw [hvl] at hc
  rw [hvl'] at hc'
  have hin := ((call.within py hc depth).issues hcmd).keys p hp
  have hin' := ((call'.within py hc' depth').issues hcmd').keys p hp'
  rw [← hvl] at hin
  rw [← hvl'] at hin'
  exact h.copies_disjoint hk hk' hne hin hin'

end

/-! ## A namespace that was renamed away -/

def demoConnect : List (Ns × Ver) := [(lit "a", lit "v0")]

def demoRename : Dsl Bytes where
  texts := some [(⟨lit "v0", lit "v1", lit "a", lit "b"⟩, .ok (lit "for namespace a->b"))]
  adds := []
  fors := [⟨lit "*", some [], lit "a", lit "b", lit "v0", lit "v1"⟩]

def demoOwner : Client Bytes := ((connect demoPy demoConnect).alone Client.empty (Redis.init 0)).1.2

def demoMade : Redis := ((connect demoPy demoConnect).alone Client.empty (Redis.init 0)).2

theorem demoMade_versions : demoMade.versions = Function.update (fun _ => []) (lit "a")
    [(lit "v0", lit "a")] := rfl

theorem renamed_unshared : ∃ r, [Admin.connect demoConnect, .load demoOwner demoRename].foldlM
      (Admin.step demoPy) (Redis.init 0) = .ok r ∧ Unshared r.versions := by
  obtain ⟨r, hr⟩ : ∃ r, [Admin.connect demoConnect, .load demoOwner demoRename].foldlM
      (Admin.step demoPy) (Redis.init 0) = .ok r := ⟨_, rfl⟩
  have hconnect : (Admin.connect demoConnect).Along demoPy GoodEntry (Redis.init 0) := by
    refine And.intro ⟨trivial, trivial⟩ (And.intro ⟨trivial, trivial⟩ (And.intro ⟨?_, ?_⟩
      (And.intro ⟨trivial, trivial⟩ trivial)))
    · show bar ∉ lit "v0"
      decide
    · exact fun m hm => absurd hm List.not_mem_nil
  have hload : (Admin.load demoOwner demoRename).Along demoPy GoodEntry demoMade := by
    refine And.intro ⟨trivial, trivial⟩ (And.intro ⟨trivial, trivial⟩ (And.intro ⟨trivial, trivial⟩
      (And.intro ⟨trivial, trivial⟩ (And.intro ⟨trivial, trivial⟩ (And.intro ⟨trivial, trivial⟩
      (And.intro ⟨?_, ?_⟩ (And.intro ⟨trivial, trivial⟩ trivial)))))))
    · show bar ∉ lit "v1"
      decide
    · intro m hm
      have hm : (lit "v1", lit "b") ∈ demoMade.versions m := hm
      rw [demoMade_versions] at hm
      by_cases h : m = lit "a"
      · rw [h, Function.update_self] at hm
        exact absurd hm (by decide)
      · rw [Function.update_of_ne h] at hm
        exact absurd hm List.not_mem_nil
  refine ⟨r, hr, (names_unambiguous demoPy hr ⟨hconnect, fun s hs => ⟨?_, fun _ _ => trivial⟩⟩).1⟩
  cases hs
  exact hload

/-- A client may connect to the namespace again, which has its first entry twice then. -/
theorem reconnect_shares : ∃ r, [Admin.connect demoConnect, .load demoOwner demoRename,
      .connect demoConnect].foldlM (Admin.step demoPy) (Redis.init 0) = .ok r ∧
    (lit "v0", lit "a") ∈ r.versions (lit "a") ∧ (lit "v0", lit "a") ∈ r.versions (lit "b") :=
  ⟨_, rfl, by decide, by decide⟩

end SchemaUpdate.Lur
