import SchemaUpdate.Lur.History

/-! # What a failed load leaves behind

`do_upd` changes the dictionaries of the client before it knows whether its
transactions go through, and never takes anything back. A load that fails leaves no
trace exactly when it fails before it has written anything. Other clients may abort
any of the transactions. -/

namespace SchemaUpdate.Lur

open SchemaUpdate.Lib

/-! ## Transactions that other clients abort -/

/-- The server, with the fate of the next transactions: `true` for one that is aborted because
another client has touched a watched key. -/
def serveFlaky : (cmd : Cmd) → Redis × List Bool → cmd.Reply × (Redis × List Bool)
  | .exec _ _, (r, true :: fate) => (none, (r, fate))
  | .exec w l, (r, fate) => ((serve (.exec w l) r).1, ((serve (.exec w l) r).2, fate.tail))
  | cmd, (r, fate) => ((serve cmd r).1, ((serve cmd r).2, fate))

section

variable {J α β : Type} (py : Py J) (m : PyM J α)

def PyM.flaky (c : Client J) (s : Redis × List Bool) :
    (Except PyErr α × Client J) × (Redis × List Bool) :=
  (m c).run serveFlaky s

variable {c c' : Client J} {s : Redis × List Bool} {r : Redis} {ns : Ns} {texts : Texts} {d : Dsl J}
  {adds : List (AddTuple J)} {s' : Redis × List Bool} {fate : List Bool}

theorem PyM.flaky_ok {m : PyM J α} {a : α} (h : m.flaky c s = ((.ok a, c'), s')) (f : α → PyM J β) :
    (m >>= f).flaky c s = (f a).flaky c' s' := by
  have hrun : (m >>= f).flaky c s = _ := Prog.run_bind serveFlaky (m c) _ s
  have h : (m c).run serveFlaky s = ((.ok a, c'), s') := h
  rw [hrun, h]
  rfl

theorem PyM.flaky_error {m : PyM J α} {e : PyErr}
    (h : m.flaky c s = ((.error e, c'), s')) (f : α → PyM J β) :
    (m >>= f).flaky c s = ((.error e, c'), s') := by
  have hrun : (m >>= f).flaky c s = _ := Prog.run_bind serveFlaky (m c) _ s
  have h : (m c).run serveFlaky s = ((.error e, c'), s') := h
  rw [hrun, h]
  rfl

theorem PyM.flaky_return (f : α → β) (c : Client J) (s : Redis × List Bool) :
    let out := (do return f (← m) : PyM J β).flaky c s
    out.1.2 = (m.flaky c s).1.2 ∧ out.2 = (m.flaky c s).2 := by
  rcases h : m.flaky c s with ⟨⟨e | a, c'⟩, s'⟩
  · rw [PyM.flaky_error h]
    exact ⟨rfl, rfl⟩
  · rw [PyM.flaky_ok h]
    exact ⟨rfl, rfl⟩

theorem PyM.flaky_exec {w : Watch} (h : r.clean w = true) (l : List Write) (c : Client J)
    (fate : List Bool) :
    ∃ out r' fate', (out = none ∧ r' = r ∨ out = some (applyAll l r).1 ∧ r' = (applyAll l r).2) ∧
      (PyM.send (.exec w l) : PyM J _).flaky c (r, fate) = ((.ok out, c), (r', fate')) := by
  have hserve : serve (.exec w l) r = (some (applyAll l r).1, (applyAll l r).2) := by
    simp only [serve, h, if_true]
  have hran : serveFlaky (.exec w l) (r, fate) =
      (some (applyAll l r).1, ((applyAll l r).2, fate.tail)) → ∃ out r' fate',
      (out = none ∧ r' = r ∨ out = some (applyAll l r).1 ∧ r' = (applyAll l r).2) ∧
        (PyM.send (.exec w l) : PyM J _).flaky c (r, fate) = ((.ok out, c), (r', fate')) :=
    fun hfl => ⟨_, _, fate.tail, .inr ⟨rfl, rfl⟩,
      congrArg (fun x => ((Except.ok x.1, c), x.2)) hfl⟩
  cases fate with
  | nil => exact hran (by simp only [serveFlaky, hserve])
  | cons b fate =>
    cases b with
    | true => exact ⟨none, r, fate, .inl ⟨rfl, rfl⟩, rfl⟩
    | false => exact hran (by simp only [serveFlaky, hserve])

/-! ## Traces -/

/-- The lists, the update texts, the data and the dictionaries of the client are as they were. -/
structure NoTrace (c : Client J) (r : Redis) (c' : Client J) (r' : Redis) : Prop where
  client : c' = c
  versions : r'.versions = r.versions
  dsl : r'.dsl = r.dsl
  data : ∀ p, r'.find p = r.find p

/-- No list of the client is longer than the one in Redis, as it is after a load that failed. -/
def NotAhead (c : Client J) (r : Redis) : Prop :=
  ∀ ns l, c.versDict ns = some l → l.length ≤ (r.versions ns).length

def Failed : Except PyErr (Option Bool) → Prop
  | .error _ => True
  | .ok out => out = some false

/-! ## What the load writes before it fails -/

/-- The version of the stanza is the current one, for Redis and for the client: extending the list
by it writes nothing new. -/
def AtVersion (c : Client J) (r : Redis) (v : Ver) (ns : Ns) : Prop :=
  (r.versions ns).head?.map Prod.fst = some v ∧ c.nsVersions ns = some v

def CanSet (c : Client J) (k : Bytes) : Prop := ∃ cur vl, Knows c k (cur :: vl)

/-- The `add` stanzas up to the first with a key that the client cannot set extend no list. -/
def AddsIdle (c : Client J) (r : Redis) : List (AddTuple J) → Prop
  | [] => True
  | a :: rest => AtVersion c r a.version a.ns ∧ ((∀ k ∈ a.keys, CanSet c k) → AddsIdle c r rest)

/-- The store after the keys were set one by one, up to the first that cannot be set. -/
def keysSet (py : Py J) (c : Client J) (j : J) : List Bytes → Redis → Bool × Redis
  | [], r => (true, r)
  | k :: ks, r =>
    match (set c k (py.dumps j) {}).run serve r with
    | (.ok _, r') => keysSet py c j ks r'
    | (.error _, r') => (false, r')

def addsSet (py : Py J) (c : Client J) : List (AddTuple J) → Redis → Bool × Redis
  | [], r => (true, r)
  | a :: rest, r =>
    match a.func with
    | none => addsSet py c rest r
    | some (ks, j) =>
      match keysSet py c j ks r with
      | (true, r') => addsSet py c rest r'
      | (false, r') => (false, r')

/-- The `for` stanza is given up before anything is written for it: its text is missing or cannot
be joined, Redis has another text for it, a rename is refused, or its version is the current one
already and it has no functions. -/
def Refused (texts : Texts) (c : Client J) (r : Redis) (t : ForTuple J) : Prop :=
  match texts.find t.name with
  | none => True
  | some (.error _) => True
  | some (.ok joined) =>
    (∃ prev, r.dsl.lookup t.name = some prev ∧ prev ≠ joined) ∨
      if t.oldns = t.ns then AtVersion c r t.verTo t.ns ∧ t.funcs = none
      else r.versions t.ns ≠ [] ∨ r.versions t.oldns = [] ∨
        inFlat t.verFrom (r.versions t.oldns) = false

/-- Nothing is written before the load fails: a stanza does not start at the client's version, the
module cannot be made, or the `add` stanzas write nothing new and one of their keys cannot be set
or the first `for` stanza is refused. -/
def Silent (d : Dsl J) (c : Client J) (r : Redis) : Prop :=
  ∃ texts, d.texts = some texts ∧
    ((∃ q ∈ texts, c.currVersion q.1.oldns ≠ .ok q.1.old) ∨ d.broken ≠ none ∨
      AddsIdle c r d.adds ∧ (∀ p, (addsSet py c d.adds r).2.find p = r.find p) ∧
        ((addsSet py c d.adds r).1 = false ∨ ∃ t rest, d.fors = t :: rest ∧ Refused texts c r t))

/-! ## One append -/

theorem appendNewVersion_flaky (v : Ver) (ns : Ns) (c : Client J) (r : Redis) (fate : List Bool) :
    ((r.versions ns).head?.map Prod.fst = some v ∧
        (appendNewVersion v ns false).flaky c (r, fate) =
          ((.ok (some ()), c.setNsVersion ns v), (r, fate))) ∨
      ((r.versions ns).head?.map Prod.fst ≠ some v ∧ ∃ out r' fate',
        (appendNewVersion v ns false).flaky c (r, fate) = ((.ok out,
          (c.setNsVersion ns v).setVersDict ns (some ((v, ns) :: r.versions ns))), (r', fate')) ∧
        (r' = r ∨ r' = r.setVersions ns ((v, ns) :: r.versions ns))) := by
  have hclean : r.clean [(.versions ns, r.touched (.versions ns))] = true := by
    simp [Redis.clean]
  have hread : (appendNewVersion v ns false).flaky c (r, fate) =
      (if (r.versions ns).head?.map Prod.fst = some v then pure (some ()) else do
        PyM.modify (·.setVersDict ns (some ((v, ns) :: r.versions ns)))
        let out : Option Bool ← PyM.send (.exec [(.versions ns, r.touched (.versions ns))]
          [.lpush ns (v, ns)])
        return out.map fun _ => () : PyM J (Option Unit)).flaky (c.setNsVersion ns v) (r, fate) := rfl
  by_cases hhead : (r.versions ns).head?.map Prod.fst = some v
  · rw [hread, if_pos hhead]
    exact .inl ⟨hhead, rfl⟩
  · rw [hread, if_neg hhead]
    refine .inr ⟨hhead, ?_⟩
    obtain ⟨out, r', fate', hout, hrun⟩ := PyM.flaky_exec hclean [.lpush ns (v, ns)]
      ((c.setNsVersion ns v).setVersDict ns (some ((v, ns) :: r.versions ns))) fate
    refine ⟨out.map fun _ => (), r', fate', ?_, ?_⟩
    · exact PyM.flaky_ok hrun _
    · obtain ⟨-, rfl⟩ | ⟨-, rfl⟩ := hout
      · exact .inl rfl
      · exact .inr rfl

theorem appendNewVersionUpdatedNs_flaky (oldV v : Ver) {oldns : Ns} (hne : oldns ≠ ns)
    (c : Client J) (r : Redis) (fate : List Bool) :
    ((r.versions ns ≠ [] ∨ r.versions oldns = [] ∨ inFlat oldV (r.versions oldns) = false) ∧
        (appendNewVersionUpdatedNs oldV v oldns ns).flaky c (r, fate) =
          ((.error .valueError, c), (r, fate))) ∨
      (¬ (r.versions ns ≠ [] ∨ r.versions oldns = [] ∨ inFlat oldV (r.versions oldns) = false) ∧
        ∃ out c' s, (appendNewVersionUpdatedNs oldV v oldns ns).flaky c (r, fate) =
          ((out, c'), s) ∧ c'.versDict ns = some ((v, ns) :: r.versions oldns)) := by
  have hclean : r.clean [(.versions ns, r.touched (.versions ns)),
      (.versions oldns, r.touched (.versions oldns))] = true := by
    simp [Redis.clean]
  have hthere : ∀ k : Bool → PyM J (Option Unit),
      (PyM.send (.existsVersions ns) >>= k).flaky c (r, fate) =
        (k (!(r.versions ns).isEmpty)).flaky c (r, fate) := fun _ => rfl
  have hread : ∀ k : Nat → Nat → List (Ver × Ns) → PyM J (Option Unit), (do
      let n : Nat ← PyM.send (.watch (.versions ns))
      let n' : Nat ← PyM.send (.watch (.versions oldns))
      let l : List (Ver × Ns) ← PyM.send (.lrange oldns)
      k n n' l).flaky c (r, fate) = (k (r.touched (.versions ns)) (r.touched (.versions oldns))
        (r.versions oldns)).flaky c (r, fate) := fun _ => rfl
  unfold appendNewVersionUpdatedNs
  rw [hthere]
  by_cases hns : r.versions ns = []
  · rw [if_neg (by simp [hns]), hread]
    by_cases hold : r.versions oldns = []
    · refine .inl ⟨.inr (.inl hold), ?_⟩
      rw [if_pos (by simp [hold])]
      rfl
    · rw [if_neg (by simpa using hold)]
      cases hflat : inFlat oldV (r.versions oldns) with
      | false => exact .inl ⟨.inr (.inr rfl), rfl⟩
      | true =>
        refine .inr ⟨by simp [hns, hold], ?_⟩
        have hdict : (c.setVersDict ns (some ((v, ns) :: r.versions oldns))).versDict oldns =
            c.versDict oldns := Function.update_of_ne hne ..
        have hgrown : (c.setVersDict ns (some ((v, ns) :: r.versions oldns))).versDict ns =
            some ((v, ns) :: r.versions oldns) := Function.update_self ..
        have hset : ∀ k : Client J → PyM J (Option Unit), (do
            PyM.modify (·.setVersDict ns (some ((v, ns) :: r.versions oldns)))
            let c ← PyM.client
            k c).flaky c (r, fate) = (k (c.setVersDict ns (some ((v, ns) :: r.versions oldns)))).flaky
              (c.setVersDict ns (some ((v, ns) :: r.versions oldns))) (r, fate) := fun _ => rfl
        rw [if_neg (by simp), hset, hdict]
        cases c.versDict oldns with
        | none => exact ⟨_, _, _, rfl, hgrown⟩
        | some l =>
          obtain ⟨out, r', fate', -, hrun⟩ := PyM.flaky_exec hclean
            [.rpush ns ((v, ns) :: r.versions oldns), .delVersions oldns]
            ((c.setVersDict ns (some ((v, ns) :: r.versions oldns))).setVersDict oldns none) fate
          refine ⟨_, _, _, PyM.flaky_ok hrun _, ?_⟩
          exact (Function.update_of_ne (Ne.symm hne) ..).trans hgrown
  · refine .inl ⟨.inl hns, ?_⟩
    rw [if_pos (by simpa using hns)]
    rfl

/-! ## Setting keys -/

/-- A program without transactions runs as on a server where nothing is aborted. -/
theorem run_flaky {p : Prog Cmd.Reply α} (h : p.Only fun cmd => ∀ w l, cmd ≠ .exec w l)
    (r : Redis) (fate : List Bool) :
    p.run serveFlaky (r, fate) = ((p.run serve r).1, ((p.run serve r).2, fate)) := by
  induction p generalizing r with
  | ret a => rfl
  | call cmd k ih =>
    have hcmd : serveFlaky cmd (r, fate) = ((serve cmd r).1, ((serve cmd r).2, fate)) := by
      cases cmd with
      | exec w l => exact absurd rfl (h.1 w l)
      | _ => rfl
    rw [Prog.run_call, Prog.run_call, hcmd]
    exact ih _ (h.2 _) _

theorem set_no_exec (c : Client J) (k value : Bytes) (o : SetOpts) :
    (set c k value o).Only fun cmd => ∀ w l, cmd ≠ .exec w l := by
  have holder : ∀ {α : Type} (vl : List (Ver × Ns)) (a : α),
      (delOlder k vl a).Only fun cmd => ∀ w l, cmd ≠ .exec w l := by
    intro α vl a
    unfold delOlder
    split
    · trivial
    · exact ⟨by simp, fun _ => trivial⟩
  unfold set
  split
  · split
    · exact ⟨by simp, fun _ => holder _ _⟩
    · refine .call (by simp) fun x => ?_
      split
      · trivial
      · exact holder _ _
  · trivial
  · trivial

theorem run_set_plain (c : Client J) (k value : Bytes) (r : Redis) :
    (CanSet c k ∧ ((set c k value {}).run serve r).1 = .ok (some true)) ∨
      (¬ CanSet c k ∧ ∃ e, (set c k value {}).run serve r = (.error e, r)) := by
  by_cases hk : CanSet c k
  · obtain ⟨cur, vl, hc⟩ := hk
    refine .inl ⟨⟨cur, vl, hc⟩, ?_⟩
    rw [run_set hc, setAlone, if_neg (by decide)]
    split <;> rfl
  · refine .inr ⟨hk, ?_⟩
    simp only [CanSet, not_exists] at hk
    obtain ⟨e, he⟩ := set_unknown hk value {}
    exact ⟨e, by rw [he]; rfl⟩

theorem setKeys_flaky (j : J) (c : Client J) (ks : List Bytes) (r : Redis)
    (fate : List Bool) : ∃ x, (setKeys py j ks).flaky c (r, fate) =
      ((x, c), ((keysSet py c j ks r).2, fate)) ∧
      (((∀ k ∈ ks, CanSet c k) ∧ (keysSet py c j ks r).1 = true ∧ x = .ok ()) ∨
        ((¬ ∀ k ∈ ks, CanSet c k) ∧ (keysSet py c j ks r).1 = false ∧ ∃ e, x = .error e)) := by
  induction ks generalizing r with
  | nil => exact ⟨.ok (), rfl, .inl ⟨by simp, rfl, rfl⟩⟩
  | cons k ks ih =>
    have hlift : (PyM.lift fun c => set c k (py.dumps j) {}).flaky c (r, fate) =
        ((((set c k (py.dumps j) {}).run serve r).1, c),
          (((set c k (py.dumps j) {}).run serve r).2, fate)) := by
      have hrun := run_flaky (set_no_exec c k (py.dumps j) {}) r fate
      show ((set c k (py.dumps j) {}).bind _).run serveFlaky (r, fate) = _
      rw [Prog.run_bind, hrun]
      rfl
    unfold setKeys
    obtain ⟨hk, hok⟩ | ⟨hk, e, herr⟩ := run_set_plain c k (py.dumps j) r
    · rw [hok] at hlift
      have hset : keysSet py c j (k :: ks) r =
          keysSet py c j ks ((set c k (py.dumps j) {}).run serve r).2 := by
        rw [keysSet]
        cases hrun : (set c k (py.dumps j) {}).run serve r with
        | mk x r' =>
          rw [hrun] at hok
          have hok : x = .ok (some true) := hok
          subst hok
          rfl
      rw [PyM.flaky_ok hlift, hset]
      obtain ⟨x, hrest, hcase⟩ := ih ((set c k (py.dumps j) {}).run serve r).2
      refine ⟨x, hrest, ?_⟩
      simpa [hk] using hcase
    · rw [herr] at hlift
      have hset : keysSet py c j (k :: ks) r = (false, r) := by rw [keysSet, herr]
      rw [PyM.flaky_error hlift, hset]
      exact ⟨.error e, rfl, .inr ⟨fun h => hk (h k (by simp)), rfl, e, rfl⟩⟩

theorem keysSet_books (c : Client J) (j : J) (ks : List Bytes) (r : Redis) :
    (keysSet py c j ks r).2.versions = r.versions ∧ (keysSet py c j ks r).2.dsl = r.dsl := by
  induction ks generalizing r with
  | nil => exact ⟨rfl, rfl⟩
  | cons k ks ih =>
    have hbooks : ((set c k (py.dumps j) {}).run serve r).2.versions = r.versions ∧
        ((set c k (py.dumps j) {}).run serve r).2.dsl = r.dsl := by
      obtain ⟨⟨cur, vl, hc⟩, -⟩ | ⟨-, e, herr⟩ := run_set_plain c k (py.dumps j) r
      · have hout := Outside.run (within_set hc (py.dumps j) {}) r
        exact ⟨hout.versions, hout.dsl⟩
      · rw [herr]
        exact ⟨rfl, rfl⟩
    rw [keysSet]
    split
    · rename_i hrun
      rw [hrun] at hbooks
      have hrest := ih ‹Redis›
      exact ⟨hrest.1.trans hbooks.1, hrest.2.trans hbooks.2⟩
    · rename_i hrun
      rw [hrun] at hbooks
      exact hbooks

theorem addsSet_books (c : Client J) (adds : List (AddTuple J)) (r : Redis) :
    (addsSet py c adds r).2.versions = r.versions ∧ (addsSet py c adds r).2.dsl = r.dsl := by
  induction adds generalizing r with
  | nil => exact ⟨rfl, rfl⟩
  | cons a rest ih =>
    rw [addsSet]
    split
    · exact ih r
    · rename_i ks j _
      have hkeys := keysSet_books py c j ks r
      split
      · rename_i hrun
        rw [hrun] at hkeys
        have hrest := ih ‹Redis›
        exact ⟨hrest.1.trans hkeys.1, hrest.2.trans hkeys.2⟩
      · rename_i hrun
        rw [hrun] at hkeys
        exact hkeys

theorem AddsIdle.congr {r' : Redis} (hv : r'.versions = r.versions) :
    AddsIdle c r' adds ↔ AddsIdle c r adds := by
  induction adds with
  | nil => exact Iff.rfl
  | cons a rest ih => simp only [AddsIdle, AtVersion, hv, ih]

theorem Client.setNsVersion_self {v : Ver} (h : c.nsVersions ns = some v) :
    c.setNsVersion ns v = c := by
  have hsame : Function.update c.nsVersions ns (some v) = c.nsVersions := by
    rw [← h]
    exact Function.update_eq_self ns c.nsVersions
  rw [Client.setNsVersion, hsame]

theorem append_idle {v : Ver} (h : AtVersion c r v ns) (fate : List Bool) :
    (appendNewVersion v ns false).flaky c (r, fate) = ((.ok (some ()), c), (r, fate)) := by
  obtain ⟨-, hrun⟩ | ⟨hhead, -⟩ := appendNewVersion_flaky v ns c r fate
  · rw [hrun, Client.setNsVersion_self h.2]
  · exact absurd h.1 hhead

theorem addLoop_idle (h : AddsIdle c r adds)
    (fate : List Bool) : ∃ x, (addLoop py adds).flaky c (r, fate) =
      ((x, c), ((addsSet py c adds r).2, fate)) ∧
      (((addsSet py c adds r).1 = true ∧ x = .ok ()) ∨
        ((addsSet py c adds r).1 = false ∧ ∃ e, x = .error e)) := by
  induction adds generalizing r with
  | nil => exact ⟨.ok (), rfl, .inl ⟨rfl, rfl⟩⟩
  | cons a rest ih =>
    obtain ⟨hat, hrest⟩ := h
    unfold addLoop addsSet
    rw [PyM.flaky_ok (append_idle hat fate)]
    cases hf : a.func with
    | none =>
      simp only
      exact ih (hrest (by simp [AddTuple.keys, hf]))
    | some q =>
      obtain ⟨ks, j⟩ := q
      simp only
      have hkeys : a.keys = ks := by simp [AddTuple.keys, hf]
      obtain ⟨x, hrun, ⟨hcan, hset, rfl⟩ | ⟨-, hset, e, rfl⟩⟩ := setKeys_flaky py j c ks r fate
      · have hbooks := (keysSet_books py c j ks r).1
        rw [PyM.flaky_ok hrun]
        cases hout : keysSet py c j ks r with
        | mk b r' =>
          rw [hout] at hset hbooks
          have hset : b = true := hset
          subst hset
          refine ih ((AddsIdle.congr hbooks).mpr (hrest ?_))
          rw [hkeys]
          exact hcan
      · rw [PyM.flaky_error hrun]
        cases hout : keysSet py c j ks r with
        | mk b r' =>
          rw [hout] at hset
          have hset : b = false := hset
          subst hset
          exact ⟨_, rfl, .inr ⟨rfl, e, rfl⟩⟩

/-! ## Traces that stay -/

section Marks

variable (c₀ : Client J) (r₀ : Redis)

def ruleCount (c : Client J) (name : UpdName) : Nat := ((c.updDict name).getD []).length

def Filed (c : Client J) : Prop := ∃ name, ruleCount c₀ name < ruleCount c name

/-- A list in Redis or in the client has grown, or the version of the client has changed to the one
in Redis. -/
def Marked (c : Client J) (r : Redis) : Prop :=
  (∃ ns, (r₀.versions ns).length < (r.versions ns).length) ∨
    (∃ ns l, c.versDict ns = some l ∧ (r₀.versions ns).length < l.length) ∨
    ∃ ns v, c.nsVersions ns = some v ∧ c₀.nsVersions ns ≠ some v ∧
      (r.versions ns).head?.map Prod.fst = some v

def Longer (r : Redis) : Prop := ∀ ns, (r₀.versions ns).length ≤ (r.versions ns).length

variable {c₀ r₀} {c : Client J} {r : Redis}

theorem Marked.trace (hc : NotAhead c₀ r₀) (h : Marked c₀ r₀ c r) : ¬ NoTrace c₀ r₀ c r := by
  rintro ⟨rfl, hv, -, -⟩
  obtain ⟨ns, hlen⟩ | ⟨ns, l, hl, hlen⟩ | ⟨ns, v, hnew, hold, -⟩ := h
  · rw [hv] at hlen
    omega
  · have := hc ns l hl
    omega
  · exact hold hnew

theorem Filed.trace (h : Filed c₀ c) : ¬ NoTrace c₀ r₀ c r := by
  rintro ⟨rfl, -, -, -⟩
  obtain ⟨name, hlt⟩ := h
  omega

theorem append_marked (hlong : Longer r₀ r) (v : Ver) (ns : Ns) (fate : List Bool)
    (h : Marked c₀ r₀ c r ∨ (c = c₀ ∧ r.versions = r₀.versions ∧ ¬ AtVersion c₀ r₀ v ns)) :
    ∃ out c' r' fate', (appendNewVersion v ns false).flaky c (r, fate) =
      ((.ok out, c'), (r', fate')) ∧ Marked c₀ r₀ c' r' ∧ Longer r₀ r' := by
  obtain ⟨hhead, hrun⟩ | ⟨-, out, r', fate', hrun, hr'⟩ := appendNewVersion_flaky v ns c r fate
  · refine ⟨_, _, _, _, hrun, ?_, hlong⟩
    obtain h | ⟨rfl, hv, hat⟩ := h
    · obtain h | h | ⟨n, w, hnew, hold, hw⟩ := h
      · exact .inl h
      · exact .inr (.inl h)
      · refine .inr (.inr ⟨n, w, ?_, hold, hw⟩)
        by_cases hn : n = ns
        · subst hn
          rw [hhead] at hw
          simpa [Client.setNsVersion] using hw
        · simpa [Client.setNsVersion, Function.update_of_ne hn] using hnew
    · refine .inr (.inr ⟨ns, v, by simp [Client.setNsVersion], fun hsame => hat ⟨?_, hsame⟩, hhead⟩)
      rw [← hv]
      exact hhead
  · refine ⟨_, _, _, _, hrun, .inr (.inl ⟨ns, _, Function.update_self .., ?_⟩), ?_⟩
    · have := hlong ns
      simp only [List.length_cons]
      omega
    · obtain rfl | rfl := hr'
      · exact hlong
      · intro n
        have hn := hlong n
        by_cases hns : n = ns
        · subst hns
          simp only [Redis.setVersions_versions, Function.update_self, List.length_cons]
          omega
        · simpa [Function.update_of_ne hns] using hn

theorem Marked.congr {r' : Redis} (hv : r'.versions = r.versions) (h : Marked c₀ r₀ c r) :
    Marked c₀ r₀ c r' := by
  unfold Marked at h ⊢
  rw [hv]
  exact h

/-- The add stanzas keep a mark, and leave one when they are not idle. -/
theorem addLoop_marked (py : Py J) {adds : List (AddTuple J)} (hlong : Longer r₀ r)
    (fate : List Bool)
    (h : Marked c₀ r₀ c r ∨ (c = c₀ ∧ r.versions = r₀.versions ∧ ¬ AddsIdle c₀ r₀ adds)) :
    ∃ x c' r' fate', (addLoop py adds).flaky c (r, fate) = ((x, c'), (r', fate')) ∧
      Marked c₀ r₀ c' r' ∧ Longer r₀ r' := by
  induction adds generalizing c r fate with
  | nil =>
    obtain h | ⟨-, -, h⟩ := h
    · exact ⟨_, _, _, _, rfl, h, hlong⟩
    · exact absurd trivial h
  | cons a rest ih =>
    -- the rest of the loop, with or without keys to set
    have hgo : ∀ (c : Client J) (r : Redis) (fate : List Bool), Longer r₀ r →
        (Marked c₀ r₀ c r ∨ (c = c₀ ∧ r.versions = r₀.versions ∧ (∀ k ∈ a.keys, CanSet c₀ k) ∧
          ¬ AddsIdle c₀ r₀ rest)) →
        ∃ x c' r' fate', (match a.func with
          | none => addLoop py rest
          | some (ks, j) => do
            setKeys py j ks
            addLoop py rest : PyM J Unit).flaky c (r, fate) = ((x, c'), (r', fate')) ∧
          Marked c₀ r₀ c' r' ∧ Longer r₀ r' := by
      intro c r fate hlong h
      cases hf : a.func with
      | none =>
        refine ih hlong fate ?_
        obtain h | ⟨hc, hv, -, hidle⟩ := h
        · exact .inl h
        · exact .inr ⟨hc, hv, hidle⟩
      | some q =>
        obtain ⟨ks, j⟩ := q
        have hkeys : a.keys = ks := by simp [AddTuple.keys, hf]
        have hbooks := (keysSet_books py c j ks r).1
        have hlong' : Longer r₀ (keysSet py c j ks r).2 := by
          intro ns
          rw [hbooks]
          exact hlong ns
        obtain ⟨x, hrun, ⟨-, -, rfl⟩ | ⟨hcan, -, e, rfl⟩⟩ := setKeys_flaky py j c ks r fate
        · simp only
          rw [PyM.flaky_ok hrun]
          refine ih hlong' fate ?_
          obtain h | ⟨hc, hv, -, hidle⟩ := h
          · exact .inl (h.congr hbooks)
          · exact .inr ⟨hc, hbooks.trans hv, hidle⟩
        · simp only
          rw [PyM.flaky_error hrun]
          obtain h | ⟨rfl, -, hall, -⟩ := h
          · exact ⟨_, _, _, _, rfl, h.congr hbooks, hlong'⟩
          · rw [hkeys] at hall
            exact absurd hall hcan
    unfold addLoop
    by_cases hmark : Marked c₀ r₀ c r ∨ ¬ AtVersion c₀ r₀ a.version a.ns
    · have hstart : Marked c₀ r₀ c r ∨
          (c = c₀ ∧ r.versions = r₀.versions ∧ ¬ AtVersion c₀ r₀ a.version a.ns) := by
        obtain hmark | hat := hmark
        · exact .inl hmark
        · obtain h | ⟨hc, hv, -⟩ := h
          · exact .inl h
          · exact .inr ⟨hc, hv, hat⟩
      obtain ⟨out, c', r', fate', hrun, hm, hl⟩ := append_marked hlong a.version a.ns fate hstart
      rw [PyM.flaky_ok hrun]
      exact hgo c' r' fate' hl (.inl hm)
    · simp only [not_or, not_not] at hmark
      obtain ⟨hmark, hat⟩ := hmark
      obtain h | ⟨rfl, hv, hidle⟩ := h
      · exact absurd h hmark
      · have hat' : AtVersion c r a.version a.ns := by
          rw [AtVersion, hv]
          exact hat
        rw [PyM.flaky_ok (append_idle hat' fate)]
        refine hgo c r fate hlong (.inr ⟨rfl, hv, ?_⟩)
        by_contra hnot
        refine hidle ⟨hat, fun hall => ?_⟩
        by_contra hrest
        exact hnot ⟨hall, hrest⟩

theorem appendFor_marked (hlong : Longer r₀ r) (t : ForTuple J) (fate : List Bool)
    (h : Marked c₀ r₀ c r ∨ (c = c₀ ∧ r.versions = r₀.versions ∧
      if t.oldns = t.ns then ¬ AtVersion c₀ r₀ t.verTo t.ns
      else ¬ (r₀.versions t.ns ≠ [] ∨ r₀.versions t.oldns = [] ∨
        inFlat t.verFrom (r₀.versions t.oldns) = false))) :
    ∃ x c' s, (appendFor t).flaky c (r, fate) = ((x, c'), s) ∧ Marked c₀ r₀ c' s.1 := by
  unfold appendFor
  by_cases hns : t.oldns = t.ns
  · simp only [hns, if_true] at h ⊢
    obtain ⟨out, c', r', fate', hrun, hm, -⟩ := append_marked hlong t.verTo t.ns fate h
    exact ⟨_, _, _, hrun, hm⟩
  · simp only [hns, if_false] at h ⊢
    obtain ⟨href, hrun⟩ | ⟨hnew, out, c', s, hrun, hgrown⟩ :=
      appendNewVersionUpdatedNs_flaky t.verFrom t.verTo hns c r fate
    · refine ⟨_, _, _, hrun, ?_⟩
      obtain h | ⟨-, hv, hnot⟩ := h
      · exact h
      · rw [hv] at href
        exact absurd href hnot
    · refine ⟨_, _, _, hrun, .inr (.inl ⟨t.ns, _, hgrown, ?_⟩)⟩
      have hlen := hlong t.ns
      simp only [ne_eq, not_or, not_not] at hnew
      rw [hnew.1] at hlen
      simp only [List.length_nil, List.length_cons] at hlen ⊢
      omega

/-! ## Rules are never taken back -/

variable {P : Client J → Prop}

/-- Whatever the answers of the server, the method keeps the property of the client. -/
def PyM.KeepsClient (P : Client J → Prop) (m : PyM J α) : Prop :=
  ∀ c, P c → (m c).Ends fun out => P out.2

theorem PyM.KeepsClient.bind {m : PyM J α} {f : α → PyM J β}
    (hm : PyM.KeepsClient P m) (hf : ∀ a, PyM.KeepsClient P (f a)) :
    PyM.KeepsClient P (m >>= f) := by
  intro c hc
  refine (hm c hc).bind fun out hout => ?_
  obtain ⟨x, c'⟩ := out
  cases x with
  | error e => exact hout
  | ok a => exact hf a c' hout

theorem PyM.KeepsClient.pure (a : α) :
    PyM.KeepsClient P (pure a : PyM J α) := fun _ hc => hc

theorem PyM.KeepsClient.raise (e : PyErr) :
    PyM.KeepsClient P (PyM.raise e : PyM J α) := fun _ hc => hc

theorem PyM.KeepsClient.client :
    PyM.KeepsClient P (PyM.client : PyM J (Client J)) := fun _ hc => hc

theorem PyM.KeepsClient.modify {g : Client J → Client J}
    (hg : ∀ c, P c → P (g c)) : PyM.KeepsClient P (PyM.modify g) := hg

theorem PyM.KeepsClient.send (cmd : Cmd) :
    PyM.KeepsClient P (PyM.send cmd : PyM J cmd.Reply) := fun _ hc _ => hc

theorem PyM.KeepsClient.lift (p : Client J → Prog Cmd.Reply (Except PyErr α)) :
    PyM.KeepsClient P (PyM.lift p) := by
  intro c hc
  have hends : (p c).Ends fun _ => True := by
    generalize p c = q
    induction q with
    | ret a => trivial
    | call cmd k ih => exact ih
  exact hends.bind fun _ _ => hc

theorem PyM.KeepsClient.flaky {m : PyM J α} (hm : PyM.KeepsClient P m)
    {c' : Client J} {x : Except PyErr α} {s s' : Redis × List Bool} (hc : P c)
    (hrun : m.flaky c s = ((x, c'), s')) : P c' := by
  have hend := (hm c hc).run serveFlaky s
  have hrun : (m c).run serveFlaky s = ((x, c'), s') := hrun
  rw [hrun] at hend
  exact hend

/-- A property of the filed rules that more rules keep. -/
structure RuleProp (P : Client J → Prop) : Prop where
  congr : ∀ {c c' : Client J}, c'.updDict = c.updDict → P c → P c'
  addRule : ∀ {c : Client J} name rule, P c → P (c.addRule name rule)

theorem PyM.KeepsClient.closed : PyM.Closed (J := J) fun m => PyM.KeepsClient P m where
  pure := PyM.KeepsClient.pure
  raise := PyM.KeepsClient.raise
  client := PyM.KeepsClient.client
  bind := PyM.KeepsClient.bind

theorem RuleProp.parts (hP : RuleProp P) : PyM.Parts (J := J) fun m => PyM.KeepsClient P m where
  toClosed := PyM.KeepsClient.closed
  send cmd _ := PyM.KeepsClient.send cmd
  setNsVersion _ _ := PyM.KeepsClient.modify fun c hc => hP.congr (c := c) rfl hc
  setVersDict _ _ := PyM.KeepsClient.modify fun c hc => hP.congr (c := c) rfl hc

theorem RuleProp.addLoop (hP : RuleProp P) (py : Py J) (adds : List (AddTuple J)) :
    PyM.KeepsClient P (addLoop py adds) :=
  hP.parts.addLoop py (fun v ns => hP.parts.append v ns false) fun _ _ _ _ _ =>
    PyM.KeepsClient.lift _

theorem RuleProp.execute (w : Watch) (l : List Write) :
    PyM.KeepsClient P (execute (J := J) w l) := by
  unfold Lur.execute
  split
  · exact PyM.KeepsClient.pure _
  · exact PyM.KeepsClient.send _

theorem RuleProp.loads (hP : RuleProp P) : PyM.Loads (J := J) fun m => PyM.KeepsClient P m where
  toClosed := PyM.KeepsClient.closed
  watch := PyM.KeepsClient.send _
  hget _ := PyM.KeepsClient.send _
  hgetall := PyM.KeepsClient.send _
  append := hP.parts.append
  appendFor := hP.parts.appendFor
  addRule name rule := PyM.KeepsClient.modify fun _ hc => hP.addRule name rule hc
  hset _ _ _ _ := RuleProp.execute _ _

theorem ruleCount_addRule (c : Client J) (name : UpdName) (rule : Rule J) (n : UpdName) :
    ruleCount (c.addRule name rule) n = ruleCount c n + if n = name then 1 else 0 := by
  unfold ruleCount
  by_cases hn : n = name
  · subst hn
    simp [Client.addRule]
  · simp [Client.addRule, hn]

theorem filed_ruleProp : RuleProp (Filed (J := J) c₀) where
  congr := by
    rintro c c' hsame ⟨name, hlt⟩
    exact ⟨name, by rw [ruleCount, ruleCount, hsame]; exact hlt⟩
  addRule := by
    rintro c name rule ⟨n, hlt⟩
    exact ⟨n, by rw [ruleCount_addRule]; omega⟩

def RulesKept (c₀ c : Client J) : Prop := ∀ name, ruleCount c₀ name ≤ ruleCount c name

theorem rulesKept_ruleProp : RuleProp (RulesKept (J := J) c₀) where
  congr := by
    intro c c' hsame h name
    rw [ruleCount, ruleCount, hsame]
    exact h name
  addRule := by
    intro c name rule h n
    rw [ruleCount_addRule]
    exact Nat.le_add_right_of_le (h n)

/-! ## The `for` stanzas -/

/-- A `for` stanza once the version list is extended: its rules are filed, its text is stored, and
the other stanzas follow. -/
def forStored (texts : Texts) (file : Option Bytes) (t : ForTuple J) (rest : List (ForTuple J))
    (n : Nat) (queue : List Write) : Option Unit → PyM J Bool
  | none => return false
  | some () =>
    match t.funcs with
    | none => return false
    | some funcs => do
      PyM.modify (·.addRule t.name ⟨t.glob, funcs, t.verTo⟩)
      match ← execute [(.dsl, n)] queue with
      | none => return false
      | some false => PyM.raise .responseError
      | some true => forLoop texts file rest

theorem forLoop_flaky_cons (texts : Texts) (file : Option Bytes) (t : ForTuple J)
    (rest : List (ForTuple J)) (c : Client J) (r : Redis) (fate : List Bool) :
    ((texts.find t.name = none ∨ (∃ e, texts.find t.name = some (.error e)) ∨
        ∃ joined prev, texts.find t.name = some (.ok joined) ∧
          r.dsl.lookup t.name = some prev ∧ prev ≠ joined) ∧
        ∃ e, (forLoop texts file (t :: rest)).flaky c (r, fate) = ((.error e, c), (r, fate))) ∨
      ∃ joined n queue, texts.find t.name = some (.ok joined) ∧
        (¬ ∃ prev, r.dsl.lookup t.name = some prev ∧ prev ≠ joined) ∧
        (forLoop texts file (t :: rest)).flaky c (r, fate) =
          (appendFor t >>= forStored texts file t rest n queue : PyM J Bool).flaky c (r, fate) := by
  have hwatch : ∀ k : Nat → PyM J Bool, (PyM.send (.watch .dsl) >>= k).flaky c (r, fate) =
      (k (r.touched .dsl)).flaky c (r, fate) := fun _ => rfl
  rw [forLoop, hwatch]
  rcases texts.find t.name with _ | e | joined
  · exact .inl ⟨.inl rfl, _, rfl⟩
  · exact .inl ⟨.inr (.inl ⟨e, rfl⟩), e, rfl⟩
  · simp only
    have hget : ∀ k : Option Bytes → Bytes → PyM J Bool, (do
        let prev : Option Bytes ← PyM.send (.hget t.name)
        let joined ← PyM.ofExcept (.ok joined)
        k prev joined).flaky c (r, fate) = (k (r.dsl.lookup t.name) joined).flaky c (r, fate) :=
      fun _ => rfl
    rw [hget]
    by_cases hconf : r.dsl.lookup t.name ≠ none ∧ r.dsl.lookup t.name ≠ some joined
    · obtain ⟨prev, hprev⟩ := Option.ne_none_iff_exists'.mp hconf.1
      refine .inl ⟨.inr (.inr ⟨joined, prev, rfl, hprev, ?_⟩), .valueError, ?_⟩
      · intro heq
        exact hconf.2 (by rw [hprev, heq])
      · rw [if_pos hconf]
        rfl
    · refine .inr ⟨joined, r.touched .dsl, _, rfl, ?_, by rw [if_neg hconf]; rfl⟩
      rintro ⟨prev, hprev, hne⟩
      refine hconf ⟨by rw [hprev]; simp, ?_⟩
      rw [hprev]
      simpa using hne

/-- Once the list is extended, a rule is filed or the load ends. -/
theorem forStored_traced (texts : Texts) (file : Option Bytes) {t : ForTuple J}
    (rest : List (ForTuple J)) (n : Nat) (queue : List Write) {u : Option Unit} {c₁ : Client J}
    {s₁ : Redis × List Bool} (hkept : RulesKept c₀ c₁)
    (h : Marked c₀ r₀ c₁ s₁.1 ∨ (u = some () ∧ t.funcs ≠ none)) :
    ∃ x c' s, (forStored texts file t rest n queue u).flaky c₁ s₁ = ((x, c'), s) ∧
      (Marked c₀ r₀ c' s.1 ∨ Filed c₀ c') := by
  unfold forStored
  match u, hf : t.funcs with
  | none, _ =>
    obtain h | ⟨hu, -⟩ := h
    · exact ⟨_, _, _, rfl, .inl h⟩
    · cases hu
  | some (), none =>
    obtain h | ⟨-, hfuncs⟩ := h
    · exact ⟨_, _, _, rfl, .inl h⟩
    · exact absurd hf hfuncs
  | some (), some funcs =>
    refine ⟨_, _, _, rfl, .inr ?_⟩
    have hfiled : Filed c₀ (c₁.addRule t.name ⟨t.glob, funcs, t.verTo⟩) := by
      refine ⟨t.name, ?_⟩
      have hle := hkept t.name
      rw [ruleCount_addRule, if_pos rfl]
      omega
    have hrest : PyM.KeepsClient (Filed c₀) (do
        match ← execute [(.dsl, n)] queue with
        | none => return false
        | some false => PyM.raise .responseError
        | some true => forLoop texts file rest : PyM J Bool) := by
      refine (RuleProp.execute _ _).bind fun done => ?_
      split
      · exact PyM.KeepsClient.pure _
      · exact PyM.KeepsClient.raise _
      · exact filed_ruleProp.loads.forLoop _ _ _
    exact hrest.flaky (s := s₁) hfiled rfl

/-- **A load that gets to its `for` stanzas leaves a mark or files a rule**, but for a first
stanza that is refused. -/
theorem forLoop_traced {texts : Texts} {file : Option Bytes} {t : ForTuple J}
    (rest : List (ForTuple J)) (hlong : Longer r₀ r) (hrules : RulesKept c₀ c) (fate : List Bool)
    (h : Marked c₀ r₀ c r ∨ (c = c₀ ∧ r.versions = r₀.versions ∧ r.dsl = r₀.dsl ∧
      ¬ Refused texts c₀ r₀ t)) :
    ∃ x c' s, (forLoop texts file (t :: rest)).flaky c (r, fate) = ((x, c'), s) ∧
      (Marked c₀ r₀ c' s.1 ∨ Filed c₀ c') := by
  obtain ⟨hgiven, e, hrun⟩ | ⟨joined, n, queue, htext, hconf, hrun⟩ :=
    forLoop_flaky_cons texts file t rest c r fate
  · refine ⟨_, _, _, hrun, ?_⟩
    obtain h | ⟨rfl, hv, hd, hnot⟩ := h
    · exact .inl h
    · refine absurd ?_ hnot
      unfold Refused
      rw [← hd]
      obtain hnone | ⟨e, herr⟩ | ⟨joined, prev, hok, hprev, hne⟩ := hgiven
      · rw [hnone]
        trivial
      · rw [herr]
        trivial
      · rw [hok]
        exact .inl ⟨prev, hprev, hne⟩
  · rw [hrun]
    by_cases hidle : c = c₀ ∧ r.versions = r₀.versions ∧ t.oldns = t.ns ∧
        AtVersion c₀ r₀ t.verTo t.ns
    · obtain ⟨rfl, hv, hns, hat⟩ := hidle
      have happ : (appendFor t).flaky c (r, fate) = ((.ok (some ()), c), (r, fate)) := by
        rw [appendFor, if_pos hns]
        refine append_idle ?_ fate
        rw [AtVersion, hv]
        exact hat
      rw [PyM.flaky_ok happ]
      refine forStored_traced texts file rest n queue hrules ?_
      obtain h | ⟨-, -, hd, hnot⟩ := h
      · exact .inl h
      · refine .inr ⟨rfl, fun hfuncs => hnot ?_⟩
        unfold Refused
        rw [htext]
        refine .inr ?_
        rw [if_pos hns]
        exact ⟨hat, hfuncs⟩
    · have hstart : Marked c₀ r₀ c r ∨ (c = c₀ ∧ r.versions = r₀.versions ∧
          if t.oldns = t.ns then ¬ AtVersion c₀ r₀ t.verTo t.ns
          else ¬ (r₀.versions t.ns ≠ [] ∨ r₀.versions t.oldns = [] ∨
            inFlat t.verFrom (r₀.versions t.oldns) = false)) := by
        obtain h | ⟨hc, hv, hd, hnot⟩ := h
        · exact .inl h
        · refine .inr ⟨hc, hv, ?_⟩
          split
          · rename_i hns
            exact fun hat => hidle ⟨hc, hv, hns, hat⟩
          · rename_i hns
            intro href
            refine hnot ?_
            unfold Refused
            rw [htext]
            refine .inr ?_
            rw [if_neg hns]
            exact href
      obtain ⟨x, c₁, s₁, happ, hm⟩ := appendFor_marked hlong t fate hstart
      have hkept : RulesKept c₀ c₁ := (rulesKept_ruleProp.parts.appendFor t).flaky hrules happ
      cases x with
      | error e =>
        rw [PyM.flaky_error happ]
        exact ⟨_, _, _, rfl, .inl hm⟩
      | ok u =>
        rw [PyM.flaky_ok happ]
        exact forStored_traced texts file rest n queue hkept (.inl hm)

end Marks

/-! ## The load -/

theorem checkVersions_flaky (texts : Texts) (c : Client J) (s : Redis × List Bool) :
    ((∃ q ∈ texts, c.currVersion q.1.oldns ≠ .ok q.1.old) ∧
        ∃ e, (checkVersions texts).flaky c s = ((.error e, c), s)) ∨
      (¬ (∃ q ∈ texts, c.currVersion q.1.oldns ≠ .ok q.1.old) ∧
        (checkVersions texts).flaky c s = ((.ok (), c), s)) := by
  induction texts with
  | nil => exact .inr ⟨by simp, rfl⟩
  | cons q rest ih =>
    have hread : (checkVersions (q :: rest)).flaky c s = (do
        let cur ← PyM.ofExcept (c.currVersion q.1.oldns)
        if q.1.old ≠ cur then PyM.raise .keyError else checkVersions rest : PyM J Unit).flaky c s :=
      rfl
    rw [hread]
    cases hcur : c.currVersion q.1.oldns with
    | error e => exact .inl ⟨⟨q, by simp, by rw [hcur]; simp⟩, e, rfl⟩
    | ok cur =>
      have hgo : (do
          let cur ← PyM.ofExcept (.ok cur)
          if q.1.old ≠ cur then PyM.raise .keyError else checkVersions rest : PyM J Unit).flaky c s =
          (if q.1.old ≠ cur then PyM.raise .keyError else checkVersions rest : PyM J Unit).flaky c s :=
        rfl
      rw [hgo]
      by_cases hold : q.1.old = cur
      · rw [if_neg (by simp [hold])]
        simpa [hcur, hold] using ih
      · rw [if_pos hold]
        refine .inl ⟨⟨q, by simp, ?_⟩, _, rfl⟩
        rw [hcur]
        simpa using Ne.symm hold

theorem NoTrace.refl (c : Client J) (r : Redis) : NoTrace c r c r := ⟨rfl, rfl, rfl, fun _ => rfl⟩

theorem forLoop_refused (file : Option Bytes) {t : ForTuple J} (rest : List (ForTuple J))
    {r' : Redis} (hv : r'.versions = r.versions) (hd : r'.dsl = r.dsl) (h : Refused texts c r t)
    (fate : List Bool) :
    ∃ x, (forLoop texts file (t :: rest)).flaky c (r', fate) = ((x, c), (r', fate)) := by
  obtain ⟨-, e, hrun⟩ | ⟨joined, n, queue, htext, hconf, hrun⟩ :=
    forLoop_flaky_cons texts file t rest c r' fate
  · exact ⟨_, hrun⟩
  · rw [hrun]
    unfold Refused at h
    rw [htext] at h
    obtain ⟨prev, hprev, hne⟩ | h := h
    · exact absurd ⟨prev, by rw [hd]; exact hprev, hne⟩ hconf
    · by_cases hns : t.oldns = t.ns
      · rw [if_pos hns] at h
        have hat : AtVersion c r' t.verTo t.ns := by
          rw [AtVersion, hv]
          exact h.1
        have happ : (appendFor t).flaky c (r', fate) = ((.ok (some ()), c), (r', fate)) := by
          rw [appendFor, if_pos hns]
          exact append_idle hat fate
        rw [PyM.flaky_ok happ, forStored, h.2]
        exact ⟨_, rfl⟩
      · rw [if_neg hns] at h
        have happ : (appendFor t).flaky c (r', fate) = ((.error .valueError, c), (r', fate)) := by
          rw [appendFor, if_neg hns]
          obtain ⟨-, hrun⟩ | ⟨hnew, -⟩ :=
            appendNewVersionUpdatedNs_flaky t.verFrom t.verTo hns c r' fate
          · exact hrun
          · rw [hv] at hnew
            exact absurd h hnew
        rw [PyM.flaky_error happ]
        exact ⟨_, rfl⟩

theorem doUpd_checked (htexts : d.texts = some texts)
    (hcheck : (checkVersions texts).flaky c (r, fate) = ((.ok (), c), (r, fate)))
    (hbroken : d.broken = none) :
    (doUpd py d).flaky c (r, fate) = (do
      addLoop py d.adds
      let done ← forLoop texts d.file d.fors
      return some done : PyM J (Option Bool)).flaky c (r, fate) := by
  unfold doUpd
  rw [htexts]
  simp only
  rw [PyM.flaky_ok hcheck, hbroken]

/-- A load that fails before it writes leaves no trace. -/
theorem Silent.noTrace {py : Py J} (h : Silent py d c r) (fate : List Bool) :
    NoTrace c r ((doUpd py d).flaky c (r, fate)).1.2 ((doUpd py d).flaky c (r, fate)).2.1 := by
  obtain ⟨texts, htexts, h⟩ := h
  obtain ⟨-, e, hcheck⟩ | ⟨hgood, hcheck⟩ := checkVersions_flaky texts c (r, fate)
  · unfold doUpd
    rw [htexts]
    simp only
    rw [PyM.flaky_error hcheck]
    exact NoTrace.refl c r
  · cases hbroken : d.broken with
    | some e =>
      unfold doUpd
      rw [htexts]
      simp only
      rw [PyM.flaky_ok hcheck, hbroken]
      exact NoTrace.refl c r
    | none =>
      rw [doUpd_checked py htexts hcheck hbroken]
      obtain hbad | hbad | ⟨hidle, hdata, hend⟩ := h
      · exact absurd hbad hgood
      · exact absurd hbroken hbad
      · have hbooks := addsSet_books py c d.adds r
        have hkept : NoTrace c r c (addsSet py c d.adds r).2 := ⟨rfl, hbooks.1, hbooks.2, hdata⟩
        obtain ⟨x, hadds, ⟨htrue, rfl⟩ | ⟨-, e, rfl⟩⟩ := addLoop_idle py hidle fate
        · rw [PyM.flaky_ok hadds]
          obtain hfalse | ⟨t, rest, hfors, href⟩ := hend
          · rw [htrue] at hfalse
            cases hfalse
          · obtain ⟨x, hfor⟩ := forLoop_refused d.file rest hbooks.1 hbooks.2 href fate
            obtain ⟨hclient, hserver⟩ := PyM.flaky_return (forLoop texts d.file d.fors) some c _
            rw [hclient, hserver, hfors, hfor]
            exact hkept
        · rw [PyM.flaky_error hadds]
          exact hkept

theorem forLoop_end {file : Option Bytes} {fors : List (ForTuple J)} {c₀ c₁ : Client J} {r₀ : Redis}
    {s₁ : Redis × List Bool} {x : Except PyErr Bool} (hc : NotAhead c₀ r₀)
    (hfor : (forLoop texts file fors).flaky c₁ s₁ = ((x, c'), s))
    (h : Marked c₀ r₀ c' s.1 ∨ Filed c₀ c') :
    let out := (do
      let done ← forLoop texts file fors
      return some done : PyM J (Option Bool)).flaky c₁ s₁
    ¬ NoTrace c₀ r₀ out.1.2 out.2.1 := by
  intro out
  obtain ⟨hclient, hserver⟩ := PyM.flaky_return (forLoop texts file fors) some c₁ s₁
  rw [hclient, hserver, hfor]
  obtain h | h := h
  · exact h.trace hc
  · exact h.trace

/-- A failed load that leaves no trace has not written anything. -/
theorem silent_of_noTrace {py : Py J} (hc : NotAhead c r)
    (hfailed : Failed ((doUpd py d).flaky c (r, fate)).1.1)
    (hno : NoTrace c r ((doUpd py d).flaky c (r, fate)).1.2
      ((doUpd py d).flaky c (r, fate)).2.1) : Silent py d c r := by
  cases htexts : d.texts with
  | none =>
    have hrun : (doUpd py d).flaky c (r, fate) = ((.ok none, c), (r, fate)) := by
      unfold doUpd
      rw [htexts]
      rfl
    rw [hrun] at hfailed
    cases hfailed
  | some texts =>
    refine ⟨texts, htexts, ?_⟩
    obtain ⟨hbad, -⟩ | ⟨-, hcheck⟩ := checkVersions_flaky texts c (r, fate)
    · exact .inl hbad
    · cases hbroken : d.broken with
      | some e => exact .inr (.inl (by simp))
      | none =>
        refine .inr (.inr ?_)
        rw [doUpd_checked py htexts hcheck hbroken] at hfailed hno
        have hlong : Longer r r := fun ns => Nat.le_refl _
        by_cases hidle : AddsIdle c r d.adds
        · obtain ⟨x, hadds, ⟨htrue, rfl⟩ | ⟨hfalse, e, rfl⟩⟩ := addLoop_idle py hidle fate
          · have hbooks := addsSet_books py c d.adds r
            rw [PyM.flaky_ok hadds] at hfailed hno
            cases hfors : d.fors with
            | nil =>
              rw [hfors] at hfailed
              cases hfailed
            | cons t rest =>
              rw [hfors] at hno
              by_cases href : Refused texts c r t
              · obtain ⟨x, hfor⟩ := forLoop_refused d.file rest hbooks.1 hbooks.2 href fate
                obtain ⟨hclient, hserver⟩ := PyM.flaky_return (forLoop texts d.file (t :: rest)) some c _
                rw [hclient, hserver, hfor] at hno
                exact ⟨hidle, hno.data, .inr ⟨t, rest, rfl, href⟩⟩
              · have hlong' : Longer r (addsSet py c d.adds r).2 := by
                  intro ns
                  rw [hbooks.1]
                obtain ⟨x, c', s, hfor, htrace⟩ := forLoop_traced rest hlong'
                  (fun _ => Nat.le_refl _) fate (.inr ⟨rfl, hbooks.1, hbooks.2, href⟩)
                exact absurd hno (forLoop_end hc hfor htrace)
          · refine ⟨hidle, ?_, .inl hfalse⟩
            rw [PyM.flaky_error hadds] at hno
            exact hno.data
        · -- the mark that the `add` stanzas leave is still there at the end
          obtain ⟨x, c₁, r₁, fate₁, hadds, hmark, hlong₁⟩ :=
            addLoop_marked py hlong fate (.inr ⟨rfl, rfl, hidle⟩)
          have hkept : RulesKept c c₁ :=
            (rulesKept_ruleProp.addLoop py d.adds).flaky (fun _ => Nat.le_refl _) hadds
          cases x with
          | error e =>
            rw [PyM.flaky_error hadds] at hno
            exact absurd hno (hmark.trace hc)
          | ok u =>
            rw [PyM.flaky_ok hadds] at hno
            cases hfors : d.fors with
            | nil =>
              rw [hfors] at hno
              exact absurd hno (hmark.trace hc)
            | cons t rest =>
              rw [hfors] at hno
              obtain ⟨x, c', s, hfor, htrace⟩ := forLoop_traced rest hlong₁ hkept fate₁
                (.inl hmark)
              exact absurd hno (forLoop_end hc hfor htrace)

/-- **A failed load leaves no trace exactly when it fails before it has written anything.** Any of
its transactions may be aborted. That nothing was written is enough for every client; for a client
that is not ahead of Redis it is also needed. -/
theorem failed_load_traceless_iff (py : Py J) (d : Dsl J) (c : Client J) (r : Redis)
    (fate : List Bool) :
    let out := (doUpd py d).flaky c (r, fate)
    (Silent py d c r → NoTrace c r out.1.2 out.2.1) ∧
      (NotAhead c r → Failed out.1.1 → (NoTrace c r out.1.2 out.2.1 ↔ Silent py d c r)) := by
  intro out
  have henough : Silent py d c r → NoTrace c r out.1.2 out.2.1 := fun h => h.noTrace fate
  exact ⟨henough, fun hc hfailed => ⟨fun hno => silent_of_noTrace hc hfailed hno, henough⟩⟩

end

/-- The client is at `v0` and the load starts from `v1`. -/
theorem early_load_traceless :
    let d : Dsl Bytes := { demoRename with
      texts := some [(⟨lit "v1", lit "v2", lit "a", lit "a"⟩, .ok (lit "for namespace a"))] }
    let out := (doUpd demoPy d).flaky demoOwner (demoMade, [])
    NotAhead demoOwner demoMade ∧ Failed out.1.1 ∧ Silent demoPy d demoOwner demoMade ∧
      NoTrace demoOwner demoMade out.1.2 out.2.1 := by
  intro d out
  have hc : NotAhead demoOwner demoMade := by
    intro ns l h
    obtain rfl : lit "a" = ns := by
      by_contra hne
      exact absurd h (by simp [show demoOwner.versDict = Function.update (fun _ => none) (lit "a")
        (some [(lit "v0", lit "a")]) from rfl, Ne.symm hne])
    obtain rfl : [(lit "v0", lit "a")] = l := Option.some.inj h
    decide
  have hsilent : Silent demoPy d demoOwner demoMade :=
    ⟨_, rfl, .inl ⟨_, .head _, by decide⟩⟩
  have hiff := (failed_load_traceless_iff demoPy d demoOwner demoMade []).2 hc trivial
  exact ⟨hc, trivial, hsilent, hiff.2 hsilent⟩

/-- The rename is aborted: `do_upd` returns `False`, and the client has moved to the new name. -/
theorem aborted_rename_traced :
    let out := (doUpd demoPy demoRename).flaky demoOwner (demoMade, [true])
    out.1.1 = .ok (some false) ∧ Failed out.1.1 ∧ ¬ NoTrace demoOwner demoMade out.1.2 out.2.1 := by
  intro out
  refine ⟨rfl, rfl, ?_⟩
  rintro ⟨hclient, -, -, -⟩
  have hdict : out.1.2.versDict (lit "b") = demoOwner.versDict (lit "b") := by rw [hclient]
  revert hdict
  decide

end SchemaUpdate.Lur
