import SchemaUpdate.Lur.Race

/-! # Concurrent first reads

Any number of clients read a key whose only copy is at an older version. One of their
transactions goes through; the others are aborted or never issued, and every `get`
returns the migrated value. -/

namespace SchemaUpdate.Lur

open SchemaUpdate.Lib

/-! ## The number of commands of a `get` -/

section

variable {J : Type} (py : Py J) (c : Client J) (name : Bytes) (vl : List (Ver × Ns)) {n : Nat}
  {again : GetProg} (h : again.Short n)

include h

theorem getWrite_short (w : Watch) (orig new found val : Bytes) :
    (getWrite again w orig new found val).Short (n + 2) := by
  have hdone : ∀ out, (getDone again val out).Short n := by
    intro out
    match out with
    | none => exact h
    | some true => simp [getDone, Prog.Short]
    | some false => simp [getDone, Prog.Short]
  unfold getWrite
  split
  · exact fun _ out => hdone out
  · exact fun out => (hdone out).mono (Nat.le_succ n)

theorem getLook_short (w : Watch) : (getLook py c name vl again w).Short (n + 3) := by
  intro vals
  simp only
  split
  · simp [Prog.Short]
  · simp [Prog.Short]
  · split
    · split
      · simp [Prog.Short]
      · exact getWrite_short h _ _ _ _ _
    · simp [Prog.Short]

theorem getWatch_short (left : List RKey) (w : Watch) :
    (getWatch py c name vl again left w).Short (n + 3 + left.length) := by
  induction left generalizing w with
  | nil => exact getLook_short py c name vl h w
  | cons k left ih => exact fun _ => ih _

theorem getAll_short : (getAll py c name vl again).Short (n + vl.length + 5) := by
  have hsum : n + vl.length + 5 = (n + vl.length + 4) + 1 := by omega
  rw [hsum]
  intro vals
  simp only
  split
  · split
    · exact fun _ => by simp [Prog.Short]
    · simp [Prog.Short]
  · refine (getWatch_short py c name vl h _ _).mono ?_
    simp [watchedKeys]
    omega

omit h

theorem get_short (hc : Knows c name vl) (d : Nat) :
    (get py c name d).Short (d * (vl.length + 6)) := by
  induction d with
  | zero => simp [get, Prog.Short]
  | succ d ih =>
    have hall := getAll_short py c name vl ih
    have hsum : (d + 1) * (vl.length + 6) = d * (vl.length + 6) + vl.length + 5 + 1 := by
      rw [Nat.succ_mul]
      omega
    rw [get, getOnce, hc.versions, hsum]
    split
    · rename_i hvl _
      cases hvl
      intro val
      cases val with
      | none => exact hall
      | some v =>
        simp only
        split
        · simp [Prog.Short]
        · split
          · simp [Prog.Short]
          · exact hall
    · simp [Prog.Short]
    · simp [Prog.Short]

end

/-! ## The migrated value -/

section

variable {J : Type} {py : Py J} {c : Client J}

theorem dumps_ne_placeholder (j : J) : py.dumps j ≠ placeholder := by
  intro h
  have hloads := py.loads_dumps j
  rw [h, py.loads_placeholder] at hloads
  cases hloads

theorem walkStep_ne_placeholder {name : Bytes} {prevNs ns : Ns} {st st' : Ver × Bytes} {updV : Ver}
    (h : walkStep py c name prevNs ns st updV = .ok st') (hst : st.2 ≠ placeholder) :
    st'.2 ≠ placeholder := by
  unfold walkStep at h
  split at h
  · cases h
  · obtain ⟨funcs, -, h⟩ := bind_eq_ok.mp h
    split at h
    · cases h
      exact hst
    · obtain ⟨mod, hmod, h⟩ := bind_eq_ok.mp h
      split at h
      · cases h
      · cases h
        unfold update at hmod
        split at hmod
        · cases hmod
        · obtain ⟨last, -, hmod⟩ := bind_eq_ok.mp hmod
          cases hmod
          exact dumps_ne_placeholder _

theorem migrate_ne_placeholder {name : Bytes} {vl : List (Ver × Ns)} {idx : Nat} {e : Ver × Ns}
    {v val : Bytes} (h : migrate py c name vl idx e v = .ok val) (hv : v ≠ placeholder) :
    val ≠ placeholder := by
  obtain ⟨out, hout, h⟩ := bind_eq_ok.mp h
  cases h
  exact foldlM_rel (R := fun st st' : Ver × Bytes => st.2 ≠ placeholder → st'.2 ≠ placeholder)
    (fun _ => id) (fun _ _ _ h h' hst => h' (h hst))
    (fun _ _ _ _ hstep hst => walkStep_ne_placeholder hstep hst) hout hv

end

/-! ## The reads -/

def StoredAt.oldKey {r : Redis} {ns : Ns} {cur : Ver × Ns} {vl : List (Ver × Ns)} {k : Nat}
    {e : Ver × Ns} {suffix : Bytes} {x : Item} (h : StoredAt r ns (cur :: vl) (k + 1) e suffix x)
    (hcur : cur.2 = ns) (hstar : ns = star ↔ e.2 = star) : OldKey where
  name := logicalName ns suffix
  cur := cur
  older := vl
  store := r
  index := k
  entry := e
  item := x
  current := h.current hcur
  entry_eq := h.entry
  first := h.first
  here := by
    rw [h.name.1 hstar]
    exact h.here
  only d hd hne := by
    rw [h.name.1 hstar] at hne
    exact h.only _ (nameAt_mem_copies _ hd) hne

namespace OldKey

variable {J ι : Type} [DecidableEq ι] {py : Py J} {g : OldKey} {clients : ι → Client J} {val : Bytes}

def Moved (g : OldKey) (val : Bytes) (r : Redis) : Prop :=
  r.find g.new = some ⟨val, g.item.expire⟩ ∧ r.find g.orig = none

theorem Moved.not_old {r : Redis} (h : g.Moved val r) : ¬ g.Old r := by
  rintro ⟨hnew, -⟩
  rw [h.1] at hnew
  cases hnew

theorem moved {r : Redis} (h : r.find g.orig = some g.item) :
    g.Moved val (moveAlone g.orig g.new g.item.val val r).2 := by
  refine ⟨move_find_new h val, ?_⟩
  have hlive := Redis.live_of_find h
  rw [moveAlone_store h g.orig_ne_new]
  split
  · rw [Redis.find_del, if_pos rfl]
  · rw [Redis.find_put_live (by rw [Redis.del_now]; exact hlive), if_neg g.orig_ne_new,
      Redis.find_del, if_pos rfl]

variable (py g clients val) in
/-- Before the move every `get` is under way; after it those that have ended have returned the
value. -/
structure Reading (p : Pool Cmd.Reply ι (Except PyErr (Option Bytes)) Redis) (n : Nat) : Prop where
  tame : g.Tame p.server
  state : (g.Old p.server ∧ n = 0) ∨ (g.Moved val p.server ∧ n = 1)
  procs : ∀ i, g.Asking py (clients i) p.server (p.procs i) ∨
    (g.Moved val p.server ∧ p.procs i = .ret (.ok (some val)))

/-- One command of any reader; `n` counts the transactions that went through. -/
theorem Reading.step (hc : ∀ i, Knows (clients i) g.name g.vl)
    (hm : ∀ i, migrate py (clients i) g.name g.vl (g.index + 1) g.entry g.item.val = .ok val)
    (hval : val ≠ placeholder) (p : Pool Cmd.Reply ι (Except PyErr (Option Bytes)) Redis) (n : Nat)
    (i : ι) (h : g.Reading py clients val p n) :
    g.Reading py clients val (p.step serve i)
      (n + if commits (p.procs i) p.server then 1 else 0) := by
  obtain ⟨ht, hstate, hprocs⟩ := h
  -- one read goes on while the store stays or gets moved
  have hgo : ∀ (Q : GetProg) (r' : Redis) (m : Nat), g.Later p.server r' →
      ((g.Old r' ∧ m = 0) ∨ (g.Moved val r' ∧ m = 1)) → (g.Moved val p.server → g.Moved val r') →
      (g.Asking py (clients i) r' Q ∨ (g.Moved val r' ∧ Q = .ret (.ok (some val)))) →
      g.Reading py clients val ⟨r', Function.update p.procs i Q⟩ m := by
    intro Q r' m hlater hm hmoved hQ
    refine ⟨hlater.tame ht, hm, fun j => ?_⟩
    by_cases hj : j = i
    · subst hj
      simpa using hQ
    · simp only [Function.update_of_ne hj]
      obtain h | ⟨h, hret⟩ := hprocs j
      · exact .inl (h.later hlater)
      · exact .inr ⟨hmoved h, hret⟩
  obtain hask | ⟨hdone, hret⟩ := hprocs i
  · have hstep := hask.next (hc i) ht
    rw [Pool.step_next]
    generalize commits (p.procs i) p.server = b at hstep ⊢
    generalize ((p.procs i).next serve p.server).1 = Q at hstep ⊢
    generalize ((p.procs i).next serve p.server).2 = r' at hstep ⊢
    cases hstep with
    | on h => exact hgo _ _ _ (Later.refl _) (by simpa using hstate) id (.inl h)
    | sees h hy =>
      obtain ⟨hold, -⟩ | ⟨hmv, hn⟩ := hstate
      · rw [hold.1] at h
        cases h
      · rw [hmv.1] at h
        cases h
        exact hgo _ _ _ (Later.refl _) (.inr ⟨hmv, by simpa using hn⟩) id (.inr ⟨hmv, rfl⟩)
    | hidden h hy | mark _ h hy =>
      obtain ⟨hold, -⟩ | ⟨hmv, -⟩ := hstate
      · rw [hold.1] at h
        cases h
      · rw [hmv.1] at h
        cases h
        exact absurd hy hval
    | nothing h | plants h =>
      obtain ⟨hold, -⟩ | ⟨hmv, -⟩ := hstate
      · exact absurd hold h.not_old
      · have hnew := h.new
        rw [hmv.1] at hnew
        cases hnew
    | raises _ herr =>
      rw [hm i] at herr
      cases herr
    | moves hold hok =>
      rw [hm i] at hok
      cases hok
      obtain ⟨-, rfl⟩ | ⟨hmv, -⟩ := hstate
      · exact hgo _ _ _ (Later.move hold.2 val) (.inr ⟨moved hold.2, rfl⟩) (fun _ => moved hold.2)
          (.inr ⟨moved hold.2, rfl⟩)
      · exact absurd hold hmv.not_old
    | late hnew horig _ =>
      obtain ⟨hold, -⟩ | ⟨hmv, -⟩ := hstate
      · rw [hold.2] at horig
        cases horig
      · rw [hmv.1] at hnew
        cases hnew
  · have hidle : commits (p.procs i) p.server = false := by
      rw [hret]
      rfl
    rw [Pool.step_ret serve hret, hidle]
    exact ⟨ht, by simpa using hstate, hprocs⟩

end OldKey

def execs {ι α : Type} [DecidableEq ι] (p : Pool Cmd.Reply ι α Redis) (sched : List ι) : Nat :=
  p.tally serve (fun p i => OldKey.commits (p.procs i) p.server) sched

/-- Each client is about to read the key, with room for two attempts and more. -/
def readers {J ι : Type} (py : Py J) (r : Redis) (clients : ι → Client J) (name : Bytes)
    (depth : ι → Nat) : Pool Cmd.Reply ι (Except PyErr (Option Bytes)) Redis :=
  ⟨r, fun i => get py (clients i) name (depth i + 2)⟩

/-- **Concurrent first reads migrate exactly once**, unless the copy is a placeholder. -/
theorem first_reads_migrate_once {J ι : Type} [DecidableEq ι] (py : Py J) {r : Redis} {ns : Ns}
    {cur : Ver × Ns} {vl : List (Ver × Ns)} {k : Nat} {e : Ver × Ns} {suffix v val : Bytes}
    (hstored : StoredAt r ns (cur :: vl) (k + 1) e suffix ⟨v, none⟩) (hcur : cur.2 = ns)
    (clients : ι → Client J) (hclients : ∀ i, Knows (clients i) (logicalName ns suffix) (cur :: vl))
    (hval : ∀ i, migrate py (clients i) (logicalName ns suffix) (cur :: vl) (k + 1) e v = .ok val)
    (hstar : ns = star ↔ e.2 = star) (hplace : v ≠ placeholder) (depth : ι → Nat)
    (sched : List ι) :
    let p := readers py r clients (logicalName ns suffix) depth
    let q := p.run serve sched
    execs p sched ≤ 1 ∧ (∀ i a, q.procs i = .ret a → a = .ok (some val)) ∧
      (∀ i, (depth i + 2) * (vl.length + 7) ≤ sched.count i →
        q.procs i = .ret (.ok (some val))) ∧
      ((∃ i a, q.procs i = .ret a) → execs p sched = 1 ∧
        q.server.find (versioned cur.1 (logicalName ns suffix)) = some ⟨val, none⟩ ∧
        ∀ n ∈ copies (logicalName ns suffix) (cur :: vl),
          n ≠ versioned cur.1 (logicalName ns suffix) → q.server.find n = none) := by
  intro p q
  let g := hstored.oldKey hcur hstar
  have hstart : g.Reading py clients val p 0 :=
    ⟨g.store_tame, .inl ⟨g.store_old, rfl⟩, fun i => .inl (.start (by omega) fun _ => by omega)⟩
  have hend : g.Reading py clients val q (execs p sched) := by
    have hrun : g.Reading py clients val q (0 + execs p sched) :=
      Pool.Along.inv_tally (I := g.Reading py clients val) (fun p n i h _ =>
        OldKey.Reading.step hclients hval (migrate_ne_placeholder (hval i) hplace) p n i h)
        hstart (p.along_true serve sched)
    rw [Nat.zero_add] at hrun
    exact hrun
  have hret : ∀ i a, q.procs i = .ret a → g.Moved val q.server ∧ a = .ok (some val) := by
    intro i a hi
    obtain hask | ⟨hmoved, hdone⟩ := hend.procs i
    · have hbusy := hask.busy (hclients i)
      rw [hi] at hbusy
      exact absurd hbusy (Prog.not_busy_ret _)
    · rw [hi] at hdone
      cases hdone
      exact ⟨hmoved, rfl⟩
  refine ⟨?_, fun i a hi => (hret i a hi).2, fun i hi => ?_, ?_⟩
  · obtain ⟨-, hn⟩ | ⟨-, hn⟩ := hend.state <;> omega
  · have hshort := get_short py (clients i) _ _ (hclients i) (depth i + 2)
    obtain ⟨a, ha⟩ := Pool.run_short serve (p := p) (i := i) hshort hi
    rw [← (hret i a ha).2]
    exact ha
  · rintro ⟨i, a, hi⟩
    have hmoved := (hret i a hi).1
    obtain ⟨hold, -⟩ | ⟨-, hn⟩ := hend.state
    · exact absurd hold hmoved.not_old
    · refine ⟨hn, hmoved.1, fun n hn hne => ?_⟩
      obtain rfl | rfl | hn := mem_copies_cons.mp hn
      · exact absurd rfl hne
      · exact absurd g.current hne
      · obtain ⟨d, hd, rfl⟩ := List.mem_map.mp hn
        by_cases ho : nameAt (logicalName ns suffix) d = g.orig
        · rw [ho]
          exact hmoved.2
        · exact hend.tame.others d hd ho hne

def demoReader (rules : List (Rule Bytes)) : Client Bytes :=
  { demoClient Bytes with updDict := fun n =>
      if n = ⟨lit "v0", lit "v1", lit "n", lit "n"⟩ then some rules else none }

def demoOld (v : Bytes) : Redis := (Redis.init 0).put (lit "v0|n:k") (some ⟨v, none⟩)

theorem demoOld_stored (v : Bytes) :
    StoredAt (demoOld v) (lit "n") [demoV1, demoV0] 1 demoV0 (lit "k") ⟨v, none⟩ where
  colon := by decide
  entry := rfl
  first j d hj hd := by
    obtain rfl : j = 0 := by omega
    cases hd
    decide
  here := Redis.find_put_lasting ..
  only p _ hne := by
    have hname : writtenAt demoV0 (lit "k") = lit "v0|n:k" := by decide
    rw [hname] at hne
    rw [demoOld, Redis.find_put_lasting, if_neg hne]
    rfl

def demoRule : Rule Bytes := ⟨lit "*", [fun k j => .ok ⟨some k, j ++ [49], j ++ [49]⟩], lit "v1"⟩

def demoReaders (v : Bytes) (rules : List (Rule Bytes)) :
    Pool Cmd.Reply Bool (Except PyErr (Option Bytes)) Redis :=
  readers demoPy (demoOld v) (fun _ => demoReader rules) (logicalName (lit "n") (lit "k")) fun _ => 0

def demoSched : List Bool :=
  [true, true, true] ++ List.replicate 16 false ++ List.replicate 16 true

theorem demo_first_reads : execs (demoReaders (lit "\"0\"") [demoRule]) demoSched = 1 ∧
    ((demoReaders (lit "\"0\"") [demoRule]).run serve demoSched).procs true =
      .ret (.ok (some (lit "\"01\""))) := by
  have hc : ∀ _ : Bool, Knows (demoReader [demoRule]) (logicalName (lit "n") (lit "k"))
      [demoV1, demoV0] := fun _ => demoClient_knows Bytes
  have hval : ∀ _ : Bool, migrate demoPy (demoReader [demoRule])
      (logicalName (lit "n") (lit "k")) [demoV1, demoV0] 1 demoV0 (lit "\"0\"") =
        .ok (lit "\"01\"") := fun _ => rfl
  have h := first_reads_migrate_once (ι := Bool) demoPy (demoOld_stored (lit "\"0\"")) rfl
    (fun _ => demoReader [demoRule]) hc hval (by decide) (by decide) (fun _ => 0) demoSched
  have hdone := h.2.2.1 true (by decide)
  exact ⟨(h.2.2.2 ⟨true, _, hdone⟩).1, hdone⟩

/-- The copy is a placeholder: the first `get` returns it, the other one nothing. -/
theorem placeholder_read_twice :
    let q := (demoReaders placeholder []).run serve (List.replicate 8 true ++ [false])
    StoredAt (demoOld placeholder) (lit "n") [demoV1, demoV0] 1 demoV0 (lit "k")
        ⟨placeholder, none⟩ ∧
      migrate demoPy (demoReader []) (logicalName (lit "n") (lit "k")) [demoV1, demoV0] 1 demoV0
        placeholder = .ok placeholder ∧
      q.procs true = .ret (.ok (some placeholder)) ∧ q.procs false = .ret (.ok none) :=
  ⟨demoOld_stored placeholder, rfl, rfl, rfl⟩

end SchemaUpdate.Lur
