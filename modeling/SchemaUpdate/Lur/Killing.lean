import SchemaUpdate.Lur.Client

/-! # The names of the clients

A client advertises its namespaces and their current versions in its connection name,
`ns:v|ns:v`. A load reads the names of all connected clients back and kills those at a
version it has made old. -/

namespace SchemaUpdate.Lur

open SchemaUpdate.Lib

/-- `ns_versions_dict` in the order of its iteration, every version list with its head; the
characters the client name is put together with do not stand in its parts. -/
structure NsDict where
  entries : List (Ns × (Ver × Ns) × List (Ver × Ns))
  nodup : (entries.map Prod.fst).Nodup
  plain : ∀ e ∈ entries, bar ∉ e.1 ∧ bar ∉ e.2.1.1 ∧ colon ∉ e.2.1.1

def NsDict.current (d : NsDict) : List (Ns × Ver) := d.entries.map fun e => (e.1, e.2.1.1)

def advert (p : Ns × Ver) : Bytes := p.1 ++ colon :: p.2

def nsDictAsString (d : NsDict) : Bytes :=
  (d.entries.foldl (fun ret e => ret ++ (e.1 ++ colon :: e.2.1.1 ++ [bar])) []).dropLast

/-- One part of a name; `rfind` is `-1` when there is no colon. -/
def nameSplit (s : Bytes) : Ns × Ver :=
  match rsplit colon s with
  | some p => p
  | none => (s.dropLast, s)

def nameToDict (name : Bytes) : Dict Ns Ver :=
  (name.splitOn bar).foldl (fun d s => d.insert (nameSplit s).1 (nameSplit s).2) ∅

/-! ## Reading a name back -/

theorem foldl_append_flatMap {α : Type} (f : α → Bytes) (l : List α) (start : Bytes) :
    l.foldl (fun ret e => ret ++ f e) start = start ++ l.flatMap f := by
  induction l generalizing start with
  | nil => simp
  | cons e l ih => rw [List.foldl_cons, ih, List.flatMap_cons, List.append_assoc]

theorem dropLast_ended (sep : UInt8) (l : List Bytes) :
    (l.flatMap (· ++ [sep])).dropLast = [sep].intercalate l := by
  induction l with
  | nil => rfl
  | cons a l ih =>
    cases l with
    | nil => simp
    | cons b l =>
      rw [List.flatMap_cons, List.dropLast_append_of_ne_nil (by simp), ih]
      simp [List.intercalate]

theorem nsDictAsString_eq (d : NsDict) :
    nsDictAsString d = [bar].intercalate (d.current.map advert) := by
  have hparts : d.entries.flatMap (fun e => e.1 ++ colon :: e.2.1.1 ++ [bar]) =
      (d.current.map advert).flatMap (· ++ [bar]) := by
    rw [NsDict.current, List.map_map, List.flatMap_map]
    rfl
  rw [nsDictAsString, foldl_append_flatMap, List.nil_append, hparts, dropLast_ended]

variable {d : NsDict}

theorem splitOn_nsDictAsString (hd : d.entries ≠ []) :
    (nsDictAsString d).splitOn bar = d.current.map advert := by
  rw [nsDictAsString_eq]
  refine List.splitOn_intercalate bar ?_ (by simpa [NsDict.current] using hd)
  intro l hl
  obtain ⟨p, hp, rfl⟩ := List.mem_map.mp hl
  obtain ⟨e, he, rfl⟩ := List.mem_map.mp hp
  obtain ⟨hns, hv, -⟩ := d.plain e he
  have hcolon : bar ≠ colon := by decide
  simp only [advert, List.mem_append, List.mem_cons, not_or]
  exact ⟨hns, hcolon, hv⟩

theorem nameSplit_advert {p : Ns × Ver} (hp : p ∈ d.current) : nameSplit (advert p) = p := by
  obtain ⟨e, he, rfl⟩ := List.mem_map.mp hp
  rw [nameSplit, advert, rsplit_append (d.plain e he).2.2]

theorem entries_foldl_insert {ps : List (Ns × Ver)} {m : Dict Ns Ver}
    (hps : (ps.map Prod.fst).Nodup) (hfresh : ∀ p ∈ ps, p.1 ∉ m) :
    (ps.foldl (fun d p => d.insert p.1 p.2) m).entries =
      (ps.map fun p => (⟨p.1, p.2⟩ : Sigma fun _ => Ver)).reverse ++ m.entries := by
  induction ps generalizing m with
  | nil => rfl
  | cons p ps ih =>
    obtain ⟨hp, hps⟩ := List.nodup_cons.mp hps
    rw [List.foldl_cons, ih hps, AList.entries_insert_of_notMem (hfresh p (by simp))]
    · simp
    · intro q hq
      have hne : q.1 ≠ p.1 := fun h => hp (h ▸ List.mem_map_of_mem hq)
      rw [AList.mem_insert]
      exact not_or.mpr ⟨hne, hfresh q (by simp [hq])⟩

theorem entries_nameToDict (hd : d.entries ≠ []) :
    (nameToDict (nsDictAsString d)).entries =
      (d.current.map fun p => (⟨p.1, p.2⟩ : Sigma fun _ => Ver)).reverse := by
  have hnodup : (d.current.map Prod.fst).Nodup := by
    rw [NsDict.current, List.map_map]
    exact d.nodup
  have hfold : nameToDict (nsDictAsString d) =
      d.current.foldl (fun m p => m.insert p.1 p.2) ∅ := by
    rw [nameToDict, splitOn_nsDictAsString hd, List.foldl_map]
    refine List.foldl_ext _ _ _ fun m p hp => ?_
    rw [nameSplit_advert hp]
  rw [hfold, entries_foldl_insert hnodup fun p _ => AList.notMem_empty p.1]
  exact List.append_nil _

theorem nameToDict_lookup (hd : d.entries ≠ []) (ns : Ns) (v : Ver) :
    (nameToDict (nsDictAsString d)).lookup ns = some v ↔ (ns, v) ∈ d.current := by
  rw [← Dict.mem_entries, entries_nameToDict hd]
  simp

/-! ## Killing -/

/-- A line of `CLIENT LIST`. -/
structure Conn where
  addr : Bytes
  name : Bytes

/-- The connections that stand, the `CLIENT KILL`s sent, and the exception that has left the
loops. -/
structure Killing where
  alive : List Bytes
  issued : List Bytes
  raised : Option PyErr

/-- `client_kill`: there is an error reply for a client that is gone. -/
def Killing.clientKill (st : Killing) (addr : Bytes) : Killing :=
  if st.raised.isSome then st
  else if addr ∈ st.alive then ⟨st.alive.erase addr, st.issued ++ [addr], none⟩
  else ⟨st.alive, st.issued ++ [addr], some .responseError⟩

/-- The turn of `kill_connected_clients_at` for one client; the control channel has no name. -/
def killClient (updated : List (Ns × Ver)) (st : Killing) (c : Conn) : Killing :=
  if c.name = [] then st
  else
    (nameToDict c.name).entries.foldl
      (fun st e => if (e.1, e.2) ∈ updated then st.clientKill c.addr else st) st

def killConnectedClientsAt (updated : List (Ns × Ver)) (clients : List Conn) : Killing :=
  clients.foldl (killClient updated) ⟨clients.map (·.addr), [], none⟩

/-- A connected client that is named after its dictionary. -/
structure Peer where
  addr : Bytes
  dict : NsDict

def Peer.conn (p : Peer) : Conn := ⟨p.addr, nsDictAsString p.dict⟩

def Peer.outdated (updated : List (Ns × Ver)) (p : Peer) : List (Ns × Ver) :=
  p.dict.current.filter (· ∈ updated)

section Turn

variable {updated : List (Ns × Ver)} {p : Peer} {st : Killing}

theorem Killing.clientKill_raised (h : st.raised ≠ none) (addr : Bytes) :
    st.clientKill addr = st := by
  rw [Killing.clientKill, if_pos (Option.isSome_iff_ne_none.mpr h)]

theorem foldl_clientKill_raised (h : st.raised ≠ none) (addr : Bytes) (l : List (Ns × Ver)) :
    l.foldl (fun st _ => st.clientKill addr) st = st := by
  induction l with
  | nil => rfl
  | cons x l ih => rw [List.foldl_cons, Killing.clientKill_raised h, ih]

theorem nsDictAsString_eq_nil (d : NsDict) : nsDictAsString d = [] ↔ d.entries = [] := by
  constructor
  · intro h
    by_contra hd
    have hsplit := splitOn_nsDictAsString hd
    obtain ⟨e, es, he⟩ := List.exists_cons_of_ne_nil hd
    rw [h] at hsplit
    simp [NsDict.current, he, advert] at hsplit
  · intro h
    simp [nsDictAsString, h]

theorem killClient_conn (updated : List (Ns × Ver)) (st : Killing) (p : Peer) :
    killClient updated st p.conn =
      (p.outdated updated).reverse.foldl (fun st _ => st.clientKill p.addr) st := by
  unfold killClient
  split
  · rename_i hname
    have hd := (nsDictAsString_eq_nil p.dict).mp hname
    simp [Peer.outdated, NsDict.current, hd]
  · rename_i hname
    have hd : p.dict.entries ≠ [] := fun h => hname ((nsDictAsString_eq_nil p.dict).mpr h)
    have hentries : (nameToDict p.conn.name).entries = _ := entries_nameToDict hd
    rw [hentries, ← List.map_reverse, List.foldl_map, Peer.outdated, ← List.filter_reverse,
      List.foldl_filter]
    simp only [decide_eq_true_eq]
    rfl

theorem killClient_none (h : p.outdated updated = []) :
    killClient updated st p.conn = st := by
  rw [killClient_conn, h]
  rfl

theorem killClient_one (h : (p.outdated updated).length = 1) (hr : st.raised = none)
    (ha : p.addr ∈ st.alive) :
    killClient updated st p.conn = ⟨st.alive.erase p.addr, st.issued ++ [p.addr], none⟩ := by
  obtain ⟨x, hx⟩ := List.length_eq_one_iff.mp h
  rw [killClient_conn, hx, List.reverse_singleton, List.foldl_cons, List.foldl_nil,
    Killing.clientKill, hr, if_neg (by simp), if_pos ha]

theorem killClient_more (h : 1 < (p.outdated updated).length) (hr : st.raised = none)
    (ha : p.addr ∈ st.alive) (hnodup : st.alive.Nodup) :
    (killClient updated st p.conn).issued = st.issued ++ [p.addr, p.addr] ∧
      (killClient updated st p.conn).raised ≠ none := by
  have hlen : 1 < (p.outdated updated).reverse.length := by rwa [List.length_reverse]
  obtain ⟨x, y, l, hl⟩ : ∃ x y l, (p.outdated updated).reverse = x :: y :: l := by
    cases hrev : (p.outdated updated).reverse with
    | nil => simp [hrev] at hlen
    | cons x l =>
      cases l with
      | nil => simp [hrev] at hlen
      | cons y l => exact ⟨x, y, l, rfl⟩
  have hgone : p.addr ∉ st.alive.erase p.addr := hnodup.not_mem_erase
  have htwo : (st.clientKill p.addr).clientKill p.addr =
      ⟨st.alive.erase p.addr, st.issued ++ [p.addr] ++ [p.addr], some .responseError⟩ := by
    rw [Killing.clientKill, Killing.clientKill, hr]
    simp [ha, hgone]
  rw [killClient_conn, hl, List.foldl_cons, List.foldl_cons, htwo,
    foldl_clientKill_raised (by simp)]
  simp

theorem killClient_raised (h : st.raised ≠ none) : killClient updated st p.conn = st := by
  rw [killClient_conn, foldl_clientKill_raised h]

end Turn

/-! ## The loop over the clients -/

/-- The state before the clients `ps`: all of them are connected, none was killed. -/
structure Before (ps : List Peer) (st : Killing) : Prop where
  going : st.raised = none
  nodup : st.alive.Nodup
  alive : ∀ p ∈ ps, p.addr ∈ st.alive
  fresh : ∀ p ∈ ps, p.addr ∉ st.issued
  apart : (ps.map (·.addr)).Nodup

section Loop

variable {updated : List (Ns × Ver)} {ps : List Peer} {p : Peer} {st : Killing}

theorem Before.skip (h : Before (p :: ps) st) : Before ps st where
  going := h.going
  nodup := h.nodup
  alive q hq := h.alive q (List.mem_cons_of_mem p hq)
  fresh q hq := h.fresh q (List.mem_cons_of_mem p hq)
  apart := (List.nodup_cons.mp h.apart).2

theorem Before.kill (h : Before (p :: ps) st) :
    Before ps ⟨st.alive.erase p.addr, st.issued ++ [p.addr], none⟩ := by
  have hne : ∀ q ∈ ps, q.addr ≠ p.addr := by
    intro q hq heq
    exact (List.nodup_cons.mp h.apart).1 (List.mem_map.mpr ⟨q, hq, heq⟩)
  refine ⟨rfl, h.nodup.erase _, fun q hq => ?_, fun q hq => ?_, h.skip.apart⟩
  · exact (List.mem_erase_of_ne (hne q hq)).mpr (h.skip.alive q hq)
  · simpa [hne q hq] using h.skip.fresh q hq

theorem foldl_killClient_raised (h : st.raised ≠ none) (ps : List Peer) :
    (ps.map Peer.conn).foldl (killClient updated) st = st := by
  induction ps with
  | nil => rfl
  | cons p ps ih => rw [List.map_cons, List.foldl_cons, killClient_raised h, ih]

theorem Before.once (h : Before ps st) (hone : ∀ p ∈ ps, (p.outdated updated).length ≤ 1) :
    ((ps.map Peer.conn).foldl (killClient updated) st).issued =
      st.issued ++ (ps.filter fun p => p.outdated updated ≠ []).map (·.addr) := by
  induction ps generalizing st with
  | nil => simp
  | cons p ps ih =>
    have hrest := fun q hq => hone q (List.mem_cons_of_mem p hq)
    rw [List.map_cons, List.foldl_cons]
    by_cases hp : p.outdated updated = []
    · rw [killClient_none hp, ih h.skip hrest, List.filter_cons_of_neg (by simp [hp])]
    · have hlen : (p.outdated updated).length = 1 :=
        Nat.le_antisymm (hone p (by simp)) (List.length_pos_iff.mpr hp)
      rw [killClient_one hlen h.going (h.alive p (by simp)), ih h.kill hrest,
        List.filter_cons_of_pos (by simp [hp])]
      simp

theorem Before.twice (h : Before ps st) (hmore : ∃ p ∈ ps, 1 < (p.outdated updated).length) :
    ∃ p ∈ ps, 1 < (((ps.map Peer.conn).foldl (killClient updated) st).issued).count p.addr := by
  induction ps generalizing st with
  | nil =>
    obtain ⟨p, hp, -⟩ := hmore
    cases hp
  | cons p ps ih =>
    rw [List.map_cons, List.foldl_cons]
    by_cases hp : 1 < (p.outdated updated).length
    · obtain ⟨hissued, hraised⟩ := killClient_more hp h.going (h.alive p (by simp)) h.nodup
      refine ⟨p, by simp, ?_⟩
      rw [foldl_killClient_raised hraised, hissued]
      simp
    · have hmore : ∃ q ∈ ps, 1 < (q.outdated updated).length := by
        obtain ⟨q, hq, hlen⟩ := hmore
        rcases List.mem_cons.mp hq with rfl | hq
        · exact absurd hlen hp
        · exact ⟨q, hq, hlen⟩
      have htail : ∃ q ∈ ps, 1 < (((ps.map Peer.conn).foldl (killClient updated)
          (killClient updated st p.conn)).issued).count q.addr := by
        by_cases hnil : p.outdated updated = []
        · rw [killClient_none hnil]
          exact ih h.skip hmore
        · have hlen : (p.outdated updated).length = 1 :=
            Nat.le_antisymm (Nat.not_lt.mp hp) (List.length_pos_iff.mpr hnil)
          rw [killClient_one hlen h.going (h.alive p (by simp))]
          exact ih h.kill hmore
      obtain ⟨q, hq, hcount⟩ := htail
      exact ⟨q, List.mem_cons_of_mem p hq, hcount⟩

end Loop

/-- **A name is read back as the dictionary it was made from; and every client at an updated pair
is killed exactly once, and no other, iff no client is at two updated pairs.** -/
theorem clients_killed_once (peers : List Peer) (updated : List (Ns × Ver))
    (hnodup : (peers.map (·.addr)).Nodup) :
    (∀ (d : NsDict), d.entries ≠ [] → ∀ ns v,
      (nameToDict (nsDictAsString d)).lookup ns = some v ↔ (ns, v) ∈ d.current) ∧
    ((∀ addr, ((killConnectedClientsAt updated (peers.map Peer.conn)).issued).count addr =
        if ∃ p ∈ peers, p.addr = addr ∧ p.outdated updated ≠ [] then 1 else 0) ↔
      ∀ p ∈ peers, (p.outdated updated).length ≤ 1) := by
  refine ⟨fun d hd => nameToDict_lookup hd, ?_⟩
  have hstart : Before peers ⟨(peers.map Peer.conn).map (·.addr), [], none⟩ := by
    rw [List.map_map]
    exact ⟨rfl, hnodup, fun p hp => List.mem_map_of_mem hp, fun _ _ => List.not_mem_nil, hnodup⟩
  constructor
  · intro hcount
    by_contra hmore
    push Not at hmore
    obtain ⟨p, hp, htwo⟩ := hstart.twice hmore
    have hle := hcount p.addr
    rw [killConnectedClientsAt] at hle
    split at hle <;> omega
  · intro hone addr
    rw [killConnectedClientsAt, hstart.once hone, List.nil_append]
    have hsub : ((peers.filter fun p => p.outdated updated ≠ []).map (·.addr)).Nodup :=
      hnodup.sublist (List.filter_sublist.map _)
    rw [hsub.count]
    refine if_congr ?_ rfl rfl
    simp only [List.mem_map, List.mem_filter, decide_eq_true_eq]
    constructor
    · rintro ⟨p, ⟨hp, ho⟩, ha⟩
      exact ⟨p, hp, ha, ho⟩
    · rintro ⟨p, hp, ha, ho⟩
      exact ⟨p, ⟨hp, ho⟩, ha⟩

def twoSpaces : NsDict where
  entries := [(lit "a", (lit "v0", lit "a"), []), (lit "b", (lit "v0", lit "b"), [])]
  nodup := by decide
  plain := by decide

/-- A client of two namespaces, one of which is updated, is killed once. -/
theorem killed_once :
    ((killConnectedClientsAt [(lit "a", lit "v0")]
      ([⟨lit "1", twoSpaces⟩].map Peer.conn)).issued).count (lit "1") = 1 := by
  have h := (clients_killed_once [⟨lit "1", twoSpaces⟩] [(lit "a", lit "v0")] (by decide)).2.mpr
    (by decide) (lit "1")
  rwa [if_pos ⟨_, List.mem_singleton_self _, rfl, by decide⟩] at h

/-- When both are updated it is killed twice, the second time in vain, and the client after it
is not killed. -/
theorem killed_twice :
    (killConnectedClientsAt [(lit "a", lit "v0"), (lit "b", lit "v0")]
      ([⟨lit "1", twoSpaces⟩, ⟨lit "2", twoSpaces⟩].map Peer.conn)).issued =
        [lit "1", lit "1"] ∧
    (killConnectedClientsAt [(lit "a", lit "v0"), (lit "b", lit "v0")]
      ([⟨lit "1", twoSpaces⟩, ⟨lit "2", twoSpaces⟩].map Peer.conn)).raised =
        some .responseError := by
  decide +kernel

end SchemaUpdate.Lur
