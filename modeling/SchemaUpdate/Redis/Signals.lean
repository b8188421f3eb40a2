import SchemaUpdate.Redis.Command

/-! # Keys that commands announce as modified

`signalModifiedKey` in the commands: which of them call it on the key they worked on, and
when. What a client can read under a key changes in no other case. -/

namespace SchemaUpdate.Redis

open SchemaUpdate.Lib

/-- What a client can read of a value: its encoding is left out. -/
inductive Content
  | str (b : Bytes)
  | list (l : List Bytes)
  | set (l : List Bytes)
  | hash (l : List (Bytes × Bytes))
  | zset (l : List (Bytes × Double))
  deriving DecidableEq

def Val.content : Val → Content
  | .str s => .str s.bytes
  | .list _ xs => .list xs.1
  | .set _ ms => .set ms.items
  | .hash _ fs => .hash fs.items
  | .zset _ ms => .zset ms.items

def shownIn (now : Int) (db : Db) (k : Bytes) : Option Content :=
  (liveEntry now db k).map (·.obj.val.content)

/-- The act leaves what can be read as it is. -/
def Act.Silent (cur : Option Val) : Act → Prop
  | .keep => True
  | .modify v => ∀ w, cur = some w → v.content = w.content
  | _ => False

theorem liveEntry_live (now : Int) (db : Db) (k : Bytes) :
    (liveEntry now db k).filter (·.alive now) = liveEntry now db k := by
  unfold liveEntry
  rw [Option.filter_filter]
  simp

variable {k : Bytes} {cfg : Cfg} {n : Nat}

theorem Act.Silent.shown {now : Int} {db : Db} {tag : Int} {a : Act}
    (h : a.Silent ((liveEntry now db k).map (·.obj.val))) (j : Bytes) :
    shownIn now (a.run now db k tag) j = shownIn now db j := by
  unfold shownIn
  by_cases hj : j = k
  · subst hj
    rw [show liveEntry now (a.run now db j tag) j =
      (a.apply tag (liveEntry now db j)).filter (·.alive now) by
        rw [liveEntry, Act.lookup_run, if_pos rfl]]
    cases a with
    | keep => rw [Act.apply, liveEntry_live]
    | modify v =>
      have hlive := liveEntry_live now db j
      cases he : liveEntry now db j with
      | none => rfl
      | some e =>
        rw [he] at h hlive
        have hal : e.alive now = true := by simpa [Option.filter] using hlive
        have hal' : Entry.alive now { e with obj := { e.obj with val := v } } = true := hal
        simp only [Act.apply, Option.map_some, Option.filter, hal', if_true, h _ rfl]
    | _ => exact h.elim
  · rw [liveEntry, liveEntry, Act.lookup_run, if_neg hj]

theorem Act.shown_run_ne (now : Int) (db : Db) {j : Bytes} (tag : Int) (a : Act) (h : j ≠ k) :
    shownIn now (a.run now db k tag) j = shownIn now db j := by
  rw [shownIn, shownIn, liveEntry, liveEntry, Act.lookup_run, if_neg h]

/-! ## When a command calls `signalModifiedKey` -/

def Act.stores : Act → Bool
  | .keep => false
  | _ => true

def counted : Reply → Bool
  | [.int n] => 0 < n
  | _ => false

/-- `added || updated` in `zaddGenericCommand`. -/
def zaddTouches (cfg : Cfg) : List (Bytes × Double) → ZsetEnc × Scored → Bool
  | [], _ => false
  | (m, s) :: l, z =>
    m ∉ z.2.keys || ((z.2.find? m).map fun x => cfg.deq s x.2) ≠ some true ||
      zaddTouches cfg l ((zaddOne cfg z.1 z.2 m s).1, (zaddOne cfg z.1 z.2 m s).2.1)

def zaddSignals (cfg : Cfg) (l : List (Bytes × Double)) : Option Val → Bool
  | none => !l.isEmpty
  | some (.zset enc ms) => zaddTouches cfg l (enc, ms)
  | some _ => false

/-- Whether a command signals a key, from the value it finds there and what comes of it. -/
def signals (cfg : Cfg) (cmd : Cmd) (args : List Arg) (cur : Option Val) (out : Reply × Act) :
    Bool :=
  match cmd with
  | .sadd | .srem | .hdel | .zrem => counted out.1
  | .lset => out.1 = ok
  | .zadd =>
    match parseScores cfg (args.tail.map (·.ptr)) with
    | some l => zaddSignals cfg l cur
    | none => false
  | _ => out.2.stores

theorem Act.silent_of_not_stores {a : Act} (h : a.stores = false) (cur : Option Val) :
    a.Silent cur := by
  cases a with
  | keep => trivial
  | _ => cases h

/-! ## Commands that signal by a count -/

theorem counted_natCast (n : Nat) : counted [.int n] = decide (0 < n) := by
  simp [counted]

theorem saddAll_count (cfg : Cfg) (vs : List Bytes) (s : SetEnc × Members) (n : Nat) :
    n ≤ (saddAll cfg vs s n).2.2 ∧ ((saddAll cfg vs s n).2.2 = n → (saddAll cfg vs s n).2.1 = s.2) := by
  induction vs generalizing s n with
  | nil => exact ⟨Nat.le_refl n, fun _ => rfl⟩
  | cons v vs ih =>
    rw [saddAll]
    by_cases hv : v ∈ s.2.keys
    · simp only [setTypeAdd, hv, dite_true, Bool.false_eq_true, if_false]
      exact ih _ n
    · simp only [setTypeAdd, hv, dite_false, if_true]
      generalize hs : (_, _) = s'
      have hle := (ih s' (n + 1)).1
      exact ⟨by omega, fun h => by omega⟩

theorem sadd_silent (cfg : Cfg) (vs : List Bytes) (cur : Option Val)
    (h : counted (saddProc cfg vs cur).1 = false) : (saddProc cfg vs cur).2.Silent cur := by
  unfold saddProc at h ⊢
  split
  · cases vs with
    | nil => trivial
    | cons v vs =>
      have hle := (saddAll_count cfg vs (setTypeCreate cfg v, .single v) 1).1
      simp only [counted_natCast, decide_eq_false_iff_not] at h
      omega
  · rename_i enc ms
    simp only [counted_natCast, decide_eq_false_iff_not] at h
    intro w hw
    cases hw
    have hsame := (saddAll_count cfg vs (enc, ms) 0).2 (by omega)
    simp only [Val.content, hsame]
  · trivial

theorem remAll_count {β : Type} {κ : β → Bytes} {all : List Bytes → Coll κ → Nat → Option (Coll κ) × Nat}
    (hnil : ∀ ms n, all [] ms n = (some ms, n))
    (hcons : ∀ v vs ms n, all (v :: vs) ms n = if v ∈ ms.keys then
      (ms.remove v).elim (none, n + 1) fun ms' => all vs ms' (n + 1) else all vs ms n)
    (vs : List Bytes) (ms : Coll κ) (n : Nat) :
    n ≤ (all vs ms n).2 ∧ ((all vs ms n).2 = n → (all vs ms n).1 = some ms) := by
  induction vs generalizing ms n with
  | nil => simp [hnil]
  | cons v vs ih =>
    rw [hcons]
    split
    · cases ms.remove v with
      | none => simp
      | some ms' =>
        have hle := (ih ms' (n + 1)).1
        simp only [Option.elim]
        exact ⟨by omega, fun h => by omega⟩
    · exact ih ms n

theorem srem_silent (vs : List Bytes) (cur : Option Val)
    (h : counted (sremProc vs cur).1 = false) : (sremProc vs cur).2.Silent cur := by
  unfold sremProc onSet at h ⊢
  split
  · trivial
  · rename_i enc ms
    simp only [counted_natCast, decide_eq_false_iff_not] at h
    have hsame : (sremAll vs ms 0).1 = some ms := by
      refine (remAll_count (fun _ _ => rfl) (fun v _ ms _ => ?_) vs ms 0).2 (by omega)
      rw [sremAll]
      cases ms.remove v <;> rfl
    simp only [hsame, storeSet]
    intro w hw
    cases hw
    rfl
  · trivial

theorem hdel_silent (l : List Bytes) (cur : Option Val)
    (h : counted (hdelProc l cur).1 = false) : (hdelProc l cur).2.Silent cur := by
  unfold hdelProc onHash at h ⊢
  split
  · trivial
  · rename_i enc fs
    simp only [counted_natCast, decide_eq_false_iff_not] at h
    have hsame : (hdelAll l fs 0).1 = some fs := by
      refine (remAll_count (fun _ _ => rfl) (fun v _ ms _ => ?_) l fs 0).2 (by omega)
      rw [hdelAll]
      cases ms.remove v <;> rfl
    simp only [hsame, storeHash]
    intro w hw
    cases hw
    rfl
  · trivial

theorem zrem_silent (l : List Bytes) (cur : Option Val)
    (h : counted (zremProc l cur).1 = false) : (zremProc l cur).2.Silent cur := by
  unfold zremProc onZset at h ⊢
  split
  · trivial
  · rename_i enc ms
    simp only [counted_natCast, decide_eq_false_iff_not] at h
    have hsame : (zremAll l ms 0).1 = some ms := by
      refine (remAll_count (fun _ _ => rfl) (fun v _ ms _ => ?_) l ms 0).2 (by omega)
      rw [zremAll]
      cases ms.remove v <;> rfl
    simp only [hsame, storeZset]
    intro w hw
    cases hw
    rfl
  · trivial

/-! ## Lists and sorted sets -/

theorem storeList_silent (enc enc' : ListEnc) (xs : NEList Bytes) :
    (storeList true (enc', xs.1)).Silent (some (.list enc xs)) := by
  rw [storeList, NEList.ofList?, dif_pos xs.2]
  simp only [if_true]
  intro w hw
  cases hw
  rfl

theorem linsert_silent (cfg : Cfg) (pivot v : Bytes) (cur : Option Val)
    (h : counted (linsertBeforeProc cfg pivot v cur).1 = false) :
    (linsertBeforeProc cfg pivot v cur).2.Silent cur := by
  unfold linsertBeforeProc onList at h ⊢
  split
  · trivial
  · rename_i enc xs
    simp only at h ⊢
    split
    · rename_i hmem
      rw [if_pos hmem] at h
      simp [counted] at h
      omega
    · exact storeList_silent enc _ xs
  · trivial

theorem lrem_silent (v : Bytes) (cur : Option Val) (h : counted (lremOneProc v cur).1 = false) :
    (lremOneProc v cur).2.Silent cur := by
  unfold lremOneProc onList at h ⊢
  split
  · trivial
  · rename_i enc xs
    simp only at h ⊢
    split
    · rename_i hmem
      rw [if_pos hmem] at h
      cases h
    · trivial
  · trivial

theorem lset_silent (cfg : Cfg) (index v : Bytes) (cur : Option Val)
    (h : (lsetProc cfg index v cur).1 ≠ ok) : (lsetProc cfg index v cur).2.Silent cur := by
  unfold lsetProc onList at h ⊢
  split
  · trivial
  · rename_i enc xs
    simp only at h ⊢
    cases hi : strtoll index with
    | none => trivial
    | some i =>
      simp only [hi] at h ⊢
      split
      · split
        · trivial
        · exact storeList_silent enc _ xs
      · rename_i j hj
        simp only [hj, ne_eq, not_true_eq_false] at h
  · trivial

theorem zaddOne_untouched {enc : ZsetEnc} {ms : Scored} {m : Bytes} {s : Double} (hm : m ∈ ms.keys)
    (hs : ((ms.find? m).map fun x => cfg.deq s x.2) = some true) :
    zaddOne cfg enc ms m s = (enc, ms, false) := by
  rw [zaddOne, dif_pos hm, if_pos hs]

theorem zaddAll_untouched {l : List (Bytes × Double)} {z : ZsetEnc × Scored}
    (h : zaddTouches cfg l z = false) : (zaddAll cfg l z n).2.1 = z.2 := by
  induction l generalizing z n with
  | nil => rfl
  | cons p l ih =>
    obtain ⟨m, s⟩ := p
    simp only [zaddTouches, Bool.or_eq_false_iff, decide_eq_false_iff_not, not_not] at h
    obtain ⟨⟨hm, hs⟩, hl⟩ := h
    rw [zaddOne_untouched hm hs] at hl
    rw [zaddAll, zaddOne_untouched hm hs]
    exact ih hl

theorem zadd_silent (cfg : Cfg) (l : List (Bytes × Double)) (cur : Option Val)
    (h : zaddSignals cfg l cur = false) : (zaddProc cfg l cur).2.Silent cur := by
  unfold zaddProc
  split
  · cases l with
    | nil => trivial
    | cons p l => cases h
  · rename_i enc ms
    intro w hw
    cases hw
    have hsame := zaddAll_untouched (n := 0) (show zaddTouches cfg l (enc, ms) = false from h)
    simp only [Val.content, hsame]
  · trivial

/-! ## The command table -/

variable {combine : List Reply → Reply} {steps : List Step}

theorem mem_one {tag : Int} {p : KeyProc}
    (h : Plan.one k tag p = .run steps combine) {st : Step} (hst : st ∈ steps) : st.proc = p := by
  cases h
  rw [List.mem_singleton.mp hst]

/-- **A command that does not signal a key leaves what can be read there as it is.** -/
theorem signals_sound {now : Int} {rand : Nat} {cmd : Cmd} {args : List Arg}
    (hplan : plan cfg now rand cmd args = some (.run steps combine))
    {st : Step} (hst : st ∈ steps) {cur : Option Val}
    (h : signals cfg cmd args cur (st.proc cur) = false) :
    (st.proc cur).2.Silent cur := by
  have plain : (st.proc cur).2.stores = false → (st.proc cur).2.Silent cur :=
    fun h => Act.silent_of_not_stores h cur
  cases cmd with
  | sadd =>
    rcases args with _ | ⟨k, _ | ⟨v, vs⟩⟩
    · cases hplan
    · cases hplan
    · rw [mem_one (Option.some.inj hplan) hst] at h ⊢
      exact sadd_silent cfg _ cur h
  | srem =>
    rcases args with _ | ⟨k, _ | ⟨v, vs⟩⟩
    · cases hplan
    · cases hplan
    · rw [mem_one (Option.some.inj hplan) hst] at h ⊢
      exact srem_silent _ cur h
  | hdel =>
    rcases args with _ | ⟨k, _ | ⟨f, fs⟩⟩
    · cases hplan
    · cases hplan
    · rw [mem_one (Option.some.inj hplan) hst] at h ⊢
      exact hdel_silent _ cur h
  | zrem =>
    rcases args with _ | ⟨k, _ | ⟨m, ms⟩⟩
    · cases hplan
    · cases hplan
    · rw [mem_one (Option.some.inj hplan) hst] at h ⊢
      exact zrem_silent _ cur h
  | lset =>
    rcases args with _ | ⟨k, _ | ⟨i, _ | ⟨v, _ | ⟨x, rest⟩⟩⟩⟩
    · cases hplan
    · cases hplan
    · cases hplan
    · rw [mem_one (Option.some.inj hplan) hst] at h ⊢
      exact lset_silent cfg _ _ cur (of_decide_eq_false h)
    · cases hplan
  | zadd =>
    rcases args with _ | ⟨k, _ | ⟨x, _ | ⟨m, rest⟩⟩⟩
    · cases hplan
    · cases hplan
    · cases hplan
    · have hplan : zaddCommand cfg k (x :: m :: rest) = .run steps combine := Option.some.inj hplan
      unfold zaddCommand at hplan
      split at hplan
      · cases hplan
      · cases hscores : parseScores cfg ((x :: m :: rest).map (·.ptr)) with
        | none =>
          rw [hscores] at hplan
          cases hplan
        | some l =>
          rw [hscores] at hplan
          rw [mem_one hplan hst] at h ⊢
          simp only [signals, List.tail_cons, hscores] at h
          exact zadd_silent cfg l cur h
  | _ => exact plain h

end SchemaUpdate.Redis
