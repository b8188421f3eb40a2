import Mathlib.Data.List.Basic
import Mathlib.Data.List.Forall2
import SchemaUpdate.Lib.Result

/-! # Files of blocks

A file is read line by line. A line that is a header opens a block, which goes on until a
line that closes it, or to the end of the file; what stands between the blocks is skipped or
refused. Two readers that differ in what they take for a header read the same blocks exactly
when they agree on the headers of these blocks. -/

namespace SchemaUpdate.Lib

variable {α H N E T : Type}

/-- A block: the number of lines from its header to the end of the file, the header and what was
read from it, the lines up to the closing one, and the closing one. -/
structure Block (α H : Type) where
  left : Nat
  header : α
  head : H
  body : List α
  close : Option α
  deriving DecidableEq

/-- The blocks of a file, where every line may be a header or not; `cur` is the open one. -/
def blocks (closes : α → Bool) (head : α → Option H) :
    Option (Block α H) → List α → List (Block α H)
  | none, [] => []
  | some b, [] => [b]
  | none, l :: ls =>
    match head l with
    | none => blocks closes head none ls
    | some h => blocks closes head (some ⟨ls.length + 1, l, h, [], none⟩) ls
  | some b, l :: ls =>
    if closes l then { b with close := some l } :: blocks closes head none ls
    else blocks closes head (some { b with body := b.body ++ [l] }) ls

/-- The same by a reader that refuses some lines, and makes something of each block. -/
def scan (closes : α → Bool) (head : α → Except E (Option H)) (emit : Block α H → Except E T) :
    Option (Block α H) → List α → Except E (List T)
  | none, [] => .ok []
  | some b, [] => do
    let t ← emit b
    .ok [t]
  | none, l :: ls =>
    match head l with
    | .error e => .error e
    | .ok none => scan closes head emit none ls
    | .ok (some h) => scan closes head emit (some ⟨ls.length + 1, l, h, [], none⟩) ls
  | some b, l :: ls =>
    if closes l then do
      let t ← emit { b with close := some l }
      let ts ← scan closes head emit none ls
      .ok (t :: ts)
    else scan closes head emit (some { b with body := b.body ++ [l] }) ls

/-! ## One reader -/

/-- The lines of a file give these blocks, by a reader that skips some lines and opens a block
with others. -/
inductive ReadsAs (closes : α → Bool) (skips : α → Prop) (opens : α → H → Prop) :
    Option (Block α H) → List α → List (Block α H) → Prop
  | done : ReadsAs closes skips opens none [] []
  | last {b : Block α H} : ReadsAs closes skips opens (some b) [] [b]
  | skip {l : α} {ls : List α} {bs : List (Block α H)} (hl : skips l)
    (h : ReadsAs closes skips opens none ls bs) : ReadsAs closes skips opens none (l :: ls) bs
  | header {l : α} {ls : List α} {bs : List (Block α H)} {hd : H} (hl : opens l hd)
    (h : ReadsAs closes skips opens (some ⟨ls.length + 1, l, hd, [], none⟩) ls bs) :
    ReadsAs closes skips opens none (l :: ls) bs
  | close {l : α} {ls : List α} {bs : List (Block α H)} {b : Block α H} (hl : closes l = true)
    (h : ReadsAs closes skips opens none ls bs) :
    ReadsAs closes skips opens (some b) (l :: ls) ({ b with close := some l } :: bs)
  | line {l : α} {ls : List α} {bs : List (Block α H)} {b : Block α H} (hl : ¬ closes l = true)
    (h : ReadsAs closes skips opens (some { b with body := b.body ++ [l] }) ls bs) :
    ReadsAs closes skips opens (some b) (l :: ls) bs

variable {closes : α → Bool}

theorem reads_blocks (closes : α → Bool) (head : α → Option H) (cur : Option (Block α H))
    (ls : List α) : ReadsAs closes (fun l => head l = none) (fun l h => head l = some h) cur ls
      (blocks closes head cur ls) := by
  induction ls generalizing cur with
  | nil =>
    cases cur with
    | none => exact .done
    | some b => exact .last
  | cons l ls ih =>
    cases cur with
    | none =>
      unfold blocks
      split
      · exact .skip ‹_› (ih _)
      · exact .header ‹_› (ih _)
    | some b =>
      unfold blocks
      split
      · exact .close ‹_› (ih _)
      · exact .line ‹_› (ih _)

theorem reads_scan {head : α → Except E (Option H)} {emit : Block α H → Except E T}
    {cur : Option (Block α H)} {ls : List α} {ts : List T}
    (h : scan closes head emit cur ls = .ok ts) :
    ∃ bs, ReadsAs closes (fun l => head l = .ok none) (fun l h => head l = .ok (some h)) cur ls bs ∧
      List.Forall₂ (fun b t => emit b = .ok t) bs ts := by
  induction ls generalizing cur ts with
  | nil =>
    cases cur with
    | none =>
      cases h
      exact ⟨[], .done, .nil⟩
    | some b =>
      obtain ⟨t, ht, hts⟩ := bind_eq_ok.mp h
      cases hts
      exact ⟨[b], .last, .cons ht .nil⟩
  | cons l ls ih =>
    cases cur with
    | none =>
      unfold scan at h
      split at h
      · cases h
      · exact (ih h).imp fun bs hbs => ⟨.skip ‹_› hbs.1, hbs.2⟩
      · exact (ih h).imp fun bs hbs => ⟨.header ‹_› hbs.1, hbs.2⟩
    | some b =>
      unfold scan at h
      split at h
      · obtain ⟨t, ht, hrest⟩ := bind_eq_ok.mp h
        obtain ⟨ts', hts', hts⟩ := bind_eq_ok.mp hrest
        cases hts
        obtain ⟨bs, hbs, hall⟩ := ih hts'
        exact ⟨_, .close ‹_› hbs, .cons ht hall⟩
      · exact (ih h).imp fun bs hbs => ⟨.line ‹_› hbs.1, hbs.2⟩

theorem scan_emit {head : α → Except E (Option H)} {emit : Block α H → Except E T}
    {cur : Option (Block α H)} {ls : List α} {ts : List T}
    (h : scan closes head emit cur ls = .ok ts) {t : T} (ht : t ∈ ts) : ∃ b, emit b = .ok t := by
  obtain ⟨bs, -, hall⟩ := reads_scan h
  clear h
  induction hall with
  | nil => cases ht
  | cons hb _ ih =>
    obtain rfl | ht := List.mem_cons.mp ht
    · exact ⟨_, hb⟩
    · exact ih ht

section Reads

variable {skips : α → Prop} {opens : α → H → Prop} {cur : Option (Block α H)} {ls : List α}
  {bs : List (Block α H)} (h : ReadsAs closes skips opens cur ls bs)

include h

/-- Blocks begin in what is left of the file, but for the one that is open. -/
theorem ReadsAs.bounds : match cur with
    | none => ∀ b' ∈ bs, b'.left ≤ ls.length
    | some b => ∃ b' bs', bs = b' :: bs' ∧ b'.left = b.left ∧ b'.header = b.header ∧
        b'.head = b.head ∧ (∀ l ∈ b.body, l ∈ b'.body) ∧ ∀ b'' ∈ bs', b''.left ≤ ls.length := by
  induction h with
  | done => exact fun b' hb' => absurd hb' List.not_mem_nil
  | last => exact ⟨_, [], rfl, rfl, rfl, rfl, fun _ hl => hl, fun b' hb' => absurd hb' List.not_mem_nil⟩
  | skip _ _ ih => exact fun b' hb' => Nat.le_succ_of_le (ih b' hb')
  | header _ _ ih =>
    obtain ⟨b', bs', rfl, hleft, -, -, -, hrest⟩ := ih
    exact List.forall_mem_cons.mpr
      ⟨Nat.le_of_eq hleft, fun b'' hb'' => Nat.le_succ_of_le (hrest b'' hb'')⟩
  | close _ _ ih =>
    exact ⟨_, _, rfl, rfl, rfl, rfl, fun _ hl => hl, fun b' hb' => Nat.le_succ_of_le (ih b' hb')⟩
  | line _ _ ih =>
    obtain ⟨b', bs', rfl, hleft, hheader, hhead, hbody, hrest⟩ := ih
    exact ⟨b', bs', rfl, hleft, hheader, hhead, fun l hl => hbody l (by simp [hl]),
      fun b'' hb'' => Nat.le_succ_of_le (hrest b'' hb'')⟩

theorem ReadsAs.ordered (hcur : ∀ b ∈ cur, ls.length < b.left) :
    bs.Pairwise fun b b' => b'.left < b.left := by
  induction h with
  | done => exact .nil
  | last => exact List.pairwise_singleton _ _
  | skip _ _ ih => exact ih nofun
  | header _ _ ih =>
    refine ih fun b hb => ?_
    cases hb
    exact Nat.lt_succ_self _
  | @close l ls bs b _ hrest ih =>
    refine List.pairwise_cons.mpr ⟨fun b' hb' => ?_, ih nofun⟩
    exact Nat.lt_of_le_of_lt (hrest.bounds b' hb') (Nat.lt_of_succ_lt (hcur b rfl))
  | @line l ls bs b _ _ ih =>
    refine ih fun b' hb' => ?_
    cases hb'
    exact Nat.lt_of_succ_lt (hcur b rfl)

end Reads

theorem eq_of_ordered {bs bs' : List (Block α H)}
    (h : bs.Pairwise fun b b' => b'.left < b.left) (h' : bs'.Pairwise fun b b' => b'.left < b.left)
    (hmem : ∀ b, b ∈ bs ↔ b ∈ bs') : bs = bs' := by
  have hnodup : ∀ {l : List (Block α H)}, l.Pairwise (fun b b' => b'.left < b.left) → l.Nodup :=
    fun hl => hl.imp fun hlt heq => by
      rw [heq] at hlt
      exact Nat.lt_irrefl _ hlt
  refine ((List.perm_ext_iff_of_nodup (hnodup h) (hnodup h')).mpr hmem).eq_of_pairwise
    (fun b b' _ _ hlt hlt' => ?_) h h'
  exact absurd hlt (Nat.lt_asymm hlt')

/-! ## Two readers -/

section Two

variable (key : H → Option N) (head₂ : α → Option N)

/-- A block of the first reader as the second one should read it, if it should at all. -/
def Block.keyed (b : Block α H) : Option (Block α N) :=
  (key b.head).map fun n => ⟨b.left, b.header, n, b.body, b.close⟩

/-- The second reader reads the header of the block alike, or takes no line of it for a header. -/
def Block.Alike (b : Block α H) : Prop :=
  match key b.head with
  | some n => head₂ b.header = some n
  | none => head₂ b.header = none ∧ (∀ l ∈ b.body, head₂ l = none) ∧
    ∀ l ∈ b.close, head₂ l = none

variable {key head₂} {b : Block α H} {n : N} {l : α} {ls : List α} {bs : List (Block α H)}

theorem alike_some (h : key b.head = some n) : b.Alike key head₂ ↔ head₂ b.header = some n := by
  rw [Block.Alike, h]

theorem alike_none (h : key b.head = none) :
    b.Alike key head₂ ↔ head₂ b.header = none ∧ (∀ l ∈ b.body, head₂ l = none) ∧
      ∀ l ∈ b.close, head₂ l = none := by
  rw [Block.Alike, h]

instance [DecidableEq N] (b : Block α H) : Decidable (b.Alike key head₂) :=
  match h : key b.head with
  | some _ => decidable_of_iff _ (alike_some h).symm
  | none => decidable_of_iff _ (alike_none h).symm

theorem keyed_some (h : key b.head = some n) :
    b.keyed key = some ⟨b.left, b.header, n, b.body, b.close⟩ := by
  rw [Block.keyed, h]
  rfl

theorem keyed_none (h : key b.head = none) : b.keyed key = none := by
  rw [Block.keyed, h]
  rfl

theorem keyed_left {b' : Block α N} (h : b.keyed key = some b') : b'.left = b.left := by
  obtain ⟨n, -, rfl⟩ := Option.map_eq_some_iff.mp h
  rfl

/-- A block that the second reader has opened where the first has none. -/
theorem keyed_ne_blocks {m : Nat} (hbs : ∀ b ∈ bs, b.left < m) {b : Block α N} (hb : b.left = m)
    (ls : List α) : bs.filterMap (Block.keyed key) ≠ blocks closes head₂ (some b) ls := by
  intro heq
  obtain ⟨b', bs', hblocks, hleft, -⟩ := (reads_blocks closes head₂ (some b) ls).bounds
  have hmem : b' ∈ bs.filterMap (Block.keyed key) := by
    rw [heq, hblocks]
    exact List.mem_cons_self
  obtain ⟨b₁, hb₁, hkeyed⟩ := List.mem_filterMap.mp hmem
  have hlt := hbs b₁ hb₁
  have hsame := keyed_left hkeyed
  omega

/-- The second reader gets its blocks from those of the first exactly if they are read alike. -/
def AgreeOn (key : H → Option N) (head₂ : α → Option N) (bs : List (Block α H))
    (bs₂ : List (Block α N)) : Prop :=
  bs.filterMap (Block.keyed key) = bs₂ ↔ ∀ b ∈ bs, b.Alike key head₂

variable {skips : α → Prop} {opens : α → H → Prop}

/-- The second reader takes a line of a block without a key for a header. -/
theorem agreeOn_unkeyed {m : Nat} (hkey : key b.head = none) (hm : ls.length < m)
    (h : ReadsAs closes skips opens (some b) ls bs)
    (hmem : l = b.header ∨ l ∈ b.body) (hhead : head₂ l = some n) :
    AgreeOn key head₂ bs (blocks closes head₂ (some ⟨m, l, n, [], none⟩) ls) := by
  obtain ⟨b', bs', rfl, -, hheader, hhd, hbody, hrest⟩ := h.bounds
  have hkey' : key b'.head = none := by rw [hhd, hkey]
  refine iff_of_false ?_ fun hall => ?_
  · rw [List.filterMap_cons_none (keyed_none hkey')]
    exact keyed_ne_blocks (fun b'' hb'' => Nat.lt_of_le_of_lt (hrest b'' hb'') hm) rfl ls
  · obtain ⟨hnone, hnones, -⟩ := (alike_none hkey').mp (hall b' List.mem_cons_self)
    obtain rfl | hl := hmem
    · rw [← hheader, hnone] at hhead
      cases hhead
    · rw [hnones l (hbody l hl)] at hhead
      cases hhead

/-- The second reader reads another header, or none. -/
theorem agreeOn_keyed {hd : H} (hkey : key hd = some n)
    (h : ReadsAs closes skips opens (some ⟨ls.length + 1, l, hd, [], none⟩) ls bs)
    (hhead : head₂ l ≠ some n) : AgreeOn key head₂ bs (blocks closes head₂ none (l :: ls)) := by
  obtain ⟨b', bs', rfl, hleft, hheader, hhd, -, -⟩ := h.bounds
  have hkey' : key b'.head = some n := by rw [hhd, hkey]
  refine iff_of_false ?_ fun hall => ?_
  · rw [List.filterMap_cons_some (keyed_some hkey'), blocks]
    intro heq
    cases hhead₂ : head₂ l with
    | none =>
      rw [hhead₂] at heq
      have hbound : b'.left ≤ ls.length :=
        (reads_blocks closes head₂ none ls).bounds _ (heq ▸ List.mem_cons_self)
      have hleft : b'.left = ls.length + 1 := hleft
      omega
    | some n' =>
      rw [hhead₂] at heq
      simp only at heq
      obtain ⟨b₂, bs₂, hblocks, -, -, hsame, -⟩ := (reads_blocks closes head₂
        (some ⟨ls.length + 1, l, n', [], none⟩) ls).bounds
      rw [hblocks] at heq
      obtain ⟨rfl, -⟩ := List.cons.inj heq
      exact hhead (hhead₂.trans (congrArg some hsame.symm))
  · have halike := (alike_some hkey').mp (hall b' List.mem_cons_self)
    rw [hheader] at halike
    exact hhead halike

/-- A line closes a block without a key. -/
theorem agreeOn_close (hkey : key b.head = none) (hhead : head₂ b.header = none)
    (hbody : ∀ l ∈ b.body, head₂ l = none) (h : ReadsAs closes skips opens none ls bs)
    (hrest : AgreeOn key head₂ bs (blocks closes head₂ none ls)) (l : α) :
    AgreeOn key head₂ ({ b with close := some l } :: bs) (blocks closes head₂ none (l :: ls)) := by
  have halike : Block.Alike key head₂ { b with close := some l } ↔ head₂ l = none := by
    rw [alike_none (b := { b with close := some l }) hkey]
    simp [hhead]
    exact fun _ => hbody
  rw [AgreeOn, List.filterMap_cons_none (keyed_none (b := { b with close := some l }) hkey), blocks,
    List.forall_mem_cons, halike]
  cases hl : head₂ l with
  | none =>
    simp only [true_and]
    exact hrest
  | some n =>
    refine iff_of_false ?_ fun hnone => nomatch hnone.1
    exact keyed_ne_blocks (m := ls.length + 1) (fun b' hb' => Nat.lt_succ_of_le (h.bounds b' hb'))
      rfl ls

/-- Both readers are outside, or both in a block with a key, or only the first is in a block,
and that has no key. -/
theorem ReadsAs.agree {cur : Option (Block α H)} (hskip : ∀ l, skips l → head₂ l = none)
    (h : ReadsAs closes skips opens cur ls bs) : match cur with
    | none => AgreeOn key head₂ bs (blocks closes head₂ none ls)
    | some b => (∀ n, key b.head = some n → head₂ b.header = some n → AgreeOn key head₂ bs
          (blocks closes head₂ (some ⟨b.left, b.header, n, b.body, b.close⟩) ls)) ∧
        (key b.head = none → head₂ b.header = none → (∀ l ∈ b.body, head₂ l = none) →
          b.close = none → AgreeOn key head₂ bs (blocks closes head₂ none ls)) := by
  induction h with
  | done => simp [AgreeOn, blocks]
  | @last b =>
    refine ⟨fun n hkey hhead => ?_, fun hkey hhead hbody hclose => ?_⟩
    · simp [AgreeOn, keyed_some hkey, blocks, alike_some hkey, hhead]
    · simp [AgreeOn, keyed_none hkey, blocks, alike_none hkey, hhead, hclose]
      exact hbody
  | skip hl _ ih =>
    rw [blocks, hskip _ hl]
    exact ih
  | @header l ls bs hd _ hrest ih =>
    cases hkey : key hd with
    | none =>
      rw [blocks]
      cases hhead : head₂ l with
      | none => exact ih.2 hkey hhead (by simp) rfl
      | some n => exact agreeOn_unkeyed hkey (Nat.lt_succ_self _) hrest (.inl rfl) hhead
    | some n =>
      by_cases hhead : head₂ l = some n
      · rw [blocks, hhead]
        exact ih.1 n hkey hhead
      · exact agreeOn_keyed hkey hrest hhead
  | @close l ls bs b hcl hrest ih =>
    have hrest' : bs.filterMap (Block.keyed key) = blocks closes head₂ none ls ↔
      ∀ b ∈ bs, b.Alike key head₂ := ih
    refine ⟨fun n hkey hhead => ?_,
      fun hkey hhead hbody _ => agreeOn_close hkey hhead hbody hrest hrest' l⟩
    rw [AgreeOn, blocks, if_pos hcl,
      List.filterMap_cons_some (keyed_some (b := { b with close := some l }) hkey), List.cons.injEq,
      List.forall_mem_cons, hrest']
    exact and_congr_left fun _ =>
      iff_of_true rfl ((alike_some (b := { b with close := some l }) hkey).mpr hhead)
  | @line l ls bs b hcl hrest ih =>
    refine ⟨fun n hkey hhead => ?_, fun hkey hhead hbody hclose => ?_⟩
    · rw [blocks, if_neg hcl]
      exact ih.1 n hkey hhead
    · rw [blocks]
      cases hl : head₂ l with
      | none =>
        refine ih.2 hkey hhead (fun l' hl' => ?_) hclose
        obtain hl' | hl' := List.mem_append.mp hl'
        · exact hbody l' hl'
        · rw [List.mem_singleton.mp hl', hl]
      | some n =>
        exact agreeOn_unkeyed (b := { b with body := b.body ++ [l] }) hkey (Nat.lt_succ_self _) hrest
          (.inr (by simp)) hl

/-- **Two readers of one file** read the same blocks, name by name, exactly when they agree on
each of them. -/
theorem blocks_agree_grouped [DecidableEq N] {head : α → Except E (Option H)}
    {emit : Block α H → Except E T} {block : T → Block α H}
    (hemit : ∀ b t, emit b = .ok t → block t = b) (hskip : ∀ l, head l = .ok none → head₂ l = none)
    {ts : List T} (h : scan closes head emit none ls = .ok ts) :
    (∀ n, (ts.filterMap fun t => (block t).keyed key).filter (fun b => b.head = n) =
        (blocks closes head₂ none ls).filter fun b => b.head = n) ↔
      ∀ t ∈ ts, (block t).Alike key head₂ := by
  obtain ⟨bs, hbs, hall⟩ := reads_scan h
  obtain rfl : bs = ts.map block := by
    rw [← List.forall₂_eq_eq_eq, List.forall₂_map_right_iff]
    exact hall.imp fun b t ht => (hemit b t ht).symm
  have hagree : AgreeOn key head₂ (ts.map block) (blocks closes head₂ none ls) := hbs.agree hskip
  rw [AgreeOn, List.filterMap_map, List.forall_mem_map] at hagree
  rw [← hagree]
  refine ⟨fun hgroups => ?_, fun heq n => by rw [← heq]; rfl⟩
  refine eq_of_ordered ?_ ((reads_blocks closes head₂ none ls).ordered nofun) fun b => ?_
  · rw [← List.filterMap_map]
    refine (hbs.ordered nofun).filterMap _ fun b₁ b₂ hlt b hb b' hb' => ?_
    rw [keyed_left hb, keyed_left hb']
    exact hlt
  · have hgroup : b ∈ (ts.filterMap fun t => (block t).keyed key).filter (fun b' => b'.head = b.head) ↔
        b ∈ (blocks closes head₂ none ls).filter fun b' => b'.head = b.head := by
      rw [hgroups b.head]
    simpa using hgroup

end Two

end SchemaUpdate.Lib
