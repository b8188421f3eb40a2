import Mathlib.Data.List.Infix
import SchemaUpdate.Lib.Blocks
import SchemaUpdate.Lib.Pattern
import SchemaUpdate.Lur.Client

/-! # Update files

An update file is a list of stanzas between lines that import modules. It is read twice:
`parse_dslfile` makes the update functions of it, `parse_dslfile_string_only` collects the
text of the stanzas that is stored for the clients to come. Both look for the header of a
stanza with regular expressions, and these are not the same. -/

namespace SchemaUpdate.Lur

open SchemaUpdate.Lib

/-! ## Headers -/

def newline : Bytes := lit "\n"

variable (file : List Bytes) (c : UInt8) (g : UInt8 → Bool) (name : UpdName)

def dot : Bool := c ≠ 10

def nonspace : Bool := !isspace c

def strip (b : Bytes) : Bytes := ((b.dropWhile isspace).reverse.dropWhile isspace).reverse

/-- What a stanza is for, the first group of its header. -/
inductive StanzaCmd
  | forNamespace
  | forKey
  | add
  deriving DecidableEq

/-- A header: the command and the groups after it. -/
structure Parsed where
  cmd : StanzaCmd
  groups : List Bytes
  deriving DecidableEq

def Parsed.group (p : Parsed) (i : Nat) : Bytes := p.groups.getD (i - 2) []

/-- `(for namespace)\s+(g*)->(g*)\s+(g*)->(g*)\s?` and the brace. -/
def forNamespacePattern : List (Piece UInt8) :=
  [.text (lit "for namespace"), .many isspace, .group g, .text (lit "->"), .group g,
    .many isspace, .group g, .text (lit "->"), .group g, .opt isspace, .text (lit "\x7b")]

/-- `(for) \s?(\S*)\s+(g*)->(g*)\s?` and the brace. -/
def forPattern : List (Piece UInt8) :=
  [.text (lit "for "), .opt isspace, .group nonspace, .many isspace, .group g, .text (lit "->"),
    .group g, .opt isspace, .text (lit "\x7b")]

/-- `(add) \s?(\S*)\s+(.*)\s?` and the brace. -/
def addPattern : List (Piece UInt8) :=
  [.text (lit "add "), .opt isspace, .group nonspace, .many isspace, .group dot, .opt isspace,
    .text (lit "\x7b")]

/-- `extract_for_keys`: the first pattern that fits the start of the line. -/
def extractForKeys (patterns : List (StanzaCmd × List (Piece UInt8))) (line : Bytes) : Option Parsed :=
  patterns.findSome? fun p => (fit p.2 line).map fun groups => ⟨p.1, groups⟩

def dslPatterns : List (StanzaCmd × List (Piece UInt8)) :=
  [(.forNamespace, forNamespacePattern dot), (.forKey, forPattern dot), (.add, addPattern)]

def stringOnlyPatterns : List (StanzaCmd × List (Piece UInt8)) :=
  [(.forNamespace, forNamespacePattern nonspace), (.forKey, forPattern nonspace)]

def parseNamespace (name : Bytes) : Ns := namespaceOf name

/-- The name of the update a header is for, where `trim` is what is done to the versions. -/
def Parsed.updName (trim : Bytes → Bytes) (p : Parsed) : Option UpdName :=
  match p.cmd with
  | .forKey =>
    let ns := parseNamespace (strip (p.group 2))
    some ⟨trim (p.group 3), trim (p.group 4), ns, ns⟩
  | .forNamespace => some ⟨trim (p.group 4), trim (p.group 5), p.group 2, p.group 3⟩
  | .add => none

/-- The loop over a stanza ends: `not (curr and "};" not in curr)`. -/
def closes (line : Bytes) : Bool := line.isEmpty || decide (lit "\x7d;" <:+: line)

/-! ## `parse_dslfile` -/

inductive DslErr
  -- `sys.exit` with a message
  | exit (msg : Bytes)
  -- an exception from inside a stanza
  | raised (e : PyErr)
  deriving DecidableEq

/-- A tuple of `parse_dslfile`, with the lines it was read from. -/
structure Tup (I : Type) where
  block : Block Bytes Parsed
  keyglob : Bytes
  -- the rules of a `for` stanza, the joined lines of an `add` stanza
  inner : I ⊕ Bytes
  oldns : Option Ns
  ns : Ns
  oldVer : Option Ver
  newVer : Ver
  deriving DecidableEq

section

variable {I : Type}

/-- `(old_ver, new_ver, oldnamespace, namespace)` of a `for` or `for namespace` tuple. -/
def Tup.updName (t : Tup I) : Option UpdName :=
  match t.oldVer, t.oldns with
  | some old, some oldns => some ⟨old, t.newVer, oldns, t.ns⟩
  | _, _ => none

/-- Outside a stanza: imports are copied, blank lines skipped, the rest has to be a header. -/
def dslHead (line : Bytes) : Except DslErr (Option Parsed) :=
  if (lit "import").isPrefixOf line then .ok none
  else if line = newline then .ok none
  else
    match extractForKeys dslPatterns line with
    | some p => .ok (some p)
    | none => .error (.exit (lit "\n\nFatal - Parse error near line containing: " ++ line))

/-- The tuple of one stanza. -/
def dslTup (parseInner : List Bytes → Except PyErr I) (b : Block Bytes Parsed) :
    Except DslErr (Tup I) :=
  let keyglob := strip (b.head.group 2)
  match b.head.cmd with
  | .forKey =>
    match parseInner b.body with
    | .error e => .error (.raised e)
    | .ok inner => .ok ⟨b, keyglob, .inl inner, some (parseNamespace keyglob),
        parseNamespace keyglob, some (strip (b.head.group 3)), strip (b.head.group 4)⟩
  | .forNamespace =>
    match parseInner b.body with
    | .error e => .error (.raised e)
    | .ok inner => .ok ⟨b, b.head.group 3 ++ lit "*", .inl inner, some (b.head.group 2),
        b.head.group 3, some (strip (b.head.group 4)), strip (b.head.group 5)⟩
  | .add =>
    if 42 ∈ keyglob ∨ 63 ∈ keyglob then
      .error (.exit (lit "\n\nFatal - Cannot use wildcards in keyglob for adding keys.\n"))
    else .ok ⟨b, keyglob, .inr ((lit "|").intercalate b.body), none, parseNamespace keyglob, none,
        strip (b.head.group 3)⟩

/-- `parse_dslfile` of the lines of a file; `parseInner` is `parse_dslfile_inner`. -/
def parseDslfile (parseInner : List Bytes → Except PyErr I) (file : List Bytes) :
    Except DslErr (List (Tup I)) :=
  scan closes dslHead (dslTup parseInner) none file

variable {parseInner : List Bytes → Except PyErr I}

theorem dslTup_spec {b : Block Bytes Parsed} {t : Tup I} (h : dslTup parseInner b = .ok t) :
    t.block = b ∧ t.updName = b.head.updName strip := by
  unfold dslTup at h
  unfold Parsed.updName
  cases hcmd : b.head.cmd with
  | forNamespace | forKey | add =>
    simp only [hcmd] at h ⊢
    split at h
    · cases h
    · cases h
      exact ⟨rfl, rfl⟩

end

/-! ## `parse_dslfile_string_only` -/

/-- A line as the header of a stanza; every other line outside the stanzas is skipped. -/
def stringOnlyHead (line : Bytes) : Option UpdName :=
  if line = newline then none
  else (extractForKeys stringOnlyPatterns line).bind fun p => p.updName id

/-- The imports at the start of a file. -/
def leadingImports : List Bytes :=
  file.takeWhile fun line => (lit "import").isPrefixOf line

/-- What is kept of a stanza: the imports, the header, the lines and the closing one, which is
`None` at the end of the file. -/
def stanzaLines (imports : List Bytes) (b : Block Bytes UpdName) : List (Option Bytes) :=
  some (newline.intercalate imports) :: some b.header :: (b.body.map some ++ [b.close])

def stringOnlyStanzas : List (Block Bytes UpdName) :=
  blocks closes stringOnlyHead none file

/-- `parse_dslfile_string_only` of the lines of a file. -/
def parseDslfileStringOnly : Dict UpdName (List (Option Bytes)) :=
  Dict.gather Block.head (stanzaLines (leadingImports file)) (stringOnlyStanzas file) ∅

def ofName (bs : List (Block Bytes UpdName)) : List (Block Bytes UpdName) :=
  bs.filter fun b => b.head = name

theorem lookup_parseDslfileStringOnly : (parseDslfileStringOnly file).lookup name =
      if ofName name (stringOnlyStanzas file) = [] then none
      else some ((ofName name (stringOnlyStanzas file)).flatMap
        (stanzaLines (leadingImports file))) := by
  unfold parseDslfileStringOnly
  rw [Dict.lookup_gather, AList.lookup_empty]
  rfl

variable {line : Bytes}

theorem stringOnlyHead_eq_none (h : ¬ lit "for" <+: line) : stringOnlyHead line = none := by
  have htext : ∀ (t : Bytes) xs, lit "for" <+: t → fit (.text t :: xs) line = none :=
    fun t xs ht => fit_text_none (fun hline => h (ht.trans hline)) xs
  have hnone : extractForKeys stringOnlyPatterns line = none := by
    unfold extractForKeys stringOnlyPatterns forNamespacePattern forPattern
    simp only [List.findSome?_cons, List.findSome?_nil]
    rw [htext _ _ (by decide), htext _ _ (by decide)]
    rfl
  unfold stringOnlyHead
  rw [hnone]
  split
  · rfl
  · rfl

theorem dslHead_skips (h : dslHead line = .ok none) : stringOnlyHead line = none := by
  unfold dslHead at h
  split at h
  · rename_i himport
    refine stringOnlyHead_eq_none fun hfor => ?_
    have himport := List.isPrefixOf_iff_prefix.mp himport
    exact absurd (head_of_prefixes himport hfor) (by decide)
  · split at h
    · rename_i hblank
      rw [stringOnlyHead, if_pos hblank]
    · split at h
      · cases h
      · cases h

/-! ## The two readers -/

section

variable {I : Type} {parseInner : List Bytes → Except PyErr I}

/-- The `for` stanzas of the tuples, where they stand in the file. -/
def tupStanzas (tups : List (Tup I)) : List (Block Bytes UpdName) :=
  tups.filterMap fun t => t.block.keyed (Parsed.updName strip)

theorem mem_parseDslfileStringOnly {file : List Bytes} {name : UpdName} :
    name ∈ parseDslfileStringOnly file ↔ ofName name (stringOnlyStanzas file) ≠ [] := by
  rw [← AList.lookup_isSome, lookup_parseDslfileStringOnly]
  split
  · rename_i hnil
    simp [hnil]
  · rename_i hnil
    simp [hnil]

theorem mem_updNames {file : List Bytes} {tups : List (Tup I)}
    (h : parseDslfile parseInner file = .ok tups) {name : UpdName} :
    name ∈ tups.filterMap Tup.updName ↔ ofName name (tupStanzas tups) ≠ [] := by
  have hname : ∀ t ∈ tups, t.updName = t.block.head.updName strip := fun t ht => by
    obtain ⟨b, hb⟩ := scan_emit h ht
    obtain ⟨hblock, hupd⟩ := dslTup_spec hb
    rw [hblock, hupd]
  unfold ofName
  rw [List.mem_filterMap, Ne, List.filter_eq_nil_iff]
  constructor
  · rintro ⟨t, ht, hupd⟩ hall
    rw [hname t ht] at hupd
    refine hall ⟨t.block.left, t.block.header, name, t.block.body, t.block.close⟩
      (List.mem_filterMap.mpr ⟨t, ht, ?_⟩) (by simp)
    rw [Block.keyed, hupd]
    rfl
  · intro hall
    obtain ⟨b, hb, hhead⟩ := not_forall₂.mp hall
    obtain ⟨t, ht, hkeyed⟩ := List.mem_filterMap.mp hb
    obtain ⟨n, hn, rfl⟩ := Option.map_eq_some_iff.mp hkeyed
    refine ⟨t, ht, ?_⟩
    rw [hname t ht, hn]
    simpa using hhead

/-- **The two readers of an update file agree** on the names and on the lines of every `for`
stanza exactly when the second one reads the header of each of these stanzas as the first one
does, and takes no line of an `add` stanza for a header. -/
theorem parsers_agree {file : List Bytes} {tups : List (Tup I)}
    (h : parseDslfile parseInner file = .ok tups) :
    ((∀ name, name ∈ tups.filterMap Tup.updName ↔ name ∈ parseDslfileStringOnly file) ∧
      (∀ name, ofName name (tupStanzas tups) = ofName name (stringOnlyStanzas file)) ∧
      ∀ name ∈ parseDslfileStringOnly file, (parseDslfileStringOnly file).lookup name =
        some ((ofName name (tupStanzas tups)).flatMap (stanzaLines (leadingImports file)))) ↔
    ∀ t ∈ tups, t.block.Alike (Parsed.updName strip) stringOnlyHead := by
  have hemit : ∀ b (t : Tup I), dslTup parseInner b = .ok t → t.block = b :=
    fun b t ht => (dslTup_spec ht).1
  have hgroups : (∀ name, ofName name (tupStanzas tups) = ofName name (stringOnlyStanzas file)) ↔
      ∀ t ∈ tups, t.block.Alike (Parsed.updName strip) stringOnlyHead :=
    blocks_agree_grouped hemit (fun _ => dslHead_skips) h
  rw [← hgroups]
  refine ⟨fun hall => hall.2.1, fun hsame => ⟨fun name => ?_, hsame, fun name hmem => ?_⟩⟩
  · rw [mem_updNames h, mem_parseDslfileStringOnly, hsame name]
  · rw [lookup_parseDslfileStringOnly, if_neg (mem_parseDslfileStringOnly.mp hmem), hsame name]

end

def demoUpdateFile : List Bytes :=
  [lit "import re\n", lit "for a:* v0->v1 \x7b\n", lit "INIT [\"x\"] \x7b$out = 1\x7d\n",
    lit "\x7d;\n", newline, lit "add a:k v1 \x7b\n", lit "$dbkey = \x7b\x7d\n", lit "\x7d;\n"]

theorem demo_parsers_agree : ∃ tups, parseDslfile (fun ls => .ok ls) demoUpdateFile = .ok tups ∧
    tups.length = 2 ∧
    (∀ name, ofName name (tupStanzas tups) = ofName name (stringOnlyStanzas demoUpdateFile)) := by
  obtain ⟨tups, htups, hlen, halike⟩ := ok_of_any (p := fun tups => tups.length = 2 ∧
    ∀ t ∈ tups, t.block.Alike (Parsed.updName strip) stringOnlyHead) (show
      (parseDslfile (fun ls => .ok ls) demoUpdateFile).toOption.any _ by decide +kernel)
  exact ⟨tups, htups, hlen, ((parsers_agree htups).mpr halike).2.1⟩

def demoBlanksFile : List Bytes :=
  [lit "for a:* v0->v1  \x7b\n", lit "INIT [\"x\"] \x7b$out = 1\x7d\n", lit "\x7d;\n"]

/-- The update functions are made, and no text is kept. -/
theorem parsers_differ : ∃ tups, parseDslfile (fun ls => .ok ls) demoBlanksFile = .ok tups ∧
    tups.filterMap Tup.updName = [⟨lit "v0", lit "v1", lit "a", lit "a"⟩] ∧
    (parseDslfileStringOnly demoBlanksFile).keys = [] := by
  obtain ⟨tups, htups, hnames⟩ := ok_of_any (p := fun tups => tups.filterMap Tup.updName =
    [⟨lit "v0", lit "v1", lit "a", lit "a"⟩]) (show
      (parseDslfile (fun ls => .ok ls) demoBlanksFile).toOption.any _ by decide +kernel)
  refine ⟨tups, htups, hnames, ?_⟩
  decide +kernel

end SchemaUpdate.Lur
