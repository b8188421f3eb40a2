import SchemaUpdate.Lib.Codec
import SchemaUpdate.KVolve.Element

/-! # The dump file

`rdb.c`: what `rdbSave` writes and what `rdbLoad` reads back, with the version
field that stands between the type and the key of every entry. Ziplists, intsets
and compressed strings are written as the blobs they are; what is known about
those, and about the printing of doubles, is part of `RdbLib`. -/

namespace SchemaUpdate.KVolve

open SchemaUpdate.Lib SchemaUpdate.Redis

/-! ## Doubles -/

def negZero : Double := 0x8000000000000000
def posInf : Double := 0x7FF0000000000000
def negInf : Double := 0xFFF0000000000000

def isNan (d : Double) : Bool := d.toNat % 2 ^ 63 > 0x7FF0000000000000
def isFinite (d : Double) : Bool := d.toNat % 2 ^ 63 < 0x7FF0000000000000

/-! ## The libraries below -/

/-- The parts of the server and of its libraries the format is built on, with the laws the
round trip needs. -/
structure RdbLib (cfg : Cfg) where
  -- `server.rdb_compression` and `server.rdb_checksum`
  compression : Bool
  checksum : Bool
  crc64 : Bytes → Int
  lzfCompress : Bytes → Option Bytes
  lzfDecompress : Bytes → Nat → Option Bytes
  lzf_back : ∀ s c, lzfCompress s = some c → lzfDecompress c s.length = some s
  lzf_short : ∀ s c, lzfCompress s = some c → c.length ≤ s.length
  -- the memory of a ziplist and of an intset
  ziplistBlob : List Bytes → Bytes
  ziplistRead : Bytes → Option (List Bytes)
  ziplist_back : ∀ l, ziplistRead (ziplistBlob l) = some l
  intsetBlob : List Int → Bytes
  intsetRead : Bytes → Option (List Int)
  intset_back : ∀ l, (∀ n ∈ l, -2 ^ 63 ≤ n ∧ n < 2 ^ 63) → intsetRead (intsetBlob l) = some l
  -- the `long long` a double is printed as, when it is integral and in the safe range
  doubleLong : Double → Option Int
  doubleLong_range : ∀ d n, doubleLong d = some n → n.natAbs < 2 ^ 53
  doubleLong_zero : doubleLong 0 = some 0
  doubleLong_negZero : doubleLong negZero = some 0
  -- `snprintf("%.17g")` and `sscanf("%lg")`
  fmtG : Double → Bytes
  scanG : Bytes → Double
  fmtG_short : ∀ d, (fmtG d).length < 253
  scan_fmtG : ∀ d, isFinite d → doubleLong d = none → scanG (fmtG d) = d
  scan_long : ∀ d n, doubleLong d = some n → d ≠ negZero → scanG (ll2string n) = d
  rNan : Double
  -- a score inside a ziplist, written and read back
  score_text : ∀ d, isNan d = false → zzlGetScore cfg (cfg.d2string d) = d

/-! ## Types, times and lengths -/

def expiretimeMs : UInt8 := 252
def expiretime : UInt8 := 253
def selectdb : UInt8 := 254
def eof : UInt8 := 255

/-- `rdbSaveType`: the argument is converted to an `unsigned char`. -/
def rdbSaveType (type : Int) : Bytes := [UInt8.ofInt type]

def rdbLoadType : Reader UInt8 := readByte

def rdbSaveMillisecondTime (t : Int) : Bytes := leBytes 8 t

def rdbLoadMillisecondTime : Reader Int := do
  let b ← readBytes 8
  return leInt b

def rdbLoadTime : Reader Int := do
  let b ← readBytes 4
  return leInt b

def lenErr : Nat := 2 ^ 32 - 1

def rdbSaveLen (n : Nat) : Bytes :=
  let len := n % 2 ^ 32
  if len < 2 ^ 6 then [UInt8.ofNat len]
  else if len < 2 ^ 14 then [UInt8.ofNat (len / 2 ^ 8) ||| 0x40, UInt8.ofNat len]
  else 0x80 :: (leBytes 4 len).reverse

/-- `rdbLoadLen`: whether a special encoding follows, and the length. -/
def rdbLoadLen : Reader (Bool × Nat) := do
  let b ← readByte
  if (b &&& 0xC0) >>> 6 = 3 then return (true, (b &&& 0x3F).toNat)
  else if (b &&& 0xC0) >>> 6 = 0 then return (false, (b &&& 0x3F).toNat)
  else if (b &&& 0xC0) >>> 6 = 1 then do
    let c ← readByte
    return (false, (b &&& 0x3F).toNat * 2 ^ 8 + c.toNat)
  else do
    let l ← readBytes 4
    if leNat l.reverse = lenErr then fail else return (false, leNat l.reverse)

/-! ## Strings -/

def rdbEncodeInteger (value : Int) : Option Bytes :=
  if -2 ^ 7 ≤ value ∧ value ≤ 2 ^ 7 - 1 then some (0xC0 :: leBytes 1 value)
  else if -2 ^ 15 ≤ value ∧ value ≤ 2 ^ 15 - 1 then some (0xC1 :: leBytes 2 value)
  else if -2 ^ 31 ≤ value ∧ value ≤ 2 ^ 31 - 1 then some (0xC2 :: leBytes 4 value)
  else none

/-- The value of `strtoll` and the text it stops at. -/
def strtollAt (b : Bytes) : Int × Bytes :=
  let t := (cstr b).dropWhile isspace
  let neg := t.head? == some 45
  let ds := if neg || t.head? == some 43 then t.tail else t
  if ds.takeWhile isDigit = [] then (0, cstr b)
  else
    let v : Int := digitsVal (ds.takeWhile isDigit)
    (max (-2 ^ 63) (min (2 ^ 63 - 1) (if neg then -v else v)), ds.dropWhile isDigit)

def rdbTryIntegerEncoding (s : Bytes) : Option Bytes :=
  if (strtollAt s).2 ≠ [] then none
  else if ll2string (strtollAt s).1 ≠ s then none
  else rdbEncodeInteger (strtollAt s).1

/-- The bytes for an integer-encoded string, or `none` for the general form. -/
def intForm (s : Bytes) : Option Bytes := if s.length ≤ 11 then rdbTryIntegerEncoding s else none

section Save

variable {cfg : Cfg} (lib : RdbLib cfg)

def rdbSaveLzfStringObject (s : Bytes) : Option Bytes :=
  if s.length ≤ 4 then none
  else (lib.lzfCompress s).map fun c => 0xC3 :: rdbSaveLen c.length ++ rdbSaveLen s.length ++ c

def lzfForm (s : Bytes) : Option Bytes :=
  if lib.compression ∧ s.length > 20 then rdbSaveLzfStringObject lib s else none

def rdbSaveRawString (s : Bytes) : Bytes :=
  match intForm s with
  | some enc => enc
  | none =>
    match lzfForm lib s with
    | some enc => enc
    | none => rdbSaveLen s.length ++ s

def rdbSaveLongLongAsStringObject (value : Int) : Bytes :=
  match rdbEncodeInteger value with
  | some enc => enc
  | none => rdbSaveLen (ll2string value).length ++ ll2string value

def rdbSaveStringObject : Str → Bytes
  | .int n _ => rdbSaveLongLongAsStringObject n
  | .raw b => rdbSaveRawString lib b

def saveElement (b : Bytes) : Bytes := rdbSaveStringObject lib (tryObjectEncoding cfg b)

def doubleText (d : Double) : Bytes :=
  match lib.doubleLong d with
  | some n => ll2string n
  | none => lib.fmtG d

def rdbSaveDoubleValue (d : Double) : Bytes :=
  if isNan d then [253]
  else if !isFinite d then [if d = negInf then 255 else 254]
  else UInt8.ofNat (doubleText lib d).length :: doubleText lib d

end Save

section Load

variable {cfg : Cfg} (lib : RdbLib cfg)

def rdbLoadIntegerObject (enctype : Nat) (encode : Bool) : Reader Str := do
  let b ← readBytes (if enctype = 0 then 1 else if enctype = 1 then 2 else 4)
  return if encode then createStringObjectFromLongLong (leInt b) else .raw (ll2string (leInt b))

def rdbLoadLzfStringObject : Reader Str := do
  let clen ← rdbLoadLen
  let len ← rdbLoadLen
  let c ← readBytes clen.2
  match lib.lzfDecompress c len.2 with
  | some val => return .raw val
  | none => fail

def rdbGenericLoadStringObject (encode : Bool) : Reader Str := do
  let len ← rdbLoadLen
  if len.1 then
    if len.2 ≤ 2 then rdbLoadIntegerObject len.2 encode
    else if len.2 = 3 then rdbLoadLzfStringObject lib
    else fail
  else do
    let b ← readBytes len.2
    return .raw b

def rdbLoadStringObject : Reader Str := rdbGenericLoadStringObject lib false
def rdbLoadEncodedStringObject : Reader Str := rdbGenericLoadStringObject lib true

/-- `tryObjectEncoding` leaves what is encoded already. -/
def encodeLoaded (cfg : Cfg) : Str → Str
  | .raw b => tryObjectEncoding cfg b
  | o => o

def rdbLoadDoubleValue : Reader Double := do
  let len ← readByte
  if len = 255 then return negInf
  else if len = 254 then return posInf
  else if len = 253 then return lib.rNan
  else do
    let b ← readBytes len.toNat
    return lib.scanG b

end Load

/-! ## Objects -/

def rdbObjectType : Val → UInt8
  | .str _ => 0
  | .list .linkedlist _ => 1
  | .set .ht _ => 2
  | .zset .skiplist _ => 3
  | .hash .ht _ => 4
  | .list .ziplist _ => 10
  | .set .intset _ => 11
  | .zset .ziplist _ => 12
  | .hash .ziplist _ => 13

section Objects

variable {cfg : Cfg} (lib : RdbLib cfg)

def rdbSaveObject : Val → Bytes
  | .str o => rdbSaveStringObject lib o
  | .list .linkedlist xs => rdbSaveLen xs.1.length ++ xs.1.flatMap (saveElement lib)
  | .set .ht ms => rdbSaveLen ms.length ++ ms.items.flatMap (saveElement lib)
  | .zset .skiplist ms => rdbSaveLen ms.length ++
      ms.items.flatMap fun p => saveElement lib p.1 ++ rdbSaveDoubleValue lib p.2
  | .hash .ht fs => rdbSaveLen fs.length ++
      fs.items.flatMap fun p => saveElement lib p.1 ++ saveElement lib p.2
  | .list .ziplist xs => rdbSaveRawString lib (lib.ziplistBlob xs.1)
  | .set .intset ms => rdbSaveRawString lib (lib.intsetBlob (ms.items.filterMap string2ll))
  | .zset .ziplist ms =>
    rdbSaveRawString lib (lib.ziplistBlob (ms.items.flatMap fun p => [p.1, cfg.d2string p.2]))
  | .hash .ziplist fs =>
    rdbSaveRawString lib (lib.ziplistBlob (fs.items.flatMap fun p => [p.1, p.2]))

def loadListElement (l : ListEnc × List Bytes) : Reader (ListEnc × List Bytes) := do
  let ele ← rdbLoadEncodedStringObject lib
  let long : Bool := match ele with
    | .raw b => decide (b.length > cfg.listMaxZiplistValue)
    | .int _ _ => false
  return (if l.1 = .ziplist ∧ long then .linkedlist else l.1, l.2 ++ [ele.bytes])

/-- One member of a set; a member that is there already is passed over. -/
def loadSetMember (s : SetEnc × Option Members) : Reader (SetEnc × Option Members) := do
  let ele ← rdbLoadEncodedStringObject lib
  let v := ele.bytes
  let enc := if (string2ll v).isNone then .ht else s.1
  return (enc, some (Coll.add s.2 (fun items => setSlot cfg enc items v) v))

/-- One member of a sorted set with its score, and the length of the longest raw member. -/
def loadScored (z : Nat × Option Scored) : Reader (Nat × Option Scored) := do
  let ele ← rdbLoadEncodedStringObject lib
  let score ← rdbLoadDoubleValue lib
  let m := ele.bytes
  let longest := match encodeLoaded cfg ele with
    | .raw b => max z.1 b.length
    | .int _ _ => z.1
  -- a member that comes twice would stand in the skip list twice
  if Coll.Has z.2 m then fail
  else return (longest, some (Coll.add z.2 (fun items => zSlot cfg items m score) (m, score)))

/-- One field of a hash with its value; no field is written twice. -/
def loadField (z : HashEnc × Option Fields) : Reader (HashEnc × Option Fields) := do
  let field ← rdbLoadEncodedStringObject lib
  let value ← rdbLoadEncodedStringObject lib
  let f := field.bytes
  let v := value.bytes
  let long := f.length > cfg.hashMaxZiplistValue ∨ v.length > cfg.hashMaxZiplistValue
  let enc := if z.1 = .ziplist ∧ ¬ long then .ziplist else .ht
  let slot (items : List (Bytes × Bytes)) :=
    if z.1 = .ziplist then items.length else cfg.dictSlot (items.map Prod.fst) f
  if Coll.Has z.2 f then fail else return (enc, some (Coll.add z.2 slot (f, v)))

def pairUp : List Bytes → Option (List (Bytes × Bytes))
  | [] => some []
  | [_] => none
  | a :: b :: rest => (pairUp rest).map ((a, b) :: ·)

/-- A blob turned into the object it stands for, converted when it is too long. -/
def loadBlob (type : UInt8) (b : Bytes) : Option Val :=
  if type = 10 then do
    let l ← lib.ziplistRead b
    let xs ← NEList.ofList? l
    return .list (if l.length > cfg.listMaxZiplistEntries then .linkedlist else .ziplist) xs
  else if type = 11 then do
    let l ← lib.intsetRead b
    let ms ← Coll.ofList? id (l.map ll2string)
    return .set (if l.length > cfg.setMaxIntsetEntries then .ht else .intset) ms
  else if type = 12 then do
    let l ← (lib.ziplistRead b).bind pairUp
    let ms ← Coll.ofList? Prod.fst (l.map fun p => (p.1, zzlGetScore cfg p.2))
    return .zset (if l.length > cfg.zsetMaxZiplistEntries then .skiplist else .ziplist) ms
  else if type = 13 then do
    let l ← (lib.ziplistRead b).bind pairUp
    let fs ← Coll.ofList? Prod.fst l
    return .hash (if l.length > cfg.hashMaxZiplistEntries then .ht else .ziplist) fs
  else none

/-- `rdbLoadObject`. Containers are never empty here. -/
def rdbLoadObject (type : UInt8) : Reader Val :=
  if type = 0 then do
    let o ← rdbLoadEncodedStringObject lib
    return .str (encodeLoaded cfg o)
  else if type = 1 then do
    let len ← rdbLoadLen
    let enc := if len.2 > cfg.listMaxZiplistEntries then .linkedlist else .ziplist
    let l ← times (loadListElement lib) len.2 (enc, [])
    (NEList.ofList? l.2).map (.list l.1)
  else if type = 2 then do
    let len ← rdbLoadLen
    let enc := if len.2 > cfg.setMaxIntsetEntries then .ht else .intset
    let s ← times (loadSetMember lib) len.2 (enc, none)
    s.2.map (.set s.1)
  else if type = 3 then do
    let len ← rdbLoadLen
    let z ← times (loadScored lib) len.2 (0, none)
    let short := len.2 ≤ cfg.zsetMaxZiplistEntries ∧ z.1 ≤ cfg.zsetMaxZiplistValue
    z.2.map (.zset (if short then .ziplist else .skiplist))
  else if type = 4 then do
    let len ← rdbLoadLen
    let enc := if len.2 > cfg.hashMaxZiplistEntries then .ht else .ziplist
    let h ← times (loadField lib) len.2 (enc, none)
    h.2.map (.hash h.1)
  else do
    let aux ← rdbLoadStringObject lib
    loadBlob lib type aux.bytes

end Objects

/-! ## The file -/

/-- `getExpire`: -1 when there is none. -/
def getExpire (e : Entry) : Int := e.expire.getD (-1)

def magic : Bytes := lit "REDIS0006"

section File

variable {cfg : Cfg} (lib : RdbLib cfg)

/-- `rdbSaveKeyValuePair`; nothing is written for a key that has expired. -/
def rdbSaveKeyValuePair (key : Bytes) (val : Val) (vers expire now : Int) : Bytes :=
  if expire ≠ -1 ∧ expire < now then []
  else
    (if expire ≠ -1 then expiretimeMs :: rdbSaveMillisecondTime expire else []) ++
      rdbObjectType val :: rdbSaveType vers ++ rdbSaveRawString lib key ++ rdbSaveObject lib val

variable (now : Int) (slave : Bool)

/-- One database, in the order its iterator meets the keys. -/
def rdbSaveDb (s : Store) (j : Nat) : Bytes :=
  if (s.dbs j).entries = [] then []
  else selectdb :: rdbSaveLen j ++ (s.dbs j).entries.flatMap fun p =>
    rdbSaveKeyValuePair lib p.1 p.2.obj.val (s.vers p.2.obj) (getExpire p.2) now

def rdbSave (s : Store) : Bytes :=
  let body := magic ++ (List.range cfg.dbnum).flatMap (rdbSaveDb lib now s) ++ [eof]
  body ++ leBytes 8 (if lib.checksum then lib.crc64 body else 0)

/-- `val->vers = vers; dbAdd(db,key,val)` and the expire time. -/
def loadEntry (d : Nat) (key : Bytes) (val : Val) (vers expire : Int) (s : Store) : Store :=
  let s := match val with
    | .str (.int n true) => { s with shared := Function.update s.shared n vers }
    | _ => s
  s.put d key (some ⟨⟨if val.isShared then 0 else vers, val⟩,
    if expire = -1 then none else some expire⟩)

/-- The expire time and the type of an entry. -/
def loadExpire (type : UInt8) : Reader (Int × UInt8) :=
  if type = expiretime then do
    let t ← rdbLoadTime
    if t = -1 then fail
    else do
      let type ← rdbLoadType
      return (t * 1000, type)
  else if type = expiretimeMs then do
    let t ← rdbLoadMillisecondTime
    if t = -1 then fail
    else do
      let type ← rdbLoadType
      return (t, type)
  else return (-1, type)

/-- One turn of the loop of `rdbLoad`: the database selected after it, unless the file has
ended, and the store. -/
def rdbLoadTurn (db : Nat) (s : Store) : Reader (Option Nat × Store) := do
  let type ← rdbLoadType
  let head ← loadExpire type
  if head.2 = eof then return (none, s)
  else if head.2 = selectdb then do
    let dbid ← rdbLoadLen
    if dbid.2 ≥ cfg.dbnum then fail else return (some dbid.2, s)
  else do
    let vers ← rdbLoadType
    let key ← rdbLoadStringObject lib
    let val ← rdbLoadObject lib head.2
    if !slave ∧ head.1 ≠ -1 ∧ head.1 < now then return (some db, s)
    -- `dbAdd` asserts that the key is new
    else if s.has db key.bytes then fail
    else return (some db, loadEntry db key.bytes val vers.toNat head.1 s)

/-- Every turn reads a byte, so the length of the file bounds the loop. -/
def rdbLoadLoop (now : Int) (slave : Bool) : Nat → Nat → Store → Reader Store
  | 0, _, _ => fail
  | n + 1, db, s => do
    let out ← rdbLoadTurn lib now slave db s
    match out.1 with
    | none => return out.2
    | some db => rdbLoadLoop now slave n db out.2

/-- `rdbLoad`; `slave` is whether the server has a master. -/
def rdbLoad (file : Bytes) (s : Store) : Option Store := do
  let (sig, rest) ← readBytes 9 file
  if sig.take 5 ≠ lit "REDIS" then none
  else if atoi (sig.drop 5) < 1 ∨ atoi (sig.drop 5) > 6 then none
  else do
    let (s, rest) ← rdbLoadLoop lib now slave (rest.length + 1) 0 s rest
    if atoi (sig.drop 5) ≥ 5 ∧ lib.checksum then do
      let (sum, _) ← readBytes 8 rest
      let expected := leBytes 8 (lib.crc64 (file.take (file.length - rest.length)))
      if sum = leBytes 8 0 ∨ sum = expected then return s else none
    else return s

end File

end SchemaUpdate.KVolve
