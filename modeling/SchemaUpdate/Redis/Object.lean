import SchemaUpdate.Lib.Bytes
import SchemaUpdate.Lib.Coll
import SchemaUpdate.Lib.Dict

/-! # Redis objects, replies and configuration

The values a key can hold with their encodings, the replies of the protocol and
the part of the configuration the commands read. Element objects of a container
are represented by their bytes: in every encoding an element that reads as an
integer is held as one, so the encoding of an element is a function of its bytes. -/

namespace SchemaUpdate.Redis

open SchemaUpdate.Lib

-- A C double, by its bit pattern.
abbrev Double := UInt64

/-- What the commands read of the configuration and of the C library. -/
structure Cfg where
  listMaxZiplistEntries : Nat := 512
  listMaxZiplistValue : Nat := 64
  setMaxIntsetEntries : Nat := 512
  hashMaxZiplistEntries : Nat := 512
  hashMaxZiplistValue : Nat := 64
  zsetMaxZiplistEntries : Nat := 128
  zsetMaxZiplistValue : Nat := 64
  -- `maxmemory` is set with an LRU policy, so values are never shared integers
  lruPolicy : Bool := false
  dbnum : Nat := 16
  requirepass : Option Bytes := none
  -- `getDoubleFromObject` on a raw text
  getDouble : Bytes → Option Double := fun _ => none
  -- `strtod(buf, NULL)`, as `zzlGetScore` reads a score back
  strtod : Bytes → Double := fun _ => 0
  -- a `long long` converted to a double
  ofInt : Int → Double := fun _ => 0
  -- the text of a score inside a ziplist
  d2string : Double → Bytes := fun _ => [48]
  -- the text `addReplyDouble` sends
  replyDouble : Double → Bytes := fun _ => [48]
  -- `snprintf("%f")` into a 50-byte buffer
  fmtF : Double → Bytes := fun _ => [48]
  dlt : Double → Double → Bool := fun a b => a < b
  deq : Double → Double → Bool := fun a b => a == b
  -- where a hash table places a new key in its iteration order
  dictSlot : List Bytes → Bytes → Nat := fun l _ => l.length
  -- `stringmatchlen(pattern, string)`, case sensitive
  stringmatchlen : Bytes → Bytes → Bool := fun p s => p == [42] || p == s

/-- A string value: `REDIS_ENCODING_RAW`, or `REDIS_ENCODING_INT` with a private
object or with one of the shared integer objects. -/
inductive Str
  | raw (b : Bytes)
  | int (n : Int) (shared : Bool)
  deriving DecidableEq

inductive ListEnc
  | ziplist | linkedlist
  deriving DecidableEq

inductive SetEnc
  | intset | ht
  deriving DecidableEq

inductive HashEnc
  | ziplist | ht
  deriving DecidableEq

inductive ZsetEnc
  | ziplist | skiplist
  deriving DecidableEq

abbrev Members := Coll (id : Bytes → Bytes)
abbrev Fields := Coll (Prod.fst : Bytes × Bytes → Bytes)
abbrev Scored := Coll (Prod.fst : Bytes × Double → Bytes)

/-- A value. Containers are never empty: Redis deletes the key instead. -/
inductive Val
  | str (s : Str)
  | list (enc : ListEnc) (xs : NEList Bytes)
  | set (enc : SetEnc) (ms : Members)
  | hash (enc : HashEnc) (fs : Fields)
  | zset (enc : ZsetEnc) (ms : Scored)
  deriving DecidableEq

def Val.isShared : Val → Bool
  | .str (.int _ true) => true
  | _ => false

/-- An object with the version field KVolve adds. The field of a shared integer
is not part of the object: the server keeps one for each shared integer. -/
structure Robj where
  vers : Int
  val : Val
  deriving DecidableEq

/-- A slot of the keyspace: an object and the time it expires, if any. -/
structure Entry where
  obj : Robj
  expire : Option Int
  deriving DecidableEq

abbrev Db := Dict Bytes Entry

/-! ## String encodings -/

def sharedIntegers : Int := 10000

def Str.bytes : Str → Bytes
  | .raw b => b
  | .int n _ => ll2string n

def encInt (b : Bytes) : Option Int := if b.length ≤ 21 then string2ll b else none

def tryObjectEncoding (cfg : Cfg) (b : Bytes) : Str :=
  match encInt b with
  | some n => .int n (!cfg.lruPolicy && (0 ≤ n && n < sharedIntegers))
  | none => .raw b

def createStringObjectFromLongLong (n : Int) : Str := .int n (0 ≤ n && n < sharedIntegers)

def Str.getLongLong : Str → Option Int
  | .raw b => strtoll b
  | .int n _ => some n

/-- Two's complement wrap-around at 64 bits. -/
def wrap64 (n : Int) : Int := n.bmod (2 ^ 64)

/-- The truncation of a `long` to an `int`. -/
def wrap32 (n : Int) : Int := n.bmod (2 ^ 32)

/-! ## Replies -/

inductive Tok
  | status (b : Bytes)
  | error (b : Bytes)
  | int (n : Int)
  | bulk (b : Bytes)
  | nullBulk
  | multi (n : Nat)
  | nullMulti
  deriving DecidableEq

/-- What is written to the client, element by element. -/
abbrev Reply := List Tok

def ok : Reply := [.status (lit "OK")]
def wrongtypeerr : Reply :=
  [.error (lit "WRONGTYPE Operation against a key holding the wrong kind of value")]
def syntaxerr : Reply := [.error (lit "ERR syntax error")]
def nokeyerr : Reply := [.error (lit "ERR no such key")]
def outofrangeerr : Reply := [.error (lit "ERR index out of range")]
def noautherr : Reply := [.error (lit "NOAUTH Authentication required.")]
def execaborterr : Reply :=
  [.error (lit "EXECABORT Transaction discarded because of previous errors.")]
def notInteger : Reply := [.error (lit "ERR value is not an integer or out of range")]
def notFloat : Reply := [.error (lit "ERR value is not a valid float")]

def replyError (msg : Bytes) : Reply := [.error (lit "ERR " ++ msg)]

end SchemaUpdate.Redis
