import SchemaUpdate.Redis.Sets

/-! # Hash commands

`t_hash.c`. A new field goes to the tail of a ziplist or into its slot of a hash
table; an existing field keeps its place. -/

namespace SchemaUpdate.Redis

open SchemaUpdate.Lib

variable (cfg : Cfg) (k : Arg) (enc : HashEnc) (fs : List Arg)

def hashTypeTryConversion (args : List Bytes) : HashEnc :=
  if args.any (fun a => a.length > cfg.hashMaxZiplistValue) then .ht else enc

/-- `hashTypeSet`: the hash after the call and whether the field was there. -/
def hashTypeSet (fs : Fields) (f v : Bytes) : HashEnc × Fields × Bool :=
  if h : f ∈ fs.keys then (enc, fs.replace (f, v), true)
  else
    let slot := match enc with
      | .ziplist => fs.length
      | .ht => cfg.dictSlot fs.keys f
    let fs' := fs.insertAt slot (f, v) h
    (if fs'.length > cfg.hashMaxZiplistEntries then .ht else enc, fs', false)

def pairs : List Bytes → List (Bytes × Bytes)
  | f :: v :: rest => (f, v) :: pairs rest
  | _ => []

def hsetAll (cfg : Cfg) : List (Bytes × Bytes) → HashEnc × Fields → HashEnc × Fields
  | [], h => h
  | (f, v) :: l, h =>
    let r := hashTypeSet cfg h.1 h.2 f v
    hsetAll cfg l (r.1, r.2.1)

/-- `HSET` and `HMSET` on the value: the pairs to set and the reply for a hash that
did or did not hold the first field. -/
def hsetProc (fvs : List (Bytes × Bytes)) (reply : Bool → Reply) : KeyProc :=
  let args := fvs.flatMap fun p => [p.1, p.2]
  fun cur =>
    match cur, fvs with
    | _, [] => (reply false, .keep)
    | none, p :: rest =>
      let enc := hashTypeTryConversion cfg .ziplist args
      let enc := if 1 > cfg.hashMaxZiplistEntries then .ht else enc
      let h := hsetAll cfg rest (enc, .single p)
      (reply false, .create (.hash h.1 h.2))
    | some (.hash enc fs), p :: rest =>
      let h := hsetAll cfg (p :: rest) (hashTypeTryConversion cfg enc args, fs)
      (reply (p.1 ∈ fs.keys), .modify (.hash h.1 h.2))
    | some _, _ => (wrongtypeerr, .keep)

def hsetCommand (f v : Arg) : Plan :=
  .one k.ptr 0 (hsetProc cfg [(f.ptr, v.ptr)] fun update => [.int (if update then 0 else 1)])

def hmsetCommand (args : List Arg) : Plan :=
  if args.length % 2 = 1 then .refuse (replyError (lit "wrong number of arguments for HMSET"))
  else .one k.ptr 0 (hsetProc cfg (pairs (args.map (·.ptr))) fun _ => ok)

def onHash (missing : Reply) (f : HashEnc → Fields → Reply × Act) : KeyProc
  | none => (missing, .keep)
  | some (.hash enc fs) => f enc fs
  | some _ => (wrongtypeerr, .keep)

def addHashFieldToReply (fs : Option Fields) (f : Bytes) : Tok :=
  match fs.bind (·.find? f) with
  | some p => .bulk p.2
  | none => .nullBulk

def hgetCommand (f : Arg) : Plan :=
  .one k.ptr 0 (onHash [.nullBulk] fun _ fs => ([addHashFieldToReply (some fs) f.ptr], .keep))

def hmgetCommand : Plan :=
  let reply (h : Option Fields) : Reply :=
    .multi fs.length :: fs.map fun f => addHashFieldToReply h f.ptr
  .one k.ptr 0 (onHash (reply none) fun _ h => (reply (some h), .keep))

def hgetallCommand : Plan :=
  .one k.ptr 0 (onHash [.multi 0] fun _ fs =>
    (.multi (2 * fs.length) :: fs.items.flatMap (fun p => [.bulk p.1, .bulk p.2]), .keep))

def storeHash : Option Fields → Act
  | none => .delete
  | some fs => .modify (.hash enc fs)

def hdelAll : List Bytes → Fields → Nat → Option Fields × Nat
  | [], fs, n => (some fs, n)
  | f :: l, fs, n =>
    if f ∈ fs.keys then
      match fs.remove f with
      | none => (none, n + 1)
      | some fs' => hdelAll l fs' (n + 1)
    else hdelAll l fs n

def hdelProc (l : List Bytes) : KeyProc :=
  onHash [.int 0] fun enc fs =>
    let r := hdelAll l fs 0
    ([.int r.2], storeHash enc r.1)

def hdelCommand : Plan := .one k.ptr 0 (hdelProc (fs.map (·.ptr)))

end SchemaUpdate.Redis
