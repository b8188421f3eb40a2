import SchemaUpdate.Redis.Command

/-! # Commands that store no new object

A command either is one of those that store a value of their own making, or it leaves
every slot with the object it has, changed or not, or empty. -/

namespace SchemaUpdate.Redis

open SchemaUpdate.Lib

/-- Another object is put into the slot. -/
def Renews : Act → Bool
  | .create _ | .overwrite _ | .assign _ _ => true
  | _ => false

/-- What is in the slot stays there, or goes; a value changed in place is no shared object. -/
def Mild : Act → Prop
  | .keep | .delete | .setExpire _ => True
  | .modify x => x.isShared = false
  | _ => False

theorem Mild.not_renews {a : Act} (h : Mild a) : Renews a = false := by
  cases a <;> first | rfl | exact h.elim

def storesCmd : Cmd → Bool
  | .set | .setnx | .mset | .getset | .incr | .incrby => true
  | .sadd | .zadd | .lpush | .rpush | .hset | .hmset => true
  | _ => false

/-- The procedure puts no other object into the slot. -/
def Gentle (p : KeyProc) : Prop := ∀ cur, Mild (p cur).2

def Plan.Gentle (p : Plan) : Prop :=
  ∀ steps combine, p = .run steps combine → ∀ st ∈ steps, Redis.Gentle st.proc

section Procs

theorem storeList_gentle (l : ListEnc × List Bytes) : Mild (storeList true l) := by
  unfold storeList
  split <;> trivial

theorem storeSet_gentle (enc : SetEnc) (o : Option Members) : Mild (storeSet enc o) := by
  cases o <;> trivial

theorem storeHash_gentle (enc : HashEnc) (o : Option Fields) :
    Mild (storeHash enc o) := by
  cases o <;> trivial

theorem storeZset_gentle (enc : ZsetEnc) (o : Option Scored) :
    Mild (storeZset enc o) := by
  cases o <;> trivial

variable {missing : Reply}

theorem onList_gentle {f : ListEnc → List Bytes → Reply × Act} (hf : ∀ enc l, Mild (f enc l).2) :
    Gentle (onList missing f) := by
  intro cur
  unfold onList
  split
  · trivial
  · exact hf _ _
  · trivial

theorem onSet_gentle {f : SetEnc → Members → Reply × Act} (hf : ∀ enc ms, Mild (f enc ms).2) :
    Gentle (onSet missing f) := by
  intro cur
  unfold onSet
  split
  · trivial
  · exact hf _ _
  · trivial

theorem onHash_gentle {f : HashEnc → Fields → Reply × Act} (hf : ∀ enc fs, Mild (f enc fs).2) :
    Gentle (onHash missing f) := by
  intro cur
  unfold onHash
  split
  · trivial
  · exact hf _ _
  · trivial

theorem onZset_gentle {f : ZsetEnc → Scored → Reply × Act} (hf : ∀ enc ms, Mild (f enc ms).2) :
    Gentle (onZset missing f) := by
  intro cur
  unfold onZset
  split
  · trivial
  · exact hf _ _
  · trivial

theorem getProc_gentle : Gentle getProc := by
  intro cur
  unfold getProc
  split <;> trivial

theorem mgetProc_gentle : Gentle mgetProc := by
  intro cur
  unfold mgetProc
  split <;> trivial

theorem getrangeProc_gentle (a b : Int) : Gentle (getrangeProc a b) := by
  intro cur
  unfold getrangeProc
  split
  · trivial
  · simp only
    split_ifs <;> trivial
  · trivial

theorem delProc_gentle : Gentle delProc := by
  intro cur
  unfold delProc
  split <;> trivial

theorem popProc_gentle (head : Bool) : Gentle (popProc head) := by
  refine onList_gentle fun enc l => ?_
  simp only
  split
  · trivial
  · exact storeList_gentle _

theorem lsetProc_gentle (cfg : Cfg) (index v : Bytes) : Gentle (lsetProc cfg index v) := by
  refine onList_gentle fun enc l => ?_
  split
  · trivial
  · simp only
    split
    · simp only
      split
      · trivial
      · exact storeList_gentle _
    · exact storeList_gentle _

theorem zrangeProc_gentle (cfg : Cfg) (reverse withscores : Bool) (a b : Int) :
    Gentle (zrangeProc cfg reverse withscores a b) := by
  refine onZset_gentle fun enc ms => ?_
  split <;> trivial

end Procs

/-! ## Plans -/

theorem Plan.Gentle.refuse (r : Reply) : Plan.Gentle (.refuse r) := by
  intro steps combine h
  cases h

theorem Plan.Gentle.one {k : Bytes} {tag : Int} {p : KeyProc} (hp : Redis.Gentle p) :
    Plan.Gentle (.one k tag p) := by
  intro steps combine h st hst
  cases h
  rw [List.mem_singleton] at hst
  rw [hst]
  exact hp

theorem Plan.Gentle.longLong {a : Bytes} {f : Int → Plan} (hf : ∀ n, Plan.Gentle (f n)) :
    Plan.Gentle (withLongLong a f) := by
  unfold withLongLong
  split
  · exact hf _
  · exact .refuse _

theorem Plan.Gentle.keys {ks : List Arg} {p : KeyProc} (hp : Redis.Gentle p)
    (combine : List Reply → Reply) :
    Plan.Gentle (.run (ks.map fun k => ⟨k.ptr, 0, p⟩) combine) := by
  intro steps combine' h st hst
  cases h
  obtain ⟨k, -, rfl⟩ := List.mem_map.mp hst
  exact hp

theorem zrangeGeneric_gentle (cfg : Cfg) (reverse : Bool) (k a b : Arg) (opts : List Arg) :
    (zrangeGeneric cfg reverse k a b opts).Gentle := by
  refine Plan.Gentle.longLong fun i => Plan.Gentle.longLong fun j => ?_
  split
  · exact .one (zrangeProc_gentle cfg reverse _ i j)
  · split
    · exact .one (zrangeProc_gentle cfg reverse _ i j)
    · exact .refuse _
  · exact .refuse _

/-- **A command that is no store command puts no other object into a slot.** -/
theorem plan_gentle {cfg : Cfg} {now : Int} {rand : Nat} {cmd : Cmd} {args : List Arg} {p : Plan}
    (hcmd : storesCmd cmd = false) (hplan : plan cfg now rand cmd args = some p) : p.Gentle := by
  unfold plan at hplan
  split at hplan <;> cases hplan <;> cases hcmd
  case h_1 => exact .one getProc_gentle
  case h_5 =>
    exact .longLong fun a => .longLong fun b => .one (getrangeProc_gentle a b)
  case h_8 => exact .keys mgetProc_gentle _
  case h_10 => exact .keys delProc_gentle _
  case h_11 =>
    refine .longLong fun n => .one fun cur => ?_
    cases cur with
    | none => trivial
    | some x =>
      simp only
      split <;> trivial
  case h_12 =>
    intro steps combine h
    cases h
  case h_15 => exact .one (popProc_gentle _)
  case h_16 => exact .one (popProc_gentle _)
  case h_17 => exact .one (onList_gentle fun _ _ => trivial)
  case h_18 =>
    refine .longLong fun a => .longLong fun b => .one ?_
    refine onList_gentle fun _ l => ?_
    split <;> trivial
  case h_19 => exact .one (lsetProc_gentle cfg _ _)
  case h_21 => exact .one (onSet_gentle fun _ _ => storeSet_gentle _ _)
  case h_22 => exact .one (onSet_gentle fun _ _ => trivial)
  case h_23 => exact .one (onSet_gentle fun _ _ => trivial)
  case h_24 => exact .one (onSet_gentle fun _ _ => storeSet_gentle _ _)
  case h_25 => exact .one (onSet_gentle fun _ _ => trivial)
  case h_28 => exact .one (onHash_gentle fun _ _ => trivial)
  case h_29 => exact .one (onHash_gentle fun _ _ => trivial)
  case h_30 => exact .one (onHash_gentle fun _ _ => trivial)
  case h_31 => exact .one (onHash_gentle fun _ _ => storeHash_gentle _ _)
  case h_33 => exact .one (onZset_gentle fun _ _ => storeZset_gentle _ _)
  case h_34 => exact .one (onZset_gentle fun _ _ => trivial)
  case h_35 =>
    refine .one (onZset_gentle fun _ ms => ?_)
    split <;> trivial
  case h_36 => exact zrangeGeneric_gentle cfg _ _ _ _ _
  case h_37 => exact zrangeGeneric_gentle cfg _ _ _ _ _

end SchemaUpdate.Redis
