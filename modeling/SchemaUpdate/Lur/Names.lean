import SchemaUpdate.Lur.Redis

/-! # Logical and physical names

A key `ns:suffix` is stored as `v|ns:suffix`, where `v` is the version it was written
at and `ns` the name its namespace had then. A key without a colon belongs to the
namespace `*` and is stored as `v|suffix`. -/

namespace SchemaUpdate.Lur

open SchemaUpdate.Lib

def bar : UInt8 := 124

def star : Ns := [42]

variable (name : Bytes) (e : Ver × Ns)

/-- `split_namespace_key`: the namespace is what stands before the last colon. -/
def splitNamespaceKey : Ns × Bytes :=
  match rsplit colon name with
  | some p => p
  | none => (star, name)

def namespaceOf : Ns := (splitNamespaceKey name).1

def versioned (v : Ver) (name : Bytes) : Bytes := v ++ bar :: name

/-- The physical name of a key at one entry of the version list of its namespace. -/
def physical (ns : Ns) (suffix : Bytes) (e : Ver × Ns) : Bytes :=
  if ns ≠ star then versioned e.1 (e.2 ++ colon :: suffix) else versioned e.1 suffix

def nameAt : Bytes :=
  physical (splitNamespaceKey name).1 (splitNamespaceKey name).2 e

def potentialKeys (vl : List (Ver × Ns)) : List Bytes := vl.map (nameAt name)

theorem splitNamespaceKey_cases :
    (∃ ns suffix, splitNamespaceKey name = (ns, suffix) ∧ name = ns ++ colon :: suffix ∧
      colon ∉ suffix) ∨ (splitNamespaceKey name = (star, name) ∧ colon ∉ name) := by
  unfold splitNamespaceKey
  cases h : rsplit colon name with
  | none => exact .inr ⟨rfl, rsplit_eq_none.mp h⟩
  | some p =>
    obtain ⟨hname, hq⟩ := rsplit_sound h
    exact .inl ⟨p.1, p.2, rfl, hname, hq⟩

theorem splitNamespaceKey_join {ns suffix : Bytes} (h : colon ∉ suffix) :
    splitNamespaceKey (ns ++ colon :: suffix) = (ns, suffix) := by
  rw [splitNamespaceKey, rsplit_append h]

theorem colon_not_mem_suffix : colon ∉ (splitNamespaceKey name).2 := by
  obtain ⟨ns, suffix, h, -, hs⟩ | ⟨h, hs⟩ := splitNamespaceKey_cases name
  · rw [h]
    exact hs
  · rw [h]
    exact hs

/-- At the current entry of its own namespace a key has its own name, unless it is spelled
with the default namespace. -/
theorem nameAt_current {name : Bytes} (h : name ≠ star ++ colon :: (splitNamespaceKey name).2)
    (v : Ver) : nameAt name (v, (splitNamespaceKey name).1) = versioned v name := by
  unfold nameAt
  obtain ⟨ns, suffix, hsplit, hname, -⟩ | ⟨hsplit, -⟩ := splitNamespaceKey_cases name
  · rw [hsplit] at h ⊢
    rw [physical, if_pos, ← hname]
    intro hns
    have hns : ns = star := hns
    exact h (by rw [hname, hns])
  · rw [hsplit, physical, if_neg (by simp)]

/-- The key with the suffix in the namespace. -/
def logicalName (ns : Ns) (suffix : Bytes) : Bytes :=
  if ns = star then suffix else ns ++ colon :: suffix

/-- The name a key is written under by a client at the entry. -/
def writtenAt (suffix : Bytes) : Bytes := versioned e.1 (logicalName e.2 suffix)

theorem splitNamespaceKey_logicalName {suffix : Bytes} (h : colon ∉ suffix) (ns : Ns) :
    splitNamespaceKey (logicalName ns suffix) = (ns, suffix) := by
  unfold logicalName
  split
  · rename_i hns
    rw [splitNamespaceKey, rsplit_eq_none.mpr h, hns]
  · exact splitNamespaceKey_join h

/-! ## One name for one entry -/

theorem versioned_inj {v w : Ver} {a b : Bytes} (hv : bar ∉ v) (hw : bar ∉ w)
    (h : versioned v a = versioned w b) : v = w ∧ a = b := by
  induction v generalizing w with
  | nil =>
    cases w with
    | nil => exact ⟨rfl, by simpa [versioned] using h⟩
    | cons y w =>
      simp only [versioned, List.nil_append, List.cons_append, List.cons.injEq] at h
      exact absurd (by simp [h.1]) hw
  | cons x v ih =>
    cases w with
    | nil =>
      simp only [versioned, List.nil_append, List.cons_append, List.cons.injEq] at h
      exact absurd (by simp [h.1]) hv
    | cons y w =>
      simp only [versioned, List.cons_append, List.cons.injEq] at h
      simp only [List.mem_cons, not_or] at hv hw
      obtain ⟨hvw, hab⟩ := ih hv.2 hw.2 h.2
      exact ⟨by rw [h.1, hvw], hab⟩

theorem join_inj {n m s t : Bytes} (hs : colon ∉ s) (ht : colon ∉ t)
    (h : n ++ colon :: s = m ++ colon :: t) : n = m ∧ s = t := by
  have hn := rsplit_append hs n
  rw [h, rsplit_append ht] at hn
  cases hn
  exact ⟨rfl, rfl⟩

end SchemaUpdate.Lur
