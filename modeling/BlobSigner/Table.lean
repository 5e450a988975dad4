/-!
# Tables

Finitely many keys with a value each, in the order in which the keys first came. Giving a key a new
value leaves its place, so tables that went through the same keys in the same order are equal.
-/
namespace BlobSigner

structure Table (κ ν : Type) where
  entries : List (κ × ν)
  /-- Each key is there once. -/
  nodup_keys : (entries.map Prod.fst).Nodup

namespace Table

variable {κ ν : Type}

def empty : Table κ ν := ⟨[], .nil⟩

instance : EmptyCollection (Table κ ν) := ⟨empty⟩
instance : Inhabited (Table κ ν) := ⟨empty⟩

@[ext] theorem ext {s t : Table κ ν} (h : s.entries = t.entries) : s = t := by
  cases s; cases t; simp_all

def size (t : Table κ ν) : Nat := t.entries.length

def keys (t : Table κ ν) : List κ := t.entries.map Prod.fst

variable [DecidableEq κ]

/-! ## Look-up -/

def find? (k : κ) : List (κ × ν) → Option ν
  | [] => none
  | (k', v) :: r => if k' = k then some v else find? k r

def get? (t : Table κ ν) (k : κ) : Option ν := find? k t.entries

/-! ## Insertion -/

/-- The value of `k` is replaced where it stands, or added at the end. -/
def put (k : κ) (v : ν) : List (κ × ν) → List (κ × ν)
  | [] => [(k, v)]
  | (k', v') :: r => if k' = k then (k, v) :: r else (k', v') :: put k v r

theorem keys_put (k : κ) (v : ν) (l : List (κ × ν)) :
    (put k v l).map Prod.fst =
      if k ∈ l.map Prod.fst then l.map Prod.fst else l.map Prod.fst ++ [k] := by
  induction l with
  | nil => simp [put]
  | cons p r ih =>
    obtain ⟨k', v'⟩ := p
    by_cases h : k' = k
    · simp [put, h]
    · have hk : k ≠ k' := Ne.symm h
      simp only [put, h, if_false, List.map_cons, ih, List.mem_cons, hk, false_or]
      split <;> simp

theorem nodup_put (k : κ) (v : ν) {l : List (κ × ν)} (h : (l.map Prod.fst).Nodup) :
    ((put k v l).map Prod.fst).Nodup := by
  rw [keys_put]
  split
  · exact h
  · rename_i hk
    rw [List.nodup_append]
    refine ⟨h, by simp, ?_⟩
    intro a ha b hb e
    simp only [List.mem_singleton] at hb
    subst hb
    exact hk (e ▸ ha)

def insert (t : Table κ ν) (k : κ) (v : ν) : Table κ ν :=
  ⟨put k v t.entries, nodup_put k v t.nodup_keys⟩

/-! ## Removal -/

def erase (t : Table κ ν) (k : κ) : Table κ ν :=
  ⟨t.entries.filter fun p => p.1 ≠ k,
    (List.Sublist.map Prod.fst List.filter_sublist).nodup t.nodup_keys⟩

/-! ## What look-up sees -/

theorem find?_put (k k' : κ) (v : ν) (l : List (κ × ν)) :
    find? k' (put k v l) = if k = k' then some v else find? k' l := by
  induction l with
  | nil => simp [put, find?]
  | cons p r ih =>
    obtain ⟨k₀, v₀⟩ := p
    by_cases h : k₀ = k
    · subst h
      by_cases h' : k₀ = k' <;> simp [put, find?, h']
    · simp only [put, h, if_false, find?]
      by_cases h' : k₀ = k'
      · subst h'
        simp [Ne.symm h]
      · simp only [h', if_false]
        exact ih

theorem get?_insert (t : Table κ ν) (k k' : κ) (v : ν) :
    (t.insert k v).get? k' = if k = k' then some v else t.get? k' :=
  find?_put k k' v t.entries

@[simp] theorem get?_empty (k : κ) : (∅ : Table κ ν).get? k = none := rfl

end Table

end BlobSigner
