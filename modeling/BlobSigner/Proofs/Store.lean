import BlobSigner.Store
/-!
# Several writes in a row

`putAll` writes one blob's slices after the other until a write fails. It gets to the end exactly if
the outage leaves that many writes; then each blob has the slices of its last write, and nothing
else of the store has changed (`putAll_eq_ok_iff`, `get?_insertAll`). Writes that were cut short can
be made again from the beginning (`insertAll_replay`).
-/
namespace BlobSigner

/-! ## Insertions in a row -/

namespace Table

variable {κ ν : Type} [DecidableEq κ]

def insertAll (t : Table κ ν) (entries : List (κ × ν)) : Table κ ν :=
  entries.foldl (fun t e => t.insert e.1 e.2) t

/-- The last value given to a key, if one was. -/
def lastOf (k : κ) : List (κ × ν) → Option ν
  | [] => none
  | (k', v) :: rest => (lastOf k rest).or (if k' = k then some v else none)

/-- A later entry replaces an earlier one of its key. -/
theorem get?_insertAll (t : Table κ ν) (entries : List (κ × ν)) (k : κ) :
    (t.insertAll entries).get? k = (lastOf k entries).or (t.get? k) := by
  induction entries generalizing t with
  | nil => simp [insertAll, lastOf]
  | cons e rest ih =>
    obtain ⟨k', v⟩ := e
    have hstep : t.insertAll ((k', v) :: rest) = (t.insert k' v).insertAll rest := rfl
    rw [hstep, ih, get?_insert, lastOf]
    cases lastOf k rest with
    | some w => rfl
    | none =>
      by_cases h : k' = k
      · simp only [if_pos h, Option.none_or, Option.some_or]
      · simp only [if_neg h, Option.none_or]

theorem insertAll_append (t : Table κ ν) (l l' : List (κ × ν)) :
    t.insertAll (l ++ l') = (t.insertAll l).insertAll l' :=
  List.foldl_append

/-! ### Keys -/

theorem keys_insert (t : Table κ ν) (k : κ) (v : ν) :
    (t.insert k v).keys = if k ∈ t.keys then t.keys else t.keys ++ [k] :=
  keys_put k v t.entries

theorem mem_keys_insert {t : Table κ ν} {k k' : κ} {v : ν} :
    k' ∈ (t.insert k v).keys ↔ k' ∈ t.keys ∨ k' = k := by
  rw [keys_insert]
  split
  · exact ⟨Or.inl, fun h => h.elim id fun heq => heq ▸ ‹_›⟩
  · rw [List.mem_append, List.mem_singleton]

theorem mem_keys_insertAll {t : Table κ ν} {entries : List (κ × ν)} {k : κ} :
    k ∈ (t.insertAll entries).keys ↔ k ∈ t.keys ∨ k ∈ entries.map Prod.fst := by
  induction entries generalizing t with
  | nil => simp [insertAll]
  | cons e rest ih =>
    have hstep : t.insertAll (e :: rest) = (t.insert e.1 e.2).insertAll rest := rfl
    rw [hstep, ih, mem_keys_insert, List.map_cons, List.mem_cons, or_assoc]

/-- Keys that are there keep their places. -/
theorem keys_insertAll_of_subset {t : Table κ ν} {entries : List (κ × ν)}
    (h : ∀ e ∈ entries, e.1 ∈ t.keys) : (t.insertAll entries).keys = t.keys := by
  induction entries generalizing t with
  | nil => rfl
  | cons e rest ih =>
    obtain ⟨he, hrest⟩ := List.forall_mem_cons.1 h
    have hkeys : (t.insert e.1 e.2).keys = t.keys := by rw [keys_insert, if_pos he]
    have hstep : t.insertAll (e :: rest) = (t.insert e.1 e.2).insertAll rest := rfl
    rw [hstep, ih (by rwa [hkeys]), hkeys]

theorem find?_eq_none_of_not_mem {k : κ} {l : List (κ × ν)} (h : k ∉ l.map Prod.fst) :
    find? k l = none := by
  induction l with
  | nil => rfl
  | cons e l ih =>
    rw [List.map_cons, List.mem_cons, not_or] at h
    rw [find?, if_neg (Ne.symm h.1), ih h.2]

theorem entries_eq_of_find? {l l' : List (κ × ν)} (hnodup : (l.map Prod.fst).Nodup)
    (hkeys : l.map Prod.fst = l'.map Prod.fst) (h : ∀ k, find? k l = find? k l') : l = l' := by
  induction l generalizing l' with
  | nil => exact (List.map_eq_nil_iff.1 hkeys.symm).symm
  | cons e l ih =>
    obtain ⟨k, v⟩ := e
    obtain ⟨⟨k', v'⟩, l', rfl, rfl, hrest⟩ := List.map_eq_cons_iff.1 hkeys.symm
    obtain ⟨hhead, htail⟩ := List.nodup_cons.1 hnodup
    have hv : v = v' := by simpa [find?] using h k'
    refine hv ▸ congrArg _ (ih htail hrest.symm fun k => ?_)
    by_cases hk : k' = k
    · subst hk
      rw [find?_eq_none_of_not_mem hhead, find?_eq_none_of_not_mem (hrest ▸ hhead)]
    · simpa [find?, hk] using h k

/-- Tables with the same keys, in order, and the same values are equal. -/
theorem ext_get? {s t : Table κ ν} (hkeys : s.keys = t.keys) (h : ∀ k, s.get? k = t.get? k) :
    s = t :=
  Table.ext (entries_eq_of_find? s.nodup_keys hkeys h)

/-- Entries that have been put in can be put in again, with what is to follow. -/
theorem insertAll_replay (t : Table κ ν) (done rest : List (κ × ν)) :
    (t.insertAll done).insertAll (done ++ rest) = t.insertAll (done ++ rest) := by
  have hdone : (t.insertAll done).insertAll done = t.insertAll done := by
    refine ext_get? (keys_insertAll_of_subset fun e he => ?_) fun k => ?_
    · exact mem_keys_insertAll.2 (Or.inr (List.mem_map_of_mem he))
    · rw [get?_insertAll, get?_insertAll]
      cases lastOf k done <;> rfl
  rw [insertAll_append, hdone, insertAll_append]

end Table

/-! ## Writes in a row -/

namespace Store

/-- What a write does that succeeds. -/
def put (st : Store) (k : BlobKey) (slices : List Slice) : Store :=
  { st with slices := st.slices.insert k slices, outage := st.outage.spend }

theorem putSlices_eq_ok_iff {st st' : Store} {k : BlobKey} {slices : List Slice} :
    st.putSlices k slices = .ok st' ↔ st.outage.writesLeft ≠ some 0 ∧ st' = st.put k slices := by
  unfold putSlices
  split
  · rename_i h
    simp [h]
  · rename_i h
    simp only [Except.ok.injEq, h, ne_eq, not_false_eq_true, true_and]
    exact ⟨Eq.symm, Eq.symm⟩

theorem putSlices_eq_error_iff {st : Store} {k : BlobKey} {slices : List Slice} {why : String} :
    st.putSlices k slices = .error why ↔ st.outage.writesLeft = some 0 ∧ why = st.failure := by
  unfold putSlices
  split
  · rename_i h
    simp only [Except.error.injEq, h, true_and]
    exact ⟨Eq.symm, Eq.symm⟩
  · rename_i h
    simp [h]

/-- Writes one after the other, up to the first that fails. -/
def putAll : List (BlobKey × List Slice) → Store → Except String Store
  | [], st => .ok st
  | (k, slices) :: rest, st =>
    match st.putSlices k slices with
    | .error why => .error why
    | .ok st => putAll rest st

theorem putAll_eq_ok_iff {entries : List (BlobKey × List Slice)} {st st' : Store} :
    putAll entries st = .ok st' ↔
      (∀ left, st.outage.writesLeft = some left → entries.length ≤ left) ∧
        st' = entries.foldl (fun st e => st.put e.1 e.2) st := by
  induction entries generalizing st with
  | nil =>
    simp only [putAll, Except.ok.injEq, List.length_nil, List.foldl_nil]
    exact ⟨fun h => ⟨fun _ _ => Nat.zero_le _, h.symm⟩, fun h => h.2.symm⟩
  | cons e rest ih =>
    obtain ⟨k, slices⟩ := e
    have hleft : (st.put k slices).outage.writesLeft = st.outage.writesLeft.map (· - 1) := rfl
    cases hput : st.putSlices k slices with
    | error why =>
      obtain ⟨h0, -⟩ := putSlices_eq_error_iff.1 hput
      simp only [putAll, hput, reduceCtorEq, false_iff, not_and]
      intro hroom
      exact absurd (hroom 0 h0) (by simp)
    | ok st₁ =>
      obtain ⟨h0, rfl⟩ := putSlices_eq_ok_iff.1 hput
      simp only [putAll, hput, ih, hleft, List.foldl_cons, List.length_cons]
      refine and_congr_left fun _ => ?_
      cases hw : st.outage.writesLeft with
      | none => simp
      | some left =>
        have hpos : left ≠ 0 := fun e => h0 (by rw [hw, e])
        simp only [Option.map_some, Option.some.injEq, forall_eq']
        omega

/-- The writes succeed, or a first one fails. -/
theorem putAll_or_stops (entries : List (BlobKey × List Slice)) (st : Store) :
    (∃ st', putAll entries st = .ok st') ∨
      ∃ done k slices rest st' why, entries = done ++ (k, slices) :: rest ∧
        putAll done st = .ok st' ∧ st'.putSlices k slices = .error why := by
  induction entries generalizing st with
  | nil => exact Or.inl ⟨st, rfl⟩
  | cons e rest ih =>
    obtain ⟨k, slices⟩ := e
    cases hput : st.putSlices k slices with
    | error why => exact Or.inr ⟨[], k, slices, rest, st, why, rfl, rfl, hput⟩
    | ok st₁ =>
      rcases ih st₁ with ⟨st', h⟩ | ⟨done, k', slices', rest', st', why, rfl, hdone, hfail⟩
      · exact Or.inl ⟨st', by simp only [putAll, hput, h]⟩
      · refine Or.inr ⟨(k, slices) :: done, k', slices', rest', st', why, rfl, ?_, hfail⟩
        simp only [putAll, hput, hdone]

theorem putAll_append {es fs : List (BlobKey × List Slice)} {st st₁ st₂ : Store}
    (he : putAll es st = .ok st₁) (hf : putAll fs st₁ = .ok st₂) :
    putAll (es ++ fs) st = .ok st₂ := by
  induction es generalizing st with
  | nil =>
    cases he
    exact hf
  | cons e rest ih =>
    obtain ⟨k, slices⟩ := e
    cases hput : st.putSlices k slices with
    | error why => simp [putAll, hput] at he
    | ok st' =>
      simp only [putAll, hput] at he
      simp only [List.cons_append, putAll, hput]
      exact ih he

theorem exists_of_putAll_append {es fs : List (BlobKey × List Slice)} {st st₂ : Store}
    (h : putAll (es ++ fs) st = .ok st₂) : ∃ st₁, putAll es st = .ok st₁ ∧ putAll fs st₁ = .ok st₂ := by
  induction es generalizing st with
  | nil => exact ⟨st, rfl, h⟩
  | cons e rest ih =>
    obtain ⟨k, slices⟩ := e
    cases hput : st.putSlices k slices with
    | error why => simp [putAll, hput] at h
    | ok st' =>
      simp only [List.cons_append, putAll, hput] at h ⊢
      exact ih h

/-- Writes leave the other tables alone and replace slices in order. -/
theorem tables_of_putAll {entries : List (BlobKey × List Slice)} {st st' : Store}
    (h : putAll entries st = .ok st') :
    st'.statuses = st.statuses ∧ st'.assignments = st.assignments ∧
      st'.slices = st.slices.insertAll entries := by
  obtain ⟨-, rfl⟩ := putAll_eq_ok_iff.1 h
  clear h
  induction entries generalizing st with
  | nil => exact ⟨rfl, rfl, rfl⟩
  | cons e rest ih =>
    obtain ⟨k, slices⟩ := e
    exact @ih (st.put k slices)

/-- What is read is not touched by writes. -/
theorem reads_of_putAll {entries : List (BlobKey × List Slice)} {st st' : Store}
    (h : putAll entries st = .ok st') :
    st'.readStatus = st.readStatus ∧ st'.readAssignment = st.readAssignment := by
  obtain ⟨-, rfl⟩ := putAll_eq_ok_iff.1 h
  clear h
  induction entries generalizing st with
  | nil => exact ⟨rfl, rfl⟩
  | cons e rest ih =>
    obtain ⟨k, slices⟩ := e
    exact @ih (st.put k slices)

end Store

end BlobSigner
