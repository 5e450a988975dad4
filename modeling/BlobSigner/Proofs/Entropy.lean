import BlobSigner.Proofs.Entropy.Draws
import BlobSigner.Proofs.Bn254.Uncompressed
import Mathlib.Logic.Equiv.Fin.Basic
import Mathlib.SetTheory.Cardinal.Finite
/-!
# Random scalars

A scalar is drawn from the first chunk of thirty-two bytes that spells one, less its two top bits
(`scalar_eq_ok_iff`), and a generator that ends or refuses before such a chunk yields none
(`scalar_eq_error_iff`). Each
scalar but zero is spelt by four chunks (`candidateEquiv`), so there is a permutation of the chunks
that exchanges two scalars and nothing else (`exists_exchange`), and among the streams of any number
of chunks all scalars are drawn equally often (`card_findSome?_eq`).
-/
namespace BlobSigner.Entropy

variable {c : Bytes} {g rest : Generator} {k : Fr}

/-! ## One chunk -/

/-- The number that a chunk spells, less its two top bits. -/
def reduced (c : Bytes) : Nat := Radix.ofBigEndian c % 2 ^ 254

/-- The chunk spells a scalar other than zero. -/
def Stands (c : Bytes) : Prop := 1 ≤ reduced c ∧ reduced c < r

instance : DecidablePred Stands := fun c => inferInstanceAs (Decidable (1 ≤ reduced c ∧ reduced c < r))

theorem ofBigEndian_clearTop (h : c.length = 32) :
    Radix.ofBigEndian (c.modify 0 (· &&& 0x3f)) = reduced c := by
  cases c with
  | nil => cases h
  | cons d c =>
    have hlast : G1.unmarkLast (c.reverse ++ [d]) = c.reverse ++ [d &&& 0x3f] := G1.modify_last ..
    have hlength : (c.reverse ++ [d]).length = 32 := by simpa using h
    rw [List.modify_zero_cons, reduced, Radix.ofBigEndian_eq_reverse, Radix.ofBigEndian_eq_reverse,
      List.reverse_cons, List.reverse_cons, ← hlast, G1.ofLittleEndian_unmarkLast hlength]

theorem ofBigEndian_eq_ok_iff (h : c.length = 32) :
    Fr.ofBigEndian (c.modify 0 (· &&& 0x3f)) = .ok k ↔ k.val = reduced c := by
  rw [Fr.ofBigEndian_eq_ok_iff, List.length_modify, ofBigEndian_clearTop h]
  simp [h, eq_comm]

theorem candidate?_eq_some_iff (h : c.length = 32) :
    candidate? c = some k ↔ k ≠ 0 ∧ k.val = reduced c := by
  rw [← ofBigEndian_eq_ok_iff h, candidate?]
  cases hread : Fr.ofBigEndian (c.modify 0 (· &&& 0x3f)) with
  | error e => simp
  | ok k' =>
    by_cases hzero : k' = 0
    · simp only [if_pos hzero, reduceCtorEq, Except.ok.injEq, false_iff]
      rintro ⟨hne, rfl⟩
      exact hne hzero
    · simp only [if_neg hzero, Option.some.injEq, Except.ok.injEq]
      constructor
      · rintro rfl
        exact ⟨hzero, rfl⟩
      · exact fun h => h.2

theorem candidate?_eq_some_iff_stands (h : c.length = 32) :
    candidate? c = some k ↔ Stands c ∧ k.val = reduced c := by
  rw [candidate?_eq_some_iff h, ← Residue.one_le_val_iff]
  constructor
  · rintro ⟨hpos, hvalue⟩
    exact ⟨⟨hvalue ▸ hpos, hvalue ▸ k.val_lt⟩, hvalue⟩
  · rintro ⟨⟨hpos, -⟩, hvalue⟩
    exact ⟨hvalue ▸ hpos, hvalue⟩

theorem candidate?_eq_none_iff (h : c.length = 32) : candidate? c = none ↔ ¬ Stands c := by
  constructor
  · intro hnone hstands
    rw [(candidate?_eq_some_iff_stands h (k := ⟨reduced c, hstands.2⟩)).2 ⟨hstands, rfl⟩] at hnone
    cases hnone
  · intro hnot
    cases hk : candidate? c with
    | none => rfl
    | some k => exact absurd ((candidate?_eq_some_iff_stands h).1 hk).1 hnot

/-! ## Chunk after chunk -/

/-- The next chunk is there, and it is not refused. -/
def Ready (g : Generator) : Prop := 32 ≤ g.stream.length ∧ g.refuses 0 = false

theorem served_iff_ready : Served 32 g ↔ Ready g := by
  have hasked : asked 32 = 32 := by decide
  constructor
  · rintro (hzero | ⟨hgiven, -, hlen⟩)
    · exact absurd hzero (by decide)
    · exact ⟨hasked ▸ hlen, hgiven⟩
  · rintro ⟨hlen, hgiven⟩
    exact Or.inr ⟨hgiven, by decide, hasked.symm ▸ hlen⟩

theorem bytes_of_ready (h : Ready g) : bytes 32 g = .ok (g.stream.take 32, g.after 32) :=
  (bytes_of_served (served_iff_ready.2 h)).trans
    (congrArg (fun b => Except.ok (b, g.after 32)) (List.append_nil _))

theorem scalar_of_not_ready (h : ¬ Ready g) : scalar g = .error .generator := by
  have hdraw := bytes_of_not_served (served_iff_ready.not.2 h)
  rw [scalar.eq_def]
  split
  · rename_i he
    cases hdraw.symm.trans he
    rfl
  · rename_i he
    cases hdraw.symm.trans he

theorem scalar_of_ready (h : Ready g) :
    scalar g =
      match candidate? (g.stream.take 32) with
      | some k => .ok (k, g.after 32)
      | none => scalar (g.after 32) := by
  have hdraw := bytes_of_ready h
  rw [scalar.eq_def]
  split
  · rename_i he
    cases hdraw.symm.trans he
  · rename_i he
    cases hdraw.symm.trans he
    rfl

/-- Chunk `i` of a stream. -/
def chunk (i : Nat) (stream : Bytes) : Bytes := (stream.drop (32 * i)).take 32

theorem chunk_succ (i : Nat) (stream : Bytes) : chunk (i + 1) stream = chunk i (stream.drop 32) := by
  rw [chunk, chunk, List.drop_drop]
  congr 2
  omega

theorem length_chunk {i : Nat} {stream : Bytes} (h : 32 * (i + 1) ≤ stream.length) :
    (chunk i stream).length = 32 := by
  simp only [chunk, List.length_take, List.length_drop]
  omega

theorem chunk_zero (stream : Bytes) : chunk 0 stream = stream.take 32 := by
  rw [chunk, Nat.mul_zero, List.drop_zero]

/-- What is left of a generator after `n` chunks. -/
def Generator.skip (n : Nat) (g : Generator) : Generator :=
  ⟨g.stream.drop (32 * n), fun i => g.refuses (i + n)⟩

theorem skip_after (n : Nat) (g : Generator) : (g.after 32).skip n = g.skip (n + 1) := by
  have hdrop : (g.stream.drop 32).drop (32 * n) = g.stream.drop (32 * (n + 1)) := by
    rw [List.drop_drop]
    congr 1
    omega
  exact congrArg (Generator.mk · _) hdrop

/-- Chunk `n` is the first that stands for a scalar, and this is the scalar; no chunk up to this one is
refused. -/
structure FirstAt (n : Nat) (g : Generator) (k : Fr) : Prop where
  whole : 32 * (n + 1) ≤ g.stream.length
  given : ∀ i ≤ n, g.refuses i = false
  before : ∀ i < n, ¬ Stands (chunk i g.stream)
  here : Stands (chunk n g.stream)
  value : k.val = reduced (chunk n g.stream)

theorem firstAt_zero_iff :
    FirstAt 0 g k ↔ Ready g ∧ candidate? (g.stream.take 32) = some k := by
  constructor
  · rintro ⟨hwhole, hgiven, -, hhere, hvalue⟩
    refine ⟨⟨by omega, hgiven 0 le_rfl⟩, ?_⟩
    rw [← chunk_zero, candidate?_eq_some_iff_stands (length_chunk hwhole)]
    exact ⟨hhere, hvalue⟩
  · rintro ⟨⟨hlength, hgiven⟩, hk⟩
    have hwhole : 32 * (0 + 1) ≤ g.stream.length := by omega
    rw [← chunk_zero, candidate?_eq_some_iff_stands (length_chunk hwhole)] at hk
    refine ⟨hwhole, fun i hi => ?_, by simp, hk.1, hk.2⟩
    rwa [Nat.le_zero.1 hi]

theorem firstAt_succ_iff {n : Nat} : FirstAt (n + 1) g k ↔
    Ready g ∧ candidate? (g.stream.take 32) = none ∧ FirstAt n (g.after 32) k := by
  have hlength : (g.stream.drop 32).length = g.stream.length - 32 := List.length_drop
  constructor
  · rintro ⟨hwhole, hgiven, hbefore, hhere, hvalue⟩
    rw [chunk_succ] at hhere hvalue
    refine ⟨⟨by omega, hgiven 0 (Nat.zero_le _)⟩, ?_, ?_, fun i hi => ?_, fun i hi => ?_, hhere,
      hvalue⟩
    · rw [← chunk_zero, candidate?_eq_none_iff (length_chunk (by omega))]
      exact hbefore 0 (by omega)
    · show 32 * (n + 1) ≤ (g.stream.drop 32).length
      omega
    · exact hgiven (i + 1) (by omega)
    · show ¬ Stands (chunk i (g.stream.drop 32))
      rw [← chunk_succ]
      exact hbefore (i + 1) (by omega)
  · rintro ⟨⟨hlong, hfirst⟩, hnone, hwhole, hgiven, hbefore, hhere, hvalue⟩
    have hrest : 32 * (n + 1) ≤ (g.stream.drop 32).length := hwhole
    refine ⟨by omega, fun i hi => ?_, fun i hi => ?_, ?_, ?_⟩
    · cases i with
      | zero => exact hfirst
      | succ i => exact hgiven i (by omega)
    · cases i with
      | zero =>
        rw [← chunk_zero, candidate?_eq_none_iff (length_chunk (by omega))] at hnone
        exact hnone
      | succ i =>
        rw [chunk_succ]
        exact hbefore i (by omega)
    · rw [chunk_succ]
      exact hhere
    · rw [chunk_succ]
      exact hvalue

/-- The chunks up to the first that stands for a scalar are used up. -/
theorem scalar_of_firstAt {n : Nat} (h : FirstAt n g k) : scalar g = .ok (k, g.skip (n + 1)) := by
  induction n generalizing g with
  | zero =>
    obtain ⟨hready, hk⟩ := firstAt_zero_iff.1 h
    rw [scalar_of_ready hready, hk]
    rfl
  | succ n ih =>
    obtain ⟨hready, hnone, hrest⟩ := firstAt_succ_iff.1 h
    rw [scalar_of_ready hready, hnone]
    refine (ih hrest).trans ?_
    rw [skip_after]

theorem exists_firstAt_of_scalar (h : scalar g = .ok (k, rest)) : ∃ n, FirstAt n g k := by
  -- What is left after a chunk is a shorter stream.
  induction hlength : g.stream.length using Nat.strong_induction_on generalizing g with
  | _ length ih =>
    by_cases hready : Ready g
    · rw [scalar_of_ready hready] at h
      cases hcandidate : candidate? (g.stream.take 32) with
      | some k' =>
        rw [hcandidate] at h
        cases h
        exact ⟨0, firstAt_zero_iff.2 ⟨hready, hcandidate⟩⟩
      | none =>
        rw [hcandidate] at h
        have hlong : 32 ≤ g.stream.length := hready.1
        have hless : (g.after 32).stream.length < length := by
          rw [Generator.after, List.length_drop]
          omega
        obtain ⟨n, hn⟩ := ih _ hless h rfl
        exact ⟨n + 1, firstAt_succ_iff.2 ⟨hready, hcandidate, hn⟩⟩
    · rw [scalar_of_not_ready hready] at h
      cases h

/-- A scalar is drawn from the first chunk that stands for one. -/
theorem scalar_eq_ok_iff :
    scalar g = .ok (k, rest) ↔ ∃ n, FirstAt n g k ∧ rest = g.skip (n + 1) := by
  constructor
  · intro h
    obtain ⟨n, hn⟩ := exists_firstAt_of_scalar h
    cases h.symm.trans (scalar_of_firstAt hn)
    exact ⟨n, hn, rfl⟩
  · rintro ⟨n, hn, rfl⟩
    exact scalar_of_firstAt hn

theorem exists_firstAt {n : Nat} (hwhole : 32 * (n + 1) ≤ g.stream.length)
    (hgiven : ∀ i ≤ n, g.refuses i = false) (h : Stands (chunk n g.stream)) :
    ∃ i k, FirstAt i g k := by
  have hexists : ∃ n, 32 * (n + 1) ≤ g.stream.length ∧ Stands (chunk n g.stream) := ⟨n, hwhole, h⟩
  obtain ⟨hleast, hstands⟩ := Nat.find_spec hexists
  have hle : Nat.find hexists ≤ n := Nat.find_le ⟨hwhole, h⟩
  refine ⟨Nat.find hexists, ⟨_, hstands.2⟩, hleast, fun i hi => hgiven i (hi.trans hle),
    fun i hi hbefore => ?_, hstands, rfl⟩
  exact Nat.find_min hexists hi ⟨by omega, hbefore⟩

/-- Nothing but the end of the stream, or a refusal, keeps a scalar from being drawn. -/
theorem scalar_eq_error_iff {e : Failure} :
    scalar g = .error e ↔
      ∀ n, 32 * (n + 1) ≤ g.stream.length → (∀ i ≤ n, g.refuses i = false) →
        ¬ Stands (chunk n g.stream) := by
  constructor
  · intro h n hwhole hgiven hstands
    obtain ⟨i, k, hfirst⟩ := exists_firstAt hwhole hgiven hstands
    cases h.symm.trans (scalar_of_firstAt hfirst)
  · intro h
    cases hscalar : scalar g with
    | error e' =>
      cases e
      cases e'
      rfl
    | ok drawn =>
      obtain ⟨n, hn⟩ := exists_firstAt_of_scalar hscalar
      exact absurd hn.here (h n hn.whole hn.given)

/-- The generator with more bytes behind those that it has. -/
def Generator.extend (more : Bytes) (g : Generator) : Generator := ⟨g.stream ++ more, g.refuses⟩

/-- What comes after the last chunk drawn is not looked at. -/
theorem scalar_extend (h : scalar g = .ok (k, rest)) (more : Bytes) :
    scalar (g.extend more) = .ok (k, rest.extend more) := by
  obtain ⟨n, ⟨hwhole, hgiven, hbefore, hhere, hvalue⟩, rfl⟩ := scalar_eq_ok_iff.1 h
  have hchunk : ∀ i ≤ n, chunk i (g.extend more).stream = chunk i g.stream := fun i hi => by
    rw [Generator.extend, chunk, chunk, List.drop_append_of_le_length (by omega),
      List.take_append_of_le_length (by rw [List.length_drop]; omega)]
  have hskip : (g.skip (n + 1)).extend more = (g.extend more).skip (n + 1) :=
    congrArg (Generator.mk · _) (List.drop_append_of_le_length hwhole).symm
  refine scalar_eq_ok_iff.2 ⟨n, ⟨?_, hgiven, fun i hi => ?_, ?_, ?_⟩, hskip⟩
  · rw [Generator.extend, List.length_append]
    omega
  · rw [hchunk i (by omega)]
    exact hbefore i hi
  · rwa [hchunk n le_rfl]
  · rwa [hchunk n le_rfl]

/-! ## How many chunks there are -/

/-- Chunks are the numbers that they spell. -/
def chunkEquiv : Bytes32 ≃ Fin (2 ^ 256) where
  toFun c := ⟨Radix.ofBigEndian c.toList, by
    have := Radix.ofBigEndian_lt c.toList
    rw [c.length_toList] at this
    exact this⟩
  invFun n := ⟨Radix.bigEndian 32 n.val, Radix.length_bigEndian ..⟩
  left_inv c := by
    have hread := Radix.bigEndian_ofBigEndian c.toList
    rw [c.length_toList] at hread
    exact Bytes32.ext hread
  right_inv n := by
    ext
    show Radix.ofBigEndian (Radix.bigEndian 32 n.val) = n.val
    rw [Radix.ofBigEndian_bigEndian]
    exact Nat.mod_eq_of_lt n.isLt

theorem card_bytes32 : Nat.card Bytes32 = 2 ^ 256 := by
  rw [Nat.card_congr chunkEquiv, Nat.card_eq_fintype_card, Fintype.card_fin]

/-- Two bits are free beside the lower 254. -/
def topBitsEquiv {w : Nat} (hw : w < 2 ^ 254) : {n : Fin (2 ^ 256) // n.val % 2 ^ 254 = w} ≃ Fin 4 where
  toFun n := ⟨n.val.val / 2 ^ 254, by
    have := n.val.isLt
    omega⟩
  invFun j := ⟨⟨2 ^ 254 * j.val + w, by
    have := j.isLt
    omega⟩, by
    show (2 ^ 254 * j.val + w) % 2 ^ 254 = w
    rw [Nat.mul_add_mod, Nat.mod_eq_of_lt hw]⟩
  left_inv n := by
    ext
    show 2 ^ 254 * (n.val.val / 2 ^ 254) + w = n.val.val
    have := n.property
    omega
  right_inv j := by
    ext
    show (2 ^ 254 * j.val + w) / 2 ^ 254 = j.val
    omega

theorem candidate?_toList_iff {c : Bytes32} (hk : k ≠ 0) :
    candidate? c.toList = some k ↔ (chunkEquiv c).val % 2 ^ 254 = k.val := by
  rw [candidate?_eq_some_iff c.length_toList, eq_comm (a := k.val)]
  exact and_iff_right hk

/-- The chunks for a scalar are those of the four numbers with its lower bits. -/
def candidateEquiv (hk : k ≠ 0) : {c : Bytes32 // candidate? c.toList = some k} ≃ Fin 4 :=
  (chunkEquiv.subtypeEquiv fun _ => candidate?_toList_iff hk).trans
    (topBitsEquiv (Nat.lt_trans k.val_lt (by decide)))

/-! ## Streams of chunks -/

/-- The bytes of chunks, one after the other. -/
def ofChunks (chunks : List Bytes32) : Bytes := chunks.flatMap Bytes32.toList

theorem exists_scalar_ofChunks_iff {chunks : List Bytes32} :
    (∃ rest, scalar (.ofStream (ofChunks chunks)) = .ok (k, rest)) ↔
      chunks.findSome? (fun c => candidate? c.toList) = some k := by
  induction chunks with
  | nil =>
    have hend : ¬ Ready (.ofStream (ofChunks [])) := fun h => absurd h.1 (by decide)
    simp [scalar_of_not_ready hend]
  | cons c chunks ih =>
    have hlength : 32 ≤ (ofChunks (c :: chunks)).length := by
      simp [ofChunks, c.length_toList]
    have htake : (ofChunks (c :: chunks)).take 32 = c.toList :=
      List.take_left' c.length_toList
    have hafter : (Generator.ofStream (ofChunks (c :: chunks))).after 32 =
        .ofStream (ofChunks chunks) :=
      congrArg (Generator.mk · _) (List.drop_left' c.length_toList)
    have hready : Ready (.ofStream (ofChunks (c :: chunks))) := ⟨hlength, rfl⟩
    rw [scalar_of_ready hready, hafter, Generator.ofStream, htake, List.findSome?_cons]
    cases candidate? c.toList with
    | some k' => simp
    | none => exact ih

section

variable {α β : Type} [DecidableEq β]

/-- If as much stands for `a` as for `b`, some permutation exchanges the two and nothing else. -/
theorem exists_exchange (f : α → Option β) {a b : β}
    (e : {x // f x = some a} ≃ {x // f x = some b}) :
    ∃ σ : α ≃ α, ∀ x, f (σ x) = (f x).map (Equiv.swap a b) := by
  have hswap : ∀ o : Option β, (o.map (Equiv.swap a b)).map (Equiv.swap a b) = o := by
    intro o
    cases o <;> simp
  -- What stands for `a` goes to what stands for `b` and back; all else may stay where it is.
  have hfibre : ∀ o, Nonempty ({x // f x = o} ≃ {x // (f x).map (Equiv.swap a b) = o}) := by
    intro o
    have hmoved : ∀ x, f x = o.map (Equiv.swap a b) ↔ (f x).map (Equiv.swap a b) = o := fun x =>
      ⟨fun h => by rw [h, hswap], fun h => by rw [← h, hswap]⟩
    suffices h : Nonempty ({x // f x = o} ≃ {x // f x = o.map (Equiv.swap a b)}) from
      ⟨h.some.trans (Equiv.subtypeEquivRight hmoved)⟩
    cases o with
    | none => exact ⟨Equiv.refl _⟩
    | some d =>
      rw [Option.map_some]
      by_cases ha : d = a
      · subst ha
        rw [Equiv.swap_apply_left]
        exact ⟨e⟩
      · by_cases hb : d = b
        · subst hb
          rw [Equiv.swap_apply_right]
          exact ⟨e.symm⟩
        · rw [Equiv.swap_apply_of_ne_of_ne ha hb]
          exact ⟨Equiv.refl _⟩
  refine ⟨Equiv.ofFiberEquiv fun o => (hfibre o).some, fun x => ?_⟩
  rw [← Equiv.ofFiberEquiv_map (fun o => (hfibre o).some) x, hswap]

/-- What is found first in equally likely runs is one or the other equally often. -/
theorem card_findSome?_eq (f : α → Option β) {a b : β}
    (e : {x // f x = some a} ≃ {x // f x = some b}) (n : Nat) :
    Nat.card {v : Fin n → α // (List.ofFn v).findSome? f = some a} =
      Nat.card {v : Fin n → α // (List.ofFn v).findSome? f = some b} := by
  obtain ⟨σ, hσ⟩ := exists_exchange f e
  refine Nat.card_congr ((Equiv.piCongrRight fun _ => σ).subtypeEquiv fun v => ?_)
  have hexchanged : (List.ofFn fun i => σ (v i)).findSome? f =
      ((List.ofFn v).findSome? f).map (Equiv.swap a b) := by
    have hmap : (List.ofFn fun i => σ (v i)) = (List.ofFn v).map σ := by
      rw [List.map_ofFn]
      rfl
    rw [hmap, List.findSome?_map, List.map_findSome?]
    exact congrArg (List.findSome? · _) (funext hσ)
  change _ ↔ (List.ofFn fun i => σ (v i)).findSome? f = some b
  rw [hexchanged, Option.map_eq_some_iff]
  constructor
  · exact fun h => ⟨a, h, Equiv.swap_apply_left a b⟩
  · rintro ⟨d, hd, hswap⟩
    rw [Equiv.swap_apply_eq_iff, Equiv.swap_apply_right] at hswap
    rwa [hswap] at hd

end

theorem scalar_toList_iff {c : Bytes32} :
    scalar (.ofStream c.toList) = .ok (k, .ofStream []) ↔ candidate? c.toList = some k := by
  have htake : c.toList.take 32 = c.toList := List.take_of_length_le c.length_toList.le
  have hafter : (Generator.ofStream c.toList).after 32 = .ofStream [] :=
    congrArg (Generator.mk · _) (List.drop_of_length_le c.length_toList.le)
  have hready : Ready (.ofStream c.toList) := ⟨c.length_toList.ge, rfl⟩
  have hend : ¬ Ready (.ofStream []) := fun h => absurd h.1 (by decide)
  rw [scalar_of_ready hready, hafter, Generator.ofStream, htake]
  cases candidate? c.toList with
  | some k' => simp
  | none => simp [scalar_of_not_ready hend]

/-- **A random scalar comes from the first chunk that spells one, and all are equally likely.** A
generator yields the number of its first chunk of thirty-two bytes that is, less its two top bits, at
least one and below the order; that chunk and those before it are used up, and nothing after it is
looked at. A generator that ends before such a chunk, or refuses, yields its failure. Each scalar but
zero has four of the chunks, and of the streams of `n` chunks equally many yield each of them. -/
theorem first_chunk_uniform :
    (∀ g k rest, scalar g = .ok (k, rest) ↔ ∃ n, FirstAt n g k ∧ rest = g.skip (n + 1)) ∧
    (∀ g k rest, scalar g = .ok (k, rest) → 1 ≤ k.val ∧ k.val < r ∧
      ∀ more, scalar (g.extend more) = .ok (k, rest.extend more)) ∧
    (∀ g, scalar g = .error .generator ↔
      ∀ n, 32 * (n + 1) ≤ g.stream.length → (∀ i ≤ n, g.refuses i = false) →
        ¬ Stands (chunk n g.stream)) ∧
    Nat.card Bytes32 = 2 ^ 256 ∧
    (∀ k : Fr, k ≠ 0 →
      Nat.card {c : Bytes32 // scalar (.ofStream c.toList) = .ok (k, .ofStream [])} = 4) ∧
    ∀ k l : Fr, k ≠ 0 → l ≠ 0 → ∀ n,
      Nat.card {v : Fin n → Bytes32 //
          ∃ rest, scalar (.ofStream (ofChunks (List.ofFn v))) = .ok (k, rest)} =
        Nat.card {v : Fin n → Bytes32 //
          ∃ rest, scalar (.ofStream (ofChunks (List.ofFn v))) = .ok (l, rest)} := by
  refine ⟨fun g k rest => scalar_eq_ok_iff, fun g k rest h => ?_, fun g => scalar_eq_error_iff,
    card_bytes32, fun k hk => ?_, fun k l hk hl n => ?_⟩
  · obtain ⟨n, hn, -⟩ := scalar_eq_ok_iff.1 h
    exact ⟨hn.value ▸ hn.here.1, k.val_lt, scalar_extend h⟩
  · simp only [scalar_toList_iff]
    rw [Nat.card_congr (candidateEquiv hk), Nat.card_eq_fintype_card, Fintype.card_fin]
  · simp only [exists_scalar_ofChunks_iff]
    exact card_findSome?_eq _ ((candidateEquiv hk).trans (candidateEquiv hl).symm) n

/-- The order is no scalar, so its chunk is passed over; the next one has both top bits set. A refusal
of the second call ends the search before it. -/
theorem first_chunk_uniform_second :
    let order : Bytes := Radix.bigEndian 32 r
    let marked : Bytes := 0xc0 :: List.replicate 30 0 ++ [7]
    let g : Generator := .ofStream (order ++ marked ++ [1])
    scalar (.ofStream order) = .error .generator ∧
      scalar { g with refuses := fun i => i = 1 } = .error .generator ∧
      scalar g = .ok (7, .ofStream [1]) ∧
      scalar (g.extend marked) = .ok (7, .ofStream ([1] ++ marked)) ∧
      Nat.card {c : Bytes32 // scalar (.ofStream c.toList) = .ok (7, .ofStream [])} = 4 ∧
      Nat.card {v : Fin 2 → Bytes32 //
          ∃ rest, scalar (.ofStream (ofChunks (List.ofFn v))) = .ok (7, rest)} =
        Nat.card {v : Fin 2 → Bytes32 //
          ∃ rest, scalar (.ofStream (ofChunks (List.ofFn v))) = .ok (-1, rest)} := by
  intro order marked g
  obtain ⟨hfirst, hmore, hnone, -, hfour, huniform⟩ := first_chunk_uniform
  have horder : ¬ Stands (chunk 0 order) := by decide +kernel
  have hpassed : scalar (.ofStream order) = .error .generator := by
    refine (hnone _).2 fun n hwhole _ => ?_
    have hlength : order.length = 32 := Radix.length_bigEndian ..
    obtain rfl : n = 0 := by
      have hshort : 32 * (n + 1) ≤ order.length := hwhole
      omega
    exact horder
  have hrefused : scalar { g with refuses := fun i => i = 1 } = .error .generator := by
    refine (hnone _).2 fun n _ hgiven => ?_
    cases n with
    | zero => exact horder
    | succ n => exact absurd (hgiven 1 (by omega)) (by decide)
  have hdrawn : scalar g = .ok (7, .ofStream [1]) :=
    (hfirst _ _ _).2 ⟨1, ⟨by decide, fun _ _ => rfl, by decide +kernel, by decide +kernel,
      by decide +kernel⟩, rfl⟩
  exact ⟨hpassed, hrefused, hdrawn, (hmore _ _ _ hdrawn).2.2 marked, hfour 7 (by decide),
    huniform 7 (-1) (by decide) (by decide) 2⟩

end BlobSigner.Entropy
