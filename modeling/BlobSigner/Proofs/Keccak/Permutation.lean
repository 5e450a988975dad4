import BlobSigner.Keccak.Equations
import BlobSigner.Keccak.Permutation
/-!
# The permutation by its equations

`toSquare` reads the lanes as the square of the equations. Every layer of a round, computed with
words, is the layer that its equation states: `toSquare_theta`, `toSquare_rhoPi`, `toSquare_chi`,
`toSquare_iota`. For the walk this is so because it comes to each place but `(0, 0)` once, so the
lane it puts down there is the one that lay at the place before (`lane_foldl_exchange`), and because
its list of places and rotations follows the rules of the two layers that it stands for. The round
constants are those that the register yields (`roundConstants_eq`).
-/
namespace BlobSigner.Keccak

/-! ## Lanes in a square -/

/-- The lanes as the square of the equations. -/
def toSquare (s : Lanes) : Equations.Square := s.map UInt64.toBitVec

theorem lane_toSquare (s : Lanes) (x y : Fin 5) :
    Equations.lane (toSquare s) x y = (lane s (x.val + 5 * y.val)).toBitVec := by
  have h : x.val + 5 * y.val < 25 := by omega
  simp [Equations.lane, toSquare, lane, Vector.getD, h]

theorem Equations.square_ext {s t : Square} (h : ∀ x y, lane s x y = lane t x y) : s = t := by
  apply Vector.ext
  intro i hi
  have hxy := h (Fin.ofNat 5 i) ⟨i / 5, by omega⟩
  have hsum : i % 5 + 5 * (i / 5) = i := by omega
  simpa [lane, Fin.ofNat, hsum, Vector.getD, hi] using hxy

theorem getD_ofFn {n : Nat} (f : Fin n → UInt64) {i : Nat} (h : i < n) :
    (Vector.ofFn f).getD i 0 = f ⟨i, h⟩ := by
  simp [Vector.getD, h]

theorem lane_ofFn (f : Fin 25 → UInt64) {i : Nat} (h : i < 25) : lane (Vector.ofFn f) i = f ⟨i, h⟩ :=
  getD_ofFn f h

theorem lane_setIfInBounds (s : Lanes) (w : UInt64) {i j : Nat} (h : i < 25) :
    lane (s.setIfInBounds i w) j = if i = j then w else lane s j := by
  by_cases hj : j < 25
  · by_cases he : i = j
    · subst he
      simp [lane, Vector.getD, h]
    · simp [lane, Vector.getD, hj, he]
  · have he : i ≠ j := by omega
    simp [lane, Vector.getD, hj, he]

/-- Both shifts lose nothing, as long as none is by the whole width. -/
theorem toBitVec_rotateLeft (w : UInt64) {n : Nat} (h0 : 0 < n) (h : n < 64) :
    (rotateLeft w (UInt64.ofNat n)).toBitVec = w.toBitVec.rotateLeft n := by
  have hleft : (UInt64.ofNat n).toBitVec % 64 = BitVec.ofNat 64 n := by
    apply BitVec.eq_of_toNat_eq
    simp
    omega
  have hright : (64 - UInt64.ofNat n).toBitVec % 64 = BitVec.ofNat 64 (64 - n) := by
    apply BitVec.eq_of_toNat_eq
    simp
    omega
  have hn : n % 2 ^ 64 = n := by omega
  have hrest : (64 - n) % 2 ^ 64 = 64 - n := by omega
  rw [rotateLeft, UInt64.toBitVec_or, UInt64.toBitVec_shiftLeft, UInt64.toBitVec_shiftRight, hleft,
    hright, BitVec.rotateLeft_def, Nat.mod_eq_of_lt h, BitVec.shiftLeft_eq', BitVec.ushiftRight_eq',
    BitVec.toNat_ofNat, BitVec.toNat_ofNat, hn, hrest]

/-! ## Columns -/

theorem toBitVec_column (s : Lanes) (x : Fin 5) :
    (column s x.val).toBitVec = Equations.parity (toSquare s) x := by
  simp only [column, Equations.parity, lane_toSquare, UInt64.toBitVec_xor]
  rfl

theorem lane_theta (s : Lanes) {i : Nat} (h : i < 25) :
    lane (theta s) i =
      lane s i ^^^ (column s ((i % 5 + 4) % 5) ^^^ rotateLeft (column s ((i % 5 + 1) % 5)) 1) := by
  have hbefore : (i % 5 + 4) % 5 < 5 := by omega
  have hafter : (i % 5 + 1) % 5 < 5 := by omega
  have hcolumn : i % 5 < 5 := by omega
  simp only [theta, lane_ofFn _ h, getD_ofFn _ hbefore, getD_ofFn _ hafter, getD_ofFn _ hcolumn]

theorem toSquare_theta (s : Lanes) : toSquare (theta s) = Equations.theta (toSquare s) := by
  apply Equations.square_ext
  intro x y
  have hcolumn : (x.val + 5 * y.val) % 5 = x.val := by omega
  have hbefore : (x - 1).val = (x.val + 4) % 5 := by
    rw [Fin.sub_def]
    show (5 - 1 + x.val) % 5 = _
    omega
  have hafter : (x + 1).val = (x.val + 1) % 5 := Fin.val_add x 1
  have hrotate : (rotateLeft (column s (x + 1).val) 1).toBitVec =
      (column s (x + 1).val).toBitVec.rotateLeft 1 := toBitVec_rotateLeft _ (by decide) (by decide)
  rw [lane_toSquare, lane_theta s (by omega), hcolumn, ← hbefore, ← hafter, Equations.theta,
    Equations.lane_square, lane_toSquare, UInt64.toBitVec_xor, UInt64.toBitVec_xor, hrotate,
    toBitVec_column, toBitVec_column]

/-! ## The walk -/

theorem lane_foldl_exchange_of_not_mem {i : Nat} (steps : List (Nat × UInt64)) (s : Lanes)
    (w : UInt64) (hlt : ∀ e ∈ steps, e.1 < 25) (h : i ∉ steps.map Prod.fst) :
    lane (steps.foldl exchange (s, w)).1 i = lane s i := by
  induction steps generalizing s w with
  | nil => rfl
  | cons e steps ih =>
    obtain ⟨he, hlt⟩ := List.forall_mem_cons.1 hlt
    simp only [List.map_cons, List.mem_cons, not_or] at h
    rw [List.foldl_cons, exchange, ih _ _ hlt h.2, lane_setIfInBounds _ _ he, if_neg (Ne.symm h.1)]

/-- A walk that comes to no place twice puts down at each place, rotated, the lane that lay at the
place before when it began. -/
theorem lane_foldl_exchange (s₀ : Lanes) (steps : List (Nat × UInt64)) (s : Lanes) (start : Nat)
    (hlt : ∀ e ∈ steps, e.1 < 25) (hnodup : (steps.map Prod.fst).Nodup)
    (hs : ∀ e ∈ steps, lane s e.1 = lane s₀ e.1) :
    ∀ m ∈ (start :: steps.map Prod.fst).zip steps,
      lane (steps.foldl exchange (s, lane s₀ start)).1 m.2.1 = rotateLeft (lane s₀ m.1) m.2.2 := by
  -- by induction on the steps to come, whose places still hold what they held at first
  induction steps generalizing s start with
  | nil => simp
  | cons e steps ih =>
    obtain ⟨he, hlt⟩ := List.forall_mem_cons.1 hlt
    obtain ⟨hse, hs⟩ := List.forall_mem_cons.1 hs
    rw [List.map_cons, List.nodup_cons] at hnodup
    rw [List.map_cons, List.zip_cons_cons, List.foldl_cons, List.forall_mem_cons, exchange, hse]
    constructor
    · rw [lane_foldl_exchange_of_not_mem _ _ _ hlt hnodup.1, lane_setIfInBounds _ _ he, if_pos rfl]
    · refine ih _ e.1 hlt hnodup.2 fun e' he' => ?_
      have hne : ¬ e.1 = e'.1 := fun h => hnodup.1 (h ▸ List.mem_map_of_mem he')
      rw [lane_setIfInBounds _ _ he, if_neg hne, hs e' he']

/-- Where a place of the square lies among the lanes. -/
def index (p : Fin 5 × Fin 5) : Nat := p.1.val + 5 * p.2.val

/-- The walk goes by the rules: from each place to the next, by the next triangular number. -/
theorem mem_walk {t : Nat} (ht : t < 24) :
    (index (Equations.place t), index (Equations.place (t + 1)),
      UInt64.ofNat ((t + 1) * (t + 2) / 2 % 64)) ∈ (1 :: walk.map Prod.fst).zip walk := by
  revert t
  decide

theorem offset_place {t : Nat} (ht : t < 24) :
    Equations.offset (Equations.place t).1 (Equations.place t).2 = (t + 1) * (t + 2) / 2 % 64 := by
  revert t
  decide

theorem exists_place {x y : Fin 5} (h : (x, y) ≠ (0, 0)) :
    ∃ t < 24, (x, y) = Equations.place (t + 1) := by
  revert x y
  decide

/-- The place before `(a, b)`'s successor is `(a, b)`. -/
theorem place_before (a b : Fin 5) : b + 3 * (2 * a + 3 * b) = a := by
  revert a b
  decide

theorem lane_rhoPi_place (s : Lanes) {t : Nat} (ht : t < 24) :
    lane (rhoPi s) (index (Equations.place (t + 1))) =
      rotateLeft (lane s (index (Equations.place t)))
        (UInt64.ofNat ((t + 1) * (t + 2) / 2 % 64)) := by
  have hmoves := lane_foldl_exchange s walk s 1 (by decide) (by decide) fun _ _ => rfl
  rw [rhoPi]
  exact hmoves (_, _, _) (mem_walk ht)

/-- **The walk rotates and moves all lanes at once**: what it does one lane after the other, in
place, is what the two layers do to the whole square. -/
theorem toSquare_rhoPi (s : Lanes) :
    toSquare (rhoPi s) = Equations.pi (Equations.rho (toSquare s)) := by
  apply Equations.square_ext
  intro x y
  rw [Equations.pi, Equations.lane_square, Equations.rho, Equations.lane_square, lane_toSquare,
    lane_toSquare]
  by_cases h : (x, y) = (0, 0)
  · -- the one lane that the walk leaves alone
    cases h
    have hkept : lane (rhoPi s) 0 = lane s 0 :=
      lane_foldl_exchange_of_not_mem walk s _ (by decide) (by decide)
    have hstill : Equations.offset (0 + 3 * 0) 0 = 0 := by decide
    show (lane (rhoPi s) 0).toBitVec = (lane s 0).toBitVec.rotateLeft _
    have hwhole : (lane s 0).toBitVec >>> 64 = 0 := BitVec.ushiftRight_eq_zero (Nat.le_refl 64)
    rw [hkept, hstill, BitVec.rotateLeft_def, Nat.zero_mod, Nat.sub_zero, hwhole]
    simp
  · obtain ⟨t, ht, hplace⟩ := exists_place h
    have hturn : 0 < (t + 1) * (t + 2) / 2 % 64 ∧ (t + 1) * (t + 2) / 2 % 64 < 64 := by
      clear hplace
      revert t
      decide
    have hlane := lane_rhoPi_place s ht
    rw [← hplace, index] at hlane
    cases hp : Equations.place t with
    | mk a b =>
      have hnext : Equations.place (t + 1) = (b, 2 * a + 3 * b) := by
        show ((Equations.place t).2, 2 * (Equations.place t).1 + 3 * (Equations.place t).2) = _
        rw [hp]
      rw [hnext, Prod.mk.injEq] at hplace
      obtain ⟨rfl, rfl⟩ := hplace
      have hoffset := offset_place ht
      rw [hp] at hlane hoffset
      rw [hlane, toBitVec_rotateLeft _ hturn.1 hturn.2, place_before, hoffset, index]

/-! ## Rows and constants -/

theorem toSquare_chi (s : Lanes) : toSquare (chi s) = Equations.chi (toSquare s) := by
  apply Equations.square_ext
  intro x y
  have hrow : (x.val + 5 * y.val) / 5 * 5 = 5 * y.val := by omega
  have hone : 5 * y.val + (x.val + 5 * y.val + 1) % 5 = (x + 1).val + 5 * y.val := by
    rw [Fin.val_add]
    show _ = (x.val + 1) % 5 + _
    omega
  have htwo : 5 * y.val + (x.val + 5 * y.val + 2) % 5 = (x + 2).val + 5 * y.val := by
    rw [Fin.val_add]
    show _ = (x.val + 2) % 5 + _
    omega
  rw [lane_toSquare, chi, lane_ofFn _ (by omega), Equations.chi, Equations.lane_square]
  simp only [hrow, hone, htwo, lane_toSquare, UInt64.toBitVec_xor, UInt64.toBitVec_and,
    UInt64.toBitVec_not]

theorem toSquare_iota {rc : UInt64} {i : Nat} (hrc : rc.toBitVec = Equations.roundConstant i)
    (s : Lanes) : toSquare (iota rc s) = Equations.iota i (toSquare s) := by
  apply Equations.square_ext
  intro x y
  rw [lane_toSquare, iota, lane_setIfInBounds _ _ (by decide), Equations.iota,
    Equations.lane_square, lane_toSquare]
  by_cases h : x = 0 ∧ y = 0
  · obtain ⟨rfl, rfl⟩ := h
    simp [hrc]
  · have hne : ¬ 0 = x.val + 5 * y.val := fun h0 =>
      h ⟨Fin.ext (by simp; omega), Fin.ext (by simp; omega)⟩
    rw [if_neg hne, if_neg h]

/-- The constants are what the register yields, round after round. -/
theorem roundConstants_eq :
    roundConstants.map UInt64.toBitVec = (List.range 24).map Equations.roundConstant := by
  decide

/-! ## Rounds -/

theorem toSquare_round {rc : UInt64} {i : Nat} (hrc : rc.toBitVec = Equations.roundConstant i)
    (s : Lanes) : toSquare (round s rc) = Equations.round (toSquare s) i := by
  rw [round, toSquare_iota hrc, toSquare_chi, toSquare_rhoPi, toSquare_theta]
  rfl

theorem toSquare_rounds {rcs : List UInt64} {is : List Nat}
    (h : rcs.map UInt64.toBitVec = is.map Equations.roundConstant) (s : Lanes) :
    toSquare (rcs.foldl round s) = is.foldl Equations.round (toSquare s) := by
  induction rcs generalizing is s with
  | nil =>
    rw [List.map_nil, eq_comm, List.map_eq_nil_iff] at h
    rw [h]
    rfl
  | cons rc rcs ih =>
    cases is with
    | nil => cases h
    | cons i is =>
      simp only [List.map_cons, List.cons.injEq] at h
      rw [List.foldl_cons, List.foldl_cons, ih h.2, toSquare_round h.1]

/-- **The permutation is the one that the equations define.** -/
theorem toSquare_permute (s : Lanes) : toSquare (permute s) = Equations.permute (toSquare s) :=
  toSquare_rounds roundConstants_eq s

end BlobSigner.Keccak
