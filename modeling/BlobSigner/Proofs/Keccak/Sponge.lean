import BlobSigner.Keccak.Sponge
import BlobSigner.Proofs.Keccak.Permutation
import BlobSigner.Proofs.Radix
import Mathlib.Data.List.OfFn
/-!
# The digest by its equations

The full blocks of a message, and the bytes left over with their padding, are together the blocks of
the padded message (`blocks_pad`). Each is added to the lanes as the equations say
(`toSquare_absorb`) and the digest is read off the same lanes (`toList_squeeze`), so the fast form
computes what the slow one defines, for every message: `digest_eq_equations`.
-/
namespace BlobSigner.Keccak

/-! ## Words of a block -/

/-- A byte comes in below a word that is shifted up. -/
theorem toBitVec_shift_or {w : UInt64} {n : Nat} (h : w.toBitVec = BitVec.ofNat 64 n) (d : UInt8) :
    ((w <<< 8) ||| d.toUInt64).toBitVec = BitVec.ofNat 64 (d.toNat + 256 * n) := by
  have hshift : (8 : UInt64).toBitVec % 64 = 8#64 := by decide
  have hapart : BitVec.ofNat 64 n <<< 8#64 &&& d.toBitVec.setWidth 64 = 0#64 := by
    apply BitVec.eq_of_getLsbD_eq
    intro i hi
    by_cases h : i < 8
    · simp [h]
    · have hnone : d.toBitVec.getLsbD i = false := BitVec.getLsbD_of_ge _ _ (by omega)
      simp [hnone]
  rw [UInt64.toBitVec_or, UInt64.toBitVec_shiftLeft, h, hshift, UInt8.toBitVec_toUInt64,
    ← BitVec.add_eq_or_of_and_eq_zero _ _ hapart]
  apply BitVec.eq_of_toNat_eq
  simp
  omega

theorem toBitVec_foldr_shift (b : Bytes) :
    (b.foldr (fun d w => (w <<< 8) ||| d.toUInt64) 0 : UInt64).toBitVec =
      BitVec.ofNat 64 (Radix.ofLittleEndian b) := by
  induction b with
  | nil => rfl
  | cons d r ih =>
    rw [List.foldr_cons, toBitVec_shift_or ih]
    rfl

theorem toBitVec_blockLane (block : Bytes) (i : Nat) :
    (blockLane block i).toBitVec = Equations.blockLane block i :=
  toBitVec_foldr_shift _

theorem lane_zipWith_xor (s t : Lanes) (i : Nat) :
    lane (Vector.zipWith (· ^^^ ·) s t) i = lane s i ^^^ lane t i := by
  by_cases h : i < 25
  · simp [lane, Vector.getD, h]
  · simp [lane, Vector.getD, h]

theorem toSquare_absorb (s : Lanes) (block : Bytes) :
    toSquare (absorb s block) = Equations.absorb (toSquare s) block := by
  rw [absorb, toSquare_permute, Equations.absorb]
  refine congrArg Equations.permute (Equations.square_ext fun x y => ?_)
  rw [lane_toSquare, lane_zipWith_xor, blockLanes, lane_ofFn _ (by omega), Equations.lane_square,
    lane_toSquare, UInt64.toBitVec_xor]
  by_cases h : x.val + 5 * y.val < 17
  · simp only [if_pos h, toBitVec_blockLane]
  · simp [if_neg h]

theorem toSquare_foldl_absorb (s : Lanes) (blocks : List Bytes) :
    toSquare (blocks.foldl absorb s) = blocks.foldl Equations.absorb (toSquare s) := by
  induction blocks generalizing s with
  | nil => rfl
  | cons b blocks ih => rw [List.foldl_cons, List.foldl_cons, ih, toSquare_absorb]

/-! ## Blocks -/

theorem absorbBlocks_eq (s : Lanes) (data : Bytes) :
    absorbBlocks s data =
      ((Equations.blocks (data.length / rate) data).foldl absorb s,
        data.drop (rate * (data.length / rate))) := by
  induction s, data using absorbBlocks.induct with
  | case1 s data h ih =>
    have hdiv : data.length / rate = (data.length - rate) / rate + 1 := by
      simp only [rate] at *
      omega
    rw [absorbBlocks, dif_pos h, ih, List.length_drop, hdiv, Equations.blocks, List.foldl_cons,
      List.drop_drop, Nat.mul_add, Nat.mul_one, Nat.add_comm rate]
    rfl
  | case2 s data h =>
    have hdiv : data.length / rate = 0 := by
      simp only [rate] at *
      omega
    rw [absorbBlocks, dif_neg h, hdiv]
    rfl

/-- The two marks are the ends of the padding, or its one byte. -/
theorem lastBlock_eq {tail : Bytes} (h : tail.length < rate) :
    lastBlock tail = tail ++ Equations.padding (rate - tail.length) := by
  obtain ⟨free, hfree⟩ : ∃ free, rate - tail.length = free + 1 := ⟨rate - tail.length - 1, by omega⟩
  simp only [lastBlock, hfree, List.replicate_succ, Radix.modify_append_cons]
  cases free with
  | zero =>
    have hlast : rate - 1 = tail.length := by omega
    rw [hlast, Radix.modify_append_cons]
    rfl
  | succ free =>
    have hlast : rate - 1 = (tail ++ 0x01 :: List.replicate free (0 : UInt8)).length := by
      simp
      omega
    have hfirst : (0 : UInt8) ^^^ 0x01 = 0x01 := by decide
    have hend : (0 : UInt8) ^^^ 0x80 = 0x80 := by decide
    have hsplit : tail ++ 0x01 :: List.replicate (free + 1) 0 =
        (tail ++ 0x01 :: List.replicate free 0) ++ [0] := by
      rw [List.replicate_succ', List.append_assoc, List.cons_append]
    rw [hfirst, hsplit, hlast, Radix.modify_append_cons, hend, Equations.padding, List.append_assoc]

theorem length_padding (n : Nat) : (Equations.padding n).length = n := by
  match n with
  | 0 => rfl
  | 1 => rfl
  | n + 2 => simp [Equations.padding]

theorem blocks_append {n : Nat} {b : Bytes} (h : 136 * n ≤ b.length) (rest : Bytes) (m : Nat) :
    Equations.blocks (n + m) (b ++ rest) =
      Equations.blocks n b ++ Equations.blocks m (b.drop (136 * n) ++ rest) := by
  induction n generalizing b with
  | zero => simp [Equations.blocks]
  | succ n ih =>
    have hlength : 136 ≤ b.length := by omega
    rw [Nat.add_right_comm, Equations.blocks, Equations.blocks, List.take_append_of_le_length hlength,
      List.drop_append_of_le_length hlength, ih (by simp; omega), List.drop_drop, Nat.mul_add,
      Nat.mul_one, Nat.add_comm 136]
    rfl

/-- The padded message consists of its blocks. -/
theorem flatten_blocks {n : Nat} {b : Bytes} (h : b.length = 136 * n) :
    (Equations.blocks n b).flatten = b := by
  induction n generalizing b with
  | zero => simp_all [Equations.blocks]
  | succ n ih =>
    rw [Equations.blocks, List.flatten_cons, ih (by simp; omega), List.take_append_drop]

theorem length_of_mem_blocks {n : Nat} {b : Bytes} (h : 136 * n ≤ b.length) :
    ∀ x ∈ Equations.blocks n b, x.length = 136 := by
  induction n generalizing b with
  | zero => simp [Equations.blocks]
  | succ n ih =>
    rw [Equations.blocks, List.forall_mem_cons]
    exact ⟨by simp; omega, ih (by simp; omega)⟩

theorem length_pad (message : Bytes) :
    (Equations.pad message).length = 136 * (message.length / 136 + 1) := by
  rw [Equations.pad, List.length_append, length_padding]
  omega

theorem blocks_one {b : Bytes} (h : b.length = 136) : Equations.blocks 1 b = [b] := by
  rw [Equations.blocks, Equations.blocks, List.take_of_length_le (Nat.le_of_eq h)]

/-- **The full blocks and the last one are the blocks of the padded message.** -/
theorem blocks_pad (message : Bytes) :
    Equations.blocks ((Equations.pad message).length / 136) (Equations.pad message) =
      Equations.blocks (message.length / rate) message ++
        [lastBlock (message.drop (rate * (message.length / rate)))] := by
  have hrate : rate = 136 := rfl
  have htail : (message.drop (rate * (message.length / rate))).length = message.length % rate := by
    have hdiv := Nat.div_add_mod message.length rate
    rw [List.length_drop]
    omega
  have hshort : message.length % rate < rate := Nat.mod_lt _ (by decide)
  have hblock : (message.drop (rate * (message.length / rate)) ++
      Equations.padding (rate - message.length % rate)).length = 136 := by
    rw [List.length_append, length_padding, htail]
    omega
  rw [length_pad, Nat.mul_div_cancel_left _ (by decide), Equations.pad,
    blocks_append (by omega) _ 1, lastBlock_eq (htail ▸ hshort), htail]
  rw [← hrate, blocks_one hblock]

theorem absorb_lastBlock (s : Lanes) (message : Bytes) :
    absorb (absorbBlocks s message).1 (lastBlock (absorbBlocks s message).2) =
      (Equations.blocks ((Equations.pad message).length / 136) (Equations.pad message)).foldl absorb
        s := by
  rw [blocks_pad, List.foldl_append, absorbBlocks_eq, List.foldl_cons, List.foldl_nil]

/-! ## Reading the digest -/

theorem ofFn_squeezeByte (w : UInt64) :
    (List.ofFn fun j : Fin 8 => (w >>> (8 * j.val).toUInt64).toUInt8) =
      Radix.littleEndian 8 w.toNat := by
  rw [Radix.littleEndian_eq_ofFn]
  congr 1
  funext j
  have hshift : (8 * j.val).toUInt64.toNat % 64 = 8 * j.val := by
    simp
    omega
  have hpow : 2 ^ (8 * j.val) = 256 ^ j.val := by rw [Nat.pow_mul]
  apply UInt8.toNat_inj.1
  rw [Radix.toNat_ofNat_mod, UInt64.toNat_toUInt8, UInt64.toNat_shiftRight, hshift, Nat.shiftRight_eq_div_pow, hpow]

theorem toList_squeeze (s : Lanes) : (squeeze s).toList = Equations.squeeze (toSquare s) := by
  have hlane : ∀ i : Fin 4, (List.ofFn fun j : Fin 8 => squeezeByte s ⟨i.val * 8 + j.val, by omega⟩) =
      Radix.littleEndian 8 (lane s i.val).toNat := by
    intro i
    have hdiv : ∀ j : Fin 8, (i.val * 8 + j.val) / 8 = i.val := fun j => by omega
    have hmod : ∀ j : Fin 8, (i.val * 8 + j.val) % 8 = j.val := fun j => by omega
    simp only [squeezeByte, hdiv, hmod]
    exact ofFn_squeezeByte (lane s i.val)
  calc (squeeze s).toList
    _ = (List.ofFn fun i : Fin 4 => List.ofFn fun j : Fin 8 =>
          squeezeByte s ⟨i.val * 8 + j.val, by omega⟩).flatten :=
      List.ofFn_mul (m := 4) (n := 8) (squeezeByte s)
    _ = (List.ofFn fun i : Fin 4 => Radix.littleEndian 8 (lane s i.val).toNat).flatten := by
      simp only [hlane]
    _ = Equations.squeeze (toSquare s) := by
      simp only [Equations.squeeze, lane_toSquare]
      rfl

/-! ## The digest -/

theorem toSquare_zero : toSquare zero = Equations.square fun _ _ => 0 := by
  apply Equations.square_ext
  intro x y
  have hlt : x.val + 5 * y.val < 25 := by omega
  rw [lane_toSquare, Equations.lane_square]
  simp [zero, lane, Vector.getD, hlt]

/-- **The digest is the one that the equations define.** For every message the sponge absorbs exactly
the blocks of the padded message, by a permutation whose every round is the five layers, the walk
being two of them at once. -/
theorem digest_eq_equations (message : Bytes) :
    (digest message).toList = Equations.digest message ∧
      (∀ s, toSquare (permute s) = Equations.permute (toSquare s)) ∧
      (∀ s, toSquare (rhoPi s) = Equations.pi (Equations.rho (toSquare s))) ∧
      let padded := Equations.pad message
      let blocks := Equations.blocks (padded.length / 136) padded
      (∀ s, absorb (absorbBlocks s message).1 (lastBlock (absorbBlocks s message).2) =
        blocks.foldl absorb s) ∧
      blocks.flatten = padded ∧ ∀ b ∈ blocks, b.length = 136 := by
  have hwhole : (Equations.pad message).length =
      136 * ((Equations.pad message).length / 136) := by
    rw [length_pad, Nat.mul_div_cancel_left _ (by decide)]
  refine ⟨?_, toSquare_permute, toSquare_rhoPi, fun s => absorb_lastBlock s message,
    flatten_blocks hwhole, length_of_mem_blocks (Nat.le_of_eq hwhole.symm)⟩
  rw [digest, toList_squeeze, absorb_lastBlock, toSquare_foldl_absorb, toSquare_zero]
  rfl

example : (digest []).toList =
    [0xc5, 0xd2, 0x46, 0x01, 0x86, 0xf7, 0x23, 0x3c, 0x92, 0x7e, 0x7d, 0xb2, 0xdc, 0xc7, 0x03, 0xc0,
      0xe5, 0x00, 0xb6, 0x53, 0xca, 0x82, 0x27, 0x3b, 0x7b, 0xfa, 0xd8, 0x04, 0x5d, 0x85, 0xa4,
      0x70] := by
  decide +kernel

end BlobSigner.Keccak
