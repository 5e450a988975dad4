import BlobSigner.Entropy
import Mathlib.Data.List.Forall2
/-!
# Draws and the stream

The generator is asked for as many bytes as the lower thirty-two bits of the size say (`asked`), and
what it does not write stays zero (`bytes_of_served`). So a draw below four gigabytes yields the next
bytes of the stream or fails, and a larger one that does not fail ends in zeros that nobody drew
(`faithful_iff`). In any sequence of draws the bytes of the generator, less those zeros, are the
beginning of the stream (`genuine_draws`).
-/
namespace BlobSigner.Entropy

variable {size : UInt64} {g : Generator}

/-! ## One draw -/

/-- The size in thirty-two bits. From half of the range on, the generator reads it as negative. -/
def asked (size : UInt64) : Nat := size.toNat % UInt32.size

/-- The generator is not asked, or it does not refuse, and is asked for no negative number of bytes and
for no more than it has. -/
def Served (size : UInt64) (g : Generator) : Prop :=
  size = 0 ∨ g.refuses 0 = false ∧ asked size < UInt32.size / 2 ∧ asked size ≤ g.stream.length

theorem asked_le (size : UInt64) : asked size ≤ size.toNat := Nat.mod_le ..

theorem asked_of_lt (h : size.toNat < UInt32.size) : asked size = size.toNat := Nat.mod_eq_of_lt h

theorem signedSize_of_lt (h : asked size < UInt32.size / 2) : signedSize size = asked size := by
  unfold asked at h ⊢
  unfold signedSize Int.bmod
  simp only [UInt32.size] at h ⊢
  split <;> omega

theorem signedSize_neg (h : ¬ asked size < UInt32.size / 2) : signedSize size < 0 := by
  unfold asked at h
  unfold signedSize Int.bmod
  simp only [UInt32.size] at h ⊢
  split <;> omega

theorem Served.asked_le_length (h : Served size g) : asked size ≤ g.stream.length := by
  rcases h with rfl | ⟨-, -, hlen⟩
  · exact Nat.zero_le _
  · exact hlen

/-- What a draw that is served leaves. -/
def served (size : UInt64) (g : Generator) : Generator :=
  if size = 0 then g else g.after (asked size)

theorem stream_served (size : UInt64) (g : Generator) :
    (served size g).stream = g.stream.drop (asked size) := by
  unfold served
  split
  · rename_i hzero
    rw [hzero]
    rfl
  · rfl

theorem bytes_of_served (h : Served size g) :
    bytes size g =
      .ok (g.stream.take (asked size) ++ List.replicate (size.toNat - asked size) 0,
        served size g) := by
  by_cases hzero : size = 0
  · subst hzero
    rfl
  · obtain ⟨hgiven, hsmall, hlen⟩ := h.resolve_left hzero
    have hgenerate : generate (asked size) g =
        .ok (g.stream.take (asked size), g.after (asked size)) := by
      have hgood : ¬ ((asked size : Int) < 0 ∨ (g.stream.length : Int) < asked size ∨
          g.refuses 0 = true) := by
        simp only [hgiven, Bool.false_eq_true, or_false]
        omega
      rw [generate, if_neg hgood, Int.toNat_natCast]
    simp only [bytes, draw, served, if_neg hzero, signedSize_of_lt hsmall, hgenerate, Draw.toList,
      List.length_take, Nat.min_eq_left hlen]

theorem bytes_of_not_served (h : ¬ Served size g) : bytes size g = .error .generator := by
  obtain ⟨hzero, hnot⟩ := not_or.1 h
  have hbad : signedSize size < 0 ∨ (g.stream.length : Int) < signedSize size ∨
      g.refuses 0 = true := by
    by_cases hsmall : asked size < UInt32.size / 2
    · rw [signedSize_of_lt hsmall]
      cases hrefused : g.refuses 0 with
      | true => exact Or.inr (Or.inr rfl)
      | false =>
        have hlen : ¬ asked size ≤ g.stream.length := fun hlen => hnot ⟨hrefused, hsmall, hlen⟩
        omega
    · exact Or.inl (signedSize_neg hsmall)
  rw [bytes, draw, if_neg hzero, generate, if_pos hbad]

/-- What a draw leaves of the generator. One that fails takes no bytes. -/
def left (size : UInt64) (g : Generator) : Generator :=
  match bytes size g with
  | .error _ => g.after 0
  | .ok (_, rest) => rest

/-- The draw yields exactly the next `size` bytes and leaves the others, or it fails and leaves them
all. -/
def Faithful (size : UInt64) (g : Generator) : Prop :=
  (size.toNat ≤ g.stream.length ∧
      (bytes size g).map Prod.fst = .ok (g.stream.take size.toNat) ∧
      (left size g).stream = g.stream.drop size.toNat) ∨
    (∃ e, bytes size g = .error e) ∧ (left size g).stream = g.stream

theorem faithful_of_not_served (h : ¬ Served size g) : Faithful size g := by
  have hbytes := bytes_of_not_served h
  refine Or.inr ⟨⟨_, hbytes⟩, ?_⟩
  rw [left, hbytes]
  rfl

theorem faithful_of_lt (h : size.toNat < UInt32.size) : Faithful size g := by
  by_cases hserved : Served size g
  · have hbytes := bytes_of_served hserved
    have hrest := stream_served size g
    have hlen := hserved.asked_le_length
    rw [asked_of_lt h] at hbytes hrest hlen
    refine Or.inl ⟨hlen, ?_, ?_⟩
    · rw [hbytes, Nat.sub_self, List.replicate_zero, List.append_nil]
      rfl
    · rw [left, hbytes]
      exact hrest
  · exact faithful_of_not_served hserved

/-- From four gigabytes on, a draw that does not fail takes fewer bytes than it yields. -/
theorem not_faithful_of_served (h : UInt32.size ≤ size.toNat) (hserved : Served size g) :
    ¬ Faithful size g := by
  have hbytes := bytes_of_served hserved
  rintro (⟨hlen, -, hleft⟩ | ⟨⟨e, herror⟩, -⟩)
  · rw [left, hbytes] at hleft
    have hlengths := congrArg List.length ((stream_served size g).symm.trans hleft)
    have hless : asked size < UInt32.size := Nat.mod_lt _ (by decide)
    simp only [List.length_drop] at hlengths
    omega
  · cases hbytes.symm.trans herror

theorem faithful_iff : Faithful size g ↔ size.toNat < UInt32.size ∨ ¬ Served size g := by
  constructor
  · intro h
    by_cases hlt : size.toNat < UInt32.size
    · exact Or.inl hlt
    · exact Or.inr fun hserved => not_faithful_of_served (Nat.not_lt.1 hlt) hserved h
  · rintro (hlt | hserved)
    · exact faithful_of_lt hlt
    · exact faithful_of_not_served hserved

/-! ## Draws in a row -/

/-- Draws of these sizes, one after the other: the size of each and the generator that it finds. -/
def begun : List UInt64 → Generator → List (UInt64 × Generator)
  | [], _ => []
  | size :: sizes, g => (size, g) :: begun sizes (left size g)

/-- What the draws yield, and what the last one leaves. -/
def draws : List UInt64 → Generator → List (Except Failure Bytes) × Generator
  | [], g => ([], g)
  | size :: sizes, g =>
    let later := draws sizes (left size g)
    ((bytes size g).map Prod.fst :: later.1, later.2)

/-- All that was yielded, in order. -/
def yielded (results : List (Except Failure Bytes)) : Bytes :=
  (results.filterMap Except.toOption).flatten

/-- All that was yielded and comes from the generator. -/
def genuine (sizes : List UInt64) (results : List (Except Failure Bytes)) : Bytes :=
  yielded (List.zipWith (fun size v => v.map (List.take (asked size))) sizes results)

/-- The result has the size asked for, and there are zeros behind the bytes of the generator. -/
def Padded (size : UInt64) : Except Failure Bytes → Prop
  | .error _ => True
  | .ok b =>
    b.length = size.toNat ∧ b.drop (asked size) = List.replicate (size.toNat - asked size) 0

theorem padded_of_bytes {b : Bytes} {rest : Generator} (h : bytes size g = .ok (b, rest)) :
    Padded size (.ok b) ∧ b.take (asked size) ++ rest.stream = g.stream := by
  have hserved : Served size g := by
    by_contra hnot
    rw [bytes_of_not_served hnot] at h
    cases h
  cases (bytes_of_served hserved).symm.trans h
  have htake : (g.stream.take (asked size)).length = asked size := by
    rw [List.length_take, Nat.min_eq_left hserved.asked_le_length]
  have hle := asked_le size
  refine ⟨⟨?_, List.drop_left' htake⟩, ?_⟩
  · rw [List.length_append, htake, List.length_replicate]
    omega
  · rw [List.take_left' htake, stream_served, List.take_append_drop]

theorem padded_draws (sizes : List UInt64) (g : Generator) :
    List.Forall₂ Padded sizes (draws sizes g).1 := by
  induction sizes generalizing g with
  | nil => exact .nil
  | cons size sizes ih =>
    refine .cons ?_ (ih _)
    cases h : bytes size g with
    | error e => trivial
    | ok drawn => exact (padded_of_bytes h).1

/-- The bytes of the generator are those of the stream, in order and without a gap. -/
theorem genuine_draws (sizes : List UInt64) (g : Generator) :
    genuine sizes (draws sizes g).1 ++ (draws sizes g).2.stream = g.stream := by
  induction sizes generalizing g with
  | nil => rfl
  | cons size sizes ih =>
    rw [draws, left]
    cases h : bytes size g with
    | error e => exact ih (g.after 0)
    | ok drawn =>
      obtain ⟨b, rest⟩ := drawn
      have hrest := ih rest
      calc
        _ = b.take (asked size) ++
            (genuine sizes (draws sizes rest).1 ++ (draws sizes rest).2.stream) :=
          List.append_assoc ..
        _ = g.stream := by rw [hrest, (padded_of_bytes h).2]

/-- Results that are all faithful are a beginning of the stream, and the rest of it is left. -/
theorem yielded_draws {sizes : List UInt64} (h : ∀ d ∈ begun sizes g, Faithful d.1 d.2) :
    yielded (draws sizes g).1 ++ (draws sizes g).2.stream = g.stream := by
  induction sizes generalizing g with
  | nil => rfl
  | cons size sizes ih =>
    obtain ⟨hfirst, hlater⟩ := List.forall_mem_cons.1 h
    have hrest := ih hlater
    rw [draws]
    rcases hfirst with ⟨-, hbytes, hleft⟩ | ⟨⟨e, hbytes⟩, hleft⟩
    · rw [hbytes]
      calc
        _ = g.stream.take size.toNat ++ (yielded (draws sizes (left size g)).1 ++
            (draws sizes (left size g)).2.stream) := List.append_assoc ..
        _ = g.stream := by rw [hrest, hleft, List.take_append_drop]
    · rw [hbytes]
      exact hrest.trans hleft

theorem mem_of_mem_begun {sizes : List UInt64} {d : UInt64 × Generator} (h : d ∈ begun sizes g) :
    d.1 ∈ sizes := by
  induction sizes generalizing g with
  | nil => cases h
  | cons size sizes ih =>
    rcases List.mem_cons.1 h with rfl | hlater
    · exact List.mem_cons_self
    · exact List.mem_cons_of_mem _ (ih hlater)

/-- **Below four gigabytes no byte is invented.** Whatever bytes a generator has, and whichever of its
calls fail, in any sequence of draws each one yields exactly the next bytes of the stream, as many as it
was asked for, and leaves the others, or it fails and leaves them all, exactly if no draw of four
gigabytes or more is served; and then all that is yielded, in order, is a beginning of the stream. It is
so if all sizes are below four gigabytes. In any case each result that is none of a failure has the size
asked for, and it is a piece of the stream with zeros behind it; the pieces in order, and what is left,
are the stream. -/
theorem draws_exact (sizes : List UInt64) (g : Generator) :
    ((∀ d ∈ begun sizes g, Faithful d.1 d.2) ↔
      ∀ d ∈ begun sizes g, d.1.toNat < UInt32.size ∨ ¬ Served d.1 d.2) ∧
    ((∀ d ∈ begun sizes g, Faithful d.1 d.2) →
      yielded (draws sizes g).1 ++ (draws sizes g).2.stream = g.stream) ∧
    ((∀ size ∈ sizes, size.toNat < UInt32.size) → ∀ d ∈ begun sizes g, Faithful d.1 d.2) ∧
    List.Forall₂ Padded sizes (draws sizes g).1 ∧
    genuine sizes (draws sizes g).1 ++ (draws sizes g).2.stream = g.stream := by
  refine ⟨?_, yielded_draws, ?_, padded_draws sizes g, genuine_draws sizes g⟩
  · exact forall₂_congr fun d _ => faithful_iff
  · intro hsizes d hd
    exact faithful_of_lt (hsizes d.1 (mem_of_mem_begun hd))

/-- Between two draws one of two gigabytes, which is asked for as a negative number and fails, and one
that the generator refuses. -/
theorem draws_exact_negative :
    let sizes : List UInt64 := [2, 0x80000000, 3, 3]
    let g : Generator := ⟨[1, 2, 3, 4, 5, 6], fun i => i = 2⟩
    (∀ size ∈ sizes, size.toNat < UInt32.size) ∧
      (draws sizes g).1 = [.ok [1, 2], .error .generator, .error .generator, .ok [3, 4, 5]] ∧
      (draws sizes g).2.stream = [6] ∧
      yielded (draws sizes g).1 ++ (draws sizes g).2.stream = g.stream := by
  intro sizes g
  have hsizes : ∀ size ∈ sizes, size.toNat < UInt32.size :=
    List.forall_mem_cons.2 ⟨by decide, List.forall_mem_cons.2 ⟨by decide,
      List.forall_mem_cons.2 ⟨by decide, List.forall_mem_singleton.2 (by decide)⟩⟩⟩
  obtain ⟨-, hyielded, hfaithful, -⟩ := draws_exact sizes g
  exact ⟨hsizes, rfl, rfl, hyielded (hfaithful hsizes)⟩

/-- Of an empty stream, four gigabytes are drawn: as many zeros, that are no part of it. -/
theorem draws_invented :
    let g : Generator := .ofStream []
    bytes 0x100000000 g = .ok (List.replicate 0x100000000 0, g) ∧ ¬ Faithful 0x100000000 g ∧
      ¬ yielded (draws [0x100000000] g).1 <+: [] := by
  intro g
  have hserved : Served 0x100000000 g := Or.inr ⟨rfl, by decide, by decide⟩
  have hbytes : bytes 0x100000000 g = .ok (List.replicate 0x100000000 0, g) :=
    bytes_of_served hserved
  have hyield : yielded (draws [0x100000000] g).1 = List.replicate 0x100000000 0 := by
    rw [draws, hbytes]
    exact List.append_nil _
  refine ⟨hbytes, not_faithful_of_served (by decide) hserved, fun hprefix => ?_⟩
  have hlength := hprefix.length_le
  rw [hyield, List.length_replicate] at hlength
  exact absurd hlength (by decide)

end BlobSigner.Entropy
