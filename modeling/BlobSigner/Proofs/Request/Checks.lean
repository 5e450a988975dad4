import BlobSigner.Proofs.SliceCheck.Schedules
import BlobSigner.Verification
/-!
# What a request is checked for

The checks of a request, stated of its bytes and of the node's tables, apart from the work that
makes them. `Passes` says that all of them are met, with the request in its decoded form; `Fails`
has one rule for each check, in order, and each rule asks that the checks before it are met. Every
request passes or fails: `passes_or_fails`.
-/
namespace BlobSigner

/-! ## Look-ups without batches -/

/-- Each look-up is answered at once, without a batch on the way. -/
def Surroundings.Answers (env : Surroundings)
    (reply : Nat → UInt64 → Except LookupError UInt64) : Prop :=
  ∀ number epoch, env.lookup number epoch = .answer (reply number epoch)

namespace Node

variable (reply : Nat → UInt64 → Except LookupError UInt64)

/-- The quorum count of an epoch, as the cache has it or else as the next look-up gives it. -/
def countOf (n : Node) (epoch : UInt64) : Except LookupError UInt64 :=
  match n.counts.get? epoch with
  | some count => .ok count
  | none => reply n.lookups epoch

/-- The node once it has asked for the count of an epoch. -/
def asked (n : Node) (epoch : UInt64) : Node :=
  match n.counts.get? epoch with
  | some _ => n
  | none =>
    match reply n.lookups epoch with
    | .ok count => { n with lookups := n.lookups + 1 }.putCount epoch count
    | .error _ => { n with lookups := n.lookups + 1 }

/-- The node once a request has passed. -/
def served (n : Node) (r : Request) : Node :=
  { n.asked reply r.epoch with rounds := n.rounds + 1 }

end Node

namespace Request

variable (limit : UInt64) (check : SliceCheck) (store : Store)
variable (counts : UInt64 → Except LookupError UInt64) (r : Request)

/-! ## The checks -/

/-- All parts of the request can be read, and this is what they say. -/
structure Decodes (d : Decoded) : Prop where
  epoch : d.key.epoch = r.epoch
  quorum : d.key.quorum = r.quorum
  root : d.key.root.toList = r.root
  commitment : Commitment.decode r.commitment = .ok d.commitment
  slices : List.Forall₂ (fun b s => Slice.decode limit b = .ok s) r.slices d.slices

/-- The request can be read and its blob awaits signatures. -/
structure Awaited (d : Decoded) : Prop extends r.Decodes limit d where
  uploaded : store.readStatus d.key = .ok (some .uploaded)

/-- Besides, its quorum exists in its epoch. -/
structure Seated (d : Decoded) : Prop extends r.Awaited limit store d where
  seated : ∃ count, counts d.key.epoch = .ok count ∧ d.key.quorum < count

/-- All checks are met: the slices are those assigned, in order, each with a good proof against the
request's own commitment and root. -/
structure Passes (d : Decoded) : Prop extends r.Seated limit store counts d where
  assigned : store.readAssignment d.key.quorumKey = .ok (some (d.slices.map Slice.index))
  proofs : ∀ s ∈ d.slices, check s d.commitment d.key.root = .accepted

/-- The first check that is not met, in the order of the rules. -/
inductive Fails : Rejection → Prop where
  | root : r.root.length ≠ 32 → Fails (.root ⟨r.root.length⟩)
  | commitment {e : Commitment.Error} : r.root.length = 32 →
      Commitment.decode r.commitment = .error e → Fails (.commitment e)
  | slice {C : G1} {before after : List Bytes} {b : Bytes} {e : Slice.FormError} :
      r.root.length = 32 → Commitment.decode r.commitment = .ok C →
      r.slices = before ++ b :: after → (∀ x ∈ before, ∃ s, Slice.decode limit x = .ok s) →
      Slice.decode limit b = .error e → Fails (.slice before.length e)
  | statusUnreadable {d : Decoded} {why : String} : r.Decodes limit d →
      store.readStatus d.key = .error why → Fails (.statusUnreadable why)
  | blobUnknown {d : Decoded} : r.Decodes limit d →
      store.readStatus d.key = .ok none → Fails .blobUnknown
  | blobVerified {d : Decoded} : r.Decodes limit d →
      store.readStatus d.key = .ok (some .verified) → Fails .blobVerified
  | statusCorrupt {d : Decoded} {s : BlobStatus} : r.Decodes limit d →
      store.readStatus d.key = .ok (some s) → s ≠ .uploaded → s ≠ .verified → Fails .statusCorrupt
  | countUnavailable {d : Decoded} {e : LookupError} : r.Awaited limit store d →
      counts d.key.epoch = .error e → Fails (.countUnavailable d.key.epoch e.message)
  | quorumOutOfBound {d : Decoded} {count : UInt64} : r.Awaited limit store d →
      counts d.key.epoch = .ok count → ¬ d.key.quorum < count →
      Fails (.quorumOutOfBound d.key.quorum d.key.epoch count)
  | assignmentUnreadable {d : Decoded} {why : String} : r.Seated limit store counts d →
      store.readAssignment d.key.quorumKey = .error why → Fails (.assignmentUnreadable why)
  | quorumUnassigned {d : Decoded} : r.Seated limit store counts d →
      store.readAssignment d.key.quorumKey = .ok none → Fails .quorumUnassigned
  | sliceCount {d : Decoded} {assigned : List UInt64} : r.Seated limit store counts d →
      store.readAssignment d.key.quorumKey = .ok (some assigned) →
      assigned.length ≠ d.slices.length → Fails (.sliceCount assigned.length d.slices.length)
  | position {d : Decoded} {assigned : List UInt64} {before after : List (Slice × UInt64)}
      {s : Slice} {expected : UInt64} {cause : Rejection} : r.Seated limit store counts d →
      store.readAssignment d.key.quorumKey = .ok (some assigned) →
      assigned.length = d.slices.length → d.slices.zip assigned = before ++ (s, expected) :: after →
      (∀ p ∈ before, p.1.index = p.2 ∧ check p.1 d.commitment d.key.root = .accepted) →
      SliceCheck.fault? check d.key.root d.commitment before.length s expected = some cause →
      Fails cause

/-! ## Every request passes or fails -/

variable {limit check store counts r}

theorem slices_readable_or_bad (limit : UInt64) (bs : List Bytes) :
    (∃ slices, List.Forall₂ (fun b s => Slice.decode limit b = .ok s) bs slices) ∨
      ∃ before b after e, bs = before ++ b :: after ∧
        (∀ x ∈ before, ∃ s, Slice.decode limit x = .ok s) ∧ Slice.decode limit b = .error e := by
  induction bs with
  | nil => exact Or.inl ⟨[], .nil⟩
  | cons b bs ih =>
    cases hb : Slice.decode limit b with
    | error e => exact Or.inr ⟨[], b, bs, e, rfl, by simp, hb⟩
    | ok s =>
      rcases ih with ⟨slices, hs⟩ | ⟨before, b', after, e, rfl, hgood, hbad⟩
      · exact Or.inl ⟨s :: slices, .cons hb hs⟩
      · exact Or.inr ⟨b :: before, b', after, e, rfl, List.forall_mem_cons.2 ⟨⟨s, hb⟩, hgood⟩, hbad⟩

/-- No position has a fault exactly if the indices are those assigned and all proofs are good. -/
theorem forall_zip_good_iff {C : G1} {root : StorageRoot} {slices : List Slice}
    {assigned : List UInt64} (hlen : assigned.length = slices.length) :
    (∀ p ∈ slices.zip assigned, p.1.index = p.2 ∧ check p.1 C root = .accepted) ↔
      slices.map Slice.index = assigned ∧ ∀ s ∈ slices, check s C root = .accepted := by
  induction slices generalizing assigned with
  | nil => simp [List.length_eq_zero_iff.1 hlen]
  | cons s slices ih =>
    cases assigned with
    | nil => simp at hlen
    | cons a assigned =>
      simp only [List.zip_cons_cons, List.forall_mem_cons, ih (by simpa using hlen),
        List.map_cons, List.cons.injEq]
      exact ⟨fun ⟨⟨h1, h2⟩, h3, h4⟩ => ⟨⟨h1, h3⟩, h2, h4⟩, fun ⟨⟨h1, h3⟩, h2, h4⟩ => ⟨⟨h1, h2⟩, h3, h4⟩⟩

variable (check counts)

theorem awaited_or_fails {d : Decoded} (hd : r.Decodes limit d) :
    r.Awaited limit store d ∨ ∃ cause, r.Fails limit check store counts cause := by
  cases hs : store.readStatus d.key with
  | error why => exact Or.inr ⟨_, .statusUnreadable hd hs⟩
  | ok status =>
    cases status with
    | none => exact Or.inr ⟨_, .blobUnknown hd hs⟩
    | some s =>
      by_cases hu : s = .uploaded
      · subst hu
        exact Or.inl ⟨hd, hs⟩
      · by_cases hv : s = .verified
        · subst hv
          exact Or.inr ⟨_, .blobVerified hd hs⟩
        · exact Or.inr ⟨_, .statusCorrupt hd hs hu hv⟩

theorem seated_or_fails {d : Decoded} (hd : r.Awaited limit store d) :
    r.Seated limit store counts d ∨ ∃ cause, r.Fails limit check store counts cause := by
  cases hc : counts d.key.epoch with
  | error e => exact Or.inr ⟨_, .countUnavailable hd hc⟩
  | ok count =>
    by_cases hlt : d.key.quorum < count
    · exact Or.inl ⟨hd, count, hc, hlt⟩
    · exact Or.inr ⟨_, .quorumOutOfBound hd hc hlt⟩

theorem passes_or_fails_of_seated {d : Decoded} (hd : r.Seated limit store counts d) :
    r.Passes limit check store counts d ∨ ∃ cause, r.Fails limit check store counts cause := by
  cases ha : store.readAssignment d.key.quorumKey with
  | error why => exact Or.inr ⟨_, .assignmentUnreadable hd ha⟩
  | ok record =>
    cases record with
    | none => exact Or.inr ⟨_, .quorumUnassigned hd ha⟩
    | some assigned =>
      by_cases hlen : assigned.length = d.slices.length
      · cases hf : SliceCheck.firstFault? check d.key.root d.commitment 0 (d.slices.zip assigned) with
        | some cause =>
          obtain ⟨before, s, expected, after, heq, hgood, hfault⟩ :=
            SliceCheck.firstFault?_eq_some_iff.1 hf
          rw [Nat.zero_add] at hfault
          exact Or.inr ⟨cause, .position hd ha hlen heq hgood hfault⟩
        | none =>
          obtain ⟨hindex, hproofs⟩ :=
            (forall_zip_good_iff hlen).1 (SliceCheck.firstFault?_eq_none_iff.1 hf)
          exact Or.inl ⟨hd, by rw [ha, hindex], hproofs⟩
      · exact Or.inr ⟨_, .sliceCount hd ha hlen⟩

variable (limit store r)

theorem decodes_or_fails :
    (∃ d, r.Decodes limit d) ∨ ∃ cause, r.Fails limit check store counts cause := by
  by_cases hroot : r.root.length = 32
  · cases hC : Commitment.decode r.commitment with
    | error e => exact Or.inr ⟨_, .commitment hroot hC⟩
    | ok C =>
      rcases slices_readable_or_bad limit r.slices with
        ⟨slices, hs⟩ | ⟨before, b, after, e, heq, hgood, hbad⟩
      · exact Or.inl ⟨⟨⟨r.epoch, r.quorum, ⟨r.root, hroot⟩⟩, C, slices⟩, rfl, rfl, rfl, hC, hs⟩
      · exact Or.inr ⟨_, .slice hroot hC heq hgood hbad⟩
  · exact Or.inr ⟨_, .root hroot⟩

/-- No request does neither. -/
theorem passes_or_fails :
    (∃ d, r.Passes limit check store counts d) ∨ ∃ cause, r.Fails limit check store counts cause := by
  rcases decodes_or_fails limit check store counts r with ⟨d, hd⟩ | hf
  · rcases awaited_or_fails check counts hd with hd | hf
    · rcases seated_or_fails check counts hd with hd | hf
      · rcases passes_or_fails_of_seated check counts hd with hd | hf
        · exact Or.inl ⟨d, hd⟩
        · exact Or.inr hf
      · exact Or.inr hf
    · exact Or.inr hf
  · exact Or.inr hf

end Request

end BlobSigner
