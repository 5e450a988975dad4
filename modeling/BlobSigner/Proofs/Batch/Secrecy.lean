import BlobSigner.Proofs.Batch.Phases
import BlobSigner.Proofs.Bn254.Encoding
/-!
# What the key has an influence on

Two services that have all but the key in common do the same work. `redact` blots the bytes of
signatures and leaves all else as it is, and `Traced.Alike` says of two pieces of work that they leave
one node behind and have one answer and one history once they are redacted. The relation goes through
every stage of a call (`batchSign_alike`); the stage that uses the key has a signature for every key,
always of one length (`signDecoded_alike`). Look-ups are part of the input here, so they may not go by
the bytes of the signatures that they are shown (`Lookup.Blind`).
-/
namespace BlobSigner

/-! ## Without the bytes of signatures -/

/-- Only the length is left. -/
def blot (b : Bytes) : Bytes := List.replicate b.length 0

def Reply.redact (r : Reply) : Reply := { r with signatures := r.signatures.map blot }

def Event.redact : Event → Event
  | .answered reply ongoing => .answered reply.redact ongoing
  | e => e

def Signed.redact (s : Signed) : Signed := { s with signature := blot s.signature }

/-- The look-up goes on in the same way whatever the bytes of the signatures that it is shown. -/
def Lookup.Blind : Lookup → Prop
  | .answer _ => True
  | .call _ next => ∀ reply, next reply = next reply.redact ∧ (next reply).Blind
  | .fetch _ inner next => inner.Blind ∧ ∀ result, (next result).Blind

/-- All look-ups are such. -/
def Surroundings.Blind (env : Surroundings) : Prop :=
  ∀ number epoch, (env.lookup number epoch).Blind

theorem entry_of_redact {signed signed' : List Signed}
    (h : signed.map Signed.redact = signed'.map Signed.redact) :
    signed.map Signed.entry = signed'.map Signed.entry := by
  have hentry : Signed.entry = Signed.entry ∘ Signed.redact := rfl
  rw [hentry, ← List.map_map, h, List.map_map]

theorem blot_of_redact {signed signed' : List Signed}
    (h : signed.map Signed.redact = signed'.map Signed.redact) :
    (signed.map Signed.signature).map blot = (signed'.map Signed.signature).map blot := by
  have hblot : blot ∘ Signed.signature = Signed.signature ∘ Signed.redact := rfl
  rw [List.map_map, List.map_map, hblot, ← List.map_map, h, List.map_map]

/-! ## Work that is alike -/

namespace Traced

variable {α β γ ε : Type} {view : α → γ} {t u : Traced α}

/-- Two pieces of work that differ only in what the view of the answer hides, and in the bytes of
signatures in the history. -/
structure Alike (view : α → γ) (t u : Traced α) : Prop where
  value : view t.value = view u.value
  node : t.node = u.node
  events : t.events.map Event.redact = u.events.map Event.redact

namespace Alike

theorem refl (view : α → γ) (t : Traced α) : t.Alike view t := ⟨rfl, rfl, rfl⟩

theorem map {δ : Type} {view' : β → δ} {f g : α → β} (h : t.Alike view u)
    (hf : ∀ a b, view a = view b → view' (f a) = view' (g b)) :
    (t.map f).Alike view' (u.map g) :=
  ⟨hf _ _ h.value, h.node, h.events⟩

theorem after {es es' : List Event} (h : t.Alike view u)
    (hes : es.map Event.redact = es'.map Event.redact) : (t.after es).Alike view (u.after es') :=
  ⟨h.value, h.node, by simp only [Traced.after, List.map_append, hes, h.events]⟩

/-- One failure, or two good answers that look the same. -/
theorem error_or_ok {t u : Traced (Except ε α)} (h : t.Alike (Except.map view) u) :
    (∃ e, t.value = .error e ∧ u.value = .error e) ∨
      ∃ a b, t.value = .ok a ∧ u.value = .ok b ∧ view a = view b := by
  have hvalue := h.value
  cases ht : t.value with
  | error e =>
    cases hu : u.value with
    | ok b => simp [ht, hu, Except.map] at hvalue
    | error e' =>
      rw [ht, hu] at hvalue
      cases hvalue
      exact Or.inl ⟨e, rfl, rfl⟩
  | ok a =>
    cases hu : u.value with
    | error e => simp [ht, hu, Except.map] at hvalue
    | ok b =>
      rw [ht, hu] at hvalue
      exact Or.inr ⟨a, b, rfl, rfl, Except.ok.inj hvalue⟩

/-- What follows a good answer may depend on no more of it than the view shows. -/
theorem andThen {δ : Type} {view' : β → δ} {t u : Traced (Except ε α)}
    {next next' : α → Node → Traced (Except ε β)} (h : t.Alike (Except.map view) u)
    (hnext : ∀ a b n, view a = view b → (next a n).Alike (Except.map view') (next' b n)) :
    (t.andThen next).Alike (Except.map view') (u.andThen next') := by
  rcases h.error_or_ok with ⟨e, ht, hu⟩ | ⟨a, b, ht, hu, hview⟩
  · rw [andThen_of_error ht, andThen_of_error hu]
    exact ⟨rfl, h.node, h.events⟩
  · rw [andThen_of_ok ht, andThen_of_ok hu, ← h.node]
    exact (hnext a b t.node hview).after h.events

end Alike

end Traced

/-! ## The stages of a call -/

theorem Node.fetchBy_alike {lookUp lookUp' : Node → Traced (Except LookupError UInt64)}
    (h : ∀ m, (lookUp m).Alike id (lookUp' m)) (epoch : UInt64) (n : Node) :
    (n.fetchBy lookUp epoch).Alike id (n.fetchBy lookUp' epoch) := by
  unfold fetchBy
  cases n.counts.get? epoch with
  | some count => exact .refl id _
  | none =>
    have hlookup : [Event.lookup epoch].map Event.redact = [Event.lookup epoch].map Event.redact := rfl
    have hask := (h { n with lookups := n.lookups + 1 }).after hlookup
    have hvalue := hask.value
    simp only [id_eq] at hvalue
    simp only [← hvalue]
    split
    · exact hask
    · exact ⟨rfl, by simp only [hask.node], hask.events⟩

section

variable {nested nested' : Batch → Node → Traced Reply}
  (hnested : ∀ b n, (nested b n).Alike Reply.redact (nested' b n))

include hnested

namespace Node

theorem consult_alike {l : Lookup} (hl : l.Blind) (n : Node) :
    (consult nested l n).Alike id (consult nested' l n) := by
  induction l generalizing n with
  | answer result => exact .refl id _
  | call b next ih =>
    have hcall := hnested b n
    have hnext : next (nested b n).value = next (nested' b n).value :=
      calc next (nested b n).value
        _ = next (nested b n).value.redact := (hl _).1
        _ = next (nested' b n).value.redact := by rw [hcall.value]
        _ = next (nested' b n).value := (hl _).1.symm
    rw [consult, consult, ← hnext, ← hcall.node]
    refine (ih _ (hl _).2 _).after ?_
    simp only [List.map_append, hcall.events, List.map_cons, Event.redact, hcall.value]
  | fetch epoch inner next ih ih' =>
    have hfetch := fetchBy_alike (ih hl.1) epoch n
    have hvalue : (n.fetchBy (consult nested inner) epoch).value = _ := hfetch.value
    rw [consult, consult, ← hfetch.node, hvalue]
    exact (ih' _ (hl.2 _) _).after hfetch.events

theorem fetchCount_alike {env : Surroundings} (henv : env.Blind) (epoch : UInt64) (n : Node) :
    (n.fetchCount env nested epoch).Alike id (n.fetchCount env nested' epoch) :=
  fetchBy_alike (consult_alike hnested (henv n.lookups epoch)) epoch n

theorem verify_alike {env : Surroundings} (henv : env.Blind) (pool : Pool) (d : Decoded) (n : Node) :
    (n.verify env nested pool d).Alike (Except.map id) (n.verify env nested' pool d) := by
  let unavailable : Except LookupError UInt64 → Except Rejection UInt64 :=
    Except.mapError fun e => .countUnavailable d.key.epoch e.message
  have hcount : ((n.fetchCount env nested d.key.epoch).map unavailable).Alike (Except.map id)
      ((n.fetchCount env nested' d.key.epoch).map unavailable) :=
    (fetchCount_alike hnested henv d.key.epoch n).map fun a b hab => congrArg _ (congrArg _ hab)
  refine hcount.andThen fun count count' m hsame => ?_
  cases hsame
  exact .refl _ _

end Node

end

/-- All but the key is the same. -/
structure Service.Twins (svc svc' : Service) : Prop where
  payloadLimit : svc.payloadLimit = svc'.payloadLimit
  pool : svc.pool = svc'.pool

namespace Service

/-- **Every key has a signature, and all signatures have one length.** -/
theorem signDecoded_alike (svc svc' : Service) (d : Decoded) :
    (svc.signDecoded d).map Signed.redact = (svc'.signDecoded d).map Signed.redact := by
  obtain ⟨b, hb⟩ := d.key.exists_sign d.commitment svc.key
  obtain ⟨b', hb'⟩ := d.key.exists_sign d.commitment svc'.key
  obtain ⟨_, _, _, _, hencode⟩ := BlobKey.sign_eq_ok_iff.1 hb
  obtain ⟨_, _, _, _, hencode'⟩ := BlobKey.sign_eq_ok_iff.1 hb'
  simp only [signDecoded, hb, hb', Except.map, Signed.redact, blot, G1.length_of_encode hencode,
    G1.length_of_encode hencode']

/-- Writes are those of the entries, whatever the signatures. -/
theorem commit_congr {i total : Nat} {signed signed' : List Signed} {n : Node}
    (h : signed.map Signed.entry = signed'.map Signed.entry) :
    commit i total signed n = commit i total signed' n := by
  induction signed generalizing i n signed' with
  | nil =>
    rw [List.map_eq_nil_iff.1 h.symm]
  | cons s rest ih =>
    obtain ⟨s', rest', rfl, hs, hrest⟩ := List.map_eq_cons_iff.1 h.symm
    obtain ⟨hkey, hslices⟩ : s'.key = s.key ∧ s'.slices = s.slices := Prod.mk.inj hs
    rw [commit, commit, hkey, hslices]
    cases n.store.putSlices s.key s.slices with
    | error why => rfl
    | ok st => simp only [ih hrest.symm]

theorem map_cons_redact (s : Signed) (v : Except Failure (List Signed)) :
    (v.map (s :: ·)).map (List.map Signed.redact) =
      (v.map (List.map Signed.redact)).map (s.redact :: ·) := by
  cases v <;> rfl

theorem redact_of (v : Except Failure (List Bytes)) :
    (Reply.of v).redact = Reply.of (v.map (List.map blot)) := by
  cases v <;> rfl

section

variable {nested nested' : Batch → Node → Traced Reply}
  (hnested : ∀ b n, (nested b n).Alike Reply.redact (nested' b n))
  {svc svc' : Service} (htwins : svc.Twins svc') {env : Surroundings} (henv : env.Blind)

include hnested htwins henv

theorem process_alike (r : Request) (n : Node) :
    (svc.process env nested r n).Alike (Except.map Signed.redact)
      (svc'.process env nested' r n) := by
  rw [process, process, ← htwins.payloadLimit, ← htwins.pool]
  refine (Traced.Alike.refl (Except.map id) _).andThen fun d d' n hd => ?_
  cases hd
  refine (Traced.Alike.refl (Except.map id) _).andThen fun _ _ n _ => ?_
  refine (Node.verify_alike hnested henv svc.pool d n).andThen fun _ _ n _ => ?_
  exact ⟨signDecoded_alike svc svc' d, rfl, rfl⟩

theorem processAll_alike (i : Nat) (rs : List Request) (n : Node) :
    (svc.processAll env nested i rs n).Alike (Except.map (List.map Signed.redact))
      (svc'.processAll env nested' i rs n) := by
  induction rs generalizing i n with
  | nil => exact .refl _ _
  | cons r rs ih =>
    have hr := process_alike hnested htwins henv r n
    rcases hr.error_or_ok with ⟨cause, ht, hu⟩ | ⟨s, s', ht, hu, hs⟩
    · rw [processAll_cons_of_error ht, processAll_cons_of_error hu]
      exact ⟨rfl, hr.node, by simp only [List.map_append, hr.events]⟩
    · rw [processAll_cons_of_ok ht, processAll_cons_of_ok hu, ← hr.node]
      refine ((ih (i + 1) _).map fun v v' hv => ?_).after hr.events
      rw [map_cons_redact, map_cons_redact, hv, hs]

theorem signAll_alike (b : Batch) (n : Node) :
    (svc.signAll env nested b n).Alike (Except.map (List.map blot))
      (svc'.signAll env nested' b n) := by
  refine Traced.Alike.after ?_ rfl
  refine (processAll_alike hnested htwins henv 0 b.requests n).andThen fun signed signed' n h => ?_
  have hlength : signed.length = signed'.length := by simpa using congrArg List.length h
  rw [← hlength, ← commit_congr (entry_of_redact h)]
  refine (Traced.Alike.refl (Except.map id) _).andThen fun _ _ n _ => ?_
  refine ⟨congrArg Except.ok (blot_of_redact h), rfl, ?_⟩
  simp only [signedRecord, List.length_map, hlength]

theorem admitted_alike (b : Batch) (n : Node) :
    (svc.admitted env nested b n).Alike Reply.redact (svc'.admitted env nested' b n) := by
  have h : ((svc.signAll env nested b n).map Reply.of).Alike Reply.redact
      ((svc'.signAll env nested' b n).map Reply.of) :=
    (signAll_alike hnested htwins henv b n).map fun v v' hv => by rw [redact_of, redact_of, hv]
  refine ⟨h.value, ?_, ?_⟩
  · simp only [admitted, h.node]
  · simp only [admitted, h.node, List.map_append, List.map_cons, h.events]

end

variable {svc svc' : Service} {env : Surroundings}

theorem batchSignWithin_alike (htwins : svc.Twins svc') (henv : env.Blind) (depth : Nat) (b : Batch)
    (n : Node) : (svc.batchSignWithin env depth b n).Alike Reply.redact
      (svc'.batchSignWithin env depth b n) := by
  induction depth generalizing b n with
  | zero => exact .refl _ _
  | succ depth ih =>
    rw [batchSignWithin, batchSignWithin]
    cases n.admission.enter? with
    | none => exact .refl _ _
    | some a => exact admitted_alike ih htwins henv b _

/-- **Calls of twins are alike**, with all calls nested in them. -/
theorem batchSign_alike (htwins : svc.Twins svc') (henv : env.Blind) (b : Batch) (n : Node) :
    (svc.batchSign env b n).Alike Reply.redact (svc'.batchSign env b n) :=
  batchSignWithin_alike htwins henv n.admission.max b n

end Service

end BlobSigner
