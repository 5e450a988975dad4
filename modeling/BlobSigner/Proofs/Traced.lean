import BlobSigner.Node
/-!
# Work in stages

A stage that fails ends the work; a good one hands its answer and its node to the next.
-/
namespace BlobSigner.Traced

variable {α β γ ε : Type} {t : Traced (Except ε α)} {next : α → Node → Traced (Except ε β)}

theorem andThen_of_error {e : ε} (h : t.value = .error e) :
    t.andThen next = ⟨.error e, t.node, t.events⟩ := by
  unfold andThen
  rw [h]

theorem andThen_of_ok {a : α} (h : t.value = .ok a) :
    t.andThen next = (next a t.node).after t.events := by
  unfold andThen
  rw [h]
  rfl

/-- Only what follows a good answer, on the node that comes with it, plays a part. -/
theorem andThen_congr {next' : α → Node → Traced (Except ε β)}
    (h : ∀ a, next a t.node = next' a t.node) : t.andThen next = t.andThen next' := by
  cases ht : t.value with
  | error e => rw [andThen_of_error ht, andThen_of_error ht]
  | ok a => rw [andThen_of_ok ht, andThen_of_ok ht, h a]

/-- Stages can be put together from either end. -/
theorem andThen_assoc (t : Traced (Except ε α)) (f : α → Node → Traced (Except ε β))
    (g : β → Node → Traced (Except ε γ)) :
    (t.andThen f).andThen g = t.andThen fun a n => (f a n).andThen g := by
  cases ht : t.value with
  | error e =>
    rw [andThen_of_error ht, andThen_of_error ht]
    rfl
  | ok a =>
    rw [andThen_of_ok ht, andThen_of_ok ht]
    unfold andThen after
    cases (f a t.node).value with
    | error e => rfl
    | ok b => simp only [List.append_assoc]

/-- What follows comes after the events so far. -/
theorem events_prefix_andThen (t : Traced (Except ε α)) (next : α → Node → Traced (Except ε β)) :
    t.events <+: (t.andThen next).events := by
  cases ht : t.value with
  | error e =>
    refine ⟨[], ?_⟩
    rw [List.append_nil, andThen_of_error ht]
  | ok a =>
    rw [andThen_of_ok ht]
    exact List.prefix_append ..

/-- Work ends well only if each of its stages does. -/
theorem exists_of_andThen_ok {b : β} (h : (t.andThen next).value = .ok b) :
    ∃ a, t.value = .ok a ∧ (next a t.node).value = .ok b := by
  cases ht : t.value with
  | error e =>
    rw [andThen_of_error ht] at h
    cases h
  | ok a =>
    rw [andThen_of_ok ht] at h
    exact ⟨a, rfl, h⟩

/-- Work with another error in place of its own ends well as it did. -/
theorem mapError_eq_ok_iff {δ : Type} {f : ε → δ} {a : α} :
    (t.map fun v => v.mapError f).value = .ok a ↔ t.value = .ok a := by
  unfold map
  cases t.value with
  | error e => exact ⟨(by cases ·), (by cases ·)⟩
  | ok b => exact ⟨(by cases ·; rfl), (by cases ·; rfl)⟩

@[simp] theorem value_after (events : List Event) (u : Traced α) :
    (u.after events).value = u.value := rfl

@[simp] theorem node_after (events : List Event) (u : Traced α) :
    (u.after events).node = u.node := rfl

@[simp] theorem events_map (f : α → β) (u : Traced α) : (u.map f).events = u.events := rfl

/-- Work that begins with a good answer is the work that follows. -/
@[simp] theorem andThen_of (a : α) (n : Node) :
    (of (.ok a : Except ε α) n).andThen next = next a n := rfl

end BlobSigner.Traced
