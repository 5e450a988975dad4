import BlobSigner.Admission.Permits
/-!
# Each permit is given back once

The admission keeps a number and the names keep the permits, and nothing but the steps ties the two
together. What ties them is an account of the serials: each permit admitted so far is held under one
name, or in hand between two names, or has been given back, and is in one of these places once
(`Accounted`). Every step keeps the account (`Accounted.step`), so it is right after every run
(`run_gives_back_once`).
-/
namespace BlobSigner

/-! ## Values of a table -/

namespace Table

variable {κ ν β : Type} [DecidableEq κ]

/-- What a partial function makes of the values, in order. -/
def collect (f : ν → Option β) (t : Table κ ν) : List β := t.entries.flatMap fun e => (f e.2).toList

/-- A value that is replaced makes room for the new one. -/
theorem perm_collect_insert (f : ν → Option β) (t : Table κ ν) (k : κ) (v : ν) :
    (((t.get? k).bind f).toList ++ (t.insert k v).collect f).Perm
      ((f v).toList ++ t.collect f) := by
  show (((find? k t.entries).bind f).toList ++
    (put k v t.entries).flatMap fun e => (f e.2).toList).Perm _
  unfold collect
  induction t.entries with
  | nil =>
    rw [put, find?, List.flatMap_cons]
    exact .refl _
  | cons e l ih =>
    obtain ⟨k', v'⟩ := e
    by_cases h : k' = k
    · rw [put, find?, if_pos h, if_pos h, List.flatMap_cons, List.flatMap_cons]
      exact List.perm_append_comm_assoc ..
    · rw [put, find?, if_neg h, if_neg h, List.flatMap_cons, List.flatMap_cons]
      exact (List.perm_append_comm_assoc ..).trans
        ((ih.append_left _).trans (List.perm_append_comm_assoc ..))

/-- A key that is not there has nothing to be removed. -/
theorem filter_ne_of_not_mem {k : κ} {l : List (κ × ν)} (h : k ∉ l.map Prod.fst) :
    (l.filter fun p => p.1 ≠ k) = l := by
  rw [List.filter_eq_self]
  intro p hp
  have hne : p.1 ≠ k := fun heq => h (heq ▸ List.mem_map_of_mem hp)
  simpa using hne

theorem perm_collect_erase (f : ν → Option β) (t : Table κ ν) (k : κ) :
    (((t.get? k).bind f).toList ++ (t.erase k).collect f).Perm (t.collect f) := by
  obtain ⟨l, hl⟩ := t
  show (((find? k l).bind f).toList ++
    (l.filter fun p => p.1 ≠ k).flatMap fun e => (f e.2).toList).Perm
      (l.flatMap fun e => (f e.2).toList)
  induction l with
  | nil => exact .refl _
  | cons e l ih =>
    obtain ⟨k', v'⟩ := e
    obtain ⟨hhead, htail⟩ := List.nodup_cons.1 hl
    by_cases h : k' = k
    · subst h
      rw [find?, if_pos rfl, List.filter_cons_of_neg (by simp), filter_ne_of_not_mem hhead,
        List.flatMap_cons]
      exact .refl _
    · rw [find?, if_neg h, List.filter_cons_of_pos (by simpa using h), List.flatMap_cons,
        List.flatMap_cons]
      exact (List.perm_append_comm_assoc ..).trans ((ih htail).append_left _)

end Table

/-! ## Permits that are held -/

def Permit.serial? : Permit → Option Nat
  | .held serial => some serial
  | .spent => none

namespace Permits

/-- The serials of the permits that a name holds and that were not moved from it. -/
def held (p : Permits) : List Nat := p.names.collect Permit.serial?

/-- What a step takes from under a name: the permit that was there, and on the way of a permit onto
its own name the spent one that it left. -/
def replaced (p : Permits) : Step → Option Permit
  | .enter name => p.names.get? name
  | .drop name => p.names.get? name
  | .move name target =>
    match p.names.get? name with
    | none => none
    | some _ => if name = target then some .spent else p.names.get? target

/-- The permits given back in a run, in order. -/
def returned (outcomes : List (Except SignError (Permits × List Release))) : List Release :=
  outcomes.flatMap fun outcome =>
    match outcome with
    | .ok (_, out) => out
    | .error _ => []

/-! ## Giving back -/

theorem serials_release (a : Admission) (permit : Option Permit) :
    (release a permit).2.map Release.serial = (permit.bind Permit.serial?).toList := by
  cases permit with
  | none => rfl
  | some permit => cases permit <;> rfl

theorem max_release (a : Admission) (permit : Option Permit) :
    (release a permit).1.max = a.max := by
  cases permit with
  | none => rfl
  | some permit => cases permit <;> rfl

/-- As many calls fewer are in progress as permits are given back. -/
theorem ongoing_release (a : Admission) (permit : Option Permit) :
    (release a permit).1.ongoing = a.ongoing - (permit.bind Permit.serial?).toList.length := by
  cases permit with
  | none => rfl
  | some permit => cases permit <;> rfl

theorem ongoing_of_mem_release {a : Admission} {permit : Option Permit} {x : Release}
    (h : x ∈ (release a permit).2) : x.ongoing = a.ongoing ∧ (permit.bind Permit.serial?).isSome := by
  cases permit with
  | none => cases h
  | some permit =>
    cases permit with
    | spent => cases h
    | held serial =>
      rw [List.mem_singleton.1 h]
      exact ⟨rfl, rfl⟩

/-! ## The account -/

/-- Each permit admitted so far has been given back, or is held under a name, or is in hand, and that
once; and as many calls are in progress as permits have not been given back. -/
structure Accounted (limit : Nat) (hand : List Nat) (released : List Release) (p : Permits) : Prop where
  serials : (released.map Release.serial ++ (hand ++ p.held)).Perm (List.range p.admitted)
  ongoing_eq : p.admission.ongoing = (hand ++ p.held).length
  max_eq : p.admission.max = limit
  ongoing_le : p.admission.ongoing ≤ limit
  released_pos : ∀ x ∈ released, 0 < x.ongoing

variable {p p' : Permits} {released out : List Release} {hand : List Nat} {limit : Nat}

/-- What was under a name is given back, and the rest of the names is as the table says. -/
theorem Accounted.giveBack {permit : Option Permit} {names : Table String Permit}
    (h : p.Accounted limit hand released)
    (hnames : ((permit.bind Permit.serial?).toList ++ names.collect Permit.serial?).Perm
      (hand ++ p.held)) :
    Accounted limit [] (released ++ (release p.admission permit).2)
      { p with admission := (release p.admission permit).1, names := names } := by
  have hlength := hnames.length_eq
  have hongoing := h.ongoing_eq
  rw [List.length_append] at hlength
  refine ⟨?_, ?_, (max_release ..).trans h.max_eq, ?_, ?_⟩
  · rw [List.map_append, serials_release, List.append_assoc]
    exact (hnames.append_left _).trans h.serials
  · show (release p.admission permit).1.ongoing = (names.collect Permit.serial?).length
    rw [ongoing_release]
    omega
  · show (release p.admission permit).1.ongoing ≤ limit
    rw [ongoing_release]
    exact Nat.le_trans (Nat.sub_le ..) h.ongoing_le
  · intro x hx
    rcases List.mem_append.1 hx with hx | hx
    · exact h.released_pos x hx
    · -- the permit is one of those that are counted
      obtain ⟨heq, hsome⟩ := ongoing_of_mem_release hx
      obtain ⟨serial, hserial⟩ := Option.isSome_iff_exists.1 hsome
      rw [hserial, Option.toList_some, List.length_singleton] at hlength
      omega

/-- A permit in hand is put under a name. -/
theorem Accounted.place {permit : Permit} (h : p.Accounted limit permit.serial?.toList released)
    (name : String) :
    Accounted limit [] (released ++ (p.place name permit).2) (p.place name permit).1 :=
  h.giveBack (p.names.perm_collect_insert Permit.serial? name permit)

theorem Accounted.drop (h : p.Accounted limit [] released) (name : String) :
    Accounted limit [] (released ++ (p.drop name).2) (p.drop name).1 :=
  h.giveBack (p.names.perm_collect_erase Permit.serial? name)

/-- A permit that has been admitted is in hand at first. -/
theorem Accounted.inHand (h : p.Accounted limit [] released)
    (hroom : p.admission.ongoing < p.admission.max) :
    Accounted limit [p.admitted] released
      { p with
        admission := { p.admission with ongoing := p.admission.ongoing + 1 }
        admitted := p.admitted + 1 } := by
  have hlimit : p.admission.ongoing + 1 ≤ limit := h.max_eq ▸ hroom
  refine ⟨?_, congrArg (· + 1) h.ongoing_eq, h.max_eq, hlimit, h.released_pos⟩
  show (released.map Release.serial ++ ([p.admitted] ++ p.held)).Perm (List.range (p.admitted + 1))
  rw [List.range_succ]
  refine .trans ?_ (h.serials.append_right [p.admitted])
  rw [List.append_assoc]
  exact List.perm_append_comm.append_left _

/-- A name that a permit is taken from holds a spent one. -/
theorem Accounted.take (h : p.Accounted limit [] released) {name : String} {permit : Permit}
    (hname : p.names.get? name = some permit) :
    Accounted limit permit.serial?.toList released { p with names := p.names.insert name .spent } := by
  have hperm := p.names.perm_collect_insert Permit.serial? name .spent
  rw [hname] at hperm
  refine ⟨(hperm.append_left _).trans h.serials, ?_, h.max_eq, h.ongoing_le, h.released_pos⟩
  rw [h.ongoing_eq]
  exact hperm.length_eq.symm

theorem Accounted.move (h : p.Accounted limit [] released) (name target : String) :
    Accounted limit [] (released ++ (p.move name target).2) (p.move name target).1 := by
  unfold Permits.move
  cases hname : p.names.get? name with
  | none =>
    rw [List.append_nil]
    exact h
  | some permit => exact (h.take hname).place target

theorem enter_of_room (hroom : p.admission.ongoing < p.admission.max) (name : String) :
    p.enter name = .ok (Permits.place { p with
      admission := { p.admission with ongoing := p.admission.ongoing + 1 }
      admitted := p.admitted + 1 } name (.held p.admitted)) := by
  rw [enter, Admission.enter?, if_pos hroom]

theorem enter_of_full (hfull : ¬ p.admission.ongoing < p.admission.max) (name : String) :
    p.enter name = .error Admission.overloaded := by
  rw [enter, Admission.enter?, if_neg hfull]

/-- **A step keeps the account.** -/
theorem Accounted.step {x : Step} (h : p.Accounted limit [] released) (hx : p.step x = .ok (p', out)) :
    p'.Accounted limit [] (released ++ out) := by
  cases x with
  | enter name =>
    by_cases hroom : p.admission.ongoing < p.admission.max
    · rw [Permits.step, enter_of_room hroom] at hx
      cases hx
      have hheld := h.inHand hroom
      change Accounted limit (Permit.held p.admitted).serial?.toList released _ at hheld
      exact hheld.place name
    · rw [Permits.step, enter_of_full hroom] at hx
      cases hx
  | drop name =>
    obtain ⟨rfl, rfl⟩ := Prod.mk.inj (Except.ok.inj hx)
    exact h.drop name
  | move name target =>
    obtain ⟨rfl, rfl⟩ := Prod.mk.inj (Except.ok.inj hx)
    exact h.move name target

/-! ## Steps and runs -/

/-- A step gives back what it takes from under a name, and a spent permit gives nothing back. -/
theorem serials_of_step {x : Step} (hx : p.step x = .ok (p', out)) :
    out.map Release.serial = ((p.replaced x).bind Permit.serial?).toList := by
  cases x with
  | enter name =>
    by_cases hroom : p.admission.ongoing < p.admission.max
    · rw [Permits.step, enter_of_room hroom] at hx
      cases hx
      exact serials_release ..
    · rw [Permits.step, enter_of_full hroom] at hx
      cases hx
  | drop name =>
    cases hx
    exact serials_release ..
  | move name target =>
    have hout : (p.move name target).2 = out := congrArg Prod.snd (Except.ok.inj hx)
    rw [← hout, Permits.move, replaced]
    cases p.names.get? name with
    | none => rfl
    | some permit =>
      simp only [← Table.get?_insert]
      exact serials_release ..

/-- Only an entry is refused, and only at the limit. -/
theorem step_eq_error_iff {x : Step} {e : SignError} :
    p.step x = .error e ↔
      (∃ name, x = .enter name) ∧ ¬ p.admission.ongoing < p.admission.max ∧
        e = Admission.overloaded := by
  cases x with
  | enter name =>
    by_cases hroom : p.admission.ongoing < p.admission.max
    · simp [Permits.step, enter_of_room hroom, hroom]
    · simp [Permits.step, enter_of_full hroom, hroom, eq_comm]
  | drop name => simp [Permits.step]
  | move name target => simp [Permits.step]

theorem after_of_error {x : Step} {e : SignError} (hx : p.step x = .error e) : p.after x = p := by
  rw [after, hx]

/-- **The account is right after every run.** -/
theorem Accounted.run (h : p.Accounted limit [] released) (steps : List Step) :
    (steps.foldl after p).Accounted limit [] (released ++ returned (p.run steps)) := by
  induction steps generalizing p released with
  | nil =>
    rw [Permits.run, returned, List.flatMap_nil, List.append_nil]
    exact h
  | cons x steps ih =>
    rw [List.foldl_cons, Permits.run, returned, List.flatMap_cons, ← List.append_assoc]
    cases hx : p.step x with
    | error e =>
      rw [after_of_error hx, List.append_nil]
      exact ih h
    | ok outcome =>
      obtain ⟨p', out⟩ := outcome
      rw [after, hx]
      exact ih (h.step hx)

theorem accounted_ofAdmission {a : Admission} (h : a.ongoing = 0) :
    (ofAdmission a).Accounted a.max [] [] where
  serials := .refl _
  ongoing_eq := h
  max_eq := rfl
  ongoing_le := h ▸ Nat.zero_le _
  released_pos := nofun

/-- A permit that is moved is under its new name alone, and the old one holds a spent permit; moved
onto its own name it stays where it is. -/
theorem get?_move {name target : String} {permit : Permit} (hname : p.names.get? name = some permit)
    (other : String) :
    (p.move name target).1.names.get? other =
      if target = other then some permit
      else if name = other then some .spent else p.names.get? other := by
  simp only [Permits.move, hname, Permits.place, Table.get?_insert]

/-- **Each permit is given back once.** At every moment of a run under a limit that is not zero, as
many calls are in progress as permits are held, and no more than the limit. The permits admitted so
far are those held and those given back, each in one place and once, and none was given back while
no call was in progress. Of the steps that can follow, exactly an entry at the limit is refused, and
it changes nothing; any other gives back what it takes from under a name, which is nothing if the
permit there was moved from it. -/
theorem run_gives_back_once {max : UInt64} (h : 1 ≤ max) :
    ∃ a, Admission.ofMax max = .ok a ∧ ∀ steps : List Step,
      let p := steps.foldl after (ofAdmission a)
      let released := returned ((ofAdmission a).run steps)
      p.admission.max = max.toNat ∧ p.admission.ongoing = p.held.length ∧
      p.admission.ongoing ≤ p.admission.max ∧
      (released.map Release.serial ++ p.held).Perm (List.range p.admitted) ∧
      (∀ x ∈ released, 0 < x.ongoing) ∧
      (∀ x, (∃ e, p.step x = .error e) ↔
        (∃ name, x = .enter name) ∧ p.admission.ongoing = p.admission.max) ∧
      (∀ x e, p.step x = .error e → e = Admission.overloaded ∧ p.after x = p) ∧
      (∀ x p' out, p.step x = .ok (p', out) →
        out.map Release.serial = ((p.replaced x).bind Permit.serial?).toList) ∧
      ∀ name target permit, p.names.get? name = some permit → ∀ other,
        (p.move name target).1.names.get? other =
          if target = other then some permit
          else if name = other then some .spent else p.names.get? other := by
  have hpos : 0 < max.toNat := UInt64.le_iff_toNat_le.1 h
  refine ⟨⟨max.toNat, 0, hpos⟩, by rw [Admission.ofMax, dif_pos hpos], fun steps => ?_⟩
  intro p released
  have hp : p.Accounted max.toNat [] released :=
    (accounted_ofAdmission (a := ⟨max.toNat, 0, hpos⟩) rfl).run steps
  have hmax := hp.max_eq
  have hle := hp.ongoing_le
  refine ⟨hmax, hp.ongoing_eq, hmax ▸ hle, hp.serials, hp.released_pos, fun x => ?_,
    fun x e hx => ?_, fun x p' out hx => serials_of_step hx,
    fun name target permit hname other => get?_move hname other⟩
  · simp only [step_eq_error_iff, exists_and_left, exists_eq, and_true, hmax, Nat.not_lt]
    exact and_congr_right fun _ => ⟨fun hge => Nat.le_antisymm hle hge, fun heq => heq ▸ Nat.le_refl _⟩
  · exact ⟨(step_eq_error_iff.1 hx).2.2, after_of_error hx⟩

/-- At most two calls: a permit makes way for the next under its name, one is moved and moved onto
itself, an entry is refused, and a spent permit is dropped before the one that left it. -/
theorem run_gives_back_once_moved :
    let steps : List Step := [.enter "a", .enter "a", .move "a" "b", .move "b" "b", .enter "c",
      .enter "d", .drop "a", .drop "b"]
    1 ≤ (2 : UInt64) ∧ ∃ a, Admission.ofMax 2 = .ok a ∧
      returned ((ofAdmission a).run steps) = [⟨0, 2⟩, ⟨1, 2⟩] ∧
      (steps.foldl after (ofAdmission a)).admission.ongoing = 1 ∧
      ([0, 1] ++ (steps.foldl after (ofAdmission a)).held).Perm (List.range 3) := by
  intro steps
  have hone : 1 ≤ (2 : UInt64) := by decide
  obtain ⟨a, ha, hrun⟩ := run_gives_back_once hone
  obtain ⟨-, hongoing, -, hserials, -⟩ := hrun steps
  cases ha
  exact ⟨hone, _, rfl, by decide, by decide, hserials⟩

end Permits

end BlobSigner
