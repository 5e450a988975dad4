import BlobSigner.Proofs.SigningKey
import BlobSigner.Settings
/-!
# Layers of settings

Each option has one value that counts: the one given directly, else that of the file, else the default
(`Values.of`). What is loaded depends on these values alone (`load_of_reads`): they mean settings
(`Means`), or one of them is the first without a meaning (`Fails`), and never both. So an entry of the
file can say anything about an option that is given directly (`values_congr`). What has been loaded
starts a service, unless there is no key (`start_of_load`).
-/
namespace BlobSigner

theorem LogLevel.exists_ofName?_iff {name : String} :
    (∃ level, ofName? name = some level) ↔
      name ∈ ["trace", "debug", "info", "warning", "warn", "error", "err", "critical", "off"] := by
  unfold ofName?
  split <;> simp_all

namespace Settings

variable {files : String → Option Options} {given entries entries' : Options} {s : Settings}
  {e : Failure}

/-! ## Values that count -/

/-- The value that counts of each option. There may be none of the key and of the threads. -/
structure Values where
  key : Option String
  maxOngoing : UInt64
  verifyThreads : Option UInt64
  payloadLimit : UInt64
  logLevel : String
deriving DecidableEq

/-- The value given directly, else that of the file, else the default. -/
def Values.of (given entries : Options) : Values where
  key := given.key <|> entries.key
  maxOngoing := (given.maxOngoing <|> entries.maxOngoing).getD Admission.defaultMax
  verifyThreads := given.verifyThreads <|> entries.verifyThreads
  payloadLimit := (given.payloadLimit <|> entries.payloadLimit).getD Slice.defaultLimit
  logLevel := (given.logLevel <|> entries.logLevel).getD "info"

/-- The entries are those of the file that is named, and there are none if no file is. -/
def Reads (files : String → Option Options) (given entries : Options) : Prop :=
  match given.file with
  | none => entries = .empty
  | some path => files path = some entries

/-- The entries agree on all options that are not given directly. -/
structure AgreeBeneath (given entries entries' : Options) : Prop where
  key : given.key = none → entries.key = entries'.key
  maxOngoing : given.maxOngoing = none → entries.maxOngoing = entries'.maxOngoing
  verifyThreads : given.verifyThreads = none → entries.verifyThreads = entries'.verifyThreads
  payloadLimit : given.payloadLimit = none → entries.payloadLimit = entries'.payloadLimit
  logLevel : given.logLevel = none → entries.logLevel = entries'.logLevel

theorem orElse_congr {α : Type} {x y y' : Option α} (h : x = none → y = y') :
    (x <|> y) = (x <|> y') := by
  cases x with
  | none => rw [h rfl]
  | some a => rfl

theorem values_congr (h : AgreeBeneath given entries entries') :
    Values.of given entries = Values.of given entries' := by
  simp only [Values.of, orElse_congr h.key, orElse_congr h.maxOngoing, orElse_congr h.verifyThreads,
    orElse_congr h.payloadLimit, orElse_congr h.logLevel]

/-- What counts if these are all the options. -/
def Values.ofLayer (o : Options) : Values where
  key := o.key
  maxOngoing := o.maxOngoing.getD Admission.defaultMax
  verifyThreads := o.verifyThreads
  payloadLimit := o.payloadLimit.getD Slice.defaultLimit
  logLevel := o.logLevel.getD "info"

/-- The default beneath all layers is the one that counts where they have none. -/
theorem ofLayer_above (given entries : Options) :
    Values.ofLayer ((given.above entries).above .defaults) = Values.of given entries := by
  simp [Values.ofLayer, Values.of, Options.above, Options.defaults, Options.empty, LogLevel.name]

theorem above_empty (given : Options) : given.above .empty = given := by
  simp [Options.above, Options.empty]

/-! ## What the values mean -/

/-- There is no key, or the text is that of this key. -/
def Values.HasKey (v : Values) (key : Option Fr) : Prop :=
  v.key.map SigningKey.parse = key.map Except.ok

/-- The settings are what the values mean. -/
structure Means (v : Values) (s : Settings) : Prop where
  key : v.HasKey s.key
  calls : v.maxOngoing ≠ 0
  threads : v.verifyThreads ≠ some 0
  level : LogLevel.ofName? v.logLevel = some s.logLevel
  maxOngoing : s.maxOngoing = v.maxOngoing
  verifyThreads : s.verifyThreads = v.verifyThreads
  payloadLimit : s.payloadLimit = v.payloadLimit

/-- The failure is that of the first value without a meaning: those that come before it have one. -/
inductive Fails (v : Values) : Failure → Prop
  | key {text : String} {e : SigningKey.FormError} (present : v.key = some text)
      (bad : SigningKey.parse text = .error e) : Fails v (.key e)
  | noCalls {k : Option Fr} (key : v.HasKey k) (bad : v.maxOngoing = 0) : Fails v .noCalls
  | noThreads {k : Option Fr} (key : v.HasKey k) (calls : v.maxOngoing ≠ 0)
      (bad : v.verifyThreads = some 0) : Fails v .noThreads
  | unknownLevel {k : Option Fr} (key : v.HasKey k) (calls : v.maxOngoing ≠ 0)
      (threads : v.verifyThreads ≠ some 0) (bad : LogLevel.ofName? v.logLevel = none) :
      Fails v (.unknownLevel v.logLevel)

theorem hasKey_or_bad (v : Values) :
    (∃ k, v.HasKey k) ∨ ∃ text e, v.key = some text ∧ SigningKey.parse text = .error e := by
  cases hkey : v.key with
  | none => exact Or.inl ⟨none, congrArg (Option.map SigningKey.parse) hkey⟩
  | some text =>
    cases hparse : SigningKey.parse text with
    | error e => exact Or.inr ⟨text, e, rfl, hparse⟩
    | ok k => exact Or.inl ⟨some k, by rw [Values.HasKey, hkey, Option.map_some, hparse]; rfl⟩

theorem hasKey_iff {v : Values} :
    (∃ k, v.HasKey k) ↔ ∀ text, v.key = some text → ∃ k, SigningKey.parse text = .ok k := by
  constructor
  · rintro ⟨k, hk⟩ text htext
    rw [Values.HasKey, htext] at hk
    cases k with
    | none => cases hk
    | some k => exact ⟨k, Option.some.inj hk⟩
  · intro h
    rcases hasKey_or_bad v with hk | ⟨text, e, htext, hbad⟩
    · exact hk
    · obtain ⟨k, hk⟩ := h text htext
      cases hbad.symm.trans hk

theorem exists_means_iff {v : Values} :
    (∃ s, Means v s) ↔
      (∃ k, v.HasKey k) ∧ v.maxOngoing ≠ 0 ∧ v.verifyThreads ≠ some 0 ∧
        ∃ level, LogLevel.ofName? v.logLevel = some level := by
  constructor
  · rintro ⟨s, hs⟩
    exact ⟨⟨_, hs.key⟩, hs.calls, hs.threads, _, hs.level⟩
  · rintro ⟨⟨k, hk⟩, hcalls, hthreads, level, hlevel⟩
    exact ⟨⟨k, v.maxOngoing, v.verifyThreads, v.payloadLimit, level⟩, hk, hcalls, hthreads, hlevel,
      rfl, rfl, rfl⟩

theorem means_or_fails (v : Values) : (∃ s, Means v s) ∨ ∃ e, Fails v e := by
  rcases hasKey_or_bad v with ⟨k, hk⟩ | ⟨text, e, htext, hbad⟩
  · by_cases hcalls : v.maxOngoing = 0
    · exact Or.inr ⟨_, .noCalls hk hcalls⟩
    · by_cases hthreads : v.verifyThreads = some 0
      · exact Or.inr ⟨_, .noThreads hk hcalls hthreads⟩
      · cases hlevel : LogLevel.ofName? v.logLevel with
        | none => exact Or.inr ⟨_, .unknownLevel hk hcalls hthreads hlevel⟩
        | some level => exact Or.inl (exists_means_iff.2 ⟨⟨k, hk⟩, hcalls, hthreads, level, hlevel⟩)
  · exact Or.inr ⟨_, .key htext hbad⟩

/-! ## Reading one layer -/

section

variable {o : Options} {k : Option Fr}

theorem readKey_of_hasKey (h : (Values.ofLayer o).HasKey k) : readKey o.key = .ok k := by
  have hparse : o.key.map SigningKey.parse = k.map Except.ok := h
  cases hkey : o.key with
  | none =>
    rw [hkey] at hparse
    cases k with
    | none => rfl
    | some k => cases hparse
  | some text =>
    rw [hkey] at hparse
    cases k with
    | none => cases hparse
    | some k => rw [readKey, Option.some.inj hparse]

theorem readMaxOngoing_of_ne (h : (Values.ofLayer o).maxOngoing ≠ 0) :
    readMaxOngoing o.maxOngoing = .ok (Values.ofLayer o).maxOngoing := if_neg h

theorem readThreads_of_ne (h : (Values.ofLayer o).verifyThreads ≠ some 0) :
    readThreads o.verifyThreads = .ok o.verifyThreads := if_neg h

theorem readLevel_eq (o : Options) :
    readLevel o.logLevel =
      match LogLevel.ofName? (Values.ofLayer o).logLevel with
      | some level => .ok level
      | none => .error (.unknownLevel (Values.ofLayer o).logLevel) := by
  cases hlevel : o.logLevel with
  | none => simp only [Values.ofLayer, hlevel, Option.getD_none]; rfl
  | some name => simp only [Values.ofLayer, hlevel, Option.getD_some]; rfl

theorem ofOptions_of_means (h : Means (Values.ofLayer o) s) : ofOptions o = .ok s := by
  obtain ⟨key, maxOngoing, verifyThreads, payloadLimit, level⟩ := s
  obtain ⟨hkey, hcalls, hthreads, hlevel, rfl, rfl, rfl⟩ := h
  have hread := readLevel_eq o
  rw [hlevel] at hread
  simp only [ofOptions, readKey_of_hasKey hkey, readMaxOngoing_of_ne hcalls,
    readThreads_of_ne hthreads, hread]
  rfl

theorem ofOptions_of_fails (h : Fails (Values.ofLayer o) e) : ofOptions o = .error e := by
  cases h with
  | @key text e htext hbad =>
    have hread : readKey o.key = .error (.key e) := by
      have hkey : o.key = some text := htext
      rw [hkey, readKey, hbad]
    simp only [ofOptions, hread]
  | noCalls hkey hbad =>
    have hread : readMaxOngoing o.maxOngoing = .error .noCalls := if_pos hbad
    simp only [ofOptions, readKey_of_hasKey hkey, hread]
  | noThreads hkey hcalls hbad =>
    have hread : readThreads o.verifyThreads = .error .noThreads := if_pos hbad
    simp only [ofOptions, readKey_of_hasKey hkey, readMaxOngoing_of_ne hcalls, hread]
  | unknownLevel hkey hcalls hthreads hbad =>
    have hread := readLevel_eq o
    rw [hbad] at hread
    simp only [ofOptions, readKey_of_hasKey hkey, readMaxOngoing_of_ne hcalls,
      readThreads_of_ne hthreads, hread]

end

/-! ## All layers -/

theorem load_of_reads (h : Reads files given entries) :
    ∃ o, load files given = ofOptions o ∧ Values.ofLayer o = Values.of given entries := by
  unfold Reads at h
  split at h
  · rename_i hfile
    have hlayer := ofLayer_above given .empty
    rw [above_empty] at hlayer
    exact ⟨_, by simp only [load, layered, hfile], h ▸ hlayer⟩
  · rename_i path hfile
    exact ⟨_, by simp only [load, layered, hfile, h], ofLayer_above given entries⟩

theorem load_or_fails (h : Reads files given entries) :
    (∃ s, Means (Values.of given entries) s ∧ load files given = .ok s) ∨
      ∃ e, Fails (Values.of given entries) e ∧ load files given = .error e := by
  obtain ⟨o, hload, hvalues⟩ := load_of_reads h
  rw [← hvalues, hload]
  rcases means_or_fails (Values.ofLayer o) with ⟨s, hs⟩ | ⟨e, he⟩
  · exact Or.inl ⟨s, hs, ofOptions_of_means hs⟩
  · exact Or.inr ⟨e, he, ofOptions_of_fails he⟩

theorem load_of_means (h : Reads files given entries) (hs : Means (Values.of given entries) s) :
    load files given = .ok s := by
  obtain ⟨o, hload, hvalues⟩ := load_of_reads h
  rw [← hvalues] at hs
  rw [hload, ofOptions_of_means hs]

theorem load_of_fails (h : Reads files given entries) (he : Fails (Values.of given entries) e) :
    load files given = .error e := by
  obtain ⟨o, hload, hvalues⟩ := load_of_reads h
  rw [← hvalues] at he
  rw [hload, ofOptions_of_fails he]

/-- Without any option all values are defaults, and each of them has a meaning. -/
example : load (fun _ => none) .empty =
    .ok ⟨none, Admission.defaultMax, none, Slice.defaultLimit, .info⟩ := rfl

theorem load_eq_ok_iff (h : Reads files given entries) :
    load files given = .ok s ↔ Means (Values.of given entries) s := by
  constructor
  · intro hok
    rcases load_or_fails h with ⟨s', hs', hload⟩ | ⟨e, -, hload⟩
    · cases hok.symm.trans hload
      exact hs'
    · cases hok.symm.trans hload
  · exact load_of_means h

theorem load_eq_error_iff (h : Reads files given entries) :
    load files given = .error e ↔ Fails (Values.of given entries) e := by
  constructor
  · intro herror
    rcases load_or_fails h with ⟨s, -, hload⟩ | ⟨e', he', hload⟩
    · cases herror.symm.trans hload
    · cases herror.symm.trans hload
      exact he'
  · exact load_of_fails h

/-- Nothing but the values counts, wherever they come from. -/
theorem load_congr {files' : String → Option Options} {given' : Options}
    (h : Reads files given entries) (h' : Reads files' given' entries')
    (hvalues : Values.of given entries = Values.of given' entries') :
    load files given = load files' given' := by
  rcases load_or_fails h with ⟨s, hs, hload⟩ | ⟨e, he, hload⟩
  · rw [hload, load_of_means h' (hvalues ▸ hs)]
  · rw [hload, load_of_fails h' (hvalues ▸ he)]

/-! ## Starting with settings -/

/-- The service has what the values say, and no call is in progress. -/
structure Starts (v : Values) (hardware : Nat) (svc : Service) (a : Admission) : Prop where
  key : ∃ text, v.key = some text ∧ SigningKey.parse text = .ok svc.key
  payloadLimit : svc.payloadLimit = v.payloadLimit
  workers : svc.pool.workers = (v.verifyThreads.map UInt64.toNat).getD (max 1 hardware)
  max : a.max = v.maxOngoing.toNat
  idle : a.ongoing = 0

theorem ofMax_of_ne_zero {n : UInt64} (h : n ≠ 0) :
    ∃ a, Admission.ofMax n = .ok a ∧ a.max = n.toNat ∧ a.ongoing = 0 := by
  have hpos : 0 < n.toNat := Nat.pos_of_ne_zero fun h0 => h (UInt64.toNat_inj.1 h0)
  exact ⟨⟨n.toNat, 0, hpos⟩, dif_pos hpos, rfl, rfl⟩

theorem workers_resolve {threads : Option UInt64} (h : threads ≠ some 0) (hardware : Nat) :
    (Pool.resolve (threads.map UInt64.toNat) hardware).workers =
      (threads.map UInt64.toNat).getD (max 1 hardware) := by
  cases threads with
  | none => rfl
  | some n =>
    have hne : n.toNat ≠ 0 := fun h0 => h (congrArg some (UInt64.toNat_inj.1 h0))
    obtain ⟨k, hk⟩ := Nat.exists_eq_succ_of_ne_zero hne
    rw [Option.map_some, Option.getD_some, hk]
    rfl

/-- What has been loaded starts a service, but for a key that is left out: the other values that a
service refuses have been refused before. -/
theorem start_of_load (h : Reads files given entries) (hload : load files given = .ok s)
    (hardware : Nat) :
    let v := Values.of given entries
    (v.key = none ∧ Service.start s.setup hardware = .error .noKey) ∨
      ∃ svc a, Service.start s.setup hardware = .ok (svc, a) ∧ Starts v hardware svc a := by
  intro v
  have hs : Means v s := (load_eq_ok_iff h).1 hload
  have hkey : v.key.map SigningKey.parse = s.key.map Except.ok := hs.key
  cases hk : s.key with
  | none =>
    rw [hk] at hkey
    exact Or.inl ⟨Option.map_eq_none_iff.1 hkey, by simp only [Service.start, setup, hk]⟩
  | some k =>
    rw [hk] at hkey
    obtain ⟨text, htext, hparse⟩ := Option.map_eq_some_iff.1 hkey
    have hne : k ≠ 0 := SigningKey.ne_zero_of_parse hparse
    obtain ⟨a, ha, hmax, hidle⟩ := ofMax_of_ne_zero (hs.maxOngoing ▸ hs.calls)
    refine Or.inr ⟨⟨k, s.payloadLimit, .resolve (s.verifyThreads.map UInt64.toNat) hardware, hne⟩, a,
      ?_, ⟨text, htext, hparse⟩, hs.payloadLimit, ?_, ?_, hidle⟩
    · simp only [Service.start, setup, hk, dif_neg hne, List.not_mem_nil, decide_false,
        List.find?_cons, List.find?_nil, ha]
    · rw [hs.verifyThreads]
      exact workers_resolve hs.threads hardware
    · rw [hmax, hs.maxOngoing]

/-! ## All of it -/

/-- **Settings depend on the values that count, and on nothing else.** Of each option this is the value
given directly, else that of the file, else the default. If all of them have a meaning, that is if
there is no key or it is the text of one, calls and threads are not zero and the log level has one of
the known names, the settings are exactly what they mean; otherwise the failure is that of the first
one without a meaning, in the order key, calls, threads, log level. Options and files with the same
values give the same; and so a file gives the same, whatever it says about options that are given
directly. -/
theorem load_exact :
    (∀ files given entries, Reads files given entries →
      let v := Values.of given entries
      ((∃ s, load files given = .ok s) ↔
        (∀ text, v.key = some text → ∃ k, SigningKey.parse text = .ok k) ∧ v.maxOngoing ≠ 0 ∧
        v.verifyThreads ≠ some 0 ∧
        v.logLevel ∈
          ["trace", "debug", "info", "warning", "warn", "error", "err", "critical", "off"]) ∧
      (∀ s, load files given = .ok s ↔ Means v s) ∧
      ∀ e, load files given = .error e ↔ Fails v e) ∧
    (∀ files given entries files' given' entries', Reads files given entries →
      Reads files' given' entries' → Values.of given entries = Values.of given' entries' →
      load files given = load files' given') ∧
    ∀ files given entries files' entries', Reads files given entries →
      Reads files' given entries' → AgreeBeneath given entries entries' →
      load files given = load files' given := by
  refine ⟨fun files given entries h => ?_, fun _ _ _ _ _ _ => load_congr,
    fun _ _ _ _ _ h h' hagree => load_congr h h' (values_congr hagree)⟩
  intro v
  refine ⟨?_, fun s => load_eq_ok_iff h, fun e => load_eq_error_iff h⟩
  simp only [load_eq_ok_iff h, exists_means_iff, hasKey_iff, LogLevel.exists_ofName?_iff, v]

/-- The key and the threads are those of the file. It says also that there can be no calls, and names
a level that does not exist, but for both there is a value given directly; without these two the calls
come first. -/
theorem load_exact_overridden :
    let key : Fr := ⟨7, by decide⟩
    let entries : Options := { Options.empty with
      key := some (Hex.encode (Radix.bigEndian 32 key.val))
      maxOngoing := some 0
      verifyThreads := some 4
      logLevel := some "loud" }
    let plain : Options := { entries with maxOngoing := none, logLevel := none }
    let given : Options := { Options.empty with
      file := some "node.ini", maxOngoing := some 3, logLevel := some "warn" }
    let bare : Options := { Options.empty with file := some "node.ini" }
    let files := fun _ => some entries
    load files given = .ok ⟨some key, 3, some 4, Slice.defaultLimit, .warn⟩ ∧
      load files given = load (fun _ => some plain) given ∧
      load files bare = .error .noCalls := by
  intro key entries plain given bare files
  obtain ⟨hvalues, -, hbeneath⟩ := load_exact
  have hparse : SigningKey.parse (Hex.encode (Radix.bigEndian 32 key.val)) = .ok key :=
    SigningKey.parse_encode (by decide)
  have hkey : (Values.of given entries).HasKey (some key) := congrArg some hparse
  have hbare : (Values.of bare entries).HasKey (some key) := congrArg some hparse
  have hagree : AgreeBeneath given entries plain := by
    refine ⟨fun _ => rfl, ?_, fun _ => rfl, fun _ => rfl, ?_⟩
    all_goals intro h; cases h
  obtain ⟨-, hmeans, -⟩ := hvalues files given entries rfl
  obtain ⟨-, -, hfails⟩ := hvalues files bare entries rfl
  refine ⟨(hmeans _).2 ⟨hkey, by decide, by decide, rfl, rfl, rfl, rfl⟩, ?_,
    (hfails _).2 (.noCalls hbare rfl)⟩
  exact hbeneath files given entries _ plain rfl rfl hagree

end Settings

end BlobSigner
