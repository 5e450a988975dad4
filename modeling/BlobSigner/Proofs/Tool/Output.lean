import BlobSigner.Proofs.Signature.Preimage
import BlobSigner.Proofs.Tool.Keygen
/-!
# All of the output or nothing

A command reads all that it needs before it prints, and reading shows nothing (`Cautious`). What it has
read always has a point and bytes, so from there on nothing fails: a command prints its whole text
(`Shows`) or nothing at all (`perform_or_fails`). With the settings before it, a run ends in one of
four ways (`Ends`), and each of them is told by what it has shown: `run_all_or_nothing`.
-/
namespace BlobSigner.Tool

open Hex (encode)

variable {table name : String} {files : String → Option Options} {o given : Options}
  {settings : Settings} {c c' : Console}

/-! ## Reading shows nothing -/

section

variable {α β ε : Type} {x : Run α} {f : α → Run β} {p : α → Prop} {q : β → Prop}

/-- The stage has one of these answers and leaves the console as it is, or it fails and shows
nothing. -/
def Cautious (x : Run α) (p : α → Prop) : Prop :=
  ∀ c, (∃ a, p a ∧ x.run c = .ok a c) ∨ ∃ e c', x.run c = .error e c' ∧ c.Quiet c'

theorem Cautious.pure {a : α} (h : p a) : Cautious (pure a) p := fun _ => Or.inl ⟨a, h, rfl⟩

theorem Cautious.bind (h : Cautious x p) (hf : ∀ a, p a → Cautious (f a) q) :
    Cautious (x >>= f) q := by
  intro c
  rcases h c with ⟨a, ha, hx⟩ | ⟨e, c', hx, hquiet⟩
  · rw [bind_of_ok hx]
    exact hf a ha c
  · exact Or.inr ⟨e, c', bind_of_error hx, hquiet⟩

theorem cautious_attempt (cause : ε → Failure) (v : Except ε α) :
    Cautious (attempt cause v) fun a => v = .ok a := by
  intro c
  cases v with
  | ok a => exact Or.inl ⟨a, rfl, rfl⟩
  | error e => exact Or.inr ⟨cause e, c, rfl, .refl c⟩

theorem cautious_require (option : BlobOption) (v : Option α) :
    Cautious (require option v) fun a => v = some a := by
  intro c
  cases v with
  | some a => exact Or.inl ⟨a, rfl, rfl⟩
  | none => exact Or.inr ⟨.missing option, c, rfl, .refl c⟩

end

theorem cautious_readCommitment (b : Bytes) :
    Cautious (readCommitment b) fun C => Commitment.decode b = .ok C := by
  intro c
  cases hC : Commitment.decode b with
  | ok C => exact Or.inl ⟨C, rfl, readCommitment_of_ok hC c⟩
  | error e =>
    obtain ⟨c', hread, hquiet⟩ := readCommitment_of_error hC c
    exact Or.inr ⟨_, c', hread, hquiet⟩

theorem toList_of_ofBytes {b : Bytes} {root : StorageRoot} (h : StorageRoot.ofBytes b = .ok root) :
    root.toList = b := by
  by_cases hlength : b.length = 32
  · cases (Request.ofBytes_of_length hlength).symm.trans h
    rfl
  · cases (Request.ofBytes_of_length_ne hlength).symm.trans h

/-- The options name this blob and this commitment. -/
def Options.Tells (o : Options) (blob : BlobKey × G1) : Prop :=
  ∃ r, o.Names r ∧ ({ r with slices := [] } : Request).Decodes 0 ⟨blob.1, blob.2, []⟩

theorem cautious_readBlob (o : Options) : Cautious (readBlob o) o.Tells := by
  unfold readBlob
  refine (cautious_require .root o.root).bind fun rootText hrootText => ?_
  refine (cautious_require .epoch o.epoch).bind fun epoch hepoch => ?_
  refine (cautious_require .quorum o.quorum).bind fun quorum hquorum => ?_
  refine (cautious_require .commitment o.commitment).bind fun text htext => ?_
  -- All four are there; from here on their texts are read.
  refine (cautious_attempt .hex (Hex.decode rootText)).bind fun rootBytes hrootBytes => ?_
  refine (cautious_attempt .root (StorageRoot.ofBytes rootBytes)).bind fun root hroot => ?_
  refine (cautious_attempt .hex (Hex.decode text)).bind fun commitment hcommitment => ?_
  refine (cautious_readCommitment commitment).bind fun C hC => ?_
  refine .pure ⟨⟨epoch, quorum, rootBytes, commitment, []⟩, ?_, ?_⟩
  · exact ⟨⟨rootText, hrootText, hrootBytes⟩, hepoch, hquorum, text, htext, hcommitment⟩
  · exact ⟨rfl, rfl, toList_of_ofBytes hroot, hC, .nil⟩

/-! ## Commands -/

/-- The complete output of a command, for these options, settings and random bytes. -/
inductive Shows (given : Options) (settings : Settings) (entropy : Entropy.Generator) : Command → String → Prop
  | keygen {k : Fr} {P : G1} {rest : Entropy.Generator} {e : Bytes} (drawn : Entropy.scalar entropy = .ok (k, rest))
      (point : G1.generator.tryMul k = .ok P) (bytes : P.encode = .ok e) :
      Shows given settings entropy .keygen
        (keyText (encode (Radix.bigEndian 32 k.val)) (encode e))
  | hash {k : BlobKey} {C : G1} {message : Bytes} (blob : given.Tells (k, C))
      (preimage : k.preimage C = .ok message) :
      Shows given settings entropy .hash
        (hashText message (G1.ofDigest (Keccak.digest message)))
  | sign {key : Fr} {k : BlobKey} {C S : G1} {signature : Bytes} (key_given : settings.key = some key)
      (blob : given.Tells (k, C)) (point : k.signaturePoint C key = .ok S)
      (bytes : S.encode = .ok signature) :
      Shows given settings entropy .sign (signText S signature)

/-- The work prints one of these texts, and that is all it does besides drawing random bytes, or it
fails and shows nothing. -/
def PrintsOrFails (work : Run Unit) (texts : String → Prop) (c : Console) : Prop :=
  (∃ text rest, texts text ∧ work.run c = .ok () ({ c with entropy := rest }.print text)) ∨
    ∃ e c', work.run c = .error e c' ∧ c.Quiet c'

theorem keygen_prints_or_fails (c : Console) :
    PrintsOrFails keygen (Shows given settings c.entropy .keygen) c := by
  cases hscalar : Entropy.scalar c.entropy with
  | error e => exact Or.inr ⟨.entropy e, c, bind_of_error (drawKey_of_error hscalar), .refl c⟩
  | ok drawn =>
    obtain ⟨k, rest⟩ := drawn
    obtain ⟨P, e, hP, he, hrun⟩ := keygen_of_scalar hscalar
    exact Or.inl ⟨_, rest, .keygen hscalar hP he, hrun⟩

theorem hash_prints_or_fails (c : Console) :
    PrintsOrFails (hash given) (Shows given settings c.entropy .hash) c := by
  rcases cautious_readBlob given c with ⟨⟨k, C⟩, htells, hread⟩ | ⟨e, c', hread, hquiet⟩
  · obtain ⟨message, hmessage, -⟩ := k.exists_preimage C
    exact Or.inl ⟨_, c.entropy, .hash htells hmessage, hash_of_blob hread hmessage⟩
  · exact Or.inr ⟨e, c', bind_of_error hread, hquiet⟩

/-- Each blob has a signature, and it has bytes. -/
theorem exists_signaturePoint (k : BlobKey) (C : G1) (key : Fr) :
    ∃ S signature, k.signaturePoint C key = .ok S ∧ S.encode = .ok signature := by
  obtain ⟨signature, hsign⟩ := k.exists_sign C key
  cases hS : k.signaturePoint C key with
  | error e => simp only [BlobKey.sign, hS, reduceCtorEq] at hsign
  | ok S =>
    simp only [BlobKey.sign, hS] at hsign
    exact ⟨S, signature, rfl, hsign⟩

theorem sign_prints_or_fails (c : Console) :
    PrintsOrFails (sign given settings.key) (Shows given settings c.entropy .sign) c := by
  cases hkey : settings.key with
  | none => exact Or.inr ⟨.noKey, c, rfl, .refl c⟩
  | some key =>
    rcases cautious_readBlob given c with ⟨⟨k, C⟩, htells, hread⟩ | ⟨e, c', hread, hquiet⟩
    · obtain ⟨S, signature, hS, hencode⟩ := exists_signaturePoint k C key
      exact Or.inl ⟨_, c.entropy, .sign hkey htells hS hencode, sign_of_blob hread hS hencode⟩
    · exact Or.inr ⟨e, c', bind_of_error hread, hquiet⟩

theorem perform_or_fails {command : Command} (h : Command.ofName? name = some command)
    (given : Options) (settings : Settings) (c : Console) :
    ∃ work, perform given settings name = (do work; return 0) ∧
      PrintsOrFails work (Shows given settings c.entropy command) c := by
  cases command with
  | keygen => exact ⟨keygen, by rw [perform, h], keygen_prints_or_fails c⟩
  | hash => exact ⟨hash given, by rw [perform, h], hash_prints_or_fails c⟩
  | sign => exact ⟨sign given settings.key, by rw [perform, h], sign_prints_or_fails c⟩

/-! ## Whole runs -/

/-- All layers of the options together have a meaning, and this is what they say. -/
structure Configured (files : String → Option Options) (o given : Options) (settings : Settings) :
    Prop where
  layers : Settings.layered Options.above files o.node.file o = .ok given
  meaning : Settings.ofOptions (given.node.above .defaults) = .ok settings

/-- How a run ends: with all of the output, or with a failure of the command, of the name or of the
settings. -/
inductive Ends (files : String → Option Options) (o : Options) (name : String) (level : LogLevel)
    (entropy : Entropy.Generator) : Nat × Console → Prop
  | done {given : Options} {settings : Settings} {command : Command} {text : String} {rest : Entropy.Generator}
      (configured : Configured files o given settings) (known : Command.ofName? name = some command)
      (complete : Shows given settings entropy command text) :
      Ends files o name level entropy (0, (Console.init settings.logLevel rest).print text)
  | failed {given : Options} {settings : Settings} {command : Command} {e : Failure} {c : Console}
      (configured : Configured files o given settings) (known : Command.ofName? name = some command)
      (quiet : (Console.init settings.logLevel entropy).Quiet c) :
      Ends files o name level entropy (1, c.record (toolError e.message))
  | unknown {given : Options} {settings : Settings} (configured : Configured files o given settings)
      (unknown : Command.ofName? name = none) :
      Ends files o name level entropy
        (1, ((Console.init settings.logLevel entropy).record
          (toolError s!"unknown command '{name}'")).complain usage)
  | unconfigured {e : Failure} (unset : ¬ ∃ given settings, Configured files o given settings) :
      Ends files o name level entropy
        (1, (Console.init level entropy).record (toolError e.message))

theorem run_unknown (h : Configured files o given settings) (hname : Command.ofName? name = none)
    (table : String) (c : Console) :
    run table files ⟨false, some name, o⟩ c =
      (1, ({ c with level := settings.logLevel }.record
        (toolError s!"unknown command '{name}'")).complain usage) := by
  have hperform : (perform given settings name).run { c with level := settings.logLevel } =
      .ok 1 (({ c with level := settings.logLevel }.record
        (toolError s!"unknown command '{name}'")).complain usage) := by
    rw [perform, hname, bind_of_ok (EStateM.run_modify ..), bind_of_ok (EStateM.run_modify ..)]
    rfl
  simp only [run, start_of_settings h.layers h.meaning, hperform]

theorem run_ends (table : String) (files : String → Option Options) (o : Options) (name : String)
    (level : LogLevel) (entropy : Entropy.Generator) :
    Ends files o name level entropy
      (run table files ⟨false, some name, o⟩ (.init level entropy)) := by
  by_cases hset : ∃ given settings, Configured files o given settings
  · obtain ⟨given, settings, hconf⟩ := hset
    cases hname : Command.ofName? name with
    | none =>
      rw [run_unknown hconf hname]
      exact .unknown hconf hname
    | some command =>
      obtain ⟨work, hwork, hends⟩ :=
        perform_or_fails hname given settings (.init settings.logLevel entropy)
      rcases hends with ⟨text, rest, hshows, hrun⟩ | ⟨e, c', hrun, hquiet⟩
      · rw [run_of_ok hconf.layers hconf.meaning hwork hrun]
        exact .done hconf hname hshows
      · rw [run_of_error hconf.layers hconf.meaning hwork hrun]
        exact .failed hconf hname hquiet
  · have hnone : ¬ ∃ given settings, Settings.layered Options.above files o.node.file o = .ok given ∧
        Settings.ofOptions (given.node.above .defaults) = .ok settings := by
      rintro ⟨given, settings, hlayers, hmeaning⟩
      exact hset ⟨given, settings, hlayers, hmeaning⟩
    obtain ⟨e, hstart⟩ := start_of_no_settings hnone name (.init level entropy)
    rw [run_of_start_error hstart]
    exact .unconfigured hset

/-! ## What a run shows -/

theorem usage_ne_empty : usage ≠ "" := by
  unfold usage
  rw [Ne, String.append_eq_empty_iff]
  rintro ⟨-, hlast⟩
  exact absurd hlast (by decide)

theorem Configured.unique {given' : Options} {settings' : Settings}
    (h : Configured files o given settings) (h' : Configured files o given' settings') :
    settings = settings' := by
  cases h.layers.symm.trans h'.layers
  exact Except.ok.inj (h.meaning.symm.trans h'.meaning)

/-- Nothing has been printed, and the tool's log has one error, unless the level in force drops it. -/
structure Refused (c : Console) : Prop where
  out : c.out = ""
  one : c.level.rank ≤ LogLevel.error.rank → ∃ text, c.own = [toolError text]
  none : LogLevel.error.rank < c.level.rank → c.own = []

theorem refused_record (hout : c.out = "") (hown : c.own = []) (text : String) :
    Refused (c.record (toolError text)) := by
  refine ⟨by rw [Console.out_record, hout], ?_, ?_⟩
  · rw [Console.level_record]
    intro hlevel
    have hkept : (toolError text).passes c.level := decide_eq_true hlevel
    refine ⟨text, ?_⟩
    rw [Console.record, if_pos hkept]
    calc
      _ = c.own ++ [toolError text] := by simp [Console.own, List.filter_append, toolError]
      _ = [toolError text] := by rw [hown, List.nil_append]
  · rw [Console.level_record]
    intro hlevel
    have hdropped : ¬ (toolError text).passes c.level := by
      intro hkept
      exact absurd (of_decide_eq_true hkept) (Nat.not_le.2 hlevel)
    rw [Console.record, if_neg hdropped, hown]

namespace Ends

variable {level : LogLevel} {entropy : Entropy.Generator} {status : Nat}

theorem shown (h : Ends files o name level entropy (status, c)) :
    (status = 0 ∧ c.err = "" ∧ c.log = [] ∧
        ∃ given settings command, Configured files o given settings ∧
          Command.ofName? name = some command ∧ Shows given settings entropy command c.out) ∨
      status = 1 ∧ Refused c := by
  cases h with
  | @done given settings command text rest hconf hknown hshows =>
    have hout : ((Console.init settings.logLevel rest).print text).out = text := String.empty_append
    exact Or.inl ⟨rfl, rfl, rfl, given, settings, command, hconf, hknown, hout.symm ▸ hshows⟩
  | failed _ _ hquiet => exact Or.inr ⟨rfl, refused_record hquiet.out hquiet.own _⟩
  | @unknown given settings _ _ =>
    have hrefused := refused_record (c := .init settings.logLevel entropy) rfl rfl
      s!"unknown command '{name}'"
    exact Or.inr ⟨rfl, hrefused.out, hrefused.one, hrefused.none⟩
  | unconfigured _ => exact Or.inr ⟨rfl, refused_record rfl rfl _⟩

/-- The error output is empty, but for an unknown command with settings. -/
theorem err (h : Ends files o name level entropy (status, c)) :
    (c.err = usage ∧ Command.ofName? name = none ∧ ∃ given settings, Configured files o given settings) ∨
      c.err = "" ∧
        ¬ (Command.ofName? name = none ∧ ∃ given settings, Configured files o given settings) := by
  cases h with
  | done _ hknown _ =>
    refine Or.inr ⟨rfl, ?_⟩
    rintro ⟨hunknown, -⟩
    cases hknown.symm.trans hunknown
  | failed _ hknown hquiet =>
    refine Or.inr ⟨by rw [Console.err_record, hquiet.err]; rfl, ?_⟩
    rintro ⟨hunknown, -⟩
    cases hknown.symm.trans hunknown
  | @unknown given settings hconf hunknown =>
    refine Or.inl ⟨?_, hunknown, given, settings, hconf⟩
    rw [Console.complain, Console.err_record]
    exact String.empty_append
  | unconfigured hunset =>
    refine Or.inr ⟨by rw [Console.err_record]; rfl, ?_⟩
    rintro ⟨-, hset⟩
    exact hunset hset

theorem level_of_configured (h : Ends files o name level entropy (status, c))
    (hconf : Configured files o given settings) : c.level = settings.logLevel := by
  cases h with
  | done hconf' _ _ =>
    rw [hconf.unique hconf']
    rfl
  | failed hconf' _ hquiet =>
    rw [hconf.unique hconf', Console.level_record, hquiet.level]
    rfl
  | unknown hconf' _ =>
    rw [hconf.unique hconf', Console.complain, Console.level_record]
    rfl
  | unconfigured hunset => exact absurd ⟨given, settings, hconf⟩ hunset

theorem level_of_unconfigured (h : Ends files o name level entropy (status, c))
    (hunset : ¬ ∃ given settings, Configured files o given settings) : c.level = level := by
  cases h with
  | done hconf _ _ => exact absurd ⟨_, _, hconf⟩ hunset
  | failed hconf _ _ => exact absurd ⟨_, _, hconf⟩ hunset
  | unknown hconf _ => exact absurd ⟨_, _, hconf⟩ hunset
  | unconfigured _ =>
    rw [Console.level_record]
    rfl

end Ends

/-- **A run prints all of its output or nothing.** With a command, and without help, whatever the
options, the file and the random bytes are, either the status is zero, the command's complete text is
all of the output, and nothing else is shown or logged; or it is one, there is no output, and one error
is in the tool's log, unless the level in force drops it. This is the level that the options set, if
they have a meaning. The usage is shown exactly if they have, and the command is unknown. -/
theorem run_all_or_nothing (table : String) (files : String → Option Options) (o : Options)
    (name : String) (level : LogLevel) (entropy : Entropy.Generator) :
    let ended := run table files ⟨false, some name, o⟩ (.init level entropy)
    let c := ended.2
    (ended.1 = 0 ∧ c.err = "" ∧ c.log = [] ∧
        (∃ given settings command, Configured files o given settings ∧
          Command.ofName? name = some command ∧ Shows given settings entropy command c.out) ∨
      ended.1 = 1 ∧ Refused c) ∧
    (c.err = usage ∨ c.err = "") ∧
    (c.err = usage ↔
      Command.ofName? name = none ∧ ∃ given settings, Configured files o given settings) ∧
    (∀ given settings, Configured files o given settings → c.level = settings.logLevel) ∧
    ((¬ ∃ given settings, Configured files o given settings) → c.level = level) := by
  intro ended c
  have hends : Ends files o name level entropy (ended.1, c) :=
    run_ends table files o name level entropy
  refine ⟨hends.shown, ?_, ?_, fun given settings => hends.level_of_configured,
    hends.level_of_unconfigured⟩
  · rcases hends.err with ⟨husage, -⟩ | ⟨hempty, -⟩
    · exact Or.inl husage
    · exact Or.inr hempty
  · rcases hends.err with ⟨husage, hunknown⟩ | ⟨hempty, hnot⟩
    · exact iff_of_true husage hunknown
    · rw [hempty]
      exact iff_of_false usage_ne_empty.symm hnot

/-- An unknown command at a level above errors: there is the usage, and no record. -/
theorem run_all_or_nothing_unknown :
    let o : Options := { Options.empty with
      node := { BlobSigner.Options.empty with logLevel := some "critical" } }
    let ended := run "" (fun _ => none) ⟨false, some "verify", o⟩ (.init .info (.ofStream []))
    ended.1 = 1 ∧ ended.2.out = "" ∧ ended.2.err = usage ∧ ended.2.level = .critical ∧
      ended.2.own = [] := by
  intro o ended
  have hconf : Configured (fun _ => none) o o
      ⟨none, Admission.defaultMax, none, Slice.defaultLimit, .critical⟩ := ⟨rfl, rfl⟩
  obtain ⟨hends, -, husage, hlevel, -⟩ :=
    run_all_or_nothing "" (fun _ => none) o "verify" .info (.ofStream [])
  have herr : ended.2.err = usage := husage.2 ⟨rfl, o, _, hconf⟩
  have hcritical : ended.2.level = .critical := hlevel o _ hconf
  rcases hends with ⟨-, hempty, -⟩ | ⟨hstatus, hrefused⟩
  · exact absurd (herr.symm.trans hempty) usage_ne_empty
  · refine ⟨hstatus, hrefused.out, herr, hcritical, hrefused.none ?_⟩
    rw [show (run "" (fun _ => none) ⟨false, some "verify", o⟩ (.init .info (.ofStream []))).2.level = _ from
      hcritical]
    decide

end BlobSigner.Tool
