import BlobSigner.Proofs.Request.Process
import BlobSigner.Tool
/-!
# What the tool's commands print

A run is followed stage by stage: a stage that succeeds hands its console to the next, one that fails
ends the run. Nothing is printed before the whole blob has been read (`readBlob_of_names`,
`readBlob_fails`), and what is printed then tells the points (`hash_of_blob`, `sign_of_blob`,
`pointText_injective`).
-/
namespace BlobSigner.Tool

/-! ## Stages of a run -/

section

variable {α β ε : Type} {x : Run α} {f : α → Run β} {c c' : Console}

theorem bind_of_ok {a : α} (h : x.run c = .ok a c') : (x >>= f).run c = (f a).run c' := by
  rw [EStateM.run_bind, h]

theorem bind_of_error {e : Failure} (h : x.run c = .error e c') :
    (x >>= f).run c = .error e c' := by
  rw [EStateM.run_bind, h]

theorem attempt_of_ok {cause : ε → Failure} {v : Except ε α} {a : α} (h : v = .ok a) (c : Console) :
    (attempt cause v).run c = .ok a c := by
  subst h
  rfl

theorem attempt_of_error {cause : ε → Failure} {v : Except ε α} {e : ε} (h : v = .error e)
    (c : Console) : (attempt cause v).run c = .error (cause e) c := by
  subst h
  rfl

theorem require_of_some {option : BlobOption} {v : Option α} {a : α} (h : v = some a) (c : Console) :
    (require option v).run c = .ok a c := by
  subst h
  rfl

end

/-! ## Consoles -/

namespace Console

theorem print_print (s t : String) (c : Console) : (c.print s).print t = c.print (s ++ t) := by
  simp only [print, String.append_assoc]

@[simp] theorem out_record (record : LogRecord) (c : Console) : (c.record record).out = c.out := by
  unfold Console.record
  split <;> rfl

@[simp] theorem err_record (record : LogRecord) (c : Console) : (c.record record).err = c.err := by
  unfold Console.record
  split <;> rfl

@[simp] theorem level_record (record : LogRecord) (c : Console) :
    (c.record record).level = c.level := by
  unfold Console.record
  split <;> rfl

/-- The tool's own records. -/
def own (c : Console) : List LogRecord := c.log.filter fun record => record.component = .tool

/-- Nothing has been shown since, and what the log has besides is of other components. -/
structure Quiet (c c' : Console) : Prop where
  out : c'.out = c.out
  err : c'.err = c.err
  level : c'.level = c.level
  own : c'.own = c.own

theorem Quiet.refl (c : Console) : c.Quiet c := ⟨rfl, rfl, rfl, rfl⟩

theorem Quiet.trans {c c' c'' : Console} (h : c.Quiet c') (h' : c'.Quiet c'') : c.Quiet c'' :=
  ⟨h'.out.trans h.out, h'.err.trans h.err, h'.level.trans h.level, h'.own.trans h.own⟩

theorem quiet_record {record : LogRecord} (h : record.component ≠ .tool) (c : Console) :
    c.Quiet (c.record record) := by
  refine ⟨out_record .., err_record .., level_record .., ?_⟩
  unfold Console.record
  split
  · simp [own, List.filter_append, h]
  · rfl

end Console

/-! ## Lines -/

/-- What stands before the first end of a line. -/
theorem takeWhile_line {line : List Char} (h : '\n' ∉ line) (rest : List Char) :
    (line ++ '\n' :: rest).takeWhile (· ≠ '\n') = line := by
  have hline : ∀ c ∈ line, decide (c ≠ '\n') = true := fun c hc => decide_eq_true fun heq => h (heq ▸ hc)
  rw [List.takeWhile_append_of_pos hline, List.takeWhile_cons_of_neg (by decide), List.append_nil]

/-- A text tells its first line and what comes after. -/
theorem line_inj {line line' s t : String} (h : '\n' ∉ line.toList) (h' : '\n' ∉ line'.toList)
    (heq : line ++ "\n" ++ s = line' ++ "\n" ++ t) : line = line' ∧ s = t := by
  have hchars : line.toList ++ '\n' :: s.toList = line'.toList ++ '\n' :: t.toList := by
    simpa using congrArg String.toList heq
  have hline : line = line' := by
    rw [← String.toList_inj, ← takeWhile_line h s.toList, hchars, takeWhile_line h']
  subst hline
  have hrest := List.append_cancel_left hchars
  exact ⟨rfl, String.toList_inj.1 (List.cons.inj hrest).2⟩

theorem newline_not_mem_toString (n : Nat) : '\n' ∉ (toString n).toList := by
  rw [Nat.toString_eq_repr, Nat.toList_repr]
  exact fun h => absurd (Nat.isDigit_of_mem_toDigits (by decide) (by decide) h) (by decide)

theorem toString_injective : Function.Injective (toString : Nat → String) := by
  intro n m h
  have hdigits : Nat.toDigits 10 n = Nat.toDigits 10 m := by
    rw [← Nat.toList_repr, ← Nat.toList_repr, ← Nat.toString_eq_repr, ← Nat.toString_eq_repr, h]
  calc
    n = Nat.ofDigitChars 10 (Nat.toDigits 10 n) 0 := Nat.ofDigitChars_ten_toDigits.symm
    _ = Nat.ofDigitChars 10 (Nat.toDigits 10 m) 0 := by rw [hdigits]
    _ = m := Nat.ofDigitChars_ten_toDigits

/-- A line with a number tells the number. -/
theorem number_line_inj {n m : Nat} {s t : String}
    (h : toString n ++ "\n" ++ s = toString m ++ "\n" ++ t) : n = m ∧ s = t := by
  obtain ⟨hline, hrest⟩ := line_inj (newline_not_mem_toString n) (newline_not_mem_toString m) h
  exact ⟨toString_injective hline, hrest⟩

/-! ## Points as they are printed -/

theorem run_print (s : String) (c : Console) : (print s).run c = .ok () (c.print s) := rfl

/-- The lines that show a point. -/
def pointText (label : String) : G1 → String
  | .infinity => s!"{label}: infinity\n"
  | .affine x y => s!"{label}.x: {x.val}\n{label}.y: {y.val}\n"

theorem run_printPoint (label : String) (P : G1) (c : Console) :
    (printPoint label P).run c = .ok () (c.print (pointText label P)) := by
  cases P <;> rfl

theorem pointText_infinity (label : String) : pointText label .infinity = label ++ ": infinity\n" := rfl

theorem pointText_affine (label : String) (x y : Fq) :
    pointText label (.affine x y) =
      label ++ (".x: " ++ (toString x.val ++ "\n" ++
        (label ++ (".y: " ++ (toString y.val ++ "\n" ++ ""))))) := by
  simp only [pointText, String.append_assoc, String.append_empty]
  rfl

/-- What is printed of a point tells the point. -/
theorem pointText_injective (label : String) : Function.Injective (pointText label) := by
  have hkind : ∀ s : String, (": infinity\n" : String) ≠ ".x: " ++ s := by
    intro s h
    have hfirst := congrArg (fun t => t.toList.head?) h
    simp at hfirst
  intro P Q h
  cases P with
  | infinity =>
    cases Q with
    | infinity => rfl
    | affine x y =>
      rw [pointText_infinity, pointText_affine, String.append_right_inj] at h
      exact absurd h (hkind _)
  | affine x y =>
    cases Q with
    | infinity =>
      rw [pointText_infinity, pointText_affine, String.append_right_inj] at h
      exact absurd h.symm (hkind _)
    | affine x' y' =>
      rw [pointText_affine, pointText_affine, String.append_right_inj, String.append_right_inj] at h
      obtain ⟨hx, h⟩ := number_line_inj h
      rw [String.append_right_inj, String.append_right_inj] at h
      obtain ⟨hy, -⟩ := number_line_inj h
      rw [Residue.ext hx, Residue.ext hy]

/-- The lines of a point have an end. -/
theorem exists_pointText (label : String) (P : G1) : ∃ before, pointText label P = before ++ "\n" := by
  cases P with
  | infinity => exact ⟨label ++ ": infinity", by simp [pointText_infinity, String.append_assoc]⟩
  | affine x y => exact ⟨s!"{label}.x: {x.val}\n{label}.y: {y.val}", rfl⟩

/-! ## Reading the blob -/

/-- The options name the blob and the commitment of a request, in any spelling of their bytes. -/
structure Options.Names (o : Options) (r : Request) : Prop where
  root : ∃ text, o.root = some text ∧ Hex.decode text = .ok r.root
  epoch : o.epoch = some r.epoch
  quorum : o.quorum = some r.quorum
  commitment : ∃ text, o.commitment = some text ∧ Hex.decode text = .ok r.commitment

variable {o : Options} {r : Request}

theorem readCommitment_of_ok {b : Bytes} {C : G1} (h : Commitment.decode b = .ok C) (c : Console) :
    (readCommitment b).run c = .ok C c := by
  rw [readCommitment, h]
  rfl

/-- Records go to the log, one after the other. -/
theorem run_records (records : List LogRecord) (c : Console) :
    (forIn records () fun record _ => do
      modify (Console.record record)
      pure (.yield ()) : Run Unit).run c =
      .ok () (records.foldl (fun c record => c.record record) c) := by
  induction records generalizing c with
  | nil => rfl
  | cons record records ih =>
    rw [List.forIn_cons, bind_assoc, bind_of_ok (EStateM.run_modify _ c), pure_bind]
    exact ih _

theorem quiet_records {records : List LogRecord}
    (h : ∀ record ∈ records, record.component ≠ .tool) (c : Console) :
    c.Quiet (records.foldl (fun c record => c.record record) c) := by
  induction records generalizing c with
  | nil => exact .refl c
  | cons record records ih =>
    obtain ⟨hrecord, hrecords⟩ := List.forall_mem_cons.1 h
    exact (Console.quiet_record hrecord c).trans (ih hrecords _)

/-- A refusal leaves warnings in the log and prints nothing. -/
theorem readCommitment_of_error {b : Bytes} {e : Commitment.Error} (h : Commitment.decode b = .error e)
    (c : Console) :
    ∃ c', (readCommitment b).run c = .error (.commitment e) c' ∧ c.Quiet c' := by
  have hcodec : ∀ record ∈ e.warnings, record.component ≠ .tool := by
    cases e <;> simp [Commitment.Error.warnings, Commitment.Error.check?]
  refine ⟨_, ?_, quiet_records hcodec c⟩
  rw [readCommitment, h]
  exact bind_of_ok (run_records e.warnings c)

/-- The root is looked at once all four options are there, and the commitment after the root. -/
theorem readBlob_of_root (h : o.Names r) (c : Console) :
    (readBlob o).run c =
      (do
        let root ← attempt .root (StorageRoot.ofBytes r.root)
        let commitment ← readCommitment r.commitment
        return (⟨r.epoch, r.quorum, root⟩, commitment) : Run (BlobKey × G1)).run c := by
  obtain ⟨rootText, hrootGiven, hrootRead⟩ := h.root
  obtain ⟨commitmentText, hgiven, hread⟩ := h.commitment
  rw [readBlob, bind_of_ok (require_of_some hrootGiven c), bind_of_ok (require_of_some h.epoch c),
    bind_of_ok (require_of_some h.quorum c), bind_of_ok (require_of_some hgiven c),
    bind_of_ok (attempt_of_ok hrootRead c), hread]
  rfl

/-- The tool reads the blob that a service reads, of a request that needs no slices. -/
theorem readBlob_of_names (h : o.Names r) {d : Decoded}
    (hd : ({ r with slices := [] } : Request).Decodes 0 d) (c : Console) :
    (readBlob o).run c = .ok (d.key, d.commitment) c := by
  obtain ⟨⟨epoch, quorum, root⟩, C, slices⟩ := d
  obtain ⟨hepoch, hquorum, hroot, hC, -⟩ := hd
  cases hepoch
  cases hquorum
  have hread : StorageRoot.ofBytes r.root = .ok root := by
    rw [← show root.toList = r.root from hroot, Request.ofBytes_of_length root.length_toList]
  rw [readBlob_of_root h, bind_of_ok (attempt_of_ok hread c), bind_of_ok (readCommitment_of_ok hC c)]
  rfl

theorem readBlob_fails (h : o.Names r)
    (hbad : ¬ (r.root.length = 32 ∧ ∃ C, Commitment.decode r.commitment = .ok C)) (c : Console) :
    ∃ e c', (readBlob o).run c = .error e c' ∧ c'.out = c.out := by
  rw [readBlob_of_root h]
  by_cases hroot : r.root.length = 32
  · cases hC : Commitment.decode r.commitment with
    | ok C => exact absurd ⟨hroot, C, hC⟩ hbad
    | error e =>
      obtain ⟨c', hread, hquiet⟩ := readCommitment_of_error hC c
      refine ⟨.commitment e, c', ?_, hquiet.out⟩
      rw [bind_of_ok (attempt_of_ok (Request.ofBytes_of_length hroot) c)]
      exact bind_of_error hread
  · exact ⟨_, c, bind_of_error (attempt_of_error (Request.ofBytes_of_length_ne hroot) c), rfl⟩

/-! ## Commands that read a blob -/

/-- What is shown of a hash: the message, its digest and the point. -/
def hashText (message : Bytes) (H : G1) : String :=
  s!"preimage: {Hex.encode message}\ndigest: {Hex.encode (Keccak.digest message).toList}\n" ++
    pointText "hash" H

/-- What is shown of a signature: the point and its bytes. -/
def signText (S : G1) (signature : Bytes) : String :=
  pointText "signature" S ++ ("signature: " ++ Hex.encode signature ++ "\n")

theorem hash_of_blob {k : BlobKey} {C : G1} {c : Console} {message : Bytes}
    (h : (readBlob o).run c = .ok (k, C) c) (hmessage : k.preimage C = .ok message) :
    (hash o).run c = .ok () (c.print (hashText message (G1.ofDigest (Keccak.digest message)))) := by
  rw [hash, bind_of_ok h, bind_of_ok (attempt_of_ok hmessage c), hashText, ← Console.print_print]
  exact (bind_of_ok (run_print _ c)).trans (run_printPoint ..)

theorem sign_of_blob {k : BlobKey} {C S : G1} {key : Fr} {c : Console} {signature : Bytes}
    (h : (readBlob o).run c = .ok (k, C) c) (hS : k.signaturePoint C key = .ok S)
    (hencode : S.encode = .ok signature) :
    (sign o (some key)).run c = .ok () (c.print (signText S signature)) := by
  rw [sign, bind_of_ok h, bind_of_ok (attempt_of_ok hS c), bind_of_ok (run_printPoint ..),
    bind_of_ok (attempt_of_ok hencode _), run_print, Console.print_print]
  rfl

/-! ## Whole runs -/

theorem perform_hash (o : Options) (settings : Settings) :
    perform o settings "hash" = do hash o; return 0 := rfl

theorem perform_sign (o : Options) (settings : Settings) :
    perform o settings "sign" = do sign o settings.key; return 0 := rfl

section

variable {table name : String} {files : String → Option Options} {given : Options}
  {settings : Settings} {work : Run Unit} {c c' : Console}

theorem start_of_settings (hgiven : Settings.layered Options.above files o.node.file o = .ok given)
    (hsettings : Settings.ofOptions (given.node.above .defaults) = .ok settings) (c : Console) :
    (start files o name).run c =
      (perform given settings name).run { c with level := settings.logLevel } := by
  rw [start, bind_of_ok (attempt_of_ok hgiven c), bind_of_ok (attempt_of_ok hsettings c),
    bind_of_ok (EStateM.run_modify _ c)]

/-- Without settings no command is carried out. -/
theorem start_of_no_settings
    (h : ¬ ∃ given settings, Settings.layered Options.above files o.node.file o = .ok given ∧
      Settings.ofOptions (given.node.above .defaults) = .ok settings) (name : String) (c : Console) :
    ∃ e, (start files o name).run c = .error (.settings e) c := by
  cases hgiven : Settings.layered Options.above files o.node.file o with
  | error e =>
    refine ⟨e, ?_⟩
    rw [start]
    exact bind_of_error (attempt_of_error hgiven c)
  | ok given =>
    cases hsettings : Settings.ofOptions (given.node.above .defaults) with
    | error e =>
      refine ⟨e, ?_⟩
      rw [start, bind_of_ok (attempt_of_ok hgiven c)]
      exact bind_of_error (attempt_of_error hsettings c)
    | ok settings => exact absurd ⟨given, settings, hgiven, hsettings⟩ h

theorem run_of_start_error {e : Failure} (h : (start files o name).run c = .error e c') :
    run table files ⟨false, some name, o⟩ c = (1, c'.record (toolError e.message)) := by
  simp only [run, h]

/-- A command whose work ends well exits with zero and leaves what the work left. -/
theorem run_of_ok (hgiven : Settings.layered Options.above files o.node.file o = .ok given)
    (hsettings : Settings.ofOptions (given.node.above .defaults) = .ok settings)
    (hname : perform given settings name = do work; return 0)
    (h : work.run { c with level := settings.logLevel } = .ok () c') :
    run table files ⟨false, some name, o⟩ c = (0, c') := by
  simp only [run, start_of_settings hgiven hsettings, hname, bind_of_ok h, EStateM.run_pure]

theorem run_of_error (hgiven : Settings.layered Options.above files o.node.file o = .ok given)
    (hsettings : Settings.ofOptions (given.node.above .defaults) = .ok settings)
    (hname : perform given settings name = do work; return 0) {e : Failure}
    (h : work.run { c with level := settings.logLevel } = .error e c') :
    run table files ⟨false, some name, o⟩ c = (1, c'.record (toolError e.message)) := by
  simp only [run, start_of_settings hgiven hsettings, hname, bind_of_error h]

end

end BlobSigner.Tool
