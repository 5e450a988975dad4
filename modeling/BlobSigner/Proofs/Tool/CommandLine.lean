import BlobSigner.Proofs.Tool.Entries
import BlobSigner.Proofs.Tool.Output
import Mathlib.Data.List.TakeWhile
/-!
# From the arguments to what is shown

Arguments that spell out what is given are read as it (`Invocation.ofArguments_arguments`,
`ofArguments_cons`), and so is the text of a file (`entriesOfText_fileText`), whose options go beneath
those among the arguments (`invoke_cons_file`); what it says about the latter does not count at all
(`invoke_congr`). So the tool on arguments and files comes down to a run on what is given (`Invoked`),
and whatever they are, it shows all of its output or nothing: `invoke_outcome`.
-/
namespace BlobSigner.Tool

namespace Invocation

variable {i : Invocation} {es : List Entry}

/-! ## Arguments -/

/-- The arguments that say this. -/
def spell : Entry → List String
  | (.help, _) => ["--help"]
  | (n, value) => ["--" ++ n.text, value]

theorem cutAtEquals_text (n : OptionName) : cutAtEquals n.text.toList = none := by
  cases n with
  | blob o => cases o <;> decide
  | _ => decide

theorem toList_name (n : OptionName) : ("--" ++ n.text).toList = '-' :: '-' :: n.text.toList := by
  rw [String.toList_append]
  rfl

theorem tokens_spell (e : Entry) (arguments : List String) (he : e.1 = .help → e.2 = "") :
    tokens (spell e ++ arguments) = (tokens arguments).map ((some e.1, e.2) :: ·) := by
  obtain ⟨n, value⟩ := e
  by_cases hn : n = .help
  · subst hn
    obtain rfl : value = "" := he rfl
    rfl
  · have hspell : spell (n, value) = ["--" ++ n.text, value] := by
      cases n with
      | help => exact absurd rfl hn
      | _ => rfl
    rw [hspell, List.cons_append, List.singleton_append, tokens, toList_name]
    simp only [cutAtEquals_text, String.ofList_toList, OptionName.ofText?_text]

/-- Entries as tokens: all of them have names. -/
def asTokens (es : List Entry) : List Token := es.map fun e => (some e.1, e.2)

theorem tokens_spelled (h : ∀ e ∈ es, e.1 = .help → e.2 = "") :
    tokens (es.flatMap spell) = .ok (asTokens es) := by
  induction es with
  | nil => rfl
  | cons e rest ih =>
    obtain ⟨he, hrest⟩ := List.forall_mem_cons.1 h
    rw [List.flatMap_cons, tokens_spell e _ he, ih hrest]
    rfl

/-- The arguments that say all that is given. -/
def arguments (i : Invocation) : List String := i.entries.flatMap spell

theorem help_of_mem_entries {e : Entry} (he : e ∈ i.entries) (hhelp : e.1 = .help) : e.2 = "" := by
  obtain ⟨n, said⟩ := e
  obtain rfl : n = .help := hhelp
  obtain ⟨-, rfl⟩ : i.help = true ∧ "" = said := by simpa [value?] using mem_entries_iff.1 he
  rfl

theorem ofArguments_of_tokens {arguments : List String} {ts : List Token}
    (h : tokens arguments = .ok ts) (hone : ts.countP (·.1.isNone) ≤ 1) :
    ofArguments arguments = ofEntries (ts.map fun t => (t.1.getD .command, t.2)) := by
  simp only [ofArguments, h, if_neg (Nat.not_lt.2 hone)]

theorem countP_asTokens (es : List Entry) : (asTokens es).countP (·.1.isNone) = 0 := by
  simp [asTokens, List.countP_eq_zero]

theorem map_getD_asTokens (es : List Entry) :
    (asTokens es).map (fun t => (t.1.getD .command, t.2)) = es := by
  rw [asTokens, List.map_map]
  exact List.map_id es

theorem tokens_arguments (i : Invocation) : tokens i.arguments = .ok (asTokens i.entries) :=
  tokens_spelled fun _ => help_of_mem_entries

/-- All that is given is read back from the arguments that say it. -/
theorem ofArguments_arguments (i : Invocation) : ofArguments i.arguments = .ok i := by
  rw [ofArguments_of_tokens i.tokens_arguments (by rw [countP_asTokens]; decide), map_getD_asTokens,
    ofEntries_entries]

/-- The order of entries does not matter where they are taken. -/
theorem ofEntries_of_perm {es' : List Entry} (h : es.Perm es') (hok : ofEntries es = .ok i) :
    ofEntries es' = .ok i := by
  obtain ⟨⟨honce, hbefore⟩, hentry, hother⟩ := store_eq_ok_iff.1 hok
  refine store_eq_ok_iff.2 ⟨⟨(h.map _).nodup_iff.1 honce, fun e he => hbefore e (h.mem_iff.2 he)⟩,
    fun e he => hentry e (h.mem_iff.2 he), fun n hn => hother n ?_⟩
  rwa [(h.map Prod.fst).mem_iff]

theorem nodup_entries (i : Invocation) : i.entries.Nodup := by
  refine List.Nodup.of_map Prod.fst ?_
  rw [map_fst_entries]
  exact List.Nodup.filter _ (by decide)

theorem cons_entries_perm (name : String) (hi : i.command = none) :
    ((.command, name) :: i.entries).Perm ({ i with command := some name } : Invocation).entries := by
  have htakes : i.Takes .command name { i with command := some name } := by
    obtain ⟨said, hsaid, htakes⟩ := set_eq_ok_iff.1 (rfl : i.set .command name = .ok _)
    cases hsaid
    exact htakes
  have hnew : (.command, name) ∉ i.entries := by
    rw [mem_entries_iff, value?, hi]
    exact (Option.some_ne_none name).symm
  rw [List.perm_ext_iff_of_nodup (List.nodup_cons.2 ⟨hnew, i.nodup_entries⟩) (nodup_entries _)]
  rintro ⟨n, said⟩
  rw [List.mem_cons, mem_entries_iff, mem_entries_iff, htakes.value?_eq, Prod.mk.injEq]
  by_cases hn : n = .command
  · subst hn
    simp [value?, hi, eq_comm]
  · simp [hn]

/-- The usual form: first the command, then the options that go with it. -/
theorem ofArguments_cons (name : String) (hname : name.toList.head? ≠ some '-')
    (hi : i.command = none) :
    ofArguments (name :: i.arguments) = .ok { i with command := some name } := by
  have htokens : tokens (name :: i.arguments) = .ok ((none, name) :: asTokens i.entries) := by
    rw [tokens, i.tokens_arguments]
    split <;> simp_all [Except.map]
  have hone : ((none, name) :: asTokens i.entries).countP (·.1.isNone) ≤ 1 := by
    rw [List.countP_cons, countP_asTokens]
    exact Nat.le_refl 1
  rw [ofArguments_of_tokens htokens hone, List.map_cons, map_getD_asTokens]
  exact ofEntries_of_perm (cons_entries_perm name hi).symm (ofEntries_entries _)

/-! ## File -/

/-- No blank stands at either end. -/
structure Trimmed (s : List Char) : Prop where
  head : ∀ c ∈ s.head?, c.isWhitespace = false
  last : ∀ c ∈ s.getLast?, c.isWhitespace = false

theorem dropWhile_of_head {s : List Char} (h : ∀ c ∈ s.head?, c.isWhitespace = false) :
    s.dropWhile Char.isWhitespace = s := by
  cases s with
  | nil => rfl
  | cons c rest => rw [List.dropWhile_cons_of_neg (by simp [h c rfl])]

theorem Trimmed.trimBlanks_eq {s : List Char} (h : Trimmed s) : trimBlanks s = s := by
  have hlast : ∀ c ∈ s.reverse.head?, c.isWhitespace = false := by
    rw [List.head?_reverse]
    exact h.last
  rw [trimBlanks, dropWhile_of_head h.head, dropWhile_of_head hlast, List.reverse_reverse]

/-- A value that a line can hold as it is. -/
structure FitsLine (value : String) : Prop where
  trimmed : Trimmed value.toList
  unbroken : '\n' ∉ value.toList
  uncommented : '#' ∉ value.toList

/-- The line that says this. -/
def line (e : Entry) : List Char := e.1.text.toList ++ '=' :: e.2.toList

/-- The text of a file that says this, line by line. -/
def fileText (es : List Entry) : String := String.ofList (['\n'].intercalate (es.map line))

/-- What a line needs of the characters of a name. -/
structure NameChar (c : Char) : Prop where
  solid : c.isWhitespace = false
  noEquals : c ≠ '='
  noComment : c ≠ '#'
  noBreak : c ≠ '\n'
  noHeading : c ≠ '['

theorem nameChar_of_mem_text {n : OptionName} {c : Char} (h : c ∈ n.text.toList) : NameChar c := by
  -- A test on characters, which `decide` only has to run.
  have hall : n.text.toList.all
      (fun c => !c.isWhitespace && c != '=' && c != '#' && c != '\n' && c != '[') = true := by
    cases n with
    | blob o => cases o <;> decide
    | _ => decide
  have hc := List.all_eq_true.1 hall c h
  simp only [Bool.and_eq_true, Bool.not_eq_true', bne_iff_ne] at hc
  obtain ⟨⟨⟨⟨hsolid, hequals⟩, hcomment⟩, hbreak⟩, hheading⟩ := hc
  exact ⟨hsolid, hequals, hcomment, hbreak, hheading⟩

theorem trimmed_text (n : OptionName) : Trimmed n.text.toList :=
  ⟨fun _ h => (nameChar_of_mem_text (List.mem_of_mem_head? h)).solid,
    fun _ h => (nameChar_of_mem_text (List.mem_of_mem_getLast? h)).solid⟩

theorem head?_line {e : Entry} {c : Char} (h : c ∈ (line e).head?) : c = '=' ∨ NameChar c := by
  rw [line, List.head?_append, Option.mem_def, Option.or_eq_some_iff] at h
  rcases h with hname | ⟨-, hequals⟩
  · exact Or.inr (nameChar_of_mem_text (List.mem_of_mem_head? hname))
  · exact Or.inl (Option.some.inj hequals).symm

theorem trimmed_line {e : Entry} (h : FitsLine e.2) : Trimmed (line e) := by
  refine ⟨fun c hc => ?_, fun c hc => ?_⟩
  · rcases head?_line hc with rfl | hname
    · decide
    · exact hname.solid
  · rw [line, List.getLast?_append, List.getLast?_cons] at hc
    cases hvalue : e.2.toList.getLast? with
    | none =>
      rw [hvalue] at hc
      cases hc
      decide
    | some d =>
      rw [hvalue] at hc
      cases hc
      exact h.trimmed.last d hvalue

theorem mem_line {e : Entry} {c : Char} (h : c ∈ line e) : NameChar c ∨ c = '=' ∨ c ∈ e.2.toList := by
  rcases List.mem_append.1 h with hname | hrest
  · exact Or.inl (nameChar_of_mem_text hname)
  · exact Or.inr (List.mem_cons.1 hrest)

theorem uncommented_line {e : Entry} (h : FitsLine e.2) : (line e).takeWhile (· ≠ '#') = line e := by
  refine List.takeWhile_eq_self_iff.2 fun c hc => decide_eq_true ?_
  rintro rfl
  rcases mem_line hc with hname | hequals | hvalue
  · exact hname.noComment rfl
  · cases hequals
  · exact h.uncommented hvalue

theorem unbroken_line {e : Entry} (h : FitsLine e.2) : '\n' ∉ line e := by
  intro hc
  rcases mem_line hc with hname | hequals | hvalue
  · exact hname.noBreak rfl
  · cases hequals
  · exact h.unbroken hvalue

theorem cutAtEquals_append {name value : List Char} (h : '=' ∉ name) :
    cutAtEquals (name ++ '=' :: value) = some (name, value) := by
  have hname : ∀ c ∈ name, decide (c ≠ '=') = true := fun c hc =>
    decide_eq_true fun e => h (e ▸ hc)
  rw [cutAtEquals, List.dropWhile_append_of_pos hname, List.takeWhile_append_of_pos hname]
  simp

theorem entriesOfLines_lines (h : ∀ e ∈ es, FitsLine e.2) :
    entriesOfLines [] (es.map line) = .ok es := by
  induction es with
  | nil => rfl
  | cons e rest ih =>
    obtain ⟨he, hrest⟩ := List.forall_mem_cons.1 h
    have hsolid : line e ≠ [] := by simp [line]
    have hheading : ¬((line e).head? = some '[' ∧ (line e).getLast? = some ']') := by
      rintro ⟨hhead, -⟩
      rcases head?_line hhead with hc | hname
      · cases hc
      · exact hname.noHeading rfl
    have hcut : cutAtEquals (line e) = some (e.1.text.toList, e.2.toList) :=
      cutAtEquals_append fun hmem => (nameChar_of_mem_text hmem).noEquals rfl
    simp only [List.map_cons, entriesOfLines, uncommented_line he, (trimmed_line he).trimBlanks_eq,
      hsolid, hheading, hcut, (trimmed_text _).trimBlanks_eq, he.trimmed.trimBlanks_eq,
      List.nil_append, String.ofList_toList, OptionName.ofText?_text, if_false, ih hrest]
    rfl

theorem entriesOfText_fileText (h : ∀ e ∈ es, FitsLine e.2) :
    entriesOfText (fileText es) = .ok es := by
  have hlines : entriesOfLines [] ((['\n'].intercalate (es.map line)).splitOn '\n') = .ok es := by
    cases es with
    | nil => rfl
    | cons e rest =>
      rw [List.splitOn_intercalate '\n' ?_ (by simp)]
      · exact entriesOfLines_lines h
      · intro l hl
        obtain ⟨e', he', rfl⟩ := List.mem_map.1 hl
        exact unbroken_line (h e' he')
  rw [entriesOfText, fileText, String.toList_ofList, hlines]

/-- The file adds what its entries say about the other options. -/
theorem additions_of_entries {text : String} (h : entriesOfText text = .ok es) :
    i.additions text = (ofEntries (es.filter fun e => !i.gives e.1)).map (·.options) := by
  simp only [additions, h, store_eq_store_filter i.gives, ofEntries]

/-- A file that spells out options is as good as these options, beneath what is given. -/
theorem exists_additions_fileText (i : Invocation) {o : Options}
    (hfits : ∀ e ∈ o.alone.entries, FitsLine e.2) :
    ∃ added, i.additions (fileText o.alone.entries) = .ok added ∧
      i.options.above added = i.options.above o := by
  obtain ⟨j, hj, hvalue⟩ := exists_ofEntries_filter o.alone fun n => !i.gives n
  refine ⟨j.options, ?_, ?_⟩
  · rw [additions_of_entries (entriesOfText_fileText hfits), hj]
    rfl
  · refine congrArg Invocation.options (ext_value fun n => ?_ :
      (i.options.above j.options).alone = (i.options.above o).alone)
    rw [value?_above, value?_above, value?_alone, value?_alone]
    split
    · rename_i hn
      have hnone : o.alone.value? n = none := (value?_alone o.alone n).trans (if_pos hn)
      rw [hnone]
    · rw [hvalue, gives_eq]
      cases i.value? n <;> simp

/-- Neither file can be opened, or what they say about the options that are not given beside them is
the same. -/
inductive AgreeBeside (i : Invocation) : Option String → Option String → Prop
  | closed : AgreeBeside i none none
  | opened {text text' : String} {es es' : List Entry} (read : entriesOfText text = .ok es)
      (read' : entriesOfText text' = .ok es')
      (same : (es.filter fun e => !i.gives e.1) = es'.filter fun e => !i.gives e.1) :
      AgreeBeside i (some text) (some text')

theorem readFile_congr {files files' : String → Option String}
    (h : ∀ path, i.path? = some path → i.AgreeBeside (files path) (files' path)) :
    i.readFile files = i.readFile files' := by
  unfold readFile
  cases hpath : i.path? with
  | none => rfl
  | some path =>
    have hagree := h path hpath
    rw [Option.bind_some, Option.bind_some]
    generalize files path = text, files' path = text' at hagree ⊢
    cases hagree with
    | closed => rfl
    | opened hread hread' hsame =>
      simp only [additions_of_entries hread, additions_of_entries hread', hsame]

theorem readFile_of_no_path (files : String → Option String) (h : i.path? = none) :
    i.readFile files = .ok none := by
  rw [readFile, h, Option.bind_none]

theorem path?_eq_none (h : i.help = true ∨ i.command = none) : i.path? = none := by
  rcases h with h | h <;> simp [path?, h]

end Invocation

/-! ## The tool -/

section

variable {files files' : String → Option String} {arguments : List String} {i : Invocation}
  {file : Option Options} {c : Console}

theorem invoke_of_ok (hi : Invocation.ofArguments arguments = .ok i)
    (hfile : i.readFile files = .ok file) :
    invoke files arguments c = run optionTable (fun _ => file) i c := by
  simp only [invoke, hi, hfile]

/-- An entry of the file counts for nothing if its option is among the arguments, even one that could
not be read. -/
theorem invoke_congr (hi : Invocation.ofArguments arguments = .ok i)
    (h : ∀ path, i.path? = some path → i.AgreeBeside (files path) (files' path)) :
    invoke files arguments c = invoke files' arguments c := by
  simp only [invoke, hi, Invocation.readFile_congr h]

/-- The command with its options, spelled out, is run as it is. -/
theorem invoke_cons (name : String) (o : Options) (hname : name.toList.head? ≠ some '-')
    (hnone : o.node.file = none) :
    invoke files (name :: o.alone.arguments) c =
      run optionTable (fun _ => none) ⟨false, some name, o⟩ c :=
  invoke_of_ok (Invocation.ofArguments_cons name hname rfl)
    (Invocation.readFile_of_no_path _ (by simp [Invocation.path?, hnone]))

theorem run_congr {table : String} {files files' : String → Option Options}
    (h : Settings.layered Options.above files i.options.node.file i.options =
      Settings.layered Options.above files' i.options.node.file i.options) :
    run table files i c = run table files' i c := by
  simp only [run, start, h]

/-- So is the command with some of its options in a file. -/
theorem invoke_cons_file (name : String) {given o : Options} {path : String}
    (hname : name.toList.head? ≠ some '-') (hpath : given.node.file = some path)
    (hfile : files path = some (Invocation.fileText o.alone.entries))
    (hfits : ∀ e ∈ o.alone.entries, Invocation.FitsLine e.2) :
    invoke files (name :: given.alone.arguments) c =
      run optionTable (fun _ => some o) ⟨false, some name, given⟩ c := by
  have hi : Invocation.ofArguments (name :: given.alone.arguments) = .ok ⟨false, some name, given⟩ :=
    Invocation.ofArguments_cons name hname rfl
  obtain ⟨added, hadded, hsame⟩ :=
    Invocation.exists_additions_fileText ⟨false, some name, given⟩ hfits
  have hread : (⟨false, some name, given⟩ : Invocation).readFile files = .ok (some added) := by
    simp only [Invocation.readFile, Invocation.path?, hpath, Bool.false_or, Option.isNone_some,
      Bool.false_eq_true, if_false, Option.bind_some, hfile, hadded]
    rfl
  rw [invoke_of_ok hi hread]
  refine run_congr ?_
  simp only [Settings.layered, hpath, hsame]

/-- How a run on these arguments and files ends: with help, with the work of the command, or with
options that cannot be read. -/
inductive Invoked (files : String → Option String) (arguments : List String) (level : LogLevel)
    (entropy : Entropy.Generator) : Nat × Console → Prop
  | help {i : Invocation} (read : Invocation.ofArguments arguments = .ok i)
      (idle : i.help = true ∨ i.command = none) :
      Invoked files arguments level entropy
        (if i.help then 0 else 1,
          (Console.init level entropy).print (usage ++ "\n" ++ optionTable ++ "\n"))
  | work {i : Invocation} {name : String} {file : Option Options} {ended : Nat × Console}
      (read : Invocation.ofArguments arguments = .ok i) (wanted : i.help = false)
      (named : i.command = some name) (readable : i.readFile files = .ok file)
      (ends : Ends (fun _ => file) i.options name level entropy ended) :
      Invoked files arguments level entropy ended
  | arguments {e : OptionError} (unread : Invocation.ofArguments arguments = .error e) :
      Invoked files arguments level entropy (refuse e (.init level entropy))
  | file {i : Invocation} {e : OptionError} (read : Invocation.ofArguments arguments = .ok i)
      (unread : i.readFile files = .error e) :
      Invoked files arguments level entropy (refuse e (.init level entropy))

theorem run_idle (table : String) (files : String → Option Options) (c : Console)
    (h : i.help = true ∨ i.command = none) :
    run table files i c =
      (if i.help then 0 else 1, c.print (usage ++ "\n" ++ table ++ "\n")) := by
  obtain ⟨help, command, o⟩ := i
  cases help with
  | true => rfl
  | false =>
    obtain rfl : command = none := h.resolve_left Bool.false_ne_true
    rfl

theorem invoke_invoked (files : String → Option String) (arguments : List String) (level : LogLevel)
    (entropy : Entropy.Generator) :
    Invoked files arguments level entropy (invoke files arguments (.init level entropy)) := by
  cases hi : Invocation.ofArguments arguments with
  | error e =>
    simp only [invoke, hi]
    exact .arguments hi
  | ok i =>
    by_cases hidle : i.help = true ∨ i.command = none
    · rw [invoke_of_ok hi (i.readFile_of_no_path _ (Invocation.path?_eq_none hidle)),
        run_idle _ _ _ hidle]
      exact .help hi hidle
    · obtain ⟨hhelp, hcommand⟩ := not_or.1 hidle
      obtain ⟨name, hname⟩ := Option.ne_none_iff_exists'.1 hcommand
      cases hfile : i.readFile files with
      | error e =>
        simp only [invoke, hi, hfile]
        exact .file hi hfile
      | ok file =>
        rw [invoke_of_ok hi hfile]
        have hwanted : i.help = false := Bool.eq_false_iff.2 hhelp
        refine .work hi hwanted hname hfile ?_
        obtain ⟨help, command, o⟩ := i
        cases hwanted
        cases hname
        exact run_ends optionTable (fun _ => file) o name level entropy

/-- There are three outcomes: help, or the complete output of the command, and nothing in the log; or
a failure, and then there is no output but one error in the tool's log, unless the level in force drops
it. -/
inductive Outcome (files : String → Option String) (arguments : List String)
    (entropy : Entropy.Generator) (status : Nat) (c : Console) : Prop
  | help {i : Invocation} (read : Invocation.ofArguments arguments = .ok i)
      (idle : i.help = true ∨ i.command = none) (status : status = if i.help then 0 else 1)
      (out : c.out = usage ++ "\n" ++ optionTable ++ "\n") (err : c.err = "") (log : c.log = [])
  | done {i : Invocation} {name : String} {file : Option Options} {given : Options}
      {settings : Settings} {command : Command} (read : Invocation.ofArguments arguments = .ok i)
      (named : i.command = some name) (readable : i.readFile files = .ok file)
      (configured : Configured (fun _ => file) i.options given settings)
      (known : Command.ofName? name = some command)
      (complete : Shows given settings entropy command c.out) (status : status = 0)
      (err : c.err = "") (log : c.log = [])
  | refused (refused : Refused c) (status : status = 1)

theorem Invoked.outcome {level : LogLevel} {entropy : Entropy.Generator} {status : Nat}
    (h : Invoked files arguments level entropy (status, c)) :
    Outcome files arguments entropy status c := by
  cases h with
  | help hread hidle => exact .help hread hidle rfl String.empty_append rfl rfl
  | work hread _ hnamed hreadable hends =>
    rcases hends.shown with ⟨hstatus, herr, hlog, given, settings, command, hconf, hknown, hshows⟩ |
      ⟨hstatus, hrefused⟩
    · exact .done hread hnamed hreadable hconf hknown hshows hstatus herr hlog
    · exact .refused hrefused hstatus
  | arguments _ => exact .refused (refused_record rfl rfl _) rfl
  | file _ _ => exact .refused (refused_record rfl rfl _) rfl

/-- **A run prints all of its output or nothing, whatever the arguments and the files are.** -/
theorem invoke_outcome (files : String → Option String) (arguments : List String) (level : LogLevel)
    (entropy : Entropy.Generator) :
    let ended := invoke files arguments (.init level entropy)
    Outcome files arguments entropy ended.1 ended.2 :=
  (invoke_invoked files arguments level entropy).outcome

end

end BlobSigner.Tool
