import BlobSigner.Proofs.Batch.Outcome
import BlobSigner.Proofs.Signature.Binding
import BlobSigner.Proofs.Signature.Preimage
import BlobSigner.Proofs.SigningKey
import BlobSigner.Proofs.Tool.Commands
/-!
# The tool signs what a service signs

The tool reads a blob from options, a service reads it from a request. The texts of the options stand
for the bytes of the request, and from there on both go the same way: `signing_agreement`.
-/
namespace BlobSigner

namespace Tool

/-! ## Lines -/

/-- The last line of a text whose lines all have an end. -/
def lastLine (text : String) : String :=
  String.ofList ((text.toList.reverse.drop 1).takeWhile (· ≠ '\n')).reverse

theorem lastLine_append {line : String} (h : '\n' ∉ line.toList) (before : String) :
    lastLine (before ++ "\n" ++ (line ++ "\n")) = line := by
  have hend : ("\n" : String).toList = ['\n'] := rfl
  have hreverse : (before ++ "\n" ++ (line ++ "\n")).toList.reverse =
      '\n' :: (line.toList.reverse ++ '\n' :: before.toList.reverse) := by
    simp [hend]
  have hline : '\n' ∉ line.toList.reverse := fun hmem => h (List.mem_reverse.1 hmem)
  rw [lastLine, hreverse, List.drop_one, List.tail_cons, takeWhile_line hline, List.reverse_reverse,
    String.ofList_toList]

/-! ## Options that spell a request -/

/-- All layers of the options together are valid, hold the key and name the request's blob and
commitment. (The tool is not told the slices.) -/
def Spells (files : String → Option Options) (o : Options) (key : Fr) (r : Request) : Prop :=
  ∃ given settings, Settings.layered Options.above files o.node.file o = .ok given ∧
    Settings.ofOptions (given.node.above .defaults) = .ok settings ∧ settings.key = some key ∧
    given.Names r

/-- The options with these bytes in hexadecimal and all others left out. -/
def Options.inHex (key : Fr) (r : Request) : Options where
  node := { BlobSigner.Options.empty with key := some (Hex.encode (Radix.bigEndian 32 key.val)) }
  root := some (Hex.encode r.root)
  epoch := some r.epoch
  quorum := some r.quorum
  commitment := some (Hex.encode r.commitment)

theorem spells_inHex {key : Fr} (h : key ≠ 0) (files : String → Option Options) (r : Request) :
    Spells files (.inHex key r) key r := by
  have hsettings : Settings.ofOptions ((Options.inHex key r).node.above .defaults) =
      .ok ⟨some key, Admission.defaultMax, none, Slice.defaultLimit, .info⟩ := by
    have hkey : Settings.readKey ((Options.inHex key r).node.above .defaults).key = .ok (some key) := by
      change Settings.readKey (some _) = _
      rw [Settings.readKey, SigningKey.parse_encode h]
    rw [Settings.ofOptions, hkey]
    rfl
  exact ⟨_, _, rfl, hsettings, rfl, ⟨_, rfl, Hex.decode_encode _⟩, rfl, rfl, _, rfl,
    Hex.decode_encode _⟩

/-! ## Runs on a spelled request -/

section

variable {files : String → Option Options} {o : Options} {key : Fr} {r : Request} {d : Decoded}

theorem exists_decodes_iff : (∃ d, ({ r with slices := [] } : Request).Decodes 0 d) ↔
    r.root.length = 32 ∧ ∃ C, Commitment.decode r.commitment = .ok C := by
  constructor
  · rintro ⟨d, hd⟩
    exact ⟨(congrArg List.length hd.root).symm.trans d.key.root.length_toList, _, hd.commitment⟩
  · rintro ⟨hroot, C, hC⟩
    exact ⟨⟨⟨r.epoch, r.quorum, ⟨r.root, hroot⟩⟩, C, []⟩, rfl, rfl, rfl, hC, .nil⟩

/-- A blob that can be read is all that the tool asks for. -/
theorem runs_of_decodes (h : Spells files o key r)
    (hd : ({ r with slices := [] } : Request).Decodes 0 d) (table : String) (c : Console) :
    ∃ level message H S signature,
      d.key.preimage d.commitment = .ok message ∧ d.key.hashPoint d.commitment = .ok H ∧
      H.tryMul key = .ok S ∧ S.encode = .ok signature ∧
      run table files ⟨false, some "hash", o⟩ c =
        (0, { c with level := level }.print (hashText message H)) ∧
      run table files ⟨false, some "sign", o⟩ c =
        (0, { c with level := level }.print (signText S signature)) := by
  obtain ⟨given, settings, hgiven, hsettings, hkey, hnames⟩ := h
  have hread := readBlob_of_names hnames hd { c with level := settings.logLevel }
  obtain ⟨message, hmessage, -⟩ := d.key.exists_preimage d.commitment
  have hH : d.key.hashPoint d.commitment = .ok (G1.ofDigest (Keccak.digest message)) := by
    rw [BlobKey.hashPoint, hmessage]
    rfl
  obtain ⟨signature, hsign⟩ := d.key.exists_sign d.commitment key
  obtain ⟨H, S, hH', hS, hencode⟩ := BlobKey.sign_eq_ok_iff.1 hsign
  cases hH.symm.trans hH'
  have hpoint : d.key.signaturePoint d.commitment key = .ok S := by
    rw [BlobKey.signaturePoint, hH]
    exact hS
  refine ⟨settings.logLevel, message, _, S, signature, hmessage, hH, hS, hencode, ?_, ?_⟩
  · exact run_of_ok hgiven hsettings (perform_hash ..) (hash_of_blob hread hmessage)
  · refine run_of_ok hgiven hsettings (perform_sign ..) ?_
    rw [hkey]
    exact sign_of_blob hread hpoint hencode

/-- What keeps the tool from reading the blob ends both commands in the same way, and nothing has been
printed by then. -/
theorem runs_of_not_decodes (h : Spells files o key r)
    (hbad : ¬ ∃ d, ({ r with slices := [] } : Request).Decodes 0 d) (table : String) (c : Console) :
    ∃ ended, ended.out = c.out ∧ run table files ⟨false, some "hash", o⟩ c = (1, ended) ∧
      run table files ⟨false, some "sign", o⟩ c = (1, ended) := by
  rw [exists_decodes_iff] at hbad
  obtain ⟨given, settings, hgiven, hsettings, hkey, hnames⟩ := h
  obtain ⟨e, c', hread, hout⟩ := readBlob_fails hnames hbad { c with level := settings.logLevel }
  have hsign : (sign given settings.key).run { c with level := settings.logLevel } = .error e c' := by
    rw [hkey]
    exact bind_of_error hread
  refine ⟨_, ?_, run_of_error hgiven hsettings (perform_hash ..) (bind_of_error hread),
    run_of_error hgiven hsettings (perform_sign ..) hsign⟩
  rw [Console.out_record, hout]

theorem lastLine_signText (text : String) (S : G1) (signature : Bytes) :
    lastLine (text ++ signText S signature) = "signature: " ++ Hex.encode signature := by
  obtain ⟨before, hbefore⟩ := exists_pointText "signature" S
  have hline : '\n' ∉ ("signature: " ++ Hex.encode signature).toList := by
    simp [Hex.newline_not_mem_encode]
  have hsplit : text ++ signText S signature =
      text ++ before ++ "\n" ++ ("signature: " ++ Hex.encode signature ++ "\n") := by
    simp only [signText, hbefore, String.append_assoc]
  rw [hsplit, lastLine_append hline]

/-- What a service has signed the tool signs, and the same way. -/
theorem signing_of_issues (h : Spells files o key r) {svc : Service} (hkey : svc.key = key)
    {slices : List Bytes} {signature : Bytes}
    (hissues : svc.Issues { r with slices := slices } signature) (table : String) (c : Console) :
    (run table files ⟨false, some "sign", o⟩ c).1 = 0 ∧
      lastLine (run table files ⟨false, some "sign", o⟩ c).2.out =
        "signature: " ++ Hex.encode signature := by
  obtain ⟨d, hd, hissued⟩ := Service.sign_of_issues hissues
  -- The signature does not depend on the slices, so the tool needs none of them.
  have hbare : ({ r with slices := [] } : Request).Decodes 0 ⟨d.key, d.commitment, []⟩ :=
    ⟨hd.epoch, hd.quorum, hd.root, hd.commitment, .nil⟩
  obtain ⟨level, message, H, S, signed, -, hH, hS, hencode, -, hsign⟩ :=
    runs_of_decodes h hbare table c
  have hsigned : d.key.sign d.commitment key = .ok signed :=
    BlobKey.sign_eq_ok_iff.2 ⟨H, S, hH, hS, hencode⟩
  rw [hkey, hsigned] at hissued
  cases hissued
  rw [hsign]
  exact ⟨rfl, lastLine_signText ..⟩

end

/-- **The tool and the service agree.** Let the options, in any layers and spellings, be valid and
name a key, root, epoch, quorum and commitment; hexadecimal text does for each of them. Then the tool
signs, with status zero, exactly if the root has thirty-two bytes and the commitment is accepted; if
not, it prints nothing. What it prints is a point and its bytes, with nothing in the log or the error
output. The point is the one that the tool shows as the hash of the same blob, times the key. The
bytes, on the last line, are those that each service with this key, in whatever state and
surroundings, issues for a request with these fields. -/
theorem signing_agreement :
    (∀ label, Function.Injective (pointText label)) ∧
    (∀ (key : Fr) (r : Request) files, key ≠ 0 → Spells files (.inHex key r) key r) ∧
    ∀ (files : String → Option Options) (o : Options) (key : Fr) (r : Request),
      Spells files o key r → ∀ (table : String) (c : Console),
        let hashing := run table files ⟨false, some "hash", o⟩ c
        let signing := run table files ⟨false, some "sign", o⟩ c
        (signing.1 = 0 ↔ r.root.length = 32 ∧ ∃ C, Commitment.decode r.commitment = .ok C) ∧
        (hashing.1 = 0 ↔ signing.1 = 0) ∧
        (signing.1 = 0 → ∃ d message H S signature,
          ({ r with slices := [] } : Request).Decodes 0 d ∧
          d.key.preimage d.commitment = .ok message ∧ d.key.hashPoint d.commitment = .ok H ∧
          H.tryMul key = .ok S ∧ S.encode = .ok signature ∧
          hashing.2.out = c.out ++ hashText message H ∧
          signing.2.out = c.out ++ signText S signature ∧
          lastLine signing.2.out = "signature: " ++ Hex.encode signature ∧
          signing.2.err = c.err ∧ signing.2.log = c.log) ∧
        (signing.1 ≠ 0 → signing.1 = 1 ∧ signing.2.out = c.out) ∧
        ∀ (svc : Service) slices signature, svc.key = key →
          svc.Issues { r with slices := slices } signature →
          signing.1 = 0 ∧ lastLine signing.2.out = "signature: " ++ Hex.encode signature := by
  refine ⟨pointText_injective, fun key r files hkey => spells_inHex hkey files r, ?_⟩
  intro files o key r h table c hashing signing
  have hservice : ∀ (svc : Service) slices signature, svc.key = key →
      svc.Issues { r with slices := slices } signature →
      signing.1 = 0 ∧ lastLine signing.2.out = "signature: " ++ Hex.encode signature :=
    fun svc slices signature hkey hissues => signing_of_issues h hkey hissues table c
  rw [← exists_decodes_iff]
  by_cases hgood : ∃ d, ({ r with slices := [] } : Request).Decodes 0 d
  · obtain ⟨d, hd⟩ := hgood
    obtain ⟨level, message, H, S, signature, hmessage, hH, hS, hencode, hhash, hsign⟩ :=
      runs_of_decodes h hd table c
    have hzero : signing.1 = 0 := congrArg Prod.fst hsign
    have hout : signing.2.out = c.out ++ signText S signature := congrArg (·.2.out) hsign
    have hlast : lastLine signing.2.out = "signature: " ++ Hex.encode signature := by
      rw [hout, lastLine_signText]
    refine ⟨⟨fun _ => ⟨d, hd⟩, fun _ => hzero⟩,
      ⟨fun _ => hzero, fun _ => congrArg Prod.fst hhash⟩, fun _ => ?_,
      fun hbad => absurd hzero hbad, hservice⟩
    exact ⟨d, message, H, S, signature, hd, hmessage, hH, hS, hencode, congrArg (·.2.out) hhash, hout,
      hlast, congrArg (·.2.err) hsign, congrArg (·.2.log) hsign⟩
  · obtain ⟨ended, hout, hhash, hsign⟩ := runs_of_not_decodes h hgood table c
    have hone : signing.1 = 1 := congrArg Prod.fst hsign
    have hsigning : signing.1 ≠ 0 := hone ▸ Nat.one_ne_zero
    have hhashing : hashing.1 ≠ 0 := (congrArg Prod.fst hhash : hashing.1 = 1) ▸ Nat.one_ne_zero
    exact ⟨⟨fun hzero => absurd hzero hsigning, fun hreadable => absurd hreadable hgood⟩,
      ⟨fun hzero => absurd hzero hhashing, fun hzero => absurd hzero hsigning⟩,
      fun hzero => absurd hzero hsigning,
      fun _ => ⟨hone, (congrArg (·.2.out) hsign).trans hout⟩, hservice⟩

/-- A blob of the generator, spelled in hexadecimal for the tool and signed by a service in a batch. -/
theorem signing_agreement_generator :
    let svc : Service := ⟨1, 64, ⟨2, by decide⟩, by decide⟩
    let env : Surroundings := ⟨fun _ _ => .answer (.ok 3), fun _ _ _ => .accepted, fun _ => []⟩
    let k : BlobKey := ⟨5, 2, .zero⟩
    let store := (Store.empty.setStatus k .uploaded).setAssignment k.quorumKey [7]
    let n : Node := { Node.init .idle with store := store }
    let commitment : Bytes := 1 :: List.replicate 31 0 ++ 2 :: List.replicate 31 0
    let r : Request := ⟨5, 2, Bytes32.zero.toList, commitment, []⟩
    let b : Batch := ⟨[{ r with slices := [[0, 0, 0, 0, 0, 0, 0, 7, 0, 0, 0, 0]] }], ""⟩
    let fresh : Console := .init .info (.ofStream [])
    Spells (fun _ => none) (.inHex 1 r) 1 r ∧
      ∃ c signature, run "" (fun _ => none) ⟨false, some "sign", .inHex 1 r⟩ fresh = (0, c) ∧
        lastLine c.out = "signature: " ++ Hex.encode signature ∧
        (svc.batchSign env b n).value.signatures = [signature] := by
  intro svc env k store n commitment r b fresh
  have hspells : Spells (fun _ => none) (.inHex 1 r) 1 r := spells_inHex (by decide) _ r
  have hpass : ({ r with slices := [[0, 0, 0, 0, 0, 0, 0, 7, 0, 0, 0, 0]] } : Request).Passes 64
      env.check n.store (n.countOf fun _ _ => .ok 3) ⟨k, G1.generator, [⟨7, []⟩]⟩ :=
    Request.passes_of_generator rfl rfl (by decide) rfl fun _ _ _ => rfl
  have hok : (svc.batchSign env b n).value.status.isOk :=
    Service.isOk_of_passes (fun _ _ => rfl) (by decide) hpass (by decide) ""
  obtain ⟨signature, _, -, hnone, hsignatures⟩ :=
    List.forall₂_cons_left_iff.1 (Service.signs_of_isOk hok)
  cases hnone
  have hissues : svc.Issues { r with slices := [[0, 0, 0, 0, 0, 0, 0, 7, 0, 0, 0, 0]] } signature :=
    ⟨env, b, n, hok, by rw [hsignatures]; exact .head _⟩
  obtain ⟨-, -, hagree⟩ := signing_agreement
  obtain ⟨-, -, -, -, hissued⟩ := hagree (fun _ => none) (.inHex 1 r) 1 r hspells "" fresh
  obtain ⟨hzero, hlast⟩ := hissued svc _ signature rfl hissues
  -- From here on the run is any outcome with these two properties: none of it is evaluated.
  generalize run "" (fun _ => none) _ fresh = ended at hzero hlast ⊢
  obtain ⟨status, c⟩ := ended
  cases hzero
  exact ⟨hspells, c, signature, rfl, hlast, hsignatures⟩

end Tool

end BlobSigner
