import BlobSigner.Proofs.Bn254.Uncompressed
import BlobSigner.Proofs.Entropy
import BlobSigner.Proofs.SigningKey
import BlobSigner.Proofs.Tool.Commands
/-!
# Fresh keys

Once a scalar has been drawn nothing can fail (`keygen_of_scalar`): its digits and the bytes of its
public key are shown, a line each (`exists_of_run_keygen`). Both can be read again: the line of the key
by whoever loads a signing key, that of the public key as a point, and different keys have different
points (`keygen_loadable`).
-/
namespace BlobSigner.Tool

open Hex (encode)

variable {table name : String} {files : String → Option Options} {o : Options} {c c' : Console}
  {k : Fr} {rest : Entropy.Generator}

/-! ## Two lines -/

/-- The lines that show a key and its public key. -/
def keyText (secret shown : String) : String :=
  "signer-private-key: " ++ secret ++ "\n" ++ ("public-key-g1: " ++ shown ++ "\n")

/-- The two lines have been added to the output, each text up to the end of its line. -/
structure ShowsKey (c c' : Console) (secret shown : String) : Prop where
  out : c'.out = c.out ++ keyText secret shown
  secret_line : '\n' ∉ secret.toList
  shown_line : '\n' ∉ shown.toList

/-- The output tells the two texts. -/
theorem ShowsKey.unique {secret shown secret' shown' : String} (h : ShowsKey c c' secret shown)
    (h' : ShowsKey c c' secret' shown') : secret = secret' ∧ shown = shown' := by
  have htext : keyText secret shown = keyText secret' shown' := by
    have hout := h.out.symm.trans h'.out
    rwa [String.append_right_inj] at hout
  have hlines : ∀ s t : String, keyText s t =
      "signer-private-key: " ++ (s ++ "\n" ++ ("public-key-g1: " ++ (t ++ "\n"))) := by
    intro s t
    show "signer-private-key: " ++ s ++ "\n" ++ ("public-key-g1: " ++ t ++ "\n") = _
    simp only [String.append_assoc]
  -- Neither text goes over the end of its line, so both are cut at the same place.
  rw [hlines, hlines, String.append_right_inj] at htext
  obtain ⟨hsecret, hlast⟩ := line_inj h.secret_line h'.secret_line htext
  rw [String.append_right_inj, String.append_left_inj] at hlast
  exact ⟨hsecret, hlast⟩

/-! ## Making a key -/

theorem drawKey_of_scalar (h : Entropy.scalar c.entropy = .ok (k, rest)) :
    drawKey.run c = .ok k { c with entropy := rest } := by
  rw [drawKey, bind_of_ok (EStateM.run_get c), bind_of_ok (attempt_of_ok h c)]
  rfl

theorem drawKey_of_error {e : Entropy.Failure} (h : Entropy.scalar c.entropy = .error e) :
    drawKey.run c = .error (.entropy e) c := by
  rw [drawKey, bind_of_ok (EStateM.run_get c)]
  exact bind_of_error (attempt_of_error h c)

/-- The public key of each scalar exists and has bytes, and both are shown. -/
theorem keygen_of_scalar (h : Entropy.scalar c.entropy = .ok (k, rest)) :
    ∃ P e, G1.generator.tryMul k = .ok P ∧ P.encode = .ok e ∧
      keygen.run c = .ok () ({ c with entropy := rest }.print
        (keyText (encode (Radix.bigEndian 32 k.val)) (encode e))) := by
  obtain ⟨P, hP⟩ : ∃ P, G1.generator.tryMul k = .ok P := G1.exists_tryNsmul k.val G1.generator
  obtain ⟨e, he⟩ := P.exists_encode
  refine ⟨P, e, hP, he, ?_⟩
  rw [keygen, bind_of_ok (drawKey_of_scalar h), bind_of_ok (attempt_of_ok hP _),
    bind_of_ok (attempt_of_ok k.toBigEndian_eq _), bind_of_ok (run_print ..),
    bind_of_ok (attempt_of_ok he _), run_print, Console.print_print]
  rfl

/-! ## Runs that end well -/

/-- A run that ends well has settings. -/
theorem settings_of_run (h : run table files ⟨false, some name, o⟩ c = (0, c')) :
    ∃ given settings, Settings.layered Options.above files o.node.file o = .ok given ∧
      Settings.ofOptions (given.node.above .defaults) = .ok settings := by
  by_contra hnone
  obtain ⟨e, hstart⟩ := start_of_no_settings hnone name c
  cases (run_of_start_error hstart).symm.trans h

theorem perform_keygen (o : Options) (settings : Settings) :
    perform o settings "keygen" = do keygen; return 0 := rfl

/-- With settings, a key that can be drawn is drawn and shown, and nothing else. -/
theorem run_keygen_of_scalar {given : Options} {settings : Settings}
    (hgiven : Settings.layered Options.above files o.node.file o = .ok given)
    (hsettings : Settings.ofOptions (given.node.above .defaults) = .ok settings)
    (h : Entropy.scalar c.entropy = .ok (k, rest)) (table : String) :
    ∃ P e c', G1.generator.tryMul k = .ok P ∧ P.encode = .ok e ∧
      run table files ⟨false, some "keygen", o⟩ c = (0, c') ∧ c'.entropy = rest ∧
      ShowsKey c c' (encode (Radix.bigEndian 32 k.val)) (encode e) := by
  obtain ⟨P, e, hP, he, hwork⟩ := keygen_of_scalar (c := { c with level := settings.logLevel }) h
  exact ⟨P, e, _, hP, he, run_of_ok hgiven hsettings (perform_keygen ..) hwork, rfl, rfl,
    Hex.newline_not_mem_encode _, Hex.newline_not_mem_encode e⟩

/-- A run that ends well has drawn a key and shown it. -/
theorem exists_of_run_keygen (h : run table files ⟨false, some "keygen", o⟩ c = (0, c')) :
    ∃ k P e, Entropy.scalar c.entropy = .ok (k, c'.entropy) ∧ G1.generator.tryMul k = .ok P ∧
      P.encode = .ok e ∧ ShowsKey c c' (encode (Radix.bigEndian 32 k.val)) (encode e) := by
  obtain ⟨given, settings, hgiven, hsettings⟩ := settings_of_run h
  cases hscalar : Entropy.scalar c.entropy with
  | error e =>
    have hwork : keygen.run { c with level := settings.logLevel } =
        .error (.entropy e) { c with level := settings.logLevel } := by
      rw [keygen]
      exact bind_of_error (drawKey_of_error hscalar)
    cases (run_of_error hgiven hsettings (perform_keygen ..) hwork).symm.trans h
  | ok drawn =>
    obtain ⟨k, rest⟩ := drawn
    obtain ⟨P, e, c'', hP, he, hrun, rfl, hshows⟩ :=
      run_keygen_of_scalar hgiven hsettings hscalar table
    cases hrun.symm.trans h
    exact ⟨k, P, e, rfl, hP, he, hshows⟩

/-! ## Reading both texts -/

/-- The first text can be read as a key and is the one printed of its bytes; the second can be read as
the point of the key, which is the generator added up that many times. -/
structure Loads (secret shown : String) (k : Fr) (P : G1) : Prop where
  key : SigningKey.parse secret = .ok k
  one_le : 1 ≤ k.val
  lt : k.val < r
  printed : ∃ b, k.toBigEndian = .ok b ∧ encode b.toList = secret
  point : ∃ e, Hex.decode shown = .ok e ∧ G1.decode e = .ok P
  onCurve : P.OnCurve
  ne_infinity : P ≠ .infinity
  multiple : G1.generator.addTimes k.val = .ok P

theorem loads_of_tryMul {P : G1} {e : Bytes} (hk : k ≠ 0) (hP : G1.generator.tryMul k = .ok P)
    (he : P.encode = .ok e) : Loads (encode (Radix.bigEndian 32 k.val)) (encode e) k P where
  key := SigningKey.parse_encode hk
  one_le := Residue.one_le_val_iff.2 hk
  lt := k.val_lt
  printed := ⟨_, k.toBigEndian_eq, rfl⟩
  point := ⟨e, Hex.decode_encode e, G1.decode_of_encode (G1.onCurve_of_tryMul G1.onCurve_generator hP) he⟩
  onCurve := G1.onCurve_of_tryMul G1.onCurve_generator hP
  ne_infinity := G1.ne_infinity_of_tryMul G1.onCurve_generator G1.generator_ne_infinity hk hP
  multiple := (G1.tryMul_eq_addTimes G1.onCurve_generator k).symm.trans hP

/-- Different keys have different points, and a text is that of one point only. -/
theorem Loads.ne_of_key_ne {secret shown secret' shown' : String} {k' : Fr} {P P' : G1}
    (h : Loads secret shown k P) (h' : Loads secret' shown' k' P') (hne : k ≠ k') :
    P ≠ P' ∧ shown ≠ shown' := by
  have hpoints : P ≠ P' := by
    rintro rfl
    have hsame : G1.generator.tryMul k = G1.generator.tryMul k' := by
      rw [G1.tryMul_eq_addTimes G1.onCurve_generator, G1.tryMul_eq_addTimes G1.onCurve_generator,
        h.multiple, h'.multiple]
    exact hne ((G1.tryMul_inj G1.onCurve_generator G1.generator_ne_infinity).1 hsame)
  refine ⟨hpoints, ?_⟩
  rintro rfl
  obtain ⟨e, hread, hpoint⟩ := h.point
  obtain ⟨e', hread', hpoint'⟩ := h'.point
  cases hread.symm.trans hread'
  cases hpoint.symm.trans hpoint'
  exact hpoints rfl

/-- **A fresh key can be loaded.** Whatever the random bytes and the options are, if the tool is asked
for a key, and not for help, and ends well, it has shown two texts, which its output tells. The first
can be read as the scalar drawn, from one up to the order, and is the one printed of this scalar; the
second can be read as the multiple of the generator by it, a point on the curve other than infinity.
The points of different keys are different, and so are their texts. -/
theorem keygen_loadable :
    (∀ (table : String) (files : String → Option Options) (o : Options) (c c' : Console),
      run table files ⟨false, some "keygen", o⟩ c = (0, c') →
        (∃ secret shown, ShowsKey c c' secret shown) ∧
        ∀ secret shown, ShowsKey c c' secret shown →
          ∃ k P, Entropy.scalar c.entropy = .ok (k, c'.entropy) ∧ Loads secret shown k P) ∧
    ∀ secret shown secret' shown' k k' P P', Loads secret shown k P → Loads secret' shown' k' P' →
      k ≠ k' → P ≠ P' ∧ shown ≠ shown' := by
  refine ⟨fun table files o c c' h => ?_, fun _ _ _ _ _ _ _ _ => Loads.ne_of_key_ne⟩
  obtain ⟨k, P, e, hscalar, hP, he, hshows⟩ := exists_of_run_keygen h
  have hk : k ≠ 0 := by
    obtain ⟨n, hfirst, -⟩ := Entropy.scalar_eq_ok_iff.1 hscalar
    exact Residue.one_le_val_iff.1 (hfirst.value ▸ hfirst.here.1)
  refine ⟨⟨_, _, hshows⟩, fun secret shown hgiven => ⟨k, P, hscalar, ?_⟩⟩
  obtain ⟨rfl, rfl⟩ := hshows.unique hgiven
  exact loads_of_tryMul hk hP he

/-- A small key with many zeros, after a chunk that is out of range, and the largest key. -/
theorem keygen_loadable_smallest_largest :
    let ended (stream : Bytes) :=
      run "" (fun _ => none) ⟨false, some "keygen", .empty⟩ (.init .info (.ofStream stream))
    let small : Bytes := List.replicate 32 0xff ++ (0xc0 :: List.replicate 30 0 ++ [1]) ++ [9]
    let large : Bytes := Radix.bigEndian 32 (r - 1)
    let one := String.ofList (List.replicate 63 '0' ++ ['1'])
    let last := "30644e72e131a029b85045b68181585d2833e84879b9709143e1f593f0000000"
    ∃ c c' shown shown' P P', ended small = (0, c) ∧ c.entropy = .ofStream [9] ∧
      ended large = (0, c') ∧ c'.entropy = .ofStream [] ∧
      ShowsKey (.init .info (.ofStream small)) c one shown ∧ Loads one shown 1 P ∧
      ShowsKey (.init .info (.ofStream large)) c' last shown' ∧ Loads last shown' (-1) P' ∧
      P ≠ P' ∧ shown ≠ shown' := by
  intro ended small large one last
  obtain ⟨hloadable, hdistinct⟩ := keygen_loadable
  have hgiven : Settings.layered Options.above (fun _ => none) none Options.empty = .ok .empty := rfl
  have hloads : ∀ (stream : Bytes) (rest : Entropy.Generator) (k : Fr) (secret : String),
      Entropy.scalar (.ofStream stream) = .ok (k, rest) →
      encode (Radix.bigEndian 32 k.val) = secret →
      ∃ c shown P, ended stream = (0, c) ∧ c.entropy = rest ∧
        ShowsKey (.init .info (.ofStream stream)) c secret shown ∧ Loads secret shown k P := by
    rintro stream rest k secret hscalar rfl
    obtain ⟨-, e, c, -, -, hrun, rfl, hshows⟩ :=
      run_keygen_of_scalar (o := .empty) (c := .init .info (.ofStream stream)) hgiven rfl hscalar ""
    obtain ⟨k', P, hdrawn, hload⟩ := (hloadable _ _ _ _ _ hrun).2 _ _ hshows
    cases hscalar.symm.trans hdrawn
    exact ⟨c, encode e, P, hrun, rfl, hshows, hload⟩
  have hsmall : Entropy.FirstAt 1 (.ofStream small) 1 :=
    ⟨by decide, fun _ _ => rfl, by decide +kernel, by decide +kernel, by decide +kernel⟩
  have hlarge : Entropy.FirstAt 0 (.ofStream large) (-1) :=
    ⟨by decide, fun _ _ => rfl, by decide, by decide +kernel, by decide +kernel⟩
  obtain ⟨c, shown, P, hrun, hrest, hshows, hload⟩ :=
    hloads small (.ofStream [9]) 1 one (Entropy.scalar_of_firstAt hsmall) (by decide +kernel)
  obtain ⟨c', shown', P', hrun', hrest', hshows', hload'⟩ :=
    hloads large (.ofStream []) (-1) last (Entropy.scalar_of_firstAt hlarge) (by decide +kernel)
  obtain ⟨hpoints, htexts⟩ := hdistinct _ _ _ _ _ _ _ _ hload hload' (by decide)
  exact ⟨c, c', shown, shown', P, P', hrun, hrest, hrun', hrest', hshows, hload, hshows', hload',
    hpoints, htexts⟩

end BlobSigner.Tool
