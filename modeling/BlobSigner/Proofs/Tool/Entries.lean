import BlobSigner.CommandLine
import Mathlib.Data.List.Nodup
/-!
# Entries taken one after the other

What is given is told by what each option says as text (`Invocation.ext_value`). One entry changes
one option, or is refused (`set_spec`). Entries in turn are taken if no option comes twice and all
values can be read (`exists_store_iff`), and then each option says what its entry says
(`store_eq_ok_iff`); otherwise the first one that cannot be taken is the error (`store_eq_error_iff`).
Entries of final options are not looked at (`store_eq_store_filter`), and all that is given is read back
from its entries (`ofEntries_entries`).
-/
namespace BlobSigner.Tool

variable {i i' : Invocation} {n m : OptionName} {value : String} {es : List Entry}

/-! ## Numbers -/

/-- A number as it is spelled. -/
def numeral (w : UInt64) : String := String.ofList (Nat.toDigits 10 w.toNat)

theorem isDigit_of_mem_decimal {k : Nat} {c : Char} (h : c ∈ Nat.toDigits 10 k) : c.isDigit = true :=
  Nat.isDigit_of_mem_toDigits (by decide) (by decide) h

theorem decimal?_toDigits (w : UInt64) : decimal? (Nat.toDigits 10 w.toNat) = some w := by
  have hdigits : (Nat.toDigits 10 w.toNat).all Char.isDigit = true :=
    List.all_eq_true.2 fun _ => isDigit_of_mem_decimal
  rw [decimal?, Nat.ofDigitChars_ten_toDigits, if_pos ⟨Nat.toDigits_ne_nil, hdigits, w.toNat_lt_size⟩,
    UInt64.ofNat_toNat]

theorem number?_numeral (w : UInt64) : number? (numeral w) = some w := by
  have hdecimal := decimal?_toDigits w
  have hdigit : ∀ c ∈ Nat.toDigits 10 w.toNat, c.isDigit = true := fun _ => isDigit_of_mem_decimal
  rw [number?, numeral, String.toList_ofList]
  -- The first digit is no sign.
  split
  · rename_i h
    exact absurd (hdigit '-' (h ▸ List.mem_cons_self)) (by decide)
  · rename_i h
    exact absurd (hdigit '+' (h ▸ List.mem_cons_self)) (by decide)
  · exact hdecimal

theorem numeral_injective {w w' : UInt64} (h : numeral w = numeral w') : w = w' := by
  have hread := number?_numeral w
  rw [h, number?_numeral] at hread
  exact (Option.some.inj hread).symm

/-! ## What an option says -/

namespace OptionName

theorem mem_all (n : OptionName) : n ∈ all := by
  cases n with
  | blob o => cases o <;> decide
  | _ => decide

theorem ofText?_text (n : OptionName) : ofText? n.text = some n := by
  cases n with
  | blob o => cases o <;> decide
  | _ => decide

/-- What the option says with this value; nothing if it is no number and ought to be one. -/
def said? (n : OptionName) (value : String) : Option String :=
  match n with
  | .maxOngoing | .verifyThreads | .payloadLimit | .blob .epoch | .blob .quorum =>
    (number? value).map numeral
  | .help => some ""
  | _ => some value

end OptionName

namespace Invocation

/-- What the option says, as text. -/
def value? (i : Invocation) : OptionName → Option String
  | .config => i.options.node.file
  | .key => i.options.node.key
  | .maxOngoing => i.options.node.maxOngoing.map numeral
  | .verifyThreads => i.options.node.verifyThreads.map numeral
  | .payloadLimit => i.options.node.payloadLimit.map numeral
  | .logLevel => i.options.node.logLevel
  | .blob .root => i.options.root
  | .blob .epoch => i.options.epoch.map numeral
  | .blob .quorum => i.options.quorum.map numeral
  | .blob .commitment => i.options.commitment
  | .command => i.command
  | .help => if i.help then some "" else none

theorem gives_eq (i : Invocation) (n : OptionName) : i.gives n = (i.value? n).isSome := by
  cases n with
  | blob o => cases o <;> simp [gives, value?]
  | help => cases hhelp : i.help <;> simp [gives, value?, hhelp]
  | _ => simp [gives, value?]

theorem ext_value (h : ∀ n, i.value? n = i'.value? n) : i = i' := by
  have hnumber {x y : Option UInt64} (hxy : x.map numeral = y.map numeral) : x = y :=
    Option.map_injective (fun _ _ => numeral_injective) hxy
  have hhelp : i.help = i'.help := by
    have hgives : i.gives .help = i'.gives .help := by rw [gives_eq, gives_eq, h]
    exact hgives
  obtain ⟨help, command, ⟨file, key, maxOngoing, threads, limit, level⟩, root, epoch, quorum,
    commitment⟩ := i
  obtain ⟨help', command', ⟨file', key', maxOngoing', threads', limit', level'⟩, root', epoch', quorum',
    commitment'⟩ := i'
  obtain rfl : help = help' := hhelp
  obtain rfl : command = command' := h .command
  obtain rfl : file = file' := h .config
  obtain rfl : key = key' := h .key
  obtain rfl : maxOngoing = maxOngoing' := hnumber (h .maxOngoing)
  obtain rfl : threads = threads' := hnumber (h .verifyThreads)
  obtain rfl : limit = limit' := hnumber (h .payloadLimit)
  obtain rfl : level = level' := h .logLevel
  obtain rfl : root = root' := h (.blob .root)
  obtain rfl : epoch = epoch' := hnumber (h (.blob .epoch))
  obtain rfl : quorum = quorum' := hnumber (h (.blob .quorum))
  obtain rfl : commitment = commitment' := h (.blob .commitment)
  rfl

/-! ## One entry -/

/-- The option takes this value, and no other option changes. -/
structure Takes (i : Invocation) (n : OptionName) (said : String) (i' : Invocation) : Prop where
  self : i'.value? n = some said
  other : ∀ m ∈ OptionName.all, m ≠ n → i'.value? m = i.value? m

theorem number_spec {f : UInt64 → Invocation} (hsaid : n.said? value = (number? value).map numeral)
    (hset : i.set n value = (n.number value).map f) (hf : ∀ w, i.Takes n (numeral w) (f w)) :
    (∃ said i', n.said? value = some said ∧ i.set n value = .ok i' ∧ i.Takes n said i') ∨
      n.said? value = none ∧ i.set n value = .error (.invalid n value) := by
  rw [hsaid, hset, OptionName.number]
  cases number? value with
  | none => exact Or.inr ⟨rfl, rfl⟩
  | some w => exact Or.inl ⟨numeral w, f w, rfl, rfl, hf w⟩

theorem set_spec (i : Invocation) (n : OptionName) (value : String) :
    (∃ said i', n.said? value = some said ∧ i.set n value = .ok i' ∧ i.Takes n said i') ∨
      n.said? value = none ∧ i.set n value = .error (.invalid n value) := by
  cases n with
  | blob o =>
    cases o with
    | root | commitment =>
      exact Or.inl ⟨_, _, rfl, rfl, rfl, by simp [OptionName.all, value?]⟩
    | epoch | quorum => exact number_spec rfl rfl fun _ => ⟨rfl, by simp [OptionName.all, value?]⟩
  | maxOngoing | verifyThreads | payloadLimit =>
    exact number_spec rfl rfl fun _ => ⟨rfl, by simp [OptionName.all, value?]⟩
  | _ => exact Or.inl ⟨_, _, rfl, rfl, rfl, by simp [OptionName.all, value?]⟩

theorem Takes.value?_eq {said : String} (h : i.Takes n said i') (m : OptionName) :
    i'.value? m = if m = n then some said else i.value? m := by
  split
  · rename_i hm
    rw [hm, h.self]
  · rename_i hm
    exact h.other m m.mem_all hm

theorem set_eq_ok_iff :
    i.set n value = .ok i' ↔ ∃ said, n.said? value = some said ∧ i.Takes n said i' := by
  rcases set_spec i n value with ⟨said, j, hsaid, hset, htakes⟩ | ⟨hsaid, hset⟩
  · rw [hset, hsaid]
    constructor
    · intro h
      cases h
      exact ⟨said, rfl, htakes⟩
    · rintro ⟨_, hsome, htakes'⟩
      cases hsome
      refine congrArg Except.ok (ext_value fun m => ?_)
      rw [htakes.value?_eq, htakes'.value?_eq]
  · rw [hset, hsaid]
    constructor
    · intro h
      cases h
    · rintro ⟨_, h, -⟩
      cases h

/-! ## Entries in turn -/

/-- What a file or the arguments say about final options does not count, readable or not. -/
theorem store_eq_store_filter (final : OptionName → Bool) (entries : List Entry) (i : Invocation) :
    store final entries i = store (fun _ => false) (entries.filter fun e => !final e.1) i := by
  induction entries generalizing i with
  | nil => rfl
  | cons entry rest ih =>
    obtain ⟨n, value⟩ := entry
    cases hfinal : final n with
    | true => simp only [store, hfinal, List.filter, Bool.not_true, if_true, ih]
    | false => simp only [store, hfinal, List.filter, Bool.not_false, ih]

/-- A number that is none, for an option that is final. -/
example : store (fun n => n = .maxOngoing) [(.maxOngoing, "some"), (.logLevel, "warn")] empty =
    .ok { empty with options.node.logLevel := some "warn" } := rfl

/-- Each entry is what its option says now; the other options say what they said before. -/
structure Says (entries : List Entry) (i i' : Invocation) : Prop where
  entry : ∀ e ∈ entries, ∃ said, e.1.said? e.2 = some said ∧ i'.value? e.1 = some said
  other : ∀ n, n ∉ entries.map Prod.fst → i'.value? n = i.value? n

/-- No option twice, and none that has a value already. -/
structure Fresh (entries : List Entry) (i : Invocation) : Prop where
  once : (entries.map Prod.fst).Nodup
  before : ∀ e ∈ entries, i.gives e.1 = false

theorem store_cons_eq_ok_iff :
    store (fun _ => false) ((n, value) :: es) i = .ok i' ↔
      i.gives n = false ∧ ∃ j, i.set n value = .ok j ∧ store (fun _ => false) es j = .ok i' := by
  simp only [store, Bool.false_eq_true, if_false]
  cases i.gives n with
  | true => simp
  | false => cases i.set n value <;> simp

theorem Takes.gives_eq_false_iff {said : String} (h : i.Takes n said i') :
    i'.gives m = false ↔ m ≠ n ∧ i.gives m = false := by
  rw [gives_eq, gives_eq, h.value?_eq]
  split <;> simp_all

theorem Takes.fresh_iff {said : String} {j : Invocation} (h : i.Takes n said j) :
    i.gives n = false ∧ Fresh es j ↔ Fresh ((n, value) :: es) i := by
  constructor
  · rintro ⟨hn, honce, hbefore⟩
    have hbefore' : ∀ e ∈ es, e.1 ≠ n ∧ i.gives e.1 = false := fun e he =>
      h.gives_eq_false_iff.1 (hbefore e he)
    refine ⟨List.nodup_cons.2 ⟨?_, honce⟩, ?_⟩
    · intro hmem
      obtain ⟨e, he, hname⟩ := List.mem_map.1 hmem
      exact (hbefore' e he).1 hname
    · exact List.forall_mem_cons.2 ⟨hn, fun e he => (hbefore' e he).2⟩
  · rintro ⟨honce, hbefore⟩
    obtain ⟨hn, honce⟩ := List.nodup_cons.1 honce
    obtain ⟨hfree, hbefore⟩ := List.forall_mem_cons.1 hbefore
    refine ⟨hfree, honce, fun e he => h.gives_eq_false_iff.2 ⟨?_, hbefore e he⟩⟩
    intro hname
    exact hn (List.mem_map.2 ⟨e, he, hname⟩)

theorem Takes.says_iff {said : String} {j : Invocation} (h : i.Takes n said j)
    (hsaid : n.said? value = some said) (hn : n ∉ es.map Prod.fst) :
    Says es j i' ↔ Says ((n, value) :: es) i i' := by
  constructor
  · rintro ⟨hentry, hother⟩
    refine ⟨List.forall_mem_cons.2 ⟨⟨said, hsaid, ?_⟩, hentry⟩, fun m hm => ?_⟩
    · rw [hother n hn, h.self]
    · obtain ⟨hne, hm⟩ := List.ne_and_not_mem_of_not_mem_cons hm
      rw [hother m hm, h.value?_eq, if_neg hne]
  · rintro ⟨hentry, hother⟩
    obtain ⟨⟨said', hsaid', hself⟩, hentry⟩ := List.forall_mem_cons.1 hentry
    cases hsaid.symm.trans hsaid'
    refine ⟨hentry, fun m hm => ?_⟩
    by_cases hne : m = n
    · rw [hne, hself, h.self]
    · rw [hother m (List.not_mem_cons_of_ne_of_not_mem hne hm), h.value?_eq, if_neg hne]

theorem store_eq_ok_iff :
    store (fun _ => false) es i = .ok i' ↔ Fresh es i ∧ Says es i i' := by
  induction es generalizing i with
  | nil =>
    constructor
    · intro h
      cases h
      exact ⟨⟨List.nodup_nil, by simp⟩, by simp, fun _ _ => rfl⟩
    · rintro ⟨-, -, hother⟩
      exact congrArg Except.ok (ext_value fun n => (hother n (by simp)).symm)
  | cons entry rest ih =>
    obtain ⟨n, value⟩ := entry
    rw [store_cons_eq_ok_iff]
    constructor
    · rintro ⟨hfree, j, hset, hstore⟩
      obtain ⟨said, hsaid, htakes⟩ := set_eq_ok_iff.1 hset
      obtain ⟨hfresh, hsays⟩ := ih.1 hstore
      have hfresh' : Fresh ((n, value) :: rest) i := htakes.fresh_iff.1 ⟨hfree, hfresh⟩
      exact ⟨hfresh', (htakes.says_iff hsaid (List.nodup_cons.1 hfresh'.once).1).1 hsays⟩
    · rintro ⟨hfresh, hsays⟩
      obtain ⟨said, hsaid, -⟩ := hsays.entry _ List.mem_cons_self
      rcases set_spec i n value with ⟨said', j, hsaid', hset, htakes⟩ | ⟨hnone, -⟩
      · obtain ⟨hfree, hfresh'⟩ := htakes.fresh_iff.2 hfresh
        have hsays' := (htakes.says_iff hsaid' (List.nodup_cons.1 hfresh.once).1).2 hsays
        exact ⟨hfree, j, hset, ih.2 ⟨hfresh', hsays'⟩⟩
      · cases hnone.symm.trans hsaid

theorem exists_store_iff :
    (∃ i', store (fun _ => false) es i = .ok i') ↔ Fresh es i ∧ ∀ e ∈ es, (e.1.said? e.2).isSome := by
  constructor
  · rintro ⟨i', h⟩
    obtain ⟨hfresh, hsays⟩ := store_eq_ok_iff.1 h
    refine ⟨hfresh, fun e he => ?_⟩
    obtain ⟨said, hsaid, -⟩ := hsays.entry e he
    exact Option.isSome_of_eq_some hsaid
  · rintro ⟨hfresh, hread⟩
    induction es generalizing i with
    | nil => exact ⟨i, rfl⟩
    | cons entry rest ih =>
      obtain ⟨n, value⟩ := entry
      obtain ⟨hvalue, hrest⟩ := List.forall_mem_cons.1 hread
      rcases set_spec i n value with ⟨said, j, hsaid, hset, htakes⟩ | ⟨hnone, -⟩
      · obtain ⟨hfree, hfresh'⟩ := htakes.fresh_iff.2 hfresh
        obtain ⟨i', hstore⟩ := ih hfresh' hrest
        exact ⟨i', store_cons_eq_ok_iff.2 ⟨hfree, j, hset, hstore⟩⟩
      · rw [hnone] at hvalue
        cases hvalue

/-- The first entry that cannot be taken is the error: its option has a value already, or ought to be
a number and is none. -/
inductive Faults : Invocation → List Entry → OptionError → Prop
  | repeated {i : Invocation} {n : OptionName} {value : String} {rest : List Entry}
      (given : i.gives n = true) : Faults i ((n, value) :: rest) (.repeated n)
  | invalid {i : Invocation} {n : OptionName} {value : String} {rest : List Entry}
      (free : i.gives n = false) (bad : n.said? value = none) :
      Faults i ((n, value) :: rest) (.invalid n value)
  | later {i j : Invocation} {n : OptionName} {value : String} {rest : List Entry}
      {e : OptionError} (free : i.gives n = false) (taken : i.set n value = .ok j)
      (fault : Faults j rest e) :
      Faults i ((n, value) :: rest) e

theorem store_eq_error_iff {e : OptionError} :
    store (fun _ => false) es i = .error e ↔ Faults i es e := by
  constructor
  · intro h
    induction es generalizing i with
    | nil => cases h
    | cons entry rest ih =>
      obtain ⟨n, value⟩ := entry
      simp only [store, Bool.false_eq_true, if_false] at h
      cases hgives : i.gives n with
      | true =>
        rw [hgives, if_pos rfl] at h
        cases h
        exact .repeated hgives
      | false =>
        rw [hgives, if_neg Bool.false_ne_true] at h
        rcases set_spec i n value with ⟨said, j, hsaid, hset, htakes⟩ | ⟨hsaid, hset⟩
        · rw [hset] at h
          exact .later hgives hset (ih h)
        · rw [hset] at h
          cases h
          exact .invalid hgives hsaid
  · intro h
    induction h with
    | repeated hgives => simp [store, hgives]
    | @invalid i n value rest hfree hbad =>
      rcases set_spec i n value with ⟨said, j, hsaid, -, -⟩ | ⟨-, hset⟩
      · cases hbad.symm.trans hsaid
      · simp [store, hfree, hset]
    | later hfree htaken _ ih => simp [store, hfree, htaken, ih]

/-! ## All that is given -/

/-- What the options say, as entries. -/
def entries (i : Invocation) : List Entry :=
  OptionName.all.filterMap fun n => (i.value? n).map (n, ·)

theorem mem_entries_iff {said : String} : (n, said) ∈ i.entries ↔ i.value? n = some said := by
  simp only [entries, List.mem_filterMap, Option.map_eq_some_iff, Prod.mk.injEq]
  constructor
  · rintro ⟨_, -, _, h, rfl, rfl⟩
    exact h
  · intro h
    exact ⟨n, n.mem_all, said, h, rfl, rfl⟩

theorem map_fst_entries (i : Invocation) :
    i.entries.map Prod.fst = OptionName.all.filter fun n => (i.value? n).isSome := by
  unfold entries
  induction OptionName.all with
  | nil => rfl
  | cons n rest ih =>
    cases hn : i.value? n <;> simp [List.filterMap, List.filter, hn, ih]

theorem said?_of_value? {said : String} (h : i.value? n = some said) : n.said? said = some said := by
  have hnumber {x : Option UInt64} (hx : x.map numeral = some said) :
      (number? said).map numeral = some said := by
    obtain ⟨w, -, rfl⟩ := Option.map_eq_some_iff.1 hx
    rw [number?_numeral, Option.map_some]
  cases n with
  | blob o =>
    cases o with
    | root | commitment => rfl
    | epoch | quorum => exact hnumber h
  | maxOngoing | verifyThreads | payloadLimit => exact hnumber h
  | help =>
    obtain ⟨-, rfl⟩ : i.help = true ∧ "" = said := by simpa [value?] using h
    rfl
  | _ => rfl

theorem value?_empty (n : OptionName) : empty.value? n = none := by
  cases n with
  | blob o => cases o <;> rfl
  | _ => rfl

/-- Entries that are left out leave their options without a value; the others are read as they were
spelled out. -/
theorem exists_ofEntries_filter (i : Invocation) (keep : OptionName → Bool) :
    ∃ j, ofEntries (i.entries.filter fun e => keep e.1) = .ok j ∧
      ∀ n, j.value? n = if keep n then i.value? n else none := by
  have hmem {e : Entry} : e ∈ (i.entries.filter fun e => keep e.1) ↔
      i.value? e.1 = some e.2 ∧ keep e.1 = true := by
    rw [List.mem_filter]
    exact and_congr_left' mem_entries_iff
  have honce : ((i.entries.filter fun e => keep e.1).map Prod.fst).Nodup := by
    refine List.Nodup.sublist (List.filter_sublist.map _) ?_
    rw [map_fst_entries]
    exact List.Nodup.filter _ (by decide)
  obtain ⟨j, hj⟩ := exists_store_iff.2 ⟨⟨honce, fun e _ => by rw [gives_eq, value?_empty]; rfl⟩,
    fun e he => Option.isSome_of_eq_some (said?_of_value? (hmem.1 he).1)⟩
  obtain ⟨-, hentry, hother⟩ := store_eq_ok_iff.1 hj
  refine ⟨j, hj, fun n => ?_⟩
  by_cases hn : n ∈ (i.entries.filter fun e => keep e.1).map Prod.fst
  · obtain ⟨e, he, rfl⟩ := List.mem_map.1 hn
    obtain ⟨hvalue, hkept⟩ := hmem.1 he
    obtain ⟨said, hsaid, hj'⟩ := hentry e he
    rw [hj', if_pos hkept, hvalue, ← hsaid, said?_of_value? hvalue]
  · rw [hother n hn, value?_empty]
    split
    · rename_i hkept
      cases hvalue : i.value? n with
      | none => rfl
      | some said => exact absurd (List.mem_map.2 ⟨(n, said), hmem.2 ⟨hvalue, hkept⟩, rfl⟩) hn
    · rfl

/-- What is spelled out entry by entry is read as it was. -/
theorem ofEntries_entries (i : Invocation) : ofEntries i.entries = .ok i := by
  obtain ⟨j, hj, hvalue⟩ := exists_ofEntries_filter i fun _ => true
  obtain rfl : j = i := ext_value fun n => by rw [hvalue, if_pos rfl]
  rwa [List.filter_eq_self.2 fun _ _ => rfl] at hj

end Invocation

/-! ## Options in layers -/

/-- These options, and nothing to do. -/
def Options.alone (o : Options) : Invocation := ⟨false, none, o⟩

namespace Invocation

theorem value?_alone (i : Invocation) (n : OptionName) :
    i.options.alone.value? n = if n = .help ∨ n = .command then none else i.value? n := by
  cases n with
  | blob o => cases o <;> rfl
  | _ => rfl

/-- An option of the upper layer has its value from there. -/
theorem value?_above (upper lower : Options) (n : OptionName) :
    (upper.above lower).alone.value? n = (upper.alone.value? n).or (lower.alone.value? n) := by
  cases n with
  | blob o => cases o <;> simp [value?, Options.alone, Options.above, Option.map_or]
  | help | command => rfl
  | _ => simp [value?, Options.alone, Options.above, BlobSigner.Options.above, Option.map_or]

end Invocation

end BlobSigner.Tool
