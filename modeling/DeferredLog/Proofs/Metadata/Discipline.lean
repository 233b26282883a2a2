import DeferredLog.Check.Firmware
import DeferredLog.Proofs.Display.Memory
import DeferredLog.Proofs.Metadata.Steps
import DeferredLog.Proofs.Table.Defects

/-!
# What building a table can end in

Whatever an image holds, building its table ends in a table whose formats and crates are texts, or in a
fault of the table, with these exceptions, which are `Flaw`s of single fields:

- a symbol's metadata may state a format, a tag or a crate that is no text;
- a key of the records may start with a digit, or occur twice;
- a line number may hold digits without a decimal value, such as superscripts.

Nothing else can happen, and a check of the image makes a report unless one of these is met:

    Gives image.Accounts (fun t => ∀ e ∈ t.entries, image.Accepts e)
        (image.build supported maxDepth).1 ∧
      Gives image.Excuses (fun _ => True) image.inspect                        (build_discipline)

The version that is supported has to be one, and the locations have to be readable.
-/

namespace DeferredLog

open Recovering

/-- The format and the crate of an entry are texts; its tag always is. -/
def Entry.HasTexts (e : Entry) : Prop := (∃ s, e.format = .string s) ∧ ∃ s, e.crate = .string s

namespace RecordLayout

variable {seen : List (List Char)} {keys : List Key} {key : Key}

/-- A key that a digit starts, or one of the same name as a key before it. -/
def Unusable (before : List Key) (key : Key) : Prop :=
  key.name.head?.any Char.isDigit = true ∨ key.name ∈ before.map Key.name

theorem split_of_unusable? (h : unusable? seen keys = some key) :
    ∃ before after, keys = before ++ key :: after ∧
      (key.name ∈ seen ∨ Unusable before key) := by
  induction keys generalizing seen with
  | nil => cases h
  | cons first rest ih =>
    rw [unusable?] at h
    split at h
    · next hfirst =>
      obtain rfl := Option.some.inj h
      rw [Bool.or_eq_true, List.contains_iff_mem] at hfirst
      exact ⟨[], rest, rfl, hfirst.symm.imp_right .inl⟩
    · obtain ⟨before, after, rfl, hkey⟩ := ih h
      refine ⟨first :: before, after, rfl, ?_⟩
      rcases hkey with hseen | hdigit | hbefore
      · rcases List.mem_cons.mp hseen with hname | hseen
        · exact .inr (.inr (by rw [hname]; exact List.mem_cons_self))
        · exact .inl hseen
      · exact .inr (.inl hdigit)
      · exact .inr (.inr (List.mem_cons_of_mem _ hbefore))

theorem malformed_of_readKeys {texts : List (List Char)} {fault : RecoveryFault}
    (h : readKeys texts = .error fault) : ∃ key, fault = .malformedKey key := by
  induction texts with
  | nil => cases h
  | cons text rest ih =>
    rw [readKeys] at h
    cases hkey : key? text with
    | none =>
      rw [hkey] at h
      exact ⟨_, (Except.error.inj h).symm⟩
    | some key =>
      rw [hkey] at h
      cases hrest : readKeys rest with
      | ok keys =>
        rw [hrest] at h
        cases h
      | error fault' =>
        rw [hrest] at h
        exact ih (hrest.trans h)

/-- A line that is written in digits without all of them having a decimal value. -/
def BadLine (line : String) : Prop :=
  (∀ c ∈ line.toList, Text.isDigitLike c = true) ∧ ∃ c ∈ line.toList, Text.isDigit c = false

theorem lineNumber_eq_error {line : String} {fault : RecoveryFault}
    (h : lineNumber line = .error fault) : BadLine line ∧ fault = .lineNumber line := by
  simp only [lineNumber] at h
  split at h
  · cases h
  · next hdigits =>
    simp only [Bool.or_eq_true, not_or, Bool.not_eq_true, Bool.not_eq_false'] at hdigits
    obtain ⟨hnonempty, hlike⟩ := hdigits
    rw [Text.decimal?, hnonempty] at h
    by_cases hall : line.toList.all Text.isDigit = true
    · rw [hall] at h
      cases h
    · have hall' : line.toList.all Text.isDigit = false := by simpa using hall
      rw [hall'] at h
      refine ⟨⟨by simpa using hlike, by simpa using hall'⟩, (Except.error.inj h).symm⟩

theorem location_eq_error {fs : Fields} {fault : RecoveryFault} (h : location fs = .error fault) :
    BadLine (field "line" fs) ∧ fault = .lineNumber (field "line" fs) := by
  simp only [location] at h
  split at h
  · cases h
  · cases hline : lineNumber (field "line" fs) with
    | ok line =>
      rw [hline] at h
      cases h
    | error cause =>
      rw [hline] at h
      obtain rfl := Except.error.inj h
      exact lineNumber_eq_error hline

theorem levelAndTag_gives (offset : Nat) (name : String) :
    Gives (fun fault => fault.kind = .noTable) (fun _ => True) (levelAndTag offset name) := by
  unfold levelAndTag
  split_ifs
  · exact .ok trivial
  · exact .ok trivial
  · cases Level.named name with
    | ok level => exact .ok trivial
    | error message => exact .error rfl

end RecordLayout

namespace Image

variable {image : Image}

/-! ## Flaws -/

/-- A format symbol at the address has metadata that states these. -/
def States (image : Image) (address : Nat) (format tag crate : Json) : Prop :=
  ∃ s ∈ SymbolLayout.candidates image.symbols,
    s.address = address ∧ SymbolLayout.metadata? s.name = some (format, tag, crate)

/-- The image has the record layout, with these bytes in its section and these keys in their header. -/
def HasKeys (image : Image) (data : List UInt8) (keys : List RecordLayout.Key) : Prop :=
  image.symbols.any isFormatSymbol = false ∧ image.sectionData? recordSection = some data ∧
    ∃ texts, (RecordLayout.header data).keys = some texts ∧ RecordLayout.readKeys texts = .ok keys

/-- The flaws of single fields, each with the fault that it is met as. -/
inductive Flaw (image : Image) : RecoveryFault → Prop
  | tag {address : Nat} {format tag crate : Json} (hstates : image.States address format tag crate)
      (htag : tag.text? = none) : Flaw image .tagNotText
  | key {data : List UInt8} {before after : List RecordLayout.Key} {key : RecordLayout.Key}
      (hkeys : image.HasKeys data (before ++ key :: after))
      (hkey : RecordLayout.Unusable before key) : Flaw image (.unusableKey (String.ofList key.name))
  | line {data : List UInt8} {keys : List RecordLayout.Key} {record : Nat × List UInt8} {text : String}
      {fs : RecordLayout.Fields} (hkeys : image.HasKeys data keys)
      (hrecord : record ∈ RecordLayout.records data) (htext : Text.Utf8.decode record.2 = .ok text)
      (hfields : RecordLayout.fields? keys text.toList = some fs)
      (hline : RecordLayout.BadLine (RecordLayout.field "line" fs)) :
      Flaw image (.lineNumber (RecordLayout.field "line" fs))

/-- A flaw is not reported as a fault of the table. -/
theorem Flaw.not_isReported {fault : RecoveryFault} (h : image.Flaw fault) :
    fault.isReported = false := by
  cases h <;> rfl

/-- The faults that building a table of the image can end in. -/
def Accounts (image : Image) (fault : RecoveryFault) : Prop :=
  fault.IsTableFault ∨ image.Flaw fault

/-- The entries that a table of the image can have: what is no text is stated so by a symbol. -/
def Accepts (image : Image) (e : Entry) : Prop :=
  e.HasTexts ∨ image.States e.index e.format (.string e.tag) e.crate

/-! ## Entries -/

theorem entry_gives_of_symbol (rs : List SymbolLayout.LevelRange) {s : ImageSymbol}
    (hs : s ∈ SymbolLayout.candidates image.symbols) :
    Gives image.Accounts image.Accepts (SymbolLayout.entry rs s) := by
  unfold SymbolLayout.entry
  cases hm : SymbolLayout.metadata? s.name with
  | none => exact .ok (.inl ⟨⟨_, rfl⟩, ⟨_, rfl⟩⟩)
  | some m =>
    obtain ⟨format, tag, crate⟩ := m
    cases tag
    case string => exact .ok (.inr ⟨s, hs, rfl, hm⟩)
    all_goals exact .error (.inr (.tag ⟨s, hs, rfl, hm⟩ rfl))

theorem recordKeys_gives {data : List UInt8} (hlayout : image.symbols.any isFormatSymbol = false)
    (hdata : image.sectionData? recordSection = some data) :
    Gives image.Accounts (image.HasKeys data) (RecordLayout.recordKeys data) := by
  unfold RecordLayout.recordKeys RecordLayout.usableKeys
  cases htexts : (RecordLayout.header data).keys with
  | none => exact .error (.inl (.inl rfl))
  | some texts =>
    dsimp only
    split
    · exact .error (.inl (.inl rfl))
    · cases hread : RecordLayout.readKeys texts with
      | error fault =>
        obtain ⟨key, rfl⟩ := RecordLayout.malformed_of_readKeys hread
        exact .error (.inl (.inl rfl))
      | ok keys =>
        have hkeys : image.HasKeys data keys := ⟨hlayout, hdata, texts, htexts, hread⟩
        dsimp only
        cases hunusable : RecordLayout.unusable? [] keys with
        | none => exact .ok hkeys
        | some key =>
          obtain ⟨before, after, rfl, hseen | hkey⟩ := RecordLayout.split_of_unusable? hunusable
          · cases hseen
          · exact .error (.inr (.key hkeys hkey))

theorem entry_gives_of_record {data : List UInt8} {keys : List RecordLayout.Key}
    (hkeys : image.HasKeys data keys) (crate : String) {record : Nat × List UInt8}
    (hrecord : record ∈ RecordLayout.records data) :
    Gives image.Accounts image.Accepts (RecordLayout.entry keys crate record) := by
  unfold RecordLayout.entry
  cases htext : Text.Utf8.decode record.2 with
  | error fault => exact .error (.inl (.inl rfl))
  | ok text =>
    dsimp only
    cases hfields : RecordLayout.fields? keys text.toList with
    | none => exact .error (.inl (.inl rfl))
    | some fs =>
      dsimp only
      unfold RecordLayout.entryOfFields
      have hlevel := RecordLayout.levelAndTag_gives record.1 (RecordLayout.field "level" fs)
      generalize RecordLayout.levelAndTag record.1 (RecordLayout.field "level" fs) = level at hlevel ⊢
      cases hlevel with
      | error hfault => exact .error (.inl (.inl hfault))
      | ok _ =>
        dsimp only
        cases hplace : RecordLayout.location fs with
        | ok place => exact .ok (.inl ⟨⟨_, rfl⟩, ⟨_, rfl⟩⟩)
        | error fault =>
          obtain ⟨hline, rfl⟩ := RecordLayout.location_eq_error hplace
          exact .error (.inr (.line hkeys hrecord htext hfields hline))

end Image

/-! ## Reports -/

namespace Table

variable {t : Table}

/-- If all formats are texts, an entry is only unusable for what its format, or one that it leads to,
says. -/
theorem isFormatFault_of_freshFormat (ht : t.HasTextFormats) {e : Entry} (he : e ∈ t.entries)
    {fault : Fault} (h : t.freshFormat e.index = .error fault) : fault.isFormatFault = true := by
  rcases (freshFormat_eq_error_iff ht).mp h with ⟨hnone, -⟩ | ⟨d, -, rfl⟩
  · rw [mem_entries_iff.mp he] at hnone
    cases hnone
  · cases d <;> rfl

theorem exists_freshFindings (ht : t.HasTextFormats) {es : List Entry} (hes : ∀ e ∈ es, e ∈ t.entries) :
    ∃ found, t.freshFindings es = .ok found := by
  induction es with
  | nil => exact ⟨[], rfl⟩
  | cons e es ih =>
    obtain ⟨found, hfound⟩ := ih fun x hx => hes x (List.mem_cons_of_mem _ hx)
    have hfinding : ∃ finding, t.freshFinding? e = .ok finding := by
      unfold freshFinding?
      cases hf : t.freshFormat e.index with
      | ok f => exact ⟨_, rfl⟩
      | error fault =>
        dsimp only
        rw [if_pos (isFormatFault_of_freshFormat ht (hes e List.mem_cons_self) hf)]
        exact ⟨_, rfl⟩
    obtain ⟨finding, hfinding⟩ := hfinding
    rw [freshFindings, hfinding, hfound]
    cases finding <;> exact ⟨_, rfl⟩

/-- A table that cannot be checked has a format that is no text. -/
theorem exists_of_check_eq_error {fault : Fault} {cache : FormatCache}
    (h : t.check {} = .error fault cache) : ∃ e ∈ t.entries, e.format.text? = none := by
  by_contra hall
  have ht : t.HasTextFormats := hasTextFormats_of_entries fun e he => by
    cases hf : e.format.text? with
    | some s => rfl
    | none => exact absurd ⟨e, he, hf⟩ hall
  obtain ⟨found, hfound⟩ := exists_freshFindings ht fun e he => he
  have hresult := (t.check_agrees {} .nothing).1
  rw [hfound] at hresult
  unfold Cached.result at hresult
  rw [h] at hresult
  cases hresult

end Table

namespace Image

variable {image : Image}

/-- Why an image may have no report: a flaw that ends the recovery, or a format that is no text. -/
def Excuses (image : Image) : InspectionFault → Prop
  | .unreadable _ => False
  | .recovery cause => image.Flaw cause
  | .formats _ => ∃ address format tag crate,
      image.States address format tag crate ∧ format.text? = none

/-! ## Building and checking -/

theorem build_gives (supported : String) (maxDepth : Nat)
    (hsupported : (Version.parse? supported).isSome = true) (hlocations : image.locationFault = none) :
    Gives image.Accounts (fun t => ∀ e ∈ t.entries, image.Accepts e)
      (image.build supported maxDepth).1 := by
  have hrecover := recover_ends (E := image.Accounts) (P := image.Accepts) (fun _ h => .inl h)
    (fun _ _ h => h) (fun rs s hs => entry_gives_of_symbol rs hs)
    (fun hlayout data hdata => ?_) hsupported hlocations maxDepth
  · unfold EndsIn at hrecover
    unfold build
    cases hr : image.recover supported maxDepth Recovery.empty with
    | ok t r =>
      rw [hr] at hrecover
      exact .ok hrecover
    | error fault r =>
      rw [hr] at hrecover
      exact .error hrecover
  · have hkeys := recordKeys_gives hlayout hdata
    cases hk : RecordLayout.recordKeys data with
    | error fault =>
      rw [hk, gives_error_iff] at hkeys
      exact .error hkeys
    | ok keys =>
      rw [hk, gives_ok_iff] at hkeys
      exact .ok fun record hrecord => entry_gives_of_record hkeys _ hrecord

theorem inspect_gives (hlocations : image.locationFault = none) :
    Gives image.Excuses (fun _ => True) image.inspect := by
  have hbuild : Gives image.Accounts (fun t => ∀ e ∈ t.entries, image.Accepts e)
      (image.build Version.wireFormat Table.defaultMaxDepth).1 :=
    build_gives Version.wireFormat Table.defaultMaxDepth (by cbv) hlocations
  unfold inspect
  cases hb : image.build Version.wireFormat Table.defaultMaxDepth with
  | mk result recovery =>
    replace hbuild : Gives image.Accounts (fun t => ∀ e ∈ t.entries, image.Accepts e) result := by
      rwa [hb] at hbuild
    cases hbuild with
    | error hcause =>
      rcases hcause with hfault | hflaw
      · dsimp only
        rw [if_pos hfault.isReported]
        exact .ok trivial
      · dsimp only
        rw [hflaw.not_isReported]
        exact .error hflaw
    | @ok t hentries =>
      dsimp only
      cases hc : t.check {} with
      | ok report cache => exact .ok trivial
      | error fault cache =>
        obtain ⟨e, he, hnotext⟩ := Table.exists_of_check_eq_error hc
        rcases hentries e he with ⟨⟨s, hs⟩, -⟩ | hstates
        · rw [hs] at hnotext
          cases hnotext
        · exact .error ⟨_, _, _, _, hstates, hnotext⟩

/-- An image of symbols and nothing else. -/
def ofSymbols (symbols : List ImageSymbol) : Image where
  symbols := symbols
  symbolRecords := []
  sections := []
  locations := []
  locationFault := none
  locationRecords := []

/-- An image of a record section and nothing else. -/
def ofSection (text : String) : Image :=
  { ofSymbols [] with sections := [(recordSection, Text.Utf8.encode text)] }

/-- The group of the fault that building a table ends in. -/
def failure? (image : Image) : Option RecoveryFault.Kind :=
  match (image.build Version.wireFormat Table.defaultMaxDepth).1 with
  | .ok _ => none
  | .error cause => some cause.kind

theorem failure?_eq_none (h : image.failure? = none) :
    ∃ t, (image.build Version.wireFormat Table.defaultMaxDepth).1 = .ok t := by
  unfold failure? at h
  cases hb : (image.build Version.wireFormat Table.defaultMaxDepth).1 with
  | ok t => exact ⟨t, rfl⟩
  | error cause =>
    rw [hb] at h
    cases h

theorem failure?_eq_some {kind : RecoveryFault.Kind} (h : image.failure? = some kind) :
    ∃ cause, (image.build Version.wireFormat Table.defaultMaxDepth).1 = .error cause ∧
      cause.kind = kind := by
  unfold failure? at h
  cases hb : (image.build Version.wireFormat Table.defaultMaxDepth).1 with
  | ok t =>
    rw [hb] at h
    cases h
  | error cause =>
    rw [hb] at h
    exact ⟨cause, rfl, Option.some.inj h⟩

theorem inspect_of_build_eq_error {cause : RecoveryFault}
    (h : (image.build Version.wireFormat Table.defaultMaxDepth).1 = .error cause)
    (hcause : cause.isReported = false) : image.inspect = .error (.recovery cause) := by
  unfold inspect
  cases hb : image.build Version.wireFormat Table.defaultMaxDepth with
  | mk result recovery =>
    rw [hb] at h
    obtain rfl : result = .error cause := h
    simp [hcause]

/-- **What building a table can end in.** With a supported version that is one and readable locations,
building ends in a table of texts or in a fault of the table, and a check makes a report, unless a flaw of
the image is met: a text that metadata states otherwise, an unusable key, or a line number that is none. -/
theorem build_discipline (image : Image) (supported : String) (maxDepth : Nat)
    (hsupported : (Version.parse? supported).isSome = true) (hlocations : image.locationFault = none) :
    Gives image.Accounts (fun t => ∀ e ∈ t.entries, image.Accepts e)
      (image.build supported maxDepth).1 ∧
      Gives image.Excuses (fun _ => True) image.inspect :=
  ⟨build_gives supported maxDepth hsupported hlocations, inspect_gives hlocations⟩

/-- A log statement and a timestamp format with metadata, and a format without. -/
def metadataSample : Image := ofSymbols
  [⟨"_defmt_version_ = 0.2.1", 0, none⟩,
   ⟨"\x7b\"package\":\"app\",\"tag\":\"defmt_info\",\"data\":\"x=\x7b=u8\x7d\"\x7d",
    1, some symbolSection⟩,
   ⟨"\x7b\"tag\":\"defmt_timestamp\",\"data\":\"\x7b=u32:us\x7d\"\x7d", 2, some symbolSection⟩,
   ⟨"low on memory", 3, some symbolSection⟩]

theorem build_discipline_metadata :
    (Version.parse? Version.wireFormat).isSome = true ∧ metadataSample.locationFault = none ∧
      (∃ t, (metadataSample.build Version.wireFormat Table.defaultMaxDepth).1 = .ok t ∧
        ∀ e ∈ t.entries, metadataSample.Accepts e) ∧
      Gives metadataSample.Excuses (fun _ => True) metadataSample.inspect := by
  have hversion : (Version.parse? Version.wireFormat).isSome = true := by cbv
  obtain ⟨hbuild, hinspect⟩ :=
    build_discipline metadataSample Version.wireFormat Table.defaultMaxDepth hversion rfl
  have hfailure : metadataSample.failure? = none := by decide +kernel
  obtain ⟨t, ht⟩ := failure?_eq_none hfailure
  rw [ht, gives_ok_iff] at hbuild
  exact ⟨hversion, rfl, ⟨t, ht, hbuild⟩, hinspect⟩

/-- A record whose line number is a superscript. -/
def superscriptLine : Image :=
  ofSection "DEFMT=0.2.1,KEYS=<level>:<file>:<line>:<msg>\x00info:a.rs:²:hi\x00"

/-- A superscript for a line number is no fault of the table, so there is no report on it either. -/
theorem build_superscriptLine :
    ∃ cause, (superscriptLine.build Version.wireFormat Table.defaultMaxDepth).1 = .error cause ∧
      cause.kind = .lineNumber ∧ ¬ cause.IsTableFault ∧
      superscriptLine.inspect = .error (.recovery cause) := by
  have hfailure : superscriptLine.failure? = some .lineNumber := by decide +kernel
  obtain ⟨cause, hbuild, hkind⟩ := failure?_eq_some hfailure
  refine ⟨cause, hbuild, hkind, ?_, inspect_of_build_eq_error hbuild ?_⟩
  · simp [RecoveryFault.IsTableFault, hkind]
  · simp [RecoveryFault.isReported, hkind]

example : (ofSection "DEFMT=0.2.1,KEYS=<level>:<msg>:<msg>\x00").failure? = some .unusableKey := by
  decide +kernel

example : (ofSymbols [⟨"_defmt_version_ = 0.2.1", 0, none⟩,
    ⟨"\x7b\"tag\":5,\"data\":\"hi\"\x7d", 1, some symbolSection⟩]).failure? = some .tagNotText := by
  decide +kernel

end Image

end DeferredLog
