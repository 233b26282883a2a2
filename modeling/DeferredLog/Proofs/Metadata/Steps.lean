import DeferredLog.Metadata.Build
import DeferredLog.Proofs.Table.Building

/-!
# Reasoning about recoveries

`EndsIn E Q x r` says how a recovery may end that has come to `r`: with a result and a state in `Q`, or
with a fault in `E`. It goes through sequences of steps, and every step has one lemma that says what it
does to the state.

`Recovery.Sound P` is the invariant of all steps: whatever was recovered so far has the property `P`, and
the timestamp format is one of the entries. Entries that are made without a fault are added as they are,
as long as there is one timestamp format at most (`addEach_append`).
-/

namespace DeferredLog

/-- A result with `P`, or a cause with `E`. -/
inductive Gives {ε α : Type} (E : ε → Prop) (P : α → Prop) : Except ε α → Prop
  | ok {a : α} (h : P a) : Gives E P (.ok a)
  | error {cause : ε} (h : E cause) : Gives E P (.error cause)

@[simp] theorem gives_ok_iff {ε α : Type} {E : ε → Prop} {P : α → Prop} {a : α} :
    Gives E P (.ok a) ↔ P a :=
  ⟨fun h => by cases h; assumption, .ok⟩

@[simp] theorem gives_error_iff {ε α : Type} {E : ε → Prop} {P : α → Prop} {cause : ε} :
    Gives E P (.error cause) ↔ E cause :=
  ⟨fun h => by cases h; assumption, .error⟩

/-- What has been recovered has a property, and the timestamp format is among it. -/
structure Recovery.Sound (P : Entry → Prop) (r : Recovery) : Prop where
  entries : ∀ e ∈ r.entries, P e
  timestamp : ∀ i, r.timestamp = some i → ∃ e ∈ r.entries, e.index = i

/-- Whether an entry is a timestamp format. -/
def Entry.isTimestamp (e : Entry) : Bool := e.tag = Recovering.timestampTag

/-- The index of the timestamp format among entries. -/
def timestampIndex? (es : List Entry) : Option Nat := (es.find? Entry.isTimestamp).map Entry.index

/-- What is recovered once entries have been added. -/
def Recovery.adding (r : Recovery) (es : List Entry) : Recovery :=
  { r with entries := r.entries ++ es, timestamp := r.timestamp.or (timestampIndex? es) }

@[simp] theorem Recovery.adding_nil (r : Recovery) : r.adding [] = r := by
  simp [adding, timestampIndex?]

@[simp] theorem Recovery.adding_adding (r : Recovery) (es fs : List Entry) :
    (r.adding es).adding fs = r.adding (es ++ fs) := by
  unfold adding timestampIndex?
  rw [List.append_assoc, Option.or_assoc, List.find?_append, Option.map_or]

namespace Recovering

variable {α β : Type} {E : RecoveryFault → Prop} {P : Entry → Prop} {r : Recovery}

/-! ## How recoveries end -/

/-- From `r` on, a recovery ends with a result and a state in `Q`, or with a fault in `E`. -/
def EndsIn (E : RecoveryFault → Prop) (Q : α → Recovery → Prop) (x : Recovering α) (r : Recovery) :
    Prop :=
  match x r with
  | .ok a r' => Q a r'
  | .error fault _ => E fault

namespace EndsIn

variable {x : Recovering α} {f : α → Recovering β} {Q : α → Recovery → Prop}
  {R : β → Recovery → Prop}

theorem pure {a : α} (h : Q a r) : EndsIn E Q (Pure.pure a) r := h

theorem fail {fault : RecoveryFault} (h : E fault) : EndsIn E Q (Recovering.fail fault) r := h

theorem of_ok {a : α} {r' : Recovery} (hx : x r = .ok a r') (h : Q a r') : EndsIn E Q x r := by
  unfold EndsIn
  rwa [hx]

theorem of_error {fault : RecoveryFault} {r' : Recovery} (hx : x r = .error fault r') (h : E fault) :
    EndsIn E Q x r := by
  unfold EndsIn
  rwa [hx]

theorem bind (hx : EndsIn E Q x r) (hf : ∀ a r', Q a r' → EndsIn E R (f a) r') :
    EndsIn E R (x >>= f) r := by
  show EndsIn E R (EStateM.bind x f) r
  simp only [EndsIn, EStateM.bind] at hx ⊢
  cases hxr : x r with
  | ok a r' =>
    rw [hxr] at hx
    exact hf a r' hx
  | error fault r' =>
    rw [hxr] at hx
    exact hx

theorem imp {Q' : α → Recovery → Prop} (hx : EndsIn E Q x r) (h : ∀ a r', Q a r' → Q' a r') :
    EndsIn E Q' x r := by
  unfold EndsIn at hx ⊢
  cases hxr : x r with
  | ok a r' =>
    rw [hxr] at hx
    exact h a r' hx
  | error fault r' =>
    rw [hxr] at hx
    exact hx

end EndsIn

/-! ## Steps -/

theorem report_ends (hr : r.Sound P) (records : List Log.Record) :
    EndsIn E (fun _ r' => r'.Sound P) (report records) r :=
  show Recovery.Sound P _ from ⟨hr.entries, hr.timestamp⟩

theorem noteVersion_ends (hr : r.Sound P) (version : String) :
    EndsIn E (fun _ r' => r'.Sound P) (noteVersion version) r :=
  show Recovery.Sound P _ from ⟨hr.entries, hr.timestamp⟩

theorem addEntry_ends (hr : r.Sound P) {e : Entry} (he : P e) (hsecond : E .secondTimestamp) :
    EndsIn E (fun _ r' => r'.Sound P) (addEntry e) r := by
  have hentries : ∀ x ∈ r.entries ++ [e], P x := by
    intro x hx
    rcases List.mem_append.mp hx with hx | hx
    · exact hr.entries x hx
    · rwa [List.mem_singleton.mp hx]
  unfold EndsIn addEntry
  by_cases htag : e.tag = timestampTag
  · rw [if_pos htag]
    cases hstamp : r.timestamp with
    | some i => exact hsecond
    | none =>
      refine ⟨hentries, fun i hi => ⟨e, by simp, Option.some.inj hi⟩⟩
  · rw [if_neg htag]
    refine ⟨hentries, fun i hi => ?_⟩
    obtain ⟨x, hx, hindex⟩ := hr.timestamp i hi
    exact ⟨x, List.mem_append_left _ hx, hindex⟩

/-- Entries that are made one after the other are all as the making promises. -/
theorem addEach_ends {make : α → Except RecoveryFault Entry} {as : List α}
    (hmake : ∀ a ∈ as, Gives E P (make a)) (hsecond : E .secondTimestamp) (hr : r.Sound P) :
    EndsIn E (fun _ r' => r'.Sound P) (addEach make as) r := by
  induction as generalizing r with
  | nil => exact .pure hr
  | cons a as ih =>
    have ha := hmake a List.mem_cons_self
    unfold addEach
    cases hm : make a with
    | error fault =>
      rw [hm, gives_error_iff] at ha
      exact .fail ha
    | ok e =>
      rw [hm, gives_ok_iff] at ha
      refine (addEntry_ends hr ha hsecond).bind fun _ r' hr' => ?_
      exact ih (fun b hb => hmake b (List.mem_cons_of_mem _ hb)) hr'

/-! ## Steps of which the outcome is known -/

section
variable {x : Recovering α} {f : α → Recovering β} {r' : Recovery}

theorem bind_eq_of_ok {a : α} (h : x r = .ok a r') : (x >>= f) r = f a r' := by
  show EStateM.bind x f r = f a r'
  rw [EStateM.bind, h]

theorem bind_eq_of_error {fault : RecoveryFault} (h : x r = .error fault r') :
    (x >>= f) r = .error fault r' := by
  show EStateM.bind x f r = .error fault r'
  rw [EStateM.bind, h]

end

/-- A timestamp format is added if there is none yet, any other entry always. -/
theorem addEntry_eq_ok {e : Entry} (hstamp : e.isTimestamp = true → r.timestamp = none) :
    addEntry e r = .ok () (r.adding [e]) := by
  unfold addEntry Recovery.adding timestampIndex?
  by_cases he : e.tag = timestampTag
  · have hnone := hstamp (decide_eq_true he)
    rw [if_pos he, if_neg (by simp [hnone]), hnone]
    simp [Entry.isTimestamp, he]
  · rw [if_neg he]
    simp [Entry.isTimestamp, he]

theorem addEach_map {γ : Type} (make : α → Except RecoveryFault Entry) (f : γ → α) (cs : List γ) :
    addEach make (cs.map f) = addEach (fun c => make (f c)) cs := by
  induction cs with
  | nil => rfl
  | cons c cs ih => rw [List.map_cons, addEach, addEach, ih]

/-- Entries that can all be made are added in their order, if at most one of them and of those before is
a timestamp format. -/
theorem addEach_append {make : α → Except RecoveryFault Entry} {g : α → Entry} {as bs : List α}
    (hmake : ∀ a ∈ as, make a = .ok (g a))
    (hstamps : r.timestamp.toList.length + (as.map g).countP Entry.isTimestamp ≤ 1) :
    addEach make (as ++ bs) r = addEach make bs (r.adding (as.map g)) := by
  induction as generalizing r with
  | nil => rw [List.nil_append, List.map_nil, Recovery.adding_nil]
  | cons a as ih =>
    rw [List.map_cons, List.countP_cons] at hstamps
    have hfirst : addEntry (g a) r = .ok () (r.adding [g a]) := by
      refine addEntry_eq_ok fun ha => ?_
      rw [if_pos ha] at hstamps
      have hlength : r.timestamp.toList.length = 0 := by omega
      simpa using hlength
    have hrest : (r.adding [g a]).timestamp.toList.length +
        (as.map g).countP Entry.isTimestamp ≤ 1 := by
      by_cases ha : (g a).isTimestamp = true
      · rw [if_pos ha] at hstamps
        have hone : (r.adding [g a]).timestamp.toList.length ≤ 1 := by
          cases (r.adding [g a]).timestamp <;> simp
        omega
      · rw [if_neg ha] at hstamps
        have hsame : (r.adding [g a]).timestamp = r.timestamp := by
          simp [Recovery.adding, timestampIndex?, ha]
        rw [hsame]
        omega
    rw [List.cons_append, addEach, hmake a List.mem_cons_self]
    refine (bind_eq_of_ok hfirst).trans ?_
    rw [ih (fun b hb => hmake b (List.mem_cons_of_mem _ hb)) hrest, Recovery.adding_adding]
    rfl

/-- Every entry that is made stays among the entries. -/
theorem addEach_adds (make : α → Except RecoveryFault Entry) (as : List α) (r : Recovery) :
    EndsIn (fun _ => True)
      (fun _ r' => (∀ e ∈ r.entries, e ∈ r'.entries) ∧ ∀ a ∈ as, ∃ e ∈ r'.entries, make a = .ok e)
      (addEach make as) r := by
  induction as generalizing r with
  | nil => exact .pure ⟨fun _ he => he, fun _ ha => absurd ha List.not_mem_nil⟩
  | cons a as ih =>
    unfold addEach
    cases ha : make a with
    | error fault => exact .fail trivial
    | ok e =>
      have hfirst : EndsIn (fun _ => True) (fun _ r' => ∀ x ∈ r.entries ++ [e], x ∈ r'.entries)
          (addEntry e) r := by
        unfold EndsIn addEntry
        by_cases htag : e.tag = timestampTag
        · rw [if_pos htag]
          cases r.timestamp with
          | some i => exact trivial
          | none => exact fun _ hx => hx
        · rw [if_neg htag]
          exact fun _ hx => hx
      refine hfirst.bind fun _ r' hr' => (ih r').imp fun _ r'' hr'' => ?_
      refine ⟨fun x hx => hr''.1 x (hr' x (List.mem_append_left _ hx)), fun b hb => ?_⟩
      rcases List.mem_cons.mp hb with rfl | hb
      · exact ⟨e, hr''.1 e (hr' e (by simp)), ha⟩
      · exact hr''.2 b hb

end Recovering

/-! ## Causes that make no table -/

/-- A cause for which no table is built: the image holds none, one of another wire format, or one that
claims an index twice. -/
def RecoveryFault.IsTableFault (fault : RecoveryFault) : Prop :=
  fault.kind = .noTable ∨ fault.kind = .incompatible ∨ fault.kind = .duplicateIndex

theorem RecoveryFault.IsTableFault.isReported {fault : RecoveryFault} (h : fault.IsTableFault) :
    fault.isReported = true := by
  rcases h with h | h | h <;> simp [RecoveryFault.isReported, h]

section

open Recovering

variable {E : RecoveryFault → Prop} {P : Entry → Prop} {r : Recovery} {image : Image}
  {supported : String}

/-! ## The symbol layout -/

namespace SymbolLayout

/-- Ranges are refused for a level of which an edge is missing. -/
theorem ranges_gives (es : List Edges) :
    Gives (fun fault => ∃ e ∈ es, (e.start = none ∨ e.finish = none) ∧
      fault = .incompleteMarkers e.level) (fun _ => True) (ranges es) := by
  induction es with
  | nil => exact .ok trivial
  | cons e es ih =>
    unfold ranges
    cases hstart : e.start with
    | none => exact .error ⟨e, List.mem_cons_self, .inl hstart, rfl⟩
    | some start =>
      cases hfinish : e.finish with
      | none => exact .error ⟨e, List.mem_cons_self, .inr hfinish, rfl⟩
      | some finish =>
        generalize ranges es = rest at ih ⊢
        cases ih with
        | ok _ => exact .ok trivial
        | error hfault =>
          obtain ⟨other, hother, hmissing⟩ := hfault
          exact .error ⟨other, List.mem_cons_of_mem _ hother, hmissing⟩

/-- Collecting symbols gives the entries of the candidates, or a fault of one of them or of the image. -/
theorem collect_ends {symbols : List ImageSymbol} (hE : ∀ fault, fault.IsTableFault → E fault)
    (hentry : ∀ rs, ranges (edges symbols) = .ok rs → ∀ s ∈ candidates symbols, Gives E P (entry rs s))
    (hr : r.Sound P) :
    EndsIn E (fun _ r' => r'.Sound P) (collect symbols) r := by
  unfold collect
  split
  · exact .fail (hE _ (.inl rfl))
  · refine (noteVersion_ends hr _).bind fun _ r' hr' => ?_
    have hranges := ranges_gives (edges symbols)
    cases hrs : ranges (edges symbols) with
    | error fault =>
      rw [hrs, gives_error_iff] at hranges
      obtain ⟨e, -, -, rfl⟩ := hranges
      exact .fail (hE _ (.inl rfl))
    | ok rs => exact addEach_ends (hentry rs hrs) (hE _ (.inl rfl)) hr'
  · exact .fail (hE _ (.inr (.inl rfl)))

/-- Locations are known by their addresses only if no two are at the same. -/
theorem byAddress_gives (found : List StatementLocation) (known : Std.TreeMap Nat Location) :
    Gives (fun fault => fault.kind = .noTable)
      (fun _ => found.Pairwise (fun l l' => l.address ≠ l'.address) ∧
        ∀ l ∈ found, known[l.address]? = none) (byAddress found known) := by
  induction found generalizing known with
  | nil => exact .ok ⟨.nil, fun _ hl => absurd hl List.not_mem_nil⟩
  | cons l ls ih =>
    unfold byAddress
    split
    · exact .error rfl
    · next hnew =>
      have hrest := ih (known.insert l.address l.location)
      generalize byAddress ls (known.insert l.address l.location) = outcome at hrest ⊢
      cases hrest with
      | error hfault => exact .error hfault
      | ok hapart =>
        obtain ⟨hapart, hunknown⟩ := hapart
        simp only [Std.TreeMap.getElem?_insert, Std.LawfulEqCmp.compare_eq_iff_eq] at hunknown
        refine .ok ⟨List.pairwise_cons.mpr ⟨fun l' hl' heq => ?_, hapart⟩, fun l' hl' => ?_⟩
        · have hnone := hunknown l' hl'
          rw [if_pos heq] at hnone
          cases hnone
        · rcases List.mem_cons.mp hl' with rfl | hl'
          · exact hnew
          · have hnone := hunknown l' hl'
            split_ifs at hnone
            exact hnone

/-- Locations change nothing else about the entries. -/
theorem attach_ends (hE : ∀ fault, fault.IsTableFault → E fault)
    (hP : ∀ e place, P e → P { e with location := place }) (hlocations : image.locationFault = none)
    (hr : r.Sound P) : EndsIn E (fun _ r' => r'.Sound P) (attach image) r := by
  have hby := byAddress_gives (liveLocations image.symbols image.locations) {}
  unfold EndsIn attach knownLocations
  rw [hlocations]
  cases hknown : byAddress (liveLocations image.symbols image.locations) {} with
  | error fault =>
    rw [hknown, gives_error_iff] at hby
    exact hE _ (.inl hby)
  | ok known =>
    dsimp only
    split_ifs
    · exact hr
    · refine ⟨fun e he => ?_, fun i hi => ?_⟩
      · obtain ⟨x, hx, rfl⟩ := List.mem_map.mp he
        exact hP x _ (hr.entries x hx)
      · obtain ⟨x, hx, hindex⟩ := hr.timestamp i hi
        exact ⟨_, List.mem_map_of_mem hx, hindex⟩
    · exact ⟨hr.entries, hr.timestamp⟩

end SymbolLayout

/-! ## The record layout -/

namespace RecordLayout

/-- The text of the header of a section. -/
def headerText (data : List UInt8) : String := Text.Utf8.decodeAscii (headerBytes data)

/-- What the header of a section states, up to the first unknown field. -/
def header (data : List UInt8) : Header :=
  (readFields ⟨none, none, ""⟩ (splitAt ',' (headerText data).toList)).1

/-- The keys of the records of a section. -/
def recordKeys (data : List UInt8) : Except RecoveryFault (List Key) :=
  usableKeys (headerText data) (header data).keys

theorem unknown_of_readFields {h : Header} {fields : List (List Char)} {fault : RecoveryFault}
    (hf : (readFields h fields).2 = some fault) : ∃ field, fault = .unknownHeaderTag field := by
  induction fields generalizing h with
  | nil => cases hf
  | cons field rest ih =>
    unfold readFields at hf
    dsimp only at hf
    split_ifs at hf
    · exact ih hf
    · exact ih hf
    · exact ih hf
    · exact ⟨_, (Option.some.inj hf).symm⟩

theorem noteHeaderVersion_ends (hr : r.Sound P) (h : Header) :
    EndsIn E (fun _ r' => r'.Sound P) (noteHeaderVersion h) r := by
  unfold noteHeaderVersion
  split
  · exact noteVersion_ends hr _
  · exact .pure hr

theorem collect_eq (data : List UInt8) :
    collect data = (do
      noteHeaderVersion (header data)
      match (readFields ⟨none, none, ""⟩ (splitAt ',' (headerText data).toList)).2 with
      | some fault => fail fault
      | none =>
        if (header data).version.isNone then fail .noVersion
        else
          match recordKeys data with
          | .error fault => fail fault
          | .ok keys => addEach (entry keys (header data).crate) (records data)) := rfl

/-- Collecting records gives the entries of the records, or a fault of one of them or of the header. -/
theorem collect_ends {data : List UInt8} (hE : ∀ fault, fault.kind = .noTable → E fault)
    (hkeys : Gives E (fun keys =>
      ∀ record ∈ records data, Gives E P (entry keys (header data).crate record)) (recordKeys data))
    (hr : r.Sound P) : EndsIn E (fun _ r' => r'.Sound P) (collect data) r := by
  rw [collect_eq]
  refine (noteHeaderVersion_ends hr _).bind fun _ r' hr' => ?_
  split
  · next fault hunknown =>
    obtain ⟨field, rfl⟩ := unknown_of_readFields hunknown
    exact .fail (hE _ rfl)
  · split_ifs
    · exact .fail (hE _ rfl)
    · cases hk : recordKeys data with
      | error fault =>
        rw [hk, gives_error_iff] at hkeys
        exact .fail hkeys
      | ok keys =>
        rw [hk, gives_ok_iff] at hkeys
        exact addEach_ends hkeys (hE _ rfl) hr'

end RecordLayout

/-! ## Whole recoveries -/

namespace Image

/-- A version that is none is the only fault of a version check that is not one of the image. -/
theorem checkVersion_ends (hE : ∀ fault, fault.IsTableFault → E fault)
    (hsupported : (Version.parse? supported).isSome = true) (hr : r.Sound P) :
    EndsIn E (fun _ r' => r'.Sound P) (checkVersion supported) r := by
  obtain ⟨ours, hours⟩ := Option.isSome_iff_exists.mp hsupported
  unfold EndsIn checkVersion
  cases r.version with
  | none => exact hE _ (.inl rfl)
  | some marker =>
    dsimp only
    unfold Version.check
    rw [hours]
    cases Version.parse? marker with
    | none => exact hE _ (.inr (.inl rfl))
    | some found =>
      dsimp only
      split_ifs
      · exact hE _ (.inr (.inl rfl))
      · exact hE _ (.inr (.inl rfl))
      · exact hr

/-- A recovered timestamp format is among the entries, so only an index that is taken stands in the
way of a table. -/
theorem finish_ends (hE : ∀ fault, fault.IsTableFault → E fault) (maxDepth : Nat)
    (hr : r.Sound P) :
    EndsIn E (fun t _ => ∀ e ∈ t.entries, P e) (finish maxDepth) r := by
  unfold EndsIn finish
  cases ht : Table.ofEntries r.entries (r.version.getD "") r.timestamp maxDepth with
  | ok t => exact fun e he => hr.entries e ((Table.mem_entries_of_ofEntries ht e).mp he)
  | error cause =>
    rcases Table.exists_of_ofEntries_eq_error ht with ⟨_, _, _, rfl⟩ | ⟨i, hi, hnone, -⟩
    · exact hE _ (.inr (.inr rfl))
    · obtain ⟨e, he, hindex⟩ := hr.timestamp i hi
      exact absurd hindex (hnone e he)

/-- The entries of a recovered table are all as those of the symbols or the records are. -/
theorem recover_ends (hE : ∀ fault, fault.IsTableFault → E fault)
    (hP : ∀ e place, P e → P { e with location := place })
    (hsymbols : ∀ rs, ∀ s ∈ SymbolLayout.candidates image.symbols,
      Gives E P (SymbolLayout.entry rs s))
    (hrecords : image.symbols.any isFormatSymbol = false →
      ∀ data, image.sectionData? recordSection = some data →
        Gives E (fun keys => ∀ record ∈ RecordLayout.records data,
          Gives E P (RecordLayout.entry keys (RecordLayout.header data).crate record))
          (RecordLayout.recordKeys data))
    (hsupported : (Version.parse? supported).isSome = true) (hlocations : image.locationFault = none)
    (maxDepth : Nat) :
    EndsIn E (fun t _ => ∀ e ∈ t.entries, P e) (image.recover supported maxDepth) Recovery.empty := by
  have hempty : Recovery.empty.Sound P := ⟨by simp [Recovery.empty], by simp [Recovery.empty]⟩
  unfold recover
  refine (report_ends hempty _).bind fun _ r hr => ?_
  by_cases hlayout : image.symbols.any isFormatSymbol = true
  · rw [if_pos hlayout]
    refine (SymbolLayout.collect_ends hE (fun rs _ => hsymbols rs) hr).bind fun _ r hr => ?_
    refine (checkVersion_ends hE hsupported hr).bind fun _ r hr => ?_
    refine (report_ends hr _).bind fun _ r hr => ?_
    refine (SymbolLayout.attach_ends hE hP hlocations hr).bind fun _ r hr => ?_
    exact finish_ends hE maxDepth hr
  · rw [if_neg hlayout]
    cases hdata : image.sectionData? recordSection with
    | none =>
      refine EndsIn.bind (Q := fun _ r' => r'.Sound P) (.fail (hE _ (.inl rfl))) fun _ r hr => ?_
      exact finish_ends hE maxDepth hr
    | some data =>
      have hkeys := hrecords (by simpa using hlayout) data hdata
      have hcollect := RecordLayout.collect_ends (fun fault hfault => hE fault (.inl hfault)) hkeys hr
      refine hcollect.bind fun _ r hr => ?_
      refine (checkVersion_ends hE hsupported hr).bind fun _ r hr => ?_
      exact finish_ends hE maxDepth hr

end Image

end

end DeferredLog
