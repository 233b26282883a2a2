import DeferredLog.Proofs.Display.Memory
import DeferredLog.Proofs.Frame.Draining
import DeferredLog.Proofs.Metadata.Discipline
import DeferredLog.Proofs.Wire.Faults

/-!
# What a check promises

A check complains about every entry whose format cannot be had, in the order of the indices, and about no
other one, whatever the table has remembered on the way there. Its report has a line for each complaint,
which shows the format, the location and the fault (`IsReport`). Decoding asks for formats by index only,
so an index in a table without complaints has a format, and any other index is unknown:

    entries refused for format faults only → t.freshFindings es = .ok (t.complaints es)
                                                                        (freshFindings_eq_complaints)
    t.check says nothing → t.freshFormat index = .error fault → fault.IsDataFault
                                                                          (isDataFault_of_check_empty)

`check_guards_decoding` puts this together.
-/

namespace DeferredLog

namespace Table

variable {t : Table} {cache : FormatCache} {e : Entry} {es : List Entry}

/-! ## Complaints -/

/-- The complaint about an entry, if there is one. -/
def complaint? (t : Table) (e : Entry) : Option Finding :=
  match t.freshFormat e.index with
  | .ok _ => if t.timestamp = some e.index ∧ e.level.isSome then some .timestampStatement else none
  | .error fault => some (.malformed fault)

/-- The complaints about entries, in their order. -/
def complaints (t : Table) (es : List Entry) : List (Entry × Finding) :=
  es.filterMap fun e => (t.complaint? e).map fun finding => (e, finding)

theorem complaint?_eq_malformed_iff {fault : Fault} :
    t.complaint? e = some (.malformed fault) ↔ t.freshFormat e.index = .error fault := by
  unfold complaint?
  cases t.freshFormat e.index with
  | ok f =>
    dsimp only
    split <;> simp
  | error fault' => simp

theorem complaint?_eq_timestampStatement_iff :
    t.complaint? e = some .timestampStatement ↔ (∃ f, t.freshFormat e.index = .ok f) ∧
      t.timestamp = some e.index ∧ e.level.isSome = true := by
  unfold complaint?
  cases t.freshFormat e.index with
  | ok f => simp [Option.isSome_iff_ne_none]
  | error fault => simp

theorem mem_complaints_iff {finding : Finding} :
    (e, finding) ∈ t.complaints es ↔ e ∈ es ∧ t.complaint? e = some finding := by
  rw [complaints, List.mem_filterMap]
  constructor
  · rintro ⟨e', he', h⟩
    obtain ⟨finding', hfinding, heq⟩ := Option.map_eq_some_iff.mp h
    obtain ⟨rfl, rfl⟩ := Prod.mk.inj heq
    exact ⟨he', hfinding⟩
  · rintro ⟨he, hfinding⟩
    exact ⟨e, he, by rw [hfinding]; rfl⟩

theorem complaints_increasing (t : Table) :
    ((t.complaints t.entries).map fun p => p.1.index).Pairwise (· < ·) := by
  rw [List.pairwise_map, complaints, List.pairwise_filterMap]
  refine t.entries_increasing.imp fun {a b} hlt p hp q hq => ?_
  obtain ⟨_, -, rfl⟩ := Option.map_eq_some_iff.mp hp
  obtain ⟨_, -, rfl⟩ := Option.map_eq_some_iff.mp hq
  exact hlt

/-- All complaints are found, if the entries are only refused for what formats say. -/
theorem freshFindings_eq_complaints
    (h : ∀ e ∈ es, ∀ fault, t.freshFormat e.index = .error fault → fault.isFormatFault = true) :
    t.freshFindings es = .ok (t.complaints es) := by
  induction es with
  | nil => rfl
  | cons e es ih =>
    have hrest := ih fun x hx => h x (List.mem_cons_of_mem _ hx)
    have hfirst : t.freshFinding? e = .ok (t.complaint? e) := by
      have hfault := h e List.mem_cons_self
      unfold freshFinding? complaint?
      cases hf : t.freshFormat e.index with
      | ok f => rfl
      | error fault => exact if_pos (hfault fault hf)
    have hcons : t.complaints (e :: es) =
        ((t.complaint? e).map fun finding => (e, finding)).toList ++ t.complaints es := by
      rw [complaints, List.filterMap_cons]
      cases t.complaint? e <;> rfl
    rw [freshFindings, hfirst, hrest, hcons]
    cases t.complaint? e <;> rfl

/-- What is not found is refused for something else. -/
theorem isFormatFault_of_freshFindings {found : List (Entry × Finding)}
    (h : t.freshFindings es = .ok found) :
    ∀ e ∈ es, ∀ fault, t.freshFormat e.index = .error fault → fault.isFormatFault = true := by
  induction es generalizing found with
  | nil => simp
  | cons e es ih =>
    rw [freshFindings] at h
    cases hfirst : t.freshFinding? e with
    | error fault =>
      rw [hfirst] at h
      cases h
    | ok finding =>
      cases hrest : t.freshFindings es with
      | error fault =>
        rw [hfirst, hrest] at h
        cases h
      | ok rest =>
        intro x hx fault hfault
        rcases List.mem_cons.mp hx with rfl | hx
        · unfold freshFinding? at hfirst
          rw [hfault] at hfirst
          dsimp only at hfirst
          split at hfirst
          · next hformat => exact hformat
          · cases hfirst
        · exact ih hrest x hx fault hfault

/-! ## Reports -/

/-- A line complains about an entry: it shows the format, then the location if there is one, then the fault
or the rule that is broken. -/
def Complains (line : String) (e : Entry) (finding : Finding) : Prop :=
  ∃ place reason, line = "'" ++ e.format.plain ++ "'" ++ place ++ " " ++ reason ∧
    (e.location = none → place = "") ∧ (∀ l, e.location = some l → place = " (" ++ l.text ++ ")") ∧
    (∀ fault, finding = .malformed fault → reason = "is malformed: " ++ fault.message) ∧
    (finding = .timestampStatement → reason = "is both the timestamp and a log statement")

/-- A report has a title that says whether there is more than one complaint, and then one line for each of
them, in their order. -/
def IsReport (found : List (Entry × Finding)) (report : String) : Prop :=
  ∃ lines : List String, List.Forall₂ (fun p line => Complains line p.1 p.2) found lines ∧
    (found.length = 1 → report = "\n".intercalate ("Format String Error:" :: lines)) ∧
    (1 < found.length → report = "\n".intercalate ("Format String Errors:" :: lines))

theorem complains_complaint (e : Entry) (finding : Finding) :
    Complains (e.complaint finding) e finding := by
  refine ⟨_, finding.message, rfl, fun h => ?_, fun l h => ?_, ?_, ?_⟩
  · rw [h]
    rfl
  · rw [h]
    rfl
  · rintro fault rfl
    rfl
  · rintro rfl
    rfl

theorem isReport_reportText (found : List (Entry × Finding)) : IsReport found (reportText found) := by
  refine ⟨found.map fun p => p.1.complaint p.2, ?_, fun h => ?_, fun h => ?_⟩
  · rw [List.forall₂_map_right_iff, List.forall₂_same]
    exact fun p _ => complains_complaint p.1 p.2
  · obtain ⟨p, rfl⟩ := List.length_eq_one_iff.mp h
    rfl
  · obtain _ | ⟨p, _ | ⟨q, found⟩⟩ := found
    · exact absurd h (Nat.not_lt_zero 1)
    · exact absurd h (Nat.lt_irrefl 1)
    · rfl

/-- A report is empty only if there is nothing to report. -/
theorem reportText_eq_empty_iff {found : List (Entry × Finding)} :
    reportText found = "" ↔ found = [] := by
  have hlines : ∀ (title line : String) (lines : List String), title ≠ "" →
      "\n".intercalate (title :: line :: lines) ≠ "" := by
    intro title line lines htitle h
    rw [String.intercalate_cons_cons, String.append_assoc] at h
    exact htitle (String.append_eq_empty_iff.mp h).1
  match found with
  | [] => exact ⟨fun _ => rfl, fun _ => rfl⟩
  | [(e, finding)] =>
    refine ⟨fun h => absurd h (hlines _ _ _ (by decide)), fun h => by cases h⟩
  | (e, finding) :: other :: found =>
    refine ⟨fun h => absurd h (hlines _ _ _ (by decide)), fun h => by cases h⟩

/-- A check without complaints, from whatever cache it starts, has found every entry usable. -/
theorem freshFormat_of_check_empty (hc : t.Remembers cache) (h : t.check.result cache = .ok "")
    (he : e ∈ t.entries) : ∃ f, t.freshFormat e.index = .ok f := by
  rw [(t.check_agrees cache hc).1] at h
  cases hfound : t.freshFindings t.entries with
  | error fault =>
    rw [hfound] at h
    cases h
  | ok found =>
    rw [hfound] at h
    have hempty : found = [] := reportText_eq_empty_iff.mp (Except.ok.inj h)
    have hall := freshFindings_eq_complaints (isFormatFault_of_freshFindings hfound)
    have hnone : t.complaints t.entries = [] := by
      rw [hfound] at hall
      exact (Except.ok.inj hall).symm.trans hempty
    cases hformat : t.freshFormat e.index with
    | ok f => exact ⟨f, rfl⟩
    | error fault =>
      have hmem := mem_complaints_iff.mpr ⟨he, complaint?_eq_malformed_iff.mpr hformat⟩
      rw [hnone] at hmem
      cases hmem

/-- Then a format that cannot be had is that of an index which is not in the table. -/
theorem isDataFault_of_check_empty (hc : t.Remembers cache) (h : t.check.result cache = .ok "")
    {index : Nat} {fault : Fault} (hfault : t.freshFormat index = .error fault) :
    fault.IsDataFault := by
  cases hentry : t.entry? index with
  | some e =>
    have hindex : e.index = index := t.entryMap.index_eq index e hentry
    have he : e ∈ t.entries := mem_entries_iff.mpr (by rwa [hindex])
    obtain ⟨f, hf⟩ := freshFormat_of_check_empty hc h he
    rw [hindex, hfault] at hf
    cases hf
  | none =>
    rw [freshFormat, walk_none_succ, if_neg List.not_mem_nil, readAt, lookup_natCast, hentry] at hfault
    exact Except.error.inj hfault ▸ .inr (.inl rfl)

/-- All formats are parsed unless that of an entry cannot be. -/
theorem formatAll_eq_error_iff (hc : t.Remembers cache) :
    (∃ fault, t.formatAll.result cache = .error fault) ↔
      ∃ e ∈ t.entries, ∃ fault, t.freshFormat e.index = .error fault := by
  rw [(t.formatAll_agrees cache hc).1, ← map_index_entries]
  constructor
  · rintro ⟨fault, h⟩
    obtain ⟨index, hindex, hfault⟩ := exists_of_visitAll_eq_error h
    obtain ⟨e, he, rfl⟩ := List.mem_map.mp hindex
    exact ⟨e, he, fault, hfault⟩
  · rintro ⟨e, he, fault, hfault⟩
    cases hall : visitAll t.freshFormat (t.entries.map Entry.index) with
    | error fault' => exact ⟨fault', rfl⟩
    | ok _ =>
      obtain ⟨f, hf⟩ := visitAll_eq_ok_iff.mp hall e.index (List.mem_map_of_mem he)
      rw [hfault] at hf
      cases hf

end Table

/-! ## Attempts -/

/-- An attempt ends; it returns the frame that the table decodes, or the fault. -/
theorem StreamDecoder.exists_next_agrees (t : Table) (d : StreamDecoder) :
    ∃ a, Cached.Agrees t.Remembers (d.next t) (.ok a) ∧
      a.result = (t.decodeFresh d.buffer).map Prod.fst := by
  have hbind := t.decodeFresh_eq_bind d.buffer
  rw [Frame.decode_eq] at hbind
  unfold next Cursor.start
  cases hu : Cursor.uleb128 ⟨d.buffer, 0, 0⟩ with
  | error e =>
    rw [hu] at hbind
    refine ⟨d.failed .awaitingIndex e, .pure _, ?_⟩
    rw [failed_result, hbind]
    rfl
  | ok p =>
    obtain ⟨index, c⟩ := p
    have hbody : Cached.Agrees t.Remembers
        (Cached.attempt (Frame.decodeBody t t.format index c))
        (.ok (Frame.decodeBody t t.freshFormat index c)) :=
      (Frame.decodeBody_agrees t.format_agrees index c).attempt
    rw [hu] at hbind
    replace hbind : t.decodeFresh d.buffer = Frame.decodeBody t t.freshFormat index c >>= fun q =>
      .ok (q.1, q.2.offset) := hbind
    cases hb : Frame.decodeBody t t.freshFormat index c with
    | error e =>
      rw [hb] at hbody hbind
      refine ⟨d.failed .awaitingArguments e, hbody.bind_ok (.pure _), ?_⟩
      rw [failed_result, hbind]
      rfl
    | ok q =>
      obtain ⟨frame, c'⟩ := q
      rw [hb] at hbody hbind
      refine ⟨⟨.ok frame, { d with buffer := c'.rest, phase := .complete }, []⟩,
        hbody.bind_ok (.pure _), ?_⟩
      rw [hbind]
      rfl

/-! ## What the checker promises -/

namespace Table

/-- Decoding in a table without complaints raises faults of the bytes only. -/
theorem isDataFault_of_decodeFresh {t : Table} {cache : FormatCache} (hc : t.Remembers cache)
    (h : t.check.result cache = .ok "") {data : List UInt8} {e : Fault}
    (he : t.decodeFresh data = .error e) : e.IsDataFault := by
  rw [decodeFresh_eq_bind] at he
  cases hframe : Frame.decode t t.freshFormat ⟨data, 0, 0⟩ with
  | ok p =>
    rw [hframe] at he
    cases he
  | error e' =>
    rw [hframe] at he
    obtain rfl := Except.error.inj he
    rcases Frame.decode_raises t t.freshFormat _ _ hframe with hdata | ⟨index, hindex⟩
    · exact hdata
    · exact isDataFault_of_check_empty hc h hindex

/-- **What a check promises.** The first part: with no complaints, decoding returns a frame or raises that
bytes are missing, that an index is unknown, or that bytes are no value, in whatever state the table and the
decoder are by then. The others: the complaints are found in the order of the indices, one of a malformed
format for every entry whose format cannot be had and for no other entry, and the report shows them all;
they are always found if all formats are texts; and parsing all formats fails if there is such an entry, and
only then. -/
theorem check_guards_decoding (t : Table) (cache : FormatCache) (hc : t.Remembers cache) :
    (t.check.result cache = .ok "" → ∀ now, t.Remembers now →
      (∀ (data : List UInt8) (e : Fault), t.decode now data = .error e →
        e.kind = .starved ∨ e.kind = .unknownIndex ∨ e.kind = .malformedValue) ∧
      ∀ d : StreamDecoder, ∃ a, (d.next t).result now = .ok a ∧ ∀ e, a.result = .error e →
        e.kind = .starved ∨ e.kind = .unknownIndex ∨ e.kind = .malformedValue) ∧
    (∀ found, (t.findings t.entries).result cache = .ok found →
      t.check.result cache = .ok (reportText found) ∧ (reportText found = "" ↔ found = []) ∧
      IsReport found (reportText found) ∧
      (found.map fun p => p.1.index).Pairwise (· < ·) ∧
      (∀ e fault, (e, .malformed fault) ∈ found ↔
        e ∈ t.entries ∧ (t.format e.index).result cache = .error fault) ∧
      ∀ e, (e, .timestampStatement) ∈ found ↔ e ∈ t.entries ∧
        (∃ f, (t.format e.index).result cache = .ok f) ∧ t.timestamp = some e.index ∧
        e.level.isSome = true) ∧
    (t.HasTextFormats → ∃ found, (t.findings t.entries).result cache = .ok found) ∧
    ((∃ fault, t.formatAll.result cache = .error fault) ↔
      ∃ e ∈ t.entries, ∃ fault, (t.format e.index).result cache = .error fault) := by
  have hformat : ∀ index, (t.format index).result cache = t.freshFormat index :=
    fun index => (t.format_agrees index cache hc).1
  have hfindings := (t.findings_agrees t.entries cache hc).1
  simp only [hformat, hfindings]
  refine ⟨fun hcheck now hnow => ⟨fun data e he => ?_, fun d => ?_⟩, fun found hfound => ?_,
    fun ht => exists_freshFindings ht fun e he => he, formatAll_eq_error_iff hc⟩
  · rw [decode_eq_decodeFresh hnow] at he
    exact isDataFault_of_decodeFresh hc hcheck he
  · obtain ⟨a, ha, hresult⟩ := d.exists_next_agrees t
    refine ⟨a, (ha now hnow).1, fun e he => ?_⟩
    rw [hresult] at he
    cases hd : t.decodeFresh d.buffer with
    | ok p =>
      rw [hd] at he
      cases he
    | error e' =>
      rw [hd] at he
      exact Except.error.inj he ▸ isDataFault_of_decodeFresh hc hcheck hd
  · have hall := freshFindings_eq_complaints (isFormatFault_of_freshFindings hfound)
    obtain rfl : found = t.complaints t.entries := by
      rw [hfound] at hall
      exact Except.ok.inj hall
    refine ⟨?_, reportText_eq_empty_iff, isReport_reportText _, t.complaints_increasing,
      fun e fault => ?_, fun e => ?_⟩
    · rw [(t.check_agrees cache hc).1, hfound]
      rfl
    · rw [mem_complaints_iff, complaint?_eq_malformed_iff]
    · rw [mem_complaints_iff, complaint?_eq_timestampStatement_iff]

/-- A table without complaints, and one that remembers a failed lookup of an entry on a cycle. -/
theorem check_guards_decoding_tangled :
    sample.Remembers {} ∧ sample.check.result {} = .ok "" ∧
      (∀ data e, sample.decode {} data = .error e →
        e.kind = .starved ∨ e.kind = .unknownIndex ∨ e.kind = .malformedValue) ∧
      tangled.Remembers tangledCache ∧
      (∃ found, (tangled.findings tangled.entries).result tangledCache = .ok found ∧
        (derived 5 "{=@1}{=@6}", .malformed (.cyclic 5 [5, 6])) ∈ found ∧
        ∀ fault, (derived 1 "{=@2}{=@3}", .malformed fault) ∉ found) ∧
      ∃ fault, tangled.formatAll.result tangledCache = .error fault := by
  have hc : tangled.Remembers tangledCache := .format 5 .nothing
  have hcheck : sample.check.result {} = .ok "" := by cbv
  obtain ⟨hguards, -⟩ := check_guards_decoding sample {} .nothing
  obtain ⟨-, hfindings, hexists, hall⟩ := check_guards_decoding tangled tangledCache hc
  obtain ⟨found, hfound⟩ := hexists tangled_hasTextFormats
  obtain ⟨-, -, -, -, hmalformed, -⟩ := hfindings found hfound
  obtain ⟨⟨f, hshared⟩, hcycle, -⟩ := formatAt_tangled
  have hmem : derived 5 "{=@1}{=@6}" ∈ tangled.entries ∧
      (tangled.format 5).result tangledCache = .error (.cyclic 5 [5, 6]) :=
    ⟨mem_entries_iff.mpr (by cbv), hcycle⟩
  refine ⟨.nothing, hcheck, (hguards hcheck {} .nothing).1, hc,
    ⟨found, hfound, (hmalformed _ _).mpr hmem, fun fault hfault => ?_⟩,
    hall.mpr ⟨_, hmem.1, _, hmem.2⟩⟩
  cases hshared.symm.trans ((hmalformed _ _).mp hfault).2

end Table

end DeferredLog
