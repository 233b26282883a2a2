import DeferredLog.Metadata.ElfImage
import Mathlib.Data.List.TakeWhile
import Mathlib.Data.Option.Basic

/-!
# Variables of log statements

`Describes` says what an entry of debug information tells about a log statement: its linkage name, its
address and its place. A reader finds exactly the entries that describe one:

    located? (u, e) = some l ↔ ∃ v, u.Describes e v ∧ l = ⟨symbolName v.linkageName, v.address, v.location⟩
                                                                                (located?_eq_some_iff)

The linkage name is the name of the statement's symbol with a disambiguator behind an `@`. The reader cuts
it at its first `@`, which gives that name back if there is no other `@` (`symbolName_eq_iff`). The address
is the first one that the operations of the location push (`expressionAddress?_of_rows`).
-/

namespace DeferredLog.Dwarf

/-! ## Names -/

/-- What an entry tells about a log statement. -/
structure Variable where
  linkageName : String
  address : Nat
  location : Location
  deriving DecidableEq, Repr

/-- A variable belongs to the statement whose name comes before the disambiguator; without one, to that
of its whole name. -/
def Variable.IsOf (v : Variable) (name : String) : Prop :=
  (∃ disambiguator : String, disambiguatorMark ∉ disambiguator.toList ∧
    v.linkageName = name ++ "@" ++ disambiguator) ∨
  disambiguatorMark ∉ name.toList ∧ v.linkageName = name

/-- What the reader notes about a variable. -/
def Variable.noted (v : Variable) : StatementLocation := ⟨symbolName v.linkageName, v.address, v.location⟩

theorem symbolName_of_not_mem {name : String} (h : disambiguatorMark ∉ name.toList) :
    symbolName name = name := by
  have htake : name.toList.takeWhile (· ≠ disambiguatorMark) = name.toList :=
    List.takeWhile_eq_self_iff.mpr fun c hc => decide_eq_true fun heq => h (heq ▸ hc)
  rw [symbolName, htake, String.ofList_toList]

theorem symbolName_append {name : String} (h : disambiguatorMark ∉ name.toList) (disambiguator : String) :
    symbolName (name ++ "@" ++ disambiguator) = name := by
  have htake : (name ++ "@" ++ disambiguator).toList.takeWhile (· ≠ disambiguatorMark) = name.toList := by
    rw [String.toList_append, String.toList_append, List.append_assoc, List.takeWhile_append_of_pos]
    · simp [disambiguatorMark]
    · exact fun c hc => decide_eq_true fun heq => h (heq ▸ hc)
  rw [symbolName, htake, String.ofList_toList]

/-- A name that holds a mark is cut itself. -/
theorem symbolName_append_of_mem {name : String} (h : disambiguatorMark ∈ name.toList) (rest : String) :
    symbolName (name ++ rest) = symbolName name := by
  obtain ⟨before, after, hsplit, hbefore⟩ := List.eq_append_cons_of_mem h
  have htake (tail : List Char) : (before ++ disambiguatorMark :: tail).takeWhile
      (fun c => c ≠ disambiguatorMark) = before := by
    rw [List.takeWhile_append_of_pos]
    · simp
    · exact fun c hc => decide_eq_true fun heq => hbefore (heq ▸ hc)
  rw [symbolName, symbolName, String.toList_append, hsplit, List.append_assoc, List.cons_append, htake,
    htake]

/-- A name is cut where it should be if neither the name of the statement nor what follows it behind a mark
holds another one. -/
theorem symbolName_eq_iff {v : Variable} {name : String}
    (hown : v.IsOf name → disambiguatorMark ∉ name.toList)
    (hrest : ∀ rest : String, v.linkageName = name ++ "@" ++ rest → disambiguatorMark ∉ rest.toList) :
    symbolName v.linkageName = name ↔ v.IsOf name := by
  constructor
  · rintro rfl
    by_cases hmark : disambiguatorMark ∈ v.linkageName.toList
    · obtain ⟨before, after, hsplit, hbefore⟩ := List.eq_append_cons_of_mem hmark
      have hname : v.linkageName = String.ofList before ++ "@" ++ String.ofList after := by
        rw [← String.toList_inj, hsplit]
        simp [disambiguatorMark]
      have hfirst : symbolName v.linkageName = String.ofList before := by
        rw [hname]
        exact symbolName_append (by simpa using hbefore) _
      rw [hfirst] at hrest ⊢
      exact .inl ⟨String.ofList after, hrest _ hname, hname⟩
    · rw [symbolName_of_not_mem hmark]
      exact .inr ⟨hmark, rfl⟩
  · intro hof
    have hname := hown hof
    rcases hof with ⟨disambiguator, -, heq⟩ | ⟨-, heq⟩
    · rw [heq, symbolName_append hname]
    · rw [heq, symbolName_of_not_mem hname]

/-- A linkage name with one mark at most can only be cut there. -/
theorem not_mem_of_count_le_one {linkageName name rest : String}
    (hcount : linkageName.toList.count disambiguatorMark ≤ 1)
    (h : linkageName = name ++ "@" ++ rest) :
    disambiguatorMark ∉ name.toList ∧ disambiguatorMark ∉ rest.toList := by
  have hmark : "@".toList.count disambiguatorMark = 1 := by decide
  rw [h, String.toList_append, String.toList_append, List.count_append, List.count_append, hmark]
    at hcount
  exact ⟨List.count_eq_zero.mp (by omega), List.count_eq_zero.mp (by omega)⟩

/-! ## Descriptions -/

/-- An entry of a unit describes a variable of a log statement, completely and with a file that can be
looked up. -/
structure CompileUnit.Describes (u : CompileUnit) (e : NestedEntry) (v : Variable) : Prop where
  tag : e.entry.tag = .variableEntry
  name : e.entry.text? .name = some statementVariable
  linkageName : e.entry.text? .linkageName = some v.linkageName
  address : ∃ a, e.entry.attribute? .location = some a ∧
    locationAddress? u.encoding a.form a.value = some v.address
  location : ∃ lines file line path, u.lines = .ok (some lines) ∧
    e.entry.value? .declarationFile = some file ∧ e.entry.value? .declarationLine = some line ∧
    lines.namedPath? u.directory file = .ok (some path) ∧
    v.location = ⟨"::".intercalate e.namespaces, path, some line.line⟩

/-- The statement that the reader finds in an entry of a unit. -/
def located? (p : CompileUnit × NestedEntry) : Option StatementLocation :=
  match p.1.lines with
  | .ok (some lines) => (p.1.statement? lines statementVariable p.2).bind Except.toOption
  | _ => none

section
variable {u : CompileUnit} {e : NestedEntry} {l : StatementLocation} {v : Variable}

/-- Statements are only found in units that have lines. -/
theorem lines_of_located? (h : located? (u, e) = some l) : ∃ lines, u.lines = .ok (some lines) ∧
    u.statement? lines statementVariable e = some (.ok l) := by
  unfold located? at h
  dsimp only at h
  split at h
  · next lines hlines =>
    obtain ⟨result, hresult, hok⟩ := Option.bind_eq_some_iff.mp h
    cases result with
    | error fault => cases hok
    | ok found =>
      obtain rfl := Option.some.inj hok
      exact ⟨lines, hlines, hresult⟩
  · cases h

/-- What is found is described. -/
theorem exists_describes_of_located? (h : located? (u, e) = some l) :
    ∃ v, u.Describes e v ∧ l = v.noted := by
  obtain ⟨lines, hlines, hfound⟩ := lines_of_located? h
  unfold CompileUnit.statement? at hfound
  simp only [bind, Option.bind_eq_some_iff] at hfound
  obtain ⟨⟨⟩, hguard, linkageName, hlinkage, file, hfile, line, hline, a, ha, address, haddress,
    hresult⟩ := hfound
  obtain ⟨htag, hname⟩ : e.entry.tag = .variableEntry ∧
      e.entry.text? .name = some statementVariable := by
    by_contra hnot
    have hfail : guard (e.entry.tag = .variableEntry ∧
        e.entry.text? .name = some statementVariable) = (none : Option Unit) := if_neg hnot
    cases hguard.symm.trans hfail
  cases hpath : lines.namedPath? u.directory file with
  | error fault =>
    rw [hpath] at hresult
    cases hresult
  | ok path =>
    rw [hpath] at hresult
    obtain ⟨path, rfl, hl⟩ := Option.map_eq_some_iff.mp hresult
    refine ⟨⟨linkageName, address, ⟨"::".intercalate e.namespaces, path, some line.line⟩⟩, ?_,
      (Except.ok.inj hl).symm⟩
    exact ⟨htag, hname, hlinkage, ⟨a, ha, haddress⟩,
      ⟨lines, file, line, path, hlines, hfile, hline, hpath, rfl⟩⟩

/-- What is described is found. -/
theorem CompileUnit.Describes.located?_eq_some (h : u.Describes e v) : located? (u, e) = some v.noted := by
  obtain ⟨a, ha, haddress⟩ := h.address
  obtain ⟨lines, file, line, path, hlines, hfile, hline, hpath, hplace⟩ := h.location
  unfold located?
  dsimp only
  rw [hlines]
  dsimp only
  unfold CompileUnit.statement?
  rw [h.tag, h.name, h.linkageName, ha, hfile, hline]
  simp only [bind, Option.bind_some, haddress, hpath]
  rw [Variable.noted, hplace]
  rfl

/-- A statement is found just where one is described. -/
theorem located?_eq_some_iff : located? (u, e) = some l ↔ ∃ v, u.Describes e v ∧ l = v.noted := by
  constructor
  · exact exists_describes_of_located?
  · rintro ⟨v, hv, rfl⟩
    exact hv.located?_eq_some

end

/-! ## Location expressions -/

/-- Bytes hold what a reading yields, one after another. -/
inductive Rows {α : Type} (r : Reading α) : List UInt8 → List α → Prop
  | nil : Rows r [] []
  | cons {taken rest : List UInt8} {a : α} {as : List α} : taken ≠ [] →
      (∀ more, r (taken ++ more) = some (a, more)) → Rows r rest as → Rows r (taken ++ rest) (a :: as)

section
variable {α : Type} {r : Reading α} {input input' : List UInt8} {as as' : List α}

theorem Rows.append (h : Rows r input as) (h' : Rows r input' as') :
    Rows r (input ++ input') (as ++ as') := by
  induction h with
  | nil => exact h'
  | cons hne hr _ ih =>
    rw [List.append_assoc]
    exact .cons hne hr ih

theorem Rows.allWithin_eq (h : Rows r input as) {limit : Nat} (hlimit : input.length ≤ limit) :
    r.allWithin limit input = some as := by
  induction h generalizing limit with
  | nil => cases limit <;> rfl
  | @cons taken rest a as hne hr _ ih =>
    obtain ⟨b, tail, rfl⟩ := List.exists_cons_of_ne_nil hne
    rw [List.length_append, List.length_cons] at hlimit
    obtain ⟨limit, rfl⟩ : ∃ n, limit = n + 1 := ⟨limit - 1, by omega⟩
    have hfirst : r (b :: (tail ++ rest)) = some (a, rest) := hr rest
    rw [List.cons_append, Reading.allWithin, hfirst]
    · dsimp only
      rw [ih (by omega)]
      rfl
    · exact List.cons_ne_nil _ _

/-- What bytes hold one after another is all that is read from them. -/
theorem Rows.all?_eq (h : Rows r input as) : r.all? input = some as := h.allWithin_eq (Nat.le_refl _)

end

section
variable {e : Encoding} {form : Form} {address before after : List UInt8} {ops ops' : List Operation}

theorem rows_address (hsize : address.length = e.addressSize) :
    Rows (operation e) (0x03 :: address) [.address (e.order.value address)] := by
  have hoperation (more : List UInt8) :
      operation e (0x03 :: address ++ more) = some (.address (e.order.value address), more) := by
    have hopcode : operation e (0x03 :: address ++ more) =
        (Operation.address <$> Reading.number e.order e.addressSize) (address ++ more) := rfl
    have hoperand : Reading.bytes e.addressSize (address ++ more) = some (address, more) := by
      rw [Reading.bytes, ← hsize, List.take_left, List.drop_left, if_pos rfl]
    rw [hopcode]
    show ((Reading.bytes e.addressSize (address ++ more)).bind _).bind _ = _
    rw [hoperand]
    rfl
  have hrows := Rows.cons (List.cons_ne_nil _ _) hoperation .nil
  rwa [List.append_nil] at hrows

/-- An address is found among any other operations, if it is the first one that is pushed. -/
theorem expressionAddress?_of_rows (hbefore : Rows (operation e) before ops)
    (hother : ∀ op ∈ ops, op.address? = none) (hsize : address.length = e.addressSize)
    (hafter : Rows (operation e) after ops') :
    expressionAddress? e (before ++ (0x03 :: address ++ after)) = some (e.order.value address) := by
  rw [expressionAddress?, (hbefore.append ((rows_address hsize).append hafter)).all?_eq, Option.bind_some,
    List.findSome?_append, List.findSome?_eq_none_iff.mpr hother]
  rfl

/-- What lies at an offset from a register comes before the address, a dereference behind it. -/
example : expressionAddress? ⟨.little, 4⟩ [0x71, 0x7c, 0x03, 1, 0, 0, 0, 0x06] = some 1 := by
  decide

/-- A location that is an address pushes that address. -/
theorem locationAddress?_address (hform : form.isExpression = true)
    (hsize : address.length = e.addressSize) :
    locationAddress? e form (.block (0x03 :: address)) = some (e.order.value address) := by
  have hfound := expressionAddress?_of_rows .nil (by simp) hsize .nil
  rw [List.append_nil] at hfound
  rwa [locationAddress?, if_pos hform]

end

/-! ## Units -/

/-- All entries of units, in the order of a reader. -/
def entriesOf (units : List CompileUnit) : List (CompileUnit × NestedEntry) :=
  units.flatMap fun u => u.entries.map fun e => (u, e)

theorem filterMap_toOption_statements (units : List CompileUnit) :
    (units.flatMap (·.statements statementVariable)).filterMap Except.toOption =
      (entriesOf units).filterMap located? := by
  rw [entriesOf, List.filterMap_flatMap, List.filterMap_flatMap]
  congr 1
  funext u
  rw [List.filterMap_map, CompileUnit.statements]
  cases hlines : u.lines with
  | error fault =>
    refine (List.filterMap_eq_nil_iff.mpr fun e _ => ?_).symm
    rw [Function.comp_apply, located?, hlines]
  | ok lines =>
    cases lines with
    | none =>
      refine (List.filterMap_eq_nil_iff.mpr fun e _ => ?_).symm
      rw [Function.comp_apply, located?, hlines]
    | some lines =>
      dsimp only
      rw [List.filterMap_filterMap]
      congr 1
      funext e
      rw [Function.comp_apply, located?, hlines]

/-- A unit with some of its entries. -/
def CompileUnit.restrict (u : CompileUnit) (keep : CompileUnit → NestedEntry → Bool) : CompileUnit :=
  { u with entries := u.entries.filter (keep u) }

theorem mem_statements_of_restrict {u : CompileUnit} {keep : CompileUnit → NestedEntry → Bool}
    {variableName : String} {result : Except PathFault StatementLocation}
    (h : result ∈ (u.restrict keep).statements variableName) : result ∈ u.statements variableName := by
  have hsame : (u.restrict keep).lines = u.lines := rfl
  rw [CompileUnit.statements, hsame] at h
  rw [CompileUnit.statements]
  cases hlines : u.lines with
  | error fault => rwa [hlines] at h
  | ok lines =>
    rw [hlines] at h
    cases lines with
    | none => exact h
    | some lines =>
      obtain ⟨e, he, hresult⟩ := List.mem_filterMap.mp h
      exact List.mem_filterMap.mpr ⟨e, (List.mem_filter.mp he).1, hresult⟩

/-- Entries that are left out are not found, all others are. -/
theorem filterMap_located?_restrict (units : List CompileUnit)
    (keep : CompileUnit → NestedEntry → Bool) :
    (entriesOf (units.map (·.restrict keep))).filterMap located? =
      ((entriesOf units).filter fun p => keep p.1 p.2).filterMap located? := by
  induction units with
  | nil => rfl
  | cons u units ih =>
    have hunit : ((u.restrict keep).entries.map fun e => (u.restrict keep, e)).filterMap located? =
        ((u.entries.map fun e => (u, e)).filter fun p => keep p.1 p.2).filterMap located? := by
      rw [List.filterMap_map, List.filter_map, List.filterMap_map]
      rfl
    rw [entriesOf, entriesOf, List.map_cons, List.flatMap_cons, List.flatMap_cons, List.filterMap_append,
      List.filter_append, List.filterMap_append, hunit]
    exact congrArg _ ih

end DeferredLog.Dwarf

namespace DeferredLog.Image

theorem untilFault_snd_eq_none_iff {α ε : Type} {results : List (Except ε α)} :
    (untilFault results).2 = none ↔ ∀ fault, .error fault ∉ results := by
  induction results with
  | nil => simp [untilFault]
  | cons result results ih =>
    cases result with
    | error fault =>
      refine iff_of_false (by simp [untilFault]) fun h => ?_
      exact h fault List.mem_cons_self
    | ok a => simpa [untilFault] using ih

/-- Without a fault everything was found. -/
theorem untilFault_eq {α ε : Type} {results : List (Except ε α)} (h : (untilFault results).2 = none) :
    (untilFault results).1 = results.filterMap Except.toOption := by
  induction results with
  | nil => rfl
  | cons result results ih =>
    cases result with
    | error fault => cases h
    | ok a =>
      have hrest : (untilFault results).2 = none := h
      have hfirst : (Except.ok a : Except ε α).toOption = some a := rfl
      rw [List.filterMap_cons_some hfirst, ← ih hrest]
      rfl

/-- Before a fault everything was found. -/
theorem untilFault_sublist {α ε : Type} (results : List (Except ε α)) :
    (untilFault results).1.Sublist (results.filterMap Except.toOption) := by
  induction results with
  | nil => exact .slnil
  | cons result results ih =>
    cases result with
    | error fault => exact List.nil_sublist _
    | ok a => exact ih.cons_cons a

end DeferredLog.Image
