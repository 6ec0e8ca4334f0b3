import Mathlib.Data.List.TakeWhile
import Classmith.Mapping.Tiny
import Classmith.Proofs.Mapping.Registering
import Classmith.Proofs.Signature.Characters
import Classmith.Proofs.Text

/-!
# Mappings written and read

What stands in a column of a mapping file is a word that starts no comment, and reversing a set puts no
other character into it. So every set that was read, reversed any number of times, can be written and
read again.
-/
namespace Classmith

open Text (IsWord charLines isBlank lines words)

/-- Neither a blank nor the start of a comment. -/
def IsSolid (c : Char) : Prop := isBlank c = false ∧ c ≠ '#'

/-- A text that fills one column of a line. -/
structure IsColumn (s : String) : Prop where
  ne_nil : s.toList ≠ []
  solid : ∀ c ∈ s.toList, IsSolid c

instance (c : Char) : Decidable (IsSolid c) := inferInstanceAs (Decidable (_ ∧ _))

instance (s : String) : Decidable (IsColumn s) :=
  decidable_of_iff (s.toList ≠ [] ∧ s.toList.all (fun c => decide (IsSolid c)) = true)
    ⟨fun h => ⟨h.1, fun c hc => of_decide_eq_true (List.all_eq_true.mp h.2 c hc)⟩,
      fun h => ⟨h.ne_nil, List.all_eq_true.mpr fun c hc => decide_eq_true (h.solid c hc)⟩⟩

theorem IsColumn.isWord {s : String} (h : IsColumn s) : IsWord s.toList :=
  ⟨h.ne_nil, fun c hc => (h.solid c hc).1⟩

/-- The texts of a record in the order of their columns. -/
def MappingRecord.texts : MappingRecord → List String
  | .ofClass old new => [old, new]
  | .ofField owner descriptor old new => [owner, descriptor, old, new]
  | .ofMethod owner descriptor old new => [owner, descriptor, old, new]

/-- Every text of a mapping set fills one column. -/
structure MappingSet.Printable (m : MappingSet) : Prop where
  source : IsColumn m.source
  target : IsColumn m.target
  records : ∀ e ∈ m.entries, ∀ s ∈ e.record.texts, IsColumn s

/-! ## What is read fills columns -/

namespace Tiny

theorem isColumn_of_mem_columns (line : String) {s : String} (h : s ∈ (columns line).2) :
    IsColumn s := by
  obtain ⟨w, hw, rfl⟩ := List.mem_map.mp h
  obtain ⟨hword, hfrom⟩ := Text.of_mem_words hw
  have hcomment : ∀ c ∈ w, c ≠ '#' := by
    intro c hc
    have hkept := List.mem_takeWhile_imp (hfrom c hc)
    simpa using hkept
  refine ⟨by simpa using hword.ne_nil, fun c hc => ?_⟩
  rw [String.toList_ofList] at hc
  exact ⟨hword.solid c hc, hcomment c hc⟩

theorem mem_of_parseRecord {all : List String} {r : MappingRecord} (h : parseRecord all = .ok r) :
    ∀ s ∈ r.texts, s ∈ all := by
  cases all with
  | nil => simp [parseRecord] at h
  | cons first rest =>
    simp only [parseRecord] at h
    have hrest : r.texts = rest := by
      split at h
      · split at h
        · cases h
          rfl
        · cases h
      · split at h
        · split at h
          · cases h
            rfl
          · cases h
        · split at h
          · split at h
            · cases h
              rfl
            · cases h
          · cases h
    intro s hs
    exact List.mem_cons_of_mem first (hrest ▸ hs)

theorem isColumn_of_parseRecords {number : Nat} {all : List (Except FileError String)}
    {entries : List MappingEntry} (h : parseRecords number all = .ok entries) :
    ∀ e ∈ entries, ∀ s ∈ e.record.texts, IsColumn s := by
  induction all generalizing number entries with
  | nil =>
    cases h
    simp
  | cons line rest ih =>
    cases line with
    | error cause => cases h
    | ok line =>
      rw [parseRecords] at h
      split at h
      · exact ih h
      · rename_i trimmed found hnot hcolumns
        cases hrecord : parseRecord found with
        | error defect => simp [hrecord] at h
        | ok record =>
          cases hmore : parseRecords (number + 1) rest with
          | error e => simp [hrecord, hmore, Except.map] at h
          | ok more =>
            simp only [hrecord, hmore, Except.map, Except.ok.injEq] at h
            subst h
            have hfirst : ∀ s ∈ record.texts, IsColumn s := by
              intro s hs
              apply isColumn_of_mem_columns line
              rw [hcolumns]
              exact mem_of_parseRecord hrecord s hs
            intro e he
            rcases List.mem_cons.mp he with rfl | he
            · exact hfirst
            · exact ih hmore e he

theorem printable_of_parseFrom {number : Nat} {all : List (Except FileError String)}
    {m : MappingSet} (h : parseFrom number all = .ok m) : m.Printable := by
  induction all generalizing number with
  | nil => cases h
  | cons line rest ih =>
    cases line with
    | error cause => cases h
    | ok line =>
      rw [parseFrom] at h
      split at h
      · exact ih h
      · rename_i trimmed source target hcolumns
        have hheader : ∀ s ∈ ["v1", source, target], IsColumn s := by
          intro s hs
          apply isColumn_of_mem_columns line
          rw [hcolumns]
          exact hs
        cases hmore : parseRecords (number + 1) rest with
        | error e => simp [hmore, Except.map] at h
        | ok entries =>
          simp only [hmore, Except.map, Except.ok.injEq] at h
          subst h
          exact ⟨hheader source (by simp), hheader target (by simp), isColumn_of_parseRecords hmore⟩
      · cases h

end Tiny

/-! ## Reversing keeps columns -/

namespace MappingSet

variable {m : MappingSet}

theorem Printable.isColumn_new (h : m.Printable) {old new : String}
    (hget : m.classTable.get? old = some new) : IsColumn new := by
  rw [classTable_eq] at hget
  obtain ⟨e, he, hrecord⟩ := List.mem_filterMap.mp (Table.mem_of_get?_ofList hget)
  have hclass : e.record = .ofClass old new := by
    cases hkind : e.record <;> simp_all [MappingRecord.classRename?]
  apply h.records e he
  rw [hclass]
  simp [MappingRecord.texts]

theorem Printable.newNamesHave (h : m.Printable) :
    Signature.NewNamesHave IsSolid m.classTable :=
  fun _ _ hget => (h.isColumn_new hget).solid

theorem Printable.isColumn_renameClasses (h : m.Printable) {s : String} (hs : IsColumn s) :
    IsColumn (Signature.renameClasses m.classTable s).text where
  ne_nil hempty := by
    have hhead := Signature.head?_text_renameClasses m.classTable s
    rw [hempty] at hhead
    exact hs.ne_nil (List.head?_eq_none_iff.mp hhead.symm)
  solid := Signature.forall_mem_renameClasses h.newNamesHave hs.solid

theorem Printable.isColumn_renameName (h : m.Printable) {s : String} (hs : IsColumn s) :
    IsColumn (Signature.renameName m.classTable s).text := by
  unfold Signature.renameName
  split
  · exact h.isColumn_renameClasses hs
  · cases hget : m.classTable.get? s with
    | none => exact hs
    | some new => exact h.isColumn_new hget

theorem Printable.reverseRecord (h : m.Printable) {r : MappingRecord}
    (hr : ∀ s ∈ r.texts, IsColumn s) : ∀ s ∈ (reverseRecord m.classTable r).texts, IsColumn s := by
  cases r <;> simp only [MappingRecord.texts, MappingSet.reverseRecord, List.forall_mem_cons] at hr ⊢
  case ofClass old new => exact ⟨hr.2.1, hr.1, hr.2.2⟩
  all_goals
    obtain ⟨howner, hdescriptor, hold, hnew, hnone⟩ := hr
    exact ⟨h.isColumn_renameName howner, h.isColumn_renameClasses hdescriptor, hnew, hold, hnone⟩

theorem Printable.reversed (h : m.Printable) : m.reversed.Printable where
  source := h.target
  target := h.source
  records := by
    intro e he
    obtain ⟨old, hold, rfl⟩ := List.mem_map.mp he
    exact h.reverseRecord (h.records old hold)

theorem Printable.repeat_reversed (h : m.Printable) (n : Nat) :
    (Nat.repeat MappingSet.reversed n m).Printable := by
  induction n with
  | zero => exact h
  | succ n ih => exact ih.reversed

/-- The set as it is read from a file that holds nothing but its header and its records. -/
def relined (m : MappingSet) : MappingSet :=
  { m with entries := m.entries.mapIdx fun k e => ⟨k + 2, e.record⟩ }

end MappingSet

/-! ## What is written -/

namespace Tiny

open MappingSet

/-- The lines of a file by their columns. -/
def rows (m : MappingSet) : List (List String) :=
  ["v1", m.source, m.target] :: m.entries.map fun e => recordColumns e.record

theorem mem_recordColumns {r : MappingRecord} {s : String} (h : s ∈ recordColumns r) :
    s = "CLASS" ∨ s = "FIELD" ∨ s = "METHOD" ∨ s ∈ r.texts := by
  cases r <;> simp_all [recordColumns, MappingRecord.texts] <;> grind

theorem isColumn_of_mem_rows {m : MappingSet} (h : m.Printable) {row : List String}
    (hrow : row ∈ rows m) {s : String} (hs : s ∈ row) : IsColumn s := by
  have hword : ∀ s ∈ ["v1", "CLASS", "FIELD", "METHOD"], IsColumn s := by decide
  rcases List.mem_cons.mp hrow with rfl | hrow
  · simp only [List.mem_cons, List.not_mem_nil, or_false] at hs
    rcases hs with rfl | rfl | rfl
    · exact hword _ (by simp)
    · exact h.source
    · exact h.target
  · obtain ⟨e, he, rfl⟩ := List.mem_map.mp hrow
    rcases mem_recordColumns hs with rfl | rfl | rfl | hs
    · exact hword _ (by simp)
    · exact hword _ (by simp)
    · exact hword _ (by simp)
    · exact h.records e he s hs

theorem toList_foldl_append (l : List String) (start : String) :
    (l.foldl (· ++ ·) start).toList = start.toList ++ l.flatMap String.toList := by
  induction l generalizing start with
  | nil => simp
  | cons s rest ih => rw [List.foldl_cons, ih, String.toList_append, List.flatMap_cons,
      List.append_assoc]

theorem toList_print (m : MappingSet) :
    (print m).toList =
      ((rows m).map fun row => ("\t".intercalate row).toList).flatMap (· ++ ['\n']) := by
  have hline : ∀ row, (printLine row).toList = ("\t".intercalate row).toList ++ ['\n'] :=
    fun row => String.toList_append
  rw [print, toList_foldl_append, rows, List.map_cons, List.flatMap_cons, hline, List.map_map,
    List.flatMap_map, List.flatMap_map]
  congr 2
  funext e
  exact hline _

theorem mem_intercalate {sep : Char} {all : List (List Char)} {c : Char}
    (h : c ∈ [sep].intercalate all) : c = sep ∨ ∃ w ∈ all, c ∈ w := by
  induction all with
  | nil => simp at h
  | cons w rest ih =>
    cases rest with
    | nil => exact Or.inr ⟨w, by simp, by simpa using h⟩
    | cons next more =>
      rw [List.intercalate_cons_cons, List.append_assoc] at h
      rcases List.mem_append.mp h with hw | h
      · exact Or.inr ⟨w, by simp, hw⟩
      · rcases List.mem_cons.mp h with rfl | h
        · exact Or.inl rfl
        · rcases ih h with hsep | ⟨v, hv, hc⟩
          · exact Or.inl hsep
          · exact Or.inr ⟨v, List.mem_cons_of_mem w hv, hc⟩

/-- The characters of a line of columns are those of its columns and tabs. -/
theorem mem_line {row : List String} {c : Char} (h : c ∈ ("\t".intercalate row).toList) :
    c = '\t' ∨ ∃ s ∈ row, c ∈ s.toList := by
  rw [String.toList_intercalate] at h
  rcases mem_intercalate h with htab | ⟨w, hw, hc⟩
  · exact Or.inl htab
  · obtain ⟨s, hs, rfl⟩ := List.mem_map.mp hw
    exact Or.inr ⟨s, hs, hc⟩

theorem columns_line {row : List String} (h : ∀ s ∈ row, IsColumn s) :
    ∃ trimmed, columns ("\t".intercalate row) = (trimmed, row) := by
  have hwhole : ("\t".intercalate row).toList.takeWhile (· ≠ '#') =
      ("\t".intercalate row).toList := by
    apply List.takeWhile_eq_self_iff.mpr
    intro c hc
    rcases mem_line hc with rfl | ⟨s, hs, hc⟩
    · decide
    · simpa using ((h s hs).solid c hc).2
  have htab : "\t".toList = ['\t'] := rfl
  have hwords : (words ("\t".intercalate row).toList).map String.ofList = row := by
    rw [String.toList_intercalate, htab, Text.words_intercalate (by decide), List.map_map]
    · exact List.map_id'' (fun s => String.ofList_toList) row
    · intro w hw
      obtain ⟨s, hs, rfl⟩ := List.mem_map.mp hw
      exact (h s hs).isWord
  rw [columns, hwhole, hwords]
  exact ⟨_, rfl⟩

/-- A set of columns is written as one line for each row. -/
theorem lines_print {m : MappingSet} (h : m.Printable) :
    lines (print m).toUTF8 = (rows m).map fun row => .ok ("\t".intercalate row) := by
  have hbreaks : ∀ line ∈ (rows m).map fun row => ("\t".intercalate row).toList,
      '\n' ∉ line ∧ '\r' ∉ line := by
    have hchar : ∀ row ∈ rows m, ∀ c ∈ ("\t".intercalate row).toList, c = '\t' ∨ IsSolid c := by
      intro row hrow c hc
      rcases mem_line hc with htab | ⟨s, hs, hc⟩
      · exact Or.inl htab
      · exact Or.inr ((isColumn_of_mem_rows h hrow hs).solid c hc)
    intro line hline
    obtain ⟨row, hrow, rfl⟩ := List.mem_map.mp hline
    constructor
    · intro hmem
      exact absurd (hchar row hrow _ hmem) (by decide)
    · intro hmem
      exact absurd (hchar row hrow _ hmem) (by decide)
  rw [Text.lines_toUTF8, toList_print, Text.charLines_flatMap hbreaks, List.map_map]
  apply List.map_congr_left
  intro row _
  exact congrArg _ String.ofList_toList

theorem parseRecord_recordColumns (r : MappingRecord) : parseRecord (recordColumns r) = .ok r := by
  have hupper : upper "CLASS" = "CLASS" ∧ upper "FIELD" = "FIELD" ∧ upper "METHOD" = "METHOD" := by
    decide
  cases r <;> simp [recordColumns, parseRecord, hupper]

theorem parseRecords_row {e : MappingEntry} (h : ∀ s ∈ recordColumns e.record, IsColumn s)
    (number : Nat) (rest : List (Except FileError String)) :
    parseRecords number (.ok ("\t".intercalate (recordColumns e.record)) :: rest) =
      (parseRecords (number + 1) rest).map fun more => ⟨number, e.record⟩ :: more := by
  obtain ⟨trimmed, hcolumns⟩ := columns_line h
  have hrecord := parseRecord_recordColumns e.record
  rw [parseRecords, hcolumns]
  cases hrow : recordColumns e.record with
  | nil => cases hkind : e.record <;> simp [hkind, recordColumns] at hrow
  | cons kind texts =>
    rw [hrow] at hrecord
    simp only [hrecord]

theorem parseRecords_rows {entries : List MappingEntry}
    (h : ∀ e ∈ entries, ∀ s ∈ recordColumns e.record, IsColumn s) (number : Nat) :
    parseRecords number (entries.map fun e => .ok ("\t".intercalate (recordColumns e.record))) =
      .ok (entries.mapIdx fun k e => ⟨k + number, e.record⟩) := by
  induction entries generalizing number with
  | nil => rfl
  | cons e rest ih =>
    have hrest := ih (fun other hother => h other (List.mem_cons_of_mem e hother)) (number + 1)
    have hnumbers : (fun k (e : MappingEntry) => (⟨k + 1 + number, e.record⟩ : MappingEntry)) =
        fun k e => ⟨k + (number + 1), e.record⟩ := by
      funext k e
      rw [Nat.add_assoc, Nat.add_comm 1 number]
    rw [List.map_cons, parseRecords_row (h e List.mem_cons_self), hrest, List.mapIdx_cons, hnumbers,
      Nat.zero_add]
    rfl

theorem parse_print {m : MappingSet} (h : m.Printable) :
    parse (lines (print m).toUTF8) = .ok m.relined := by
  have hrow : ∀ row ∈ rows m, ∀ s ∈ row, IsColumn s := fun _ hrow _ hs =>
    isColumn_of_mem_rows h hrow hs
  obtain ⟨trimmed, hheader⟩ := columns_line (hrow _ List.mem_cons_self)
  have hrecords := parseRecords_rows (fun e he => hrow _
    (List.mem_cons_of_mem _ (List.mem_map_of_mem he))) 2
  rw [lines_print h, rows, List.map_cons, List.map_map, parse, parseFrom, hheader]
  show (parseRecords 2 _).map _ = _
  exact congrArg (Except.map fun entries => (⟨m.source, m.target, entries⟩ : MappingSet)) hrecords

/-- A set that was read, reversed any number of times, is written to a text that is read as the same
set; its records stand on the lines after the header. -/
theorem parse_print_reversed {bytes : ByteArray} {m : MappingSet}
    (h : parse (lines bytes) = .ok m) (n : Nat) :
    parse (lines (print (Nat.repeat MappingSet.reversed n m)).toUTF8) =
      .ok (Nat.repeat MappingSet.reversed n m).relined := by
  have hread : m.Printable := printable_of_parseFrom h
  exact parse_print (hread.repeat_reversed n)

end Tiny

namespace Samples

/-- A file with comments, empty lines, kinds in lower case and a line that ends in a carriage
return. -/
def looseFile : String :=
  "# renames\n\n v1 official\tnamed # header\n\nclass a Alpha\r\nField a La; f first\n#\n" ++
    "METHOD [La; (La;I)V m 2nd # last"

def looseMappings : MappingSet where
  source := "official"
  target := "named"
  entries :=
    [⟨5, .ofClass "a" "Alpha"⟩, ⟨6, .ofField "a" "La;" "f" "first"⟩,
      ⟨8, .ofMethod "[La;" "(La;I)V" "m" "2nd"⟩]

end Samples

theorem parse_print_reversed_looseFile :
    Tiny.parse (lines Samples.looseFile.toUTF8) = .ok Samples.looseMappings ∧
      Tiny.parse (lines (Tiny.print (Nat.repeat MappingSet.reversed 1 Samples.looseMappings)).toUTF8) =
        .ok ⟨"named", "official",
          [⟨2, .ofClass "Alpha" "a"⟩, ⟨3, .ofField "Alpha" "LAlpha;" "first" "f"⟩,
            ⟨4, .ofMethod "[LAlpha;" "(LAlpha;I)V" "2nd" "m"⟩]⟩ := by
  have hread : Tiny.parse (lines Samples.looseFile.toUTF8) = .ok Samples.looseMappings := by
    rw [Text.lines_toUTF8]
    decide +kernel
  have hset : (Nat.repeat MappingSet.reversed 1 Samples.looseMappings).relined =
      ⟨"named", "official",
        [⟨2, .ofClass "Alpha" "a"⟩, ⟨3, .ofField "Alpha" "LAlpha;" "first" "f"⟩,
          ⟨4, .ofMethod "[LAlpha;" "(LAlpha;I)V" "2nd" "m"⟩]⟩ := by
    decide +kernel
  exact ⟨hread, hset ▸ Tiny.parse_print_reversed hread 1⟩

end Classmith
