import Classmith.Files.Loading

/-!
# Files written and read

A file that was written is what its path leads to afterwards, and the classes at that path are those of
its contents.
-/
namespace Classmith.FileTree

/-- Where a walk has come to a directory, it goes on from there, also after files have changed. -/
theorem follow_append {t after : FileTree} (hdirectories : after.directories = t.directories)
    {l reached : Location} {names : List String} (h : t.follow l names = .ok (reached, .directory))
    (more : List String) : after.follow l (names ++ more) = after.follow reached more := by
  induction names generalizing l with
  | nil =>
    cases h
    rfl
  | cons name rest ih =>
    have hsame : ∀ place, after.isDirectoryAt place = t.isDirectoryAt place := by
      intro place
      rw [isDirectoryAt, isDirectoryAt, hdirectories]
    rw [follow] at h
    rw [List.cons_append, follow]
    by_cases hskip : name = "" ∨ name = "."
    · rw [if_pos hskip] at h ⊢
      exact ih h
    · rw [if_neg hskip] at h ⊢
      dsimp only at h ⊢
      generalize (if name = ".." then parent l else l ++ [name]) = next at h ⊢
      rw [hsame]
      by_cases hdirectory : t.isDirectoryAt next
      · rw [if_pos hdirectory] at h ⊢
        exact ih h
      · -- a file ends the walk, and so does nothing at all
        rw [if_neg hdirectory] at h
        split at h
        · split at h <;> cases h
        · cases h

theorem dropSlashes_of_no_slash {all : List String} (h : (dropSlashes all).2 = false) :
    (dropSlashes all).1 = all := by
  have hsuffix : all.reverse.dropWhile (· = "") <:+ all.reverse := List.dropWhile_suffix _
  have hlength : (dropSlashes all).1.length = all.length := by
    have hle := hsuffix.length_le
    have hnot : ¬(dropSlashes all).1.length < all.length := of_decide_eq_false h
    simp only [dropSlashes, List.length_reverse] at hle hnot ⊢
    omega
  have hsame : all.reverse.dropWhile (· = "") = all.reverse := by
    apply hsuffix.eq_of_length
    simpa [dropSlashes] using hlength
  rw [dropSlashes, hsame, List.reverse_reverse]

theorem getLast?_dropSlashes (all : List String) : (dropSlashes all).1.getLast? ≠ some "" := by
  rw [dropSlashes, List.getLast?_reverse]
  intro hlast
  have hhead := List.head?_dropWhile_not (fun name : String => decide (name = "")) all.reverse
  rw [hlast] at hhead
  simp at hhead

/-- A file is written into a directory, under a name that is no directory's. -/
theorem exists_of_write {t after : FileTree} {path : String} {bytes : ByteArray}
    (h : t.write path bytes = .ok after) :
    ∃ l front last, path ≠ "" ∧ (start path).2 = front ++ [last] ∧
      t.follow (start path).1 front = .ok (l, .directory) ∧ ¬(last = "" ∨ last = ".") ∧ last ≠ ".." ∧
      t.isDirectoryAt (l ++ [last]) = false ∧
      after = { t with files := t.files.insert (key (l ++ [last])) bytes } := by
  rw [write] at h
  split at h
  · cases h
  · rename_i hpath
    have hlast := getLast?_dropSlashes (start path).2
    dsimp only at h
    split at h
    · cases h
    · rename_i last hend
      split at h
      · cases h
      · cases h
      · rename_i l hwalk
        split at h
        · cases h
        · rename_i hfree
          simp only [not_or, Bool.not_eq_true] at hfree
          obtain ⟨hslash, hdot, hup, hdirectory⟩ := hfree
          rw [dropSlashes_of_no_slash hslash] at hend hwalk hlast
          obtain ⟨front, hfront⟩ := List.getLast?_eq_some_iff.mp hend
          rw [hfront, List.dropLast_concat] at hwalk
          refine ⟨l, front, last, hpath, hfront, hwalk, ?_, hup, hdirectory, (Except.ok.inj h).symm⟩
          rintro (rfl | rfl)
          · exact hlast hend
          · exact hdot rfl

/-- The path of a file that was written leads to its contents. -/
theorem entry_write {t after : FileTree} {path : String} {bytes : ByteArray}
    (h : t.write path bytes = .ok after) : ∃ l, after.entry path = .ok (l, .file bytes) := by
  obtain ⟨l, front, last, hpath, hnames, hwalk, hnamed, hup, hdirectory, hafter⟩ := exists_of_write h
  have hsame : after.directories = t.directories := by rw [hafter]
  have hfound : after.files.get? (key (l ++ [last])) = some bytes := by
    rw [hafter, Table.get?_insert, if_pos rfl]
  have hnone : after.isDirectoryAt (l ++ [last]) = false := by
    rw [isDirectoryAt, hsame]
    exact hdirectory
  refine ⟨l ++ [last], ?_⟩
  rw [entry, if_neg hpath, hnames, follow_append hsame hwalk, follow, if_neg hnamed]
  simp only [if_neg hup, hnone, hfound, Bool.false_eq_true, if_false, List.isEmpty_nil, if_true]

theorem loadClasses_write {t after : FileTree} {path : String} {bytes : ByteArray}
    (h : t.write path bytes = .ok after) : after.loadClasses path = parseClasses path bytes := by
  obtain ⟨l, hentry⟩ := entry_write h
  simp only [loadClasses, loadFile, hentry]

end Classmith.FileTree
