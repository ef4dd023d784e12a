import Offside.Disk
import Offside.Proofs.General
import Offside.Proofs.Path

/-!
# Where paths lead

Writing a file changes nothing about where paths lead, and nothing about what is found at
any other location (`Disk.locate?_write`, `Disk.at?_write`): a path leads through
directories only, and a file is only written where there is no directory.

A path to a file ends in the name of the file, and so does the location it leads to
(`Disk.getLast?_of_isFile`). The path of a name in a directory leads to that name in the
location of the directory (`Disk.locate?_join`).
-/

set_option autoImplicit false

namespace Offside.Disk

open Path (dot slash)

/-- The names that a file can have in a directory. -/
structure IsFileName (name : Path) : Prop where
  slash : slash ∉ name
  ne_empty : name ≠ []
  ne_same : name ≠ [dot]
  ne_outer : name ≠ outer

/-! ### The parts of a path -/

theorem parts_append_slash (front back : Path) :
    parts (front ++ slash :: back) = parts front ++ parts back :=
  List.splitOn_append_cons_self ..

theorem parts_of_no_slash {name : Path} (h : slash ∉ name) : parts name = [name] :=
  List.splitOn_eq_singleton h

variable {part : Path}

theorem step_of_blank (h : part = [] ∨ part = [dot]) (location : Location) :
    step location part = location := by
  rw [step, if_pos h]

theorem step_of_isFileName {name : Path} (h : IsFileName name) (location : Location) :
    step location name = location ++ [name] := by
  have hblank : ¬(name = [] ∨ name = [dot]) := not_or.2 ⟨h.ne_empty, h.ne_same⟩
  rw [step, if_neg hblank, if_neg h.ne_outer]

/-- Above the working directory there is no name to go back from. -/
theorem step_outer (location : Location) :
    step location outer =
      if location.getLast? = none ∨ location.getLast? = some outer then location ++ [outer]
      else if location.getLast? = some [slash] then location
      else location.dropLast := by
  rw [step, if_neg (by decide), if_pos rfl]

theorem fileName_of_parts {path last : Path} {front : List Path}
    (hparts : parts path = front ++ [last]) (hlast : ¬(last = [] ∨ last = [dot])) :
    fileName path = last := by
  have hnamed : namedParts path = front ++ [last] := by
    rw [namedParts, hparts, List.reverse_concat, List.dropWhile_cons_of_neg (by simpa using hlast)]
    simp
  rw [fileName, hnamed]
  simp

/-! ### Walking -/

variable {d : Disk} {path name directory : Path} {location : Location}

theorem walk?_append (d : Disk) (location : Location) (front back : List Path) :
    d.walk? location (front ++ back) =
      (d.walk? location front).bind fun location' => d.walk? location' back := by
  induction front generalizing location with
  | nil => rfl
  | cons part front ih =>
    rw [List.cons_append, walk?, walk?]
    split
    · exact ih _
    · rfl

theorem walk?_concat_eq_some {front : List Path} {start : Location} :
    d.walk? start (front ++ [part]) = some location ↔
      ∃ before, d.walk? start front = some before ∧ d.isDirectoryAt before = true ∧
        location = step before part := by
  rw [walk?_append, Option.bind_eq_some_iff]
  simp only [walk?]
  constructor
  · rintro ⟨before, hbefore, h⟩
    split at h
    · next hdirectory => exact ⟨before, hbefore, hdirectory, (Option.some.inj h).symm⟩
    · cases h
  · rintro ⟨before, hbefore, hdirectory, rfl⟩
    exact ⟨before, hbefore, by rw [if_pos hdirectory]⟩

theorem locate?_eq_some :
    d.locate? path = some location ↔
      path ≠ [] ∧ d.walk? (start path) (parts path) = some location := by
  rw [locate?]
  split <;> simp_all

theorem get?_eq_some {entry : Entry} :
    d.get? path = some entry ↔ ∃ location, d.locate? path = some location ∧
      d.at? location = some entry := by
  rw [get?, Option.bind_eq_some_iff]

theorem isDirectoryAt_iff :
    d.isDirectoryAt location = true ↔
      ∃ modified writable, d.at? location = some (.directory modified writable) := by
  unfold isDirectoryAt
  split <;> simp_all

theorem isDirectory_iff :
    d.isDirectory directory = true ↔
      ∃ location, d.locate? directory = some location ∧ d.isDirectoryAt location = true := by
  have hget : d.isDirectory directory = true ↔
      ∃ modified writable, d.get? directory = some (.directory modified writable) := by
    unfold isDirectory
    split <;> simp_all
  simp only [hget, get?_eq_some, isDirectoryAt_iff]
  constructor
  · rintro ⟨modified, writable, location, hlocate, hat⟩
    exact ⟨location, hlocate, modified, writable, hat⟩
  · rintro ⟨location, hlocate, modified, writable, hat⟩
    exact ⟨modified, writable, location, hlocate, hat⟩

theorem isFile_iff :
    d.isFile path = true ↔ ∃ content modified, d.get? path = some (.file content modified) := by
  unfold isFile
  split <;> simp_all

/-! ### Names in a directory -/

/-- Joining a name to a directory puts one slash between them. -/
theorem join_eq (directory name : Path) :
    ∃ front, join directory name = front ++ slash :: name ∧
      (directory = front ∨ directory = front ++ [slash]) := by
  unfold join
  split
  · next hlast =>
    obtain ⟨front, rfl⟩ := List.getLast?_eq_some_iff.1 hlast
    exact ⟨front, by simp, .inr rfl⟩
  · exact ⟨directory, rfl, .inl rfl⟩

theorem start_join (hne : directory ≠ []) (name : Path) :
    start (join directory name) = start directory := by
  have hhead : (join directory name).head? = directory.head? := by
    cases directory with
    | nil => exact absurd rfl hne
    | cons byte bytes =>
      unfold join
      split <;> rfl
  rw [start, start, hhead]

/-- A name in a directory is found in the location of the directory. -/
theorem locate?_join (hname : IsFileName name) (hlocate : d.locate? directory = some location)
    (hdirectory : d.isDirectoryAt location = true) :
    d.locate? (join directory name) = some (location ++ [name]) := by
  obtain ⟨hne, hwalk⟩ := locate?_eq_some.1 hlocate
  obtain ⟨front, hjoin, hfront⟩ := join_eq directory name
  have hparts : parts (join directory name) = parts front ++ [name] := by
    rw [hjoin, parts_append_slash, parts_of_no_slash hname.slash]
  have hwalkFront : d.walk? (start directory) (parts front) = some location := by
    rcases hfront with rfl | rfl
    · exact hwalk
    · -- The part behind a slash at the end is empty, and leads nowhere else.
      have hslash : parts (front ++ [slash]) = parts front ++ [[]] := parts_append_slash front []
      rw [hslash, walk?_concat_eq_some] at hwalk
      obtain ⟨before, hbefore, -, hstep⟩ := hwalk
      rw [step_of_blank (.inl rfl)] at hstep
      rw [hbefore, hstep]
  refine locate?_eq_some.2 ⟨?_, ?_⟩
  · rw [hjoin]
    simp
  · rw [start_join hne, hparts, walk?_concat_eq_some]
    exact ⟨location, hwalkFront, hdirectory, (step_of_isFileName hname location).symm⟩

/-! ### Files -/

/-- A location that was reached through directories: what lies above any of its names is
a directory. -/
def Rooted (d : Disk) (location : Location) : Prop :=
  ∀ above part below, location = above ++ part :: below → part ≠ outer → part ≠ [slash] →
    d.isDirectoryAt above = true

theorem rooted_start (d : Disk) (path : Path) : d.Rooted (start path) := by
  intro above part below heq hup hroot
  unfold start at heq
  split at heq
  · -- The root is the only step from the start, and it is no name.
    cases above with
    | nil => exact absurd (List.cons.inj heq).1.symm hroot
    | cons x above => simp at heq
  · simp at heq

theorem Rooted.dropLast (h : d.Rooted location) : d.Rooted location.dropLast := by
  intro above part below heq
  rcases List.eq_nil_or_concat' location with rfl | ⟨init, last, rfl⟩
  · simp at heq
  · rw [List.dropLast_concat] at heq
    exact h above part (below ++ [last]) (by rw [heq]; simp)

theorem Rooted.concat (h : d.Rooted location)
    (hpart : part ≠ outer → d.isDirectoryAt location = true) : d.Rooted (location ++ [part]) := by
  intro above part' below heq hup hroot
  rcases List.eq_nil_or_concat' below with rfl | ⟨init, last, rfl⟩
  · -- The last step was taken from the location itself.
    obtain ⟨rfl, hparts⟩ := List.append_inj' heq rfl
    obtain rfl := (List.cons.inj hparts).1
    exact hpart hup
  · rw [← List.cons_append, ← List.append_assoc] at heq
    exact h above part' init (List.append_inj' heq rfl).1 hup hroot

theorem Rooted.step (h : d.Rooted location) (hdirectory : d.isDirectoryAt location = true)
    (part : Path) : d.Rooted (Disk.step location part) := by
  by_cases habove : part = outer
  · subst habove
    rw [step_outer]
    split
    · exact h.concat fun hne => absurd rfl hne
    · split
      · exact h
      · exact h.dropLast
  · rw [Disk.step, if_neg habove]
    split
    · exact h
    · exact h.concat fun _ => hdirectory

theorem Rooted.walk? {location' : Location} {parts : List Path} (h : d.Rooted location)
    (hwalk : d.walk? location parts = some location') : d.Rooted location' := by
  induction parts generalizing location with
  | nil =>
    obtain rfl := Option.some.inj hwalk
    exact h
  | cons part parts ih =>
    rw [Disk.walk?] at hwalk
    split at hwalk
    · next hdirectory => exact ih (h.step hdirectory part) hwalk
    · cases hwalk

/-- What is at the location of a file is no directory. -/
theorem isDirectoryAt_of_isFile (hfile : d.isFile path = true)
    (hlocate : d.locate? path = some location) : d.isDirectoryAt location = false := by
  obtain ⟨text, modified, hget⟩ := isFile_iff.1 hfile
  rw [get?, hlocate, Option.bind_some] at hget
  rw [isDirectoryAt, hget]

/-- A step that leads to no directory leads to a name, which is then the last one. -/
theorem Rooted.getLast?_step (h : d.Rooted location) (hdirectory : d.isDirectoryAt location = true)
    (hplain : d.isDirectoryAt (Disk.step location part) = false) :
    ¬(part = [] ∨ part = [dot]) ∧ (Disk.step location part).getLast? = some part := by
  have hblank : ¬(part = [] ∨ part = [dot]) := by
    intro hblank
    rw [step_of_blank hblank, hdirectory] at hplain
    cases hplain
  refine ⟨hblank, ?_⟩
  by_cases habove : part = outer
  · subst habove
    rw [step_outer] at hplain ⊢
    split
    · simp
    · next hname =>
      -- One step up from a name leads back to a directory that was passed before.
      rw [if_neg hname] at hplain
      split at hplain
      · rw [hdirectory] at hplain
        cases hplain
      · next hroot =>
        obtain ⟨last, hlast⟩ := Option.ne_none_iff_exists'.1 fun hnone => hname (.inl hnone)
        obtain ⟨init, rfl⟩ := List.getLast?_eq_some_iff.1 hlast
        rw [List.dropLast_concat, h init last [] rfl (by simpa using hname) (by simpa using hroot)]
          at hplain
        cases hplain
  · rw [Disk.step, if_neg hblank, if_neg habove]
    simp

/-- A path to a file and the location it leads to end in the name of the file. -/
theorem getLast?_of_isFile (hfile : d.isFile path = true)
    (hlocate : d.locate? path = some location) :
    location.getLast? = some (fileName path) ∧ (parts path).getLast? = some (fileName path) := by
  obtain ⟨-, hwalk⟩ := locate?_eq_some.1 hlocate
  obtain ⟨front, last, hparts⟩ := (List.eq_nil_or_concat' (parts path)).resolve_left
    (List.splitOn_ne_nil slash path)
  rw [hparts, walk?_concat_eq_some] at hwalk
  obtain ⟨before, hbefore, hdirectory, rfl⟩ := hwalk
  obtain ⟨hblank, hlast⟩ := ((rooted_start d path).walk? hbefore).getLast?_step hdirectory
    (isDirectoryAt_of_isFile hfile hlocate)
  rw [fileName_of_parts hparts hblank, hparts]
  exact ⟨hlast, by simp⟩

/-! ### Writing -/

theorem at?_put (d : Disk) (location other : Location) (entry : Entry) :
    (d.put location entry).at? other = if other = location then some entry else d.at? other := by
  rw [at?, put, Entries.lookup_set]
  by_cases h : other = location
  · simp [h]
  · simp [h, at?]

/-- Where directories are the same, paths lead to the same locations. -/
theorem locate?_congr {d d' : Disk} (h : ∀ location, d'.isDirectoryAt location =
    d.isDirectoryAt location) (path : Path) : d'.locate? path = d.locate? path := by
  have hwalk : ∀ (parts : List Path) (location : Location),
      d'.walk? location parts = d.walk? location parts := by
    intro parts
    induction parts with
    | nil => intro location; rfl
    | cons part parts ih => intro location; rw [walk?, walk?, h, ih]
  rw [locate?, locate?, hwalk]

section

variable {d' : Disk} {content : Content} {modified : Option Nat}

/-- A write succeeds if it is not refused, the path leads somewhere, and no directory is there. -/
theorem write_eq_ok :
    d.write path content modified = .ok d' ↔
      d.refusal = none ∧
        ∃ location, d.locate? path = some location ∧ d.isDirectoryAt location = false ∧
          d' = { d.put location (.file content (modified.getD d.clock)) with
            clock := d.clock + 1 } := by
  unfold write
  split
  · next hrefusal => simp [hrefusal]
  · next hrefusal hlocate => simp [hlocate]
  · next location hrefusal hlocate =>
    split
    · next hdirectory => simp [hlocate, hdirectory]
    · next hdirectory =>
      constructor
      · intro h
        exact ⟨hrefusal, location, hlocate, by simpa using hdirectory, (Except.ok.inj h).symm⟩
      · rintro ⟨-, location', hlocate', -, rfl⟩
        rw [Option.some.inj (hlocate.symm.trans hlocate')]

variable (hwrite : d.write path content modified = .ok d')
  (hlocate : d.locate? path = some location)

include hwrite

include hlocate

/-- Writing changes what is at the location of the path, and nothing else. -/
theorem at?_write (other : Location) :
    d'.at? other =
      if other = location then some (.file content (modified.getD d.clock)) else d.at? other := by
  obtain ⟨-, _, hlocate', -, rfl⟩ := write_eq_ok.1 hwrite
  obtain rfl := Option.some.inj (hlocate.symm.trans hlocate')
  exact at?_put d location other _

/-- A file is written where there is no directory, and it is none. -/
theorem isDirectoryAt_write (other : Location) :
    d'.isDirectoryAt other = d.isDirectoryAt other := by
  obtain ⟨-, _, hlocate', hplain, -⟩ := write_eq_ok.1 hwrite
  obtain rfl := Option.some.inj (hlocate.symm.trans hlocate')
  by_cases h : other = location
  · rw [isDirectoryAt, at?_write hwrite hlocate, if_pos h, h, hplain]
  · rw [isDirectoryAt, at?_write hwrite hlocate, if_neg h, isDirectoryAt]

theorem locate?_write (other : Path) : d'.locate? other = d.locate? other :=
  locate?_congr (isDirectoryAt_write hwrite hlocate) other

theorem get?_write (other : Path) :
    d'.get? other =
      if d.locate? other = some location then some (.file content (modified.getD d.clock))
      else d.get? other := by
  rw [get?, locate?_write hwrite hlocate]
  cases hother : d.locate? other with
  | none => simp [get?, hother]
  | some location' => simp [get?, hother, at?_write hwrite hlocate]

end

end Offside.Disk
