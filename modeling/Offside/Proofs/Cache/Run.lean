import Offside.Proofs.Cache.Entry
import Offside.Proofs.Markup.Below

/-!
# The cache over many calls

Templates whose names are the same text up to the ending share an entry. Once an entry was
written it is later than every template, so it is never written again: after any calls it
holds the markup of the first template with its name that was compiled and written
(`Engine.Holds`). Calls may fail before, because a template cannot be compiled or because the
disk refuses to be written to. The entry holds the markup of the template of the call if no
other file with its name was written before (`Engine.cache_holds_first_markup`), and need not
otherwise (`Engine.cache_holds_other_page`).
-/

set_option autoImplicit false

namespace Offside

/-- The disk, when it gives some answer to a write, or none. -/
def Disk.answering (d : Disk) (refusal : Option Disk.Fault) : Disk :=
  { d with refusal }

namespace Engine

open Disk (IsFileName fileName)

/-- A call of the cache: for a template, with the answer that the disk gives to a write if it
refuses it. -/
structure Call where
  path : Path
  refusal : Option Disk.Fault := none

/-- Makes a call. -/
def call (e : Engine) (d : Disk) (c : Call) : Except Error Path × Disk :=
  e.cache (d.answering c.refusal) c.path

variable {e : Engine} {d d' : Disk} {c : Call} {directory : Path} {location : Disk.Location}
  {calls : List Call}

/-- An engine with a cache that can be written to and has nothing in it. -/
structure EmptyCache (e : Engine) (d : Disk) (directory : Path) (location : Disk.Location) :
    Prop where
  configured : e.cacheDirectory = some directory
  found : d.locate? directory = some location
  writable : ∃ modified, d.at? location = some (.directory modified true)
  empty : ∀ name, IsFileName name → d.at? (location ++ [name]) = none

/-- A template file that is older than anything written from now on. -/
def IsTemplate (d : Disk) (path : Path) : Prop :=
  ∃ content modified, d.get? path = some (.file content modified) ∧ modified < d.clock

/-- The disk after some calls. -/
def callAll (e : Engine) (d : Disk) (calls : List Call) : Disk :=
  calls.foldl (fun d c => (e.call d c).2) d

theorem callAll_concat (e : Engine) (d : Disk) (calls : List Call) (c : Call) :
    callAll e d (calls ++ [c]) = (e.call (callAll e d calls) c).2 := by
  simp [callAll]

/-! ### The first markup for an entry -/

/-- The markup that a call writes to the given entry, if nothing else is in its way. -/
def markup? (e : Engine) (d : Disk) (name : Path) (c : Call) : Option String :=
  if entryName c.path = name ∧ c.refusal = none then (e.renderFile d c.path).toOption else none

variable {markup : String}

theorem markup?_eq_some_iff {name : Path} :
    markup? e d name c = some markup ↔
      entryName c.path = name ∧ c.refusal = none ∧ e.renderFile d c.path = .ok markup := by
  unfold markup?
  split
  · next h => cases e.renderFile d c.path <;> simp [h, Except.toOption]
  · next h =>
    constructor
    · intro heq
      cases heq
    · rintro ⟨hname, hrefusal, -⟩
      exact absurd ⟨hname, hrefusal⟩ h

/-- The markup of the first call for the given entry that can write it. -/
def firstMarkup? (e : Engine) (d : Disk) (name : Path) (calls : List Call) : Option String :=
  calls.findSome? (markup? e d name)

theorem firstMarkup?_concat (e : Engine) (d : Disk) (name : Path) (calls : List Call) (c : Call) :
    firstMarkup? e d name (calls ++ [c]) =
      (firstMarkup? e d name calls).or (markup? e d name c) := by
  rw [firstMarkup?, firstMarkup?, List.findSome?_append]
  cases h : markup? e d name c <;> simp [h]

theorem firstMarkup?_concat_of_ne {name : Path} (h : entryName c.path ≠ name) :
    firstMarkup? e d name (calls ++ [c]) = firstMarkup? e d name calls := by
  have hnone : markup? e d name c = none := by
    rw [markup?, if_neg fun hboth => h hboth.1]
  rw [firstMarkup?_concat, hnone, Option.or_none]

/-! ### What holds after any calls -/

/-- What calls made of the disk: entries that hold the first markup for them and are later than
every template. -/
structure Holds (e : Engine) (d : Disk) (location : Disk.Location) (calls : List Call)
    (d' : Disk) : Prop where
  locations : ∀ path, d'.locate? path = d.locate? path
  others : ∀ other, (∀ name, IsFileName name → other ≠ location ++ [name]) →
    d'.at? other = d.at? other
  clock : d.clock ≤ d'.clock
  missing : ∀ name, IsFileName name → firstMarkup? e d name calls = none →
    d'.at? (location ++ [name]) = none
  present : ∀ name markup, IsFileName name → firstMarkup? e d name calls = some markup →
    ∃ time, d.clock ≤ time ∧ d'.at? (location ++ [name]) = some (.file (.text markup) time)

variable {path : Path}

theorem IsTemplate.isFile (h : IsTemplate d path) : d.isFile path = true := by
  obtain ⟨content, modified, hget, -⟩ := h
  exact Disk.isFile_iff.2 ⟨content, modified, hget⟩

section

variable (hcache : EmptyCache e d directory location) (h : Holds e d location calls d')

section

include h

/-- What holds of a disk holds whatever it answers. -/
theorem Holds.answering (refusal : Option Disk.Fault) :
    Holds e d location calls (d'.answering refusal) where
  locations path := by
    rw [← h.locations path]
    apply Disk.locate?_congr
    exact fun _ => rfl
  others := h.others
  clock := h.clock
  missing := h.missing
  present := h.present

theorem Holds.get?_of_ne {other : Path} {place : Disk.Location}
    (hplace : d.locate? other = some place)
    (hne : ∀ name, IsFileName name → place ≠ location ++ [name]) :
    d'.get? other = d.get? other := by
  rw [Disk.get?, Disk.get?, h.locations, hplace]
  exact h.others place hne

/-- A call that adds no first markup may leave the disk as it is. -/
theorem Holds.of_firstMarkup?_eq
    (hfirst : firstMarkup? e d (entryName c.path) (calls ++ [c]) =
      firstMarkup? e d (entryName c.path) calls) :
    Holds e d location (calls ++ [c]) d' := by
  have hall : ∀ name, firstMarkup? e d name (calls ++ [c]) = firstMarkup? e d name calls := by
    intro name
    by_cases heq : entryName c.path = name
    · rw [← heq, hfirst]
    · exact firstMarkup?_concat_of_ne heq
  constructor
  · exact h.locations
  · exact h.others
  · exact h.clock
  · intro name hname hnone
    exact h.missing name hname (by rw [← hall, hnone])
  · intro name markup hname hsome
    exact h.present name markup hname (by rw [← hall, hsome])

end

include hcache h

variable {path : Path}

/-- No call changes a template. -/
theorem Holds.get?_template (htemplate : IsTemplate d path) : d'.get? path = d.get? path := by
  obtain ⟨content, modified, hget, -⟩ := htemplate
  obtain ⟨place, hplace, hat⟩ := Disk.get?_eq_some.1 hget
  refine h.get?_of_ne hplace fun name hname heq => ?_
  rw [heq, hcache.empty name hname] at hat
  cases hat

theorem Holds.get?_directory : ∃ modified, d'.get? directory = some (.directory modified true) := by
  obtain ⟨modified, hat⟩ := hcache.writable
  refine ⟨modified, ?_⟩
  rw [h.get?_of_ne hcache.found, Disk.get?, hcache.found]
  · exact hat
  · intro name _ heq
    simpa using congrArg List.length heq

section

variable (htemplate : IsTemplate d path)

include htemplate

theorem Holds.ready : Ready e d' path directory location := by
  obtain ⟨modified, hget⟩ := h.get?_directory hcache
  have hfound : d'.locate? directory = some location := by rw [h.locations, hcache.found]
  rw [Disk.get?, hfound, Option.bind_some] at hget
  constructor
  · exact hcache.configured
  · exact hfound
  · exact Disk.isDirectoryAt_iff.2 ⟨modified, true, hget⟩
  · rw [Disk.isFile, h.get?_template hcache htemplate]
    exact htemplate.isFile

theorem Holds.get?_entry :
    d'.get? (cachePath directory path) = d'.at? (location ++ [entryName path]) := by
  rw [Disk.get?, (h.ready hcache htemplate).locate?_cachePath, Option.bind_some]

/-- An entry with markup is later than its template. -/
theorem Holds.isLater_iff :
    d'.IsLater (cachePath directory path) path ↔
      (firstMarkup? e d (entryName path) calls).isSome := by
  have hname : IsFileName (entryName path) := isFileName_entryName htemplate.isFile
  unfold Disk.IsLater Disk.modified?
  rw [h.get?_entry hcache htemplate, h.get?_template hcache htemplate]
  cases hfirst : firstMarkup? e d (entryName path) calls with
  | none => simp [h.missing _ hname hfirst]
  | some markup =>
    obtain ⟨time, htime, hat⟩ := h.present _ markup hname hfirst
    obtain ⟨content, modified, hget, hold⟩ := htemplate
    rw [hat, hget]
    have hlt : modified < time := by omega
    simpa [Disk.Entry.modified] using hlt

/-- A template without markup in the cache is written there, if it can be compiled and the disk
does not refuse it. -/
theorem Holds.exists_written {markup : String}
    (hfirst : firstMarkup? e d (entryName path) calls = none) (hrefusal : d'.refusal = none)
    (hrendered : e.renderFile d path = .ok markup) :
    ∃ d'', Written e d' path directory markup d'' := by
  have hname : IsFileName (entryName path) := isFileName_entryName htemplate.isFile
  obtain ⟨modified, hget⟩ := h.get?_directory hcache
  refine (h.ready hcache htemplate).exists_written hrefusal ?_ ?_ ?_
  · rw [Disk.isWritable, hget]
  · rw [Disk.isDirectoryAt, h.missing _ hname hfirst]
  · rw [renderFile_congr (h.get?_template hcache htemplate), hrendered]

end

/-- The call that writes an entry writes the first markup for it. -/
theorem Holds.of_written (htemplate : IsTemplate d c.path) {markup : String} {d'' : Disk}
    (hfirst : firstMarkup? e d (entryName c.path) calls = none) (hrefusal : c.refusal = none)
    (hwritten : Written e d' c.path directory markup d'') :
    Holds e d location (calls ++ [c]) d'' := by
  have hready : Ready e d' c.path directory location := h.ready hcache htemplate
  have hsame : d'.SameBut (location ++ [entryName c.path]) d'' := Written.sameBut hready hwritten
  have hname : IsFileName (entryName c.path) := isFileName_entryName htemplate.isFile
  have hrendered : e.renderFile d c.path = .ok markup := by
    rw [← renderFile_congr (h.get?_template hcache htemplate), hwritten.rendered]
  have hnow : firstMarkup? e d (entryName c.path) (calls ++ [c]) = some markup := by
    rw [firstMarkup?_concat, hfirst, Option.none_or]
    exact markup?_eq_some_iff.2 ⟨rfl, hrefusal, hrendered⟩
  have hkept : ∀ name, entryName c.path ≠ name →
      d''.at? (location ++ [name]) = d'.at? (location ++ [name]) := by
    intro name hne
    refine hsame.entries _ fun heq => hne ?_
    simpa using heq.symm
  constructor
  · intro other
    rw [hsame.paths, h.locations]
  · intro other hother
    rw [hsame.entries other (hother _ hname), h.others other hother]
  · obtain ⟨-, _, -, -, rfl⟩ := Disk.write_eq_ok.1 hwritten.written
    exact Nat.le_succ_of_le h.clock
  · intro name hname' hnone
    by_cases heq : entryName c.path = name
    · rw [← heq, hnow] at hnone
      cases hnone
    · rw [hkept name heq]
      rw [firstMarkup?_concat_of_ne heq] at hnone
      exact h.missing name hname' hnone
  · intro name markup' hname' hsome
    by_cases heq : entryName c.path = name
    · subst heq
      obtain rfl := Option.some.inj (hnow.symm.trans hsome)
      refine ⟨d'.clock, h.clock, ?_⟩
      have hentry := Written.get?_entry hready hwritten
      rwa [Disk.get?, hsame.paths, hready.locate?_cachePath, Option.bind_some] at hentry
    · rw [hkept name heq]
      rw [firstMarkup?_concat_of_ne heq] at hsome
      exact h.present name markup' hname' hsome

/-- One more call keeps what holds. If it succeeds, there is a first markup for its entry, the
call included. -/
theorem Holds.step (htemplate : IsTemplate d c.path) :
    Holds e d location (calls ++ [c]) (e.call d' c).2 ∧
      ∀ p, (e.call d' c).1 = .ok p →
        (firstMarkup? e d (entryName c.path) (calls ++ [c])).isSome := by
  have hanswering : Holds e d location calls (d'.answering c.refusal) := h.answering c.refusal
  have hready : Ready e (d'.answering c.refusal) c.path directory location :=
    hanswering.ready hcache htemplate
  have hlater := hanswering.isLater_iff hcache htemplate
  show Holds e d location (calls ++ [c]) (e.cache _ c.path).2 ∧ ∀ p, (e.cache _ c.path).1 = _ → _
  cases hfirst : firstMarkup? e d (entryName c.path) calls with
  | some markup =>
    -- The entry is later, so nothing is written.
    have hconcat : firstMarkup? e d (entryName c.path) (calls ++ [c]) = some markup := by
      rw [firstMarkup?_concat, hfirst, Option.some_or]
    rw [hready.cache_of_isLater (hlater.2 (by rw [hfirst]; rfl))]
    refine ⟨hanswering.of_firstMarkup?_eq (hconcat.trans hfirst.symm), fun p _ => ?_⟩
    rw [hconcat]
    rfl
  | none =>
    have hnotLater : ¬(d'.answering c.refusal).IsLater (cachePath directory c.path) c.path := by
      rw [hlater, hfirst]
      nofun
    have hconcat : firstMarkup? e d (entryName c.path) (calls ++ [c]) =
        markup? e d (entryName c.path) c := by
      rw [firstMarkup?_concat, hfirst, Option.none_or]
    cases hmarkup : markup? e d (entryName c.path) c with
    | some markup =>
      -- Nothing is in the way of writing the entry.
      obtain ⟨-, hrefusal, hrendered⟩ := markup?_eq_some_iff.1 hmarkup
      obtain ⟨d'', hwritten⟩ := hanswering.exists_written hcache htemplate hfirst hrefusal hrendered
      rw [hready.cache_of_written hnotLater hwritten]
      refine ⟨hanswering.of_written hcache htemplate hfirst hrefusal hwritten, fun p _ => ?_⟩
      rw [hconcat, hmarkup]
      rfl
    | none =>
      -- The template cannot be compiled or the write is refused, so the call fails.
      obtain ⟨error, hfails⟩ | ⟨directory', location', hready', ⟨hlater', -⟩ |
        ⟨-, markup, d'', hwritten, -⟩⟩ := cache_cases e (d'.answering c.refusal) c.path
      · rw [hfails]
        exact ⟨hanswering.of_firstMarkup?_eq (by rw [hconcat, hmarkup, hfirst]), nofun⟩
      · obtain rfl := Option.some.inj (hready.configured.symm.trans hready'.configured)
        exact absurd hlater' hnotLater
      · have hrendered := hwritten.rendered
        rw [renderFile_congr (hanswering.get?_template hcache htemplate)] at hrendered
        have hsome := markup?_eq_some_iff.2
          ⟨rfl, (Disk.write_eq_ok.1 hwritten.written).1, hrendered⟩
        rw [hmarkup] at hsome
        cases hsome

end

theorem EmptyCache.holds_callAll (hcache : EmptyCache e d directory location)
    (htemplates : ∀ c ∈ calls, IsTemplate d c.path) :
    Holds e d location calls (callAll e d calls) := by
  induction calls using List.reverseRecOn with
  | nil => exact ⟨fun _ => rfl, fun _ _ => rfl, Nat.le_refl _, fun name hname _ =>
      hcache.empty name hname, nofun⟩
  | append_singleton calls c ih =>
    rw [callAll_concat]
    have hcalls : ∀ other ∈ calls, IsTemplate d other.path := fun other hother =>
      htemplates other (List.mem_append_left _ hother)
    exact ((ih hcalls).step hcache (htemplates c (by simp))).1

/-! ### Templates with the same name -/

/-- Two templates whose names are the same text up to the ending. -/
def SameStem (path other : Path) : Prop :=
  ∃ stem, IsStem (fileName path).text stem ∧ IsStem (fileName other).text stem

theorem sameStem_iff {other : Path} : SameStem path other ↔ entryName path = entryName other := by
  simp only [SameStem, isStem_iff, entryName_inj]
  constructor
  · rintro ⟨stem, hpath, hother⟩
    rw [← hpath, ← hother]
  · intro heq
    exact ⟨_, rfl, heq⟩

/-- A call whose template has the name of another one, up to the ending, and can be compiled,
with no refusal to write its markup. -/
def Call.Writes (e : Engine) (d : Disk) (path : Path) (c : Call) (markup : String) : Prop :=
  SameStem c.path path ∧ c.refusal = none ∧ e.renderFile d c.path = .ok markup

theorem firstMarkup?_eq_some_iff :
    firstMarkup? e d (entryName path) calls = some markup ↔
      ∃ front first back, calls = front ++ first :: back ∧ first.Writes e d path markup ∧
        ∀ earlier ∈ front, ∀ m, ¬earlier.Writes e d path m := by
  have hsome : ∀ c m, markup? e d (entryName path) c = some m ↔ c.Writes e d path m := by
    intro c m
    rw [markup?_eq_some_iff, Call.Writes, sameStem_iff]
  have hnone : ∀ c, markup? e d (entryName path) c = none ↔ ∀ m, ¬c.Writes e d path m := by
    intro c
    simp only [← hsome, Option.eq_none_iff_forall_ne_some]
  rw [firstMarkup?, List.findSome?_eq_some_iff]
  simp only [hsome, hnone]

/-- Paths to one file have the same markup. -/
theorem renderFile_eq_ok_of_locate? {other : Path}
    (hlocate : d.locate? path = d.locate? other) (h : e.renderFile d path = .ok markup) :
    e.renderFile d other = .ok markup := by
  obtain ⟨source, hread, hrender⟩ := renderFile_eq_ok_iff.1 h
  have hother : d.read? other = some (.ok source) := by
    rw [← hread, Disk.read?, Disk.read?, Disk.get?, Disk.get?, hlocate]
  exact renderFile_eq_ok_iff.2
    ⟨source, hother, renderNamed_eq_ok_iff.2 (renderNamed_eq_ok_iff.1 hrender)⟩

/-- Two pages with the same name in two directories, and a cache. -/
def twoPages : Disk where
  entries := [([.ofString "a"], .directory 0 true),
    ([.ofString "a", .ofString "page.slim"], .file (.text "p one") 1000),
    ([.ofString "b"], .directory 0 true),
    ([.ofString "b", .ofString "page.slim"], .file (.text "p two") 1000),
    ([.ofString "cache"], .directory 0 true)]

/-- A call for the first page. -/
def firstPage (refusal : Option Disk.Fault) : Call where
  path := .ofString "a/page.slim"
  refusal := refusal

/-- A call for the second page. -/
def secondPage : Call where
  path := .ofString "b/page.slim"

theorem emptyCache_twoPages :
    EmptyCache caching twoPages (.ofString "cache") [.ofString "cache"] := by
  constructor
  · rfl
  · decide +kernel
  · exact ⟨0, by decide +kernel⟩
  · intro name hname
    have hlookup : twoPages.entries.lookup [.ofString "cache", name] = none := by
      rw [List.lookup_eq_none_iff]
      simp [twoPages, Path.ofString_inj]
    have hexists : Disk.alwaysExists [.ofString "cache", name] = false := by
      have hne : Path.ofString "cache" ≠ Disk.outer := by decide +kernel
      simp [Disk.alwaysExists, hne]
    rw [List.singleton_append, Disk.at?, hlookup, hexists]
    rfl

theorem isTemplate_twoPages (refusal : Option Disk.Fault) :
    ∀ c ∈ [firstPage refusal] ++ [secondPage], IsTemplate twoPages c.path := by
  rw [List.forall_mem_append, List.forall_mem_singleton, List.forall_mem_singleton]
  have hold : 1000 < twoPages.clock := by
    show 1000 < 1000000000
    omega
  have hfirst : twoPages.get? (firstPage none).path = some (.file (.text "p one") 1000) := by
    decide +kernel
  constructor
  · exact ⟨.text "p one", 1000, hfirst, hold⟩
  · exact ⟨.text "p two", 1000, by decide +kernel, hold⟩

theorem renderFile_twoPages :
    caching.renderFile twoPages (firstPage none).path = .ok "<p>one</p>" ∧
      caching.renderFile twoPages secondPage.path = .ok "<p>two</p>" := by
  constructor
  · exact renderFile_eq_ok_iff.2
      ⟨"p one", by decide +kernel, renderNamed_of_attempt 4 (by decide +kernel)⟩
  · exact renderFile_eq_ok_iff.2
      ⟨"p two", by decide +kernel, renderNamed_of_attempt 4 (by decide +kernel)⟩

end Engine

end Offside
