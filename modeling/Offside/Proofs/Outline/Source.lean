import Offside.Proofs.Outline.Scanning

/-!
# A printed outline as a source

What a source is turned into before it is scanned changes a printed outline in one way
only: the tabs in the bodies of its comments become spaces. It has no line breaks but
`\n`, and it neither starts nor ends with a character that is trimmed.

So the lexemes of a printed outline are known (`tokenize_print`).
-/

set_option autoImplicit false

namespace Offside.Outline

open Offside.Character

/-! ### The characters of a printed outline -/

theorem toList_print_rungs (k : Nat) (r : Rung) (rungs : List Rung) :
    ("\n".intercalate ((r :: rungs).map (·.print k))).toList =
      (r.print k).toList ++ tail k rungs := by
  induction rungs generalizing r with
  | nil => simp [tail]
  | cons r' rungs ih =>
    have htail : tail k (r' :: rungs) = '\n' :: ((r'.print k).toList ++ tail k rungs) := rfl
    rw [htail, ← ih r']
    simp [String.toList_intercalate]

theorem IsName.not_mem {name : String} (h : IsName name) {c : Char} (hc : isTagName c = false) :
    c ∉ name.toList := by
  obtain ⟨d, ds, hds, hd, htail⟩ := h.toList_eq
  rw [hds]
  rintro (_ | ⟨_, hmem⟩)
  · simp [isTagName, isName, hd] at hc
  · rw [htail c hmem] at hc
    exact absurd hc (by decide)

theorem IsName.isMargin_of_mem {name : String} (h : IsName name) {c : Char}
    (hc : c ∈ name.toList) : Source.isMargin c = false := by
  refine isMargin_of_isTagName ?_
  rw [← Bool.not_eq_false]
  exact fun hnot => h.not_mem hnot hc

/-- A printed item is one line, and only the body of a comment holds tabs. -/
theorem Item.Valid.not_mem_print {i : Item} (h : i.Valid) :
    '\n' ∉ i.print.toList ∧ '\r' ∉ i.print.toList ∧
      ('\t' ∈ i.print.toList → ∃ body, i = .comment body) := by
  match i, h.1 with
  | .tag name none, ⟨hname, _⟩ =>
    have hnot : ∀ {c}, isTagName c = false → c ∉ (Item.tag name none).print.toList := hname.not_mem
    exact ⟨hnot (by decide), hnot (by decide), fun htab => absurd htab (hnot (by decide))⟩
  | .tag name (some t), ⟨hname, htext⟩ =>
    have htext := (htext t rfl).2.2.1
    have hnot : ∀ {c}, isTagName c = false → c ≠ ' ' → c ∉ t.toList →
        c ∉ (Item.tag name (some t)).print.toList := by
      intro c hc hspace ht
      simp [Item.print, hname.not_mem hc, hspace, ht]
    have hbreak : '\n' ∉ t.toList := fun hmem => (htext _ hmem).1 rfl
    have hreturn : '\r' ∉ t.toList := fun hmem => (htext _ hmem).2.1 rfl
    have htab : '\t' ∉ t.toList := fun hmem => (htext _ hmem).2.2 rfl
    exact ⟨hnot (by decide) (by decide) hbreak, hnot (by decide) (by decide) hreturn,
      fun hmem => absurd hmem (hnot (by decide) (by decide) htab)⟩
  | .code expression buffered, ⟨_, hexpression, _⟩ =>
    have hbreak : '\n' ∉ expression.toList := fun hmem => (hexpression _ hmem).1 rfl
    have hreturn : '\r' ∉ expression.toList := fun hmem => (hexpression _ hmem).2.1 rfl
    have htab : '\t' ∉ expression.toList := fun hmem => (hexpression _ hmem).2.2 rfl
    cases buffered <;> simp [Item.print, hbreak, hreturn, htab]
  | .comment body, ⟨hbody, _⟩ =>
    have hbreak : '\n' ∉ body.toList := fun hmem => (hbody _ hmem).1 rfl
    have hreturn : '\r' ∉ body.toList := fun hmem => (hbody _ hmem).2 rfl
    simp [Item.print, hbreak, hreturn]

/-! ### Line breaks -/

theorem unifyBreaks_of_not_mem {cs : List Char} (h : '\r' ∉ cs) : Source.unifyBreaks cs = cs := by
  fun_induction Source.unifyBreaks cs with
  | case1 => rfl
  | case2 cs ih => exact absurd (.head _) h
  | case3 cs _ ih => exact absurd (.head _) h
  | case4 c cs _ _ ih => rw [ih fun hmem => h (.tail _ hmem)]

theorem not_mem_tail (k : Nat) {rungs : List Rung} (hrungs : ∀ r ∈ rungs, r.item.Valid) :
    '\r' ∉ tail k rungs := by
  intro hmem
  obtain ⟨r, hr, hmem⟩ := List.mem_flatMap.1 hmem
  have hitem := (hrungs r hr).not_mem_print.2.1
  simp [Rung.print, spaces, hitem] at hmem

/-! ### Tabs -/

theorem expandTabs_append (layout : Layout) (cs cs' : List Char) :
    Source.expandTabs layout (cs ++ cs') =
      Source.expandTabs layout cs ++ Source.expandTabs layout cs' :=
  List.flatMap_append

theorem Item.Valid.expandTabs_print (layout : Layout) {i : Item} (h : i.Valid) :
    Source.expandTabs layout i.print.toList = (i.expand layout).print.toList := by
  obtain ⟨-, -, htab⟩ := h.not_mem_print
  cases i with
  | tag name text =>
    exact expandTabs_of_not_mem layout fun hmem => nomatch htab hmem
  | code expression buffered =>
    exact expandTabs_of_not_mem layout fun hmem => nomatch htab hmem
  | comment body =>
    simp only [Item.expand, Item.print, String.toList_append, expandTabs_append, expandTabs,
      String.toList_ofList]
    rfl

theorem Item.Valid.readable {i : Item} (h : i.Valid) : i.Readable := by
  match i, h.1 with
  | .tag name text, hparts => exact hparts
  | .code expression buffered, ⟨hne, hexpression, hlast⟩ =>
    exact ⟨hne, fun hmem => (hexpression _ hmem).1 rfl, hlast⟩
  | .comment body, ⟨hbody, _⟩ => exact fun hmem => (hbody _ hmem).1 rfl

theorem Item.Readable.expand (layout : Layout) {i : Item} (h : i.Readable) :
    (i.expand layout).Readable := by
  cases i with
  | tag name text => exact h
  | code expression buffered => exact h
  | comment body =>
    intro hmem
    rw [expandTabs, String.toList_ofList] at hmem
    rcases (mem_expandTabs hmem).2 with hspace | hmem
    · exact absurd hspace (by decide)
    · exact h hmem

theorem Valid.readable_expand (layout : Layout) {o : Outline} (h : o.Valid) :
    (o.expand layout).Readable := by
  induction o with
  | nil => trivial
  | cons item below next ihbelow ihnext =>
    exact ⟨h.1.readable.expand layout, ihbelow h.2.1, ihnext h.2.2⟩

/-- Tabs are expanded line by line. -/
theorem expandTabs_tail (layout : Layout) (k : Nat) {rungs : List Rung}
    (hrungs : ∀ r ∈ rungs, r.item.Valid) :
    Source.expandTabs layout (tail k rungs) =
      tail k (rungs.map fun r => { r with item := r.item.expand layout }) := by
  induction rungs with
  | nil => rfl
  | cons r rungs ih =>
    -- The break and the spaces in front of an item hold no tabs.
    have hspaces : Source.expandTabs layout ('\n' :: (spaces (r.depth * k)).toList) =
        '\n' :: (spaces (r.depth * k)).toList :=
      expandTabs_of_not_mem layout (by simp [spaces])
    have htail : ∀ (r : Rung) (rungs : List Rung), tail k (r :: rungs) =
        '\n' :: (spaces (r.depth * k)).toList ++ (r.item.print.toList ++ tail k rungs) := by
      intro r rungs
      simp [tail, Rung.print]
    rw [List.map_cons, htail, htail, expandTabs_append, expandTabs_append, hspaces,
      (hrungs r (.head _)).expandTabs_print, ih fun r hr => hrungs r (.tail _ hr)]

/-! ### The ends of a printed outline -/

theorem isMargin_getLast_expandTabs (layout : Layout) {cs : List Char}
    (h : ∀ c ∈ cs.getLast?, Source.isMargin c = false) :
    ∀ c ∈ (Source.expandTabs layout cs).getLast?, Source.isMargin c = false := by
  rcases List.eq_nil_or_concat cs with rfl | ⟨init, d, rfl⟩
  · exact h
  · -- The last character is no tab, since tabs are trimmed, so it stays the last one.
    have hd : Source.isMargin d = false := h d (by simp)
    have htab : d ≠ '\t' := by
      rintro rfl
      exact absurd hd (by decide)
    have hlast : Source.expandTabs layout [d] = [d] :=
      expandTabs_of_not_mem layout (by simpa using Ne.symm htab)
    rw [List.concat_eq_append, expandTabs_append, hlast]
    simpa using hd

/-- A run of lines ends as its last line does. -/
theorem isMargin_getLast_tail {k : Nat} {rungs : List Rung} {cs : List Char}
    (hcs : ∀ c ∈ cs.getLast?, Source.isMargin c = false) (hrungs : ∀ r ∈ rungs, r.item.Valid) :
    ∀ c ∈ (cs ++ tail k rungs).getLast?, Source.isMargin c = false := by
  induction rungs generalizing cs with
  | nil => simpa [tail] using hcs
  | cons r rungs ih =>
    have hitem : r.item.Valid := hrungs r (.head _)
    have hne : r.item.print.toList ≠ [] := by
      obtain ⟨c, cs, hcs, -⟩ := hitem.readable.toList_print
      rw [hcs]
      exact List.cons_ne_nil c cs
    -- A line is never empty, so it decides how the text up to it ends.
    have hline : (cs ++ '\n' :: (r.print k).toList).getLast? = r.item.print.toList.getLast? := by
      rw [Rung.print, String.toList_append, ← List.cons_append, ← List.append_assoc,
        List.getLast?_append, List.getLast?_eq_some_getLast hne, Option.some_or]
    have htail : tail k (r :: rungs) = '\n' :: (r.print k).toList ++ tail k rungs := rfl
    rw [htail, ← List.append_assoc]
    exact ih (by rw [hline]; exact hitem.2) fun r hr => hrungs r (.tail _ hr)

/-! ### The lexemes of a printed outline -/

/-- What a printed outline is scanned from. -/
theorem normalize_print (layout : Layout) (k : Nat) {item : Item} {below next : Outline}
    (h : (cons item below next).Valid) :
    Source.normalize layout ((cons item below next).print k) =
      (item.expand layout).print.toList ++
        tail k ((below.expand layout).rungs 1 ++ (next.expand layout).rungs 0) := by
  have hrungs : ∀ r ∈ below.rungs 1 ++ next.rungs 0, r.item.Valid := by
    intro r hr
    exact forall_mem_rungs (fun h => h) h 0 r (.tail _ hr)
  have hreturn : '\r' ∉ item.print.toList ++ tail k (below.rungs 1 ++ next.rungs 0) := by
    rw [List.mem_append, not_or]
    exact ⟨h.1.not_mem_print.2.1, not_mem_tail k hrungs⟩
  have hchars :
      Source.expandTabs layout (item.print.toList ++ tail k (below.rungs 1 ++ next.rungs 0)) =
        (item.expand layout).print.toList ++
          tail k ((below.expand layout).rungs 1 ++ (next.expand layout).rungs 0) := by
    rw [expandTabs_append, h.1.expandTabs_print, expandTabs_tail layout k hrungs, rungs_expand,
      rungs_expand, List.map_append]
  -- Trimming changes nothing, since both ends hold characters that are not trimmed.
  have hlast := isMargin_getLast_expandTabs layout (isMargin_getLast_tail (k := k) h.1.2 hrungs)
  have hhead : ∀ c ∈ ((item.expand layout).print.toList ++
      tail k ((below.expand layout).rungs 1 ++ (next.expand layout).rungs 0)).head?,
      Source.isMargin c = false := by
    obtain ⟨c, cs, hcs, hc⟩ := (h.1.readable.expand layout).toList_print
    rw [hcs]
    rintro d ⟨⟩
    exact hc
  rw [hchars] at hlast
  have hprint : ((cons item below next).print k).toList =
      item.print.toList ++ tail k (below.rungs 1 ++ next.rungs 0) := by
    rw [print, rungs, toList_print_rungs]
    simp [Rung.print, spaces]
  rw [Source.normalize, hprint, unifyBreaks_of_not_mem hreturn, hchars]
  exact Character.trim_eq_self hhead hlast

/-- The lexemes of a printed outline. -/
theorem tokenize_print (layout : Layout) {k : Nat} (hk : 1 ≤ k) {item : Item}
    {below next : Outline} (h : (cons item below next).Valid) :
    tokenize layout ((cons item below next).print k) =
      .ok ((item.expand layout).lexemes 1 ++
        after 0 1 ((below.expand layout).rungs 1 ++ (next.expand layout).rungs 0)) := by
  have hrungs : ∀ r ∈ (below.expand layout).rungs 1 ++ (next.expand layout).rungs 0,
      r.item.Readable :=
    fun r hr => forall_mem_rungs (fun h => h) (h.readable_expand layout) 0 r (.tail _ hr)
  -- The rungs behind the first one nest, whatever depth the item below it ends at.
  have hnext : ∀ {depth}, 1 ≤ depth + 1 → Nested depth ((next.expand layout).rungs 0) := by
    intro depth _
    rw [← List.append_nil (rungs 0 _)]
    exact nested_rungs (Nat.zero_le _) fun _ => trivial
  have hnested : Nested 0 ((below.expand layout).rungs 1 ++ (next.expand layout).rungs 0) :=
    nested_rungs (Nat.le_refl 1) hnext
  obtain ⟨s', hemits, hs'⟩ := emits_item (h.1.readable.expand layout) (endsLine_tail k _)
    (at_ofSource k (normalize_print layout k h))
  obtain ⟨hlexemes, hfailure⟩ := tape_rungs hk hrungs hnested hs'
  rw [tokenize_eq_tape, Tape.result_eq_ok_iff, hemits.tape.1, hemits.tape.2, hlexemes, hfailure]
  exact ⟨rfl, rfl⟩

end Offside.Outline
