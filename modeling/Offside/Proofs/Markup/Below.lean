import Offside.Proofs.Document.Seam
import Offside.Proofs.Markup.Shown
import Offside.Proofs.Outline.Source

/-!
# Templates below each other

A template below another one, with a line break between them, has the markup of both, one
below the other (`Engine.render_below`). Levels, regions, tags and code that are open
where the first template ends do not matter: the line below closes them as the end does.

Two things would matter. A template that starts with markup would be the text of a tag
above, and a further branch of a conditional would belong to the one above.
-/

set_option autoImplicit false

namespace Offside

open Outline (expandTabs_append expandTabs_of_not_mem isMargin_getLast_expandTabs)

/-! ### Sources -/

namespace Source

/-- A source that holds something and has nothing to be trimmed. -/
structure Trimmed (source : String) : Prop where
  ne_empty : source ≠ ""
  head : ∀ c ∈ source.toList.head?, isMargin c = false
  last : ∀ c ∈ source.toList.getLast?, isMargin c = false

instance (source : String) : Decidable (Trimmed source) :=
  decidable_of_iff (source ≠ "" ∧ (∀ c ∈ source.toList.head?, isMargin c = false) ∧
      ∀ c ∈ source.toList.getLast?, isMargin c = false)
    ⟨fun ⟨hne, hhead, hlast⟩ => ⟨hne, hhead, hlast⟩,
      fun ⟨hne, hhead, hlast⟩ => ⟨hne, hhead, hlast⟩⟩

theorem unifyBreaks_return {cs : List Char} (h : cs.head? ≠ some '\n') :
    unifyBreaks ('\r' :: cs) = '\n' :: unifyBreaks cs := by
  rw [unifyBreaks]
  rintro rest rfl
  exact h rfl

theorem unifyBreaks_cons {c : Char} (h : c ≠ '\r') (cs : List Char) :
    unifyBreaks (c :: cs) = c :: unifyBreaks cs := by
  rw [unifyBreaks]
  · rintro rest rfl
    exact absurd rfl h
  · exact h

/-- Line breaks are unified in each part of a source, unless one is cut in two. -/
theorem unifyBreaks_append {xs ys : List Char}
    (h : xs.getLast? = some '\r' → ys.head? ≠ some '\n') :
    unifyBreaks (xs ++ ys) = unifyBreaks xs ++ unifyBreaks ys := by
  -- What ends in a return still does so with more in front.
  have hlast : ∀ {c : Char} {cs : List Char}, cs.getLast? = some '\r' →
      (c :: cs).getLast? = some '\r' := by
    intro c cs hcs
    rw [List.getLast?_cons, hcs]
    rfl
  fun_induction unifyBreaks xs with
  | case1 => rfl
  | case2 cs ih =>
    rw [List.cons_append, List.cons_append, unifyBreaks, ih fun hcs => h (hlast (hlast hcs)),
      List.cons_append]
  | case3 cs hcs ih =>
    have hhead : (cs ++ ys).head? ≠ some '\n' := by
      cases cs with
      | nil => exact h rfl
      | cons c cs =>
        intro hc
        obtain rfl := Option.some.inj hc
        exact hcs cs rfl
    rw [List.cons_append, unifyBreaks_return hhead, ih fun hcs => h (hlast hcs), List.cons_append]
  | case4 c cs _ hc ih =>
    rw [List.cons_append, unifyBreaks_cons hc, ih fun hcs => h (hlast hcs), List.cons_append]

variable {source a b : String} (layout : Layout)

theorem ne_of_isMargin {c d : Char} (hc : isMargin c = false) (hd : isMargin d = true) : c ≠ d := by
  rintro rfl
  rw [hc] at hd
  cases hd

namespace Trimmed

section

variable (h : Trimmed source)

include h

theorem exists_cons : ∃ c cs, source.toList = c :: cs ∧ isMargin c = false := by
  cases hcs : source.toList with
  | nil => exact absurd (String.toList_eq_nil_iff.1 hcs) h.ne_empty
  | cons c cs => exact ⟨c, cs, rfl, h.head c (by simp [hcs])⟩

/-- A source starts as it did, with its first character. -/
theorem exists_expand :
    ∃ c cs, source.toList.head? = some c ∧ isMargin c = false ∧
      expandTabs layout (unifyBreaks source.toList) = c :: cs := by
  obtain ⟨c, cs, hcs, hc⟩ := h.exists_cons
  have htab : expandTabs layout [c] = [c] :=
    expandTabs_of_not_mem layout (by simpa using (ne_of_isMargin hc (d := '\t') rfl).symm)
  refine ⟨c, expandTabs layout (unifyBreaks cs), by rw [hcs]; rfl, hc, ?_⟩
  rw [hcs, unifyBreaks_cons (ne_of_isMargin hc rfl), ← List.singleton_append, expandTabs_append,
    htab, List.singleton_append]

theorem isMargin_getLast_unifyBreaks :
    ∀ c ∈ (unifyBreaks source.toList).getLast?, isMargin c = false := by
  have hlast := h.last
  rcases List.eq_nil_or_concat source.toList with hcs | ⟨init, d, hcs⟩
  · simp [hcs, unifyBreaks]
  · have hd : isMargin d = false := hlast d (by simp [hcs])
    have hbreak : [d].head? ≠ some '\n' := by simpa using ne_of_isMargin hd rfl
    rw [hcs, List.concat_eq_append, unifyBreaks_append fun _ => hbreak,
      unifyBreaks_cons (ne_of_isMargin hd rfl)]
    simpa [unifyBreaks] using hd

theorem isMargin_getLast :
    ∀ c ∈ (expandTabs layout (unifyBreaks source.toList)).getLast?, isMargin c = false :=
  isMargin_getLast_expandTabs layout h.isMargin_getLast_unifyBreaks

theorem normalize_eq : normalize layout source = expandTabs layout (unifyBreaks source.toList) := by
  obtain ⟨c, cs, -, hc, hcs⟩ := h.exists_expand layout
  refine Character.trim_eq_self ?_ (h.isMargin_getLast layout)
  rw [hcs]
  rintro _ ⟨⟩
  exact hc

/-- A trimmed source is scanned from its first character on. -/
theorem exists_normalize :
    ∃ c cs, source.toList.head? = some c ∧ isMargin c = false ∧
      normalize layout source = c :: cs := by
  rw [h.normalize_eq]
  exact h.exists_expand layout

end

/-- A source below another one is trimmed if both are. -/
theorem below (ha : Trimmed a) (hb : Trimmed b) : Trimmed (a ++ "\n" ++ b) := by
  obtain ⟨c, cs, hcs, hc⟩ := ha.exists_cons
  obtain ⟨d, ds, hds, -⟩ := hb.exists_cons
  have hlist : (a ++ "\n" ++ b).toList = a.toList ++ '\n' :: b.toList := by simp
  constructor
  · intro hempty
    rw [hempty, hcs] at hlist
    cases hlist
  · rw [hlist, hcs]
    rintro _ ⟨⟩
    exact hc
  · rw [hlist, List.getLast?_append_cons, List.getLast?_cons, hds]
    have hlast := hb.last
    rw [hds] at hlast
    simpa [List.getLast?_cons] using hlast

theorem normalize_below (ha : Trimmed a) (hb : Trimmed b) :
    normalize layout (a ++ "\n" ++ b) = normalize layout a ++ '\n' :: normalize layout b := by
  have hreturn : a.toList.getLast? ≠ some '\r' := by
    intro hlast
    exact absurd (ha.last _ hlast) (by decide)
  have hbreak : expandTabs layout ['\n'] = ['\n'] := rfl
  rw [(ha.below hb).normalize_eq, ha.normalize_eq, hb.normalize_eq, String.toList_append,
    String.toList_append, List.append_assoc, unifyBreaks_append fun hlast => absurd hlast hreturn,
    expandTabs_append]
  show _ ++ expandTabs layout (unifyBreaks ('\n' :: b.toList)) = _
  rw [unifyBreaks_cons (by decide), ← List.singleton_append, expandTabs_append, hbreak,
    List.singleton_append]

/-- A source below another one is scanned like that one with more lines below. -/
theorem ofSource_below (ha : Trimmed a) (hb : Trimmed b) :
    Scanner.ofSource layout (a ++ "\n" ++ b) =
      (Scanner.ofSource layout a).extend (normalize layout b) := by
  rw [Scanner.ofSource, ha.normalize_below layout hb]
  rfl

end Trimmed

end Source

/-! ### Documents -/

open Reading

/-- Lines that do not start with markup belong to nothing above them. -/
theorem Scanner.Landed.fresh {layout : Layout} {c : Char} {cs : List Char} {t : Scanner}
    (h : Landed layout (c :: cs) t) (hc : Source.isMargin c = false) (hmarkup : c ≠ '<')
    (hfailure : t.tape.failure = none) : Fresh t.tape.lexemes := by
  obtain ⟨l, ls, hls, hinline, htext⟩ :=
    h.head_lexemes (Source.ne_of_isMargin hc rfl) hmarkup hfailure
  have hne : ∀ kind : Token.Kind, kind.isInline = false → l.kind ≠ kind := by
    rintro kind hkind rfl
    rw [hinline] at hkind
    cases hkind
  exact ⟨l, ls, hls, hne _ rfl, htext, hne _ rfl⟩

/-- The document of a template below another one has the nodes of both documents, apart
from their lines. -/
theorem parse_below {layout : Layout} {a b : String} {rootA rootB : Block}
    (ha : Source.Trimmed a) (hb : Source.Trimmed b) (hmarkup : b.toList.head? ≠ some '<')
    (hrootA : parse layout a = .ok rootA) (hrootB : parse layout b = .ok rootB) :
    ∃ root, parse layout (a ++ "\n" ++ b) = .ok root ∧
      root.children.map Node.shown =
        rootA.children.map Node.shown ++ rootB.children.map Node.shown := by
  obtain ⟨cA, hgivesA, hleftA⟩ := left_pos_of_parse hrootA
  obtain ⟨cB, hgivesB, hleftB⟩ := left_pos_of_parse hrootB
  obtain ⟨c, cs, hhead, hc, hcs⟩ := hb.exists_normalize layout
  have hmargin : (Source.normalize layout b).head?.any Source.isMargin = false := by
    rw [hcs]
    exact hc
  -- The lexemes of the first template go on with those of a scanner at the second one.
  have htidy : Scanner.Tidy (Source.normalize layout a) := by
    rw [ha.normalize_eq]
    exact ha.isMargin_getLast layout
  obtain ⟨t, ht, hcontinues, hfailure⟩ := Scanner.exists_landed
    (Scanner.sound_ofSource layout a) htidy (gives_of_parse hrootA).1 hmargin (by rw [hcs]; nofun)
  obtain ⟨hfailure', -, e, he, hcontinues'⟩ := ht.alike.continues (gives_of_parse hrootB).1
  have hfresh : Fresh t.tape.lexemes := by
    rw [hcs] at ht
    exact ht.fresh hc (fun heq => hmarkup (by rw [hhead, heq])) hfailure'
  obtain ⟨children, c', hgives, hchildren⟩ :=
    gives_document_below hfresh he hcontinues hcontinues' hgivesA hleftA hgivesB hleftB
  have htape : tokenize layout (a ++ "\n" ++ b) =
      .ok ((Scanner.ofSource layout a).extend (Source.normalize layout b)).tape.lexemes := by
    rw [tokenize_eq_tape, ha.ofSource_below layout hb, Tape.result_eq_ok_iff]
    exact ⟨hfailure.trans hfailure', rfl⟩
  refine ⟨⟨1, children⟩, ?_, hchildren⟩
  rw [parse_eq_ofLexemes htape, Reading.ofLexemes, Reading.read, hgives]

/-! ### Markup -/

/-- Blocks that go together, the second one of which starts with no further branch, are
rendered one below the other. -/
theorem Renderer.Lineless.renderBlock_below {r : Renderer} (hr : r.Lineless) (level : Nat)
    {block front back : Block} {x y : String}
    (hblock : block.children.map Node.shown =
      front.children.map Node.shown ++ back.children.map Node.shown)
    (hbranch : back.children.head?.any Renderer.continuesConditional = false)
    (hx : r.renderBlock level front = .ok x) (hy : r.renderBlock level back = .ok y) :
    r.renderBlock level block = .ok (Markup.joinLines [x, y]) := by
  have happart : (back.children.map Node.shown).head?.any Renderer.continuesConditional =
      false := by
    rw [List.head?_map, Option.any_map, ← hbranch]
    congr 1
    exact funext Renderer.continuesConditional_shown
  rw [hr.renderBlock_map_shown] at hx hy ⊢
  rw [hblock, r.renderBlock_append_apart level 0 _ happart, hx, hy]
  rfl

namespace Engine

variable {layout : Layout} {e : Engine} {source markup : String}

/-- A template has the markup of its document, whatever the name of the template. -/
theorem renderNamed_eq_ok_iff {name : String} :
    e.renderNamed name source = .ok markup ↔
      ∃ root, parse e.renderer.layout source = .ok root ∧ e.renderer.render root = .ok markup := by
  rw [renderNamed]
  cases parse e.renderer.layout source with
  | error error => simp [Except.mapError, bind, Except.bind]
  | ok root => cases h : e.renderer.render root <;> simp [Except.mapError, bind, Except.bind, h]

theorem render_eq_ok_iff :
    e.render source = .ok markup ↔
      ∃ root, parse e.renderer.layout source = .ok root ∧ e.renderer.render root = .ok markup :=
  renderNamed_eq_ok_iff

/-- The markup of a template below another one is below that one's markup; where one of
them has none, the other one's is all there is. -/
theorem render_below {a b x y : String} (he : Made layout e) (ha : Source.Trimmed a)
    (hb : Source.Trimmed b) (hx : e.render a = .ok x) (hy : e.render b = .ok y)
    (hmarkup : b.toList.head? ≠ some '<')
    (hbranch : ∀ root, parse layout b = .ok root →
      root.children.head?.any Renderer.continuesConditional = false) :
    e.render (a ++ "\n" ++ b) = .ok (Markup.joinLines [x, y]) := by
  obtain ⟨rfl, hlineless⟩ := he.lineless
  obtain ⟨rootA, hrootA, hx⟩ := render_eq_ok_iff.1 hx
  obtain ⟨rootB, hrootB, hy⟩ := render_eq_ok_iff.1 hy
  obtain ⟨root, hroot, hchildren⟩ := parse_below ha hb hmarkup hrootA hrootB
  exact render_eq_ok_iff.2
    ⟨root, hroot, hlineless.renderBlock_below 0 hchildren (hbranch rootB hrootB) hx hy⟩

/-- The first template ends in a text, inside a conditional and a list. -/
theorem render_below_list :
    ∃ e, standard {} = .ok e ∧
      e.render ("ul\n  - if ($a):\n    | one" ++ "\n" ++ "a:void two") = .ok (Markup.joinLines
        ["<ul>\n  <?php if ($a): ?>\n    one\n  <?php endif; ?>\n</ul>",
          "<a href=\"javascript:;\">two</a>"]) := by
  let e := (standard {}).toOption.getD (plain {})
  have he : standard {} = .ok e := rfl
  have hbranch : ∀ root ∈ (parse {} "a:void two").toOption,
      root.children.head?.any Renderer.continuesConditional = false := by
    decide +kernel
  refine ⟨e, he, render_below (.inr he) (by decide) (by decide) ?_ ?_ (by decide) ?_⟩
  · exact render_of_attempt 6 (by decide +kernel)
  · exact render_of_attempt 6 (by decide +kernel)
  · intro root hroot
    exact hbranch root (by rw [hroot]; rfl)

end Engine

end Offside
