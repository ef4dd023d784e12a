import Offside.Proofs.Document.Blank
import Offside.Proofs.Line.Blank
import Offside.Proofs.Markup.Below

/-!
# Blank lines and markup

What stands below hidden comments is not rendered (`Lineless.renderBlock_map_shown`), so where a
blank line changes nothing else in a document, the markup stays the same.

A blank line changes more next to text that hidden code takes at its own level
(`Source.SeversBelow`): between the code and the text, which is then no longer part of the
code, and between the text and what is indented below it. Everywhere else, inside of verbatim
regions as well as outside, the markup does not depend on blank lines (`Engine.render_blank`).
-/

set_option autoImplicit false

namespace Offside

/-- A blank line that severs nothing changes nothing that a document shows. -/
theorem parse_blank {layout : Layout} {source source' : String} {root : Block}
    {above lower : List (List Char)} {width : Nat} (hlines : Source.lines source = above ++ lower)
    (hlines' : Source.lines source' = above ++ List.replicate width ' ' :: lower)
    (hsevers : ¬Source.SeversBelow layout source above) (hroot : parse layout source = .ok root) :
    ∃ root', parse layout source' = .ok root' ∧
      root'.children.map Node.shown = root.children.map Node.shown := by
  obtain ⟨ls, hls⟩ := tokenize_of_parse hroot
  obtain ⟨ls', hls', hjoins⟩ := tokenize_blank hlines hlines' hls hsevers
  obtain ⟨c, hgives, -⟩ := left_pos_of_parse hroot
  have htape := hls
  rw [tokenize_eq_tape, Tape.result_eq_ok_iff] at htape
  rw [htape.2] at hgives
  have hjoins' : Reading.Joins .free ls ls' := hjoins.imp_left (congrArg (List.map Lexeme.token))
  obtain ⟨children, d, hgives', hchildren⟩ := Reading.gives_document_blank hjoins' hgives
  refine ⟨⟨1, children⟩, ?_, hchildren⟩
  rw [parse_eq_ofLexemes hls', Reading.ofLexemes, Reading.read, hgives']

namespace Engine

/-- A blank line between any lines of a template, of any width, leaves its markup as it is,
unless it parts hidden code from text that the code takes at its own level, or such text from
what is indented below it. -/
theorem render_blank {layout : Layout} {e : Engine} {source source' markup : String}
    {above lower : List (List Char)} {width : Nat} (he : Made layout e)
    (hrender : e.render source = .ok markup) (hlines : Source.lines source = above ++ lower)
    (hlines' : Source.lines source' = above ++ List.replicate width ' ' :: lower)
    (hsevers : ¬Source.SeversBelow layout source above) : e.render source' = .ok markup := by
  obtain ⟨rfl, hlineless⟩ := he.lineless
  obtain ⟨root, hroot, hmarkup⟩ := render_eq_ok_iff.1 hrender
  obtain ⟨root', hroot', hshown⟩ := parse_blank hlines hlines' hsevers hroot
  refine render_eq_ok_iff.2 ⟨root', hroot', ?_⟩
  rw [Renderer.render, hlineless.renderBlock_map_shown] at hmarkup ⊢
  rwa [hshown]

/-- The blank line is below a hidden comment, between hidden code with a text at its own
level and a verbatim region. -/
theorem render_blank_comment :
    ∃ e, standard {} = .ok e ∧
      e.render "ul\n  - a \\\n  <b>\n  / note\n   \n  | one\n    two" =
        .ok "<ul>\n  <?php\n    a \n    <b>\n  ?>\n  one\n  two\n</ul>" := by
  let e := (standard {}).toOption.getD (plain {})
  have he : standard {} = .ok e := rfl
  let above := Source.lines "ul\n  - a \\\n  <b>\n  / note"
  have hrender : e.render "ul\n  - a \\\n  <b>\n  / note\n  | one\n    two" =
      .ok "<ul>\n  <?php\n    a \n    <b>\n  ?>\n  one\n  two\n</ul>" :=
    render_of_attempt 6 (by decide +kernel)
  have hlines : Source.lines "ul\n  - a \\\n  <b>\n  / note\n  | one\n    two" =
      above ++ Source.lines "  | one\n    two" := by
    decide +kernel
  have hlines' : Source.lines "ul\n  - a \\\n  <b>\n  / note\n   \n  | one\n    two" =
      above ++ List.replicate 3 ' ' :: Source.lines "  | one\n    two" := by
    decide +kernel
  exact ⟨e, he, render_blank (.inr he) hrender hlines hlines' (by decide +kernel)⟩

/-- Hidden code that ends in a backslash takes the line of markup below it as its text, but
not if there is a blank line in between. -/
theorem blank_line_severs :
    (plain {}).render "- a \\\n<b>" = .ok "<?php\n  a \n  <b>\n?>" ∧
      (plain {}).render "- a \\\n\n<b>" = .ok "<?php\n  a \n  \n?>\n<b>" ∧
      Source.SeversBelow {} "- a \\\n<b>" (Source.lines "- a \\") := by
  refine ⟨?_, ?_, ?_⟩
  · exact render_of_attempt 4 (by decide +kernel)
  · exact render_of_attempt 4 (by decide +kernel)
  · decide +kernel

end Engine

end Offside
