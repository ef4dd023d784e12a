import Offside.Attribute.Basic

/-!
# Text filters

A text filter makes markup of the text below a filter line.
-/

set_option autoImplicit false

namespace Offside

/-- Makes markup of a text, the attributes of the filter line and its indentation. -/
abbrev TextFilter : Type :=
  (text : String) → (attributes : Attributes) → (indent : String) → String

namespace TextFilter

/-- Puts the text between two lines at the indentation of the filter line. -/
def wrap (opening closing : String) : TextFilter := fun text _ indent =>
  indent ++ opening ++ "\n" ++ text ++ "\n" ++ indent ++ closing

/-- The filters that come with the language, by alias. -/
def builtin : List (String × TextFilter) :=
  [("style", wrap "<style type=\"text/css\">" "</style>"),
   ("php", wrap "<?php" "?>"),
   ("javascript", wrap "<script type=\"text/javascript\">" "</script>"),
   ("cdata", wrap "<![CDATA[" "]]>")]

end TextFilter

end Offside
