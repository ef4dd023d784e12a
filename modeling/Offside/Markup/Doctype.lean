import Offside.Document.Basic

/-!
# Document types in markup

The declaration that each version of a document type stands for.
-/

set_option autoImplicit false

namespace Offside.Doctype

open Offside.Character (trimBlanks)

/-- The version of a document type that names none. -/
def defaultVersion : String :=
  "transitional"

/-- The known versions with their declarations. -/
def declarations : List (String × String) :=
  [("xml", "<?xml version=\"1.0\" encoding=\"utf-8\" ?>"),
   ("xml ISO-8859-1", "<?xml version=\"1.0\" encoding=\"iso-8859-1\" ?>"),
   ("html", "<!DOCTYPE html>"),
   ("5", "<!DOCTYPE html>"),
   ("1.1", "<!DOCTYPE html PUBLIC \"-//W3C//DTD XHTML 1.1//EN\" " ++
     "\"http://www.w3.org/TR/xhtml11/DTD/xhtml11.dtd\">"),
   ("strict", "<!DOCTYPE html PUBLIC \"-//W3C//DTD XHTML 1.0 Strict//EN\" " ++
     "\"http://www.w3.org/TR/xhtml1/DTD/xhtml1-strict.dtd\">"),
   ("frameset", "<!DOCTYPE html PUBLIC \"-//W3C//DTD XHTML 1.0 Frameset//EN\" " ++
     "\"http://www.w3.org/TR/xhtml1/DTD/xhtml1-frameset.dtd\">"),
   ("mobile", "<!DOCTYPE html PUBLIC \"-//WAPFORUM//DTD XHTML Mobile 1.2//EN\" " ++
     "\"http://www.openmobilealliance.org/tech/DTD/xhtml-mobile12.dtd\">"),
   ("basic", "<!DOCTYPE html PUBLIC \"-//W3C//DTD XHTML Basic 1.1//EN\" " ++
     "\"http://www.w3.org/TR/xhtml-basic/xhtml-basic11.dtd\">"),
   ("transitional", "<!DOCTYPE html PUBLIC \"-//W3C//DTD XHTML 1.0 Transitional//EN\" " ++
     "\"http://www.w3.org/TR/xhtml1/DTD/xhtml1-transitional.dtd\">")]

/-- The declaration of a version. Blanks around the version do not count. -/
def declaration? (version : String) : Option String :=
  let version := trimBlanks version
  declarations.lookup (if version = "" then defaultVersion else version)

end Offside.Doctype
