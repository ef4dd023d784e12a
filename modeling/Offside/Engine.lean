import Offside.Error

/-!
# Engines

An engine compiles templates: it parses them and renders the documents. With a
cache directory, it keeps the markup of template files there, and compiles a
template again only when its markup is not newer than the template itself.
-/

set_option autoImplicit false

namespace Offside

/-- A renderer, and where markup is kept. -/
structure Engine where
  renderer : Renderer := {}
  cacheDirectory : Option Path := none

namespace Engine

/-! ### Making engines -/

/-- An engine without extensions. -/
def plain (layout : Layout) : Engine where
  renderer := { layout }

/-- Registers a visitor for a kind of nodes. -/
def registerVisitor (e : Engine) (kind : String) (visitor : Visitor) :
    Except RegistrationError Unit × Engine :=
  let (result, renderer) := e.renderer.registerVisitor kind visitor
  (result, { e with renderer })

/-- Registers a filter under an alias. -/
def registerFilter (e : Engine) (name : String) (filter : TextFilter) :
    Except RegistrationError Unit × Engine :=
  let (result, renderer) := e.renderer.registerFilter name filter
  (result, { e with renderer })

/-- An engine with the extensions that come with the language, as far as they are
wanted. -/
def withExtensions (layout : Layout) (autotags builtinFilters : Bool) : Except Error Engine :=
  let (visitors, e) :=
    if autotags then (plain layout).registerVisitor "tag" .autotags else (.ok (), plain layout)
  let (filters, renderer) :=
    if builtinFilters then e.renderer.registerBuiltinFilters else (.ok (), e.renderer)
  match visitors, filters with
  | .ok (), .ok () => .ok { e with renderer }
  | .error error, _ => .error (.registration error)
  | _, .error error => .error (.registration error)

/-- An engine with all extensions that come with the language. -/
def standard (layout : Layout) : Except Error Engine :=
  withExtensions layout true true

/-- The engine that a configuration describes. -/
def ofConfiguration (c : Configuration) : Except Error Engine :=
  (withExtensions { tabWidth := c.tabWidth } c.autotags c.builtinFilters).map fun e =>
    { e with cacheDirectory := c.cacheDirectory.map Path.ofString }

/-! ### Compiling -/

/-- The name of a template that is not in a file. -/
def inputName : String :=
  "input"

/-- The markup of a template with the given name. -/
def renderNamed (e : Engine) (name source : String) : Except Error String := do
  let root ← (parse e.renderer.layout source).mapError (Error.ofParse name)
  (e.renderer.render root).mapError .render

/-- The markup of a template. -/
def render (e : Engine) (source : String) : Except Error String :=
  e.renderNamed inputName source

/-- The text of a template file. -/
def readTemplate (disk : Disk) (path : Path) : Except Error String :=
  match disk.read? path with
  | none => .error (.notAFile path)
  | some (.error fault) => .error (.file path fault)
  | some (.ok source) => .ok source

/-- The markup of a template file. -/
def renderFile (e : Engine) (disk : Disk) (path : Path) : Except Error String := do
  let source ← readTemplate disk path
  e.renderNamed path.text source

/-! ### Caching -/

/-- `name` without the ending of template files. -/
def dropEnding (name : String) : String :=
  let cs := name.toList
  match Character.after? ".slim".toList.reverse cs.reverse with
  | some rest => String.ofList rest.reverse
  | none => name

/-- Where the markup of a template file is kept. It is named after the text of the name of the
file. -/
def cachePath (directory path : Path) : Path :=
  Disk.join directory (Path.ofString (dropEnding (Disk.fileName path).text ++ ".php"))

/-- Whether the markup of a template file is newer than the file. -/
def isFresh (disk : Disk) (path cached : Path) : Bool :=
  match disk.modified? path, disk.modified? cached with
  | some written, some compiled => written < compiled
  | _, _ => false

/-- Compiles a template file into the cache, unless its markup there is newer,
and returns the path of the markup. -/
def cache (e : Engine) (disk : Disk) (path : Path) : Except Error Path × Disk :=
  match e.cacheDirectory with
  | none => (.error .cacheUnavailable, disk)
  | some directory =>
    if !disk.isDirectory directory then (.error .cacheUnavailable, disk)
    else if !disk.isFile path then (.error (.notAFile path), disk)
    else
      let cached := cachePath directory path
      if isFresh disk path cached then (.ok cached, disk)
      else if !disk.isWritable directory then (.error (.cacheNotWritable directory), disk)
      else
        match e.renderFile disk path with
        | .error error => (.error error, disk)
        | .ok markup =>
          match disk.write cached (.text markup) none with
          | .error fault => (.error (.file cached fault), disk)
          | .ok disk => (.ok cached, disk)

end Engine

end Offside
