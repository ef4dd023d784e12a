import Offside.Main
import Offside.Markup.Listing
import Offside.Proofs.Markup.Chains
import Offside.Proofs.Markup.Closing
import Offside.Proofs.Line.Reindent
import Offside.Proofs.Document.Verbatim
import Offside.Proofs.Markup.Blank
import Offside.Proofs.Outline.Markup
import Offside.Proofs.Configuration
import Offside.Proofs.Cache.Run
import Offside.Proofs.Document.Checks
import Offside.Proofs.Attribute.Quoted
import Offside.Proofs.Document.Classes
import Offside.Proofs.Markup.Registration
import Offside.Proofs.Document.Shorthand
import Offside.Proofs.Markup.Shift
import Offside.Proofs.Markup.Gaps
import Offside.Proofs.Markup.Control
import Offside.Proofs.Attribute.Parenthesis
import Offside.Proofs.Attribute.Reversal
