import DesignComponents.Component.Survey
import DesignComponents.Document.Printer
import DesignComponents.Main
import DesignComponents.Preferences.Reader
import DesignComponents.Template.Parser
import DesignComponents.Proofs.Scene.Descent
import DesignComponents.Proofs.Scene.Outline
import DesignComponents.Proofs.Scene.Traversal
import DesignComponents.Proofs.Document.Loading
import DesignComponents.Proofs.Component.Declared
import DesignComponents.Proofs.Identifier.Assignment
import DesignComponents.Proofs.Component.Naming
import DesignComponents.Proofs.Component.Elements
import DesignComponents.Proofs.Markup.Members
import DesignComponents.Proofs.Collections
import DesignComponents.Proofs.Component.Expansion
import DesignComponents.Proofs.Host.Arrival
import DesignComponents.Proofs.Host.Completion
import DesignComponents.Proofs.Component.Ownership
import DesignComponents.Proofs.Component.Tiling
import DesignComponents.Proofs.Identifier.Search
import DesignComponents.Proofs.Identifier.Bases
import DesignComponents.Proofs.Identifier.Consistency
import DesignComponents.Proofs.Identifier.Calls
import DesignComponents.Proofs.Identifier.Numbering
import DesignComponents.Proofs.Component.Tags
import DesignComponents.Proofs.Component.Sheets
import DesignComponents.Proofs.Component.Discovery
import DesignComponents.Proofs.Component.Classification
import DesignComponents.Proofs.Component.Enumeration
import DesignComponents.Proofs.Component.Passing
import DesignComponents.Proofs.Component.Relabeling
import DesignComponents.Proofs.Payload.Degradation
import DesignComponents.Proofs.Host.Failing
import DesignComponents.Proofs.Markup.Mirroring
import DesignComponents.Proofs.Text.TemplateLiteral
import DesignComponents.Proofs.Text.Segmentation
import DesignComponents.Proofs.Text.PlaceholderGrammar
import DesignComponents.Proofs.Text.Spacing
import DesignComponents.Proofs.Text.Parts
import DesignComponents.Proofs.Identifier.Letters
import DesignComponents.Proofs.Identifier.Grammar
import DesignComponents.Proofs.Markup.Names
import DesignComponents.Proofs.Markup.Legibility
import DesignComponents.Proofs.Markup.Texts
import DesignComponents.Proofs.Markup.Agreement
import DesignComponents.Proofs.Markup.Scanning
import DesignComponents.Proofs.Payload.Sections
import DesignComponents.Proofs.Payload.StyleLiterals
import DesignComponents.Proofs.Payload.Defaults
import DesignComponents.Proofs.Payload.Assembly
import DesignComponents.Proofs.Text.Indentation
import DesignComponents.Proofs.Payload.MarkupLiterals
import DesignComponents.Proofs.Payload.Agreement
import DesignComponents.Proofs.Component.Classes
import DesignComponents.Proofs.Payload.Imports
import DesignComponents.Proofs.Markup.Fallback
import DesignComponents.Proofs.Markup.Attributes
import DesignComponents.Proofs.Identifier.Respacing
import DesignComponents.Proofs.Scene.Orphans
import DesignComponents.Proofs.Document.RoundTrip
import DesignComponents.Proofs.Configuration.Overriding
