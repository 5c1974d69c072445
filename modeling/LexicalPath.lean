import LexicalPath.Charset.Encode
import LexicalPath.Charset.Lookup
import LexicalPath.FileName.Legal
import LexicalPath.FileSystem.BuiltIn
import LexicalPath.Host.Basic
import LexicalPath.Log.Basic
import LexicalPath.Normal.Segments
import LexicalPath.Path.Encoded
import LexicalPath.Path.Equality
import LexicalPath.Path.Parts
import LexicalPath.Printing.FileLabel
import LexicalPath.Printing.TextBuffer
import LexicalPath.Proofs.Charset.Steps
import LexicalPath.Proofs.FileName.Legal
import LexicalPath.Proofs.Normal.Anchor
import LexicalPath.Proofs.Normal.Convention
import LexicalPath.Proofs.Normal.Fixpoint
import LexicalPath.Proofs.Path.Containment
import LexicalPath.Proofs.Prefix.Grammar
import LexicalPath.Proofs.Utf8.Conversion
import LexicalPath.Testing.Comparison
import LexicalPath.Testing.Session
import LexicalPath.Proofs.Host.LetterCase
import LexicalPath.Proofs.Normal.LetterCase
import LexicalPath.Proofs.FileName.Encodable
import LexicalPath.Proofs.Normal.WellFormed
import LexicalPath.Proofs.Path.Encoded
import LexicalPath.Proofs.Testing.Runner
import LexicalPath.Proofs.Log.Handlers
import LexicalPath.Proofs.Host.Ipv4
import LexicalPath.Proofs.Host.Ipv6
import LexicalPath.Proofs.Path.FullDirectory
import LexicalPath.Proofs.Path.Join
import LexicalPath.Proofs.Path.JoinAnchor
import LexicalPath.Proofs.FileName.WorstCase
import LexicalPath.Proofs.FileName.LongestCut
import LexicalPath.Proofs.FileSystem.Lookup
import LexicalPath.Proofs.Log.Callback
import LexicalPath.Proofs.Path.Extension
import LexicalPath.Proofs.Path.NulUnit
import LexicalPath.Proofs.Testing.Selection
import LexicalPath.Proofs.Path.ContainmentOrder
import LexicalPath.Proofs.Path.Anchor
import LexicalPath.Proofs.Host.Registered
import LexicalPath.Proofs.Printing.Escaped
import LexicalPath.Proofs.Normal.Bounds
import LexicalPath.Proofs.Text.Reading
