import JsonPaths.Sample
import JsonPaths.Session
import JsonPaths.Unchecked
import JsonPaths.Proofs.Document.Flags
import JsonPaths.Proofs.Document.Invariant
import JsonPaths.Proofs.Document.LeafUpdate
import JsonPaths.Proofs.Value.Search
import JsonPaths.Proofs.Document.Search
import JsonPaths.Proofs.Value.Determined
import JsonPaths.Proofs.Double.Nearest
import JsonPaths.Proofs.Double.Shortest
import JsonPaths.Proofs.Json.ReadNumber
import JsonPaths.Proofs.Json.ReadString
import JsonPaths.Proofs.Json.ReadValue
import JsonPaths.Proofs.Text.Utf8
import JsonPaths.Proofs.Document.RoundTrip
import JsonPaths.Proofs.Path.Normal
import JsonPaths.Proofs.Json.Progress
import JsonPaths.Proofs.Path.Effect
import JsonPaths.Proofs.Json.Newlines
import JsonPaths.Proofs.Document.Raised
import JsonPaths.Proofs.Path.Joined
import JsonPaths.Proofs.Path.Flattening
import JsonPaths.Proofs.Path.Overwrite
import JsonPaths.Proofs.Document.Overwrite
import JsonPaths.Proofs.Graph.Accepted
import JsonPaths.Proofs.Unchecked
import JsonPaths.Proofs.Double.Quantity
import JsonPaths.Proofs.Value.Same
import JsonPaths.Proofs.Document.Answers
import JsonPaths.Proofs.Value.Enumeration
import JsonPaths.Proofs.Document.Saving
import JsonPaths.Proofs.Log.Styled
import JsonPaths.Proofs.Log.Console
import JsonPaths.Proofs.Document.Highlight
import JsonPaths.Proofs.Log.Template
import JsonPaths.Proofs.Session.Logging
import JsonPaths.Path.Gathered
import JsonPaths.Proofs.Path.Gathered
import JsonPaths.Proofs.Path.Faithful
