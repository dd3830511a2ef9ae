import Overlay.Main
import Overlay.Proofs.Order
import Overlay.Proofs.Registry.Scheduling
import Overlay.Proofs.Registry.Resolve
import Overlay.Proofs.Registry.Places
import Overlay.Proofs.Record
import Overlay.Proofs.Session
import Overlay.Proofs.Name
import Overlay.Proofs.Number
import Overlay.Proofs.Number.Integer
import Overlay.Proofs.Number.Double
import Overlay.Proofs.Token
import Overlay.Proofs.Token.Number
import Overlay.Proofs.Text.Colour
import Overlay.Proofs.Fragment
import Overlay.Proofs.Fragment.WellFormed
import Overlay.Proofs.Fragment.Grammar
import Overlay.Proofs.Fragment.Fold
import Overlay.Proofs.Tree
import Overlay.Proofs.Tree.Alter
import Overlay.Proofs.Tree.Values
import Overlay.Proofs.Tree.Declared
import Overlay.Proofs.Tree.Tokens
import Overlay.Proofs.Tree.Reading
import Overlay.Proofs.Tree.RoundTrip
import Overlay.Proofs.Session.Requirements
import Overlay.Proofs.Session.Permutation
import Overlay.Proofs.Registry.Contents
import Overlay.Proofs.Registry.Faults
import Overlay.Proofs.Session.Skipping
import Overlay.Proofs.Session.Stages
import Overlay.Proofs.Registry.Circle
import Overlay.Proofs.Tree.Growth
import Overlay.Proofs.Session.Report
import Overlay.Proofs.Order.Isolated
import Overlay.Proofs.Session.Loose
import Overlay.Proofs.Tree.Headings
import Overlay.Proofs.Tree.Entering
import Overlay.Proofs.Tree.Effect
import Overlay.Proofs.Tree.Derivation
import Overlay.Proofs.Tree.Front
import Overlay.Proofs.Tree.Again
import Overlay.Proofs.Tree.Query
import Overlay.Proofs.Tree.Json
import Overlay.Proofs.Tree.Number
import Overlay.Proofs.Tree.Commute
import Overlay.Proofs.Tree.Joined
import Overlay.Proofs.Fragment.Viable
import Overlay.Proofs.Token.Layout
import Overlay.Proofs.Token.Place
import Overlay.Proofs.Version.Numeric
import Overlay.Proofs.Version.Requirement
import Overlay.Proofs.Registry.Counts
import Overlay.Proofs.Files
import Overlay.Proofs.Session.Arrival
