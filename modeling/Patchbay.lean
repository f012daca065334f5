import Patchbay.Builtin.Catalogue
import Patchbay.Check.Problem
import Patchbay.History
import Patchbay.Recipe.Kind
import Patchbay.Run.Engine
import Patchbay.Proofs.Check.Agreement
import Patchbay.Proofs.History.Timeline
import Patchbay.Proofs.Run.Cycling
import Patchbay.Proofs.Run.Reuse
import Patchbay.Proofs.Run.Unpulled
import Patchbay.Proofs.Session.Compatible
import Patchbay.Proofs.Session.Complete
import Patchbay.Proofs.Session.RoundTrip
import Patchbay.Proofs.Session.Sound
import Patchbay.Proofs.Snapshot.Text
import Patchbay.Proofs.History.Restorable
import Patchbay.Proofs.Run.Nesting
import Patchbay.Proofs.Run.Filling
import Patchbay.Proofs.Run.Likeness
import Patchbay.Proofs.Run.Tracking
import Patchbay.Proofs.Run.Missing
import Patchbay.Proofs.Session.Connecting
import Patchbay.Proofs.Session.Removing
import Patchbay.Proofs.Session.Disconnecting
import Patchbay.Proofs.Session.Showing
import Patchbay.Proofs.Run.Repeating
import Patchbay.Proofs.Check.Enumeration
import Patchbay.Proofs.Check.Tally
import Patchbay.Proofs.Session.Recreating
import Patchbay.Proofs.Session.Rerouting
import Patchbay.Proofs.Session.Registering
import Patchbay.Proofs.Session.Retaining
import Patchbay.Proofs.Json.Equality
