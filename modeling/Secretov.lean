import Secretov.LineDelivery
import Secretov.StoreRefinement
import Secretov.StoreSecrecy
import Secretov.Protocol
import Secretov.AtomicWrites
import Secretov.Daemon
import Secretov.DaemonReplies
import Secretov.Client
import Secretov.ClientDaemon
import Secretov.ClientOutcomes
import Secretov.EnvNames
import Secretov.Groups
import Secretov.Manifest
import Secretov.ManifestTrust
import Secretov.RequireTrusted
import Secretov.TuiPaste
import Secretov.Dotenv
import Secretov.StoreReads
import Secretov.Listener
import Secretov.FetchMany
import Secretov.ImportRuns
import Secretov.CreateOnly
import Secretov.ExecMarker
import Secretov.ManifestNames
import Secretov.CloudPaths
import Secretov.LineCap
import Secretov.DotenvComments
import Secretov.ManifestInserts
import Secretov.ManifestMeaning
import Secretov.Migration
import Secretov.ManifestLinks
import Secretov.Printable
import Secretov.Ellipsis
import Secretov.WordWrap
import Secretov.FormEdits
import Secretov.Scopes
import Secretov.KeyTree
import Secretov.Selection
import Secretov.DeleteLanding
import Secretov.TypedPaste
import Secretov.DurableStore
import Secretov.CommandRuns
import Secretov.PassphraseCommands
import Secretov.SnapshotReads
import Secretov.ImportedExec
import Secretov.Installation
import Secretov.VouchedScopes
import Secretov.Clipboard
import Secretov.Marks
import Secretov.VouchedImports
