import Conch.Main
import Conch.Tools.Toolbox
import Conch.World.OnDisk
import Conch.Proofs.Agreement.Bytes
import Conch.Proofs.Appending
import Conch.Proofs.Arithmetic.Powers
import Conch.Proofs.Arithmetic.Stored
import Conch.Proofs.Arithmetic.Termination
import Conch.Proofs.Arithmetic.Writing
import Conch.Proofs.Canonical
import Conch.Proofs.DeadEnds
import Conch.Proofs.Effect.Answers
import Conch.Proofs.Extents
import Conch.Proofs.Faithful
import Conch.Proofs.Job.Waiting
import Conch.Proofs.Pattern.Matching
import Conch.Proofs.Pattern.Stars
import Conch.Proofs.Pointing
import Conch.Proofs.Quoting
import Conch.Proofs.Reuse
import Conch.Proofs.Session.Input
import Conch.Proofs.Session.Program
import Conch.Proofs.Session.Sitting
import Conch.Proofs.Session.Statuses
import Conch.Proofs.Session.Transcript
import Conch.Proofs.Shallow
import Conch.Proofs.Shell.Choices
import Conch.Proofs.Shell.Contracts
import Conch.Proofs.Shell.Counting
import Conch.Proofs.Shell.Crashes
import Conch.Proofs.Shell.Directories
import Conch.Proofs.Shell.Expansions
import Conch.Proofs.Shell.Forwarding
import Conch.Proofs.Shell.Interruptions
import Conch.Proofs.Shell.Invocations
import Conch.Proofs.Shell.Listing
import Conch.Proofs.Shell.Loops
import Conch.Proofs.Shell.Prefixes
import Conch.Proofs.Shell.Resplitting
import Conch.Proofs.Shell.Splitting
import Conch.Proofs.Stream.Pipeline
import Conch.Proofs.Stream.Searching
import Conch.Proofs.Substituting
import Conch.Proofs.Tools.Feeding
import Conch.Proofs.World.Served
