import Rundown.Action.Rehearsal
import Rundown.Compiler
import Rundown.Descriptor.Text
import Rundown.Yaml.Config
import Rundown.Proofs.Engine.FailFast
import Rundown.Proofs.Engine.Performance
import Rundown.Proofs.Engine.SettleAll
import Rundown.Proofs.Engine.InOrder
import Rundown.Proofs.Engine.LifeCycle
import Rundown.Proofs.World.Completion
import Rundown.Proofs.Engine.BranchOrder
import Rundown.Proofs.Compiler.FirstFault
import Rundown.Proofs.Descriptor.FirstOffence
import Rundown.Proofs.Compiler.Routes
import Rundown.Proofs.Signal.Delivery
import Rundown.Proofs.Engine.FirstLaunch
import Rundown.Proofs.Engine.FailureSource
import Rundown.Proofs.Engine.ForemostFailure
import Rundown.Proofs.World.Awaiting
import Rundown.Proofs.World.Ending
import Rundown.Proofs.Descriptor.Rendering
import Rundown.Proofs.Engine.Duration
import Rundown.Proofs.Engine.Onset
import Rundown.Proofs.Signal.Channels
import Rundown.Proofs.Registry.History
import Rundown.Proofs.Engine.Forsaken
import Rundown.Proofs.Engine.Noninterference
import Rundown.Proofs.Duration.Clock
import Rundown.Proofs.Duration.Seconds
import Rundown.Proofs.Signal.Encoding
import Rundown.Proofs.Engine.Nested
import Rundown.Proofs.Compiler.ErrorPaths
