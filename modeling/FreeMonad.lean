import FreeMonad.Script.Input
import FreeMonad.Program.Widen
import FreeMonad.Proofs.Builders
import FreeMonad.Proofs.Meaning
import FreeMonad.Proofs.Observation
import FreeMonad.Proofs.Policy
import FreeMonad.Proofs.MonadLaws
import FreeMonad.Proofs.Paired
import FreeMonad.Proofs.EvaluationOrder
import FreeMonad.Proofs.Homomorphism
import FreeMonad.Proofs.ByHand
import FreeMonad.Proofs.Translation
import FreeMonad.Proofs.Polling
import FreeMonad.Proofs.Drivers
import FreeMonad.Proofs.FirstFailure
import FreeMonad.Proofs.Cancelling
import FreeMonad.Proofs.Naturality
import FreeMonad.Proofs.Transparency
import FreeMonad.Proofs.Widening
import FreeMonad.Proofs.Congruence
import FreeMonad.Proofs.Handling
import FreeMonad.Proofs.Course
import FreeMonad.Proofs.Lowering
import FreeMonad.Proofs.Events
import FreeMonad.Proofs.Prism
import FreeMonad.Proofs.Stages
import FreeMonad.Proofs.Pace
import FreeMonad.Proofs.Discarding
import FreeMonad.Proofs.Termination
import FreeMonad.Proofs.Stepping
import FreeMonad.Proofs.Runs
import FreeMonad.Proofs.Applicative
import FreeMonad.Proofs.Underway
import FreeMonad.Proofs.Lockstep
import FreeMonad.Proofs.FirstStep
import FreeMonad.Proofs.Iteration
import FreeMonad.Proofs.Splicing
import FreeMonad.Proofs.Variants
import FreeMonad.Proofs.Conversions
import FreeMonad.Proofs.Queueing
