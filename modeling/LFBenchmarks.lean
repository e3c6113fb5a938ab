import LFBenchmarks.Framework.Schedule
import LFBenchmarks.Framework.Output
import LFBenchmarks.Framework.Stdio
import LFBenchmarks.Framework.Scan
import LFBenchmarks.Framework.Decimal
import LFBenchmarks.Framework.Terminator
import LFBenchmarks.Framework.LastWins
import LFBenchmarks.Framework.Runs
import LFBenchmarks.Framework.PyText
import LFBenchmarks.Framework.Pattern
import LFBenchmarks.FlyByWire.Nav
import LFBenchmarks.FlyByWire.Sentence
import LFBenchmarks.FlyByWire.Reactors
import LFBenchmarks.FlyByWire.System
import LFBenchmarks.FlyByWire.Determinism
import LFBenchmarks.FlyByWire.TagEffect
import LFBenchmarks.FlyByWire.BehaviorTest
import LFBenchmarks.FlyByWire.Voting
import LFBenchmarks.FlyByWire.Stream
import LFBenchmarks.FlyByWire.Navigation
import LFBenchmarks.FlyByWire.History
import LFBenchmarks.FlyByWire.Lines
import LFBenchmarks.FlyByWire.Lockstep
import LFBenchmarks.FlyByWire.Verdict
import LFBenchmarks.FlyByWire.Bias
import LFBenchmarks.FlyByWire.FailStop
import LFBenchmarks.FlyByWire.EndOfData
import LFBenchmarks.FlyByWire.Validation
import LFBenchmarks.FlyByWire.Equivalence
import LFBenchmarks.FlyByWire.Console
import LFBenchmarks.FlyByWire.Transcript
import LFBenchmarks.FlyByWire.Controlled
import LFBenchmarks.Math.Sphere
import LFBenchmarks.Math.Polygons
import LFBenchmarks.FlyByWire.GreatCircle
import LFBenchmarks.FlyByWire.Position
import LFBenchmarks.FlyByWire.SpeedRange
import LFBenchmarks.Scripts.CompareFbw
import LFBenchmarks.Scripts.CompareBehavior
import LFBenchmarks.Scripts.CheckE2e
import LFBenchmarks.FlyByWire.EndToEnd
import LFBenchmarks.Math.LeastSquares
import LFBenchmarks.Math.CoordinateDescent
import LFBenchmarks.Math.DoubleIntegrator
import LFBenchmarks.Mpc.Solver
import LFBenchmarks.Mpc.Objective
import LFBenchmarks.Mpc.ClosedLoop
import LFBenchmarks.Mpc.Threaded
import LFBenchmarks.Mpc.Descent
import LFBenchmarks.Mpc.Envelope
import LFBenchmarks.Mpc.Symmetry
import LFBenchmarks.Mpc.Equilibrium
import LFBenchmarks.Mpc.Optimizer
import LFBenchmarks.Mpc.Trajectory
import LFBenchmarks.Mpc.WarmStart
import LFBenchmarks.Mpc.Isolation
import LFBenchmarks.Mpc.Agreement
import LFBenchmarks.Mpc.Convergence
import LFBenchmarks.Mpc.Monotone
import LFBenchmarks.Mpc.Gradient
import LFBenchmarks.Mpc.Shutdown
import LFBenchmarks.Mpc.Brake
import LFBenchmarks.Framework.Relax
import LFBenchmarks.Framework.Superdense
import LFBenchmarks.Framework.Conservative
import LFBenchmarks.ReactorC.Tag
import LFBenchmarks.ReactorC.Bounds
import LFBenchmarks.Federated.MinDelays
import LFBenchmarks.Federated.Dnet
import LFBenchmarks.Federated.Rti
import LFBenchmarks.Federated.Eimt
import LFBenchmarks.Federated.Federation
import LFBenchmarks.Federated.Grants
import LFBenchmarks.Federated.Promises
import LFBenchmarks.Federated.FederateSteps
import LFBenchmarks.Federated.RtiSteps
import LFBenchmarks.Federated.Arrivals
import LFBenchmarks.Federated.Handlers
import LFBenchmarks.Federated.Safety
import LFBenchmarks.Federated.Stop
import LFBenchmarks.Federated.Consensus
