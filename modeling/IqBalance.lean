import IqBalance.Balancer.Run
import IqBalance.Correction.Json
import IqBalance.Session
import IqBalance.Spectrum.TablePool
import IqBalance.Proofs.ExactArithmetic
import IqBalance.Proofs.Spectrum.InPlace
import IqBalance.Proofs.Spectrum.Fourier
import IqBalance.Proofs.Correlation.Windows
import IqBalance.Proofs.Correlation.Tones
import IqBalance.Proofs.Correlation.TrialSums
import IqBalance.Proofs.Correlation.ExactUtility
import IqBalance.Proofs.Correlation.ImageFree
import IqBalance.Proofs.Correlation.UsableBins
import IqBalance.Proofs.Lookback
import IqBalance.Proofs.Binary32.Reading
import IqBalance.Proofs.Binary32.Order
import IqBalance.Proofs.Binary32.Rounding
import IqBalance.Proofs.Binary32.Positive
import IqBalance.Proofs.AcceptedConfig
import IqBalance.Proofs.Counters
import IqBalance.Proofs.Balancer.Steps
import IqBalance.Proofs.Balancer.Cycle
import IqBalance.Proofs.Balancer.NoFault
import IqBalance.Proofs.Balancer.Finite
import IqBalance.Proofs.Balancer.Cadence
import IqBalance.Proofs.Balancer.Publication
import IqBalance.Proofs.Balancer.Stream
import IqBalance.Proofs.Correlation.Gain
import IqBalance.Proofs.Balancer.Gain
import IqBalance.Proofs.Axis
import IqBalance.Proofs.Balancer.Estimates
import IqBalance.Proofs.Balancer.AdaptiveSteps
import IqBalance.Proofs.Balancer.Drift
import IqBalance.Proofs.Balancer.FixedPoint
import IqBalance.Proofs.Balancer.Retuning
import IqBalance.Proofs.Balancer.Snapshot
import IqBalance.Proofs.Correlation.Conjugation
import IqBalance.Proofs.ZeroFree
import IqBalance.Proofs.Session.Requests
import IqBalance.Proofs.Session.Simulation
import IqBalance.Proofs.Json.Tokens
import IqBalance.Proofs.Json.Records
import IqBalance.Proofs.Json.Numbers
import IqBalance.Proofs.Json.RoundTrip
import IqBalance.Proofs.Balancer.Continuity
import IqBalance.Proofs.Correlation.Accumulation
import IqBalance.Proofs.Axis.NewtonStep
import IqBalance.Proofs.Binary32.Overflow
import IqBalance.Proofs.Balancer.Overflow
import IqBalance.Proofs.DcTracker
import IqBalance.Proofs.Spectrum.BitReversal
import IqBalance.Proofs.Spectrum.Tables
