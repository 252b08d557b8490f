import PoolScaling.Autoscaler
import PoolScaling.Directory
import PoolScaling.Main
import PoolScaling.Proofs.Aggregator
import PoolScaling.Proofs.Aggregator.Extreme
import PoolScaling.Proofs.Aggregator.Independence
import PoolScaling.Proofs.Autoscaler.Envelope
import PoolScaling.Proofs.Autoscaler.Failure
import PoolScaling.Proofs.Autoscaler.Forecasters
import PoolScaling.Proofs.Autoscaler.ScaleDownGuard
import PoolScaling.Proofs.Autoscaler.Settling
import PoolScaling.Proofs.Capacity.Filling
import PoolScaling.Proofs.Capacity.Table
import PoolScaling.Proofs.Config.RoundTrip
import PoolScaling.Proofs.Dictionary
import PoolScaling.Proofs.Expr.Crash
import PoolScaling.Proofs.Expr.Definitions
import PoolScaling.Proofs.Expr.Depth
import PoolScaling.Proofs.Expr.Growth
import PoolScaling.Proofs.Expr.Levels
import PoolScaling.Proofs.Expr.Limits
import PoolScaling.Proofs.Expr.Lines
import PoolScaling.Proofs.Expr.Offsets
import PoolScaling.Proofs.Expr.Precedence
import PoolScaling.Proofs.Expr.Sum
import PoolScaling.Proofs.Expr.Termination
import PoolScaling.Proofs.Number.Decimal
import PoolScaling.Proofs.Number.Product
import PoolScaling.Proofs.Number.Shortest
import PoolScaling.Proofs.Pipeline.Conversion
import PoolScaling.Proofs.Pipeline.Reconfiguration
import PoolScaling.Proofs.Policy.Chain
import PoolScaling.Proofs.Policy.Comparison
import PoolScaling.Proofs.Policy.Demand
import PoolScaling.Proofs.Policy.ScaleDown
import PoolScaling.Proofs.Report
import PoolScaling.Proofs.Text.Digits
import PoolScaling.Proofs.Time.Duration
import PoolScaling.Proofs.Toml.Document
import PoolScaling.Proofs.Toml.Number
import PoolScaling.Proofs.Toml.Text
import PoolScaling.Proofs.Autoscaler.Stopwatch
