import Gemmini.Load.Recorded
import Gemmini.Mesh.Blocks
import Gemmini.ScratchpadBank
import Gemmini.AccumulatorBanks
import Gemmini.ReservationStation.Busy
import Gemmini.ReservationStation.Progress
import Gemmini.LoopMatmul.Stores
import Gemmini.LoopMatmul.Isolation
import Gemmini.Pipeline
import Gemmini.CounterFile
import Gemmini.CommandTracker
import Gemmini.MaxPool
import Gemmini.LoopConv.Ordering
import Gemmini.Store.Recorded
import Gemmini.Conv.TileMoves
import Gemmini.Dma.Translation
import Gemmini.Load.InFlight
import Gemmini.Execute.Results
import Gemmini.Matmul.Auto
import Gemmini.Conv.TransposedInput
import Gemmini.LoopMatmul.LoadB
import Gemmini.Execute.Hazards
import Gemmini.Execute.CommandQueue
import Gemmini.Execute.OsRows
import Gemmini.Execute.Unroller
import Gemmini.Normalizer.Order
import Gemmini.Normalizer.Constants
import Gemmini.Normalizer.Statistics
import Gemmini.Normalizer.Sequences
import Gemmini.Frontend.Utilization
import Gemmini.Normalizer.Exponential
import Gemmini.Simulator.NormStats
import Gemmini.Store.Activation
import Gemmini.Simulator.LoopBounds
import Gemmini.Simulator.RoundTrip
import Gemmini.Conv.LoopCommand
import Gemmini.Mesh.Rounding
import Gemmini.Normalizer.IntSqrt
