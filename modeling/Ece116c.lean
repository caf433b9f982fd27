import Ece116c.Procsim.Conservation
import Ece116c.Procsim.Dependence
import Ece116c.Procsim.IssueOrder
import Ece116c.Procsim.ResultBus
import Ece116c.Procsim.Occupancy
import Ece116c.Lib.Rv32i
import Ece116c.Cpusim.Machine
import Ece116c.Cpusim.Decode
import Ece116c.Cpusim.Execute
import Ece116c.Cpusim.Main
import Ece116c.Cpusim.Refine
import Ece116c.Cpusim.Independence
import Ece116c.Cpusim.Frontier
import Ece116c.Window.FrontEnd
import Ece116c.Procsim.FrontTiming
import Ece116c.Window.Finish
import Ece116c.Procsim.RunTime
import Ece116c.Window.Waiting
import Ece116c.Procsim.QueueStats
import Ece116c.Lib.TwoLevel
import Ece116c.Predict.Model
import Ece116c.Predict.Refine
import Ece116c.Predict.Choice
import Ece116c.Predict.Law
import Ece116c.Predict.WarmUp
import Ece116c.Cpusim.Jump
import Ece116c.Cpusim.Reject
import Ece116c.Cpusim.Store
import Ece116c.Cpusim.Frame
import Ece116c.Cpusim.MemoryLaw
import Ece116c.Lib.Walk
import Ece116c.Predict.Aliasing
import Ece116c.Predict.Converge
import Ece116c.Procsim.Retirement
import Ece116c.Procsim.Wakeup
import Ece116c.Lib.CallStack
import Ece116c.Lib.Lru
import Ece116c.Lib.Reading
import Ece116c.Trace.Compress
import Ece116c.Trace.Files
import Ece116c.Trace.Repeat
import Ece116c.Trace.Returns
import Ece116c.Cpusim.Programs
import Ece116c.Lib.Amortized
import Ece116c.Lib.Regret
import Ece116c.Lib.Scan
import Ece116c.Predict.Regret
import Ece116c.Procsim.Driver
import Ece116c.Procsim.Renaming
import Ece116c.Cpusim.Text
import Ece116c.Lib.ListScheduling
import Ece116c.Procsim.Throughput
