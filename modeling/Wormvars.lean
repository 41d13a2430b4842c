import Wormvars.NorFlash
import Wormvars.NewerLog
import Wormvars.Structs
import Wormvars.Fs
import Wormvars.Thread
import Wormvars.Body
import Wormvars.Cells
import Wormvars.Invariant
import Wormvars.Append
import Wormvars.Victim
import Wormvars.Relocation
import Wormvars.Calls
import Wormvars.Walk
import Wormvars.Boot
import Wormvars.ColdBoot
import Wormvars.Runs
import Wormvars.Switch
import Wormvars.Protothread
import Wormvars.System
import Wormvars.Turns
import Wormvars.Tour
import Wormvars.Choice
import Wormvars.Overflow
import Wormvars.Store
import Wormvars.Refinement
import Wormvars.Recovery
import Wormvars.Safety
import Wormvars.Supply
import Wormvars.Capacity
import Wormvars.Polling
import Wormvars.Wedge
import Wormvars.Wear
import Wormvars.Pinned
import Wormvars.Latency
import Wormvars.Throughput
import Wormvars.Failures
import Wormvars.Reinit
import Wormvars.Agreement
import Wormvars.Chain
import Wormvars.Repair
import Wormvars.Ink
import Wormvars.Endurance
import Wormvars.Burst
import Wormvars.Torn
import Wormvars.Codec
import Wormvars.Mock
import Wormvars.Harness
import Wormvars.Life
import Wormvars.Recursion
import Wormvars.Blocks
import Wormvars.Tidy
import Wormvars.Taken
import Wormvars.Copies
