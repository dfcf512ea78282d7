import Sanntid.Transition.System
import Sanntid.Transition.Threads
import Sanntid.Transition.Object
import Sanntid.Transition.Semaphore
import Sanntid.Transition.Mutex
import Sanntid.Control.Fallible
import Sanntid.Memory.Block
import Sanntid.Memory.Filled
import Sanntid.Memory.Ring
import Sanntid.Arith.Machine
import Sanntid.DynamicArray.Model
import Sanntid.DynamicArray.Deque
import Sanntid.DynamicArray.Fixed
import Sanntid.DynamicArray.Growth
import Sanntid.DynamicArray.Iteration
import Sanntid.DynamicArray.Reserve
import Sanntid.Sorting.Bubble
import Sanntid.Sorting.Sort
import Sanntid.Time.Timespec
import Sanntid.Time.Laws
import Sanntid.Time.Periodic
import Sanntid.Time.BusyWait
import Sanntid.Time.Histogram
import Sanntid.Time.CpuTime
import Sanntid.Icpp.Kernel
import Sanntid.Icpp.Calls
import Sanntid.Icpp.NonBlocking
import Sanntid.Icpp.TaskE
import Sanntid.Interrupt.Board
import Sanntid.Interrupt.Edges
import Sanntid.Interrupt.Pulses
import Sanntid.Counter.Model
import Sanntid.Counter.Race
import Sanntid.DoubleChecked.Model
import Sanntid.DoubleChecked.Calls
import Sanntid.Philosophers.Table
import Sanntid.Philosophers.Eat
import Sanntid.Philosophers.Waiter
import Sanntid.Philosophers.Safe
import Sanntid.Philosophers.Livelock
import Sanntid.FreeRTOS.Lists
import Sanntid.FreeRTOS.Kernel
import Sanntid.FreeRTOS.Ticks
import Sanntid.FreeRTOS.Scheduler
import Sanntid.FreeRTOS.ResponseTasks
import Sanntid.Comedi.Io
import Sanntid.Comedi.Responses
