import OsCourse.Foundations.Machine
import OsCourse.Foundations.Registers
import OsCourse.Foundations.LinkForest
import OsCourse.Foundations.HeapList
import OsCourse.Foundations.LinkedQueue
import OsCourse.Foundations.Census
import OsCourse.PageTable.Shape
import OsCourse.PageTable.Demand
import OsCourse.PageTable.Footprint
import OsCourse.PageTable.Forest
import OsCourse.Pcc.Interrupt
import OsCourse.Pcc.Delivery
import OsCourse.Pcc.Client
import OsCourse.MessageSlot.Journal
import OsCourse.MessageSlot.Turns
import OsCourse.MessageSlot.Order
import OsCourse.MessageSlot.Limit
import OsCourse.MessageSlot.Selection
import OsCourse.MessageSlot.Twins
import OsCourse.MessageSlot.LastWrite
import OsCourse.MessageSlot.Blocks
import OsCourse.MessageSlot.Finalize
import OsCourse.Pfind.Search
import OsCourse.Pfind.Status
import OsCourse.Pfind.Listing
import OsCourse.Shell.Foreground
import OsCourse.Shell.Wiring
import OsCourse.Shell.Moves
import OsCourse.Shell.Interrupts
import OsCourse.Shell.Pipes
import OsCourse.MessageSlot.Failures
import OsCourse.Pcc.Numbers
import OsCourse.Pcc.ReadLoop
import OsCourse.Pfind.Buffers
import OsCourse.Pfind.Termination
import OsCourse.Pfind.Printing
import OsCourse.Pfind.Queue
import OsCourse.MessageSlot.Utilities
import OsCourse.MessageSlot.Exchange
import OsCourse.MessageSlot.Deliveries
import OsCourse.Foundations.Words
import OsCourse.Shell.Arglist
import OsCourse.Shell.Commands
import OsCourse.Foundations.Fifo
import OsCourse.Pcc.Service
import OsCourse.Pcc.Accounts
import OsCourse.Pcc.Answers
import OsCourse.Pcc.Smooth
import OsCourse.Pcc.Completion
