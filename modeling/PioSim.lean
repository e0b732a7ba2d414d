import PioSim.Queues
import PioSim.IrqWait
import PioSim.BitRelay
import PioSim.Coherence
import PioSim.Fairness
import PioSim.DmaEcho
import PioSim.HostTiming
import PioSim.Relocation
import PioSim.Lib.Run
import PioSim.Lib.Rate
import PioSim.Asm.Assemble
import PioSim.Asm.Directives
import PioSim.Asm.Grammar
import PioSim.Asm.Listing
import PioSim.Asm.Parsing
import PioSim.Asm.Precedence
import PioSim.Asm.Transparency
import PioSim.Operation
import PioSim.DmaTransfer
import PioSim.Dividers
import PioSim.ClockRate
import PioSim.IrqLedger
import PioSim.Synchroniser
import PioSim.PadSteps
import PioSim.PioOutput
import PioSim.Isolation
import PioSim.Congruence
import PioSim.Stalls
import PioSim.ForcedDelay
import PioSim.TurnOrder
import PioSim.PinWrites
import PioSim.Sticky
import PioSim.Asm.Outcome
import PioSim.Asm.Literals
import PioSim.Overlay
import PioSim.Fdebug
import PioSim.Lib.Pacing
import PioSim.Pace
import PioSim.OutEnable
import PioSim.Asm.Reordering
import PioSim.Asm.Twins
import PioSim.Asm.Order
import PioSim.Asm.Emitted
import PioSim.Asm.Spelling
import PioSim.Asm.Words
import PioSim.Mux
import PioSim.Lib.Rounding
import PioSim.Asm.Agreement
import PioSim.ClockTree
import PioSim.DmaRing
import PioSim.DmaTimers
import PioSim.Lib.Crc
import PioSim.Sniffer
import PioSim.PinWindow
import PioSim.Asm.Termination
import PioSim.Asm.Passes
import PioSim.Asm.Unused
import PioSim.Asm.Declared
import PioSim.Asm.Comments
import PioSim.Asm.Accounting
import PioSim.Asm.Decoding
import PioSim.Lockstep
import PioSim.Residence
import PioSim.Asm.Compiled
import PioSim.DmaCheckedCopy
import PioSim.DmaLedger
import PioSim.DmaClient
import PioSim.Fixtures
import PioSim.DmaInterrupts
import PioSim.Interrupts
import PioSim.RegisterFile
import PioSim.PadRegisters
import PioSim.Keeper
import PioSim.Bystander
import PioSim.PioChip
import PioSim.Capture
import PioSim.GroupSync
import PioSim.Waiting
import PioSim.Asm.Extent
