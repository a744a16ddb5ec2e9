import Dan64.Mos6502
import Dan64.Vm
import Dan64.VmRefine
import Dan64.VmStack
import Dan64.CarryChain
import Dan64.VmMultiByte
import Dan64.CText
import Dan64.Dasm
import Dan64.DasmLine
import Dan64.DasmRound
import Dan64.DasmForm
import Dan64.DasmVm
import Dan64.DasmBranch
import Dan64.SplitMem
import Dan64.Mealy
import Dan64.Storage
import Dan64.MemHistory
import Dan64.SharedMem
import Dan64.Terminal
import Dan64.TerminalBounds
import Dan64.RingBuf
import Dan64.Tape
import Dan64.AudioOut
import Dan64.AudioIn
import Dan64.GetInput
import Dan64.TerminalRender
import Dan64.VmNesting
import Dan64.CRuntime
import Dan64.TapeSignal
import Dan64.EditorText
import Dan64.VmPointer
import Dan64.TerminalPage
import Dan64.EditorScreen
import Dan64.Fgets
import Dan64.Syscall
import Dan64.WriteRead
import Dan64.AudioReturn
import Dan64.AudioRate
import Dan64.Keyboard
import Dan64.DasmData
import Dan64.DasmReject
import Dan64.DasmBuffer
import Dan64.DasmLiteral
import Dan64.DasmTable
import Dan64.DecoderFault
import Dan64.DasmStep
import Dan64.ScanOut
import Dan64.TapeLength
import Dan64.DasmListing
import Dan64.SaveCommand
import Dan64.Steps
import Dan64.VmMap
import Dan64.VmTest
import Dan64.CmdRun
import Dan64.CallFrame
import Dan64.Loading
import Dan64.TapeCopy
import Dan64.Shell
import Dan64.ShellCopy
import Dan64.AsProgram
import Dan64.Bus
import Dan64.Desk
import Dan64.ScanCodes
