import RocketVm.Lib.Machine
import RocketVm.Cpu.Cycle
import RocketVm.Vm
import RocketVm.Asm.Lexer
import RocketVm.Asm.Parser
import RocketVm.Asm.Emitter
import RocketVm.Language
import RocketVm.Source
import RocketVm.Laws.Cpu
import RocketVm.Laws.Vm
import RocketVm.Laws.Arithmetic
import RocketVm.Laws.Shifts
import RocketVm.Laws.Integers
import RocketVm.Laws.Safety
import RocketVm.Laws.Stack
import RocketVm.Laws.Frame
import RocketVm.Laws.Fetch
import RocketVm.Laws.Runs
import RocketVm.Laws.Straight
import RocketVm.Laws.Lexer
import RocketVm.Laws.Words
import RocketVm.Laws.Chunks
import RocketVm.Laws.Tables
import RocketVm.Laws.Parser
import RocketVm.Laws.Calls
import RocketVm.Laws.Tokens
import RocketVm.Laws.Grammar
import RocketVm.Laws.Prefix
import RocketVm.Laws.Definitions
import RocketVm.Laws.Spelling
import RocketVm.Laws.Keywords
import RocketVm.Laws.Layout
import RocketVm.Laws.Characters
import RocketVm.Laws.Encoder
import RocketVm.Laws.Sentinels
import RocketVm.Laws.Numbers
import RocketVm.Laws.Image
import RocketVm.Laws.Refinement
import RocketVm.Laws.Lines
import RocketVm.Laws.Renaming
import RocketVm.Laws.Linking
import RocketVm.Laws.Writer
import RocketVm.Laws.Dump
import RocketVm.Commands
import RocketVm.Laws.Reports
import RocketVm.Laws.Commands
import RocketVm.Laws.Pipeline
import RocketVm.Laws.Locality
import RocketVm.Laws.Recurrence
import RocketVm.Laws.Disassembly
import RocketVm.Laws.Builds
import RocketVm.Laws.Relocation
import RocketVm.Laws.Triples
import RocketVm.Logger
import RocketVm.Laws.Logger
