import LC3Tools.Runs
import LC3Tools.Sim.Lockstep
import LC3Tools.Sim.ConditionCode
import LC3Tools.Sim.Convert
import LC3Tools.Sim.Lc3Def
import LC3Tools.Sim.Exceptions
import LC3Tools.Sim.Compose
import LC3Tools.Sim.Arithmetic
import LC3Tools.Sim.VmLoader
import LC3Tools.Sim.Symbols
import LC3Tools.Sim.Debugger
import LC3Tools.Assembler.Image
import LC3Tools.Assembler.Immediates
import LC3Tools.Assembler.Reach
import LC3Tools.Lcc.Shift
import LC3Tools.Lcc.CodeListRuns
import LC3Tools.Lcc.Lburg
import LC3Tools.Lcc.Arena
import LC3Tools.Cpp.ExpandLimit
import LC3Tools.Cpp.ExpandDone
import LC3Tools.Cpp.EvalGrammar
import LC3Tools.Lcc.StatementText
import LC3Tools.Lcc.Fill
import LC3Tools.Lcc.StringImage
import LC3Tools.Lcc.StringToken
import LC3Tools.Lcc.InlineAsm
import LC3Tools.Lcc.PrivateLabels
import LC3Tools.Lcc.Compare
import LC3Tools.Lcc.Logic
import LC3Tools.Lcc.Multiply
import LC3Tools.Lcc.RightShift
import LC3Tools.Lcc.FarStore
import LC3Tools.Lcc.GlobalReferences
import LC3Tools.Lcc.BlockCopy
import LC3Tools.Lcc.Calling
import LC3Tools.Lcc.FoldingExact
import LC3Tools.Assembler.Diagnostics
import LC3Tools.Stdio.PrintfRuns
import LC3Tools.Stdio.ScanfReads
