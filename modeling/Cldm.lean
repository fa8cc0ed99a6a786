import Cldm.MockRun
import Cldm.MockBytes
import Cldm.Mock
import Cldm.CollectIdents
import Cldm.CollectFrom
import Cldm.CollectAll
import Cldm.Collect
import Cldm.Testrec
import Cldm.HashFill
import Cldm.Elf
import Cldm.CString
import Cldm.Parking
import Cldm.FuelLoop
import Cldm.PrefixTree
import Cldm.Dfa
import Cldm.DfaTree
import Cldm.DfaRun
import Cldm.Reader
import Cldm.Argp
import Cldm.ArgpLine
import Cldm.ArgpSwitch
import Cldm.ArgpPartition
import Cldm.ArgpParse
import Cldm.ArgpValues
import Cldm.Probing
import Cldm.Bytes
import Cldm.Algo
import Cldm.Hash
import Cldm.HashInv
import Cldm.HashRun
import Cldm.HashStep
import Cldm.Dl
import Cldm.DlRun
import Cldm.DlNext
import Cldm.ColorTree
import Cldm.Rbtree
import Cldm.RbtreeRep
import Cldm.RbtreeInv
import Cldm.RbtreeRotate
import Cldm.RbtreeInsert
import Cldm.RbtreeRemove
import Cldm.RbtreeRun
import Cldm.RbtreeThreads
import Cldm.HashRefine
import Cldm.HashGrow
import Cldm.Trace
import Cldm.TestLog
import Cldm.CInt
import Cldm.AssertGeneric
import Cldm.RunTrace
import Cldm.Sequential
import Cldm.Parallel
import Cldm.ParallelPhase
import Cldm.ParallelTests
import Cldm.ParallelLog
import Cldm.ParallelPrint
import Cldm.ParallelReduce
import Cldm.ParallelRun
import Cldm.Cursor
import Cldm.PrimeTest
import Cldm.BlockHeap
import Cldm.Jmpstack
import Cldm.JmpstackRun
import Cldm.ElfBytes
import Cldm.ElfBase
import Cldm.ElfNeeded
import Cldm.DlMain
import Cldm.Space
import Cldm.Avx2
import Cldm.AvxMemcpy
import Cldm.AvxMemset
import Cldm.AvxMemcmp
import Cldm.Byteseq
import Cldm.AvxScanLt
import Cldm.AvxStrcmp
import Cldm.AvxStrscpy
import Cldm.Io
import Cldm.Stdio
import Cldm.AlgoArray
import Cldm.ElemArray
import Cldm.IoCapture
import Cldm.IoDump
import Cldm.TestRuns
import Cldm.AvxMemswp
import Cldm.Exchange
import Cldm.Advsimd
import Cldm.AdvsimdMemswp
import Cldm.AvxStrlen
import Cldm.AvxStrrchr
import Cldm.RbtreeLinks
import Cldm.RbtreeUnlink
import Cldm.ParallelLive
import Cldm.ParallelVerdict
import Cldm.ParallelAgrees
import Cldm.RbtreeCheck
import Cldm.ElfMap
import Cldm.ParallelFailFast
