import OsLab.Am.VmeRun
import OsLab.Am.Boot
import OsLab.Am.TrapSwitch
import OsLab.Am.TrapGates
import OsLab.Am.MpTable
import OsLab.Am.Mpe
import OsLab.Lib.Run
import OsLab.Lib.PtrList
import OsLab.Lib.Buddy
import OsLab.Lib.Ring
import OsLab.Lib.Copy
import OsLab.Lib.StableSort
import OsLab.Lib.Lex
import OsLab.Lib.Numeral
import OsLab.Common
import OsLab.Klib.Compare
import OsLab.Klib.Strncpy
import OsLab.Klib.Snprintf
import OsLab.Klib.Int64Div
import OsLab.Klib.Printf
import OsLab.Klib.Stdlib
import OsLab.Page.Basic
import OsLab.Page.Tree
import OsLab.Page.Heap
import OsLab.Page.Init
import OsLab.Page.Alloc
import OsLab.Page.Run
import OsLab.Page.Release
import OsLab.Page.Complete
import OsLab.Page.Bubble
import OsLab.Page.Interleave
import OsLab.Page.Summary
import OsLab.Slab.Run
import OsLab.Slab.Disjoint
import OsLab.Slab.Shape
import OsLab.Slab.Locks
import OsLab.Slab.Recover
import OsLab.Spin.Nesting
import OsLab.Sem.Inv
import OsLab.Sem.Client
import OsLab.Sem.ProducerConsumer
import OsLab.Sem.Grants
import OsLab.Sem.Fifo
import OsLab.Kmt.Inv
import OsLab.Kmt.Sched
import OsLab.Kmt.Idle
import OsLab.Kmt.RoundRobin
import OsLab.Kmt.Dangling
import OsLab.Dev.SdSteps
import OsLab.Dev.Input
import OsLab.Dev.Keyboard
import OsLab.Dev.TtyQueue
import OsLab.Dev.TtyBackspace
import OsLab.Dev.TtyTape
import OsLab.Dev.TtySwitch
import OsLab.Dev.TtyRedraw
import OsLab.Dev.Picture
import OsLab.Dev.TtyLocks
import OsLab.Dev.Typing
import OsLab.Os.IrqOrder
import OsLab.Kmt.TaskList
import OsLab.Dev.KbdDrain
