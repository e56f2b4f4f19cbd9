import SysProg.FifoSeq.BadClient
import SysProg.FifoSeq.Quiet
import SysProg.DictFile.Finish
import SysProg.DictFile.Mapped
import SysProg.DictFile.Overrun
import SysProg.FifoSeq.Abandon
import SysProg.HoleFile.Copy
import SysProg.MapCopy.Copy
import SysProg.MqFile.Server
import SysProg.MqFile.Transfer
import SysProg.MsgSeq.Deadlock
import SysProg.MsgSeq.Ranges
import SysProg.NetDict.Contents
import SysProg.NetDict.Destination
import SysProg.NetDict.Framing
import SysProg.NetDict.Leftover
import SysProg.NetDict.Prompt
import SysProg.NetDict.Remote
import SysProg.NetDict.Stale
import SysProg.NetDict.Udp
import SysProg.Part1.Mycat
import SysProg.Part1.PipeLs
import SysProg.PingPong.Exchange
import SysProg.PipeFilter.Wait
import SysProg.Popen.Main
import SysProg.ProcTree.Heap
import SysProg.ProcTree.Openers
import SysProg.ProcTree.Users
import SysProg.Shell.Session
import SysProg.Shell.Descriptors
import SysProg.Shell.Foreground
import SysProg.Shell.Sizes
import SysProg.ShmDict.Answers
import SysProg.ShmDict.Exit
import SysProg.ShmDict.Undo
import SysProg.ShmPipe.Sessions
import SysProg.SigRing.Slots
import SysProg.SysV.Previous
import SysProg.Tail.Print
import SysProg.Tee.Copy
import SysProg.NetDict.Forking
import SysProg.NetDict.Once
